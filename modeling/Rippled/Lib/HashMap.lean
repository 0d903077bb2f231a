import Mathlib.Data.Finmap
import Mathlib.Data.List.Sort

namespace Rippled.Lib

open Multiset Finmap

/-- An unordered map. Whatever depends on an iteration order takes that order as an argument. -/
abbrev HashMap (K V : Type) := Finmap (fun _ : K => V)

namespace HashMap

variable {K V W : Type}

def values (m : HashMap K V) : Multiset V := m.entries.map Sigma.snd

theorem nodupKeys_of_keys_le {s : Multiset (Σ _ : K, V)} {t : Multiset (Σ _ : K, W)}
    (ht : t.NodupKeys) (h : s.keys ≤ t.keys) : s.NodupKeys :=
  nodup_keys.mp (nodup_of_le h (nodup_keys.mpr ht))

theorem card_values (m : HashMap K V) : (values m).card = m.keys.card := by
  rw [values, card_map]
  exact (card_map _ _).symm

def mapValues (f : K → V → W) (m : HashMap K V) : HashMap K W :=
  ⟨m.entries.map (fun e => ⟨e.1, f e.1 e.2⟩), nodupKeys_of_keys_le m.nodupKeys (by
    simp [Multiset.keys])⟩

def filter (p : K → V → Bool) (m : HashMap K V) : HashMap K V :=
  ⟨m.entries.filter (fun e => p e.1 e.2), nodupKeys_of_keys_le m.nodupKeys
    (Multiset.map_le_map (Multiset.filter_le _ _))⟩

variable [DecidableEq K]

theorem lookup_insert_eq (m : HashMap K V) (k k' : K) (v : V) :
    (m.insert k v).lookup k' = if k' = k then some v else m.lookup k' := by
  by_cases h : k' = k
  · subst h
    rw [if_pos rfl, lookup_insert]
  · rw [if_neg h, lookup_insert_of_ne _ h]

theorem lookup_erase_eq (m : HashMap K V) (k k' : K) :
    (m.erase k).lookup k' = if k' = k then none else m.lookup k' := by
  by_cases h : k' = k
  · subst h
    rw [if_pos rfl, lookup_erase]
  · rw [if_neg h, lookup_erase_ne h]

variable {m : HashMap K V} {k : K} {v : V}

theorem lookup_eq_some_iff : m.lookup k = some v ↔ (⟨k, v⟩ : Σ _ : K, V) ∈ m.entries :=
  mem_lookup_iff

theorem lookup_mapValues (f : K → V → W) (m : HashMap K V) (k : K) :
    (mapValues f m).lookup k = (m.lookup k).map (f k) := by
  apply Option.ext
  intro w
  simp only [lookup_eq_some_iff, Option.map_eq_some_iff, mapValues, mem_map]
  constructor
  · rintro ⟨⟨k', v⟩, hm, he⟩
    cases he
    exact ⟨v, hm, rfl⟩
  · rintro ⟨v, hm, rfl⟩
    exact ⟨⟨k, v⟩, hm, rfl⟩

theorem lookup_filter (p : K → V → Bool) (m : HashMap K V) (k : K) :
    (filter p m).lookup k = (m.lookup k).filter (p k) := by
  apply Option.ext
  intro v
  simp only [lookup_eq_some_iff, Option.filter_eq_some_iff, filter, mem_filter]

theorem values_insert (h : m.lookup k = none) (v : V) : values (m.insert k v) = v ::ₘ values m := by
  rw [values, entries_insert_of_notMem (lookup_eq_none.mp h), map_cons]
  rfl

theorem insert_erase (m : HashMap K V) (k : K) (v : V) : (m.erase k).insert k v = m.insert k v := by
  apply ext_lookup
  intro k'
  rw [lookup_insert_eq, lookup_insert_eq, lookup_erase_eq]
  by_cases hk : k' = k
  · rw [if_pos hk, if_pos hk]
  · rw [if_neg hk, if_neg hk, if_neg hk]

theorem insert_of_lookup (h : m.lookup k = some v) : m.insert k v = m := by
  apply ext_lookup
  intro k'
  rw [lookup_insert_eq]
  by_cases hk : k' = k
  · rw [if_pos hk, hk, h]
  · rw [if_neg hk]

theorem erase_of_lookup (h : m.lookup k = none) : m.erase k = m := by
  apply ext_lookup
  intro k'
  rw [lookup_erase_eq]
  by_cases hk : k' = k
  · rw [if_pos hk, hk, h]
  · rw [if_neg hk]

theorem values_of_lookup (h : m.lookup k = some v) : values m = v ::ₘ values (m.erase k) := by
  rw [← values_insert (lookup_erase k m) v, insert_erase, insert_of_lookup h]

end HashMap

/-- The elements of a finite set in increasing order. -/
def ascending {K : Type} [LinearOrder K] (s : Finset K) : List K :=
  Quot.liftOn s.val (List.insertionSort (· ≤ ·)) (fun l l' h =>
    ((List.perm_insertionSort _ l).trans (h.trans (List.perm_insertionSort _ l').symm)).eq_of_sortedLE
      List.sortedLE_insertionSort List.sortedLE_insertionSort)

variable {K : Type}

theorem coe_ascending [LinearOrder K] (s : Finset K) : (ascending s : Multiset K) = s.val := by
  obtain ⟨m, hm⟩ := s
  induction m using Quotient.inductionOn with
  | h l => exact Quot.sound (List.perm_insertionSort _ l)

theorem mem_ascending [LinearOrder K] {s : Finset K} {k : K} : k ∈ ascending s ↔ k ∈ s := by
  rw [← mem_coe, coe_ascending, Finset.mem_val]

theorem nodup_ascending [LinearOrder K] (s : Finset K) : (ascending s).Nodup := by
  rw [← coe_nodup, coe_ascending]
  exact s.nodup

end Rippled.Lib
