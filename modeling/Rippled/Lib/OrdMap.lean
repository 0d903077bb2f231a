import Mathlib.Data.List.Sort

namespace Rippled.Lib.OrdMap

open List

variable {K V : Type} [LinearOrder K]

/-- The entries of an ordered map: strictly increasing keys, hence each key at most once. -/
def Sorted (l : List (K × V)) : Prop := l.Pairwise (fun a b => a.1 < b.1)

/-- Rewrite the value stored under one key. `none` stands for an absent entry on both sides, so
insertion, update and removal are instances of this single operation. -/
def alterList (k : K) (f : Option V → Option V) : List (K × V) → List (K × V)
  | [] => (f none).toList.map (fun v => (k, v))
  | e :: rest =>
    if k < e.1 then (f none).toList.map (fun v => (k, v)) ++ e :: rest
    else if k = e.1 then (f (some e.2)).toList.map (fun v => (k, v)) ++ rest
    else e :: alterList k f rest

variable {k : K} {l : List (K × V)} {f : Option V → Option V}

theorem mem_alterList {e : K × V} (h : e ∈ alterList k f l) : e.1 = k ∨ e ∈ l := by
  induction l with
  | nil =>
    obtain ⟨v, _, rfl⟩ := List.mem_map.mp h
    exact .inl rfl
  | cons a rest ih =>
    rw [alterList] at h
    split_ifs at h with hlt heq
    · rcases mem_append.mp h with h | h
      · obtain ⟨v, _, rfl⟩ := List.mem_map.mp h
        exact .inl rfl
      · exact .inr h
    · rcases mem_append.mp h with h | h
      · obtain ⟨v, _, rfl⟩ := List.mem_map.mp h
        exact .inl rfl
      · exact .inr (mem_cons_of_mem _ h)
    · rcases mem_cons.mp h with rfl | h
      · exact .inr (by simp)
      · exact (ih h).imp id (mem_cons_of_mem _)

theorem sorted_toList_append {o : Option V} (hl : Sorted l) (hk : ∀ e ∈ l, k < e.1) :
    Sorted (o.toList.map (fun v => (k, v)) ++ l) := by
  cases o with
  | none => simpa using hl
  | some v => simpa [Sorted] using ⟨fun a b hm => hk (a, b) hm, hl⟩

theorem alterList_sorted (k : K) (f : Option V → Option V) (h : Sorted l) :
    Sorted (alterList k f l) := by
  induction l with
  | nil => simpa [alterList] using sorted_toList_append (o := f none) (l := []) h (by simp)
  | cons a rest ih =>
    obtain ⟨ha, hr⟩ := pairwise_cons.mp h
    rw [alterList]
    split_ifs with hlt heq
    · refine sorted_toList_append h (fun e he => ?_)
      rcases mem_cons.mp he with rfl | he
      · exact hlt
      · exact hlt.trans (ha e he)
    · exact sorted_toList_append hr (fun e he => heq ▸ ha e he)
    · refine pairwise_cons.mpr ⟨fun e he => ?_, ih hr⟩
      rcases mem_alterList he with he | he
      · rw [he]
        exact lt_of_le_of_ne (not_lt.mp hlt) (Ne.symm heq)
      · exact ha e he

def lookup (k : K) : List (K × V) → Option V
  | [] => none
  | e :: rest => if k = e.1 then some e.2 else lookup k rest

theorem lookup_eq_none_of_lt (h : ∀ e ∈ l, k < e.1) : lookup k l = none := by
  induction l with
  | nil => rfl
  | cons a rest ih =>
    rw [lookup, if_neg (h a (by simp)).ne]
    exact ih (fun e he => h e (mem_cons_of_mem _ he))

theorem lookup_toList_append (k k' : K) (o : Option V) (l : List (K × V)) :
    lookup k' (o.toList.map (fun v => (k, v)) ++ l) =
      if k' = k then o.or (lookup k' l) else lookup k' l := by
  cases o with
  | none => simp
  | some v => by_cases hk : k' = k <;> simp [lookup, hk]

theorem lookup_alterList (k k' : K) (f : Option V → Option V) (h : Sorted l) :
    lookup k' (alterList k f l) = if k' = k then f (lookup k l) else lookup k' l := by
  induction l with
  | nil =>
    rw [alterList, ← append_nil (List.map _ _), lookup_toList_append]
    simp [lookup]
  | cons a rest ih =>
    obtain ⟨ha, hr⟩ := pairwise_cons.mp h
    rw [alterList]
    by_cases hlt : k < a.1
    · have hn : lookup k (a :: rest) = none := lookup_eq_none_of_lt (fun e he => by
        rcases mem_cons.mp he with rfl | he
        · exact hlt
        · exact hlt.trans (ha e he))
      rw [if_pos hlt, lookup_toList_append]
      split_ifs with hk
      · simp [hk, hn]
      · rfl
    · by_cases heq : k = a.1
      · have hn := lookup_eq_none_of_lt (heq ▸ ha)
        rw [if_neg hlt, if_pos heq, lookup_toList_append]
        split_ifs with hk
        · rw [hk, hn, lookup, if_pos heq, Option.or_none]
        · simp [lookup, ← heq, hk]
      · rw [if_neg hlt, if_neg heq, lookup, ih hr]
        by_cases hk : k' = k
        · simp [hk, lookup, heq]
        · simp [hk, lookup]

theorem mem_of_lookup {v : V} (h : lookup k l = some v) : (k, v) ∈ l := by
  induction l with
  | nil => simp [lookup] at h
  | cons a rest ih =>
    rw [lookup] at h
    split_ifs at h with hk
    · cases h
      simp [hk]
    · exact mem_cons_of_mem _ (ih h)

theorem lookup_of_mem {v : V} (hs : Sorted l) (h : (k, v) ∈ l) : lookup k l = some v := by
  induction l with
  | nil => simp at h
  | cons a rest ih =>
    obtain ⟨ha, hr⟩ := pairwise_cons.mp hs
    rcases mem_cons.mp h with rfl | h
    · simp [lookup]
    · rw [lookup, if_neg (ha _ h).ne']
      exact ih hr h

/-- A key that is present splits the entries, and rewriting its value keeps the rest in place. -/
theorem exists_alterList_split {v : V} (hs : Sorted l) (h : lookup k l = some v) :
    ∃ pre post, l = pre ++ (k, v) :: post ∧
      ∀ f, alterList k f l = pre ++ (f (some v)).toList.map (fun v => (k, v)) ++ post := by
  induction l with
  | nil => simp [lookup] at h
  | cons a rest ih =>
    obtain ⟨ha, hr⟩ := pairwise_cons.mp hs
    by_cases heq : k = a.1
    · rw [lookup, if_pos heq] at h
      cases h
      refine ⟨[], rest, by simp [heq], fun f => ?_⟩
      rw [alterList, if_neg (by simp [heq]), if_pos heq]
      simp
    · rw [lookup, if_neg heq] at h
      obtain ⟨pre, post, hl, hal⟩ := ih hr h
      have hlt : ¬ k < a.1 := (ha (k, v) (mem_of_lookup h)).not_gt
      refine ⟨a :: pre, post, by simp [hl], fun f => ?_⟩
      rw [alterList, if_neg hlt, if_neg heq, hal f]
      simp

theorem alterList_of_lt (h : ∀ e ∈ l, e.1 < k) :
    alterList k f l = l ++ (f none).toList.map (fun v => (k, v)) := by
  induction l with
  | nil => simp [alterList]
  | cons a rest ih =>
    have ha : a.1 < k := h a (by simp)
    rw [alterList, if_neg ha.not_gt, if_neg ha.ne', ih (fun e he => h e (by simp [he]))]
    simp

theorem eq_of_lookup_eq {l' : List (K × V)} (hl : Sorted l) (hl' : Sorted l')
    (h : ∀ k, lookup k l = lookup k l') : l = l' := by
  have hmem : ∀ e, e ∈ l ↔ e ∈ l' := fun e =>
    ⟨fun he => mem_of_lookup ((h e.1).symm.trans (lookup_of_mem hl he)),
      fun he => mem_of_lookup ((h e.1).trans (lookup_of_mem hl' he))⟩
  have hn : ∀ {l : List (K × V)}, Sorted l → l.Nodup := fun hs =>
    hs.imp (fun hlt he => absurd hlt (by simp [he]))
  exact ((perm_ext_iff_of_nodup (hn hl) (hn hl')).mpr hmem).eq_of_pairwise
    (fun a b _ _ hab hba => absurd hab (not_lt.mpr hba.le)) hl hl'

end Rippled.Lib.OrdMap

namespace Rippled.Lib

/-- A finite map kept in the order of its keys, as `std::map` is. -/
structure OrdMap (K V : Type) [LinearOrder K] where
  entries : List (K × V)
  sorted : OrdMap.Sorted entries
deriving DecidableEq

end Rippled.Lib

namespace Rippled.Lib.OrdMap

variable {K V : Type} [LinearOrder K]

def empty : OrdMap K V := ⟨[], List.Pairwise.nil⟩

section

variable (m : OrdMap K V)

section

variable (k : K)

def find? : Option V := lookup k m.entries

def alter (f : Option V → Option V) : OrdMap K V :=
  ⟨alterList k f m.entries, alterList_sorted k f m.sorted⟩

@[simp] theorem find?_empty : (empty : OrdMap K V).find? k = none := rfl

@[simp] theorem find?_alter (k k' : K) (f : Option V → Option V) :
    (m.alter k f).find? k' = if k' = k then f (m.find? k) else m.find? k' :=
  lookup_alterList k k' f m.sorted

def insert (v : V) : OrdMap K V := m.alter k fun _ => some v

def erase : OrdMap K V := m.alter k fun _ => none

@[simp] theorem find?_insert (k k' : K) (v : V) :
    (m.insert k v).find? k' = if k' = k then some v else m.find? k' :=
  m.find?_alter k k' _

@[simp] theorem find?_erase (k k' : K) : (m.erase k).find? k' = if k' = k then none else m.find? k' :=
  m.find?_alter k k' _

def modify (f : V → V) : OrdMap K V := m.alter k (Option.map f)

end

@[simp] theorem find?_modify (k k' : K) (f : V → V) :
    (m.modify k f).find? k' = if k' = k then (m.find? k).map f else m.find? k' :=
  m.find?_alter k k' _

def keys : List K := m.entries.map Prod.fst

theorem sorted_keys : m.keys.Pairwise (· < ·) :=
  List.pairwise_map.mpr m.sorted

theorem nodup_keys : m.keys.Nodup := m.sorted_keys.imp (fun h => h.ne)

end

variable {m : OrdMap K V} {k : K}

theorem exists_split {v : V} (h : m.find? k = some v) :
    ∃ pre post, m.entries = pre ++ (k, v) :: post ∧
      ∀ f, (m.alter k f).entries = pre ++ (f (some v)).toList.map (fun v => (k, v)) ++ post :=
  exists_alterList_split m.sorted h

theorem mem_entries_iff {v : V} : (k, v) ∈ m.entries ↔ m.find? k = some v :=
  ⟨lookup_of_mem m.sorted, mem_of_lookup⟩

theorem mem_keys_iff : k ∈ m.keys ↔ (m.find? k).isSome := by
  constructor
  · intro h
    obtain ⟨e, he, rfl⟩ := List.mem_map.mp h
    rw [mem_entries_iff.mp he]
    rfl
  · intro h
    obtain ⟨v, hv⟩ := Option.isSome_iff_exists.mp h
    exact List.mem_map.mpr ⟨(k, v), mem_entries_iff.mpr hv, rfl⟩

theorem find?_eq_none_iff : m.find? k = none ↔ k ∉ m.keys := by
  rw [mem_keys_iff, Bool.not_eq_true, Option.isSome_eq_false_iff, Option.isNone_iff_eq_none]

theorem entries_insert_of_lt (h : ∀ k' ∈ m.keys, k' < k) (v : V) :
    (m.insert k v).entries = m.entries ++ [(k, v)] :=
  alterList_of_lt (fun e he => h e.1 (List.mem_map_of_mem he))

theorem ext_find? {m' : OrdMap K V} (h : ∀ k, m.find? k = m'.find? k) : m = m' := by
  cases m with
  | mk l hl =>
    cases m' with
    | mk l' hl' =>
      have he : l = l' := eq_of_lookup_eq hl hl' h
      subst he
      rfl

theorem modify_of_find?_none (h : m.find? k = none) (f : V → V) : m.modify k f = m := by
  apply ext_find?
  intro k'
  rw [find?_modify]
  split_ifs with hk
  · rw [hk, h]
    rfl
  · rfl

theorem map_find?_modify {W : Type*} {g : V → W} {f : V → V} (hf : ∀ v, g (f v) = g v) (k' : K) :
    ((m.modify k f).find? k').map g = (m.find? k').map g := by
  rw [find?_modify]
  split_ifs with hk
  · rw [hk]
    cases m.find? k <;> simp [hf]
  · rfl

@[simp] theorem keys_modify (m : OrdMap K V) (k : K) (f : V → V) : (m.modify k f).keys = m.keys := by
  cases h : m.find? k with
  | none => rw [modify_of_find?_none h]
  | some v =>
    obtain ⟨pre, post, hl, ha⟩ := exists_split h
    rw [keys, keys, modify, ha, hl]
    simp

section FilterMap

variable {W : Type}

def filterMap (f : K → V → Option W) (m : OrdMap K V) : OrdMap K W :=
  ⟨m.entries.filterMap fun e => (f e.1 e.2).map fun w => (e.1, w), by
    refine List.Pairwise.filterMap _ (fun a a' hlt b hb b' hb' => ?_) m.sorted
    obtain ⟨_, _, rfl⟩ := Option.map_eq_some_iff.mp hb
    obtain ⟨_, _, rfl⟩ := Option.map_eq_some_iff.mp hb'
    exact hlt⟩

@[simp] theorem find?_filterMap (f : K → V → Option W) (m : OrdMap K V) (k : K) :
    (m.filterMap f).find? k = (m.find? k).bind (f k) := by
  apply Option.ext
  intro w
  rw [← mem_entries_iff, Option.bind_eq_some_iff, filterMap, List.mem_filterMap]
  constructor
  · rintro ⟨⟨k', v⟩, hmem, heq⟩
    obtain ⟨w', hw, he⟩ := Option.map_eq_some_iff.mp heq
    cases he
    exact ⟨v, mem_entries_iff.mp hmem, hw⟩
  · rintro ⟨v, hv, hw⟩
    exact ⟨(k, v), mem_entries_iff.mpr hv, by simp [hw]⟩

variable (f : K → V → W) (m : OrdMap K V)

def map : OrdMap K W := m.filterMap fun k v => some (f k v)

@[simp] theorem find?_map (k : K) : (m.map f).find? k = (m.find? k).map (f k) := by
  rw [map, find?_filterMap]
  cases m.find? k <;> rfl

end FilterMap

end Rippled.Lib.OrdMap
