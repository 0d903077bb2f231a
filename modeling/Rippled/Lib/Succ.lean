import Rippled.Lib.OrdMap

namespace Rippled.Lib

open List

section Order

variable {K : Type} [LinearOrder K]

def Within (last : Option K) (k : K) : Prop := ∀ l, last = some l → k < l

/-- The least element of a set above a key and below a bound, or none if there is no element. -/
structure IsSucc (P : K → Prop) (key : K) (last r : Option K) : Prop where
  least : ∀ k, r = some k → P k ∧ key < k ∧ Within last k ∧ ∀ k', P k' → key < k' → k ≤ k'
  empty : r = none → ∀ k, P k → key < k → ¬Within last k

/-- Nothing at or above the bound. -/
def cut (last r : Option K) : Option K := r.filter fun k => !last.any (· ≤ k)

def lower (r own : Option K) : Option K :=
  own.elim r fun k => if r.all (k < ·) then some k else r

variable {P Q : K → Prop} {key : K} {last r r' : Option K}

theorem IsSucc.unique (h : IsSucc P key last r) (h' : IsSucc P key last r') : r = r' := by
  cases r with
  | none =>
    cases r' with
    | none => rfl
    | some k =>
      obtain ⟨hk, hlt, hw, -⟩ := h'.least k rfl
      exact absurd hw (h.empty rfl k hk hlt)
  | some k =>
    obtain ⟨hk, hlt, hw, hle⟩ := h.least k rfl
    cases r' with
    | none => exact absurd hw (h'.empty rfl k hk hlt)
    | some k' =>
      obtain ⟨hk', hlt', -, hle'⟩ := h'.least k' rfl
      rw [le_antisymm (hle k' hk' hlt') (hle' k hk hlt)]

theorem IsSucc.congr (h : IsSucc P key last r) (hPQ : ∀ k, key < k → (P k ↔ Q k)) :
    IsSucc Q key last r := by
  constructor
  · intro k hr
    obtain ⟨hk, hlt, hw, hle⟩ := h.least k hr
    exact ⟨(hPQ k hlt).mp hk, hlt, hw, fun k' hk' hlt' => hle k' ((hPQ k' hlt').mpr hk') hlt'⟩
  · intro hr k hk hlt
    exact h.empty hr k ((hPQ k hlt).mpr hk) hlt

theorem within_none (k : K) : Within none k := fun _ hl => by cases hl

theorem IsSucc.exists_le (h : IsSucc P key last r) {k : K} (hk : P k) (hlt : key < k)
    (hw : Within last k) : ∃ a, r = some a ∧ a ≤ k := by
  cases r with
  | none => exact absurd hw (h.empty rfl k hk hlt)
  | some a => exact ⟨a, rfl, (h.least a rfl).2.2.2 k hk hlt⟩

theorem cut_eq_some_iff {k : K} : cut last r = some k ↔ r = some k ∧ Within last k := by
  cases last with
  | none | some l => simp [cut, Within]

theorem IsSucc.cut (h : IsSucc P key none r) (last : Option K) : IsSucc P key last (cut last r) := by
  constructor
  · intro k hr
    obtain ⟨hr, hw⟩ := cut_eq_some_iff.mp hr
    obtain ⟨hk, hlt, -, hle⟩ := h.least k hr
    exact ⟨hk, hlt, hw, hle⟩
  intro hr k hk hlt hw
  obtain ⟨a, ha, hle⟩ := h.exists_le hk hlt (within_none k)
  have hcut := cut_eq_some_iff.mpr ⟨ha, fun l hl => hle.trans_lt (hw l hl)⟩
  rw [hr] at hcut
  cases hcut

variable {own : Option K}

theorem lower_some_some (k o : K) : lower (some k) (some o) = some (min o k) := by
  by_cases hlt : o < k
  · simp [lower, hlt, hlt.le]
  · simp [lower, hlt, not_lt.mp hlt]

theorem lower_of_eq_some {a : K} (h : r = some a ∨ own = some a) :
    ∃ b, lower r own = some b ∧ b ≤ a := by
  cases own with
  | none => exact ⟨a, h.resolve_right (by simp), le_refl a⟩
  | some o =>
    cases r with
    | none =>
      cases h.resolve_left (by simp)
      exact ⟨a, rfl, le_refl a⟩
    | some k =>
      refine ⟨min o k, lower_some_some k o, ?_⟩
      obtain h | h := h
      · cases h
        exact min_le_right o a
      · cases h
        exact min_le_left a k

theorem eq_some_of_lower {a : K} (h : lower r own = some a) : r = some a ∨ own = some a := by
  cases own with
  | none => exact .inl h
  | some o =>
    rw [lower, Option.elim_some] at h
    split at h
    · exact .inr h
    · exact .inl h

/-- The successor in a union is the lower of the two successors, cut at the bound. -/
theorem IsSucc.cut_lower (h : IsSucc P key last r) (hown : IsSucc Q key none own) :
    IsSucc (fun k => P k ∨ Q k) key last (Lib.cut last (lower r own)) := by
  have hle : ∀ k, P k ∨ Q k → key < k → Within last k → ∃ b, lower r own = some b ∧ b ≤ k := by
    rintro k (hk | hk) hlt hw
    · obtain ⟨a, ha, hak⟩ := h.exists_le hk hlt hw
      obtain ⟨b, hb, hba⟩ := lower_of_eq_some (.inl ha : r = some a ∨ own = some a)
      exact ⟨b, hb, hba.trans hak⟩
    · obtain ⟨a, ha, hak⟩ := hown.exists_le hk hlt (within_none k)
      obtain ⟨b, hb, hba⟩ := lower_of_eq_some (.inr ha : r = some a ∨ own = some a)
      exact ⟨b, hb, hba.trans hak⟩
  constructor
  · intro k hcut
    obtain ⟨hlw, hw⟩ := cut_eq_some_iff.mp hcut
    have hk : (P k ∨ Q k) ∧ key < k := by
      obtain hr | ho := eq_some_of_lower hlw
      · exact ⟨.inl (h.least k hr).1, (h.least k hr).2.1⟩
      · exact ⟨.inr (hown.least k ho).1, (hown.least k ho).2.1⟩
    refine ⟨hk.1, hk.2, hw, ?_⟩
    intro k' hk' hlt'
    by_contra hnot
    have hw' : Within last k' := fun l hl => (not_le.mp hnot).trans (hw l hl)
    obtain ⟨b, hb, hbk⟩ := hle k' hk' hlt' hw'
    rw [hlw] at hb
    cases hb
    exact hnot hbk
  · intro hcut k hk hlt hw
    obtain ⟨b, hb, hbk⟩ := hle k hk hlt hw
    have hs := cut_eq_some_iff.mpr ⟨hb, fun l hl => hbk.trans_lt (hw l hl)⟩
    rw [hcut] at hs
    cases hs

end Order

namespace OrdMap

variable {K V : Type} [LinearOrder K] (m : OrdMap K V)

/-- The entries from the upper bound of a key on. -/
def upperBound (key : K) : List (K × V) := m.entries.filter fun e => key < e.1

section

variable (start : Option K)

def entriesFrom : List (K × V) :=
  start.elim m.entries m.upperBound

def succ (key : K) (last : Option K) : Option K :=
  cut last ((m.upperBound key).head?.map Prod.fst)

theorem mem_upperBound {m : OrdMap K V} {key k : K} {v : V} :
    (k, v) ∈ m.upperBound key ↔ m.find? k = some v ∧ key < k := by
  rw [upperBound, mem_filter, decide_eq_true_eq, mem_entries_iff]

theorem sorted_upperBound (key : K) : Sorted (m.upperBound key) :=
  m.sorted.filter _

theorem sorted_entriesFrom : Sorted (m.entriesFrom start) := by
  cases start with
  | none => exact m.sorted
  | some key => exact m.sorted_upperBound key

theorem mem_entriesFrom {m : OrdMap K V} {start : Option K} {k : K} {v : V} :
    (k, v) ∈ m.entriesFrom start ↔ m.find? k = some v ∧ start.all (· < k) := by
  cases start with
  | none => simp [entriesFrom, mem_entries_iff]
  | some key => simp [entriesFrom, mem_upperBound]

theorem lookup_entriesFrom (k : K) :
    lookup k (m.entriesFrom start) = if start.all (· < k) then m.find? k else none := by
  ext v
  have hmem : lookup k (m.entriesFrom start) = some v ↔ (k, v) ∈ m.entriesFrom start :=
    ⟨mem_of_lookup, lookup_of_mem (m.sorted_entriesFrom start)⟩
  rw [hmem, mem_entriesFrom]
  split_ifs with hall
  · simp [hall]
  · simp [hall]

end

/-- The first entry above a key that passes a test is the least that does. -/
theorem isSucc_find? (key : K) (p : K × V → Bool) :
    IsSucc (fun k => ∃ v, m.find? k = some v ∧ p (k, v)) key none
      (((m.upperBound key).find? p).map Prod.fst) := by
  constructor
  · intro k hk
    obtain ⟨e, he, rfl⟩ := Option.map_eq_some_iff.mp hk
    obtain ⟨hp, as, bs, hl, hb⟩ := find?_eq_some_iff_append.mp he
    have hmem := mem_of_find?_eq_some he
    obtain ⟨hf, hlt⟩ := mem_upperBound.mp hmem
    refine ⟨⟨e.2, hf, hp⟩, hlt, within_none _, ?_⟩
    rintro k' ⟨v, hv, hpv⟩ hlt'
    have hmem' := mem_upperBound.mpr ⟨hv, hlt'⟩
    have hs := m.sorted_upperBound key
    rw [hl] at hmem' hs
    rw [mem_append] at hmem'
    obtain hmem' | hmem' := hmem'
    · have hnot := hb (k', v) hmem'
      rw [hpv] at hnot
      cases hnot
    · obtain rfl | hmem' := mem_cons.mp hmem'
      · exact le_refl _
      · exact ((pairwise_cons.mp (pairwise_append.mp hs).2.1).1 _ hmem').le
  · rintro hn k ⟨v, hv, hpv⟩ hlt
    rw [Option.map_eq_none_iff, find?_eq_none] at hn
    exact absurd hpv (hn (k, v) (mem_upperBound.mpr ⟨hv, hlt⟩))

theorem isSucc_succ (key : K) (last : Option K) :
    IsSucc (fun k => (m.find? k).isSome) key last (m.succ key last) := by
  have hh : (m.upperBound key).head? = (m.upperBound key).find? fun _ => true := by
    cases m.upperBound key <;> rfl
  rw [succ, hh]
  apply IsSucc.cut
  refine (m.isSucc_find? key _).congr ?_
  intro k hlt
  rw [Option.isSome_iff_exists]
  simp

end OrdMap

end Rippled.Lib
