import Mathlib.Data.Finset.Max
import Mathlib.Algebra.Order.BigOperators.Group.Multiset
import Mathlib.Algebra.Order.Ring.Nat
import Mathlib.Data.Prod.Lex

namespace Rippled.LedgerTrie

open List Multiset Finset

variable {ID : Type} [LinearOrder ID]

def tipSeq (h : List ID) : Nat := h.length - 1

variable {S : Multiset (List ID)} {x : List ID}

section

variable (S)

section

variable (x)

/-- How many of the supported histories contain the ledger that `x` leads to. -/
def support : Nat := S.countP (fun h => x <+: h)

def nextIDs : Finset ID :=
  (S.filterMap (fun h => if x <+: h then h[x.length]? else none)).toFinset

def candidates : Finset (Nat ×ₗ ID) :=
  (nextIDs S x).image (fun i => toLex (support S (x ++ [i]), i))

/-- The best continuation by support and identifier, with its margin over the runner-up. -/
def best : Option (ID × Nat) :=
  match (candidates S x).max with
  | ⊥ => none
  | (b : Nat ×ₗ ID) =>
    match ((candidates S x).erase b).max with
    | ⊥ => some ((ofLex b).2, (ofLex b).1)
    | (r : Nat ×ₗ ID) => some ((ofLex b).2,
        (ofLex b).1 - (ofLex r).1 + if (ofLex r).2 < (ofLex b).2 then 1 else 0)

end

/-- The validators that may still be undecided about sequence number `s`. -/
def uncommitted (largestIssued s : Nat) : Nat :=
  S.countP (fun h => tipSeq h < max s largestIssued)

def step (largestIssued : Nat) (x : List ID) : Option (List ID) :=
  match best S x with
  | some (i, margin) =>
    if uncommitted S largestIssued x.length < margin ∨ uncommitted S largestIssued x.length = 0 then
      some (x ++ [i])
    else none
  | none => none

end

theorem mem_nextIDs {i : ID} : i ∈ nextIDs S x ↔ ∃ h ∈ S, x ++ [i] <+: h := by
  rw [nextIDs, Multiset.mem_toFinset, Multiset.mem_filterMap]
  refine exists_congr (fun h => and_congr_right (fun _ => ?_))
  constructor
  · intro hi
    split_ifs at hi with hx
    obtain ⟨r, rfl⟩ := hx
    rw [getElem?_append_right le_rfl, Nat.sub_self] at hi
    cases r with
    | nil => simp at hi
    | cons j r =>
      obtain rfl : j = i := by simpa using hi
      exact ⟨r, by simp⟩
  · rintro ⟨r, rfl⟩
    have hx := (prefix_append x [i]).trans (prefix_append _ r)
    rw [if_pos hx, append_assoc, getElem?_append_right le_rfl, Nat.sub_self]
    rfl

theorem support_pos_iff : 0 < support S x ↔ ∃ h ∈ S, x <+: h := countP_pos

theorem mem_candidates {c : Nat ×ₗ ID} :
    c ∈ candidates S x ↔ 0 < (ofLex c).1 ∧ (ofLex c).1 = support S (x ++ [(ofLex c).2]) := by
  rw [candidates, mem_image]
  constructor
  · rintro ⟨i, hi, rfl⟩
    exact ⟨support_pos_iff.mpr (mem_nextIDs.mp hi), rfl⟩
  rintro ⟨hpos, he⟩
  refine ⟨(ofLex c).2, mem_nextIDs.mpr (support_pos_iff.mp (he ▸ hpos)), ?_⟩
  rw [← he]
  rfl

/-- What the best continuation and its margin are. -/
theorem best_some {i : ID} {margin : Nat} (h : best S x = some (i, margin)) :
    ∃ b ∈ candidates S x, (ofLex b).2 = i ∧ (∀ c ∈ candidates S x, c ≤ b) ∧
      (((candidates S x).erase b = ∅ ∧ margin = (ofLex b).1) ∨
        ∃ r ∈ (candidates S x).erase b, (∀ c ∈ (candidates S x).erase b, c ≤ r) ∧
          margin = (ofLex b).1 - (ofLex r).1 + if (ofLex r).2 < (ofLex b).2 then 1 else 0) := by
  rw [best] at h
  cases hb : (candidates S x).max with
  | bot => simp [hb] at h
  | coe b =>
    have hle : ∀ c ∈ candidates S x, c ≤ b := fun c hc => le_max_of_eq hc hb
    refine ⟨b, mem_of_max hb, ?_⟩
    simp only [hb] at h
    cases hr : ((candidates S x).erase b).max with
    | bot =>
      simp only [hr, Option.some.injEq, Prod.mk.injEq] at h
      exact ⟨h.1, hle, .inl ⟨max_eq_bot.mp hr, h.2.symm⟩⟩
    | coe r =>
      simp only [hr, Option.some.injEq, Prod.mk.injEq] at h
      exact ⟨h.1, hle, .inr ⟨r, mem_of_max hr, fun c hc => le_max_of_eq hc hr, h.2.symm⟩⟩

theorem max_eq_of {α : Type} [LinearOrder α] {s : Finset α} {b : α} (hb : b ∈ s)
    (hle : ∀ c ∈ s, c ≤ b) : s.max = b :=
  le_antisymm (Finset.max_le (fun c hc => WithBot.coe_le_coe.mpr (hle c hc))) (Finset.le_max hb)

theorem best_of_empty (h : candidates S x = ∅) : best S x = none := by
  rw [best, h, max_empty]

theorem best_of_single {b : Nat ×ₗ ID} (h : candidates S x = {b}) :
    best S x = some ((ofLex b).2, (ofLex b).1) := by
  rw [best, h, Finset.max_singleton]
  simp

theorem best_of_second {b r : Nat ×ₗ ID} (hb : b ∈ candidates S x) (hr : r ∈ candidates S x)
    (hlt : r < b) (hle : ∀ c ∈ candidates S x, c = b ∨ c ≤ r) : best S x = some ((ofLex b).2,
      (ofLex b).1 - (ofLex r).1 + if (ofLex r).2 < (ofLex b).2 then 1 else 0) := by
  have hmax : (candidates S x).max = b := max_eq_of hb (fun c hc => by
    rcases hle c hc with rfl | hc
    · exact le_rfl
    · exact hc.trans hlt.le)
  have hmax' := max_eq_of (mem_erase.mpr ⟨hlt.ne, hr⟩) (fun c hc => (hle c (Finset.mem_of_mem_erase
    hc)).resolve_left (Finset.ne_of_mem_erase hc))
  rw [best, hmax]
  simp only [hmax']

variable {largestIssued : Nat}

theorem step_some {y : List ID} (h : step S largestIssued x = some y) :
    ∃ i margin, best S x = some (i, margin) ∧ y = x ++ [i] ∧
      (uncommitted S largestIssued x.length < margin ∨
        uncommitted S largestIssued x.length = 0) := by
  rw [step] at h
  cases hb : best S x with
  | none => simp [hb] at h
  | some b =>
    simp only [hb] at h
    split_ifs at h with hu
    · exact ⟨b.1, b.2, rfl, by simpa using h.symm, hu⟩

theorem step_length {y : List ID} (h : step S largestIssued x = some y) :
    x.length < y.length ∧ y.length ≤ (S.map List.length).sum := by
  obtain ⟨i, margin, hb, rfl, _⟩ := step_some h
  obtain ⟨b, hmem, rfl, _⟩ := best_some hb
  obtain ⟨hpos, he⟩ := mem_candidates.mp hmem
  obtain ⟨s, hs, hpre⟩ := support_pos_iff.mp (he ▸ hpos)
  refine ⟨by simp, hpre.length_le.trans ?_⟩
  exact le_sum_of_mem (mem_map_of_mem _ hs)

def plainWalk (S : Multiset (List ID)) (largestIssued : Nat) (x : List ID) : List ID :=
  match _h : step S largestIssued x with
  | some y => plainWalk S largestIssued y
  | none => x
termination_by (S.map List.length).sum - x.length
decreasing_by
  have := step_length _h
  omega

theorem plainWalk_of_some {y : List ID} (h : step S largestIssued x = some y) :
    plainWalk S largestIssued x = plainWalk S largestIssued y := by
  rw [plainWalk]
  split
  · rename_i z hz
    rw [Option.some.inj (h.symm.trans hz)]
  · rename_i hz
    simp [h] at hz

theorem plainWalk_of_none (h : step S largestIssued x = none) :
    plainWalk S largestIssued x = x := by
  rw [plainWalk]
  split
  · rename_i z hz
    simp [h] at hz
  · rfl

theorem prefix_plainWalk (S : Multiset (List ID)) (largestIssued : Nat) (x : List ID) :
    x <+: plainWalk S largestIssued x := by
  induction x using plainWalk.induct S largestIssued with
  | case1 x y h ih =>
    obtain ⟨i, _, _, rfl, _⟩ := step_some h
    rw [plainWalk_of_some h]
    exact (prefix_append x [i]).trans ih
  | case2 x h =>
    rw [plainWalk_of_none h]

theorem step_of_prefix_plainWalk {x p : List ID} {i : ID} (hlen : x.length ≤ p.length)
    (h : p ++ [i] <+: plainWalk S largestIssued x) : step S largestIssued p = some (p ++ [i]) := by
  induction x using plainWalk.induct S largestIssued with
  | case1 x y hs ih =>
    rw [plainWalk_of_some hs] at h
    obtain ⟨j, _, _, rfl, _⟩ := step_some hs
    have hx := prefix_plainWalk S largestIssued (x ++ [j])
    rcases Nat.lt_or_ge x.length p.length with hlt | hge
    · exact ih (by simpa using Nat.succ_le_of_lt hlt) h
    have he := (prefix_of_prefix_length_le h hx (by simp; omega)).eq_of_length (by simp; omega)
    obtain ⟨rfl, _⟩ := append_inj' he rfl
    rw [he]
    exact hs
  | case2 x hs =>
    rw [plainWalk_of_none hs] at h
    have := h.length_le
    simp at this
    omega

section Safety

variable {keep moved moved' : Multiset (List ID)} {i : ID}

theorem support_add (S T : Multiset (List ID)) (x : List ID) :
    support (S + T) x = support S x + support T x := countP_add _ _ _

theorem support_add_support_le (S : Multiset (List ID)) (x : List ID) {i j : ID} (h : i ≠ j) :
    support S (x ++ [i]) + support S (x ++ [j]) ≤ S.card := by
  induction S using Multiset.induction with
  | empty => simp [support]
  | cons s S ih =>
    have hnot : ¬ (x ++ [i] <+: s ∧ x ++ [j] <+: s) := by
      rintro ⟨hi, hj⟩
      have he := (prefix_of_prefix_length_le hi hj (by simp)).eq_of_length (by simp)
      exact h (by simpa using he)
    simp only [support, Multiset.countP_cons, Multiset.card_cons] at ih ⊢
    split_ifs with h1 h2 h2
    · exact absurd ⟨h1, h2⟩ hnot
    all_goals omega

theorem support_eq_zero (h : ∀ s ∈ moved, tipSeq s < x.length) (i : ID) :
    support moved (x ++ [i]) = 0 := by
  refine countP_eq_zero.mpr (fun s hs hpre => ?_)
  have h1 := h s hs
  have h2 := hpre.length_le
  simp only [tipSeq, length_append, length_singleton] at h1 h2
  omega

omit [LinearOrder ID] in
theorem card_le_uncommitted (largestIssued : Nat) (hS : S = keep + moved)
    (h : ∀ s ∈ moved, tipSeq s < x.length) : moved.card ≤ uncommitted S largestIssued x.length := by
  have hall : moved.countP (fun s => tipSeq s < max x.length largestIssued) = moved.card :=
    countP_eq_card.mpr (fun s hs => lt_max_of_lt_left (h s hs))
  rw [uncommitted, hS, countP_add, hall]
  exact Nat.le_add_left _ _

theorem lex_lt_of_le {a b : Nat} {j i : ID} (hle : a ≤ b) (hj : j < i) : toLex (a, j) < toLex (b, i) :=
  Prod.Lex.toLex_lt_toLex.mpr ((lt_or_eq_of_le hle).imp id (fun he => ⟨he, hj⟩))

theorem lex_lt_of_lt {a b : Nat} (j i : ID) (hlt : a < b) : toLex (a, j) < toLex (b, i) :=
  Prod.Lex.toLex_lt_toLex.mpr (.inl hlt)

variable (h : step S largestIssued x = some (x ++ [i]))

include h

theorem step_margin {j : ID} (hj : j ≠ i) {u : Nat}
    (hu : u ≤ uncommitted S largestIssued x.length) :
    toLex (support S (x ++ [j]) + u, j) < toLex (support S (x ++ [i]), i) := by
  obtain ⟨k, margin, hb, hk, hm⟩ := step_some h
  obtain rfl : i = k := by simpa using hk
  obtain ⟨b, hmem, rfl, hle, hn⟩ := best_some hb
  obtain ⟨hpos, hs⟩ := mem_candidates.mp hmem
  rw [← hs]
  -- a continuation without any support is no candidate
  have hcn : support S (x ++ [j]) ≠ 0 →
      toLex (support S (x ++ [j]), j) ∈ (candidates S x).erase b := fun h0 =>
    mem_erase.mpr ⟨fun he => hj (by rw [← he]; rfl),
      mem_candidates.mpr ⟨Nat.pos_of_ne_zero h0, rfl⟩⟩
  by_cases hz : uncommitted S largestIssued x.length = 0
  · obtain rfl : u = 0 := by omega
    by_cases h0 : support S (x ++ [j]) = 0
    · exact lex_lt_of_lt _ _ (by omega)
    · have hc := mem_erase.mp (hcn h0)
      exact lt_of_le_of_ne (hle _ hc.2) hc.1
  · have hlt : u < margin := lt_of_le_of_lt hu (hm.resolve_right hz)
    rcases hn with ⟨hem, rfl⟩ | ⟨r, hr, hler, rfl⟩
    · have h0 : support S (x ++ [j]) = 0 := by
        by_contra h0
        exact absurd (hcn h0) (by simp [hem])
      exact lex_lt_of_lt _ _ (by omega)
    have hrp := (mem_candidates.mp (Finset.mem_of_mem_erase hr)).1
    have hrb : (ofLex r).1 ≤ (ofLex b).1 := by
      rcases Prod.Lex.le_iff.mp (hle r (Finset.mem_of_mem_erase hr)) with hlt | ⟨he, _⟩
      · exact hlt.le
      · exact he.le
    by_cases h0 : support S (x ++ [j]) = 0
    · refine lex_lt_of_lt _ _ ?_
      split_ifs at hlt <;> omega
    rcases Prod.Lex.le_iff.mp (hler _ (hcn h0)) with hjr | ⟨hjr, hid⟩
    · simp only [ofLex_toLex] at hjr
      refine lex_lt_of_lt _ _ ?_
      split_ifs at hlt <;> omega
    simp only [ofLex_toLex] at hjr hid
    split_ifs at hlt with hri
    · exact lex_lt_of_le (by omega) (hid.trans_lt hri)
    · exact lex_lt_of_lt _ _ (by omega)

theorem step_safe (hS : S = keep + moved) (hmv : ∀ s ∈ moved, tipSeq s < x.length)
    (hc : moved'.card = moved.card) {j : ID} (hj : j ≠ i) :
    toLex (support (keep + moved') (x ++ [j]), j) < toLex (support (keep + moved') (x ++ [i]), i) := by
  have hm := step_margin h hj (card_le_uncommitted largestIssued hS hmv)
  have hle := support_add_support_le moved' x hj
  rw [hS, support_add, support_add, support_eq_zero hmv, support_eq_zero hmv] at hm
  rw [support_add, support_add]
  rcases Prod.Lex.toLex_lt_toLex.mp hm with hlt | ⟨he, hid⟩
  · exact lex_lt_of_lt _ _ (by omega)
  · exact lex_lt_of_le (by omega) hid

end Safety

end Rippled.LedgerTrie
