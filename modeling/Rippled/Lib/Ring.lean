import Mathlib.Data.List.Chain
import Mathlib.Data.List.Nodup

namespace Rippled.Lib.Ring

open List

variable {α : Type} {next prev next' prev' : α → α} {l pre post : List α} {r p : α}

/-- Each member of a list points forward to its successor, which points back to it. -/
def Linked (next prev : α → α) (l : List α) : Prop :=
  l.IsChain fun a b => next a = b ∧ prev b = a

/-- A doubly linked list that is closed through its first member. -/
def Closed (next prev : α → α) (r : α) (l : List α) : Prop := Linked next prev (r :: (l ++ [r]))

theorem Linked.congr (h : Linked next prev l) (hn : ∀ a ∈ l.dropLast, next' a = next a)
    (hp : ∀ b ∈ l.tail, prev' b = prev b) : Linked next' prev' l := by
  induction l with
  | nil => exact .nil
  | cons a l ih =>
    cases l with
    | nil => exact .singleton a
    | cons b l =>
      obtain ⟨⟨hab, hba⟩, ht⟩ := isChain_cons_cons.mp h
      have hna : next' a = next a := hn a (by simp)
      have hpb : prev' b = prev b := hp b (by simp)
      refine isChain_cons_cons.mpr ⟨⟨hna.trans hab, hpb.trans hba⟩, ?_⟩
      apply ih ht
      · intro c hc
        exact hn c (by simp [dropLast_cons_cons, hc])
      · intro c hc
        exact hp c (by simp at hc; simp [hc])

section

variable (h : Closed next prev r (pre ++ p :: post))

include h

/-- The neighbours of a member and the two stretches that lead to them. -/
theorem Closed.around :
    ∃ a b x y, r :: pre = x ++ [a] ∧ post ++ [r] = b :: y ∧ next a = p ∧ prev p = a ∧ next p = b ∧
      prev b = p ∧ Linked next prev (x ++ [a]) ∧ Linked next prev (b :: y) := by
  obtain ⟨x, a, hx⟩ : ∃ x a, r :: pre = x ++ [a] :=
    ⟨_, _, (dropLast_append_getLast (cons_ne_nil r pre)).symm⟩
  obtain ⟨b, y, hy⟩ : ∃ b y, post ++ [r] = b :: y :=
    exists_cons_of_ne_nil (by simp)
  have hl : r :: (pre ++ p :: post ++ [r]) = x ++ a :: p :: b :: y := by
    rw [append_assoc, cons_append, hy, ← cons_append, hx]
    simp
  rw [Closed, hl] at h
  obtain ⟨hx', ⟨hap, hpa⟩, hpy⟩ := isChain_append_cons_cons.mp h
  obtain ⟨⟨hpb, hbp⟩, hy'⟩ := isChain_cons_cons.mp hpy
  exact ⟨a, b, x, y, hx, hy, hap, hpa, hpb, hbp, hx', hy'⟩

theorem Closed.prev_mem : prev p ∈ r :: pre := by
  obtain ⟨a, _, x, _, hx, _, _, hpa, _⟩ := h.around
  rw [hpa, hx]
  simp

theorem Closed.next_mem : next p ∈ post ++ [r] := by
  obtain ⟨_, b, _, y, _, hy, _, _, hpb, _⟩ := h.around
  rw [hpb, hy]
  simp

end

section

variable (h : Closed next prev r l)

include h

theorem Closed.exists_concat : ∃ x, r :: l = x ++ [prev r] := by
  obtain ⟨x, a, hx⟩ : ∃ x a, r :: l = x ++ [a] :=
    ⟨_, _, (dropLast_append_getLast (cons_ne_nil r l)).symm⟩
  have hl : r :: (l ++ [r]) = x ++ a :: [r] := by
    rw [← cons_append, hx]
    simp
  rw [Closed, hl] at h
  obtain ⟨_, ⟨_, hra⟩, _⟩ := isChain_append_cons_cons.mp h
  exact ⟨x, by rw [hra, hx]⟩

theorem Closed.next_first (hl : l ≠ []) : next r ∈ l := by
  cases l with
  | nil => exact absurd rfl hl
  | cons b l =>
    obtain ⟨⟨hrb, _⟩, _⟩ := isChain_cons_cons.mp h
    simp [hrb]

theorem Closed.prev_first (hl : l ≠ []) : prev r ∈ l := by
  obtain ⟨x, hx⟩ := h.exists_concat
  cases x with
  | nil => exact absurd (List.cons.inj hx).2 hl
  | cons c x =>
    rw [cons_append] at hx
    rw [(List.cons.inj hx).2]
    simp

end

variable [DecidableEq α]

/-- Unlinking a member leaves the others closed. -/
theorem Closed.erase (h : Closed next prev r (pre ++ p :: post)) (hd : (r :: (pre ++ p :: post)).Nodup)
    (hn : ∀ a, a ≠ p → next' a = if a = prev p then next p else next a)
    (hp : ∀ b, b ≠ p → prev' b = if b = next p then prev p else prev b) :
    Closed next' prev' r (pre ++ post) := by
  obtain ⟨a, b, x, y, hx, hy, hap, hpa, hpb, hbp, hxl, hyl⟩ := h.around
  rw [hpa, hpb] at hn hp
  have hl : r :: (pre ++ post ++ [r]) = x ++ a :: b :: y := by
    rw [append_assoc, hy, ← cons_append, hx]
    simp
  have hpre : (r :: pre).Nodup ∧ p ∉ r :: pre ∧ p ∉ post ∧ post.Nodup ∧
      ∀ c ∈ r :: pre, c ∉ post := by
    rw [← cons_append, nodup_append] at hd
    obtain ⟨hpre, hps, hdis⟩ := hd
    obtain ⟨hpp, hps⟩ := nodup_cons.mp hps
    exact ⟨hpre, fun hm => hdis p hm p (by simp) rfl, hpp, hps,
      fun c hc hm => hdis c hc c (by simp [hm]) rfl⟩
  obtain ⟨hdp, hppr, hpt, hds, hdis⟩ := hpre
  have hane : a ≠ p := fun he => hppr (by rw [hx, he]; simp)
  have hpr : p ≠ r := fun he => hppr (by simp [he])
  have hbne : b ≠ p := by
    intro he
    have hm : p ∈ post ++ [r] := by rw [hy, he]; simp
    simp [hpt, hpr] at hm
  have ht : ∀ c ∈ (x ++ [a]).tail, c ∈ pre := fun c hc => by
    rw [← hx] at hc
    exact hc
  have hi : ∀ c ∈ (b :: y).dropLast, c ∈ post := fun c hc => by
    rw [← hy, dropLast_concat] at hc
    exact hc
  have hr : r ∉ pre := (nodup_cons.mp hdp).1
  rw [Closed, hl]
  refine isChain_append_cons_cons.mpr ⟨?_, ⟨?_, ?_⟩, ?_⟩
  · refine hxl.congr (fun c hc => ?_) (fun c hc => ?_)
    · rw [dropLast_concat] at hc
      have hca : c ≠ a := by
        intro he
        rw [hx, nodup_append] at hdp
        exact hdp.2.2 c hc a (by simp) he
      have hcp : c ≠ p := fun he => hppr (by rw [hx, ← he]; simp [hc])
      rw [hn c hcp, if_neg hca]
    · have hc' := ht c hc
      have hcp : c ≠ p := fun he => hppr (by simp [← he, hc'])
      have hcb : c ≠ b := by
        intro he
        have hm : c ∈ post ++ [r] := by rw [hy, he]; simp
        rcases mem_append.mp hm with hm | hm
        · exact hdis c (by simp [hc']) hm
        · rw [mem_singleton.mp hm] at hc'
          exact hr hc'
      rw [hp c hcp, if_neg hcb]
  · rw [hn a hane, if_pos rfl]
  · rw [hp b hbne, if_pos rfl]
  · refine hyl.congr (fun c hc => ?_) (fun c hc => ?_)
    · have hc' := hi c hc
      have hcp : c ≠ p := fun he => hpt (he ▸ hc')
      have hca : c ≠ a := fun he => hdis c (by rw [hx, he]; simp) hc'
      rw [hn c hcp, if_neg hca]
    have hm : c ∈ post ++ [r] := by
      rw [hy]
      exact mem_of_mem_tail hc
    have hcp : c ≠ p := by
      intro he
      rw [he] at hm
      simp [hpt, hpr] at hm
    have hcb : c ≠ b := by
      intro he
      have hdy : (b :: y).Nodup := by
        rw [← hy, nodup_append]
        refine ⟨hds, by simp, fun e he f hf => ?_⟩
        rw [mem_singleton.mp hf]
        exact fun her => hdis e (by simp [her]) he
      exact (nodup_cons.mp hdy).1 (he ▸ hc)
    rw [hp c hcp, if_neg hcb]

/-- A new member is linked in between the last one and the first. -/
theorem Closed.concat (h : Closed next prev r l) (hd : (r :: l).Nodup) (hn : ∀ a ∈ r :: l, next' a
      = if a = prev r then p else next a) (hnp : next' p = r) (hp : ∀ b ∈ l, prev' b = prev b)
    (hpr : prev' r = p) (hpp : prev' p = prev r) : Closed next' prev' r (l ++ [p]) := by
  obtain ⟨x, hx⟩ := h.exists_concat
  generalize ha : prev r = a at hx hn hpp
  have hl : r :: (l ++ [r]) = x ++ a :: [r] := by
    rw [← cons_append, hx]
    simp
  have hl' : r :: (l ++ [p] ++ [r]) = x ++ a :: p :: [r] := by
    rw [append_assoc, ← cons_append, hx]
    simp
  rw [Closed, hl] at h
  obtain ⟨hxl, _, _⟩ := isChain_append_cons_cons.mp h
  have ham : a ∈ r :: l := by rw [hx]; simp
  rw [Closed, hl']
  refine isChain_append_cons_cons.mpr ⟨?_, ⟨?_, hpp⟩, isChain_pair.mpr ⟨hnp, hpr⟩⟩
  · apply Linked.congr hxl
    · intro c hc
      rw [dropLast_concat] at hc
      have hcm : c ∈ r :: l := by rw [hx]; simp [hc]
      have hca : c ≠ a := by
        intro he
        rw [hx, nodup_append] at hd
        exact hd.2.2 c hc a (by simp) he
      rw [hn c hcm, if_neg hca]
    · intro c hc
      rw [← hx] at hc
      exact hp c hc
  · rw [hn a ham, if_pos rfl]

end Rippled.Lib.Ring
