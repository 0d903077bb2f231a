import Mathlib.Data.List.Induction

namespace Rippled.Lib

variable {E : Type} {mark : E → Bool} {log : List E} {e : E}

/-- What has happened since the last mark in a log. -/
def since (mark : E → Bool) (log : List E) : List E :=
  log.foldl (fun es e => if mark e then [] else es ++ [e]) []

theorem since_append_mark (log : List E) (h : mark e) : since mark (log ++ [e]) = [] := by
  rw [since, List.foldl_append]
  exact if_pos h

theorem since_append (log : List E) (h : mark e = false) :
    since mark (log ++ [e]) = since mark log ++ [e] := by
  rw [since, List.foldl_append]
  exact if_neg (by simp [h])

theorem length_since_le (mark : E → Bool) (log : List E) :
    (since mark log).length ≤ log.length := by
  induction log using List.reverseRecOn with
  | nil => exact Nat.le_refl 0
  | append_singleton log e ih =>
    cases h : mark e with
    | true =>
      rw [since_append_mark log h]
      exact Nat.zero_le _
    | false =>
      rw [since_append log h, List.length_append, List.length_append]
      exact Nat.add_le_add_right ih _

/-- At every moment so far the log had the property. -/
def Always (P : List E → Prop) (log : List E) : Prop := ∀ l, l <+: log → P l

variable {P : List E → Prop}

theorem Always.now (h : Always P log) : P log := h log List.prefix_rfl

theorem Always.of_grows {log' : List E} (h : Always P log') (hlog : log <+: log') :
    Always P log := fun l hl => h l (hl.trans hlog)

theorem Always.append (h : Always P log) (he : P (log ++ [e])) : Always P (log ++ [e]) := by
  intro l hl
  obtain rfl | hl := List.prefix_concat_iff.mp hl
  · exact he
  · exact h l hl

end Rippled.Lib
