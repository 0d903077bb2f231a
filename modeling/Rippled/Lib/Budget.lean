import Mathlib.Data.List.Nodup
import Mathlib.Data.List.TakeDrop
import Mathlib.Tactic.Ring

namespace Rippled.Lib.Budget

open List

variable {κ β ι : Type} [DecidableEq κ]

/-- A table that is being filled, and how many entries may still be added to it. -/
structure State (κ β : Type) where
  out : List (κ × β)
  left : Int

/-- Work on a table. It fails, or says whether the work may go on. -/
abbrev Action (κ β : Type) := State κ β → Option (Bool × State κ β)

/-- Insert an entry, unless its key is present, and stop when nothing may be added any more. -/
def emit (key : κ) (value : β) : Action κ β := fun s =>
  let out := if key ∈ s.out.map Prod.fst then s.out else s.out ++ [(key, value)]
  some (decide (0 < s.left - 1), ⟨out, s.left - 1⟩)

def skip : Action κ β := fun s => some (true, s)

def andThen (f g : Action κ β) : Action κ β := fun s =>
  (f s).bind fun r => if r.1 then g r.2 else some r

def each (f : ι → Action κ β) : List ι → Action κ β
  | [] => skip
  | i :: is => andThen (f i) (each f is)

/-- The table after work that has the given entries to add, as far as they fit. -/
def State.add (s : State κ β) (l : List (κ × β)) : State κ β :=
  ⟨s.out ++ l.take s.left.toNat, s.left - min (l.length : Int) s.left⟩

/-- Work that adds the given entries to every table in which their keys are new, and goes on if
they leave room for more. -/
def Emits (f : Action κ β) (l : List (κ × β)) : Prop :=
  ∀ s, 0 < s.left → ((s.out ++ l).map Prod.fst).Nodup →
    f s = some (decide ((l.length : Int) < s.left), s.add l)

section

omit [DecidableEq κ]

theorem State.add_nil (s : State κ β) (h : 0 < s.left) : s.add [] = s := by
  obtain ⟨out, left⟩ := s
  have hmin := min_eq_left h.le
  simp [State.add, hmin]

theorem emits_skip : Emits (skip : Action κ β) [] := by
  intro s hs _
  rw [s.add_nil hs]
  simp [skip, hs]

end

theorem emits_emit (key : κ) (value : β) : Emits (emit key value) [(key, value)] := by
  rintro ⟨out, left⟩ hs hn
  have hnew : key ∉ out.map Prod.fst := by
    rw [map_append, nodup_append] at hn
    intro hmem
    exact hn.2.2 key hmem key (by simp) rfl
  have hmin : min (1 : Int) left = 1 := min_eq_left hs
  have ht : [(key, value)].take left.toNat = [(key, value)] := by
    apply take_of_length_le
    simp only [length_singleton]
    omega
  simp [emit, State.add, hnew, hmin, ht]

section

omit [DecidableEq κ]

theorem Emits.andThen {f g : Action κ β} {l l' : List (κ × β)} (hf : Emits f l) (hg : Emits g l') :
    Emits (andThen f g) (l ++ l') := by
  rintro ⟨out, left⟩ hs hn
  rw [← append_assoc] at hn
  have hl : ((out ++ l).map Prod.fst).Nodup := by
    rw [map_append] at hn
    exact hn.of_append_left
  rw [Budget.andThen, hf ⟨out, left⟩ hs hl, Option.bind_some]
  by_cases hr : (l.length : Int) < left
  · have hadd : State.add ⟨out, left⟩ l = ⟨out ++ l, left - l.length⟩ := by
      have hle : l.length ≤ left.toNat := by omega
      simp [State.add, take_of_length_le hle, min_eq_left hr.le]
    have hlf : (0 : Int) < left - l.length := by omega
    simp only [hr, decide_true, if_true, hadd]
    rw [hg ⟨out ++ l, left - l.length⟩ hlf hn]
    have hsum : ((l'.length : Int) < left - l.length) ↔ ((l ++ l').length : Int) < left := by
      rw [length_append]
      omega
    have ht : (l ++ l').take left.toNat = l ++ l'.take (left - l.length).toNat := by
      have hlen : l.length ≤ left.toNat := by omega
      rw [take_append, take_of_length_le hlen]
      congr 2
      omega
    simp only [State.add, ht, append_assoc, decide_eq_decide.mpr hsum, length_append]
    congr 3
    omega
  · have hall : ¬ ((l ++ l').length : Int) < left := by
      rw [length_append]
      omega
    have ht : (l ++ l').take left.toNat = l.take left.toNat :=
      take_append_of_le_length (by omega)
    have hmin : min ((l ++ l').length : Int) left = min (l.length : Int) left := by
      rw [min_eq_right (not_lt.mp hall), min_eq_right (not_lt.mp hr)]
    simp only [hr, hall, decide_false, Bool.false_eq_true, if_false, State.add, ht, hmin]

theorem Emits.each {f : ι → Action κ β} {l : ι → List (κ × β)} {is : List ι}
    (h : ∀ i ∈ is, Emits (f i) (l i)) : Emits (each f is) (is.flatMap l) := by
  induction is with
  | nil => exact emits_skip
  | cons i is ih =>
    rw [forall_mem_cons] at h
    exact h.1.andThen (ih h.2)

end

end Rippled.Lib.Budget
