import Mathlib.Init

namespace Rippled.Lib.Run

variable {S A O : Type}

/-- Every operation of a run meets its condition in the state in which it is applied. -/
def Allowed (step : A → O → A) (ok : A → O → Prop) : A → List O → Prop
  | _, [] => True
  | a, o :: os => ok a o ∧ Allowed step ok (step a o) os

variable {step : A → O → A} {ok : A → O → Prop} {a : A} {os : List O}

theorem allowed_append {os' : List O} :
    Allowed step ok a (os ++ os') ↔ Allowed step ok a os ∧ Allowed step ok (os.foldl step a) os' := by
  induction os generalizing a with
  | nil => simp [Allowed]
  | cons o os ih =>
    rw [List.cons_append, Allowed, Allowed, ih, and_assoc]
    rfl

theorem allowed_of_forall (h : ∀ a o, ok a o) (a : A) (os : List O) : Allowed step ok a os := by
  induction os generalizing a with
  | nil => trivial
  | cons o os ih => exact ⟨h a o, ih _⟩

variable {ok' : A → O → Prop}

theorem Allowed.and (h : Allowed step ok a os) (h' : Allowed step ok' a os) :
    Allowed step (fun a o => ok a o ∧ ok' a o) a os := by
  induction os generalizing a with
  | nil => trivial
  | cons o os ih => exact ⟨⟨h.1, h'.1⟩, ih h.2 h'.2⟩

theorem Allowed.and_mem {P : O → Prop} (h : Allowed step ok a os) (hP : ∀ o ∈ os, P o) :
    Allowed step (fun a o => ok a o ∧ P o) a os := by
  induction os generalizing a with
  | nil => trivial
  | cons o os ih =>
    rw [List.forall_mem_cons] at hP
    exact ⟨⟨h.1, hP.1⟩, ih h.2 hP.2⟩

/-- A relation that holds initially and is kept by every allowed operation holds after every run. -/
theorem simulates {cstep : S → O → S} (R : S → A → Prop)
    (hs : ∀ s a o, R s a → ok a o → R (cstep s o) (step a o)) (os : List O) {s : S} (h : R s a)
    (hok : Allowed step ok a os) : R (os.foldl cstep s) (os.foldl step a) := by
  induction os generalizing s a with
  | nil => exact h
  | cons o os ih => exact ih (hs s a o h hok.1) hok.2

/-- A property that holds initially and is kept by every allowed operation holds after every run. -/
theorem invariant (I : A → Prop) (hs : ∀ a o, I a → ok a o → I (step a o)) (os : List O)
    (h : I a) (hok : Allowed step ok a os) : I (os.foldl step a) := by
  induction os generalizing a with
  | nil => exact h
  | cons o os ih => exact ih (hs a o h hok.1) hok.2

variable {I : A → Prop}

/-- Two conditions that agree where an invariant holds allow the same runs. -/
theorem allowed_congr (hs : ∀ a o, I a → I (step a o)) (hok : ∀ a o, I a → (ok a o ↔ ok' a o))
    (h : I a) (os : List O) : Allowed step ok a os ↔ Allowed step ok' a os := by
  induction os generalizing a with
  | nil => rfl
  | cons o os ih => exact and_congr (hok a o h) (ih (hs a o h))

/-- A property follows from an invariant that is kept where operations meet their condition, and fails
after an operation that does not. Then it holds all along a run exactly if every operation meets its
condition. -/
theorem forall_isPrefix_iff_allowed_of_invariant {J : A → Prop} (hJ : ∀ a, I a → J a)
    (hs : ∀ a o, I a → ok a o → I (step a o)) (hok : ∀ a o, I a → J (step a o) → ok a o)
    (h : I a) : (∀ p, p <+: os → J (p.foldl step a)) ↔ Allowed step ok a os := by
  induction os generalizing a with
  | nil =>
    simp only [List.prefix_nil, forall_eq, Allowed, iff_true]
    exact hJ a h
  | cons o os ih =>
    have ht : (∀ p, p <+: o :: os → J (p.foldl step a)) ↔
        ∀ p, p <+: os → J (p.foldl step (step a o)) := by
      constructor
      · intro hall p hp
        exact hall (o :: p) (List.cons_prefix_cons.mpr ⟨rfl, hp⟩)
      intro hall p hp
      cases p with
      | nil => exact hJ a h
      | cons o' p =>
        obtain ⟨ho, hos⟩ := List.cons_prefix_cons.mp hp
        subst ho
        exact hall p hos
    rw [ht, Allowed]
    constructor
    · intro hall
      have hn : ok a o := hok a o h (hall [] (List.nil_prefix))
      exact ⟨hn, (ih (hs a o h hn)).mp hall⟩
    · rintro ⟨ho, hos⟩
      exact (ih (hs a o h ho)).mpr hos

/-- A property that an operation keeps exactly where it meets its condition holds all along a run
exactly if every operation meets its condition. -/
theorem forall_isPrefix_iff_allowed (hs : ∀ a o, I a → (I (step a o) ↔ ok a o)) (h : I a) :
    (∀ p, p <+: os → I (p.foldl step a)) ↔ Allowed step ok a os :=
  forall_isPrefix_iff_allowed_of_invariant (fun _ ha => ha) (fun a o ha => (hs a o ha).mpr)
    (fun a o ha => (hs a o ha).mp) h

section Partial

variable {step : A → O → Option A}

/-- Every operation of a run that may fail meets its condition in the state it is applied in. -/
def AllowedIn (step : A → O → Option A) (ok : A → O → Prop) : A → List O → Prop
  | _, [] => True
  | a, o :: os => ok a o ∧ ∀ a', step a o = some a' → AllowedIn step ok a' os

theorem allowedIn_cons_none {o : O} (h : step a o = none) :
    AllowedIn step ok a (o :: os) ↔ ok a o := by
  simp [AllowedIn, h]

theorem allowedIn_cons_some {a' : A} {o : O} (h : step a o = some a') :
    AllowedIn step ok a (o :: os) ↔ ok a o ∧ AllowedIn step ok a' os := by
  simp [AllowedIn, h]

instance AllowedIn.decidable (step : A → O → Option A) (ok : A → O → Prop)
    [∀ a o, Decidable (ok a o)] : ∀ (os : List O) (a : A), Decidable (AllowedIn step ok a os)
  | [], _ => .isTrue trivial
  | o :: os, a =>
    match h : step a o with
    | none => decidable_of_iff _ (allowedIn_cons_none h).symm
    | some a' =>
      have := AllowedIn.decidable step ok os a'
      decidable_of_iff _ (allowedIn_cons_some h).symm

theorem allowedIn_true (os : List O) (a : A) : AllowedIn step (fun _ _ => True) a os := by
  induction os generalizing a with
  | nil => trivial
  | cons o os ih => exact ⟨trivial, fun a' _ => ih a'⟩

theorem invariant_of_foldlM (I : A → Prop)
    (hs : ∀ a o a', I a → ok a o → step a o = some a' → I a') (os : List O) {a' : A} (h : I a)
    (hok : AllowedIn step ok a os) (hrun : os.foldlM step a = some a') : I a' := by
  induction os generalizing a with
  | nil =>
    cases hrun
    exact h
  | cons o os ih =>
    obtain ⟨b, hb, hrun⟩ := Option.bind_eq_some_iff.mp hrun
    exact ih (hs a o b h hok.1 hb) (hok.2 b hb) hrun

end Partial

/-- What can be decided of the result of a run is decided by running it. -/
theorem exists_of_any {x : Option A} {P : A → Prop} [DecidablePred P]
    (h : (x.any fun a => P a)) : ∃ a, x = some a ∧ P a := by
  obtain ⟨a, ha, h⟩ := (Option.any_eq_true _ _).mp h
  exact ⟨a, ha, of_decide_eq_true h⟩

end Rippled.Lib.Run
