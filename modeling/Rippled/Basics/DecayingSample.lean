import Rippled.Lib.Run
import Mathlib.Data.PNat.Basic

namespace Rippled

open Lib

/-- A value in exponential units, and when it was last aged, in ticks of a clock that has so many of
them in a second. -/
structure DecayingSample (second Window : ℕ+) where
  mValue : Int := 0
  mWhen : Nat

namespace DecayingSample

variable {second Window : ℕ+}

section Calls

variable (d : DecayingSample second Window)

variable (Window) in
def aged (mValue : Int) : Int := mValue - (mValue + Window - 1).tdiv Window

variable (Window) in
/-- A span larger than four times the window resets the value. -/
def age (elapsed : Nat) (mValue : Int) : Int :=
  if 4 * Window < elapsed then 0 else (aged Window)^[elapsed] mValue

def decay (now : Nat) : DecayingSample second Window :=
  if now = d.mWhen then d
  else if d.mValue = 0 then { d with mWhen := now }
  else ⟨age Window ((now - d.mWhen) / second) d.mValue, now⟩

def add (value : Int) (now : Nat) : Int × DecayingSample second Window :=
  let mValue := (d.decay now).mValue + value
  (mValue.tdiv Window, { d.decay now with mValue })

def value (now : Nat) : Int × DecayingSample second Window :=
  ((d.decay now).mValue.tdiv Window, d.decay now)

inductive Call
  | add (value : Int) (now : Nat)
  | value (now : Nat) (inserted : Bool)

@[simp] def Call.now : Call → Nat
  | .add _ now => now
  | .value now _ => now

@[simp] def Call.inserted : Call → Bool
  | .add _ _ => false
  | .value _ inserted => inserted

def call : Call → Int × DecayingSample second Window
  | .add value now => d.add value now
  | .value now _ => d.value now

/-- What the calls return that are not inserted. -/
def results (d : DecayingSample second Window) : List Call → List Int
  | [] => []
  | c :: cs =>
    if c.inserted then results (d.call c).2 cs else (d.call c).1 :: results (d.call c).2 cs

/-- The call is made when the last one was, or so long after it that nothing is left to age. Or it is
made whole seconds after the last one, and what long spans cut off is zero anyway. -/
def Unseen (now : Nat) : Prop :=
  let elapsed := (now - d.mWhen) / second
  now = d.mWhen ∨ (4 * Window < elapsed ∨ (aged Window)^[elapsed] d.mValue = 0) ∨
    (second : Nat) ∣ now - d.mWhen ∧ (aged Window)^[4 * Window + 1] d.mValue = 0

end Calls

variable {d d' : DecayingSample second Window} {now : Nat} {a b : Int} {c : Call}

theorem aged_iterate_zero (n : Nat) : (aged Window)^[n] 0 = 0 := by
  refine Function.iterate_fixed ?_ n
  have hw := Window.pos
  rw [aged, Int.tdiv_eq_zero_of_lt (by omega) (by omega)]
  rfl

theorem aged_iterate_eq_zero {n m : Nat} (h : (aged Window)^[n] a = 0) (hm : n ≤ m) :
    (aged Window)^[m] a = 0 := by
  obtain ⟨k, rfl⟩ := Nat.exists_eq_add_of_le' hm
  rw [Function.iterate_add_apply, h, aged_iterate_zero]

theorem decay_eq (h : d.mWhen ≤ now) :
    d.decay now = ⟨age Window ((now - d.mWhen) / second) d.mValue, now⟩ := by
  obtain ⟨v, w⟩ := d
  unfold decay age
  split_ifs <;> simp_all [aged_iterate_zero]

theorem tdiv_add_ne (h : a < b) :
    (a + (Window - b)).tdiv Window ≠ (b + (Window - b)).tdiv Window := by
  have hw := Window.pos
  have hle := Int.tdiv_mul_le (a + (Window - b)) (b := Window) (by omega)
  rw [add_sub_cancel, Int.tdiv_self (by omega)]
  intro he
  rw [he] at hle
  split at hle <;> omega

theorem eq_of_tdiv_add (h : ∀ x, (a + x).tdiv Window = (b + x).tdiv Window) : a = b := by
  obtain hab | hab | hab := Int.lt_trichotomy a b
  · exact absurd (h _) (tdiv_add_ne hab)
  · exact hab
  · exact absurd (h _).symm (tdiv_add_ne hab)

theorem age_eq_zero_iff {e : Nat} :
    age Window e a = 0 ↔ 4 * Window < e ∨ (aged Window)^[e] a = 0 := by
  unfold age
  split <;> simp [*]

theorem age_eq_zero {e e' : Nat} (h : age Window e a = 0) (he : e ≤ e') : age Window e' a = 0 := by
  rw [age_eq_zero_iff] at h ⊢
  exact h.imp (fun hl => hl.trans_le he) (fun hz => aged_iterate_eq_zero hz he)

theorem age_age (i j : Nat) : age Window j (age Window i a) =
    if 4 * Window < i ∨ 4 * Window < j then 0 else (aged Window)^[i + j] a := by
  rw [Nat.add_comm, Function.iterate_add_apply]
  unfold age
  grind [aged_iterate_zero]

/-- Ageing in two parts is the same as ageing once, however long the second part is. -/
theorem forall_age_iff (m : Nat) :
    (∀ k, age Window (k / second) (age Window (m / second) a) = age Window ((m + k) / second) a) ↔
      m = 0 ∨ age Window (m / second) a = 0 ∨
        (second : Nat) ∣ m ∧ (aged Window)^[4 * Window + 1] a = 0 := by
  have hs := second.pos
  constructor
  · intro h
    by_cases hm : (second : Nat) ∣ m
    · obtain ⟨e, rfl⟩ := hm
      have hk := h (second * (4 * Window + 1 - e))
      simp only [age_age, Nat.mul_add_div hs, Nat.mul_div_cancel_left _ hs, dvd_mul_right, true_and]
        at hk ⊢
      obtain rfl | he | he : e = 0 ∨ 4 * Window < e ∨ 0 < e ∧ e ≤ 4 * Window := by omega
      · exact .inl (Nat.mul_zero _)
      · exact .inr (.inl (if_pos he))
      · rw [if_neg (by omega), age, if_pos (by omega), Nat.add_sub_of_le (by omega)] at hk
        exact .inr (.inr hk)
    · -- a second part that ends before or after a full second has the same effect
      have hj : ∀ j, age Window (m / second) a = age Window (m / second + j) a := by
        intro j
        induction j with
        | zero => rfl
        | succ j ih =>
          have hr := Nat.pos_of_ne_zero (mt Nat.dvd_of_mod_eq_zero hm)
          have hk := h (second * j)
          have hk' := h (second * j + (second - m % second))
          have hlt := Nat.mod_lt m hs
          have hd := Nat.div_add_mod m second
          have he : m + (second * j + (second - m % second)) = second * (m / second + j + 1) := by
            grind
          rw [Nat.add_mul_div_left _ _ hs, Nat.mul_div_cancel_left _ hs] at hk
          rw [he, Nat.mul_div_cancel_left _ hs, Nat.mul_add_div hs, Nat.div_eq_of_lt (by omega)] at hk'
          exact ih.trans (hk.symm.trans hk')
      exact .inr (.inl ((hj (4 * Window + 1)).trans (if_pos (by grind))))
  · rintro (rfl | h | ⟨⟨e, rfl⟩, h⟩) k
    · simp [age]
    · rw [h, age_eq_zero h (by gcongr; omega)]
      simp [age, aged_iterate_zero]
    · rw [age_age, Nat.mul_add_div hs, Nat.mul_div_cancel_left _ hs]
      unfold age
      grind [aged_iterate_eq_zero]

theorem unseen_iff (h : d.mWhen ≤ now) :
    d.Unseen now ↔ ∀ t ≥ now, (d.decay now).decay t = d.decay t := by
  have h0 : now = d.mWhen ↔ now - d.mWhen = 0 := by omega
  rw [Unseen, h0, ← age_eq_zero_iff, ← forall_age_iff, decay_eq h]
  constructor
  · intro ha t ht
    have hk := ha (t - now)
    rw [Nat.add_comm, Nat.sub_add_sub_cancel ht h] at hk
    rw [decay_eq ht, decay_eq (h.trans ht), hk]
  · intro hd k
    have hk := hd (now + k) (Nat.le_add_right _ _)
    rw [decay_eq (Nat.le_add_right now k), decay_eq (by omega), mk.injEq] at hk
    rw [← Nat.sub_add_comm h, ← hk.1, Nat.add_sub_cancel_left]

theorem call_congr (h : d.decay c.now = d'.decay c.now) : d.call c = d'.call c := by
  cases c <;> simp_all [call, add, value]

theorem call_mWhen (h : d.mWhen ≤ c.now) : (d.call c).2.mWhen = c.now := by
  cases c <;> simp_all [call, add, value, decay_eq]

theorem results_inserted (h : d.Unseen now) (hw : d.mWhen ≤ now) {cs : List Call}
    (ht : (now :: cs.map Call.now).Pairwise (· ≤ ·)) : (d.decay now).results cs = d.results cs := by
  cases cs with
  | nil => rfl
  | cons c cs =>
    have hc := (List.pairwise_cons.mp ht).1 c.now List.mem_cons_self
    rw [results, results, call_congr ((unseen_iff hw).mp h c.now hc)]

/-- The inserted calls that no later call sees are these, and a history in which every inserted
call is such has the results that it has without them. -/
theorem results_eq_iff (second Window : ℕ+) :
    (∀ (d : DecayingSample second Window) (now : Nat), d.mWhen ≤ now → (d.Unseen now ↔
      ∀ cs : List Call, (now :: cs.map Call.now).Pairwise (· ≤ ·) →
        d.results (.value now true :: cs) = d.results cs)) ∧
    ∀ (d : DecayingSample second Window) (cs : List Call),
      (d.mWhen :: cs.map Call.now).Pairwise (· ≤ ·) →
      Run.Allowed (fun d c => (d.call c).2) (fun d c => c.inserted → d.Unseen c.now) d cs →
      d.results cs = d.results (cs.filter (!·.inserted)) := by
  constructor
  · intro d now hw
    refine ⟨fun h cs => results_inserted h hw, fun h => (unseen_iff hw).mpr fun t ht => ?_⟩
    have hv : ((d.decay now).decay t).mValue = (d.decay t).mValue := by
      apply eq_of_tdiv_add
      intro x
      have hx := h [.add x t] (by simp [ht])
      simpa [results, call, add, value] using hx
    rw [decay_eq hw, decay_eq ht, decay_eq (hw.trans ht)] at *
    exact congrArg (DecayingSample.mk · t) hv
  · intro d cs
    induction cs generalizing d with
    | nil => exact fun _ _ => rfl
    | cons c cs ih =>
      intro ht hc
      obtain ⟨hall, ht⟩ := List.pairwise_cons.mp ht
      have hw := hall c.now List.mem_cons_self
      have hr := ih _ ((call_mWhen hw).symm ▸ ht) hc.2
      rw [results, hr, List.filter_cons]
      cases c with
      | add x t => rfl
      | value t inserted =>
        cases inserted with
        | false => rfl
        | true =>
          apply results_inserted (hc.1 rfl) hw
          exact ht.sublist ((List.filter_sublist.map _).cons_cons _)

/-- A value of two windows, looked at after half a second, is not aged in the second half either. -/
theorem value_seen :
    let d : DecayingSample 2 32 := { mWhen := 0 }
    d.results [.add 64 0, .value 2 false] = [2, 1] ∧
      d.results [.add 64 0, .value 1 true, .value 2 false] = [2, 2] := by
  decide

end DecayingSample

end Rippled
