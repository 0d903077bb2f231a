import Rippled.Lib.Decimal

namespace Rippled

open Lib Decimal

def iouFormat : Format where
  minMantissa := 1000000000000000
  maxMantissa := 9999999999999999
  minExponent := -96
  maxExponent := 80
  zeroExponent := -100
  digits := 15
  minMantissa_eq := by norm_num
  maxMantissa_eq := by norm_num

/-- An amount of an issued currency, always kept normalized. -/
structure IOUAmount where
  mantissa : ℤ
  exponent : ℤ
  normal : iouFormat.Normal mantissa.natAbs exponent

namespace IOUAmount

def zero : IOUAmount := ⟨0, -100, .inl ⟨rfl, rfl⟩⟩

def overflowError : Overflow → String
  | .shrinking => "IOUAmount::normalize"
  | .exponent => "value overflow"

def withSign (negative : Bool) (m : ℕ) : ℤ := if negative then -m else m

@[simp] theorem withSign_true (m : ℕ) : withSign true m = -m := rfl

@[simp] theorem withSign_false (m : ℕ) : withSign false m = m := rfl

@[simp] theorem natAbs_withSign (negative : Bool) (m : ℕ) : (withSign negative m).natAbs = m := by
  cases negative <;> simp

def normalize (mantissa exponent : ℤ) : Except String IOUAmount :=
  match h : iouFormat.normalize mantissa.natAbs exponent with
  | .error err => .error (overflowError err)
  | .ok r => .ok
    { mantissa := withSign (mantissa < 0) r.1
      exponent := r.2
      normal := by
        rw [natAbs_withSign]
        exact (Format.normalize_truncates h).normal }

def value (a : IOUAmount) : ℚ := a.mantissa * (10 : ℚ) ^ a.exponent

def magnitude (a : IOUAmount) : ℚ := val a.mantissa.natAbs a.exponent

theorem normalize_ok {mantissa exponent : ℤ} {r : IOUAmount}
    (h : normalize mantissa exponent = .ok r) :
    iouFormat.Truncates (val mantissa.natAbs exponent) r.mantissa.natAbs r.exponent ∧
      r.mantissa = withSign (mantissa < 0) r.mantissa.natAbs := by
  rw [normalize] at h
  split at h
  · cases h
  · next s hs =>
    cases h
    rw [natAbs_withSign]
    exact ⟨Format.normalize_truncates hs, rfl⟩

variable {a : IOUAmount}

theorem value_of_nonneg (h : 0 ≤ a.mantissa) : a.value = a.magnitude := by
  rw [value, magnitude, val, ← Int.cast_natCast, Int.natAbs_of_nonneg h]

theorem value_of_nonpos (h : a.mantissa ≤ 0) : a.value = -a.magnitude := by
  rw [value, magnitude, val, ← Int.cast_natCast, Int.ofNat_natAbs_of_nonpos h]
  push_cast
  ring

section

variable (a : IOUAmount)

def neg : IOUAmount := ⟨-a.mantissa, a.exponent, by simpa using a.normal⟩

@[simp] theorem value_neg : a.neg.value = -a.value := by
  simp [neg, value]

theorem neg_neg : a.neg.neg = a := by simp [neg]

theorem magnitude_nonneg : 0 ≤ a.magnitude := val_nonneg _ _

theorem representable_magnitude : iouFormat.Representable a.magnitude :=
  ⟨_, _, a.normal, rfl⟩

theorem abs_value : |a.value| = a.magnitude := by
  obtain h | h := le_total 0 a.mantissa
  · rw [value_of_nonneg h, abs_of_nonneg a.magnitude_nonneg]
  · rw [value_of_nonpos h, abs_neg, abs_of_nonneg a.magnitude_nonneg]

end

theorem value_eq_magnitude (h : 0 < a.value) : a.value = a.magnitude := by
  obtain hm | hm := le_total 0 a.mantissa
  · exact value_of_nonneg hm
  · rw [value_of_nonpos hm] at h
    have := a.magnitude_nonneg
    linarith

end IOUAmount

end Rippled
