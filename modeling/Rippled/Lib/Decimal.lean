import Mathlib.Algebra.Order.Field.Power
import Mathlib.Tactic.Linarith
import Mathlib.Tactic.Positivity
import Mathlib.Tactic.Ring

namespace Rippled.Lib.Decimal

variable {a : ℕ} {b : ℤ}

/-- The number with the given mantissa and decimal exponent. -/
def val (m : ℕ) (e : ℤ) : ℚ := m * (10 : ℚ) ^ e

section Values

theorem ten_zpow_pos (e : ℤ) : (0 : ℚ) < (10 : ℚ) ^ e := by positivity

@[simp] theorem val_zero (e : ℤ) : val 0 e = 0 := by simp [val]

theorem val_nonneg (m : ℕ) (e : ℤ) : 0 ≤ val m e :=
  mul_nonneg (Nat.cast_nonneg m) (ten_zpow_pos e).le

theorem val_pos {m : ℕ} (h : 0 < m) (e : ℤ) : 0 < val m e :=
  mul_pos (Nat.cast_pos.mpr h) (ten_zpow_pos e)

theorem val_succ (m : ℕ) (e : ℤ) : val (m + 1) e = val m e + (10 : ℚ) ^ e := by
  rw [val, val, Nat.cast_succ, add_mul, one_mul]

/-- Digits may be moved between the mantissa and the exponent. -/
theorem val_mul_pow (m k : ℕ) (e : ℤ) : val (m * 10 ^ k) e = val m (e + k) := by
  rw [val, val, zpow_add₀ (by norm_num), zpow_natCast]
  push_cast
  ring

theorem val_le_val_iff {m m' : ℕ} (e : ℤ) : val m e ≤ val m' e ↔ m ≤ m' := by
  rw [val, val, mul_le_mul_iff_left₀ (ten_zpow_pos e)]
  exact Nat.cast_le

theorem val_lt_val_iff {m m' : ℕ} (e : ℤ) : val m e < val m' e ↔ m < m' := by
  rw [val, val, mul_lt_mul_iff_left₀ (ten_zpow_pos e)]
  exact Nat.cast_lt

theorem val_mono_exponent {e e' : ℤ} (h : e ≤ e') (m : ℕ) : val m e ≤ val m e' := by
  rw [val, val]
  exact mul_le_mul_of_nonneg_left (zpow_le_zpow_right₀ (by norm_num) h) (Nat.cast_nonneg m)

/-- Cutting off digits does not increase a number, and decreases it by less than a unit. -/
theorem val_div_pow (m k : ℕ) (e : ℤ) :
    val (m / 10 ^ k) (e + k) ≤ val m e ∧ val m e < val (m / 10 ^ k + 1) (e + k) := by
  rw [← val_mul_pow, ← val_mul_pow, val_le_val_iff, val_lt_val_iff]
  have hpos : 0 < 10 ^ k := by positivity
  exact ⟨Nat.div_mul_le_self m _, by rw [add_mul, one_mul]; exact Nat.lt_div_mul_add hpos⟩

/-- Against a number with fewer digits, the last digit does not matter. -/
theorem val_succ_le_of_lt {b : ℕ} {i j : ℤ} (hle : b ≤ a) (h : val a i < val b j) :
    val (a + 1) i ≤ val b j := by
  obtain hij | hji := le_or_gt i j
  · obtain ⟨k, rfl⟩ := Int.le.dest hij
    rw [← val_mul_pow, val_lt_val_iff] at h
    rw [← val_mul_pow, val_le_val_iff]
    exact h
  have : val b j ≤ val a i := calc
    val b j ≤ val a j := (val_le_val_iff j).mpr hle
    _ ≤ val a i := val_mono_exponent hji.le a
  exact absurd h this.not_gt

def cut : ℕ → ℕ → ℕ
  | 0, v => v
  | n + 1, v => cut n (v / 10)

theorem cut_eq (n v : ℕ) : cut n v = v / 10 ^ n := by
  induction n generalizing v with
  | zero => simp [cut]
  | succ n ih => rw [cut, ih, Nat.div_div_eq_div_mul, pow_succ']

/-- Rounding up the last digit after others were cut off loses something exactly where this
digit is zero and the others are not. -/
theorem le_roundUp_iff (v k : ℕ) :
    v ≤ (v / 10 ^ k + 9) / 10 * 10 ^ (k + 1) ↔ ¬(v % 10 ^ k ≠ 0 ∧ v / 10 ^ k % 10 = 0) := by
  have hdiv := Nat.div_add_mod v (10 ^ k)
  have hmod := Nat.mod_lt v (by positivity : 0 < 10 ^ k)
  generalize v / 10 ^ k = w at *
  generalize v % 10 ^ k = u at *
  have hpow : (w + 9) / 10 * 10 ^ (k + 1) = 10 ^ k * ((w + 9) / 10 * 10) := by
    rw [pow_succ]
    ring
  rw [hpow, ← hdiv]
  by_cases hl : w % 10 = 0
  · rw [show (w + 9) / 10 * 10 = w by omega]
    omega
  refine iff_of_true ?_ (fun h => hl h.2)
  calc 10 ^ k * w + u ≤ 10 ^ k * w + 10 ^ k := by omega
    _ = 10 ^ k * (w + 1) := by ring
    _ ≤ 10 ^ k * ((w + 9) / 10 * 10) := Nat.mul_le_mul_left _ (by omega)

theorem lt_roundUp_succ (v k : ℕ) {c : ℕ} (hc : 9 ≤ c) :
    v < ((v / 10 ^ k + c) / 10 + 1) * 10 ^ (k + 1) := by
  have hdiv := Nat.lt_mul_div_succ v (by positivity : 0 < 10 ^ k)
  generalize v / 10 ^ k = w at *
  calc v < 10 ^ k * (w + 1) := hdiv
    _ ≤ 10 ^ k * (((w + c) / 10 + 1) * 10) := Nat.mul_le_mul_left _ (by omega)
    _ = ((w + c) / 10 + 1) * 10 ^ (k + 1) := by rw [pow_succ]; ring

end Values

/-- Mantissas of a fixed number of digits, with a bounded exponent; zero has an exponent of
its own. -/
structure Format where
  minMantissa : ℕ
  maxMantissa : ℕ
  minExponent : ℤ
  maxExponent : ℤ
  zeroExponent : ℤ
  digits : ℕ
  minMantissa_eq : minMantissa = 10 ^ digits
  maxMantissa_eq : maxMantissa + 1 = 10 * minMantissa

inductive Overflow where
  | shrinking
  | exponent
deriving DecidableEq, Repr

namespace Format

variable (f : Format)

structure Regular (m : ℕ) (e : ℤ) : Prop where
  minMantissa_le : f.minMantissa ≤ m
  le_maxMantissa : m ≤ f.maxMantissa
  minExponent_le : f.minExponent ≤ e
  le_maxExponent : e ≤ f.maxExponent

def Normal (m : ℕ) (e : ℤ) : Prop := m = 0 ∧ e = f.zeroExponent ∨ f.Regular m e

def Representable (x : ℚ) : Prop := ∃ m e, f.Normal m e ∧ val m e = x

def grow : ℕ → ℕ → ℤ → ℕ × ℤ
  | 0, m, e => (m, e)
  | n + 1, m, e =>
    if m < f.minMantissa ∧ f.minExponent < e then grow n (m * 10) (e - 1) else (m, e)

def shrink : ℕ → ℕ → ℤ → Except Overflow (ℕ × ℤ)
  | 0, m, e => .ok (m, e)
  | n + 1, m, e =>
    if f.maxMantissa < m then
      if f.maxExponent ≤ e then .error .shrinking else shrink n (m / 10) (e + 1)
    else .ok (m, e)

def settle (m : ℕ) (e : ℤ) : Except Overflow (ℕ × ℤ) :=
  if e < f.minExponent ∨ m < f.minMantissa then .ok (0, f.zeroExponent)
  else if f.maxExponent < e then .error .exponent
  else .ok (m, e)

/-- Brings a number into the format; digits that do not fit are cut off. -/
def normalize (m : ℕ) (e : ℤ) : Except Overflow (ℕ × ℤ) :=
  if m = 0 then .ok (0, f.zeroExponent)
  else
    let grown := f.grow f.digits m e
    (f.shrink (grown.1.log2 + 1) grown.1 grown.2).bind fun shrunk => f.settle shrunk.1 shrunk.2

variable {f} {m m' k : ℕ} {e e' : ℤ}

theorem minMantissa_pos : 0 < f.minMantissa := by
  rw [f.minMantissa_eq]
  positivity

theorem Regular.pos (h : f.Regular m e) : 0 < m := f.minMantissa_pos.trans_le h.minMantissa_le

/-- What the first loop leaves: the same number, with enough digits unless the exponent
allows no more. -/
theorem grow_spec (n : ℕ) (hf : f.minMantissa ≤ m * 10 ^ n) :
    ∃ k : ℕ, f.grow n m e = (m * 10 ^ k, e - k) ∧
      (f.minMantissa ≤ m * 10 ^ k ∨ e - k ≤ f.minExponent) ∧
      (0 < k → m * 10 ^ k ≤ f.maxMantissa) := by
  induction n generalizing m e with
  | zero => exact ⟨0, by simp [grow], .inl (by simpa using hf), by simp⟩
  | succ n ih =>
    rw [grow]
    split
    · next hs =>
      obtain ⟨k, hg, hend, hmax⟩ := ih (m := m * 10) (e := e - 1) (by rwa [mul_assoc, ← pow_succ'])
      have hmul : m * 10 * 10 ^ k = m * 10 ^ (k + 1) := by rw [pow_succ']; ring
      have hexp : e - 1 - k = e - ((k + 1 : ℕ) : ℤ) := by push_cast; ring
      rw [hmul] at hg hend hmax
      rw [hexp] at hg hend
      refine ⟨k + 1, hg, hend, ?_⟩
      intro
      cases k with
      | zero =>
        have := f.maxMantissa_eq
        simp only [zero_add, pow_one]
        omega
      | succ k => exact hmax k.succ_pos
    · next hl =>
      refine ⟨0, by simp, ?_, by simp⟩
      rw [not_and_or, not_lt, not_lt] at hl
      simpa using hl

/-- What the second loop leaves: the leading digits, as many as fit. -/
theorem shrink_spec (n : ℕ) (hf : m < 2 ^ n) (h : f.shrink n m e = .ok (m', e')) :
    ∃ k : ℕ, m' = m / 10 ^ k ∧ e' = e + k ∧ m' ≤ f.maxMantissa ∧ (0 < k → f.minMantissa ≤ m') := by
  induction n generalizing m e with
  | zero =>
    obtain ⟨rfl, rfl⟩ : m = m' ∧ e = e' := by simpa [shrink] using h
    exact ⟨0, by simp, by simp, by simp at hf; omega, by simp⟩
  | succ n ih =>
    rw [pow_succ] at hf
    rw [shrink] at h
    split at h
    · next hl =>
      split_ifs at h
      obtain ⟨k, hm, he, hmax, hmin⟩ := ih (by omega) h
      refine ⟨k + 1, by rw [hm, Nat.div_div_eq_div_mul, ← pow_succ'], by rw [he]; push_cast; ring,
        hmax, ?_⟩
      intro
      cases k with
      | zero =>
        have := f.maxMantissa_eq
        simp only [pow_zero, Nat.div_one] at hm
        omega
      | succ k => exact hmin k.succ_pos
    · next hs =>
      obtain ⟨rfl, rfl⟩ : m = m' ∧ e = e' := by simpa using h
      exact ⟨0, by simp, by simp, by omega, by simp⟩

/-- The result is the number `x` cut off to the format. -/
def Truncates (f : Format) (x : ℚ) (m : ℕ) (e : ℤ) : Prop :=
  m = 0 ∧ e = f.zeroExponent ∧ x < val f.minMantissa f.minExponent ∨
    f.Regular m e ∧ val m e ≤ x ∧ x < val (m + 1) e

theorem Truncates.normal {x : ℚ} (h : f.Truncates x m e) : f.Normal m e := by
  obtain ⟨hm, he, -⟩ | ⟨hreg, -⟩ := h
  · exact .inl ⟨hm, he⟩
  · exact .inr hreg

theorem Truncates.val_le {x : ℚ} (h : f.Truncates x m e) (hx : 0 ≤ x) : val m e ≤ x := by
  obtain ⟨rfl, -, -⟩ | ⟨-, hle, -⟩ := h
  · rwa [val_zero]
  · exact hle

theorem Truncates.eq_zero (h : f.Truncates 0 m e) : m = 0 := by
  by_contra hm
  exact absurd (h.val_le le_rfl) (val_pos (Nat.pos_of_ne_zero hm) e).not_ge

theorem val_maxMantissa_succ (f : Format) (e : ℤ) :
    val (f.maxMantissa + 1) e = val f.minMantissa (e + 1) := by
  rw [f.maxMantissa_eq, mul_comm]
  exact_mod_cast val_mul_pow f.minMantissa 1 e

theorem settle_truncates {x : ℚ} (hle : val m e ≤ x) (hlt : x < val (m + 1) e)
    (hmax : m ≤ f.maxMantissa) (hfew : m < f.minMantissa → x < val f.minMantissa f.minExponent)
    (h : f.settle m e = .ok (m', e')) : f.Truncates x m' e' := by
  rw [settle] at h
  split_ifs at h with hs hexp
  · obtain ⟨rfl, rfl⟩ : 0 = m' ∧ f.zeroExponent = e' := by simpa using h
    refine .inl ⟨rfl, rfl, ?_⟩
    obtain he | hm := hs
    · calc x < val (m + 1) e := hlt
        _ ≤ val (f.maxMantissa + 1) e := (val_le_val_iff e).mpr (by omega)
        _ = val f.minMantissa (e + 1) := f.val_maxMantissa_succ e
        _ ≤ val f.minMantissa f.minExponent := val_mono_exponent (by omega) _
    · exact hfew hm
  · obtain ⟨rfl, rfl⟩ : m = m' ∧ e = e' := by simpa using h
    rw [not_or, not_lt, not_lt] at hs
    exact .inr ⟨⟨hs.2, hmax, hs.1, by omega⟩, hle, hlt⟩

theorem normalize_truncates (h : f.normalize m e = .ok (m', e')) : f.Truncates (val m e) m' e' := by
  rw [normalize] at h
  split at h
  · next hz =>
    obtain ⟨rfl, rfl⟩ : 0 = m' ∧ f.zeroExponent = e' := by simpa using h
    refine .inl ⟨rfl, rfl, ?_⟩
    rw [hz, val_zero]
    exact val_pos f.minMantissa_pos _
  · next hz =>
    have hf : f.minMantissa ≤ m * 10 ^ f.digits := by
      rw [f.minMantissa_eq]
      exact Nat.le_mul_of_pos_left _ (Nat.pos_of_ne_zero hz)
    obtain ⟨k, hg, hend, hgr⟩ := f.grow_spec (e := e) f.digits hf
    have hsm : val (m * 10 ^ k) (e - k) = val m e := by rw [val_mul_pow, sub_add_cancel]
    simp only [hg] at h
    cases hs : f.shrink ((m * 10 ^ k).log2 + 1) (m * 10 ^ k) (e - k) with
    | error err => simp [hs, Except.bind] at h
    | ok r =>
      obtain ⟨m₁, e₁⟩ := r
      simp only [hs, Except.bind] at h
      obtain ⟨j, rfl, rfl, hmax, hmin⟩ := f.shrink_spec _ Nat.lt_log2_self hs
      obtain ⟨hle, hlt⟩ := val_div_pow (m * 10 ^ k) j (e - k)
      rw [hsm] at hle hlt
      refine f.settle_truncates hle hlt hmax ?_ h
      -- too few digits are left only where nothing was cut off and the exponent is lowest
      intro hfew
      obtain rfl : j = 0 := by
        by_contra hj
        exact absurd (hmin (Nat.pos_of_ne_zero hj)) (by omega)
      simp only [pow_zero, Nat.div_one] at hfew
      calc val m e = val (m * 10 ^ k) (e - k) := hsm.symm
        _ < val f.minMantissa (e - k) := (val_lt_val_iff _).mpr hfew
        _ ≤ val f.minMantissa f.minExponent := val_mono_exponent (by omega) _

/-- Between a number of the format and the next larger one there is no other. -/
theorem not_between (hreg : f.Regular m e) (h : f.Normal a b) (hlt : val m e < val a b) :
    val (m + 1) e ≤ val a b := by
  obtain ⟨rfl, -⟩ | hab := h
  · rw [val_zero] at hlt
    exact absurd hlt (val_nonneg m e).not_gt
  obtain hle | hlow := le_or_gt e b
  · obtain ⟨k, rfl⟩ := Int.le.dest hle
    rw [← val_mul_pow] at hlt ⊢
    rw [val_lt_val_iff] at hlt
    exact (val_le_val_iff e).mpr hlt
  exfalso
  have : val a b ≤ val m e := calc
    val a b ≤ val (f.maxMantissa + 1) b := (val_le_val_iff b).mpr (by have := hab.2; omega)
    _ = val f.minMantissa (b + 1) := f.val_maxMantissa_succ b
    _ ≤ val f.minMantissa e := val_mono_exponent (by omega) _
    _ ≤ val m e := (val_le_val_iff e).mpr hreg.1
  exact absurd hlt this.not_gt

theorem val_min_le (h : f.Normal a b) (hpos : 0 < val a b) :
    val f.minMantissa f.minExponent ≤ val a b := by
  obtain ⟨rfl, -⟩ | hab := h
  · simp at hpos
  · calc val f.minMantissa f.minExponent ≤ val f.minMantissa b := val_mono_exponent hab.3 _
      _ ≤ val a b := (val_le_val_iff b).mpr hab.1

def below (f : Format) (x : ℚ) : Set ℚ := {y | f.Representable y ∧ y ≤ x}

def above (f : Format) (x : ℚ) : Set ℚ := {y | f.Representable y ∧ x ≤ y}

variable {x : ℚ}

/-- Cutting off gives the largest number of the format that is not above. -/
theorem Truncates.isGreatest (h : f.Truncates x m e) (hx : 0 ≤ x) :
    IsGreatest (f.below x) (val m e) := by
  refine ⟨⟨⟨m, e, h.normal, rfl⟩, h.val_le hx⟩, ?_⟩
  rintro _ ⟨⟨a, b, hab, rfl⟩, hle⟩
  by_contra! hlt
  obtain ⟨rfl, -, hmin⟩ | ⟨hreg, -, hn⟩ := h
  · rw [val_zero] at hlt
    exact absurd (f.val_min_le hab hlt) (hle.trans_lt hmin).not_ge
  · exact absurd (f.not_between hreg hab hlt) (hle.trans_lt hn).not_ge

theorem Truncates.exact (h : f.Truncates x m e) (hx : f.Representable x) : val m e = x := by
  have hn : 0 ≤ x := by
    obtain ⟨a, b, -, rfl⟩ := hx
    exact val_nonneg a b
  exact le_antisymm (h.val_le hn) ((h.isGreatest hn).2 ⟨hx, le_rfl⟩)

/-- A number of few enough digits is either too small for the format or kept exactly. -/
theorem Truncates.exact_of_le (h : f.Truncates (val m e) m' e') (hm : m ≤ f.maxMantissa)
    (hm' : m' ≠ 0) : val m' e' = val m e := by
  obtain ⟨hz, -⟩ | ⟨hreg, hle, hlt⟩ := h
  · exact absurd hz hm'
  obtain hexp | hexp := le_or_gt e' e
  · obtain ⟨k, rfl⟩ := Int.le.dest hexp
    rw [← val_mul_pow, val_le_val_iff] at hle
    rw [← val_mul_pow, val_lt_val_iff] at hlt
    rw [← val_mul_pow, show m' = m * 10 ^ k by omega]
  exfalso
  have : val m e < val m' e' := calc
    val m e < val (f.maxMantissa + 1) e := (val_lt_val_iff e).mpr (by omega)
    _ = val f.minMantissa (e + 1) := f.val_maxMantissa_succ e
    _ ≤ val f.minMantissa e' := val_mono_exponent (by omega) _
    _ ≤ val m' e' := (val_le_val_iff e').mpr hreg.1
  exact absurd hle this.not_ge

theorem representable_min (f : Format) (h : f.minExponent ≤ f.maxExponent) :
    f.Representable (val f.minMantissa f.minExponent) := by
  have := f.maxMantissa_eq
  have := f.minMantissa_pos
  exact ⟨_, _, .inr ⟨le_rfl, by omega, le_rfl, h⟩, rfl⟩

/-- The next number of the format is reached by adding one to the mantissa. -/
theorem Truncates.val_succ (hreg : f.Regular m e) (h : f.Truncates (val (m + 1) e) m' e') :
    val m' e' = val (m + 1) e := by
  apply h.exact
  obtain hle | hl := Nat.lt_or_ge m f.maxMantissa
  · exact ⟨m + 1, e, .inr ⟨hreg.1.trans (by omega), hle, hreg.3, hreg.4⟩, rfl⟩
  obtain rfl : m = f.maxMantissa := le_antisymm hreg.2 hl
  have hpos := f.minMantissa_pos
  have hmax := f.maxMantissa_eq
  refine ⟨f.minMantissa, e + 1, .inr ⟨le_rfl, by omega, by have := hreg.3; omega, ?_⟩,
    (f.val_maxMantissa_succ e).symm⟩
  obtain ⟨-, -, hmin⟩ | ⟨hreg', -, hlt⟩ := h
  · refine absurd hmin (not_lt.mpr ?_)
    rw [f.val_maxMantissa_succ]
    exact val_mono_exponent (by have := hreg.3; omega) _
  by_contra! ho
  refine absurd hlt (not_lt.mpr ?_)
  have hexp : e' ≤ e := hreg'.4.trans (by omega)
  calc val (m' + 1) e' ≤ val (f.maxMantissa + 1) e' :=
        (val_le_val_iff e').mpr (by have := hreg'.2; omega)
    _ ≤ val (f.maxMantissa + 1) e := val_mono_exponent hexp _

theorem Truncates.isLeast_min (h : f.Truncates x 0 e) (hf : f.minExponent ≤ f.maxExponent)
    (hx : 0 < x) : IsLeast (f.above x) (val f.minMantissa f.minExponent) := by
  obtain ⟨-, -, hmin⟩ | ⟨hreg, -, -⟩ := h
  · refine ⟨⟨f.representable_min hf, hmin.le⟩, ?_⟩
    rintro _ ⟨⟨a, b, hab, rfl⟩, hle⟩
    exact f.val_min_le hab (hx.trans_le hle)
  · exact absurd hreg.pos (lt_irrefl 0)

theorem Truncates.isLeast_succ (h : f.Truncates x m e) (hm : m ≠ 0) (hlt : val m e < x)
    (hs : f.Truncates (val (m + 1) e) m' e') : IsLeast (f.above x) (val m' e') := by
  obtain ⟨hz, -⟩ | ⟨hreg, -, hn⟩ := h
  · exact absurd hz hm
  have hval := hs.val_succ hreg
  refine ⟨⟨⟨m', e', hs.normal, rfl⟩, hval ▸ hn.le⟩, ?_⟩
  rintro _ ⟨⟨a, b, hab, rfl⟩, hle⟩
  rw [hval]
  exact f.not_between hreg hab (hlt.trans_le hle)

/-- Digits below those of a long enough number are cut off anyway. -/
theorem Truncates.of_leading {i : ℤ} (h : f.Truncates (val a i) m e) (hl : f.maxMantissa < a)
    (hle : val a i ≤ x) (hlt : x < val (a + 1) i) : f.Truncates x m e := by
  have hmax := f.maxMantissa_eq
  obtain ⟨hm, he, hmin⟩ | ⟨hreg, hge, hn⟩ := h
  · exact .inl ⟨hm, he, hlt.trans_le (val_succ_le_of_lt (by omega) hmin)⟩
  · have hd := hreg.le_maxMantissa
    exact .inr ⟨hreg, hge.trans hle, hlt.trans_le (val_succ_le_of_lt (by omega) hn)⟩

end Format

end Rippled.Lib.Decimal
