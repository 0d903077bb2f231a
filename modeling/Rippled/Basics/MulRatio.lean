import Rippled.Basics.IOUAmount
import Mathlib.Tactic.FieldSimp

namespace Rippled.IOUAmount

open Lib Decimal

variable {e : ℤ} {k m : ℕ}

def powerTable : List ℕ := (List.range 30).map (10 ^ ·)

def log10Ceil (v : ℕ) : ℕ := powerTable.findIdx (v ≤ ·)

def log10Floor (v : ℕ) : ℤ :=
  let index := log10Ceil v
  if powerTable[index]? = some v then index else index - 1

def fl64 : ℤ := log10Floor (2 ^ 63 - 1)

/-- The quotient `low + rem / den`, to be scaled by the power of ten. -/
structure Quotient where
  low : ℕ
  rem : ℕ
  exponent : ℤ

namespace Quotient

variable (q : Quotient)

def scale (k : ℕ) : Quotient :=
  { low := q.low * powerTable.getD k 0
    rem := q.rem * powerTable.getD k 0
    exponent := q.exponent - k }

def carry (den : ℕ) : Quotient :=
  let addRem := q.rem / den
  { q with low := q.low + addRem, rem := q.rem - addRem * den }

def scaleUp (den : ℕ) : Quotient :=
  if q.rem = 0 then q
  else
    let roomToGrow := fl64 - log10Ceil q.low
    carry (if 0 < roomToGrow then q.scale roomToGrow.toNat else q) den

end Quotient

/-- The leading digits of a quotient, and whether something was lost. -/
structure Scaled where
  low : ℕ
  exponent : ℤ
  hasRem : Bool
deriving DecidableEq

def Quotient.scaleDown (q : Quotient) : Scaled :=
  let mustShrink := log10Ceil q.low - fl64
  if 0 < mustShrink then
    let power := powerTable.getD mustShrink.toNat 0
    let low := q.low / power
    { low := low
      exponent := q.exponent + mustShrink
      hasRem := q.rem != 0 || q.low - low * power != 0 }
  else { low := q.low, exponent := q.exponent, hasRem := q.rem != 0 }

def scaled (mantissa num den : ℕ) (exponent : ℤ) : Scaled :=
  let mul := mantissa * num
  let low := mul / den
  let quotient : Quotient := { low, rem := mul - low * den, exponent }
  (quotient.scaleUp den).scaleDown

def mulRatio (amt : IOUAmount) (num den : UInt32) (roundUp : Bool) : Except String IOUAmount :=
  if den = 0 then .error "division by zero"
  else
    let neg := decide (amt.mantissa < 0)
    let s := scaled amt.mantissa.natAbs num.toNat den.toNat amt.exponent
    (normalize (withSign neg s.low) s.exponent).bind fun result =>
      if s.hasRem then
        if roundUp && !neg then
          if result.mantissa = 0 then normalize iouFormat.minMantissa iouFormat.minExponent
          else normalize (result.mantissa + 1) result.exponent
        else if !roundUp && neg then
          if result.mantissa = 0 then normalize (-iouFormat.minMantissa) iouFormat.minExponent
          else normalize (result.mantissa - 1) result.exponent
        else .ok result
      else .ok result

theorem powerTable_getD (h : k < 30) : powerTable.getD k 0 = 10 ^ k := by
  simp [powerTable, h]

theorem fl64_eq : fl64 = 18 := by decide

theorem log10Ceil_le (v : ℕ) : log10Ceil v ≤ 30 := by
  have h : powerTable.length = 30 := by simp [powerTable]
  rw [← h]
  exact List.findIdx_le_length

theorem lt_of_lt_log10Ceil {v : ℕ} (h : k < log10Ceil v) : 10 ^ k < v := by
  have hk : k < 30 := h.trans_le (log10Ceil_le v)
  have hlen : k < powerTable.length := by simpa [powerTable] using hk
  have hnot := List.not_of_lt_findIdx h
  have hget : powerTable[k] = 10 ^ k := by simp [powerTable]
  simpa [hget] using hnot

theorem le_pow_log10Ceil {v : ℕ} (h : v ≤ 10 ^ 29) : v ≤ 10 ^ log10Ceil v := by
  have hlt : log10Ceil v < powerTable.length :=
    List.findIdx_lt_length_of_exists ⟨10 ^ 29, List.mem_map.mpr ⟨29, by simp, rfl⟩, decide_eq_true h⟩
  have hget : powerTable[log10Ceil v] = 10 ^ log10Ceil v := by simp [powerTable]
  rw [← hget]
  exact of_decide_eq_true (List.findIdx_getElem (w := hlt))

namespace Quotient

def amount (q : Quotient) (den : ℕ) : ℚ := (q.low + q.rem / den) * (10 : ℚ) ^ q.exponent

variable {q : Quotient} {den : ℕ}

theorem amount_eq (q : Quotient) (den : ℕ) :
    q.amount den = val q.low q.exponent + q.rem / den * (10 : ℚ) ^ q.exponent := by
  rw [amount, val, add_mul]

theorem le_amount (q : Quotient) (den : ℕ) : val q.low q.exponent ≤ q.amount den := by
  have := ten_zpow_pos q.exponent
  rw [amount_eq, le_add_iff_nonneg_right]
  positivity

theorem amount_eq_val_iff (hden : 0 < den) : val q.low q.exponent = q.amount den ↔ q.rem = 0 := by
  have hpos := ten_zpow_pos q.exponent
  have hden' : (den : ℚ) ≠ 0 := Nat.cast_ne_zero.mpr hden.ne'
  rw [amount_eq, left_eq_add, mul_eq_zero, or_iff_left hpos.ne', div_eq_zero_iff,
    or_iff_left hden', Nat.cast_eq_zero]

theorem amount_lt (hrem : q.rem < den) : q.amount den < val (q.low + 1) q.exponent := by
  have hden : (0 : ℚ) < den := Nat.cast_pos.mpr (by omega)
  have hf := (div_lt_one hden).mpr (Nat.cast_lt.mpr hrem)
  rw [amount, val, mul_lt_mul_iff_left₀ (ten_zpow_pos _), Nat.cast_succ]
  exact add_lt_add_right hf _

theorem scale_amount (hk : k < 30) : (q.scale k).amount den = q.amount den := by
  simp only [amount, scale, powerTable_getD hk]
  rw [zpow_sub₀ (by norm_num), zpow_natCast]
  push_cast
  field_simp

/-- A number of fewer than 18 digits is scaled to 18. -/
theorem exists_scale_eq (h : 0 < 18 - (log10Ceil q.low : ℤ)) :
    ∃ k : ℕ, log10Ceil q.low + k = 18 ∧ q.scale (18 - (log10Ceil q.low : ℤ)).toNat =
      ⟨q.low * 10 ^ k, q.rem * 10 ^ k, q.exponent - k⟩ := by
  obtain ⟨k, hk⟩ : ∃ k : ℕ, log10Ceil q.low + k = 18 := ⟨18 - log10Ceil q.low, by omega⟩
  have hk' : (18 - (log10Ceil q.low : ℤ)).toNat = k := by omega
  rw [hk', scale, powerTable_getD (by omega)]
  exact ⟨k, hk, rfl⟩

theorem carry_amount (hden : 0 < den) : (q.carry den).amount den = q.amount den := by
  have hden' : (den : ℚ) ≠ 0 := Nat.cast_ne_zero.mpr hden.ne'
  simp only [amount, carry]
  rw [Nat.cast_sub (Nat.div_mul_le_self _ _)]
  push_cast
  field_simp
  ring

theorem carry_rem_lt (hden : 0 < den) : (q.carry den).rem < den := by
  change q.rem - q.rem / den * den < den
  rw [← Nat.mod_eq_sub_div_mul]
  exact Nat.mod_lt _ hden

theorem scaleUp_spec (hden : 0 < den) (hrem : q.rem < den) (hlow : q.rem ≠ 0 → 0 < q.low) :
    (q.scaleUp den).amount den = q.amount den ∧ (q.scaleUp den).rem < den ∧
      ((q.scaleUp den).rem ≠ 0 → 10 ^ 17 ≤ (q.scaleUp den).low) := by
  rw [scaleUp]
  split
  · next hz => exact ⟨rfl, hrem, fun h => absurd hz h⟩
  · next hz =>
    have hpos := hlow hz
    rw [fl64_eq]
    refine ⟨?_, carry_rem_lt hden, ?_⟩
    · rw [carry_amount hden]
      split
      · exact scale_amount (by omega)
      · rfl
    intro
    refine le_trans ?_ (Nat.le_add_right _ _)
    split
    · next hr =>
      obtain ⟨k, hk, hq⟩ := exists_scale_eq hr
      rw [hq]
      cases hlog : log10Ceil q.low with
      | zero =>
        obtain rfl : k = 18 := by omega
        dsimp only
        omega
      | succ c =>
        have hlt : 10 ^ c < q.low := lt_of_lt_log10Ceil (by omega)
        calc 10 ^ 17 = 10 ^ c * 10 ^ k := by rw [← pow_add]; congr 1; omega
          _ ≤ q.low * 10 ^ k := Nat.mul_le_mul_right _ hlt.le
    · next hf => exact (lt_of_lt_log10Ceil (by omega)).le

theorem scaleUp_low_le (hrem : q.rem < den) (hlow : q.low ≤ 10 ^ 28) :
    (q.scaleUp den).low ≤ 10 ^ 29 := by
  rw [scaleUp]
  split
  · exact hlow.trans (by norm_num)
  rw [fl64_eq, carry]
  dsimp only
  split
  · next hr =>
    obtain ⟨k, hk, hq⟩ := exists_scale_eq hr
    rw [hq]
    have hl : q.low * 10 ^ k ≤ 10 ^ 18 := by
      rw [← hk, pow_add]
      exact Nat.mul_le_mul_right _ (le_pow_log10Ceil (hlow.trans (by norm_num)))
    have hc : q.rem * 10 ^ k / den ≤ 10 ^ k :=
      Nat.div_le_of_le_mul (Nat.mul_le_mul_right _ hrem.le)
    have hp : 10 ^ k ≤ 10 ^ 18 := Nat.pow_le_pow_right (by norm_num) (by omega)
    dsimp only
    omega
  · rw [Nat.div_eq_of_lt hrem]
    omega

theorem scaleDown_eq (q : Quotient) :
    ∃ k : ℕ, q.scaleDown.low = q.low / 10 ^ k ∧ q.scaleDown.exponent = q.exponent + k ∧
      (q.scaleDown.hasRem ↔ q.rem ≠ 0 ∨ q.low / 10 ^ k * 10 ^ k ≠ q.low) ∧
      (k ≠ 0 → 10 ^ 17 ≤ q.scaleDown.low) ∧ (q.low ≤ 10 ^ 29 → q.scaleDown.low ≤ 10 ^ 18) := by
  rw [scaleDown, fl64_eq]
  split
  · next hs =>
    obtain ⟨k, hk⟩ : ∃ k : ℕ, log10Ceil q.low = 18 + k := ⟨log10Ceil q.low - 18, by omega⟩
    have hle := log10Ceil_le q.low
    have hk' : ((log10Ceil q.low : ℤ) - 18).toNat = k := by omega
    have hexp : (log10Ceil q.low : ℤ) - 18 = k := by omega
    have hcut := Nat.div_mul_le_self q.low (10 ^ k)
    rw [hk', hexp, powerTable_getD (by omega)]
    refine ⟨k, rfl, rfl, ?_, ?_, ?_⟩
    · simp only [Bool.or_eq_true, bne_iff_ne]
      apply or_congr Iff.rfl
      omega
    · intro
      have hlt : 10 ^ (17 + k) < q.low := lt_of_lt_log10Ceil (by omega)
      rw [Nat.le_div_iff_mul_le (by positivity), ← pow_add]
      exact hlt.le
    · intro hl
      have hpow := le_pow_log10Ceil hl
      rw [hk, add_comm, pow_add] at hpow
      exact Nat.div_le_of_le_mul hpow
  · next hsm =>
    refine ⟨0, by simp, by simp, by simp, by simp, fun hl => ?_⟩
    exact (le_pow_log10Ceil hl).trans (Nat.pow_le_pow_right (by norm_num) (by omega))

end Quotient

/-- The leading digits of a number, at least 18 of them where something is left over. -/
structure Scaled.Leading (s : Scaled) (x : ℚ) : Prop where
  le : val s.low s.exponent ≤ x
  lt : x < val (s.low + 1) s.exponent
  hasRem_iff : s.hasRem ↔ val s.low s.exponent ≠ x
  large : s.hasRem → 10 ^ 17 ≤ s.low
  small : s.low ≤ 10 ^ 18

/-- Something is left over exactly if the number has no form with up to 18 digits. -/
theorem Scaled.Leading.hasRem_iff_forall {s : Scaled} {x : ℚ} (h : s.Leading x) :
    s.hasRem ↔ ∀ m ≤ 10 ^ 18, ∀ e, val m e ≠ x := by
  refine ⟨?_, fun hall => h.hasRem_iff.mpr (hall s.low h.small s.exponent)⟩
  rintro hr m hm e rfl
  have hl := h.large hr
  have hlow := lt_of_le_of_ne h.le (h.hasRem_iff.mp hr)
  have hlt := h.lt
  obtain hle | hle := le_total s.exponent e <;> obtain ⟨k, hk⟩ := Int.le.dest hle
  · -- at a larger exponent it would be a whole number between two neighbours
    rw [← hk, ← val_mul_pow, val_lt_val_iff] at hlow hlt
    omega
  · -- at a smaller one it has more digits
    rw [← hk, ← val_mul_pow, val_lt_val_iff] at hlow hlt
    cases k with
    | zero => omega
    | succ k =>
      have hp : s.low * 10 ≤ s.low * 10 ^ (k + 1) :=
        Nat.mul_le_mul_left _ (Nat.le_self_pow k.succ_ne_zero 10)
      omega

variable {den : ℕ}

theorem Quotient.scaleDown_leading {q : Quotient} (hrem : q.rem < den)
    (hlow : q.rem ≠ 0 → 10 ^ 17 ≤ q.low) (hle : q.low ≤ 10 ^ 29) :
    q.scaleDown.Leading (q.amount den) := by
  obtain ⟨k, hk, hexp, hhas, hl, hs⟩ := q.scaleDown_eq
  have hsmall := hs hle
  obtain ⟨hle, hlt⟩ := val_div_pow q.low k q.exponent
  have hval : val (q.low / 10 ^ k) (q.exponent + k) = val q.low q.exponent ↔
      q.low / 10 ^ k * 10 ^ k = q.low := by
    rw [← val_mul_pow, le_antisymm_iff, val_le_val_iff, val_le_val_iff, ← le_antisymm_iff]
  refine ⟨?_, ?_, ?_, ?_, hsmall⟩
  · rw [hk, hexp]
    exact hle.trans (q.le_amount den)
  · rw [hk, hexp]
    refine (q.amount_lt hrem).trans_le ?_
    rw [← val_mul_pow, val_lt_val_iff] at hlt
    rw [← val_mul_pow, val_le_val_iff]
    exact hlt
  · rw [hk, hexp, hhas, ← not_iff_not, not_or, not_not, not_not, not_not,
      ← amount_eq_val_iff (by omega : 0 < den), ← hval]
    constructor
    · rintro ⟨ha, hcut⟩
      exact hcut.trans ha
    · intro h
      have hcut := le_antisymm hle (h ▸ q.le_amount den)
      exact ⟨hcut ▸ h, hcut⟩
  · rw [hhas]
    intro h
    obtain rfl | hk0 := Nat.eq_zero_or_pos k
    · obtain hrem | hcut := h
      · simpa [hk] using hlow hrem
      · simp at hcut
    · exact hl hk0.ne'

theorem scaled_leading {num : ℕ} (hm : iouFormat.Normal m e) (hden : 0 < den)
    (hden32 : den < 2 ^ 32) (hnum : num < 2 ^ 32) :
    (scaled m num den e).Leading (val m e * num / den) := by
  have hrem := (Nat.mod_eq_sub_div_mul (x := m * num) (k := den)).symm
  have hlt : m * num % den < den := Nat.mod_lt _ hden
  have hden' : (den : ℚ) ≠ 0 := Nat.cast_ne_zero.mpr hden.ne'
  let q : Quotient := { low := m * num / den, rem := m * num - m * num / den * den, exponent := e }
  have ha : q.amount den = val m e * num / den := by
    rw [Quotient.amount, val, Nat.cast_sub (Nat.div_mul_le_self _ _)]
    push_cast
    field_simp
    ring
  have hlow : q.rem ≠ 0 → 0 < q.low := by
    intro hne
    apply Nat.div_pos _ hden
    have hmul : m * num ≠ 0 := by
      rintro h0
      exact hne (by change m * num - _ = 0; rw [h0, Nat.zero_sub])
    obtain ⟨rfl, -⟩ | hreg := hm
    · simp at hmul
    · have hmin : 1000000000000000 ≤ m := hreg.minMantissa_le
      have : m ≤ m * num := Nat.le_mul_of_pos_right m (Nat.pos_of_ne_zero (right_ne_zero_of_mul hmul))
      omega
  have hle : q.low ≤ 10 ^ 28 := by
    have hmax : m ≤ 9999999999999999 := by
      obtain ⟨rfl, -⟩ | hreg := hm
      · exact Nat.zero_le _
      · exact hreg.le_maxMantissa
    exact (Nat.div_le_self _ _).trans ((Nat.mul_le_mul hmax hnum.le).trans (by norm_num))
  obtain ⟨hs, hrem', hl⟩ := q.scaleUp_spec hden (hrem.trans_lt hlt) hlow
  rw [← ha, ← hs]
  exact (q.scaleUp den).scaleDown_leading hrem' hl (q.scaleUp_low_le (hrem.trans_lt hlt) hle)

/-- The amount is the number rounded to the nearest amount in the given direction. -/
def RoundsTo (x : ℚ) (roundUp : Bool) (r : IOUAmount) : Prop :=
  if roundUp then x ≤ r.value ∧ ∀ a : IOUAmount, ¬(x < a.value ∧ a.value < r.value)
  else r.value ≤ x ∧ ∀ a : IOUAmount, ¬(r.value < a.value ∧ a.value < x)

variable {x : ℚ} {roundUp : Bool} {r : IOUAmount}

theorem roundsTo_neg_iff : RoundsTo (-x) roundUp r ↔ RoundsTo x (!roundUp) r.neg := by
  have hm : ∀ P : IOUAmount → Prop, (∀ a, P a) ↔ ∀ a : IOUAmount, P a.neg := by
    intro P
    refine ⟨fun h a => h a.neg, fun h a => ?_⟩
    rw [← a.neg_neg]
    exact h a.neg
  cases roundUp with
  | false =>
    simp only [RoundsTo, Bool.not_false, Bool.false_eq_true, if_false, if_true, value_neg]
    rw [le_neg, hm]
    simp only [value_neg, neg_lt_neg_iff, lt_neg, and_comm]
  | true =>
    simp only [RoundsTo, Bool.not_true, Bool.false_eq_true, if_false, if_true, value_neg]
    rw [neg_le, hm]
    simp only [value_neg, neg_lt_neg_iff, neg_lt, and_comm]

def abs (a : IOUAmount) : IOUAmount := ⟨a.mantissa.natAbs, a.exponent, a.normal⟩

@[simp] theorem value_abs (a : IOUAmount) : a.abs.value = a.magnitude := by
  simp [abs, value, magnitude, val]

variable {negative : Bool}

theorem roundsTo_abs_iff (hr : r.mantissa = withSign negative r.mantissa.natAbs) :
    RoundsTo (if negative then -x else x) roundUp r ↔ RoundsTo x (roundUp != negative) r.abs := by
  cases negative with
  | false =>
    have habs : r.abs = r := by simp only [abs, ← show r.mantissa = r.mantissa.natAbs from hr]
    rw [habs]
    simp
  | true =>
    have habs : r.neg = r.abs := by
      have : -r.mantissa = r.mantissa.natAbs := by
        rw [neg_eq_iff_eq_neg]
        exact hr
      simp only [abs, neg, this]
    rw [if_pos rfl, roundsTo_neg_iff, habs]
    simp

theorem roundsTo_of_isGreatest (h : IsGreatest (iouFormat.below x) r.magnitude) :
    RoundsTo x false r.abs := by
  rw [RoundsTo, if_neg (by simp), value_abs]
  refine ⟨h.1.2, ?_⟩
  rintro a ⟨hlt, hle⟩
  have ha := value_eq_magnitude (r.magnitude_nonneg.trans_lt hlt)
  exact absurd (h.2 ⟨a.representable_magnitude, ha ▸ hle.le⟩) (ha ▸ hlt).not_ge

theorem roundsTo_of_isLeast (hx : 0 ≤ x) (h : IsLeast (iouFormat.above x) r.magnitude) :
    RoundsTo x true r.abs := by
  rw [RoundsTo, if_pos rfl, value_abs]
  refine ⟨h.1.2, ?_⟩
  rintro a ⟨hlt, hle⟩
  have ha := value_eq_magnitude (hx.trans_lt hlt)
  exact absurd (h.2 ⟨a.representable_magnitude, ha ▸ hlt.le⟩) (ha ▸ hle).not_ge

theorem roundsTo_up_iff_representable (hx : 0 ≤ x)
    (h : IsGreatest (iouFormat.below x) r.magnitude) :
    RoundsTo x true r.abs ↔ iouFormat.Representable x := by
  constructor
  · intro hr
    rw [RoundsTo, if_pos rfl, value_abs] at hr
    rw [le_antisymm hr.1 h.1.2]
    exact r.representable_magnitude
  intro hrep
  have heq : r.magnitude = x := le_antisymm h.1.2 (h.2 ⟨hrep, le_rfl⟩)
  refine roundsTo_of_isLeast hx ⟨⟨r.representable_magnitude, heq.ge⟩, ?_⟩
  rintro y ⟨-, hy⟩
  rwa [heq]

theorem normalize_withSign (h : normalize (withSign negative m) e = .ok r) :
    iouFormat.Truncates (val m e) r.mantissa.natAbs r.exponent ∧
      r.mantissa = withSign negative r.mantissa.natAbs := by
  obtain ⟨ht, hs⟩ := normalize_ok h
  rw [natAbs_withSign] at ht
  refine ⟨ht, ?_⟩
  cases negative with
  | false =>
    have hneg : ¬withSign false m < 0 := by simp
    rwa [decide_eq_false hneg] at hs
  | true =>
    obtain rfl | hm := Nat.eq_zero_or_pos m
    · -- zero has no sign
      rw [val_zero] at ht
      rw [ht.eq_zero, withSign, Nat.cast_zero, neg_zero, ite_self]
      exact Int.natAbs_eq_zero.mp ht.eq_zero
    · have hneg : withSign true m < 0 := by rw [withSign_true]; omega
      rwa [decide_eq_true hneg] at hs

theorem withSign_succ {a : ℤ} (h : a = withSign negative a.natAbs) :
    withSign negative (a.natAbs + 1) = if negative then a - 1 else a + 1 := by
  cases negative with
  | false =>
    rw [withSign_false] at h
    rw [withSign_false, if_neg (by decide)]
    omega
  | true =>
    rw [withSign_true] at h
    rw [withSign_true, if_pos rfl]
    omega

/-- What a call that returns has done. -/
theorem mulRatio_cases {amt : IOUAmount} {num den : UInt32}
    (h : mulRatio amt num den roundUp = .ok r) :
    den ≠ 0 ∧ ∃ t, normalize (withSign (amt.mantissa < 0)
        (scaled amt.mantissa.natAbs num.toNat den.toNat amt.exponent).low)
        (scaled amt.mantissa.natAbs num.toNat den.toNat amt.exponent).exponent = .ok t ∧
      if (scaled amt.mantissa.natAbs num.toNat den.toNat amt.exponent).hasRem ∧
          (roundUp != decide (amt.mantissa < 0)) then
        normalize (withSign (amt.mantissa < 0)
          (if t.mantissa = 0 then iouFormat.minMantissa else t.mantissa.natAbs + 1))
          (if t.mantissa = 0 then iouFormat.minExponent else t.exponent) = .ok r
      else r = t := by
  rw [mulRatio] at h
  split at h
  · cases h
  · next hden =>
    refine ⟨hden, ?_⟩
    dsimp only at h
    generalize scaled amt.mantissa.natAbs num.toNat den.toNat amt.exponent = s at h ⊢
    cases hn : normalize (withSign (amt.mantissa < 0) s.low) s.exponent with
    | error err => simp [hn, Except.bind] at h
    | ok t =>
      refine ⟨t, rfl, ?_⟩
      rw [hn] at h
      have hs := (normalize_withSign hn).2
      have hnx := withSign_succ hs
      cases hrem : s.hasRem with
      | false =>
        simp only [hrem, Except.bind, Bool.false_eq_true, if_false, Except.ok.injEq] at h
        rw [if_neg (by simp)]
        exact h.symm
      | true =>
        simp only [hrem, Except.bind, if_true] at h
        generalize decide (amt.mantissa < 0) = negative at h hnx ⊢
        by_cases hz : t.mantissa = 0
        · simp only [hz, if_true] at h ⊢
          cases negative <;> cases roundUp <;> simpa [eq_comm] using h
        · simp only [hz, if_false, hnx] at h ⊢
          cases negative <;> cases roundUp <;> simpa [eq_comm] using h

section

variable (amt : IOUAmount) (num den : UInt32)

def ratio : ℚ := amt.magnitude * num.toNat / den.toNat

/-- The product has no form with up to 18 digits. -/
def CutOff : Prop := ∀ m ≤ 10 ^ 18, ∀ e, val m e ≠ amt.ratio num den

theorem value_mul_ratio : amt.value * num.toNat / den.toNat =
      if decide (amt.mantissa < 0) then -amt.ratio num den else amt.ratio num den := by
  by_cases h : amt.mantissa < 0
  · rw [if_pos (by simpa using h), value_of_nonpos h.le, ratio]
    ring
  · rw [if_neg (by simpa using h), value_of_nonneg (by omega), ratio]

theorem ratio_nonneg : 0 ≤ amt.ratio num den := by
  have := amt.magnitude_nonneg
  rw [ratio]
  positivity

end

theorem Scaled.Leading.truncates {s : Scaled} (hl : s.Leading x)
    (h : iouFormat.Truncates (val s.low s.exponent) m e) : iouFormat.Truncates x m e := by
  by_cases hrem : s.hasRem
  · have hlr := hl.large hrem
    refine h.of_leading ?_ hl.le hl.lt
    change 9999999999999999 < s.low
    omega
  · rw [hl.hasRem_iff, not_not] at hrem
    rwa [hrem] at h

/-- Adding one to a mantissa that was cut off gives the next larger amount. -/
theorem isLeast_of_normalize_succ {t : IOUAmount}
    (ht : iouFormat.Truncates x t.mantissa.natAbs t.exponent) (hlt : t.magnitude < x)
    (h : normalize (withSign negative (if t.mantissa = 0 then iouFormat.minMantissa else
      t.mantissa.natAbs + 1)) (if t.mantissa = 0 then iouFormat.minExponent else t.exponent) = .ok
      r) : IsLeast (iouFormat.above x) r.magnitude := by
  have hr := (normalize_withSign h).1
  have hrn : iouFormat.minExponent ≤ iouFormat.maxExponent := by decide
  by_cases hz : t.mantissa = 0
  · rw [if_pos hz, if_pos hz] at hr
    rw [hz, Int.natAbs_zero] at ht
    rw [magnitude, hr.exact (iouFormat.representable_min hrn)]
    exact ht.isLeast_min hrn (t.magnitude_nonneg.trans_lt hlt)
  · rw [if_neg hz, if_neg hz] at hr
    exact ht.isLeast_succ (by simpa using hz) hlt hr

/-- Products are rounded in the requested direction exactly where this is toward zero, where they have
more than 18 digits, or where no rounding is needed. -/
theorem mulRatio_roundsTo_iff {amt r : IOUAmount} {num den : UInt32} {roundUp : Bool}
    (h : mulRatio amt num den roundUp = .ok r) :
    RoundsTo (amt.value * num.toNat / den.toNat) roundUp r ↔
      roundUp = decide (amt.mantissa < 0) ∨ amt.CutOff num den ∨
        iouFormat.Representable (amt.ratio num den) := by
  obtain ⟨hden, t, hnorm, hcase⟩ := mulRatio_cases h
  have hden' : 0 < den.toNat := Nat.pos_of_ne_zero fun h0 => hden (UInt32.toNat_inj.mp h0)
  have hlead : (scaled amt.mantissa.natAbs num.toNat den.toNat amt.exponent).Leading
      (amt.ratio num den) := scaled_leading amt.normal hden' den.toNat_lt num.toNat_lt
  rw [CutOff, ← hlead.hasRem_iff_forall, value_mul_ratio]
  generalize scaled amt.mantissa.natAbs num.toNat den.toNat amt.exponent = s at *
  have hx := amt.ratio_nonneg num den
  obtain ⟨hlow, hsign⟩ := normalize_withSign hnorm
  have htrunc := hlead.truncates hlow
  split at hcase
  · next haway =>
    have hcut := hlead.hasRem_iff.mp haway.1
    have hlt := (hlow.val_le (val_nonneg _ _)).trans_lt (lt_of_le_of_ne hlead.le hcut)
    rw [roundsTo_abs_iff (normalize_withSign hcase).2, haway.2]
    exact iff_of_true (roundsTo_of_isLeast hx (isLeast_of_normalize_succ htrunc hlt hcase))
      (.inr (.inl haway.1))
  · next hkept =>
    subst hcase
    have hgreatest := htrunc.isGreatest hx
    rw [roundsTo_abs_iff hsign]
    cases haway : roundUp != decide (amt.mantissa < 0) with
    | false =>
      rw [bne_eq_false_iff_eq] at haway
      exact iff_of_true (roundsTo_of_isGreatest hgreatest) (.inl haway)
    | true =>
      rw [haway, and_iff_left rfl] at hkept
      rw [bne_iff_ne] at haway
      rw [roundsTo_up_iff_representable hx hgreatest, or_iff_right haway, or_iff_right hkept]

def unit : IOUAmount := ⟨1000000000000000, -15, .inr ⟨by decide, by decide, by decide, by decide⟩⟩

def third : IOUAmount :=
  ⟨3333333333333334, -16, .inr ⟨by decide, by decide, by decide, by decide⟩⟩

theorem mulRatio_roundsTo_third :
    mulRatio unit 1 3 true = .ok third ∧
      RoundsTo (unit.value * (1 : UInt32).toNat / (3 : UInt32).toNat) true third := by
  have h : mulRatio unit 1 3 true = .ok third := by rfl
  have hlead : (scaled 1000000000000000 1 3 (-15)).Leading (unit.ratio 1 3) :=
    scaled_leading unit.normal (by decide) (by decide) (by decide)
  exact ⟨h, (mulRatio_roundsTo_iff h).mpr (.inr (.inl (hlead.hasRem_iff_forall.mp (by decide))))⟩

def overUnit : IOUAmount :=
  ⟨1000000000000001, -15, .inr ⟨by decide, by decide, by decide, by decide⟩⟩

def elevenfold : IOUAmount :=
  ⟨1100000000000001, -14, .inr ⟨by decide, by decide, by decide, by decide⟩⟩

/-- Eleven times `1000000000000001` has 17 digits; the last one is dropped although the
amount should be rounded up. -/
theorem mulRatio_elevenfold_below :
    mulRatio overUnit 11 1 true = .ok elevenfold ∧
      ¬RoundsTo (overUnit.value * (11 : UInt32).toNat / (1 : UInt32).toNat) true elevenfold := by
  refine ⟨by rfl, ?_⟩
  rw [RoundsTo, if_pos rfl]
  rintro ⟨hle, -⟩
  have hexact : overUnit.value * (11 : UInt32).toNat / (1 : UInt32).toNat =
      11000000000000011 * (10 : ℚ) ^ (-15 : ℤ) := by
    rw [show (11 : UInt32).toNat = 11 from rfl, show (1 : UInt32).toNat = 1 from rfl]
    norm_num [value, overUnit]
  have hresult : elevenfold.value = 11000000000000010 * (10 : ℚ) ^ (-15 : ℤ) := by
    norm_num [value, elevenfold]
  rw [hexact, hresult, mul_le_mul_iff_left₀ (ten_zpow_pos _)] at hle
  norm_num at hle

end Rippled.IOUAmount
