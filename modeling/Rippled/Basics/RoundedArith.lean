import Rippled.Basics.Normalization
import Mathlib.Data.Nat.Log
import Mathlib.Tactic.FieldSimp

namespace Rippled.STAmount

open Lib Decimal

def tenTo14 : ℕ := 100000000000000
def tenTo14m1 : ℕ := 99999999999999
def tenTo17 : ℕ := 100000000000000000

def muldivRound (multiplier multiplicand divisor rounding : ℕ) : Except String ℕ :=
  let ret := (multiplier * multiplicand + rounding) / divisor
  if 2 ^ 64 - 1 < ret then
    .error ("overflow: ((" ++ toString multiplier ++ " * " ++ toString multiplicand ++ ") + " ++
      toString rounding ++ ") / " ++ toString divisor)
  else .ok ret

def intoRange : ℕ → ℕ → ℤ → ℕ × ℤ
  | 0, v, e => (v, e)
  | n + 1, v, e => if v < cMinValue then intoRange n (v * 10) (e - 1) else (v, e)

def operand (a : STAmount) : ℕ × ℤ :=
  if a.isNative then intoRange 15 a.value a.offset else (a.value, a.offset)

def uint64 (z : ℤ) : ℕ := (z % 2 ^ 64).toNat

def mulNative (v1 v2 : STAmount) : Except String STAmount :=
  let minV := uint64 (if v1.xrp < v2.xrp then v1.xrp else v2.xrp)
  let maxV := uint64 (if v1.xrp < v2.xrp then v2.xrp else v1.xrp)
  if 3000000000 < minV then .error "Native value overflow"
  else if 2095475792 < maxV / 2 ^ 32 * minV % 2 ^ 64 then .error "Native value overflow"
  else .ok
    { issue := xrpIssue
      value := minV * maxV % 2 ^ 64
      offset := 0
      isNative := true
      isNegative := false }

/-- The loop that cuts off digits while there are more than 17. -/
def shed : ℕ → ℕ → ℤ → ℕ × ℤ
  | 0, v, e => (v, e)
  | n + 1, v, e => if 10 * cMaxValue < v then shed n (v / 10) (e + 1) else (v, e)

def canonicalizeRound (native : Bool) (v : ℕ) (e : ℤ) : ℕ × ℤ :=
  if native then
    if e < 0 then
      let loops := (-1 - e).toNat
      let value := (cut loops v + if 2 ≤ loops then 9 else 10) % 2 ^ 64
      (value / 10, 0)
    else (v, e)
  else if cMaxValue < v then
    let s := shed (v.log2 + 1) v e
    ((s.1 + 9) / 10, s.2 + 1)
  else (v, e)

section

variable (switchover : Bool)

def finish (issue : Issue) (amount : ℕ) (offset : ℤ) (resultNegative roundUp : Bool) :
    Except String STAmount :=
  let rounded :=
    if resultNegative != roundUp then canonicalizeRound (isXRP issue) amount offset
    else (amount, offset)
  (make switchover issue rounded.1 rounded.2 resultNegative).bind fun result =>
    if roundUp && !resultNegative && result.value == 0 then
      if isXRP issue then make switchover issue 1 0 resultNegative
      else make switchover issue cMinValue cMinOffset resultNegative
    else .ok result

def mulRound (v1 v2 : STAmount) (issue : Issue) (roundUp : Bool) : Except String STAmount :=
  if v1.value = 0 ∨ v2.value = 0 then make switchover issue 0 0 false
  else if v1.isNative && v2.isNative && isXRP issue then mulNative v1 v2
  else
    let resultNegative := v1.isNegative != v2.isNegative
    let rounding := if resultNegative != roundUp then tenTo14m1 else 0
    (muldivRound v1.operand.1 v2.operand.1 tenTo14 rounding).bind fun amount =>
      finish switchover issue amount (v1.operand.2 + v2.operand.2 + 14) resultNegative roundUp

def divRound (num den : STAmount) (issue : Issue) (roundUp : Bool) : Except String STAmount :=
  if den.value = 0 then .error "division by zero"
  else if num.value = 0 then make switchover issue 0 0 false
  else
    let resultNegative := num.isNegative != den.isNegative
    let rounding := if resultNegative != roundUp then den.operand.1 - 1 else 0
    (muldivRound num.operand.1 tenTo17 den.operand.1 rounding).bind fun amount =>
      finish switchover issue amount (num.operand.2 - den.operand.2 - 17) resultNegative roundUp

end

section

variable (switchover native negative : Bool) (v : ℕ) (e : ℤ)

/-- The seventeenth digit is zero and one after it is not. For drops it is the first digit after the
point, and there are more. -/
def Lost : Prop :=
  let k := if native then (-1 - e).toNat else Nat.log 10 v - 16
  (native → e < -2) ∧ v % 10 ^ k ≠ 0 ∧ v / 10 ^ k % 10 = 0

/-- The number is too small to be rounded to an amount. -/
def Vanishes : Prop :=
  if native then e < -2 ∧ v < 10 ^ (-1 - e).toNat else val v e < val 99999999999999991 (-98)

/-- The drops do not fit 64 bits and nobody notices. -/
def Wrapped : Prop :=
  native = true ∧ switchover = false ∧ 0 ≤ e ∧ 2 ^ 64 ≤ v * 10 ^ e.toNat

/-- The numbers whose size is not decreased when it should be increased. -/
def Sound : Prop :=
  ¬Wrapped switchover native v e ∧ (Vanishes native v e → negative = false) ∧
    (¬Vanishes native v e → ¬Lost native v e)

end

theorem shed_spec (n : ℕ) {v : ℕ} {e : ℤ} (hf : v < 2 ^ n) :
    ∃ k : ℕ, shed n v e = (v / 10 ^ k, e + k) ∧ v / 10 ^ k ≤ 10 * cMaxValue ∧
      ∀ j, k = j + 1 → 10 * cMaxValue < v / 10 ^ j := by
  induction n generalizing v e with
  | zero => exact ⟨0, by simp [shed], by simp at hf; omega, by simp⟩
  | succ n ih =>
    rw [pow_succ] at hf
    rw [shed]
    split
    · next hl =>
      obtain ⟨k, hs, hle, hge⟩ := @ih (v / 10) (e + 1) (by omega)
      have hpow : ∀ j, v / 10 / 10 ^ j = v / 10 ^ (j + 1) := by
        intro j
        rw [Nat.div_div_eq_div_mul, ← pow_succ']
      simp only [hpow] at hs hle hge
      refine ⟨k + 1, ?_, hle, ?_⟩
      · rw [hs, Nat.cast_succ, add_assoc, add_comm 1 (k : ℤ)]
      rintro _ ⟨⟩
      cases k with
      | zero => rwa [pow_zero, Nat.div_one]
      | succ k => exact hge k rfl
    · next hsm => exact ⟨0, by simp, by simpa using hsm, by simp⟩

section Shed

variable {v k : ℕ} {e : ℤ} (hle : v / 10 ^ k ≤ 10 * cMaxValue)
  (hge : ∀ j, k = j + 1 → 10 * cMaxValue < v / 10 ^ j)

include hle hge

theorem lost_issued_iff : Lost false v e ↔ v % 10 ^ k ≠ 0 ∧ v / 10 ^ k % 10 = 0 := by
  rw [Lost, and_iff_right (by simp)]
  change v % 10 ^ (Nat.log 10 v - 16) ≠ 0 ∧ v / 10 ^ (Nat.log 10 v - 16) % 10 = 0 ↔ _
  change _ ≤ 99999999999999990 at hle
  change ∀ j, k = j + 1 → 99999999999999990 < v / 10 ^ j at hge
  cases k with
  | zero =>
    have hlog : Nat.log 10 v < 17 := Nat.log_lt_of_lt_pow' (by norm_num) (by simp at hle; omega)
    rw [show Nat.log 10 v - 16 = 0 by omega]
  | succ j =>
    have hj := hge j rfl
    rw [pow_succ, ← Nat.div_div_eq_div_mul] at hle
    have hlog := Nat.log_div_base_pow 10 v j
    by_cases hq : v / 10 ^ j < 10 ^ 17
    · -- one digit too much is cut off, but neither that nor the one before is zero
      rw [Nat.log_eq_of_pow_le_of_lt_pow (m := 16) (by omega) hq] at hlog
      rw [show Nat.log 10 v - 16 = j by omega, pow_succ, ← Nat.div_div_eq_div_mul]
      exact iff_of_false (by omega) (by omega)
    · rw [Nat.log_eq_of_pow_le_of_lt_pow (m := 17) (by omega) (by omega)] at hlog
      rw [show Nat.log 10 v - 16 = j + 1 by omega]

theorem vanishes_issued_iff (hv : cMaxValue < v) : Vanishes false v e ↔ e + k < -97 := by
  rw [Vanishes, if_neg (by decide)]
  constructor
  · intro hlt
    by_contra! he
    refine absurd hlt (not_lt.mpr ?_)
    cases k with
    | zero =>
      rw [Nat.cast_zero, add_zero] at he
      refine le_trans ?_ (val_mono_exponent (by omega : (-98 : ℤ) + (1 : ℕ) ≤ e) v)
      rw [← val_mul_pow, val_le_val_iff]
      change 9999999999999999 < v at hv
      omega
    | succ j =>
      have hj : 99999999999999990 < v / 10 ^ j := hge j rfl
      refine le_trans (val_mono_exponent (by push_cast at he; omega : -98 ≤ e + j) _) ?_
      rw [← val_mul_pow, val_le_val_iff, ← Nat.le_div_iff_mul_le (by positivity)]
      exact hj
  · intro he
    refine lt_of_lt_of_le ?_ (val_mono_exponent (by omega : e + k ≤ -98) _)
    rw [← val_mul_pow, val_lt_val_iff, ← Nat.div_lt_iff_lt_mul (by positivity)]
    exact Nat.lt_succ_of_le hle

end Shed

theorem val_lt_min_iff {w : ℕ} {i : ℤ} (hmin : cMinValue ≤ w) (hmax : w ≤ cMaxValue) :
    val w i < val iouFormat.minMantissa iouFormat.minExponent ↔ i < -96 := by
  constructor
  · intro hlt
    by_contra! hi
    exact absurd hlt (not_lt.mpr ((val_mono_exponent hi _).trans ((val_le_val_iff i).mpr hmin)))
  · intro hi
    refine ((val_lt_val_iff i).mpr (Nat.lt_succ_of_le hmax)).trans_le ?_
    exact (val_mono_exponent (by omega : i ≤ -97) _).trans (val_mul_pow cMinValue 1 (-97)).le

theorem vanishes_small_iff {v : ℕ} {e : ℤ} (hv : v ≤ cMaxValue) :
    Vanishes false v e ↔ val v e < val iouFormat.minMantissa iouFormat.minExponent := by
  rw [Vanishes, if_neg (by decide)]
  change val v e < _ ↔ val v e < val 1000000000000000 (-98 + (2 : ℕ))
  change v ≤ 9999999999999999 at hv
  rw [← val_mul_pow]
  obtain he | he := le_or_gt e (-98)
  · have hle := val_mono_exponent he v
    exact iff_of_true (hle.trans_lt ((val_lt_val_iff _).mpr (by omega)))
      (hle.trans_lt ((val_lt_val_iff _).mpr (by omega)))
  · -- with one more digit both bounds exclude the same mantissas
    obtain ⟨n, rfl⟩ : ∃ n : ℕ, e = -98 + (n + 1 : ℕ) := ⟨(e + 97).toNat, by omega⟩
    rw [← val_mul_pow, val_lt_val_iff, val_lt_val_iff, pow_succ, ← mul_assoc]
    omega

/-- Rounding up the mantissa of an issued amount. -/
theorem canonicalizeRound_issued (v : ℕ) (e : ℤ) :
    ∃ k : ℕ, (canonicalizeRound false v e).2 = e + k ∧ (canonicalizeRound false v e).1 ≤ cMaxValue ∧
      (v ≤ (canonicalizeRound false v e).1 * 10 ^ k ↔ ¬Lost false v e) ∧
      v < ((canonicalizeRound false v e).1 + 1) * 10 ^ k ∧
      (k ≠ 0 → cMinValue ≤ (canonicalizeRound false v e).1) ∧
      (Vanishes false v e ↔ val (canonicalizeRound false v e).1 (e + k) <
        val iouFormat.minMantissa iouFormat.minExponent) := by
  rw [canonicalizeRound, if_neg (by decide)]
  split
  · next hlr =>
    obtain ⟨k, hs, hle, hge⟩ := shed_spec (e := e) (v.log2 + 1) Nat.lt_log2_self
    rw [hs]
    have hmax : (v / 10 ^ k + 9) / 10 ≤ cMaxValue := by
      change v / 10 ^ k ≤ 99999999999999990 at hle
      change _ ≤ 9999999999999999
      omega
    have hmin : cMinValue ≤ (v / 10 ^ k + 9) / 10 := by
      change 1000000000000000 ≤ _
      cases k with
      | zero =>
        change 9999999999999999 < v at hlr
        rw [pow_zero, Nat.div_one]
        omega
      | succ j =>
        have hj : 99999999999999990 < v / 10 ^ j := hge j rfl
        rw [pow_succ, ← Nat.div_div_eq_div_mul]
        omega
    refine ⟨k + 1, by push_cast; ring, hmax, ?_, lt_roundUp_succ v k le_rfl, fun _ => hmin, ?_⟩
    · rw [lost_issued_iff hle hge]
      exact le_roundUp_iff v k
    · rw [vanishes_issued_iff hle hge hlr, val_lt_min_iff hmin hmax]
      omega
  · next hsm =>
    have hv := not_lt.mp hsm
    refine ⟨0, by simp, hv, ?_, by simp, by simp, ?_⟩
    · rw [lost_issued_iff (k := 0) (by simp; omega) (by simp)]
      simp [Nat.mod_one]
    · rw [Nat.cast_zero, add_zero]
      exact vanishes_small_iff hv

/-- Rounding up the drops of a native amount. -/
theorem canonicalizeRound_native {v : ℕ} {e : ℤ} (he : e < 0) (hv : v + 10 < 2 ^ 64) :
    ∃ k : ℕ, e + k = 0 ∧ (canonicalizeRound true v e).2 = 0 ∧
      (v ≤ (canonicalizeRound true v e).1 * 10 ^ k ↔ ¬Lost true v e) ∧
      v < ((canonicalizeRound true v e).1 + 1) * 10 ^ k ∧
      (canonicalizeRound true v e).1 < 2 ^ 64 ∧
      (Vanishes true v e ↔ (canonicalizeRound true v e).1 = 0) := by
  obtain ⟨k, hk⟩ : ∃ k : ℕ, (-1 - e).toNat = k := ⟨_, rfl⟩
  rw [canonicalizeRound, if_pos rfl, if_pos he, Lost, Vanishes]
  dsimp only
  rw [if_pos rfl, if_pos rfl, hk, cut_eq]
  have hcut := Nat.div_le_self v (10 ^ k)
  refine ⟨k + 1, by push_cast; omega, rfl, ?_, ?_, ?_, ?_⟩
  · by_cases hfew : 2 ≤ k
    · rw [if_pos hfew, Nat.mod_eq_of_lt (by omega), and_iff_right (fun _ => by omega)]
      exact le_roundUp_iff v k
    -- adding ten before the last division always goes beyond the number
    rw [if_neg hfew, Nat.mod_eq_of_lt (by omega)]
    refine iff_of_true ?_ (fun h => absurd (h.1 rfl) (by omega))
    rw [show (v / 10 ^ k + 10) / 10 = v / 10 ^ k / 10 + 1 by omega, Nat.div_div_eq_div_mul,
      ← pow_succ, mul_comm]
    exact (Nat.lt_mul_div_succ v (by positivity)).le
  · split
    · rw [Nat.mod_eq_of_lt (by omega)]
      exact lt_roundUp_succ v k le_rfl
    · rw [Nat.mod_eq_of_lt (by omega)]
      exact lt_roundUp_succ v k (by omega)
  · have := Nat.mod_lt (v / 10 ^ k + if 2 ≤ k then 9 else 10) (by norm_num : 0 < 2 ^ 64)
    omega
  · have hz : v < 10 ^ k ↔ v / 10 ^ k = 0 := by simp [Nat.div_eq_zero_iff]
    rw [hz]
    generalize v / 10 ^ k = q at *
    split <;> omega

variable {switchover negative roundUp : Bool} {issue : Issue} {v : ℕ} {e : ℤ} {x : ℚ}
  {t r : STAmount}

/-- The mantissa is the number rounded up to an integer, at this exponent. -/
def IsCeil (x : ℚ) (v : ℕ) (e : ℤ) : Prop := ∀ n : ℕ, x ≤ val n e ↔ v ≤ n

theorem IsCeil.le (h : IsCeil x v e) : x ≤ val v e := (h v).mpr le_rfl

theorem IsCeil.pos (h : IsCeil x v e) (hv : v ≠ 0) : 0 < x := by
  by_contra! hx
  rw [← val_zero e] at hx
  exact hv (Nat.le_zero.mp ((h 0).mp hx))

section Finish

variable (h : finish switchover issue v e negative roundUp = .ok r)

include h

/-- What a call that returns has done. -/
theorem finish_cases :
    ∃ t, make switchover issue
        (if negative != roundUp then canonicalizeRound (isXRP issue) v e else (v, e)).1
        (if negative != roundUp then canonicalizeRound (isXRP issue) v e else (v, e)).2
        negative = .ok t ∧
      if roundUp = true ∧ negative = false ∧ t.value = 0 then
        make switchover issue (if isXRP issue then 1 else cMinValue)
          (if isXRP issue then 0 else cMinOffset) negative = .ok r
      else r = t := by
  rw [finish] at h
  generalize (if negative != roundUp then canonicalizeRound (isXRP issue) v e else (v, e)) = p at *
  cases hm : make switchover issue p.1 p.2 negative with
  | error err => simp [hm, Except.bind] at h
  | ok t =>
    refine ⟨t, rfl, ?_⟩
    rw [hm, Except.bind] at h
    split at h
    · next hs =>
      rw [if_pos (by simpa [and_assoc] using hs)]
      cases hxrp : isXRP issue <;> simpa [hxrp] using h
    · next hs =>
      rw [if_neg (by simpa [and_assoc] using hs)]
      simpa [eq_comm] using h

theorem finish_toward (ha : negative = roundUp) (hx : val v e ≤ x) (hb : v < 2 ^ 64) :
    r.magnitude ≤ x := by
  obtain ⟨t, hm, hc⟩ := finish_cases h
  subst ha
  rw [if_neg (by simp)] at hm
  rw [if_neg (fun hall => by simp [hall.1] at hall)] at hc
  subst hc
  refine le_trans ?_ hx
  cases hxrp : isXRP issue with
  | false => exact (make_issued hxrp hm).val_le (val_nonneg _ _)
  | true =>
    obtain ⟨ho, hv, -⟩ := make_native hxrp hb hm
    rw [magnitude, ho, hv, drops]
    by_cases he : e < 0
    · obtain ⟨k, hk⟩ := Int.le.dest he.le
      rw [if_pos he, show (-e).toNat = k by omega, ← hk]
      exact (val_div_pow v k e).1
    obtain ⟨n, rfl⟩ := Int.eq_ofNat_of_zero_le (not_lt.mp he)
    have hle : (if switchover then v * 10 ^ n else v * 10 ^ n % 2 ^ 64) ≤ v * 10 ^ n := by
      split
      · exact le_rfl
      · exact Nat.mod_le _ _
    rw [if_neg he, Int.toNat_natCast, show (n : ℤ) = 0 + n by omega, ← val_mul_pow]
    exact (val_le_val_iff 0).mpr hle

theorem finish_sign (hne : r.value ≠ 0) : r.isNegative = negative := by
  obtain ⟨t, hm, hc⟩ := finish_cases h
  split at hc
  · exact make_sign hc hne
  · subst hc
    exact make_sign hm hne

variable (ha : negative ≠ roundUp) (hcl : IsCeil x v e)

include ha hcl

theorem finish_away_issued (hxrp : isXRP issue = false) (hv : v ≠ 0) :
    x ≤ r.magnitude ↔ Sound switchover false negative v e := by
  obtain ⟨t, hm, hc⟩ := finish_cases h
  obtain ⟨k, hexp, hle, hl, hlt, hmin, hvan⟩ := canonicalizeRound_issued v e
  rw [if_pos (by simpa using ha), hxrp] at hm
  simp only [hxrp, Bool.false_eq_true, if_false] at hc
  rw [Sound, and_iff_right (fun hw => absurd hw.1 (by decide)), hvan]
  generalize canonicalizeRound false v e = p at *
  obtain ⟨w, i⟩ := p
  subst hexp
  have ht := make_issued hxrp hm
  by_cases hvn : val w (e + k) < val iouFormat.minMantissa iouFormat.minExponent
  · have hz : t.value = 0 := by
      by_contra hne
      have hpos := val_pos (Nat.pos_of_ne_zero hne) t.offset
      exact absurd (ht.val_le (val_nonneg _ _))
        (hvn.trans_le (iouFormat.val_min_le ht.normal hpos)).not_ge
    rw [and_iff_left (fun hnot => absurd hvn hnot), imp_iff_right hvn]
    cases negative with
    | false =>
      rw [if_pos ⟨by simpa using ha, rfl, hz⟩] at hc
      refine iff_of_true ?_ rfl
      have hs : r.magnitude = val iouFormat.minMantissa iouFormat.minExponent :=
        (make_issued hxrp hc).exact (iouFormat.representable_min (by decide))
      rw [hs]
      refine hcl.le.trans ?_
      obtain rfl | hk := Nat.eq_zero_or_pos k
      · simp only [pow_zero, mul_one, Nat.cast_zero, add_zero] at hlt hvn
        exact ((val_le_val_iff e).mpr (by omega)).trans hvn.le
      · refine le_trans ?_ (val_succ_le_of_lt (hmin hk.ne') hvn)
        rw [← val_mul_pow]
        exact (val_le_val_iff e).mpr hlt.le
    | true =>
      rw [if_neg (by simp)] at hc
      refine iff_of_false ?_ (by decide)
      rw [hc, magnitude, hz, val_zero]
      exact (hcl.pos hv).not_ge
  · have hne : t.value ≠ 0 := by
      intro hz
      obtain ⟨-, -, hlow⟩ | ⟨hreg, -⟩ := ht
      · exact hvn hlow
      · exact hreg.pos.ne' hz
    rw [if_neg (fun hall => hne hall.2.2)] at hc
    rw [and_iff_right (fun hyes => absurd hyes hvn), imp_iff_right hvn, ← hl, ← hcl,
      val_mul_pow, hc, magnitude, ht.exact_of_le hle hne]

theorem finish_away_native_neg (hxrp : isXRP issue) (hv : v ≠ 0) (he : e < 0)
    (hb : v + 10 < 2 ^ 64) : x ≤ r.magnitude ↔ Sound switchover true negative v e := by
  obtain ⟨t, hm, hc⟩ := finish_cases h
  obtain ⟨k, hexp, hnn, hl, hlt, hr, hvan⟩ := canonicalizeRound_native he hb
  rw [if_pos (by simpa using ha), hxrp] at hm
  simp only [hxrp, if_true] at hc
  rw [Sound, and_iff_right (fun hw => absurd hw.2.2.1 (by omega)), hvan]
  generalize canonicalizeRound true v e = p at *
  obtain ⟨w, i⟩ := p
  subst hnn
  have hd : ∀ n : ℕ, n < 2 ^ 64 → drops switchover n 0 = n := by
    intro n hn
    rw [drops, if_neg (by decide), Int.toNat_zero, pow_zero, mul_one, Nat.mod_eq_of_lt hn, ite_self]
  obtain ⟨ho, hvl, -⟩ := make_native hxrp hr hm
  rw [hd w hr] at hvl
  by_cases hz : w = 0
  · rw [and_iff_left (fun hnot => absurd hz hnot), imp_iff_right hz]
    cases negative with
    | false =>
      rw [if_pos ⟨by simpa using ha, rfl, hvl.trans hz⟩] at hc
      refine iff_of_true ?_ rfl
      obtain ⟨hone, hdr, -⟩ := make_native hxrp (by norm_num) hc
      rw [hd 1 (by norm_num)] at hdr
      rw [magnitude, hone, hdr, ← hexp, ← val_mul_pow, hcl]
      rw [hz, zero_add] at hlt
      exact hlt.le
    | true =>
      rw [if_neg (by simp)] at hc
      refine iff_of_false ?_ (by decide)
      rw [hc, magnitude, hvl, hz, val_zero]
      exact (hcl.pos hv).not_ge
  · rw [if_neg (fun hall => hz (hvl.symm.trans hall.2.2))] at hc
    rw [and_iff_right (fun hyes => absurd hyes hz), imp_iff_right hz, ← hl, ← hcl,
      val_mul_pow, hc, magnitude, ho, hvl, hexp]

theorem finish_away_native_nonneg (hxrp : isXRP issue) (hv : 2 ≤ v) (he : 0 ≤ e)
    (hb : v < 2 ^ 64) : x ≤ r.magnitude ↔ Sound switchover true negative v e := by
  obtain ⟨t, hm, hc⟩ := finish_cases h
  have hrn : canonicalizeRound true v e = (v, e) := by
    rw [canonicalizeRound, if_pos rfl, if_neg (by omega)]
  rw [if_pos (by simpa using ha), hxrp, hrn] at hm
  simp only [hxrp, if_true] at hc
  have hls : ¬Lost true v e := fun hl => absurd (hl.1 rfl) (by omega)
  have hs : Sound switchover true negative v e ↔ ¬Wrapped switchover true v e := by
    rw [Sound, Vanishes, if_pos rfl]
    exact and_iff_left ⟨fun hyes => absurd hyes.1 (by omega), fun _ => hls⟩
  obtain ⟨n, rfl⟩ := Int.eq_ofNat_of_zero_le he
  obtain ⟨hof, hvl, -⟩ := make_native hxrp hb hm
  rw [drops, if_neg (by omega), Int.toNat_natCast] at hvl
  rw [hs]
  have hpow : 0 < 10 ^ n := by positivity
  by_cases hw : Wrapped switchover true v n
  · refine iff_of_false ?_ (not_not.mpr hw)
    have hlr := hw.2.2.2
    rw [Int.toNat_natCast] at hlr
    have hr : r.offset = 0 ∧ r.value ≤ cMaxNativeN := by
      split at hc
      · obtain ⟨ho, -, hle⟩ := make_native hxrp (by norm_num) hc
        exact ⟨ho, hle⟩
      · subst hc
        obtain ⟨ho, -, hle⟩ := make_native hxrp hb hm
        exact ⟨ho, hle⟩
    -- the amount before the last unit is still larger than any amount of drops
    have hbl : r.value ≤ (v - 1) * 10 ^ n := by
      have hr := hr.2
      have hd : v * 10 ^ n ≤ 2 * ((v - 1) * 10 ^ n) := by
        rw [← mul_assoc]
        exact Nat.mul_le_mul_right _ (by omega)
      change r.value ≤ 100000000000000000 at hr
      omega
    intro hle
    have hle' : x ≤ val (v - 1) n := by
      refine hle.trans ?_
      rw [magnitude, hr.1, show (n : ℤ) = 0 + n by omega, ← val_mul_pow]
      exact (val_le_val_iff 0).mpr hbl
    have := (hcl (v - 1)).mp hle'
    omega
  · refine iff_of_true ?_ hw
    have hec : t.value = v * 10 ^ n := by
      rw [hvl]
      cases switchover with
      | true => simp
      | false =>
        rw [if_neg (by decide)]
        apply Nat.mod_eq_of_lt
        by_contra! hov
        exact hw ⟨rfl, rfl, he, by rwa [Int.toNat_natCast]⟩
    have hne : t.value ≠ 0 := by
      rw [hec]
      exact (Nat.mul_pos (by omega) hpow).ne'
    rw [if_neg (fun hall => hne hall.2.2)] at hc
    rw [hc, magnitude, hof, hec, val_mul_pow, zero_add]
    exact hcl.le

theorem finish_away (hv : 2 ≤ v) (hb : v < 2 ^ 64) (hn : isXRP issue → v + 10 < 2 ^ 64) :
    x ≤ r.magnitude ↔ Sound switchover (isXRP issue) negative v e := by
  cases hxrp : isXRP issue with
  | false => exact finish_away_issued h ha hcl hxrp (by omega)
  | true =>
    obtain he | he := lt_or_ge e 0
    · exact finish_away_native_neg h ha hcl hxrp (by omega) he (hn hxrp)
    · exact finish_away_native_nonneg h ha hcl hxrp hv he hb

end Finish

def Directed (roundUp : Bool) (x : ℚ) (r : STAmount) : Prop :=
  if roundUp then x ≤ r.toRat else r.toRat ≤ x

theorem directed_iff (hs : r.value ≠ 0 → r.isNegative = negative) :
    Directed roundUp (if negative then -x else x) r ↔
      if negative = roundUp then r.magnitude ≤ x else x ≤ r.magnitude := by
  rw [Directed, toRat_of_sign hs]
  cases negative <;> cases roundUp <;> simp

/-- The mantissa with zeros appended up to sixteen digits. -/
def widened (a : STAmount) : ℕ × ℤ :=
  let k := 15 - Nat.log 10 a.value
  (a.value * 10 ^ k, a.offset - k)

theorem intoRange_eq (n : ℕ) (hv : v ≠ 0) (hn : 15 ≤ Nat.log 10 v + n) :
    intoRange n v e = (v * 10 ^ (15 - Nat.log 10 v), e - (15 - Nat.log 10 v : ℕ)) := by
  induction n generalizing v e with
  | zero => simp [intoRange, show 15 - Nat.log 10 v = 0 by omega]
  | succ n ih =>
    rw [intoRange]
    split
    · next hs =>
      have hlog : Nat.log 10 v < 15 := Nat.log_lt_of_lt_pow hv hs
      have hmul : Nat.log 10 (v * 10) = Nat.log 10 v + 1 := Nat.log_mul_base (by norm_num) hv
      obtain ⟨k, hk⟩ : ∃ k, 15 - Nat.log 10 v = k + 1 := ⟨14 - Nat.log 10 v, by omega⟩
      rw [ih (by omega) (by omega), hmul, hk, show 15 - (Nat.log 10 v + 1) = k by omega, mul_assoc,
        ← pow_succ', Nat.cast_succ, sub_sub, add_comm 1 (k : ℤ)]
    · next hl =>
      have hlog : 15 ≤ Nat.log 10 v := Nat.le_log_of_pow_le (by norm_num) (not_lt.mp hl)
      simp [show 15 - Nat.log 10 v = 0 by omega]

section

variable {a : STAmount} (ha : a.Canonical) (hne : a.value ≠ 0)

include ha hne

theorem value_issued (hn : a.isNative = false) : 10 ^ 15 ≤ a.value ∧ a.value < 10 ^ 16 := by
  obtain ⟨hz, -⟩ | hreg := ha.issued hn
  · exact absurd hz hne
  · exact ⟨hreg.minMantissa_le, Nat.lt_succ_of_le hreg.le_maxMantissa⟩

theorem operand_eq : a.operand = a.widened := by
  rw [operand, widened]
  cases hn : a.isNative with
  | false =>
    obtain ⟨hmin, hmax⟩ := value_issued ha hne hn
    rw [Nat.log_eq_of_pow_le_of_lt_pow hmin hmax]
    simp
  | true => exact intoRange_eq 15 hne (Nat.le_add_left _ _)

theorem operand_spec :
    val a.operand.1 a.operand.2 = a.magnitude ∧ 10 ^ 15 ≤ a.operand.1 ∧
      a.operand.1 ≤ 10 ^ 17 ∧ (a.isNative = false → a.operand.1 < 10 ^ 16) := by
  rw [operand_eq ha hne, widened]
  have hle : a.value ≤ 10 ^ 17 := by
    cases hn : a.isNative with
    | false => exact (value_issued ha hne hn).2.le.trans (by norm_num)
    | true => exact (ha.native hn).2
  refine ⟨?_, ?_⟩
  · rw [val_mul_pow, sub_add_cancel, magnitude]
  obtain hl | hl := le_or_gt (Nat.log 10 a.value) 15
  · have hpow : 10 ^ Nat.log 10 a.value * 10 ^ (15 - Nat.log 10 a.value) = 10 ^ 15 := by
      rw [← pow_add, Nat.add_sub_cancel' hl]
    have hlow := Nat.mul_le_mul_right (10 ^ (15 - Nat.log 10 a.value)) (Nat.pow_log_le_self 10 hne)
    have hlt := Nat.mul_lt_mul_of_pos_right (Nat.lt_pow_succ_log_self (by norm_num : 1 < 10) a.value)
      (by positivity : 0 < 10 ^ (15 - Nat.log 10 a.value))
    rw [pow_succ, mul_right_comm] at hlt
    rw [hpow] at hlow hlt
    exact ⟨hlow, by omega, fun _ => by omega⟩
  · have hbig : 10 ^ 16 ≤ a.value := Nat.pow_le_of_le_log hne hl
    rw [show 15 - Nat.log 10 a.value = 0 by omega, pow_zero, mul_one]
    refine ⟨by omega, hle, fun hn => ?_⟩
    exact (value_issued ha hne hn).2

end

theorem muldivRound_eq {a b d c n : ℕ} (h : muldivRound a b d c = .ok n) :
    n = (a * b + c) / d ∧ n < 2 ^ 64 := by
  rw [muldivRound] at h
  split at h
  · cases h
  · next hr =>
    cases h
    exact ⟨rfl, by omega⟩

def ratioAt (p d : ℕ) (e : ℤ) : ℚ := p / d * (10 : ℚ) ^ e

theorem ceilDiv_le {p d n : ℕ} (hd : 0 < d) : (p + (d - 1)) / d ≤ n ↔ p ≤ n * d := by
  rw [← Nat.lt_succ_iff, Nat.div_lt_iff_lt_mul hd, Nat.succ_mul]
  omega

theorem isCeil_ratioAt {p d : ℕ} (hd : 0 < d) (e : ℤ) :
    IsCeil (ratioAt p d e) ((p + (d - 1)) / d) e := by
  intro n
  have hd' : (0 : ℚ) < d := Nat.cast_pos.mpr hd
  rw [ceilDiv_le hd, ratioAt, val, mul_le_mul_iff_left₀ (ten_zpow_pos e), div_le_iff₀ hd', ← Nat.cast_mul,
    Nat.cast_le]

theorem floor_ratioAt {p d : ℕ} (hd : 0 < d) (e : ℤ) : val (p / d) e ≤ ratioAt p d e := by
  have hd' : (0 : ℚ) < d := Nat.cast_pos.mpr hd
  rw [ratioAt, val, mul_le_mul_iff_left₀ (ten_zpow_pos e), le_div_iff₀ hd', ← Nat.cast_mul,
    Nat.cast_le]
  exact Nat.div_mul_le_self p d

theorem ratioAt_lt {p d : ℕ} (hd : 0 < d) (e : ℤ) : ratioAt p d e < val (p / d + 1) e := by
  have hd' : (0 : ℚ) < d := Nat.cast_pos.mpr hd
  rw [ratioAt, val, mul_lt_mul_iff_left₀ (ten_zpow_pos e), div_lt_iff₀ hd', ← Nat.cast_mul,
    Nat.cast_lt, mul_comm]
  exact Nat.lt_mul_div_succ p hd

/-- Rounding a ratio to an amount goes in the requested direction where this is toward zero,
and otherwise exactly for the sound amounts. -/
theorem finish_directed {p d a b : ℕ} (hd : 0 < d) (hp : p = a * b) (hlow : 2 * d ≤ p)
    (hh : isXRP issue → p ≤ 10 ^ 19 * d)
    (hn : muldivRound a b d (if negative != roundUp then d - 1 else 0) = .ok v)
    (h : finish switchover issue v e negative roundUp = .ok r) :
    Directed roundUp (if negative then -ratioAt p d e else ratioAt p d e) r ↔
      negative = roundUp ∨ Sound switchover (isXRP issue) negative ((p + (d - 1)) / d) e := by
  obtain ⟨hv, hb⟩ := muldivRound_eq hn
  rw [← hp] at hv
  rw [directed_iff (finish_sign h)]
  by_cases ha : negative = roundUp
  · rw [if_pos ha, or_iff_left_of_imp (fun _ => ha), iff_true_right ha]
    rw [if_neg (by simpa using ha), add_zero] at hv
    subst hv
    exact finish_toward h ha (floor_ratioAt hd e) hb
  rw [if_neg ha, or_iff_right ha]
  rw [if_pos (by simpa using ha)] at hv
  subst hv
  refine finish_away h ha (isCeil_ratioAt hd e) ?_ hb ?_
  · rw [Nat.le_div_iff_mul_le hd]
    omega
  intro hxrp
  have hle := (ceilDiv_le hd).mpr (hh hxrp)
  omega

end Rippled.STAmount
