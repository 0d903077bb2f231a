import Rippled.Basics.Normalization

namespace Rippled

open Lib Decimal

variable {a : IOUAmount} {e s : ℤ} {x : IOUAmount}

/-- The division loop that raises an exponent, on signed mantissas. -/
def cutInt : ℕ → ℤ → ℤ
  | 0, v => v
  | n + 1, v => cutInt n (v.tdiv 10)

def alignedSum (m1 e1 m2 e2 : ℤ) : ℤ × ℤ :=
  let m1' := cutInt (e2 - e1).toNat m1
  let e1' := max e1 e2
  let m2' := cutInt (e1' - e2).toNat m2
  (m1' + m2', e1')

namespace IOUAmount

def add (a b : IOUAmount) : Except String IOUAmount :=
  if b.mantissa = 0 then .ok a
  else if a.mantissa = 0 then .ok b
  else
    let s := alignedSum a.mantissa a.exponent b.mantissa b.exponent
    if -10 ≤ s.1 ∧ s.1 ≤ 10 then .ok zero else normalize s.1 s.2

end IOUAmount

variable {issue : Issue}

namespace STAmount

def areComparable (v1 v2 : STAmount) : Bool :=
  v1.isNative == v2.isNative && v1.issue.currency == v2.issue.currency

def add (switchover : Bool) (v1 v2 : STAmount) : Except String STAmount :=
  if !areComparable v1 v2 then .error "Can't add amounts that are't comparable!"
  else if v2.value = 0 then .ok v1
  else if v1.value = 0 then make switchover v1.issue v2.value v2.offset v2.isNegative
  else if v1.isNative then
    let drops := v1.xrp + v2.xrp
    .ok
      { issue := xrpIssue
        value := drops.natAbs
        offset := 0
        isNative := true
        isNegative := decide (drops < 0) }
  else
    let s := alignedSum (IOUAmount.withSign v1.isNegative v1.value) v1.offset
      (IOUAmount.withSign v2.isNegative v2.value) v2.offset
    if -10 ≤ s.1 ∧ s.1 ≤ 10 then make switchover v1.issue 0 0 false
    else if 0 ≤ s.1 then make switchover v1.issue s.1.toNat s.2 false
    else make switchover v1.issue (-s.1).toNat s.2 true

def neg (a : STAmount) : STAmount :=
  if a.value = 0 then a else { a with isNegative := !a.isNegative }

theorem exists_withIOU {a : STAmount} (ha : a.Canonical) (hi : a.isNative = false) :
    ∃ b : IOUAmount, a = withIOU a.issue b := by
  refine ⟨⟨IOUAmount.withSign a.isNegative a.value, a.offset, ?_⟩, ?_⟩
  · rw [IOUAmount.natAbs_withSign]
    exact ha.issued hi
  have hs : (a.value != 0 && a.isNegative) = a.isNegative := by
    by_cases hz : a.value = 0
    · rw [ha.zero hz, Bool.and_false]
    · rw [bne_iff_ne.mpr hz, Bool.true_and]
  simp only [withIOU, IOUAmount.natAbs_withSign, IOUAmount.withSign_neg_iff, hs, ← hi]

variable {switchover : Bool}

theorem withSign_withIOU (a : IOUAmount) :
    IOUAmount.withSign (withIOU issue a).isNegative (withIOU issue a).value = a.mantissa :=
  IOUAmount.withSign_natAbs a.mantissa

theorem make_sign_split : (if 0 ≤ s then make switchover issue s.toNat e false
      else make switchover issue (-s).toNat e true) =
      make switchover issue s.natAbs e (s < 0) := by
  split_ifs with h
  · rw [decide_eq_false (by omega), show s.toNat = s.natAbs by omega]
  · rw [decide_eq_true (by omega), show (-s).toNat = s.natAbs by omega]

variable (hi : isXRP issue = false)

include hi

theorem make_of_normalize_error {m : ℤ} {t : String} (h : IOUAmount.normalize m e = .error t) :
    make switchover issue m.natAbs e (m < 0) = .error "value overflow" := by
  obtain ⟨o, ho⟩ := (IOUAmount.normalize_isError_iff m e).mp ⟨t, h⟩
  rw [make, canonicalize, if_neg (by simp [hi]), canonicalizeIssued]
  simp only [ho]

theorem make_alignedSum (s e : ℤ) : (if -10 ≤ s ∧ s ≤ 10 then make switchover issue 0 0 false
      else if 0 ≤ s then make switchover issue s.toNat e false
      else make switchover issue (-s).toNat e true) =
      ((if -10 ≤ s ∧ s ≤ 10 then .ok IOUAmount.zero
        else IOUAmount.normalize s e).mapError fun _ => "value overflow").map (withIOU issue) := by
  split
  · exact make_of_normalize hi (m := 0) (e := 0) rfl
  rw [make_sign_split]
  cases hn : IOUAmount.normalize s e with
  | error t => exact make_of_normalize_error hi hn
  | ok r => exact make_of_normalize hi hn

theorem add_withIOU (a b : IOUAmount) : add switchover (withIOU issue a) (withIOU issue b) =
      ((a.add b).mapError fun _ => "value overflow").map (withIOU issue) := by
  have hc : areComparable (withIOU issue a) (withIOU issue b) := by
    simp [areComparable, withIOU]
  have hv : ∀ c : IOUAmount, (withIOU issue c).value = 0 ↔ c.mantissa = 0 := by
    intro c
    exact Int.natAbs_eq_zero
  rw [add, IOUAmount.add, if_neg (by simp [hc])]
  simp only [hv, withSign_withIOU]
  by_cases hb : b.mantissa = 0
  · rw [if_pos hb, if_pos hb]
    rfl
  rw [if_neg hb, if_neg hb]
  by_cases ha : a.mantissa = 0
  · rw [if_pos ha, if_pos ha]
    exact make_of_normalize hi b.normalize_self
  · rw [if_neg ha, if_neg ha, if_neg (by simp [withIOU])]
    exact make_alignedSum hi _ _

end STAmount

theorem cutInt_withSign (n : ℕ) (negative : Bool) (m : ℕ) :
    cutInt n (IOUAmount.withSign negative m) = IOUAmount.withSign negative (m / 10 ^ n) := by
  induction n generalizing m with
  | zero => simp [cutInt]
  | succ n ih =>
    have hs : (IOUAmount.withSign negative m).tdiv 10 = IOUAmount.withSign negative (m / 10) := by
      cases negative with
      | false => rfl
      | true =>
        rw [IOUAmount.withSign_true, IOUAmount.withSign_true, Int.neg_tdiv]
        rfl
    rw [cutInt, hs, ih, Nat.div_div_eq_div_mul, pow_succ']

theorem alignedSum_eq (m1 e1 m2 e2 : ℤ) : alignedSum m1 e1 m2 e2 =
      (cutInt (max e1 e2 - e1).toNat m1 + cutInt (max e1 e2 - e2).toNat m2, max e1 e2) := by
  rw [alignedSum, show (e2 - e1).toNat = (max e1 e2 - e1).toNat by omega]

theorem alignedSum_comm (m1 e1 m2 e2 : ℤ) : alignedSum m1 e1 m2 e2 = alignedSum m2 e2 m1 e1 := by
  rw [alignedSum_eq, alignedSum_eq, max_comm e2 e1, add_comm]

namespace IOUAmount

theorem exponent_of_zero (h : a.mantissa = 0) : a = zero := by
  refine ext_digits h ?_
  obtain ⟨-, he⟩ | hreg := a.normal
  · exact he
  · exact absurd (Int.natAbs_eq_zero.mpr h) hreg.pos.ne'

theorem regular_of_ne (h : a.mantissa ≠ 0) : iouFormat.Regular a.mantissa.natAbs a.exponent :=
  a.normal.resolve_left (fun hz => h (Int.natAbs_eq_zero.mp hz.1))

theorem le_mantissa (h : 0 < a.mantissa) : 10 ^ 15 ≤ a.mantissa := by
  have hreg : 1000000000000000 ≤ a.mantissa.natAbs := (regular_of_ne h.ne').minMantissa_le
  omega

theorem value_zero : zero.value = 0 := by simp [value, zero]

theorem val_natAbs (h : 0 ≤ s) (e : ℤ) : val s.natAbs e = s * (10 : ℚ) ^ e := by
  rw [val, ← Int.cast_natCast, Int.natAbs_of_nonneg h]

theorem add_symm (a b : IOUAmount) : a.add b = b.add a := by
  rw [add, add]
  by_cases ha : a.mantissa = 0
  · by_cases hb : b.mantissa = 0
    · rw [if_pos hb, if_pos ha, exponent_of_zero ha, exponent_of_zero hb]
    · rw [if_neg hb, if_pos ha, if_pos ha]
  · by_cases hb : b.mantissa = 0
    · rw [if_pos hb, if_neg ha, if_pos hb]
    · rw [if_neg hb, if_neg ha, if_neg ha, if_neg hb, alignedSum_comm]

theorem add_zero_right (a : IOUAmount) : a.add zero = .ok a := by
  rw [add]
  exact if_pos rfl

theorem add_neg_self (a : IOUAmount) : a.add a.neg = .ok zero := by
  rw [add]
  by_cases ha : a.mantissa = 0
  · rw [if_pos (by simp [neg, ha]), exponent_of_zero ha]
  have hsum : (alignedSum a.mantissa a.exponent a.neg.mantissa a.neg.exponent).1 = 0 := by
    simp [alignedSum_eq, neg, cutInt]
  rw [if_neg (by simp [neg, ha]), if_neg ha]
  simp [hsum]

theorem cutInt_neg (n : ℕ) (v : ℤ) : cutInt n (-v) = -cutInt n v := by
  induction n generalizing v with
  | zero => rfl
  | succ n ih => rw [cutInt, cutInt, Int.neg_tdiv, ih]

theorem aligned_nonneg (he : x.exponent ≤ e) (hx : 0 ≤ x.mantissa) :
    0 ≤ cutInt (e - x.exponent).toNat x.mantissa ∧
      (cutInt (e - x.exponent).toNat x.mantissa : ℚ) * (10 : ℚ) ^ e ≤ x.value ∧
      x.value < cutInt (e - x.exponent).toNat x.mantissa * (10 : ℚ) ^ e + (10 : ℚ) ^ e := by
  obtain ⟨k, rfl⟩ := Int.le.dest he
  have hcut : cutInt (x.exponent + k - x.exponent).toNat x.mantissa =
      ((x.mantissa.natAbs / 10 ^ k : ℕ) : ℤ) := by
    have h := cutInt_withSign k false x.mantissa.natAbs
    rw [withSign_false, withSign_false, Int.natAbs_of_nonneg hx] at h
    rw [show (x.exponent + k - x.exponent).toNat = k by omega, h]
  obtain ⟨hle, hlt⟩ := val_div_pow x.mantissa.natAbs k x.exponent
  rw [hcut, value_of_nonneg hx, magnitude]
  refine ⟨Int.natCast_nonneg _, ?_, ?_⟩
  · rw [Int.cast_natCast]
    exact hle
  · rw [val_succ] at hlt
    rw [Int.cast_natCast]
    exact hlt

theorem aligned_nonpos (he : x.exponent ≤ e) (hx : x.mantissa ≤ 0) :
    cutInt (e - x.exponent).toNat x.mantissa ≤ 0 ∧
      x.value ≤ (cutInt (e - x.exponent).toNat x.mantissa : ℚ) * (10 : ℚ) ^ e ∧
      cutInt (e - x.exponent).toNat x.mantissa * (10 : ℚ) ^ e - (10 : ℚ) ^ e < x.value := by
  obtain ⟨hs, hle, hlt⟩ := aligned_nonneg (x := x.neg) he (Int.neg_nonneg_of_nonpos hx)
  change 0 ≤ cutInt (e - x.exponent).toNat (-x.mantissa) at hs
  change ((cutInt (e - x.exponent).toNat (-x.mantissa) : ℤ) : ℚ) * _ ≤ _ at hle
  change _ < ((cutInt (e - x.exponent).toNat (-x.mantissa) : ℤ) : ℚ) * _ + _ at hlt
  rw [cutInt_neg] at hs hle hlt
  rw [value_neg] at hle hlt
  push_cast at hle hlt
  exact ⟨by omega, by linarith, by linarith⟩

section Error

variable {b r : IOUAmount}

theorem abs_sub_alignedSum_lt (hba : b.exponent ≤ a.exponent) :
    |a.value + b.value - ((a.mantissa + cutInt (a.exponent - b.exponent).toNat b.mantissa : ℤ) : ℚ) *
      (10 : ℚ) ^ a.exponent| < (10 : ℚ) ^ a.exponent := by
  have hu := ten_zpow_pos a.exponent
  rw [abs_lt, value]
  push_cast
  obtain hb | hb := le_total 0 b.mantissa
  · obtain ⟨-, hle, hlt⟩ := aligned_nonneg hba hb
    constructor <;> linarith
  · obtain ⟨-, hle, hlt⟩ := aligned_nonpos hba hb
    constructor <;> linarith

theorem abs_value_lt_of_exponent_lt (hba : b.exponent < a.exponent) :
    |b.value| < 10 ^ 15 * (10 : ℚ) ^ a.exponent := by
  have hmax : b.mantissa.natAbs ≤ iouFormat.maxMantissa := by
    obtain ⟨hz, -⟩ | hreg := b.normal
    · rw [hz]
      exact Nat.zero_le _
    · exact hreg.le_maxMantissa
  have hu : val iouFormat.minMantissa a.exponent = 10 ^ 15 * (10 : ℚ) ^ a.exponent := by
    norm_num [val, iouFormat]
  rw [abs_value, ← hu]
  calc b.magnitude < val (iouFormat.maxMantissa + 1) b.exponent :=
        (val_lt_val_iff _).mpr (Nat.lt_succ_of_le hmax)
    _ = val iouFormat.minMantissa (b.exponent + 1) := iouFormat.val_maxMantissa_succ _
    _ ≤ val iouFormat.minMantissa a.exponent := val_mono_exponent hba _

theorem abs_sum_le_of_cancel (ha : 0 < a.mantissa) (hba : b.exponent < a.exponent) {t : ℤ}
    (ht : cutInt (a.exponent - b.exponent).toNat b.mantissa = t) (hs : |a.mantissa + t| < 10 ^ 15) :
    |a.value + b.value| ≤ (|a.mantissa + t| : ℤ) * (10 : ℚ) ^ a.exponent := by
  have hu := ten_zpow_pos a.exponent
  have hmin := le_mantissa ha
  have hb := abs_lt.mp (abs_value_lt_of_exponent_lt hba)
  have hsg : b.mantissa ≤ 0 := by
    by_contra! hpos
    have hn := (aligned_nonneg hba.le hpos.le).1
    rw [ht] at hn
    rw [abs_of_nonneg (by omega)] at hs
    omega
  obtain ⟨-, hle, -⟩ := aligned_nonpos hba.le hsg
  rw [ht] at hle
  have hlow : (10 : ℚ) ^ 15 * (10 : ℚ) ^ a.exponent ≤ a.value := by
    rw [value]
    exact mul_le_mul_of_nonneg_right (by exact_mod_cast hmin) hu.le
  rw [abs_of_nonneg (by linarith)]
  calc a.value + b.value ≤ a.value + t * (10 : ℚ) ^ a.exponent := by linarith
    _ = (a.mantissa + t : ℤ) * (10 : ℚ) ^ a.exponent := by rw [value]; push_cast; ring
    _ ≤ (|a.mantissa + t| : ℤ) * (10 : ℚ) ^ a.exponent :=
        mul_le_mul_of_nonneg_right (by exact_mod_cast le_abs_self _) hu.le

/-- After a cancellation the exact sum is not larger than the sum of the mantissas. -/
theorem abs_sum_le_of_small (ha : a.mantissa ≠ 0) (hba : b.exponent ≤ a.exponent)
    (hs : |a.mantissa + cutInt (a.exponent - b.exponent).toNat b.mantissa| < 10 ^ 15) :
    |a.value + b.value| ≤ (|a.mantissa + cutInt (a.exponent - b.exponent).toNat b.mantissa| : ℤ) *
        (10 : ℚ) ^ a.exponent := by
  obtain heq | hlt := hba.eq_or_lt
  · -- with equal exponents nothing is lost
    rw [heq, sub_self, Int.toNat_zero, cutInt, value, value, heq, ← add_mul, abs_mul,
      abs_of_pos (ten_zpow_pos a.exponent)]
    push_cast
    exact le_rfl
  · obtain hneg | hpos := lt_or_gt_of_ne ha
    · generalize ht : cutInt (a.exponent - b.exponent).toNat b.mantissa = t at hs ⊢
      have hm : -a.mantissa + -t = -(a.mantissa + t) := by ring
      have hcut : cutInt (a.exponent - b.exponent).toNat (-b.mantissa) = -t := by
        rw [cutInt_neg, ht]
      have h : |a.neg.value + b.neg.value| ≤ (|-a.mantissa + -t| : ℤ) * (10 : ℚ) ^ a.exponent :=
        abs_sum_le_of_cancel (a := a.neg) (b := b.neg) (Int.neg_pos_of_neg hneg) hlt hcut
          (by change |-a.mantissa + -t| < _; rwa [hm, abs_neg])
      rwa [hm, value_neg, value_neg, ← neg_add, abs_neg, abs_neg] at h
    · exact abs_sum_le_of_cancel hpos hlt rfl hs

theorem abs_value_sub (h : normalize s e = .ok r) :
    |r.value - s * (10 : ℚ) ^ e| = |r.magnitude - val s.natAbs e| := by
  have hsg := (normalize_ok h).2
  by_cases hs : s < 0
  · rw [decide_eq_true hs, withSign_true] at hsg
    have hval := val_natAbs (Int.neg_nonneg_of_nonpos hs.le) e
    rw [Int.natAbs_neg, Int.cast_neg, neg_mul] at hval
    rw [value_of_nonpos (by omega), hval, sub_neg_eq_add, ← neg_add', abs_neg]
  · rw [decide_eq_false hs, withSign_false] at hsg
    rw [value_of_nonneg (by omega), val_natAbs (by omega)]

theorem abs_normalize_sub_le (h : normalize s e = .ok r) (hr : r.mantissa ≠ 0)
    (hs : s.natAbs < 10 ^ 17) : |r.value - s * (10 : ℚ) ^ e| ≤ 9 * (10 : ℚ) ^ e := by
  have hu := ten_zpow_pos e
  have ht := (normalize_ok h).1
  have hne : r.mantissa.natAbs ≠ 0 := by simpa using hr
  rw [abs_value_sub h, magnitude]
  by_cases hfew : s.natAbs ≤ 9999999999999999
  · rw [ht.exact_of_le hfew hne, sub_self, abs_zero]
    positivity
  obtain ⟨hle, hlt⟩ := val_div_pow s.natAbs 1 e
  have hl : iouFormat.Leading (val s.natAbs e) (s.natAbs / 10) (e + 1) := by
    refine ⟨?_, ?_, by simpa using hle, by simpa using hlt⟩
    · change 1000000000000000 ≤ s.natAbs / 10
      omega
    · change s.natAbs / 10 ≤ 9999999999999999
      omega
  obtain ⟨hreg, hrle, hrlt⟩ := ht.resolve_left (fun hz => hne hz.1)
  obtain ⟨hm, he⟩ := hl.unique ⟨hreg.1, hreg.2, hrle, hrlt⟩
  have hd : val s.natAbs e = val (s.natAbs / 10 * 10) e + (s.natAbs % 10 : ℕ) * (10 : ℚ) ^ e := by
    rw [val, val, ← add_mul, ← Nat.cast_add, Nat.div_add_mod' s.natAbs 10]
  have hten : val (s.natAbs / 10) (e + 1) = val (s.natAbs / 10 * 10) e := by
    exact_mod_cast (val_mul_pow (s.natAbs / 10) 1 e).symm
  have hls : ((s.natAbs % 10 : ℕ) : ℚ) ≤ 9 := by
    exact_mod_cast (by omega : s.natAbs % 10 ≤ 9)
  rw [← hm, ← he, hten, hd, sub_add_cancel_left, abs_neg, abs_of_nonneg (by positivity)]
  exact mul_le_mul_of_nonneg_right hls hu.le

theorem natAbs_cutInt_le (n : ℕ) (v : ℤ) : (cutInt n v).natAbs ≤ v.natAbs := by
  have h := cutInt_withSign n (decide (v < 0)) v.natAbs
  rw [withSign_natAbs] at h
  rw [h, natAbs_withSign]
  exact Nat.div_le_self _ _

section

variable (ha : a.mantissa ≠ 0) (hb : b.mantissa ≠ 0) (hba : b.exponent ≤ a.exponent)
  (h : a.add b = .ok r)

include ha hb hba h

theorem add_cases : ∃ s : ℤ, s = a.mantissa + cutInt (a.exponent - b.exponent).toNat b.mantissa ∧
      (|s| ≤ 10 ∧ r = zero ∨ 10 < |s| ∧ normalize s a.exponent = .ok r) := by
  refine ⟨_, rfl, ?_⟩
  have hmax := max_eq_left hba
  rw [add, if_neg hb, if_neg ha] at h
  simp only [alignedSum_eq, hmax, sub_self, Int.toNat_zero, cutInt] at h
  generalize a.mantissa + cutInt (a.exponent - b.exponent).toNat b.mantissa = s at h ⊢
  split at h
  · next hs =>
    cases h
    exact .inl ⟨abs_le.mpr hs, rfl⟩
  · next hl =>
    rw [← abs_le, not_le] at hl
    exact .inr ⟨hl, h⟩

theorem add_error_of_le : |r.value - (a.value + b.value)| ≤ 10 * (10 : ℚ) ^ a.exponent ∨
      r = zero ∧ |a.value + b.value| < val iouFormat.minMantissa iouFormat.minExponent := by
  have hu := ten_zpow_pos a.exponent
  obtain ⟨s, hs, hc⟩ := add_cases ha hb hba h
  have hd := abs_sub_alignedSum_lt hba
  have hsm := abs_sum_le_of_small ha hba
  rw [← hs] at hd hsm
  obtain ⟨hten, rfl⟩ | ⟨hten, hn⟩ := hc
  · left
    rw [value_zero, zero_sub, abs_neg]
    refine (hsm (by omega)).trans (mul_le_mul_of_nonneg_right ?_ hu.le)
    exact_mod_cast hten
  · have ht := (normalize_ok hn).1
    by_cases hr : r.mantissa = 0
    · -- the sum is too small for an amount
      right
      have hlow : val s.natAbs a.exponent < val iouFormat.minMantissa iouFormat.minExponent := by
        obtain ⟨-, -, hlt⟩ | ⟨hreg, -⟩ := ht
        · exact hlt
        · exact absurd (Int.natAbs_eq_zero.mpr hr) hreg.pos.ne'
      have hfew : |s| < 10 ^ 15 := by
        by_contra! hm
        rw [Int.abs_eq_natAbs] at hm
        have hm' : 1000000000000000 ≤ s.natAbs := by omega
        refine absurd hlow (not_lt.mpr ?_)
        exact (val_mono_exponent (regular_of_ne ha).minExponent_le _).trans
          ((val_le_val_iff _).mpr hm')
      refine ⟨exponent_of_zero hr, (hsm hfew).trans_lt ?_⟩
      rw [Int.abs_eq_natAbs, Int.cast_natCast]
      exact hlow
    · left
      have hdg : s.natAbs < 10 ^ 17 := by
        have h1 : a.mantissa.natAbs ≤ 9999999999999999 := (regular_of_ne ha).le_maxMantissa
        have h2 : b.mantissa.natAbs ≤ 9999999999999999 := (regular_of_ne hb).le_maxMantissa
        have h3 := natAbs_cutInt_le (a.exponent - b.exponent).toNat b.mantissa
        omega
      have hcut := abs_normalize_sub_le hn hr hdg
      rw [abs_le] at hcut ⊢
      rw [abs_lt] at hd
      constructor <;> linarith

end

/-- A statement about a sum that is symmetric needs to be shown for the sum with zero, and for amounts
of which the first has the larger exponent. -/
theorem add_elim {P : IOUAmount → IOUAmount → Prop} (h : a.add b = .ok r)
    (hsymm : ∀ {c d}, P c d → P d c) (hzero : P r zero)
    (hle : ∀ {c d}, c.mantissa ≠ 0 → d.mantissa ≠ 0 → d.exponent ≤ c.exponent →
      c.add d = .ok r → P c d) :
    P a b := by
  by_cases hb : b.mantissa = 0
  · rw [add, if_pos hb] at h
    cases h
    rwa [exponent_of_zero hb]
  by_cases ha : a.mantissa = 0
  · rw [add, if_neg hb, if_pos ha] at h
    cases h
    rw [exponent_of_zero ha]
    exact hsymm hzero
  obtain hba | hab := le_total b.exponent a.exponent
  · exact hle ha hb hba h
  · rw [add_symm] at h
    exact hsymm (hle hb ha hab h)

def Near (r a b : IOUAmount) : Prop :=
  |r.value - (a.value + b.value)| ≤ 10 * (10 : ℚ) ^ max a.exponent b.exponent ∨
    r = zero ∧ |a.value + b.value| < val iouFormat.minMantissa iouFormat.minExponent

theorem add_error (h : a.add b = .ok r) : Near r a b := by
  refine add_elim h ?_ ?_ ?_
  · intro c d hcd
    rwa [Near, add_comm d.value, max_comm]
  · left
    rw [value_zero, add_zero, sub_self, abs_zero]
    positivity
  · intro c d hc hd hdc hcd
    rw [Near, max_eq_left hdc]
    exact add_error_of_le hc hd hdc hcd

theorem add_ge_of_le (ha : 0 < a.mantissa) (hb : 0 < b.mantissa) (hba : b.exponent ≤ a.exponent)
    (h : a.add b = .ok r) : a.value ≤ r.value ∧ b.value ≤ r.value := by
  have hu := ten_zpow_pos a.exponent
  obtain ⟨s, hs, hc⟩ := add_cases ha.ne' hb.ne' hba h
  obtain ⟨ht, -, hlt⟩ := aligned_nonneg hba hb.le
  have hmin := le_mantissa ha
  obtain ⟨hten, -⟩ | ⟨-, hn⟩ := hc
  · rw [abs_of_nonneg (by omega)] at hten
    omega
  obtain ⟨htr, hsg⟩ := normalize_ok hn
  rw [decide_eq_false (by omega), withSign_false] at hsg
  have hg := htr.isGreatest (val_nonneg _ _)
  have hval := val_natAbs (s := s) (by omega) a.exponent
  have hsum : (s : ℚ) * (10 : ℚ) ^ a.exponent = a.value +
      cutInt (a.exponent - b.exponent).toNat b.mantissa * (10 : ℚ) ^ a.exponent := by
    rw [hs, value]
    push_cast
    ring
  have hcut : (0 : ℚ) ≤ cutInt (a.exponent - b.exponent).toNat b.mantissa * (10 : ℚ) ^ a.exponent :=
    mul_nonneg (by exact_mod_cast ht) hu.le
  have hone : (10 : ℚ) ^ a.exponent ≤ a.value := by
    rw [value]
    exact le_mul_of_one_le_left hu.le (by exact_mod_cast (by omega : 1 ≤ a.mantissa))
  rw [value_of_nonneg (a := r) (by omega)]
  constructor
  · rw [value_of_nonneg ha.le] at hsum ⊢
    exact hg.2 ⟨a.representable_magnitude, by rw [hval]; linarith⟩
  · rw [value_of_nonneg hb.le] at hlt ⊢
    exact hg.2 ⟨b.representable_magnitude, by rw [hval]; linarith⟩

theorem add_ge (ha : 0 ≤ a.mantissa) (hb : 0 ≤ b.mantissa) (h : a.add b = .ok r) :
    a.value ≤ r.value ∧ b.value ≤ r.value := by
  refine add_elim (P := fun a b => 0 ≤ a.mantissa → 0 ≤ b.mantissa → a.value ≤ r.value ∧
    b.value ≤ r.value) h ?_ ?_ ?_ ha hb
  · intro c d hcd hd hc
    exact (hcd hc hd).symm
  · intro hr _
    rw [value_zero, value_of_nonneg hr]
    exact ⟨le_rfl, r.magnitude_nonneg⟩
  · intro c d hc hd hdc hcd hc' hd'
    exact add_ge_of_le (hc'.lt_of_ne' hc) (hd'.lt_of_ne' hd) hdc hcd

end Error

end IOUAmount

namespace STAmount

section

variable (issue)

theorem toRat_withIOU (a : IOUAmount) : (withIOU issue a).toRat = a.value := by
  rw [toRat, magnitude]
  by_cases h : a.mantissa < 0
  · rw [if_pos (by simpa [withIOU] using h), IOUAmount.value_of_nonpos h.le]
    rfl
  · rw [if_neg (by simpa [withIOU] using h), IOUAmount.value_of_nonneg (by omega)]
    rfl

theorem neg_withIOU (a : IOUAmount) : (withIOU issue a).neg = withIOU issue a.neg := by
  rw [neg]
  by_cases h : a.mantissa = 0
  · rw [if_pos (by simp [withIOU, h])]
    simp [withIOU, IOUAmount.neg, h]
  rw [if_neg (by simp [withIOU, h])]
  have hs : (!decide (a.mantissa < 0)) = decide (-a.mantissa < 0) := by
    rw [← decide_not, decide_eq_decide]
    omega
  simp only [withIOU, IOUAmount.neg, hs, Int.natAbs_neg]
  rfl

def zeroOf : STAmount := withIOU issue IOUAmount.zero

end

theorem mantissa_nonneg_of_value (h : 0 ≤ a.value) : 0 ≤ a.mantissa := by
  by_contra! hneg
  have hu := ten_zpow_pos a.exponent
  have hlt : (a.mantissa : ℚ) < 0 := by exact_mod_cast hneg
  rw [IOUAmount.value] at h
  exact absurd (mul_neg_of_neg_of_pos hlt hu) h.not_gt

/-- Sums of an issued currency: both implementations agree, zero and the opposite amount behave
as they should, sums do not decrease, and a sum is off by at most ten units of the larger exponent
unless it is too small for an amount. -/
theorem add_issued (switchover : Bool) {a b : STAmount} (ha : a.Canonical) (hb : b.Canonical)
    (hissued : a.isNative = false) (hissue : a.issue = b.issue) :
    ∃ a' b' : IOUAmount, a.iou = .ok a' ∧ b.iou = .ok b' ∧
      ((∃ t, add switchover a b = .error t) ↔ ∃ t, a'.add b' = .error t) ∧
      (∀ r, add switchover a b = .ok r → ∃ r', r.iou = .ok r' ∧ a'.add b' = .ok r') ∧
      add switchover a b = add switchover b a ∧ a'.add b' = b'.add a' ∧
      add switchover a a.neg = .ok (zeroOf a.issue) ∧ a'.add a'.neg = .ok .zero ∧
      add switchover a (zeroOf a.issue) = .ok a ∧ a'.add .zero = .ok a' ∧
      ∀ r, add switchover a b = .ok r →
        (0 ≤ a.toRat → 0 ≤ b.toRat → max a.toRat b.toRat ≤ r.toRat) ∧
        (|r.toRat - (a.toRat + b.toRat)| ≤ 10 * (10 : ℚ) ^ max a.offset b.offset ∨
          r = zeroOf a.issue ∧ |a.toRat + b.toRat| < val 1000000000000000 (-96)) := by
  have hxrp : isXRP a.issue = false := by rw [← ha.isNative_eq, hissued]
  have hissuedb : b.isNative = false := by rw [hb.isNative_eq, ← hissue, hxrp]
  obtain ⟨a', ha'⟩ := exists_withIOU ha hissued
  obtain ⟨b', hb'⟩ := exists_withIOU hb hissuedb
  rw [← hissue] at hb'
  generalize a.issue = issue at *
  subst ha' hb'
  have hadd : ∀ c d : IOUAmount, add switchover (withIOU issue c) (withIOU issue d) =
      ((c.add d).mapError fun _ => "value overflow").map (withIOU issue) := add_withIOU hxrp
  have hok : ∀ r, add switchover (withIOU issue a') (withIOU issue b') = .ok r →
      ∃ r', r = withIOU issue r' ∧ a'.add b' = .ok r' := by
    intro r hr
    rw [hadd] at hr
    cases hsum : a'.add b' with
    | error t => rw [hsum] at hr; cases hr
    | ok r' =>
      rw [hsum] at hr
      cases hr
      exact ⟨r', rfl, rfl⟩
  refine ⟨a', b', iou_withIOU issue a', iou_withIOU issue b', ?_, ?_, ?_, a'.add_symm b', ?_,
    a'.add_neg_self, ?_, a'.add_zero_right, ?_⟩
  · rw [hadd]
    cases a'.add b' with
    | error t => exact iff_of_true ⟨_, rfl⟩ ⟨t, rfl⟩
    | ok r => exact iff_of_false (fun ⟨t, ht⟩ => by cases ht) (fun ⟨t, ht⟩ => by cases ht)
  · intro r hr
    obtain ⟨r', rfl, hsum⟩ := hok r hr
    exact ⟨r', iou_withIOU issue r', hsum⟩
  · rw [hadd, hadd, a'.add_symm b']
  · rw [neg_withIOU, hadd, a'.add_neg_self]
    rfl
  · rw [zeroOf, hadd, a'.add_zero_right]
    rfl
  · intro r hr
    obtain ⟨r', rfl, hsum⟩ := hok r hr
    simp only [toRat_withIOU]
    constructor
    · intro hpos hpos'
      obtain ⟨h1, h2⟩ := IOUAmount.add_ge (mantissa_nonneg_of_value hpos)
        (mantissa_nonneg_of_value hpos') hsum
      exact max_le h1 h2
    · apply (IOUAmount.add_error hsum).imp_right
      rintro ⟨rfl, hsmall⟩
      exact ⟨rfl, hsmall⟩

theorem canonical_withIOU (hi : isXRP issue = false) (a : IOUAmount) :
    (withIOU issue a).Canonical where
  isNative_eq := hi.symm
  native := by simp [withIOU]
  issued := fun _ => a.normal
  zero := fun h => by
    have hm : a.mantissa = 0 := Int.natAbs_eq_zero.mp h
    simp [withIOU, hm]

def smallest : IOUAmount :=
  ⟨1000000000000000, -96, .inr ⟨by decide, by decide, by decide, by decide⟩⟩

def nearSmallest : IOUAmount :=
  ⟨1000000000000020, -96, .inr ⟨by decide, by decide, by decide, by decide⟩⟩

def sumSmallest : IOUAmount :=
  ⟨2000000000000020, -96, .inr ⟨by decide, by decide, by decide, by decide⟩⟩

theorem add_issued_smallest :
    add true (withIOU someIssue nearSmallest) (withIOU someIssue smallest) =
        .ok (withIOU someIssue sumSmallest) ∧
      add true (withIOU someIssue nearSmallest) (withIOU someIssue smallest) =
        add true (withIOU someIssue smallest) (withIOU someIssue nearSmallest) := by
  have hissue : isXRP someIssue = false := by decide
  refine ⟨by rfl, ?_⟩
  obtain ⟨-, -, -, -, -, -, hcomm, -⟩ := add_issued true (canonical_withIOU hissue nearSmallest)
    (canonical_withIOU hissue smallest) rfl rfl
  exact hcomm

/-- A difference of twenty units at the lowest exponent is too small for an amount. -/
theorem add_issued_underflow :
    (withIOU someIssue nearSmallest).Canonical ∧ (withIOU someIssue smallest.neg).Canonical ∧
      add true (withIOU someIssue nearSmallest) (withIOU someIssue smallest.neg) =
        .ok (zeroOf someIssue) ∧
      ¬|(zeroOf someIssue).toRat -
          ((withIOU someIssue nearSmallest).toRat + (withIOU someIssue smallest.neg).toRat)| ≤
        10 * (10 : ℚ) ^ max (withIOU someIssue nearSmallest).offset
          (withIOU someIssue smallest.neg).offset := by
  have hissue : isXRP someIssue = false := by decide
  refine ⟨canonical_withIOU hissue _, canonical_withIOU hissue _, by rfl, ?_⟩
  have hmax : max (withIOU someIssue nearSmallest).offset (withIOU someIssue smallest.neg).offset =
      -96 := by rfl
  have hunit := ten_zpow_pos (-96)
  have hsum : nearSmallest.value + smallest.neg.value = 20 * (10 : ℚ) ^ (-96 : ℤ) := by
    simp only [IOUAmount.value, IOUAmount.neg, nearSmallest, smallest]
    push_cast
    ring
  rw [zeroOf, toRat_withIOU, toRat_withIOU, toRat_withIOU, hmax, IOUAmount.value_zero, hsum,
    zero_sub, abs_neg,
    abs_of_pos (by positivity)]
  linarith

end STAmount

end Rippled
