import Rippled.Basics.STAmount
import Rippled.Basics.IOUAmount
import Rippled.Lib.LeadingDigits

namespace Rippled

open Lib Decimal

def isXRP (issue : Issue) : Bool := issue.currency == 0

def xrpIssue : Issue := ⟨0, 0⟩

variable {switchover : Bool} {issue : Issue}

namespace STAmount

def cMinOffset : ℤ := -96
def cMinValue : ℕ := 1000000000000000
def cMaxValue : ℕ := 9999999999999999
def cMaxNativeN : ℕ := 100000000000000000

/-- The multiplications that remove a positive offset, on 64-bit numbers. -/
def raise (switchover : Bool) : ℕ → ℕ → Except String ℕ
  | 0, v => .ok v
  | n + 1, v =>
    if switchover && cMaxNativeN < v then .error "Native currency amount out of range"
    else raise switchover n (v * 10 % 2 ^ 64)

section

variable (switchover)

section

variable (a : STAmount)

def canonicalizeNative : Except String STAmount :=
  if a.value = 0 ∨ a.offset ≤ -20 then
    .ok { a with isNative := true, value := 0, offset := 0, isNegative := false }
  else if switchover && 17 < a.offset then .error "Native currency amount out of range"
  else
    (raise switchover a.offset.toNat (cut (-a.offset).toNat a.value)).bind fun value =>
      if cMaxNativeN < value then .error "Native currency amount out of range"
      else .ok { a with isNative := true, value := value, offset := 0 }

def canonicalizeIssued : Except String STAmount :=
  match iouFormat.normalize a.value a.offset with
  | .error _ => .error "value overflow"
  | .ok r => .ok
    { a with
      isNative := false
      value := r.1
      offset := r.2
      isNegative := r.1 != 0 && a.isNegative }

/-- Brings an amount into its standard form; whether overflow of native amounts is noticed
depends on a switch of the running thread. -/
def canonicalize : Except String STAmount :=
  if isXRP a.issue then canonicalizeNative switchover a else canonicalizeIssued a

def make (issue : Issue) (mantissa : ℕ) (exponent : ℤ) (negative : Bool) : Except String STAmount :=
  canonicalize switchover
    { issue := issue
      value := mantissa
      offset := exponent
      isNative := false
      isNegative := negative }

def magnitude : ℚ := val a.value a.offset

def toRat : ℚ := if a.isNegative then -a.magnitude else a.magnitude

structure Canonical : Prop where
  isNative_eq : a.isNative = isXRP a.issue
  native : a.isNative → a.offset = 0 ∧ a.value ≤ cMaxNativeN
  issued : a.isNative = false → iouFormat.Normal a.value a.offset
  zero : a.value = 0 → a.isNegative = false

end

def drops (v : ℕ) (e : ℤ) : ℕ :=
  if e < 0 then v / 10 ^ (-e).toNat
  else if switchover then v * 10 ^ e.toNat else v * 10 ^ e.toNat % 2 ^ 64

end

variable {v : ℕ} {e : ℤ}

theorem drops_true (he : 0 ≤ e) : drops true v e = v * 10 ^ e.toNat := by
  rw [drops, if_neg he.not_gt, if_pos rfl]

theorem drops_false (he : 0 ≤ e) : drops false v e = v * 10 ^ e.toNat % 2 ^ 64 := by
  rw [drops, if_neg he.not_gt, if_neg (by decide)]

theorem drops_eq_of_plain (h : switchover ∨ e < 0 ∨ v * 10 ^ e.toNat < 2 ^ 64) :
    drops switchover v e = drops true v e := by
  obtain rfl | he | hlt := h
  · rfl
  · rw [drops, drops, if_pos he, if_pos he]
  · rw [drops, drops, Nat.mod_eq_of_lt hlt, ite_self, if_pos rfl]

/-- The loop together with the final check: nothing is refused but what is too large. -/
theorem raise_bind {β : Type} (f : ℕ → β) {n : ℕ} (hv : v < 2 ^ 64) :
    ((raise switchover n v).bind fun w =>
      if cMaxNativeN < w then .error "Native currency amount out of range" else .ok (f w)) =
      if cMaxNativeN < (if switchover then v * 10 ^ n else v * 10 ^ n % 2 ^ 64) then
        .error "Native currency amount out of range"
      else .ok (f (if switchover then v * 10 ^ n else v * 10 ^ n % 2 ^ 64)) := by
  induction n generalizing v with
  | zero =>
    have ht : (if switchover then v * 10 ^ 0 else v * 10 ^ 0 % 2 ^ 64) = v := by
      rw [pow_zero, mul_one, Nat.mod_eq_of_lt hv, ite_self]
    rw [ht]
    rfl
  | succ n ih =>
    rw [raise, pow_succ' 10 n, ← mul_assoc v]
    split
    · next hl =>
      rw [Bool.and_eq_true, decide_eq_true_iff] at hl
      have hlt : cMaxNativeN < v * 10 * 10 ^ n := by
        rw [mul_assoc, ← pow_succ']
        exact hl.2.trans_le (Nat.le_mul_of_pos_right _ (by positivity))
      rw [if_pos hl.1, if_pos hlt]
      rfl
    · next hs =>
      have ht : (if switchover then v * 10 % 2 ^ 64 * 10 ^ n
            else v * 10 % 2 ^ 64 * 10 ^ n % 2 ^ 64) =
          if switchover then v * 10 * 10 ^ n else v * 10 * 10 ^ n % 2 ^ 64 := by
        cases switchover with
        | false =>
          rw [if_neg (by decide), if_neg (by decide)]
          exact Nat.mod_mul_mod _ _ _
        | true =>
          have hle : v ≤ cMaxNativeN := by simpa using hs
          change v ≤ 100000000000000000 at hle
          rw [if_pos rfl, if_pos rfl, Nat.mod_eq_of_lt (by omega)]
      rw [ih (Nat.mod_lt _ (by norm_num)), ht]

variable {negative : Bool}

/-- A native amount is a number of drops in range; what is not in range is refused. -/
theorem make_native_eq (hxrp : isXRP issue) (hv : v < 2 ^ 64) :
    make switchover issue v e negative =
      if cMaxNativeN < drops switchover v e then .error "Native currency amount out of range"
      else .ok
        { issue := issue
          value := drops switchover v e
          offset := 0
          isNative := true
          isNegative := !decide (v = 0 ∨ e ≤ -20) && negative } := by
  rw [make, canonicalize, if_pos hxrp, canonicalizeNative]
  dsimp only
  split
  · next hz =>
    have hd : drops switchover v e = 0 := by
      rw [drops]
      obtain rfl | hlow := hz
      · simp
      rw [if_pos (by omega)]
      apply Nat.div_eq_of_lt
      calc v < 2 ^ 64 := hv
        _ ≤ 10 ^ 20 := by norm_num
        _ ≤ 10 ^ (-e).toNat := Nat.pow_le_pow_right (by norm_num) (by omega)
    rw [hd, if_neg (by decide)]
    simp [hz]
  · next hne =>
    have hcut : cut (-e).toNat v < 2 ^ 64 := by
      rw [cut_eq]
      exact (Nat.div_le_self _ _).trans_lt hv
    have hd : (if switchover then cut (-e).toNat v * 10 ^ e.toNat
        else cut (-e).toNat v * 10 ^ e.toNat % 2 ^ 64) = drops switchover v e := by
      rw [drops]
      by_cases he : e < 0
      · rw [if_pos he, show e.toNat = 0 by omega, pow_zero, mul_one, Nat.mod_eq_of_lt hcut,
          ite_self, cut_eq]
      · rw [if_neg he, show (-e).toNat = 0 by omega, cut]
    split
    · next hl =>
      rw [Bool.and_eq_true, decide_eq_true_iff] at hl
      rw [not_or] at hne
      rw [if_pos]
      rw [drops, if_neg (by omega), if_pos hl.1]
      calc 10 ^ 17 < 10 ^ e.toNat := Nat.pow_lt_pow_right (by norm_num) (by omega)
        _ ≤ v * 10 ^ e.toNat := Nat.le_mul_of_pos_left _ (Nat.pos_of_ne_zero hne.1)
    · rw [raise_bind _ hcut, hd]
      simp [hne]

variable {r : STAmount}

theorem make_native (hxrp : isXRP issue) (hv : v < 2 ^ 64)
    (h : make switchover issue v e negative = .ok r) :
    r.offset = 0 ∧ r.value = drops switchover v e ∧ r.value ≤ cMaxNativeN := by
  rw [make_native_eq hxrp hv] at h
  split at h
  · cases h
  · next hle =>
    cases h
    exact ⟨rfl, rfl, not_lt.mp hle⟩

section

variable (hxrp : isXRP issue = false) (h : make switchover issue v e negative = .ok r)

include hxrp h

theorem make_issued : iouFormat.Truncates (val v e) r.value r.offset := by
  rw [make, canonicalize, if_neg (by simp [hxrp]), canonicalizeIssued] at h
  split at h
  · cases h
  · next s hs =>
    cases h
    exact Format.normalize_truncates hs

theorem make_issued_issue :
    r.issue = issue ∧ r.isNative = false ∧ r.isNegative = (r.value != 0 && negative) := by
  rw [make, canonicalize, if_neg (by simp [hxrp]), canonicalizeIssued] at h
  split at h
  · cases h
  · cases h
    exact ⟨rfl, rfl, rfl⟩

end

theorem make_sign (h : make switchover issue v e negative = .ok r) (hne : r.value ≠ 0) :
    r.isNegative = negative := by
  rw [make, canonicalize] at h
  split at h
  · rw [canonicalizeNative] at h
    split at h
    · cases h
      exact absurd rfl hne
    split_ifs at h
    cases hr : raise switchover e.toNat (cut (-e).toNat v) with
    | error err => simp [hr, Except.bind] at h
    | ok w =>
      rw [hr, Except.bind] at h
      split_ifs at h
      cases h
      rfl
  · rw [canonicalizeIssued] at h
    split at h
    · cases h
    · next s hs =>
      cases h
      simp [show s.1 ≠ 0 from hne]

theorem toRat_of_not_negative {a : STAmount} (h : a.isNegative = false) :
    a.toRat = a.magnitude := by
  rw [toRat, h, if_neg (by decide)]

theorem toRat_of_sign (h : r.value ≠ 0 → r.isNegative = negative) :
    r.toRat = if negative then -r.magnitude else r.magnitude := by
  by_cases hz : r.value = 0
  · have hmag : r.magnitude = 0 := by rw [magnitude, hz, val_zero]
    rw [toRat, hmag]
    simp
  · rw [toRat, h hz]

def someIssue : Issue := ⟨⟨fun _ => 1⟩, ⟨fun _ => 1⟩⟩

def iou (a : STAmount) : Except String IOUAmount :=
  if a.isNative then .error "Cannot return native STAmount as IOUAmount"
  else IOUAmount.normalize (IOUAmount.withSign a.isNegative a.value) a.offset

def ofIOU (switchover : Bool) (amount : IOUAmount) (issue : Issue) : Except String STAmount :=
  make switchover issue amount.mantissa.natAbs amount.exponent (amount.mantissa < 0)

def withIOU (issue : Issue) (amount : IOUAmount) : STAmount :=
  { issue := issue
    value := amount.mantissa.natAbs
    offset := amount.exponent
    isNative := false
    isNegative := decide (amount.mantissa < 0) }

end STAmount

namespace IOUAmount

theorem ext_digits {a b : IOUAmount} (hm : a.mantissa = b.mantissa) (he : a.exponent = b.exponent) :
    a = b := by
  cases a
  cases b
  cases hm
  cases he
  rfl

theorem withSign_natAbs (z : ℤ) : withSign (decide (z < 0)) z.natAbs = z := by
  by_cases h : z < 0
  · rw [decide_eq_true h, withSign_true]
    omega
  · rw [decide_eq_false h, withSign_false]
    omega

theorem withSign_neg_iff (negative : Bool) (n : ℕ) :
    decide (withSign negative n < 0) = (n != 0 && negative) := by
  cases negative with
  | false => rw [withSign_false, Bool.and_false, decide_eq_false (by omega)]
  | true =>
    rw [withSign_true, Bool.and_true, Bool.eq_iff_iff, decide_eq_true_iff, bne_iff_ne]
    omega

theorem normalize_isError_iff (m e : ℤ) :
    (∃ t, normalize m e = .error t) ↔ ∃ o, iouFormat.normalize m.natAbs e = .error o := by
  rw [normalize]
  split
  · next err h => exact iff_of_true ⟨_, rfl⟩ ⟨err, h⟩
  · next r h =>
    refine iff_of_false ?_ ?_
    · rintro ⟨t, ht⟩
      cases ht
    · rintro ⟨o, ho⟩
      rw [h] at ho
      cases ho

theorem normalize_self (a : IOUAmount) : normalize a.mantissa a.exponent = .ok a := by
  have hs := Format.normalize_normal a.normal
  rw [normalize]
  split
  · next err h =>
    rw [hs] at h
    cases h
  · next r h =>
    rw [hs] at h
    cases h
    exact congrArg Except.ok (ext_digits (withSign_natAbs a.mantissa) rfl)

end IOUAmount

namespace STAmount

theorem make_of_normalize (hi : isXRP issue = false) {m e : ℤ} {a : IOUAmount}
    (h : IOUAmount.normalize m e = .ok a) :
    make switchover issue m.natAbs e (m < 0) = .ok (withIOU issue a) := by
  rw [make, canonicalize, if_neg (by simp [hi]), canonicalizeIssued]
  rw [IOUAmount.normalize] at h
  split at h
  · cases h
  · next r hr =>
    cases h
    simp only [hr, withIOU, IOUAmount.natAbs_withSign, IOUAmount.withSign_neg_iff]

theorem make_isError_iff (hi : isXRP issue = false) (m : ℕ) (e : ℤ) (negative : Bool) :
    (∃ t, make switchover issue m e negative = .error t) ↔
      ∃ o, iouFormat.normalize m e = .error o := by
  rw [make, canonicalize, if_neg (by simp [hi]), canonicalizeIssued]
  cases iouFormat.normalize m e with
  | error o => exact iff_of_true ⟨_, rfl⟩ ⟨o, rfl⟩
  | ok r =>
    refine iff_of_false ?_ ?_
    · rintro ⟨t, ht⟩
      cases ht
    · rintro ⟨o, ho⟩
      cases ho

theorem iou_withIOU (issue : Issue) (a : IOUAmount) : (withIOU issue a).iou = .ok a := by
  rw [iou, if_neg (by simp [withIOU])]
  simp only [withIOU, IOUAmount.withSign_natAbs]
  exact a.normalize_self

theorem max_lt_leading_iff {x : ℚ} {n : ℕ} {k : ℤ} (h : iouFormat.Leading x n k) :
    val iouFormat.maxMantissa iouFormat.maxExponent < val n k ↔ iouFormat.maxExponent < k := by
  constructor
  · intro hlt
    by_contra! hle
    refine absurd hlt (not_lt.mpr ?_)
    exact ((val_le_val_iff k).mpr h.le_maxMantissa).trans (val_mono_exponent hle _)
  intro hlt
  calc val iouFormat.maxMantissa iouFormat.maxExponent
      < val (iouFormat.maxMantissa + 1) iouFormat.maxExponent :=
        (val_lt_val_iff _).mpr (Nat.lt_succ_self _)
    _ = val iouFormat.minMantissa (iouFormat.maxExponent + 1) :=
        iouFormat.val_maxMantissa_succ _
    _ ≤ val iouFormat.minMantissa k := val_mono_exponent hlt _
    _ ≤ val n k := (val_le_val_iff k).mpr h.minMantissa_le

theorem overflows_iff_leading (m : ℕ) (e : ℤ) : (∃ o, iouFormat.normalize m e = .error o) ↔
      ∃ n k, iouFormat.Leading (val m e) n k ∧
        val iouFormat.maxMantissa iouFormat.maxExponent < val n k := by
  rw [Format.normalize_isError_iff (by decide)]
  constructor
  · intro hlr
    have hm : 0 < m := by
      apply Nat.pos_of_ne_zero
      rintro rfl
      rw [val_zero] at hlr
      exact absurd (val_pos iouFormat.minMantissa_pos _) hlr.not_gt
    obtain ⟨n, k, hl⟩ := iouFormat.exists_leading hm e
    refine ⟨n, k, hl, (max_lt_leading_iff hl).mpr ?_⟩
    by_contra! hle
    exact absurd (hl.exponent_lt_iff.mp (Int.lt_add_one_iff.mpr hle)) hlr.not_gt
  · rintro ⟨n, k, hl, hlt⟩
    by_contra! hs
    have hk := hl.exponent_lt_iff.mpr hs
    have := (max_lt_leading_iff hl).mp hlt
    omega

theorem leading_of_truncates {x : ℚ} {m : ℕ} {e : ℤ} (h : iouFormat.Truncates x m e)
    (hx : val iouFormat.minMantissa iouFormat.minExponent ≤ x) :
    iouFormat.Regular m e ∧ iouFormat.Leading x m e := by
  obtain ⟨-, -, hlt⟩ | ⟨hreg, hle, hlt⟩ := h
  · exact absurd hlt hx.not_gt
  · exact ⟨hreg, ⟨hreg.1, hreg.2, hle, hlt⟩⟩

/-- Normalization cuts off a number to its 16 leading digits in both implementations; numbers
that are too small become zero, and those whose leading digits are too large overflow. -/
theorem normalization_exact (switchover : Bool) (m e : ℤ) (hissue : isXRP issue = false) :
    ((∃ t, IOUAmount.normalize m e = .error t) ↔
      ∃ t, make switchover issue m.natAbs e (m < 0) = .error t) ∧
    ((∃ t, IOUAmount.normalize m e = .error t) ↔
      ∃ n k, iouFormat.Leading (val m.natAbs e) n k ∧ val 9999999999999999 80 < val n k) ∧
    ∀ a, IOUAmount.normalize m e = .ok a →
      make switchover issue m.natAbs e (m < 0) = .ok (withIOU issue a) ∧
      (withIOU issue a).iou = .ok a ∧ ofIOU switchover a issue = .ok (withIOU issue a) ∧
      (val m.natAbs e < val 1000000000000000 (-96) → a = IOUAmount.zero) ∧
      (val 1000000000000000 (-96) ≤ val m.natAbs e →
        iouFormat.Regular a.mantissa.natAbs a.exponent ∧ (a.mantissa < 0 ↔ m < 0) ∧
        iouFormat.Leading (val m.natAbs e) a.mantissa.natAbs a.exponent ∧
        ∀ n k, iouFormat.Leading (val m.natAbs e) n k → n = a.mantissa.natAbs ∧ k = a.exponent) ∧
      IOUAmount.normalize a.mantissa a.exponent = .ok a ∧
      canonicalize switchover (withIOU issue a) = .ok (withIOU issue a) := by
  refine ⟨?_, ?_, ?_⟩
  · rw [IOUAmount.normalize_isError_iff, make_isError_iff hissue]
  · rw [IOUAmount.normalize_isError_iff]
    exact overflows_iff_leading m.natAbs e
  intro a ha
  obtain ⟨htrunc, hsign⟩ := IOUAmount.normalize_ok ha
  refine ⟨make_of_normalize hissue ha, iou_withIOU issue a,
    make_of_normalize hissue a.normalize_self, ?_, ?_, a.normalize_self,
    make_of_normalize hissue a.normalize_self⟩
  · intro hsmall
    obtain ⟨hm, he, -⟩ | ⟨hreg, hle, -⟩ := htrunc
    · exact IOUAmount.ext_digits (Int.natAbs_eq_zero.mp hm) he
    · have hmin := iouFormat.val_min_le (.inr hreg) (val_pos hreg.pos _)
      exact absurd (hmin.trans hle) hsmall.not_ge
  · intro hlarge
    obtain ⟨hreg, hlead⟩ := leading_of_truncates htrunc hlarge
    refine ⟨hreg, ?_, hlead, fun n k h => h.unique hlead⟩
    have hpos := hreg.pos
    have hneg := IOUAmount.withSign_neg_iff (decide (m < 0)) a.mantissa.natAbs
    rw [← hsign, bne_iff_ne.mpr hpos.ne', Bool.true_and, decide_eq_decide] at hneg
    exact hneg

def leadingSixteen : IOUAmount :=
  ⟨-1234567890123456, -96, .inr ⟨by decide, by decide, by decide, by decide⟩⟩

/-- Seventeen digits at one exponent below the lowest. -/
theorem normalization_exact_seventeen :
    isXRP someIssue = false ∧
      IOUAmount.normalize (-12345678901234567) (-97) = .ok leadingSixteen ∧
      make true someIssue 12345678901234567 (-97) true = .ok (withIOU someIssue leadingSixteen) := by
  have hnorm : IOUAmount.normalize (-12345678901234567) (-97) = .ok leadingSixteen := by rfl
  have hissue : isXRP someIssue = false := by decide
  refine ⟨hissue, hnorm, ?_⟩
  exact ((normalization_exact true (-12345678901234567) (-97) hissue).2.2 _ hnorm).1

end STAmount

end Rippled
