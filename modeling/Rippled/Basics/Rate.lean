import Rippled.Basics.Normalization
import Rippled.Basics.RoundDirection

namespace Rippled

open Lib Decimal

def noIssue : Issue :=
  ⟨⟨fun i => if i.val = 19 then 1 else 0⟩, ⟨fun i => if i.val = 19 then 1 else 0⟩⟩

namespace STAmount

def muldiv (multiplier multiplicand divisor : ℕ) : Except String ℕ :=
  let ret := multiplier * multiplicand / divisor
  if 2 ^ 64 - 1 < ret then
    .error ("overflow: (" ++ toString multiplier ++ " * " ++ toString multiplicand ++ ") / " ++
      toString divisor)
  else .ok ret

section

variable (switchover : Bool)

def divide (num den : STAmount) (issue : Issue) : Except String STAmount :=
  if den.value = 0 then .error "division by zero"
  else if num.value = 0 then make switchover issue 0 0 false
  else
    (muldiv num.operand.1 tenTo17 den.operand.1).bind fun ret =>
      make switchover issue ((ret + 5) % 2 ^ 64) (num.operand.2 - den.operand.2 - 17)
        (num.isNegative != den.isNegative)

/-- The key by which offers are sorted: a biased exponent above the mantissa of the rate. -/
def getRate (offerOut offerIn : STAmount) : ℕ :=
  if offerOut.value = 0 then 0
  else
    match divide switchover offerIn offerOut noIssue with
    | .error _ => 0
    | .ok r => if r.value = 0 then 0 else (r.offset + 100).toNat <<< 56 ||| r.value

def amountFromQuality (rate : ℕ) : Except String STAmount :=
  if rate = 0 then make switchover noIssue 0 0 false
  else
    let mantissa := rate % 2 ^ 56
    let exponent : ℤ := ((rate / 2 ^ 56 : ℕ) : ℤ) - 100
    make switchover noIssue mantissa exponent false

end

def rateKey (r : STAmount) : ℕ := (r.offset + 100).toNat * 2 ^ 56 + r.value

/-- The exponent of the quotient of two amounts before it is cut off. -/
def rateOffset (offerIn offerOut : STAmount) : ℤ :=
  offerIn.operand.2 - offerOut.operand.2 - 17

structure Positive (a : STAmount) : Prop where
  canonical : a.Canonical
  ne_zero : a.value ≠ 0
  not_negative : a.isNegative = false

theorem isXRP_noIssue : isXRP noIssue = false := by decide

theorem Positive.toRat_eq {a : STAmount} (h : a.Positive) :
    a.toRat = val a.operand.1 a.operand.2 := by
  rw [toRat_of_not_negative h.not_negative, (operand_spec h.canonical h.ne_zero).1]

variable {switchover : Bool} {num den r : STAmount}

/-- What the quotient of two positive amounts is. -/
theorem divide_spec (hn : num.Positive) (hd : den.Positive)
    (h : divide switchover num den noIssue = .ok r) : iouFormat.Truncates
        (val (num.operand.1 * tenTo17 / den.operand.1 + 5) (rateOffset num den)) r.value r.offset ∧
      r.isNegative = false ∧ r.issue = noIssue ∧ r.isNative = false := by
  obtain ⟨-, hmin1, hmax1, -⟩ := operand_spec hn.canonical hn.ne_zero
  obtain ⟨-, hmin2, hmax2, -⟩ := operand_spec hd.canonical hd.ne_zero
  rw [divide, if_neg hd.ne_zero, if_neg hn.ne_zero, hn.not_negative, hd.not_negative] at h
  obtain ⟨ret, hret, hm⟩ := bind_eq_ok h
  rw [muldiv] at hret
  split_ifs at hret
  cases hret
  have hq : num.operand.1 * tenTo17 / den.operand.1 ≤ 10 ^ 19 := by
    apply Nat.div_le_of_le_mul
    change num.operand.1 * 100000000000000000 ≤ den.operand.1 * 10 ^ 19
    omega
  rw [Nat.mod_eq_of_lt (by omega)] at hm
  refine ⟨make_issued isXRP_noIssue hm, ?_⟩
  rw [make, canonicalize, if_neg (by simp [isXRP_noIssue]), canonicalizeIssued] at hm
  split at hm
  · cases hm
  · cases hm
    exact ⟨by simp, rfl, rfl⟩

theorem getRate_ne_zero {offerOut offerIn : STAmount} (hin : offerIn.Positive)
    (hout : offerOut.Positive) (h : getRate switchover offerOut offerIn ≠ 0) :
    ∃ r, divide switchover offerIn offerOut noIssue = .ok r ∧
      iouFormat.Regular r.value r.offset ∧ getRate switchover offerOut offerIn = rateKey r := by
  rw [getRate, if_neg hout.ne_zero] at h ⊢
  cases hdiv : divide switchover offerIn offerOut noIssue with
  | error t => simp [hdiv] at h
  | ok r =>
    simp only [hdiv] at h ⊢
    split at h
    · exact absurd rfl h
    · next hne =>
      have ht := (divide_spec hin hout hdiv).1
      have hreg := ht.normal.resolve_left (fun hz => hne hz.1)
      refine ⟨r, rfl, hreg, ?_⟩
      have hmax : r.value ≤ 9999999999999999 := hreg.le_maxMantissa
      rw [if_neg hne, ← Nat.shiftLeft_add_eq_or_of_lt (by omega), rateKey, Nat.shiftLeft_eq]

theorem rateKey_le_iff {s : STAmount} (hr : iouFormat.Regular r.value r.offset)
    (hs : iouFormat.Regular s.value s.offset) :
    rateKey r ≤ rateKey s ↔ r.magnitude ≤ s.magnitude := by
  have hrm : r.value ≤ 9999999999999999 := hr.le_maxMantissa
  have hsm : s.value ≤ 9999999999999999 := hs.le_maxMantissa
  have hrx : -96 ≤ r.offset := hr.minExponent_le
  have hsx : -96 ≤ s.offset := hs.minExponent_le
  have hst : ∀ a b : STAmount, iouFormat.Regular a.value a.offset →
      iouFormat.Regular b.value b.offset → a.offset < b.offset → a.magnitude < b.magnitude := by
    intro a b ha hb hlt
    calc val a.value a.offset < val (iouFormat.maxMantissa + 1) a.offset :=
          (val_lt_val_iff _).mpr (Nat.lt_succ_of_le ha.le_maxMantissa)
      _ = val iouFormat.minMantissa (a.offset + 1) := iouFormat.val_maxMantissa_succ _
      _ ≤ val iouFormat.minMantissa b.offset := val_mono_exponent hlt _
      _ ≤ val b.value b.offset := (val_le_val_iff _).mpr hb.minMantissa_le
  rw [rateKey, rateKey]
  obtain hlt | heq | hgt := lt_trichotomy r.offset s.offset
  · exact iff_of_true (by omega) (hst r s hr hs hlt).le
  · rw [magnitude, magnitude, heq, val_le_val_iff]
    omega
  · exact iff_of_false (by omega) (hst s r hs hr hgt).not_ge

theorem amountFromQuality_rateKey (hr : iouFormat.Regular r.value r.offset)
    (hneg : r.isNegative = false) (hi : r.issue = noIssue) (hn : r.isNative = false) :
    amountFromQuality switchover (rateKey r) = .ok r := by
  have hmax : r.value ≤ 9999999999999999 := hr.le_maxMantissa
  have hmin : 1000000000000000 ≤ r.value := hr.minMantissa_le
  have hexp : -96 ≤ r.offset := hr.minExponent_le
  have hm : rateKey r % 2 ^ 56 = r.value := by
    rw [rateKey]
    omega
  have he : ((rateKey r / 2 ^ 56 : ℕ) : ℤ) - 100 = r.offset := by
    rw [rateKey]
    omega
  have hne : rateKey r ≠ 0 := by
    rw [rateKey]
    omega
  rw [amountFromQuality, if_neg hne]
  rw [hm, he, make, canonicalize, if_neg (by simp [isXRP_noIssue]), canonicalizeIssued]
  simp only [Format.normalize_normal (f := iouFormat) (.inr hr), Bool.and_false]
  cases r
  cases hi
  cases hneg
  cases hn
  rfl

theorem quotient_bounds (hn : num.Positive) (hd : den.Positive) :
    val (num.operand.1 * tenTo17 / den.operand.1) (rateOffset num den) ≤ num.toRat / den.toRat ∧
      num.toRat / den.toRat <
        val (num.operand.1 * tenTo17 / den.operand.1 + 1) (rateOffset num den) := by
  have hpos : 0 < den.operand.1 := by
    have := (operand_spec hd.canonical hd.ne_zero).2.1
    omega
  rw [hn.toRat_eq, hd.toRat_eq, val_div_val]
  exact ⟨floor_ratioAt hpos _, ratioAt_lt hpos _⟩

/-- A coarser quotient gets the larger term added before it is cut off. -/
theorem rounded_quotient_le {in1 out1 in2 out2 : STAmount} (hin1 : in1.Positive)
    (hout1 : out1.Positive) (hin2 : in2.Positive) (hout2 : out2.Positive)
    (hlt : in1.toRat / out1.toRat < in2.toRat / out2.toRat)
    (ho : rateOffset in1 out1 ≤ rateOffset in2 out2) :
    val (in1.operand.1 * tenTo17 / out1.operand.1 + 5) (rateOffset in1 out1) ≤
      val (in2.operand.1 * tenTo17 / out2.operand.1 + 5) (rateOffset in2 out2) := by
  obtain ⟨hle1, -⟩ := quotient_bounds hin1 hout1
  obtain ⟨-, hlt2⟩ := quotient_bounds hin2 hout2
  have hmid := (hle1.trans_lt hlt).trans hlt2
  generalize in1.operand.1 * tenTo17 / out1.operand.1 = q1 at *
  generalize in2.operand.1 * tenTo17 / out2.operand.1 = q2 at *
  obtain ⟨k, hk⟩ := Int.le.dest ho
  rw [← hk, ← val_mul_pow, val_lt_val_iff] at hmid
  rw [← hk, ← val_mul_pow, val_le_val_iff]
  have hpow : 1 ≤ 10 ^ k := Nat.one_le_pow _ _ (by norm_num)
  calc q1 + 5 ≤ (q2 + 1) * 10 ^ k + 4 * 10 ^ k := by omega
    _ = (q2 + 5) * 10 ^ k := by ring

theorem rate_accuracy (hn : num.Positive) (hd : den.Positive)
    (h : divide switchover num den noIssue = .ok r) (hr : iouFormat.Regular r.value r.offset) :
    num.toRat / den.toRat + 4 * (10 : ℚ) ^ rateOffset num den - (10 : ℚ) ^ r.offset < r.toRat ∧
      r.toRat ≤ num.toRat / den.toRat + 5 * (10 : ℚ) ^ rateOffset num den := by
  obtain ⟨ht, hneg, -, -⟩ := divide_spec hn hd h
  obtain ⟨hle, hlt⟩ := quotient_bounds hn hd
  obtain ⟨hz, -⟩ | ⟨-, hrle, hrlt⟩ := ht
  · exact absurd hz hr.pos.ne'
  rw [toRat_of_not_negative hneg, magnitude]
  generalize num.operand.1 * tenTo17 / den.operand.1 = q at *
  have hf : val (q + 5) (rateOffset num den) =
      val q (rateOffset num den) + 5 * (10 : ℚ) ^ rateOffset num den := by
    simp only [val]
    push_cast
    ring
  rw [hf] at hrle hrlt
  rw [val_succ] at hlt hrlt
  constructor <;> linarith

/-- Keys are ordered like the exact prices where the first quotient is not the coarser one; a
key decodes to the rate it was made from, which is close to the price, and keys are ordered like
the rates they decode to. -/
theorem offers_sorted (switchover : Bool) {in1 out1 in2 out2 : STAmount} (hin1 : in1.Positive)
    (hout1 : out1.Positive) (hin2 : in2.Positive) (hout2 : out2.Positive)
    (hrate1 : getRate switchover out1 in1 ≠ 0) (hrate2 : getRate switchover out2 in2 ≠ 0) :
    (in1.toRat / out1.toRat < in2.toRat / out2.toRat →
      rateOffset in1 out1 ≤ rateOffset in2 out2 →
      getRate switchover out1 in1 ≤ getRate switchover out2 in2) ∧
    ∃ r1 r2, divide switchover in1 out1 noIssue = .ok r1 ∧
      divide switchover in2 out2 noIssue = .ok r2 ∧
      amountFromQuality switchover (getRate switchover out1 in1) = .ok r1 ∧
      amountFromQuality switchover (getRate switchover out2 in2) = .ok r2 ∧
      (in1.toRat / out1.toRat + 4 * (10 : ℚ) ^ rateOffset in1 out1 - (10 : ℚ) ^ r1.offset <
        r1.toRat ∧ r1.toRat ≤ in1.toRat / out1.toRat + 5 * (10 : ℚ) ^ rateOffset in1 out1) ∧
      (getRate switchover out1 in1 ≤ getRate switchover out2 in2 ↔ r1.toRat ≤ r2.toRat) := by
  obtain ⟨r1, hdiv1, hreg1, hkey1⟩ := getRate_ne_zero hin1 hout1 hrate1
  obtain ⟨r2, hdiv2, hreg2, hkey2⟩ := getRate_ne_zero hin2 hout2 hrate2
  obtain ⟨htrunc1, hneg1, hissue1, hnative1⟩ := divide_spec hin1 hout1 hdiv1
  obtain ⟨htrunc2, hneg2, hissue2, hnative2⟩ := divide_spec hin2 hout2 hdiv2
  rw [hkey1, hkey2]
  refine ⟨?_, r1, r2, hdiv1, hdiv2, amountFromQuality_rateKey hreg1 hneg1 hissue1 hnative1,
    amountFromQuality_rateKey hreg2 hneg2 hissue2 hnative2,
    rate_accuracy hin1 hout1 hdiv1 hreg1, ?_⟩
  · intro hlt hoffset
    rw [rateKey_le_iff hreg1 hreg2]
    have hle := rounded_quotient_le hin1 hout1 hin2 hout2 hlt hoffset
    exact (htrunc2.isGreatest (val_nonneg _ _)).2
      ⟨⟨_, _, htrunc1.normal, rfl⟩, (htrunc1.val_le (val_nonneg _ _)).trans hle⟩
  · rw [rateKey_le_iff hreg1 hreg2, toRat_of_not_negative hneg1, toRat_of_not_negative hneg2]

theorem issuedAmount_positive {value : ℕ} {offset : ℤ} (h : iouFormat.Regular value offset) :
    (issuedAmount value offset).Positive :=
  ⟨issuedAmount_canonical h, h.pos.ne', rfl⟩

def one : STAmount := issuedAmount 1000000000000000 (-15)

def seven : STAmount := issuedAmount 7000000000000000 (-15)

def oneAndHalf : STAmount := issuedAmount 1500000000000000 (-15)

def overSevenths : STAmount := issuedAmount 2142857142857143 (-16)

theorem one_positive : one.Positive :=
  issuedAmount_positive ⟨by decide, by decide, by decide, by decide⟩

theorem seven_positive : seven.Positive :=
  issuedAmount_positive ⟨by decide, by decide, by decide, by decide⟩

theorem offers_sorted_sevenths :
    getRate true seven one ≠ 0 ∧ getRate true one seven ≠ 0 ∧
      getRate true seven one ≤ getRate true one seven := by
  have h1 : getRate true seven one ≠ 0 := by decide +kernel
  have h2 : getRate true one seven ≠ 0 := by decide +kernel
  refine ⟨h1, h2, ?_⟩
  apply (offers_sorted true one_positive seven_positive seven_positive one_positive h1 h2).1
  · norm_num [toRat, magnitude, val, one, seven, issuedAmount]
  · decide +kernel

/-- One for seven is the better price, but its quotient of 17 digits is rounded up, while the
other one of 18 digits is cut off. -/
theorem offers_not_sorted :
    one.Positive ∧ seven.Positive ∧ overSevenths.Positive ∧ oneAndHalf.Positive ∧
      one.toRat / seven.toRat < overSevenths.toRat / oneAndHalf.toRat ∧
      getRate true oneAndHalf overSevenths ≠ 0 ∧
      getRate true oneAndHalf overSevenths < getRate true seven one := by
  refine ⟨one_positive, seven_positive,
    issuedAmount_positive ⟨by decide, by decide, by decide, by decide⟩,
    issuedAmount_positive ⟨by decide, by decide, by decide, by decide⟩, ?_, by decide +kernel,
    by decide +kernel⟩
  norm_num [toRat, magnitude, val, one, seven, oneAndHalf, overSevenths, issuedAmount]

end STAmount

end Rippled
