import Rippled.Basics.RoundedArith
import Rippled.Lib.Except

namespace Rippled.STAmount

open Lib Decimal

theorem toRat_mul (a b : STAmount) : a.toRat * b.toRat =
      if a.isNegative != b.isNegative then -(a.magnitude * b.magnitude)
      else a.magnitude * b.magnitude := by
  rw [toRat, toRat]
  cases a.isNegative <;> cases b.isNegative <;> simp

theorem toRat_div (a b : STAmount) : a.toRat / b.toRat =
      if a.isNegative != b.isNegative then -(a.magnitude / b.magnitude)
      else a.magnitude / b.magnitude := by
  rw [toRat, toRat]
  cases a.isNegative <;> cases b.isNegative <;> simp [neg_div, div_neg]

theorem val_mul_val (a b : ℕ) (i j : ℤ) :
    val a i * val b j = ratioAt (a * b) tenTo14 (i + j + 14) := by
  have h14 : ((tenTo14 : ℕ) : ℚ) = (10 : ℚ) ^ (14 : ℤ) := by norm_num [tenTo14]
  rw [val, val, ratioAt, h14, zpow_add₀ (by norm_num) _ 14, zpow_add₀ (by norm_num)]
  push_cast
  field_simp

theorem val_div_val (a b : ℕ) (i j : ℤ) :
    val a i / val b j = ratioAt (a * tenTo17) b (i - j - 17) := by
  have h17 : ((tenTo17 : ℕ) : ℚ) = (10 : ℚ) ^ (17 : ℤ) := by norm_num [tenTo17]
  rw [val, val, ratioAt, Nat.cast_mul, h17, zpow_sub₀ (by norm_num) _ 17, zpow_sub₀ (by norm_num)]
  field_simp

theorem uint64_of_nonneg {z : ℤ} (h : 0 ≤ z) (hlt : z < 2 ^ 64) : uint64 z = z.toNat := by
  rw [uint64, Int.emod_eq_of_lt h hlt]

theorem uint64_of_neg {z : ℤ} (h : z < 0) (hge : -(2 ^ 63) ≤ z) : 2 ^ 63 ≤ uint64 z := by
  rw [uint64]
  omega

theorem mul_lt_of_checks {a b : ℕ} (hle : a ≤ b)
    (hp : b / 2 ^ 32 * a ≤ 2095475792) : a * b < 2 ^ 64 := by
  have hb : b < (b / 2 ^ 32 + 1) * 2 ^ 32 := by omega
  have hmul : a * b ≤ a * ((b / 2 ^ 32 + 1) * 2 ^ 32) := Nat.mul_le_mul_left _ hb.le
  have hs : a * ((b / 2 ^ 32 + 1) * 2 ^ 32) = (b / 2 ^ 32 * a + a) * 2 ^ 32 := by ring
  rw [hs] at hmul
  obtain hz | hpos := Nat.eq_zero_or_pos (b / 2 ^ 32)
  · have : b / 2 ^ 32 * a = 0 := by rw [hz, zero_mul]
    omega
  · have : a ≤ b / 2 ^ 32 * a := Nat.le_mul_of_pos_left a hpos
    omega

theorem toRat_native {a : STAmount} (ha : a.Canonical) (hn : a.isNative) : a.toRat = a.xrp := by
  rw [toRat, magnitude, (ha.native hn).1, val, zpow_zero, mul_one, xrp]
  split <;> simp

theorem xrp_bounds {a : STAmount} (ha : a.Canonical) (hn : a.isNative) :
    -(10 ^ 17) ≤ a.xrp ∧ a.xrp ≤ 10 ^ 17 := by
  have hle : a.value ≤ 100000000000000000 := (ha.native hn).2
  rw [xrp]
  split <;> constructor <;> omega

variable {r : STAmount}

theorem mulNative_exact {v1 v2 : STAmount} (h1 : v1.Canonical) (h2 : v2.Canonical)
    (hn1 : v1.isNative) (hn2 : v2.isNative) (h : mulNative v1 v2 = .ok r) :
    r.toRat = v1.toRat * v2.toRat := by
  obtain ⟨hlow1, hh1⟩ := xrp_bounds h1 hn1
  obtain ⟨hlow2, hh2⟩ := xrp_bounds h2 hn2
  rw [toRat_native h1 hn1, toRat_native h2 hn2]
  rw [mulNative] at h
  generalize hlo : (if v1.xrp < v2.xrp then v1.xrp else v2.xrp) = lo at h
  generalize hhi : (if v1.xrp < v2.xrp then v2.xrp else v1.xrp) = hi at h
  have hmul : (v1.xrp : ℚ) * v2.xrp = lo * hi := by
    rw [← hlo, ← hhi]
    split
    · rfl
    · exact mul_comm _ _
  have hle : lo ≤ hi ∧ -(10 ^ 17) ≤ lo ∧ hi ≤ 10 ^ 17 := by
    rw [← hlo, ← hhi]
    split <;> omega
  rw [hmul]
  split at h
  · cases h
  · next hmin =>
    have hnn : 0 ≤ lo := by
      by_contra! hneg
      have := uint64_of_neg hneg (by omega)
      omega
    obtain ⟨a, rfl⟩ := Int.eq_ofNat_of_zero_le hnn
    obtain ⟨b, rfl⟩ := Int.eq_ofNat_of_zero_le (hnn.trans hle.1)
    rw [uint64_of_nonneg hnn (by omega), Int.toNat_natCast] at h hmin
    rw [uint64_of_nonneg (hnn.trans hle.1) (by omega), Int.toNat_natCast] at h
    split at h
    · cases h
    · next hp =>
      cases h
      have hs : b / 2 ^ 32 * a < 2 ^ 64 := calc
        b / 2 ^ 32 * a ≤ 10 ^ 17 / 2 ^ 32 * 3000000000 := Nat.mul_le_mul (by omega) (by omega)
        _ < 2 ^ 64 := by norm_num
      rw [Nat.mod_eq_of_lt hs] at hp
      have hfit := mul_lt_of_checks (by omega) (not_lt.mp hp)
      rw [toRat, if_neg (by simp), magnitude, val, Nat.mod_eq_of_lt hfit]
      simp

variable {switchover roundUp : Bool} {issue : Issue}

theorem make_zero_directed (h : make switchover issue 0 0 false = .ok r) :
    Directed roundUp 0 r := by
  have hz : r.value = 0 := by
    cases hxrp : isXRP issue with
    | false =>
      have ht := make_issued hxrp h
      rw [val_zero] at ht
      exact ht.eq_zero
    | true =>
      obtain ⟨-, hv, -⟩ := make_native hxrp (by norm_num) h
      rw [hv, drops]
      simp
  have hrat : r.toRat = 0 := by
    rw [toRat, magnitude, hz, val_zero]
    simp
  rw [Directed, hrat]
  simp

/-- The products that are rounded in the requested direction. -/
def MulSound (switchover : Bool) (v1 v2 : STAmount) (issue : Issue) (roundUp : Bool) : Prop :=
  v1.value = 0 ∨ v2.value = 0 ∨
    (v1.isNative ∧ v2.isNative ∧ isXRP issue) ∨
    (v1.isNegative != v2.isNegative) = roundUp ∨
    Sound switchover (isXRP issue) (v1.isNegative != v2.isNegative)
      ((v1.widened.1 * v2.widened.1 + (tenTo14 - 1)) / tenTo14) (v1.widened.2 + v2.widened.2 + 14)

/-- The quotients that are rounded in the requested direction. -/
def DivSound (switchover : Bool) (num den : STAmount) (issue : Issue) (roundUp : Bool) : Prop :=
  num.value = 0 ∨ (num.isNegative != den.isNegative) = roundUp ∨
    Sound switchover (isXRP issue) (num.isNegative != den.isNegative)
      ((num.widened.1 * tenTo17 + (den.widened.1 - 1)) / den.widened.1)
      (num.widened.2 - den.widened.2 - 17)

theorem mulRound_directed_iff {v1 v2 : STAmount} (h1 : v1.Canonical) (h2 : v2.Canonical)
    (h : mulRound switchover v1 v2 issue roundUp = .ok r) :
    Directed roundUp (v1.toRat * v2.toRat) r ↔ MulSound switchover v1 v2 issue roundUp := by
  rw [mulRound] at h
  split at h
  · next hzr =>
    have hp : v1.toRat * v2.toRat = 0 := by
      rw [toRat_mul, magnitude, magnitude]
      obtain hz | hz := hzr <;> simp [hz]
    rw [hp]
    exact iff_of_true (make_zero_directed h) (hzr.imp_right .inl)
  · next hzr =>
    rw [not_or] at hzr
    split at h
    · next hnt =>
      simp only [Bool.and_eq_true, and_assoc] at hnt
      have he := mulNative_exact h1 h2 hnt.1 hnt.2.1 h
      refine iff_of_true ?_ (.inr (.inr (.inl hnt)))
      rw [Directed, he]
      simp
    · next hnt =>
      simp only [Bool.and_eq_true, and_assoc] at hnt
      obtain ⟨hval1, hmin1, hmax1, hi1⟩ := operand_spec h1 hzr.1
      obtain ⟨hval2, hmin2, hmax2, hi2⟩ := operand_spec h2 hzr.2
      rw [MulSound, or_iff_right hzr.1, or_iff_right hzr.2, or_iff_right hnt, toRat_mul,
        ← operand_eq h1 hzr.1, ← operand_eq h2 hzr.2, ← hval1, ← hval2, val_mul_val]
      obtain ⟨amount, ha, hf⟩ := bind_eq_ok h
      rw [show tenTo14m1 = tenTo14 - 1 from rfl] at ha
      have hlow := Nat.mul_le_mul hmin1 hmin2
      have hh : isXRP issue → v1.operand.1 * v2.operand.1 ≤ 10 ^ 17 * 10 ^ 16 := by
        intro hxrp
        cases hn1 : v1.isNative with
        | false =>
          rw [mul_comm (10 ^ 17)]
          exact Nat.mul_le_mul (hi1 hn1).le hmax2
        | true =>
          have hn2 : v2.isNative = false := by
            by_contra hn2
            exact hnt ⟨hn1, by simpa using hn2, hxrp⟩
          exact Nat.mul_le_mul hmax1 (hi2 hn2).le
      refine finish_directed (by decide) rfl ?_ ?_ ha hf
      · exact le_trans (by decide) hlow
      · exact fun hxrp => (hh hxrp).trans (by decide)

theorem divRound_directed_iff {num den : STAmount} (h1 : num.Canonical) (h2 : den.Canonical)
    (h : divRound switchover num den issue roundUp = .ok r) :
    Directed roundUp (num.toRat / den.toRat) r ↔ DivSound switchover num den issue roundUp := by
  rw [divRound] at h
  split at h
  · cases h
  · next hden =>
    split at h
    · next hz =>
      have hq : num.toRat / den.toRat = 0 := by
        rw [toRat_div, magnitude, hz]
        simp
      rw [hq]
      exact iff_of_true (make_zero_directed h) (.inl hz)
    · next hz =>
      obtain ⟨hval1, hmin1, hmax1, -⟩ := operand_spec h1 hz
      obtain ⟨hval2, hmin2, hmax2, -⟩ := operand_spec h2 hden
      rw [DivSound, or_iff_right hz, toRat_div, ← operand_eq h1 hz, ← operand_eq h2 hden,
        ← hval1, ← hval2, val_div_val]
      obtain ⟨amount, ha, hf⟩ := bind_eq_ok h
      have hpos : 0 < den.operand.1 := by omega
      refine finish_directed hpos rfl ?_ ?_ ha hf
      · change 2 * den.operand.1 ≤ num.operand.1 * 100000000000000000
        omega
      · intro
        change num.operand.1 * 100000000000000000 ≤ 10 ^ 19 * den.operand.1
        omega

/-- Rounded products and quotients lie on the requested side of the exact number for the sound
operands and no others. -/
theorem rounded_directed_iff (switchover roundUp : Bool) (v1 v2 r : STAmount) (issue : Issue)
    (h1 : v1.Canonical) (h2 : v2.Canonical) :
    (mulRound switchover v1 v2 issue roundUp = .ok r →
      (Directed roundUp (v1.toRat * v2.toRat) r ↔ MulSound switchover v1 v2 issue roundUp)) ∧
    (divRound switchover v1 v2 issue roundUp = .ok r →
      (Directed roundUp (v1.toRat / v2.toRat) r ↔ DivSound switchover v1 v2 issue roundUp)) :=
  ⟨mulRound_directed_iff h1 h2, divRound_directed_iff h1 h2⟩

def issuedAmount (value : ℕ) (offset : ℤ) : STAmount :=
  { issue := someIssue, value := value, offset := offset, isNative := false, isNegative := false }

theorem issuedAmount_canonical {value : ℕ} {offset : ℤ} (h : iouFormat.Regular value offset) :
    (issuedAmount value offset).Canonical where
  isNative_eq := by
    change false = isXRP someIssue
    decide
  native := by simp [issuedAmount]
  issued := fun _ => .inr h
  zero := fun _ => rfl

def three : STAmount := issuedAmount 3000000000000000 (-15)

def twoThirds : STAmount := issuedAmount 6666666666666666 (-16)

theorem rounded_directed_iff_thirds :
    mulRound true three twoThirds someIssue false = .ok (issuedAmount 1999999999999999 (-15)) ∧
      Directed false (three.toRat * twoThirds.toRat) (issuedAmount 1999999999999999 (-15)) ∧
      divRound true twoThirds three someIssue false = .ok (issuedAmount 2222222222222222 (-16)) ∧
      Directed false (twoThirds.toRat / three.toRat) (issuedAmount 2222222222222222 (-16)) := by
  have hthree : three.Canonical :=
    issuedAmount_canonical ⟨by decide, by decide, by decide, by decide⟩
  have hthirds : twoThirds.Canonical :=
    issuedAmount_canonical ⟨by decide, by decide, by decide, by decide⟩
  have hmul : mulRound true three twoThirds someIssue false =
      .ok (issuedAmount 1999999999999999 (-15)) := by rfl
  have hdiv : divRound true twoThirds three someIssue false =
      .ok (issuedAmount 2222222222222222 (-16)) := by decide +kernel
  refine ⟨hmul, ?_, hdiv, ?_⟩
  · apply ((rounded_directed_iff _ _ _ _ _ _ hthree hthirds).1 hmul).mpr
    exact .inr (.inr (.inr (.inl rfl)))
  · apply ((rounded_directed_iff _ _ _ _ _ _ hthirds hthree).2 hdiv).mpr
    exact .inr (.inl rfl)

def overFive : STAmount := issuedAmount 5000000000000001 (-15)

/-- The square of `5.000000000000001` rounded up: the digits after `25.00000000000001` are cut
off first, and the last digit kept is then left as it is. -/
theorem mulRound_square_below :
    overFive.Canonical ∧
      mulRound true overFive overFive someIssue true = .ok (issuedAmount 2500000000000001 (-14)) ∧
      ¬Directed true (overFive.toRat * overFive.toRat) (issuedAmount 2500000000000001 (-14)) := by
  refine ⟨issuedAmount_canonical ⟨by decide, by decide, by decide, by decide⟩, by rfl, ?_⟩
  norm_num [Directed, toRat, magnitude, overFive, issuedAmount, val]

end Rippled.STAmount
