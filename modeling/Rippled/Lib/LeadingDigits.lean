import Rippled.Lib.Decimal
import Mathlib.Data.Nat.Log

namespace Rippled.Lib.Decimal.Format

variable {f : Format} {m n : ℕ} {e k : ℤ} {x : ℚ}

/-- The number `x` cut off to the digits of a mantissa, whatever the exponent. -/
structure Leading (f : Format) (x : ℚ) (n : ℕ) (k : ℤ) : Prop where
  minMantissa_le : f.minMantissa ≤ n
  le_maxMantissa : n ≤ f.maxMantissa
  le : val n k ≤ x
  lt : x < val (n + 1) k

section

variable (h : f.Leading x n k)

include h

theorem Leading.val_min_le : val f.minMantissa k ≤ x :=
  ((val_le_val_iff k).mpr h.minMantissa_le).trans h.le

theorem Leading.lt_val_min : x < val f.minMantissa (k + 1) := by
  refine h.lt.trans_le ?_
  rw [← f.val_maxMantissa_succ]
  exact (val_le_val_iff k).mpr (Nat.succ_le_succ h.le_maxMantissa)

/-- The size of a number tells the exponent. -/
theorem Leading.exponent_lt_iff : k < e ↔ x < val f.minMantissa e := by
  constructor
  · intro hlt
    exact h.lt_val_min.trans_le (val_mono_exponent hlt _)
  · intro hlt
    by_contra! hle
    exact absurd (h.val_min_le.trans_lt hlt) (val_mono_exponent hle _).not_gt

theorem Leading.unique {n' : ℕ} {k' : ℤ} (h' : f.Leading x n' k') : n = n' ∧ k = k' := by
  have hk : k = k' := by
    refine le_antisymm ?_ ?_
    · exact Int.lt_add_one_iff.mp (h.exponent_lt_iff.mpr h'.lt_val_min)
    · exact Int.lt_add_one_iff.mp (h'.exponent_lt_iff.mpr h.lt_val_min)
  subst hk
  have hle := (val_lt_val_iff k).mp (h.le.trans_lt h'.lt)
  have hge := (val_lt_val_iff k).mp (h'.le.trans_lt h.lt)
  exact ⟨by omega, rfl⟩

end

theorem exists_leading (f : Format) (hm : 0 < m) (e : ℤ) : ∃ n k, f.Leading (val m e) n k := by
  have hlow := Nat.pow_log_le_self 10 hm.ne'
  have hh : m < 10 ^ (Nat.log 10 m + 1) := Nat.lt_pow_succ_log_self (by norm_num) m
  have hpos : 0 < 10 ^ Nat.log 10 m := by positivity
  have hmax := f.maxMantissa_eq
  have hs : val (m * 10 ^ f.digits) (e - f.digits) = val m e := by
    rw [val_mul_pow, sub_add_cancel]
  obtain ⟨hle, hlt⟩ := val_div_pow (m * 10 ^ f.digits) (Nat.log 10 m) (e - f.digits)
  rw [hs] at hle hlt
  refine ⟨_, _, ?_, ?_, hle, hlt⟩
  · rw [f.minMantissa_eq, Nat.le_div_iff_mul_le hpos, mul_comm]
    exact Nat.mul_le_mul_right _ hlow
  rw [← Nat.lt_succ_iff, Nat.succ_eq_add_one, hmax, f.minMantissa_eq, Nat.div_lt_iff_lt_mul hpos]
  calc m * 10 ^ f.digits < 10 ^ (Nat.log 10 m + 1) * 10 ^ f.digits :=
        Nat.mul_lt_mul_of_pos_right hh (by positivity)
    _ = 10 * 10 ^ f.digits * 10 ^ Nat.log 10 m := by rw [pow_succ]; ring

theorem shrink_error {o : Overflow} (j : ℕ) (h : f.shrink j m e = .error o) :
    val f.minMantissa (f.maxExponent + 1) ≤ val m e := by
  induction j generalizing m e with
  | zero => cases h
  | succ j ih =>
    rw [shrink] at h
    split at h
    · next hl =>
      split at h
      · next hexp =>
        rw [← f.val_maxMantissa_succ]
        exact ((val_le_val_iff _).mpr hl).trans (val_mono_exponent hexp m)
      · have hcut := (val_div_pow m 1 e).1
        rw [pow_one, Nat.cast_one] at hcut
        exact (ih h).trans hcut
    · cases h

theorem normalize_error {o : Overflow} (h : f.normalize m e = .error o) :
    val f.minMantissa (f.maxExponent + 1) ≤ val m e := by
  rw [normalize] at h
  split at h
  · cases h
  · next hz =>
    have hf : f.minMantissa ≤ m * 10 ^ f.digits := by
      rw [f.minMantissa_eq]
      exact Nat.le_mul_of_pos_left _ (Nat.pos_of_ne_zero hz)
    obtain ⟨j, hg, -, -⟩ := f.grow_spec (e := e) f.digits hf
    have hsa : val (m * 10 ^ j) (e - j) = val m e := by rw [val_mul_pow, sub_add_cancel]
    simp only [hg] at h
    rw [← hsa]
    cases hs : f.shrink ((m * 10 ^ j).log2 + 1) (m * 10 ^ j) (e - j) with
    | error o => exact f.shrink_error _ hs
    | ok r =>
      obtain ⟨m₁, e₁⟩ := r
      rw [hs, Except.bind, settle] at h
      obtain ⟨i, rfl, rfl, -, -⟩ := f.shrink_spec _ Nat.lt_log2_self hs
      split at h
      · cases h
      · next hsm =>
        split at h
        · next hexp =>
          rw [not_or, not_lt, not_lt] at hsm
          calc val f.minMantissa (f.maxExponent + 1)
              ≤ val f.minMantissa (e - j + i) := val_mono_exponent (by omega) _
            _ ≤ val (m * 10 ^ j / 10 ^ i) (e - j + i) := (val_le_val_iff _).mpr hsm.2
            _ ≤ val (m * 10 ^ j) (e - j) := (val_div_pow _ i _).1
        · cases h

theorem Truncates.lt_overflow (h : f.Truncates x m e) (hf : f.minExponent ≤ f.maxExponent) :
    x < val f.minMantissa (f.maxExponent + 1) := by
  obtain ⟨-, -, hlt⟩ | ⟨hreg, hle, hlt⟩ := h
  · exact hlt.trans_le (val_mono_exponent (by omega) _)
  · have hl : f.Leading x m e := ⟨hreg.1, hreg.2, hle, hlt⟩
    exact hl.exponent_lt_iff.mp (Int.lt_add_one_iff.mpr hreg.4)

/-- A number overflows exactly if its leading digits are larger than the largest number. -/
theorem normalize_isError_iff (hf : f.minExponent ≤ f.maxExponent) :
    (∃ o, f.normalize m e = .error o) ↔ val f.minMantissa (f.maxExponent + 1) ≤ val m e := by
  cases hn : f.normalize m e with
  | error o => exact iff_of_true ⟨o, rfl⟩ (normalize_error hn)
  | ok r =>
    have hlt := (normalize_truncates hn).lt_overflow hf
    exact iff_of_false (fun ⟨o, ho⟩ => by cases ho) hlt.not_ge

theorem Truncates.unique {n : ℕ} {k : ℤ} (h : f.Truncates x m e) (h' : f.Truncates x n k) :
    m = n ∧ e = k := by
  have hl : ∀ {n k}, f.Regular n k → val n k ≤ x → val f.minMantissa f.minExponent ≤ x :=
    fun hreg hle => (f.val_min_le (.inr hreg) (val_pos hreg.pos _)).trans hle
  obtain ⟨hm, he, hlt⟩ | ⟨hreg, hle, hlt⟩ := h
  · obtain ⟨hn, hk, -⟩ | ⟨hreg', hle', -⟩ := h'
    · exact ⟨hm.trans hn.symm, he.trans hk.symm⟩
    · exact absurd hlt (hl hreg' hle').not_gt
  obtain ⟨-, -, hlt'⟩ | ⟨hreg', hle', hlt'⟩ := h'
  · exact absurd hlt' (hl hreg hle).not_gt
  · have hld : f.Leading x m e := ⟨hreg.1, hreg.2, hle, hlt⟩
    exact hld.unique ⟨hreg'.1, hreg'.2, hle', hlt'⟩

/-- Normal numbers are left as they are. -/
theorem normalize_normal (h : f.Normal m e) : f.normalize m e = .ok (m, e) := by
  obtain ⟨rfl, rfl⟩ | hreg := h
  · rw [normalize, if_pos rfl]
  have hg : ∀ j, f.grow j m e = (m, e) := by
    rintro (_ | j)
    · rfl
    · rw [grow, if_neg (fun hs => absurd hreg.1 hs.1.not_ge)]
  have hsh : ∀ j, f.shrink j m e = .ok (m, e) := by
    rintro (_ | j)
    · rfl
    · rw [shrink, if_neg hreg.2.not_gt]
  rw [normalize, if_neg hreg.pos.ne']
  simp only [hg, hsh, Except.bind]
  rw [settle, if_neg (not_or.mpr ⟨hreg.3.not_gt, hreg.1.not_gt⟩), if_neg hreg.4.not_gt]

/-- A normal number is what any of its other forms is brought into. -/
theorem normalize_of_val_eq (hf : f.minExponent ≤ f.maxExponent) (h : f.Normal m e)
    (hval : val n k = val m e) : f.normalize n k = .ok (m, e) := by
  have ht := normalize_truncates (normalize_normal h)
  cases hn : f.normalize n k with
  | error o =>
    have ho := (normalize_isError_iff hf).mp ⟨o, hn⟩
    rw [hval] at ho
    exact absurd (ht.lt_overflow hf) ho.not_gt
  | ok r =>
    have ht' := normalize_truncates hn
    rw [hval] at ht'
    obtain ⟨hm, he⟩ := ht'.unique ht
    rw [← hm, ← he]

end Rippled.Lib.Decimal.Format
