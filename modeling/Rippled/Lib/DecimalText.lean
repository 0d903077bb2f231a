import Mathlib.Data.List.DropRight
import Mathlib.Tactic.Ring

namespace Rippled.Lib.DecimalText

open List

variable {s t : List Char} {k n : ℕ}

section

variable (s : List Char)

def natOf : ℕ := s.foldl (fun v c => v * 10 + (c.toNat - 48)) 0

def AllDigits : Prop := ∀ c ∈ s, c.isDigit

theorem foldl_digits (v : ℕ) :
    s.foldl (fun v c => v * 10 + (c.toNat - 48)) v = v * 10 ^ s.length + natOf s := by
  induction s generalizing v with
  | nil => simp [natOf]
  | cons c s ih =>
    rw [natOf, foldl_cons, foldl_cons, ih, ih (0 * 10 + (c.toNat - 48)),
      length_cons, pow_succ]
    ring

theorem natOf_append (s t : List Char) : natOf (s ++ t) = natOf s * 10 ^ t.length + natOf t := by
  rw [natOf, foldl_append, foldl_digits t]
  rfl

@[simp] theorem natOf_nil : natOf [] = 0 := rfl

theorem natOf_singleton (c : Char) : natOf [c] = c.toNat - 48 := by simp [natOf]

theorem natOf_cons_zero : natOf ('0' :: s) = natOf s := by
  simp [natOf]

theorem natOf_replicate_zero (k : ℕ) : natOf (List.replicate k '0') = 0 := by
  induction k with
  | zero => rfl
  | succ k ih => rw [replicate_succ, natOf_cons_zero, ih]

theorem natOf_toDigits (n : ℕ) : natOf (Nat.toDigits 10 n) = n := by
  induction n using Nat.strong_induction_on with
  | h n ih =>
    rw [Nat.toDigits_eq_if (by decide)]
    split
    · next hlt =>
      rw [natOf_singleton, Nat.toNat_digitChar_of_lt_ten hlt]
      omega
    · next hge =>
      rw [natOf_append, ih (n / 10) (by omega), natOf_singleton,
        Nat.toNat_digitChar_of_lt_ten (by omega), length_singleton]
      omega

theorem allDigits_toDigits (n : ℕ) : AllDigits (Nat.toDigits 10 n) :=
  fun _ hc => Nat.isDigit_of_mem_toDigits (by decide) (by decide) hc

theorem length_toDigits (hlow : 10 ^ k ≤ n) (hh : n < 10 ^ (k + 1)) :
    (Nat.toDigits 10 n).length = k + 1 := by
  apply le_antisymm
  · exact (Nat.length_toDigits_le_iff (by decide) k.succ_pos).mpr hh
  obtain rfl | hk := Nat.eq_zero_or_pos k
  · exact Nat.length_toDigits_pos
  · by_contra! hlt
    have := (Nat.length_toDigits_le_iff (n := n) (b := 10) (by decide) hk).mp (by omega)
    omega

theorem head_toDigits_ne_zero (hn : 0 < n) (c : Char) (hc : (Nat.toDigits 10 n).head? = some c) :
    c ≠ '0' := by
  induction n using Nat.strong_induction_on with
  | h n ih =>
    rw [Nat.toDigits_eq_if (by decide)] at hc
    split at hc
    · next hlt =>
      obtain rfl : n.digitChar = c := by simpa using hc
      intro hz
      have := Nat.toNat_digitChar_of_lt_ten hlt
      rw [hz] at this
      change 48 = _ at this
      omega
    · next hge =>
      have hne : Nat.toDigits 10 (n / 10) ≠ [] :=
        ne_nil_of_length_pos Nat.length_toDigits_pos
      rw [head?_append_of_ne_nil _ hne] at hc
      exact ih (n / 10) (by omega) (by omega) hc

/-- Zeros at the front do not count. -/
theorem natOf_dropWhile_zero : natOf (s.dropWhile (· == '0')) = natOf s := by
  induction s with
  | nil => rfl
  | cons c s ih =>
    by_cases hc : c = '0'
    · rw [dropWhile_cons_of_pos (by simpa using hc), ih, hc, natOf_cons_zero]
    · rw [dropWhile_cons_of_neg (by simpa using hc)]

/-- Zeros at the end are factors of ten. -/
theorem exists_rdropWhile_zero : ∃ k, s = s.rdropWhile (· == '0') ++ List.replicate k '0' := by
  refine ⟨(s.rtakeWhile (· == '0')).length, ?_⟩
  have hz : s.rtakeWhile (· == '0') = List.replicate (s.rtakeWhile (· == '0')).length '0' := by
    apply eq_replicate_of_mem
    intro c hc
    simpa using mem_rtakeWhile_imp hc
  rw [← hz]
  exact (rdropWhile_append_rtakeWhile (p := (· == '0')) (l := s)).symm

theorem dropWhile_zeros_append (k : ℕ) (s : List Char) :
    (List.replicate k '0' ++ s).dropWhile (· == '0') = s.dropWhile (· == '0') := by
  rw [dropWhile_append, dropWhile_replicate]
  rfl

theorem rdropWhile_append_zeros (k : ℕ) :
    (s ++ List.replicate k '0').rdropWhile (· == '0') = s.rdropWhile (· == '0') := by
  induction k with
  | zero => rw [replicate_zero, append_nil]
  | succ k ih =>
    rw [replicate_succ', ← append_assoc, rdropWhile_concat_pos _ _ _ (by decide), ih]

end

theorem head_dropWhile_ne_zero {c : Char} (h : (s.dropWhile (· == '0')).head? = some c) :
    c ≠ '0' := by
  have hnot := head?_dropWhile_not (· == '0') s
  rw [h] at hnot
  simpa using hnot

/-- A span of digits ends where the rest starts with another character. -/
theorem takeWhile_digits (hs : AllDigits s) (ht : ∀ c, t.head? = some c → c.isDigit = false) :
    (s ++ t).takeWhile Char.isDigit = s ∧ (s ++ t).dropWhile Char.isDigit = t := by
  induction s with
  | nil =>
    cases t with
    | nil => exact ⟨rfl, rfl⟩
    | cons c t =>
      have hc := ht c rfl
      exact ⟨by simp [hc], by simp [hc]⟩
  | cons c s ih =>
    have hc : c.isDigit := hs c (mem_cons_self ..)
    obtain ⟨htk, hdr⟩ := ih (fun d hd => hs d (mem_cons_of_mem _ hd))
    rw [cons_append, takeWhile_cons_of_pos hc, dropWhile_cons_of_pos hc]
    exact ⟨congrArg (c :: ·) htk, hdr⟩

/-- Reading digits from the left while the number stays below a limit. -/
def parsePositive (limit : ℕ) : ℕ → List Char → Option ℕ
  | v, [] => some v
  | v, c :: s =>
    if !c.isDigit then none
    else if limit / 10 < v ∨ v = limit / 10 ∧ limit % 10 < c.toNat - 48 then none
    else parsePositive limit (v * 10 + (c.toNat - 48)) s

theorem toNat_sub_le {c : Char} (h : c.isDigit) : c.toNat - 48 ≤ 9 := by
  have h9 : c ≤ '9' := by
    simp only [Char.isDigit, ge_iff_le, Bool.and_eq_true, decide_eq_true_eq] at h
    exact h.2
  have : c.toNat ≤ 57 := h9
  omega

theorem parsePositive_eq (limit : ℕ) {v : ℕ} (hs : AllDigits s) (hv : v ≤ limit) :
    parsePositive limit v s =
      if v * 10 ^ s.length + natOf s ≤ limit then some (v * 10 ^ s.length + natOf s) else none := by
  induction s generalizing v with
  | nil => simp [parsePositive, hv]
  | cons c s ih =>
    have hc : c.isDigit := hs c (mem_cons_self ..)
    have hdg := toNat_sub_le hc
    have hn : (v * 10 + (c.toNat - 48)) * 10 ^ s.length + natOf s =
        v * 10 ^ (c :: s).length + natOf (c :: s) := by
      rw [show c :: s = [c] ++ s from rfl, natOf_append, natOf_singleton, length_append,
        length_singleton, pow_add]
      ring
    rw [parsePositive, if_neg (by simp [hc])]
    split
    · next hl =>
      have ho : limit < v * 10 + (c.toNat - 48) := by omega
      have hpow : 1 ≤ 10 ^ s.length := Nat.one_le_pow _ _ (by norm_num)
      rw [if_neg]
      rw [← hn, not_le]
      calc limit < v * 10 + (c.toNat - 48) := ho
        _ ≤ (v * 10 + (c.toNat - 48)) * 10 ^ s.length := Nat.le_mul_of_pos_right _ hpow
        _ ≤ _ := Nat.le_add_right _ _
    · next hsm =>
      rw [ih (fun d hd => hs d (mem_cons_of_mem _ hd)) (by omega), hn]

end Rippled.Lib.DecimalText
