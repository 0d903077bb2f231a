import Rippled.Basics.Addition
import Rippled.Basics.AmountText

namespace Rippled

open Lib Decimal DecimalText List

def integerText (z : ℤ) : List Char :=
  if z < 0 then '-' :: Nat.toDigits 10 z.natAbs else Nat.toDigits 10 z.natAbs

def scientific (offset : ℤ) : Bool := offset ≠ 0 ∧ (offset < -25 ∨ -5 < offset)

/-- The digits with a point between them: zeros are put around the digits, the point is
placed, and the zeros that do not count are cropped. -/
def plainText (mantissa : ℕ) (exponent : ℤ) : List Char :=
  let val := List.replicate 27 '0' ++ (Nat.toDigits 10 mantissa ++ List.replicate 23 '0')
  let pre := val.take (exponent + 43).toNat
  let post := val.drop (exponent + 43).toNat
  let pre := (if 27 < pre.length then pre.drop 27 else pre).dropWhile (· == '0')
  let post := (if 23 < post.length then post.take (post.length - 23) else post).rdropWhile (· == '0')
  (if pre = [] then ['0'] else pre) ++ if post = [] then [] else '.' :: post

def STAmount.getText (a : STAmount) : List Char :=
  if a.value = 0 then ['0']
  else
    (if a.isNegative then ['-'] else []) ++
      if a.isNative || scientific a.offset then
        Nat.toDigits 10 a.value ++ if scientific a.offset then 'e' :: integerText a.offset else []
      else plainText a.value a.offset

def IOUAmount.toText (a : IOUAmount) : List Char :=
  if a.mantissa = 0 then ['0']
  else if scientific a.exponent then integerText a.mantissa ++ 'e' :: integerText a.exponent
  else (if a.mantissa < 0 then ['-'] else []) ++ plainText a.mantissa.natAbs a.exponent

variable {v : ℕ} {e : ℤ}

section

variable (v e)

def plainInteger : List Char :=
  ((Nat.toDigits 10 v).take ((e + 43).toNat - 27)).dropWhile (· == '0')

def plainRest : List Char :=
  List.replicate (27 - (e + 43).toNat) '0' ++ (Nat.toDigits 10 v).drop ((e + 43).toNat - 27)

def plainFraction : List Char := (plainRest v e).rdropWhile (· == '0')

end

section

variable (hlen : (Nat.toDigits 10 v).length = 16)

include hlen

theorem plain_take (he : e ≤ 0) :
    (List.replicate 27 '0' ++ (Nat.toDigits 10 v ++ List.replicate 23 '0')).take (e + 43).toNat =
      List.replicate (min (e + 43).toNat 27) '0' ++
        (Nat.toDigits 10 v).take ((e + 43).toNat - 27) := by
  rw [take_append, take_replicate, length_replicate,
    take_append_of_le_length (by omega)]

theorem plain_drop (he : e ≤ 0) :
    (List.replicate 27 '0' ++ (Nat.toDigits 10 v ++ List.replicate 23 '0')).drop (e + 43).toNat =
      plainRest v e ++ List.replicate 23 '0' := by
  rw [drop_append, drop_replicate, length_replicate,
    drop_append_of_le_length (by omega), ← append_assoc, plainRest]

theorem plainText_eq (he : e ≤ 0) : plainText v e =
      (if plainInteger v e = [] then ['0'] else plainInteger v e) ++
        if plainFraction v e = [] then [] else '.' :: plainFraction v e := by
  have hpre : ∀ p, ∀ s : List Char, s.length ≤ p - 27 →
      (if 27 < (List.replicate (min p 27) '0' ++ s).length then
          (List.replicate (min p 27) '0' ++ s).drop 27
        else List.replicate (min p 27) '0' ++ s).dropWhile (· == '0') =
      s.dropWhile (· == '0') := by
    intro p s hs
    split
    · next hl =>
      rw [length_append, length_replicate] at hl
      rw [show min p 27 = 27 by omega, drop_left' (length_replicate ..)]
    · exact dropWhile_zeros_append _ s
  have hp : ∀ s : List Char, (if 23 < (s ++ List.replicate 23 '0').length then
          (s ++ List.replicate 23 '0').take ((s ++ List.replicate 23 '0').length - 23)
        else s ++ List.replicate 23 '0').rdropWhile (· == '0') = s.rdropWhile (· == '0') := by
    intro s
    split
    · rw [length_append, length_replicate, Nat.add_sub_cancel, take_left]
    · exact rdropWhile_append_zeros s 23
  rw [plainText, plain_take hlen he, plain_drop hlen he]
  simp only [hpre _ _ (length_take_le _ _), hp]
  rfl

variable (he : -25 ≤ e) (he' : e ≤ 0)

include he he'

theorem length_plainRest : (plainRest v e).length = (-e).toNat := by
  rw [plainRest, length_append, length_replicate, length_drop, hlen]
  omega

theorem natOf_plain :
    natOf (plainInteger v e) * 10 ^ (plainRest v e).length + natOf (plainRest v e) = v := by
  have hr : natOf (plainRest v e) = natOf ((Nat.toDigits 10 v).drop ((e + 43).toNat - 27)) := by
    rw [plainRest, natOf_append, natOf_replicate_zero, zero_mul, zero_add]
  rw [length_plainRest hlen he he', plainInteger, natOf_dropWhile_zero, hr]
  obtain hs | hl := Nat.lt_or_ge 27 (e + 43).toNat
  · have hd : ((Nat.toDigits 10 v).drop ((e + 43).toNat - 27)).length = (-e).toNat := by
      rw [length_drop, hlen]
      omega
    rw [← hd, ← natOf_append, take_append_drop, natOf_toDigits]
  · rw [Nat.sub_eq_zero_of_le hl, take_zero, natOf_nil, zero_mul, zero_add,
      drop_zero, natOf_toDigits]

end

section

variable (v e)

theorem allDigits_plainInteger : AllDigits (plainInteger v e) := by
  intro c hc
  apply allDigits_toDigits v
  exact mem_of_mem_take ((dropWhile_suffix _).subset hc)

theorem allDigits_plainRest : AllDigits (plainRest v e) := by
  intro c hc
  obtain hz | hd := mem_append.mp hc
  · rw [eq_of_mem_replicate hz]
    rfl
  · exact allDigits_toDigits v c (mem_of_mem_drop hd)

theorem allDigits_plainFraction : AllDigits (plainFraction v e) :=
  fun c hc => allDigits_plainRest v e c (( rdropWhile_prefix _ _).subset hc)

end

theorem length_plainFraction_le (hlen : (Nat.toDigits 10 v).length = 16) (he : -25 ≤ e)
    (he' : e ≤ 0) : (plainFraction v e).length ≤ (-e).toNat := by
  rw [← length_plainRest hlen he he']
  exact ( rdropWhile_prefix _ _).length_le

theorem length_plainInteger_le (v : ℕ) (e : ℤ) : (plainInteger v e).length ≤ (e + 43).toNat - 27 :=
  ((dropWhile_suffix _).length_le).trans (length_take_le _ _)

theorem val_plain (hlen : (Nat.toDigits 10 v).length = 16) (he : -25 ≤ e) (he' : e ≤ 0) :
    natOf (plainInteger v e ++ plainFraction v e) ≤ v ∧
      val (natOf (plainInteger v e ++ plainFraction v e)) (-(plainFraction v e).length) =
        val v e := by
  obtain ⟨k, hk⟩ := exists_rdropWhile_zero (plainRest v e)
  have hnat := natOf_plain hlen he he'
  have hr : (plainRest v e).length = (plainFraction v e).length + k := by
    rw [hk, length_append, length_replicate]
    rfl
  have hpow : natOf (plainInteger v e ++ plainFraction v e) * 10 ^ k = v := by
    rw [hr, hk, natOf_append, natOf_replicate_zero, length_replicate, add_zero] at hnat
    calc natOf (plainInteger v e ++ plainFraction v e) * 10 ^ k
        = natOf (plainInteger v e) * 10 ^ ((plainFraction v e).length + k) +
            natOf (plainFraction v e) * 10 ^ k := by rw [natOf_append]; ring
      _ = v := hnat
  have hexp : -((plainFraction v e).length : ℤ) = e + k := by
    have := length_plainRest hlen he he'
    omega
  refine ⟨?_, ?_⟩
  · calc natOf (plainInteger v e ++ plainFraction v e)
        ≤ natOf (plainInteger v e ++ plainFraction v e) * 10 ^ k :=
          Nat.le_mul_of_pos_right _ (by positivity)
      _ = v := hpow
  · rw [hexp, ← val_mul_pow, hpow]

def textSign (negative : Bool) : Option Char := if negative then some '-' else none

theorem toDigits_integer (v : ℕ) :
    Nat.toDigits 10 v = ['0'] ∨ AllDigits (Nat.toDigits 10 v) ∧ Nat.toDigits 10 v ≠ [] ∧
      ∀ c, (Nat.toDigits 10 v).head? = some c → c ≠ '0' := by
  obtain rfl | hv := Nat.eq_zero_or_pos v
  · exact .inl rfl
  · exact .inr ⟨allDigits_toDigits v, ne_nil_of_length_pos Nat.length_toDigits_pos,
      head_toDigits_ne_zero hv⟩

theorem textSign_eq_minus {negative : Bool} : textSign negative = some '-' ↔ negative := by
  cases negative <;> decide

theorem textSign_eq {negative : Bool} {c : Char} (h : textSign negative = some c) :
    c = '-' ∨ c = '+' := by
  cases negative with
  | false => cases h
  | true =>
    cases h
    exact .inl rfl

namespace Numeral

section

variable (negative : Bool) (v : ℕ)

def whole : Numeral :=
  { sign := textSign negative
    integer := Nat.toDigits 10 v
    fraction := none
    exponent := none }

variable (e : ℤ)

def withExponent : Numeral :=
  { sign := textSign negative
    integer := Nat.toDigits 10 v
    fraction := none
    exponent := some
      { letter := 'e', sign := textSign (e < 0), digits := Nat.toDigits 10 e.natAbs } }

def plain : Numeral :=
  { sign := textSign negative
    integer := if plainInteger v e = [] then ['0'] else plainInteger v e
    fraction := if plainFraction v e = [] then none else some (plainFraction v e)
    exponent := none }

theorem whole_toText :
    (whole negative v).toText = (textSign negative).toList ++ Nat.toDigits 10 v := by
  rw [toText, fractionText, exponentText]
  exact congrArg _ (append_nil _)

theorem withExponent_toText : (withExponent negative v e).toText =
      (textSign negative).toList ++ (Nat.toDigits 10 v ++ 'e' :: integerText e) := by
  have hep : (textSign (e < 0)).toList ++ Nat.toDigits 10 e.natAbs = integerText e := by
    rw [integerText]
    by_cases he : e < 0
    · rw [decide_eq_true he, if_pos he]
      rfl
    · rw [decide_eq_false he, if_neg he]
      rfl
  rw [← hep]
  rfl

theorem plain_toText : (plain negative v e).toText = (textSign negative).toList ++
      ((if plainInteger v e = [] then ['0'] else plainInteger v e) ++
        if plainFraction v e = [] then [] else '.' :: plainFraction v e) := by
  have hf : (plain negative v e).fractionText =
      if plainFraction v e = [] then [] else '.' :: plainFraction v e := by
    change (if plainFraction v e = [] then none else some (plainFraction v e)).elim [] _ = _
    split <;> rfl
  rw [toText, hf]
  exact congrArg _ (congrArg _ (append_nil _))

end

theorem length_toDigits_le (hv : v ≤ STAmount.cMaxNativeN) : (Nat.toDigits 10 v).length ≤ 32 := by
  apply (Nat.length_toDigits_le_iff (by decide) (by decide)).mpr
  exact hv.trans_lt (by decide)

variable (negative : Bool)

theorem whole_mantissa (v : ℕ) : (whole negative v).mantissa = v := by
  change natOf (Nat.toDigits 10 v ++ []) = v
  rw [append_nil, natOf_toDigits]

theorem whole_admissible (hv : v ≤ STAmount.cMaxNativeN) : (whole negative v).Admissible := by
  refine ⟨⟨fun c => textSign_eq, toDigits_integer v, ?_, ?_, ?_, ?_⟩, ?_, ?_, ?_⟩
  · exact fun f hf => by cases hf
  · exact fun x hx => by cases hx
  · exact fun x hx => by cases hx
  · exact fun x hx => by cases hx
  · exact length_toDigits_le hv
  · rw [whole_mantissa]
    exact hv.trans_lt (by decide)
  · exact fun x hx => by cases hx

theorem withExponent_admissible (hv : v ≤ STAmount.cMaxNativeN) (he : e.natAbs ≤ 2 ^ 31 - 1) :
    (withExponent negative v e).Admissible := by
  obtain ⟨hg, hd, hm, -⟩ := whole_admissible negative hv
  refine ⟨⟨hg.1, hg.2, hg.3, ?_, ?_, ?_⟩, hd, hm, ?_⟩
  · rintro x ⟨⟩
    exact .inl rfl
  · rintro x ⟨⟩ c hc
    exact textSign_eq hc
  · rintro x ⟨⟩
    exact ⟨allDigits_toDigits _, ne_nil_of_length_pos Nat.length_toDigits_pos⟩
  · rintro x ⟨⟩
    rw [natOf_toDigits]
    exact he

section

variable (v : ℕ) (e : ℤ)

theorem withExponent_exactExponent : (withExponent negative v e).exactExponent = e := by
  change -((0 : ℕ) : ℤ) + (if textSign (e < 0) = some '-' then
    -(natOf (Nat.toDigits 10 e.natAbs) : ℤ) else natOf (Nat.toDigits 10 e.natAbs)) = e
  rw [natOf_toDigits]
  simp only [textSign_eq_minus, decide_eq_true_eq]
  split <;> omega

theorem plain_fractionDigits : (plain negative v e).fractionDigits = plainFraction v e := by
  change (if plainFraction v e = [] then none else some (plainFraction v e)).getD [] = _
  split_ifs with hnil
  · exact hnil.symm
  · rfl

theorem plain_mantissa :
    (plain negative v e).mantissa = natOf (plainInteger v e ++ plainFraction v e) := by
  rw [mantissa, plain_fractionDigits, natOf_append, natOf_append, plain]
  split
  · next hnil => rw [hnil]; rfl
  · rfl

end

theorem plain_admissible (hlen : (Nat.toDigits 10 v).length = 16) (hv : v ≤ STAmount.cMaxNativeN)
    (he : -25 ≤ e) (he' : e ≤ 0) : (plain negative v e).Admissible := by
  refine ⟨⟨fun c => textSign_eq, ?_, ?_, ?_, ?_, ?_⟩, ?_, ?_, ?_⟩
  · rw [plain]
    split
    · exact .inl rfl
    · next hne => exact .inr ⟨allDigits_plainInteger v e, hne, fun c => head_dropWhile_ne_zero⟩
  · intro f hf
    change (if plainFraction v e = [] then none else some (plainFraction v e)) = some f at hf
    split at hf
    · cases hf
    · next hne =>
      cases hf
      exact ⟨allDigits_plainFraction v e, hne⟩
  · exact fun x hx => by cases hx
  · exact fun x hx => by cases hx
  · exact fun x hx => by cases hx
  · have hi := length_plainInteger_le v e
    have hfr := length_plainFraction_le hlen he he'
    rw [plain_fractionDigits]
    change (if plainInteger v e = [] then ['0'] else plainInteger v e).length + _ ≤ 32
    split
    · rw [length_singleton]
      omega
    · omega
  · rw [plain_mantissa]
    exact ((val_plain hlen he he').1.trans hv).trans_lt (by decide)
  · exact fun x hx => by cases hx

end Numeral

namespace STAmount

variable {a : STAmount}

theorem Canonical.value_le (ha : a.Canonical) : a.value ≤ cMaxNativeN := by
  cases hn : a.isNative with
  | true => exact (ha.native hn).2
  | false =>
    obtain ⟨hz, -⟩ | hreg := ha.issued hn
    · omega
    · exact hreg.2.trans (by decide)

theorem Canonical.length_digits (ha : a.Canonical) (hn : a.isNative = false)
    (hv : a.value ≠ 0) : (Nat.toDigits 10 a.value).length = 16 := by
  obtain ⟨hz, -⟩ | hreg := ha.issued hn
  · exact absurd hz hv
  · exact length_toDigits hreg.1 (Nat.lt_succ_of_le hreg.2)

theorem plain_of_not_scientific {e : ℤ} (h : scientific e = false) : -25 ≤ e ∧ e ≤ 0 := by
  rw [scientific, decide_eq_false_iff_not] at h
  omega

structure Prints (a : STAmount) (n : Numeral) : Prop where
  admissible : n.Admissible
  text : a.getText = n.toText
  negative : n.negative = a.isNegative
  size : n.size = a.magnitude
  inRange : IntRange n.exactExponent
  native : a.isNative → n.fraction = none ∧ n.mantissa = a.value ∧ n.exactExponent = 0

theorem negative_textSign (negative : Bool) : decide (textSign negative = some '-') = negative := by
  cases negative <;> rfl

theorem signed_append (negative : Bool) (s : List Char) :
    (if negative then ['-'] else []) ++ s = (textSign negative).toList ++ s := by
  cases negative <;> rfl

section

variable (ha : a.Canonical)

include ha

theorem Canonical.prints_whole (h : a.isNative ∨ a.value = 0) :
    Prints a (Numeral.whole a.isNegative a.value) := by
  have hm := Numeral.whole_mantissa a.isNegative a.value
  refine ⟨Numeral.whole_admissible _ ha.value_le, ?_, negative_textSign _, ?_, ?_, ?_⟩
  · rw [getText]
    split
    · next hz =>
      rw [ha.zero hz, hz]
      rfl
    · next hv =>
      have hn : a.isNative := h.resolve_right hv
      have hp : scientific a.offset = false := by
        rw [(ha.native hn).1]
        rfl
      simp only [hn, hp, Bool.true_or, if_true, Bool.false_eq_true, if_false, append_nil]
      rw [signed_append, Numeral.whole_toText]
  · rw [Numeral.size, hm, magnitude]
    obtain hn | hz := h
    · rw [(ha.native hn).1]
      rfl
    · rw [hz, val_zero, val_zero]
  · change IntRange 0
    exact ⟨by decide, by decide⟩
  · exact fun _ => ⟨rfl, hm, rfl⟩

section

variable (hn : a.isNative = false) (hv : a.value ≠ 0)

include hn hv

theorem Canonical.prints_withExponent (hs : scientific a.offset) :
    Prints a (Numeral.withExponent a.isNegative a.value a.offset) := by
  obtain ⟨hz, -⟩ | ⟨-, -, hlow, hh⟩ := ha.issued hn
  · exact absurd hz hv
  change -96 ≤ a.offset at hlow
  change a.offset ≤ 80 at hh
  have hm : (Numeral.withExponent a.isNegative a.value a.offset).mantissa = a.value :=
    Numeral.whole_mantissa a.isNegative a.value
  refine ⟨Numeral.withExponent_admissible _ ha.value_le (by omega), ?_, negative_textSign _, ?_, ?_,
    ?_⟩
  · rw [getText, if_neg hv]
    simp only [hn, hs, Bool.false_or, if_true]
    rw [signed_append, Numeral.withExponent_toText]
  · rw [Numeral.size, hm, Numeral.withExponent_exactExponent, magnitude]
  · rw [Numeral.withExponent_exactExponent]
    exact ⟨by omega, by omega⟩
  · exact fun hyes => by simp [hn] at hyes

theorem Canonical.prints_plain (hs : scientific a.offset = false) :
    Prints a (Numeral.plain a.isNegative a.value a.offset) := by
  obtain ⟨hlow, hh⟩ := plain_of_not_scientific hs
  have hlen := ha.length_digits hn hv
  have he : (Numeral.plain a.isNegative a.value a.offset).exactExponent =
      -(plainFraction a.value a.offset).length := by
    rw [Numeral.exactExponent, Numeral.plain_fractionDigits]
    exact add_zero _
  refine ⟨Numeral.plain_admissible _ hlen ha.value_le hlow hh, ?_, negative_textSign _, ?_, ?_, ?_⟩
  · rw [getText, if_neg hv]
    simp only [hn, hs, Bool.false_or, Bool.false_eq_true, if_false]
    rw [plainText_eq hlen hh, signed_append, Numeral.plain_toText]
  · rw [Numeral.size, Numeral.plain_mantissa, he, magnitude]
    exact (val_plain hlen hlow hh).2
  · have := length_plainFraction_le hlen hlow hh
    rw [he]
    exact ⟨by omega, by omega⟩
  · exact fun hyes => by simp [hn] at hyes

end

theorem Canonical.exists_prints : ∃ n, Prints a n := by
  by_cases hw : a.isNative ∨ a.value = 0
  · exact ⟨_, ha.prints_whole hw⟩
  rw [not_or, Bool.not_eq_true] at hw
  cases hs : scientific a.offset with
  | true => exact ⟨_, ha.prints_withExponent hw.1 hw.2 hs⟩
  | false => exact ⟨_, ha.prints_plain hw.1 hw.2 hs⟩

end

section

variable (switchover : Bool) (ha : a.Canonical)

include ha

theorem make_native_self (hn : a.isNative) :
    make switchover a.issue a.value 0 a.isNegative = .ok a := by
  obtain ⟨ho, hv⟩ := ha.native hn
  have hlt : a.value < 2 ^ 64 := hv.trans_lt (by decide)
  have hd : drops switchover a.value 0 = a.value := by
    rw [drops_eq_of_plain (.inr (.inr (by simpa using hlt))), drops_true le_rfl]
    simp
  rw [make_native_eq (by rw [← ha.isNative_eq, hn]) hlt, hd, if_neg hv.not_gt]
  have hs : (!decide (a.value = 0 ∨ (0 : ℤ) ≤ -20) && a.isNegative) = a.isNegative := by
    by_cases hz : a.value = 0
    · rw [ha.zero hz, Bool.and_false]
    · simp [hz]
  rw [hs]
  cases a
  simp_all

theorem make_issued_of_val (hn : a.isNative = false) {m : ℕ} {e : ℤ}
    (hval : val m e = a.magnitude) : make switchover a.issue m e a.isNegative = .ok a := by
  have hnr := Format.normalize_of_val_eq (by decide) (ha.issued hn) hval
  rw [make, canonicalize, if_neg (by simp [← ha.isNative_eq, hn]), canonicalizeIssued]
  rw [hnr]
  have hs : (a.value != 0 && a.isNegative) = a.isNegative := by
    by_cases hz : a.value = 0
    · rw [ha.zero hz, Bool.and_false]
    · rw [bne_iff_ne.mpr hz, Bool.true_and]
  dsimp only
  rw [hs]
  cases a
  simp_all

theorem Prints.amountFromString_eq {n : Numeral} (h : Prints a n) :
    amountFromString switchover a.issue a.getText = .ok a := by
  rw [h.text, amountFromString_toText h.admissible, int32_of_intRange h.inRange, ite_self,
    h.negative, ← ha.isNative_eq]
  cases hn : a.isNative with
  | true =>
    obtain ⟨hf, hm, he⟩ := h.native hn
    rw [hf, hm, he]
    exact make_native_self switchover ha hn
  | false => exact make_issued_of_val switchover ha hn h.size

end

theorem toText_withIOU (issue : Issue) (b : IOUAmount) : b.toText = (withIOU issue b).getText := by
  have hv : (withIOU issue b).value = b.mantissa.natAbs := rfl
  have ho : (withIOU issue b).offset = b.exponent := rfl
  have hn : (withIOU issue b).isNative = false := rfl
  have hng : (withIOU issue b).isNegative = decide (b.mantissa < 0) := rfl
  rw [IOUAmount.toText, getText, hv, ho, hn, hng]
  by_cases hz : b.mantissa = 0
  · simp [hz]
  cases hs : scientific b.exponent with
  | true =>
    rw [integerText]
    by_cases hneg : b.mantissa < 0 <;> simp [hz, hneg]
  | false => simp [hz]

/-- Every amount is read back from its text, and both forms of an issued amount have the same
text. -/
theorem amountFromString_getText (switchover : Bool) (ha : a.Canonical) :
    amountFromString switchover a.issue a.getText = .ok a ∧
      (a.isNative = false → ∃ b, a.iou = .ok b ∧ b.toText = a.getText) := by
  refine ⟨?_, ?_⟩
  · obtain ⟨n, hn⟩ := ha.exists_prints
    exact hn.amountFromString_eq switchover ha
  intro hissued
  obtain ⟨b, hb⟩ := exists_withIOU ha hissued
  refine ⟨b, ?_, ?_⟩
  · rw [hb]
    exact iou_withIOU _ b
  · rw [toText_withIOU a.issue b, ← hb]

def minusTwoAndAHalf : STAmount :=
  { issue := someIssue
    value := 2500000000000000
    offset := -15
    isNative := false
    isNegative := true }

theorem amountFromString_getText_half :
    minusTwoAndAHalf.getText = ['-', '2', '.', '5'] ∧
      amountFromString true someIssue ['-', '2', '.', '5'] = .ok minusTwoAndAHalf := by
  have htext : minusTwoAndAHalf.getText = ['-', '2', '.', '5'] := by decide +kernel
  have hcanonical : minusTwoAndAHalf.Canonical :=
    { isNative_eq := by decide
      native := fun hnative => Bool.noConfusion hnative
      issued := fun _ => .inr ⟨by decide, by decide, by decide, by decide⟩
      zero := fun hzero => absurd hzero (by decide) }
  refine ⟨htext, ?_⟩
  rw [← htext]
  exact (amountFromString_getText true hcanonical).1

end STAmount

end Rippled
