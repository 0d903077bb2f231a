import Mathlib.Data.Rat.Floor
import Rippled.Basics.Normalization
import Rippled.Lib.DecimalText

namespace Rippled

open Lib Decimal DecimalText List

structure Exponent where
  letter : Char
  sign : Option Char
  digits : List Char

/-- The groups of a number: a sign, digits, digits after the point, an exponent. -/
structure Numeral where
  sign : Option Char
  integer : List Char
  fraction : Option (List Char)
  exponent : Option Exponent

def splitSign : List Char → Option Char × List Char
  | [] => (none, [])
  | c :: s => if c = '-' ∨ c = '+' then (some c, s) else (none, c :: s)

def splitDigits (s : List Char) : Option (List Char × List Char) :=
  if s.takeWhile Char.isDigit = [] then none
  else some (s.takeWhile Char.isDigit, s.dropWhile Char.isDigit)

def splitInteger : List Char → Option (List Char × List Char)
  | [] => none
  | c :: s => if c = '0' then some (['0'], s) else splitDigits (c :: s)

def splitFraction : List Char → Option (Option (List Char) × List Char)
  | [] => some (none, [])
  | c :: s => if c = '.' then (splitDigits s).map fun p => (some p.1, p.2) else some (none, c :: s)

def splitExponent : List Char → Option (Option Exponent × List Char)
  | [] => some (none, [])
  | c :: s =>
    if c = 'e' ∨ c = 'E' then
      (splitDigits (splitSign s).2).map fun p =>
        (some { letter := c, sign := (splitSign s).1, digits := p.1 }, p.2)
    else some (none, c :: s)

def matchNumber (s : List Char) : Option Numeral :=
  (splitInteger (splitSign s).2).bind fun i =>
    (splitFraction i.2).bind fun f =>
      (splitExponent f.2).bind fun x =>
        if x.2 = [] then
          some { sign := (splitSign s).1, integer := i.1, fraction := f.1, exponent := x.1 }
        else none

def int32 (z : ℤ) : ℤ := z.bmod (2 ^ 32)

namespace Numeral

variable (n : Numeral)

def fractionDigits : List Char := n.fraction.getD []

/-- The exponent as it is computed from the length of the fraction and the given exponent. -/
def readExponent : Option ℤ :=
  match n.exponent with
  | none => some (-n.fractionDigits.length)
  | some x =>
    (parsePositive (2 ^ 31 - 1) 0 x.digits).map fun d =>
      if x.sign = some '-' then int32 (-n.fractionDigits.length - d)
      else int32 (-n.fractionDigits.length + d)

def negative : Bool := n.sign = some '-'

end Numeral

namespace STAmount

def amountFromString (switchover : Bool) (issue : Issue) (amount : List Char) :
    Except String STAmount :=
  match matchNumber amount with
  | none => .error ("Number '" ++ String.ofList amount ++ "' is not valid")
  | some n =>
    if 32 < n.integer.length + n.fractionDigits.length then
      .error ("Number '" ++ String.ofList amount ++ "' is overlong")
    else if isXRP issue && n.fraction.isSome then
      .error "XRP must be specified in integral drops."
    else
      match parsePositive (2 ^ 64 - 1) 0 (n.integer ++ n.fractionDigits), n.readExponent with
      | some mantissa, some exponent => make switchover issue mantissa exponent n.negative
      | _, _ => .error "BadLexicalCast"

end STAmount

namespace Numeral

section

variable (n : Numeral)

structure InGrammar : Prop where
  sign : ∀ c, n.sign = some c → c = '-' ∨ c = '+'
  integer : n.integer = ['0'] ∨
    AllDigits n.integer ∧ n.integer ≠ [] ∧ ∀ c, n.integer.head? = some c → c ≠ '0'
  fraction : ∀ f, n.fraction = some f → AllDigits f ∧ f ≠ []
  letter : ∀ x, n.exponent = some x → x.letter = 'e' ∨ x.letter = 'E'
  exponentSign : ∀ x, n.exponent = some x → ∀ c, x.sign = some c → c = '-' ∨ c = '+'
  exponentDigits : ∀ x, n.exponent = some x → AllDigits x.digits ∧ x.digits ≠ []

def exponentText : List Char :=
  n.exponent.elim [] fun x => x.letter :: (x.sign.toList ++ x.digits)

def fractionText : List Char := n.fraction.elim [] fun f => '.' :: f

def toText : List Char :=
  n.sign.toList ++ (n.integer ++ (n.fractionText ++ n.exponentText))

end

theorem splitDigits_append {s t : List Char} (hs : AllDigits s) (hne : s ≠ [])
    (ht : ∀ c, t.head? = some c → c.isDigit = false) : splitDigits (s ++ t) = some (s, t) := by
  obtain ⟨htk, hd⟩ := takeWhile_digits hs ht
  rw [splitDigits, htk, hd, if_neg hne]

theorem splitSign_append {sign : Option Char} {s : List Char}
    (hsg : ∀ c, sign = some c → c = '-' ∨ c = '+') (hs : ∀ c, s.head? = some c → c.isDigit)
    (hne : s ≠ []) : splitSign (sign.toList ++ s) = (sign, s) := by
  cases sign with
  | some c => exact if_pos (hsg c rfl)
  | none =>
    cases s with
    | nil => exact absurd rfl hne
    | cons c s =>
      have hc := hs c rfl
      refine if_neg ?_
      rintro (rfl | rfl) <;> exact absurd hc (by decide)

variable {n : Numeral}

section

variable (h : n.InGrammar)

include h

theorem InGrammar.head_integer (t : List Char) :
    ∀ c, (n.integer ++ t).head? = some c → c.isDigit := by
  intro c hc
  obtain hz | ⟨hd, hne, -⟩ := h.integer
  · rw [hz] at hc
    cases hc
    decide
  · rw [head?_append_of_ne_nil _ hne] at hc
    exact hd c (mem_of_head? hc)

theorem InGrammar.integer_ne_nil : n.integer ≠ [] := by
  obtain hz | ⟨-, hne, -⟩ := h.integer
  · rw [hz]
    exact cons_ne_nil _ _
  · exact hne

theorem InGrammar.allDigits_integer : AllDigits n.integer := by
  obtain hz | ⟨hd, -, -⟩ := h.integer
  · rw [hz]
    intro c hc
    obtain rfl : c = '0' := by simpa using hc
    decide
  · exact hd

theorem InGrammar.allDigits_fraction : AllDigits n.fractionDigits := by
  rw [fractionDigits]
  cases hf : n.fraction with
  | none => exact fun c hc => absurd hc (not_mem_nil)
  | some f => exact (h.fraction f hf).1

theorem InGrammar.head_exponentText : ∀ c, n.exponentText.head? = some c → c = 'e' ∨ c = 'E' := by
  intro c hc
  rw [exponentText] at hc
  cases hx : n.exponent with
  | none => simp [hx] at hc
  | some x =>
    rw [hx] at hc
    cases hc
    exact h.letter x hx

theorem InGrammar.head_rest :
    ∀ c, (n.fractionText ++ n.exponentText).head? = some c → c.isDigit = false := by
  intro c hc
  rw [fractionText] at hc
  cases hf : n.fraction with
  | none =>
    rw [hf] at hc
    obtain rfl | rfl := h.head_exponentText c hc <;> decide
  | some f =>
    rw [hf] at hc
    cases hc
    decide

theorem InGrammar.splitInteger :
    Rippled.splitInteger (n.integer ++ (n.fractionText ++ n.exponentText)) =
      some (n.integer, n.fractionText ++ n.exponentText) := by
  obtain hz | ⟨hd, hne, hh⟩ := h.integer
  · rw [hz]
    rfl
  have hs := splitDigits_append hd hne h.head_rest
  cases hint : n.integer with
  | nil => exact absurd hint hne
  | cons c s =>
    rw [hint] at hs hh
    exact (if_neg (hh c rfl)).trans hs

theorem InGrammar.splitFraction : Rippled.splitFraction (n.fractionText ++ n.exponentText) =
      some (n.fraction, n.exponentText) := by
  have hh := h.head_exponentText
  rw [fractionText]
  cases hf : n.fraction with
  | none =>
    cases hx : n.exponentText with
    | nil => rfl
    | cons c s =>
      refine if_neg ?_
      rintro rfl
      exact absurd (hh '.' (by rw [hx]; rfl)) (by decide)
  | some f =>
    obtain ⟨hd, hne⟩ := h.fraction f hf
    have hs : splitDigits (f ++ n.exponentText) = some (f, n.exponentText) := by
      refine splitDigits_append hd hne ?_
      intro c hc
      obtain rfl | rfl := hh c hc <;> decide
    change (splitDigits (f ++ n.exponentText)).map _ = _
    rw [hs]
    rfl

theorem InGrammar.splitExponent : Rippled.splitExponent n.exponentText = some (n.exponent, []) := by
  rw [exponentText]
  cases hx : n.exponent with
  | none => rfl
  | some x =>
    obtain ⟨hd, hne⟩ := h.exponentDigits x hx
    have hs := splitDigits_append (t := []) hd hne (fun c hc => by cases hc)
    rw [append_nil] at hs
    have hsg := splitSign_append (h.exponentSign x hx) (fun c hc => hd c (mem_of_head? hc)) hne
    refine (if_pos (h.letter x hx)).trans ?_
    rw [hsg, hs]
    rfl

theorem InGrammar.matchNumber : Rippled.matchNumber n.toText = some n := by
  have hne : n.integer ++ (n.fractionText ++ n.exponentText) ≠ [] :=
    append_ne_nil_of_left_ne_nil h.integer_ne_nil _
  have hs := splitSign_append h.sign (h.head_integer _) hne
  rw [Rippled.matchNumber, toText, hs]
  simp only [h.splitInteger, h.splitFraction, h.splitExponent, Option.bind_some, if_true]

end

section

variable (n : Numeral)

def exponentValue : ℤ :=
  n.exponent.elim 0 fun x => if x.sign = some '-' then -(natOf x.digits : ℤ) else natOf x.digits

def mantissa : ℕ := natOf (n.integer ++ n.fractionDigits)

def exactExponent : ℤ := -n.fractionDigits.length + n.exponentValue

def size : ℚ := val n.mantissa n.exactExponent

/-- The numbers of the grammar whose parts are not too long. -/
structure Admissible : Prop where
  inGrammar : n.InGrammar
  digits_le : n.integer.length + n.fractionDigits.length ≤ 32
  mantissa_lt : n.mantissa < 2 ^ 64
  exponent_le : ∀ x, n.exponent = some x → natOf x.digits ≤ 2 ^ 31 - 1

end

theorem Admissible.readExponent (h : n.Admissible) :
    n.readExponent = some (if n.exponent.isSome then int32 n.exactExponent else n.exactExponent) := by
  rw [Numeral.readExponent, exactExponent, exponentValue]
  cases hx : n.exponent with
  | none => simp
  | some x =>
    have hd := (h.inGrammar.exponentDigits x hx).1
    have hp := parsePositive_eq (2 ^ 31 - 1) hd (Nat.zero_le _)
    rw [zero_mul, zero_add, if_pos (h.exponent_le x hx)] at hp
    simp only [hp, Option.isSome_some, if_true, Option.elim_some]
    split <;> rfl

theorem Admissible.parseMantissa (h : n.Admissible) :
    parsePositive (2 ^ 64 - 1) 0 (n.integer ++ n.fractionDigits) = some n.mantissa := by
  have hd : AllDigits (n.integer ++ n.fractionDigits) := by
    intro c hc
    obtain hc | hc := mem_append.mp hc
    · exact h.inGrammar.allDigits_integer c hc
    · exact h.inGrammar.allDigits_fraction c hc
  have hp := parsePositive_eq (2 ^ 64 - 1) hd (Nat.zero_le _)
  have hle : natOf (n.integer ++ n.fractionDigits) ≤ 2 ^ 64 - 1 := by
    have := h.mantissa_lt
    rw [mantissa] at this
    omega
  rw [zero_mul, zero_add, if_pos hle] at hp
  exact hp

end Numeral

namespace STAmount

variable {switchover : Bool} {issue : Issue} {n : Numeral}

/-- What is read from the text of an admissible number. -/
theorem amountFromString_toText (h : n.Admissible) : amountFromString switchover issue n.toText =
      if isXRP issue && n.fraction.isSome then .error "XRP must be specified in integral drops."
      else make switchover issue n.mantissa
        (if n.exponent.isSome then int32 n.exactExponent else n.exactExponent) n.negative := by
  have hl := h.digits_le
  rw [amountFromString, h.inGrammar.matchNumber]
  dsimp only
  rw [if_neg (by omega), h.parseMantissa, h.readExponent]

theorem floor_val (m : ℕ) (e : ℤ) : ⌊val m e⌋₊ = drops true m e := by
  rw [drops]
  by_cases he : e < 0
  · obtain ⟨k, hk⟩ := Int.le.dest he.le
    obtain ⟨hle, hlt⟩ := val_div_pow m k e
    rw [hk, val, zpow_zero, mul_one] at hle
    rw [hk, val, val, zpow_zero, mul_one, Nat.cast_succ] at hlt
    rw [if_pos he, show (-e).toNat = k by omega, Nat.floor_eq_iff (val_nonneg m e)]
    exact ⟨hle, hlt⟩
  · obtain ⟨k, rfl⟩ := Int.eq_ofNat_of_zero_le (not_lt.mp he)
    have hval : val m k = ((m * 10 ^ k : ℕ) : ℚ) := by
      rw [← zero_add (k : ℤ), ← val_mul_pow, val, zpow_zero, mul_one]
    rw [if_neg he, if_pos rfl, hval, Nat.floor_natCast, Int.toNat_natCast]

def IntRange (z : ℤ) : Prop := -(2 ^ 31) ≤ z ∧ z < 2 ^ 31

theorem int32_of_intRange {z : ℤ} (h : IntRange z) : int32 z = z := by
  obtain ⟨hlow, hh⟩ := h
  rw [int32]
  apply Int.bmod_eq_of_le <;> omega

/-- No step of the computation of the exponent leaves the range of integers. -/
def ExponentFits (n : Numeral) : Prop :=
  IntRange (-n.fractionDigits.length) ∧ IntRange n.exactExponent

/-- The length of the fraction and a negative exponent together stay in range. -/
def ShortEnough (n : Numeral) : Prop :=
  ∀ x, n.exponent = some x → x.sign = some '-' → n.fractionDigits.length + natOf x.digits ≤ 2 ^ 31

theorem exponentFits_iff (h : n.Admissible) : ExponentFits n ↔ ShortEnough n := by
  have hlen := h.digits_le
  rw [ExponentFits, ShortEnough, and_iff_right ⟨by omega, by omega⟩, IntRange,
    Numeral.exactExponent, Numeral.exponentValue]
  cases hx : n.exponent with
  | none =>
    refine iff_of_true ?_ (fun x hx => by cases hx)
    simp only [Option.elim_none]
    omega
  | some x =>
    have hle := h.exponent_le x hx
    simp only [Option.elim_some, Option.some.injEq, forall_eq']
    by_cases hs : x.sign = some '-'
    · simp only [hs, if_true, forall_const]
      omega
    · simp only [hs, if_false, IsEmpty.forall_iff, iff_true]
      omega

section

variable (issue : Issue) (n : Numeral)

def OutOfRange : Prop :=
  if isXRP issue then cMaxNativeN < ⌊n.size⌋₊
  else val iouFormat.minMantissa (iouFormat.maxExponent + 1) ≤ n.size

structure Reads (r : STAmount) : Prop where
  issue_eq : r.issue = issue
  sign : r.value ≠ 0 → r.isNegative = n.negative
  native : isXRP issue → r.offset = 0 ∧ r.value = ⌊n.size⌋₊
  issued : isXRP issue = false → iouFormat.Truncates n.size r.value r.offset

/-- A text is refused exactly if its number is out of range or has a fraction of a drop; otherwise
the number is read. -/
def ReadsOrRefuses (result : Except String STAmount) : Prop :=
  ((∃ t, result = .error t) ↔
    OutOfRange issue n ∨ isXRP issue ∧ n.fraction.isSome) ∧
  ∀ r, result = .ok r → Reads issue n r

end

/-- The drops do not fit 64 bits, nobody notices and what is left is in range. -/
def Unnoticed (switchover : Bool) (issue : Issue) (n : Numeral) : Prop :=
  isXRP issue = true ∧ switchover = false ∧ n.fraction.isSome = false ∧ 0 ≤ n.exactExponent ∧
    2 ^ 64 ≤ n.mantissa * 10 ^ n.exactExponent.toNat ∧
    n.mantissa * 10 ^ n.exactExponent.toNat % 2 ^ 64 ≤ cMaxNativeN

theorem make_reads_issued (hxrp : isXRP issue = false) :
    ReadsOrRefuses issue n (make switchover issue n.mantissa n.exactExponent n.negative) := by
  refine ⟨?_, ?_⟩
  · rw [make_isError_iff hxrp, Format.normalize_isError_iff (by decide), OutOfRange, hxrp,
      if_neg (by decide), or_iff_left (fun hand => by cases hand.1)]
    rfl
  · intro r hr
    exact ⟨(make_issued_issue hxrp hr).1, make_sign hr, fun hyes => by simp [hxrp] at hyes,
      fun _ => make_issued hxrp hr⟩

theorem make_reads_native_iff (hxrp : isXRP issue = true) (hf : n.fraction.isSome = false)
    (hm : n.mantissa < 2 ^ 64) :
    ReadsOrRefuses issue n (make switchover issue n.mantissa n.exactExponent n.negative) ↔
      ¬Unnoticed switchover issue n := by
  have hfl : ⌊n.size⌋₊ = drops true n.mantissa n.exactExponent := floor_val _ _
  have hrf : (∃ t, make switchover issue n.mantissa n.exactExponent n.negative = .error t) ↔
      cMaxNativeN < drops switchover n.mantissa n.exactExponent := by
    rw [make_native_eq hxrp hm]
    split_ifs with hl
    · exact iff_of_true ⟨_, rfl⟩ hl
    · exact iff_of_false (fun ⟨t, ht⟩ => by cases ht) hl
  have hrn : OutOfRange issue n ∨ isXRP issue ∧ n.fraction.isSome ↔
      cMaxNativeN < drops true n.mantissa n.exactExponent := by
    rw [OutOfRange, if_pos hxrp, hfl, or_iff_left (fun hand => by simp [hf] at hand)]
  have hi : ∀ r, make switchover issue n.mantissa n.exactExponent n.negative = .ok r →
      r.issue = issue := by
    intro r hr
    rw [make_native_eq hxrp hm] at hr
    split_ifs at hr
    cases hr
    rfl
  by_cases hp : switchover ∨ n.exactExponent < 0 ∨ n.mantissa * 10 ^ n.exactExponent.toNat < 2 ^ 64
  · have hsm := drops_eq_of_plain hp
    refine iff_of_true ⟨by rw [hrf, hrn, hsm], ?_⟩ ?_
    · intro r hr
      obtain ⟨hof, hv, -⟩ := make_native hxrp hm hr
      exact ⟨hi r hr, make_sign hr, fun _ => ⟨hof, by rw [hv, hsm, hfl]⟩,
        fun hno => by simp [hxrp] at hno⟩
    rintro ⟨-, hsw, -, he, hl, -⟩
    obtain hyes | hneg | hlt := hp
    · simp [hsw] at hyes
    · exact absurd he hneg.not_ge
    · exact absurd hl hlt.not_ge
  · -- the switch is off and the drops do not fit 64 bits
    push Not at hp
    obtain ⟨hsw, he, hl⟩ := hp
    obtain rfl := Bool.eq_false_of_not_eq_true hsw
    rw [drops_false he] at hrf
    rw [drops_true he] at hrn
    have ho : cMaxNativeN < n.mantissa * 10 ^ n.exactExponent.toNat :=
      lt_of_lt_of_le (by decide) hl
    rw [ReadsOrRefuses, hrf, hrn]
    constructor
    · rintro ⟨hiff, -⟩ ⟨-, -, -, -, -, hs⟩
      exact absurd (hiff.mpr ho) hs.not_gt
    intro hn
    have hrs : cMaxNativeN < n.mantissa * 10 ^ n.exactExponent.toNat % 2 ^ 64 := by
      by_contra! hs
      exact hn ⟨hxrp, rfl, hf, he, hl, hs⟩
    refine ⟨iff_of_true hrs ho, ?_⟩
    intro r hr
    obtain ⟨t, ht⟩ := hrf.mpr hrs
    rw [ht] at hr
    cases hr

/-- Every text of the grammar is read as the number it denotes, without leaving the range of
integers, exactly if a negative exponent is not too long and no overflow of drops goes unnoticed. -/
theorem amountFromString_reads_iff (h : n.Admissible) :
    ExponentFits n ∧ ReadsOrRefuses issue n (amountFromString switchover issue n.toText) ↔
      ShortEnough n ∧ ¬Unnoticed switchover issue n := by
  rw [← exponentFits_iff h]
  refine and_congr_right fun hfits => ?_
  have hexponent : (if n.exponent.isSome then int32 n.exactExponent else n.exactExponent) =
      n.exactExponent := by
    rw [int32_of_intRange hfits.2, ite_self]
  rw [amountFromString_toText h, hexponent]
  cases hxrp : isXRP issue with
  | false =>
    refine iff_of_true ?_ (fun hwrap => Bool.noConfusion (hxrp.symm.trans hwrap.1))
    exact make_reads_issued hxrp
  | true =>
    cases hfraction : n.fraction.isSome with
    | true =>
      refine iff_of_true ⟨?_, ?_⟩ 
        (fun hwrap => Bool.noConfusion (hfraction.symm.trans hwrap.2.2.1))
      · exact iff_of_true ⟨_, rfl⟩ (.inr ⟨hxrp, hfraction⟩)
      · intro r hr
        cases hr
    | false => exact make_reads_native_iff hxrp hfraction h.mantissa_lt

def smallNumeral : Numeral :=
  { sign := none
    integer := ['1', '2']
    fraction := some ['5', '0']
    exponent := some { letter := 'e', sign := some '-', digits := ['3'] } }

theorem smallNumeral_admissible : smallNumeral.Admissible := by
  refine ⟨⟨?_, ?_, ?_, ?_, ?_, ?_⟩, ?_, ?_, ?_⟩ <;> simp [smallNumeral, AllDigits] <;> decide

theorem amountFromString_reads_small :
    ReadsOrRefuses someIssue smallNumeral
      (amountFromString true someIssue smallNumeral.toText) := by
  have hshort : ShortEnough smallNumeral := by
    intro x hx hsign
    cases hx
    decide
  exact ((amountFromString_reads_iff smallNumeral_admissible).mpr
    ⟨hshort, fun hwrap => Bool.noConfusion hwrap.1⟩).2

def tinyNumeral : Numeral :=
  { sign := none
    integer := ['1']
    fraction := some ['0', '0']
    exponent := some
      { letter := 'e', sign := some '-', digits := ['2', '1', '4', '7', '4', '8', '3', '6', '4', '7'] } }

/-- A tiny number is refused as too large: the exponent wraps around. -/
theorem amountFromString_tiny_refused :
    tinyNumeral.Admissible ∧ ¬ExponentFits tinyNumeral ∧ ¬OutOfRange someIssue tinyNumeral ∧
      amountFromString true someIssue tinyNumeral.toText = .error "value overflow" := by
  refine ⟨?_, ?_, ?_, by decide +kernel⟩
  · refine ⟨⟨?_, ?_, ?_, ?_, ?_, ?_⟩, ?_, ?_, ?_⟩ <;>
      simp [tinyNumeral, AllDigits] <;> decide
  · rintro ⟨-, hlow, -⟩
    exact absurd hlow (by decide)
  apply not_le_of_gt
  have hmantissa : tinyNumeral.mantissa = 100 := by decide
  have hexponent : tinyNumeral.exactExponent ≤ 0 := by decide
  calc tinyNumeral.size = val 100 tinyNumeral.exactExponent := by rw [Numeral.size, hmantissa]
    _ ≤ val 100 0 := val_mono_exponent hexponent 100
    _ < val iouFormat.minMantissa 0 := (val_lt_val_iff 0).mpr (by decide)
    _ ≤ val iouFormat.minMantissa (iouFormat.maxExponent + 1) :=
      val_mono_exponent (by decide) _

end STAmount

end Rippled
