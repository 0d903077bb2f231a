import Rippled.Basics.AmountPrint

namespace Rippled

open Lib Decimal DecimalText

inductive Json where
  | null
  | int (z : Int32)
  | uint (n : UInt32)
  | real (x : ℚ)
  | boolean (b : Bool)
  | string (s : List Char)
  | array (elements : List Json)
  | object (members : List (String × Json))

def parseUnsigned (limit : ℕ) : List Char → Option ℕ
  | [] => none
  | c :: s =>
    if c = '+' then if s = [] then none else parsePositive limit 0 s
    else parsePositive limit 0 (c :: s)

namespace Json

def member (key : String) : Json → Json
  | object members => (members.lookup key).getD null
  | _ => null

def element (v : Json) (index : ℕ) (default : Json) : Json :=
  match v with
  | array elements => elements.getD index default
  | _ => default

def isObjectOrNull : Json → Bool
  | null => true
  | object _ => true
  | _ => false

def asUInt : Json → Except String ℕ
  | null => .ok 0
  | int z =>
    if 0 ≤ z.toInt then .ok z.toInt.toNat
    else .error "Negative integer can not be converted to unsigned integer"
  | uint n => .ok n.toNat
  | real x =>
    if 0 ≤ x ∧ x ≤ 2 ^ 32 - 1 then .ok x.floor.toNat
    else .error "Real out of unsigned integer range"
  | boolean b => .ok b.toNat
  | string s => (parseUnsigned (2 ^ 32 - 1) s).elim (.error "BadLexicalCast") .ok
  | array _ => .error "Type is not convertible to uint"
  | object _ => .error "Type is not convertible to uint"

end Json

variable {toCurrency toIssuer : List Char → Option Uint160} {switchover : Bool}

namespace STAmount

def isSeparator (c : Char) : Bool :=
  c = '\t' || c = '\n' || c = '\r' || c = ' ' || c = ',' || c = '/'

def jsonParts (v : Json) : Except String (Json × Json × Json) :=
  match v with
  | .null => .error "XRP may not be specified with a null Json value"
  | .object _ => .ok (v.member "value", v.member "currency", v.member "issuer")
  | .array _ => .ok (v.element 0 (.int 0), v.element 1 .null, v.element 2 .null)
  | .string s =>
    let elements := s.splitOnP isSeparator
    if 3 < elements.length then .error "invalid amount string"
    else .ok (.string (elements.getD 0 []), elements[1]?.elim .null .string,
      elements[2]?.elim .null .string)
  | _ => .ok (v, .null, .null)

section Reading

variable (toCurrency toIssuer switchover)

def jsonIssue (objectOrNull : Bool) (currency issuer : Json) : Except String Issue :=
  match currency with
  | .string s =>
    if s = [] ∨ s = ['X', 'R', 'P'] then
      if objectOrNull then .error "XRP may not be specified as an object" else .ok xrpIssue
    else
      match toCurrency s, issuer with
      | none, _ => .error "invalid currency"
      | some c, .string t =>
        match toIssuer t with
        | none => .error "invalid issuer"
        | some account =>
          if isXRP ⟨c, account⟩ then .error "invalid issuer" else .ok ⟨c, account⟩
      | some _, _ => .error "invalid issuer"
  | _ => if objectOrNull then .error "XRP may not be specified as an object" else .ok xrpIssue

/-- The mantissa, the exponent and the sign of an amount. An unsigned number is looked for in
the whole amount. -/
def jsonDigits (issue : Issue) (v value : Json) : Except String (ℕ × ℤ × Bool) :=
  match value with
  | .int z =>
    if 0 ≤ z.toInt then .ok (z.toInt.toNat, 0, false)
    else .ok (((-z).toInt % 2 ^ 64).toNat, 0, true)
  | .uint _ => v.asUInt.map fun n => (n, 0, false)
  | .string s =>
    (amountFromString switchover issue s).map fun ret => (ret.value, ret.offset, ret.isNegative)
  | _ => .error "invalid amount type"

def amountFromJson (v : Json) : Except String STAmount := do
  let parts ← jsonParts v
  let issue ← jsonIssue toCurrency toIssuer v.isObjectOrNull parts.2.1 parts.2.2
  let digits ← jsonDigits switchover issue v parts.1
  make switchover issue digits.1 digits.2.1 digits.2.2

end Reading

end STAmount

/-- What an amount can be written in: the bare value, an object or an array. -/
inductive JsonContainer where
  | bare
  | object (members : List (String × Json))
  | array (rest : List Json)

namespace JsonContainer

def hold (value : Json) : JsonContainer → Json
  | bare => value
  | object members => .object (("value", value) :: members)
  | array rest => .array (value :: rest)

def currency : JsonContainer → Json
  | bare => .null
  | object members => (members.lookup "currency").getD .null
  | array rest => rest.getD 0 .null

def issuer : JsonContainer → Json
  | bare => .null
  | object members => (members.lookup "issuer").getD .null
  | array rest => rest.getD 1 .null

def isObject : JsonContainer → Bool
  | object _ => true
  | _ => false

def issue (toCurrency toIssuer : List Char → Option Uint160) (c : JsonContainer) :
    Except String Issue :=
  STAmount.jsonIssue toCurrency toIssuer c.isObject c.currency c.issuer

end JsonContainer

inductive JsonInteger where
  | signed (z : Int32)
  | unsigned (n : UInt32)

namespace JsonInteger

def json : JsonInteger → Json
  | signed z => .int z
  | unsigned n => .uint n

def toInt : JsonInteger → ℤ
  | signed z => z.toInt
  | unsigned n => n.toNat

variable (n : JsonInteger)

def text : Json := .string (integerText n.toInt)

theorem natAbs_toInt_lt : n.toInt.natAbs < 2 ^ 32 := by
  cases n with
  | signed z =>
    have := z.le_toInt
    have := z.toInt_lt
    change z.toInt.natAbs < 2 ^ 32
    omega
  | unsigned n =>
    have := n.toNat_lt
    change (n.toNat : ℤ).natAbs < 2 ^ 32
    omega

end JsonInteger

namespace STAmount

variable {issue : Issue}

theorem isSeparator_of_isDigit {c : Char} (h : c.isDigit = true) : isSeparator c = false := by
  by_contra hsep
  rw [Bool.not_eq_false, isSeparator] at hsep
  simp only [Bool.or_eq_true, decide_eq_true_eq] at hsep
  obtain ((((rfl | rfl) | rfl) | rfl) | rfl) | rfl := hsep <;> exact absurd h (by decide)

theorem splitOnP_integerText (z : ℤ) : (integerText z).splitOnP isSeparator = [integerText z] := by
  apply List.splitOnP_eq_singleton
  have hd : ∀ c ∈ Nat.toDigits 10 z.natAbs, isSeparator c = false :=
    fun c hc => isSeparator_of_isDigit (allDigits_toDigits _ c hc)
  rw [integerText]
  split
  · exact List.forall_mem_cons.mpr ⟨rfl, hd⟩
  · exact hd

def Bare (j : Json) : Prop := jsonParts j = .ok (j, .null, .null) ∧ j.isObjectOrNull = false

theorem bare_json (n : JsonInteger) : Bare n.json := by
  cases n <;> exact ⟨rfl, rfl⟩

theorem bare_text (n : JsonInteger) : Bare n.text := by
  refine ⟨?_, rfl⟩
  rw [JsonInteger.text, jsonParts, splitOnP_integerText]
  rfl

/-- The container is looked at before the value. -/
theorem amountFromJson_hold {j : Json} (hj : Bare j) (c : JsonContainer) :
    amountFromJson toCurrency toIssuer switchover (c.hold j) =
      (c.issue toCurrency toIssuer).bind fun issue =>
        (jsonDigits switchover issue (c.hold j) j).bind fun digits =>
          make switchover issue digits.1 digits.2.1 digits.2.2 := by
  have hp : jsonParts (c.hold j) = .ok (j, c.currency, c.issuer) := by
    cases c with
    | bare => exact hj.1
    | object members => rfl
    | array rest => rfl
  have ho : (c.hold j).isObjectOrNull = c.isObject := by
    cases c with
    | bare => exact hj.2
    | object members => rfl
    | array rest => rfl
  rw [amountFromJson, hp, JsonContainer.issue, ← ho]
  rfl

section

variable (switchover)

theorem make_small (issue : Issue) {v : ℕ} (hv : v < 2 ^ 32) (negative : Bool) :
    ∃ r, make switchover issue v 0 negative = .ok r ∧ r.Canonical ∧ r.issue = issue := by
  cases hxrp : isXRP issue with
  | true =>
    have hd : drops switchover v 0 = v := by
      rw [drops_eq_of_plain (.inr (.inr (by simp; omega))), drops_true le_rfl]
      simp
    have hle : v ≤ cMaxNativeN := by
      change v ≤ 100000000000000000
      omega
    rw [make_native_eq hxrp (by omega), hd, if_neg hle.not_gt]
    refine ⟨_, rfl, ⟨hxrp.symm, fun _ => ⟨rfl, hle⟩, fun hno => Bool.noConfusion hno, ?_⟩, rfl⟩
    intro hz
    simp [show v = 0 from hz]
  | false =>
    cases hm : make switchover issue v 0 negative with
    | error t =>
      have ho := (Format.normalize_isError_iff (by decide)).mp
        ((make_isError_iff hxrp v 0 negative).mp ⟨t, hm⟩)
      have hlt : val v 0 < val iouFormat.minMantissa (iouFormat.maxExponent + 1) := by
        calc val v 0 < val iouFormat.minMantissa 0 := by
              apply (val_lt_val_iff 0).mpr
              change v < 1000000000000000
              omega
          _ ≤ val iouFormat.minMantissa (iouFormat.maxExponent + 1) :=
            val_mono_exponent (by decide) _
      exact absurd ho hlt.not_ge
    | ok r =>
      obtain ⟨hi, hn, hng⟩ := make_issued_issue hxrp hm
      refine ⟨r, rfl, ⟨?_, ?_, fun _ => (make_issued hxrp hm).normal, ?_⟩, hi⟩
      · rw [hn, hi, hxrp]
      · exact fun hyes => by simp [hn] at hyes
      · intro hz
        rw [hng, hz]
        rfl

theorem make_self {a : STAmount} (ha : a.Canonical) :
    make switchover a.issue a.value a.offset a.isNegative = .ok a := by
  cases hn : a.isNative with
  | true =>
    rw [(ha.native hn).1]
    exact make_native_self switchover ha hn
  | false => exact make_issued_of_val switchover ha hn rfl

theorem amountFromString_integerText (issue : Issue) {z : ℤ} (hz : z.natAbs < 2 ^ 32) :
    amountFromString switchover issue (integerText z) =
      make switchover issue z.natAbs 0 (z < 0) := by
  have ht : integerText z = (Numeral.whole (z < 0) z.natAbs).toText := by
    rw [Numeral.whole_toText, integerText]
    by_cases hneg : z < 0 <;> simp [hneg, textSign]
  have hle : z.natAbs ≤ cMaxNativeN := by
    change z.natAbs ≤ 100000000000000000
    omega
  have hf : (Numeral.whole (z < 0) z.natAbs).fraction.isSome = false := rfl
  have hn : (Numeral.whole (z < 0) z.natAbs).negative = decide (z < 0) := negative_textSign _
  rw [ht, amountFromString_toText (Numeral.whole_admissible _ hle), hf, Bool.and_false,
    if_neg (by decide), Numeral.whole_mantissa, hn]
  rfl

end

section

variable (c : JsonContainer) (n : JsonInteger) (hi : c.issue toCurrency toIssuer = .ok issue)

include hi

theorem amountFromJson_text : amountFromJson toCurrency toIssuer switchover (c.hold n.text) =
      make switchover issue n.toInt.natAbs 0 (n.toInt < 0) := by
  obtain ⟨r, hr, hc, rfl⟩ :=
    make_small switchover issue n.natAbs_toInt_lt (decide (n.toInt < 0))
  rw [amountFromJson_hold (bare_text n), hi]
  change (jsonDigits switchover r.issue (c.hold n.text) (.string (integerText n.toInt))).bind _ = _
  rw [jsonDigits, amountFromString_integerText _ _ n.natAbs_toInt_lt, hr]
  exact make_self switchover hc

/-- What is read where the number itself stands. -/
theorem amountFromJson_json : amountFromJson toCurrency toIssuer switchover (c.hold n.json) =
      (jsonDigits switchover issue (c.hold n.json) n.json).bind fun digits =>
        make switchover issue digits.1 digits.2.1 digits.2.2 := by
  rw [amountFromJson_hold (bare_json n), hi]
  rfl

end

/-- The container and the number for which both spellings are read alike. -/
def ReadAlike (c : JsonContainer) : JsonInteger → Prop
  | .signed z => z ≠ Int32.minValue
  | .unsigned _ => c = .bare

theorem make_wrapped_ne (switchover : Bool) (issue : Issue) :
    (make switchover issue (2 ^ 64 - 2 ^ 31) 0 true).toOption ≠
      (make switchover issue (2 ^ 31) 0 true).toOption := by
  obtain ⟨r, hr, -, -⟩ := make_small switchover issue (v := 2 ^ 31) (by norm_num) true
  rw [hr]
  intro heq
  have hw : make switchover issue (2 ^ 64 - 2 ^ 31) 0 true = .ok r := by
    cases hm : make switchover issue (2 ^ 64 - 2 ^ 31) 0 true with
    | error t =>
      rw [hm] at heq
      cases heq
    | ok r' =>
      rw [hm] at heq
      cases heq
      rfl
  cases hxrp : isXRP issue with
  | true =>
    have hv := (make_native hxrp (by norm_num) hr).2.1
    have hv' := (make_native hxrp (by norm_num) hw).2.1
    rw [hv] at hv'
    revert hv'
    cases switchover <;> decide
  | false =>
    have hd : iouFormat.normalize (2 ^ 31) 0 = .ok (2147483648000000, -6) := by decide +kernel
    have hd' : iouFormat.normalize (2 ^ 64 - 2 ^ 31) 0 = .ok (1844674407156206, 4) := by
      decide +kernel
    have hv := ((make_issued hxrp hr).unique (Format.normalize_truncates hd)).1
    have hv' :=
      ((make_issued hxrp hw).unique (Format.normalize_truncates hd')).1
    omega

theorem toInt_neg_of_ne {z : Int32} (h : z ≠ Int32.minValue) : (-z).toInt = -z.toInt := by
  have hne : z.toInt ≠ -(2 ^ 31) := by
    rw [← Int32.toInt_minValue, Ne, Int32.toInt_inj]
    exact h
  have := z.le_toInt
  have := z.toInt_lt
  rw [Int32.toInt_neg]
  apply Int.bmod_eq_of_le <;> omega

theorem jsonDigits_signed {z : Int32} (h : z ≠ Int32.minValue) (v : Json) :
    jsonDigits switchover issue v (.int z) = .ok (z.toInt.natAbs, 0, decide (z.toInt < 0)) := by
  have := z.le_toInt
  rw [jsonDigits]
  split
  · next hn =>
    rw [decide_eq_false hn.not_gt, show z.toInt.toNat = z.toInt.natAbs by omega]
  · next hneg =>
    have hmod : (-z.toInt % 2 ^ 64).toNat = z.toInt.natAbs := by omega
    rw [decide_eq_true (not_le.mp hneg), toInt_neg_of_ne h, hmod]

/-- A number and its decimal string are read alike exactly if the container is refused, or the
number is not the smallest, or an unsigned number stands bare. -/
theorem amountFromJson_alike_iff (toCurrency toIssuer : List Char → Option Uint160)
    (switchover : Bool) (c : JsonContainer) (n : JsonInteger) :
    (amountFromJson toCurrency toIssuer switchover (c.hold n.json)).toOption =
        (amountFromJson toCurrency toIssuer switchover (c.hold n.text)).toOption ↔
      (∃ t, c.issue toCurrency toIssuer = .error t) ∨ ReadAlike c n := by
  cases hissue : c.issue toCurrency toIssuer with
  | error t =>
    refine iff_of_true ?_ (.inl ⟨t, rfl⟩)
    rw [amountFromJson_hold (bare_json n), amountFromJson_hold (bare_text n), hissue]
    rfl
  | ok issue =>
    rw [or_iff_right (fun ⟨t, ht⟩ => by cases ht), amountFromJson_text c n hissue,
      amountFromJson_json c n hissue]
    cases n with
    | signed z =>
      by_cases hz : z = Int32.minValue
      · subst hz
        exact iff_of_false (make_wrapped_ne switchover issue) (fun hne => hne rfl)
      · refine iff_of_true ?_ hz
        rw [show (JsonInteger.signed z).json = .int z from rfl, jsonDigits_signed hz]
        rfl
    | unsigned n =>
      have hread : ∀ v : Json, jsonDigits switchover issue v (JsonInteger.unsigned n).json =
          v.asUInt.map fun n => (n, 0, false) := fun v => rfl
      have hrefused : ∀ t, (Except.error t : Except String STAmount).toOption ≠
          (make switchover issue (JsonInteger.unsigned n).toInt.natAbs 0
            ((JsonInteger.unsigned n).toInt < 0)).toOption := by
        obtain ⟨r, hr, -⟩ := make_small switchover issue (JsonInteger.unsigned n).natAbs_toInt_lt
          (decide ((JsonInteger.unsigned n).toInt < 0))
        intro t heq
        rw [hr] at heq
        cases heq
      rw [hread]
      cases c with
      | bare =>
        refine iff_of_true ?_ rfl
        have hsign : decide ((JsonInteger.unsigned n).toInt < 0) = false :=
          decide_eq_false (Int.natCast_nonneg _).not_gt
        rw [hsign]
        rfl
      | object members | array rest => exact iff_of_false (hrefused _) (fun hbare => by cases hbare)

/-- An unsigned number in an array is refused, its decimal string is not. -/
theorem amountFromJson_array_unsigned :
    amountFromJson (fun _ => none) (fun _ => none) true
        ((JsonContainer.array []).hold (JsonInteger.unsigned 5).json) =
      .error "Type is not convertible to uint" ∧
    amountFromJson (fun _ => none) (fun _ => none) true
        ((JsonContainer.array []).hold (JsonInteger.unsigned 5).text) =
      .ok { issue := xrpIssue, value := 5, offset := 0, isNative := true, isNegative := false } := by
  refine ⟨rfl, ?_⟩
  decide +kernel

end STAmount

end Rippled
