import Rippled.Basics.BaseUInt

namespace Rippled.Currency

open List BaseUInt

def text (s : String) : List UInt8 := s.toList.map fun c => UInt8.ofNat c.toNat

def isoCharSet : List UInt8 :=
  text ("abcdefghijklmnopqrstuvwxyz" ++ "ABCDEFGHIJKLMNOPQRSTUVWXYZ" ++ "0123456789" ++
    "<>()\x7b\x7d[]|?!@#$%^&*")

def isoCodeOffset : Nat := 12
def isoCodeLength : Nat := 3

def systemCurrencyCode : List UInt8 := text "XRP"

def noCurrency : Uint160 := ⟨fun i => if i = 19 then 1 else 0⟩

abbrev InIso (i : Fin 20) : Prop :=
  isoCodeOffset ≤ i.val ∧ i.val < isoCodeOffset + isoCodeLength

def sIsoBits : Uint160 := ⟨fun i => if InIso i then 0 else 0xff⟩

def iso (currency : Uint160) : List UInt8 := (currency.toList.drop isoCodeOffset).take isoCodeLength

/-- The currencies that are written as a code of three letters. -/
def IsIso (currency : Uint160) : Prop :=
  currency &&& sIsoBits = 0 ∧ iso currency ≠ systemCurrencyCode ∧
    (iso currency).all isoCharSet.contains

instance : DecidablePred IsIso := fun _ => inferInstanceAs (Decidable (_ ∧ _))

def hexDigits : List UInt8 := text "0123456789ABCDEF"

section

variable (bytes : List UInt8)

def strHex : List UInt8 :=
  bytes.flatMap fun b => [hexDigits.getD (b.toNat / 16) 0, hexDigits.getD (b.toNat % 16) 0]

def toString (currency : Uint160) : List UInt8 :=
  if currency = 0 then systemCurrencyCode
  else if currency = noCurrency then text "1"
  else if IsIso currency then iso currency
  else strHex currency.toList

def charUnHex (c : UInt8) : Option Nat :=
  (hexDigits.idxOf? c).or ((text "0123456789abcdef").idxOf? c)

def unHex : List UInt8 → Option (List UInt8)
  | hi :: lo :: rest => do
    let h ← charUnHex hi
    let l ← charUnHex lo
    return UInt8.ofNat (16 * h + l) :: (← unHex rest)
  | [_] => none
  | [] => some []

def parseHex (sv : List UInt8) : Option Uint160 :=
  if sv = text "0" then some 0
  else if sv.length ≠ 40 then none
  else (unHex sv).map fromVoid

def toupper (c : UInt8) : UInt8 := if 97 ≤ c ∧ c ≤ 122 then c - 32 else c

def ofIso (code : List UInt8) : Uint160 :=
  ⟨fun i => if InIso i then code.getD (i - isoCodeOffset) 0 else 0⟩

/-- A code is read with what is done to its letters. -/
def readCode (letter : UInt8 → UInt8) (code : List UInt8) : Option Uint160 :=
  if code = [] ∨ code = systemCurrencyCode then some 0
  else if code.length = isoCodeLength then
    if code.all isoCharSet.contains then some (ofIso (code.map letter)) else none
  else parseHex code

def toCurrency (code : List UInt8) : Uint160 := (readCode toupper code).getD noCurrency

theorem length_strHex : (strHex bytes).length = 2 * bytes.length := by
  simp [strHex, length_flatMap, Nat.mul_comm]

theorem unHex_strHex : unHex (strHex bytes) = some bytes := by
  have hd : ∀ n < 16, charUnHex (hexDigits.getD n 0) = some n := by decide
  induction bytes with
  | nil => rfl
  | cons b bytes ih =>
    have hb := b.toNat_lt
    rw [strHex, flatMap_cons, ← strHex, cons_append, cons_append, nil_append, unHex,
      hd _ (by omega), hd _ (by omega), ih]
    simp only [Option.bind_eq_bind, Option.bind_some, Nat.div_add_mod, UInt8.ofNat_toNat]
    rfl

end

variable {c : Uint160}

theorem iso_eq (c : Uint160) : iso c = [c.bytes 12, c.bytes 13, c.bytes 14] := rfl

theorem ofIso_iso (h : c &&& sIsoBits = 0) (letter : UInt8 → UInt8) :
    ofIso ((iso c).map letter) = c ↔ ∀ x ∈ iso c, letter x = x := by
  constructor
  · intro he
    have hb := fun i => congrArg (·.bytes i) he
    simp only [iso_eq, forall_mem_cons]
    exact ⟨hb 12, hb 13, hb 14, forall_mem_nil _⟩
  · intro hl
    apply ext_bytes
    intro i
    have hb : c.bytes i &&& sIsoBits.bytes i = 0 := congrArg (·.bytes i) h
    by_cases hi : InIso i
    · obtain rfl | rfl | rfl : i = 12 ∨ i = 13 ∨ i = 14 := by
        simp only [InIso, isoCodeOffset, isoCodeLength] at hi
        omega
      all_goals exact hl _ (by simp [iso_eq])
    · simp only [sIsoBits, if_neg hi] at hb
      simp only [ofIso, if_neg hi]
      exact hb.symm.trans UInt8.and_neg_one

theorem readCode_toString_iff (letter : UInt8 → UInt8) (c : Uint160) :
    (readCode letter (toString c)).getD noCurrency = c ↔ (IsIso c → ∀ x ∈ iso c, letter x = x) := by
  rw [toString]
  split_ifs with h0 h1 hi
  · subst h0
    exact iff_of_true rfl fun h => absurd h (by decide)
  · subst h1
    exact iff_of_true rfl fun h => absurd h (by decide)
  · rw [readCode, if_neg (not_or.mpr ⟨nofun, hi.2.1⟩), if_pos (by rfl), if_pos hi.2.2,
      Option.getD_some, ofIso_iso hi.1, imp_iff_right hi]
  · have hl : (strHex c.toList).length = 40 := by simp [length_strHex]
    have hne : ∀ code, length code ≠ 40 → strHex c.toList ≠ code := fun code h he => h (he ▸ hl)
    refine iff_of_true ?_ fun h => absurd h hi
    rw [readCode, if_neg (not_or.mpr ⟨hne _ (by decide), hne _ (by decide)⟩), if_neg (by rw [hl]; decide),
      parseHex, if_neg (hne _ (by decide)), if_neg (not_not.mpr hl), unHex_strHex]
    simp

/-- A currency is read back from its text exactly if it is not written with lower-case letters, which
are read as upper-case ones. No two currencies have the same text. -/
theorem toCurrency_toString_iff (c d : Uint160) :
    (toCurrency (toString c) = c ↔ (IsIso c → ∀ x ∈ iso c, toupper x = x)) ∧
      (toString c = toString d → c = d) := by
  refine ⟨readCode_toString_iff toupper c, fun h => ?_⟩
  have hr := fun c => (readCode_toString_iff id c).mpr fun _ _ _ => rfl
  rw [← hr c, h, hr d]

theorem toCurrency_usd :
    toString (ofIso (text "usd")) = text "usd" ∧
      toCurrency (text "usd") = ofIso (text "USD") ∧ ofIso (text "USD") ≠ ofIso (text "usd") := by
  decide +kernel

end Rippled.Currency
