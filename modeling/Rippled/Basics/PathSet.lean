import Rippled.Basics.BaseUInt
import Rippled.Lib.Except

namespace Rippled

open Lib List

structure STPathElement where
  mType : UInt8
  mAccountID : Uint160
  mCurrencyID : Uint160
  mIssuerID : Uint160
deriving DecidableEq

variable {r : STPathElement} {sit rest : List UInt8}

namespace STPathElement

abbrev typeNone : UInt8 := 0x00
abbrev typeAccount : UInt8 := 0x01
abbrev typeCurrency : UInt8 := 0x10
abbrev typeIssuer : UInt8 := 0x20
abbrev typeBoundary : UInt8 := 0xFF
abbrev typeAll : UInt8 := typeAccount ||| typeCurrency ||| typeIssuer

def typeOf (account currency issuer : Bool) : UInt8 :=
  (if account then typeAccount else 0) ||| (if currency then typeCurrency else 0) |||
    (if issuer then typeIssuer else 0)

/-- The type follows from what is not zero. A currency that is zero may be forced. -/
def make (account currency issuer : Uint160) (forceCurrency : Bool) : STPathElement where
  mType := typeOf (account ≠ 0) (forceCurrency || currency ≠ 0) (issuer ≠ 0)
  mAccountID := account
  mCurrencyID := currency
  mIssuerID := issuer

def has (iType flag : UInt8) : Bool := iType &&& flag != 0

def addField (present : Bool) (a : Uint160) : List UInt8 := if present then a.toList else []

def fields (e : STPathElement) : List UInt8 :=
  addField (has e.mType typeAccount) e.mAccountID ++
    (addField (has e.mType typeCurrency) e.mCurrencyID ++
      addField (has e.mType typeIssuer) e.mIssuerID)

def wire (e : STPathElement) : List UInt8 := e.mType :: e.fields

def getField (present : Bool) (sit : List UInt8) : Except String (Uint160 × List UInt8) :=
  if !present then .ok (0, sit)
  else if sit.length < 20 then .error "invalid SerialIter getBitString"
  else .ok (.fromVoid sit, sit.drop 20)

def read (iType : UInt8) (sit : List UInt8) : Except String (STPathElement × List UInt8) := do
  let (account, sit) ← getField (has iType typeAccount) sit
  let (currency, sit) ← getField (has iType typeCurrency) sit
  let (issuer, sit) ← getField (has iType typeIssuer) sit
  return (make account currency issuer (has iType typeCurrency), sit)

section

variable (r)

/-- An element as it may stand in the input, with the type it has there. -/
structure Wire : Prop where
  ne : r.mType ≠ typeNone
  known : r.mType &&& ~~~typeAll = 0
  account : has r.mType typeAccount = false → r.mAccountID = 0
  currency : has r.mType typeCurrency = false → r.mCurrencyID = 0
  issuer : has r.mType typeIssuer = false → r.mIssuerID = 0

/-- What is made of an element of the input. -/
def reread : STPathElement :=
  make r.mAccountID r.mCurrencyID r.mIssuerID (has r.mType typeCurrency)

/-- No account or issuer of the input is zero. -/
def Definite : Prop :=
  (has r.mType typeAccount → r.mAccountID ≠ 0) ∧ (has r.mType typeIssuer → r.mIssuerID ≠ 0)

end

theorem typeOf_has {t : UInt8} (h : t &&& ~~~typeAll = 0) :
    typeOf (has t typeAccount) (has t typeCurrency) (has t typeIssuer) = t := by
  obtain ⟨t⟩ := t
  revert t
  decide

theorem has_typeOf (a c i : Bool) : has (typeOf a c i) typeAccount = a ∧
    has (typeOf a c i) typeCurrency = c ∧ has (typeOf a c i) typeIssuer = i ∧
    typeOf a c i &&& ~~~typeAll = 0 := by
  revert a c i
  decide

variable {e : STPathElement} {present : Bool} {a : Uint160}

theorem getField_eq_ok_iff :
    getField present sit = .ok (a, rest) ↔
      sit = addField present a ++ rest ∧ (present = false → a = 0) := by
  cases present with
  | false => simp [getField, addField, eq_comm, and_comm]
  | true =>
    simp only [getField, addField, Bool.not_true, Bool.false_eq_true, if_false, if_true]
    split_ifs with hl
    · grind [BaseUInt.length_toList]
    · constructor
      · rintro ⟨⟩
        simp [BaseUInt.toList_fromVoid (show 20 ≤ sit.length by omega)]
      · rintro ⟨rfl, -⟩
        rw [BaseUInt.fromVoid_append, drop_left' (BaseUInt.length_toList a)]

theorem getField_addField (h : present = false → a = 0) :
    getField present (addField present a ++ rest) = .ok (a, rest) :=
  getField_eq_ok_iff.mpr ⟨rfl, h⟩

theorem Wire.read (h : Wire r) : read r.mType (r.fields ++ rest) = .ok (r.reread, rest) := by
  simp only [STPathElement.read, fields, append_assoc, bind, Except.bind,
    getField_addField h.account, getField_addField h.currency, getField_addField h.issuer]
  rfl

/-- What is read is what would be written with the type that was found. -/
theorem exists_of_read {t : UInt8} (hn : t ≠ typeNone) (hk : t &&& ~~~typeAll = 0)
    (h : read t sit = .ok (e, rest)) : ∃ r, Wire r ∧ t :: sit = r.wire ++ rest ∧ e = r.reread := by
  obtain ⟨⟨a, s₁⟩, ha, h⟩ := bind_eq_ok h
  obtain ⟨⟨c, s₂⟩, hc, h⟩ := bind_eq_ok h
  obtain ⟨⟨i, s₃⟩, hi, h⟩ := bind_eq_ok h
  cases h
  obtain ⟨rfl, haz⟩ := getField_eq_ok_iff.mp ha
  obtain ⟨rfl, hcz⟩ := getField_eq_ok_iff.mp hc
  obtain ⟨rfl, hiz⟩ := getField_eq_ok_iff.mp hi
  exact ⟨⟨t, a, c, i⟩, ⟨hn, hk, haz, hcz, hiz⟩, by simp [wire, fields], rfl⟩

theorem Wire.reread_iff (h : Wire r) : r.reread.mType = r.mType ↔ r.Definite := by
  have hr := has_typeOf (r.mAccountID ≠ 0) (has r.mType typeCurrency || r.mCurrencyID ≠ 0)
    (r.mIssuerID ≠ 0)
  have ht := typeOf_has h.known
  have := h.account
  have := h.currency
  have := h.issuer
  rw [reread, make, Definite]
  grind

theorem wire_make {c i : Uint160} {f : Bool} (h : (make a c i f).mType ≠ typeNone) :
    Wire (make a c i f) ∧ (make a c i f).reread = make a c i f := by
  obtain ⟨ha, hc, hi, hk⟩ := has_typeOf (a ≠ 0) (f || c ≠ 0) (i ≠ 0)
  refine ⟨⟨h, hk, ?_, ?_, ?_⟩, ?_⟩ <;> grind [reread, make]

theorem reread_eq (h : r.reread.mType = r.mType) : r.reread = r := by
  cases r
  simp_all [reread, make]

end STPathElement

abbrev STPath := List STPathElement

namespace STPathSet

open STPathElement

def addFrom : Bool → List STPath → List UInt8
  | _, [] => [typeNone]
  | first, path :: value =>
    (if first then [] else [typeBoundary]) ++ (path.flatMap wire ++ addFrom false value)

def add (value : List STPath) : List UInt8 := addFrom true value

def parse (sit : List UInt8) (value : List STPath) (path : STPath) :
    Except String (List STPath × List UInt8) :=
  match sit with
  | [] => .error "invalid SerialIter get8"
  | iType :: sit =>
    if iType = typeNone ∨ iType = typeBoundary then
      if path = [] then .error "empty path"
      else if iType = typeNone then .ok (value ++ [path], sit)
      else parse sit (value ++ [path]) []
    else if iType &&& ~~~typeAll ≠ 0 then .error "bad path element"
    else
      match _h : read iType sit with
      | .error e => .error e
      | .ok (e, rest) => parse rest value (path ++ [e])
termination_by sit.length
decreasing_by
  · simp
  · obtain ⟨r, -, hs, -⟩ := exists_of_read (by grind) (by grind) _h
    grind [wire]

variable {value rs p : List STPath} {path more : STPath}

theorem parse_wire (h : Wire r) :
    parse (r.wire ++ sit) value path = parse sit value (path ++ [r.reread]) := by
  have hb : r.mType ≠ typeBoundary := by
    intro hb
    exact absurd (hb ▸ h.known) (by decide)
  rw [wire, cons_append, parse, if_neg (not_or.mpr ⟨h.ne, hb⟩),
    if_neg (not_not.mpr h.known)]
  grind [h.read]

theorem parse_flatMap (h : ∀ r ∈ more, Wire r) :
    parse (more.flatMap wire ++ sit) value path = parse sit value (path ++ more.map reread) := by
  induction more generalizing path with
  | nil => simp
  | cons r more ih =>
    obtain ⟨hr, hm⟩ := forall_mem_cons.mp h
    rw [flatMap_cons, append_assoc, parse_wire hr, ih hm]
    simp

/-- The paths of an input that is accepted. -/
def Wired (rs : List STPath) : Prop := ∀ q ∈ rs, q ≠ [] ∧ ∀ r ∈ q, Wire r

theorem parse_addFrom (h : Wired rs) (hp : path ≠ []) :
    parse (addFrom false rs ++ rest) value path =
      .ok (value ++ path :: rs.map (map reread), rest) := by
  induction rs generalizing value path with
  | nil => simp [addFrom, parse, hp]
  | cons q rs ih =>
    obtain ⟨⟨hq, hw⟩, hrs⟩ := forall_mem_cons.mp h
    rw [addFrom, if_neg (by decide), cons_append, nil_append, cons_append, append_assoc, parse,
      if_pos (.inr rfl), if_neg hp, if_neg (by decide), parse_flatMap hw,
      ih hrs (by simpa using hq)]
    simp

theorem exists_of_parse (h : parse sit value path = .ok (p, rest)) :
    ∃ more rs, (∀ r ∈ more, Wire r) ∧ Wired rs ∧ (path = [] → more ≠ []) ∧
      sit = more.flatMap wire ++ (addFrom false rs ++ rest) ∧
      p = value ++ (path ++ more.map reread) :: rs.map (map reread) := by
  fun_induction parse sit value path with
  | case1 => cases h
  | case2 => cases h
  | case3 value path sit hp =>
    cases h
    exact ⟨[], [], by simp_all [addFrom, Wired]⟩
  | case4 value path iType sit hm hp hn ih =>
    obtain ⟨more, rs, hw, hrs, hne, rfl, rfl⟩ := ih h
    cases hm.resolve_left hn
    exact ⟨[], more :: rs, by simp, forall_mem_cons.mpr ⟨⟨hne rfl, hw⟩, hrs⟩,
      fun h => absurd h hp, by simp [addFrom], by simp⟩
  | case5 => cases h
  | case6 => cases h
  | case7 value path iType sit hm hk e rest' hr ih =>
    obtain ⟨r, hw, hs, rfl⟩ := exists_of_read (by grind) (by grind) hr
    obtain ⟨more, rs, hws, hrs, -, rfl, rfl⟩ := ih h
    exact ⟨r :: more, rs, forall_mem_cons.mpr ⟨hw, hws⟩, hrs, by simp, by simp [hs], by simp⟩

theorem parse_eq_ok_iff : parse sit [] [] = .ok (p, rest) ↔
    ∃ rs, rs ≠ [] ∧ Wired rs ∧ sit = add rs ++ rest ∧ p = rs.map (map reread) := by
  constructor
  · intro h
    obtain ⟨more, rs, hw, hrs, hne, rfl, rfl⟩ := exists_of_parse h
    exact ⟨more :: rs, by simp, forall_mem_cons.mpr ⟨⟨hne rfl, hw⟩, hrs⟩, by simp [add, addFrom],
      by simp⟩
  · rintro ⟨rs, hne, h, rfl, rfl⟩
    cases rs with
    | nil => exact absurd rfl hne
    | cons q rs =>
      obtain ⟨⟨hq, hw⟩, hrs⟩ := forall_mem_cons.mp h
      rw [add, addFrom, if_pos rfl, nil_append, append_assoc, parse_flatMap hw,
        parse_addFrom hrs (by simpa using hq)]
      simp

theorem definite_of_flatMap {s s' : List UInt8} (h : ∀ r ∈ more, Wire r)
    (he : (more.map reread).flatMap wire ++ s =
      more.flatMap wire ++ s') : (∀ r ∈ more, r.Definite) ∧ s = s' := by
  induction more with
  | nil => exact ⟨by simp, he⟩
  | cons r more ih =>
    obtain ⟨hr, hm⟩ := forall_mem_cons.mp h
    simp only [map_cons, flatMap_cons, append_assoc] at he
    have ht := (cons.inj he).1
    rw [reread_eq ht] at he
    obtain ⟨hd, hs⟩ := ih hm (append_cancel_left he)
    exact ⟨forall_mem_cons.mpr ⟨hr.reread_iff.mp ht, hd⟩, hs⟩

theorem definite_of_addFrom {first : Bool} (h : Wired rs)
    (he : addFrom first (rs.map (map reread)) = addFrom first rs) :
    ∀ q ∈ rs, ∀ r ∈ q, r.Definite := by
  induction rs generalizing first with
  | nil => simp
  | cons q rs ih =>
    obtain ⟨⟨-, hw⟩, hrs⟩ := forall_mem_cons.mp h
    obtain ⟨hd, hs⟩ := definite_of_flatMap hw (append_cancel_left he)
    exact forall_mem_cons.mpr ⟨hd, ih hrs hs⟩

theorem map_reread (h : ∀ q ∈ rs, ∀ r ∈ q, r.reread = r) : rs.map (map reread) = rs := by
  conv_rhs => rw [← map_id rs]
  exact map_congr_left fun q hq => (map_congr_left (h q hq)).trans (map_id q)

/-- What is accepted is written back as it was exactly if no account or issuer in it is zero. Paths
of elements that have something to them are read back. -/
theorem pathSet_round_trip (sit rest : List UInt8) (p : List STPath) :
    (parse sit [] [] = .ok (p, rest) → ∃ rs, Wired rs ∧ sit = add rs ++ rest ∧
      (sit = add p ++ rest ↔ ∀ q ∈ rs, ∀ r ∈ q, r.Definite)) ∧
    (p ≠ [] → (∀ q ∈ p, q ≠ [] ∧ ∀ e ∈ q, e.mType ≠ typeNone ∧
      ∃ account currency issuer force, e = make account currency issuer force) →
      parse (add p ++ rest) [] [] = .ok (p, rest)) := by
  constructor
  · intro h
    obtain ⟨rs, -, hw, rfl, rfl⟩ := parse_eq_ok_iff.mp h
    refine ⟨rs, hw, rfl, fun he => ?_, fun hd => ?_⟩
    · exact definite_of_addFrom hw (append_cancel_right he).symm
    · rw [map_reread fun q hq r hr => reread_eq (((hw q hq).2 r hr).reread_iff.mpr (hd q hq r hr))]
  · intro hne h
    have hm : ∀ q ∈ p, ∀ e ∈ q, Wire e ∧ e.reread = e := by
      intro q hq e he
      obtain ⟨hn, a, c, i, f, rfl⟩ := (h q hq).2 e he
      exact wire_make hn
    exact parse_eq_ok_iff.mpr ⟨p, hne, fun q hq => ⟨(h q hq).1, fun e he => (hm q hq e he).1⟩, rfl,
      (map_reread fun q hq e he => (hm q hq e he).2).symm⟩

/-- An account that is zero is not written back. -/
theorem pathSet_not_written :
    parse (1 :: replicate 21 0) [] [] = .ok ([[make 0 0 0 false]], []) ∧
      add [[make 0 0 0 false]] = [0, 0] :=
  ⟨parse_eq_ok_iff.mpr ⟨[[⟨1, 0, 0, 0⟩]], by simp, forall_mem_singleton.mpr ⟨by simp,
    forall_mem_singleton.mpr ⟨by decide, by decide, fun _ => rfl, fun _ => rfl, fun _ => rfl⟩⟩,
    by decide, rfl⟩, by decide⟩

end STPathSet

end Rippled
