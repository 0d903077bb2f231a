import Mathlib.Data.Fintype.Pi

namespace Rippled

/-- An unsigned number of `n` bytes, the most significant byte first. -/
structure BaseUInt (n : Nat) where
  bytes : Fin n → UInt8

abbrev Uint160 := BaseUInt 20
abbrev Uint256 := BaseUInt 32

namespace BaseUInt

variable {n : Nat} {a b : BaseUInt n}

theorem ext_bytes (h : ∀ i, a.bytes i = b.bytes i) : a = b := by
  cases a
  cases b
  congr 1
  funext i
  exact h i

instance : DecidableEq (BaseUInt n) := fun a b =>
  decidable_of_iff (∀ i, a.bytes i = b.bytes i) ⟨ext_bytes, fun h _ => h ▸ rfl⟩

instance : Zero (BaseUInt n) := ⟨⟨fun _ => 0⟩⟩

instance : Inhabited (BaseUInt n) := ⟨0⟩

instance : AndOp (BaseUInt n) := ⟨fun a b => ⟨fun i => a.bytes i &&& b.bytes i⟩⟩

instance : XorOp (BaseUInt n) := ⟨fun a b => ⟨fun i => a.bytes i ^^^ b.bytes i⟩⟩

/-- The first byte in which two numbers differ decides which is less. -/
instance : LT (BaseUInt n) :=
  ⟨fun a b => ∃ i, (∀ j < i, a.bytes j = b.bytes j) ∧ a.bytes i < b.bytes i⟩

instance : DecidableRel ((· < ·) : BaseUInt n → BaseUInt n → Prop) :=
  fun a b => inferInstanceAs (Decidable (∃ i, (∀ j < i, a.bytes j = b.bytes j) ∧ a.bytes i < b.bytes i))

section

variable (a)

def toList : List UInt8 := List.ofFn a.bytes

def fromVoid (data : List UInt8) : BaseUInt n := ⟨fun i => data.getD i 0⟩

@[simp] theorem length_toList : a.toList.length = n := by
  simp [toList]

@[simp] theorem fromVoid_toList : fromVoid a.toList = a := by
  apply ext_bytes
  intro i
  simp [fromVoid, toList]

theorem fromVoid_append (rest : List UInt8) : fromVoid (a.toList ++ rest) = a := by
  apply ext_bytes
  intro i
  have hi : i.val < a.toList.length := by simp
  have hb : (a.toList ++ rest).getD i 0 = a.toList.getD i 0 := by
    rw [List.getD_eq_getElem?_getD, List.getElem?_append_left hi, ← List.getD_eq_getElem?_getD]
  exact hb.trans (congrArg (fun b => b.bytes i) (fromVoid_toList a))

end

theorem toList_fromVoid {data : List UInt8} (h : n ≤ data.length) :
    (fromVoid data : BaseUInt n).toList = data.take n := by
  apply List.ext_getElem
  · simp [h]
  · intro i hi hd
    simp only [List.length_take] at hd
    simp [toList, fromVoid, List.getElem?_eq_getElem (show i < data.length by omega)]

theorem toList_injective : Function.Injective (toList : BaseUInt n → List UInt8) := by
  intro a b h
  rw [← fromVoid_toList a, h, fromVoid_toList]

section

variable (a)

/-- The half byte that decides at depth `d`: the high half of a byte at even depths, the low half
at odd ones. -/
def nibble (d : Nat) : Fin 16 :=
  if h : d / 2 < n then
    let byte := a.bytes ⟨d / 2, h⟩
    Fin.ofNat 16 (if d % 2 = 1 then byte &&& 0xf else byte >>> 4).toNat
  else 0

theorem nibble_val {d : Nat} (h : d / 2 < n) :
    (a.nibble d).val = if d % 2 = 1 then (a.bytes ⟨d / 2, h⟩).toNat % 16
      else (a.bytes ⟨d / 2, h⟩).toNat / 16 := by
  have hb := (a.bytes ⟨d / 2, h⟩).toNat_lt
  have hand : (a.bytes ⟨d / 2, h⟩).toNat &&& 15 = (a.bytes ⟨d / 2, h⟩).toNat % 16 :=
    Nat.and_two_pow_sub_one_eq_mod _ 4
  have hs : (a.bytes ⟨d / 2, h⟩).toNat >>> 4 = (a.bytes ⟨d / 2, h⟩).toNat / 16 :=
    Nat.shiftRight_eq_div_pow _ 4
  simp only [nibble, h, dif_pos, Fin.val_ofNat]
  split
  · simp [hand]
  · simp only [UInt8.toNat_shiftRight]
    simp [hs]
    omega

theorem toNat_byte (i : Fin n) :
    (a.bytes i).toNat = 16 * (a.nibble (2 * i)).val + (a.nibble (2 * i + 1)).val := by
  have hi : 2 * i.val / 2 = i.val := by omega
  have hi' : (2 * i.val + 1) / 2 = i.val := by omega
  rw [nibble_val a (by omega), nibble_val a (by omega), if_neg (by omega), if_pos (by omega)]
  simp only [hi, hi', Fin.eta]
  omega

end

theorem ext_nibble (h : ∀ d < 2 * n, a.nibble d = b.nibble d) : a = b := by
  apply ext_bytes
  intro i
  apply UInt8.toNat_inj.mp
  rw [toNat_byte a i, toNat_byte b i, h _ (by omega), h _ (by omega)]

theorem nibble_congr {d : Nat} (h : ∀ i : Fin n, i.val = d / 2 → a.bytes i = b.bytes i) :
    a.nibble d = b.nibble d := by
  unfold nibble
  split
  · rw [h _ rfl]
  · rfl

theorem lt_iff_nibble :
    a < b ↔ ∃ d, (∀ e < d, a.nibble e = b.nibble e) ∧ a.nibble d < b.nibble d := by
  constructor
  · rintro ⟨i, hb, hlt⟩
    have hby : (a.bytes i).toNat < (b.bytes i).toNat := hlt
    rw [toNat_byte a i, toNat_byte b i] at hby
    have her : ∀ e < 2 * i.val, a.nibble e = b.nibble e := by
      intro e he
      apply nibble_congr
      intro j hj
      exact hb j (Fin.lt_def.mpr (by omega))
    by_cases hh : a.nibble (2 * i) = b.nibble (2 * i)
    · refine ⟨2 * i + 1, ?_, Fin.lt_def.mpr (by rw [hh] at hby; omega)⟩
      intro e he
      obtain he | rfl : e < 2 * i.val ∨ e = 2 * i.val := by omega
      · exact her e he
      · exact hh
    · have hne : (a.nibble (2 * i)).val ≠ (b.nibble (2 * i)).val := fun h => hh (Fin.ext h)
      exact ⟨2 * i, her, Fin.lt_def.mpr (by omega)⟩
  · rintro ⟨d, hb, hlt⟩
    have hd : d / 2 < n := by
      by_contra hd
      simp [nibble, hd] at hlt
    refine ⟨⟨d / 2, hd⟩, ?_, ?_⟩
    · intro j hj
      have hj : j.val < d / 2 := hj
      apply UInt8.toNat_inj.mp
      rw [toNat_byte a j, toNat_byte b j, hb _ (by omega), hb _ (by omega)]
    apply UInt8.lt_iff_toNat_lt.mpr
    rw [toNat_byte, toNat_byte]
    have hlt := hlt
    obtain hodd | hev : d = 2 * (d / 2) + 1 ∨ d = 2 * (d / 2) := by omega
    · have hlow : (a.nibble (2 * (d / 2) + 1)).val < (b.nibble (2 * (d / 2) + 1)).val := by
        rw [← hodd]
        exact hlt
      rw [hb (2 * (d / 2)) (by omega)]
      simp only
      omega
    · have hh : (a.nibble (2 * (d / 2))).val < (b.nibble (2 * (d / 2))).val := by
        rw [← hev]
        exact hlt
      simp only
      omega

theorem lt_asymm (h : a < b) : ¬ b < a := by
  rintro ⟨j, hj, hltj⟩
  obtain ⟨i, hi, hlti⟩ := h
  obtain hij | rfl | hij := lt_trichotomy i j
  · rw [hj i hij] at hlti
    exact UInt8.lt_irrefl _ hlti
  · exact UInt8.lt_asymm hlti hltj
  · rw [hi j hij] at hltj
    exact UInt8.lt_irrefl _ hltj

theorem exists_first_difference (h : a ≠ b) :
    ∃ d < 2 * n, (∀ e < d, a.nibble e = b.nibble e) ∧ a.nibble d ≠ b.nibble d := by
  classical
  have hex : ∃ d, d < 2 * n ∧ a.nibble d ≠ b.nibble d := by
    by_contra hno
    push Not at hno
    exact h (ext_nibble hno)
  refine ⟨Nat.find hex, (Nat.find_spec hex).1, ?_, (Nat.find_spec hex).2⟩
  intro e he
  have hmin := Nat.find_min hex he
  push Not at hmin
  exact hmin (he.trans (Nat.find_spec hex).1)

end BaseUInt

end Rippled
