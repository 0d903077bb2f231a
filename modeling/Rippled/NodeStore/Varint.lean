import Mathlib.Tactic.Ring

namespace Rippled.NodeStore

open List

def VarintTraits.max (size : Nat) : Nat := (8 * size + 6) / 7

def sizeVarint (v : Nat) : Nat :=
  if v / 127 = 0 then 1 else sizeVarint (v / 127) + 1

def writeVarint (v : Nat) : List UInt8 :=
  if v / 127 = 0 then [UInt8.ofNat (v % 127)]
  else (UInt8.ofNat (v % 127) ||| 0x80) :: writeVarint (v / 127)

/-- The bytes up to the first one that no other follows. -/
def used : List UInt8 → Option Nat
  | [] => none
  | b :: buf => if b &&& 0x80 = 0 then some 1 else (used buf).map (· + 1)

/-- The loop from the last digit to the first. -/
def readDigits : List UInt8 → Option UInt64
  | [] => some 0
  | d :: p => do
    let t0 ← readDigits p
    let t := t0 * 127 + UInt64.ofNat (d &&& 0x7f).toNat
    if t ≤ t0 then none else some t

def readVarint (buf : List UInt8) : Option (Nat × UInt64) :=
  (used buf).bind fun n =>
    if n = 1 ∧ buf.head? = some 0 then some (1, 0) else (readDigits (buf.take n)).map (n, ·)

/-- The number that the digits stand for, the first one the least. -/
def value : List UInt8 → Nat
  | [] => 0
  | d :: p => value p * 127 + (d &&& 0x7f).toNat

/-- Each digit makes the number in 64 bits larger. -/
def Rising : List UInt8 → Prop
  | [] => True
  | d :: p => value p % 2 ^ 64 < value (d :: p) % 2 ^ 64 ∧ Rising p

theorem readDigits_eq_some_iff {p : List UInt8} {t : UInt64} :
    readDigits p = some t ↔ Rising p ∧ t = UInt64.ofNat (value p) := by
  induction p generalizing t with
  | nil => simp [readDigits, Rising, value, eq_comm]
  | cons d p ih =>
    have hle : UInt64.ofNat (value (d :: p)) ≤ UInt64.ofNat (value p) ↔
        ¬value p % 2 ^ 64 < value (d :: p) % 2 ^ 64 := by
      rw [UInt64.le_iff_toNat_le, UInt64.toNat_ofNat', UInt64.toNat_ofNat', Nat.not_lt]
    have ht : UInt64.ofNat (value p) * 127 + UInt64.ofNat (d &&& 0x7f).toNat =
        UInt64.ofNat (value (d :: p)) := by
      rw [value, UInt64.ofNat_add, UInt64.ofNat_mul]
      rfl
    simp only [readDigits, Rising, Option.bind_eq_bind, Option.bind_eq_some_iff, ih]
    constructor
    · rintro ⟨_, ⟨hr, rfl⟩, h⟩
      rw [ht] at h
      split_ifs at h with hlt
      rw [hle, not_not] at hlt
      exact ⟨⟨hlt, hr⟩, (Option.some.inj h).symm⟩
    · rintro ⟨⟨hlt, hr⟩, rfl⟩
      refine ⟨_, ⟨hr, rfl⟩, ?_⟩
      rw [ht, if_neg (hle.not.mpr (not_not.mpr hlt))]

theorem byte_spec : ∀ n < 127, (UInt8.ofNat n &&& 0x80 = 0 ∧ (UInt8.ofNat n &&& 0x7f).toNat = n) ∧
    (UInt8.ofNat n ||| 0x80) &&& 0x80 ≠ 0 ∧ ((UInt8.ofNat n ||| 0x80) &&& 0x7f).toNat = n := by
  decide +kernel

theorem sizeVarint_le {v : Nat} : ∀ k, v < 127 ^ (k + 1) → sizeVarint v ≤ k + 1 := by
  intro k h
  induction k generalizing v with
  | zero =>
    rw [sizeVarint, if_pos (by omega)]
  | succ k ih =>
    rw [sizeVarint]
    split_ifs
    · omega
    · have hv := ih (v := v / 127) (by rw [pow_succ] at h; omega)
      omega

/-- The bytes of a number: as many as its size says, up to the last one, that stand for it. -/
structure Written (v : Nat) (p : List UInt8) : Prop where
  length : p.length = sizeVarint v
  used : ∀ rest, used (p ++ rest) = some (sizeVarint v)
  value : value p = v
  rising : 0 < v → v < 2 ^ 64 → Rising p

theorem written (v : Nat) : Written v (writeVarint v) := by
  induction v using writeVarint.induct with
  | case1 v h =>
    obtain ⟨⟨hlast, hdigit⟩, -⟩ := byte_spec (v % 127) (by omega)
    rw [writeVarint, if_pos h]
    have hsize : sizeVarint v = 1 := by rw [sizeVarint, if_pos h]
    have hvalue : value [UInt8.ofNat (v % 127)] = v := by
      rw [value, value, hdigit]
      omega
    refine ⟨hsize.symm, fun rest => ?_, hvalue, fun hpos hlt => ⟨?_, trivial⟩⟩
    · rw [hsize]
      exact if_pos hlast
    · rw [hvalue, Nat.mod_eq_of_lt hlt]
      exact hpos
  | case2 v h ih =>
    obtain ⟨-, hmore, hdigit⟩ := byte_spec (v % 127) (by omega)
    rw [writeVarint, if_neg h]
    have hsize : sizeVarint v = sizeVarint (v / 127) + 1 := by rw [sizeVarint, if_neg h]
    have hvalue : value ((UInt8.ofNat (v % 127) ||| 0x80) :: writeVarint (v / 127)) = v := by
      rw [value, hdigit, ih.value]
      omega
    refine ⟨?_, fun rest => ?_, hvalue, fun hpos hlt => ⟨?_, ih.rising (by omega) (by omega)⟩⟩
    · rw [length_cons, ih.length, hsize]
    · rw [cons_append, used, if_neg hmore, ih.used, hsize]
      rfl
    · rw [hvalue, ih.value]
      omega

theorem readVarint_eq_some_iff {buf : List UInt8} {n : Nat} {t : UInt64} :
    readVarint buf = some (n, t) ↔ used buf = some n ∧ t = UInt64.ofNat (value (buf.take n)) ∧
      ((n = 1 ∧ buf.head? = some 0) ∨ Rising (buf.take n)) := by
  have hzero : ∀ {n}, n = 1 ∧ buf.head? = some 0 → UInt64.ofNat (value (buf.take n)) = 0 := by
    rintro n ⟨rfl, hhead⟩
    rw [take_one, hhead]
    rfl
  rw [readVarint, Option.bind_eq_some_iff]
  constructor
  · rintro ⟨n', hn, h⟩
    split_ifs at h with hz
    · cases h
      exact ⟨hz.1 ▸ hn, (hzero ⟨rfl, hz.2⟩).symm, .inl ⟨rfl, hz.2⟩⟩
    · obtain ⟨t', ht, h⟩ := Option.map_eq_some_iff.mp h
      cases h
      obtain ⟨hr, ht⟩ := readDigits_eq_some_iff.mp ht
      exact ⟨hn, ht, .inr hr⟩
  · rintro ⟨hn, rfl, h⟩
    refine ⟨n, hn, ?_⟩
    split_ifs with hz
    · rw [hzero hz, hz.1]
    · rw [readDigits_eq_some_iff.mpr ⟨h.resolve_left hz, rfl⟩, Option.map_some]

theorem readVarint_writeVarint (v : UInt64) (rest : List UInt8) :
    readVarint (writeVarint v.toNat ++ rest) = some (sizeVarint v.toNat, v) := by
  have h := written v.toNat
  have htake : (writeVarint v.toNat ++ rest).take (sizeVarint v.toNat) = writeVarint v.toNat :=
    take_left' h.length
  refine readVarint_eq_some_iff.mpr ⟨h.used rest, ?_, ?_⟩
  · rw [htake, h.value, UInt64.ofNat_toNat]
  · obtain hv | hpos := Nat.eq_zero_or_pos v.toNat
    · left
      simp [hv, sizeVarint, writeVarint]
    · rw [htake]
      exact .inr (h.rising hpos v.toNat_lt)

/-- What is written is read back, whatever comes after it. A number is read exactly if it fits 64 bits
or one of its digits does not make it larger there. -/
theorem varint_exact_iff (v : UInt64) (rest buf : List UInt8) :
    (writeVarint v.toNat).length = sizeVarint v.toNat ∧
      sizeVarint v.toNat ≤ VarintTraits.max 8 ∧
      readVarint (writeVarint v.toNat ++ rest) = some (sizeVarint v.toNat, v) ∧
      ((∀ n t, readVarint buf = some (n, t) → t.toNat = value (buf.take n)) ↔
        ∀ n, used buf = some n → value (buf.take n) < 2 ^ 64 ∨ ¬Rising (buf.take n)) := by
  refine ⟨(written _).length, sizeVarint_le 9 (v.toNat_lt.trans (by decide)),
    readVarint_writeVarint v rest, ?_⟩
  constructor
  · intro h n hn
    rw [or_iff_not_imp_right, not_not]
    intro hr
    have ht := h n _ (readVarint_eq_some_iff.mpr ⟨hn, rfl, .inr hr⟩)
    rw [← ht]
    exact UInt64.toNat_lt _
  · intro h n t ht
    obtain ⟨hn, rfl, hz | hr⟩ := readVarint_eq_some_iff.mp ht
    · obtain ⟨rfl, hhead⟩ := hz
      rw [take_one, hhead]
      rfl
    · rw [UInt64.toNat_ofNat', Nat.mod_eq_of_lt ((h n hn).resolve_right (not_not.mpr hr))]

theorem readVarint_wrapped :
    readVarint (replicate 9 0x80 ++ [3]) = some (10, 7337520172118642045) ∧
      value (replicate 9 0x80 ++ [3]) = 3 * 127 ^ 9 ∧ 7337520172118642045 < 3 * 127 ^ 9 := by
  decide +kernel

end Rippled.NodeStore
