import Mathlib.Tactic.SplitIfs

namespace Rippled.Serializer

/-- The prefixes the decoder accepts, with the lengths they stand for. -/
inductive Decodes (n : Nat) : List UInt8 → Prop
  | one (b1 : UInt8) (hu : b1.toNat ≤ 192) (hn : n = b1.toNat) : Decodes n [b1]
  | two (b1 b2 : UInt8) (hl : 193 ≤ b1.toNat) (hu : b1.toNat ≤ 240)
    (hn : n = 193 + (b1.toNat - 193) * 256 + b2.toNat) : Decodes n [b1, b2]
  | three (b1 b2 b3 : UInt8) (hl : 241 ≤ b1.toNat) (hu : b1.toNat ≤ 254)
    (hn : n = 12481 + (b1.toNat - 241) * 65536 + b2.toNat * 256 + b3.toNat) : Decodes n [b1, b2, b3]

variable {n : Nat} {pre pre' sit rest : List UInt8}

theorem Decodes.unique (h : Decodes n pre) (h' : Decodes n pre') : pre = pre' := by
  cases h <;> cases h' <;> grind [UInt8.toNat_lt, UInt8.toNat_inj]

end Rippled.Serializer
