import Mathlib.Data.List.Basic
import Rippled.Overlay.ProtocolMessage

namespace Rippled.Protocol

open Compression Message List

variable {s : ZeroCopyInputStream} {size : Nat} {bytes : Bytes}

section Headers

theorem toNat_ofNat_and_255 (n : Nat) : (UInt8.ofNat (n &&& 0xFF)).toNat = n % 256 := by
  have hand := Nat.and_two_pow_sub_one_eq_mod n 8
  rw [hand, UInt8.toNat_ofNat']
  omega

theorem toNat_ofNat_and_15 (n : Nat) : (UInt8.ofNat (n &&& 0x0F)).toNat = n % 16 := by
  have hand := Nat.and_two_pow_sub_one_eq_mod n 4
  rw [hand, UInt8.toNat_ofNat']
  omega

theorem bigEndian_packType {type : Nat} (h : type < 65536) : bigEndian (packType type) = type := by
  have hs := Nat.shiftRight_eq_div_pow type 8
  simp only [bigEndian, packType, foldl_cons, foldl_nil, toNat_ofNat_and_255, hs]
  omega

theorem shiftRight_pack (size : Nat) :
    size >>> 24 = size / 16777216 ∧ size >>> 16 = size / 65536 ∧ size >>> 8 = size / 256 :=
  ⟨Nat.shiftRight_eq_div_pow size 24, Nat.shiftRight_eq_div_pow size 16,
    Nat.shiftRight_eq_div_pow size 8⟩

theorem bigEndian_pack (h : size < 268435456) : bigEndian (pack size) = size := by
  obtain ⟨h24, h16, h8⟩ := shiftRight_pack size
  simp only [bigEndian, pack, foldl_cons, foldl_nil, toNat_ofNat_and_255,
    toNat_ofNat_and_15, h24, h16, h8]
  omega

/-- The tests made on the first byte of a header, for the size bits in it. -/
theorem first_byte (n : Fin 16) :
    UInt8.ofNat n.val &&& 0x80 = 0 ∧ (UInt8.ofNat n.val &&& 0xFC = 0 ↔ n.val < 4) ∧
      (UInt8.ofNat n.val ||| 0x90) &&& 0x80 ≠ 0 ∧
      (n.val < 4 → (UInt8.ofNat n.val ||| 0x90) &&& 0x0C = 0) ∧
      (UInt8.ofNat n.val ||| 0x90) &&& 0xF0 = 0x90 ∧
      (UInt8.ofNat n.val ||| 0x90).toNat = 144 + n.val := by
  revert n
  decide

theorem quarter_lt (n : Nat) : n >>> 24 &&& 0x0F < 16 := by
  have hand : n >>> 24 &&& 0x0F = n >>> 24 % 16 := Nat.and_two_pow_sub_one_eq_mod _ 4
  omega

theorem quarter_lt_four_iff {n : Nat} (h : n < 268435456) :
    n >>> 24 &&& 0x0F < 4 ↔ n < 67108864 := by
  have hand : n >>> 24 &&& 0x0F = n >>> 24 % 16 := Nat.and_two_pow_sub_one_eq_mod _ 4
  have hs := (shiftRight_pack n).1
  omega

theorem bigEndian_mark (h : size < 268435456) :
    bigEndian (mark .LZ4 (pack size)) &&& 0x0FFFFFFF = size := by
  have hsum : bigEndian (mark .LZ4 (pack size)) = 144 * 16777216 + bigEndian (pack size) := by
    obtain ⟨-, -, -, -, -, hval⟩ := first_byte ⟨size >>> 24 &&& 0x0F, quarter_lt size⟩
    have hb : (UInt8.ofNat (size >>> 24 &&& 0x0F)).toNat = size >>> 24 &&& 0x0F := by
      have hlt := quarter_lt size
      rw [UInt8.toNat_ofNat']
      omega
    simp only [mark, pack, Algorithm.code, bigEndian, foldl_cons, foldl_nil, hb]
    dsimp only at hval
    omega
  have hand : bigEndian (mark .LZ4 (pack size)) &&& 0x0FFFFFFF =
      bigEndian (mark .LZ4 (pack size)) % 268435456 := Nat.and_two_pow_sub_one_eq_mod _ 28
  rw [hand, hsum, bigEndian_pack h]
  omega

section

variable (n type : Nat) (algorithm : Algorithm) (uncompressed : Nat)

def headerOf : MessageHeader :=
  match algorithm with
  | .None => ⟨headerBytes + n, headerBytes, n, n, type, .None⟩
  | .LZ4 => ⟨headerBytesCompressed + n, headerBytesCompressed, n, uncompressed, type, .LZ4⟩

theorem length_setHeader : (setHeader n type algorithm uncompressed).length =
      (headerOf n type algorithm uncompressed).headerSize := by
  cases algorithm <;> rfl

end

variable {n type uncompressed : Nat}

theorem parseMessageHeader_setHeader (hn : n < 67108864) (ht : type < 65536)
    (hu : uncompressed < 268435456) (algorithm : Algorithm) (rest : Bytes) :
    parseMessageHeader (setHeader n type algorithm uncompressed ++ rest) =
      .ok (headerOf n type algorithm uncompressed) := by
  obtain ⟨h80, hFC, h80', h0C, hF0, hval⟩ := first_byte ⟨n >>> 24 &&& 0x0F, quarter_lt n⟩
  have hq := (quarter_lt_four_iff (by omega)).mpr hn
  have hs : bigEndian (pack n) = n := bigEndian_pack (by omega)
  have hc := bigEndian_packType ht
  cases algorithm with
  | None =>
    have hlen : ¬ (setHeader n type .None uncompressed ++ rest).length < headerBytes := by
      simp [setHeader, pack, packType, headerBytes]
    have hf : (setHeader n type .None uncompressed ++ rest).take 4 = pack n := rfl
    have htwo : ((setHeader n type .None uncompressed ++ rest).drop 4).take 2 = packType type := rfl
    have hfr : (setHeader n type .None uncompressed ++ rest).headD 0 =
        UInt8.ofNat (n >>> 24 &&& 0x0F) := rfl
    rw [parseMessageHeader, hfr, if_neg (by simpa using h80), if_pos (hFC.mpr hq),
      if_neg hlen, hf, htwo, hs, hc]
    rfl
  | LZ4 =>
    have hlen : ¬ (setHeader n type .LZ4 uncompressed ++ rest).length < headerBytesCompressed := by
      simp [setHeader, pack, packType, mark, headerBytesCompressed]
    have hfr : (setHeader n type .LZ4 uncompressed ++ rest).headD 0 =
        UInt8.ofNat (n >>> 24 &&& 0x0F) ||| 0x90 := rfl
    have hf : (setHeader n type .LZ4 uncompressed ++ rest).take 4 = mark .LZ4 (pack n) := rfl
    have htwo : ((setHeader n type .LZ4 uncompressed ++ rest).drop 4).take 2 = packType type := rfl
    have hl : ((setHeader n type .LZ4 uncompressed ++ rest).drop 6).take 4 = pack uncompressed := rfl
    rw [parseMessageHeader, hfr, if_pos h80', if_neg hlen, if_neg (by simpa using h0C hq),
      if_neg (not_not.mpr (show _ = Algorithm.LZ4.code from hF0)), hf, htwo, hl,
      bigEndian_mark (by omega), hc,
      bigEndian_pack hu]
    rfl

theorem headD_of_prefix {wire : Bytes} (hne : bytes ≠ []) (h : bytes <+: wire) :
    bytes.headD 0 = wire.headD 0 := by
  obtain ⟨rest, rfl⟩ := h
  cases bytes with
  | nil => exact absurd rfl hne
  | cons b bytes => rfl

theorem parseMessageHeader_of_short (hn : n < 67108864) {algorithm : Algorithm} (hne : bytes ≠ [])
    (h : bytes <+: setHeader n type algorithm uncompressed)
    (hs : bytes.length < (headerOf n type algorithm uncompressed).headerSize) :
    parseMessageHeader bytes = .error none := by
  obtain ⟨h80, hFC, h80', -, -, -⟩ := first_byte ⟨n >>> 24 &&& 0x0F, quarter_lt n⟩
  have hq := (quarter_lt_four_iff (by omega)).mpr hn
  rw [parseMessageHeader, headD_of_prefix hne h]
  cases algorithm with
  | None =>
    have hf : (setHeader n type .None uncompressed).headD 0 = UInt8.ofNat (n >>> 24 &&& 0x0F) := rfl
    rw [hf, if_neg (not_not.mpr h80), if_pos (hFC.mpr hq)]
    exact if_pos hs
  | LZ4 =>
    have hf : (setHeader n type .LZ4 uncompressed).headD 0 =
        UInt8.ofNat (n >>> 24 &&& 0x0F) ||| 0x90 := rfl
    rw [hf, if_pos h80']
    exact if_pos hs

theorem parseMessageHeader_of_oversize (hn : 67108864 ≤ n) (hn' : n < 268435456) {rest : Bytes}
    (hne : bytes ≠ []) (h : bytes <+: setHeader n type .None uncompressed ++ rest) :
    parseMessageHeader bytes = .error (some .noMessage) := by
  obtain ⟨h80, hFC, -⟩ := first_byte ⟨n >>> 24 &&& 0x0F, quarter_lt n⟩
  have hq : ¬ n >>> 24 &&& 0x0F < 4 := by
    rw [quarter_lt_four_iff hn']
    omega
  have hf : (setHeader n type .None uncompressed ++ rest).headD 0 =
      UInt8.ofNat (n >>> 24 &&& 0x0F) := rfl
  rw [parseMessageHeader, headD_of_prefix hne h, hf, if_neg (not_not.mpr h80),
    if_neg (fun h => hq (hFC.mp h))]

end Headers

section Streams

namespace ZeroCopyInputStream

theorem remaining_new (buffers : List Bytes) : (new buffers).remaining = buffers.flatten := by
  cases buffers <;> rfl

theorem remaining_skipFrom (total : Nat) (passed : List Bytes) (b : Bytes) (first : List Bytes)
    (pos : Bytes) (count : Nat) :
    (skipFrom total passed pos (b :: first) count).2.remaining = (pos ++ first.flatten).drop count := by
  induction first generalizing total passed b pos count with
  | nil =>
    rw [skipFrom]
    split_ifs with hz hlt
    · simp [remaining, hz]
    · simp [remaining]
    · simp only [remaining, flatten_nil, append_nil]
      rw [drop_eq_nil_of_le (by omega)]
  | cons b' rest ih =>
    rw [skipFrom]
    split_ifs with hz hlt
    · simp [remaining, hz]
    · simp only [remaining]
      rw [drop_append_of_le_length (by omega)]
    · have hpos : pos.drop count = [] := drop_eq_nil_of_le (by omega)
      rw [ih, flatten_cons, drop_append, drop_append, hpos, nil_append,
        drop_append]

theorem remaining_skip (s : ZeroCopyInputStream) (count : Nat) :
    (s.skip count).2.remaining = s.remaining.drop count := by
  obtain ⟨total, passed, first, pos⟩ := s
  cases first with
  | nil => simp [skip, skipFrom, remaining]
  | cons b first => exact remaining_skipFrom total passed b first pos count

theorem next_of_cons {b : Bytes} {first : List Bytes} (h : s.first = b :: first) :
    ∃ s', s.next = (true, s.pos, s') ∧ s'.first = first ∧ s.remaining = s.pos ++ s'.remaining := by
  refine ⟨_, by rw [next, h], rfl, ?_⟩
  rw [remaining, h]
  cases first <;> rfl

end ZeroCopyInputStream

open ZeroCopyInputStream

/-- The loop over the chunks collects the bytes that are asked for, however they are laid out. -/
theorem gather_take {inSize turns : Nat} {compressed : Bytes} (ht : s.first.length < turns)
    (hl : compressed.length < inSize ∨ compressed = [])
    (he : inSize ≤ compressed.length + s.remaining.length) :
    (gather inSize turns compressed s).chunk.take inSize = (compressed ++ s.remaining).take inSize ∧
      (gather inSize turns compressed s).copiedInSize = inSize := by
  induction turns generalizing compressed s with
  | zero => omega
  | succ turns ih =>
    cases hf : s.first with
    | nil =>
      have hr : s.remaining = [] := by rw [remaining, hf]
      have hz : inSize = 0 := by
        rw [hr] at he
        obtain hlt | rfl := hl
        · exact absurd he (by simpa using hlt)
        · simpa using he
      have hnil : compressed = [] := by
        obtain hlt | hnil := hl
        · omega
        · exact hnil
      rw [gather, ZeroCopyInputStream.next, hf]
      simp [hz, hnil]
    | cons b first =>
      obtain ⟨s', hn, hf', hr⟩ := next_of_cons hf
      rw [hr, length_append] at he
      rw [gather, hn, hr]
      dsimp only
      have hle : compressed.length ≤ inSize := by
        obtain hlt | rfl := hl
        · omega
        · exact Nat.zero_le _
      split_ifs with hlr hall
      · have hnil : compressed = [] := length_eq_zero_iff.mp hlr.1
        simp [hnil, take_append_of_le_length hlr.2]
      · rw [length_append, length_take] at hall
        refine ⟨?_, rfl⟩
        rw [take_of_length_le (by rw [length_append, length_take]; omega),
          take_append, take_of_length_le hle, take_append_of_le_length (by omega)]
      · rw [length_append, length_take] at hall
        have hpos : s.pos.take (inSize - compressed.length) = s.pos := take_of_length_le (by omega)
        rw [hpos, ← append_assoc]
        refine ih ?_ (.inl ?_) ?_
        · rw [hf']
          rw [hf, length_cons] at ht
          omega
        · rw [length_append]
          omega
        · rw [length_append]
          omega

theorem lz4Decompress_eq (lz4 : LZ4) {inSize : Nat} (h : inSize ≤ s.remaining.length)
    (decompressedSize : Nat) : (lz4Decompress lz4 s inSize decompressedSize).1 =
      lz4DecompressChunk lz4 (s.remaining.take inSize) inSize decompressedSize := by
  have hl : ([] : Bytes).length < inSize ∨ ([] : Bytes) = [] := .inr rfl
  obtain ⟨ht, hc⟩ := gather_take (Nat.lt_succ_self s.first.length) hl (by simpa using h)
  simp only [Nat.succ_eq_add_one, nil_append] at ht hc
  rw [lz4Decompress, if_neg (by omega), lz4DecompressChunk, lz4DecompressChunk, ht, take_take,
    Nat.min_self]

end Streams

end Rippled.Protocol
