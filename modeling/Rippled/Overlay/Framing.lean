import Rippled.Overlay.FrameHeader

namespace Rippled.Protocol

open Compression Message List

variable {bytes : Bytes} {read : Read} {M : Type} {parser : Parser M} {lz4 : LZ4}

/-- A message as it is sent: built from content that its parser reads back, and asked for in
compressed form or not. -/
structure Sent (parser : Parser M) extends Message where
  content : M
  tryCompressed : Compressed
  nonempty : payload ≠ []
  size_le : payload.length ≤ maximiumMessageSize
  parses : parser type payload = some content

namespace Sent

variable (lz4) (s : Sent parser)

def wire : Bytes := s.toMessage.getBuffer lz4 s.tryCompressed

def isCompressed : Bool := s.tryCompressed = .On ∧ 0 < (s.toMessage.bufferCompressed lz4).length

def algorithm : Algorithm := if s.isCompressed lz4 then .LZ4 else .None

def wirePayload : Bytes := if s.isCompressed lz4 then lz4.compress s.payload else s.payload

def header : MessageHeader :=
  headerOf (s.wirePayload lz4).length s.type.code (s.algorithm lz4) s.payload.length

def headerWire : Bytes :=
  setHeader (s.wirePayload lz4).length s.type.code (s.algorithm lz4) s.payload.length

def eventFrom (parsedFrom : Bytes) (message : M) : Event M :=
  .onMessage {
    type := s.type
    message
    payloadWireSize := (s.wirePayload lz4).length
    uncompressedSize := s.payload.length
    isCompressed := s.isCompressed lz4
    parsedFrom }

def event : Event M := s.eventFrom lz4 s.payload s.content

theorem isCompressed_iff : s.isCompressed lz4 ↔
    s.tryCompressed = .On ∧ 0 < (s.toMessage.bufferCompressed lz4).length := by
  simp [isCompressed]

theorem bufferCompressed_eq {m : Message} (h : 0 < (m.bufferCompressed lz4).length) :
    (lz4.compress m.payload).length < m.payload.length - 4 ∧ m.bufferCompressed lz4 =
        setHeader (lz4.compress m.payload).length m.type.code .LZ4 m.payload.length ++
          lz4.compress m.payload := by
  rw [bufferCompressed] at h ⊢
  dsimp only at h ⊢
  split_ifs at h ⊢ with hc hw
  · exact ⟨hw, rfl⟩
  · simp at h
  · simp at h

theorem wire_eq : s.wire lz4 = s.headerWire lz4 ++ s.wirePayload lz4 := by
  rw [wire, headerWire, wirePayload, algorithm, getBuffer]
  by_cases hon : s.tryCompressed = .On
  · by_cases hlen : 0 < (s.toMessage.bufferCompressed lz4).length
    · have hc : s.isCompressed lz4 := by simp [isCompressed, hon, hlen]
      rw [if_neg (by simp [hon]), if_pos hlen, (bufferCompressed_eq lz4 hlen).2]
      simp only [hc, if_true]
    have hc : s.isCompressed lz4 = false := by simp [isCompressed, hlen]
    rw [if_neg (by simp [hon]), if_neg hlen]
    simp only [hc, Bool.false_eq_true, if_false]
    rfl
  · have hoff : s.tryCompressed = .Off := by
      cases h : s.tryCompressed with
      | On => exact absurd h hon
      | Off => rfl
    have hc : s.isCompressed lz4 = false := by simp [isCompressed, hoff]
    rw [if_pos hoff]
    simp only [hc, Bool.false_eq_true, if_false]
    rfl

theorem of_not_isCompressed (h : s.isCompressed lz4 = false) :
    s.wirePayload lz4 = s.payload ∧ s.algorithm lz4 = .None := by
  simp [wirePayload, algorithm, h]

theorem length_wirePayload : (s.wirePayload lz4).length ≤ s.payload.length ∧
    (s.isCompressed lz4 → (s.wirePayload lz4).length < s.payload.length) := by
  rw [wirePayload]
  split_ifs with hc
  · have hlt := (bufferCompressed_eq lz4 ((s.isCompressed_iff lz4).mp hc).2).1
    omega
  · exact ⟨Nat.le_refl _, fun h => absurd h hc⟩

def Fits : Prop := s.isCompressed lz4 ∨ s.payload.length < maximiumMessageSize

theorem length_wirePayload_lt (h : s.Fits lz4) : (s.wirePayload lz4).length < maximiumMessageSize := by
  obtain ⟨hle, hlt⟩ := s.length_wirePayload lz4
  have hs := s.size_le
  obtain hc | hf := h
  · have hlt := hlt hc
    omega
  · omega

theorem length_payload_lt : s.payload.length < 268435456 := by
  have h := s.size_le
  rw [maximiumMessageSize] at h
  omega

theorem length_headerWire : (s.headerWire lz4).length = (s.header lz4).headerSize :=
  length_setHeader _ _ _ _

theorem totalWireSize_eq : (s.header lz4).totalWireSize = (s.wire lz4).length := by
  rw [wire_eq, length_append, length_headerWire, header]
  cases s.algorithm lz4 <;> rfl

theorem length_wire_pos : 0 < (s.wire lz4).length := by
  rw [← totalWireSize_eq, header]
  cases s.algorithm lz4 <;> simp only [headerOf, headerBytes, headerBytesCompressed] <;> omega

theorem wire_ne_nil : s.wire lz4 ≠ [] := ne_nil_of_length_pos (s.length_wire_pos lz4)

theorem parseMessageHeader_append (hf : s.Fits lz4) (rest : Bytes) :
    parseMessageHeader (s.headerWire lz4 ++ rest) = .ok (s.header lz4) :=
  parseMessageHeader_setHeader (s.length_wirePayload_lt lz4 hf) s.type.code_lt s.length_payload_lt _ rest

theorem header_sizes : ¬ ((s.header lz4).payloadWireSize > maximiumMessageSize ∨
    (s.header lz4).uncompressedSize > maximiumMessageSize) := by
  have hw := (s.length_wirePayload lz4).1
  have hs := s.size_le
  rw [header]
  cases s.algorithm lz4 <;> simp only [headerOf] <;> omega

variable {buffers : List Bytes} (hint : Nat)

theorem invoke_incomplete (hf : s.Fits lz4) (hne : buffers.flatten ≠ [])
    (hpre : buffers.flatten <+: s.wire lz4) (hlt : buffers.flatten.length < (s.wire lz4).length) :
    ∃ hint', invokeProtocolMessage parser lz4 true buffers hint = { hint := hint' } := by
  have hpos : buffers.flatten.length ≠ 0 := fun h => hne (length_eq_zero_iff.mp h)
  rw [invokeProtocolMessage, if_neg hpos]
  by_cases hs : buffers.flatten.length < (s.header lz4).headerSize
  · have hpr : buffers.flatten <+: s.headerWire lz4 := by
      rw [wire_eq] at hpre
      refine List.prefix_of_prefix_length_le hpre (List.prefix_append _ _) ?_
      rw [length_headerWire]
      omega
    have hp := parseMessageHeader_of_short (s.length_wirePayload_lt lz4 hf) hne hpr hs
    rw [hp]
    exact ⟨hint, rfl⟩
  · obtain ⟨rest, hr⟩ : s.headerWire lz4 <+: buffers.flatten := by
      rw [wire_eq] at hpre
      refine List.prefix_of_prefix_length_le (List.prefix_append _ _) hpre ?_
      rw [length_headerWire]
      omega
    have hp : parseMessageHeader buffers.flatten = .ok (s.header lz4) := by
      rw [← hr]
      exact s.parseMessageHeader_append lz4 hf rest
    rw [hp]
    dsimp only
    rw [if_neg (s.header_sizes lz4), if_neg (by simp), if_pos (by rw [totalWireSize_eq]; exact hlt)]
    exact ⟨_, rfl⟩

@[simp] theorem header_messageType : (s.header lz4).messageType = s.type.code := by
  rw [header]
  cases s.algorithm lz4 <;> rfl

@[simp] theorem header_algorithm : (s.header lz4).algorithm = s.algorithm lz4 := by
  rw [header]
  cases s.algorithm lz4 <;> rfl

@[simp] theorem header_payloadWireSize :
    (s.header lz4).payloadWireSize = (s.wirePayload lz4).length := by
  rw [header]
  cases s.algorithm lz4 <;> rfl

@[simp] theorem header_uncompressedSize : (s.header lz4).uncompressedSize = s.payload.length := by
  rw [header, algorithm, wirePayload]
  split_ifs <;> rfl

variable {extra : Bytes}

/-- A complete message is dispatched. -/
theorem invoke_complete (hf : s.Fits lz4) {compressionEnabled : Bool} (he : compressionEnabled =
      true ∨ s.isCompressed lz4 = false) (hb : buffers.flatten = s.wire lz4 ++ extra) :
    invokeProtocolMessage parser lz4 compressionEnabled buffers hint =
      dispatch parser lz4 (s.header lz4) buffers hint := by
  have hpos : buffers.flatten.length ≠ 0 := by
    have hw := s.length_wire_pos lz4
    rw [hb, length_append]
    omega
  have hp : parseMessageHeader buffers.flatten = .ok (s.header lz4) := by
    rw [hb, wire_eq, append_assoc]
    exact s.parseMessageHeader_append lz4 hf _
  have ha : ¬ ((!compressionEnabled) = true ∧ (s.header lz4).algorithm ≠ .None) := by
    rw [header_algorithm, algorithm]
    rcases he with rfl | hc
    · simp
    · simp [hc]
  rw [invokeProtocolMessage, if_neg hpos, hp]
  dsimp only
  rw [if_neg (s.header_sizes lz4), if_neg ha, if_neg]
  rw [totalWireSize_eq, hb, length_append]
  omega

theorem remaining_payload (hb : buffers.flatten = s.wire lz4 ++ extra) :
    ((ZeroCopyInputStream.new buffers).skip (s.header lz4).headerSize).2.remaining =
      s.wirePayload lz4 ++ extra := by
  rw [ZeroCopyInputStream.remaining_skip, ZeroCopyInputStream.remaining_new, hb, wire_eq,
    append_assoc, ← length_headerWire, drop_left]

theorem parseMessageContent_compressed (hc : s.isCompressed lz4)
    (hb : buffers.flatten = s.wire lz4 ++ extra) :
    parseMessageContent parser lz4 s.type (s.header lz4) buffers = some (s.payload, s.content) := by
  have hp : s.wirePayload lz4 = lz4.compress s.payload := by rw [wirePayload, if_pos hc]
  have ha : s.algorithm lz4 = .LZ4 := by rw [algorithm, if_pos hc]
  have hr := s.remaining_payload lz4 hb
  have hch : lz4DecompressChunk lz4 (s.wirePayload lz4) (s.wirePayload lz4).length
      s.payload.length = some s.payload := by
    rw [lz4DecompressChunk, take_length, hp, lz4.lossless s.payload s.nonempty]
    exact if_neg (by simp [s.nonempty])
  rw [parseMessageContent, header_algorithm, ha, header_payloadWireSize, header_uncompressedSize]
  rw [lz4Decompress_eq lz4 (by rw [hr]; simp), hr, take_left, hch]
  simp [s.parses]

theorem parseMessageContent_uncompressed (hc : s.isCompressed lz4 = false)
    (hb : buffers.flatten = s.wire lz4 ++ extra) :
    parseMessageContent parser lz4 s.type (s.header lz4) buffers =
      (parser s.type (s.payload ++ extra)).map fun m => (s.payload ++ extra, m) := by
  obtain ⟨hp, ha⟩ := s.of_not_isCompressed lz4 hc
  rw [parseMessageContent, header_algorithm, ha, s.remaining_payload lz4 hb, hp]

theorem dispatch_eq : dispatch parser lz4 (s.header lz4) buffers hint =
      (parseMessageContent parser lz4 s.type (s.header lz4) buffers).elim
        { consumed := (s.wire lz4).length, ec := some .badMessage, hint }
        (fun content =>
          { consumed := (s.wire lz4).length, hint,
            event := some (s.eventFrom lz4 content.1 content.2) }) := by
  have hc : decide ((s.header lz4).algorithm ≠ .None) = s.isCompressed lz4 := by
    rw [header_algorithm, algorithm]
    cases s.isCompressed lz4 <;> rfl
  rw [dispatch, header_messageType, MessageType.ofCode?_code]
  dsimp only
  rw [invoke, totalWireSize_eq, hc, header_payloadWireSize, header_uncompressedSize]
  cases parseMessageContent parser lz4 s.type (s.header lz4) buffers <;> rfl

end Sent

variable {c : Connection M} {s : Sent parser} {extra : Bytes} {sends : List (Sent parser)}

section Draining

variable {layout : Layout} {turns : Nat}

theorem drain_succ (hne : c.readBuffer ≠ []) {r : Invoked M}
    (h : invokeProtocolMessage parser lz4 true (layout.segments c.readBuffer) c.hint = r) :
    drain parser lz4 true layout (turns + 1) c =
      if r.ec.isSome then { c with hint := r.hint, handled := c.handled ++ r.event.toList, failed := r.ec }
      else if r.consumed = 0 then { c with hint := r.hint, handled := c.handled ++ r.event.toList }
      else drain parser lz4 true layout turns
        { c with
          hint := r.hint, handled := c.handled ++ r.event.toList
          readBuffer := c.readBuffer.drop r.consumed } := by
  rw [drain, if_neg (fun hz => hne (length_eq_zero_iff.mp hz)), h]
  cases hec : r.ec <;> simp [hec]

theorem drain_nil (h : c.readBuffer = []) : drain parser lz4 true layout turns c = c := by
  cases turns with
  | zero => rfl
  | succ turns => rw [drain, if_pos (by simp [h])]

theorem handled_prefix_drain (c : Connection M) :
    c.handled <+: (drain parser lz4 true layout turns c).handled := by
  induction turns generalizing c with
  | zero => exact prefix_rfl
  | succ turns ih =>
    by_cases hne : c.readBuffer = []
    · simp [drain_nil hne]
    rw [drain_succ hne rfl]
    split_ifs
    · exact List.prefix_append _ _
    · exact List.prefix_append _ _
    · refine List.IsPrefix.trans ?_ (ih _)
      exact List.prefix_append _ _

variable {more : Bytes}

theorem drain_incomplete (hft : s.Fits lz4) (hne : c.readBuffer ≠ [])
    (hpre : c.readBuffer <+: s.wire lz4) (hlt : c.readBuffer.length < (s.wire lz4).length) :
    ∃ hint, drain parser lz4 true layout (turns + 1) c = { c with hint } := by
  have hf := layout.flatten_segments c.readBuffer
  have hs : (layout.segments c.readBuffer).flatten <+: s.wire lz4 := by rwa [hf]
  obtain ⟨hint, hi⟩ :=
    s.invoke_incomplete lz4 c.hint hft (by rwa [hf]) hs (by rwa [hf])
  rw [drain_succ hne hi]
  exact ⟨hint, by simp⟩

theorem ne_nil_of_complete (hb : c.readBuffer = s.wire lz4 ++ extra) : c.readBuffer ≠ [] := by
  rw [hb]
  exact append_ne_nil_of_left_ne_nil (s.wire_ne_nil lz4) extra

theorem drain_complete (hf : s.Fits lz4) (hb : c.readBuffer = s.wire lz4 ++ extra) :
    drain parser lz4 true layout (turns + 1) c =
      (parseMessageContent parser lz4 s.type (s.header lz4) (layout.segments c.readBuffer)).elim
        { c with failed := some .badMessage }
        (fun content => drain parser lz4 true layout turns
          { c with
            handled := c.handled ++ [s.eventFrom lz4 content.1 content.2], readBuffer := extra }) := by
  have hfl := (layout.flatten_segments c.readBuffer).trans hb
  have hpos := s.length_wire_pos lz4
  rw [drain_succ (ne_nil_of_complete hb) (s.invoke_complete lz4 c.hint hf (.inl rfl) hfl), s.dispatch_eq]
  cases parseMessageContent parser lz4 s.type (s.header lz4) (layout.segments c.readBuffer) with
  | none => simp
  | some content =>
    have hz : (s.wire lz4).length ≠ 0 := by omega
    have hd : c.readBuffer.drop (s.wire lz4).length = extra := by rw [hb, drop_left]
    simp [hz, hd]

theorem drain_deliver (hft : s.Fits lz4) (hb : c.readBuffer = s.wire lz4 ++ extra)
    (h : s.isCompressed lz4 ∨ extra = []) :
    drain parser lz4 true layout (turns + 1) c = drain parser lz4 true layout turns
      { c with handled := c.handled ++ [s.event lz4], readBuffer := extra } := by
  have hf := (layout.flatten_segments c.readBuffer).trans hb
  have hcn : parseMessageContent parser lz4 s.type (s.header lz4)
      (layout.segments c.readBuffer) = some (s.payload, s.content) := by
    by_cases hc : s.isCompressed lz4
    · exact s.parseMessageContent_compressed lz4 hc hf
    have hnil : extra = [] := h.resolve_left hc
    rw [s.parseMessageContent_uncompressed lz4 (by simpa using hc) hf, hnil, append_nil,
      s.parses]
    rfl
  rw [drain_complete hft hb, hcn]
  rfl

theorem parseMessageHeader_oversize (hf : ¬ s.Fits lz4) (hne : bytes ≠ [])
    (hpre : bytes <+: s.wire lz4 ++ more) :
    parseMessageHeader bytes = .error (some .noMessage) := by
  rw [Sent.Fits, not_or, Bool.not_eq_true, Nat.not_lt] at hf
  obtain ⟨hp, ha⟩ := s.of_not_isCompressed lz4 hf.1
  rw [s.wire_eq, Sent.headerWire, hp, ha, append_assoc] at hpre
  exact parseMessageHeader_of_oversize hf.2 s.length_payload_lt hne hpre

/-- The handler got something else in the place of a message, or there was an error. -/
def Wrong (lz4 : LZ4) (before : List (Event M)) (s : Sent parser) (c : Connection M) : Prop :=
  c.failed.isSome ∨ ∃ e, e ≠ s.event lz4 ∧ before ++ [e] <+: c.handled

theorem drain_misread (hc : s.isCompressed lz4 = false) (hf : s.Fits lz4)
    (hb : c.readBuffer = s.wire lz4 ++ extra) (he : extra ≠ []) :
    Wrong lz4 c.handled s (drain parser lz4 true layout (turns + 1) c) := by
  have hfl := (layout.flatten_segments c.readBuffer).trans hb
  rw [drain_complete hf hb, s.parseMessageContent_uncompressed lz4 hc hfl]
  cases parser s.type (s.payload ++ extra) with
  | none => exact .inl rfl
  | some content =>
    refine .inr ⟨s.eventFrom lz4 (s.payload ++ extra) content, ?_, handled_prefix_drain { c with
      handled := c.handled ++ [s.eventFrom lz4 (s.payload ++ extra) content], readBuffer := extra }⟩
    intro heq
    have hfr := congrArg Handed.parsedFrom (Event.onMessage.inj heq)
    exact he (append_right_eq_self.mp hfr)

theorem drain_oversize (hf : ¬ s.Fits lz4) (hne : c.readBuffer ≠ [])
    (hpre : c.readBuffer <+: s.wire lz4 ++ more) :
    Wrong lz4 c.handled s (drain parser lz4 true layout (turns + 1) c) := by
  have hfl := layout.flatten_segments c.readBuffer
  have hpos : ¬ c.readBuffer.length = 0 := fun h => hne (length_eq_zero_iff.mp h)
  have hi : invokeProtocolMessage parser lz4 true (layout.segments c.readBuffer) c.hint =
      { ec := some .noMessage, hint := c.hint } := by
    rw [invokeProtocolMessage, hfl, if_neg hpos, parseMessageHeader_oversize hf hne hpre]
  rw [drain_succ hne hi]
  exact .inl rfl

def wires (lz4 : LZ4) (sends : List (Sent parser)) : Bytes := (sends.map (Sent.wire lz4)).flatten

@[simp] theorem wires_nil : wires lz4 ([] : List (Sent parser)) = [] := rfl

@[simp] theorem wires_cons (s : Sent parser) (sends : List (Sent parser)) :
    wires lz4 (s :: sends) = s.wire lz4 ++ wires lz4 sends := rfl

@[simp] theorem wires_append (sends sends' : List (Sent parser)) :
    wires lz4 (sends ++ sends') = wires lz4 sends ++ wires lz4 sends' := by
  simp [wires]

section

variable (lz4 sends)

/-- The messages still to come, seen from a connection that waits for more bytes. -/
structure Waiting (c : Connection M) : Prop where
  failed : c.failed = none
  incomplete : ∀ s rest, sends = s :: rest → c.readBuffer.length < (s.wire lz4).length

/-- After the messages in the buffer have been handled, either some of them have been handed over as
they were sent and the connection waits for the others, or one of them was not. -/
inductive Drained (c c' : Connection M) : Prop
  | ok (done rest : List (Sent parser)) (hsends : sends = done ++ rest)
    (hbuffer : c.readBuffer = wires lz4 done ++ c'.readBuffer)
    (hhandled : c'.handled = c.handled ++ done.map (Sent.event lz4))
    (hlast : ∀ pre s post, done = pre ++ s :: post → s.isCompressed lz4 = false →
      s.Fits lz4 ∧ post = [] ∧ c'.readBuffer = [])
    (hwaiting : Waiting lz4 rest c')
  | wrong (done : List (Sent parser)) (s : Sent parser) (rest : List (Sent parser))
    (hsends : sends = done ++ s :: rest) (hc : s.isCompressed lz4 = false)
    (hcause : ¬ s.Fits lz4 ∨ (wires lz4 (done ++ [s])).length < c.readBuffer.length)
    (hwrong : Wrong lz4 (c.handled ++ done.map (Sent.event lz4)) s c')

end

theorem eq_nil_of_wires_eq_nil (h : wires lz4 sends = []) : sends = [] := by
  cases sends with
  | nil => rfl
  | cons s sends =>
    rw [wires_cons, append_eq_nil_iff] at h
    exact absurd h.1 (s.wire_ne_nil lz4)

theorem Drained.cons {sends : List (Sent parser)} {c' : Connection M} (hf : s.Fits lz4)
    (hb : c.readBuffer = s.wire lz4 ++ extra) (h : s.isCompressed lz4 ∨ extra = [])
    (hr : Drained lz4 sends { c with handled := c.handled ++ [s.event lz4], readBuffer := extra }
      c') : Drained lz4 (s :: sends) c c' := by
  cases hr with
  | ok done rest hs hbf hh hl hwt =>
    refine .ok (s :: done) rest (by rw [hs]; rfl) ?_ (by simp [hh]) ?_ hwt
    · rw [hb, wires_cons, append_assoc]
      exact congrArg (s.wire lz4 ++ ·) hbf
    intro pre t post hd hc
    cases pre with
    | nil =>
      obtain ⟨rfl, rfl⟩ := List.cons.inj hd
      have he : extra = [] := h.resolve_left (by simp [hc])
      have hnil := append_eq_nil_iff.mp (hbf.symm.trans he)
      exact ⟨hf, eq_nil_of_wires_eq_nil hnil.1, hnil.2⟩
    | cons p pre => exact hl pre t post (List.cons.inj hd).2 hc
  | wrong done t rest hs hc hcs hw =>
    refine .wrong (s :: done) t rest (by rw [hs]; rfl) hc (hcs.imp_right ?_) ?_
    · intro hlt
      rw [hb, cons_append, wires_cons, length_append, length_append]
      exact Nat.add_lt_add_left hlt _
    · rw [append_assoc] at hw
      exact hw

theorem drained (layout : Layout) (hfl : c.failed = none)
    (hb : c.readBuffer ++ more = wires lz4 sends) (ht : c.readBuffer.length ≤ turns) :
    Drained lz4 sends c (drain parser lz4 true layout turns c) := by
  induction sends generalizing c turns with
  | nil =>
    have hnil := (append_eq_nil_iff.mp hb).1
    rw [drain_nil hnil]
    exact .ok [] [] rfl rfl (by simp) (by simp) ⟨hfl, by simp⟩
  | cons s sends ih =>
    by_cases hnil : c.readBuffer = []
    · rw [drain_nil hnil]
      refine .ok [] (s :: sends) rfl rfl (by simp) (by simp) ⟨hfl, ?_⟩
      intro t rest heq
      rw [hnil]
      exact t.length_wire_pos lz4
    · obtain ⟨turns, rfl⟩ : ∃ n, turns = n + 1 := by
        have hpos := length_pos_of_ne_nil hnil
        exact ⟨turns - 1, by omega⟩
      have hpre : c.readBuffer <+: s.wire lz4 ++ wires lz4 sends := ⟨more, hb⟩
      by_cases hf : s.Fits lz4
      · by_cases hlt : c.readBuffer.length < (s.wire lz4).length
        · have hpre' : c.readBuffer <+: s.wire lz4 :=
            List.prefix_of_prefix_length_le hpre (List.prefix_append _ _) (Nat.le_of_lt hlt)
          obtain ⟨hint, hdr⟩ : ∃ hint, drain parser lz4 true layout (turns + 1) c =
              { c with hint } := drain_incomplete hf hnil hpre' hlt
          rw [hdr]
          refine .ok [] (s :: sends) rfl rfl (by simp) (by simp) ⟨hfl, ?_⟩
          intro t rest heq
          obtain ⟨rfl, rfl⟩ := List.cons.inj heq
          exact hlt
        · obtain ⟨extra, he⟩ : s.wire lz4 <+: c.readBuffer :=
            List.prefix_of_prefix_length_le (List.prefix_append _ _) hpre (by omega)
          have hm : extra ++ more = wires lz4 sends := by
            rw [← he, append_assoc] at hb
            exact append_cancel_left hb
          have hpos := s.length_wire_pos lz4
          have hlen : extra.length ≤ turns := by
            rw [← he, length_append] at ht
            omega
          by_cases hd : s.isCompressed lz4 ∨ extra = []
          · rw [drain_deliver hf he.symm hd]
            exact .cons hf he.symm hd (ih hfl hm hlen)
          rw [not_or, Bool.not_eq_true] at hd
          refine .wrong [] s sends rfl hd.1 (.inr ?_) ?_
          · have he' : 0 < extra.length := length_pos_of_ne_nil hd.2
            simp only [nil_append, wires_cons, wires_nil, append_nil, ← he,
              length_append]
            omega
          · simpa using drain_misread hd.1 hf he.symm hd.2
      · have hc : s.isCompressed lz4 = false := by
          rw [Sent.Fits, not_or, Bool.not_eq_true] at hf
          exact hf.1
        exact .wrong [] s sends rfl hc (.inl hf) (by simpa using drain_oversize hf hnil hpre)

end Draining

section Reading

def incoming (reads : List Read) : Bytes := (reads.map Read.bytes).flatten

@[simp] theorem incoming_nil : incoming [] = [] := rfl

@[simp] theorem incoming_cons (read : Read) (reads : List Read) :
    incoming (read :: reads) = read.bytes ++ incoming reads := rfl

/-- Every message that travels uncompressed has a size that the header can hold, and ends where a read
ends. So many bytes were in the buffer before the reads. -/
def AlignedFrom (lz4 : LZ4) (offset : Nat) (sends : List (Sent parser)) (reads : List Read) : Prop :=
  ∀ pre s post, sends = pre ++ s :: post → s.isCompressed lz4 = false →
    s.payload.length < maximiumMessageSize ∧
      ∃ before, before <+: reads ∧ offset + (incoming before).length = (wires lz4 (pre ++ [s])).length

def Aligned (lz4 : LZ4) (sends : List (Sent parser)) (reads : List Read) : Prop :=
  AlignedFrom lz4 0 sends reads

variable {before : List (Event M)}

theorem Wrong.onReadMessage (h : Wrong lz4 before s c) (read : Read) :
    Wrong lz4 before s (Protocol.onReadMessage parser lz4 true c read) := by
  rw [Protocol.onReadMessage]
  split_ifs with hf
  · exact h
  obtain hfl | ⟨e, hne, hp⟩ := h
  · exact absurd hfl hf
  · refine .inr ⟨e, hne, hp.trans ?_⟩
    exact handled_prefix_drain
      { c with readBuffer := c.readBuffer ++ read.bytes, hint := readBufferBytes }

theorem Wrong.foldl {s : Sent parser} {c : Connection M} (h : Wrong lz4 before s c)
    (reads : List Read) :
    Wrong lz4 before s (reads.foldl (Protocol.onReadMessage parser lz4 true) c) :=
  List.foldlRecOn reads _ h fun _ hc read _ => hc.onReadMessage read

theorem Wrong.not_handed {after : List (Event M)} (h : Wrong lz4 before s c) :
    ¬ (c.handled = before ++ s.event lz4 :: after ∧ c.failed = none) := by
  rintro ⟨hh, hfl⟩
  obtain hf | ⟨e, hne, hp⟩ := h
  · rw [hfl] at hf
    cases hf
  · rw [hh, prefix_append_right_inj] at hp
    exact hne (cons_prefix_cons.mp hp).1

theorem Waiting.lt_length {pre post : List (Sent parser)} (h : Waiting lz4 sends c)
    (hs : sends = pre ++ s :: post) : c.readBuffer.length < (wires lz4 (pre ++ [s])).length := by
  cases pre with
  | nil => simpa using h.incomplete s post hs
  | cons p pre =>
    have hlt := h.incomplete p (pre ++ s :: post) hs
    rw [cons_append, wires_cons, length_append]
    omega

variable {reads : List Read}

section

variable (hw : Waiting lz4 sends c)

include hw

/-- A read that leaves messages unharmed leaves the alignment to those still to come. -/
theorem alignedFrom_cons_iff {done rest : List (Sent parser)} {c' : Connection M}
    (hsn : sends = done ++ rest)
    (hbf : c.readBuffer ++ read.bytes = wires lz4 done ++ c'.readBuffer)
    (hls : ∀ pre s post, done = pre ++ s :: post → s.isCompressed lz4 = false → s.Fits lz4 ∧ post = [] ∧ c'.readBuffer = []) :
    AlignedFrom lz4 c.readBuffer.length sends (read :: reads) ↔
      AlignedFrom lz4 c'.readBuffer.length rest reads := by
  have hlen := congrArg List.length hbf
  rw [length_append, length_append] at hlen
  constructor
  · intro h pre s post hr hc
    have hs : sends = (done ++ pre) ++ s :: post := by rw [hsn, hr, append_assoc]
    obtain ⟨hsz, before, hb, hend⟩ := h _ s post hs hc
    have hlt := hw.lt_length hs
    rw [append_assoc, wires_append, length_append] at hend hlt
    refine ⟨hsz, ?_⟩
    cases before with
    | nil =>
      rw [incoming_nil, length_nil] at hend
      omega
    | cons r before =>
      obtain ⟨rfl, hpr⟩ := cons_prefix_cons.mp hb
      rw [incoming_cons, length_append] at hend
      exact ⟨before, hpr, by omega⟩
  · intro h pre s post hs hc
    rw [hsn] at hs
    -- the message is among those still to come, or it is the last of those that came with this read
    have hl : ∀ l, pre = done ++ l → rest = l ++ s :: post →
        s.payload.length < maximiumMessageSize ∧ ∃ before, before <+: read :: reads ∧
          c.readBuffer.length + (incoming before).length = (wires lz4 (pre ++ [s])).length := by
      intro l hpre hr
      obtain ⟨hsz, before, hb, hend⟩ := h l s post hr hc
      refine ⟨hsz, read :: before, cons_prefix_cons.mpr ⟨rfl, hb⟩, ?_⟩
      rw [hpre, append_assoc, wires_append, length_append, incoming_cons, length_append]
      omega
    rcases append_eq_append_iff.mp hs with ⟨l, hpre, hr⟩ | ⟨l, hd, hp⟩
    · exact hl l hpre hr
    cases l with
    | nil => exact hl [] (by rw [hd]; simp) hp.symm
    | cons t l =>
      obtain ⟨rfl, -⟩ := List.cons.inj hp
      obtain ⟨hf, rfl, hnil⟩ := hls pre s l hd hc
      refine ⟨hf.resolve_left (by simp [hc]), [read], ?_, ?_⟩
      · exact cons_prefix_cons.mpr ⟨rfl, nil_prefix⟩
      · rw [hnil, hd, length_nil] at hlen
        simp only [incoming_cons, incoming_nil, append_nil]
        omega

/-- A message that was not handed over as it was sent is not aligned. -/
theorem not_alignedFrom_cons {done rest : List (Sent parser)} (hs : sends = done ++ s :: rest)
    (hc : s.isCompressed lz4 = false)
    (hcs : ¬ s.Fits lz4 ∨ (wires lz4 (done ++ [s])).length < (c.readBuffer ++ read.bytes).length) :
    ¬ AlignedFrom lz4 c.readBuffer.length sends (read :: reads) := by
  intro h
  obtain ⟨hsz, before, hb, hend⟩ := h done s rest hs hc
  have hlt := hcs.resolve_left (not_not.mpr (.inr hsz))
  have hlt' := hw.lt_length hs
  rw [length_append] at hlt
  cases before with
  | nil =>
    rw [incoming_nil, length_nil] at hend
    omega
  | cons r before =>
    obtain ⟨rfl, -⟩ := cons_prefix_cons.mp hb
    rw [incoming_cons, length_append] at hend
    omega

/-- All messages are handed over as they were sent exactly if they are aligned with the reads. -/
theorem foldl_onReadMessage_iff (hb : c.readBuffer ++ incoming reads = wires lz4 sends) :
    ((reads.foldl (onReadMessage parser lz4 true) c).handled =
        c.handled ++ sends.map (Sent.event lz4) ∧
      (reads.foldl (onReadMessage parser lz4 true) c).failed = none) ↔
      AlignedFrom lz4 c.readBuffer.length sends reads := by
  induction reads generalizing sends c with
  | nil =>
    cases sends with
    | nil => simp [AlignedFrom, hw.failed]
    | cons s sends =>
      have hlt := hw.incomplete s sends rfl
      have hlen := congrArg List.length hb
      rw [incoming_nil, append_nil, wires_cons, length_append] at hlen
      omega
  | cons read reads ih =>
    rw [incoming_cons, ← append_assoc] at hb
    have hr : onReadMessage parser lz4 true c read =
        drain parser lz4 true read.layout (c.readBuffer ++ read.bytes).length
          { c with readBuffer := c.readBuffer ++ read.bytes, hint := readBufferBytes } := by
      rw [onReadMessage, if_neg (by simp [hw.failed])]
    have hd : Drained lz4 sends
        { c with readBuffer := c.readBuffer ++ read.bytes, hint := readBufferBytes }
        (drain parser lz4 true read.layout (c.readBuffer ++ read.bytes).length
          { c with readBuffer := c.readBuffer ++ read.bytes, hint := readBufferBytes }) :=
      drained read.layout hw.failed hb (Nat.le_refl _)
    rw [foldl_cons, hr]
    generalize drain parser lz4 true read.layout _ _ = c' at hd ⊢
    cases hd with
    | ok done rest hs hbf hh hl hw' =>
      rw [alignedFrom_cons_iff hw hs hbf hl]
      have hb' : c'.readBuffer ++ incoming reads = wires lz4 rest := by
        rw [hs, wires_append] at hb
        dsimp only at hbf
        rw [hbf, append_assoc] at hb
        exact append_cancel_left hb
      rw [← ih hw' hb', hh, hs, map_append, append_assoc]
    | wrong done s rest hs hc hcs hwr =>
      refine iff_of_false ?_ (not_alignedFrom_cons hw hs hc hcs)
      have hhn : c.handled ++ sends.map (Sent.event lz4) =
          (c.handled ++ done.map (Sent.event lz4)) ++ s.event lz4 :: rest.map (Sent.event lz4) := by
        rw [hs, map_append, map_cons, append_assoc]
      rw [hhn]
      exact (hwr.foldl reads).not_handed

end

def announcedHeader (bytes : Bytes) : Nat :=
  if bytes.headD 0 &&& 0x80 ≠ 0 then headerBytesCompressed else headerBytes

/-- Bytes are missing, of the header or of the message that it announces. The hint for the next read is
changed to the number of missing bytes once they are known. -/
def WaitsFor (bytes : Bytes) (hint hint' : Nat) : Prop :=
  (bytes.length < announcedHeader bytes ∧ hint' = hint) ∨
    ∃ header, parseMessageHeader bytes = .ok header ∧ 0 < hint' ∧
      bytes.length + hint' = header.totalWireSize

theorem parseMessageHeader_incomplete (h : parseMessageHeader bytes = .error none) :
    bytes.length < announcedHeader bytes := by
  rw [parseMessageHeader] at h
  rw [announcedHeader]
  split_ifs at h ⊢ <;> first | assumption | cases h

theorem totalWireSize_pos {header : MessageHeader} (h : parseMessageHeader bytes = .ok header) :
    0 < header.totalWireSize := by
  rw [parseMessageHeader] at h
  split_ifs at h <;> cases h <;> simp only [headerBytes, headerBytesCompressed] <;> omega

theorem dispatch_consumed (header : MessageHeader) (buffers : List Bytes) (hint : Nat) :
    (dispatch parser lz4 header buffers hint).consumed = header.totalWireSize := by
  rw [dispatch]
  split
  · rfl
  · split <;> rfl

variable (parser lz4) in
theorem invokeProtocolMessage_bounds (compressionEnabled : Bool) (buffers : List Bytes) (hint : Nat) :
    let r := invokeProtocolMessage parser lz4 compressionEnabled buffers hint
    r.consumed ≤ buffers.flatten.length ∧ (r.consumed = 0 → r.ec = none →
        buffers.flatten = [] ∨ WaitsFor buffers.flatten hint r.hint) := by
  rw [invokeProtocolMessage]
  by_cases hz : buffers.flatten.length = 0
  · rw [if_pos hz]
    exact ⟨Nat.zero_le _, fun _ _ => .inl (length_eq_zero_iff.mp hz)⟩
  rw [if_neg hz]
  cases hp : parseMessageHeader buffers.flatten with
  | error ec =>
    refine ⟨Nat.zero_le _, fun _ hec => .inr (.inl ⟨?_, rfl⟩)⟩
    cases hec
    exact parseMessageHeader_incomplete hp
  | ok header =>
    dsimp only
    split_ifs with hs hc hm
    · exact ⟨Nat.zero_le _, fun _ hec => by cases hec⟩
    · exact ⟨Nat.zero_le _, fun _ hec => by cases hec⟩
    · refine ⟨Nat.zero_le _, fun _ _ => .inr (.inr ⟨header, hp, ?_, ?_⟩)⟩
      · dsimp only
        omega
      · dsimp only
        omega
    · rw [dispatch_consumed]
      refine ⟨by omega, fun hcn => ?_⟩
      have hpos := totalWireSize_pos hp
      omega

theorem drain_bounds (compressionEnabled : Bool) {layout : Layout} {turns : Nat}
    (ht : c.readBuffer.length ≤ turns) :
    let c' := drain parser lz4 compressionEnabled layout turns c
    c'.readBuffer <:+ c.readBuffer ∧
      (c'.failed = none → c'.readBuffer = [] ∨ ∃ hint, WaitsFor c'.readBuffer hint c'.hint) := by
  induction turns generalizing c with
  | zero =>
    have hnil : c.readBuffer = [] := length_eq_zero_iff.mp (by omega)
    exact ⟨suffix_rfl, fun _ => .inl hnil⟩
  | succ turns ih =>
    rw [drain]
    by_cases hz : c.readBuffer.length = 0
    · rw [if_pos hz]
      exact ⟨suffix_rfl, fun _ => .inl (length_eq_zero_iff.mp hz)⟩
    rw [if_neg hz]
    obtain ⟨hle, hw⟩ := invokeProtocolMessage_bounds parser lz4
      compressionEnabled (layout.segments c.readBuffer) c.hint
    rw [layout.flatten_segments] at hle hw
    generalize invokeProtocolMessage parser lz4 compressionEnabled
      (layout.segments c.readBuffer) c.hint = r at hle hw ⊢
    dsimp only
    cases hec : r.ec with
    | some ec => exact ⟨suffix_rfl, fun h => by cases h⟩
    | none =>
      split_ifs with hc
      · refine ⟨suffix_rfl, fun _ => ?_⟩
        exact (hw hc hec).imp_right (fun h => ⟨c.hint, h⟩)
      obtain ⟨hs, hr⟩ := ih (c := { c with
        hint := r.hint, handled := c.handled ++ r.event.toList
        readBuffer := c.readBuffer.drop r.consumed })
        (by rw [length_drop]; omega)
      exact ⟨hs.trans (drop_suffix _ _), hr⟩

theorem onReadMessage_bounds (compressionEnabled : Bool) (read : Read) (hf : c.failed = none) :
    let c' := onReadMessage parser lz4 compressionEnabled c read
    c'.readBuffer <:+ c.readBuffer ++ read.bytes ∧
      (c'.failed = none → c'.readBuffer = [] ∨ ∃ hint, WaitsFor c'.readBuffer hint c'.hint) := by
  rw [onReadMessage, if_neg (by simp [hf])]
  exact drain_bounds compressionEnabled (Nat.le_refl _)

structure Bounded (parser : Parser M) (lz4 : LZ4) (compressionEnabled : Bool) : Prop where
  consumed_le : ∀ buffers hint,
    (invokeProtocolMessage parser lz4 compressionEnabled buffers hint).consumed ≤
      buffers.flatten.length
  waits : ∀ buffers hint,
    (invokeProtocolMessage parser lz4 compressionEnabled buffers hint).consumed = 0 →
    (invokeProtocolMessage parser lz4 compressionEnabled buffers hint).ec = none →
      buffers.flatten = [] ∨ WaitsFor buffers.flatten hint
        (invokeProtocolMessage parser lz4 compressionEnabled buffers hint).hint
  keeps_suffix : ∀ c read, c.failed = none →
    (onReadMessage parser lz4 compressionEnabled c read).readBuffer <:+ c.readBuffer ++ read.bytes
  waits_after : ∀ c read, (onReadMessage parser lz4 compressionEnabled c read).failed = none →
    (onReadMessage parser lz4 compressionEnabled c read).readBuffer = [] ∨
      ∃ hint, WaitsFor (onReadMessage parser lz4 compressionEnabled c read).readBuffer hint
        (onReadMessage parser lz4 compressionEnabled c read).hint

/-- Messages sent to a peer with compression are handed to its handler as they were sent, however their
bytes are spread over reads and segments, exactly if those that travel uncompressed end where a read
ends and are smaller than the maximum. -/
theorem messages_handed_iff_aligned (parser : Parser M) (lz4 : LZ4) {sends : List (Sent parser)}
    {reads : List Read} (hbytes : incoming reads = wires lz4 sends) :
    (((readAll parser lz4 true reads).handled = sends.map (Sent.event lz4) ∧
      (readAll parser lz4 true reads).failed = none) ↔ Aligned lz4 sends reads) ∧
      ∀ compressionEnabled, Bounded parser lz4 compressionEnabled := by
  constructor
  · have hwaiting : Waiting lz4 sends ({} : Connection M) := by
      refine ⟨rfl, ?_⟩
      intro s rest hsends
      exact s.length_wire_pos lz4
    exact foldl_onReadMessage_iff hwaiting hbytes
  · intro compressionEnabled
    exact {
      consumed_le := fun buffers hint =>
        (invokeProtocolMessage_bounds parser lz4 compressionEnabled buffers hint).1
      waits := fun buffers hint =>
        (invokeProtocolMessage_bounds parser lz4 compressionEnabled buffers hint).2
      keeps_suffix := fun c read hfailed => (onReadMessage_bounds compressionEnabled read hfailed).1
      waits_after := by
        intro c read hnone
        by_cases hfailed : c.failed = none
        · exact (onReadMessage_bounds compressionEnabled read hfailed).2 hnone
        · rw [onReadMessage, if_pos (by simpa [Option.isSome_iff_ne_none] using hfailed)] at hnone
          exact absurd hnone hfailed }

/-- A library that knows how to compress zeros, and a parser that takes any content. -/
def zerosLZ4 : LZ4 where
  compress data := if data = replicate data.length 0 then [0] else data
  decompressSafe data size :=
    if data = [0] then some (replicate size 0) else if data.length = size then some data else none
  lossless data _ := by
    by_cases hzeros : data = replicate data.length 0
    · rw [if_pos hzeros, if_pos rfl, ← hzeros]
    · have hne : data ≠ [0] := fun h => hzeros (by rw [h]; rfl)
      rw [if_neg hzeros, if_neg hne, if_pos rfl]

def anyContent : Parser Bytes := fun _ bytes => some bytes

def sent (type : MessageType) (payload : Bytes) (hne : payload ≠ [])
    (hsize : payload.length ≤ maximiumMessageSize) : Sent anyContent where
  type := type
  payload := payload
  content := payload
  tryCompressed := .On
  nonempty := hne
  size_le := hsize
  parses := rfl

def ping (byte : UInt8) : Sent anyContent :=
  sent .mtPING [byte] (by simp) (show 1 ≤ maximiumMessageSize by decide)

/-- Manifests that travel compressed. -/
def zeros : Sent anyContent := sent .mtMANIFESTS (replicate 100 0) (by simp) (by decide)

def oneSegment : Layout where
  segments bytes := [bytes]
  flatten_segments := by simp

def together (sends : List (Sent anyContent)) : Read := ⟨wires zerosLZ4 sends, oneSegment⟩

/-- The first of two messages in the buffer is parsed from the bytes of both. -/
theorem messages_run_together :
    incoming [together [ping 1, ping 2]] = wires zerosLZ4 [ping 1, ping 2] ∧
      (readAll anyContent zerosLZ4 true [together [ping 1, ping 2]]).handled ≠
        [ping 1, ping 2].map (Sent.event zerosLZ4) := by
  decide

/-- What follows a compressed message in the buffer is left alone. -/
theorem messages_handed_iff_aligned_apart :
    let sends := [ping 1, zeros, ping 2]
    let reads := [together [ping 1], together [zeros, ping 2]]
    zeros.isCompressed zerosLZ4 ∧ Aligned zerosLZ4 sends reads ∧
      (readAll anyContent zerosLZ4 true reads).handled = sends.map (Sent.event zerosLZ4) := by
  have hhandled : (readAll anyContent zerosLZ4 true
      [together [ping 1], together [zeros, ping 2]]).handled =
      [ping 1, zeros, ping 2].map (Sent.event zerosLZ4) := by
    decide +kernel
  obtain ⟨haligned, -⟩ := messages_handed_iff_aligned anyContent zerosLZ4
    (show incoming [together [ping 1], together [zeros, ping 2]] =
      wires zerosLZ4 [ping 1, zeros, ping 2] by decide +kernel)
  exact ⟨by decide +kernel, haligned.mp ⟨hhandled, by decide +kernel⟩, hhandled⟩

end Reading

end Rippled.Protocol
