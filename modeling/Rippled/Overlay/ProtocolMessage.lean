import Mathlib.Init

namespace Rippled.Protocol

abbrev Bytes := List UInt8

def maximiumMessageSize : Nat := 64 * 1024 * 1024

namespace Compression

def headerBytes : Nat := 6

def headerBytesCompressed : Nat := 10

inductive Algorithm
  | None
  | LZ4
deriving DecidableEq

def Algorithm.code : Algorithm → UInt8
  | .None => 0x00
  | .LZ4 => 0x90

inductive Compressed
  | On
  | Off
deriving DecidableEq

/-- The LZ4 library. What it compressed it restores, given the original size. -/
structure LZ4 where
  compress : Bytes → Bytes
  decompressSafe : Bytes → Nat → Option Bytes
  lossless : ∀ data, data ≠ [] → decompressSafe (compress data) data.length = some data

end Compression

open Compression

inductive MessageType
  | mtMANIFESTS
  | mtPING
  | mtCLUSTER
  | mtENDPOINTS
  | mtTRANSACTION
  | mtGET_LEDGER
  | mtLEDGER_DATA
  | mtPROPOSE_LEDGER
  | mtSTATUS_CHANGE
  | mtHAVE_SET
  | mtVALIDATION
  | mtGET_OBJECTS
  | mtGET_SHARD_INFO
  | mtSHARD_INFO
  | mtGET_PEER_SHARD_INFO
  | mtPEER_SHARD_INFO
  | mtVALIDATORLIST
  | mtSQUELCH
  | mtVALIDATORLISTCOLLECTION
  | mtPROOF_PATH_REQ
  | mtPROOF_PATH_RESPONSE
  | mtREPLAY_DELTA_REQ
  | mtREPLAY_DELTA_RESPONSE
deriving DecidableEq

namespace MessageType

def code : MessageType → Nat
  | mtMANIFESTS => 2
  | mtPING => 3
  | mtCLUSTER => 5
  | mtENDPOINTS => 15
  | mtTRANSACTION => 30
  | mtGET_LEDGER => 31
  | mtLEDGER_DATA => 32
  | mtPROPOSE_LEDGER => 33
  | mtSTATUS_CHANGE => 34
  | mtHAVE_SET => 35
  | mtVALIDATION => 41
  | mtGET_OBJECTS => 42
  | mtGET_SHARD_INFO => 50
  | mtSHARD_INFO => 51
  | mtGET_PEER_SHARD_INFO => 52
  | mtPEER_SHARD_INFO => 53
  | mtVALIDATORLIST => 54
  | mtSQUELCH => 55
  | mtVALIDATORLISTCOLLECTION => 56
  | mtPROOF_PATH_REQ => 57
  | mtPROOF_PATH_RESPONSE => 58
  | mtREPLAY_DELTA_REQ => 59
  | mtREPLAY_DELTA_RESPONSE => 60

def all : List MessageType :=
  [mtMANIFESTS, mtPING, mtCLUSTER, mtENDPOINTS, mtTRANSACTION, mtGET_LEDGER, mtLEDGER_DATA,
    mtPROPOSE_LEDGER, mtSTATUS_CHANGE, mtHAVE_SET, mtVALIDATION, mtGET_OBJECTS, mtGET_SHARD_INFO,
    mtSHARD_INFO, mtGET_PEER_SHARD_INFO, mtPEER_SHARD_INFO, mtVALIDATORLIST, mtSQUELCH,
    mtVALIDATORLISTCOLLECTION, mtPROOF_PATH_REQ, mtPROOF_PATH_RESPONSE, mtREPLAY_DELTA_REQ,
    mtREPLAY_DELTA_RESPONSE]

def ofCode? (n : Nat) : Option MessageType := all.find? fun type => type.code == n

@[simp] theorem ofCode?_code (type : MessageType) : ofCode? type.code = some type := by
  cases type <;> rfl

theorem code_lt (type : MessageType) : type.code < 65536 := by
  cases type <;> decide

def compressible : MessageType → Bool
  | mtMANIFESTS | mtENDPOINTS | mtTRANSACTION | mtGET_LEDGER | mtLEDGER_DATA | mtGET_OBJECTS
  | mtVALIDATORLIST | mtVALIDATORLISTCOLLECTION | mtREPLAY_DELTA_RESPONSE => true
  | _ => false

end MessageType

structure Message where
  type : MessageType
  payload : Bytes

namespace Message

/-- Four bytes, of which the leftmost four bits are left for the compression algorithm. -/
def pack (size : Nat) : Bytes :=
  [UInt8.ofNat (size >>> 24 &&& 0x0F), UInt8.ofNat (size >>> 16 &&& 0xFF),
    UInt8.ofNat (size >>> 8 &&& 0xFF), UInt8.ofNat (size &&& 0xFF)]

def packType (type : Nat) : Bytes := [UInt8.ofNat (type >>> 8 &&& 0xFF), UInt8.ofNat (type &&& 0xFF)]

def mark (compression : Algorithm) : Bytes → Bytes
  | [] => []
  | b :: rest => (b ||| compression.code) :: rest

def setHeader (payloadBytes type : Nat) (compression : Algorithm) (uncompressedBytes : Nat) : Bytes :=
  match compression with
  | .None => pack payloadBytes ++ packType type
  | .LZ4 => mark .LZ4 (pack payloadBytes ++ packType type ++ pack uncompressedBytes)

def buffer (m : Message) : Bytes :=
  setHeader m.payload.length m.type.code .None 0 ++ m.payload

def compressible (m : Message) : Bool :=
  if m.payload.length ≤ 70 then false else m.type.compressible

variable (lz4 : LZ4) (m : Message)

/-- The compressed form, or nothing if it is not tried or not worth it. -/
def bufferCompressed : Bytes :=
  if m.compressible then
    let compressed := lz4.compress m.payload
    if compressed.length < m.payload.length - (headerBytesCompressed - headerBytes) then
      setHeader compressed.length m.type.code .LZ4 m.payload.length ++ compressed
    else []
  else []

def getBuffer (tryCompressed : Compressed) : Bytes :=
  if tryCompressed = .Off then m.buffer
  else if (m.bufferCompressed lz4).length > 0 then m.bufferCompressed lz4
  else m.buffer

end Message

inductive Errc
  | protocolError
  | noMessage
  | messageSize
  | badMessage
deriving DecidableEq

section Header

structure MessageHeader where
  /-- The sum of the sizes of the header and the payload. -/
  totalWireSize : Nat
  headerSize : Nat
  payloadWireSize : Nat
  uncompressedSize : Nat
  messageType : Nat
  algorithm : Algorithm
deriving DecidableEq

def bigEndian (bytes : Bytes) : Nat := bytes.foldl (fun n b => n * 256 + b.toNat) 0

/-- The header at the beginning of the buffers. It fails with no error if there are not enough bytes. -/
def parseMessageHeader (bufs : Bytes) : Except (Option Errc) MessageHeader :=
  let first := bufs.headD 0
  if first &&& 0x80 ≠ 0 then
    if bufs.length < headerBytesCompressed then .error none
    else if first &&& 0x0C ≠ 0 then .error (some .protocolError)
    else if first &&& 0xF0 ≠ Algorithm.LZ4.code then .error (some .protocolError)
    else
      -- clear the top four bits (the compression bits)
      let payloadWireSize := bigEndian (bufs.take 4) &&& 0x0FFFFFFF
      .ok {
        headerSize := headerBytesCompressed
        payloadWireSize
        totalWireSize := headerBytesCompressed + payloadWireSize
        messageType := bigEndian ((bufs.drop 4).take 2)
        uncompressedSize := bigEndian ((bufs.drop 6).take 4)
        algorithm := .LZ4 }
  else if first &&& 0xFC = 0 then
    if bufs.length < headerBytes then .error none
    else
      let payloadWireSize := bigEndian (bufs.take 4)
      .ok {
        headerSize := headerBytes
        payloadWireSize
        totalWireSize := headerBytes + payloadWireSize
        messageType := bigEndian ((bufs.drop 4).take 2)
        uncompressedSize := payloadWireSize
        algorithm := .None }
  else .error (some .noMessage)

end Header

section Stream

/-- A stream over a sequence of buffers: those passed already, the last one first, and those to come,
the first of which is read from `pos` on. -/
structure ZeroCopyInputStream where
  count : Nat
  passed : List Bytes
  first : List Bytes
  pos : Bytes

namespace ZeroCopyInputStream

def new (buffers : List Bytes) : ZeroCopyInputStream where
  count := 0
  passed := []
  first := buffers
  pos := buffers.headD []

variable (s : ZeroCopyInputStream)

/-- The next buffer. At the end of the sequence it is reported with what was last looked at. -/
def next : Bool × Bytes × ZeroCopyInputStream :=
  match s.first with
  | [] => (false, s.pos, s)
  | b :: first =>
    (true, s.pos,
      { count := s.count + s.pos.length, passed := b :: s.passed, first, pos := first.headD [] })

def backUp (count : Nat) : ZeroCopyInputStream :=
  match s.passed with
  | [] => s
  | b :: passed =>
    { count := s.count - count, passed, first := b :: s.first, pos := b.drop (b.length - count) }

def skipFrom (total : Nat) (passed : List Bytes) (pos : Bytes) :
    List Bytes → Nat → Bool × ZeroCopyInputStream
  | [], _ => (false, { count := total, passed, first := [], pos })
  | b :: first, count =>
    if count = 0 then (true, { count := total, passed, first := b :: first, pos })
    else if count < pos.length then
      (true, { count := total + count, passed, first := b :: first, pos := pos.drop count })
    else
      match first with
      | [] => (false, { count := total + pos.length, passed := b :: passed, first := [], pos })
      | b' :: rest =>
        skipFrom (total + pos.length) (b :: passed) b' (b' :: rest) (count - pos.length)

def skip (count : Nat) : Bool × ZeroCopyInputStream :=
  skipFrom s.count s.passed s.pos s.first count

def remaining : Bytes :=
  match s.first with
  | [] => []
  | _ :: first => s.pos ++ first.flatten

end ZeroCopyInputStream

end Stream

section Decompress

variable (lz4 : LZ4)

def lz4DecompressChunk (chunk : Bytes) (inSize decompressedSize : Nat) : Option Bytes :=
  match lz4.decompressSafe (chunk.take inSize) decompressedSize with
  | none => none
  | some out => if out.length = 0 ∨ out.length ≠ decompressedSize then none else some out

/-- What the loop over the chunks ends with: the bytes to be decompressed, how many bytes the last
chunk had, how many bytes were taken, and the stream. -/
structure Gathered where
  chunk : Bytes
  chunkSize : Nat
  copiedInSize : Nat
  stream : ZeroCopyInputStream

/-- Use the first chunk if it is large enough. Otherwise copy as many chunks as needed. The number of
buffers bounds the turns. -/
def gather (inSize : Nat) : Nat → Bytes → ZeroCopyInputStream → Gathered
  | 0, compressed, s => ⟨s.pos, s.pos.length, compressed.length, s⟩
  | turns + 1, compressed, s =>
    match s.next with
    | (false, chunk, s) => ⟨chunk, chunk.length, compressed.length, s⟩
    | (true, chunk, s) =>
      if compressed.length = 0 ∧ inSize ≤ chunk.length then ⟨chunk, chunk.length, inSize, s⟩
      else
        let taken := chunk.take (inSize - compressed.length)
        let compressed := compressed ++ taken
        if compressed.length = inSize then ⟨compressed, taken.length, inSize, s⟩
        else gather inSize turns compressed s

def lz4Decompress (s : ZeroCopyInputStream) (inSize decompressedSize : Nat) :
    Option Bytes × ZeroCopyInputStream :=
  let g := gather inSize (s.first.length + 1) [] s
  -- put back unused bytes
  let stream :=
    if g.stream.count > s.count + g.copiedInSize then
      g.stream.backUp (g.stream.count - s.count - g.copiedInSize)
    else g.stream
  if (g.copiedInSize = 0 ∧ g.chunkSize < inSize) ∨ (g.copiedInSize > 0 ∧ g.copiedInSize ≠ inSize) then
    (none, stream)
  else (lz4DecompressChunk lz4 g.chunk inSize decompressedSize, stream)

end Decompress

section Invoke

abbrev Parser (M : Type) := MessageType → Bytes → Option M

variable {M : Type} (parser : Parser M) (lz4 : LZ4)

def parseMessageContent (type : MessageType) (header : MessageHeader) (buffers : List Bytes) :
    Option (Bytes × M) :=
  let stream := ((ZeroCopyInputStream.new buffers).skip header.headerSize).2
  match header.algorithm with
  | .LZ4 =>
    match (lz4Decompress lz4 stream header.payloadWireSize header.uncompressedSize).1 with
    | none => none
    | some payload => (parser type payload).map fun m => (payload, m)
  | .None => (parser type stream.remaining).map fun m => (stream.remaining, m)

structure Handed (M : Type) where
  type : MessageType
  message : M
  payloadWireSize : Nat
  uncompressedSize : Nat
  isCompressed : Bool
  parsedFrom : Bytes
deriving DecidableEq

inductive Event (M : Type)
  | onMessage (handed : Handed M)
  | onMessageUnknown (messageType : Nat)
deriving DecidableEq

def invoke (type : MessageType) (header : MessageHeader) (buffers : List Bytes) : Option (Event M) :=
  (parseMessageContent parser lz4 type header buffers).map fun content =>
    .onMessage {
      type
      message := content.2
      payloadWireSize := header.payloadWireSize
      uncompressedSize := header.uncompressedSize
      isCompressed := header.algorithm ≠ .None
      parsedFrom := content.1 }

/-- The bytes consumed and the error, the hint for the next read, and what the handler was called
with. -/
structure Invoked (M : Type) where
  consumed : Nat := 0
  ec : Option Errc := none
  hint : Nat
  event : Option (Event M) := none

/-- Hand over the complete message at the beginning of the buffers. -/
def dispatch (header : MessageHeader) (buffers : List Bytes) (hint : Nat) : Invoked M :=
  match MessageType.ofCode? header.messageType with
  | none =>
    { consumed := header.totalWireSize, hint, event := some (.onMessageUnknown header.messageType) }
  | some type =>
    match invoke parser lz4 type header buffers with
    | none => { consumed := header.totalWireSize, ec := some .badMessage, hint }
    | some event => { consumed := header.totalWireSize, hint, event := some event }

def invokeProtocolMessage (compressionEnabled : Bool) (buffers : List Bytes) (hint : Nat) : Invoked M :=
  let size := buffers.flatten.length
  if size = 0 then { hint }
  else
    match parseMessageHeader buffers.flatten with
    | .error ec => { ec, hint }
    | .ok header =>
      if header.payloadWireSize > maximiumMessageSize ∨
          header.uncompressedSize > maximiumMessageSize then
        { ec := some .messageSize, hint }
      else if !compressionEnabled ∧ header.algorithm ≠ .None then
        { ec := some .protocolError, hint }
      else if header.totalWireSize > size then { hint := header.totalWireSize - size }
      else dispatch parser lz4 header buffers hint

end Invoke

section ReadLoop

def readBufferBytes : Nat := 16384

structure Layout where
  segments : Bytes → List Bytes
  flatten_segments : ∀ bytes, (segments bytes).flatten = bytes

structure Read where
  bytes : Bytes
  layout : Layout

structure Connection (M : Type) where
  readBuffer : Bytes := []
  hint : Nat := readBufferBytes
  handled : List (Event M) := []
  failed : Option Errc := none

variable {M : Type} (parser : Parser M) (lz4 : LZ4) (compressionEnabled : Bool)

def drain (layout : Layout) : Nat → Connection M → Connection M
  | 0, c => c
  | turns + 1, c =>
    if c.readBuffer.length = 0 then c
    else
      let r := invokeProtocolMessage parser lz4 compressionEnabled (layout.segments c.readBuffer) c.hint
      let c := { c with hint := r.hint, handled := c.handled ++ r.event.toList }
      match r.ec with
      | some ec => { c with failed := some ec }
      | none =>
        if r.consumed = 0 then c
        else drain layout turns { c with readBuffer := c.readBuffer.drop r.consumed }

/-- Nothing is read any more after an error. Every turn consumes a byte, so their number is bounded
by the size of the buffer. -/
def onReadMessage (c : Connection M) (read : Read) : Connection M :=
  if c.failed.isSome then c
  else
    let readBuffer := c.readBuffer ++ read.bytes
    drain parser lz4 compressionEnabled read.layout readBuffer.length
      { c with readBuffer, hint := readBufferBytes }

def readAll (reads : List Read) : Connection M :=
  reads.foldl (onReadMessage parser lz4 compressionEnabled) {}

end ReadLoop

end Rippled.Protocol
