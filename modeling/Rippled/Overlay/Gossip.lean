import Rippled.Lib.OrdMap
import Rippled.Lib.Run
import Rippled.Overlay.Framing

namespace Rippled.Gossip

open Lib Protocol Compression List Function

variable {N PK S M : Type} {parser : Parser M} {lz4 : LZ4}

section Model

structure Naming (N PK S : Type) where
  nodeKey : N → PK
  toBase58 : PK → S
  /-- What the shell prints for the file in which a node keeps its own key. -/
  keyOut : N → S

structure PeerImp (PK : Type) where
  id : Nat
  publicKey : PK
  compressionEnabled : Bool
  gracefulClose : Bool := false
  /-- Set when the socket is closed. -/
  detaching : Bool := false

/-- The overlay of a node. The peers are in the order in which they were created; those that are closed
stay alive in the table, from which nothing is removed. -/
structure OverlayImpl (PK S M : Type) [LinearOrder S] where
  nextId : Nat := 0
  peers : List (PeerImp PK) := []
  peerObjs : OrdMap S (Option Nat) := OrdMap.empty
  /-- The calls to the handlers of the peers. -/
  handled : List (Nat × Event M) := []

variable [DecidableEq N] [LinearOrder S] (lz4) (naming : Naming N PK S)

structure Validation (parser : Parser M) extends Sent parser where
  isValidation : type = .mtVALIDATION

structure Published (N S : Type) (parser : Parser M) where
  publisher : N
  key : S
  message : Bytes
  validation : Validation parser

structure Network (N PK S M : Type) [LinearOrder S] (parser : Parser M) where
  overlay : N → OverlayImpl PK S M
  published : List (Published N S parser) := []

namespace OverlayImpl

variable (o : OverlayImpl PK S M)

/-- Enter a new peer into the translation table, after the handshake on either side. -/
def activate (publicKey : PK) (compressionEnabled : Bool) : OverlayImpl PK S M :=
  { o with
    nextId := o.nextId + 1
    peers := o.peers ++ [{ id := o.nextId, publicKey, compressionEnabled }]
    peerObjs := o.peerObjs.insert (naming.toBase58 publicKey) (some o.nextId) }

def modifyPeer (id : Nat) (f : PeerImp PK → PeerImp PK) : OverlayImpl PK S M :=
  { o with peers := o.peers.map fun p => if p.id = id then f p else p }

def findPeer (id : Nat) : Option (PeerImp PK) := o.peers.find? fun p => p.id = id

end OverlayImpl

section

variable (n : N) (v : Validation parser) (validator : Option PK)

/-- Hand a validation to the gossip layer, under the validator's key or the node's own. -/
def toLibP2P (tryCompressed : Compressed) : Published N S parser where
  publisher := n
  key := match validator with
    | some validatorKey => naming.toBase58 validatorKey
    | none => naming.keyOut n
  message := v.toMessage.getBuffer lz4 tryCompressed
  validation := v

def PeerImp.send (p : PeerImp PK) : Option (Published N S parser) :=
  if p.gracefulClose then none
  else if p.detaching then none
  else some (toLibP2P lz4 naming n v validator (if p.compressionEnabled then .On else .Off))

end

/-- The messages in the buffer of a call are handed to one peer after the other. -/
def proceedLoop (parser : Parser M) (compressionEnabled : Bool) (layout : Layout) :
    Nat → Bytes → List (Event M)
  | 0, _ => []
  | turns + 1, readBuffer =>
    if readBuffer.length = 0 then []
    else
      let r := invokeProtocolMessage parser lz4 compressionEnabled (layout.segments readBuffer) 0
      if r.consumed = 0 then r.event.toList
      else r.event.toList ++
        proceedLoop parser compressionEnabled layout turns (readBuffer.drop r.consumed)

/-- Handle a call of the gossip layer. The table is asked with an operator that enters a null pointer
for a key that it does not have, and dereferencing a null pointer ends the handling. -/
def proceed (parser : Parser M) (layout : Layout) (o : OverlayImpl PK S M) (validator_key : S)
    (message : Bytes) : OverlayImpl PK S M :=
  match o.peerObjs.find? validator_key with
  | none => { o with peerObjs := o.peerObjs.insert validator_key none }
  | some none => o
  | some (some id) =>
    match o.findPeer id with
    | none => o
    | some peerObject =>
      { o with
        handled := o.handled ++
          (proceedLoop lz4 parser peerObject.compressionEnabled layout message.length message).map
            fun e => (id, e) }

inductive Action (N PK : Type) (parser : Parser M)
  | connect (n : N) (publicKey : PK) (compressionEnabled : Bool)
  | gracefulClose (n : N) (id : Nat)
  | close (n : N) (id : Nat)
  | broadcast (n : N) (v : Validation parser)
  /-- The peers to skip, or nothing if the validation was relayed before. -/
  | relay (n : N) (v : Validation parser) (toSkip : Option (List Nat)) (validator : PK)
  /-- The gossip layer delivers what was published as the given number. -/
  | deliver (n : N) (number : Nat) (layout : Layout)

namespace Network

variable [DecidableEq PK]

def Connected (s : Network N PK S M parser) (n other : N) : Prop :=
  ∃ p ∈ (s.overlay n).peers, p.publicKey = naming.nodeKey other ∧ p.detaching = false

instance (s : Network N PK S M parser) (n other : N) : Decidable (s.Connected naming n other) :=
  inferInstanceAs (Decidable (∃ p ∈ (s.overlay n).peers, _))

def update (s : Network N PK S M parser) (n : N) (f : OverlayImpl PK S M → OverlayImpl PK S M) :
    Network N PK S M parser :=
  { s with overlay := Function.update s.overlay n (f (s.overlay n)) }

variable (s : Network N PK S M parser)

def sendAll (n : N) (v : Validation parser) (toSkip : List Nat) (validator : Option PK) :
    Network N PK S M parser :=
  { s with
    published := s.published ++
      ((s.overlay n).peers.filter fun p => !toSkip.contains p.id).filterMap
        (PeerImp.send lz4 naming n v validator) }

def step : Action N PK parser → Network N PK S M parser
  | .connect n publicKey compressionEnabled =>
    s.update n fun o => o.activate naming publicKey compressionEnabled
  | .gracefulClose n id => s.update n fun o => o.modifyPeer id fun p => { p with gracefulClose := true }
  | .close n id => s.update n fun o => o.modifyPeer id fun p => { p with detaching := true }
  | .broadcast n v => s.sendAll lz4 naming n v [] none
  | .relay n v toSkip validator =>
    match toSkip with
    | none => s
    | some toSkip => s.sendAll lz4 naming n v toSkip (some validator)
  | .deliver n number layout =>
    match s.published[number]? with
    | none => s
    | some p =>
      if s.Connected naming n p.publisher then
        s.update n fun o => proceed lz4 parser layout o p.key p.message
      else s

end Network

end Model

section Receiving

variable (v : Validation parser)

theorem Validation.bufferCompressed_eq : v.toMessage.bufferCompressed lz4 = [] := by
  rw [Message.bufferCompressed, if_neg]
  rw [Message.compressible, v.isValidation]
  simp [MessageType.compressible]

theorem Validation.isCompressed_eq : v.isCompressed lz4 = false := by
  simp [Sent.isCompressed, v.bufferCompressed_eq]

theorem Validation.getBuffer_eq (tryCompressed : Compressed) :
    v.toMessage.getBuffer lz4 tryCompressed = v.wire lz4 := by
  simp [Sent.wire, Message.getBuffer, v.bufferCompressed_eq]

variable (compressionEnabled : Bool) (layout : Layout)

theorem proceedLoop_nil (turns : Nat) :
    proceedLoop lz4 parser compressionEnabled layout turns [] = [] := by
  cases turns <;> rfl

theorem proceedLoop_validation :
    proceedLoop lz4 parser compressionEnabled layout (v.wire lz4).length (v.wire lz4) =
      if v.payload.length < maximiumMessageSize then [v.event lz4] else [] := by
  have hpos := v.length_wire_pos lz4
  have hc : v.isCompressed lz4 = false := v.isCompressed_eq
  have hne : v.wire lz4 ≠ [] := ne_nil_of_length_pos hpos
  have hf : (layout.segments (v.wire lz4)).flatten = v.wire lz4 := layout.flatten_segments _
  obtain ⟨turns, ht⟩ : ∃ turns, (v.wire lz4).length = turns + 1 := ⟨_, (Nat.succ_pred hpos.ne').symm⟩
  rw [ht, proceedLoop, if_neg hpos.ne']
  split_ifs with hs
  · have hw : (layout.segments (v.wire lz4)).flatten = v.wire lz4 ++ [] := by
      rw [hf, append_nil]
    have hcn : parseMessageContent parser lz4 v.type (v.header lz4)
        (layout.segments (v.wire lz4)) = some (v.payload, v.content) := by
      rw [v.parseMessageContent_uncompressed lz4 hc hw, append_nil, v.parses]
      rfl
    rw [v.invoke_complete lz4 0 (.inr hs) (.inr hc) hw, v.dispatch_eq, hcn]
    simp only [Option.elim_some, drop_length, proceedLoop_nil]
    rw [if_neg hpos.ne']
    rfl
  · have hft : ¬ v.Fits lz4 := by simp [Sent.Fits, hc, hs]
    have hp := parseMessageHeader_oversize hft hne (prefix_append _ [])
    rw [invokeProtocolMessage, hf, if_neg hpos.ne', hp]
    rfl

end Receiving

section Table

variable [LinearOrder S] (naming : Naming N PK S)

namespace OverlayImpl

def lastPeer (o : OverlayImpl PK S M) (key : S) : Option (PeerImp PK) :=
  (o.peers.filter fun p => naming.toBase58 p.publicKey = key).getLast?

/-- Every peer has its own identifier, and the table has the last peer for each key. -/
structure Consistent (o : OverlayImpl PK S M) : Prop where
  ids : (o.peers.map PeerImp.id).Nodup
  fresh : ∀ p ∈ o.peers, p.id < o.nextId
  table : ∀ key p, o.lastPeer naming key = some p → o.peerObjs.find? key = some (some p.id)
  known : ∀ key id, o.peerObjs.find? key = some (some id) →
    ∃ p, o.lastPeer naming key = some p ∧ p.id = id

variable {naming} {o : OverlayImpl PK S M}

theorem lastPeer_activate (publicKey : PK) (compressionEnabled : Bool) (key : S) :
    (o.activate naming publicKey compressionEnabled).lastPeer naming key =
      if key = naming.toBase58 publicKey then
        some { id := o.nextId, publicKey, compressionEnabled }
      else o.lastPeer naming key := by
  simp only [lastPeer, activate, filter_append]
  split_ifs with hkey
  · simp [hkey]
  · simp [Ne.symm hkey]

theorem lastPeer_modifyPeer (id : Nat) {f : PeerImp PK → PeerImp PK}
    (hkey : ∀ p, (f p).publicKey = p.publicKey) (key : S) :
    (o.modifyPeer id f).lastPeer naming key =
      (o.lastPeer naming key).map fun p => if p.id = id then f p else p := by
  have hf : ∀ p : PeerImp PK,
      naming.toBase58 (if p.id = id then f p else p).publicKey = naming.toBase58 p.publicKey := by
    intro p
    split_ifs
    · rw [hkey]
    · rfl
  simp only [lastPeer, modifyPeer, filter_map, comp_def, hf, getLast?_map]

namespace Consistent

theorem init : Consistent naming ({} : OverlayImpl PK S M) where
  ids := nodup_nil
  fresh := by simp
  table := by simp [lastPeer]
  known := by simp

variable (h : o.Consistent naming)

include h

theorem activate (publicKey : PK) (compressionEnabled : Bool) :
    (o.activate naming publicKey compressionEnabled).Consistent naming where
  ids := by
    simp only [OverlayImpl.activate, map_append, map_cons, map_nil, nodup_append]
    refine ⟨h.ids, by simp, ?_⟩
    intro id hid id' hid' heq
    obtain ⟨p, hp, rfl⟩ := mem_map.mp hid
    have hlt := h.fresh p hp
    rw [mem_singleton.mp hid'] at heq
    omega
  fresh := by
    intro p hp
    simp only [OverlayImpl.activate, mem_append, mem_singleton] at hp ⊢
    rcases hp with hp | rfl
    · have hlt := h.fresh p hp
      omega
    · exact Nat.lt_succ_self _
  table := by
    intro key p hp
    rw [lastPeer_activate] at hp
    rw [OverlayImpl.activate, OrdMap.find?_insert]
    split_ifs at hp ⊢
    · cases hp
      rfl
    · exact h.table key p hp
  known := by
    intro key id hid
    rw [lastPeer_activate]
    rw [OverlayImpl.activate, OrdMap.find?_insert] at hid
    split_ifs at hid ⊢
    · exact ⟨_, rfl, Option.some.inj (Option.some.inj hid)⟩
    · exact h.known key id hid

theorem modifyPeer (id : Nat) {f : PeerImp PK → PeerImp PK}
    (hkey : ∀ p, (f p).publicKey = p.publicKey) (hid : ∀ p, (f p).id = p.id) :
    (o.modifyPeer id f).Consistent naming := by
  have hs : ∀ p : PeerImp PK, (if p.id = id then f p else p).id = p.id := by
    intro p
    split_ifs
    · exact hid p
    · rfl
  constructor
  · simpa only [OverlayImpl.modifyPeer, map_map, comp_def, hs] using h.ids
  · intro p hp
    obtain ⟨p, hmem, rfl⟩ := mem_map.mp hp
    rw [hs]
    exact h.fresh p hmem
  · intro key p hp
    rw [lastPeer_modifyPeer id hkey] at hp
    obtain ⟨p, hl, rfl⟩ := Option.map_eq_some_iff.mp hp
    rw [hs]
    exact h.table key p hl
  · intro key id' hid'
    obtain ⟨p, hl, hp⟩ := h.known key id' hid'
    refine ⟨_, (lastPeer_modifyPeer id hkey key).trans (congrArg _ hl), ?_⟩
    exact (hs p).trans hp

theorem proceed (layout : Layout) (key : S) (message : Bytes) {parser : Parser M} {lz4 : LZ4} :
    (proceed lz4 parser layout o key message).Consistent naming := by
  rw [Gossip.proceed]
  split
  next hn =>
    refine ⟨h.ids, h.fresh, ?_, ?_⟩
    · intro key' p hp
      have hf := h.table key' p hp
      rw [OrdMap.find?_insert, if_neg, hf]
      rintro rfl
      rw [hn] at hf
      cases hf
    · intro key' id hid
      rw [OrdMap.find?_insert] at hid
      split_ifs at hid with hkey
      · cases hid
      · exact h.known key' id hid
  next => exact h
  next =>
    split
    · exact h
    · exact ⟨h.ids, h.fresh, h.table, h.known⟩

theorem findPeer_eq {p : PeerImp PK} (hp : p ∈ o.peers) : o.findPeer p.id = some p := by
  rw [findPeer, find?_eq_some_iff_append]
  obtain ⟨pre, post, hpr⟩ := append_of_mem hp
  refine ⟨by simp, pre, post, hpr, ?_⟩
  intro q hq
  have hids := h.ids
  rw [hpr, map_append, nodup_append] at hids
  have hne : q.id ≠ p.id :=
    hids.2.2 q.id (mem_map_of_mem hq) p.id (by simp)
  simp [hne]

end Consistent

end OverlayImpl

end Table

section Runs

variable [DecidableEq N] [DecidableEq PK] [LinearOrder S] (lz4) (naming : Naming N PK S)

section

variable (s : Network N PK S M parser)

/-- What is asked of a step. A validation that is broadcast or relayed is published once. Where it is
delivered, the table has an open peer for its key, and that peer is handed this validation and
nothing else. -/
def Proper : Action N PK parser → Prop
  | .broadcast n v =>
    (s.step lz4 naming (.broadcast n v)).published.length = s.published.length + 1
  | .relay n v toSkip validator => toSkip.isSome →
    (s.step lz4 naming (.relay n v toSkip validator)).published.length = s.published.length + 1
  | .deliver n number layout => ∀ p, s.published[number]? = some p → s.Connected naming n p.publisher →
    ∃ peer ∈ (s.overlay n).peers, peer.detaching = false ∧
      (s.overlay n).peerObjs.find? p.key = some (some peer.id) ∧
      ((s.step lz4 naming (.deliver n number layout)).overlay n).handled =
        (s.overlay n).handled ++ [(peer.id, p.validation.event lz4)]
  | _ => True

def openPeers (o : OverlayImpl PK S M) (toSkip : List Nat) : List (PeerImp PK) :=
  o.peers.filter fun p => !toSkip.contains p.id && !p.gracefulClose && !p.detaching

/-- The condition for it: one peer sends the validation; the key under which it was published is that of
a node, the last connection to that node is open where it is delivered, and it is not too large. -/
def Suitable : Action N PK parser → Prop
  | .broadcast n _ => (openPeers (s.overlay n) []).length = 1
  | .relay n _ toSkip _ => ∀ skip, toSkip = some skip → (openPeers (s.overlay n) skip).length = 1
  | .deliver n number _ => ∀ p, s.published[number]? = some p → s.Connected naming n p.publisher →
    (∃ peer, (s.overlay n).lastPeer naming p.key = some peer ∧ peer.detaching = false) ∧
      p.validation.payload.length < maximiumMessageSize
  | _ => True

structure Sound : Prop where
  consistent : ∀ n, (s.overlay n).Consistent naming
  wires : ∀ p ∈ s.published, p.message = p.validation.wire lz4

end

variable {lz4 naming} {s : Network N PK S M parser}

omit [DecidableEq N] [DecidableEq PK] in
theorem length_sendAll (n : N) (v : Validation parser) (toSkip : List Nat) (validator : Option PK) :
    (s.sendAll lz4 naming n v toSkip validator).published.length =
      s.published.length + (openPeers (s.overlay n) toSkip).length := by
  rw [Network.sendAll, length_append, openPeers]
  congr 1
  induction (s.overlay n).peers with
  | nil => rfl
  | cons p peers ih =>
    rw [filter_cons, filter_cons]
    cases toSkip.contains p.id <;> cases hg : p.gracefulClose <;>
      cases hd : p.detaching <;> simpa [PeerImp.send, hg, hd] using ih

section

variable (h : Sound lz4 naming s)

include h

omit [DecidableEq PK] in
theorem Sound.update (n : N) {f : OverlayImpl PK S M → OverlayImpl PK S M}
    (hf : ∀ o : OverlayImpl PK S M, o.Consistent naming → (f o).Consistent naming) :
    Sound lz4 naming (s.update n f) := by
  refine ⟨fun n' => ?_, h.wires⟩
  rw [Network.update]
  dsimp only
  by_cases hn : n' = n
  · rw [hn, update_self]
    exact hf _ (h.consistent n)
  · rw [update_of_ne hn]
    exact h.consistent n'

omit [DecidableEq N] [DecidableEq PK] in
theorem Sound.sendAll (n : N) (v : Validation parser) (toSkip : List Nat) (validator : Option PK) :
    Sound lz4 naming (s.sendAll lz4 naming n v toSkip validator) := by
  refine ⟨h.consistent, ?_⟩
  intro p hp
  rcases mem_append.mp hp with hp | hp
  · exact h.wires p hp
  obtain ⟨peer, -, hs⟩ := mem_filterMap.mp hp
  rw [PeerImp.send] at hs
  generalize (if peer.compressionEnabled = true then Compressed.On else .Off) = c at hs
  split_ifs at hs
  cases hs
  exact v.getBuffer_eq c

variable (a : Action N PK parser)

theorem Sound.step : Sound lz4 naming (s.step lz4 naming a) := by
  cases a with
  | connect n publicKey compressionEnabled =>
    exact h.update n (fun o ho => ho.activate publicKey compressionEnabled)
  | gracefulClose n id | close n id =>
    rw [Network.step]
    apply h.update n
    intro o ho
    exact ho.modifyPeer id (fun _ => rfl) (fun _ => rfl)
  | broadcast n v => exact h.sendAll n v [] none
  | relay n v toSkip validator =>
    cases toSkip with
    | none => exact h
    | some toSkip => exact h.sendAll n v toSkip (some validator)
  | deliver n number layout =>
    rw [Network.step]
    split
    · exact h
    · split_ifs
      · exact h.update n (fun o ho => ho.proceed layout _ _)
      · exact h

/-- What the handlers of a node are called with when a validation is delivered. -/
theorem handled_deliver (layout : Layout) {n : N} {number : Nat} {p : Published N S parser}
    (hp : s.published[number]? = some p) (hc : s.Connected naming n p.publisher)
    {peer : PeerImp PK} (hpr : peer ∈ (s.overlay n).peers)
    (hf : (s.overlay n).peerObjs.find? p.key = some (some peer.id)) :
    ((s.step lz4 naming (.deliver n number layout)).overlay n).handled = (s.overlay n).handled ++
      if p.validation.payload.length < maximiumMessageSize then
        [(peer.id, p.validation.event lz4)] else [] := by
  have hm := h.wires p (mem_of_getElem? hp)
  simp only [Network.step, hp, if_pos hc, Network.update, update_self, proceed, hf,
    (h.consistent n).findPeer_eq hpr, hm, proceedLoop_validation]
  split_ifs <;> rfl

theorem proper_iff : Proper lz4 naming s a ↔ Suitable naming s a := by
  cases a with
  | connect | gracefulClose | close => rfl
  | broadcast n v =>
    rw [Proper, Suitable, Network.step, length_sendAll, Nat.add_left_cancel_iff]
  | relay n v toSkip validator =>
    cases toSkip with
    | none => simp [Proper, Suitable]
    | some skip => simp [Proper, Suitable, Network.step, length_sendAll]
  | deliver n number layout =>
    refine forall_congr' fun p => forall_congr' fun hp => forall_congr' fun hc => ?_
    constructor
    · rintro ⟨peer, hpr, ho, hf, hh⟩
      obtain ⟨last, hl, hid⟩ := (h.consistent n).known p.key peer.id hf
      have hmem := (mem_filter.mp (mem_of_getLast? hl)).1
      have hsm : last = peer := by
        have hl' := (h.consistent n).findPeer_eq hmem
        rw [hid, (h.consistent n).findPeer_eq hpr] at hl'
        exact (Option.some.inj hl').symm
      refine ⟨⟨last, hl, hsm ▸ ho⟩, ?_⟩
      rw [handled_deliver h layout hp hc hpr hf] at hh
      by_contra hs
      rw [if_neg hs] at hh
      simp at hh
    · rintro ⟨⟨last, hl, ho⟩, hs⟩
      have hmem := (mem_filter.mp (mem_of_getLast? hl)).1
      have hf := (h.consistent n).table p.key last hl
      refine ⟨last, hmem, ho, hf, ?_⟩
      rw [handled_deliver h layout hp hc hmem hf, if_pos hs]

end

/-- All steps of a run of the network are as they should be exactly if all of them meet the
condition. -/
theorem gossip_proper_iff (lz4 : LZ4) (naming : Naming N PK S) (run : List (Action N PK parser)) :
    Run.Allowed (Network.step lz4 naming) (Proper lz4 naming) { overlay := fun _ => {} } run ↔
      Run.Allowed (Network.step lz4 naming) (Suitable naming) { overlay := fun _ => {} } run := by
  have hinit : Sound lz4 naming ({ overlay := fun _ => {} } : Network N PK S M parser) :=
    ⟨fun _ => .init, by simp⟩
  exact Run.allowed_congr (I := Sound lz4 naming) (fun s a hs => hs.step a)
    (fun s a hs => proper_iff hs a) hinit run

/-- Two nodes whose keys are in the files as they are in the tables. -/
def pairNaming : Naming Bool Nat Nat where
  nodeKey n := if n then 2 else 1
  toBase58 key := key
  keyOut n := if n then 2 else 1

def someValidation : Validation anyContent where
  type := .mtVALIDATION
  payload := [1]
  content := [1]
  tryCompressed := .Off
  nonempty := List.cons_ne_nil _ _
  size_le := Nat.le_of_ble_eq_true rfl
  parses := rfl
  isValidation := rfl

/-- The nodes connect, and one relays to the other a validation signed with the key 9. -/
def relayRun : List (Action Bool Nat anyContent) :=
  [.connect false 2 true, .connect true 1 true, .relay false someValidation (some []) 9,
    .deliver true 0 oneSegment]

/-- A relayed validation is published under the validator's key, for which there is no peer. -/
theorem relayed_validation_finds_null :
    ¬ Run.Allowed (Network.step zerosLZ4 pairNaming) (Proper zerosLZ4 pairNaming)
      { overlay := fun _ => {} } relayRun := by
  rintro ⟨-, -, -, hdeliver, -⟩
  obtain ⟨peer, -, -, hfind, -⟩ := hdeliver _ rfl (by decide)
  cases hfind

end Runs

end Rippled.Gossip
