import Rippled.Lib.OrdMap

namespace Rippled.ReduceRelay

open Lib

def minUnsquelchExpire : Nat := 300

def maxUnsquelchExpireDefault : Nat := 600

def squelchPerPeer : Nat := 10

def maxUnsquelchExpirePeers : Nat := 3600

def idled : Nat := 8

def minMessageThreshold : Nat := 9

def maxMessageThreshold : Nat := 10

def maxSelectedPeers : Nat := 5

inductive PeerState
  | counting
  | selected
  | squelched
deriving DecidableEq

inductive SlotState
  | counting
  | selected
deriving DecidableEq

structure PeerInfo where
  state : PeerState
  count : Nat
  expire : Nat
  lastMessage : Nat
deriving DecidableEq

inductive Notice (P : Type)
  | squelch (id : P) (duration : Nat)
  | unsquelch (id : P)
deriving DecidableEq

/-- The choices made at random: an index below the number it is asked for, and for every peer the
position of its squelch duration in the range allowed. -/
structure Random (P : Type) where
  index : Nat → Nat
  duration : P → Nat

structure Slot (P : Type) [LinearOrder P] where
  peers : OrdMap P PeerInfo := OrdMap.empty
  considered : List P := []
  reachedThreshold : Nat := 0
  lastSelected : Nat
  state : SlotState := .counting

namespace Slot

variable {P : Type} [LinearOrder P]

def resetCounts (slot : Slot P) : Slot P :=
  { slot with peers := slot.peers.map fun _ peer => { peer with count := 0 } }

def initCounting (slot : Slot P) : Slot P :=
  { slot.resetCounts with state := .counting, considered := [], reachedThreshold := 0 }

/-- A random duration between the minimum and a maximum that grows with the number of peers. -/
def getSquelchDuration (npeers : Nat) (choice : Nat) : Nat :=
  let m := max maxUnsquelchExpireDefault (squelchPerPeer * npeers)
  let m := if m > maxUnsquelchExpirePeers then maxUnsquelchExpirePeers else m
  minUnsquelchExpire + choice % (m - minUnsquelchExpire + 1)

/-- Draw peers from the considered ones until enough are selected, and pass over those that idle. -/
def draw (peers : OrdMap P PeerInfo) (now : Nat) (index : Nat → Nat) : Nat → List P → List P → List P
  | 0, _, selected => selected
  | size + 1, considered, selected =>
    if selected.length = maxSelectedPeers then selected
    else
      let i := index (size + 1) % (size + 1)
      match considered[i]? with
      | none => selected
      | some id =>
        match peers.find? id with
        | none => draw peers now index size (considered.eraseIdx i) selected
        | some peer =>
          draw peers now index size (considered.eraseIdx i)
            (if now - peer.lastMessage < idled then selected.insert id else selected)

def choose (now npeers : Nat) (random : Random P) (selected : List P) (id : P) (peer : PeerInfo) :
    PeerInfo :=
  if selected.contains id then { peer with count := 0, state := .selected }
  else if peer.state ≠ .squelched then
    { peer with
      count := 0
      state := .squelched
      expire := now + getSquelchDuration npeers (random.duration id) }
  else { peer with count := 0 }

/-- The notice to a peer that is not selected and not squelched already. -/
def chooseNotice (npeers : Nat) (random : Random P) (selected : List P) (e : P × PeerInfo) :
    Option (Notice P) :=
  if !selected.contains e.1 ∧ e.2.state ≠ .squelched then
    some (.squelch e.1 (getSquelchDuration npeers (random.duration e.1)))
  else none

def select (now : Nat) (random : Random P) (slot : Slot P) : Slot P × List (Notice P) :=
  let selected := draw slot.peers now random.index slot.considered.length slot.considered []
  if selected.length ≠ maxSelectedPeers then (slot.initCounting, [])
  else
    let npeers := slot.peers.keys.length - maxSelectedPeers
    ({ peers := slot.peers.map (choose now npeers random selected)
       considered := []
       reachedThreshold := 0
       lastSelected := now
       state := .selected },
      slot.peers.entries.filterMap (chooseNotice npeers random selected))

def counted (id : P) (peer : PeerInfo) (slot : Slot P) : Slot P :=
  let count := peer.count + 1
  { slot with
    peers := slot.peers.insert id { peer with count }
    considered := if count > minMessageThreshold then slot.considered.insert id else slot.considered
    reachedThreshold := if count = maxMessageThreshold + 1 then (slot.reachedThreshold + 1) % 65536
      else slot.reachedThreshold }

section

variable (now : Nat)

/-- Count a message, and select peers if enough of them sent many messages. -/
def countMessage (random : Random P) (id : P) (peer : PeerInfo) (slot : Slot P) :
    Slot P × List (Notice P) :=
  let slot := slot.counted id peer
  if now - slot.lastSelected > 2 * maxUnsquelchExpireDefault then (slot.initCounting, [])
  else if slot.reachedThreshold = maxSelectedPeers then slot.select now random
  else (slot, [])

def update (random : Random P) (id : P) (slot : Slot P) : Slot P × List (Notice P) :=
  match slot.peers.find? id with
  | none =>
    let peer : PeerInfo := { state := .counting, count := 0, expire := now, lastMessage := now }
    (initCounting { slot with peers := slot.peers.insert id peer }, [])
  | some peer =>
    if peer.state = .squelched ∧ now > peer.expire then
      let peer := { peer with state := .counting, lastMessage := now }
      (initCounting { slot with peers := slot.peers.insert id peer }, [])
    else
      let peer := { peer with lastMessage := now }
      let slot := { slot with peers := slot.peers.insert id peer }
      if slot.state ≠ .counting ∨ peer.state = .squelched then (slot, [])
      else slot.countMessage now random id peer

/-- All peers count again, and those that were squelched are told so. -/
def release (slot : Slot P) : Slot P × List (Notice P) :=
  ({ slot with
      peers := slot.peers.map fun _ peer => { peer with state := .counting, count := 0, expire := now }
      considered := []
      reachedThreshold := 0
      state := .counting },
    slot.peers.entries.filterMap fun e => if e.2.state = .squelched then some (.unsquelch e.1) else none)

def unconsider (id : P) (peer : PeerInfo) (slot : Slot P) : Slot P :=
  if slot.considered.contains id then
    { slot with
      reachedThreshold := if peer.count > maxMessageThreshold then (slot.reachedThreshold + 65535) % 65536
        else slot.reachedThreshold
      considered := slot.considered.erase id }
  else slot

variable (id : P) (erase : Bool) (slot : Slot P)

def forget : Slot P :=
  { slot with
    peers := if erase then slot.peers.erase id
      else slot.peers.modify id fun peer => { peer with lastMessage := now, count := 0 } }

def deletePeer : Slot P × List (Notice P) :=
  match slot.peers.find? id with
  | none => (slot, [])
  | some peer =>
    let (slot, notices) := if peer.state = .selected then slot.release now else (slot.unconsider id peer, [])
    (slot.forget now id erase, notices)

end

def deleteIdle (now : Nat) : List P → Slot P → Slot P × List (Notice P)
  | [], slot => (slot, [])
  | id :: rest, slot =>
    let (slot, notices) := match slot.peers.find? id with
      | none => (slot, [])
      | some peer => if now - peer.lastMessage > idled then slot.deletePeer now id false else (slot, [])
    let (slot, notices') := deleteIdle now rest slot
    (slot, notices ++ notices')

def deleteIdlePeer (now : Nat) (slot : Slot P) : Slot P × List (Notice P) :=
  deleteIdle now slot.peers.keys slot

end Slot

/-- The slots of all validators, and which peers relayed which messages lately. -/
structure Slots (V P H : Type) [LinearOrder V] [LinearOrder P] [LinearOrder H] where
  slots : OrdMap V (Slot P) := OrdMap.empty
  peersWithMessage : OrdMap H (Nat × List P) := OrdMap.empty

namespace Slots

variable {V P H : Type} [LinearOrder V] [LinearOrder P] [LinearOrder H]

/-- Note a message, unless the peer relayed it before. Messages are forgotten after a while. -/
def addPeerMessage [Zero H] (now : Nat) (key : H) (id : P) (s : Slots V P H) : Bool × Slots V P H :=
  let recent := s.peersWithMessage.filterMap fun _ m => if m.1 + idled ≤ now then none else some m
  if key ≠ 0 then
    match recent.find? key with
    | none => (true, { s with peersWithMessage := recent.insert key (now, [id]) })
    | some (added, ids) =>
      if ids.contains id then (false, { s with peersWithMessage := recent })
      else (true, { s with peersWithMessage := recent.insert key (added, id :: ids) })
  else (true, { s with peersWithMessage := recent })

def updateSlot (now : Nat) (random : Random P) (validator : V) (id : P) (s : Slots V P H) :
    Slots V P H × List (Notice P) :=
  let slot := (s.slots.find? validator).getD { lastSelected := now }
  let (slot, notices) := slot.update now random id
  ({ s with slots := s.slots.insert validator slot }, notices)

def updateSlotAndSquelch [Zero H] (now : Nat) (random : Random P) (key : H) (validator : V) (id : P)
    (s : Slots V P H) : Slots V P H × List (Notice P) :=
  match s.addPeerMessage now key id with
  | (false, s) => (s, [])
  | (true, s) => s.updateSlot now random validator id

def deletePeer (now : Nat) (id : P) (erase : Bool) (s : Slots V P H) :
    Slots V P H × (V → List (Notice P)) :=
  ({ s with slots := s.slots.map fun _ slot => (slot.deletePeer now id erase).1 },
    fun v => ((s.slots.find? v).map fun slot => (slot.deletePeer now id erase).2).getD [])

def deleteIdlePeers (now : Nat) (s : Slots V P H) : Slots V P H × (V → List (Notice P)) :=
  ({ s with
      slots := s.slots.filterMap fun _ slot =>
        let slot := (slot.deleteIdlePeer now).1
        if now - slot.lastSelected > maxUnsquelchExpireDefault then none else some slot },
    fun v => ((s.slots.find? v).map fun slot => (slot.deleteIdlePeer now).2).getD [])

end Slots

end Rippled.ReduceRelay
