import Rippled.Consensus.State

namespace Rippled.Consensus

open Lib

variable {N T S I L : Type} [DecidableEq N]

section

variable (s : State N T S I L) (p : Proposal N S I)

/-- A peer bows out: its votes and its position go, and it is remembered. -/
def peerBowsOut : State N T S I L :=
  let s := s.mapDisputes (fun d => d.unVote p.nodeID)
  { s.emit (.received p) with
    currPeerPositions_ := s.currPeerPositions_.erase p.nodeID
    deadNodes_ := insert p.nodeID s.deadNodes_ }

/-- Take a peer's position for the current one. The first one has the peer's close time. -/
def takePosition : State N T S I L :=
  let s := { s.emit (.received p) with
    currPeerPositions_ := s.currPeerPositions_.insert p.nodeID p }
  if p.isInitial then
    let count := (s.rawCloseTimes_.peers.lookup p.closeTime).getD 0
    { s with rawCloseTimes_ := { s.rawCloseTimes_ with
        peers := s.rawCloseTimes_.peers.insert p.closeTime (count + 1) } }
  else s

end

section TakePosition

variable (s : State N T S I L) (p : Proposal N S I)

@[simp] theorem takePosition_positions :
    (takePosition s p).currPeerPositions_ = s.currPeerPositions_.insert p.nodeID p := by
  rw [takePosition]
  split_ifs <;> rfl

@[simp] theorem takePosition_acquired : (takePosition s p).acquired_ = s.acquired_ := by
  rw [takePosition]
  split_ifs <;> rfl

@[simp] theorem takePosition_result : (takePosition s p).result_ = s.result_ := by
  rw [takePosition]
  split_ifs <;> rfl

@[simp] theorem takePosition_dead : (takePosition s p).deadNodes_ = s.deadNodes_ := by
  rw [takePosition]
  split_ifs <;> rfl

@[simp] theorem takePosition_log : (takePosition s p).log = s.log ++ [.received p] := by
  rw [takePosition]
  split_ifs <;> rfl

end TakePosition

variable [DecidableEq T] [DecidableEq S] [DecidableEq I]

def collectVotes (s : State N T S I L) (tx : T) (order : List N) (d : DisputedTx N T) :
    DisputedTx N T :=
  order.foldl (fun d nodeID =>
    match (s.currPeerPositions_.lookup nodeID).bind (fun p => s.acquired_.lookup p.position) with
    | some set => d.setVote nodeID (decide (tx ∈ set))
    | none => d) d

variable {env : Adaptor N T S I L}

section

variable (env) (s : State N T S I L)

def createDispute (tx : T) : State N T S I L :=
  match s.result_ with
  | none => s
  | some r =>
    if tx ∈ r.disputes then s
    else
      let order := env.nodeOrder s.calls s.currPeerPositions_.keys
      let dtx := collectVotes s tx order (DisputedTx.new tx (decide (tx ∈ r.txns)))
      let s := { s.emit (.shareTx tx) with calls := s.calls + 1 }
      { s with result_ := some { r with disputes := r.disputes.insert tx dtx } }

def createDisputes (o : Finset T) : State N T S I L :=
  match s.result_ with
  | none => s.assert .createDisputes false
  | some r =>
    if env.setID o ∈ r.compares then s
    else
      let s := { s with result_ := some { r with compares := insert (env.setID o) r.compares } }
      if env.setID r.txns = env.setID o then s
      else
        (env.txOrder s.calls (symmDiff r.txns o)).foldl (createDispute env)
          { s with calls := s.calls + 1 }

def updateDisputes (node : N) (other : Finset T) : State N T S I L :=
  match s.result_ with
  | none => s.assert .updateDisputes false
  | some r =>
    let s := if env.setID other ∈ r.compares then s else createDisputes env s other
    s.mapDisputes (fun d => d.setVote node (decide (d.tx_ ∈ other)))

end

def gotVote (env : Adaptor N T S I L) (txSet : Finset T) (s : State N T S I L) (nodeID : N) :
    State N T S I L :=
  match s.currPeerPositions_.lookup nodeID with
  | some p => if p.position = env.setID txSet then updateDisputes env s nodeID txSet else s
  | none => s

section

variable (env) (s : State N T S I L)

/-- Add a set that is new. Once we have a position there are disputes to update. -/
def newTxSet (txSet : Finset T) : State N T S I L :=
  let s := { s with acquired_ := s.acquired_.insert (env.setID txSet) txSet }
  match s.result_ with
  | none => s
  | some r =>
    let s := s.assert .gotTxSet (decide (env.setID txSet ≠ r.position.position))
    (env.nodeOrder s.calls s.currPeerPositions_.keys).foldl (gotVote env txSet)
      { s with calls := s.calls + 1 }

def gotTxSet (now : Int) (txSet : Finset T) : State N T S I L :=
  if s.phase_ = .accepted then s
  else if env.setID txSet ∈ s.acquired_ then { s with now_ := now }
  else newTxSet env { s with now_ := now } txSet

def lookAt (p : Proposal N S I) : State N T S I L :=
  match s.acquired_.lookup p.position with
  | none =>
    match env.acquireTxSet s.calls p.position with
    | some set => gotTxSet env { s with calls := s.calls + 1 } s.now_ set
    | none => { s with calls := s.calls + 1 }
  | some set => if s.result_.isSome then updateDisputes env s p.nodeID set else s

end

/-- Whether a position is not even looked at: it is on another prior ledger, from a node that has
bowed out, or not newer than the one we have. -/
def ignored (s : State N T S I L) (p : Proposal N S I) : Bool :=
  p.prevLedger ≠ s.prevLedgerID_ || p.nodeID ∈ s.deadNodes_ ||
    (s.currPeerPositions_.lookup p.nodeID).any (fun old => p.proposeSeq ≤ old.proposeSeq)

section

variable (env) (s : State N T S I L)

/-- Handle a new or a replayed peer position; the result says whether it counts. -/
def peerProposalInternal (now : Int) (p : Proposal N S I) : Bool × State N T S I L :=
  if s.phase_ = .accepted then (false, s)
  else if ignored s p then (false, { s with now_ := now })
  else if p.isBowOut then (true, peerBowsOut { s with now_ := now } p)
  else (true, lookAt env (takePosition { s with now_ := now } p) p)

def playback (p : Proposal N S I) : State N T S I L :=
  if p.prevLedger = s.prevLedgerID_ then
    let r := peerProposalInternal env s s.now_ p
    if r.1 then r.2.emit (.sharePosition p) else r.2
  else s

def playbackProposals : State N T S I L :=
  let recent := (env.nodeOrder s.calls s.recentPeerPositions_.keys).flatMap
    (fun n => (s.recentPeerPositions_.lookup n).getD [])
  recent.foldl (playback env) { s with calls := s.calls + 1 }

/-- Handle a peer position from the network. The ten most recent ones of each peer are kept. -/
def peerProposal (now : Int) (p : Proposal N S I) : Bool × State N T S I L :=
  let props := (s.recentPeerPositions_.lookup p.nodeID).getD []
  let props := if 10 ≤ props.length then props.tail else props
  peerProposalInternal env
    { s with recentPeerPositions_ := s.recentPeerPositions_.insert p.nodeID (props ++ [p]) } now p

end

open PriorLedger (closeTime parentCloseTime closeTimeResolution closeAgree)

variable [PriorLedger L I]

def leaveConsensus (s : State N T S I L) : State N T S I L :=
  if s.mode_ = .proposing then
    let s := match s.result_ with
      | some r =>
        if r.position.isBowOut then s
        else
          let position := r.position.bowOut s.now_
          { s with result_ := some { r with position := position } }.emit (.propose position)
      | none => s
    s.setMode .observing
  else s

section

variable (env) (s : State N T S I L)

def disputePeer (nodeID : N) : State N T S I L :=
  match (s.currPeerPositions_.lookup nodeID).bind (fun p => s.acquired_.lookup p.position) with
  | some set => createDisputes env s set
  | none => s

def closeLedger : State N T S I L :=
  let s := s.assert .closeLedger s.result_.isNone
  let (txns, position) := env.onClose s.calls s.previousLedger_ s.now_ s.mode_
  let s := { s with
    phase_ := .establish
    rawCloseTimes_ := { s.rawCloseTimes_ with self := s.now_ }
    result_ := some { txns, position, roundTime := .reset (env.clock s.calls) }
    calls := s.calls + 1 }
  let s := if env.setID txns ∈ s.acquired_ then s
    else { s with acquired_ := s.acquired_.insert (env.setID txns) txns }.emit (.shareTxSet txns)
  let s := if s.mode_ = .proposing then s.emit (.propose position) else s
  (env.nodeOrder s.calls s.currPeerPositions_.keys).foldl (disputePeer env)
    { s with calls := s.calls + 1 }

def phaseOpen : State N T S I L :=
  let anyTransactions := env.hasOpenTransactions s.calls
  let proposersClosed := s.currPeerPositions_.keys.card
  let proposersValidated := env.proposersValidated s.calls s.prevLedgerID_
  let s := { s with openTime_ := s.openTime_.tick (env.clock s.calls), calls := s.calls + 1 }
  let prev := s.previousLedger_
  let previousCloseCorrect := s.mode_ ≠ .wrongLedger ∧ closeAgree prev ∧
    closeTime prev ≠ parentCloseTime prev + 1
  let lastCloseTime := if previousCloseCorrect then closeTime prev else s.prevCloseTime_
  let sinceClose := (s.now_ - lastCloseTime) * 1000
  let idleInterval := max env.parms.ledgerIDLE_INTERVAL (2 * closeTimeResolution prev * 1000)
  if shouldCloseLedger anyTransactions s.prevProposers_ proposersClosed proposersValidated
      s.prevRoundTime_ sinceClose s.openTime_.read idleInterval env.parms then closeLedger env s
  else s

def shouldPause (roundTime : Int) : Bool :=
  let seq := PriorLedger.seq s.previousLedger_
  let ahead := seq - min (env.getValidLedgerIndex s.calls) seq
  let (quorum, totalValidators) := env.getQuorumKeys s.calls
  let (laggards, offline) := env.laggards s.calls seq
  if ahead = 0 ∨ laggards = 0 ∨ totalValidators = 0 ∨ env.validator s.calls = false ∨
      env.haveValidated s.calls = false ∨ env.parms.ledgerMAX_CONSENSUS < roundTime then false
  else
    match (ahead - 1) % 5 with
    | 0 => (totalValidators + 2 ^ 64 - quorum) % 2 ^ 64 < laggards + offline
    | 4 => true
    | phase => env.fewNonLaggards totalValidators (laggards + offline) quorum phase

end

/-- One step over the peers' positions: a stale one is removed, the others vote for a close time. -/
def checkFresh (peerCutoff : Int) (r : State N T S I L × OrdMap Int Nat) (nodeID : N) :
    State N T S I L × OrdMap Int Nat :=
  match r.1.currPeerPositions_.lookup nodeID with
  | some p =>
    if p.isStale peerCutoff then
      let s := r.1.mapDisputes (fun d => d.unVote p.nodeID)
      ({ s.emit (.dropped p) with currPeerPositions_ := s.currPeerPositions_.erase nodeID }, r.2)
    else (r.1, r.2.alter (r.1.asCloseTime p.closeTime) (fun v => some (v.getD 0 + 1)))
  | none => r

/-- One step over the disputes: a changed vote is carried over to our set. -/
def reconsider (percent : Int) (proposing : Bool) (p : ConsensusParms) (txns : Finset T)
    (r : Option (Finset T) × HashMap T (DisputedTx N T)) (txID : T) :
    Option (Finset T) × HashMap T (DisputedTx N T) :=
  match r.2.lookup txID with
  | none => r
  | some dispute =>
    let (changed, dispute) := dispute.updateVote percent proposing p
    let mutableSet := r.1.getD txns
    (if changed then
      some (if dispute.ourVote_ then insert dispute.tx_ mutableSet else mutableSet.erase txID)
    else r.1, r.2.insert txID dispute)

section

variable (env) (s : State N T S I L)

def closeTimeConsensus (position : Proposal N S I) (closeTimeVotes : OrdMap Int Nat) : Int × Bool :=
  if s.currPeerPositions_.keys.card = 0 then (s.asCloseTime position.closeTime, true)
  else
    let proposing := s.mode_ = .proposing
    let closeTimeVotes := if proposing then
        closeTimeVotes.alter (s.asCloseTime position.closeTime) (fun v => some (v.getD 0 + 1))
      else closeTimeVotes
    let participants := s.currPeerPositions_.keys.card + if proposing then 1 else 0
    let threshVote := participantsNeeded participants (avalanche env.parms s.convergePercent_)
    let threshConsensus := participantsNeeded participants env.parms.avCT_CONSENSUS_PCT
    closeTimeLoop threshConsensus closeTimeVotes.entries threshVote 0 false

section

variable (r : ConsensusResult N T S I)

def changeStance (ourNewSet : Finset T) (consensusCloseTime : Int) : State N T S I L :=
  let position := r.position.changePosition (env.setID ourNewSet) consensusCloseTime s.now_
  let s := { s with
    result_ := some { r with txns := ourNewSet, position := position } }.emit .changed
  let s := if env.setID ourNewSet ∈ s.acquired_ then s
    else
      let s := { s with acquired_ := s.acquired_.insert (env.setID ourNewSet) ourNewSet }
      let s := if position.isBowOut then s else s.emit (.shareTxSet ourNewSet)
      (env.nodeOrder s.calls s.currPeerPositions_.keys).foldl (gotVote env ourNewSet)
        { s with calls := s.calls + 1 }
  if !position.isBowOut && s.mode_ = .proposing then s.emit (.propose position) else s

def dropStale : State N T S I L × OrdMap Int Nat :=
  (env.nodeOrder s.calls s.currPeerPositions_.keys).foldl
    (checkFresh (s.now_ - env.parms.proposeFRESHNESS)) ({ s with calls := s.calls + 1 }, OrdMap.empty)

/-- Update the votes on the disputed transactions. Our new set is there if a vote has changed. -/
def revote : Option (Finset T) × HashMap T (DisputedTx N T) :=
  (env.txOrder s.calls r.disputes.keys).foldl
    (reconsider s.convergePercent_ (decide (s.mode_ = .proposing)) env.parms r.txns)
    (none, r.disputes)

end

def updateOurPositions : State N T S I L :=
  let (s, closeTimeVotes) := dropStale env (s.assert .updateOurPositions s.result_.isSome)
  match s.result_ with
  | none => s
  | some r =>
    let (mutableSet, disputes) := revote env s r
    let r := { r with disputes := disputes }
    let (consensusCloseTime, agreed) := closeTimeConsensus env s r.position closeTimeVotes
    let s := { s with
      result_ := some r
      haveCloseTimeConsensus_ := agreed
      calls := s.calls + 1 }
    let refresh := consensusCloseTime ≠ s.asCloseTime r.position.closeTime ∨
      r.position.isStale (s.now_ - env.parms.proposeINTERVAL)
    match mutableSet.or (if refresh then some r.txns else none) with
    | some ourNewSet => changeStance env s r ourNewSet consensusCloseTime
    | none => s

def haveConsensus : Bool × State N T S I L :=
  match s.result_ with
  | none => (false, s.assert .haveConsensus false)
  | some r =>
    let positions := HashMap.values s.currPeerPositions_
    let agree := positions.countP (fun p => p.position = r.position.position)
    let state := checkConsensus s.prevProposers_ positions.card agree
      (env.proposersFinished s.calls s.previousLedger_ s.prevLedgerID_) s.prevRoundTime_
      r.roundTime.read env.parms (decide (s.mode_ = .proposing))
    (decide (state ≠ .no),
      { s with result_ := some { r with state := state }, calls := s.calls + 1 })

end

def accept (s : State N T S I L) (r : ConsensusResult N T S I) : State N T S I L :=
  let s := s.emit (.updateOperatingMode s.currPeerPositions_.keys.card)
  let s := { s with
    prevProposers_ := s.currPeerPositions_.keys.card
    prevRoundTime_ := r.roundTime.read
    phase_ := .accepted }
  s.emit (.onAccept r s.previousLedger_ s.closeResolution_ s.rawCloseTimes_ s.mode_)

def phaseEstablish (env : Adaptor N T S I L) (s : State N T S I L) : State N T S I L :=
  match s.result_ with
  | none => s.assert .phaseEstablish false
  | some r =>
    let r := { r with
      roundTime := r.roundTime.tick (env.clock s.calls)
      proposers := s.currPeerPositions_.keys.card }
    let s := { s with
      result_ := some r
      convergePercent_ := (r.roundTime.read * 100).tdiv
        (max s.prevRoundTime_ env.parms.avMIN_CONSENSUS_TIME)
      calls := s.calls + 1 }
    if r.roundTime.read < env.parms.ledgerMIN_CONSENSUS then s
    else
      let s := updateOurPositions env s
      if shouldPause env s r.roundTime.read then { s with calls := s.calls + 1 }
      else
        let (have', s) := haveConsensus env { s with calls := s.calls + 1 }
        match have' && s.haveCloseTimeConsensus_, s.result_ with
        | true, some r => accept s r
        | _, _ => s

def beginRound (env : Adaptor N T S I L) (s : State N T S I L) (now : Int) (prevLedgerID : I)
    (prevLedger : L) (mode : ConsensusMode) : State N T S I L :=
  let s := (s.emit .started).setMode mode
  { s.emit .cleared with
    phase_ := ConsensusPhase.open
    now_ := now
    prevLedgerID_ := prevLedgerID
    previousLedger_ := prevLedger
    result_ := none
    convergePercent_ := 0
    haveCloseTimeConsensus_ := false
    openTime_ := .reset (env.clock s.calls)
    currPeerPositions_ := ∅
    acquired_ := ∅
    rawCloseTimes_ := {}
    deadNodes_ := ∅
    closeResolution_ := getNextLedgerTimeResolution (PriorLedger.closeTimeResolution prevLedger)
      (PriorLedger.closeAgree prevLedger) (PriorLedger.seq prevLedger + 1)
    calls := s.calls + 1 }

def turnTo (s : State N T S I L) (lgrId : I) : State N T S I L :=
  { s.emit .cleared with
    prevLedgerID_ := lgrId
    result_ := s.result_.map (fun r => { r with disputes := ∅, compares := ∅ })
    currPeerPositions_ := ∅
    rawCloseTimes_ := { s.rawCloseTimes_ with peers := ∅ }
    deadNodes_ := ∅ }

section Recursion

variable (env) (timer : State N T S I L → Int → Option (State N T S I L))

/-- Start a round. With positions of enough peers there is no waiting for the timer. -/
def startRoundInternal (s : State N T S I L) (now : Int) (prevLedgerID : I) (prevLedger : L)
    (mode : ConsensusMode) : Option (State N T S I L) :=
  let s := playbackProposals env (beginRound env s now prevLedgerID prevLedger mode)
  if s.prevProposers_ / 2 < s.currPeerPositions_.keys.card then timer s s.now_ else some s

def handleWrongLedger (s : State N T S I L) (lgrId : I) : Option (State N T S I L) :=
  let s := s.assert .handleWrongLedger
    (decide (lgrId ≠ s.prevLedgerID_ ∨ PriorLedger.id s.previousLedger_ ≠ lgrId))
  let s := leaveConsensus s
  let s := if s.prevLedgerID_ = lgrId then s else playbackProposals env (turnTo s lgrId)
  if PriorLedger.id s.previousLedger_ = s.prevLedgerID_ then some s
  else
    match env.acquireLedger s.calls s.prevLedgerID_ with
    | some newLedger =>
      startRoundInternal env timer { s with calls := s.calls + 1 } s.now_ lgrId newLedger
        .switchedLedger
    | none => some ({ s with calls := s.calls + 1 }.setMode .wrongLedger)

def checkLedger (s : State N T S I L) : Option (State N T S I L) :=
  let netLgr := env.getPrevLedger s.calls s.prevLedgerID_ s.previousLedger_ s.mode_
  let s := { s with calls := s.calls + 1 }
  if netLgr ≠ s.prevLedgerID_ ∨ PriorLedger.id s.previousLedger_ ≠ s.prevLedgerID_ then
    handleWrongLedger env timer s netLgr
  else some s

end Recursion

def work (env : Adaptor N T S I L) (s : State N T S I L) : State N T S I L :=
  match s.phase_ with
  | ConsensusPhase.open => phaseOpen env s
  | .establish => phaseEstablish env s
  | .accepted => s

/-- The heartbeat of consensus. A change of the prior ledger starts a round, and that may call the
timer again; the fuel bounds how deep this goes. -/
def timerEntry (env : Adaptor N T S I L) : Nat → State N T S I L → Int → Option (State N T S I L)
  | 0, _, _ => none
  | fuel + 1, s, now =>
    if s.phase_ = .accepted then some s
    else (checkLedger env (timerEntry env fuel) { s with now_ := now }).map (work env)

variable (env) (fuel : Nat) (s : State N T S I L)

def startRound (now : Int) (prevLedgerID : I) (prevLedger : L) (nowUntrusted : Finset N)
    (proposing : Bool) : Option (State N T S I L) :=
  let s := if s.firstRound_ then
      { s with
        prevRoundTime_ := env.parms.ledgerIDLE_INTERVAL
        prevCloseTime_ := PriorLedger.closeTime prevLedger
        firstRound_ := false }
    else { s with prevCloseTime_ := s.rawCloseTimes_.self }
  let recent := HashMap.filter (fun n _ => decide (n ∉ nowUntrusted)) s.recentPeerPositions_
  let s := { s with recentPeerPositions_ := recent }
  let startMode := if proposing then ConsensusMode.proposing else .observing
  if PriorLedger.id prevLedger ≠ prevLedgerID then
    let acquired := env.acquireLedger s.calls prevLedgerID
    let s := { s with calls := s.calls + 1 }
    match acquired with
    | some newLedger =>
      startRoundInternal env (timerEntry env fuel) s now prevLedgerID newLedger startMode
    | none =>
      startRoundInternal env (timerEntry env fuel) s now prevLedgerID prevLedger .wrongLedger
  else startRoundInternal env (timerEntry env fuel) s now prevLedgerID prevLedger startMode

inductive Op (N T S I L : Type)
  | startRound (now : Int) (prevLedgerID : I) (prevLedger : L) (nowUntrusted : Finset N)
      (proposing : Bool)
  | peerProposal (now : Int) (position : Proposal N S I)
  | gotTxSet (now : Int) (txSet : Finset T)
  | timerEntry (now : Int)

def apply : Op N T S I L → Option (State N T S I L)
  | .startRound now prevLedgerID prevLedger nowUntrusted proposing =>
    startRound env fuel s now prevLedgerID prevLedger nowUntrusted proposing
  | .peerProposal now position => some (peerProposal env s now position).2
  | .gotTxSet now txSet => some (gotTxSet env s now txSet)
  | .timerEntry now => timerEntry env fuel s now

end Rippled.Consensus
