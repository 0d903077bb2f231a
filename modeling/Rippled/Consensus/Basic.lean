import Rippled.Lib.OrdMap
import Mathlib.Algebra.Ring.Int.Defs
import Mathlib.Algebra.Ring.Nat

namespace Rippled.Consensus

open Lib

/-- Consensus parameters. Freshness and interval of proposals are in seconds, the other durations
in milliseconds. -/
structure ConsensusParms where
  proposeFRESHNESS : Int := 20
  proposeINTERVAL : Int := 12
  minCONSENSUS_PCT : Nat := 80
  ledgerIDLE_INTERVAL : Int := 15000
  ledgerMIN_CONSENSUS : Int := 1950
  ledgerMAX_CONSENSUS : Int := 10000
  ledgerMIN_CLOSE : Int := 2000
  avMIN_CONSENSUS_TIME : Int := 5000
  avINIT_CONSENSUS_PCT : Nat := 50
  avMID_CONSENSUS_TIME : Nat := 50
  avMID_CONSENSUS_PCT : Nat := 65
  avLATE_CONSENSUS_TIME : Nat := 85
  avLATE_CONSENSUS_PCT : Nat := 70
  avSTUCK_CONSENSUS_TIME : Nat := 200
  avSTUCK_CONSENSUS_PCT : Nat := 95
  avCT_CONSENSUS_PCT : Nat := 75

inductive ConsensusMode
  | proposing
  | observing
  | wrongLedger
  | switchedLedger
deriving DecidableEq

inductive ConsensusPhase
  | open
  | establish
  | accepted
deriving DecidableEq

inductive ConsensusState
  | no
  | movedOn
  | yes
deriving DecidableEq

/-- A signed number as it takes part in a comparison with a `std::size_t`. -/
def asSize (x : Int) : Nat := (x % 2 ^ 64).toNat

structure ConsensusTimer where
  start_ : Int := 0
  dur_ : Int := 0
deriving DecidableEq

namespace ConsensusTimer

variable (t : ConsensusTimer)

def read : Int := t.dur_

def reset (now : Int) : ConsensusTimer := ⟨now, 0⟩

def tick (now : Int) : ConsensusTimer := { t with dur_ := now - t.start_ }

end ConsensusTimer

def avalanche (p : ConsensusParms) (percentTime : Int) : Nat :=
  if asSize percentTime < p.avMID_CONSENSUS_TIME then p.avINIT_CONSENSUS_PCT
  else if asSize percentTime < p.avLATE_CONSENSUS_TIME then p.avMID_CONSENSUS_PCT
  else if asSize percentTime < p.avSTUCK_CONSENSUS_TIME then p.avLATE_CONSENSUS_PCT
  else p.avSTUCK_CONSENSUS_PCT

def ledgerPossibleTimeResolutions : List Int := [10, 20, 30, 60, 90, 120]

def ledgerDefaultTimeResolution : Int := 30

def increaseLedgerTimeResolutionEvery : Nat := 8

def decreaseLedgerTimeResolutionEvery : Nat := 1

/-- The close time resolution for a ledger: coarser after a disagreement and now and then finer after
an agreement. -/
def getNextLedgerTimeResolution (previousResolution : Int) (previousAgree : Bool) (ledgerSeq : Nat) :
    Int :=
  let iter := ledgerPossibleTimeResolutions.idxOf previousResolution
  if iter = ledgerPossibleTimeResolutions.length then previousResolution
  else if !previousAgree ∧ ledgerSeq % decreaseLedgerTimeResolutionEvery = 0 then
    (ledgerPossibleTimeResolutions[iter + 1]?).getD previousResolution
  else if previousAgree ∧ ledgerSeq % increaseLedgerTimeResolutionEvery = 0 ∧ iter ≠ 0 then
    (ledgerPossibleTimeResolutions[iter - 1]?).getD previousResolution
  else previousResolution

def roundCloseTime (closeTime closeResolution : Int) : Int :=
  if closeTime = 0 then closeTime
  else
    let closeTime := closeTime + closeResolution / 2
    closeTime - closeTime % closeResolution

def shouldCloseLedger (anyTransactions : Bool)
    (prevProposers proposersClosed proposersValidated : Nat)
    (prevRoundTime timeSincePrevClose openTime idleInterval : Int) (p : ConsensusParms) : Bool :=
  if prevRoundTime < -1000 ∨ 600000 < prevRoundTime ∨ 600000 < timeSincePrevClose then true
  else if prevProposers / 2 < proposersClosed + proposersValidated then true
  else if !anyTransactions then idleInterval ≤ timeSincePrevClose
  else if openTime < p.ledgerMIN_CLOSE then false
  else if openTime < prevRoundTime.tdiv 2 then false
  else true

def checkConsensusReached (agreeing total : Nat) (countSelf : Bool) (minConsensusPct : Nat) : Bool :=
  if total = 0 then true
  else
    let agreeing := if countSelf then agreeing + 1 else agreeing
    let total := if countSelf then total + 1 else total
    minConsensusPct ≤ agreeing * 100 / total

def checkConsensus (prevProposers currentProposers currentAgree currentFinished : Nat)
    (previousAgreeTime currentAgreeTime : Int) (p : ConsensusParms) (proposing : Bool) :
    ConsensusState :=
  if currentAgreeTime ≤ p.ledgerMIN_CONSENSUS then .no
  else if currentProposers < prevProposers * 3 / 4 ∧
      currentAgreeTime < previousAgreeTime + p.ledgerMIN_CONSENSUS then .no
  else if checkConsensusReached currentAgree currentProposers proposing p.minCONSENSUS_PCT then .yes
  else if checkConsensusReached currentFinished currentProposers false p.minCONSENSUS_PCT then
    .movedOn
  else .no

def participantsNeeded (participants percent : Nat) : Nat :=
  let result := (participants * percent + percent / 2) / 100
  if result = 0 then 1 else result

/-- The loop over the close time votes in the order of the times: each time with enough votes
becomes the one to beat. -/
def closeTimeLoop (threshConsensus : Nat) : List (Int × Nat) → Nat → Int → Bool → Int × Bool
  | [], _, consensusCloseTime, haveConsensus => (consensusCloseTime, haveConsensus)
  | (t, v) :: votes, threshVote, consensusCloseTime, haveConsensus =>
    if threshVote ≤ v then
      closeTimeLoop threshConsensus votes v t (haveConsensus || decide (threshConsensus ≤ v))
    else closeTimeLoop threshConsensus votes threshVote consensusCloseTime haveConsensus

/-- A position taken by a node in a round. The wrapper in which it travels adds nothing here. -/
structure Proposal (N S I : Type) where
  prevLedger : I
  proposeSeq : Nat
  position : S
  closeTime : Int
  seenTime : Int
  nodeID : N
deriving DecidableEq

namespace Proposal

variable {N S I : Type}

def seqJoin : Nat := 0

def seqLeave : Nat := 0xffffffff

variable (p : Proposal N S I)

def isInitial : Bool := p.proposeSeq == seqJoin

def isBowOut : Bool := p.proposeSeq == seqLeave

def isStale (cutoff : Int) : Bool := p.seenTime ≤ cutoff

def changePosition (newPosition : S) (newCloseTime now : Int) : Proposal N S I :=
  { p with
    position := newPosition
    closeTime := newCloseTime
    seenTime := now
    proposeSeq := if p.proposeSeq = seqLeave then p.proposeSeq else (p.proposeSeq + 1) % 2 ^ 32 }

def bowOut (now : Int) : Proposal N S I :=
  { p with seenTime := now, proposeSeq := seqLeave }

end Proposal

end Rippled.Consensus
