import Rippled.Lib.HashMap
import Rippled.Consensus.Basic
import Mathlib.Data.Finset.SymmDiff

namespace Rippled.Consensus

open Lib HashMap

/-- A transaction on which the node and its peers disagree, with the votes of the peers. -/
structure DisputedTx (N T : Type) where
  yays_ : Int
  nays_ : Int
  ourVote_ : Bool
  tx_ : T
  votes_ : HashMap N Bool

namespace DisputedTx

variable {N T : Type} [DecidableEq N]

def new (tx : T) (ourVote : Bool) : DisputedTx N T := ⟨0, 0, ourVote, tx, ∅⟩

def setVote (d : DisputedTx N T) (peer : N) (votesYes : Bool) : DisputedTx N T :=
  match d.votes_.lookup peer with
  | none =>
    { d with
      yays_ := if votesYes then d.yays_ + 1 else d.yays_
      nays_ := if votesYes then d.nays_ else d.nays_ + 1
      votes_ := d.votes_.insert peer votesYes }
  | some old =>
    if votesYes && !old then
      { d with nays_ := d.nays_ - 1, yays_ := d.yays_ + 1, votes_ := d.votes_.insert peer true }
    else if !votesYes && old then
      { d with nays_ := d.nays_ + 1, yays_ := d.yays_ - 1, votes_ := d.votes_.insert peer false }
    else d

def unVote (d : DisputedTx N T) (peer : N) : DisputedTx N T :=
  match d.votes_.lookup peer with
  | none => d
  | some old =>
    { d with
      yays_ := if old then d.yays_ - 1 else d.yays_
      nays_ := if old then d.nays_ else d.nays_ - 1
      votes_ := d.votes_.erase peer }

/-- Whether the votes are in favour. A proposing node counts itself, and the weight it asks for
rises with the time; any other node only recognises a majority. -/
def inFavour (d : DisputedTx N T) (percentTime : Int) (proposing : Bool) (p : ConsensusParms) : Bool :=
  if proposing then
    let weight := (d.yays_ * 100 + if d.ourVote_ then 100 else 0).tdiv (d.nays_ + d.yays_ + 1)
    avalanche p percentTime < asSize weight
  else d.nays_ < d.yays_

/-- Update our vote as consensus proceeds; the result says whether it has changed. -/
def updateVote (d : DisputedTx N T) (percentTime : Int) (proposing : Bool) (p : ConsensusParms) :
    Bool × DisputedTx N T :=
  if d.ourVote_ && d.nays_ == 0 then (false, d)
  else if !d.ourVote_ && d.yays_ == 0 then (false, d)
  else if d.inFavour percentTime proposing p == d.ourVote_ then (false, d)
  else (true, { d with ourVote_ := d.inFavour percentTime proposing p })

structure Counted (d : DisputedTx N T) : Prop where
  yays : d.yays_ = (HashMap.values d.votes_).count true
  nays : d.nays_ = (HashMap.values d.votes_).count false

variable {d : DisputedTx N T}

theorem setVote_votes (d : DisputedTx N T) (peer : N) (votesYes : Bool) :
    (d.setVote peer votesYes).votes_ = d.votes_.insert peer votesYes := by
  rw [setVote]
  cases hl : d.votes_.lookup peer with
  | none => rfl
  | some old =>
    cases votesYes <;> cases old <;> simp [insert_of_lookup hl]

theorem setVote_tx (d : DisputedTx N T) (peer : N) (votesYes : Bool) :
    (d.setVote peer votesYes).tx_ = d.tx_ ∧ (d.setVote peer votesYes).ourVote_ = d.ourVote_ := by
  rw [setVote]
  cases d.votes_.lookup peer with
  | none => exact ⟨rfl, rfl⟩
  | some old => cases votesYes <;> cases old <;> exact ⟨rfl, rfl⟩

theorem unVote_votes (d : DisputedTx N T) (peer : N) :
    (d.unVote peer).votes_ = d.votes_.erase peer := by
  rw [unVote]
  cases hl : d.votes_.lookup peer with
  | none => rw [erase_of_lookup hl]
  | some old => rfl

theorem unVote_tx (d : DisputedTx N T) (peer : N) :
    (d.unVote peer).tx_ = d.tx_ ∧ (d.unVote peer).ourVote_ = d.ourVote_ := by
  rw [unVote]
  cases d.votes_.lookup peer <;> exact ⟨rfl, rfl⟩

theorem Counted.setVote (h : Counted d) (peer : N) (votesYes : Bool) :
    Counted (d.setVote peer votesYes) := by
  have hy := h.yays
  have hn := h.nays
  cases hl : d.votes_.lookup peer with
  | none =>
    constructor
    · rw [setVote_votes, values_insert hl, DisputedTx.setVote, hl]
      cases votesYes <;> simp [hy]
    · rw [setVote_votes, values_insert hl, DisputedTx.setVote, hl]
      cases votesYes <;> simp [hn]
  | some old =>
    have hins : HashMap.values (d.votes_.insert peer votesYes) =
        votesYes ::ₘ HashMap.values (d.votes_.erase peer) := by
      rw [← insert_erase, values_insert (Finmap.lookup_erase _ _)]
    rw [values_of_lookup hl] at hy hn
    constructor
    · rw [setVote_votes, hins, DisputedTx.setVote, hl]
      cases votesYes <;> cases old <;> simp_all
    · rw [setVote_votes, hins, DisputedTx.setVote, hl]
      cases votesYes <;> cases old <;> simp_all

theorem Counted.unVote (h : Counted d) (peer : N) : Counted (d.unVote peer) := by
  have hy := h.yays
  have hn := h.nays
  cases hl : d.votes_.lookup peer with
  | none =>
    rw [DisputedTx.unVote, hl]
    exact h
  | some old =>
    rw [values_of_lookup hl] at hy hn
    constructor
    · rw [unVote_votes, DisputedTx.unVote, hl]
      cases old <;> simp_all
    · rw [unVote_votes, DisputedTx.unVote, hl]
      cases old <;> simp_all

omit [DecidableEq N] in
theorem updateVote_cases (d : DisputedTx N T) (percentTime : Int) (proposing : Bool)
    (p : ConsensusParms) : d.updateVote percentTime proposing p = (false, d) ∨
    d.updateVote percentTime proposing p = (true, { d with ourVote_ := !d.ourVote_ }) := by
  rw [updateVote]
  split_ifs with h1 h2 h3
  · exact .inl rfl
  · exact .inl rfl
  · exact .inl rfl
  refine .inr ?_
  have hfl : d.inFavour percentTime proposing p = !d.ourVote_ := by
    cases hf : d.inFavour percentTime proposing p <;> cases hd : d.ourVote_ <;> simp_all
  rw [hfl]

end DisputedTx

class PriorLedger (L : Type) (I : outParam Type) where
  id : L → I
  seq : L → Nat
  closeTime : L → Int
  parentCloseTime : L → Int
  closeTimeResolution : L → Int
  closeAgree : L → Bool

/-- The set of transactions we support, our position on it, the transactions in dispute and the
sets that have been compared. -/
structure Stance (N T S I : Type) where
  txns : Finset T
  position : Proposal N S I
  disputes : HashMap T (DisputedTx N T) := ∅
  compares : Finset S := ∅

structure ConsensusResult (N T S I : Type) extends Stance N T S I where
  roundTime : ConsensusTimer := {}
  state : ConsensusState := .no
  proposers : Nat := 0

/-- Close times as first proposed by the peers, with their number, and our own. -/
structure ConsensusCloseTimes where
  peers : HashMap Int Nat := ∅
  self : Int := 0

inductive Assertion
  | gotTxSet
  | createDisputes
  | updateDisputes
  | handleWrongLedger
  | phaseEstablish
  | closeLedger
  | updateOurPositions
  | haveConsensus
deriving DecidableEq

section

variable (N T S I L : Type)

/-- The calls made to the adaptor. The constructors from `started` on are not calls, they mark what
happens in between. -/
inductive Event
  | propose (position : Proposal N S I)
  | shareTxSet (txns : Finset T)
  | shareTx (tx : T)
  | sharePosition (position : Proposal N S I)
  | onModeChange (before after : ConsensusMode)
  | updateOperatingMode (positions : Nat)
  | onAccept (result : ConsensusResult N T S I) (previousLedger : L) (closeResolution : Int)
      (rawCloseTimes : ConsensusCloseTimes) (mode : ConsensusMode)
  | started
  | cleared
  | changed
  | received (position : Proposal N S I)
  | dropped (position : Proposal N S I)
  | assertFailed (assertion : Assertion)

/-- The answers of the adaptor and of the clock, which may differ from call to call and so depend on
a counter, and the orders in which the hash containers are traversed. A transaction stands for its
identifier. -/
structure Adaptor where
  parms : ConsensusParms
  setID : Finset T → S
  acquireLedger : Nat → I → Option L
  acquireTxSet : Nat → S → Option (Finset T)
  getPrevLedger : Nat → I → L → ConsensusMode → I
  hasOpenTransactions : Nat → Bool
  proposersValidated : Nat → I → Nat
  proposersFinished : Nat → L → I → Nat
  onClose : Nat → L → Int → ConsensusMode → Finset T × Proposal N S I
  clock : Nat → Int
  getValidLedgerIndex : Nat → Nat
  /-- The quorum and the number of trusted keys. -/
  getQuorumKeys : Nat → Nat × Nat
  /-- The number of laggards and of the keys that are left over. -/
  laggards : Nat → Nat → Nat × Nat
  validator : Nat → Bool
  haveValidated : Nat → Bool
  /-- The comparison of floating point numbers in `shouldPause`, from the number of validators, of
  those that are behind or offline, the quorum and the phase. -/
  fewNonLaggards : Nat → Nat → Nat → Nat → Bool
  nodeOrder : Nat → Finset N → List N
  txOrder : Nat → Finset T → List T

/-- The members of the class, the counter for the adaptor and the log. -/
structure State where
  phase_ : ConsensusPhase := .accepted
  mode_ : ConsensusMode := .observing
  firstRound_ : Bool := true
  haveCloseTimeConsensus_ : Bool := false
  convergePercent_ : Int := 0
  openTime_ : ConsensusTimer := {}
  closeResolution_ : Int := ledgerDefaultTimeResolution
  prevRoundTime_ : Int := 0
  now_ : Int := 0
  prevCloseTime_ : Int := 0
  prevLedgerID_ : I
  previousLedger_ : L
  acquired_ : HashMap S (Finset T) := ∅
  result_ : Option (ConsensusResult N T S I) := none
  rawCloseTimes_ : ConsensusCloseTimes := {}
  currPeerPositions_ : HashMap N (Proposal N S I) := ∅
  recentPeerPositions_ : HashMap N (List (Proposal N S I)) := ∅
  prevProposers_ : Nat := 0
  deadNodes_ : Finset N := ∅
  calls : Nat := 0
  log : List (Event N T S I L) := []

end

namespace State

variable {N T S I L : Type}

def new (prevLedgerID : I) (previousLedger : L) : State N T S I L :=
  { prevLedgerID_ := prevLedgerID, previousLedger_ := previousLedger }

section

variable (s : State N T S I L)

def emit (e : Event N T S I L) : State N T S I L :=
  { s with log := s.log ++ [e] }

def assert (assertion : Assertion) (condition : Bool) : State N T S I L :=
  if condition then s else s.emit (.assertFailed assertion)

def setMode (mode : ConsensusMode) : State N T S I L :=
  { s.emit (.onModeChange s.mode_ mode) with mode_ := mode }

def asCloseTime (raw : Int) : Int := roundCloseTime raw s.closeResolution_

end

def mapDisputes (f : DisputedTx N T → DisputedTx N T) (s : State N T S I L) : State N T S I L :=
  { s with result_ := s.result_.map (fun r =>
      { r with disputes := HashMap.mapValues (fun _ d => f d) r.disputes }) }

end State

end Rippled.Consensus
