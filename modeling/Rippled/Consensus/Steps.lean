import Rippled.Lib.Run
import Rippled.Consensus.Course

namespace Rippled.Consensus

open Lib

variable {N T S I L : Type}

def Event.Neutral : Event N T S I L → Prop
  | .shareTxSet _ | .shareTx _ | .sharePosition _ | .onModeChange _ _ | .updateOperatingMode _
  | .onAccept .. => True
  | _ => False

def Grows (s s' : State N T S I L) : Prop := ∃ es, s'.log = s.log ++ es ∧ ∀ e ∈ es, e.Neutral

theorem Grows.of_log_eq {s s' : State N T S I L} (h : s'.log = s.log) : Grows s s' :=
  ⟨[], by simp [h], by simp⟩

/-- Nothing that matters for the course of the round has changed: timers, counters and the record of
recent positions may have. -/
structure Idle (s s' : State N T S I L) : Prop where
  phase : s'.phase_ = s.phase_ := by rfl
  mode : s'.mode_ = s.mode_ := by rfl
  prevLedgerID : s'.prevLedgerID_ = s.prevLedgerID_ := by rfl
  previousLedger : s'.previousLedger_ = s.previousLedger_ := by rfl
  acquired : s'.acquired_ = s.acquired_ := by rfl
  stance : s'.result_.map ConsensusResult.toStance = s.result_.map ConsensusResult.toStance := by rfl
  positions : s'.currPeerPositions_ = s.currPeerPositions_ := by rfl
  dead : s'.deadNodes_ = s.deadNodes_ := by rfl
  closeTimes : s'.rawCloseTimes_.peers = s.rawCloseTimes_.peers := by rfl
  grows : Grows s s' := by exact Grows.of_log_eq rfl

section

variable (s : State N T S I L)

theorem Idle.calls (calls : Nat) : Idle s { s with calls := calls } := {}

theorem Idle.now (now : Int) : Idle s { s with now_ := now } := {}

theorem leaveConsensus_phase : (leaveConsensus s).phase_ = s.phase_ := by
  rw [leaveConsensus]
  split_ifs
  · cases s.result_ with
    | none => rfl
    | some r =>
      dsimp only
      split_ifs
      · rfl
      · rfl
  · rfl

theorem leaveConsensus_mode : (leaveConsensus s).mode_ ≠ .proposing := by
  rw [leaveConsensus]
  split_ifs with h
  · exact ConsensusMode.noConfusion
  · exact h

end

variable [PriorLedger L I] [DecidableEq N] [DecidableEq T] [DecidableEq S] [DecidableEq I]

def Adaptor.AcquiresLedgers (env : Adaptor N T S I L) : Prop :=
  ∀ call id ledger, env.acquireLedger call id = some ledger → PriorLedger.id ledger = id

/-- The parts of which the work on a round is made, each under the condition in which the code comes
to it. -/
inductive Step (env : Adaptor N T S I L) : State N T S I L → State N T S I L → Prop
  | idle {s s'} : Idle s s' → Step env s s'
  | txSet (s : State N T S I L) (now : Int) (txSet : Finset T) : Step env s (gotTxSet env s now txSet)
  | leave (s : State N T S I L) : s.phase_ ≠ .accepted → Step env s (leaveConsensus s)
  | turn (s : State N T S I L) (lgrId : I) : s.phase_ ≠ .accepted → s.mode_ ≠ .proposing →
      Step env s (playbackProposals env (turnTo s lgrId))
  | wrong (s : State N T S I L) : s.mode_ ≠ .proposing → Step env s (s.setMode .wrongLedger)
  | begin (s : State N T S I L) (now : Int) (id : I) (ledger : L) (mode : ConsensusMode) :
      (env.AcquiresLedgers → mode = .proposing → PriorLedger.id ledger = id) →
      Step env s (playbackProposals env (beginRound env s now id ledger mode))
  | close (s : State N T S I L) : s.phase_ = ConsensusPhase.open → Step env s (closeLedger env s)
  | update (s : State N T S I L) : s.phase_ = .establish → Step env s (updateOurPositions env s)
  | accept (s : State N T S I L) (r : ConsensusResult N T S I) : s.phase_ = .establish →
      Step env s (accept s r)
  | fault (s : State N T S I L) (assertion : Assertion) :
      assertion = .phaseEstablish ∨ assertion = .haveConsensus → s.phase_ = .establish →
      s.result_ = none → Step env s (s.assert assertion false)

abbrev Steps (env : Adaptor N T S I L) := Relation.ReflTransGen (Step env)

variable {env : Adaptor N T S I L} {s s' : State N T S I L}

theorem Step.steps (h : Step env s s') : Steps env s s' := Relation.ReflTransGen.single h

theorem Idle.steps (h : Idle s s') : Steps env s s' := (Step.idle h).steps

theorem phaseOpen_steps (h : s.phase_ = ConsensusPhase.open) : Steps env s (phaseOpen env s) := by
  have hi : Idle s { s with
      openTime_ := s.openTime_.tick (env.clock s.calls), calls := s.calls + 1 } := {}
  rw [phaseOpen]
  generalize shouldCloseLedger _ _ _ _ _ _ _ _ _ = close
  cases close with
  | true => exact hi.steps.tail (.close _ h)
  | false => exact hi.steps

theorem haveConsensus_steps (h : s.phase_ = .establish) :
    Steps env s (haveConsensus env s).2 ∧ (haveConsensus env s).2.phase_ = .establish := by
  rw [haveConsensus]
  cases hr : s.result_ with
  | none => exact ⟨(Step.fault s .haveConsensus (.inr rfl) h hr).steps, h⟩
  | some r =>
    refine ⟨Idle.steps { stance := ?_ }, h⟩
    rw [hr]
    rfl

theorem phaseEstablish_steps (h : s.phase_ = .establish) : Steps env s (phaseEstablish env s) := by
  rw [phaseEstablish]
  cases hr : s.result_ with
  | none => exact (Step.fault s .phaseEstablish (.inl rfl) h hr).steps
  | some r =>
    dsimp only
    generalize hs₁ : State.mk .. = s₁
    have hi : Idle s s₁ := by
      subst hs₁
      exact { stance := by rw [hr]; rfl }
    have hp : (updateOurPositions env s₁).phase_ = .establish := by
      rw [updateOurPositions_phase, hi.phase, h]
    have hst := hi.steps.tail (Step.update s₁ (hi.phase.trans h) : Step env _ _)
    split_ifs
    · exact hi.steps
    · exact hst.tail (.idle (Idle.calls _ _))
    have hi := Idle.calls (updateOurPositions env s₁) ((updateOurPositions env s₁).calls + 1)
    generalize State.mk .. = s₂ at hi ⊢
    obtain ⟨hh, hp⟩ := haveConsensus_steps (hi.phase.trans hp)
    have hst := (hst.tail (.idle hi)).trans hh
    generalize haveConsensus env s₂ = c at hst hp ⊢
    split
    · exact hst.tail (.accept _ _ hp)
    · exact hst

theorem work_steps (env : Adaptor N T S I L) (s : State N T S I L) : Steps env s (work env s) := by
  rw [work]
  cases h : s.phase_ with
  | «open» => exact phaseOpen_steps h
  | establish => exact phaseEstablish_steps h
  | accepted => exact .refl

section Recursion

variable {timer : State N T S I L → Int → Option (State N T S I L)}

section

variable (ht : ∀ s now s', timer s now = some s' → Steps env s s')

include ht

theorem startRoundInternal_steps
    {now : Int} {prevLedgerID : I} {prevLedger : L} {mode : ConsensusMode}
    (hid : env.AcquiresLedgers → mode = .proposing → PriorLedger.id prevLedger = prevLedgerID)
    (h : startRoundInternal env timer s now prevLedgerID prevLedger mode = some s') :
    Steps env s s' := by
  have hb := (Step.begin s now prevLedgerID prevLedger mode hid).steps
  rw [startRoundInternal] at h
  generalize playbackProposals env _ = s₁ at h hb
  split_ifs at h
  · exact hb.trans (ht _ _ _ h)
  · cases h
    exact hb

theorem handleWrongLedger_steps
    {lgrId : I} (hp : s.phase_ ≠ .accepted)
    (hw : lgrId ≠ s.prevLedgerID_ ∨ PriorLedger.id s.previousLedger_ ≠ lgrId)
    (h : handleWrongLedger env timer s lgrId = some s') : Steps env s s' := by
  rw [handleWrongLedger, State.assert, decide_eq_true hw, if_pos rfl] at h
  have hl := (Step.leave s hp : Step env _ _).steps
  have hp₁ : (leaveConsensus s).phase_ ≠ .accepted := by rwa [leaveConsensus_phase]
  have hm₁ := leaveConsensus_mode s
  generalize leaveConsensus s = s₁ at h hl hp₁ hm₁
  have htr : ∃ s₂, s₂ = (if s₁.prevLedgerID_ = lgrId then s₁
      else playbackProposals env (turnTo s₁ lgrId)) ∧ Steps env s s₂ ∧ s₂.mode_ ≠ .proposing := by
    refine ⟨_, rfl, ?_⟩
    split_ifs
    · exact ⟨hl, hm₁⟩
    · refine ⟨hl.tail (.turn _ lgrId hp₁ hm₁), ?_⟩
      rwa [(playbackProposals_course env _).mode]
  obtain ⟨s₂, hs₂, hst, hm₂⟩ := htr
  rw [← hs₂] at h
  split_ifs at h
  · cases h
    exact hst
  have hst := hst.tail (.idle (Idle.calls s₂ (s₂.calls + 1)))
  cases hacq : env.acquireLedger s₂.calls s₂.prevLedgerID_ with
  | none =>
    rw [hacq] at h
    cases h
    exact hst.tail (.wrong _ hm₂)
  | some newLedger =>
    rw [hacq] at h
    exact hst.trans (startRoundInternal_steps ht (fun _ => ConsensusMode.noConfusion) h)

theorem checkLedger_steps
    (hp : s.phase_ ≠ .accepted) (h : checkLedger env timer s = some s') : Steps env s s' := by
  have hi : Steps env s _ := (Idle.calls s (s.calls + 1)).steps
  rw [checkLedger] at h
  split_ifs at h with hne
  · refine hi.trans (handleWrongLedger_steps ht hp ?_ h)
    by_cases heq : env.getPrevLedger s.calls s.prevLedgerID_ s.previousLedger_ s.mode_ =
      s.prevLedgerID_
    · refine .inr ?_
      rw [heq]
      exact hne.resolve_left (not_not_intro heq)
    · exact .inl heq
  · cases h
    exact hi

end

end Recursion

variable {fuel : Nat}

theorem timerEntry_steps {now : Int} (h : timerEntry env fuel s now = some s') :
    Steps env s s' := by
  induction fuel generalizing s s' now with
  | zero => cases h
  | succ fuel ih =>
    rw [timerEntry] at h
    split_ifs at h with hp
    · cases h
      exact .refl
    · obtain ⟨s₁, hs₁, rfl⟩ := Option.map_eq_some_iff.mp h
      have hc := checkLedger_steps (fun _ _ _ => ih) (s := { s with now_ := now }) hp hs₁
      exact ((Idle.now s now).steps.trans hc).trans (work_steps env s₁)

theorem startRound_steps {now : Int} {prevLedgerID : I} {prevLedger : L} {nowUntrusted : Finset N}
    {proposing : Bool} (h : startRound env fuel s now prevLedgerID prevLedger nowUntrusted
      proposing = some s') : Steps env s s' := by
  have ht : ∀ s now s', timerEntry env fuel s now = some s' → Steps env s s' :=
    fun _ _ _ => timerEntry_steps
  rw [startRound] at h
  generalize hs₁ : (if s.firstRound_ = true then (_ : State N T S I L) else _) = s₁ at h
  have hi : Idle s s₁ := by
    subst hs₁
    split_ifs
    · exact {}
    · exact {}
  have hr : ∀ recent calls, Idle s
      { s₁ with recentPeerPositions_ := recent, calls := calls } := fun recent calls =>
    ⟨hi.phase, hi.mode, hi.prevLedgerID, hi.previousLedger, hi.acquired,
      hi.stance, hi.positions, hi.dead, hi.closeTimes, hi.grows⟩
  generalize (if proposing = true then ConsensusMode.proposing else .observing) = mode at h
  split_ifs at h with hid
  · cases hacq : env.acquireLedger s₁.calls prevLedgerID with
    | some newLedger =>
      rw [hacq] at h
      exact (hr _ _).steps.trans (startRoundInternal_steps ht (fun henv _ => henv _ _ _ hacq) h)
    | none =>
      rw [hacq] at h
      exact (hr _ _).steps.trans
        (startRoundInternal_steps ht (fun _ => ConsensusMode.noConfusion) h)
  · exact (hr _ _).steps.trans (startRoundInternal_steps ht (fun _ _ => not_ne_iff.mp hid) h)

omit [PriorLedger L I] in
theorem peerProposal_eq (env : Adaptor N T S I L) (s : State N T S I L) (now : Int)
    (p : Proposal N S I) :
    ∃ s₁, Idle s s₁ ∧ (peerProposal env s now p).2 = (peerProposalInternal env s₁ now p).2 := by
  rw [peerProposal]
  refine ⟨_, ?_, rfl⟩
  exact {}

theorem apply_cases {op : Op N T S I L} (h : apply env fuel s op = some s') :
    (∃ now p s₁, op = .peerProposal now p ∧ Idle s s₁ ∧
      s' = (peerProposalInternal env s₁ now p).2) ∨ Steps env s s' := by
  cases op with
  | startRound now prevLedgerID prevLedger nowUntrusted proposing =>
    exact .inr (startRound_steps h)
  | peerProposal now p =>
    obtain ⟨s₁, hi, hp⟩ := peerProposal_eq env s now p
    refine .inl ⟨now, p, s₁, rfl, hi, ?_⟩
    rw [← hp]
    exact (Option.some.inj h).symm
  | gotTxSet now txSet =>
    cases h
    exact .inr (Step.txSet s now txSet).steps
  | timerEntry now => exact .inr (timerEntry_steps h)

variable {J : State N T S I L → Prop}

section

variable (hst : ∀ s s', J s → Step env s s' → J s')

include hst

theorem Steps.invariant (h : Steps env s s') (hs : J s) : J s' := by
  induction h with
  | refl => exact hs
  | tail _ hl ih => exact hst _ _ ih hl

variable (hp : ∀ s now p, J s → J (peerProposalInternal env s now p).2) (hs : J s)

include hp hs

theorem apply_invariant {op : Op N T S I L} (h : apply env fuel s op = some s') : J s' := by
  obtain ⟨now, p, s₁, -, hi, rfl⟩ | hsp := apply_cases h
  · exact hp s₁ now p (hst s s₁ hs (.idle hi))
  · exact Steps.invariant hst hsp hs

theorem run_invariant {ops : List (Op N T S I L)} (hrun : ops.foldlM (apply env fuel) s = some s') :
    J s' :=
  Run.invariant_of_foldlM J (fun _ _ _ hs _ ha => apply_invariant hst hp hs ha) ops hs
    (Run.allowedIn_true ops s) hrun

end

end Rippled.Consensus
