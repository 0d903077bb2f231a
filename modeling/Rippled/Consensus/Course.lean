import Rippled.Consensus.Round

namespace Rippled.Consensus

open Lib

variable {N T S I L : Type}

def Event.OfPeers : Event N T S I L → Prop
  | .shareTxSet _ | .shareTx _ | .sharePosition _ | .received _ | .assertFailed .gotTxSet
  | .assertFailed .createDisputes | .assertFailed .updateDisputes => True
  | _ => False

def Event.OfDisputes : Event N T S I L → Prop
  | .shareTxSet _ | .shareTx _ | .assertFailed .gotTxSet | .assertFailed .createDisputes
  | .assertFailed .updateDisputes => True
  | _ => False

/-- Our own part in the round is as before: phase and mode, the prior ledger, our set and our
position. The log has grown by certain events. -/
structure Course (logs : Event N T S I L → Prop) (s s' : State N T S I L) : Prop where
  phase : s'.phase_ = s.phase_ := by rfl
  mode : s'.mode_ = s.mode_ := by rfl
  prevLedgerID : s'.prevLedgerID_ = s.prevLedgerID_ := by rfl
  previousLedger : s'.previousLedger_ = s.previousLedger_ := by rfl
  stance : s'.result_.map (fun r => (r.txns, r.position)) =
    s.result_.map (fun r => (r.txns, r.position)) := by rfl
  log : ∃ es, s'.log = s.log ++ es ∧ ∀ e ∈ es, logs e := by exact ⟨[], by simp, by simp⟩

namespace Course

variable {logs : Event N T S I L → Prop} {s s' s'' : State N T S I L}

theorem refl (s : State N T S I L) : Course logs s s := {}

theorem trans (h : Course logs s s') (h' : Course logs s' s'') : Course logs s s'' := by
  obtain ⟨es, hlog, hes⟩ := h.log
  obtain ⟨es', hlog', hes'⟩ := h'.log
  refine ⟨h'.phase.trans h.phase, h'.mode.trans h.mode, h'.prevLedgerID.trans h.prevLedgerID,
    h'.previousLedger.trans h.previousLedger, h'.stance.trans h.stance, es ++ es',
    by rw [hlog', hlog, List.append_assoc], fun e he => ?_⟩
  obtain he | he := List.mem_append.mp he
  · exact hes e he
  · exact hes' e he

theorem foldl {O : Type} {step : State N T S I L → O → State N T S I L}
    (h : ∀ s o, Course logs s (step s o)) (os : List O) (s : State N T S I L) :
    Course logs s (os.foldl step s) :=
  List.foldlRecOn os step (Course.refl s) fun s' hs o _ => hs.trans (h s' o)

theorem log_grows (h : Course logs s s') : s.log <+: s'.log := by
  obtain ⟨es, hlog, -⟩ := h.log
  exact hlog ▸ List.prefix_append _ _

section

variable (s : State N T S I L)

theorem emit {e : Event N T S I L} (he : logs e) : Course logs s (s.emit e) :=
  { log := ⟨[e], rfl, by simpa using he⟩ }

theorem assert (assertion : Assertion) (condition : Bool) (h : logs (.assertFailed assertion)) :
    Course logs s (s.assert assertion condition) := by
  rw [State.assert]
  cases condition with
  | true => exact Course.refl s
  | false => exact Course.emit s h

theorem calls (c : Nat) : Course logs s { s with calls := c } := {}

theorem now (t : Int) : Course logs s { s with now_ := t } := {}

end

theorem mapDisputes (f : DisputedTx N T → DisputedTx N T) (s : State N T S I L) :
    Course logs s (s.mapDisputes f) := by
  refine ⟨rfl, rfl, rfl, rfl, ?_, [], by simp [State.mapDisputes], by simp⟩
  rw [State.mapDisputes, Option.map_map]
  rfl

end Course

/-- The peers have not been heard either: only the disputes and the acquired sets have changed. -/
structure Keeps (s s' : State N T S I L) : Prop extends Course Event.OfDisputes s s' where
  positions : s'.currPeerPositions_ = s.currPeerPositions_
  dead : s'.deadNodes_ = s.deadNodes_
  closeTimes : s'.rawCloseTimes_.peers = s.rawCloseTimes_.peers

namespace Keeps

variable {s s' s'' : State N T S I L}

theorem refl (s : State N T S I L) : Keeps s s := ⟨Course.refl s, rfl, rfl, rfl⟩

theorem trans (h : Keeps s s') (h' : Keeps s' s'') : Keeps s s'' :=
  ⟨h.toCourse.trans h'.toCourse, h'.positions.trans h.positions, h'.dead.trans h.dead,
    h'.closeTimes.trans h.closeTimes⟩

theorem foldl {O : Type} {step : State N T S I L → O → State N T S I L}
    (h : ∀ s o, Keeps s (step s o)) (os : List O) (s : State N T S I L) :
    Keeps s (os.foldl step s) :=
  List.foldlRecOn os step (Keeps.refl s) fun s' hs o _ => hs.trans (h s' o)

section

variable (s : State N T S I L)

theorem calls (c : Nat) : Keeps s { s with calls := c } :=
  ⟨Course.calls s c, rfl, rfl, rfl⟩

theorem assert (assertion : Assertion) (condition : Bool)
    (h : (.assertFailed assertion : Event N T S I L).OfDisputes) :
    Keeps s (s.assert assertion condition) := by
  refine ⟨Course.assert s assertion condition h, ?_, ?_, ?_⟩ <;> cases condition <;> rfl

theorem acquire (acquired : HashMap S (Finset T)) : Keeps s { s with acquired_ := acquired } :=
  ⟨{}, rfl, rfl, rfl⟩

theorem emit {e : Event N T S I L} (he : e.OfDisputes) : Keeps s (s.emit e) :=
  ⟨Course.emit s he, rfl, rfl, rfl⟩

end

theorem mapDisputes (f : DisputedTx N T → DisputedTx N T) (s : State N T S I L) :
    Keeps s (s.mapDisputes f) := ⟨Course.mapDisputes f s, rfl, rfl, rfl⟩

theorem ofPeers (h : Keeps s s') : Course Event.OfPeers s s' := by
  obtain ⟨es, hlog, hes⟩ := h.log
  refine ⟨h.phase, h.mode, h.prevLedgerID, h.previousLedger, h.stance, es, hlog, fun e he => ?_⟩
  have hof := hes e he
  cases e with
  | assertFailed a => cases a <;> exact hof
  | shareTxSet | shareTx => trivial
  | _ => exact hof.elim

end Keeps

variable [DecidableEq N]

theorem checkFresh_course (cutoff : Int) (r : State N T S I L × OrdMap Int Nat) (n : N) :
    Course (fun e => ∃ p, e = .dropped p) r.1 (checkFresh cutoff r n).1 := by
  rw [checkFresh]
  cases r.1.currPeerPositions_.lookup n with
  | none => exact Course.refl _
  | some p =>
    dsimp only
    split_ifs
    · refine (Course.mapDisputes (fun d => d.unVote p.nodeID) r.1).trans ?_
      exact { log := ⟨[.dropped p], rfl, by simp⟩ }
    · exact Course.refl _

variable (env : Adaptor N T S I L) (s : State N T S I L)

theorem dropStale_course : Course (fun e => ∃ p, e = .dropped p) s (dropStale env s).1 :=
  List.foldlRecOn _ _ (motive := fun r => Course (fun e => ∃ p, e = .dropped p) s r.1)
    (Course.calls s _) fun r hr n _ => hr.trans (checkFresh_course _ r n)

theorem peerBowsOut_course (p : Proposal N S I) : Course Event.OfPeers s (peerBowsOut s p) := by
  refine (Course.mapDisputes (fun d => d.unVote p.nodeID) s).trans ?_
  exact { log := ⟨[.received p], rfl, by simp [Event.OfPeers]⟩ }

theorem takePosition_course (p : Proposal N S I) : Course Event.OfPeers s (takePosition s p) := by
  rw [takePosition]
  split_ifs
  · exact { log := ⟨[.received p], rfl, by simp [Event.OfPeers]⟩ }
  · exact { log := ⟨[.received p], rfl, by simp [Event.OfPeers]⟩ }

variable [DecidableEq T] [DecidableEq S]

theorem createDispute_keeps (tx : T) : Keeps s (createDispute env s tx) := by
  rw [createDispute]
  cases hr : s.result_ with
  | none => exact Keeps.refl s
  | some r =>
    by_cases htx : tx ∈ r.disputes
    · simp only [htx, if_true]
      exact Keeps.refl s
    · simp only [htx, if_false]
      refine ⟨⟨rfl, rfl, rfl, rfl, by rw [hr]; rfl, [.shareTx tx], rfl, ?_⟩, rfl, rfl, rfl⟩
      simp [Event.OfDisputes]

theorem createDisputes_keeps (o : Finset T) : Keeps s (createDisputes env s o) := by
  rw [createDisputes]
  cases hr : s.result_ with
  | none => exact Keeps.assert s .createDisputes false trivial
  | some r =>
    have hset : Keeps s
        { s with result_ := some { r with compares := insert (env.setID o) r.compares } } :=
      ⟨{ stance := by rw [hr]; rfl }, rfl, rfl, rfl⟩
    dsimp only
    split_ifs
    · exact Keeps.refl s
    · exact hset
    · exact (hset.trans (Keeps.calls _ _)).trans (Keeps.foldl (fun s => createDispute_keeps env s) _ _)

theorem updateDisputes_keeps (node : N) (other : Finset T) :
    Keeps s (updateDisputes env s node other) := by
  rw [updateDisputes]
  cases s.result_ with
  | none => exact Keeps.assert s .updateDisputes false trivial
  | some r =>
    dsimp only
    split_ifs
    · exact Keeps.mapDisputes _ _
    · exact (createDisputes_keeps env s other).trans (Keeps.mapDisputes _ _)

theorem gotVote_keeps (txSet : Finset T) (s : State N T S I L) (n : N) :
    Keeps s (gotVote env txSet s n) := by
  rw [gotVote]
  cases s.currPeerPositions_.lookup n with
  | none => exact Keeps.refl s
  | some p =>
    dsimp only
    split_ifs
    · exact updateDisputes_keeps env s n txSet
    · exact Keeps.refl s

theorem newTxSet_keeps (txSet : Finset T) : Keeps s (newTxSet env s txSet) := by
  rw [newTxSet]
  refine (Keeps.acquire s (s.acquired_.insert (env.setID txSet) txSet)).trans ?_
  cases s.result_ with
  | none => exact Keeps.refl _
  | some r =>
    exact ((Keeps.assert _ .gotTxSet _ trivial).trans (Keeps.calls _ _)).trans
      (Keeps.foldl (gotVote_keeps env txSet) _ _)

theorem gotTxSet_keeps (now : Int) (txSet : Finset T) : Keeps s (gotTxSet env s now txSet) := by
  have hnow : Keeps s { s with now_ := now } := ⟨Course.now s now, rfl, rfl, rfl⟩
  rw [gotTxSet]
  split_ifs
  · exact Keeps.refl s
  · exact hnow
  · exact hnow.trans (newTxSet_keeps env _ txSet)

theorem lookAt_keeps (p : Proposal N S I) : Keeps s (lookAt env s p) := by
  rw [lookAt]
  cases s.acquired_.lookup p.position with
  | none =>
    cases env.acquireTxSet s.calls p.position with
    | none => exact Keeps.calls s _
    | some set => exact (Keeps.calls s _).trans (gotTxSet_keeps env _ _ set)
  | some set =>
    split_ifs
    · exact updateDisputes_keeps env s _ set
    · exact Keeps.refl s

theorem disputePeer_keeps (n : N) : Keeps s (disputePeer env s n) := by
  rw [disputePeer]
  cases (s.currPeerPositions_.lookup n).bind (fun p => s.acquired_.lookup p.position) with
  | none => exact Keeps.refl s
  | some set => exact createDisputes_keeps env s set

theorem closeLedger_eq : let s₀ := s.assert .closeLedger s.result_.isNone
    let closed := env.onClose s₀.calls s₀.previousLedger_ s₀.now_ s₀.mode_
    ∃ s₁, Keeps
        { s₀ with
          phase_ := .establish
          rawCloseTimes_ := { s₀.rawCloseTimes_ with self := s₀.now_ }
          result_ := some { txns := closed.1, position := closed.2,
                            roundTime := .reset (env.clock s₀.calls) }
          calls := s₀.calls + 1 } s₁ ∧
      Keeps (if s₁.mode_ = .proposing then s₁.emit (.propose closed.2) else s₁)
        (closeLedger env s) := by
  intro s₀ closed
  let b := { s₀ with
    phase_ := .establish
    rawCloseTimes_ := { s₀.rawCloseTimes_ with self := s₀.now_ }
    result_ := some { txns := closed.1, position := closed.2,
                      roundTime := .reset (env.clock s₀.calls) }
    calls := s₀.calls + 1 }
  let s₁ := if env.setID closed.1 ∈ b.acquired_ then b
    else { b with acquired_ := b.acquired_.insert (env.setID closed.1) closed.1 }.emit
      (.shareTxSet closed.1)
  have h₁ : Keeps b s₁ := by
    by_cases hset : env.setID closed.1 ∈ b.acquired_
    · rw [show s₁ = b from if_pos hset]
      exact Keeps.refl b
    · rw [show s₁ = State.emit _ _ from if_neg hset]
      exact (Keeps.acquire b _).trans (Keeps.emit _ trivial)
  exact ⟨s₁, h₁, (Keeps.calls _ _).trans (Keeps.foldl (fun s => disputePeer_keeps env s) _ _)⟩

section

variable (r : ConsensusResult N T S I) (set : Finset T) (closeTime : Int)

include r set closeTime

theorem changeStance_eq : let position := r.position.changePosition (env.setID set) closeTime s.now_
    ∃ s₁, Keeps
        ({ s with result_ := some { r with txns := set, position := position } }.emit .changed) s₁ ∧
      changeStance env s r set closeTime =
        if !position.isBowOut && s.mode_ = .proposing then s₁.emit (.propose position) else s₁ := by
  intro position
  let s₀ := { s with result_ := some { r with txns := set, position := position } }.emit .changed
  by_cases hset : env.setID set ∈ s.acquired_
  · refine ⟨s₀, Keeps.refl _, ?_⟩
    simp only [changeStance, State.emit, hset, if_true, s₀, position]
  let s₁ := { s₀ with acquired_ := s₀.acquired_.insert (env.setID set) set }
  let s₂ := if position.isBowOut then s₁ else s₁.emit (.shareTxSet set)
  let s₃ := (env.nodeOrder s₂.calls s₂.currPeerPositions_.keys).foldl (gotVote env set)
    { s₂ with calls := s₂.calls + 1 }
  have h₁ : Keeps s₀ s₁ := Keeps.acquire s₀ _
  have h₂ : Keeps s₁ s₂ := by
    by_cases hbow : position.isBowOut
    · simp only [s₂, hbow, if_true]
      exact Keeps.refl _
    · simp only [s₂, hbow]
      exact Keeps.emit s₁ trivial
  have h₃ : Keeps s₂ s₃ := (Keeps.calls _ _).trans (Keeps.foldl (gotVote_keeps env set) _ _)
  have h := (h₁.trans h₂).trans h₃
  refine ⟨s₃, h, ?_⟩
  have hm : s₃.mode_ = s.mode_ := h.mode
  rw [← hm]
  simp only [changeStance, State.emit, hset, if_false, s₃, s₂, s₁, s₀, position]

theorem changeStance_log : s.log ++ [.changed] <+: (changeStance env s r set closeTime).log := by
  obtain ⟨s₁, hc₁, hch⟩ := changeStance_eq env s r set closeTime
  have hpre := hc₁.log_grows
  rw [hch]
  split_ifs
  · exact hpre.trans (List.prefix_append _ _)
  · exact hpre

end

theorem updateOurPositions_cases :
    let s₁ := (dropStale env (s.assert .updateOurPositions s.result_.isSome)).1
    (s₁.result_ = none ∧ updateOurPositions env s = s₁) ∨
    ∃ r agreed, s₁.result_ = some r ∧
      let r' := { r with disputes := (revote env s₁ r).2 }
      let s₂ := { s₁ with
        result_ := some r', haveCloseTimeConsensus_ := agreed, calls := s₁.calls + 1 }
      (updateOurPositions env s = s₂ ∧ (revote env s₁ r).1 = none) ∨
      ∃ set closeTime, updateOurPositions env s = changeStance env s₂ r' set closeTime ∧
        (revote env s₁ r).1.getD r.txns = set := by
  intro s₁
  cases hr : s₁.result_ with
  | none =>
    refine .inl ⟨rfl, ?_⟩
    simp only [updateOurPositions, s₁] at hr ⊢
    simp only [hr]
  | some r =>
    let times := closeTimeConsensus env s₁ r.position
      (dropStale env (s.assert .updateOurPositions s.result_.isSome)).2
    refine .inr ⟨r, times.2, rfl, ?_⟩
    intro r' s₂
    simp only [updateOurPositions, s₁] at hr ⊢
    simp only [hr]
    cases hset : (revote env s₁ r).1 with
    | some set => exact .inr ⟨set, times.1, rfl, rfl⟩
    | none =>
      rw [Option.none_or]
      split_ifs
      · exact .inr ⟨r.txns, times.1, rfl, rfl⟩
      · exact .inl ⟨rfl, rfl⟩

theorem updateOurPositions_log : s.log <+: (updateOurPositions env s).log := by
  have hassert : Course (fun _ => True) s (s.assert .updateOurPositions s.result_.isSome) :=
    Course.assert s _ _ trivial
  have hd := hassert.log_grows.trans (dropStale_course env _).log_grows
  obtain ⟨-, hup⟩ | ⟨r, agreed, -, ⟨hup, -⟩ | ⟨set, closeTime, hup, -⟩⟩ :=
    updateOurPositions_cases env s
  · rwa [hup]
  · rwa [hup]
  · rw [hup]
    refine List.IsPrefix.trans ?_ (changeStance_log env _ _ set closeTime)
    exact hd.trans (List.prefix_append _ _)

theorem updateOurPositions_phase : (updateOurPositions env s).phase_ = s.phase_ := by
  have hassert : Course (fun _ => True) s (s.assert .updateOurPositions s.result_.isSome) :=
    Course.assert s _ _ trivial
  have hd := (dropStale_course env (s.assert .updateOurPositions s.result_.isSome)).phase.trans
    hassert.phase
  obtain ⟨-, hup⟩ | ⟨r, agreed, -, ⟨hup, -⟩ | ⟨set, closeTime, hup, -⟩⟩ :=
    updateOurPositions_cases env s
  · rw [hup, hd]
  · rw [hup, ← hd]
  · obtain ⟨s₁, hs₁, hc⟩ := changeStance_eq env _ _ set closeTime
    rw [hup, hc]
    split_ifs
    · exact hs₁.phase.trans hd
    · exact hs₁.phase.trans hd

variable [DecidableEq I]

theorem peerProposalInternal_course (now : Int) (p : Proposal N S I) :
    Course Event.OfPeers s (peerProposalInternal env s now p).2 := by
  rw [peerProposalInternal]
  split_ifs
  · exact Course.refl s
  · exact Course.now s now
  · exact (Course.now s now).trans (peerBowsOut_course _ p)
  · exact ((Course.now s now).trans (takePosition_course _ p)).trans (lookAt_keeps env _ p).ofPeers

theorem playback_course (p : Proposal N S I) : Course Event.OfPeers s (playback env s p) := by
  rw [playback]
  dsimp only
  split_ifs
  · exact (peerProposalInternal_course env s _ p).trans (Course.emit _ trivial)
  · exact peerProposalInternal_course env s _ p
  · exact Course.refl s

theorem playbackProposals_course : Course Event.OfPeers s (playbackProposals env s) :=
  (Course.calls s _).trans (Course.foldl (fun s => playback_course env s) _ _)

end Rippled.Consensus
