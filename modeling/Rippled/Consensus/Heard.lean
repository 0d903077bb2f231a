import Rippled.Lib.Log
import Rippled.Consensus.Upkeep

namespace Rippled.Consensus

open Lib List Finset HashMap

variable {N T S I L : Type}

def Event.isClear : Event N T S I L → Bool
  | .cleared => true
  | _ => false

def Event.accepted : Event N T S I L → Option (Proposal N S I)
  | .received position => some position
  | _ => none

/-- The positions that have been accepted from peers on the current prior ledger. -/
def received (log : List (Event N T S I L)) : List (Proposal N S I) :=
  (since Event.isClear log).filterMap Event.accepted

def Event.Aside : Event N T S I L → Prop
  | .cleared | .received _ | .dropped _ => False
  | _ => True

variable {log : List (Event N T S I L)} {env : Adaptor N T S I L} {e : Event N T S I L}
  {s' : State N T S I L}

section Log

theorem isClear_eq_false (h : e ≠ .cleared) : e.isClear = false := by
  cases e with
  | cleared => exact absurd rfl h
  | _ => rfl

variable (log)

theorem received_cleared : received (log ++ [.cleared]) = [] := by
  rw [received, since_append_mark log rfl]
  rfl

theorem received_append (h : e ≠ .cleared) :
    received (log ++ [e]) = received log ++ e.accepted.toList := by
  rw [received, since_append log (isClear_eq_false h), filterMap_append]
  cases e with
  | received position => rfl
  | _ => rfl

theorem received_aside (h : e.Aside) : received (log ++ [e]) = received log := by
  cases e with
  | cleared | received => exact h.elim
  | _ =>
    rw [received_append log (by simp)]
    exact append_nil _

end Log

/-- At every moment so far each peer's accepted positions had increasing sequence numbers. -/
def InOrder [DecidableEq N] (log : List (Event N T S I L)) : Prop :=
  Always (fun l => ∀ n, ((received l).filter (fun p => p.nodeID = n)).Pairwise
    (fun p q => p.proposeSeq < q.proposeSeq)) log

section InOrder

variable [DecidableEq N]

theorem InOrder.aside (h : InOrder log) (he : e.Aside) : InOrder (log ++ [e]) := by
  refine Always.append h (fun n => ?_)
  rw [received_aside log he]
  exact Always.now h n

theorem InOrder.received (h : InOrder log) {p : Proposal N S I} (hp : ∀ q ∈ received log, q.nodeID
      = p.nodeID → q.proposeSeq < p.proposeSeq) : InOrder (log ++ [.received p]) := by
  refine Always.append h (fun n => ?_)
  rw [received_append log (by simp), List.filter_append, List.pairwise_append]
  refine ⟨Always.now h n, List.Pairwise.filter _ (pairwise_singleton _ _), ?_⟩
  intro q hq p' hp'
  obtain ⟨hp', hn⟩ := mem_filter.mp hp'
  obtain ⟨hq, hqn⟩ := mem_filter.mp hq
  rw [List.mem_singleton.mp hp'] at hn ⊢
  exact hp q hq ((of_decide_eq_true hqn).trans (of_decide_eq_true hn).symm)

end InOrder

/-- The positions of the peers, the nodes that have bowed out and the close times of the peers are as
before, and nothing about them is logged. -/
structure Apart (s s' : State N T S I L) : Prop where
  positions : s'.currPeerPositions_ = s.currPeerPositions_
  dead : s'.deadNodes_ = s.deadNodes_
  closeTimes : s'.rawCloseTimes_.peers = s.rawCloseTimes_.peers
  log : ∃ es, s'.log = s.log ++ es ∧ ∀ e ∈ es, e.Aside

namespace Apart

variable {s s'' : State N T S I L}

theorem of_log_eq (hpos : s'.currPeerPositions_ = s.currPeerPositions_)
    (hd : s'.deadNodes_ = s.deadNodes_) (ht : s'.rawCloseTimes_.peers = s.rawCloseTimes_.peers)
    (hlog : s'.log = s.log) : Apart s s' := ⟨hpos, hd, ht, [], by simp [hlog], by simp⟩

theorem refl (s : State N T S I L) : Apart s s := of_log_eq rfl rfl rfl rfl

theorem trans (h : Apart s s') (h' : Apart s' s'') : Apart s s'' := by
  obtain ⟨es, hlog, hes⟩ := h.log
  obtain ⟨es', hlog', hes'⟩ := h'.log
  refine ⟨h'.positions.trans h.positions, h'.dead.trans h.dead, h'.closeTimes.trans h.closeTimes,
    es ++ es', by rw [hlog', hlog, append_assoc], fun e he => ?_⟩
  obtain he | he := List.mem_append.mp he
  · exact hes e he
  · exact hes' e he

theorem start (h : Apart s' s'') (hpos : s'.currPeerPositions_ = s.currPeerPositions_)
    (hd : s'.deadNodes_ = s.deadNodes_) (ht : s'.rawCloseTimes_.peers = s.rawCloseTimes_.peers)
    (hlog : s'.log = s.log) : Apart s s'' := (of_log_eq hpos hd ht hlog).trans h

variable (s : State N T S I L)

theorem emit {e : Event N T S I L} (he : e.Aside) : Apart s (s.emit e) :=
  ⟨rfl, rfl, rfl, [e], rfl, by simpa using he⟩

theorem assert (assertion : Assertion) (condition : Bool) :
    Apart s (s.assert assertion condition) := by
  rw [State.assert]
  split_ifs
  · exact refl s
  · exact emit s trivial

end Apart

theorem Keeps.apart {s s' : State N T S I L} (h : Keeps s s') : Apart s s' := by
  obtain ⟨es, hlog, hes⟩ := h.log
  refine ⟨h.positions, h.dead, h.closeTimes, es, hlog, fun e he => ?_⟩
  have hof := hes e he
  cases e with
  | cleared | received | dropped => exact hof.elim
  | _ => trivial

section Apart

variable [DecidableEq N] [DecidableEq T] [DecidableEq S] (env) (s : State N T S I L)

theorem closeLedger_apart : Apart s (closeLedger env s) := by
  obtain ⟨s₁, h₁, h₂⟩ := closeLedger_eq env s
  refine (Apart.assert s .closeLedger s.result_.isNone).trans (Apart.trans ?_ h₂.apart)
  have h₁ := h₁.apart.start (s := s.assert .closeLedger s.result_.isNone) rfl rfl rfl rfl
  split_ifs
  · exact h₁.trans (Apart.emit s₁ trivial)
  · exact h₁

theorem changeStance_apart (r : ConsensusResult N T S I) (set : Finset T) (closeTime : Int) :
    Apart s (changeStance env s r set closeTime) := by
  obtain ⟨s₁, h₁, hc⟩ := changeStance_eq env s r set closeTime
  have h₀ : ∀ s' : State N T S I L, Apart s' (s'.emit .changed) := fun s' => Apart.emit s' trivial
  have h₁ := ((h₀ _).trans h₁.apart).start (s := s) rfl rfl rfl rfl
  rw [hc]
  split_ifs
  · exact h₁.trans (Apart.emit s₁ trivial)
  · exact h₁

omit [DecidableEq N] [DecidableEq T] [DecidableEq S] in
theorem leaveConsensus_apart : Apart s (leaveConsensus s) := by
  rw [leaveConsensus]
  split_ifs
  · cases s.result_ with
    | none => exact ⟨rfl, rfl, rfl, [_], rfl, by simp [Event.Aside]⟩
    | some r =>
      dsimp only
      split_ifs
      · exact ⟨rfl, rfl, rfl, [_], rfl, by simp [Event.Aside]⟩
      · exact ⟨rfl, rfl, rfl, [_, _], append_assoc _ _ _, by simp [Event.Aside]⟩
  · exact Apart.refl s

end Apart

theorem aside_append [DecidableEq N] (log : List (Event N T S I L)) {es : List (Event N T S I L)}
    (hes : ∀ e ∈ es, e.Aside) : received (log ++ es) = received log ∧
    (InOrder log → InOrder (log ++ es)) ∧
    (∀ q, .dropped q ∈ since Event.isClear (log ++ es) ↔ .dropped q ∈ since Event.isClear log) := by
  induction es generalizing log with
  | nil =>
    rw [append_nil]
    exact ⟨rfl, id, fun _ => Iff.rfl⟩
  | cons e es ih =>
    have he : e.Aside := hes e (by simp)
    obtain ⟨hr, ho, hd⟩ := ih (log ++ [e]) (fun e' he' => hes e' (by simp [he']))
    rw [← append_cons] at hr ho hd
    refine ⟨hr.trans (received_aside log he), fun h => ho (h.aside he), fun q => ?_⟩
    have hc : e ≠ .cleared := by
      rintro rfl
      exact he
    have hne : .dropped q ≠ e := by
      rintro rfl
      exact he
    rw [hd, since_append log (isClear_eq_false hc), List.mem_append, List.mem_singleton]
    exact or_iff_left hne

/-- What is known about the peers on the current prior ledger. Of every position that was accepted
there is one as new, unless its peer has bowed out: the current one, or one that was dropped. -/
structure Heard [DecidableEq N] (s : State N T S I L) : Prop where
  ordered : InOrder s.log
  keyed : ∀ n q, s.currPeerPositions_.lookup n = some q → q.nodeID = n
  heard : ∀ p ∈ received s.log, p.nodeID ∈ s.deadNodes_ ∨
    ∃ q, (s.currPeerPositions_.lookup p.nodeID = some q ∨
      (.dropped q ∈ since Event.isClear s.log ∧ q.nodeID = p.nodeID)) ∧ p.proposeSeq ≤ q.proposeSeq
  bowed : ∀ p ∈ received s.log, p.isBowOut → p.nodeID ∈ s.deadNodes_
  dead : ∀ n ∈ s.deadNodes_, n ∉ s.currPeerPositions_
  counted : ∀ t, (s.rawCloseTimes_.peers.lookup t).getD 0 =
    ((received s.log).filter (fun p => p.isInitial && p.closeTime = t)).length

section Heard

variable [DecidableEq N] {s : State N T S I L}

theorem Heard.apart (h : Heard s) (ha : Apart s s') : Heard s' := by
  obtain ⟨es, hlog, hes⟩ := ha.log
  obtain ⟨hr, ho, hd⟩ := aside_append s.log hes
  rw [← hlog] at hr ho hd
  refine ⟨ho h.ordered, ?_, ?_, ?_, ?_, ?_⟩
  · rw [ha.positions]
    exact h.keyed
  · simp only [hr, hd, ha.positions, ha.dead]
    exact h.heard
  · rw [hr, ha.dead]
    exact h.bowed
  · rw [ha.positions, ha.dead]
    exact h.dead
  · rw [hr, ha.closeTimes]
    exact h.counted

variable {p : Proposal N S I}

theorem Heard.newer (h : Heard s) [DecidableEq I] (hp : ignored s p = false) (hd : ∀ q, .dropped q
      ∈ since Event.isClear s.log → q.nodeID = p.nodeID → q.proposeSeq < p.proposeSeq) :
    ∀ q ∈ received s.log, q.nodeID = p.nodeID → q.proposeSeq < p.proposeSeq := by
  intro q hq hn
  simp only [ignored, Bool.or_eq_false_iff, decide_eq_false_iff_not] at hp
  obtain ⟨⟨-, hdd⟩, hc⟩ := hp
  obtain hq | ⟨q', hq' | ⟨hq', hn'⟩, hle⟩ := h.heard q hq
  · exact absurd (hn ▸ hq) hdd
  · rw [hn] at hq'
    rw [hq', Option.any_some, decide_eq_false_iff_not] at hc
    omega
  · exact hle.trans_lt (hd q' hq' (hn'.trans hn))

variable {q : Proposal N S I}

omit [DecidableEq N] in
theorem mem_since_received : .dropped q ∈ since Event.isClear (log ++ [.received p]) ↔
      .dropped q ∈ since Event.isClear log := by
  rw [since_append log rfl, List.mem_append, List.mem_singleton]
  exact or_iff_left (by simp)

theorem peerBowsOut_heard (h : Heard s) (hbow : p.isBowOut) (hnw : ∀ q ∈ received s.log,
      q.nodeID = p.nodeID → q.proposeSeq < p.proposeSeq) : Heard (peerBowsOut s p) := by
  have hlog : (peerBowsOut s p).log = s.log ++ [.received p] := rfl
  have hr : received (s.log ++ [.received p]) = received s.log ++ [p] :=
    received_append s.log (by simp)
  refine ⟨h.ordered.received hnw, fun n q hq => ?_, fun q hq => ?_, fun q hq hbow => ?_,
    fun n hn => ?_, fun t => ?_⟩
  · change (s.currPeerPositions_.erase p.nodeID).lookup n = some q at hq
    rw [lookup_erase_eq] at hq
    split_ifs at hq
    exact h.keyed n q hq
  · rw [hlog, hr] at hq
    by_cases hnd : q.nodeID = p.nodeID
    · exact .inl (mem_insert.mpr (.inl hnd))
    have hq : q ∈ received s.log := by
      refine (List.mem_append.mp hq).resolve_right (fun hp => hnd ?_)
      rw [List.mem_singleton.mp hp]
    obtain hd | ⟨q', hq', hle⟩ := h.heard q hq
    · exact .inl (mem_insert_of_mem hd)
    refine .inr ⟨q', ?_, hle⟩
    change (s.currPeerPositions_.erase p.nodeID).lookup q.nodeID = some q' ∨ _
    rw [lookup_erase_eq, if_neg hnd, hlog, mem_since_received]
    exact hq'
  · rw [hlog, hr] at hq
    obtain hq | hq := List.mem_append.mp hq
    · exact mem_insert_of_mem (h.bowed q hq hbow)
    · rw [List.mem_singleton.mp hq]
      exact mem_insert_self _ _
  · change n ∉ s.currPeerPositions_.erase p.nodeID
    rw [Finmap.mem_erase]
    rintro ⟨hne, hmem⟩
    exact h.dead n ((mem_insert.mp hn).resolve_left hne) hmem
  · have hi : p.isInitial = false := by
      rw [Proposal.isBowOut, beq_iff_eq] at hbow
      rw [Proposal.isInitial, hbow]
      rfl
    rw [hlog, hr, List.filter_append, length_append]
    simp only [hi, Bool.false_and, List.filter_cons, List.filter_nil, Bool.false_eq_true,
      if_false, length_nil, Nat.add_zero]
    exact h.counted t

theorem takePosition_heard (h : Heard s) (hbow : p.isBowOut = false)
    (hl : p.nodeID ∉ s.deadNodes_) (hnw : ∀ q ∈ received s.log, q.nodeID = p.nodeID → q.proposeSeq
      < p.proposeSeq) : Heard (takePosition s p) := by
  have hr : received (s.log ++ [.received p]) = received s.log ++ [p] :=
    received_append s.log (by simp)
  have hmem : ∀ {q}, q ∈ received (takePosition s p).log → q ∈ received s.log ∨ q = p := by
    intro q hq
    rw [takePosition_log, hr] at hq
    simpa using hq
  refine ⟨?_, fun n q hq => ?_, fun q hq => ?_, fun q hq hq' => ?_, fun n hn => ?_, fun t => ?_⟩
  · rw [takePosition_log]
    exact h.ordered.received hnw
  · rw [takePosition_positions, lookup_insert_eq] at hq
    split_ifs at hq with hn
    · cases hq
      exact hn.symm
    · exact h.keyed n q hq
  · simp only [takePosition_positions, takePosition_dead, takePosition_log, mem_since_received,
      lookup_insert_eq]
    by_cases hnd : q.nodeID = p.nodeID
    · refine .inr ⟨p, .inl (if_pos hnd), ?_⟩
      obtain hq | rfl := hmem hq
      · exact (hnw q hq hnd).le
      · exact le_rfl
    simp only [hnd, if_false]
    obtain hq | rfl := hmem hq
    · exact h.heard q hq
    · exact absurd rfl hnd
  · rw [takePosition_dead]
    obtain hq | rfl := hmem hq
    · exact h.bowed q hq hq'
    · rw [hbow] at hq'
      cases hq'
  · rw [takePosition_dead] at hn
    rw [takePosition_positions, Finmap.mem_insert]
    rintro (rfl | hcr)
    · exact hl hn
    · exact h.dead n hn hcr
  · rw [takePosition_log, hr, List.filter_append, length_append]
    have hc := h.counted
    rw [takePosition]
    cases hi : p.isInitial with
    | false => simpa [hi, State.emit] using hc t
    | true =>
      simp only [if_true, State.emit, lookup_insert_eq]
      by_cases ht : t = p.closeTime
      · rw [if_pos ht, Option.getD_some, ht, hc]
        simp [hi]
      · rw [if_neg ht, hc]
        simp [hi, Ne.symm ht]

theorem checkFresh_heard (cutoff : Int) (x : State N T S I L × OrdMap Int Nat) (n : N)
    (h : Heard x.1) : Heard (checkFresh cutoff x n).1 := by
  rw [checkFresh]
  cases hp : x.1.currPeerPositions_.lookup n with
  | none => exact h
  | some p =>
    dsimp only
    split_ifs
    · have hr : received (x.1.log ++ [.dropped p]) = received x.1.log := by
        rw [received_append x.1.log (by simp)]
        exact append_nil _
      have hs : since Event.isClear (x.1.log ++ [.dropped p]) =
          since Event.isClear x.1.log ++ [.dropped p] := since_append x.1.log rfl
      refine ⟨Always.append h.ordered (fun m => ?_), fun m q hq => ?_, fun q hq => ?_,
        fun q hq hbow => ?_, fun m hm hmem => ?_, fun t => ?_⟩
      · change ((received (x.1.log ++ [.dropped p])).filter _).Pairwise _
        rw [hr]
        exact Always.now h.ordered m
      · change (x.1.currPeerPositions_.erase n).lookup m = some q at hq
        rw [lookup_erase_eq] at hq
        split_ifs at hq
        exact h.keyed m q hq
      · change q ∈ received (x.1.log ++ [.dropped p]) at hq
        rw [hr] at hq
        refine (h.heard q hq).imp id ?_
        rintro ⟨q', hq', hle⟩
        refine ⟨q', ?_, hle⟩
        change (x.1.currPeerPositions_.erase n).lookup q.nodeID = some q' ∨
          (.dropped q' ∈ since Event.isClear (x.1.log ++ [.dropped p]) ∧ _)
        rw [lookup_erase_eq, hs, List.mem_append, List.mem_singleton]
        by_cases hn : q.nodeID = n
        · -- the dropped position takes the place of the current one
          rw [hn, hp] at hq'
          obtain hq' | ⟨hq', hn'⟩ := hq'
          · cases hq'
            exact .inr ⟨.inr rfl, (h.keyed n p hp).trans hn.symm⟩
          · exact .inr ⟨.inl hq', hn'.trans hn.symm⟩
        · rw [if_neg hn]
          exact hq'.imp id (fun hd => ⟨.inl hd.1, hd.2⟩)
      · change q ∈ received (x.1.log ++ [.dropped p]) at hq
        rw [hr] at hq
        exact h.bowed q hq hbow
      · exact h.dead m hm (Finmap.mem_erase.mp hmem).2
      · change _ = ((received (x.1.log ++ [.dropped p])).filter _).length
        rw [hr]
        exact h.counted t
    · exact h

theorem dropStale_heard (env : Adaptor N T S I L) (h : Heard s) : Heard (dropStale env s).1 :=
  List.foldlRecOn _ _ (motive := fun x => Heard x.1) (h.apart (Apart.of_log_eq rfl rfl rfl rfl))
    fun x hx n _ => checkFresh_heard _ x n hx

theorem Heard.of_cleared (ho : InOrder log) (hlog : s.log = log ++ [.cleared])
    (hpos : s.currPeerPositions_ = ∅) (hd : s.deadNodes_ = ∅) (ht : s.rawCloseTimes_.peers = ∅) :
    Heard s := by
  have hr : received s.log = [] := by rw [hlog, received_cleared]
  refine ⟨?_, fun n q hq => ?_, fun p hp => ?_, fun p hp => ?_, fun n hn => ?_, fun t => ?_⟩
  · rw [hlog]
    refine Always.append ho (fun n => ?_)
    rw [received_cleared]
    exact List.Pairwise.nil
  · rw [hpos] at hq
    cases hq
  · rw [hr] at hp
    cases hp
  · rw [hr] at hp
    cases hp
  · rw [hd] at hn
    cases notMem_empty n hn
  · rw [hr, ht]
    rfl

section Internal

variable [DecidableEq T] [DecidableEq S] [DecidableEq I] (env)

theorem peerProposalInternal_heard (h : Heard s) (now : Int) (p : Proposal N S I)
    (hd : ∀ q, .dropped q ∈ since Event.isClear s.log → q.nodeID = p.nodeID →
      q.proposeSeq < p.proposeSeq) : Heard (peerProposalInternal env s now p).2 := by
  have hnow : Heard { s with now_ := now } := h.apart (Apart.of_log_eq rfl rfl rfl rfl)
  rw [peerProposalInternal]
  split_ifs with hp hi hbow
  · exact h
  · exact hnow
  · have hn := h.newer (by simpa using hi) hd
    exact peerBowsOut_heard hnow hbow hn
  have hi : ignored s p = false := by simpa using hi
  have hn := h.newer hi hd
  have hl : p.nodeID ∉ s.deadNodes_ := by
    simp only [ignored, Bool.or_eq_false_iff, decide_eq_false_iff_not] at hi
    exact hi.1.2
  exact (takePosition_heard hnow (by simpa using hbow) hl hn).apart (lookAt_keeps env _ p).apart

theorem peerProposalInternal_dropped (s : State N T S I L) (now : Int) (p q : Proposal N S I) :
    .dropped q ∈ since Event.isClear (peerProposalInternal env s now p).2.log ↔
      .dropped q ∈ since Event.isClear s.log := by
  rw [peerProposalInternal]
  split_ifs
  · exact Iff.rfl
  · exact Iff.rfl
  · exact mem_since_received
  · obtain ⟨es, hlog, hes⟩ := (lookAt_keeps env (takePosition { s with now_ := now } p) p).apart.log
    rw [hlog, (aside_append _ hes).2.2, takePosition_log, mem_since_received]

theorem playbackProposals_heard (h : Heard s)
    (hn : ∀ q, .dropped q ∉ since Event.isClear s.log) : Heard (playbackProposals env s) := by
  have hc : Heard { s with calls := s.calls + 1 } := h.apart (Apart.of_log_eq rfl rfl rfl rfl)
  refine (List.foldlRecOn _ (playback env) (motive := fun s =>
    Heard s ∧ ∀ q, .dropped q ∉ since Event.isClear s.log) ⟨hc, hn⟩ ?_).1
  rintro s ⟨h, hn⟩ p -
  have hp := peerProposalInternal_heard env h s.now_ p (fun q hq => absurd hq (hn q))
  have hd : ∀ q, .dropped q ∉ since Event.isClear (peerProposalInternal env s s.now_ p).2.log := by
    intro q hq
    exact hn q ((peerProposalInternal_dropped env s s.now_ p q).mp hq)
  rw [playback]
  dsimp only
  split_ifs
  · have hs := Apart.emit (peerProposalInternal env s s.now_ p).2 (e := .sharePosition p) trivial
    refine ⟨hp.apart hs, fun q hq => ?_⟩
    obtain ⟨es, hlog, hes⟩ := hs.log
    rw [hlog, (aside_append _ hes).2.2] at hq
    exact hd q hq
  · exact ⟨hp, hd⟩
  · exact ⟨h, hn⟩

omit [DecidableEq I] in
theorem updateOurPositions_heard (h : Heard s) : Heard (updateOurPositions env s) := by
  have hd := dropStale_heard env (h.apart (Apart.assert s .updateOurPositions s.result_.isSome))
  obtain ⟨-, hup⟩ | ⟨r, agreed, -, ⟨hup, -⟩ | ⟨set, closeTime, hup, -⟩⟩ :=
    updateOurPositions_cases env s
  · rw [hup]
    exact hd
  · rw [hup]
    exact hd.apart (Apart.of_log_eq rfl rfl rfl rfl)
  · rw [hup]
    exact hd.apart ((changeStance_apart env _ _ set closeTime).start rfl rfl rfl rfl)

omit [DecidableEq N] [DecidableEq T] [DecidableEq S] [DecidableEq I] in
theorem Idle.apart (hi : Idle s s') : Apart s s' := by
  obtain ⟨es, hlog, hes⟩ := hi.grows
  refine ⟨hi.positions, hi.dead, hi.closeTimes, es, hlog, fun e he => ?_⟩
  have hn := hes e he
  cases e with
  | cleared | received | dropped => exact hn.elim
  | _ => trivial

variable [PriorLedger L I] {env}

theorem step_heard (h : Heard s) (hs : Step env s s') : Heard s' := by
  cases hs with
  | idle hi => exact h.apart hi.apart
  | txSet now txSet => exact h.apart (gotTxSet_keeps env s now txSet).apart
  | leave => exact h.apart (leaveConsensus_apart s)
  | turn lgrId =>
    refine playbackProposals_heard env (Heard.of_cleared h.ordered rfl rfl rfl rfl) (fun q hq => ?_)
    change .dropped q ∈ since Event.isClear (s.log ++ [.cleared]) at hq
    rw [since_append_mark s.log rfl] at hq
    cases hq
  | wrong => exact h.apart ⟨rfl, rfl, rfl, [_], rfl, by simp [Event.Aside]⟩
  | begin now id ledger mode =>
    have hlog : (beginRound env s now id ledger mode).log =
        (s.log ++ [.started] ++ [.onModeChange s.mode_ mode]) ++ [.cleared] := rfl
    have ho : InOrder (s.log ++ [.started] ++ [.onModeChange s.mode_ mode]) :=
      (h.ordered.aside (e := .started) trivial).aside (e := .onModeChange s.mode_ mode) trivial
    refine playbackProposals_heard env (Heard.of_cleared ho hlog rfl rfl rfl) (fun q hq => ?_)
    rw [hlog, since_append_mark _ rfl] at hq
    cases hq
  | close => exact h.apart (closeLedger_apart env s)
  | update => exact updateOurPositions_heard env h
  | accept r =>
    exact h.apart ⟨rfl, rfl, rfl, [_, _], append_assoc _ _ _, by simp [Event.Aside]⟩
  | fault assertion => exact h.apart (Apart.assert s assertion false)

/-- The position of a peer whose last one was dropped has a higher sequence number than that. -/
def Renewed (s : State N T S I L) : Op N T S I L → Prop
  | .peerProposal _ p => ∀ q, .dropped q ∈ since Event.isClear s.log → q.nodeID = p.nodeID →
    q.proposeSeq < p.proposeSeq
  | _ => True

def Event.drops : Event N T S I L → Option (Proposal N S I)
  | .dropped position => some position
  | _ => none

omit [DecidableEq N] [DecidableEq T] [DecidableEq S] [DecidableEq I] [PriorLedger L I] in
theorem mem_filterMap_drops : q ∈ log.filterMap Event.drops ↔ .dropped q ∈ log := by
  rw [List.mem_filterMap]
  constructor
  · rintro ⟨e, he, hq⟩
    cases e with
    | dropped position =>
      cases hq
      exact he
    | _ => cases hq
  · exact fun h => ⟨_, h, rfl⟩

instance (s : State N T S I L) (op : Op N T S I L) : Decidable (Renewed s op) :=
  match op with
  | .peerProposal _ p => decidable_of_iff
      (∀ q ∈ (since Event.isClear s.log).filterMap Event.drops, q.nodeID = p.nodeID →
        q.proposeSeq < p.proposeSeq) (by simp only [mem_filterMap_drops]; rfl)
  | .startRound .. => .isTrue trivial
  | .gotTxSet .. => .isTrue trivial
  | .timerEntry _ => .isTrue trivial

theorem apply_heard (h : Heard s) {fuel : Nat} {op : Op N T S I L} (hok : Renewed s op)
    (ha : apply env fuel s op = some s') : Heard s' := by
  obtain ⟨now, p, s₁, rfl, hi, rfl⟩ | hs := apply_cases ha
  · refine peerProposalInternal_heard env (h.apart hi.apart) now p (fun q hq => hok q ?_)
    obtain ⟨es, hlog, hes⟩ := hi.apart.log
    rwa [hlog, (aside_append _ hes).2.2] at hq
  · exact Steps.invariant (fun _ _ h hst => step_heard h hst) hs h

section

omit [DecidableEq T] [DecidableEq S] [DecidableEq I] [PriorLedger L I]

theorem new_heard {id : I} {ledger : L} : Heard (State.new id ledger : State N T S I L) := by
  refine ⟨fun l hl n => ?_, fun n q hq => ?_, fun p hp => ?_, fun p hp => ?_, fun n hn => ?_,
    fun t => rfl⟩
  · rw [prefix_nil.mp hl]
    exact List.Pairwise.nil
  · cases hq
  · cases hp
  · cases hp
  · cases notMem_empty n hn

theorem Heard.initial_once (h : Heard s) (n : N) :
    (((received s.log).filter (fun p => p.nodeID = n)).filter Proposal.isInitial).length ≤ 1 := by
  have hpr : (((received s.log).filter (fun p => p.nodeID = n)).filter
      Proposal.isInitial).Pairwise (fun p q => p.proposeSeq < q.proposeSeq) :=
    List.Pairwise.filter _ (h.ordered s.log prefix_rfl n)
  have hz : ∀ p ∈ ((received s.log).filter (fun p => p.nodeID = n)).filter Proposal.isInitial,
      p.proposeSeq = 0 := by
    intro p hp
    simpa [Proposal.isInitial, Proposal.seqJoin] using (mem_filter.mp hp).2
  generalize ((received s.log).filter _).filter _ = ps at hpr hz
  match ps with
  | [] => exact Nat.zero_le _
  | [_] => exact Nat.le_refl _
  | p :: q :: _ =>
    have hlt := (pairwise_cons.mp hpr).1 q (by simp)
    rw [hz p (by simp), hz q (by simp)] at hlt
    exact absurd hlt (Nat.lt_irrefl 0)

end

/-- Where no peer falls back behind a position of its own that was dropped, accepted positions have
increasing sequence numbers, an initial close time counts once, and who has bowed out stays out. -/
theorem peer_positions (henv : env.Lawful) (fuel : Nat) (ops : List (Op N T S I L)) (id : I)
    (ledger : L) (hok : Run.AllowedIn (apply env fuel) Renewed (State.new id ledger) ops)
    (hrun : ops.foldlM (apply env fuel) (State.new id ledger) = some s) :
    (∀ log, log <+: s.log → ∀ n, ((received log).filter (fun p => p.nodeID = n)).Pairwise
      (fun p q => p.proposeSeq < q.proposeSeq)) ∧
    (∀ t, (s.rawCloseTimes_.peers.lookup t).getD 0 =
      ((received s.log).filter (fun p => p.isInitial && p.closeTime = t)).length) ∧
    (∀ n, (((received s.log).filter (fun p => p.nodeID = n)).filter
      Proposal.isInitial).length ≤ 1) ∧
    ∀ p ∈ received s.log, p.isBowOut → p.nodeID ∉ s.currPeerPositions_ ∧
      ∀ r, s.result_ = some r → ∀ tx d, r.disputes.lookup tx = some d → p.nodeID ∉ d.votes_ := by
  have h : Heard s := Run.invariant_of_foldlM Heard
    (fun _ _ _ h hok happly => apply_heard h hok happly) ops new_heard hok hrun
  have hsound := run_sound henv hrun
  refine ⟨h.ordered, h.counted, h.initial_once, fun p hp hbow => ?_⟩
  have hgone := h.dead _ (h.bowed p hp hbow)
  refine ⟨hgone, fun r hr tx d hd hvote => hgone ?_⟩
  exact ((hsound.tally r hr).entries tx d hd).voters _ hvote

end Internal

end Heard

theorem peer_positions_renewed :
    let env := plainAdaptor {1} (fun call => 600 * call)
    let ops : List (Op Nat Nat (Finset Nat) Nat PlainLedger) :=
      [.startRound 100 7 ⟨7⟩ ∅ true, .peerProposal 101 ⟨7, 0, {2}, 101, 101, 5⟩, .timerEntry 103,
        .peerProposal 120 ⟨7, 0, {3}, 101, 120, 6⟩, .timerEntry 121,
        .peerProposal 123 ⟨7, 1, {2}, 101, 123, 5⟩]
    Run.AllowedIn (apply env 2) Renewed (State.new 7 ⟨7⟩) ops ∧
    ∃ s, ops.foldlM (apply env 2) (State.new 7 ⟨7⟩) = some s ∧
      (received s.log).map (fun p => (p.nodeID, p.proposeSeq)) = [(5, 0), (6, 0), (5, 1)] ∧
      ∀ n, (((received s.log).filter (fun p => p.nodeID = n)).filter
        Proposal.isInitial).length ≤ 1 := by
  intro env ops
  have hok : Run.AllowedIn (apply env 2) Renewed (State.new 7 ⟨7⟩) ops := by
    decide +kernel
  refine ⟨hok, (Run.exists_of_any (by decide +kernel)).imp fun s h => ⟨h.1, h.2, ?_⟩⟩
  exact (peer_positions (plainAdaptor_lawful {1} _) 2 ops 7 ⟨7⟩ hok h.1).2.2.1

/-- A position that was dropped as stale is accepted once more, and its close time counts again. -/
theorem position_accepted_again :
    let env := plainAdaptor {1} (fun call => 600 * call)
    let ops : List (Op Nat Nat (Finset Nat) Nat PlainLedger) :=
      [.startRound 100 7 ⟨7⟩ ∅ true, .peerProposal 101 ⟨7, 0, {2}, 101, 101, 5⟩, .timerEntry 103,
        .peerProposal 120 ⟨7, 0, {3}, 101, 120, 6⟩, .timerEntry 121,
        .peerProposal 123 ⟨7, 0, {2}, 101, 123, 5⟩]
    ∃ s, ops.foldlM (apply env 2) (State.new 7 ⟨7⟩) = some s ∧
      (received s.log).map (fun p => (p.nodeID, p.proposeSeq)) = [(5, 0), (6, 0), (5, 0)] ∧
      s.rawCloseTimes_.peers.lookup 101 = some 3 := by
  intro env ops
  exact Run.exists_of_any (by decide +kernel)

end Rippled.Consensus
