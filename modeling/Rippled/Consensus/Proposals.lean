import Rippled.Lib.Log
import Rippled.Consensus.Upkeep

namespace Rippled.Consensus

open Lib List Option

variable {N T S I L : Type}

def Event.isStart : Event N T S I L → Bool
  | .started => true
  | _ => false

def Event.proposal : Event N T S I L → Option (Proposal N S I)
  | .propose position => some position
  | _ => none

def Event.isChange : Event N T S I L → Bool
  | .changed => true
  | _ => false

def proposals (log : List (Event N T S I L)) : List (Proposal N S I) :=
  (since Event.isStart log).filterMap Event.proposal

def changes (log : List (Event N T S I L)) : Nat := (since Event.isStart log).countP Event.isChange

/-- Neither a start of a round, nor a proposal or a change of ours, nor a failed assertion about the
course of a round. -/
def Event.Plain : Event N T S I L → Prop
  | .started | .propose _ | .changed | .assertFailed .closeLedger
  | .assertFailed .updateOurPositions | .assertFailed .haveConsensus => False
  | _ => True

variable {log : List (Event N T S I L)} {e : Event N T S I L}

section Log

theorem isStart_eq_false (h : e ≠ .started) : e.isStart = false := by
  cases e with
  | started => exact absurd rfl h
  | _ => rfl

variable (log)

theorem proposals_started : proposals (log ++ [.started]) = [] := by
  rw [proposals, since_append_mark log rfl]
  rfl

theorem changes_started : changes (log ++ [.started]) = 0 := by
  rw [changes, since_append_mark log rfl]
  rfl

theorem proposals_append (h : e ≠ .started) :
    proposals (log ++ [e]) = proposals log ++ e.proposal.toList := by
  rw [proposals, since_append log (isStart_eq_false h), filterMap_append]
  cases e with
  | propose position => rfl
  | _ => rfl

theorem changes_append (h : e ≠ .started) :
    changes (log ++ [e]) = changes log + if e.isChange then 1 else 0 := by
  rw [changes, since_append log (isStart_eq_false h), countP_append]
  simp [changes, countP_cons]

theorem proposals_plain (h : e.Plain) : proposals (log ++ [e]) = proposals log := by
  cases e with
  | propose | started => exact h.elim
  | _ =>
    rw [proposals_append log (by simp)]
    exact append_nil _

theorem changes_plain (h : e.Plain) : changes (log ++ [e]) = changes log := by
  cases e with
  | changed | started => exact h.elim
  | _ =>
    rw [changes_append log (by simp)]
    rfl

end Log

def Proposal.Before (p q : Proposal N S I) : Prop := p.proposeSeq < q.proposeSeq ∧ p.isBowOut = false

def Ordered (log : List (Event N T S I L)) : Prop :=
  Always (fun l => (proposals l).Pairwise Proposal.Before) log

theorem Ordered.propose (h : Ordered log) {q : Proposal N S I}
    (hlt : ∀ p ∈ proposals log, p.Before q) : Ordered (log ++ [.propose q]) := by
  refine Always.append h ?_
  rw [proposals_append log (by simp), pairwise_append]
  refine ⟨h.now, pairwise_singleton _ _, fun p hp q' hq' => ?_⟩
  rw [mem_singleton.mp hq']
  exact hlt p hp

/-- In no round so far have we changed our position too often for the sequence numbers. -/
def Few (log : List (Event N T S I L)) : Prop := Always (fun l => changes l < 2 ^ 32 - 1) log

theorem changes_le_length (log : List (Event N T S I L)) : changes log ≤ log.length :=
  countP_le_length.trans (length_since_le _ log)

theorem Few.of_length (h : log.length < 2 ^ 32 - 1) : Few log :=
  fun l hl => (changes_le_length l).trans_lt (hl.length_le.trans_lt h)

def Assertion.OfResult : Assertion → Prop
  | .closeLedger | .updateOurPositions | .haveConsensus => True
  | _ => False

theorem plain_append (log : List (Event N T S I L)) {es : List (Event N T S I L)} (hes : ∀ e ∈ es, e.Plain) :
    proposals (log ++ es) = proposals log ∧ changes (log ++ es) = changes log ∧
    (Ordered log → Ordered (log ++ es)) ∧
    (∀ a : Assertion, a.OfResult → .assertFailed a ∈ log ++ es → .assertFailed a ∈ log) := by
  induction es generalizing log with
  | nil =>
    rw [append_nil]
    exact ⟨rfl, rfl, id, fun _ _ h => h⟩
  | cons e es ih =>
    have he : e.Plain := hes e (by simp)
    obtain ⟨hp, hc, ho, ha⟩ := ih (log ++ [e]) (fun e' he' => hes e' (by simp [he']))
    rw [← append_cons] at hp hc ho ha
    refine ⟨hp.trans (proposals_plain log he), hc.trans (changes_plain log he), fun h => ?_, ?_⟩
    · refine ho (Always.append h ?_)
      rw [proposals_plain log he]
      exact h.now
    intro a hOf hmem
    obtain hmem | hmem := mem_append.mp (ha a hOf hmem)
    · exact hmem
    rw [← mem_singleton.mp hmem] at he
    cases a with
    | closeLedger | updateOurPositions | haveConsensus => exact he.elim
    | _ => exact hOf.elim

section Own

variable [PriorLedger L I]

structure Own (s : State N T S I L) : Prop where
  unseated : s.phase_ = ConsensusPhase.open → s.result_ = none
  seated : s.phase_ = .establish → s.result_.isSome
  ledger : s.mode_ = .proposing → PriorLedger.id s.previousLedger_ = s.prevLedgerID_
  ordered : Ordered s.log
  silent : s.result_ = none → proposals s.log = [] ∧ changes s.log = 0
  current : ∀ r, s.result_ = some r → r.position.isBowOut = false →
    r.position.proposeSeq = changes s.log ∧
    ∀ p ∈ proposals s.log, p.proposeSeq ≤ r.position.proposeSeq
  left : ∀ r, s.result_ = some r → r.position.isBowOut → s.mode_ ≠ .proposing
  asserted : ∀ a : Assertion, a.OfResult → .assertFailed a ∉ s.log

variable {s s' : State N T S I L}

theorem Own.grow (h : Own s) (hph : s'.phase_ = s.phase_) (hm : s'.mode_ = s.mode_)
    (hid : s'.prevLedgerID_ = s.prevLedgerID_) (hl : s'.previousLedger_ = s.previousLedger_)
    (hpos : s'.result_.map (fun r => r.position) = s.result_.map (fun r => r.position))
    (hlog : ∃ es, s'.log = s.log ++ es ∧ ∀ e ∈ es, e.Plain) : Own s' := by
  obtain ⟨es, hlog, hes⟩ := hlog
  obtain ⟨hp, hc, ho, ha⟩ := plain_append s.log hes
  rw [← hlog] at hp hc ho ha
  have hrs : ∀ {r'}, s'.result_ = some r' → ∃ r, s.result_ = some r ∧ r.position = r'.position := by
    intro r' hr'
    rw [hr', map_some] at hpos
    exact map_eq_some_iff.mp hpos.symm
  have hn : s'.result_ = none ↔ s.result_ = none := by
    rw [← map_eq_none_iff, hpos, map_eq_none_iff]
  refine ⟨fun hop => ?_, fun hest => ?_, fun hpr => ?_, ho h.ordered, fun hr => ?_,
    fun r' hr' hbow => ?_, fun r' hr' hbow => ?_, fun a hOf hmem => h.asserted a hOf (ha a hOf hmem)⟩
  · rw [hph] at hop
    exact hn.mpr (h.unseated hop)
  · rw [hph] at hest
    have hs := h.seated hest
    rw [← isSome_map (f := fun r => r.position), ← hpos, isSome_map] at hs
    exact hs
  · rw [hid, hl]
    rw [hm] at hpr
    exact h.ledger hpr
  · rw [hp, hc]
    exact h.silent (hn.mp hr)
  · obtain ⟨r, hr, heq⟩ := hrs hr'
    rw [hp, hc, ← heq]
    rw [← heq] at hbow
    exact h.current r hr hbow
  · obtain ⟨r, hr, heq⟩ := hrs hr'
    rw [hm]
    rw [← heq] at hbow
    exact h.left r hr hbow

theorem Own.course (h : Own s) {logs : Event N T S I L → Prop} (hc : Course logs s s')
    (hl : ∀ e, logs e → e.Plain) : Own s' := by
  obtain ⟨es, hlog, hes⟩ := hc.log
  refine h.grow hc.phase hc.mode hc.prevLedgerID hc.previousLedger ?_
    ⟨es, hlog, fun e he => hl e (hes e he)⟩
  have hs := congrArg (Option.map Prod.snd) hc.stance
  rwa [Option.map_map, Option.map_map] at hs

section

omit [PriorLedger L I]

theorem Event.OfPeers.plain (h : e.OfPeers) : e.Plain := by
  cases e with
  | assertFailed a => cases a <;> trivial
  | shareTxSet | shareTx | sharePosition | received => trivial
  | _ => exact h.elim

theorem Event.Neutral.plain (h : e.Neutral) : e.Plain := by
  cases e with
  | shareTxSet | shareTx | sharePosition | onModeChange | updateOperatingMode | onAccept => trivial
  | _ => exact h.elim

end

section

variable (h : Own s)

include h

theorem Own.idle (hi : Idle s s') : Own s' := by
  obtain ⟨es, hlog, hes⟩ := hi.grows
  refine h.grow hi.phase hi.mode hi.prevLedgerID hi.previousLedger ?_
    ⟨es, hlog, fun e he => (hes e he).plain⟩
  have hs := congrArg (Option.map Stance.position) hi.stance
  rwa [Option.map_map, Option.map_map] at hs

theorem Own.peers (hc : Course Event.OfPeers s s') : Own s' :=
  h.course hc (fun _ => Event.OfPeers.plain)

theorem Own.propose {r : ConsensusResult N T S I} (hr : s.result_ = some r)
    (hlt : ∀ p ∈ proposals s.log, p.Before r.position) : Own (s.emit (.propose r.position)) := by
  have hp : proposals (s.log ++ [.propose r.position]) = proposals s.log ++ [r.position] :=
    proposals_append s.log (by simp)
  have hc : changes (s.log ++ [.propose r.position]) = changes s.log :=
    changes_append s.log (by simp)
  refine ⟨h.unseated, h.seated, h.ledger, h.ordered.propose hlt, fun hn => ?_,
    fun r' hr' hbow => ?_, h.left, fun a hOf hmem => ?_⟩
  · cases hr.symm.trans hn
  · cases hr.symm.trans hr'
    obtain ⟨hseq, hle⟩ := h.current r hr hbow
    change r.position.proposeSeq = changes (s.log ++ _) ∧ ∀ p ∈ proposals (s.log ++ _), _
    rw [hp, hc]
    refine ⟨hseq, fun p hmem => ?_⟩
    obtain hmem | hmem := mem_append.mp hmem
    · exact hle p hmem
    · rw [mem_singleton.mp hmem]
  · obtain hmem | hmem := mem_append.mp hmem
    · exact h.asserted a hOf hmem
    · cases mem_singleton.mp hmem

theorem Own.setMode {mode : ConsensusMode} (hm : mode ≠ .proposing) : Own (s.setMode mode) := by
  have he : (Event.onModeChange s.mode_ mode : Event N T S I L).Plain := trivial
  have h' : Own (s.emit (.onModeChange s.mode_ mode)) :=
    h.grow rfl rfl rfl rfl rfl ⟨[_], rfl, by simpa using he⟩
  exact ⟨h'.unseated, h'.seated, fun hp => absurd hp hm, h'.ordered, h'.silent, h'.current,
    fun _ _ _ => hm, h'.asserted⟩

theorem leaveConsensus_own (hfew : Few s.log) : Own (leaveConsensus s) := by
  rw [leaveConsensus]
  split_ifs
  · cases hr : s.result_ with
    | none => exact h.setMode ConsensusMode.noConfusion
    | some r =>
      dsimp only
      split_ifs with hbow
      · exact h.setMode ConsensusMode.noConfusion
      obtain ⟨hseq, hle⟩ := h.current r hr (by simpa using hbow)
      have hb := Always.now hfew
      let position := r.position.bowOut s.now_
      have hlt : ∀ p ∈ proposals s.log, p.Before position := by
        intro p hp
        have hle := hle p hp
        refine ⟨?_, ?_⟩
        · change p.proposeSeq < Proposal.seqLeave
          rw [Proposal.seqLeave]
          omega
        · rw [Proposal.isBowOut, beq_eq_false_iff_ne, Proposal.seqLeave]
          omega
      have hes : ∀ e ∈ [(.onModeChange s.mode_ .observing : Event N T S I L)], e.Plain := by
        simp [Event.Plain]
      obtain ⟨-, -, ho, ha⟩ := plain_append (s.log ++ [.propose position]) hes
      refine ⟨fun hop => ?_, fun _ => rfl, fun hm => ?_, ho (h.ordered.propose hlt),
        fun hn => ?_, fun r' hr' hbow' => ?_, fun _ _ _ => ConsensusMode.noConfusion,
        fun a hOf hmem => ?_⟩
      · cases hr.symm.trans (h.unseated hop)
      · cases hm
      · cases hn
      · cases hr'
        cases hbow'
      · obtain hmem | hmem := mem_append.mp (ha a hOf hmem)
        · exact h.asserted a hOf hmem
        · cases mem_singleton.mp hmem
  · exact h

theorem turnTo_own (hm : s.mode_ ≠ .proposing) (lgrId : I) : Own (turnTo s lgrId) := by
  have hc : Own (s.emit .cleared) :=
    h.grow rfl rfl rfl rfl rfl ⟨[.cleared], rfl, by simp [Event.Plain]⟩
  have hrs : ∀ {r'}, (turnTo s lgrId).result_ = some r' →
      ∃ r, s.result_ = some r ∧ { r with disputes := ∅, compares := ∅ } = r' :=
    fun hr' => map_eq_some_iff.mp hr'
  refine ⟨fun ho => ?_, fun hest => ?_, fun hp => absurd hp hm, hc.ordered,
    fun hn => ?_, fun r' hr' hbow => ?_, fun _ _ _ => hm, hc.asserted⟩
  · exact map_eq_none_iff.mpr (h.unseated ho)
  · exact isSome_map.trans (h.seated hest)
  · exact hc.silent (map_eq_none_iff.mp hn)
  · obtain ⟨r, hr, rfl⟩ := hrs hr'
    exact hc.current r hr hbow

end

theorem beginRound_own (env : Adaptor N T S I L) (h : Own s) (now : Int) {id : I} {ledger : L}
    {mode : ConsensusMode} (hid : mode = .proposing → PriorLedger.id ledger = id) :
    Own (beginRound env s now id ledger mode) := by
  have hlog : (beginRound env s now id ledger mode).log =
      (s.log ++ [.started]) ++ [.onModeChange s.mode_ mode, .cleared] := by
    simp [beginRound, State.setMode, State.emit]
  have hes : ∀ e ∈ [(.onModeChange s.mode_ mode : Event N T S I L), .cleared], e.Plain := by
    simp [Event.Plain]
  obtain ⟨hp, hc, ho, ha⟩ := plain_append (s.log ++ [.started]) hes
  rw [← hlog] at hp hc ho ha
  rw [proposals_started] at hp
  rw [changes_started] at hc
  refine ⟨fun _ => rfl, fun hest => ?_, hid, ho (Always.append h.ordered ?_), fun _ => ⟨hp, hc⟩,
    fun r hr => ?_, fun r hr => ?_, fun a hOf hmem => ?_⟩
  · cases hest
  · rw [proposals_started]
    exact List.Pairwise.nil
  · cases hr
  · cases hr
  · obtain hmem | hmem := mem_append.mp (ha a hOf hmem)
    · exact h.asserted a hOf hmem
    · cases mem_singleton.mp hmem

section Establish

variable [DecidableEq N] [DecidableEq T] [DecidableEq S] (env : Adaptor N T S I L)

def Adaptor.ClosesInitially (env : Adaptor N T S I L) : Prop :=
  ∀ call ledger now mode, (env.onClose call ledger now mode).2.isInitial

variable {env}

theorem closeLedger_own (henv : env.ClosesInitially) (h : Own s)
    (ho : s.phase_ = ConsensusPhase.open) : Own (closeLedger env s) := by
  have hn := h.unseated ho
  obtain ⟨hpr, hch⟩ := h.silent hn
  obtain ⟨s₁, hc₁, hc₂⟩ := closeLedger_eq env s
  have hassert : s.assert .closeLedger s.result_.isNone = s := by
    rw [hn]
    rfl
  rw [hassert] at hc₁ hc₂
  have hi := henv s.calls s.previousLedger_ s.now_ s.mode_
  generalize env.onClose s.calls s.previousLedger_ s.now_ s.mode_ = closed at hc₁ hc₂ hi
  have hseq : closed.2.proposeSeq = 0 := by simpa [Proposal.isInitial, Proposal.seqJoin] using hi
  have hbow : closed.2.isBowOut = false := by rw [Proposal.isBowOut, hseq]; rfl
  generalize hb : State.mk .. = b at hc₁
  have hown : Own b := by
    subst hb
    refine ⟨fun ho' => ?_, fun _ => rfl, h.ledger, h.ordered, fun hr => ?_, fun r hr _ => ?_,
      fun r hr hbow' => ?_, h.asserted⟩
    · cases ho'
    · cases hr
    · cases hr
      rw [hch, hpr]
      exact ⟨hseq, by simp⟩
    · cases hr
      exact absurd (hbow'.symm.trans hbow) (by simp)
  have hlog : b.log = s.log := by rw [← hb]
  have hrs : s₁.result_.map (fun r => (r.txns, r.position)) = some closed := by
    rw [hc₁.stance, ← hb]
    rfl
  obtain ⟨r₁, hr₁, hps⟩ := map_eq_some_iff.mp hrs
  have hown₁ : Own s₁ := hown.peers hc₁.ofPeers
  refine Own.peers ?_ hc₂.ofPeers
  split_ifs
  · have hpp : closed.2 = r₁.position := congrArg Prod.snd hps.symm
    rw [hpp]
    refine hown₁.propose hr₁ (fun p hp => ?_)
    obtain ⟨es, hes, hpl⟩ := hc₁.ofPeers.log
    rw [hes, hlog, (plain_append s.log (fun e he => (hpl e he).plain)).1, hpr] at hp
    cases hp
  · exact hown₁

theorem changeStance_own (h : Own s) (hest : s.phase_ = .establish) {r : ConsensusResult N T S I}
    (hr : s.result_ = some r) {set : Finset T} {closeTime : Int}
    (hfew : Few (changeStance env s r set closeTime).log) :
    Own (changeStance env s r set closeTime) := by
  obtain ⟨s₁, hc₁, hch⟩ := changeStance_eq env s r set closeTime
  obtain ⟨es, hlog, hes⟩ := hc₁.ofPeers.log
  have hlog₁ : s₁.log = (s.log ++ [.changed]) ++ es := hlog
  have hpl := plain_append (s.log ++ [.changed]) (fun e he => (hes e he).plain)
  have hbn : changes (s.log ++ [.changed]) < 2 ^ 32 - 1 :=
    hfew _ (changeStance_log env s r set closeTime)
  have hcn : changes (s.log ++ [.changed]) = changes s.log + 1 :=
    changes_append s.log (by simp)
  have hpr : proposals (s.log ++ [.changed]) = proposals s.log := by
    rw [proposals_append s.log (by simp)]
    exact append_nil _
  rw [hcn] at hbn
  have ho : Ordered (s.log ++ [.changed]) := by
    refine Always.append h.ordered ?_
    rw [hpr]
    exact h.ordered.now
  have hasserted : ∀ a : Assertion, a.OfResult → .assertFailed a ∉ s.log ++ [.changed] := by
    intro a hOf hmem
    obtain hmem | hmem := mem_append.mp hmem
    · exact h.asserted a hOf hmem
    · cases mem_singleton.mp hmem
  generalize hps : r.position.changePosition (env.setID set) closeTime s.now_ = position at hc₁ hch
  -- a sequence number that is not the last one goes up by one, without overflow
  have hn : r.position.isBowOut = false → position.proposeSeq = changes s.log + 1 := by
    intro hbow
    obtain ⟨hseq, -⟩ := h.current r hr hbow
    have hne : r.position.proposeSeq ≠ Proposal.seqLeave := by
      simpa [Proposal.isBowOut] using hbow
    rw [← hps, Proposal.changePosition, if_neg hne, hseq]
    exact Nat.mod_eq_of_lt (by omega)
  have hs : position.isBowOut = r.position.isBowOut := by
    cases hbow : r.position.isBowOut with
    | true =>
      have heq : r.position.proposeSeq = Proposal.seqLeave := by
        simpa [Proposal.isBowOut] using hbow
      rw [← hps, Proposal.isBowOut, Proposal.changePosition]
      simp [heq]
    | false =>
      rw [Proposal.isBowOut, hn hbow, beq_eq_false_iff_ne, Proposal.seqLeave]
      omega
  generalize hb : State.emit _ .changed = b at hc₁
  have hown : Own b := by
    subst hb
    refine ⟨fun hop => ?_, fun _ => rfl, h.ledger, ho, fun hnn => ?_,
      fun r' hr' hbow => ?_, fun r' hr' hbow => ?_, hasserted⟩
    · cases hest.symm.trans hop
    · cases hnn
    · cases hr'
      have hbow₀ : r.position.isBowOut = false := hs.symm.trans hbow
      obtain ⟨-, hle⟩ := h.current r hr hbow₀
      change position.proposeSeq = changes (s.log ++ _) ∧
        ∀ p ∈ proposals (s.log ++ _), p.proposeSeq ≤ position.proposeSeq
      rw [hcn, hpr, hn hbow₀]
      obtain ⟨hseq, -⟩ := h.current r hr hbow₀
      exact ⟨rfl, fun p hp => (hle p hp).trans (by omega)⟩
    · cases hr'
      exact h.left r hr (hs.symm.trans hbow)
  have hown₁ : Own s₁ := hown.peers hc₁.ofPeers
  rw [hch]
  split_ifs with hsp
  · have hbow : position.isBowOut = false := by
      simp only [Bool.and_eq_true, Bool.not_eq_true'] at hsp
      exact hsp.1
    have hbow₀ : r.position.isBowOut = false := hs.symm.trans hbow
    obtain ⟨hseq, hle⟩ := h.current r hr hbow₀
    have hrs : s₁.result_.map (fun r => (r.txns, r.position)) = some (set, position) := by
      rw [hc₁.stance, ← hb]
      rfl
    obtain ⟨r₁, hr₁, hps₁⟩ := map_eq_some_iff.mp hrs
    have hpos₁ : position = r₁.position := congrArg Prod.snd hps₁.symm
    rw [hpos₁]
    refine hown₁.propose hr₁ (fun p hp => ?_)
    rw [← hpos₁]
    rw [hlog₁, hpl.1, hpr] at hp
    have hle := hle p hp
    refine ⟨?_, ?_⟩
    · rw [hn hbow₀]
      omega
    · rw [Proposal.isBowOut, beq_eq_false_iff_ne, Proposal.seqLeave]
      omega
  · exact hown₁

theorem updateOurPositions_own (h : Own s) (hest : s.phase_ = .establish)
    (hfew : Few (updateOurPositions env s).log) : Own (updateOurPositions env s) := by
  have hassert : s.assert .updateOurPositions s.result_.isSome = s := by
    rw [h.seated hest]
    rfl
  have hc := updateOurPositions_cases env s
  rw [hassert] at hc
  have hd := dropStale_course env s
  generalize (dropStale env s).1 = s₁ at hc hd
  have hown : Own s₁ := h.course hd (by rintro e ⟨p, rfl⟩; trivial)
  obtain ⟨-, hup⟩ | ⟨r, agreed, hr, ⟨hup, -⟩ | ⟨set, closeTime, hup, -⟩⟩ := hc
  · rw [hup]
    exact hown
  · rw [hup]
    refine hown.grow rfl rfl rfl rfl ?_ ⟨[], by simp, by simp⟩
    rw [hr]
    rfl
  · rw [hup] at hfew ⊢
    refine changeStance_own ?_ ?_ rfl hfew
    · refine hown.grow rfl rfl rfl rfl ?_ ⟨[], by simp, by simp⟩
      rw [hr]
      rfl
    · exact hd.phase.trans hest

variable [DecidableEq I]

theorem step_log (hs : Step env s s') : s.log <+: s'.log := by
  cases hs with
  | idle hi =>
    obtain ⟨es, hlog, -⟩ := hi.grows
    exact hlog ▸ prefix_append _ _
  | txSet now txSet => exact (gotTxSet_keeps env s now txSet).log_grows
  | leave =>
    rw [leaveConsensus]
    split_ifs
    · cases s.result_ with
      | none => exact prefix_append _ _
      | some r =>
        dsimp only
        split_ifs
        · exact prefix_append _ _
        · exact (prefix_append _ _).trans (prefix_append _ _)
    · exact prefix_rfl
  | turn lgrId =>
    refine List.IsPrefix.trans ?_ (playbackProposals_course env _).log_grows
    exact prefix_append _ _
  | wrong => exact prefix_append _ _
  | begin now id ledger mode =>
    refine List.IsPrefix.trans ?_ (playbackProposals_course env _).log_grows
    exact ((prefix_append _ _).trans (prefix_append _ _)).trans (prefix_append _ _)
  | close =>
    obtain ⟨s₁, hc₁, hc₂⟩ := closeLedger_eq env s
    refine List.IsPrefix.trans ?_ hc₂.log_grows
    have hassert : Course (fun _ => True) s (s.assert .closeLedger s.result_.isNone) :=
      Course.assert s _ _ trivial
    have hpre := hassert.log_grows.trans hc₁.log_grows
    split_ifs
    · exact hpre.trans (prefix_append _ _)
    · exact hpre
  | update => exact updateOurPositions_log env s
  | accept r => exact (prefix_append _ _).trans (prefix_append _ _)
  | fault => exact prefix_append _ _

theorem step_own (hacq : env.AcquiresLedgers) (hc : env.ClosesInitially) (h : Own s)
    (hs : Step env s s') (hfew : Few s'.log) : Own s' := by
  have hfew₀ : Few s.log := hfew.of_grows (step_log hs)
  cases hs with
  | idle hi => exact h.idle hi
  | txSet now txSet => exact h.peers (gotTxSet_keeps env s now txSet).ofPeers
  | leave => exact leaveConsensus_own h hfew₀
  | turn lgrId hp hm =>
    exact (turnTo_own h hm lgrId).peers (playbackProposals_course env _)
  | wrong => exact h.setMode ConsensusMode.noConfusion
  | begin now id ledger mode hid =>
    exact (beginRound_own env h now (hid hacq)).peers (playbackProposals_course env _)
  | close ho => exact closeLedger_own hc h ho
  | update hest => exact updateOurPositions_own h hest hfew
  | accept r hest =>
    have hlog : (accept s r).log = s.log ++ [.updateOperatingMode s.currPeerPositions_.keys.card,
        .onAccept r s.previousLedger_ s.closeResolution_ s.rawCloseTimes_ s.mode_] := by
      simp [accept, State.emit]
    have hown : Own { accept s r with phase_ := s.phase_ } :=
      h.grow rfl rfl rfl rfl rfl ⟨_, hlog, by simp [Event.Plain]⟩
    refine ⟨fun ho => ?_, fun hest => ?_, hown.ledger, hown.ordered, hown.silent, hown.current,
      hown.left, hown.asserted⟩
    · cases ho
    · cases hest
  | fault assertion ha hest hn =>
    have hsm := h.seated hest
    rw [hn] at hsm
    cases hsm

omit [DecidableEq N] [DecidableEq T] [DecidableEq S] [DecidableEq I] in
theorem new_own {id : I} {ledger : L} : Own (State.new id ledger : State N T S I L) := by
  refine ⟨fun _ => rfl, fun hest => ?_, fun hm => ?_, fun l hl => ?_, fun _ => ⟨rfl, rfl⟩,
    fun r hr => ?_, fun r hr => ?_, fun a _ hmem => ?_⟩
  · cases hest
  · cases hm
  · rw [prefix_nil.mp hl]
    exact List.Pairwise.nil
  · cases hr
  · cases hr
  · cases hmem

/-- In every run phase, mode and result fit together, and the proposals of a round come in order. -/
theorem own_proposals (hacq : env.AcquiresLedgers) (hclose : env.ClosesInitially) (fuel : Nat)
    (ops : List (Op N T S I L)) (id : I) (ledger : L)
    (hrun : ops.foldlM (apply env fuel) (State.new id ledger) = some s) (hfew : Few s.log) :
    (s.phase_ = ConsensusPhase.open → s.result_ = none) ∧
    (s.phase_ = .establish → s.result_.isSome) ∧
    (∀ a : Assertion, a.OfResult → .assertFailed a ∉ s.log) ∧
    (s.mode_ = .proposing → PriorLedger.id s.previousLedger_ = s.prevLedgerID_) ∧
    ∀ log, log <+: s.log → (proposals log).Pairwise
      (fun p q => p.proposeSeq < q.proposeSeq ∧ p.isBowOut = false) := by
  have hown : Few s.log → Own s := by
    refine run_invariant (J := fun s => Few s.log → Own s) (fun s s' hs hstep hfew => ?_)
      (fun s now p hs hfew => ?_) (fun _ => new_own) hrun
    · exact step_own hacq hclose (hs (hfew.of_grows (step_log hstep))) hstep hfew
    · have hc := peerProposalInternal_course env s now p
      exact (hs (hfew.of_grows hc.log_grows)).peers hc
  have h := hown hfew
  exact ⟨h.unseated, h.seated, h.asserted, h.ledger, h.ordered⟩

end Establish

end Own

theorem own_proposals_after_leaving :
    let env := { plainAdaptor {1} (fun call => 3000 * call) with
      getPrevLedger := fun call id _ _ => if call < 16 then id else 8 }
    let ops : List (Op Nat Nat (Finset Nat) Nat PlainLedger) :=
      [.startRound 100 7 ⟨7⟩ ∅ true, .peerProposal 101 ⟨7, 0, {2}, 101, 101, 5⟩, .gotTxSet 102 {2},
        .timerEntry 103, .timerEntry 118, .timerEntry 119]
    ∃ s, ops.foldlM (apply env 2) (State.new 7 ⟨7⟩) = some s ∧
      s.log.filterMap (fun e => e.proposal.map Proposal.proposeSeq) = [0, 1, Proposal.seqLeave] ∧
      ∀ log, log <+: s.log → (proposals log).Pairwise
        (fun p q => p.proposeSeq < q.proposeSeq ∧ p.isBowOut = false) := by
  intro env ops
  obtain ⟨s, hs, hlog, hlength⟩ := Run.exists_of_any (x := ops.foldlM (apply env 2) (State.new 7 ⟨7⟩))
    (P := fun s => s.log.filterMap (fun e => e.proposal.map Proposal.proposeSeq) =
      [0, 1, Proposal.seqLeave] ∧ s.log.length < 2 ^ 32 - 1) (by decide +kernel)
  have hacq : env.AcquiresLedgers := by
    rintro call id ledger ⟨⟩
    rfl
  exact ⟨s, hs, hlog,
    (own_proposals hacq (fun _ _ _ _ => rfl) 2 ops 7 ⟨7⟩ hs (.of_length hlength)).2.2.2.2⟩

end Rippled.Consensus
