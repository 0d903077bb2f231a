import Rippled.Consensus.Table

namespace Rippled.Consensus

open Lib Option HashMap Finmap

variable {N T S I L : Type} [DecidableEq N] [DecidableEq T] [DecidableEq S]
  {env : Adaptor N T S I L} {s s' : State N T S I L} {r r' : ConsensusResult N T S I}
  {set : Finset T}

section

omit [DecidableEq T]

omit [DecidableEq N] [DecidableEq S] in
theorem Quiet.grows (h : Quiet s) (hg : Grows s s') : Quiet s' := by
  obtain ⟨es, hlog, hes⟩ := hg
  exact h.of_log hlog (fun a ha _ => hes _ ha)

theorem Base.of_ours (h : Keyed env s) (hr : s.result_ = some r) (ho : Ours env s r.toStance) :
    Base env s := by
  refine ⟨h, fun r' hr' => ?_⟩
  cases hr.symm.trans hr'
  exact ho

theorem Base.recount (h : Base env s) (hr : s.result_ = some r) (hrec : Recount s r s' r') :
    Base env s' := by
  refine ⟨⟨?_, ?_, hrec.quiet h.quiet⟩, fun r₁ hr₁ => ?_⟩
  · rw [hrec.same.acquired]
    exact h.acquired
  · rw [hrec.same.positions]
    exact h.peers
  cases hrec.seated.symm.trans hr₁
  obtain ⟨hpos, hacq⟩ := h.ours r hr
  refine ⟨?_, ?_⟩
  · rw [hrec.position, hrec.txns, hpos]
  · rw [hrec.same.acquired, hrec.txns, hacq]

theorem Keyed.insert (h : Keyed env s) (set : Finset T) :
    Keyed env { s with acquired_ := s.acquired_.insert (env.setID set) set } := by
  refine ⟨fun id set' hset' => ?_, h.peers, h.quiet.congr rfl⟩
  rw [lookup_insert_eq] at hset'
  split_ifs at hset' with hid
  · cases hset'
    exact hid.symm
  · exact h.acquired id set' hset'

theorem Keyed.lookup_of_mem (henv : env.Lawful) (h : Keyed env s)
    (hset : env.setID set ∈ s.acquired_) : s.acquired_.lookup (env.setID set) = some set := by
  obtain ⟨set', hl⟩ := mem_iff.mp hset
  rwa [henv.setID_injective (h.acquired _ _ hl)] at hl

theorem Base.emit (h : Base env s) {e : Event N T S I L}
    (he : ∀ a, e = .assertFailed a → ¬ a.OfDisputes) : Base env (s.emit e) :=
  ⟨⟨h.acquired, h.peers, h.quiet.emit he⟩, fun r hr => ⟨(h.ours r hr).1, (h.ours r hr).2⟩⟩

end

theorem Sound.of_base (h : Base env s) (hr : s.result_ = some r)
    (ht : Tally env (fun _ => True) s r.toStance) : Sound env s := by
  refine ⟨h, fun r' hr' => ?_⟩
  cases hr.symm.trans hr'
  exact ht

theorem Sound.of_none (h : Base env s) (hr : s.result_ = none) : Sound env s := by
  refine ⟨h, fun r' hr' => ?_⟩
  rw [hr] at hr'
  cases hr'

theorem Sound.congr (h : Sound env s) (hpos : s'.currPeerPositions_ = s.currPeerPositions_)
    (hacq : s'.acquired_ = s.acquired_) (hs : s'.result_.map ConsensusResult.toStance =
      s.result_.map ConsensusResult.toStance) (hq : Quiet s') : Sound env s' := by
  have hrs : ∀ {r'}, s'.result_ = some r' → ∃ r, s.result_ = some r ∧ r.toStance = r'.toStance := by
    intro r' hr'
    rw [hr', map_some] at hs
    exact map_eq_some_iff.mp hs.symm
  refine ⟨⟨⟨?_, ?_, hq⟩, fun r' hr' => ?_⟩, fun r' hr' => ?_⟩
  · rw [hacq]
    exact h.acquired
  · rw [hpos]
    exact h.peers
  · obtain ⟨r, hr, heq⟩ := hrs hr'
    obtain ⟨ho, hset⟩ := h.ours r hr
    rw [← heq]
    exact ⟨ho, by rw [hacq, hset]⟩
  · obtain ⟨r, hr, heq⟩ := hrs hr'
    rw [← heq]
    exact (h.tally r hr).congr hpos hacq

theorem Sound.idle (h : Sound env s) (hi : Idle s s') : Sound env s' :=
  h.congr hi.positions hi.acquired hi.stance (h.quiet.grows hi.grows)

theorem Sound.emit (h : Sound env s) {e : Event N T S I L}
    (he : ∀ a, e = .assertFailed a → ¬ a.OfDisputes) : Sound env (s.emit e) :=
  h.congr rfl rfl rfl (h.quiet.emit he)

section Peers

variable {txSet : Finset T}

theorem newTxSet_some (hr : s.result_ = some r) (hne : env.setID txSet ≠ r.position.position) :
    newTxSet env s txSet = (env.nodeOrder s.calls s.currPeerPositions_.keys).foldl
      (gotVote env txSet)
      { s with
        acquired_ := s.acquired_.insert (env.setID txSet) txSet
        calls := s.calls + 1 } := by
  simp only [newTxSet, hr, State.assert, decide_eq_true hne, if_true]

theorem gotVotes_sound (henv : env.Lawful) (h : Base env s) (hr : s.result_ = some r)
    (ht : Tally env (fun n => ¬ s.Proposes n (env.setID set)) s r.toStance)
    (hset : s.acquired_.lookup (env.setID set) = some set) (call : Nat) :
    Sound env ((env.nodeOrder call s.currPeerPositions_.keys).foldl (gotVote env set) s) := by
  obtain ⟨r', hrec, ht'⟩ := gotVotes_tally henv (env.nodeOrder call s.currPeerPositions_.keys)
    (fun n hn => henv.mem_nodeOrder.mpr (mem_keys.mpr hn)) hset ht hr
  exact Sound.of_base (h.recount hr hrec) hrec.seated ht'

theorem newTxSet_sound (henv : env.Lawful) (h : Sound env s)
    (hnew : env.setID txSet ∉ s.acquired_) : Sound env (newTxSet env s txSet) := by
  let s₁ := { s with acquired_ := s.acquired_.insert (env.setID txSet) txSet }
  have hk : Keyed env s₁ := h.toKeyed.insert txSet
  cases hr : s.result_ with
  | none =>
    rw [show newTxSet env s txSet = s₁ by simp only [newTxSet, hr, s₁]]
    refine Sound.of_none ⟨hk, fun r hr' => ?_⟩ hr
    cases hr.symm.trans hr'
  | some r =>
    obtain ⟨hpos, ho⟩ := h.ours r hr
    -- our own set is there, so it is not the new one
    have hne : env.setID r.txns ≠ env.setID txSet := fun heq =>
      hnew (heq ▸ mem_of_lookup_eq_some ho)
    rw [newTxSet_some hr (by rw [hpos]; exact Ne.symm hne)]
    let s₂ := { s₁ with calls := s.calls + 1 }
    have hb : Base env s₂ := .of_ours ⟨hk.acquired, hk.peers, hk.quiet.congr rfl⟩ hr
      ⟨hpos, by rw [lookup_insert_eq, if_neg hne, ho]⟩
    exact gotVotes_sound (s := s₂) henv hb hr ((h.tally r hr).acquire.congr rfl rfl)
      (lookup_insert _) _

theorem gotTxSet_sound (henv : env.Lawful) (h : Sound env s) (now : Int) (txSet : Finset T) :
    Sound env (gotTxSet env s now txSet) := by
  have hnow := h.idle (Idle.now s now)
  rw [gotTxSet]
  split_ifs with hp hmem
  · exact h
  · exact hnow
  · exact newTxSet_sound henv hnow hmem

/-- Without a position a peer has no vote. -/
theorem Sound.remove (h : Sound env s) {nodeID : N} (hpos : s'.currPeerPositions_ =
      s.currPeerPositions_.erase nodeID) (hacq : s'.acquired_ = s.acquired_)
    (hrs : s'.result_ = (s.mapDisputes (fun d => d.unVote nodeID)).result_) (hq : Quiet s') :
    Sound env s' := by
  have hpr : ∀ {n set}, s'.proposed n = some set → n ≠ nodeID ∧ s.proposed n = some set := by
    intro n set hset
    rw [State.proposed, hpos, hacq, lookup_erase_eq] at hset
    split_ifs at hset with hn
    · cases hset
    · exact ⟨hn, hset⟩
  have hb : ∀ {r'}, s'.result_ = some r' → ∃ r, s.result_ = some r ∧
      r' = { r with disputes := HashMap.mapValues (fun _ d => d.unVote nodeID) r.disputes } := by
    intro r' hr'
    rw [hrs, State.mapDisputes] at hr'
    obtain ⟨r, hr, heq⟩ := map_eq_some_iff.mp hr'
    exact ⟨r, hr, heq.symm⟩
  refine ⟨⟨⟨?_, fun n p hp => ?_, hq⟩, fun r' hr' => ?_⟩, fun r' hr' => ?_⟩
  · rw [hacq]
    exact h.acquired
  · rw [hpos, lookup_erase_eq] at hp
    split_ifs at hp with hn
    exact h.peers n p hp
  · obtain ⟨r, hr, rfl⟩ := hb hr'
    exact ⟨(h.ours r hr).position, by rw [hacq]; exact (h.ours r hr).acquired⟩
  · obtain ⟨r, hr, rfl⟩ := hb hr'
    have ht := h.tally r hr
    have hl : ∀ {tx d},
        (HashMap.mapValues (fun _ d => d.unVote nodeID) r.disputes).lookup tx = some d →
        ∃ d₀, r.disputes.lookup tx = some d₀ ∧ d₀.unVote nodeID = d := by
      intro tx d hd
      rw [lookup_mapValues] at hd
      exact map_eq_some_iff.mp hd
    refine ⟨fun tx d hd => ?_, fun set hmem tx htx => ?_, fun n set _ hset => ?_,
      fun n set _ hset tx d hd => ?_⟩
    · obtain ⟨d₀, hd₀, rfl⟩ := hl hd
      have he := ht.entries tx d₀ hd₀
      obtain ⟨htx, ho⟩ := d₀.unVote_tx nodeID
      refine ⟨htx.trans he.key, ho.trans he.ours, he.counted.unVote nodeID, fun n hn => ?_⟩
      rw [DisputedTx.unVote_votes, mem_erase] at hn
      rw [hpos, mem_erase]
      exact ⟨hn.1, he.voters n hn.2⟩
    · obtain ⟨d, hd⟩ := mem_iff.mp (ht.compared set hmem tx htx)
      refine mem_iff.mpr ⟨d.unVote nodeID, ?_⟩
      rw [lookup_mapValues, hd]
      rfl
    · exact ht.peers n set trivial (hpr hset).2
    · obtain ⟨hn, hset⟩ := hpr hset
      obtain ⟨d₀, hd₀, rfl⟩ := hl hd
      rw [DisputedTx.unVote_votes, lookup_erase_eq, if_neg hn]
      exact ht.votes n set trivial hset tx d₀ hd₀

theorem takePosition_base (h : Sound env s) (p : Proposal N S I) : Base env (takePosition s p) ∧
    ∀ r, s.result_ = some r → Tally env (· ≠ p.nodeID) (takePosition s p) r.toStance := by
  refine ⟨⟨⟨?_, fun n q hq => ?_, h.quiet.of_log (takePosition_log s p) (by simp)⟩,
    fun r hr => ?_⟩, fun r hr => ?_⟩
  · rw [takePosition_acquired]
    exact h.acquired
  · rw [takePosition_positions, lookup_insert_eq] at hq
    split_ifs at hq with hn
    · cases hq
      exact hn.symm
    · exact h.peers n q hq
  · rw [takePosition_result] at hr
    exact ⟨(h.ours r hr).position, by rw [takePosition_acquired]; exact (h.ours r hr).acquired⟩
  · have ht := h.tally r hr
    have hp : ∀ {n}, n ≠ p.nodeID → (takePosition s p).proposed n = s.proposed n := by
      intro n hn
      rw [State.proposed, takePosition_positions, takePosition_acquired, lookup_insert_eq,
        if_neg hn, State.proposed]
    refine ⟨fun tx d hd => ?_, ht.compared, fun n set hn hset => ?_, fun n set hn hset => ?_⟩
    · obtain ⟨hkey, ho, hc, hv⟩ := ht.entries tx d hd
      refine ⟨hkey, ho, hc, fun n hn => ?_⟩
      rw [takePosition_positions]
      exact mem_insert.mpr (.inr (hv n hn))
    · rw [hp hn] at hset
      exact ht.peers n set trivial hset
    · rw [hp hn] at hset
      exact ht.votes n set trivial hset

theorem lookAt_sound (henv : env.Lawful) {p : Proposal N S I} (h : Base env s)
    (ht : ∀ r, s.result_ = some r → Tally env (· ≠ p.nodeID) s r.toStance)
    (hp : s.currPeerPositions_.lookup p.nodeID = some p) : Sound env (lookAt env s p) := by
  have hpr : s.proposed p.nodeID = s.acquired_.lookup p.position := by
    rw [State.proposed, hp, bind_some]
  rw [lookAt]
  cases hset : s.acquired_.lookup p.position with
  | none =>
    have hs : Sound env s := by
      refine ⟨h, fun r hr => (ht r hr).weaken (fun n _ => ?_)⟩
      by_cases hn : n = p.nodeID
      · rw [hn, hpr, hset]
        exact .inr rfl
      · exact .inl hn
    have hc := hs.idle (Idle.calls s (s.calls + 1))
    cases env.acquireTxSet s.calls p.position with
    | none => exact hc
    | some set => exact gotTxSet_sound henv hc _ set
  | some set =>
    cases hr : s.result_ with
    | none => exact Sound.of_none h hr
    | some r =>
      obtain ⟨r', hrec, htl⟩ := updateDisputes_tally henv (ht r hr) hr (hpr.trans hset)
      refine Sound.of_base (h.recount hr hrec) hrec.seated (htl.weaken (fun n _ => .inl ?_))
      exact (ne_or_eq n p.nodeID)

end Peers

section Establish

theorem checkFresh_sound (cutoff : Int) (x : State N T S I L × OrdMap Int Nat) (n : N)
    (h : Sound env x.1) : Sound env (checkFresh cutoff x n).1 := by
  rw [checkFresh]
  cases hp : x.1.currPeerPositions_.lookup n with
  | none => exact h
  | some p =>
    dsimp only
    split_ifs
    · refine h.remove rfl rfl ?_ (h.quiet.of_log rfl (by simp))
      rw [← h.peers n p hp]
      rfl
    · exact h

theorem dropStale_sound (h : Sound env s) : Sound env (dropStale env s).1 :=
  List.foldlRecOn _ _ (motive := fun x => Sound env x.1) (h.idle (Idle.calls s _))
    fun x hx n _ => checkFresh_sound _ x n hx

/-- The disputes after some votes have been reconsidered, with the set that follows them. -/
structure Revoted (txns : Finset T) (disputes : HashMap T (DisputedTx N T))
    (x : Option (Finset T) × HashMap T (DisputedTx N T)) : Prop where
  old : ∀ tx d, x.2.lookup tx = some d →
    ∃ d₀, disputes.lookup tx = some d₀ ∧ d = { d₀ with ourVote_ := d.ourVote_ }
  keys : ∀ tx ∈ disputes, tx ∈ x.2
  ours : ∀ tx d, x.2.lookup tx = some d → d.ourVote_ = decide (tx ∈ x.1.getD txns)
  rest : ∀ tx ∉ disputes, (tx ∈ x.1.getD txns ↔ tx ∈ txns)

variable {x : Option (Finset T) × HashMap T (DisputedTx N T)}

omit [DecidableEq N] in
theorem reconsider_revoted {txns : Finset T} {disputes : HashMap T (DisputedTx N T)}
    (hkey : ∀ tx d, disputes.lookup tx = some d → d.tx_ = tx) (h : Revoted txns disputes x)
    (percent : Int) (proposing : Bool) (p : ConsensusParms) (txID : T) :
    Revoted txns disputes (reconsider percent proposing p txns x txID) := by
  rw [reconsider]
  cases hd : x.2.lookup txID with
  | none => exact h
  | some dispute =>
    obtain ⟨d₀, hd₀, heq⟩ := h.old txID dispute hd
    have hdtx : dispute.tx_ = txID := by
      rw [heq]
      exact hkey txID d₀ hd₀
    obtain hup | hup := dispute.updateVote_cases percent proposing p
    · simp only [hup, insert_of_lookup hd, Bool.false_eq_true, if_false]
      exact h
    simp only [hup, if_true, hdtx]
    have hset : ∀ tx, tx ∈ (if (!dispute.ourVote_) = true then insert txID (x.1.getD txns)
        else (x.1.getD txns).erase txID) ↔
        if tx = txID then (!dispute.ourVote_) = true else tx ∈ x.1.getD txns := by
      intro tx
      cases dispute.ourVote_ with
      | true | false => by_cases heq : tx = txID <;> simp [heq]
    have hmem : txID ∈ disputes := mem_of_lookup_eq_some hd₀
    refine ⟨fun tx d hl => ?_, fun tx htx => ?_, fun tx d hl => ?_, fun tx htx => ?_⟩
    · rw [lookup_insert_eq] at hl
      split_ifs at hl with htx
      · cases hl
        refine ⟨d₀, htx ▸ hd₀, ?_⟩
        rw [← hkey txID d₀ hd₀, heq]
      · exact h.old tx d hl
    · exact mem_insert.mpr (.inr (h.keys tx htx))
    · rw [lookup_insert_eq] at hl
      rw [getD_some]
      by_cases htx : tx = txID
      · rw [if_pos htx] at hl
        cases hl
        rw [Bool.eq_iff_iff, decide_eq_true_iff, hset tx, if_pos htx]
      · rw [if_neg htx] at hl
        rw [h.ours tx d hl, decide_eq_decide, hset tx, if_neg htx]
    · rw [getD_some, hset tx, if_neg (fun heq : tx = txID => htx (heq ▸ hmem))]
      exact h.rest tx htx

omit [DecidableEq N] [DecidableEq S] in
theorem revote_revoted (hkey : ∀ tx d, r.disputes.lookup tx = some d → d.tx_ = tx)
    (ho : ∀ tx d, r.disputes.lookup tx = some d → d.ourVote_ = decide (tx ∈ r.txns)) :
    Revoted r.txns r.disputes (revote env s r) := by
  refine List.foldlRecOn _ _ (motive := Revoted r.txns r.disputes) ?_ fun x hx tx _ =>
    reconsider_revoted hkey hx _ _ _ tx
  exact ⟨fun tx d hd => ⟨d, hd, rfl⟩, fun _ h => h, ho, fun _ _ => Iff.rfl⟩

theorem Tally.revoted {P : N → Prop} {r : Stance N T S I} (h : Tally env P s r)
    (hx : Revoted r.txns r.disputes x) :
    Tally env P s { r with txns := x.1.getD r.txns, disputes := x.2 } := by
  refine ⟨fun tx d hd => ?_, fun set hset tx htx => ?_, h.peers, fun n set hn hset tx d hd => ?_⟩
  · obtain ⟨d₀, hd₀, heq⟩ := hx.old tx d hd
    obtain ⟨hkey, -, hc, hv⟩ := h.entries tx d₀ hd₀
    refine ⟨?_, hx.ours tx d hd, ?_, ?_⟩
    · rw [heq, ← hkey]
    · rw [heq]
      exact ⟨hc.yays, hc.nays⟩
    · rw [heq]
      exact hv
  · by_cases hmem : tx ∈ r.disputes
    · exact hx.keys tx hmem
    · refine absurd (h.compared set hset tx ?_) hmem
      rw [Finset.mem_symmDiff] at htx ⊢
      rwa [hx.rest tx hmem] at htx
  · obtain ⟨d₀, hd₀, heq⟩ := hx.old tx d hd
    rw [heq]
    exact h.votes n set hn hset tx d₀ hd₀

theorem changeStance_sound (henv : env.Lawful) (h : Keyed env s)
    (ht : Tally env (fun _ => True) s { r.toStance with txns := set }) (closeTime : Int) :
    Sound env (changeStance env s r set closeTime) := by
  let position := r.position.changePosition (env.setID set) closeTime s.now_
  let r₀ := { r with txns := set, position := position }
  let s₀ := { s with result_ := some r₀ }.emit .changed
  have hk : Keyed env s₀ := ⟨h.acquired, h.peers, h.quiet.of_log rfl (by simp)⟩
  have htl : Tally env (fun _ => True) s₀ r₀.toStance :=
    (ht.position position).congr rfl rfl
  have ho : ∀ {s₁}, s₁.acquired_.lookup (env.setID set) = some set → Ours env s₁ r₀.toStance :=
    fun hset => ⟨rfl, hset⟩
  have hp : ∀ {s₁}, Sound env s₁ →
      Sound env (if !position.isBowOut && s₁.mode_ = .proposing then s₁.emit (.propose position)
        else s₁) := by
    intro s₁ h₁
    split_ifs
    · exact h₁.emit (by simp)
    · exact h₁
  by_cases hset : env.setID set ∈ s.acquired_
  · have hc : changeStance env s r set closeTime = if !position.isBowOut &&
        s₀.mode_ = .proposing then s₀.emit (.propose position) else s₀ := by
      simp only [changeStance, State.emit, hset, if_true, s₀, r₀, position]
    rw [hc]
    have hl := h.lookup_of_mem henv hset
    exact hp (.of_base (.of_ours hk rfl (ho hl)) rfl htl)
  · let s₁ := { s₀ with acquired_ := s₀.acquired_.insert (env.setID set) set }
    let s₂ := if position.isBowOut then s₁ else s₁.emit (.shareTxSet set)
    let s₃ := { s₂ with calls := s₂.calls + 1 }
    have hc : changeStance env s r set closeTime =
        let s₄ := (env.nodeOrder s₂.calls s₂.currPeerPositions_.keys).foldl (gotVote env set) s₃
        if !position.isBowOut && s₄.mode_ = .proposing then s₄.emit (.propose position) else s₄ := by
      simp only [changeStance, State.emit, hset, if_false, s₃, s₂, s₁, s₀, r₀, position]
    have hs₂ : Keyed env s₂ ∧ s₂.acquired_ = s₁.acquired_ ∧ s₂.result_ = some r₀ ∧
        s₂.currPeerPositions_ = s₁.currPeerPositions_ := by
      have hk₁ := hk.insert set
      by_cases hbow : position.isBowOut
      · rw [show s₂ = s₁ from if_pos hbow]
        exact ⟨hk₁, rfl, rfl, rfl⟩
      · rw [show s₂ = s₁.emit (.shareTxSet set) from if_neg hbow]
        exact ⟨⟨hk₁.acquired, hk₁.peers, hk₁.quiet.emit (by simp)⟩, rfl, rfl, rfl⟩
    obtain ⟨hk₂, hacq₂, hr₂, hpos₂⟩ := hs₂
    have hset₃ : s₃.acquired_.lookup (env.setID set) = some set :=
      (congrArg (fun m => Finmap.lookup (env.setID set) m) hacq₂).trans (lookup_insert _)
    have hb₃ : Base env s₃ :=
      .of_ours ⟨hk₂.acquired, hk₂.peers, hk₂.quiet.congr rfl⟩ hr₂ (ho hset₃)
    have htl₃ : Tally env (fun n => ¬ s₃.Proposes n (env.setID set)) s₃ r₀.toStance := by
      have ha : Tally env _ s₃ r₀.toStance := htl.acquire.congr hpos₂ hacq₂
      refine ha.weaken (fun n hn => .inl ?_)
      rwa [State.Proposes, show s₃.currPeerPositions_ = s₀.currPeerPositions_ from hpos₂] at hn
    rw [hc]
    exact hp (gotVotes_sound henv hb₃ hr₂ htl₃ hset₃ _)

theorem Sound.assert (h : Sound env s) (assertion : Assertion) (ha : ¬ assertion.OfDisputes)
    (condition : Bool) : Sound env (s.assert assertion condition) := by
  rw [State.assert]
  split_ifs
  · exact h
  · refine h.emit (fun a heq => ?_)
    cases heq
    exact ha

theorem updateOurPositions_sound (henv : env.Lawful) (h : Sound env s) :
    Sound env (updateOurPositions env s) := by
  have hdr := dropStale_sound (h.assert .updateOurPositions id s.result_.isSome)
  obtain ⟨-, hup⟩ | ⟨r, agreed, hr, hc⟩ := updateOurPositions_cases env s
  · rw [hup]
    exact hdr
  generalize (dropStale env _).1 = s₁ at hdr hr hc
  have ht := hdr.tally r hr
  have hrv := ht.revoted (revote_revoted (fun tx d hd => (ht.entries tx d hd).key)
    (fun tx d hd => (ht.entries tx d hd).ours) : Revoted _ _ (revote env s₁ r))
  obtain ⟨hup, hn⟩ | ⟨set, closeTime, hup, hset⟩ := hc
  · rw [hup]
    rw [hn] at hrv
    exact .of_base (.of_ours ⟨hdr.acquired, hdr.peers, hdr.quiet.congr rfl⟩ rfl
      ⟨(hdr.ours r hr).position, (hdr.ours r hr).acquired⟩) rfl (hrv.congr rfl rfl)
  · rw [hup]
    rw [hset] at hrv
    apply changeStance_sound henv
    · exact ⟨hdr.acquired, hdr.peers, hdr.quiet.congr rfl⟩
    · exact hrv.congr rfl rfl

theorem disputePeer_eq (env : Adaptor N T S I L) (s : State N T S I L) (n : N) :
    disputePeer env s n = (s.proposed n).elim s (createDisputes env s) := by
  rw [disputePeer, State.proposed]
  cases (s.currPeerPositions_.lookup n).bind (fun p => s.acquired_.lookup p.position) with
  | none => rfl
  | some set => rfl

theorem disputePeer_foldl (henv : env.Lawful) (order : List N) (hr : s.result_ = some r)
    (hcmp : Compared env r.toStance) :
    ∃ r', Created s r (order.foldl (disputePeer env) s) r' ∧ Compared env r'.toStance ∧
      ∀ n ∈ order, ∀ set, s.proposed n = some set → env.setID set ∈ r'.compares := by
  induction order generalizing s r with
  | nil => exact ⟨r, Created.refl hr, hcmp, by simp⟩
  | cons m order ih =>
    rw [List.foldl_cons]
    have hs : ∃ r₁, Created s r (disputePeer env s m) r₁ ∧ Compared env r₁.toStance ∧
        ∀ set, s.proposed m = some set → env.setID set ∈ r₁.compares := by
      rw [disputePeer_eq]
      cases s.proposed m with
      | none => exact ⟨r, Created.refl hr, hcmp, by simp⟩
      | some set =>
        obtain ⟨r₁, hc, hmem, hcmp₁⟩ := createDisputes_created henv hr hcmp set
        refine ⟨r₁, hc, hcmp₁, fun set' hset' => ?_⟩
        cases hset'
        exact hmem
    obtain ⟨r₁, hc₁, hcmp₁, hm⟩ := hs
    obtain ⟨r₂, hc₂, hcmp₂, ho⟩ := ih hc₁.seated hcmp₁
    refine ⟨r₂, hc₁.trans hc₂, hcmp₂, fun n hn set hset => ?_⟩
    obtain rfl | hn := List.mem_cons.mp hn
    · exact hc₂.compares (hm set hset)
    · rw [← hc₁.same.proposed] at hset
      exact ho n hn set hset

theorem Tally.of_created (hc : Created s r s' r') (he : r.disputes = ∅)
    (hcmp : Compared env r'.toStance)
    (hp : ∀ n set, s.proposed n = some set → env.setID set ∈ r'.compares) :
    Tally env (fun _ => True) s' r'.toStance := by
  have hf : ∀ {tx d}, r'.disputes.lookup tx = some d → Fresh s r.txns tx d := by
    intro tx d hd
    refine (hc.new tx d hd).resolve_left (fun hold => ?_)
    rw [he, lookup_empty] at hold
    cases hold
  refine ⟨fun tx d hd => ?_, hcmp, fun n set _ hset => ?_, fun n set _ hset tx d hd => ?_⟩
  · rw [hc.txns]
    exact (hf hd).entry.congr hc.same.positions
  · rw [hc.same.proposed] at hset
    exact hp n set hset
  · rw [hc.same.proposed] at hset
    rw [(hf hd).votes n, hset]
    rfl

theorem disputePeers_sound (henv : env.Lawful) (h : Base env s) (hr : s.result_ = some r)
    (hd : r.disputes = ∅) (hcm : r.compares = ∅) (call : Nat) :
    Sound env ((env.nodeOrder call s.currPeerPositions_.keys).foldl (disputePeer env) s) := by
  have hcmp : Compared env r.toStance := by
    intro set hset
    rw [hcm] at hset
    cases Finset.notMem_empty _ hset
  obtain ⟨r', hc, hcmp', hp⟩ := disputePeer_foldl henv
    (env.nodeOrder call s.currPeerPositions_.keys) hr hcmp
  refine Sound.of_base (h.recount hr hc.toRecount) hc.seated
    (Tally.of_created hc hd hcmp' (fun n set hset => hp n ?_ set hset))
  exact henv.mem_nodeOrder.mpr (mem_keys.mpr (State.mem_of_proposed hset))

theorem closeLedger_sound (henv : env.Lawful) (h : Sound env s) :
    Sound env (closeLedger env s) := by
  have hassert := h.assert .closeLedger id s.result_.isNone
  rw [closeLedger]
  generalize s.assert .closeLedger s.result_.isNone = s₀ at hassert
  have hp := henv.onClose_position s₀.calls s₀.previousLedger_ s₀.now_ s₀.mode_
  generalize env.onClose s₀.calls s₀.previousLedger_ s₀.now_ s₀.mode_ = closed at hp
  obtain ⟨txns, position⟩ := closed
  let r : ConsensusResult N T S I := { txns, position, roundTime := .reset (env.clock s₀.calls) }
  let s₁ := { s₀ with
    phase_ := .establish
    rawCloseTimes_ := { s₀.rawCloseTimes_ with self := s₀.now_ }
    result_ := some r
    calls := s₀.calls + 1 }
  have hk : Keyed env s₁ := ⟨hassert.acquired, hassert.peers, hassert.quiet.congr rfl⟩
  let s₂ := if env.setID txns ∈ s₁.acquired_ then s₁
    else { s₁ with acquired_ := s₁.acquired_.insert (env.setID txns) txns }.emit (.shareTxSet txns)
  have hs₂ : Base env s₂ ∧ s₂.result_ = some r := by
    by_cases hset : env.setID txns ∈ s₁.acquired_
    · rw [show s₂ = s₁ from if_pos hset]
      exact ⟨.of_ours hk rfl ⟨hp, hk.lookup_of_mem henv hset⟩, rfl⟩
    · rw [show s₂ = State.emit _ (.shareTxSet txns) from if_neg hset]
      have hb₁ := Base.of_ours (hk.insert txns) rfl ⟨hp, lookup_insert _⟩
      exact ⟨hb₁.emit (by simp), rfl⟩
  obtain ⟨hb₂, hr₂⟩ := hs₂
  have hs₃ : ∃ s₃, s₃ = (if s₂.mode_ = .proposing then s₂.emit (.propose position) else s₂) ∧
      Base env s₃ ∧ s₃.result_ = some r := by
    refine ⟨_, rfl, ?_⟩
    split_ifs
    · exact ⟨hb₂.emit (by simp), hr₂⟩
    · exact ⟨hb₂, hr₂⟩
  obtain ⟨s₃, heq, hb₃, hr₃⟩ := hs₃
  change Sound env (let s₃ := (if s₂.mode_ = .proposing then s₂.emit (.propose position) else s₂)
    (env.nodeOrder s₃.calls s₃.currPeerPositions_.keys).foldl (disputePeer env)
      { s₃ with calls := s₃.calls + 1 })
  rw [← heq]
  have hb₄ : Base env { s₃ with calls := s₃.calls + 1 } :=
    ⟨⟨hb₃.acquired, hb₃.peers, hb₃.quiet.congr rfl⟩,
      fun r hr => ⟨(hb₃.ours r hr).1, (hb₃.ours r hr).2⟩⟩
  exact disputePeers_sound henv hb₄ hr₃ rfl rfl s₃.calls

end Establish

theorem Sound.setMode (h : Sound env s) (mode : ConsensusMode) : Sound env (s.setMode mode) :=
  h.congr rfl rfl rfl (h.quiet.of_log rfl (by simp))

theorem leaveConsensus_sound (h : Sound env s) : Sound env (leaveConsensus s) := by
  rw [leaveConsensus]
  split_ifs
  · cases hr : s.result_ with
    | none => exact h.setMode _
    | some r =>
      dsimp only
      split_ifs
      · exact h.setMode _
      -- only the sequence number and the times of the position change
      obtain ⟨hpos, hset⟩ := h.ours r hr
      have ht := h.tally r hr
      have hq : Quiet (s.emit (.propose (r.position.bowOut s.now_))) := h.quiet.emit (by simp)
      apply Sound.setMode
      exact .of_base (.of_ours ⟨h.acquired, h.peers, hq⟩ rfl ⟨hpos, hset⟩) rfl
        ((ht.position (r.position.bowOut s.now_)).congr rfl rfl)
  · exact h

theorem turnTo_sound (h : Sound env s) (lgrId : I) : Sound env (turnTo s lgrId) := by
  have hpr : (turnTo s lgrId).proposed = fun _ => none := by
    funext n
    exact State.proposed_eq_none (notMem_empty)
  have hrs : ∀ {r'}, (turnTo s lgrId).result_ = some r' →
      ∃ r, s.result_ = some r ∧ { r with disputes := ∅, compares := ∅ } = r' :=
    fun hr' => map_eq_some_iff.mp hr'
  refine ⟨⟨⟨h.acquired, fun n p hp => ?_, h.quiet.of_log rfl (by simp)⟩, fun r' hr' => ?_⟩,
    fun r' hr' => ?_⟩
  · cases hp
  · obtain ⟨r, hr, rfl⟩ := hrs hr'
    exact ⟨(h.ours r hr).position, (h.ours r hr).acquired⟩
  · obtain ⟨r, hr, rfl⟩ := hrs hr'
    refine ⟨fun tx d hd => ?_, fun set hset => ?_, fun n set _ hset => ?_, fun n set _ hset => ?_⟩
    · cases hd
    · cases Finset.notMem_empty _ hset
    · rw [hpr] at hset
      cases hset
    · rw [hpr] at hset
      cases hset

theorem new_sound (id : I) (ledger : L) : Sound env (State.new id ledger) := by
  refine ⟨⟨⟨fun id set hset => ?_, fun n p hp => ?_, fun a ha => ?_⟩, fun r hr => ?_⟩,
    fun r hr => ?_⟩
  · cases hset
  · cases hp
  · cases ha
  · cases hr
  · cases hr

theorem beginRound_sound [PriorLedger L I] (h : Sound env s) (now : Int) (id : I) (ledger : L)
    (mode : ConsensusMode) : Sound env (beginRound env s now id ledger mode) := by
  have hlog : (beginRound env s now id ledger mode).log =
      s.log ++ [.started, .onModeChange s.mode_ mode, .cleared] := by
    simp [beginRound, State.setMode, State.emit]
  refine ⟨⟨⟨fun id set hset => ?_, fun n p hp => ?_, h.quiet.of_log hlog (by simp)⟩,
    fun r hr => ?_⟩, fun r hr => ?_⟩
  · cases hset
  · cases hp
  · cases hr
  · cases hr

variable [DecidableEq I]

theorem peerProposalInternal_sound (henv : env.Lawful) (h : Sound env s) (now : Int)
    (p : Proposal N S I) : Sound env (peerProposalInternal env s now p).2 := by
  have hnow := h.idle (Idle.now s now)
  rw [peerProposalInternal]
  split_ifs
  · exact h
  · exact hnow
  · exact hnow.remove rfl rfl rfl (hnow.quiet.of_log rfl (by simp))
  obtain ⟨hb, ht⟩ := takePosition_base hnow p
  refine lookAt_sound henv hb (fun r hr => ?_) ?_
  · rw [takePosition_result] at hr
    exact ht r hr
  · rw [takePosition_positions, lookup_insert]

theorem playbackProposals_sound (henv : env.Lawful) (h : Sound env s) :
    Sound env (playbackProposals env s) := by
  refine List.foldlRecOn _ _ (motive := Sound env) (h.idle (Idle.calls s _)) fun s h p _ => ?_
  have hp := peerProposalInternal_sound henv h s.now_ p
  rw [playback]
  dsimp only
  split_ifs
  · exact hp.emit (by simp)
  · exact hp
  · exact h

variable [PriorLedger L I]

theorem step_sound (henv : env.Lawful) (h : Sound env s) (hs : Step env s s') : Sound env s' := by
  cases hs with
  | idle hi => exact h.idle hi
  | txSet now txSet => exact gotTxSet_sound henv h now txSet
  | leave => exact leaveConsensus_sound h
  | turn lgrId => exact playbackProposals_sound henv (turnTo_sound h lgrId)
  | wrong => exact h.setMode _
  | begin now id ledger mode =>
    exact playbackProposals_sound henv (beginRound_sound h now id ledger mode)
  | close => exact closeLedger_sound henv h
  | update => exact updateOurPositions_sound henv h
  | accept r =>
    have hlog : (accept s r).log = s.log ++ [.updateOperatingMode s.currPeerPositions_.keys.card,
        .onAccept r s.previousLedger_ s.closeResolution_ s.rawCloseTimes_ s.mode_] := by
      simp [accept, State.emit]
    exact h.congr rfl rfl rfl (h.quiet.of_log hlog (by simp))
  | fault assertion ha =>
    refine h.assert assertion ?_ false
    obtain rfl | rfl := ha
    · exact id
    · exact id

theorem run_sound (henv : env.Lawful) {fuel : Nat} {ops : List (Op N T S I L)} {id : I} {ledger : L}
    (hrun : ops.foldlM (apply env fuel) (State.new id ledger) = some s) : Sound env s :=
  run_invariant (fun _ _ h hs => step_sound henv h hs)
    (fun _ now p h => peerProposalInternal_sound henv h now p) (new_sound id ledger) hrun

/-- In every run the table of disputes tells how our set and the sets of the peers differ. -/
theorem dispute_table (henv : env.Lawful) (fuel : Nat) (ops : List (Op N T S I L)) (id : I)
    (ledger : L) (hrun : ops.foldlM (apply env fuel) (State.new id ledger) = some s) :
    (∀ r, s.result_ = some r →
      (r.position.position = env.setID r.txns ∧
        s.acquired_.lookup r.position.position = some r.txns) ∧
      (∀ tx d, r.disputes.lookup tx = some d → d.tx_ = tx ∧ (d.ourVote_ ↔ tx ∈ r.txns) ∧
        d.yays_ = (HashMap.values d.votes_).count true ∧
        d.nays_ = (HashMap.values d.votes_).count false ∧
        ∀ n ∈ d.votes_, n ∈ s.currPeerPositions_) ∧
      (∀ n p set, s.currPeerPositions_.lookup n = some p →
        s.acquired_.lookup p.position = some set →
        (∀ tx ∈ symmDiff r.txns set, tx ∈ r.disputes) ∧
        ∀ tx d, r.disputes.lookup tx = some d → d.votes_.lookup n = some (decide (tx ∈ set)))) ∧
    .assertFailed .gotTxSet ∉ s.log := by
  have h := run_sound henv hrun
  refine ⟨fun r hr => ⟨?_, ?_, ?_⟩, fun hlog => h.quiet _ hlog trivial⟩
  · obtain ⟨hpos, hset⟩ := h.ours r hr
    exact ⟨hpos, by rw [hpos, hset]⟩
  · intro tx d hd
    obtain ⟨hkey, hours, hcounted, hvoters⟩ := (h.tally r hr).entries tx d hd
    refine ⟨hkey, ?_, hcounted.yays, hcounted.nays, hvoters⟩
    rw [hours, decide_eq_true_iff]
  · intro n p set hp hset
    have hprop : s.proposed n = some set := by
      rw [State.proposed, hp, Option.bind_some, hset]
    have ht := h.tally r hr
    exact ⟨ht.compared set (ht.peers n set trivial hprop), ht.votes n set trivial hprop⟩

structure PlainLedger where
  number : Nat

instance : PriorLedger PlainLedger Nat where
  id := PlainLedger.number
  seq := PlainLedger.number
  closeTime := fun _ => 0
  parentCloseTime := fun _ => 0
  closeTimeResolution := fun _ => ledgerDefaultTimeResolution
  closeAgree := fun _ => true

section

variable (txns : Finset Nat) (clock : Nat → Int)

/-- An adaptor of node `0`, which always closes its ledger with the same transactions and learns
nothing about other ledgers. Sets are their own identifiers. -/
def plainAdaptor : Adaptor Nat Nat (Finset Nat) Nat PlainLedger where
  parms := {}
  setID := id
  acquireLedger := fun _ id => some ⟨id⟩
  acquireTxSet := fun _ _ => none
  getPrevLedger := fun _ id _ _ => id
  hasOpenTransactions := fun _ => true
  proposersValidated := fun _ _ => 0
  proposersFinished := fun _ _ _ => 0
  onClose := fun _ ledger now _ => (txns, ⟨ledger.number, Proposal.seqJoin, txns, now, now, 0⟩)
  clock := clock
  getValidLedgerIndex := fun _ => 0
  getQuorumKeys := fun _ => (0, 0)
  laggards := fun _ _ => (0, 0)
  validator := fun _ => false
  haveValidated := fun _ => false
  fewNonLaggards := fun _ _ _ _ => false
  nodeOrder := fun _ => ascending
  txOrder := fun _ => ascending

theorem plainAdaptor_lawful : (plainAdaptor txns clock).Lawful :=
  ⟨Function.injective_id, fun _ _ _ _ => rfl, fun _ nodes => coe_ascending nodes,
    fun _ txs => coe_ascending txs⟩

end

theorem dispute_table_after_close :
    let env := plainAdaptor {1} (fun call => call)
    let ops : List (Op Nat Nat (Finset Nat) Nat PlainLedger) :=
      [.startRound 100 7 ⟨7⟩ ∅ true, .peerProposal 101 ⟨7, 0, {2}, 101, 101, 5⟩, .gotTxSet 102 {2},
        .timerEntry 103]
    ∃ s r, ops.foldlM (apply env 1) (State.new 7 ⟨7⟩) = some s ∧ s.result_ = some r ∧
      r.disputes.keys = {1, 2} ∧ r.position.position = env.setID r.txns ∧
      .assertFailed .gotTxSet ∉ s.log := by
  intro env ops
  have h : ((ops.foldlM (apply env 1) (State.new 7 ⟨7⟩)).bind State.result_).map
      (fun r => r.disputes.keys) = some {1, 2} := by
    decide +kernel
  obtain ⟨r, hr, hkeys⟩ := Option.map_eq_some_iff.mp h
  obtain ⟨s, hs, hr⟩ := Option.bind_eq_some_iff.mp hr
  obtain ⟨htable, hlog⟩ := dispute_table (plainAdaptor_lawful {1} _) 1 ops 7 ⟨7⟩ hs
  exact ⟨s, r, hs, hr, hkeys, (htable r hr).1.1, hlog⟩

end Rippled.Consensus
