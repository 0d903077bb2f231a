import Rippled.Consensus.Steps

namespace Rippled.Consensus

open Lib Finset Finmap

variable {N T S I L : Type} {s s' s'' : State N T S I L}

structure SamePeers (s s' : State N T S I L) : Prop where
  positions : s'.currPeerPositions_ = s.currPeerPositions_
  acquired : s'.acquired_ = s.acquired_
  dead : s'.deadNodes_ = s.deadNodes_
  closeTimes : s'.rawCloseTimes_ = s.rawCloseTimes_

theorem SamePeers.refl (s : State N T S I L) : SamePeers s s := ⟨rfl, rfl, rfl, rfl⟩

theorem SamePeers.trans (h : SamePeers s s') (h' : SamePeers s' s'') : SamePeers s s'' :=
  ⟨h'.positions.trans h.positions, h'.acquired.trans h.acquired, h'.dead.trans h.dead,
    h'.closeTimes.trans h.closeTimes⟩

def Assertion.OfDisputes : Assertion → Prop
  | .gotTxSet | .createDisputes | .updateDisputes => True
  | _ => False

def Quiet (s : State N T S I L) : Prop := ∀ a, .assertFailed a ∈ s.log → ¬ a.OfDisputes

theorem Quiet.of_log (h : Quiet s) {es : List (Event N T S I L)} (hlog : s'.log = s.log ++ es)
    (hes : ∀ a, .assertFailed a ∈ es → ¬ a.OfDisputes) : Quiet s' := by
  intro a ha
  rw [hlog, List.mem_append] at ha
  exact ha.elim (h a) (hes a)

theorem Quiet.congr (h : Quiet s) (hlog : s'.log = s.log) : Quiet s' :=
  h.of_log (hlog.trans (List.append_nil _).symm) (by simp)

theorem Quiet.emit (h : Quiet s) {e : Event N T S I L}
    (he : ∀ a, e = .assertFailed a → ¬ a.OfDisputes) : Quiet (s.emit e) :=
  h.of_log rfl (fun a ha => he a (List.mem_singleton.mp ha).symm)

/-- Nothing but the disputes and the list of compared sets has changed. -/
structure Recount (s : State N T S I L) (r : ConsensusResult N T S I) (s' : State N T S I L)
    (r' : ConsensusResult N T S I) : Prop where
  seated : s'.result_ = some r'
  same : SamePeers s s'
  quiet : Quiet s → Quiet s'
  txns : r'.txns = r.txns
  position : r'.position = r.position

theorem Recount.refl {r : ConsensusResult N T S I} (hr : s.result_ = some r) : Recount s r s r :=
  ⟨hr, SamePeers.refl s, id, rfl, rfl⟩

theorem Recount.trans {r r' r'' : ConsensusResult N T S I} (h : Recount s r s' r')
    (h' : Recount s' r' s'' r'') : Recount s r s'' r'' :=
  ⟨h'.seated, h.same.trans h'.same, fun hs => h'.quiet (h.quiet hs), h'.txns.trans h.txns,
    h'.position.trans h.position⟩

/-- What is promised of the adaptor: the identifier of a set is its own, `onClose` proposes the set
that it returns, and a traversal meets every element once. -/
structure Adaptor.Lawful (env : Adaptor N T S I L) : Prop where
  setID_injective : Function.Injective env.setID
  onClose_position : ∀ call ledger now mode, (env.onClose call ledger now mode).2.position =
    env.setID (env.onClose call ledger now mode).1
  nodeOrder_eq : ∀ call nodes, (env.nodeOrder call nodes : Multiset N) = nodes.val
  txOrder_eq : ∀ call txs, (env.txOrder call txs : Multiset T) = txs.val

variable {env : Adaptor N T S I L} {call : Nat}

theorem Adaptor.Lawful.mem_nodeOrder (henv : env.Lawful) {nodes : Finset N} {n : N} :
    n ∈ env.nodeOrder call nodes ↔ n ∈ nodes := by
  rw [← Multiset.mem_coe, henv.nodeOrder_eq, mem_val]

theorem Adaptor.Lawful.mem_txOrder (henv : env.Lawful) {txs : Finset T} {tx : T} :
    tx ∈ env.txOrder call txs ↔ tx ∈ txs := by
  rw [← Multiset.mem_coe, henv.txOrder_eq, mem_val]

variable [DecidableEq N] [DecidableEq T] [DecidableEq S]

def State.proposed (s : State N T S I L) (nodeID : N) : Option (Finset T) :=
  (s.currPeerPositions_.lookup nodeID).bind (fun p => s.acquired_.lookup p.position)

section

omit [DecidableEq T]

theorem State.proposed_congr (hpos : s'.currPeerPositions_ = s.currPeerPositions_)
    (hacq : s'.acquired_ = s.acquired_) : s'.proposed = s.proposed := by
  funext n
  rw [State.proposed, State.proposed, hpos, hacq]

theorem SamePeers.proposed (h : SamePeers s s') : s'.proposed = s.proposed :=
  State.proposed_congr h.positions h.acquired

theorem State.proposed_eq_none {n : N} (h : n ∉ s.currPeerPositions_) : s.proposed n = none := by
  rw [State.proposed, lookup_eq_none.mpr h, Option.bind_none]

end

section

variable (s)

theorem collectVotes_cons (tx : T) (m : N) (order : List N) (d : DisputedTx N T) :
    collectVotes s tx (m :: order) d = collectVotes s tx order
      ((s.proposed m).elim d (fun set => d.setVote m (decide (tx ∈ set)))) := by
  rw [collectVotes, collectVotes, List.foldl_cons, State.proposed]
  congr 1
  cases (s.currPeerPositions_.lookup m).bind (fun p => s.acquired_.lookup p.position) with
  | none => rfl
  | some set => rfl

section

variable (tx : T) (order : List N) (d : DisputedTx N T)

theorem collectVotes_votes (n : N) : (collectVotes s tx order d).votes_.lookup n =
      ((if n ∈ order then s.proposed n else none).map (fun set => decide (tx ∈ set))).or
        (d.votes_.lookup n) := by
  induction order generalizing d with
  | nil => simp [collectVotes]
  | cons m order ih =>
    rw [collectVotes_cons, ih]
    by_cases hn : n = m
    · subst hn
      cases hp : s.proposed n with
      | none => simp
      | some set =>
        simp only [Option.elim_some, DisputedTx.setVote_votes, lookup_insert, List.mem_cons,
          true_or, if_true]
        by_cases ho : n ∈ order
        · simp [ho]
        · simp [ho]
    · have hm : n ∈ m :: order ↔ n ∈ order := by simp [hn]
      simp only [hm]
      congr 1
      cases s.proposed m with
      | none => rfl
      | some set =>
        rw [Option.elim_some, DisputedTx.setVote_votes, HashMap.lookup_insert_eq, if_neg hn]

theorem collectVotes_new (tx : T) (ours : Bool) {order : List N}
    (ho : ∀ n ∈ s.currPeerPositions_, n ∈ order) (n : N) :
    (collectVotes s tx order (DisputedTx.new tx ours)).votes_.lookup n =
      (s.proposed n).map (fun set => decide (tx ∈ set)) := by
  have hnew : (DisputedTx.new tx ours : DisputedTx N T).votes_.lookup n = none :=
    lookup_empty n
  rw [collectVotes_votes, hnew, Option.or_none]
  by_cases hn : n ∈ order
  · rw [if_pos hn]
  · rw [if_neg hn, State.proposed_eq_none (fun hmem => hn (ho n hmem))]

theorem collectVotes_kept (hd : d.Counted) : (collectVotes s tx order d).tx_ = d.tx_ ∧
      (collectVotes s tx order d).ourVote_ = d.ourVote_ ∧ (collectVotes s tx order d).Counted := by
  induction order generalizing d with
  | nil => exact ⟨rfl, rfl, hd⟩
  | cons m order ih =>
    rw [collectVotes_cons]
    cases s.proposed m with
    | none => exact ih d hd
    | some set =>
      obtain ⟨htx, ho⟩ := d.setVote_tx m (decide (tx ∈ set))
      rw [← htx, ← ho]
      exact ih _ (hd.setVote m _)

end

/-- A dispute as it is created: all peers whose sets are there have voted. -/
structure Fresh (txns : Finset T) (tx : T) (d : DisputedTx N T) : Prop where
  key : d.tx_ = tx
  ours : d.ourVote_ = decide (tx ∈ txns)
  counted : d.Counted
  votes : ∀ n, d.votes_.lookup n = (s.proposed n).map (fun set => decide (tx ∈ set))

end

structure Created (s : State N T S I L) (r : ConsensusResult N T S I) (s' : State N T S I L)
    (r' : ConsensusResult N T S I) : Prop extends Recount s r s' r' where
  compares : r.compares ⊆ r'.compares
  old : ∀ tx d, r.disputes.lookup tx = some d → r'.disputes.lookup tx = some d
  new : ∀ tx d, r'.disputes.lookup tx = some d → r.disputes.lookup tx = some d ∨ Fresh s r.txns tx d

variable {r : ConsensusResult N T S I}

namespace Created

variable {r' r'' : ConsensusResult N T S I}

theorem refl (hr : s.result_ = some r) : Created s r s r :=
  ⟨Recount.refl hr, subset_rfl, fun _ _ h => h, fun _ _ h => .inl h⟩

theorem trans (h : Created s r s' r') (h' : Created s' r' s'' r'') : Created s r s'' r'' := by
  refine ⟨h.toRecount.trans h'.toRecount, h.compares.trans h'.compares,
    fun tx d hd => h'.old tx d (h.old tx d hd), fun tx d hd => ?_⟩
  obtain hd | hd := h'.new tx d hd
  · exact h.new tx d hd
  refine .inr ⟨hd.key, ?_, hd.counted, ?_⟩
  · rw [← h.txns]
    exact hd.ours
  · rw [← h.same.proposed]
    exact hd.votes

theorem mem (h : Created s r s' r') {tx : T} (htx : tx ∈ r.disputes) : tx ∈ r'.disputes := by
  obtain ⟨d, hd⟩ := mem_iff.mp htx
  exact mem_of_lookup_eq_some (h.old tx d hd)

end Created

theorem createDispute_created (henv : env.Lawful) (hr : s.result_ = some r) (tx : T) :
    ∃ r', Created s r (createDispute env s tx) r' ∧ r'.compares = r.compares ∧
      tx ∈ r'.disputes := by
  rw [createDispute, hr]
  by_cases htx : tx ∈ r.disputes
  · simp only [htx, if_true]
    exact ⟨r, Created.refl hr, rfl, htx⟩
  simp only [htx, if_false]
  refine ⟨_, ⟨⟨rfl, ⟨rfl, rfl, rfl, rfl⟩, fun hs => ?_, rfl, rfl⟩, subset_rfl, ?_, ?_⟩, rfl, ?_⟩
  · exact hs.of_log rfl (by simp)
  · intro tx' d hd
    rw [HashMap.lookup_insert_eq, if_neg]
    · exact hd
    · rintro rfl
      exact htx (mem_of_lookup_eq_some hd)
  · intro tx' d hd
    rw [HashMap.lookup_insert_eq] at hd
    split_ifs at hd with heq
    · subst heq
      cases hd
      obtain ⟨hkey, ho, hc⟩ := collectVotes_kept s tx'
        (env.nodeOrder s.calls s.currPeerPositions_.keys) (.new tx' (decide (tx' ∈ r.txns)))
        ⟨rfl, rfl⟩
      refine .inr ⟨hkey, ho, hc, collectVotes_new s tx' _ (fun n hn => ?_)⟩
      exact henv.mem_nodeOrder.mpr (mem_keys.mpr hn)
    · exact .inl hd
  · exact mem_insert.mpr (.inl rfl)

theorem createDispute_foldl (henv : env.Lawful) (txs : List T) (hr : s.result_ = some r) :
    ∃ r', Created s r (txs.foldl (createDispute env) s) r' ∧ r'.compares = r.compares ∧
      ∀ tx ∈ txs, tx ∈ r'.disputes := by
  induction txs generalizing s r with
  | nil => exact ⟨r, Created.refl hr, rfl, by simp⟩
  | cons tx txs ih =>
    obtain ⟨r₁, h₁, hc₁, htx⟩ := createDispute_created henv hr tx
    obtain ⟨r₂, h₂, hc₂, htxs⟩ := ih h₁.seated
    refine ⟨r₂, h₁.trans h₂, hc₂.trans hc₁, fun tx' htx' => ?_⟩
    obtain rfl | htx' := List.mem_cons.mp htx'
    · exact h₂.mem htx
    · exact htxs tx' htx'

/-- Where we differ from a set that has been compared, there is a dispute. -/
def Compared (env : Adaptor N T S I L) (r : Stance N T S I) : Prop :=
  ∀ set, env.setID set ∈ r.compares → ∀ tx ∈ symmDiff r.txns set, tx ∈ r.disputes

theorem createDisputes_created (henv : env.Lawful) (hr : s.result_ = some r)
    (hcmp : Compared env r.toStance) (o : Finset T) :
    ∃ r', Created s r (createDisputes env s o) r' ∧ env.setID o ∈ r'.compares ∧
      Compared env r'.toStance := by
  rw [createDisputes, hr]
  by_cases ho : env.setID o ∈ r.compares
  · simp only [ho, if_true]
    exact ⟨r, Created.refl hr, ho, hcmp⟩
  simp only [ho, if_false]
  let r₁ := { r with compares := insert (env.setID o) r.compares }
  have hcr : ∀ calls, Created s r { s with result_ := some r₁, calls := calls } r₁ :=
    fun calls => ⟨⟨rfl, ⟨rfl, rfl, rfl, rfl⟩, fun hs => hs.congr rfl, rfl, rfl⟩,
      subset_insert _ _, fun _ _ h => h, fun _ _ h => .inl h⟩
  -- only the new set is left to be checked: the disputes with the others are kept
  have hcp : ∀ {s' r'}, Created s r s' r' → r'.compares = r₁.compares →
      (∀ tx ∈ symmDiff r.txns o, tx ∈ r'.disputes) → Compared env r'.toStance := by
    intro s' r' hc hcm hnew set hset tx htx
    rw [hcm] at hset
    rw [hc.txns] at htx
    obtain hset | hset := mem_insert.mp hset
    · rw [henv.setID_injective hset] at htx
      exact hnew tx htx
    · exact hc.mem (hcmp set hset tx htx)
  by_cases heq : env.setID r.txns = env.setID o
  · simp only [heq, if_true]
    refine ⟨r₁, hcr s.calls, mem_insert_self _ _, hcp (hcr s.calls) rfl (fun tx htx => ?_)⟩
    simp [henv.setID_injective heq] at htx
  simp only [heq, if_false]
  obtain ⟨r', hc, hcm, htxs⟩ := createDispute_foldl henv
    (env.txOrder s.calls (symmDiff r.txns o)) (hcr (s.calls + 1)).seated
  have hc' := (hcr (s.calls + 1)).trans hc
  refine ⟨r', hc', ?_, hcp hc' hcm (fun tx htx => ?_)⟩
  · rw [hcm]
    exact mem_insert_self _ _
  · exact htxs tx (henv.mem_txOrder.mpr htx)

end Rippled.Consensus
