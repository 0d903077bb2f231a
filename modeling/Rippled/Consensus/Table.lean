import Rippled.Consensus.Disputes

namespace Rippled.Consensus

open Lib

variable {N T S I L : Type} [DecidableEq N] [DecidableEq T] [DecidableEq S]
  {env : Adaptor N T S I L} {s s' : State N T S I L}

/-- A dispute in the table. The voters are peers that have a position. -/
structure Entry (s : State N T S I L) (txns : Finset T) (tx : T) (d : DisputedTx N T) : Prop where
  key : d.tx_ = tx
  ours : d.ourVote_ = decide (tx ∈ txns)
  counted : d.Counted
  voters : ∀ n ∈ d.votes_, n ∈ s.currPeerPositions_

/-- The table of disputes is right, and up to date for the peers in `P`. -/
structure Tally (env : Adaptor N T S I L) (P : N → Prop) (s : State N T S I L)
    (r : Stance N T S I) : Prop where
  entries : ∀ tx d, r.disputes.lookup tx = some d → Entry s r.txns tx d
  compared : Compared env r
  peers : ∀ n set, P n → s.proposed n = some set → env.setID set ∈ r.compares
  votes : ∀ n set, P n → s.proposed n = some set → ∀ tx d, r.disputes.lookup tx = some d →
    d.votes_.lookup n = some (decide (tx ∈ set))

variable {d : DisputedTx N T} {txns : Finset T}

theorem Fresh.entry {tx : T} (h : Fresh s txns tx d) : Entry s txns tx d := by
  refine ⟨h.key, h.ours, h.counted, fun n hn => ?_⟩
  by_contra hmem
  have hnn := h.votes n
  rw [State.proposed_eq_none hmem] at hnn
  exact Finmap.lookup_eq_none.mp hnn hn

omit [DecidableEq N] [DecidableEq S] in
theorem Entry.congr {tx : T} (h : Entry s txns tx d)
    (hs : s'.currPeerPositions_ = s.currPeerPositions_) : Entry s' txns tx d := by
  refine ⟨h.key, h.ours, h.counted, fun n hn => ?_⟩
  rw [hs]
  exact h.voters n hn

variable {P : N → Prop}

namespace Tally

variable {Q : N → Prop} {r : Stance N T S I}

section

variable (h : Tally env P s r)

include h

theorem congr (hpos : s'.currPeerPositions_ = s.currPeerPositions_)
    (hacq : s'.acquired_ = s.acquired_) : Tally env P s' r := by
  refine ⟨fun tx d hd => (h.entries tx d hd).congr hpos, h.compared, ?_, ?_⟩
  · rw [State.proposed_congr hpos hacq]
    exact h.peers
  · rw [State.proposed_congr hpos hacq]
    exact h.votes

theorem position (p : Proposal N S I) : Tally env P s { r with position := p } :=
  ⟨h.entries, h.compared, h.peers, h.votes⟩

theorem weaken (hQ : ∀ n, Q n → P n ∨ s.proposed n = none) : Tally env Q s r := by
  have hP : ∀ {n set}, Q n → s.proposed n = some set → P n := by
    intro n set hn hset
    obtain hn | hn := hQ n hn
    · exact hn
    · rw [hn] at hset
      cases hset
  exact ⟨h.entries, h.compared, fun n set hn hset => h.peers n set (hP hn hset) hset,
    fun n set hn hset => h.votes n set (hP hn hset) hset⟩

end

theorem created {r r' : ConsensusResult N T S I} (h : Tally env P s r.toStance)
    (hc : Created s r s' r') (hcmp : Compared env r'.toStance) : Tally env P s' r'.toStance := by
  refine ⟨fun tx d hd => ?_, hcmp, fun n set hn hset => ?_, fun n set hn hset tx d hd => ?_⟩
  · rw [hc.txns]
    obtain hd | hd := hc.new tx d hd
    · exact (h.entries tx d hd).congr hc.same.positions
    · exact hd.entry.congr hc.same.positions
  · rw [hc.same.proposed] at hset
    exact hc.compares (h.peers n set hn hset)
  · rw [hc.same.proposed] at hset
    obtain hd | hd := hc.new tx d hd
    · exact h.votes n set hn hset tx d hd
    · rw [hd.votes n, hset]
      rfl

end Tally

omit [DecidableEq N] [DecidableEq T] [DecidableEq S] in
theorem State.mapDisputes_result {r : ConsensusResult N T S I} (hr : s.result_ = some r)
    (f : DisputedTx N T → DisputedTx N T) : (s.mapDisputes f).result_ =
      some { r with disputes := HashMap.mapValues (fun _ d => f d) r.disputes } := by
  rw [State.mapDisputes, hr]
  rfl

omit [DecidableEq T] in
theorem State.mem_of_proposed {n : N} {set : Finset T} (h : s.proposed n = some set) :
    n ∈ s.currPeerPositions_ := by
  by_contra hn
  rw [State.proposed_eq_none hn] at h
  cases h

section Votes

variable {r : ConsensusResult N T S I} {node : N} {other : Finset T}

omit [DecidableEq S] in
theorem Entry.setVote {txns : Finset T} {tx : T} {d : DisputedTx N T} (h : Entry s txns tx d)
    (hnd : node ∈ s.currPeerPositions_) (vote : Bool) : Entry s txns tx (d.setVote node vote) := by
  obtain ⟨htx, ho⟩ := d.setVote_tx node vote
  refine ⟨htx.trans h.key, ho.trans h.ours, h.counted.setVote node vote, fun n hn => ?_⟩
  rw [DisputedTx.setVote_votes, Finmap.mem_insert] at hn
  obtain rfl | hn := hn
  · exact hnd
  · exact h.voters n hn

theorem Tally.setVote (h : Tally env P s r.toStance) (hr : s.result_ = some r)
    (hset : s.proposed node = some other) (hcmp : env.setID other ∈ r.compares) :
    let s' := s.mapDisputes (fun d => d.setVote node (decide (d.tx_ ∈ other)))
    ∃ r', Recount s r s' r' ∧ Tally env (fun n => P n ∨ n = node) s' r'.toStance := by
  intro s'
  let f := fun d : DisputedTx N T => d.setVote node (decide (d.tx_ ∈ other))
  have hsm : SamePeers s s' := ⟨rfl, rfl, rfl, rfl⟩
  have hl : ∀ {tx d}, (HashMap.mapValues (fun _ d => f d) r.disputes).lookup tx = some d →
      ∃ d₀, r.disputes.lookup tx = some d₀ ∧ d = d₀.setVote node (decide (tx ∈ other)) := by
    intro tx d hd
    rw [HashMap.lookup_mapValues] at hd
    obtain ⟨d₀, hd₀, rfl⟩ := Option.map_eq_some_iff.mp hd
    refine ⟨d₀, hd₀, ?_⟩
    rw [← (h.entries tx d₀ hd₀).key]
  refine ⟨_, ⟨State.mapDisputes_result hr f, hsm, fun hs => hs.congr rfl, rfl, rfl⟩, ?_, ?_, ?_, ?_⟩
  · intro tx d hd
    obtain ⟨d₀, hd₀, rfl⟩ := hl hd
    exact ((h.entries tx d₀ hd₀).setVote (State.mem_of_proposed hset) _).congr rfl
  · intro set hmem tx htx
    obtain ⟨d, hd⟩ := Finmap.mem_iff.mp (h.compared set hmem tx htx)
    refine Finmap.mem_iff.mpr ⟨f d, ?_⟩
    rw [HashMap.lookup_mapValues, hd]
    rfl
  · intro n set hn hp
    rw [hsm.proposed] at hp
    obtain hn | rfl := hn
    · exact h.peers n set hn hp
    · cases hset.symm.trans hp
      exact hcmp
  · intro n set hn hp tx d hd
    rw [hsm.proposed] at hp
    obtain ⟨d₀, hd₀, rfl⟩ := hl hd
    rw [DisputedTx.setVote_votes, HashMap.lookup_insert_eq]
    split_ifs with heq
    · subst heq
      cases hset.symm.trans hp
      rfl
    · exact h.votes n set (hn.resolve_right heq) hp tx d₀ hd₀

theorem updateDisputes_eq (hr : s.result_ = some r) :
    updateDisputes env s node other = (createDisputes env s other).mapDisputes
      (fun d => d.setVote node (decide (d.tx_ ∈ other))) := by
  rw [updateDisputes, createDisputes, hr]
  dsimp only
  split_ifs
  · rfl
  · rfl
  · rfl

theorem updateDisputes_tally (henv : env.Lawful) (h : Tally env P s r.toStance)
    (hr : s.result_ = some r) (hset : s.proposed node = some other) :
    ∃ r', Recount s r (updateDisputes env s node other) r' ∧
      Tally env (fun n => P n ∨ n = node) (updateDisputes env s node other) r'.toStance := by
  obtain ⟨r₁, hc, hmem, hcmp⟩ := createDisputes_created henv hr h.compared other
  rw [updateDisputes_eq hr]
  have hset₁ : (createDisputes env s other).proposed node = some other := by
    rw [hc.same.proposed, hset]
  obtain ⟨r', hrec, ht⟩ := (h.created hc hcmp).setVote hc.seated hset₁ hmem
  exact ⟨r', hc.toRecount.trans hrec, ht⟩

end Votes

section Acquire

variable {r : ConsensusResult N T S I} {set : Finset T}

def State.Proposes (s : State N T S I L) (nodeID : N) (id : S) : Prop :=
  ∃ p, s.currPeerPositions_.lookup nodeID = some p ∧ p.position = id

theorem gotVote_foldl (henv : env.Lawful) (order : List N)
    (hset : s.acquired_.lookup (env.setID set) = some set) (h : Tally env P s r.toStance)
    (hr : s.result_ = some r) : ∃ r', Recount s r (order.foldl (gotVote env set) s) r' ∧
      Tally env (fun n => P n ∨ n ∈ order ∧ s.Proposes n (env.setID set))
        (order.foldl (gotVote env set) s) r'.toStance := by
  induction order generalizing s r P with
  | nil => exact ⟨r, Recount.refl hr, h.weaken (fun n hn => .inl (by simpa using hn))⟩
  | cons m order ih =>
    rw [List.foldl_cons]
    by_cases hm : s.Proposes m (env.setID set)
    · obtain ⟨p, hp, hpos⟩ := hm
      have hpr : s.proposed m = some set := by
        rw [State.proposed, hp, Option.bind_some, hpos, hset]
      have hgot : gotVote env set s m = updateDisputes env s m set := by
        rw [gotVote, hp]
        exact if_pos hpos
      obtain ⟨r₁, hrec₁, ht₁⟩ := updateDisputes_tally henv h hr hpr
      rw [hgot]
      have hset₁ : (updateDisputes env s m set).acquired_.lookup (env.setID set) = some set := by
        rw [hrec₁.same.acquired, hset]
      obtain ⟨r₂, hrec₂, ht₂⟩ := ih hset₁ ht₁ hrec₁.seated
      refine ⟨r₂, hrec₁.trans hrec₂, ht₂.weaken (fun n hn => .inl ?_)⟩
      rw [State.Proposes, hrec₁.same.positions]
      obtain hn | ⟨hn, hpn⟩ := hn
      · exact .inl (.inl hn)
      · obtain rfl | hn := List.mem_cons.mp hn
        · exact .inl (.inr rfl)
        · exact .inr ⟨hn, hpn⟩
    · have hgot : gotVote env set s m = s := by
        rw [gotVote]
        cases hp : s.currPeerPositions_.lookup m with
        | none => rfl
        | some p => exact if_neg (fun hpos => hm ⟨p, hp, hpos⟩)
      rw [hgot]
      obtain ⟨r₂, hrec₂, ht₂⟩ := ih hset h hr
      refine ⟨r₂, hrec₂, ht₂.weaken (fun n hn => .inl ?_)⟩
      obtain hn | ⟨hn, hpn⟩ := hn
      · exact .inl hn
      · obtain rfl | hn := List.mem_cons.mp hn
        · exact absurd hpn hm
        · exact .inr ⟨hn, hpn⟩

theorem Tally.acquire (h : Tally env (fun _ => True) s r.toStance) :
    Tally env (fun n => ¬ s.Proposes n (env.setID set))
      { s with acquired_ := s.acquired_.insert (env.setID set) set } r.toStance := by
  have hpr : ∀ n, ¬ s.Proposes n (env.setID set) →
      { s with acquired_ := s.acquired_.insert (env.setID set) set }.proposed n = s.proposed n := by
    intro n hn
    simp only [State.proposed]
    cases hp : s.currPeerPositions_.lookup n with
    | none => rfl
    | some p =>
      rw [Option.bind_some, Option.bind_some, HashMap.lookup_insert_eq]
      exact if_neg (fun hpos => hn ⟨p, hp, hpos⟩)
  refine ⟨fun tx d hd => (h.entries tx d hd).congr rfl, h.compared, fun n set' hn hset' => ?_,
    fun n set' hn hset' => ?_⟩
  · rw [hpr n hn] at hset'
    exact h.peers n set' trivial hset'
  · rw [hpr n hn] at hset'
    exact h.votes n set' trivial hset'

/-- All peers that propose a new set have voted. -/
theorem gotVotes_tally (henv : env.Lawful) (order : List N)
    (ho : ∀ n ∈ s.currPeerPositions_, n ∈ order)
    (hset : s.acquired_.lookup (env.setID set) = some set)
    (h : Tally env (fun n => ¬ s.Proposes n (env.setID set)) s r.toStance)
    (hr : s.result_ = some r) : ∃ r', Recount s r (order.foldl (gotVote env set) s) r' ∧
      Tally env (fun _ => True) (order.foldl (gotVote env set) s) r'.toStance := by
  obtain ⟨r', hrec, ht⟩ := gotVote_foldl henv order hset h hr
  refine ⟨r', hrec, ht.weaken (fun n _ => .inl ?_)⟩
  by_cases hn : s.Proposes n (env.setID set)
  · obtain ⟨p, hp, -⟩ := id hn
    exact .inr ⟨ho n (Finmap.mem_of_lookup_eq_some hp), hn⟩
  · exact .inl hn

end Acquire

variable (env s)

structure Ours (r : Stance N T S I) : Prop where
  position : r.position.position = env.setID r.txns
  acquired : s.acquired_.lookup (env.setID r.txns) = some r.txns

structure Keyed : Prop where
  acquired : ∀ id set, s.acquired_.lookup id = some set → env.setID set = id
  peers : ∀ n p, s.currPeerPositions_.lookup n = some p → p.nodeID = n
  quiet : Quiet s

/-- What holds also while the table is being brought up to date. -/
structure Base : Prop extends Keyed env s where
  ours : ∀ r, s.result_ = some r → Ours env s r.toStance

structure Sound : Prop extends Base env s where
  tally : ∀ r, s.result_ = some r → Tally env (fun _ => True) s r.toStance

end Rippled.Consensus
