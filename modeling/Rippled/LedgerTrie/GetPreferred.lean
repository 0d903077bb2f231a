import Rippled.LedgerTrie.Preferred

namespace Rippled.LedgerTrie

open List

open Ledger hiding id
open Lib

variable {L ID : Type} [Ledger L ID] {root n : Node L}

structure Reordered (n n' : Node L) : Prop where
  addr : n'.addr = n.addr
  parent : n'.parent = n.parent
  span : n'.span = n.span
  tip : n'.tipSupport = n.tipSupport
  branch : n'.branchSupport = n.branchSupport
  length : n'.children.length = n.children.length
  good : n'.Good
  supported : n'.supported = n.supported
  addrs : n'.addrs.Perm n.addrs

theorem Reordered.refl (h : n.Good) : Reordered n n :=
  ⟨rfl, rfl, rfl, rfl, rfl, rfl, h, rfl, List.Perm.refl _⟩

theorem Reordered.of_child {b b' : Node L} {others : List (Node L)} (h : n.Good)
    (hpr : (b :: others).Perm n.children) (hb : Reordered b b') :
    Reordered n { n with children := b' :: others } := by
  have hp := h.perm hpr
  let f : Frame L := ⟨n.addr, n.parent, n.span, n.tipSupport, n.branchSupport, [], others⟩
  have hpl : (f.plug b).Good := hp
  obtain ⟨_, hc, hf⟩ := good_frame_plug.mp hpl
  have hc' : b'.Compressed := by
    rw [Node.Compressed, hb.tip, hb.length]
    exact hc
  have hctx : CtxOk [f] b' := CtxOk.congr ⟨hf, fun hne => absurd rfl hne, trivial⟩
    ⟨hb.parent, by rw [hb.span], by rw [hb.span]⟩ hb.branch
  have hlen := hpr.length_eq
  refine ⟨rfl, rfl, rfl, rfl, rfl, by simpa using hlen,
    (good_frame_plug (f := f)).mpr ⟨hb.good, hc', hctx.1⟩, ?_, ?_⟩
  · rw [Node.supported_eq, ← Node.supported_perm hpr, Node.supported_eq { n with children := _ }]
    simp only [map_cons, sum_cons, hb.supported]
    rfl
  · refine List.Perm.trans ?_ (Node.addrs_perm hpr)
    rw [Node.addrs_eq, Node.addrs_eq { n with children := b :: others }]
    simp only [flatMap_cons]
    exact (hb.addrs.append_right _).cons _

variable [LinearOrder ID] {largestIssued : Nat} {it : List (Nat × Nat)} {total : Nat}

section Span

variable (hg : root.Good) (hn : n ∈ root.nodes) (hpos : 0 < n.branchSupport)
include hg hn hpos

theorem step_inside {p : Nat} (h1 : n.span.start_ < p) (h2 : p < n.span.end_) :
    step root.supported largestIssued (hist n.span.ledger_ p) =
      if uncommitted root.supported largestIssued p < n.branchSupport then
        some (hist n.span.ledger_ (p + 1)) else none := by
  rw [step, best_inside hg hn hpos h1 h2, hist_length]
  simp only [← hist_succ]
  refine if_congr ?_ rfl rfl
  omega

theorem walk_inside {p q : Nat} (h1 : n.span.start_ < p) (hpq : p ≤ q) (h2 : q ≤ n.span.end_)
    (hu : ∀ s, p ≤ s → s < q → uncommitted root.supported largestIssued s < n.branchSupport) :
    plainWalk root.supported largestIssued (hist n.span.ledger_ p) =
      plainWalk root.supported largestIssued (hist n.span.ledger_ q) := by
  induction q, hpq using Nat.le_induction with
  | base => rfl
  | succ q hq ih =>
    rw [ih (Nat.le_of_succ_le h2) (fun s hs hlt => hu s hs (hlt.trans (Nat.lt_succ_self q)))]
    refine plainWalk_of_some ?_
    rw [step_inside hg hn hpos (h1.trans_le hq) h2, if_pos (hu q hq (Nat.lt_succ_self q))]

structure Advanced (n : Node L) (largestIssued nextSeq : Nat) (S : Multiset (List ID)) (stop : Nat)
    (it : List (Nat × Nat)) (total : Nat) : Prop where
  ge : nextSeq ≤ stop
  le : stop ≤ n.span.end_
  pending : Pending S (max stop largestIssued) it total
  stuck : stop < n.span.end_ → n.branchSupport ≤ total
  walk : plainWalk S largestIssued (hist n.span.ledger_ nextSeq) =
    plainWalk S largestIssued (hist n.span.ledger_ stop)

/-- A jump over sequence numbers at which no support ends. -/
theorem walk_jump {nextSeq q : Nat} (h1 : n.span.start_ < nextSeq) (hq : nextSeq ≤ q)
    (h2 : q ≤ n.span.end_) (h : Pending root.supported (max nextSeq largestIssued) it total)
    (hit : ∀ e ∈ it, q ≤ e.1 + 1) (hu : total < n.branchSupport) :
    plainWalk root.supported largestIssued (hist n.span.ledger_ nextSeq) =
      plainWalk root.supported largestIssued (hist n.span.ledger_ q) := by
  refine walk_inside hg hn hpos h1 hq h2 (fun s hs hlt => ?_)
  have hsk := h.skip hg.supported_ne_nil (max_le_max_right largestIssued hs) (fun e he => ?_)
  · exact lt_of_eq_of_lt hsk.total_eq.symm hu
  · have := hit e he
    exact max_le (by omega) ((le_max_right _ _).trans (h.ge e he))

theorem advanceSpan_advanced (hb : root.supported.card < 2 ^ 32) {nextSeq : Nat}
    (h1 : n.span.start_ < nextSeq) (h2 : nextSeq ≤ n.span.end_)
    (h : Pending root.supported (max nextSeq largestIssued) it total) :
    let r := advanceSpan n.span.end_ n.branchSupport it nextSeq total
    Advanced n largestIssued nextSeq root.supported r.1 r.2.1 r.2.2 := by
  induction it generalizing nextSeq total with
  | nil =>
    rw [advanceSpan]
    split_ifs with hc
    · exact ⟨h2, le_rfl, h.skip hg.supported_ne_nil (max_le_max_right _ h2) (by simp),
        fun hlt => absurd hlt (lt_irrefl _),
        walk_jump hg hn hpos h1 h2 le_rfl h (by simp) hc.2⟩
    · exact ⟨le_rfl, h2, h, fun hlt => not_lt.mp (fun hu => hc ⟨hlt, hu⟩), rfl⟩
  | cons e it ih =>
    rw [advanceSpan]
    have hge := h.ge e (by simp)
    have ht := (pairwise_cons.mp h.sorted).1
    split_ifs with hc he
    · have hpop := h.pop hg.supported_ne_nil
      have hcr := endedBelow_le_card root.supported (e.1 + 1)
      rw [← hpop.total_eq] at hcr
      have hnx : nextSeq ≤ e.1 + 1 := by omega
      have hmax : max (e.1 + 1) largestIssued = e.1 + 1 := max_eq_left (by omega)
      have hw := walk_jump hg hn hpos h1 hnx he h (fun d hd => by
        rcases mem_cons.mp hd with rfl | hd
        · exact le_rfl
        · exact Nat.succ_le_succ (ht d hd).le) hc.2
      rw [add32_eq (by omega)]
      have hrec := ih (h1.trans_le hnx) he (hmax.symm ▸ hpop)
      exact ⟨hnx.trans hrec.ge, hrec.le, hrec.pending, hrec.stuck, hw.trans hrec.walk⟩
    · have hall : ∀ d ∈ e :: it, n.span.end_ ≤ d.1 := fun d hd => by
        rcases mem_cons.mp hd with rfl | hd
        · exact not_lt.mp he
        · exact (not_lt.mp he).trans (ht d hd).le
      refine ⟨h2, le_rfl, h.skip hg.supported_ne_nil (max_le_max_right _ h2) (fun d hd => ?_),
        fun hlt => absurd hlt (lt_irrefl _),
        walk_jump hg hn hpos h1 h2 le_rfl h (fun d hd => (hall d hd).trans (Nat.le_succ _)) hc.2⟩
      exact max_le (hall d hd) ((le_max_right _ _).trans (h.ge d hd))
    · exact ⟨le_rfl, h2, h, fun hlt => not_lt.mp (fun hu => hc ⟨hlt, hu⟩), rfl⟩

end Span

/-- The walk of the source from a node, over spans and along the sequence support, ends where the
plain walk does. -/
theorem preferFrom_spec (hg : root.Good) (hbd : root.supported.card < 2 ^ 32)
    (hn : n ∈ root.nodes) (hpos : 0 < n.branchSupport) {fuel bound : Nat}
    (hf : n.nodes.length ≤ fuel) (h : Pending root.supported bound it total)
    (hle : bound ≤ max (n.span.start_ + 1) largestIssued) :
    ∃ tip n', preferFrom largestIssued fuel n it total = some (tip, n') ∧ Reordered n n' ∧
      hist tip.ledger (tip.seq + 1) = plainWalk root.supported largestIssued n.entry ∧
      tip.id = ancestor tip.ledger tip.seq ∧ tip.seq ≤ seq tip.ledger := by
  induction fuel generalizing n bound it total with
  | zero =>
    rw [n.nodes_eq, length_cons] at hf
    omega
  | succ fuel ih =>
    have hng := hg.of_mem hn
    have hsm : n.branchSupport < 2 ^ 32 := by
      rw [← hg.countP_isPrefix hn n.entry_prefix_key prefix_rfl]
      exact (Multiset.countP_le_card _ _).trans_lt hbd
    have hadd := addUncommitted_pending h hg.supported_ne_nil hle hbd
    have hadv := advanceSpan_advanced hg hn hpos hbd (Nat.lt_succ_self _) n.span.nonempty hadd
    rw [preferFrom]
    simp only
    generalize addUncommitted (max (n.span.start_ + 1) largestIssued) it total = added at hadv ⊢
    generalize advanceSpan n.span.end_ n.branchSupport added.1 (n.span.start_ + 1) added.2 = adv
      at hadv ⊢
    obtain ⟨stop, it', total'⟩ := adv
    simp only at hadv ⊢
    have he : plainWalk root.supported largestIssued n.entry =
        plainWalk root.supported largestIssued (hist n.span.ledger_ stop) := hadv.walk
    have hu : uncommitted root.supported largestIssued stop = total' := hadv.pending.total_eq.symm
    have hs : n.span.start_ < stop := hadv.ge
    have hend := hng.here.end_le
    split_ifs with hlt
    · -- the walk stops inside the span
      have hnn : step root.supported largestIssued (hist n.span.ledger_ stop) = _ :=
        step_inside hg hn hpos hs hlt
      rw [if_neg (not_lt.mpr (hu.symm ▸ hadv.stuck hlt))] at hnn
      rw [n.span.before_eq hs hadv.le]
      refine ⟨_, n, rfl, .refl hng, ?_, rfl, ?_⟩
      · simp only [Span.tip]
        rw [Nat.sub_add_cancel (Nat.one_le_of_lt hs), he, plainWalk_of_none hnn]
      · simp only [Span.tip]
        omega
    · have hsp := le_antisymm hadv.le (not_lt.mp hlt)
      subst hsp
      have hkey : hist n.span.ledger_ n.span.end_ = n.key := rfl
      have htip : hist n.span.tip.ledger (n.span.tip.seq + 1) = n.key := by
        simp only [Span.tip]
        rw [Nat.sub_add_cancel (Nat.one_le_of_lt hs), Node.key]
      have hseq : n.span.tip.seq ≤ seq n.span.tip.ledger := by
        simp only [Span.tip]
        omega
      rw [hkey] at he
      have hlen : n.key.length = n.span.end_ := by rw [Node.key, hist_length]
      rcases bestChild_spec hg hn hsm with ⟨_, hb, hbs⟩ | ⟨b, margin, others, hb, hp, hbs⟩
      · have hnn : step root.supported largestIssued n.key = none := by rw [step, hbs]
        rw [hb]
        exact ⟨_, n, rfl, .refl hng, by rw [htip, he, plainWalk_of_none hnn], rfl, hseq⟩
      have hst : step root.supported largestIssued n.key =
          if total' < margin ∨ total' = 0 then some (n.key ++ [b.span.startID]) else none := by
        rw [step, hbs, hlen]
        simp only [hu]
      rw [hb]
      simp only
      split_ifs with hm
      · have hmem : b ∈ n.children := hp.mem_iff.mp (by simp)
        have hbg := hng.child b hmem
        have hsr := hng.here.start b hmem
        have hbn : b.nodes.length ≤ fuel := by
          rw [n.nodes_eq, length_cons, length_flatMap] at hf
          have := single_le_sum (fun _ _ => Nat.zero_le _) _
            (mem_map_of_mem (f := fun c : Node L => c.nodes.length) hmem)
          omega
        obtain ⟨tip, b', hrec, hre, hh, hid, hseq'⟩ := ih (Node.mem_nodes_child hn hmem)
          (hbg.1.branch_pos hbg.2) hbn hadv.pending
          (max_le_max_right _ (by rw [hsr]; exact Nat.le_succ _))
        rw [if_pos hm] at hst
        rw [hrec]
        refine ⟨tip, _, rfl, .of_child hng hp hre, ?_, hid, hseq'⟩
        rw [hh, he, plainWalk_of_some hst, hng.here.entry_eq hmem]
      · rw [if_neg hm] at hst
        exact ⟨_, _, rfl, .of_child hng hp (.refl (hng.child b (hp.mem_iff.mp (by simp))).1),
          by rw [htip, he, plainWalk_of_none hst], rfl, hseq⟩

namespace Trie

variable {t : Trie L}

omit [LinearOrder ID] in
theorem Inv.empty_iff (h : t.Inv) : t.empty ↔ t.root.supported = 0 := by
  rw [empty, beq_iff_eq, ← Node.card_supported h.good, Multiset.card_eq_zero]

section

variable (h : t.Inv) (ht : Tallies t.seqSupport t.root.supported)
  (hb : t.root.supported.card < 2 ^ 32)

include h ht hb

theorem Inv.preferFrom_root (hne : t.root.supported ≠ 0) (largestIssued : Nat) :
    ∃ tip root', t.getPreferred largestIssued = (some tip, { t with root := root' }) ∧
      Reordered t.root root' ∧
      hist tip.ledger (tip.seq + 1) = plainWalk t.root.supported largestIssued t.root.entry ∧
      tip.id = ancestor tip.ledger tip.seq ∧ tip.seq ≤ seq tip.ledger := by
  have hpos : 0 < t.root.branchSupport := by
    rw [← Node.card_supported h.good]
    exact Multiset.card_pos.mpr hne
  obtain ⟨tip, root', hp, hr⟩ := preferFrom_spec h.good hb t.root.mem_nodes_self hpos
    le_rfl (pending_zero ht) (Nat.zero_le (max (t.root.span.start_ + 1) largestIssued))
  refine ⟨tip, root', ?_, hr⟩
  rw [getPreferred, if_neg (fun he => hne (h.empty_iff.mp he)), hp]

/-- The call leaves the trie as it was up to the order of the children. -/
theorem Inv.getPreferred (largestIssued : Nat) : (t.getPreferred largestIssued).2.Inv ∧
    (t.getPreferred largestIssued).2.root.supported = t.root.supported ∧
    (t.getPreferred largestIssued).2.seqSupport = t.seqSupport := by
  by_cases hne : t.root.supported = 0
  · rw [Trie.getPreferred, if_pos (h.empty_iff.mpr hne)]
    exact ⟨h, rfl, rfl⟩
  obtain ⟨tip, root', hp, hre, _⟩ := h.preferFrom_root ht hb hne largestIssued
  rw [hp]
  refine ⟨⟨hre.good, hre.addrs.nodup_iff.mpr h.nodup,
    fun a ha => h.fresh a (hre.addrs.mem_iff.mp ha), hre.parent.trans h.root_parent, ?_, ?_⟩,
    hre.supported, rfl⟩
  · exact (congrArg Span.start_ hre.span).trans h.root_start
  · exact (congrArg Span.end_ hre.span).trans h.root_end

end

variable [LawfulLedger L]

/-- On a trie with support the preferred ledger is where the plain walk from the genesis ledger over
the supported histories ends. -/
theorem Inv.getPreferred_walk (h : t.Inv) (ht : Tallies t.seqSupport t.root.supported)
    (hb : t.root.supported.card < 2 ^ 32) (hne : t.root.supported ≠ 0) (largestIssued : Nat) :
    ∃ tip, (t.getPreferred largestIssued).1 = some tip ∧ hist tip.ledger (tip.seq + 1) =
        plainWalk t.root.supported largestIssued [Ledger.id (makeGenesis : L)] ∧
      tip.id = ancestor tip.ledger tip.seq ∧ tip.seq ≤ seq tip.ledger := by
  obtain ⟨tip, root', hp, _, hw, hr⟩ := h.preferFrom_root ht hb hne largestIssued
  refine ⟨tip, by rw [hp], ?_, hr⟩
  rw [hw, Node.entry, h.root_start, chain_zero]

end Trie

end Rippled.LedgerTrie
