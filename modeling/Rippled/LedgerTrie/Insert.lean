import Rippled.LedgerTrie.Find

namespace Rippled.LedgerTrie

open List

open Ledger hiding id
open LawfulLedger

variable {L ID : Type} [Ledger L ID]

theorem add32_eq {a b : Nat} (h : a + b < 2 ^ 32) : add32 a b = a + b := Nat.mod_eq_of_lt h

theorem Node.supported_setParent (n : Node L) (p : Option Nat) :
    { n with parent := p }.supported = n.supported := by
  rw [supported_eq, supported_eq]
  rfl

theorem Node.addrs_setParent (n : Node L) (p : Option Nat) :
    { n with parent := p }.addrs = n.addrs := by
  rw [addrs_eq, addrs_eq]

theorem Node.Good.setParent {n : Node L} (h : n.Good) (p : Option Nat) :
    { n with parent := p }.Good := by
  have hl := h.here
  exact .of_children ⟨hl.end_le, hl.start, hl.history, hl.parent, hl.starts, hl.branch⟩ h.child

/-- What an insertion has made of the node where the search ended, once its span ends where the new
ledger departs. It stands for the same histories as before. The addresses from `next` up to `next'`
have been handed out. -/
structure Split (loc : Node L) (pos next : Nat) (loc' : Node L) (next' : Nat) : Prop where
  addr : loc'.addr = loc.addr
  parent : loc'.parent = loc.parent
  start : loc'.span.start_ = loc.span.start_
  stop : loc'.span.end_ = pos
  ledger : loc'.span.ledger_ = loc.span.ledger_
  branch : loc'.branchSupport = loc.branchSupport
  children : loc.Compressed → loc'.tipSupport = 0 → 1 ≤ loc'.children.length
  good : loc'.Good
  supported : loc'.supported = loc.supported
  next_le : next ≤ next'
  addrs : loc'.addrs.Perm (List.range' next (next' - next) ++ loc.addrs)

def oldChild (loc : Node L) (next : Nat) {pos : Nat} (h : pos < loc.span.end_) : Node L :=
  ⟨next, some loc.addr, ⟨pos, loc.span.end_, loc.span.ledger_, h⟩, loc.tipSupport,
    loc.branchSupport, loc.children.map (fun c => { c with parent := some next })⟩

variable {loc : Node L} {pos : Nat}

theorem splitOld_eq (next : Nat) (h1 : loc.span.start_ < pos) (h2 : pos < loc.span.end_) :
    splitOld loc next (loc.span.before pos) (loc.span.fromSpot pos) =
      (⟨loc.addr, loc.parent, ⟨loc.span.start_, pos, loc.span.ledger_, h1⟩, 0, loc.branchSupport,
        [oldChild loc next h2]⟩, next + 1) := by
  rw [loc.span.before_eq h1 h2.le, loc.span.fromSpot_eq h1.le h2, splitOld, Option.getD_some]
  rfl

theorem oldChild_good (hg : loc.Good) (next : Nat) (h : pos < loc.span.end_) :
    (oldChild loc next h).Good := by
  have hl := hg.here
  have hmem : ∀ d ∈ (oldChild loc next h).children,
      ∃ c ∈ loc.children, d = { c with parent := some next } := by
    intro d hd
    obtain ⟨c, hc, rfl⟩ := mem_map.mp hd
    exact ⟨c, hc, rfl⟩
  refine .of_children ⟨hl.end_le, ?_, ?_, ?_, ?_, ?_⟩ ?_
  · intro d hd
    obtain ⟨c, hc, rfl⟩ := hmem d hd
    exact hl.start c hc
  · intro d hd
    obtain ⟨c, hc, rfl⟩ := hmem d hd
    exact hl.history c hc
  · intro d hd
    obtain ⟨c, _, rfl⟩ := hmem d hd
    rfl
  · exact pairwise_map.mpr hl.starts
  · rw [oldChild, map_map]
    exact hl.branch
  · intro d hd
    obtain ⟨c, hc, rfl⟩ := hmem d hd
    exact ⟨(hg.child c hc).1.setParent _, (hg.child c hc).2⟩

variable {next : Nat}

section

variable (loc next) (h : pos < loc.span.end_)

theorem oldChild_supported : (oldChild loc next h).supported = loc.supported := by
  rw [Node.supported_eq, Node.supported_eq, oldChild, map_map]
  congr 2
  exact map_congr_left (fun c _ => c.supported_setParent _)

theorem oldChild_addrs : (oldChild loc next h).addrs = next :: loc.children.flatMap Node.addrs := by
  rw [Node.addrs_eq, oldChild, flatMap_map]
  congr 2
  exact funext (fun c => c.addrs_setParent _)

end

theorem splitOld_split (hg : loc.Good) (next : Nat) (h1 : loc.span.start_ < pos)
    (h2 : pos ≤ loc.span.end_) (hcm : pos < loc.span.end_ → loc.Compressed) :
    Split loc pos next (splitOld loc next (loc.span.before pos) (loc.span.fromSpot pos)).1
      (splitOld loc next (loc.span.before pos) (loc.span.fromSpot pos)).2 := by
  rcases Nat.lt_or_ge pos loc.span.end_ with hlt | hge
  · rw [splitOld_eq next h1 hlt]
    refine ⟨rfl, rfl, rfl, rfl, rfl, rfl, fun _ _ => le_rfl, ?_, ?_, Nat.le_succ _, ?_⟩
    · refine .of_children ⟨h2.trans hg.here.end_le, ?_, ?_, ?_, ?_, ?_⟩ ?_
      · simp [oldChild]
      · simp [Node.key, oldChild]
      · simp [oldChild]
      · simp
      · simp [oldChild]
      · intro c hc
        rw [mem_singleton.mp hc]
        refine ⟨oldChild_good hg next hlt, fun h0 => ?_⟩
        simpa [oldChild] using hcm hlt h0
    · rw [Node.supported_eq]
      simp [oldChild_supported]
    · rw [Node.addrs_eq, loc.addrs_eq]
      simp only [flatMap_cons, flatMap_nil, append_nil, oldChild_addrs,
        Nat.add_sub_cancel_left, range'_one, singleton_append]
      exact List.Perm.swap _ _ _
  · have hpos := le_antisymm h2 hge
    rw [loc.span.fromSpot_eq_none hge, splitOld]
    refine ⟨rfl, rfl, rfl, hpos.symm, rfl, rfl, fun hc h0 => ?_, hg, rfl, le_rfl, by simp⟩
    exact one_le_two.trans (hc h0)

/-- The node that ends where the ledger departs, once it has received the support itself or in a new
child for the rest of the ledger. -/
def withSupport (loc : Node L) (next count : Nat) : Option (Span L) → Node L × Nat
  | none => ({ loc with
      tipSupport := add32 loc.tipSupport count
      branchSupport := add32 loc.branchSupport count }, next)
  | some rest => ({ loc with
      branchSupport := add32 loc.branchSupport count
      children := loc.children ++
        [⟨next, some loc.addr, rest, add32 0 count, add32 0 count, []⟩] }, next + 1)

variable {fs : List (Frame L)}

theorem addNew_eq (count : Nat) (rest : Option (Span L)) {next : Nat}
    (hn : (loc.addrs ++ ctxAddrs fs).Nodup) (hf : ∀ a ∈ loc.addrs ++ ctxAddrs fs, a < next)
    (hl : Linked fs loc) : let r := addNew loc next rest
    let root := (plug fs r.1).modify r.2.1
      (fun n => { n with tipSupport := add32 n.tipSupport count })
    updateBranch (fun b => add32 b count) root.nodes.length root (some r.2.1) =
      plug (fs.map (Frame.update (fun b => add32 b count))) (withSupport loc next count rest).1 ∧
    r.2.2 = (withSupport loc next count rest).2 := by
  cases rest with
  | none =>
    refine ⟨?_, rfl⟩
    have hnot : loc.addr ∉ ctxAddrs fs := fun hm =>
      disjoint_of_nodup_append hn (Node.addr_mem_addrs loc.mem_nodes_self) hm
    simp only [addNew]
    rw [modify_plug _ hnot]
    refine updateBranch_plug (n := { loc with tipSupport := add32 loc.tipSupport count }) _ _
      (length_lt_nodes_plug _ _) ?_ (linked_congr hl rfl)
    rw [(addrs_plug _ _).nodup_iff, Node.addrs_eq]
    rwa [loc.addrs_eq] at hn
  | some rest =>
    refine ⟨?_, rfl⟩
    let f : Frame L := ⟨loc.addr, loc.parent, loc.span, loc.tipSupport, loc.branchSupport,
      loc.children, []⟩
    let new : Node L := ⟨next, some loc.addr, rest, 0, 0, []⟩
    have hctx : ctxAddrs (f :: fs) = loc.addrs ++ ctxAddrs fs := by
      simp [ctxAddrs, Frame.addrs, f, loc.addrs_eq]
    have hnot : new.addr ∉ ctxAddrs (f :: fs) := fun hm =>
      lt_irrefl next (hf next (hctx ▸ hm))
    have hmod := modify_plug (fun n => { n with tipSupport := add32 n.tipSupport count }) hnot
    simp only [addNew]
    change updateBranch _ ((plug (f :: fs) new).modify new.addr _).nodes.length
      ((plug (f :: fs) new).modify new.addr _) (some new.addr) = _
    rw [hmod]
    have hn' : (plug (f :: fs) { new with tipSupport := add32 0 count }).addrs.Nodup := by
      rw [(addrs_plug _ _).nodup_iff, Node.addrs_eq, hctx]
      exact nodup_cons.mpr ⟨hctx ▸ hnot, hn⟩
    exact updateBranch_plug _ _ (length_lt_nodes_plug _ _) hn' ⟨rfl, linked_congr hl rfl⟩

theorem fromSpot_ledger {l : L} (hpos : pos ≤ seq l + 1) :
    (pos = seq l + 1 ∧ (Span.ofLedger l).fromSpot pos = none) ∨
    ∃ h : pos < seq l + 1, (Span.ofLedger l).fromSpot pos = some ⟨pos, seq l + 1, l, h⟩ := by
  rcases Nat.lt_or_ge pos (seq l + 1) with hlt | hge
  · exact .inr ⟨hlt, (Span.ofLedger l).fromSpot_eq (Nat.zero_le _) hlt⟩
  · exact .inl ⟨le_antisymm hpos hge, (Span.ofLedger l).fromSpot_eq_none hge⟩

variable {loc' : Node L} {l : L} {next' count : Nat}

section Grown

structure Grown (loc : Node L) (pos next : Nat) (l : L) (count : Nat) (grown : Node L) (next' : Nat) :
    Prop where
  parent : grown.parent = loc.parent
  start : grown.span.start_ = loc.span.start_
  stop : grown.span.end_ = pos
  ledger : grown.span.ledger_ = loc.span.ledger_
  branch : grown.branchSupport = loc.branchSupport + count
  good : grown.Good
  compressed : loc.Compressed → grown.Compressed
  supported : grown.supported = loc.supported + Multiset.replicate count (chain l)
  next_le : next ≤ next'
  addrs : grown.addrs.Perm (List.range' next (next' - next) ++ loc.addrs)

variable (hs : Split loc pos next loc' next')

include hs

theorem withSupport_none_grown (hc : 0 < count) (hbn : loc.branchSupport + count < 2 ^ 32)
    (hkey : loc'.key = chain l) : Grown loc pos next l count (withSupport loc' next' count none).1
      (withSupport loc' next' count none).2 := by
  have hl := hs.good.here
  have hb : add32 loc'.branchSupport count = loc.branchSupport + count := by
    rw [hs.branch, add32_eq hbn]
  have htip : add32 loc'.tipSupport count = loc'.tipSupport + count := by
    refine add32_eq ?_
    have h1 := hl.branch
    have h2 := hs.branch
    omega
  refine ⟨hs.parent, hs.start, hs.stop, hs.ledger, hb, ?_, ?_, ?_, hs.next_le, ?_⟩
  · refine .of_children ⟨hl.end_le, hl.start, hl.history, hl.parent, hl.starts, ?_⟩ hs.good.child
    simp only [withSupport, hb, htip]
    rw [← hs.branch, hl.branch]
    omega
  · intro _ h0
    simp only [withSupport, htip] at h0
    omega
  · rw [← hs.supported, Node.supported_eq, loc'.supported_eq, ← hkey]
    simp only [withSupport, Node.key, htip, Multiset.replicate_add]
    exact add_right_comm _ _ _
  · rw [Node.addrs_eq]
    simp only [withSupport]
    rw [← Node.addrs_eq]
    exact hs.addrs

theorem withSupport_some_grown (hcn : 0 < count) (hb : loc.branchSupport + count < 2 ^ 32)
    (hpos : pos < seq l + 1) (hh : hist loc.span.ledger_ pos = hist l pos)
    (hst : ∀ c ∈ loc'.children, c.span.startID ≠ ancestor l pos) :
    Grown loc pos next l count (withSupport loc' next' count (some ⟨pos, seq l + 1, l, hpos⟩)).1
      (withSupport loc' next' count (some ⟨pos, seq l + 1, l, hpos⟩)).2 := by
  have hl := hs.good.here
  have hbr : add32 loc'.branchSupport count = loc.branchSupport + count := by
    rw [hs.branch, add32_eq hb]
  have hz : add32 0 count = count := by
    rw [add32_eq (by omega), Nat.zero_add]
  have hn := hs.next_le
  have hch : ∀ {P : Node L → Prop}, (∀ c ∈ loc'.children, P c) →
      P ⟨next', some loc'.addr, ⟨pos, seq l + 1, l, hpos⟩, count, count, []⟩ →
      ∀ c ∈ loc'.children ++
        [⟨next', some loc'.addr, ⟨pos, seq l + 1, l, hpos⟩, count, count, []⟩], P c := by
    intro P hold hnew c hc
    rcases mem_append.mp hc with hc | hc
    · exact hold c hc
    · rwa [mem_singleton.mp hc]
  simp only [withSupport, hz, hbr]
  refine ⟨hs.parent, hs.start, hs.stop, hs.ledger, rfl, ?_, ?_, ?_, hn.trans (Nat.le_succ _), ?_⟩
  · refine .of_children ⟨hl.end_le, hch hl.start hs.stop.symm, hch hl.history ?_,
      hch hl.parent rfl, ?_, ?_⟩ (hch hs.good.child ⟨?_, ?_⟩)
    · simp only [Node.key]
      rw [hs.stop, hs.ledger, hh]
    · refine pairwise_append.mpr ⟨hl.starts, by simp, fun c hc d hd => ?_⟩
      rw [mem_singleton.mp hd]
      exact hst c hc
    · simp only [map_append, sum_append, map_singleton, sum_singleton]
      rw [← hs.branch, hl.branch]
      omega
    · exact .of_children ⟨le_rfl, by simp, by simp, by simp, by simp, by simp⟩ (by simp)
    · intro h0
      simp only at h0
      omega
  · intro hc h0
    have := hs.children hc h0
    simp only [length_append, length_singleton]
    omega
  · rw [← hs.supported, Node.supported_eq, loc'.supported_eq]
    simp only [map_append, sum_append, map_singleton, sum_singleton]
    rw [Node.supported_eq ⟨next', _, _, _, _, _⟩]
    simp [Node.key, chain, add_assoc]
  · rw [Node.addrs_eq]
    simp only [flatMap_append, flatMap_singleton]
    rw [Node.addrs_eq ⟨next', _, _, _, _, _⟩, ← cons_append, ← Node.addrs_eq,
      Nat.succ_sub hn, range'_concat, Nat.one_mul, Nat.add_sub_cancel' hn,
      append_assoc, singleton_append]
    refine (perm_append_singleton next' loc'.addrs).trans ?_
    exact (hs.addrs.cons next').trans perm_middle.symm

end Grown

theorem nodup_append_fresh {next next' : Nat} {as as' ctx : List Nat}
    (hp : as'.Perm (List.range' next (next' - next) ++ as)) (hle : next ≤ next')
    (h : (as ++ ctx).Nodup ∧ ∀ a ∈ as ++ ctx, a < next) :
    (as' ++ ctx).Nodup ∧ ∀ a ∈ as' ++ ctx, a < next' := by
  have hp' := hp.append_right ctx
  rw [append_assoc] at hp'
  refine ⟨hp'.nodup_iff.mpr ?_, fun a ha => ?_⟩
  · refine nodup_append'.mpr ⟨nodup_range', h.1, fun a ha ha' => ?_⟩
    exact absurd (h.2 a ha') (not_lt.mpr (mem_range'_1.mp ha).1)
  rcases mem_append.mp (hp'.mem_iff.mp ha) with ha | ha
  · have := (mem_range'_1.mp ha).2
    omega
  · exact (h.2 a ha).trans_le hle

theorem Trie.Inv.insert_root (count : Nat) {t : Trie L} {l : L} (h : t.Inv)
    (hf : t.find l = (loc, pos)) (hfs : t.root = plug fs loc)
    (hs : Split loc pos t.next (splitOld loc t.next (loc.span.before pos) (loc.span.fromSpot pos)).1 (splitOld loc t.next (loc.span.before pos) (loc.span.fromSpot pos)).2) :
    let r := splitOld loc t.next (loc.span.before pos) (loc.span.fromSpot pos)
    let w := withSupport r.1 r.2 count ((Span.ofLedger l).fromSpot pos)
    (t.insert l count).root = plug (fs.map (Frame.update (fun b => add32 b count))) w.1 ∧
      (t.insert l count).next = w.2 := by
  intro r w
  have ha := h.addrs_ctx hfs
  have hnot : loc.addr ∉ ctxAddrs fs := fun hm =>
    disjoint_of_nodup_append ha.1 (Node.addr_mem_addrs loc.mem_nodes_self) hm
  obtain ⟨hn, hfr⟩ := nodup_append_fresh hs.addrs hs.next_le ha
  have hl := linked_of_ctxOk (good_plug.mp (hfs ▸ h.good)).2.2 (hfs ▸ h.root_parent)
  have hmod := modify_plug (fun _ => (addNew r.1 r.2 ((Span.ofLedger l).fromSpot pos)).1) hnot
  have hadd := addNew_eq count ((Span.ofLedger l).fromSpot pos) hn hfr (linked_congr hl hs.parent)
  rw [Trie.insert, hf, hfs]
  simp only
  rw [hmod]
  exact hadd

section Lawful

variable [LawfulLedger L] {root : Node L}

theorem splitOld_startID_ne (hloc : Located root l loc pos) (hg : loc.Good) (hseq : pos ≤ seq l)
    {c : Node L}
    (hc : c ∈ (splitOld loc next (loc.span.before pos) (loc.span.fromSpot pos)).1.children) :
    c.span.startID ≠ ancestor l pos := by
  rcases Nat.lt_or_ge pos loc.span.end_ with hlt | hge
  · rw [splitOld_eq next hloc.through hlt] at hc
    rw [mem_singleton.mp hc]
    exact hloc.ancestor_ne hg.here.end_le hlt hseq
  · rw [loc.span.fromSpot_eq_none hge, splitOld] at hc
    exact hloc.startID_ne hg (le_antisymm hloc.pos_le_end hge) hc hseq

theorem withSupport_grown (next : Nat) (hloc : Located root l loc pos) (hg : loc.Good) (hcn : 0 < count)
    (hb : loc.branchSupport + count < 2 ^ 32) (hcm : pos < loc.span.end_ → loc.Compressed) :
    let r := splitOld loc next (loc.span.before pos) (loc.span.fromSpot pos)
    Grown loc pos next l count (withSupport r.1 r.2 count ((Span.ofLedger l).fromSpot pos)).1
      (withSupport r.1 r.2 count ((Span.ofLedger l).fromSpot pos)).2 := by
  intro r
  have hs := splitOld_split hg next hloc.through hloc.pos_le_end hcm
  rcases fromSpot_ledger hloc.pos_le_seq with ⟨hpos, hr⟩ | ⟨hpos, hr⟩
  · rw [hr]
    refine withSupport_none_grown hs hcn hb ?_
    rw [Node.key, hs.stop, hs.ledger, hloc.hist_eq, hpos, chain]
  · rw [hr]
    exact withSupport_some_grown hs hcn hb hpos hloc.hist_eq
      (fun c hc => splitOld_startID_ne hloc hg (Nat.lt_succ_iff.mp hpos) hc)

theorem Trie.Inv.insert {t : Trie L} (h : t.Inv) (l : L) (hcn : 0 < count)
    (hb : t.root.branchSupport + count < 2 ^ 32) :
    (t.insert l count).Inv ∧ (t.insert l count).root.supported =
      t.root.supported + Multiset.replicate count (chain l) := by
  cases hf : t.find l with
  | mk loc pos =>
    have hloc : Located t.root l loc pos := by simpa [hf] using h.find_located l
    obtain ⟨fs, hfs⟩ := exists_plug hloc.mem
    obtain ⟨hg, hc, hctx⟩ := good_plug.mp (hfs ▸ h.good)
    have hle := hfs ▸ branch_le_plug hctx
    have hr : fs = [] → pos = loc.span.end_ := by
      rintro rfl
      have hend := h.root_end
      have ht := hloc.through
      have hpos := hloc.pos_le_end
      rw [hfs, plug] at hend
      omega
    have hlt : pos < loc.span.end_ → loc.Compressed := fun hlt =>
      hc (fun hnil => hlt.ne (hr hnil))
    have hs := splitOld_split hg t.next hloc.through hloc.pos_le_end hlt
    have hgr := withSupport_grown t.next hloc hg hcn (by omega) hlt
    obtain ⟨hins, hn⟩ := h.insert_root count hf hfs hs
    obtain ⟨hnd, hfr⟩ := nodup_append_fresh hgr.addrs hgr.next_le (h.addrs_ctx hfs)
    refine ⟨h.replace (fun b => add32 b count) hfs hins hgr.good
      (fun hne => hgr.compressed (hc hne)) ⟨hgr.parent, hgr.start, ?_⟩ ?_ ?_ hnd
      ?_ ?_, ?_⟩
    · rw [hgr.ledger]
    · exact fun hnil => Span.ext hgr.start (hgr.stop.trans (hr hnil)) hgr.ledger
    · intro k hk
      rw [hgr.branch, add32_eq (by omega)]
      omega
    · intro a ha
      rw [hn]
      exact hfr a (mem_append_left _ ha)
    · exact hn ▸ hgr.next_le
    · rw [hins, hfs, supported_plug, supported_plug, ctxSupported_update, hgr.supported]
      exact add_right_comm _ _ _

end Lawful

end Rippled.LedgerTrie
