import Rippled.LedgerTrie.Insert

namespace Rippled.LedgerTrie

open List

open Ledger hiding id
open LawfulLedger

variable {L ID : Type} [Ledger L ID]

theorem sub32_eq {a b : Nat} (hle : b ≤ a) (h : a < 2 ^ 32) : sub32 a b = a - b := by
  have he : a + 2 ^ 32 - b = (a - b) + 2 ^ 32 := by omega
  rw [sub32, he, Nat.add_mod_right, Nat.mod_eq_of_lt (by omega)]

variable {n : Node L}

namespace Node

variable {cs : List (Node L)}

theorem Good.perm (h : n.Good) (hp : cs.Perm n.children) : { n with children := cs }.Good := by
  have hl := h.here
  have hmem : ∀ c ∈ cs, c ∈ n.children := fun c hc => hp.mem_iff.mp hc
  refine .of_children ⟨hl.end_le, fun c hc => hl.start c (hmem c hc),
    fun c hc => hl.history c (hmem c hc), fun c hc => hl.parent c (hmem c hc), ?_, ?_⟩
    (fun c hc => h.child c (hmem c hc))
  · exact (hp.pairwise_iff (fun hne => hne.symm)).mpr hl.starts
  · rw [(hp.map branchSupport).sum_eq]
    exact hl.branch

theorem supported_perm (hp : cs.Perm n.children) :
    { n with children := cs }.supported = n.supported := by
  rw [supported_eq, supported_eq, (hp.map supported).sum_eq]
  rfl

theorem addrs_perm (hp : cs.Perm n.children) : { n with children := cs }.addrs.Perm n.addrs := by
  rw [addrs_eq, addrs_eq]
  exact (hp.flatMap_right addrs).cons n.addr

end Node

theorem Frame.update_id : (Frame.update id : Frame L → Frame L) = id := rfl

variable {fs : List (Frame L)}

theorem CtxOk.congr {n' : Node L} (h : CtxOk fs n) (hp : SamePlace n n')
    (hb : n'.branchSupport = n.branchSupport) : CtxOk fs n' := by
  have hu := ctxOk_update id _ h hp le_rfl (fun k _ => by rw [hb, id])
  rwa [Frame.update_id, map_id] at hu

/-- The loop that compresses upwards stands at a node: everything is in order, except that the
node itself may have become superfluous. -/
structure Focus (fs : List (Frame L)) (n : Node L) : Prop where
  good : n.Good
  ctx : CtxOk fs n
  nodup : (n.addrs ++ ctxAddrs fs).Nodup
  root : (plug fs n).parent = none

/-- What compressing has to achieve for a trie that is in order apart from one node. -/
structure Tidied (root root' : Node L) : Prop where
  good : root'.Good
  supported : root'.supported = root.supported
  branch : root'.branchSupport = root.branchSupport
  nodup : root'.addrs.Nodup
  addrs : ∀ a ∈ root'.addrs, a ∈ root.addrs
  parent : root'.parent = root.parent
  span : root'.span = root.span

theorem Focus.deref (h : Focus fs n) : (plug fs n).deref n.addr = some n :=
  Node.deref_of_mem ((addrs_plug fs n).nodup_iff.mpr h.nodup) (mem_nodes_plug fs n.mem_nodes_self)

theorem Focus.tidied (h : Focus fs n) (hc : fs ≠ [] → n.Compressed) :
    Tidied (plug fs n) (plug fs n) :=
  ⟨good_plug.mpr ⟨h.good, hc, h.ctx⟩, rfl, rfl, (addrs_plug fs n).nodup_iff.mpr h.nodup,
    fun _ ha => ha, rfl, rfl⟩

/-- A node that has lost a superfluous child, or taken over the only child of that child. -/
structure Shrunk (n n' : Node L) : Prop where
  addr : n'.addr = n.addr
  parent : n'.parent = n.parent
  span : n'.span = n.span
  branch : n'.branchSupport = n.branchSupport
  good : n'.Good
  supported : n'.supported = n.supported
  addrs : n'.addrs.Subperm n.addrs

variable {f : Frame L}

section Shrunk

variable {m m' r : Node L}

theorem Shrunk.root (hs : Shrunk m m') (fs : List (Frame L)) :
    (plug fs m').parent = (plug fs m).parent ∧ (plug fs m').span = (plug fs m).span ∧
      (plug fs m').branchSupport = (plug fs m).branchSupport := by
  have hf : ∀ fs : List (Frame L), ∀ g : Frame L, ∀ k k' : Node L,
      (plug fs (g.plug k)).parent = (plug fs (g.plug k')).parent ∧
      (plug fs (g.plug k)).span = (plug fs (g.plug k')).span ∧
      (plug fs (g.plug k)).branchSupport = (plug fs (g.plug k')).branchSupport := by
    intro fs
    induction fs with
    | nil => exact fun g k k' => ⟨rfl, rfl, rfl⟩
    | cons f fs ih => exact fun g k k' => ih f (g.plug k) (g.plug k')
  cases fs with
  | nil => exact ⟨hs.parent, hs.span, hs.branch⟩
  | cons f fs => exact hf fs f m' m

theorem Shrunk.focus (hs : Shrunk (f.plug n) m) (h : Focus (f :: fs) n) : Focus fs m := by
  have hn := (addrs_plug (f :: fs) n).nodup_iff.mpr h.nodup
  rw [plug, (addrs_plug fs _).nodup_iff] at hn
  refine ⟨hs.good, h.ctx.2.2.congr ⟨hs.parent, ?_, ?_⟩ hs.branch, ?_, (hs.root fs).1.trans h.root⟩
  · rw [hs.span]
  · rw [hs.span]
  · obtain ⟨as, hp, hsub⟩ := (subperm_append_right (ctxAddrs fs)).mpr hs.addrs
    exact hp.nodup_iff.mp (hn.sublist hsub)

theorem Shrunk.tidied (hs : Shrunk m m') (ht : Tidied (plug fs m') r) : Tidied (plug fs m) r := by
  obtain ⟨hp, hsp, hb⟩ := hs.root fs
  refine ⟨ht.good, ?_, ht.branch.trans hb, ht.nodup, fun a ha => ?_, ht.parent.trans hp,
    ht.span.trans hsp⟩
  · rw [ht.supported, supported_plug, supported_plug, hs.supported]
  · have hsub := ((subperm_append_right (ctxAddrs fs)).mpr hs.addrs).subset
    exact (addrs_plug fs m).mem_iff.mpr (hsub ((addrs_plug fs m').mem_iff.mp (ht.addrs a ha)))

end Shrunk

theorem Focus.left_addr_ne (h : Focus (f :: fs) n) : ∀ d ∈ f.left, d.addr ≠ n.addr := by
  intro d hd he
  have hmem : d.addr ∈ ctxAddrs (f :: fs) := by
    simp only [ctxAddrs, flatMap_cons, Frame.addrs, mem_append, mem_cons,
      mem_flatMap]
    exact .inl (.inr (.inl ⟨d, hd, Node.addr_mem_addrs d.mem_nodes_self⟩))
  exact disjoint_of_nodup_append h.nodup (Node.addr_mem_addrs n.mem_nodes_self) (he ▸ hmem)

theorem erase_shrunk (h : Focus (f :: fs) n) (h0 : n.tipSupport = 0) (hcs : n.children = []) :
    Shrunk (f.plug n) ((f.plug n).erase n.addr) := by
  obtain ⟨cs, he, hp⟩ := Node.erase_perm (n := f.plug n) (c := n) rfl h.left_addr_ne
  have hb : n.branchSupport = 0 := by
    rw [h.good.here.branch, h0, hcs]
    rfl
  have hs : n.supported = 0 := by
    rw [n.supported_eq, h0, hcs]
    simp
  have hf := h.ctx.1
  have hl := hf.here
  have hmem : ∀ c ∈ f.left ++ f.right, c ∈ (f.plug n).children := by
    intro c hc
    rcases mem_append.mp hc with hc | hc <;> simp [Frame.plug, hc]
  have hg : Node.Good { f.plug n with children := f.left ++ f.right } := by
    refine .of_children ⟨hl.end_le, fun c hc => hl.start c (hmem c hc),
      fun c hc => hl.history c (hmem c hc), fun c hc => hl.parent c (hmem c hc), ?_, ?_⟩
      (fun c hc => hf.siblings c hc)
    · refine hl.starts.sublist ?_
      simp [Frame.plug]
    · rw [hl.branch]
      simp [Frame.plug, hb]
  rw [he]
  refine ⟨rfl, rfl, rfl, rfl, hg.perm hp, ?_, ?_⟩
  · rw [Node.supported_perm (n := { f.plug n with children := f.left ++ f.right }) hp,
      Node.supported_eq, (f.plug n).supported_eq]
    simp [Frame.plug, hs, Node.key]
  refine (Node.addrs_perm (n := { f.plug n with children := f.left ++ f.right }) hp).subperm.trans ?_
  rw [Node.addrs_eq, (f.plug n).addrs_eq]
  refine List.Sublist.subperm ?_
  simp [Frame.plug]

def mergeChild (n child : Node L) (p : Nat) : Node L :=
  { child with span := n.span.merge child.span, parent := some p }

variable {child : Node L}

section

variable (h : n.Good) (hcs : n.children = [child])

include h hcs

theorem mergeChild_span (p : Nat) :
    (mergeChild n child p).span.start_ = n.span.start_ ∧
    (mergeChild n child p).span.end_ = child.span.end_ ∧
    (mergeChild n child p).span.ledger_ = child.span.ledger_ := by
  have hs := h.here.start child (by simp [hcs])
  have h1 := n.span.nonempty
  have h2 := child.span.nonempty
  have hlt : n.span.end_ < child.span.end_ := by omega
  simp only [mergeChild, Span.merge, hlt, if_true, and_true]
  omega

theorem mergeChild_good (p : Nat) :
    (mergeChild n child p).Good ∧ (mergeChild n child p).Compressed := by
  obtain ⟨_, hend, hld⟩ := mergeChild_span h hcs p
  obtain ⟨hc, hcm⟩ := h.child child (by simp [hcs])
  have hl := hc.here
  refine ⟨.of_children ⟨?_, ?_, ?_, hl.parent, hl.starts, hl.branch⟩ hc.child, hcm⟩
  · rw [hend, hld]
    exact hl.end_le
  · rw [hend]
    exact hl.start
  · rw [Node.key, hend, hld]
    exact hl.history

theorem mergeChild_supported (h0 : n.tipSupport = 0)
    (p : Nat) : (mergeChild n child p).supported = n.supported := by
  obtain ⟨_, hend, hl⟩ := mergeChild_span h hcs p
  have hkey : (mergeChild n child p).key = child.key := by rw [Node.key, hend, hl, Node.key]
  rw [Node.supported_eq, n.supported_eq, hkey, h0, hcs]
  simp only [map_singleton, sum_singleton, Multiset.replicate_zero, zero_add]
  rw [child.supported_eq]
  rfl

theorem mergeChild_place {p : Nat}
    (hp : n.parent = some p) : SamePlace n (mergeChild n child p) := by
  obtain ⟨hst, _, hl⟩ := mergeChild_span h hcs p
  refine ⟨hp.symm, hst, hist_eq_iff.mpr (fun s hs => ?_)⟩
  rw [hl]
  have hlt := n.span.nonempty
  exact hist_eq_iff.mp (h.here.history child (by simp [hcs])) s (by omega)

end

theorem merge_shrunk (h : Focus (f :: fs) n) (h0 : n.tipSupport = 0) (hcs : n.children = [child]) :
    Shrunk (f.plug n) (Node.erase { f.plug n with
      children := (f.plug n).children ++ [mergeChild n child f.addr] } n.addr) := by
  have hcs' : (f.plug n).children ++ [mergeChild n child f.addr] =
      f.left ++ n :: (f.right ++ [mergeChild n child f.addr]) := by
    simp [Frame.plug]
  obtain ⟨cs, he, hp⟩ := Node.erase_perm
    (n := { f.plug n with children := (f.plug n).children ++ [mergeChild n child f.addr] })
    hcs' h.left_addr_ne
  have hb : (mergeChild n child f.addr).branchSupport = n.branchSupport := by
    rw [h.good.here.branch, h0, hcs]
    simp [mergeChild]
  have hpn := h.ctx.1.here.parent n (by simp [Frame.plug])
  have hctx := h.ctx.congr (mergeChild_place h.good hcs hpn) hb
  obtain ⟨hg, hc⟩ := mergeChild_good h.good hcs f.addr
  have hpr : cs.Perm (f.plug (mergeChild n child f.addr)).children := by
    rw [← append_assoc] at hp
    refine hp.trans ((perm_append_singleton _ _).trans ?_)
    exact perm_middle.symm
  have hpl := (good_frame_plug (f := f)).mpr ⟨hg, hc, hctx.1⟩
  rw [he]
  refine ⟨rfl, rfl, rfl, rfl, hpl.perm hpr, ?_, ?_⟩
  · refine (Node.supported_perm (n := f.plug (mergeChild n child f.addr)) hpr).trans ?_
    have h1 := supported_plug [f] (mergeChild n child f.addr)
    have h2 := supported_plug [f] n
    simp only [plug] at h1 h2
    rw [h1, h2, mergeChild_supported h.good hcs h0]
  · refine (Node.addrs_perm (n := f.plug (mergeChild n child f.addr)) hpr).subperm.trans ?_
    refine (addrs_frame_plug f _).subperm.trans (List.Subperm.trans ?_ (addrs_frame_plug f n).symm.subperm)
    refine (subperm_append_right _).mpr (List.Sublist.subperm ?_)
    rw [n.addrs_eq, hcs, Node.addrs_eq, flatMap_singleton, child.addrs_eq]
    exact sublist_cons_self _ _

theorem root_addr_mem_ctxAddrs (f : Frame L) (fs : List (Frame L)) (n : Node L) :
    (plug (f :: fs) n).addr ∈ ctxAddrs (f :: fs) := by
  induction fs generalizing f n with
  | nil => simp [plug, Frame.plug, ctxAddrs, Frame.addrs]
  | cons g fs ih => exact mem_append_right _ (ih g (f.plug n))

theorem compress_tidied (fuel : Nat) (hf : fs.length < fuel) (h : Focus fs n) :
    Tidied (plug fs n) (compress fuel (plug fs n) n.addr) := by
  induction fs generalizing n fuel with
  | nil =>
    obtain ⟨fuel, rfl⟩ := Nat.exists_eq_add_of_lt hf
    simp only [length_nil, Nat.zero_add, compress, h.deref]
    rw [if_neg (fun hc => hc.2 rfl)]
    exact h.tidied (fun hne => absurd rfl hne)
  | cons f fs ih =>
    cases fuel with
    | zero => omega
    | succ fuel =>
      have hne : n.addr ≠ (plug (f :: fs) n).addr := fun he =>
        disjoint_of_nodup_append h.nodup (Node.addr_mem_addrs n.mem_nodes_self)
          (he ▸ root_addr_mem_ctxAddrs f fs n)
      have hp := h.ctx.1.here.parent n (by simp [Frame.plug])
      have hnot : (f.plug n).addr ∉ ctxAddrs fs := by
        have hnd := (nodup_append'.mp h.nodup).2.1
        rw [ctxAddrs, flatMap_cons] at hnd
        exact disjoint_of_nodup_append hnd (by simp [Frame.addrs, Frame.plug])
      have hup : ∀ g : Node L → Node L, Shrunk (f.plug n) (g (f.plug n)) → Tidied (plug (f :: fs) n)
            (compress fuel ((plug (f :: fs) n).modify f.addr g) f.addr) := by
        intro g hs
        have hmod : (plug (f :: fs) n).modify f.addr g = plug fs (g (f.plug n)) := modify_plug g hnot
        have hrec := ih fuel (by simpa using hf) (hs.focus h)
        rw [hs.addr] at hrec
        rw [hmod]
        exact hs.tidied hrec
      rw [compress, h.deref]
      by_cases h0 : n.tipSupport = 0
      · simp only [h0, hne, hp, true_and, ne_eq, not_false_eq_true, if_true]
        cases hcs : n.children with
        | nil => exact hup _ (erase_shrunk h h0 hcs)
        | cons child rest =>
          cases rest with
          | nil => exact hup _ (merge_shrunk h h0 hcs)
          | cons d cs => exact h.tidied (fun _ _ => by simp [hcs])
      · simp only [h0, false_and, if_false]
        exact h.tidied (fun _ h1 => absurd h1 h0)

def lowered (n : Node L) (count : Nat) : Node L :=
  { n with
    tipSupport := sub32 n.tipSupport count
    branchSupport := sub32 n.branchSupport count }

variable {count : Nat}

section

variable (h : n.Good) (hle : count ≤ n.tipSupport) (hb : n.branchSupport < 2 ^ 32)

include h hle hb

theorem lowered_support :
    (lowered n count).tipSupport = n.tipSupport - count ∧
    (lowered n count).branchSupport = n.branchSupport - count := by
  have hbr := h.here.branch
  exact ⟨sub32_eq hle (by omega), sub32_eq (by omega) hb⟩

theorem lowered_good : (lowered n count).Good := by
  obtain ⟨h1, h2⟩ := lowered_support h hle hb
  have hl := h.here
  refine .of_children ⟨hl.end_le, hl.start, hl.history, hl.parent, hl.starts, ?_⟩ h.child
  rw [h1, h2, hl.branch]
  exact Nat.sub_add_comm hle

theorem lowered_supported :
    n.supported = (lowered n count).supported + Multiset.replicate count n.key := by
  have hkey : (lowered n count).key = n.key := rfl
  have hcs : (lowered n count).children = n.children := rfl
  rw [(lowered n count).supported_eq, (lowered_support h hle hb).1, hkey, hcs, add_right_comm,
    ← Multiset.replicate_add, Nat.sub_add_cancel hle, n.supported_eq]

end

theorem lowered_addrs : (lowered n count).addrs = n.addrs := by
  rw [Node.addrs_eq, n.addrs_eq]
  rfl

theorem Trie.Inv.lower {t : Trie L} (h : t.Inv) (hfs : t.root = plug fs n)
    (hle : count ≤ n.tipSupport) (hbn : t.root.branchSupport < 2 ^ 32) :
    let root := t.root.modify n.addr (fun n => { n with tipSupport := sub32 n.tipSupport count })
    updateBranch (fun b => sub32 b count) root.nodes.length root (some n.addr) =
      plug (fs.map (Frame.update (fun b => sub32 b count))) (lowered n count) ∧
    Focus (fs.map (Frame.update (fun b => sub32 b count))) (lowered n count) := by
  obtain ⟨hg, _, hctx⟩ := good_plug.mp (hfs ▸ h.good)
  obtain ⟨hn, _⟩ := h.addrs_ctx hfs
  have hb : n.branchSupport < 2 ^ 32 := (hfs ▸ branch_le_plug hctx).trans_lt hbn
  have hnot : n.addr ∉ ctxAddrs fs := fun hm =>
    disjoint_of_nodup_append hn (Node.addr_mem_addrs n.mem_nodes_self) hm
  have hl := linked_of_ctxOk hctx (hfs ▸ h.root_parent)
  refine ⟨?_, lowered_good hg hle hb, ?_, ?_, ?_⟩
  · rw [hfs, modify_plug _ hnot]
    refine updateBranch_plug (n := { n with tipSupport := sub32 n.tipSupport count }) _ _
      (length_lt_nodes_plug _ _) ?_ (linked_congr hl rfl)
    rw [(addrs_plug _ _).nodup_iff, Node.addrs_eq]
    rwa [n.addrs_eq] at hn
  · rw [hfs] at hbn
    refine ctxOk_update _ _ hctx ⟨rfl, rfl, rfl⟩ le_rfl (fun k hk => ?_)
    have hbr := hg.here.branch
    rw [(lowered_support hg hle hb).2, sub32_eq (by omega) (by omega)]
    omega
  · rw [lowered_addrs, ctxAddrs_update]
    exact hn
  · have hp : (lowered n count).parent = n.parent := rfl
    exact (plug_update_parent _ hp).trans (hfs ▸ h.root_parent)

section Remove

variable [DecidableEq ID] [LawfulLedger L] {t : Trie L} {l : L}

theorem Trie.Inv.remove_none (h : t.Inv) (h0 : t.root.supported.count (chain l) = 0) :
    t.remove l count = (false, t) := by
  rw [← h.tipSupport_eq, tipSupport] at h0
  rw [remove]
  cases hf : t.findByLedgerID l with
  | none => rfl
  | some loc =>
    simp only [hf] at h0
    simp only [h0, if_true]

theorem Trie.Inv.remove_some (count : Nat) (h : t.Inv) (h0 : t.root.supported.count (chain l) ≠ 0)
    (hbn : t.root.branchSupport < 2 ^ 32) : let k := min count (t.root.supported.count (chain l))
    (t.remove l count).1 ∧ (t.remove l count).2.Inv ∧
      t.root.supported = (t.remove l count).2.root.supported + Multiset.replicate k (chain l) ∧
      (t.remove l count).2.seqSupport = t.seqSupport.alter (seq l) (fun v => v.bind (fun n =>
        if sub32 n k = 0 then none else some (sub32 n k))) := by
  intro k
  simp only [k]
  rw [← h.tipSupport_eq, tipSupport] at h0 ⊢
  rw [remove]
  cases hf : t.findByLedgerID l with
  | none => simp [hf] at h0
  | some loc =>
    simp only [hf] at h0 ⊢
    obtain ⟨hm, hkey⟩ := h.findByLedgerID_some hf
    obtain ⟨fs, hfs⟩ := exists_plug hm
    obtain ⟨hg, _, hctx⟩ := good_plug.mp (hfs ▸ h.good)
    have hb : loc.branchSupport < 2 ^ 32 := (hfs ▸ branch_le_plug hctx).trans_lt hbn
    have hle : min count loc.tipSupport ≤ loc.tipSupport := min_le_right _ _
    obtain ⟨hr, hfc⟩ := h.lower hfs hle hbn
    simp only [h0, if_false, hr, true_and, and_true]
    have ht := compress_tidied _
      (length_lt_nodes_plug _ (lowered loc (min count loc.tipSupport))) hfc
    rw [show (lowered loc (min count loc.tipSupport)).addr = loc.addr from rfl] at ht
    have hs : (plug (fs.map (Frame.update (fun b => sub32 b (min count loc.tipSupport))))
        (lowered loc (min count loc.tipSupport))).span = t.root.span := by
      rw [hfs]
      exact plug_update_span _ (fun _ => rfl)
    refine ⟨⟨ht.good, ht.nodup, fun a ha => ?_, ht.parent.trans hfc.root, ?_, ?_⟩, ?_⟩
    · have hmem := (addrs_plug _ _).mem_iff.mp (ht.addrs a ha)
      rw [lowered_addrs, ctxAddrs_update] at hmem
      exact (h.addrs_ctx hfs).2 a hmem
    · exact (congrArg Span.start_ (ht.span.trans hs)).trans h.root_start
    · exact (congrArg Span.end_ (ht.span.trans hs)).trans h.root_end
    · rw [ht.supported, hfs, supported_plug, supported_plug, ctxSupported_update,
        lowered_supported hg hle hb, hkey]
      exact add_right_comm _ _ _

end Remove

end Rippled.LedgerTrie
