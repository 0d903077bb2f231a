import Rippled.LedgerTrie.Trie

namespace Rippled.LedgerTrie

open List

open Ledger hiding id

variable {L ID : Type} [Ledger L ID] {n : Node L}

namespace Node

def key (n : Node L) : List ID := hist n.span.ledger_ n.span.end_

structure Local (n : Node L) : Prop where
  end_le : n.span.end_ ≤ seq n.span.ledger_ + 1
  start : ∀ c ∈ n.children, c.span.start_ = n.span.end_
  history : ∀ c ∈ n.children, hist c.span.ledger_ n.span.end_ = n.key
  parent : ∀ c ∈ n.children, c.parent = some n.addr
  starts : n.children.Pairwise (fun c d => c.span.startID ≠ d.span.startID)
  branch : n.branchSupport = n.tipSupport + (n.children.map branchSupport).sum

/-- A node without tip support has at least two children. The root is exempt. -/
def Compressed (n : Node L) : Prop := n.tipSupport = 0 → 2 ≤ n.children.length

/-- A well-formed trie below a node, whatever holds of the node's own compression. -/
inductive Good : Node L → Prop
  | mk {n : Node L} (here : n.Local) (below : ∀ c ∈ n.children, Good c)
      (compressed : ∀ c ∈ n.children, c.Compressed) : Good n

theorem Good.here {n : Node L} (h : n.Good) : n.Local := by
  cases h with
  | mk here _ _ => exact here

theorem Good.child (h : n.Good) : ∀ c ∈ n.children, c.Good ∧ c.Compressed := by
  cases h with
  | mk _ below compressed => exact fun c hc => ⟨below c hc, compressed c hc⟩

theorem Good.of_children (here : n.Local) (below : ∀ c ∈ n.children, c.Good ∧ c.Compressed) :
    n.Good :=
  .mk here (fun c hc => (below c hc).1) (fun c hc => (below c hc).2)

theorem Good.of_mem {m : Node L} (h : n.Good) (hm : m ∈ n.nodes) : m.Good := by
  induction n using Node.induct with
  | h n ih =>
    rcases mem_nodes_iff.mp hm with rfl | ⟨c, hc, hm⟩
    · exact h
    · exact ih c hc (h.child c hc).1 hm

end Node

/-- The frame fits around a node: locally, and with good siblings. -/
structure Frame.Ok (f : Frame L) (n : Node L) : Prop where
  here : (f.plug n).Local
  siblings : ∀ c ∈ f.left ++ f.right, c.Good ∧ c.Compressed

def CtxOk : List (Frame L) → Node L → Prop
  | [], _ => True
  | f :: fs, n => f.Ok n ∧ (fs ≠ [] → (f.plug n).Compressed) ∧ CtxOk fs (f.plug n)

/-- The back pointers lead from a node through its frames to the root. -/
def Linked : List (Frame L) → Node L → Prop
  | [], n => n.parent = none
  | f :: fs, n => n.parent = some f.addr ∧ Linked fs (f.plug n)

variable {n : Node L} {f : Frame L}

theorem good_frame_plug : (f.plug n).Good ↔ n.Good ∧ n.Compressed ∧ f.Ok n := by
  constructor
  · intro h
    have hn := h.child n (by simp [Frame.plug])
    refine ⟨hn.1, hn.2, h.here, fun c hc => h.child c ?_⟩
    rcases mem_append.mp hc with hc | hc <;> simp [Frame.plug, hc]
  rintro ⟨hg, hc, hf⟩
  refine .of_children hf.here (fun c hm => ?_)
  simp only [Frame.plug, mem_append, mem_cons] at hm
  rcases hm with hm | rfl | hm
  · exact hf.siblings c (by simp [hm])
  · exact ⟨hg, hc⟩
  · exact hf.siblings c (by simp [hm])

variable {fs : List (Frame L)}

theorem good_plug : (plug fs n).Good ↔ n.Good ∧ (fs ≠ [] → n.Compressed) ∧ CtxOk fs n := by
  induction fs generalizing n with
  | nil => simp [plug, CtxOk]
  | cons f fs ih =>
    rw [plug, ih, good_frame_plug]
    simp only [CtxOk, ne_eq, reduceCtorEq, not_false_eq_true, forall_const]
    tauto

theorem linked_of_ctxOk (h : CtxOk fs n) (hr : (plug fs n).parent = none) : Linked fs n := by
  induction fs generalizing n with
  | nil => exact hr
  | cons f fs ih =>
    obtain ⟨hf, _, hfs⟩ := h
    exact ⟨hf.here.parent n (by simp [Frame.plug]), ih hfs hr⟩

variable {n' : Node L}

theorem linked_congr (h : Linked fs n) (hp : n'.parent = n.parent) : Linked fs n' := by
  induction fs generalizing n n' with
  | nil => exact hp.trans h
  | cons f fs ih => exact ⟨hp.trans h.1, ih h.2 rfl⟩

structure SamePlace (n n' : Node L) : Prop where
  parent : n'.parent = n.parent
  start : n'.span.start_ = n.span.start_
  history : hist n'.span.ledger_ (n.span.start_ + 1) = hist n.span.ledger_ (n.span.start_ + 1)

theorem SamePlace.startID_eq (h : SamePlace n n') : n'.span.startID = n.span.startID := by
  have := hist_eq_iff.mp h.history n.span.start_ (Nat.lt_succ_self _)
  rwa [Span.startID, Span.startID, h.start]

def Frame.update (step : Nat → Nat) (f : Frame L) : Frame L :=
  { f with branchSupport := step f.branchSupport }

section

variable (step : Nat → Nat)

@[simp] theorem ctxAddrs_update (fs : List (Frame L)) :
    ctxAddrs (fs.map (Frame.update step)) = ctxAddrs fs := by
  simp only [ctxAddrs, flatMap_map]
  rfl

theorem Frame.Ok.branch_eq (h : f.Ok n) :
    ∃ k, ∀ n' : Node L, f.tipSupport + ((f.plug n').children.map Node.branchSupport).sum =
      n'.branchSupport + k ∧ f.branchSupport = n.branchSupport + k := by
  refine ⟨f.tipSupport + (f.left.map Node.branchSupport).sum +
    (f.right.map Node.branchSupport).sum, fun n' => ⟨?_, ?_⟩⟩
  · simp [Frame.plug]
    omega
  · have hb := h.here.branch
    simp [Frame.plug] at hb
    omega

theorem branch_le_plug (h : CtxOk fs n) : n.branchSupport ≤ (plug fs n).branchSupport := by
  induction fs generalizing n with
  | nil => exact le_rfl
  | cons f fs ih =>
    obtain ⟨hf, _, hfs⟩ := h
    obtain ⟨k, hk⟩ := hf.branch_eq
    have hle : n.branchSupport ≤ (f.plug n).branchSupport := by
      have := (hk n).2
      simp only [Frame.plug]
      omega
    exact hle.trans (ih hfs)

/-- Replacing a node by another one in the same place keeps its surroundings in order, when the
branch support of the node and of the frames around it changes by the same amount. -/
theorem ctxOk_update (total : Nat) (h : CtxOk fs n) (hp : SamePlace n n')
    (ht : (plug fs n).branchSupport ≤ total)
    (hst : ∀ k, n.branchSupport + k ≤ total → step (n.branchSupport + k) = n'.branchSupport + k) :
    CtxOk (fs.map (Frame.update step)) n' := by
  induction fs generalizing n n' with
  | nil => trivial
  | cons f fs ih =>
    obtain ⟨hf, hcm, hfs⟩ := h
    obtain ⟨k, hk⟩ := hf.branch_eq
    have hle : f.branchSupport ≤ total := (branch_le_plug hfs).trans ht
    have hmid : step f.branchSupport = n'.branchSupport + k := by
      rw [(hk n).2] at hle ⊢
      exact hst k hle
    have hn : n ∈ (f.plug n).children := by simp [Frame.plug]
    have hsr := hf.here.start n hn
    have hh := hf.here.history n hn
    have ho : ∀ c ∈ (f.plug n').children, c = n' ∨ c ∈ (f.plug n).children := by
      intro c hc
      simp only [Frame.plug, mem_append, mem_cons] at hc ⊢
      tauto
    refine ⟨⟨⟨hf.here.end_le, ?_, ?_, ?_, ?_, ?_⟩, hf.siblings⟩, fun hne => ?_, ?_⟩
    · intro c hc
      rcases ho c hc with rfl | hc
      · exact hp.start.trans hsr
      · exact hf.here.start c hc
    · intro c hc
      rcases ho c hc with rfl | hc
      · refine Eq.trans (hist_eq_iff.mpr (fun s hs => ?_)) hh
        exact hist_eq_iff.mp hp.history s (by rw [hsr]; exact Nat.lt_succ_of_lt hs)
      · exact hf.here.history c hc
    · intro c hc
      rcases ho c hc with rfl | hc
      · exact hp.parent.trans (hf.here.parent n hn)
      · exact hf.here.parent c hc
    · have hs := hf.here.starts
      simp only [Frame.plug, Frame.update, pairwise_append, pairwise_cons,
        mem_cons, forall_eq_or_imp, hp.startID_eq] at hs ⊢
      exact hs
    · exact hmid.trans (hk n').1.symm
    · have hc := hcm (by simpa using hne)
      simpa [Node.Compressed, Frame.plug, Frame.update] using hc
    · refine ih hfs ⟨rfl, rfl, rfl⟩ ht (fun j hj => ?_)
      simp only [Frame.plug, Frame.update] at hj ⊢
      rw [hmid, (hk n).2, Nat.add_assoc, Nat.add_assoc]
      refine hst (k + j) ?_
      rw [(hk n).2, Nat.add_assoc] at hj
      exact hj

theorem updateBranch_plug (fuel : Nat) (hf : fs.length < fuel) (hn : (plug fs n).addrs.Nodup)
    (hl : Linked fs n) : updateBranch step fuel (plug fs n) (some n.addr) =
      plug (fs.map (Frame.update step)) { n with branchSupport := step n.branchSupport } := by
  induction fs generalizing n fuel with
  | nil =>
    cases fuel with
    | zero => omega
    | succ fuel =>
      have hm : n.modify n.addr (fun n => { n with branchSupport := step n.branchSupport }) =
          { n with branchSupport := step n.branchSupport } := by
        rw [Node.modify_eq, if_pos rfl]
      have hs := Node.mem_nodes_self { n with branchSupport := step n.branchSupport }
      have hd := Node.deref_of_mem (by rw [Node.addrs_eq]; rwa [plug, Node.addrs_eq] at hn) hs
      have hp : n.parent = none := hl
      simp only [plug, updateBranch, hm, map_nil]
      rw [hd, Option.bind_some, hp]
      cases fuel <;> rfl
  | cons f fs ih =>
    cases fuel with
    | zero => omega
    | succ fuel =>
      let n' : Node L := { n with branchSupport := step n.branchSupport }
      have ha : n'.addrs = n.addrs := by rw [Node.addrs_eq, Node.addrs_eq]
      have hpr := (addrs_plug (f :: fs) n).nodup_iff.mp hn
      have hnot : n.addr ∉ ctxAddrs (f :: fs) := fun hm =>
        (disjoint_of_nodup_append hpr) (Node.addr_mem_addrs (Node.mem_nodes_self n)) hm
      have hm := modify_plug (fun n => { n with branchSupport := step n.branchSupport }) hnot
      have hn' : (plug (f :: fs) n').addrs.Nodup := by
        rw [(addrs_plug (f :: fs) n').nodup_iff, ha]
        exact hpr
      have hd := Node.deref_of_mem hn' (mem_nodes_plug (f :: fs) (Node.mem_nodes_self n'))
      have hrec := ih (n := f.plug n') fuel (by simpa using hf) hn' (linked_congr hl.2 rfl)
      have hp : ((plug (f :: fs) n').deref n.addr).bind Node.parent = some f.addr := by
        rw [show n.addr = n'.addr from rfl, hd]
        exact hl.1
      rw [updateBranch]
      simp only [hm]
      rw [hp]
      exact hrec

theorem plug_update_parent (hp : n'.parent = n.parent) :
    (plug (fs.map (Frame.update step)) n').parent = (plug fs n).parent := by
  induction fs generalizing n n' with
  | nil => exact hp
  | cons f fs ih => exact ih rfl

theorem plug_update_span (hs : fs = [] → n'.span = n.span) :
    (plug (fs.map (Frame.update step)) n').span = (plug fs n).span := by
  induction fs generalizing n n' with
  | nil => exact hs rfl
  | cons f fs ih => exact ih (fun _ => rfl)

end

/-- The invariant of the trie. The root always is the span of the genesis ledger alone. -/
structure Trie.Inv (t : Trie L) : Prop where
  good : t.root.Good
  nodup : t.root.addrs.Nodup
  fresh : ∀ a ∈ t.root.addrs, a < t.next
  root_parent : t.root.parent = none
  root_start : t.root.span.start_ = 0
  root_end : t.root.span.end_ = 1

theorem Trie.Inv.addrs_ctx {t : Trie L} (h : t.Inv) (hr : t.root = plug fs n) :
    (n.addrs ++ ctxAddrs fs).Nodup ∧ ∀ a ∈ n.addrs ++ ctxAddrs fs, a < t.next := by
  have hp := addrs_plug fs n
  rw [← hr] at hp
  exact ⟨hp.nodup_iff.mp h.nodup, fun a ha => h.fresh a (hp.mem_iff.mpr ha)⟩

/-- A node may be replaced in its place together with the matching update of the branch support of
the frames around it. -/
theorem Trie.Inv.replace {t t' : Trie L} (step : Nat → Nat) (h : t.Inv)
    (hr : t.root = plug fs n) (hr' : t'.root = plug (fs.map (Frame.update step)) n')
    (hg : n'.Good) (hc : fs ≠ [] → n'.Compressed) (hpl : SamePlace n n')
    (hs : fs = [] → n'.span = n.span) (hst : ∀ k, n.branchSupport + k ≤ t.root.branchSupport →
      step (n.branchSupport + k) = n'.branchSupport + k)
    (hn : (n'.addrs ++ ctxAddrs fs).Nodup) (hf : ∀ a ∈ n'.addrs, a < t'.next)
    (hnx : t.next ≤ t'.next) : t'.Inv := by
  have hctx := (good_plug.mp (hr ▸ h.good)).2.2
  have hp := addrs_plug (fs.map (Frame.update step)) n'
  rw [← hr', ctxAddrs_update] at hp
  have hpr : t'.root.parent = t.root.parent := by
    rw [hr, hr']
    exact plug_update_parent step hpl.parent
  have hsp : t'.root.span = t.root.span := by
    rw [hr, hr']
    exact plug_update_span step hs
  refine ⟨?_, hp.nodup_iff.mpr hn, fun a ha => ?_, hpr.trans h.root_parent,
    (congrArg Span.start_ hsp).trans h.root_start, (congrArg Span.end_ hsp).trans h.root_end⟩
  · rw [hr', good_plug]
    refine ⟨hg, fun hne => hc (by simpa using hne), ?_⟩
    exact ctxOk_update step _ hctx hpl (hr ▸ le_rfl) hst
  · rcases mem_append.mp (hp.mem_iff.mp ha) with ha | ha
    · exact hf a ha
    · exact ((h.addrs_ctx hr).2 a (by simp [ha])).trans_le hnx

end Rippled.LedgerTrie
