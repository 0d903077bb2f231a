import Rippled.LedgerTrie.Span
import Mathlib.Algebra.BigOperators.Group.List.Basic
import Mathlib.Data.List.Nodup
import Rippled.Lib.OrdMap
import Mathlib.Data.Prod.Lex

namespace Rippled.LedgerTrie

open List Lib

open Ledger hiding id

variable {L ID : Type} [Ledger L ID]

/-- A node of the trie. The children are owned by their node; `parent` is a raw back pointer, so it
is the address of a node and not part of the ownership tree. -/
structure Node (L : Type) where
  addr : Nat
  parent : Option Nat
  span : Span L
  tipSupport : Nat
  branchSupport : Nat
  children : List (Node L)

variable {n m root : Node L} {f : Node L → Node L} {c : Node L} {a : Nat}

namespace Node

mutual
def nodes : Node L → List (Node L)
  | n@⟨_, _, _, _, _, cs⟩ => n :: nodesList cs
def nodesList : List (Node L) → List (Node L)
  | [] => []
  | c :: cs => c.nodes ++ nodesList cs
end

mutual
def modify (a : Nat) (f : Node L → Node L) : Node L → Node L
  | n@⟨addr, parent, span, tip, branch, cs⟩ =>
    if addr = a then f n else ⟨addr, parent, span, tip, branch, modifyList a f cs⟩
def modifyList (a : Nat) (f : Node L → Node L) : List (Node L) → List (Node L)
  | [] => []
  | c :: cs => c.modify a f :: modifyList a f cs
end

def deref (root : Node L) (a : Nat) : Option (Node L) := root.nodes.find? (fun n => n.addr == a)

section

variable (n)

def addrs : List Nat := n.nodes.map Node.addr

/-- Remove the child at address `a`: it trades places with the last child, which is then popped. -/
def erase (a : Nat) : Node L :=
  match n.children.findIdx? (fun c => c.addr == a), n.children.getLast? with
  | some i, some back => { n with children := (n.children.set i back).dropLast }
  | _, _ => n

theorem nodesList_eq (cs : List (Node L)) : nodesList cs = cs.flatMap nodes := by
  induction cs with
  | nil => rfl
  | cons c cs ih => rw [nodesList, ih, flatMap_cons]

theorem nodes_eq : n.nodes = n :: n.children.flatMap nodes := by
  cases n
  rw [nodes, nodesList_eq]

section

variable (a f)

theorem modifyList_eq (cs : List (Node L)) : modifyList a f cs = cs.map (modify a f) := by
  induction cs with
  | nil => rfl
  | cons c cs ih => rw [modifyList, ih, map_cons]

theorem modify_eq (n : Node L) :
    n.modify a f = if n.addr = a then f n else { n with children := n.children.map (modify a f) } := by
  cases n
  rw [modify, modifyList_eq]

end

theorem induct {P : Node L → Prop} (h : ∀ n : Node L, (∀ c ∈ n.children, P c) → P n) (n : Node L) :
    P n :=
  h n (fun c _hc => induct h c)
termination_by sizeOf n
decreasing_by
  have hlt := sizeOf_lt_of_mem _hc
  cases n
  simp only [Node.mk.sizeOf_spec] at hlt ⊢
  omega

theorem mem_nodes_self : n ∈ n.nodes := by
  rw [nodes_eq]
  exact mem_cons_self

end

theorem mem_nodes_iff : m ∈ n.nodes ↔ m = n ∨ ∃ c ∈ n.children, m ∈ c.nodes := by
  rw [nodes_eq, mem_cons, mem_flatMap]

theorem mem_nodes_child (hn : n ∈ root.nodes) (hc : c ∈ n.children) : c ∈ root.nodes := by
  induction root using induct with
  | h root ih =>
    rcases mem_nodes_iff.mp hn with rfl | ⟨d, hd, hn⟩
    · exact mem_nodes_iff.mpr (.inr ⟨c, hc, c.mem_nodes_self⟩)
    · exact mem_nodes_iff.mpr (.inr ⟨d, hd, ih d hd hn⟩)

theorem addrs_eq (n : Node L) : n.addrs = n.addr :: n.children.flatMap addrs := by
  rw [addrs, nodes_eq, map_cons, map_flatMap]
  rfl

theorem addr_mem_addrs (h : m ∈ n.nodes) : m.addr ∈ n.addrs :=
  mem_map_of_mem h

theorem modify_of_notMem (h : a ∉ n.addrs) : n.modify a f = n := by
  induction n using induct with
  | h n ih =>
    rw [addrs_eq, mem_cons, not_or] at h
    rw [modify_eq, if_neg (Ne.symm h.1)]
    have hc : n.children.map (modify a f) = n.children := by
      refine (map_congr_left (fun c hc => ih c hc (fun hm => h.2 ?_))).trans (map_id _)
      exact mem_flatMap.mpr ⟨c, hc, hm⟩
    rw [hc]
    cases n
    rfl

theorem modifyList_of_notMem {cs : List (Node L)} (h : ∀ c ∈ cs, a ∉ c.addrs) :
    cs.map (modify a f) = cs :=
  (map_congr_left (fun c hc => modify_of_notMem (h c hc))).trans (map_id _)

theorem deref_of_mem (hn : root.addrs.Nodup) (h : n ∈ root.nodes) : root.deref n.addr = some n := by
  have hu : ∀ m ∈ root.nodes, m.addr = n.addr → m = n := fun m hm he =>
    inj_on_of_nodup_map hn hm h he
  cases hd : root.deref n.addr with
  | none =>
    have := find?_eq_none.mp hd n h
    simp at this
  | some m =>
    have hm : m.addr = n.addr := by simpa using find?_some hd
    rw [hu m (mem_of_find?_eq_some hd) hm]

theorem erase_perm {left right : List (Node L)} (hc : n.children = left ++ c :: right)
    (hl : ∀ d ∈ left, d.addr ≠ c.addr) :
    ∃ cs, n.erase c.addr = { n with children := cs } ∧ cs.Perm (left ++ right) := by
  have hidx : n.children.findIdx? (fun d => d.addr == c.addr) = some left.length := by
    rw [hc, findIdx?_eq_some_iff_getElem]
    refine ⟨by simp, by simp, fun j hj => ?_⟩
    rw [getElem_append_left hj]
    simpa using hl _ (getElem_mem hj)
  rcases eq_nil_or_concat right with rfl | ⟨r, b, rfl⟩
  · refine ⟨left, ?_, by simp⟩
    rw [erase, hidx, hc, getLast?_concat]
    simp
  refine ⟨left ++ b :: r, ?_, ?_⟩
  · have hls : (left ++ c :: (r ++ [b])).getLast? = some b := by
      rw [← cons_append, ← append_assoc, getLast?_concat]
    have hset : (left ++ c :: (r ++ [b])).set left.length b = left ++ b :: (r ++ [b]) := by
      simp
    rw [erase, hidx, hc, concat_eq_append, hls]
    simp only [hset]
    rw [← cons_append, ← append_assoc, dropLast_concat]
  · rw [concat_eq_append]
    exact (perm_append_singleton b r).symm.append_left left

end Node

/-- A node with one child taken out. A list of frames, innermost first, is the part of the trie
around a node: it is the chain that the back pointers run along. -/
structure Frame (L : Type) where
  addr : Nat
  parent : Option Nat
  span : Span L
  tipSupport : Nat
  branchSupport : Nat
  left : List (Node L)
  right : List (Node L)

def Frame.plug (f : Frame L) (n : Node L) : Node L :=
  ⟨f.addr, f.parent, f.span, f.tipSupport, f.branchSupport, f.left ++ n :: f.right⟩

def plug : List (Frame L) → Node L → Node L
  | [], n => n
  | f :: fs, n => plug fs (f.plug n)

def Frame.addrs (f : Frame L) : List Nat :=
  f.addr :: (f.left.flatMap Node.addrs ++ f.right.flatMap Node.addrs)

def ctxAddrs (fs : List (Frame L)) : List Nat := fs.flatMap Frame.addrs

theorem plug_concat (fs : List (Frame L)) (f : Frame L) (n : Node L) :
    plug (fs ++ [f]) n = f.plug (plug fs n) := by
  induction fs generalizing n with
  | nil => rfl
  | cons g fs ih => exact ih (g.plug n)

theorem exists_plug (h : n ∈ root.nodes) : ∃ fs, root = plug fs n := by
  induction root using Node.induct with
  | h root ih =>
    rcases Node.mem_nodes_iff.mp h with rfl | ⟨c, hc, hn⟩
    · exact ⟨[], rfl⟩
    obtain ⟨fs, hfs⟩ := ih c hc hn
    obtain ⟨left, right, hlr⟩ := append_of_mem hc
    refine ⟨fs ++ [⟨root.addr, root.parent, root.span, root.tipSupport, root.branchSupport,
      left, right⟩], ?_⟩
    rw [plug_concat, ← hfs, Frame.plug, ← hlr]
    cases root
    rfl

section

variable (fs : List (Frame L))

theorem mem_nodes_plug (h : m ∈ n.nodes) : m ∈ (plug fs n).nodes := by
  induction fs generalizing n with
  | nil => exact h
  | cons f fs ih =>
    exact ih (Node.mem_nodes_iff.mpr (.inr ⟨n, by simp [Frame.plug], h⟩))

theorem addrs_frame_plug (f : Frame L) (n : Node L) : (f.plug n).addrs.Perm (n.addrs ++ f.addrs) := by
  rw [Node.addrs_eq]
  simp only [Frame.plug, Frame.addrs, flatMap_append, flatMap_cons]
  have h1 : (f.left.flatMap Node.addrs ++ (n.addrs ++ f.right.flatMap Node.addrs)).Perm
      (n.addrs ++ (f.left.flatMap Node.addrs ++ f.right.flatMap Node.addrs)) := by
    rw [← append_assoc, ← append_assoc]
    exact (perm_append_comm).append_right _
  exact (h1.cons f.addr).trans perm_middle.symm

theorem addrs_plug (n : Node L) : (plug fs n).addrs.Perm (n.addrs ++ ctxAddrs fs) := by
  induction fs generalizing n with
  | nil => simp [plug, ctxAddrs]
  | cons f fs ih =>
    have h := (ih (f.plug n)).trans ((addrs_frame_plug f n).append_right (ctxAddrs fs))
    simpa [plug, ctxAddrs] using h

theorem length_lt_nodes_plug (n : Node L) : fs.length < (plug fs n).nodes.length := by
  have hctx : fs.length ≤ (ctxAddrs fs).length := by
    induction fs with
    | nil => exact le_rfl
    | cons f fs ih =>
      simp only [ctxAddrs, flatMap_cons, length_append, Frame.addrs, length_cons]
      have : fs.length ≤ (fs.flatMap Frame.addrs).length := ih
      omega
  have hp := (addrs_plug fs n).length_eq
  rw [Node.addrs, length_map, length_append, Node.addrs_eq, length_cons] at hp
  omega

end

theorem modify_plug (g : Node L → Node L) {fs : List (Frame L)} (h : n.addr ∉ ctxAddrs fs) :
    (plug fs n).modify n.addr g = plug fs (g n) := by
  suffices hs : ∀ m m' : Node L, m.modify n.addr g = m' →
      (plug fs m).modify n.addr g = plug fs m' from
    hs n (g n) (by rw [Node.modify_eq, if_pos rfl])
  induction fs with
  | nil => exact fun m m' hm => hm
  | cons f fs ih =>
    intro m m' hm
    rw [ctxAddrs, flatMap_cons, mem_append, not_or] at h
    obtain ⟨hf, hfs⟩ := h
    simp only [Frame.addrs, mem_cons, mem_append, mem_flatMap, not_or, not_exists,
      not_and] at hf
    obtain ⟨ha, hl, hr⟩ := hf
    refine ih hfs _ _ ?_
    have hne : (f.plug m).addr ≠ n.addr := Ne.symm ha
    rw [Node.modify_eq, if_neg hne]
    simp only [Frame.plug, map_append, map_cons, hm, Node.modifyList_of_notMem hl,
      Node.modifyList_of_notMem hr]

def add32 (a b : Nat) : Nat := (a + b) % 2 ^ 32

def sub32 (a b : Nat) : Nat := (a + 2 ^ 32 - b) % 2 ^ 32

/-- The trie. `next` is the supply of addresses for newly allocated nodes. -/
structure Trie (L : Type) where
  root : Node L
  seqSupport : OrdMap Nat Nat
  next : Nat

mutual
/-- Descend from a node whose span agrees with the ledger up to `pos`, as long as the agreement
covers the whole span and some child continues it. -/
def findFrom (ledger : L) : Node L → Nat → Node L × Nat
  | n@⟨_, _, span, _, _, cs⟩, pos =>
    if pos = span.end_ then (findAmong ledger cs pos).getD (n, pos) else (n, pos)
def findAmong (ledger : L) : List (Node L) → Nat → Option (Node L × Nat)
  | [], _ => none
  | c :: cs, pos =>
    if pos < c.span.diff ledger then some (findFrom ledger c (c.span.diff ledger))
    else findAmong ledger cs pos
end

mutual
def findByLedgerIDFrom [DecidableEq ID] (ledger : L) : Node L → Option (Node L)
  | n@⟨_, _, span, _, _, cs⟩ =>
    if Ledger.id ledger = span.tip.id then some n else findByLedgerIDAmong ledger cs
def findByLedgerIDAmong [DecidableEq ID] (ledger : L) : List (Node L) → Option (Node L)
  | [] => none
  | c :: cs => (findByLedgerIDFrom ledger c).or (findByLedgerIDAmong ledger cs)
end

/-- When the span of `loc` goes on after the common prefix, a new child takes over that old suffix
with the support and the children of `loc`, which is cut back to the prefix. -/
def splitOld (loc : Node L) (next : Nat) (pre : Option (Span L)) : Option (Span L) → Node L × Nat
  | some oldSuffix =>
    let newNode : Node L := ⟨next, some loc.addr, oldSuffix, loc.tipSupport, loc.branchSupport,
      loc.children.map (fun c => { c with parent := some next })⟩
    (⟨loc.addr, loc.parent, pre.getD loc.span, 0, loc.branchSupport, [newNode]⟩, next + 1)
  | none => (loc, next)

/-- When the ledger goes on after the common prefix, a new child gets that suffix. The second
component is the address of the node that receives the support. -/
def addNew (loc : Node L) (next : Nat) : Option (Span L) → Node L × Nat × Nat
  | some newSuffix =>
    ({ loc with children := loc.children ++ [⟨next, some loc.addr, newSuffix, 0, 0, []⟩] },
      next, next + 1)
  | none => (loc, loc.addr, next)

/-- Apply `step` to the branch support of the node at an address and of everything that the back
pointers lead to from there. -/
def updateBranch (step : Nat → Nat) : Nat → Node L → Option Nat → Node L
  | 0, root, _ => root
  | _ + 1, root, none => root
  | fuel + 1, root, some a =>
    let root' := root.modify a (fun n => { n with branchSupport := step n.branchSupport })
    updateBranch step fuel root' ((root'.deref a).bind Node.parent)

/-- Compress upwards: a node without tip support is dropped when it has no child and combined with
its child when it has exactly one. -/
def compress : Nat → Node L → Nat → Node L
  | 0, root, _ => root
  | fuel + 1, root, a =>
    match root.deref a with
    | none => root
    | some loc =>
      if loc.tipSupport = 0 ∧ a ≠ root.addr then
        match loc.parent, loc.children with
        | some p, [] => compress fuel (root.modify p (fun n => n.erase a)) p
        | some p, [child] =>
          let child' := { child with span := loc.span.merge child.span, parent := some p }
          compress fuel (root.modify p
            (fun n => { n with children := n.children ++ [child'] }.erase a)) p
        | _, _ => root
      else root

def addUncommitted (bound : Nat) : List (Nat × Nat) → Nat → List (Nat × Nat) × Nat
  | [], uncommitted => ([], uncommitted)
  | e :: it, uncommitted =>
    if e.1 < bound then addUncommitted bound it (add32 uncommitted e.2) else (e :: it, uncommitted)

/-- Advance along a span that ends at `stop`, from one change of the support to the next. -/
def advanceSpan (stop branch : Nat) : List (Nat × Nat) → Nat → Nat → Nat × List (Nat × Nat) × Nat
  | [], nextSeq, uncommitted =>
    if nextSeq < stop ∧ uncommitted < branch then (stop, [], uncommitted)
    else (nextSeq, [], uncommitted)
  | e :: it, nextSeq, uncommitted =>
    if nextSeq < stop ∧ uncommitted < branch then
      if e.1 < stop then advanceSpan stop branch it (e.1 + 1) (add32 uncommitted e.2)
      else (stop, e :: it, uncommitted)
    else (nextSeq, e :: it, uncommitted)

section Preferred

variable [LinearOrder ID]

def childKey (c : Node L) : Nat ×ₗ ID := toLex (c.branchSupport, c.span.startID)

/-- The best child with its margin, and the other children in the order the sort leaves them. -/
def bestChild : List (Node L) → Option (Node L × Nat × List (Node L))
  | [] => none
  | [best] => some (best, best.branchSupport, [])
  | cs =>
    match cs.insertionSort (fun a b => childKey b ≤ childKey a) with
    | best :: second :: rest =>
      let margin := sub32 best.branchSupport second.branchSupport
      let margin := if second.span.startID < best.span.startID then add32 margin 1 else margin
      some (best, margin, second :: rest)
    | _ => none

/-- The walk of `getPreferred` from a node. The children are sorted in place, so the node comes
back with them reordered. -/
def preferFrom (largestIssued : Nat) :
    Nat → Node L → List (Nat × Nat) → Nat → Option (SpanTip L ID × Node L)
  | 0, _, _, _ => none
  | fuel + 1, curr, it, uncommitted =>
    let nextSeq := curr.span.start_ + 1
    let (it, uncommitted) := addUncommitted (max nextSeq largestIssued) it uncommitted
    let (nextSeq, it, uncommitted) :=
      advanceSpan curr.span.end_ curr.branchSupport it nextSeq uncommitted
    if nextSeq < curr.span.end_ then (curr.span.before nextSeq).map (fun sp => (sp.tip, curr))
    else
      match bestChild curr.children with
      | some (best, margin, others) =>
        if uncommitted < margin ∨ uncommitted = 0 then
          (preferFrom largestIssued fuel best it uncommitted).map
            (fun r => (r.1, { curr with children := r.2 :: others }))
        else some (curr.span.tip, { curr with children := best :: others })
      | none => some (curr.span.tip, curr)

end Preferred

/-- The traversal of `checkInvariants`, with its stack of nodes still to visit. -/
def checkNodes (rootAddr : Nat) : Nat → List (Node L) → OrdMap Nat Nat → Option (OrdMap Nat Nat)
  | _, [], expected => some expected
  | 0, _ :: _, _ => none
  | fuel + 1, curr :: nodes, expected =>
    if curr.addr ≠ rootAddr ∧ curr.tipSupport = 0 ∧ curr.children.length < 2 then none
    else
      let expected := if curr.tipSupport ≠ 0 then
          expected.alter (curr.span.end_ - 1) (fun v => some (add32 (v.getD 0) curr.tipSupport))
        else expected
      if curr.children.all (fun c => c.parent == some curr.addr) ∧
          curr.tipSupport + (curr.children.map Node.branchSupport).sum = curr.branchSupport then
        checkNodes rootAddr fuel (curr.children.reverse ++ nodes) expected
      else none

namespace Trie

def new : Trie L := ⟨⟨0, none, Span.genesis, 0, 0, []⟩, OrdMap.empty, 1⟩

def find (t : Trie L) (ledger : L) : Node L × Nat :=
  findFrom ledger t.root (t.root.span.diff ledger)

def findByLedgerID [DecidableEq ID] (t : Trie L) (ledger : L) : Option (Node L) :=
  findByLedgerIDFrom ledger t.root

def empty (t : Trie L) : Bool := t.root.branchSupport == 0

def insert (t : Trie L) (ledger : L) (count : Nat) : Trie L :=
  let (loc, diffSeq) := t.find ledger
  let (loc', next) := splitOld loc t.next (loc.span.before diffSeq) (loc.span.fromSpot diffSeq)
  let (loc', incNode, next) := addNew loc' next ((Span.ofLedger ledger).fromSpot diffSeq)
  let root := t.root.modify loc.addr (fun _ => loc')
  let root := root.modify incNode (fun n => { n with tipSupport := add32 n.tipSupport count })
  { root := updateBranch (fun b => add32 b count) root.nodes.length root (some incNode)
    seqSupport := t.seqSupport.alter (seq ledger) (fun v => some (add32 (v.getD 0) count))
    next := next }

def remove [DecidableEq ID] (t : Trie L) (ledger : L) (count : Nat) : Bool × Trie L :=
  match t.findByLedgerID ledger with
  | none => (false, t)
  | some loc =>
    if loc.tipSupport = 0 then (false, t)
    else
      let count := min count loc.tipSupport
      let root := t.root.modify loc.addr
        (fun n => { n with tipSupport := sub32 n.tipSupport count })
      let seqSupport := t.seqSupport.alter (seq ledger) (fun v => v.bind (fun k =>
        if sub32 k count = 0 then none else some (sub32 k count)))
      let root := updateBranch (fun b => sub32 b count) root.nodes.length root (some loc.addr)
      (true, { t with root := compress root.nodes.length root loc.addr, seqSupport := seqSupport })

def tipSupport [DecidableEq ID] (t : Trie L) (ledger : L) : Nat :=
  match t.findByLedgerID ledger with
  | some loc => loc.tipSupport
  | none => 0

def branchSupport [DecidableEq ID] (t : Trie L) (ledger : L) : Nat :=
  match t.findByLedgerID ledger with
  | some loc => loc.branchSupport
  | none =>
    let (loc, diffSeq) := t.find ledger
    -- the ledger has to be a proper prefix of the span of loc
    if seq ledger < diffSeq ∧ seq ledger < loc.span.end_ then loc.branchSupport else 0

def getPreferred [LinearOrder ID] (t : Trie L) (largestIssued : Nat) :
    Option (SpanTip L ID) × Trie L :=
  if t.empty then (none, t)
  else
    match preferFrom largestIssued t.root.nodes.length t.root t.seqSupport.entries 0 with
    | some (tip, root) => (some tip, { t with root := root })
    | none => (none, t)

def checkInvariants (t : Trie L) : Bool :=
  checkNodes t.root.addr t.root.nodes.length [t.root] OrdMap.empty == some t.seqSupport

end Trie

end Rippled.LedgerTrie
