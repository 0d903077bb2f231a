import Rippled.SHAMap.Keeps

namespace Rippled.SHAMap

open Lib

/-- The nodes that the cache of the family holds for a hash when the node at a place is written.
Other maps add to the cache, and it drops nodes, between any two writes. -/
abbrev TreeNodeCache := List (Fin 16) → Uint256 → Option TreeNode

variable {cache : TreeNodeCache} {cowid : UInt32} {sha512Half : Blob → Uint256}

section Flush

variable (sha512Half)

/-- Make sure that a node is the map's own before it is modified for flushing. -/
def preFlushNode (cowid : UInt32) (node : TreeNode) : TreeNode :=
  if node.cowid ≠ cowid then node.clone cowid else node

/-- Recalculate the hashes of all nodes below a node that somebody owns, children first, and let
go of them. What is hooked to the parent is what writing the node at its place gives back. -/
def flushNode (write : List (Fin 16) → TreeNode → TreeNode) (cowid : UInt32) : TreeNode → TreeNode
  | .null => .null
  | .leaf c h type item =>
    write [] ((preFlushNode cowid (.leaf c h type item)).updateHash sha512Half).unshare
  | .inner c h hashes children =>
    let children' := fun i =>
      if (children i).cowid ≠ 0 then flushNode (fun path => write (i :: path)) cowid (children i)
      else children i
    write [] ((preFlushNode cowid (.inner c h hashes children')).updateHashDeep sha512Half).unshare

def flushCount : TreeNode → Nat
  | .null => 0
  | .leaf .. => 1
  | .inner _ _ _ children =>
    ((List.finRange 16).map fun i =>
      if (children i).cowid ≠ 0 then flushCount (children i) else 0).sum + 1

/-- A node that the cache holds already is used in place of a new one with the same hash. -/
def canonicalize (cache : TreeNodeCache) (path : List (Fin 16)) (node : TreeNode) : TreeNode :=
  (cache path node.getHash).getD node

/-- Convert all modified nodes to shared ones. Below a root with branches this hooks children to
nodes, which fails an assertion in a map that cannot own nodes. -/
def walkSubTree (m : SHAMap) (write : List (Fin 16) → TreeNode → TreeNode) :
    Option (SHAMap × Nat) :=
  if m.root.cowid = 0 then some (m, 0)
  else
    match m.root with
    | .null => some (m, 0)
    | .leaf .. => some ({ m with root := flushNode sha512Half write m.cowid m.root }, 1)
    | .inner _ _ _ children =>
      if TreeNode.branches children = [] then some ({ m with root := .newInner 0 }, 1)
      else if m.cowid = 0 then none
      else some ({ m with root := flushNode sha512Half write m.cowid m.root }, flushCount m.root)

def unshare (m : SHAMap) : Option (SHAMap × Nat) := 
  m.walkSubTree sha512Half fun _ node => node

/-- Flush modified nodes to the node store, if the map is backed, and convert them to shared. -/
def flushDirty (m : SHAMap) (cache : TreeNodeCache) : Option (SHAMap × Nat) :=
  m.walkSubTree sha512Half (if m.backed then canonicalize cache else fun _ node => node)

/-- The hash of a map, with the map after its hashes have been brought up to date. -/
def getHash (m : SHAMap) : Option (Uint256 × SHAMap) :=
  if m.root.getHash = 0 then
    (m.unshare sha512Half).map fun flushed => (flushed.1.root.getHash, flushed.1)
  else some (m.root.getHash, m)

/-- A new map with the nodes of a map. If either may change, they must not share nodes that can be
modified. -/
def snapShot (m : SHAMap) (isMutable : Bool) : Option SHAMap :=
  let newMap : SHAMap := {
    root := m.root
    cowid := m.cowid + 1
    state := if isMutable then .modifying else .immutable
    backed := m.backed }
  if m.state ≠ .immutable ∨ newMap.state ≠ .immutable then
    (newMap.unshare sha512Half).map Prod.fst
  else some newMap

/-- The hashes that are kept in a tree are up to date, except in inner nodes that somebody owns,
which have none. Nobody owns a node below one that nobody owns. -/
def TreeNode.Hashed : TreeNode → Prop
  | .null => True
  | .leaf _ h type item => h = leafHash sha512Half type item
  | .inner c h hashes children =>
    (∀ i, (children i).Hashed) ∧
      (c = 0 → h = innerHash sha512Half (fun i => (children i).getHash)
          (fun i => !(children i).isNull) ∧
        hashes = (fun i => (children i).getHash) ∧ ∀ i, (children i).cowid = 0) ∧
      (c ≠ 0 → h = 0)

def merkle (type : LeafType) : Radix 16 Item → Uint256
  | .empty => 0
  | .leaf item => leafHash sha512Half type item
  | .inner cs => innerHash sha512Half (fun i => merkle type (cs i)) fun i => !(cs i).isEmpty

def clean (type : LeafType) : Radix 16 Item → TreeNode
  | .empty => .null
  | .leaf item => makeTypedLeaf sha512Half type item 0
  | .inner cs => .inner 0 (merkle sha512Half type (.inner cs)) (fun i => merkle sha512Half type (cs i))
    fun i => clean type (cs i)

/-- Under the hash of every node that is flushed, the cache holds no other node. -/
def NoCollision (cache : TreeNodeCache) (cowid : UInt32) : TreeNode → Prop
  | .null => True
  | .leaf c h type item => ∀ node,
    cache [] (flushNode sha512Half (fun _ node => node) cowid (.leaf c h type item)).getHash =
      some node → node = flushNode sha512Half (fun _ node => node) cowid (.leaf c h type item)
  | .inner c h hashes children =>
    (∀ i, (children i).cowid ≠ 0 → NoCollision (fun path => cache (i :: path)) cowid (children i)) ∧
      ∀ node, cache [] (flushNode sha512Half (fun _ node => node) cowid
        (.inner c h hashes children)).getHash = some node →
          node = flushNode sha512Half (fun _ node => node) cowid (.inner c h hashes children)

end Flush

theorem rebuilds_hashed (sha512Half : Blob → Uint256) (hcow : cowid ≠ 0) :
    Rebuilds sha512Half cowid (fun _ => True) (TreeNode.Hashed sha512Half) where
  null := trivial
  newInner := ⟨fun _ => trivial, fun h => absurd h hcow, fun _ => rfl⟩
  newLeaf := fun _ _ _ => rfl
  leafType := fun _ _ _ _ _ => trivial
  child := fun _ _ _ _ h => h.1
  setChild := by
    intro node m child hn hc
    cases node with
    | null => rw [unshareNode_null]; trivial
    | leaf c h type item => rw [unshareNode_leaf]; exact hn
    | inner c h hashes children =>
      rw [unshareNode_inner]
      exact ⟨TreeNode.forall_update hn.1 hc m, fun h => absurd h hcow, fun _ => rfl⟩

variable {t : TreeNode}

/-- A walk to a leaf that somebody owns leads through nodes that somebody owns. -/
theorem Walk.hashed_inPlace {key : Uint256} {id : NodeID} {top : TreeNode × NodeID}
    {rest : NodeStack} (hw : Walk key t id top rest) (ht : t.Hashed sha512Half)
    (htop : top.1.cowid ≠ 0) {new : TreeNode} (hnew : new.Hashed sha512Half)
    (hcow : new.cowid = top.1.cowid) :
    (inPlace key rest new).Hashed sha512Half ∧ (inPlace key rest new).cowid = t.cowid ∧ t.cowid ≠ 0 := by
  induction hw with
  | leaf c h type item id | stop hn => exact ⟨hnew, hcow, htop⟩
  | @down c h hashes children id id' top rest hn hid hwl ih =>
    obtain ⟨hch, hs, hne⟩ := ih (ht.1 _) htop hcow
    have hc : c ≠ 0 := by
      intro h0
      exact hne ((ht.2.1 h0).2.2 _)
    have ha : inPlace key (rest ++ [(.inner c h hashes children, id)]) new =
        .inner c h hashes (Function.update children (selectBranch id key) (inPlace key rest new)) :=
      List.foldl_append
    rw [ha]
    exact ⟨⟨TreeNode.forall_update ht.1 hch _, fun h0 => absurd h0 hc, ht.2.2⟩, rfl, hc⟩

@[simp] theorem isEmpty_shape (t : TreeNode) : t.shape.isEmpty = t.isNull := by
  cases t <;> rfl

variable {type : LeafType}

section

variable (type) (t : Radix 16 Item)

@[simp] theorem shape_clean : (clean sha512Half type t).shape = t := by
  induction t with
  | empty => rfl
  | leaf item => rfl
  | inner cs ih => exact congrArg Radix.inner (funext ih)

@[simp] theorem getHash_clean : (clean sha512Half type t).getHash = merkle sha512Half type t := by
  cases t <;> rfl

@[simp] theorem cowid_clean : (clean sha512Half type t).cowid = 0 := by
  cases t <;> rfl

theorem isNull_clean : (clean sha512Half type t).isNull = t.isEmpty := by
  rw [← isEmpty_shape, shape_clean]

theorem ofType_clean : (clean sha512Half type t).OfType type := by
  induction t with
  | empty => trivial
  | leaf item => rfl
  | inner cs ih => exact ih

theorem hashed_clean : (clean sha512Half type t).Hashed sha512Half := by
  induction t with
  | empty => trivial
  | leaf item => rfl
  | inner cs ih =>
    refine ⟨ih, fun _ => ⟨?_, ?_, fun i => cowid_clean type (cs i)⟩, fun h => absurd rfl h⟩
    · simp only [merkle, getHash_clean, isNull_clean]
    · funext i
      rw [getHash_clean]

end

theorem updateHashDeep_clean (type : LeafType) (cowid c : UInt32) (h : Uint256)
    (hashes : Fin 16 → Uint256) (cs : Fin 16 → Radix 16 Item) :
    ((preFlushNode cowid (.inner c h hashes fun i => clean sha512Half type (cs i))).updateHashDeep
      sha512Half).unshare = clean sha512Half type (.inner cs) := by
  unfold preFlushNode
  split <;> simp [TreeNode.clone, TreeNode.withCowid, TreeNode.updateHashDeep, TreeNode.updateHash,
    TreeNode.unshare, clean, merkle, isNull_clean]

section

variable (h : t.Hashed sha512Half) (ht : t.OfType type)

include h ht

theorem TreeNode.Hashed.eq_clean (hcow : t.cowid = 0) : t = clean sha512Half type t.shape := by
  induction t with
  | null => rfl
  | leaf c hash t item =>
    cases hcow
    cases ht
    cases h
    rfl
  | inner c hash hashes children ih =>
    obtain rfl : c = 0 := hcow
    obtain ⟨hh, hhs, hcw⟩ := h.2.1 rfl
    have hc : ∀ i, children i = clean sha512Half type (children i).shape :=
      fun i => ih i (h.1 i) (ht i) (hcw i)
    have hm : ∀ i, (children i).getHash = merkle sha512Half type (children i).shape := by
      intro i
      rw [← getHash_clean, ← hc i]
    simp only [TreeNode.shape, clean, merkle, TreeNode.inner.injEq, true_and]
    refine ⟨?_, ?_, funext hc⟩
    · simp only [hh, hm, isEmpty_shape]
    · rw [hhs]
      exact funext hm

theorem flushNode_eq_clean (cowid : UInt32) :
    flushNode sha512Half (fun _ node => node) cowid t = clean sha512Half type t.shape := by
  induction t with
  | null => rfl
  | leaf c hash t item =>
    cases ht
    rw [flushNode, preFlushNode]
    split <;> rfl
  | inner c hash hashes children ih =>
    have hc : (fun i => if (children i).cowid ≠ 0 then
        flushNode sha512Half (fun _ node => node) cowid (children i) else children i) =
          fun i => clean sha512Half type (children i).shape := by
      funext i
      split_ifs with hcow
      · exact ih i (h.1 i) (ht i)
      · exact (h.1 i).eq_clean (ht i) (not_not.mp hcow)
    rw [flushNode]
    simp only [hc]
    exact updateHashDeep_clean type cowid c hash hashes _

end

theorem canonicalize_of_same {path : List (Fin 16)} {node : TreeNode}
    (h : ∀ other, cache path node.getHash = some other → other = node) :
    canonicalize cache path node = node := by
  unfold canonicalize
  cases hc : cache path node.getHash with
  | none => rfl
  | some other => exact h other hc

theorem NoCollision.flushNode_eq (h : NoCollision sha512Half cache cowid t) :
    flushNode sha512Half (canonicalize cache) cowid t =
      flushNode sha512Half (fun _ node => node) cowid t := by
  induction t generalizing cache with
  | null => rfl
  | leaf c hash t item => exact canonicalize_of_same h
  | inner c hash hashes children ih =>
    have hc : (fun i => if (children i).cowid ≠ 0 then
        flushNode sha512Half (fun path => canonicalize cache (i :: path)) cowid (children i)
        else children i) = fun i => if (children i).cowid ≠ 0 then
        flushNode sha512Half (fun _ node => node) cowid (children i) else children i := by
      funext i
      split_ifs with hcow
      · exact ih i (h.1 i hcow)
      · rfl
    have hs := canonicalize_of_same h.2
    rw [flushNode] at hs ⊢
    simp only [hc]
    exact hs

theorem noCollision_none (cowid : UInt32) (t : TreeNode) :
    NoCollision sha512Half (fun _ _ => none) cowid t := by
  induction t with
  | null => trivial
  | leaf c hash t item => exact nofun
  | inner c hash hashes children ih => exact ⟨fun i _ => ih i, nofun⟩

section Map

variable {m m' : SHAMap} {write : List (Fin 16) → TreeNode → TreeNode} {n : Nat}

variable (hc : Canonical m.root.shape)

include hc

/-- Whatever is left to flush, the map has the clean tree afterwards. -/
theorem walkSubTree_root (hh : m.root.Hashed sha512Half) (ht : m.root.OfType type)
    (hw : m.root.cowid ≠ 0 → m.root.getBranchCount ≠ 0 → flushNode sha512Half write m.cowid m.root = clean sha512Half type m.root.shape)
    (h : m.walkSubTree sha512Half write = some (m', n)) :
    m' = { m with root := clean sha512Half type m.root.shape } := by
  obtain ⟨root, cowid, state, backed⟩ := m
  obtain ⟨cs, hcs⟩ := hc.inner
  dsimp only at *
  unfold walkSubTree at h
  split at h
  · rename_i hcow
    cases h
    rw [← hh.eq_clean ht hcow]
  rename_i hcow
  cases root with
  | null => cases hcs
  | leaf c hash t item => cases hcs
  | inner c hash hashes children =>
    dsimp only at h
    split at h
    · rename_i hn
      cases h
      have he : ∀ i, children i = .null := by
        intro i
        by_contra hi
        exact List.not_mem_nil (hn ▸ mem_branches.mpr hi)
      simp [TreeNode.shape, he, clean, merkle, innerHash, TreeNode.newInner, Radix.isEmpty]
    · rename_i hs
      split_ifs at h
      cases h
      rw [hw hcow (mt List.length_eq_zero_iff.mp hs)]

theorem exists_walkSubTree (ha : m.cowid = 0 → m.root.cowid = 0) :
    ∃ m' n, m.walkSubTree sha512Half write = some (m', n) := by
  obtain ⟨root, cowid, state, backed⟩ := m
  obtain ⟨cs, hcs⟩ := hc.inner
  dsimp only at *
  unfold walkSubTree
  split
  · exact ⟨_, _, rfl⟩
  rename_i hcow
  cases root with
  | null => cases hcs
  | leaf c hash t item => cases hcs
  | inner c hash hashes children =>
    dsimp only
    split
    · exact ⟨_, _, rfl⟩
    · rw [if_neg (mt ha hcow)]
      exact ⟨_, _, rfl⟩

end Map

end Rippled.SHAMap
