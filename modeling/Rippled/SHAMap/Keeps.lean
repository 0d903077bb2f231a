import Rippled.SHAMap.Modify

namespace Rippled.SHAMap

open List Option

variable (sha512Half : Blob → Uint256)

/-- A property of trees that is kept when a map rebuilds the nodes on the way to a key, with new
leaves of the types that have `T`. -/
structure Rebuilds (cowid : UInt32) (T : LeafType → Prop) (P : TreeNode → Prop) : Prop where
  null : P .null
  newInner : P (.newInner cowid)
  newLeaf : ∀ type item, T type → P (makeTypedLeaf sha512Half type item cowid)
  leafType : ∀ c h type item, P (.leaf c h type item) → T type
  child : ∀ c h hashes children, P (.inner c h hashes children) → ∀ i, P (children i)
  setChild : ∀ node m child, P node → P child → P ((unshareNode cowid node).setChild m child)

variable {sha512Half} {cowid : UInt32} {T : LeafType → Prop} {P : TreeNode → Prop}

section

variable (hP : Rebuilds sha512Half cowid T P)

include hP

theorem Rebuilds.walk {key : Uint256} {t : TreeNode} {id : NodeID} {stack stack' : NodeStack}
    (h : walkTowardsKey key t id stack = some stack') (ht : P t) (hs : ∀ e ∈ stack, P e.1) :
    ∀ e ∈ stack', P e.1 := by
  induction t generalizing id stack with
  | null =>
    cases h
    exact hs
  | leaf c hash type item =>
    cases h
    exact forall_mem_cons.mpr ⟨ht, hs⟩
  | inner c hash hashes children ih =>
    rw [walkTowardsKey] at h
    split at h
    · cases h
      exact forall_mem_cons.mpr ⟨ht, hs⟩
    · obtain ⟨id', -, h⟩ := bind_eq_some_iff.mp h
      exact ih _ h (hP.child c hash hashes children ht _) (forall_mem_cons.mpr ⟨ht, hs⟩)

theorem Rebuilds.dirtyUp (key : Uint256) {stack : NodeStack} {child : TreeNode}
    (hs : ∀ e ∈ stack, P e.1) (hc : P child) : P (dirtyUp cowid key stack child) := by
  induction stack generalizing child with
  | nil => exact hc
  | cons e stack ih =>
    apply ih fun e' he => hs e' (mem_cons_of_mem _ he)
    exact hP.setChild _ _ _ (hs e (mem_cons_self ..)) hc

theorem Rebuilds.splitLeaf {type : LeafType} (hT : T type) (item other : Item) {fuel : Nat}
    {id : NodeID} {stack : NodeStack} {split : TreeNode × NodeStack}
    (h : splitLeaf sha512Half cowid type item other fuel id (.newInner cowid) stack = some split)
    (hs : ∀ e ∈ stack, P e.1) : P split.1 ∧ ∀ e ∈ split.2, P e.1 := by
  induction fuel generalizing id stack with
  | zero => cases h
  | succ fuel ih =>
    rw [SHAMap.splitLeaf] at h
    split at h
    · obtain ⟨id', -, h⟩ := bind_eq_some_iff.mp h
      exact ih h (forall_mem_cons.mpr ⟨hP.newInner, hs⟩)
    cases h
    have hone := hP.setChild (.newInner cowid) (selectBranch id item.key) _ hP.newInner
      (hP.newLeaf type item hT)
    rw [TreeNode.newInner, unshareNode_inner] at hone
    have htwo := hP.setChild _ (selectBranch id other.key) _ hone (hP.newLeaf type other hT)
    rw [TreeNode.setChild_inner, unshareNode_inner] at htwo
    exact ⟨htwo, hs⟩

theorem Rebuilds.pullUp {type : LeafType} (hT : T type) (node : TreeNode) (m : Fin 16)
    (child : TreeNode) (hn : P node) (hc : P child) :
    P (pullUp sha512Half type ((unshareNode cowid node).setChild m child)) := by
  have hset := hP.setChild node m child hn hc
  rw [SHAMap.pullUp]
  split
  · exact hP.null
  split
  · rename_i hne _
    cases node with
    | null | leaf c h t item =>
      unfold unshareNode at hne
      split at hne
      · exact absurd rfl hne
      · exact absurd rfl hne
    | inner c h hashes children =>
      rw [unshareNode_inner, TreeNode.setChild_inner] at hset ⊢
      split
      · exact hP.newLeaf type _ hT
      · exact hset
  · exact hset

theorem Rebuilds.delUp {type : LeafType} (hT : T type) (key : Uint256) {stack : NodeStack}
    (hs : ∀ e ∈ stack, P e.1) : P (delUp sha512Half cowid type key stack) := by
  induction stack using List.reverseRecOn with
  | nil => exact hP.null
  | append_singleton stack e ih =>
    have hc := ih fun e' he => hs e' (mem_append_left _ he)
    have he := hs e (by simp)
    obtain ⟨node, id⟩ := e
    rw [delUp_append]
    split
    · exact hP.setChild _ _ _ he hc
    · exact hP.pullUp hT _ _ _ he hc

end

theorem Rebuilds.addGiveItem {m m' : SHAMap} (hP : Rebuilds sha512Half m.cowid T P)
    {type : LeafType} (hT : T type) {item : Item} {r : Bool}
    (h : m.addGiveItem sha512Half type item = some (m', r)) (hr : P m.root) : P m'.root := by
  unfold SHAMap.addGiveItem at h
  split at h
  · cases h
  obtain ⟨stack, hw, h⟩ := bind_eq_some_iff.mp h
  have hs := hP.walk hw hr (forall_mem_nil _)
  split at h
  · rename_i c hash t other id rest
    rw [forall_mem_cons] at hs
    split at h
    · cases h
      exact hr
    split_ifs at h
    obtain ⟨split, hsp, h⟩ := map_eq_some_iff.mp h
    cases h
    obtain ⟨hn, hrs⟩ := hP.splitLeaf hT item other hsp hs.2
    exact hP.dirtyUp item.key hrs hn
  · rename_i c hash hashes children id rest
    rw [forall_mem_cons] at hs
    split_ifs at h
    cases h
    exact hP.dirtyUp item.key hs.2 (hP.setChild _ _ _ hs.1 (hP.newLeaf type item hT))
  · cases h

theorem Rebuilds.delItem {m m' : SHAMap} (hP : Rebuilds sha512Half m.cowid T P) {key : Uint256}
    {r : Bool} (h : m.delItem sha512Half key = some (m', r)) (hr : P m.root) : P m'.root := by
  unfold SHAMap.delItem at h
  split at h
  · cases h
  obtain ⟨stack, hw, h⟩ := bind_eq_some_iff.mp h
  have hs := hP.walk hw hr (forall_mem_nil _)
  split at h
  · rename_i c hash t other id rest
    rw [forall_mem_cons] at hs
    split at h
    · cases h
      exact hr
    split_ifs at h
    cases h
    have hT := hP.leafType _ _ _ _ hs.1
    exact hP.delUp hT key hs.2
  · cases h
  · cases h
    exact hr

/-- A leaf of the map's own that changes in its place without a change of hash is a case of its
own. -/
theorem Rebuilds.updateGiveItem {m m' : SHAMap} (hP : Rebuilds sha512Half m.cowid T P)
    {type : LeafType} {item : Item} {r : Bool}
    (h : m.updateGiveItem sha512Half type item = some (m', r)) (hr : P m.root)
    (hp : ∀ hash old id rest, m.cowid ≠ 0 → walkTowardsKey item.key m.root .root [] = some ((.leaf
      m.cowid hash type old, id) :: rest) → hash = leafHash sha512Half type item → P (inPlace
      item.key rest (makeTypedLeaf sha512Half type item m.cowid))) : P m'.root := by
  unfold SHAMap.updateGiveItem at h
  split at h
  · cases h
  obtain ⟨stack, hw, h'⟩ := bind_eq_some_iff.mp h
  have hs := hP.walk hw hr (forall_mem_nil _)
  split at h'
  · rename_i c hash t old id rest
    rw [forall_mem_cons] at hs
    split at h'
    · cases h'
      exact hr
    split at h'
    · cases h'
      exact hr
    rename_i hkey ht
    simp only [ne_eq, not_not] at hkey ht
    subst ht
    split at h'
    · cases h'
    rename_i hcow
    dsimp only at h'
    split at h'
    · cases h'
      have hT := hP.leafType _ _ _ _ hs.1
      exact hP.dirtyUp item.key hs.2 (hP.newLeaf _ item hT)
    rename_i hh
    simp only [ne_eq, not_not] at hh
    split_ifs at h' with hown
    · subst hown
      cases h'
      exact hp hash old id rest hcow hw hh
    · cases h'
      exact hr
  · cases h'
  · cases h'
    exact hr

theorem inPlace_keeps (key : Uint256) {stack : NodeStack} {child : TreeNode}
    (hP : ∀ c h hashes children i child, P (.inner c h hashes children) → P child →
      P (.inner c h hashes (Function.update children i child)))
    (hs : ∀ e ∈ stack, P e.1) (hc : P child) : P (inPlace key stack child) := by
  induction stack generalizing child with
  | nil => exact hc
  | cons e stack ih =>
    obtain ⟨node, id⟩ := e
    rw [forall_mem_cons] at hs
    apply ih hs.2
    cases node with
    | null => exact hs.1
    | leaf c h type item => exact hs.1
    | inner c h hashes children => exact hP c h hashes children _ child hs.1 hc

def TreeNode.Owned (cowid : UInt32) : TreeNode → Prop
  | .null => True
  | .leaf c _ _ _ => c = cowid
  | .inner _ _ _ children => ∀ i, (children i).Owned cowid

theorem unshareNode_leaf (c : UInt32) (h : Uint256) (type : LeafType) (item : Item) :
    unshareNode cowid (.leaf c h type item) = .leaf cowid h type item := by
  unfold unshareNode
  split_ifs with hc
  · rfl
  · simp only [ne_eq, not_not] at hc
    rw [← hc]
    rfl

theorem unshareNode_null : unshareNode cowid .null = .null := by
  unfold unshareNode
  split <;> rfl

section

variable (sha512Half : Blob → Uint256) (cowid : UInt32)

theorem rebuilds_owned : Rebuilds sha512Half cowid (fun _ => True) (TreeNode.Owned cowid) where
  null := trivial
  newInner := fun _ => trivial
  newLeaf := fun _ _ _ => rfl
  leafType := fun _ _ _ _ _ => trivial
  child := fun _ _ _ _ h => h
  setChild := by
    intro node m child hn hc
    cases node with
    | null => rw [unshareNode_null]; trivial
    | leaf c h type item => rw [unshareNode_leaf]; rfl
    | inner c h hashes children =>
      rw [unshareNode_inner]
      exact TreeNode.forall_update hn hc m

theorem rebuilds_ofType (type : LeafType) :
    Rebuilds sha512Half cowid (· = type) (TreeNode.OfType type) where
  null := trivial
  newInner := fun _ => trivial
  newLeaf := fun _ _ h => h
  leafType := fun _ _ _ _ h => h
  child := fun _ _ _ _ h => h
  setChild := by
    intro node m child hn hc
    cases node with
    | null => rw [unshareNode_null]; trivial
    | leaf c h t item => rw [unshareNode_leaf]; exact hn
    | inner c h hashes children =>
      rw [unshareNode_inner]
      exact TreeNode.forall_update hn hc m

end

theorem Rebuilds.top (hP : Rebuilds sha512Half cowid T P) {key : Uint256} {t : TreeNode} {id : NodeID}
    {top : TreeNode × NodeID} {rest : NodeStack} (hw : Walk key t id top rest) (ht : P t) : P top.1 :=
  hP.walk (hw.walkTowardsKey_eq []) ht (forall_mem_nil _) top (mem_cons_self ..)

end Rippled.SHAMap
