import Rippled.SHAMap.Walk

namespace Rippled.SHAMap

open Lib List Option

theorem unshareNode_inner (cowid c : UInt32) (h : Uint256) (hashes : Fin 16 → Uint256)
    (children : Fin 16 → TreeNode) :
    unshareNode cowid (.inner c h hashes children) = .inner cowid h hashes children := by
  unfold unshareNode
  split_ifs with hc
  · rfl
  · simp only [ne_eq, not_not] at hc
    rw [← hc]
    rfl

variable {key : Uint256} {id : NodeID} {rest : NodeStack}

section Shape

variable {t : TreeNode} {top : TreeNode × NodeID} {f : Nat → Radix 16 Item → Radix 16 Item}
  {new : TreeNode}

/-- Rebuilding the nodes above the end of a walk changes the shape at the end of the walk only. -/
theorem Walk.shape_foldl {step : TreeNode → TreeNode × NodeID → TreeNode}
    (hs : ∀ c h hashes children id child, (step child (.inner c h hashes children, id)).shape = .inner (Function.update (fun i => (children i).shape) (selectBranch id key) child.shape))
    (hw : Walk key t id top rest)
    (hnew : new.shape = top.1.shape.alter BaseUInt.nibble key f top.2.depth) :
    (rest.foldl step new).shape = t.shape.alter BaseUInt.nibble key f id.depth := by
  induction hw with
  | leaf c h type item id => exact hnew
  | stop hn => exact hnew
  | down hn hid _ ih =>
    rw [foldl_append, foldl_cons, foldl_nil, hs, ih hnew,
      NodeID.getChildNodeID_depth hid]
    rfl

theorem shape_dirtyUp_step (cowid : UInt32) (key : Uint256) (c : UInt32) (h : Uint256)
    (hashes : Fin 16 → Uint256) (children : Fin 16 → TreeNode) (id : NodeID) (child : TreeNode) :
    ((unshareNode cowid (.inner c h hashes children)).setChild (selectBranch id key) child).shape =
      .inner (Function.update (fun i => (children i).shape) (selectBranch id key) child.shape) := by
  rw [unshareNode_inner, TreeNode.setChild_inner, TreeNode.shape, TreeNode.shape_update]

theorem Walk.shape_dirtyUp (hw : Walk key t id top rest) (cowid : UInt32)
    (hnew : new.shape = top.1.shape.alter BaseUInt.nibble key f top.2.depth) :
    (dirtyUp cowid key rest new).shape = t.shape.alter BaseUInt.nibble key f id.depth :=
  hw.shape_foldl (fun c h hashes children id child =>
    shape_dirtyUp_step cowid key c h hashes children id child) hnew

end Shape

variable {m : SHAMap}

section Ends

variable (hc : Canonical m.root.shape)

include hc

theorem Canonical.walk_of_mem {item : Item} (h : item ∈ m.root.shape.items) :
    ∃ c hash type id rest, Walk item.key m.root .root (.leaf c hash type item, id) rest := by
  obtain ⟨⟨node, id⟩, rest, hw⟩ := hc.exists_walk item.key
  have hf := hc.grown.placed.find_eq_some_iff.mpr ⟨h, rfl⟩
  rw [← NodeID.root_depth, hw.find_eq] at hf
  cases node with
  | null => cases hf
  | inner c hash hashes children => cases hf
  | leaf c hash t other =>
    simp only [TreeNode.item?, bind_some] at hf
    split at hf
    · cases hf
      exact ⟨c, hash, t, id, rest, hw⟩
    · cases hf

theorem Canonical.walk_of_absent (h : ∀ b ∈ m.root.shape.items, b.key ≠ key) :
    ∃ node id rest, Walk key m.root .root (node, id) rest ∧
      ∀ item, node.item? = some item → item.key ≠ key := by
  obtain ⟨⟨node, id⟩, rest, hw⟩ := hc.exists_walk key
  have hf := hc.grown.placed.find_eq_none_iff.mpr h
  rw [← NodeID.root_depth, hw.find_eq] at hf
  refine ⟨node, id, rest, hw, fun item hi heq => ?_⟩
  simp [hi, heq] at hf

end Ends

variable {sha512Half : Blob → Uint256} {item : Item} {type : LeafType}

section Add

variable (sha512Half)

/-- Splitting a leaf leaves the chain of inner nodes down to where the two keys differ. -/
theorem shape_splitLeaf (cowid : UInt32) (type : LeafType) (item other : Item) {n fuel : Nat}
    (hdp : id.depth + n = leafDepth) (hf : n ≤ fuel)
    (hdf : ∃ e < n, item.key.nibble (id.depth + e) ≠ other.key.nibble (id.depth + e))
    (stack : NodeStack) :
    ∃ node frames, splitLeaf sha512Half cowid type item other fuel id (.newInner cowid) stack =
        some (node, frames ++ stack) ∧
      (dirtyUp cowid item.key frames node).shape =
        Radix.pair BaseUInt.nibble Item.key item other n id.depth := by
  induction n generalizing fuel id stack with
  | zero =>
    obtain ⟨e, he, -⟩ := hdf
    omega
  | succ n ih =>
    obtain ⟨fuel, rfl⟩ : ∃ f, fuel = f + 1 := ⟨fuel - 1, by omega⟩
    by_cases hs : selectBranch id item.key = selectBranch id other.key
    · obtain ⟨id', hid, hd⟩ :=
        id.exists_getChildNodeID (selectBranch id item.key) (by omega)
      have hl := Radix.differ_later hdf hs
      rw [← hd] at hl
      have hdp' : id'.depth + n = leafDepth := by omega
      have hf' : n ≤ fuel := by omega
      obtain ⟨node, frames, hsp, hsh⟩ :=
        ih hdp' hf' hl ((.newInner cowid, id) :: stack)
      refine ⟨node, frames ++ [(.newInner cowid, id)], ?_, ?_⟩
      · rw [splitLeaf, if_pos hs, hid, bind_some, hsp, append_assoc]
        rfl
      have ha : dirtyUp cowid item.key (frames ++ [(.newInner cowid, id)]) node =
          (unshareNode cowid (.newInner cowid)).setChild (selectBranch id item.key)
            (dirtyUp cowid item.key frames node) := foldl_append
      rw [ha, TreeNode.newInner, shape_dirtyUp_step, hsh, Radix.pair, hd]
      exact (if_pos hs).symm
    · have hn : ((TreeNode.newInner cowid).setChild (selectBranch id item.key)
          (makeTypedLeaf sha512Half type item cowid)).setChild (selectBranch id other.key)
            (makeTypedLeaf sha512Half type other cowid) = .inner cowid 0 (fun _ => 0)
              (Function.update (Function.update (fun _ => .null) (selectBranch id item.key)
                (makeTypedLeaf sha512Half type item cowid)) (selectBranch id other.key)
                  (makeTypedLeaf sha512Half type other cowid)) := by
        simp [TreeNode.newInner]
      refine ⟨_, [], (if_neg hs).trans (congrArg (fun node => some (node, stack)) hn), ?_⟩
      rw [Radix.pair]
      refine Eq.trans ?_ (if_neg hs).symm
      change TreeNode.shape (.inner _ _ _ _) = _
      rw [TreeNode.shape, TreeNode.shape_update, TreeNode.shape_update]
      rfl

theorem fits_of_absent {t : Radix 16 Item} (h : ∀ b ∈ t.items, b.key ≠ item.key) :
    Radix.Fits BaseUInt.nibble Item.key leafDepth 0 item t := by
  intro b hb
  refine ⟨Radix.agree_zero _ _, ?_⟩
  obtain ⟨d, hd, -, hne⟩ := BaseUInt.exists_first_difference (h b hb).symm
  exact ⟨d, hd, hne⟩

theorem Walk.fits {t : TreeNode} {top : TreeNode × NodeID} {rest : NodeStack}
    (hw : Walk item.key t id top rest) (hp : Placed id.depth t.shape)
    (h : Radix.Fits BaseUInt.nibble Item.key leafDepth id.depth item t.shape) :
    Radix.Fits BaseUInt.nibble Item.key leafDepth top.2.depth item top.1.shape := by
  induction hw with
  | leaf c hash type other id => exact h
  | stop hn => exact h
  | down hn hid _ ih =>
    have hd := NodeID.getChildNodeID_depth hid
    apply ih
    · rw [hd]
      exact (hp _).1
    · rw [hd]
      exact h.child hp

variable (type) (hc : Canonical m.root.shape) (hs : m.state ≠ .immutable)

include hc hs

theorem addGiveItem_present (h : ∃ b ∈ m.root.shape.items, b.key = item.key) :
    m.addGiveItem sha512Half type item = some (m, false) := by
  obtain ⟨b, hb, hkey⟩ := h
  obtain ⟨c, hash, t, id, rest, hw⟩ := hc.walk_of_mem hb
  rw [hkey] at hw
  rw [addGiveItem, if_neg hs, hw.walkTowardsKey_eq]
  exact if_pos hkey

theorem addGiveItem_absent (hcow : m.cowid ≠ 0) (h : ∀ b ∈ m.root.shape.items, b.key ≠ item.key) :
    ∃ root, m.addGiveItem sha512Half type item = some ({ m with root := root }, true) ∧
      root.shape = m.root.shape.insert BaseUInt.nibble Item.key leafDepth item 0 := by
  obtain ⟨node, id, rest, hw, hne⟩ := hc.walk_of_absent h
  have hft := hw.fits hc.grown.placed (fits_of_absent h)
  rw [addGiveItem, if_neg hs, hw.walkTowardsKey_eq, append_nil, bind_some]
  cases node with
  | null => cases hw.top_ne_null rfl
  | inner c hash hashes children =>
    refine ⟨_, if_neg hcow, ?_⟩
    apply hw.shape_dirtyUp
    rw [shape_dirtyUp_step, TreeNode.shape, Radix.alter]
    have he := hw.top_empty
    rw [selectBranch] at he
    simp [selectBranch, he, TreeNode.shape, Radix.alter]
  | leaf c hash t other =>
    have hd := Nat.add_sub_cancel' id.depth_le
    have hfl : leafDepth - id.depth ≤ leafDepth + 1 := by omega
    obtain ⟨node, frames, hsp, hsh⟩ :=
      shape_splitLeaf sha512Half m.cowid type item other hd hfl hft.differ rest
    have ha : dirtyUp m.cowid item.key (frames ++ rest) node =
        dirtyUp m.cowid item.key rest (dirtyUp m.cowid item.key frames node) := foldl_append
    refine ⟨dirtyUp m.cowid item.key (frames ++ rest) node, ?_, ?_⟩
    · simp only [hne other rfl, hcow, if_false, hsp, map_some]
    · rw [ha]
      exact hw.shape_dirtyUp m.cowid hsh

end Add

section Delete

theorem onlyBelow_eq {t : TreeNode} (h : t.shape.Full) : onlyBelow t = t.item? := by
  induction t with
  | null => rfl
  | leaf c hash type item => rfl
  | inner c hash hashes children ih =>
    rw [onlyBelow]
    split
    · rename_i i hi
      rw [ih i (h.2 i)]
      cases hc : children i with
      | null => rfl
      | inner => rfl
      | leaf c' hash' type item =>
        have hlen := h.1
        have his := items_inner_eq_branches c hash hashes children
        rw [TreeNode.shape] at his
        rw [his, hi, flatMap_singleton, hc] at hlen
        simp [TreeNode.shape] at hlen
    · rfl

section

variable (sha512Half)

theorem shape_pullUp (type : LeafType) {c : UInt32} {h : Uint256} {hashes : Fin 16 → Uint256}
    {children : Fin 16 → TreeNode} (hf : ∀ i, (children i).shape.Full) :
    (pullUp sha512Half type (.inner c h hashes children)).shape =
      (TreeNode.inner c h hashes children).shape.shrink := by
  have his := items_inner_eq_branches c h hashes children
  have hmem : ∀ i ∈ TreeNode.branches children, 0 < (children i).shape.items.length := by
    intro i hi
    exact items_length_pos (hf i) (mem_branches.mp hi)
  rw [pullUp, TreeNode.getBranchCount, onlyBelow]
  cases hb : TreeNode.branches children with
  | nil =>
    rw [hb, flatMap_nil] at his
    exact (Radix.shrink_of_nil his).symm
  | cons i l =>
    cases l with
    | nil =>
      rw [hb, flatMap_singleton] at his
      simp only [length_singleton, Nat.one_ne_zero, if_false, if_true, onlyBelow_eq (hf i)]
      cases hc : children i with
      | null => exact absurd hc (mem_branches.mp (hb ▸ mem_singleton_self i))
      | leaf c' hash' t item =>
        rw [hc] at his
        exact (Radix.shrink_of_singleton his).symm
      | inner c' hash' hashes' children' =>
        have hlen : 2 ≤ (TreeNode.inner c h hashes children).shape.items.length := by
          have hfl := hf i
          rw [hc] at hfl his
          rw [his]
          exact hfl.1
        exact (Radix.shrink_of_two_le hlen).symm
    | cons j l =>
      have hlen : 2 ≤ (TreeNode.inner c h hashes children).shape.items.length := by
        have hi := hmem i (by simp [hb])
        have hj := hmem j (by simp [hb])
        rw [his, hb, flatMap_cons, flatMap_cons, length_append, length_append]
        omega
      simpa using (Radix.shrink_of_two_le hlen).symm

theorem delUp_append (cowid : UInt32) (type : LeafType) (key : Uint256) (stack : NodeStack)
    (node : TreeNode) (id : NodeID) : delUp sha512Half cowid type key (stack ++ [(node, id)]) =
      if id.isRoot then (unshareNode cowid node).setChild (selectBranch id key)
        (delUp sha512Half cowid type key stack)
      else pullUp sha512Half type ((unshareNode cowid node).setChild (selectBranch id key)
        (delUp sha512Half cowid type key stack)) := by
  rw [delUp, foldl_append]
  rfl

/-- Taking out the leaf at the end of a walk, with what becomes superfluous above it. -/
theorem Walk.shape_pullUp {key : Uint256} {t : TreeNode} {id : NodeID} {top : TreeNode × NodeID}
    {rest : NodeStack} (hw : Walk key t id top rest) (cowid : UInt32) (type : LeafType)
    (hr : id.isRoot = false) (h : t.shape.Full)
    (htop : ∃ item, top.1.item? = some item ∧ item.key = key) :
    (delUp sha512Half cowid type key rest).shape =
      t.shape.erase BaseUInt.nibble Item.key key id.depth := by
  induction hw with
  | leaf c hash type item id =>
    obtain ⟨item', hi, hkey⟩ := htop
    cases hi
    exact (if_pos hkey).symm
  | stop hn =>
    obtain ⟨item', hi, hkey⟩ := htop
    cases hi
  | @down c hash hashes children id id' top rest hn hid hwl ih =>
    have hd := NodeID.getChildNodeID_depth hid
    have hr' : id'.isRoot = false := by simp [NodeID.isRoot, hd]
    have hc := ih hr' (h.2 _) htop
    rw [delUp_append, if_neg (by simp [hr]), unshareNode_inner, TreeNode.setChild_inner,
      SHAMap.shape_pullUp, TreeNode.shape,
      TreeNode.shape_update, hc, hd]
    · rfl
    intro i
    have hf := Radix.Full.update (b := selectBranch id key) h.2
      (t := Radix.erase BaseUInt.nibble Item.key key id'.depth
        (children (selectBranch id key)).shape) (Radix.full_erase (h.2 _)) i
    rw [← hc, ← TreeNode.shape_update] at hf
    exact hf

end

variable (sha512Half)

theorem delItem_absent (hc : Canonical m.root.shape) (hs : m.state ≠ .immutable)
    (h : ∀ b ∈ m.root.shape.items, b.key ≠ key) : m.delItem sha512Half key = some (m, false) := by
  obtain ⟨node, id, rest, hw, hne⟩ := hc.walk_of_absent h
  rw [delItem, if_neg hs, hw.walkTowardsKey_eq, append_nil, bind_some]
  cases node with
  | null => rfl
  | inner c hash hashes children => rfl
  | leaf c hash t other => exact if_pos (hne other rfl)

def eraseItem (key : Uint256) : Radix 16 Item → Radix 16 Item
  | .inner cs => .inner (Function.update cs (key.nibble 0)
      ((cs (key.nibble 0)).erase BaseUInt.nibble Item.key key 1))
  | t => t

theorem delItem_present (hc : Canonical m.root.shape) (hs : m.state ≠ .immutable)
    (hcow : m.cowid ≠ 0) (h : ∃ b ∈ m.root.shape.items, b.key = key) :
    ∃ root, m.delItem sha512Half key = some ({ m with root := root }, true) ∧
      root.shape = eraseItem key m.root.shape := by
  obtain ⟨b, hb, rfl⟩ := h
  obtain ⟨c, hash, t, id, rest, hw⟩ := hc.walk_of_mem hb
  rw [delItem, if_neg hs, hw.walkTowardsKey_eq, append_nil, bind_some]
  simp only [ne_eq, not_true_eq_false, if_false, hcow]
  refine ⟨_, rfl, ?_⟩
  have hi := hc.inner
  have hg := hc.grown
  generalize hr : m.root = root at hw hi hg
  generalize hid : NodeID.root = rid at hw
  cases hw with
  | leaf =>
    obtain ⟨cs, hcs⟩ := hi
    cases hcs
  | @down c' hash' hashes' children' _ id' _ rest hn hid' hwl =>
    subst hid
    have hd := NodeID.getChildNodeID_depth hid'
    have hr' : id'.isRoot = false := by simp [NodeID.isRoot, hd]
    have hch := hwl.shape_pullUp sha512Half m.cowid t hr' (hg.full _ rfl _) ⟨b, rfl, rfl⟩
    rw [delUp_append, if_pos NodeID.root_isRoot, unshareNode_inner, TreeNode.setChild_inner,
      TreeNode.shape, TreeNode.shape_update, hch, hd]
    rfl

end Delete

section Update

variable (sha512Half)

theorem updateGiveItem_absent (type : LeafType) {item : Item} (hc : Canonical m.root.shape)
    (hs : m.state ≠ .immutable) (h : ∀ b ∈ m.root.shape.items, b.key ≠ item.key) :
    m.updateGiveItem sha512Half type item = some (m, false) := by
  obtain ⟨node, id, rest, hw, hne⟩ := hc.walk_of_absent h
  rw [updateGiveItem, if_neg hs, hw.walkTowardsKey_eq, append_nil, bind_some]
  cases node with
  | null => rfl
  | inner c hash hashes children => rfl
  | leaf c hash t other => exact if_pos (hne other rfl)

section Walked

variable {old : Item} {c : UInt32} {hash : Uint256} {t : LeafType}

theorem Walk.updateGiveItem_type (hw : Walk item.key m.root .root (.leaf c hash t old, id) rest)
    (hs : m.state ≠ .immutable) (hkey : old.key = item.key) (ht : t ≠ type) :
    m.updateGiveItem sha512Half type item = some (m, false) := by
  rw [updateGiveItem, if_neg hs, hw.walkTowardsKey_eq, append_nil, bind_some]
  simp [hkey, ht]

variable (hw : Walk item.key m.root .root (.leaf c hash type old, id) rest)
  (hs : m.state ≠ .immutable) (hcow : m.cowid ≠ 0) (hkey : old.key = item.key)

include hw hs hcow hkey

/-- An item takes the place of the one with its key, unless the leaf is shared and the hash stays
the same. -/
theorem Walk.updateGiveItem_replace (h : hash ≠ leafHash sha512Half type item ∨ c = m.cowid) :
    ∃ root, m.updateGiveItem sha512Half type item = some ({ m with root := root }, true) ∧
      root.shape = m.root.shape.replace BaseUInt.nibble Item.key item 0 := by
  rw [updateGiveItem, if_neg hs, hw.walkTowardsKey_eq, append_nil, bind_some]
  simp only [hkey, ne_eq, not_true_eq_false, if_false, hcow, TreeNode.getHash, makeTypedLeaf]
  by_cases hh : hash = leafHash sha512Half type item
  · have hown : c = m.cowid := h.resolve_left fun hne => hne hh
    simp only [hh, not_true_eq_false, if_false, hown, if_true]
    refine ⟨_, rfl, ?_⟩
    apply hw.shape_foldl _ rfl
    intro c h hashes children id child
    rw [TreeNode.shape, TreeNode.shape_update]
  · simp only [hh, not_false_eq_true, if_true]
    exact ⟨_, rfl, hw.shape_dirtyUp m.cowid rfl⟩

theorem Walk.updateGiveItem_lost (hh : hash = leafHash sha512Half type item) (hown : c ≠ m.cowid) :
    m.updateGiveItem sha512Half type item = some (m, true) := by
  rw [updateGiveItem, if_neg hs, hw.walkTowardsKey_eq, append_nil, bind_some]
  simp [hkey, hcow, TreeNode.getHash, makeTypedLeaf, hh, hown]

end Walked

end Update

section Canonical

variable {t : Radix 16 Item}

theorem Canonical.insert {item : Item} (hc : Canonical t) (h : ∀ b ∈ t.items, b.key ≠ item.key) :
    Canonical (t.insert BaseUInt.nibble Item.key leafDepth item 0) := by
  obtain ⟨cs, rfl⟩ := hc.inner
  have hf := fits_of_absent h
  refine ⟨⟨_, rfl⟩, ?_, Radix.together_zero _, ?_, ?_⟩
  · exact Radix.placed_insert hc.grown.placed hf
  · intro cs' _
    decide
  intro cs' hcs
  rw [Radix.insert_inner] at hcs
  cases hcs
  exact Radix.Full.update (hc.grown.full cs rfl)
    (Radix.full_insert (hc.grown.placed _).1 (hf.child hc.grown.placed) (hc.grown.full cs rfl _))

theorem Canonical.replace {item : Item} (hc : Canonical t) (h : ∃ b ∈ t.items, b.key = item.key) :
    Canonical (t.replace BaseUInt.nibble Item.key item 0) := by
  obtain ⟨cs, rfl⟩ := hc.inner
  refine ⟨⟨_, rfl⟩, ?_, Radix.together_zero _, ?_, ?_⟩
  · exact Radix.placed_replace hc.grown.placed h
  · intro cs' _
    decide
  intro cs' hcs
  obtain ⟨b, hb, hkey⟩ := h
  have hb := hc.grown.placed.mem_child.mp hb
  rw [hkey] at hb
  rw [Radix.replace_inner] at hcs
  cases hcs
  exact Radix.Full.update (hc.grown.full cs rfl)
    (Radix.full_replace (hc.grown.placed _).1 ⟨b, hb, hkey⟩ (hc.grown.full cs rfl _))

theorem items_eraseItem (hc : Canonical t) :
    (eraseItem key t).items = t.items.filter fun x => x.key ≠ key := by
  obtain ⟨cs, rfl⟩ := hc.inner
  exact Radix.items_inner_update_filter (Radix.items_erase (hc.grown.placed _).1)
    fun c hc' => hc.grown.placed.ne_of_branch hc'

theorem Canonical.eraseItem {t : Radix 16 Item} {key : Uint256} (hc : Canonical t) :
    Canonical (eraseItem key t) := by
  obtain ⟨cs, rfl⟩ := hc.inner
  refine ⟨⟨_, rfl⟩, ?_, Radix.together_zero _, ?_, ?_⟩
  · apply hc.grown.placed.update (Radix.placed_erase (hc.grown.placed _).1)
    intro a ha
    rw [Radix.items_erase (hc.grown.placed _).1] at ha
    exact hc.grown.placed.digit_eq (mem_of_mem_filter ha)
  · intro cs' _
    decide
  · intro cs' hcs
    cases hcs
    exact Radix.Full.update (hc.grown.full cs rfl) (Radix.full_erase (hc.grown.full cs rfl _))

theorem canonical_new : Canonical (TreeNode.newInner 1).shape where
  inner := ⟨_, rfl⟩
  grown := {
    placed := Radix.placed_inner_empty
    together := Radix.together_zero _
    depth_lt := fun _ _ => by decide
    full := by
      intro cs hcs
      cases hcs
      exact fun _ => trivial }

end Canonical

end Rippled.SHAMap
