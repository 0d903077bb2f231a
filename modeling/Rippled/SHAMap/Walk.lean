import Rippled.SHAMap.Map

namespace Rippled.SHAMap

open Lib List

variable {children : Fin 16 → TreeNode}

section

variable (d : Nat) (t : Radix 16 Item)

/-- Every item lies on the path that the half bytes of its key spell. -/
abbrev Placed : Prop := Radix.Placed BaseUInt.nibble Item.key d t

abbrev Together : Prop := Radix.Together BaseUInt.nibble Item.key d t

abbrev Agree (k l : Uint256) : Prop := Radix.Agree BaseUInt.nibble d k l

theorem eq_of_agree (k l : Uint256) (h : Agree leafDepth k l) : k = l := BaseUInt.ext_nibble h

structure Sub : Prop where
  placed : Placed d t
  full : t.Full
  together : Together d t

/-- A tree at depth `d` whose own node may have fewer than two leaves below it. -/
structure Grown : Prop where
  placed : Placed d t
  together : Together d t
  depth_lt : ∀ cs, t = .inner cs → d < leafDepth
  full : ∀ cs, t = .inner cs → ∀ b, (cs b).Full

end

/-- The shape of a map: the root is an inner node, and every other inner node has at least two
leaves below it. -/
structure Canonical (t : Radix 16 Item) : Prop where
  inner : ∃ cs, t = .inner cs
  grown : Grown 0 t

theorem Sub.grown {d : Nat} {t : Radix 16 Item} (h : Sub d t) : Grown d t where
  placed := h.placed
  together := h.together
  depth_lt := by
    rintro cs rfl
    exact h.full.depth_lt eq_of_agree h.placed h.together
  full := by
    rintro cs rfl
    exact h.full.2

theorem Grown.child {d : Nat} {cs : Fin 16 → Radix 16 Item} (h : Grown d (.inner cs)) (b : Fin 16) :
    Sub (d + 1) (cs b) where
  placed := (h.placed b).1
  full := h.full cs rfl b
  together := h.together.child h.placed b

theorem flatMap_filter_of_nil {α β : Type} {p : α → Bool} {f : α → List β} (l : List α)
    (h : ∀ a, p a = false → f a = []) : (l.filter p).flatMap f = l.flatMap f := by
  induction l with
  | nil => rfl
  | cons a l ih =>
    cases hp : p a with
    | false => rw [filter_cons_of_neg (by simp [hp]), flatMap_cons, h a hp, ih, nil_append]
    | true => rw [filter_cons_of_pos hp, flatMap_cons, flatMap_cons, ih]

theorem items_inner_eq_branches (c : UInt32) (h : Uint256) (hashes : Fin 16 → Uint256)
    (children : Fin 16 → TreeNode) :
    (TreeNode.inner c h hashes children).shape.items =
      (TreeNode.branches children).flatMap fun i => (children i).shape.items := by
  rw [TreeNode.shape, Radix.items, TreeNode.branches, flatMap_filter_of_nil]
  intro i hi
  have hn := TreeNode.isNull_iff.mp (by simpa using hi)
  rw [hn]
  rfl

theorem mem_branches {i : Fin 16} : i ∈ TreeNode.branches children ↔ children i ≠ .null := by
  rw [TreeNode.branches, mem_filter]
  simp [← TreeNode.isNull_iff]

variable {t : TreeNode}

theorem items_length_pos (hf : t.shape.Full) (hn : t ≠ .null) : 0 < t.shape.items.length := by
  apply Nat.pos_of_ne_zero
  intro h
  have he := hf.eq_empty (length_eq_zero_iff.mp h)
  exact hn (TreeNode.shape_eq_empty_iff.mp he)

/-- The way from a node towards a key: the node it ends at and the inner nodes above that. -/
inductive Walk (key : Uint256) : TreeNode → NodeID → TreeNode × NodeID → NodeStack → Prop
  | leaf (c : UInt32) (h : Uint256) (type : LeafType) (item : Item) (id : NodeID) :
    Walk key (.leaf c h type item) id (.leaf c h type item, id) []
  | stop {c : UInt32} {h : Uint256} {hashes : Fin 16 → Uint256} {children : Fin 16 → TreeNode}
    {id : NodeID} (hnull : children (selectBranch id key) = .null) :
    Walk key (.inner c h hashes children) id (.inner c h hashes children, id) []
  | down {c : UInt32} {h : Uint256} {hashes : Fin 16 → Uint256} {children : Fin 16 → TreeNode}
    {id id' : NodeID} {top : TreeNode × NodeID} {rest : NodeStack}
    (hnull : children (selectBranch id key) ≠ .null)
    (hid : id.getChildNodeID (selectBranch id key) = some id')
    (hwalk : Walk key (children (selectBranch id key)) id' top rest) :
    Walk key (.inner c h hashes children) id top (rest ++ [(.inner c h hashes children, id)])

variable {key : Uint256} {id : NodeID} {top : TreeNode × NodeID} {rest : NodeStack}

theorem Walk.walkTowardsKey_eq (h : Walk key t id top rest) (stack : NodeStack) :
    walkTowardsKey key t id stack = some (top :: (rest ++ stack)) := by
  induction h generalizing stack with
  | leaf c h type item id => rfl
  | stop hn => simp [walkTowardsKey, hn, TreeNode.isNull]
  | down hn hid _ ih =>
    have hn := Bool.eq_false_iff.mpr (mt TreeNode.isNull_iff.mp hn)
    simp [walkTowardsKey, hn, hid, ih]

theorem exists_walk (key : Uint256) (ht : t ≠ .null) (h : Grown id.depth t.shape) :
    ∃ top rest, Walk key t id top rest := by
  induction t generalizing id with
  | null => exact absurd rfl ht
  | leaf c hash type item => exact ⟨_, _, .leaf c hash type item id⟩
  | inner c hash hashes children ih =>
    by_cases hn : children (selectBranch id key) = .null
    · exact ⟨_, _, .stop hn⟩
    obtain ⟨id', hid, hd⟩ :=
      id.exists_getChildNodeID (selectBranch id key) (h.depth_lt _ rfl)
    have hc := (h.child (selectBranch id key)).grown
    rw [← hd] at hc
    obtain ⟨top, rest, hw⟩ := ih _ hn hc
    exact ⟨top, _, .down hn hid hw⟩

theorem Canonical.exists_walk {m : SHAMap} (h : Canonical m.root.shape) (key : Uint256) :
    ∃ top rest, Walk key m.root .root top rest := by
  apply SHAMap.exists_walk key _ h.grown
  intro hn
  obtain ⟨cs, hcs⟩ := h.inner
  rw [hn] at hcs
  cases hcs

theorem Walk.top_ne_null (h : Walk key t id top rest) : top.1 ≠ .null := by
  induction h with
  | leaf c h type item id | stop hn => exact TreeNode.noConfusion
  | down _ _ _ ih => exact ih

theorem Walk.top_empty {id' : NodeID} {c : UInt32} {h : Uint256} {hashes : Fin 16 → Uint256}
    (hw : Walk key t id (.inner c h hashes children, id') rest) :
    children (selectBranch id' key) = .null := by
  generalize htop : (TreeNode.inner c h hashes children, id') = top at hw
  induction hw with
  | leaf c h type item id => cases htop
  | stop hn =>
    cases htop
    exact hn
  | down _ _ _ ih => exact ih htop

namespace TreeNode

def item? : TreeNode → Option Item
  | leaf _ _ _ item => some item
  | _ => none

end TreeNode

theorem Walk.find_eq (h : Walk key t id top rest) :
    t.shape.find BaseUInt.nibble Item.key key id.depth =
      top.1.item?.bind fun item => if item.key = key then some item else none := by
  induction h with
  | leaf c h type item id => rfl
  | @stop c h hashes children id hn =>
    simp only [selectBranch] at hn
    simp [TreeNode.shape, Radix.find, hn, TreeNode.item?]
  | down hn hid _ ih =>
    rw [← ih, NodeID.getChildNodeID_depth hid]
    rfl

theorem findKey_of_walk {m : SHAMap} (h : Walk key m.root .root top rest) :
    m.findKey key = some (m.root.shape.find BaseUInt.nibble Item.key key 0) := by
  have hf := h.find_eq
  rw [NodeID.root_depth] at hf
  rw [findKey, h.walkTowardsKey_eq, hf]
  obtain ⟨node, id⟩ := top
  cases node <;> rfl

end Rippled.SHAMap
