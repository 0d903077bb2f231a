import Rippled.SHAMap.Walk

namespace Rippled.SHAMap

open Lib List

def NodeID.ofLeaf (key : Uint256) : NodeID where
  depth := leafDepth
  id := key
  depth_le := le_rfl
  masked := masked_iff.mpr fun _ hle hd => absurd hd (Nat.not_lt.mpr hle)

/-- The ID that a scan gives to the next inner node: a child of the node on top of the stack. -/
def nextID (branch : Fin 16) : NodeStack → Option NodeID
  | [] => some .root
  | (_, id) :: _ => id.getChildNodeID branch

/-- The first item at or below a node. The nodes on the way to it are pushed on the stack. -/
def firstBelow (branch : Fin 16) : TreeNode → NodeStack → Option (NodeStack × Option Item)
  | .null, _ => none
  | .leaf c h type item, stack =>
    some ((.leaf c h type item, NodeID.ofLeaf item.key) :: stack, some item)
  | .inner c h hashes children, stack =>
    (nextID branch stack).bind fun id =>
      match TreeNode.branches children with
      | [] => some ((.inner c h hashes children, id) :: stack, none)
      | i :: _ => firstBelow branch (children i) ((.inner c h hashes children, id) :: stack)

structure ConstIterator where
  stack : NodeStack
  item : Option Item

def peekNextItem (key : Uint256) : NodeStack → Option ConstIterator
  | [] => some ⟨[], none⟩
  | (.inner c h hashes children, id) :: stack =>
    match (TreeNode.branches children).find? fun i => selectBranch id key < i with
    | some i =>
      (firstBelow i (children i) ((.inner c h hashes children, id) :: stack)).bind fun found =>
        if found.2 = none then none else some ⟨found.1, found.2⟩
    | none => peekNextItem key stack
  | _ => none

/-- Move an iterator to the next item. An iterator at the end cannot be moved. -/
def ConstIterator.next (it : ConstIterator) : Option ConstIterator :=
  it.item.bind fun item => peekNextItem item.key it.stack.tail

def begin (m : SHAMap) : Option ConstIterator :=
  (firstBelow ⟨0, by decide⟩ m.root []).map fun found =>
    match found.2 with
    | none => ⟨[], none⟩
    | some item => ⟨found.1, some item⟩

/-- The next item in the tree after a key, which need not be in the tree. -/
def upperBoundLoop (key : Uint256) : NodeStack → Option ConstIterator
  | [] => some ⟨[], none⟩
  | (.leaf c h type item, id) :: stack =>
    if key < item.key then some ⟨(.leaf c h type item, id) :: stack, some item⟩
    else upperBoundLoop key stack
  | (.inner c h hashes children, id) :: stack =>
    match (TreeNode.branches children).find? fun i => selectBranch id key < i with
    | some i =>
      (firstBelow i (children i) ((.inner c h hashes children, id) :: stack)).bind fun found =>
        if found.2 = none then none else some ⟨found.1, found.2⟩
    | none => upperBoundLoop key stack
  | (.null, _) :: _ => none

def upperBound (m : SHAMap) (key : Uint256) : Option ConstIterator :=
  (walkTowardsKey key m.root .root []).bind (upperBoundLoop key)

/-- Moving an iterator on and on yields the items of a list and then the end. -/
inductive Enumerates : ConstIterator → List Item → Prop
  | done {it : ConstIterator} (h : it.item = none) : Enumerates it []
  | next {it it' : ConstIterator} {item : Item} {items : List Item} (h : it.item = some item)
    (hnext : it.next = some it') (hrest : Enumerates it' items) : Enumerates it (item :: items)

def itemsAfter (children : Fin 16 → TreeNode) (b : Fin 16) : List Item :=
  ((List.finRange 16).filter (b < ·)).flatMap fun i => (children i).shape.items

def after (key : Uint256) : NodeStack → List Item
  | [] => []
  | (.inner _ _ _ children, id) :: stack => itemsAfter children (selectBranch id key) ++ after key stack
  | _ :: stack => after key stack

/-- The inner nodes of a stack lead from the root to a node along the half bytes of a key. -/
inductive Trail (root : TreeNode) (key : Uint256) : NodeStack → TreeNode → Prop
  | root : Trail root key [] root
  | child {c : UInt32} {h : Uint256} {hashes : Fin 16 → Uint256} {children : Fin 16 → TreeNode}
    {id : NodeID} {stack : NodeStack} (hdepth : id.depth = stack.length)
    (htrail : Trail root key stack (.inner c h hashes children)) :
    Trail root key ((.inner c h hashes children, id) :: stack) (children (selectBranch id key))

theorem items_inner_split (c : UInt32) (h : Uint256) (hashes : Fin 16 → Uint256)
    (children : Fin 16 → TreeNode) (b : Fin 16) : (TreeNode.inner c h hashes children).shape.items =
      ((List.finRange 16).filter (· < b)).flatMap (fun i => (children i).shape.items) ++
        ((children b).shape.items ++ itemsAfter children b) := by
  have hr : ∀ b : Fin 16, List.finRange 16 =
      (List.finRange 16).filter (· < b) ++ b :: (List.finRange 16).filter (b < ·) := by
    decide
  rw [TreeNode.shape, Radix.items, itemsAfter]
  conv_lhs => rw [hr b]
  rw [flatMap_append, flatMap_cons]

variable {root t : TreeNode} {key : Uint256} {stack : NodeStack}

section Trail

variable (h : Trail root key stack t) (hr : Grown 0 root.shape)

include h hr

theorem Trail.grown : Grown stack.length t.shape := by
  induction h with
  | root => exact hr
  | child hd _ ih => exact (ih.child _).grown

theorem Trail.of_mem {item : Item} (hi : item ∈ t.shape.items) :
    Trail root item.key stack t ∧ after item.key stack = after key stack ∧
      Agree stack.length item.key key := by
  induction h with
  | root => exact ⟨.root, rfl, Radix.agree_zero _ _⟩
  | @child c hash hashes children id stack hd htr ih =>
    obtain ⟨ht, ha, hag⟩ := ih (Radix.mem_items_inner.mpr ⟨_, hi⟩)
    have hb : selectBranch id item.key = selectBranch id key := by
      have hdg := (htr.grown hr).placed.digit_eq hi
      rwa [← hd] at hdg
    refine ⟨?_, ?_, ?_⟩
    · have := ht.child hd
      rwa [hb] at this
    · rw [after, after, hb, ha]
    rw [length_cons]
    apply hag.succ
    rw [← hd]
    exact hb

end Trail

/-- An iterator points to an item, with the trail to it, and a list of items is still to come. -/
structure PointsTo (root : TreeNode) (it : ConstIterator) (a : Item) (l : List Item) : Prop where
  item : it.item = some a
  trail : ∃ node, Trail root a.key it.stack.tail node ∧ a ∈ node.shape.items
  rest : after a.key it.stack.tail = l

variable {children : Fin 16 → TreeNode} {i : Fin 16}

theorem first_branch {l : List (Fin 16)} (h : TreeNode.branches children = i :: l) :
    children i ≠ .null ∧ ∀ j < i, children j = .null := by
  have hs : (TreeNode.branches children).Pairwise (· < ·) :=
    (pairwise_lt_finRange 16).filter _
  rw [h, pairwise_cons] at hs
  refine ⟨mem_branches.mp (by simp [h]), ?_⟩
  intro j hj
  by_contra hn
  have hmem := mem_branches.mpr hn
  rw [h, mem_cons] at hmem
  obtain rfl | hmem := hmem
  · exact lt_irrefl _ hj
  · exact lt_asymm hj (hs.1 j hmem)

theorem Trail.nextID_eq (h : Trail root key stack t) (branch : Fin 16)
    (hlt : stack.length < leafDepth) :
    ∃ id, nextID branch stack = some id ∧ id.depth = stack.length := by
  cases h with
  | root => exact ⟨.root, rfl, rfl⟩
  | @child c h hashes children id stack hdp ht =>
    rw [length_cons] at hlt
    obtain ⟨id', hid, hd⟩ := id.exists_getChildNodeID branch (by omega)
    exact ⟨id', hid, by rw [hd, hdp, length_cons]⟩

/-- The trail goes on into every branch, with some key below the branch. -/
theorem Trail.into {c : UInt32} {h : Uint256} {hashes : Fin 16 → Uint256} {id : NodeID}
    (ht : Trail root key stack (.inner c h hashes children)) (hr : Grown 0 root.shape)
    (hd : id.depth = stack.length) (hn : children i ≠ .null) : (children i).shape.items ≠ [] ∧
      ∃ key', Trail root key' ((.inner c h hashes children, id) :: stack) (children i) ∧
        after key' ((.inner c h hashes children, id) :: stack) =
          itemsAfter children i ++ after key stack := by
  have hg := ht.grown hr
  have hpos := items_length_pos (hg.full _ rfl i) hn
  obtain ⟨x, hx⟩ := exists_mem_of_length_pos hpos
  have hxt : x ∈ (TreeNode.inner c h hashes children).shape.items :=
    Radix.mem_items_inner.mpr ⟨i, hx⟩
  obtain ⟨hown, ha, -⟩ := ht.of_mem hr hxt
  have hb : selectBranch id x.key = i := by
    have hdg := hg.placed.digit_eq hx
    rwa [← hd] at hdg
  have hc := hown.child hd
  rw [hb] at hc
  refine ⟨ne_nil_of_length_pos hpos, x.key, hc, ?_⟩
  rw [after, hb, ha]

theorem firstBelow_eq (branch : Fin 16) (hr : Grown 0 root.shape) (ht : Trail root key stack t)
    (hne : t.shape.items ≠ []) : ∃ top a l, firstBelow branch t stack = some (top, some a) ∧
      PointsTo root ⟨top, some a⟩ a (l ++ after key stack) ∧ t.shape.items = a :: l := by
  induction t generalizing key stack with
  | null => exact absurd rfl hne
  | leaf c h type item =>
    obtain ⟨hown, ha, -⟩ := ht.of_mem hr (mem_singleton_self item)
    exact ⟨_, item, [], rfl, ⟨rfl, ⟨_, hown, mem_singleton_self item⟩, ha⟩, rfl⟩
  | inner c h hashes children ih =>
    obtain ⟨id, hid, hd⟩ := ht.nextID_eq branch ((ht.grown hr).depth_lt _ rfl)
    cases hb : TreeNode.branches children with
    | nil =>
      rw [items_inner_eq_branches, hb] at hne
      exact absurd rfl hne
    | cons i rest =>
      obtain ⟨hn, hbf⟩ := first_branch hb
      obtain ⟨hi, key', hc, ha⟩ := ht.into hr hd hn
      obtain ⟨top, a, l, hf, hp, hs⟩ := ih i hc hi
      refine ⟨top, a, l ++ itemsAfter children i, ?_, ?_, ?_⟩
      · rw [firstBelow, hid, Option.bind_some, hb]
        exact hf
      · rw [ha, ← append_assoc] at hp
        exact hp
      have hnil : ((List.finRange 16).filter (· < i)).flatMap
          (fun j => (children j).shape.items) = [] := by
        rw [flatMap_eq_nil_iff]
        intro j hj
        rw [hbf j (by simpa using hj)]
        rfl
      rw [items_inner_split c h hashes children i, hnil, hs]
      rfl

variable {b : Fin 16}

theorem itemsAfter_eq_nil (h : ∀ j, b < j → children j = .null) : itemsAfter children b = [] := by
  rw [itemsAfter, flatMap_eq_nil_iff]
  intro j hj
  rw [h j (by simpa using hj)]
  rfl

theorem itemsAfter_eq_append (hlt : b < i) (h : ∀ j, b < j → j < i → children j = .null) :
    itemsAfter children b = (children i).shape.items ++ itemsAfter children i := by
  have hr : ∀ b i : Fin 16, b < i → (List.finRange 16).filter (b < ·) =
      ((List.finRange 16).filter (b < ·)).filter (· < i) ++ i :: (List.finRange 16).filter (i < ·) := by
    decide
  rw [itemsAfter, hr b i hlt, flatMap_append, flatMap_cons, itemsAfter]
  have hnil : (((List.finRange 16).filter (b < ·)).filter (· < i)).flatMap
      (fun j => (children j).shape.items) = [] := by
    rw [flatMap_eq_nil_iff]
    intro j hj
    rw [mem_filter, mem_filter] at hj
    rw [h j (by simpa using hj.1.2) (by simpa using hj.2)]
    rfl
  rw [hnil, nil_append]

theorem find_branch (h : (TreeNode.branches children).find? (fun i => b < i) = some i) :
    children i ≠ .null ∧ b < i ∧ ∀ j, b < j → j < i → children j = .null := by
  have hs : (TreeNode.branches children).Pairwise (· < ·) :=
    (pairwise_lt_finRange 16).filter _
  refine ⟨mem_branches.mp (mem_of_find?_eq_some h), by simpa using find?_some h, ?_⟩
  intro j hbj hji
  obtain ⟨-, l₁, l₂, hsp, hb⟩ := find?_eq_some_iff_append.mp h
  by_contra hn
  have hmem := mem_branches.mpr hn
  rw [hsp] at hmem hs
  obtain hmem | hmem := mem_append.mp hmem
  · exact absurd hbj (by simpa using hb j hmem)
  have hle : i ≤ j := by
    obtain rfl | hmem := mem_cons.mp hmem
    · exact le_rfl
    · exact ((pairwise_cons.mp (pairwise_append.mp hs).2.1).1 j hmem).le
  exact absurd hji (not_lt.mpr hle)

theorem find_branch_none (h : (TreeNode.branches children).find? (fun i => b < i) = none) :
    ∀ j, b < j → children j = .null := by
  intro j hj
  by_contra hn
  exact absurd hj (by simpa using find?_eq_none.mp h j (mem_branches.mpr hn))

/-- The next item after a key is the first that comes after it in the nodes of its trail. -/
theorem peekNextItem_eq (hr : Grown 0 root.shape) (ht : Trail root key stack t) :
    ∃ it, peekNextItem key stack = some it ∧ ((after key stack = [] ∧ it.item = none) ∨
        ∃ a l, after key stack = a :: l ∧ PointsTo root it a l) := by
  induction ht with
  | root => exact ⟨_, rfl, .inl ⟨rfl, rfl⟩⟩
  | @child c h hashes children id stack hd ht ih =>
    rw [peekNextItem, after]
    cases hf : (TreeNode.branches children).find? fun i => selectBranch id key < i with
    | none =>
      rw [itemsAfter_eq_nil (find_branch_none hf)]
      exact ih
    | some i =>
      obtain ⟨hn, hlt, hb⟩ := find_branch hf
      obtain ⟨hi, key', hc, ha⟩ := ht.into hr hd hn
      obtain ⟨top, a, l, hfr, hp, hs⟩ := firstBelow_eq i hr hc hi
      refine ⟨⟨top, some a⟩, ?_, .inr ⟨a, l ++ (itemsAfter children i ++ after key stack), ?_, ?_⟩⟩
      · simp only [hfr, Option.bind_some, reduceCtorEq, if_false]
      · rw [itemsAfter_eq_append hlt hb, hs]
        simp
      · rw [ha] at hp
        exact hp

theorem PointsTo.enumerates {it : ConstIterator} {a : Item} {l : List Item}
    (hr : Grown 0 root.shape) (h : PointsTo root it a l) : Enumerates it (a :: l) := by
  induction l generalizing it a with
  | nil =>
    obtain ⟨node, ht, -⟩ := h.trail
    obtain ⟨it', hn, ⟨-, hend⟩ | ⟨b, l, ha, -⟩⟩ := peekNextItem_eq hr ht
    · exact .next h.item (by rw [ConstIterator.next, h.item, Option.bind_some, hn]) (.done hend)
    · rw [h.rest] at ha
      cases ha
  | cons b l ih =>
    obtain ⟨node, ht, -⟩ := h.trail
    obtain ⟨it', hn, ⟨ha, -⟩ | ⟨b', l', ha, hp⟩⟩ := peekNextItem_eq hr ht
    · rw [h.rest] at ha
      cases ha
    · rw [h.rest] at ha
      cases ha
      exact .next h.item (by rw [ConstIterator.next, h.item, Option.bind_some, hn]) (ih hp)

theorem begin_enumerates {m : SHAMap} (hc : Canonical m.root.shape) :
    ∃ it, begin m = some it ∧ Enumerates it m.root.shape.items := by
  by_cases hne : m.root.shape.items = []
  · rw [hne]
    obtain ⟨cs, hcs⟩ := hc.inner
    cases hr : m.root with
    | null | leaf c h type item =>
      rw [hr] at hcs
      cases hcs
    | inner c h hashes children =>
      have hb : TreeNode.branches children = [] := by
        cases hb : TreeNode.branches children with
        | nil => rfl
        | cons i l =>
          have hg := hc.grown
          rw [hr] at hg hne
          obtain ⟨hn, -⟩ := first_branch hb
          have hpos := items_length_pos (hg.full _ rfl i) hn
          obtain ⟨x, hx⟩ := exists_mem_of_length_pos hpos
          have hxt : x ∈ (TreeNode.inner c h hashes children).shape.items :=
            Radix.mem_items_inner.mpr ⟨i, hx⟩
          rw [hne] at hxt
          cases hxt
      refine ⟨⟨[], none⟩, ?_, .done rfl⟩
      simp [begin, hr, firstBelow, nextID, hb]
  · have ht : Trail m.root 0 [] m.root := .root
    obtain ⟨top, a, l, hf, hp, hi⟩ := firstBelow_eq 0 hc.grown ht hne
    rw [after, append_nil] at hp
    rw [hi]
    exact ⟨⟨top, some a⟩, by simp [begin, hf], hp.enumerates hc.grown⟩

theorem Walk.trail {id : NodeID} {top : TreeNode × NodeID} {rest : NodeStack}
    (hw : Walk key t id top rest) (ht : Trail root key stack t) (hdp : id.depth = stack.length) :
    Trail root key (rest ++ stack) top.1 ∧ top.2.depth = (rest ++ stack).length := by
  induction hw generalizing stack with
  | leaf c h type item id | stop hn => exact ⟨ht, hdp⟩
  | down hn hid _ ih =>
    have hd := NodeID.getChildNodeID_depth hid
    rw [append_assoc]
    exact ih (ht.child hdp) (by rw [hd, hdp]; rfl)

section

variable (ht : Trail root key stack t)

include ht

theorem Trail.filter_items (hr : Grown 0 root.shape) :
    root.shape.items.filter (fun x => key < x.key) =
      t.shape.items.filter (fun x => key < x.key) ++ after key stack := by
  induction ht with
  | root => simp [after]
  | @child c h hashes children id stack hd ht ih =>
    have hdg : ∀ j, ∀ x ∈ (children j).shape.items,
        Agree stack.length x.key key ∧ x.key.nibble stack.length = j := by
      intro j x hx
      obtain ⟨-, -, ha⟩ := ht.of_mem hr (Radix.mem_items_inner.mpr ⟨j, hx⟩)
      exact ⟨ha, (ht.grown hr).placed.digit_eq hx⟩
    have hb : (((List.finRange 16).filter (· < selectBranch id key)).flatMap
        fun i => (children i).shape.items).filter (fun x => key < x.key) = [] := by
      rw [filter_eq_nil_iff]
      intro x hx
      obtain ⟨j, hj, hx⟩ := mem_flatMap.mp hx
      obtain ⟨ha, hn⟩ := hdg j x hx
      have hlt : x.key < key := by
        refine BaseUInt.lt_iff_nibble.mpr ⟨stack.length, ha, ?_⟩
        rw [hn, ← hd]
        exact of_decide_eq_true (mem_filter.mp hj).2
      simpa using BaseUInt.lt_asymm hlt
    have haf : (itemsAfter children (selectBranch id key)).filter (fun x => key < x.key) =
        itemsAfter children (selectBranch id key) := by
      rw [filter_eq_self]
      intro x hx
      obtain ⟨j, hj, hx⟩ := mem_flatMap.mp hx
      obtain ⟨ha, hn⟩ := hdg j x hx
      have hlt : key < x.key := by
        refine BaseUInt.lt_iff_nibble.mpr ⟨stack.length, ha.symm, ?_⟩
        rw [hn, ← hd]
        exact of_decide_eq_true (mem_filter.mp hj).2
      simpa using hlt
    rw [ih, items_inner_split c h hashes children (selectBranch id key), filter_append, hb,
      filter_append, haf, after, nil_append, append_assoc]

theorem Trail.upperBoundLoop_eq : upperBoundLoop key stack = peekNextItem key stack := by
  induction ht with
  | root => rfl
  | child hd _ ih => rw [upperBoundLoop, peekNextItem, ih]

theorem Trail.next_enumerates (hr : Grown 0 root.shape) :
    ∃ it, upperBoundLoop key stack = some it ∧ Enumerates it (after key stack) := by
  rw [ht.upperBoundLoop_eq]
  obtain ⟨it, hn, ⟨ha, hend⟩ | ⟨a, l, ha, hp⟩⟩ := peekNextItem_eq hr ht
  · exact ⟨it, hn, ha ▸ .done hend⟩
  · exact ⟨it, hn, ha ▸ hp.enumerates hr⟩

end

theorem upperBound_enumerates {m : SHAMap} (hc : Canonical m.root.shape) (key : Uint256) :
    ∃ it, upperBound m key = some it ∧
      Enumerates it (m.root.shape.items.filter fun x => key < x.key) := by
  obtain ⟨⟨node, id⟩, rest, hw⟩ := hc.exists_walk key
  have hs : Trail m.root key [] m.root := .root
  obtain ⟨ht, hd⟩ := hw.trail hs rfl
  rw [append_nil] at ht hd
  rw [upperBound, hw.walkTowardsKey_eq, append_nil, Option.bind_some]
  cases node with
  | null => exact absurd rfl hw.top_ne_null
  | inner c h hashes children =>
    have hdw := ht.child hd
    rw [hdw.filter_items hc.grown, hw.top_empty]
    exact hdw.next_enumerates hc.grown
  | leaf c h type item =>
    rw [ht.filter_items hc.grown, upperBoundLoop]
    split_ifs with hlt
    · obtain ⟨hown, ha, -⟩ := ht.of_mem hc.grown (mem_singleton_self item)
      have hp : PointsTo m.root ⟨(.leaf c h type item, id) :: rest, some item⟩ item
          (after key rest) := ⟨rfl, ⟨_, hown, mem_singleton_self item⟩, ha⟩
      refine ⟨_, rfl, ?_⟩
      simpa [TreeNode.shape, hlt] using hp.enumerates hc.grown
    · simpa [TreeNode.shape, hlt] using ht.next_enumerates hc.grown

end Rippled.SHAMap
