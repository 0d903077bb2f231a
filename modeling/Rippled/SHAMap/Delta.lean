import Rippled.SHAMap.History
import Rippled.Lib.Budget

namespace Rippled.SHAMap

open Lib Budget List

variable {key : Uint256} {item : Item} {d : Nat} {c c' : Contents}

abbrev DeltaItem := Option Item × Option Item

abbrev Delta := List (Uint256 × DeltaItem)

instance : DecidableEq Delta := inferInstance

abbrev Compare := Action Uint256 DeltaItem

def TreeNode.getChildHash (node : TreeNode) (m : Fin 16) : Uint256 :=
  match node with
  | .inner _ _ hashes _ => if node.isEmptyBranch m then 0 else hashes m
  | _ => 0

def deltaRef (isFirstMap : Bool) (ours other : Option Item) : DeltaItem :=
  if isFirstMap then (ours, other) else (other, ours)

/-- The items of a branch in the order in which they come off the stack: the branch that was pushed
last first. -/
def stacked : TreeNode → List Item
  | .null => []
  | .leaf _ _ _ item => [item]
  | .inner _ _ _ children => (List.finRange 16).reverse.flatMap fun i => stacked (children i)

/-- Go through the items of a branch that is matched by an empty branch or a single item in the
other map. The flag says that there is no such item, or that it has been met. -/
def walkItems (otherMapItem : Option Item) (isFirstMap : Bool) : List Item → Bool → Compare
  | [], emptyBranch =>
    match otherMapItem with
    | some other =>
      if emptyBranch then skip else emit other.key (deltaRef isFirstMap none (some other))
    | none => skip
  | item :: items, emptyBranch =>
    match otherMapItem with
    | some other =>
      if emptyBranch ∨ item.key ≠ other.key then
        andThen (emit item.key (deltaRef isFirstMap (some item) none))
          (walkItems otherMapItem isFirstMap items emptyBranch)
      else if item.data ≠ other.data then
        andThen (emit item.key (deltaRef isFirstMap (some item) (some other)))
          (walkItems otherMapItem isFirstMap items true)
      else walkItems otherMapItem isFirstMap items true
    | none =>
      andThen (emit item.key (deltaRef isFirstMap (some item) none))
        (walkItems otherMapItem isFirstMap items emptyBranch)

def walkBranch (node : TreeNode) (otherMapItem : Option Item) (isFirstMap : Bool) : Compare :=
  walkItems otherMapItem isFirstMap (stacked node) otherMapItem.isNone

/-- Compare two nodes at the same place. Of two inner nodes, the branches that only one has are
walked at once, and the others are pushed on a stack, so that the last one is compared first. -/
def compareNodes : TreeNode → TreeNode → Compare
  | .leaf _ _ _ ours, .leaf _ _ _ other =>
    if ours.key = other.key then
      if ours.data ≠ other.data then emit ours.key (some ours, some other) else skip
    else andThen (emit ours.key (some ours, none)) (emit other.key (none, some other))
  | .inner c h hashes children, .leaf _ _ _ other =>
    walkBranch (.inner c h hashes children) (some other) true
  | .leaf _ _ _ ours, .inner c h hashes children =>
    walkBranch (.inner c h hashes children) (some ours) false
  | .inner c h hashes children, .inner c' h' hashes' children' =>
    let differ := fun i => (TreeNode.inner c h hashes children).getChildHash i ≠
      (TreeNode.inner c' h' hashes' children').getChildHash i
    andThen
      (each (fun i =>
        if differ i then
          if (children' i).isNull then walkBranch (children i) none true
          else if (children i).isNull then walkBranch (children' i) none false
          else skip
        else skip) (List.finRange 16))
      (each (fun i =>
        if differ i ∧ ¬ (children' i).isNull ∧ ¬ (children i).isNull then
          compareNodes (children i) (children' i)
        else skip) (List.finRange 16).reverse)
  | _, _ => fun _ => none

/-- Compare two maps and add up to `maxCount` differences to a table. The result says whether the
table is complete. -/
def compare (sha512Half : Blob → Uint256) (m otherMap : SHAMap) (differences : Delta)
    (maxCount : Int) : Option (Bool × Delta) :=
  if m.state = .invalid ∨ otherMap.state = .invalid then none
  else
    (m.getHash sha512Half).bind fun ours =>
      (otherMap.getHash sha512Half).bind fun other =>
        if ours.1 = other.1 then some (true, differences)
        else
          (compareNodes ours.2.root other.2.root ⟨differences, maxCount⟩).map fun r =>
            (r.1, r.2.out)

/-- A table that has every key for which two finite maps differ, once, and nothing else. -/
structure Exact (l : Delta) (c c' : Contents) : Prop where
  nodup : (l.map Prod.fst).Nodup
  mem : ∀ key x y, (key, x, y) ∈ l ↔ x = c key ∧ y = c' key ∧ x ≠ y

theorem Exact.perm {l l' : Delta} (h : Exact l c c') (hp : l.Perm l') : Exact l' c c' where
  nodup := (hp.map Prod.fst).nodup_iff.mp h.nodup
  mem := fun key x y => hp.mem_iff.symm.trans (h.mem key x y)

theorem exact_nil (c : Contents) : Exact [] c c where
  nodup := nodup_nil
  mem := by
    intro key x y
    simp only [not_mem_nil, false_iff]
    rintro ⟨rfl, rfl, hne⟩
    exact hne rfl

theorem Exact.eq_nil {l : Delta} (h : Exact l c c) : l = [] := by
  apply eq_nil_iff_forall_not_mem.mpr
  rintro ⟨key, x, y⟩ hmem
  obtain ⟨rfl, rfl, hne⟩ := (h.mem key x y).mp hmem
  exact hne rfl

def orient (isFirstMap : Bool) (e : Uint256 × DeltaItem) : Uint256 × DeltaItem :=
  (e.1, deltaRef isFirstMap e.2.1 e.2.2)

@[simp] theorem orient_true (l : Delta) : l.map (orient true) = l :=
  map_id _

theorem Exact.swap {l : Delta} (h : Exact l c c') : Exact (l.map (orient false)) c' c where
  nodup := by
    rw [map_map]
    exact h.nodup
  mem := by
    intro key x y
    have hs : (key, x, y) ∈ l.map (orient false) ↔ (key, y, x) ∈ l := by
      rw [mem_map]
      constructor
      · rintro ⟨⟨k, u, v⟩, hmem, heq⟩
        cases heq
        exact hmem
      · intro hmem
        exact ⟨_, hmem, rfl⟩
    rw [hs, h.mem]
    exact ⟨fun ⟨hy, hx, hne⟩ => ⟨hx, hy, hne.symm⟩, fun ⟨hx, hy, hne⟩ => ⟨hy, hx, hne.symm⟩⟩

section Branch

/-- What an item of a branch adds to the table, and what the other item adds if it is not met. -/
def against (other : Option Item) (item : Item) : Delta :=
  match other with
  | some o =>
    if item.key ≠ o.key then [(item.key, some item, none)]
    else if item.data ≠ o.data then [(item.key, some item, some o)] else []
  | none => [(item.key, some item, none)]

def unmet (other : Option Item) (items : List Item) : Delta :=
  match other with
  | some o => if o.key ∈ items.map Item.key then [] else [(o.key, none, some o)]
  | none => []

variable {items : List Item} {isFirstMap : Bool}

theorem emits_walkItems_none (flag : Bool) :
    Emits (walkItems none isFirstMap items flag)
      ((items.flatMap (against none)).map (orient isFirstMap)) := by
  induction items with
  | nil => exact emits_skip
  | cons item items ih => exact (emits_emit _ _).andThen ih

theorem emits_walkItems_met {other : Item} (h : other.key ∉ items.map Item.key) :
    Emits (walkItems (some other) isFirstMap items true)
      ((items.flatMap (against (some other))).map (orient isFirstMap)) := by
  induction items with
  | nil => exact emits_skip
  | cons item items ih =>
    rw [map_cons, mem_cons, not_or] at h
    have ha : against (some other) item = [(item.key, some item, none)] := if_pos (Ne.symm h.1)
    rw [flatMap_cons, ha, walkItems, if_pos (.inl rfl)]
    exact (emits_emit _ _).andThen (ih h.2)

theorem emits_walkItems_some {other : Item} (hn : (items.map Item.key).Nodup) :
    Emits (walkItems (some other) isFirstMap items false)
      ((items.flatMap (against (some other)) ++ unmet (some other) items).map
        (orient isFirstMap)) := by
  induction items with
  | nil => exact emits_emit _ _
  | cons item items ih =>
    rw [map_cons, nodup_cons] at hn
    rw [walkItems]
    by_cases hkey : item.key = other.key
    · have hmet : Emits (walkItems (some other) isFirstMap items true)
          ((items.flatMap (against (some other))).map (orient isFirstMap)) :=
        emits_walkItems_met (hkey ▸ hn.1)
      have hu : unmet (some other) (item :: items) = [] := if_pos (by simp [hkey])
      rw [if_neg (by simp [hkey]), hu, append_nil, flatMap_cons]
      by_cases hd : item.data = other.data
      · have ha : against (some other) item = [] := by simp [against, hkey, hd]
        rw [if_neg (not_not.mpr hd), ha]
        exact hmet
      have ha : against (some other) item = [(item.key, some item, some other)] := by
        simp [against, hkey, hd]
      rw [if_pos hd, ha]
      exact (emits_emit _ _).andThen hmet
    · have ha : against (some other) item = [(item.key, some item, none)] := if_pos hkey
      have hu : unmet (some other) (item :: items) = unmet (some other) items := by
        simp [unmet, Ne.symm hkey]
      rw [if_pos (.inr hkey), hu, flatMap_cons, ha]
      exact (emits_emit _ _).andThen (ih hn.2)

def single (other : Option Item) : Contents := fun key => other.filter (·.key = key)

theorem single_eq_some_iff {other : Option Item} :
    single other key = some item ↔ other = some item ∧ item.key = key := by
  simp [single, Option.filter_eq_some_iff]

theorem mem_against {other : Option Item} {x y : Option Item} : (key, x, y) ∈ against other item ↔
      key = item.key ∧ x = some item ∧ y = single other key ∧ x ≠ y := by
  cases other with
  | none =>
    simp only [against, single, mem_singleton, Prod.mk.injEq, Option.filter_none]
    constructor
    · rintro ⟨rfl, rfl, rfl⟩
      exact ⟨rfl, rfl, rfl, nofun⟩
    · rintro ⟨hkey, hx, hy, -⟩
      exact ⟨hkey, hx, hy⟩
  | some o =>
    obtain ⟨k, d⟩ := item
    obtain ⟨k', d'⟩ := o
    unfold against single
    grind

variable (other : Option Item)

theorem keys_against (item : Item) :
    (against other item).map Prod.fst = [item.key] ∨ against other item = [] := by
  unfold against
  grind

theorem nodup_against (hn : (items.map Item.key).Nodup) :
    ((items.flatMap (against other)).map Prod.fst).Nodup := by
  have hsub : ((items.flatMap (against other)).map Prod.fst).Sublist (items.map Item.key) := by
    clear hn
    induction items with
    | nil => exact List.Sublist.refl _
    | cons item items ih =>
      rw [flatMap_cons, map_append, map_cons]
      obtain h | h := keys_against other item
      · rw [h]
        exact ih.cons_cons _
      · rw [h]
        exact ih.cons _
  exact hn.sublist hsub

theorem exact_branch (hc : ∀ key item, c key = some item ↔ item ∈ items ∧ item.key = key)
    (hnd : (items.map Item.key).Nodup) :
    Exact (items.flatMap (against other) ++ unmet other items) c (single other) where
  nodup := by
    rw [map_append, nodup_append]
    refine ⟨nodup_against other hnd, ?_, ?_⟩
    · unfold unmet
      grind
    intro k hk k' hk' heq
    subst heq
    obtain ⟨⟨k₁, x, y⟩, hmem, rfl⟩ := mem_map.mp hk
    obtain ⟨item, hi, hmem⟩ := mem_flatMap.mp hmem
    have hkey : k₁ = item.key := (mem_against.mp hmem).1
    have hin : k₁ ∈ items.map Item.key := hkey ▸ mem_map_of_mem hi
    cases other with
    | none => exact absurd hk' (by simp [unmet])
    | some o =>
      unfold unmet at hk'
      grind
  mem := by
    intro key x y
    rw [mem_append, mem_flatMap]
    have hu : (key, x, y) ∈ unmet other items ↔
        x = none ∧ y = single other key ∧ y ≠ none ∧ c key = none := by
      have hn : c key = none ↔ key ∉ items.map Item.key := by
        rw [Option.eq_none_iff_forall_ne_some, mem_map, not_exists]
        exact forall_congr' fun item => not_congr (hc key item)
      rw [hn]
      unfold unmet single
      grind
    rw [hu]
    constructor
    · rintro (⟨item, hi, hmem⟩ | ⟨rfl, hy, hne, hn⟩)
      · obtain ⟨rfl, rfl, hy, hne⟩ := mem_against.mp hmem
        exact ⟨((hc _ _).mpr ⟨hi, rfl⟩).symm, hy, hne⟩
      · exact ⟨hn.symm, hy, hne.symm⟩
    rintro ⟨hx, hy, hne⟩
    cases hcs : c key with
    | none =>
      rw [hcs] at hx
      exact .inr ⟨hx, hy, hx ▸ hne.symm, rfl⟩
    | some item =>
      obtain ⟨hi, rfl⟩ := (hc key item).mp hcs
      rw [hcs] at hx
      exact .inl ⟨item, hi, mem_against.mpr ⟨rfl, hx, hy, hne⟩⟩

end Branch

theorem stacked_perm (t : TreeNode) : (stacked t).Perm t.shape.items := by
  induction t with
  | null | leaf c h type item => exact List.Perm.refl _
  | inner c h hashes children ih =>
    rw [stacked, TreeNode.shape, Radix.items]
    exact (reverse_perm _).flatMap fun i _ => ih i

def contentsAt (d : Nat) (t : Radix 16 Item) : Contents :=
  fun key => t.find BaseUInt.nibble Item.key key d

theorem emits_walkBranch {t : TreeNode} (hp : Placed d t.shape) (other : Option Item)
    (isFirstMap : Bool) : ∃ l, Emits (walkBranch t other isFirstMap) (l.map (orient isFirstMap)) ∧
      Exact l (contentsAt d t.shape) (single other) := by
  have hpr := stacked_perm t
  have hn : ((stacked t).map Item.key).Nodup := by
    rw [(hpr.map Item.key).nodup_iff, List.Nodup, pairwise_map]
    exact hp.pairwise_ne
  have hc : ∀ key item, contentsAt d t.shape key = some item ↔ item ∈ stacked t ∧ item.key = key := by
    intro key item
    rw [hpr.mem_iff]
    exact hp.find_eq_some_iff
  refine ⟨_, ?_, exact_branch other hc hn⟩
  cases other with
  | none =>
    rw [unmet, append_nil]
    exact emits_walkItems_none true
  | some o => exact emits_walkItems_some hn

theorem contentsAt_eq_some {t : Radix 16 Item} (hp : Placed d t) :
    contentsAt d t key = some item ↔ item ∈ t.items ∧ item.key = key :=
  hp.find_eq_some_iff

theorem contentsAt_leaf (d : Nat) (item : Item) : contentsAt d (.leaf item) = single (some item) := by
  funext key
  simp only [contentsAt, Radix.find, single, Option.filter]
  split <;> simp_all

theorem contentsAt_inner (d : Nat) (cs : Fin 16 → Radix 16 Item) (key : Uint256) :
    contentsAt d (.inner cs) key = contentsAt (d + 1) (cs (key.nibble d)) key := rfl

section Inner

variable {d : Nat} {cs ds : Fin 16 → Radix 16 Item} {l : Fin 16 → Delta}

section

variable (hp : Placed d (.inner cs)) (hq : Placed d (.inner ds))

include hp hq

theorem Exact.nibble_eq {i : Fin 16} {table : Delta}
    (h : Exact table (contentsAt (d + 1) (cs i)) (contentsAt (d + 1) (ds i))) {x y : Option Item}
    (hmem : (key, x, y) ∈ table) : key.nibble d = i := by
  obtain ⟨hx, hy, hne⟩ := (h.mem key x y).mp hmem
  cases x with
  | some item =>
    obtain ⟨hi, rfl⟩ := (contentsAt_eq_some (hp i).1).mp hx.symm
    exact hp.digit_eq hi
  | none =>
    cases y with
    | some item =>
      obtain ⟨hi, rfl⟩ := (contentsAt_eq_some (hq i).1).mp hy.symm
      exact hq.digit_eq hi
    | none => exact absurd rfl hne

theorem exact_inner (h : ∀ i, Exact (l i) (contentsAt (d + 1) (cs i)) (contentsAt (d + 1) (ds i))) :
    Exact ((List.finRange 16).flatMap l) (contentsAt d (.inner cs)) (contentsAt d (.inner ds)) where
  nodup := by
    rw [map_flatMap, nodup_flatMap]
    refine ⟨fun i _ => (h i).nodup, (nodup_finRange 16).imp ?_⟩
    intro i j hij key hi hj
    obtain ⟨⟨k, x, y⟩, hmem, rfl⟩ := mem_map.mp hi
    obtain ⟨⟨k', x', y'⟩, hmem', heq⟩ := mem_map.mp hj
    obtain rfl : k' = k := heq
    exact hij (((h i).nibble_eq hp hq hmem).symm.trans ((h j).nibble_eq hp hq hmem'))
  mem := by
    intro key x y
    rw [contentsAt_inner, contentsAt_inner, ← (h (key.nibble d)).mem, mem_flatMap]
    constructor
    · rintro ⟨i, -, hmem⟩
      rwa [(h i).nibble_eq hp hq hmem]
    · intro hmem
      exact ⟨_, mem_finRange _, hmem⟩

end

theorem two_passes_perm {l₁ l₂ : Fin 16 → Delta} (h : ∀ i, l₁ i ++ l₂ i = l i) :
    ((List.finRange 16).flatMap l₁ ++ (List.finRange 16).reverse.flatMap l₂).Perm
      ((List.finRange 16).flatMap l) := by
  have hrev : ((List.finRange 16).reverse.flatMap l₂).Perm ((List.finRange 16).flatMap l₂) :=
    (reverse_perm _).flatMap fun _ _ => List.Perm.refl _
  have hl := funext fun i => (h i).symm
  rw [hl]
  exact (hrev.append_left _).trans (flatMap_append_perm _ _ _)

end Inner

section Compare

variable {sha512Half : Blob → Uint256} {type : LeafType}

variable (sha512Half type) in
theorem getChildHash_clean (cs : Fin 16 → Radix 16 Item) (i : Fin 16) :
    (clean sha512Half type (.inner cs)).getChildHash i = merkle sha512Half type (cs i) := by
  simp only [clean, TreeNode.getChildHash, TreeNode.isEmptyBranch, isNull_clean]
  split_ifs with he
  · rw [isEmpty_iff.mp he]
    rfl
  · rfl

variable (sha512Half type) in
theorem emits_walkClean {d : Nat} {t : Radix 16 Item} (hp : Placed d t) (other : Option Item)
    (isFirstMap : Bool) :
    ∃ l, Emits (walkBranch (clean sha512Half type t) other isFirstMap) (l.map (orient isFirstMap)) ∧
      Exact l (contentsAt d t) (single other) := by
  have hc : Placed d (clean sha512Half type t).shape := by rwa [shape_clean]
  have h := emits_walkBranch hc other isFirstMap
  rwa [shape_clean] at h

theorem emits_leaves (x y : Item) (d : Nat) :
    ∃ l, Emits (compareNodes (clean sha512Half type (.leaf x)) (clean sha512Half type (.leaf y))) l ∧
      Exact l (contentsAt d (.leaf x)) (contentsAt d (.leaf y)) := by
  have hc : ∀ key item, contentsAt d (.leaf x) key = some item ↔ item ∈ [x] ∧ item.key = key :=
    fun key item => contentsAt_eq_some (show Placed d (.leaf x) from trivial)
  have he := exact_branch (some y) hc (by simp)
  rw [contentsAt_leaf d y]
  refine ⟨_, ?_, he⟩
  simp only [clean, makeTypedLeaf, compareNodes, flatMap_cons, flatMap_nil, append_nil]
  by_cases hkey : x.key = y.key
  · by_cases hd : x.data = y.data
    · simpa [hkey, hd, against, unmet] using emits_skip
    · simpa [hkey, hd, against, unmet] using emits_emit y.key (some x, some y)
  · simpa [hkey, Ne.symm hkey, against, unmet] using
      (emits_emit x.key (some x, none)).andThen (emits_emit y.key (none, some y))

/-- The differences of a branch, and what is done to add them in each of the cases. -/
structure BranchTable (sha512Half : Blob → Uint256) (type : LeafType) (d : Nat) (t u : Radix 16 Item)
    (l : Delta) : Prop where
  exact : Exact l (contentsAt d t) (contentsAt d u)
  ours : u = .empty → Emits (walkBranch (clean sha512Half type t) none true) l
  other : t = .empty → Emits (walkBranch (clean sha512Half type u) none false) l
  both : t ≠ .empty → u ≠ .empty →
    Emits (compareNodes (clean sha512Half type t) (clean sha512Half type u)) l

theorem exists_branchTable {t u : Radix 16 Item} (ht : Placed d t) (hu : Placed d u)
    (hb : t ≠ .empty → u ≠ .empty → ∃ l,
      Emits (compareNodes (clean sha512Half type t) (clean sha512Half type u)) l ∧
      Exact l (contentsAt d t) (contentsAt d u)) :
    ∃ l, BranchTable sha512Half type d t u l := by
  by_cases hue : u = .empty
  · subst hue
    obtain ⟨l, hem, hec⟩ := emits_walkClean sha512Half type ht none true
    rw [orient_true] at hem
    by_cases hte : t = .empty
    · subst hte
      rw [hec.eq_nil] at hem hec
      exact ⟨[], hec, fun _ => hem, fun _ => emits_skip, fun hne => absurd rfl hne⟩
    · exact ⟨l, hec, fun _ => hem, fun he => absurd he hte, fun _ hne => absurd rfl hne⟩
  · by_cases hte : t = .empty
    · subst hte
      obtain ⟨l, hem, hec⟩ := emits_walkClean sha512Half type hu none false
      exact ⟨_, hec.swap, fun he => absurd he hue, fun _ => hem, fun hne => absurd rfl hne⟩
    · obtain ⟨l, hem, hec⟩ := hb hte hue
      exact ⟨l, hec, fun he => absurd he hue, fun he => absurd he hte, fun _ _ => hem⟩

abbrev Pushed (cs ds : Fin 16 → Radix 16 Item) (i : Fin 16) : Prop :=
  ¬ (ds i).isEmpty ∧ ¬ (cs i).isEmpty

/-- The two passes over the branches of two inner nodes add the differences of all branches. -/
theorem emits_inner {cs ds : Fin 16 → Radix 16 Item} {l : Fin 16 → Delta}
    (h : ∀ i, BranchTable sha512Half type d (cs i) (ds i) (l i))
    (hs : ∀ i, merkle sha512Half type (cs i) = merkle sha512Half type (ds i) → cs i = ds i) :
    ∃ l', l'.Perm ((List.finRange 16).flatMap l) ∧
      Emits (compareNodes (clean sha512Half type (.inner cs)) (clean sha512Half type (.inner ds))) l' := by
  have hpr : ∀ i, (if Pushed cs ds i then [] else l i) ++ (if Pushed cs ds i then l i else []) =
      l i := by
    intro i
    split <;> simp
  refine ⟨_, two_passes_perm hpr, ?_⟩
  have hnil : ∀ i, merkle sha512Half type (cs i) = merkle sha512Half type (ds i) → l i = [] := by
    intro i hi
    have hec := (h i).exact
    rw [hs i hi] at hec
    exact hec.eq_nil
  have hh := getChildHash_clean sha512Half type
  simp only [clean] at hh
  simp only [clean, compareNodes, hh, isNull_clean]
  apply Emits.andThen
  · apply Emits.each
    intro i _
    split
    · rename_i hd
      split
      · rename_i hu
        rw [if_neg fun hp => hp.1 hu]
        exact (h i).ours (isEmpty_iff.mp hu)
      rename_i hu
      split
      · rename_i ht
        rw [if_neg fun hp => hp.2 ht]
        exact (h i).other (isEmpty_iff.mp ht)
      · rename_i ht
        rw [if_pos ⟨hu, ht⟩]
        exact emits_skip
    · rename_i heq
      rw [hnil i (not_not.mp heq), ite_self]
      exact emits_skip
  · apply Emits.each
    intro i _
    split
    · rename_i hc
      rw [if_pos hc.2]
      exact (h i).both (fun he => hc.2.2 (isEmpty_iff.mpr he))
        fun he => hc.2.1 (isEmpty_iff.mpr he)
    rename_i hc
    by_cases hps : Pushed cs ds i
    · have heq : merkle sha512Half type (cs i) = merkle sha512Half type (ds i) := by
        by_contra hne
        exact hc ⟨hne, hps⟩
      rw [hnil i heq, ite_self]
      exact emits_skip
    · rw [if_neg hps]
      exact emits_skip

/-- Comparing two nodes at the same place adds exactly their differences. -/
theorem emits_compareNodes {t u : Radix 16 Item}
    (hf : CollisionFree sha512Half (blobs sha512Half type t ++ blobs sha512Half type u))
    (hid : Identified type t.items u.items) (ht : Grown d t) (hu : Grown d u) (htne : t ≠ .empty)
    (hune : u ≠ .empty) :
    ∃ l, Emits (compareNodes (clean sha512Half type t) (clean sha512Half type u)) l ∧
      Exact l (contentsAt d t) (contentsAt d u) := by
  induction t generalizing d u with
  | empty => exact absurd rfl htne
  | leaf x =>
    cases u with
    | empty => exact absurd rfl hune
    | leaf y => exact emits_leaves x y d
    | inner ds =>
      obtain ⟨l, he, hec⟩ := emits_walkClean sha512Half type hu.placed (some x) false
      rw [contentsAt_leaf]
      exact ⟨_, he, hec.swap⟩
  | inner cs ih =>
    cases u with
    | empty => exact absurd rfl hune
    | leaf y =>
      obtain ⟨l, he, hec⟩ := emits_walkClean sha512Half type ht.placed (some y) true
      rw [contentsAt_leaf]
      exact ⟨l, orient_true l ▸ he, hec⟩
    | inner ds =>
      have htb : ∀ i, ∃ l, BranchTable sha512Half type (d + 1) (cs i) (ds i) l := by
        intro i
        apply exists_branchTable (ht.child i).placed (hu.child i).placed
        exact ih i (hf.child i) (hid.child i) (ht.child i).grown (hu.child i).grown
      choose l hl using htb
      have hs : ∀ i, merkle sha512Half type (cs i) = merkle sha512Half type (ds i) →
          cs i = ds i := fun i =>
        eq_of_merkle_eq (hf.child i) (hid.child i) (ht.child i).full (hu.child i).full
      obtain ⟨l', hp, he⟩ := emits_inner hl hs
      exact ⟨l', he, (exact_inner ht.placed hu.placed fun i => (hl i).exact).perm hp.symm⟩

/-- Maps with the same hash hold the same, and the differences of others are added. -/
theorem exists_compare {a b : SHAMap} (ha : Kept sha512Half type a) (hb : Kept sha512Half type b)
    (hva : a.state ≠ .invalid) (hvb : b.state ≠ .invalid) (hf : CollisionFree sha512Half
      (blobs sha512Half type a.root.shape ++ blobs sha512Half type b.root.shape))
    (hid : Identified type a.root.shape.items b.root.shape.items) {maxCount : Int}
    (hmax : 1 ≤ maxCount) :
    ∃ l, Exact l (contents a.root.shape) (contents b.root.shape) ∧
      compare sha512Half a b [] maxCount =
        some (decide ((l.length : Int) < maxCount), l.take maxCount.toNat) := by
  obtain ⟨a', hasha, har⟩ := ha.exists_getHash
  obtain ⟨b', hbs, hbr⟩ := hb.exists_getHash
  obtain ⟨cs, hcs⟩ := ha.canonical.inner
  obtain ⟨ds, hds⟩ := hb.canonical.inner
  have hga := ha.canonical.grown
  have hgb := hb.canonical.grown
  rw [hcs] at hasha har hf hid hga ⊢
  rw [hds] at hbs hbr hf hid hgb ⊢
  rw [compare, if_neg (not_or.mpr ⟨hva, hvb⟩), hasha, Option.bind_some, hbs, Option.bind_some]
  by_cases hh : merkle sha512Half type (.inner cs) = merkle sha512Half type (.inner ds)
  · have hs : cs = ds := by
      funext i
      exact eq_of_merkle_eq (hf.child i) (hid.child i) (hga.child i).full (hgb.child i).full
        (merkle_children_eq hf hh i)
    subst hs
    refine ⟨[], exact_nil _, ?_⟩
    have hpos : (0 : Int) < maxCount := hmax
    simp [hpos]
  · obtain ⟨l, hem, he⟩ := emits_compareNodes hf hid hga hgb nofun nofun
    refine ⟨l, he, ?_⟩
    have hrun := hem ⟨[], maxCount⟩ hmax (by simpa using he.nodup)
    rw [if_neg hh, har, hbr, hrun]
    rfl

/-- Comparing two maps gives their exact difference where it has fewer than `maxCount` keys, and
else `maxCount` entries of it. The other way round, the difference is the same with the pairs
swapped. -/
theorem compare_exact (sha512Half : Blob → Uint256) (type : LeafType) {a b : SHAMap}
    (ha : Kept sha512Half type a) (hb : Kept sha512Half type b) (hva : a.state ≠ .invalid)
    (hvb : b.state ≠ .invalid) (hfree : CollisionFree sha512Half
      (blobs sha512Half type a.root.shape ++ blobs sha512Half type b.root.shape))
    (hid : Identified type a.root.shape.items b.root.shape.items) {maxCount : Int}
    (hmax : 1 ≤ maxCount) :
    ∃ l l', Exact l (contents a.root.shape) (contents b.root.shape) ∧
      (∀ key x y, (key, y, x) ∈ l' ↔ (key, x, y) ∈ l) ∧ l'.length = l.length ∧
      ((l.length : Int) < maxCount → compare sha512Half a b [] maxCount = some (true, l) ∧
        compare sha512Half b a [] maxCount = some (true, l')) ∧
      (maxCount ≤ l.length →
        compare sha512Half a b [] maxCount = some (false, l.take maxCount.toNat) ∧
        compare sha512Half b a [] maxCount = some (false, l'.take maxCount.toNat) ∧
        ((l.take maxCount.toNat).length : Int) = maxCount ∧
        ((l'.take maxCount.toNat).length : Int) = maxCount) := by
  have hfree' := hfree.mono fun x hx => List.mem_append.mpr (List.mem_append.mp hx).symm
  have hid' : Identified type b.root.shape.items a.root.shape.items :=
    fun ht y hy x hx h => (hid ht x hx y hy h.symm).symm
  obtain ⟨l, hexact, hcompare⟩ := exists_compare ha hb hva hvb hfree hid hmax
  obtain ⟨l', hexact', hcompare'⟩ := exists_compare hb ha hvb hva hfree' hid' hmax
  have hswap : ∀ key x y, (key, y, x) ∈ l' ↔ (key, x, y) ∈ l := by
    intro key x y
    rw [hexact'.mem, hexact.mem]
    exact ⟨fun ⟨hy, hx, hne⟩ => ⟨hx, hy, hne.symm⟩, fun ⟨hx, hy, hne⟩ => ⟨hy, hx, hne.symm⟩⟩
  have hperm : (l.map (orient false)).Perm l' := by
    apply (List.perm_ext_iff_of_nodup hexact.swap.nodup.of_map hexact'.nodup.of_map).mpr
    rintro ⟨key, y, x⟩
    rw [hexact.swap.mem, hexact'.mem]
  have hlength : l'.length = l.length := by
    rw [← hperm.length_eq, List.length_map]
  refine ⟨l, l', hexact, hswap, hlength, ?_, ?_⟩
  · intro hfew
    have hall : l.length ≤ maxCount.toNat := by omega
    rw [hcompare, hcompare', hlength, decide_eq_true hfew, List.take_of_length_le hall,
      List.take_of_length_le (hlength ▸ hall)]
    exact ⟨rfl, rfl⟩
  · intro hmany
    have hnot : ¬ (l.length : Int) < maxCount := by omega
    rw [hcompare, hcompare', hlength, decide_eq_false hnot, List.length_take, List.length_take, hlength]
    exact ⟨rfl, rfl, by omega, by omega⟩

def sumHash : Blob → Uint256 := fun blob =>
  ⟨fun i => if i.val = 0 then 1 else if i.val = 1 then blob.getD 1 0
    else if i.val = 2 then blob.foldl (· + ·) 0 else 0⟩

def mapWith (type : LeafType) (items : List Item) : Option SHAMap :=
  history sumHash (new true) (items.map fun item => .op (.add type item))

theorem kept_mapWith {items : List Item} {m : SHAMap} (h : mapWith type items = some m) :
    Kept sumHash type m := by
  refine kept_history ?_ ?_ h
  · simp [Event.OfType, Op.OfType]
  clear h
  generalize new true = m₀
  induction items generalizing m₀ with
  | nil => trivial
  | cons item items ih => exact ⟨trivial, fun m' _ => ih m'⟩

theorem compare_exact_leaves : ∃ a b, mapWith .tnACCOUNT_STATE [itemAt 0x10] = some a ∧
    mapWith .tnACCOUNT_STATE [itemAt 0x11] = some b ∧
    ∃ l l', Exact l (contents a.root.shape) (contents b.root.shape) ∧ l.length = 2 ∧
      compare sumHash a b [] 3 = some (true, l) ∧ compare sumHash b a [] 3 = some (true, l') := by
  obtain ⟨a, b, ha, hb, hfree, hva, hvb, hlength⟩ : ∃ a b,
      mapWith .tnACCOUNT_STATE [itemAt 0x10] = some a ∧
      mapWith .tnACCOUNT_STATE [itemAt 0x11] = some b ∧
      CollisionFree sumHash (blobs sumHash .tnACCOUNT_STATE a.root.shape ++
        blobs sumHash .tnACCOUNT_STATE b.root.shape) ∧ a.state ≠ .invalid ∧ b.state ≠ .invalid ∧
      (compare sumHash a b [] 3).map (fun r => (r.1, r.2.length)) = some (true, 2) :=
    exists_of_any (by decide +kernel)
  obtain ⟨l, l', hexact, -, -, hfew, hmany⟩ := compare_exact sumHash .tnACCOUNT_STATE
    (kept_mapWith ha) (kept_mapWith hb) hva hvb hfree nofun (show (1 : Int) ≤ 3 by decide)
  have htwo : l.length = 2 := by
    by_cases hl : (l.length : Int) < 3
    · rw [(hfew hl).1] at hlength
      simpa using hlength
    · rw [(hmany (by omega)).1] at hlength
      simp at hlength
  have hl : (l.length : Int) < 3 := by omega
  exact ⟨a, b, ha, hb, l, l', hexact, htwo, hfew hl⟩

/-- A table that is cut off has another key the other way round. Transactions with the same data
under different keys have the same hash, so that their difference is not seen. -/
theorem compare_not_symmetric_nor_exact :
    (∃ a b, mapWith .tnACCOUNT_STATE [itemAt 0x10] = some a ∧
      mapWith .tnACCOUNT_STATE [itemAt 0x11] = some b ∧
      CollisionFree sumHash (blobs sumHash .tnACCOUNT_STATE a.root.shape ++
        blobs sumHash .tnACCOUNT_STATE b.root.shape) ∧
      compare sumHash a b [] 1 = some (false, [((itemAt 0x10).key, some (itemAt 0x10), none)]) ∧
      compare sumHash b a [] 1 = some (false, [((itemAt 0x11).key, some (itemAt 0x11), none)])) ∧
    ∃ a b, mapWith .tnTRANSACTION_NM [itemAt 0x10] = some a ∧
      mapWith .tnTRANSACTION_NM [{ itemAt 0x10 with key := (itemAt 0x11).key }] = some b ∧
      CollisionFree sumHash (blobs sumHash .tnTRANSACTION_NM a.root.shape ++
        blobs sumHash .tnTRANSACTION_NM b.root.shape) ∧
      compare sumHash a b [] 1 = some (true, []) ∧
      contents a.root.shape (itemAt 0x10).key = some (itemAt 0x10) ∧
      contents b.root.shape (itemAt 0x10).key = none :=
  ⟨exists_of_any (by decide +kernel), exists_of_any (by decide +kernel)⟩

end Compare

end Rippled.SHAMap
