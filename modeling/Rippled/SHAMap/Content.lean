import Rippled.SHAMap.Iterate
import Rippled.SHAMap.Keeps

namespace Rippled.SHAMap

open Lib List Option

abbrev Contents := Uint256 → Option Item

inductive Op
  | add (type : LeafType) (item : Item)
  | update (type : LeafType) (item : Item)
  | del (key : Uint256)

/-- An operation on a finite map with its result. An update may also be refused for a key that is
present, which happens when its leaf has another type. -/
inductive MapStep : Contents → Op → Contents → Bool → Prop
  | added {c : Contents} {type : LeafType} {item : Item} (h : c item.key = none) :
    MapStep c (.add type item) (Function.update c item.key (some item)) true
  | present {c : Contents} {type : LeafType} {item : Item} (h : c item.key ≠ none) :
    MapStep c (.add type item) c false
  | updated {c : Contents} {type : LeafType} {item : Item} (h : c item.key ≠ none) :
    MapStep c (.update type item) (Function.update c item.key (some item)) true
  | refused {c : Contents} {type : LeafType} {item : Item} :
    MapStep c (.update type item) c false
  | deleted {c : Contents} {key : Uint256} (h : c key ≠ none) :
    MapStep c (.del key) (Function.update c key none) true
  | absent {c : Contents} {key : Uint256} (h : c key = none) : MapStep c (.del key) c false

inductive MapRun : List Op → Contents → Prop
  | start : MapRun [] fun _ => none
  | step {ops : List Op} {op : Op} {c c' : Contents} {r : Bool} (h : MapRun ops c)
    (hstep : MapStep c op c' r) : MapRun (ops ++ [op]) c'

/-- A map answers every question about its items as a finite map does. -/
structure Represents (m : SHAMap) (c : Contents) : Prop where
  peekItem : ∀ key, m.peekItem key = some (c key)
  hasItem : ∀ key, m.hasItem key = some (c key).isSome
  iterate : ∃ it l, begin m = some it ∧ Enumerates it l ∧ l.Pairwise (·.key < ·.key) ∧
    ∀ item, item ∈ l ↔ c item.key = some item
  upperBound : ∀ key, ∃ it l, upperBound m key = some it ∧ Enumerates it l ∧
    l.Pairwise (·.key < ·.key) ∧ ∀ item, item ∈ l ↔ c item.key = some item ∧ key < item.key

def contents (t : Radix 16 Item) : Contents := fun key => t.find BaseUInt.nibble Item.key key 0

variable {t : Radix 16 Item} {key : Uint256} {item : Item}

theorem contents_eq_some_iff (h : Placed 0 t) :
    contents t key = some item ↔ item ∈ t.items ∧ item.key = key :=
  h.find_eq_some_iff

theorem contents_eq_none_iff (h : Placed 0 t) :
    contents t key = none ↔ ∀ item ∈ t.items, item.key ≠ key :=
  h.find_eq_none_iff

theorem contents_ne_none_iff (h : Placed 0 t) :
    contents t key ≠ none ↔ ∃ item ∈ t.items, item.key = key := by
  rw [ne_eq, contents_eq_none_iff h]
  push Not
  rfl

/-- Two trees hold the same items outside of one key. -/
theorem contents_eq_update {t' : Radix 16 Item} (ht : Placed 0 t) (ht' : Placed 0 t')
    {new : Option Item} (ho : ∀ item, item.key ≠ key → (item ∈ t'.items ↔ item ∈ t.items))
    (hkey : ∀ item, item.key = key → (item ∈ t'.items ↔ new = some item))
    (hnew : ∀ item, new = some item → item.key = key) :
    contents t' = Function.update (contents t) key new := by
  funext k
  ext item
  rw [contents_eq_some_iff ht']
  by_cases hk : k = key
  · subst hk
    rw [Function.update_self]
    constructor
    · rintro ⟨hmem, hi⟩
      exact (hkey item hi).mp hmem
    · intro h
      exact ⟨(hkey item (hnew item h)).mpr h, hnew item h⟩
  · rw [Function.update_of_ne hk, contents_eq_some_iff ht]
    constructor
    · rintro ⟨hmem, rfl⟩
      exact ⟨(ho item hk).mp hmem, rfl⟩
    · rintro ⟨hmem, rfl⟩
      exact ⟨(ho item hk).mpr hmem, rfl⟩

theorem contents_insert (hc : Canonical t) (h : ∀ b ∈ t.items, b.key ≠ item.key) :
    contents (t.insert BaseUInt.nibble Item.key leafDepth item 0) =
      Function.update (contents t) item.key (some item) := by
  have hmem : ∀ x, x ∈ (t.insert BaseUInt.nibble Item.key leafDepth item 0).items ↔
      x = item ∨ x ∈ t.items := fun x => Radix.mem_insert hc.grown.placed (fits_of_absent h)
  apply contents_eq_update hc.grown.placed (hc.insert h).grown.placed
  · intro x hx
    rw [hmem]
    constructor
    · rintro (rfl | hx')
      · exact absurd rfl hx
      · exact hx'
    · exact .inr
  · intro x hx
    rw [hmem, some_inj]
    constructor
    · rintro (rfl | hx')
      · rfl
      · exact absurd hx (h x hx')
    · rintro rfl
      exact .inl rfl
  · rintro x hx
    cases hx
    rfl

theorem contents_replace (hc : Canonical t) (h : ∃ b ∈ t.items, b.key = item.key) :
    contents (t.replace BaseUInt.nibble Item.key item 0) =
      Function.update (contents t) item.key (some item) := by
  have hmem : ∀ x, x ∈ (t.replace BaseUInt.nibble Item.key item 0).items ↔
      ∃ y ∈ t.items, (if y.key = item.key then item else y) = x := by
    intro x
    rw [Radix.items_replace hc.grown.placed h, List.mem_map]
  apply contents_eq_update hc.grown.placed (hc.replace h).grown.placed
  · intro x hx
    rw [hmem]
    constructor
    · rintro ⟨y, hy, rfl⟩
      split_ifs at hx with hne
      · exact absurd rfl hx
      · rwa [if_neg hne]
    · intro hx'
      exact ⟨x, hx', if_neg hx⟩
  · intro x hx
    rw [hmem, some_inj]
    constructor
    · rintro ⟨y, hy, rfl⟩
      split_ifs at hx with heq
      · rw [if_pos heq]
      · exact absurd hx heq
    · rintro rfl
      obtain ⟨b, hb, hkey⟩ := h
      exact ⟨b, hb, if_pos hkey⟩
  · rintro x hx
    cases hx
    rfl

theorem contents_eraseItem (hc : Canonical t) :
    contents (eraseItem key t) = Function.update (contents t) key none := by
  apply contents_eq_update hc.grown.placed hc.eraseItem.grown.placed
  · intro x hx
    rw [items_eraseItem hc, mem_filter]
    simp [hx]
  · intro x hx
    rw [items_eraseItem hc, mem_filter]
    simp [hx]
  · rintro x hx
    cases hx

theorem represents_contents {m : SHAMap} (hc : Canonical m.root.shape) :
    Represents m (contents m.root.shape) := by
  have hp := hc.grown.placed
  have hf : ∀ key, m.findKey key = some (contents m.root.shape key) := by
    intro key
    obtain ⟨top, rest, hw⟩ := hc.exists_walk key
    exact findKey_of_walk hw
  have hs := hp.sorted.imp fun h => BaseUInt.lt_iff_nibble.mpr h
  have hmem : ∀ item, item ∈ m.root.shape.items ↔ contents m.root.shape item.key = some item := by
    intro item
    simp [contents_eq_some_iff hp]
  refine ⟨hf, ?_, ?_, ?_⟩
  · intro key
    rw [hasItem, hf, map_some]
  · obtain ⟨it, hb, hall⟩ := begin_enumerates hc
    exact ⟨it, _, hb, hall, hs, hmem⟩
  intro key
  obtain ⟨it, hbn, hall⟩ := upperBound_enumerates hc key
  refine ⟨it, _, hbn, hall, hs.filter _, ?_⟩
  intro item
  rw [mem_filter, hmem item]
  simp

section Run

variable (sha512Half : Blob → Uint256)

def apply (m : SHAMap) : Op → Option (SHAMap × Bool)
  | .add type item => m.addGiveItem sha512Half type item
  | .update type item => m.updateGiveItem sha512Half type item
  | .del key => m.delItem sha512Half key

def run (m : SHAMap) (ops : List Op) : Option SHAMap :=
  ops.foldlM (fun m op => (m.apply sha512Half op).map Prod.fst) m

def Op.OfType (type : LeafType) : Op → Prop
  | .add t _ => t = type
  | .update t _ => t = type
  | .del _ => True

structure Held (m : SHAMap) : Prop where
  canonical : Canonical m.root.shape
  state : m.state = .modifying
  cowid : m.cowid ≠ 0
  owned : m.root.Owned m.cowid

variable {sha512Half} {m : SHAMap}

theorem held_new (backed : Bool) : Held (new backed) where
  canonical := canonical_new
  state := rfl
  cowid := show (1 : UInt32) ≠ 0 by decide
  owned := fun _ => trivial

theorem Held.mutable (h : Held m) : m.state ≠ .immutable := by
  rw [h.state]
  decide

theorem Held.withRoot (h : Held m) {root : TreeNode} (hc : Canonical root.shape)
    (ho : root.Owned m.cowid) : Held { m with root := root } :=
  ⟨hc, h.state, h.cowid, ho⟩

theorem Held.add_step (h : Held m) (type : LeafType) (item : Item) :
    ∃ m' r, m.addGiveItem sha512Half type item = some (m', r) ∧ Held m' ∧
      MapStep (contents m.root.shape) (.add type item) (contents m'.root.shape) r ∧
        (r = false → m' = m) := by
  have hp := h.canonical.grown.placed
  by_cases hkey : contents m.root.shape item.key = none
  · have ha := (contents_eq_none_iff hp).mp hkey
    obtain ⟨root, hadd, hs⟩ :=
      addGiveItem_absent sha512Half type h.canonical h.mutable h.cowid ha
    have ho := (rebuilds_owned sha512Half m.cowid).addGiveItem trivial hadd h.owned
    refine ⟨_, true, hadd, h.withRoot (hs ▸ h.canonical.insert ha) ho, ?_, nofun⟩
    rw [hs, contents_insert h.canonical ha]
    exact .added hkey
  · have hpr := (contents_ne_none_iff hp).mp hkey
    exact ⟨m, false, addGiveItem_present sha512Half type h.canonical h.mutable hpr, h, .present hkey,
      fun _ => rfl⟩

theorem Held.del_step (h : Held m) (key : Uint256) :
    ∃ m' r, m.delItem sha512Half key = some (m', r) ∧ Held m' ∧
      MapStep (contents m.root.shape) (.del key) (contents m'.root.shape) r ∧
        (r = false → m' = m) := by
  have hp := h.canonical.grown.placed
  by_cases hkey : contents m.root.shape key = none
  · have ha := (contents_eq_none_iff hp).mp hkey
    exact ⟨m, false, delItem_absent sha512Half h.canonical h.mutable ha, h, .absent hkey, fun _ => rfl⟩
  have hpr := (contents_ne_none_iff hp).mp hkey
  obtain ⟨root, hdel, hs⟩ :=
    delItem_present sha512Half h.canonical h.mutable h.cowid hpr
  have ho := (rebuilds_owned sha512Half m.cowid).delItem hdel h.owned
  refine ⟨_, true, hdel, h.withRoot (hs ▸ h.canonical.eraseItem) ho, ?_, nofun⟩
  rw [hs, contents_eraseItem h.canonical]
  exact .deleted hkey

variable {type : LeafType}

/-- An update of a map that owns its leaves succeeds for a key whose leaf has the same type. -/
theorem Held.update_present (h : Held m) {old : Item} {c : UInt32} {hash : Uint256} {id : NodeID}
    {rest : NodeStack} (hw : Walk item.key m.root .root (.leaf c hash type old, id) rest)
    (hkey : old.key = item.key) (hp : ∃ b ∈ m.root.shape.items, b.key = item.key) :
    ∃ m', m.updateGiveItem sha512Half type item = some (m', true) ∧ Held m' ∧
      contents m'.root.shape = Function.update (contents m.root.shape) item.key (some item) := by
  have hP := rebuilds_owned sha512Half m.cowid
  have hown : c = m.cowid := hP.top hw h.owned
  obtain ⟨root, hu, hs⟩ :=
    hw.updateGiveItem_replace sha512Half h.mutable h.cowid hkey (.inr hown)
  have ho := hP.updateGiveItem hu h.owned (by
    intro hash old id rest _ hwl _
    have hst := hP.walk hwl h.owned (forall_mem_nil _)
    rw [forall_mem_cons] at hst
    exact inPlace_keeps item.key (fun _ _ _ _ i _ hi hc => TreeNode.forall_update hi hc i) hst.2 rfl)
  refine ⟨_, hu, h.withRoot (hs ▸ h.canonical.replace hp) ho, ?_⟩
  rw [hs, contents_replace h.canonical hp]

theorem Held.update_step (h : Held m) (type : LeafType) (item : Item) :
    ∃ m' r, m.updateGiveItem sha512Half type item = some (m', r) ∧ Held m' ∧
      MapStep (contents m.root.shape) (.update type item) (contents m'.root.shape) r ∧
        (r = false → m' = m) := by
  have hp := h.canonical.grown.placed
  by_cases hkey : contents m.root.shape item.key = none
  · have ha := (contents_eq_none_iff hp).mp hkey
    exact ⟨m, false, updateGiveItem_absent sha512Half type h.canonical h.mutable ha, h, .refused,
      fun _ => rfl⟩
  have hpr := (contents_ne_none_iff hp).mp hkey
  obtain ⟨old, hold, holdkey⟩ := hpr
  obtain ⟨c, hash, t, id, rest, hw⟩ := h.canonical.walk_of_mem hold
  rw [holdkey] at hw
  by_cases ht : t = type
  · subst ht
    obtain ⟨m', hu, hh, hc⟩ := h.update_present hw holdkey ⟨old, hold, holdkey⟩
    exact ⟨m', true, hu, hh, hc ▸ .updated hkey, nofun⟩
  · exact ⟨m, false, hw.updateGiveItem_type sha512Half h.mutable holdkey ht, h, .refused, fun _ => rfl⟩

theorem Held.step (h : Held m) (op : Op) :
    ∃ m' r, m.apply sha512Half op = some (m', r) ∧ Held m' ∧
      MapStep (contents m.root.shape) op (contents m'.root.shape) r ∧ (r = false → m' = m) := by
  cases op with
  | add type item => exact h.add_step type item
  | update type item => exact h.update_step type item
  | del key => exact h.del_step key

theorem run_append (m : SHAMap) (ops : List Op) (op : Op) :
    run sha512Half m (ops ++ [op]) =
      (run sha512Half m ops).bind fun m => (m.apply sha512Half op).map Prod.fst := by
  simp [run, foldlM_append]

theorem held_run (sha512Half : Blob → Uint256) (backed : Bool) (ops : List Op) :
    ∃ m, run sha512Half (new backed) ops = some m ∧ Held m ∧ MapRun ops (contents m.root.shape) := by
  induction ops using List.reverseRecOn with
  | nil => exact ⟨_, rfl, held_new backed, .start⟩
  | append_singleton ops op ih =>
    obtain ⟨m, hrun, hh, hmap⟩ := ih
    obtain ⟨m', r, hs, hh', hmap', -⟩ := hh.step op
    refine ⟨m', ?_, hh', hmap.step hmap'⟩
    rw [run_append, hrun, bind_some, hs]
    rfl

theorem apply_ofType {op : Op} {m' : SHAMap} {r : Bool} (hop : op.OfType type)
    (h : m.apply sha512Half op = some (m', r)) (hr : m.root.OfType type) :
    m'.root.OfType type := by
  have hP := rebuilds_ofType sha512Half m.cowid type
  cases op with
  | add t item => exact hP.addGiveItem hop h hr
  | del key => exact hP.delItem h hr
  | update t item =>
    apply hP.updateGiveItem h hr
    intro hash old id rest _ hw _
    have hs := hP.walk hw hr (forall_mem_nil _)
    rw [forall_mem_cons] at hs
    exact inPlace_keeps item.key (fun _ _ _ _ i _ hi hc => TreeNode.forall_update hi hc i) hs.2 hop

theorem run_ofType {backed : Bool} {ops : List Op} (hops : ∀ op ∈ ops, op.OfType type)
    (h : run sha512Half (new backed) ops = some m) : m.root.OfType type := by
  induction ops using List.reverseRecOn generalizing m with
  | nil =>
    cases h
    exact fun _ => trivial
  | append_singleton ops op ih =>
    rw [run_append] at h
    obtain ⟨m₁, hrun, h⟩ := bind_eq_some_iff.mp h
    obtain ⟨⟨m₂, r⟩, hs, rfl⟩ := map_eq_some_iff.mp h
    have hr := ih (fun o ho => hops o (mem_append_left _ ho)) hrun
    exact apply_ofType (hops op (by simp)) hs hr

theorem Held.update_ofType (h : Held m) (hty : m.root.OfType type) (item : Item) :
    ∃ m', m.updateGiveItem sha512Half type item =
      some (m', (contents m.root.shape item.key).isSome) := by
  have hp := h.canonical.grown.placed
  cases hkey : contents m.root.shape item.key with
  | none =>
    have ha := (contents_eq_none_iff hp).mp hkey
    exact ⟨m, updateGiveItem_absent sha512Half type h.canonical h.mutable ha⟩
  | some old =>
    obtain ⟨hold, holdkey⟩ := (contents_eq_some_iff hp).mp hkey
    obtain ⟨c, hash, t, id, rest, hw⟩ := h.canonical.walk_of_mem hold
    have ht : t = type := (rebuilds_ofType sha512Half m.cowid type).top hw hty
    subst ht
    rw [holdkey] at hw
    obtain ⟨m', hu, -, -⟩ := h.update_present hw holdkey ⟨old, hold, holdkey⟩
    exact ⟨m', hu⟩

/-- A map refines a finite map from keys to items: every sequence of operations on a new map runs
through, and leaves what it leaves in the finite map, with the same answers to every question and
the same results of every further operation. -/
theorem refines_finite_map (sha512Half : Blob → Uint256) (backed : Bool) (ops : List Op) :
    ∃ m c, run sha512Half (new backed) ops = some m ∧ MapRun ops c ∧ Represents m c ∧
      (∀ op, ∃ m' r c', m.apply sha512Half op = some (m', r) ∧ MapStep c op c' r ∧
        Represents m' c' ∧ (r = false → m' = m)) ∧
      ∀ type, (∀ op ∈ ops, op.OfType type) → ∀ item, ∃ m',
        m.updateGiveItem sha512Half type item = some (m', (c item.key).isSome) := by
  obtain ⟨m, hrun, hheld, hmap⟩ := held_run sha512Half backed ops
  refine ⟨m, contents m.root.shape, hrun, hmap, represents_contents hheld.canonical, ?_, ?_⟩
  · intro op
    obtain ⟨m', r, happly, hheld', hstep, hsame⟩ := hheld.step op
    exact ⟨m', r, _, happly, hstep, represents_contents hheld'.canonical, hsame⟩
  · intro type hops item
    exact hheld.update_ofType (run_ofType hops hrun) item

end Run

end Rippled.SHAMap
