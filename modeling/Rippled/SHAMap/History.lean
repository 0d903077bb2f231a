import Rippled.SHAMap.Content
import Rippled.SHAMap.Hash
import Rippled.Lib.Run

namespace Rippled.SHAMap

open Lib Option

/-- What can happen to a map. After a snapshot either the new map or the old one is followed. -/
inductive Event
  | op (op : Op)
  | getHash
  | unshare
  | flushDirty (cache : TreeNodeCache)
  | snapShot (isMutable follow : Bool)

section History

variable (sha512Half : Blob → Uint256)

def step (m : SHAMap) : Event → Option SHAMap
  | .op op => (m.apply sha512Half op).map Prod.fst
  | .getHash => (m.getHash sha512Half).map Prod.snd
  | .unshare => (m.unshare sha512Half).map Prod.fst
  | .flushDirty cache => (m.flushDirty sha512Half cache).map Prod.fst
  | .snapShot isMutable follow =>
    (m.snapShot sha512Half isMutable).map fun newMap => if follow then newMap else m

def history (m : SHAMap) (events : List Event) : Option SHAMap := events.foldlM (step sha512Half) m

def Event.OfType (type : LeafType) : Event → Prop
  | .op o => o.OfType type
  | _ => True

/-- No node that an event writes finds another node in the cache under its hash. -/
def Event.Undisturbed (m : SHAMap) : Event → Prop
  | .flushDirty cache => m.backed → m.root.cowid ≠ 0 → m.root.getBranchCount ≠ 0 →
    NoCollision sha512Half cache m.cowid m.root
  | _ => True

structure Kept (type : LeafType) (m : SHAMap) : Prop where
  canonical : Canonical m.root.shape
  ofType : m.root.OfType type
  hashed : m.root.Hashed sha512Half
  able : m.cowid = 0 → m.root.cowid = 0
  still : m.state = .immutable → m.root.cowid = 0

end History

variable {sha512Half : Blob → Uint256} {type : LeafType} {m m' : SHAMap}

theorem kept_new (backed : Bool) : Kept sha512Half type (new backed) where
  canonical := canonical_new
  ofType := fun _ => trivial
  hashed := ⟨fun _ => trivial, fun h => absurd h (by decide), fun _ => rfl⟩
  able := fun h => absurd h (show (1 : UInt32) ≠ 0 by decide)
  still := nofun

variable {op : Op} {r : Bool}

theorem apply_frame (h : m.apply sha512Half op = some (m', r)) :
    m.state ≠ .immutable ∧ (m' = m ∨ m.cowid ≠ 0 ∧ ∃ root, m' = { m with root := root }) := by
  cases op with
  | add t item =>
    change m.addGiveItem sha512Half t item = _ at h
    unfold addGiveItem at h
    split at h
    · cases h
    rename_i hs
    obtain ⟨stack, -, h'⟩ := bind_eq_some_iff.mp h
    refine ⟨hs, ?_⟩
    split at h'
    · split at h'
      · cases h'
        exact .inl rfl
      split_ifs at h' with hcow
      obtain ⟨split, -, h'⟩ := map_eq_some_iff.mp h'
      cases h'
      exact .inr ⟨hcow, _, rfl⟩
    · split_ifs at h' with hcow
      cases h'
      exact .inr ⟨hcow, _, rfl⟩
    · cases h'
  | update t item =>
    change m.updateGiveItem sha512Half t item = _ at h
    unfold updateGiveItem at h
    split at h
    · cases h
    rename_i hs
    obtain ⟨stack, -, h'⟩ := bind_eq_some_iff.mp h
    refine ⟨hs, ?_⟩
    grind
  | del key =>
    change m.delItem sha512Half key = _ at h
    unfold delItem at h
    split at h
    · cases h
    rename_i hs
    obtain ⟨stack, -, h'⟩ := bind_eq_some_iff.mp h
    refine ⟨hs, ?_⟩
    grind

section

variable (hc : Canonical m.root.shape) (hcow : m.cowid ≠ 0)
  (h : m.apply sha512Half op = some (m', r))

include hc hcow h

theorem Canonical.apply : Canonical m'.root.shape := by
  obtain ⟨hs, -⟩ := apply_frame h
  cases op with
  | add t item =>
    change m.addGiveItem sha512Half t item = _ at h
    by_cases hkey : ∃ b ∈ m.root.shape.items, b.key = item.key
    · rw [addGiveItem_present sha512Half t hc hs hkey] at h
      cases h
      exact hc
    have ha : ∀ b ∈ m.root.shape.items, b.key ≠ item.key := fun b hb he => hkey ⟨b, hb, he⟩
    obtain ⟨root, hadd, hsh⟩ := addGiveItem_absent sha512Half t hc hs hcow ha
    rw [hadd] at h
    cases h
    exact hsh ▸ hc.insert ha
  | del key =>
    change m.delItem sha512Half key = _ at h
    by_cases hkey : ∃ b ∈ m.root.shape.items, b.key = key
    · obtain ⟨root, hdel, hsh⟩ := delItem_present sha512Half hc hs hcow hkey
      rw [hdel] at h
      cases h
      exact hsh ▸ hc.eraseItem
    · rw [delItem_absent sha512Half hc hs fun b hb he => hkey ⟨b, hb, he⟩] at h
      cases h
      exact hc
  | update t item =>
    change m.updateGiveItem sha512Half t item = _ at h
    by_cases hkey : ∃ b ∈ m.root.shape.items, b.key = item.key
    · obtain ⟨old, hold, holdkey⟩ := hkey
      obtain ⟨c, hash, t', id, rest, hw⟩ := hc.walk_of_mem hold
      rw [holdkey] at hw
      by_cases ht : t' = t
      · subst ht
        by_cases hl : hash = leafHash sha512Half t' item ∧ c ≠ m.cowid
        · rw [hw.updateGiveItem_lost sha512Half hs hcow holdkey hl.1 hl.2] at h
          cases h
          exact hc
        have hnew : hash ≠ leafHash sha512Half t' item ∨ c = m.cowid := by
          by_contra hno
          push Not at hno
          exact hl hno
        obtain ⟨root, hu, hsh⟩ :=
          hw.updateGiveItem_replace sha512Half hs hcow holdkey hnew
        rw [hu] at h
        cases h
        exact hsh ▸ hc.replace ⟨old, hold, holdkey⟩
      · rw [hw.updateGiveItem_type sha512Half hs holdkey ht] at h
        cases h
        exact hc
    · rw [updateGiveItem_absent sha512Half t hc hs fun b hb he => hkey ⟨b, hb, he⟩] at h
      cases h
      exact hc

theorem hashed_apply (hh : m.root.Hashed sha512Half) : m'.root.Hashed sha512Half := by
  have hP := rebuilds_hashed sha512Half hcow
  cases op with
  | add t item => exact hP.addGiveItem trivial h hh
  | del key => exact hP.delItem h hh
  | update t item =>
    apply hP.updateGiveItem h hh
    intro hash old id rest _ hwl _
    obtain ⟨top, rest', hw⟩ := hc.exists_walk item.key
    have heq := (hw.walkTowardsKey_eq []).symm.trans hwl
    rw [List.append_nil, some_inj, List.cons.injEq] at heq
    obtain ⟨rfl, rfl⟩ := heq
    have hnew : (makeTypedLeaf sha512Half t item m.cowid).Hashed sha512Half := rfl
    exact (hw.hashed_inPlace hh hcow hnew rfl).1

end

theorem Kept.apply (hk : Kept sha512Half type m) (hop : op.OfType type)
    (h : m.apply sha512Half op = some (m', r)) : Kept sha512Half type m' := by
  obtain ⟨hs, rfl | ⟨hcow, root, hr⟩⟩ := apply_frame h
  · exact hk
  refine ⟨hk.canonical.apply hcow h, apply_ofType hop h hk.ofType,
    hashed_apply hk.canonical hcow h hk.hashed, ?_, ?_⟩
  · intro h0
    rw [hr] at h0
    exact absurd h0 hcow
  · intro himm
    rw [hr] at himm
    exact absurd himm hs

theorem Kept.clean (hk : Kept sha512Half type m)
    (h : m'.root = clean sha512Half type m.root.shape) : Kept sha512Half type m' where
  canonical := by rw [h, shape_clean]; exact hk.canonical
  ofType := h ▸ ofType_clean type _
  hashed := h ▸ hashed_clean type _
  able := fun _ => h ▸ cowid_clean type _
  still := fun _ => h ▸ cowid_clean type _

theorem unshare_root {n : Nat} (h : m.unshare sha512Half = some (m', n))
    (hc : Canonical m.root.shape) (ht : m.root.OfType type) (hh : m.root.Hashed sha512Half) :
    m' = { m with root := clean sha512Half type m.root.shape } :=
  walkSubTree_root hc hh ht (fun _ _ => flushNode_eq_clean hh ht m.cowid) h

section

variable (hk : Kept sha512Half type m)

include hk

theorem Kept.flushDirty {cache : TreeNodeCache} {n : Nat}
    (hc : Event.Undisturbed sha512Half m (.flushDirty cache))
    (h : m.flushDirty sha512Half cache = some (m', n)) :
    m' = { m with root := SHAMap.clean sha512Half type m.root.shape } := by
  apply walkSubTree_root hk.canonical hk.hashed hk.ofType _ h
  intro hcow hcn
  split_ifs with hb
  · rw [(hc hb hcow hcn).flushNode_eq]
    exact flushNode_eq_clean hk.hashed hk.ofType m.cowid
  · exact flushNode_eq_clean hk.hashed hk.ofType m.cowid

theorem Kept.exists_getHash :
    ∃ m', m.getHash sha512Half = some (merkle sha512Half type m.root.shape, m') ∧
      m'.root = SHAMap.clean sha512Half type m.root.shape := by
  unfold getHash
  split_ifs with hne
  · have hf : ∃ m' n, m.unshare sha512Half = some (m', n) :=
      exists_walkSubTree hk.canonical hk.able
    obtain ⟨m', n, hu⟩ := hf
    have hr := unshare_root hu hk.canonical hk.ofType hk.hashed
    refine ⟨m', ?_, congrArg SHAMap.root hr⟩
    rw [hu, map_some, hr, getHash_clean]
  · -- an inner node that somebody owns has no hash, so the root is clean
    have hcow : m.root.cowid = 0 := by
      obtain ⟨root, cowid, state, backed⟩ := m
      obtain ⟨cs, hcs⟩ := hk.canonical.inner
      cases root with
      | null => rfl
      | leaf c hash t item => cases hcs
      | inner c hash hashes children =>
        by_contra hc
        exact hne (hk.hashed.2.2 hc)
    have hr := hk.hashed.eq_clean hk.ofType hcow
    refine ⟨m, ?_, hr⟩
    rw [← getHash_clean, ← hr]

theorem Kept.snapShot {isMutable : Bool} (h : m.snapShot sha512Half isMutable = some m') :
    Kept sha512Half type m' := by
  unfold SHAMap.snapShot at h
  dsimp only at h
  generalize (if isMutable = true then SHAMapState.modifying else .immutable) = state at h
  split_ifs at h with himm
  · obtain ⟨⟨newMap, n⟩, hu, rfl⟩ := map_eq_some_iff.mp h
    have hr := unshare_root hu hk.canonical hk.ofType hk.hashed
    exact hk.clean (congrArg SHAMap.root hr)
  · push Not at himm
    cases h
    exact ⟨hk.canonical, hk.ofType, hk.hashed, fun _ => hk.still himm.1, fun _ => hk.still himm.1⟩

theorem Kept.step {event : Event} (ht : event.OfType type) (hc : event.Undisturbed sha512Half m)
    (h : step sha512Half m event = some m') : Kept sha512Half type m' := by
  cases event with
  | op o =>
    obtain ⟨⟨m₁, r⟩, ha, rfl⟩ := map_eq_some_iff.mp h
    exact hk.apply ht ha
  | getHash =>
    obtain ⟨m₁, hh, hr⟩ := hk.exists_getHash
    rw [SHAMap.step, hh, map_some, some_inj] at h
    exact hk.clean (h ▸ hr)
  | unshare =>
    obtain ⟨⟨m₁, n⟩, hu, rfl⟩ := map_eq_some_iff.mp h
    have hr := unshare_root hu hk.canonical hk.ofType hk.hashed
    exact hk.clean (congrArg SHAMap.root hr)
  | flushDirty cache =>
    obtain ⟨⟨m₁, n⟩, hf, rfl⟩ := map_eq_some_iff.mp h
    exact hk.clean (congrArg SHAMap.root (hk.flushDirty hc hf))
  | snapShot isMutable follow =>
    obtain ⟨newMap, hs, rfl⟩ := map_eq_some_iff.mp h
    split
    · exact hk.snapShot hs
    · exact hk

end

theorem kept_history {backed : Bool} {events : List Event}
    (ht : ∀ event ∈ events, event.OfType type)
    (hc : Run.AllowedIn (step sha512Half) (Event.Undisturbed sha512Half) (new backed) events)
    (h : history sha512Half (new backed) events = some m) : Kept sha512Half type m := by
  have ha : ∀ m₀, Run.AllowedIn (step sha512Half) (Event.Undisturbed sha512Half) m₀ events →
      Run.AllowedIn (step sha512Half)
        (fun m event => event.OfType type ∧ event.Undisturbed sha512Half m) m₀ events := by
    clear h hc
    induction events with
    | nil => exact fun _ _ => trivial
    | cons event events ih =>
      rw [List.forall_mem_cons] at ht
      intro m₀ hm
      exact ⟨⟨ht.1, hm.1⟩, fun m₁ hs => ih ht.2 m₁ (hm.2 m₁ hs)⟩
  exact Run.invariant_of_foldlM (Kept sha512Half type) (fun _ _ _ hk hok hs =>
    hk.step hok.1 hok.2 hs) events (kept_new backed) (ha _ hc) h

/-- Every leaf sits at the least depth, of at least one, at which no other item shares its path,
and every inner node other than the root has at least two leaves below it. -/
structure Shallow (t : Radix 16 Item) : Prop where
  unique : ∀ item d, Radix.LeafAt t item d → ∀ other ∈ t.items, Agree d item.key other.key →
    other = item
  least : ∀ item d, Radix.LeafAt t item (d + 1) → 0 < d →
    ∃ other ∈ t.items, other ≠ item ∧ Agree d item.key other.key
  full : ∃ cs, t = .inner cs ∧ ∀ b, (cs b).Full

theorem Canonical.shallow {t : Radix 16 Item} (hc : Canonical t) : Shallow t := by
  obtain ⟨cs, rfl⟩ := hc.inner
  have hp := hc.grown.placed
  refine ⟨?_, ?_, cs, rfl, hc.grown.full cs rfl⟩
  · intro item d hl other ho ha
    exact hl.unique hp ho fun e _ he => ha e (by omega)
  intro item d hl hd
  obtain ⟨d, rfl⟩ := Nat.exists_eq_succ_of_ne_zero hd.ne'
  cases hl with
  | deeper b hch =>
    obtain ⟨other, ho, hne, hs⟩ :=
      hch.shared (hp b).1 (hc.grown.full cs rfl b)
    refine ⟨other, Radix.mem_items_inner.mpr ⟨b, ho⟩, hne, ?_⟩
    intro e he
    -- the first half byte is the branch of the root, the others are compared below it
    cases e with
    | zero => rw [hp.digit_eq hch.mem, hp.digit_eq ho]
    | succ e => exact hs (e + 1) (by omega) (by omega)

theorem Canonical.eq_of_items {t u : Radix 16 Item} (ht : Canonical t) (hu : Canonical u)
    (h : ∀ item, item ∈ t.items ↔ item ∈ u.items) : t = u := by
  obtain ⟨cs, rfl⟩ := ht.inner
  obtain ⟨ds, rfl⟩ := hu.inner
  have hp := ht.grown.placed
  have hq := hu.grown.placed
  congr 1
  funext b
  apply Radix.eq_of_items (hp b).1 (hq b).1 (ht.grown.full cs rfl b) (hu.grown.full ds rfl b)
  intro item
  have hi := h item
  rw [hp.mem_child, hq.mem_child] at hi
  constructor
  · intro hmem
    have hb := hp.digit_eq hmem
    rw [hb] at hi
    exact hi.mp hmem
  intro hmem
  have hb := hq.digit_eq hmem
  rw [hb] at hi
  exact hi.mpr hmem

/-- Two histories of maps with one leaf type that leave the same items leave trees of the same
shape with the same hash, as long as no written node is replaced by another one with its hash. -/
theorem history_independent (sha512Half : Blob → Uint256) (type : LeafType) {backed₁ backed₂ : Bool}
    {events₁ events₂ : List Event} {m₁ m₂ : SHAMap} (htype₁ : ∀ event ∈ events₁, event.OfType type)
    (htype₂ : ∀ event ∈ events₂, event.OfType type)
    (hcache₁ : Run.AllowedIn (step sha512Half) (Event.Undisturbed sha512Half) (new backed₁) events₁)
    (hcache₂ : Run.AllowedIn (step sha512Half) (Event.Undisturbed sha512Half) (new backed₂) events₂)
    (h₁ : history sha512Half (new backed₁) events₁ = some m₁)
    (h₂ : history sha512Half (new backed₂) events₂ = some m₂)
    (hsame : ∀ item, item ∈ m₁.root.shape.items ↔ item ∈ m₂.root.shape.items) :
    m₁.root.shape = m₂.root.shape ∧ Shallow m₁.root.shape ∧ ∃ hash m₁' m₂',
      m₁.getHash sha512Half = some (hash, m₁') ∧ m₂.getHash sha512Half = some (hash, m₂') := by
  have hk₁ := kept_history htype₁ hcache₁ h₁
  have hk₂ := kept_history htype₂ hcache₂ h₂
  have hshape := hk₁.canonical.eq_of_items hk₂.canonical hsame
  obtain ⟨m₁', hhash₁, -⟩ := hk₁.exists_getHash
  obtain ⟨m₂', hhash₂, -⟩ := hk₂.exists_getHash
  rw [← hshape] at hhash₂
  exact ⟨hshape, hk₁.canonical.shallow, _, m₁', m₂', hhash₁, hhash₂⟩

/-- An item whose key starts with the given byte, with as much data as a leaf must have. -/
def itemAt (byte : UInt8) : Item where
  key := ⟨fun i => if i.val = 0 then byte else 0⟩
  data := List.replicate 12 byte

theorem exists_of_any {α β : Type} {x : Option α} {y : Option β} {P : α → β → Prop}
    [∀ a b, Decidable (P a b)] (h : (x.any fun a => y.any fun b => P a b)) :
    ∃ a b, x = some a ∧ y = some b ∧ P a b := by
  obtain ⟨a, ha, h⟩ := (Option.any_eq_true _ _).mp h
  obtain ⟨b, hb, h⟩ := Run.exists_of_any h
  exact ⟨a, b, ha, hb, h⟩

theorem history_independent_snapshot : ∃ m₁ m₂,
    history constantHash (new true) [.op (.add .tnACCOUNT_STATE (itemAt 0x10)), .getHash,
      .op (.add .tnACCOUNT_STATE (itemAt 0x11)), .flushDirty fun _ _ => none] = some m₁ ∧
    history constantHash (new false) [.op (.add .tnACCOUNT_STATE (itemAt 0x11)),
      .op (.add .tnACCOUNT_STATE (itemAt 0x20)), .snapShot true true,
      .op (.add .tnACCOUNT_STATE (itemAt 0x10)), .op (.del (itemAt 0x20).key)] = some m₂ ∧
    m₁.root.shape = m₂.root.shape := by
  refine Exists.imp (fun m₁ => Exists.imp fun m₂ h => ⟨h.1, h.2.1,
    (history_independent constantHash .tnACCOUNT_STATE ?_ ?_ ?_ ?_ h.1 h.2.1 ?_).1⟩)
    (exists_of_any (P := fun m₁ m₂ => m₁.root.shape.items = m₂.root.shape.items) (by decide +kernel))
  · simp [Event.OfType, Op.OfType]
  · simp [Event.OfType, Op.OfType]
  · refine ⟨trivial, fun _ _ => ⟨trivial, fun _ _ => ⟨trivial, fun _ _ => ⟨?_, fun _ _ => trivial⟩⟩⟩⟩
    exact fun _ _ _ => noCollision_none _ _
  · exact ⟨trivial, fun _ _ => ⟨trivial, fun _ _ => ⟨trivial, fun _ _ => ⟨trivial, fun _ _ =>
      ⟨trivial, fun _ _ => trivial⟩⟩⟩⟩⟩
  · intro item
    rw [h.2.2]

/-- All leaves have one hash, and all inner nodes another one. -/
def kindHash : Blob → Uint256 := fun blob => ⟨fun _ => blob.getD 1 0⟩

/-- The second leaf that is flushed finds the first one in the cache, where leaves collide. The map
then has the first item twice, and another map that holds the same has it once. -/
theorem history_dependent_on_collision : ∃ m₁ m₂,
    history kindHash (new true) [.op (.add .tnACCOUNT_STATE (itemAt 0x10)),
      .op (.add .tnACCOUNT_STATE (itemAt 0x20)), .flushDirty fun path _ =>
        if path = [2] then some (makeTypedLeaf kindHash .tnACCOUNT_STATE (itemAt 0x10) 0)
        else none] = some m₁ ∧
    history kindHash (new true) [.op (.add .tnACCOUNT_STATE (itemAt 0x10))] = some m₂ ∧
    (∀ item, item ∈ m₁.root.shape.items ↔ item ∈ m₂.root.shape.items) ∧
    m₁.root.shape ≠ m₂.root.shape := by
  refine Exists.imp (fun m₁ => Exists.imp fun m₂ h => ⟨h.1, h.2.1, ?_, ?_⟩)
    (exists_of_any (P := fun m₁ m₂ => m₁.root.shape.items = [itemAt 0x10, itemAt 0x10] ∧
      m₂.root.shape.items = [itemAt 0x10]) (by decide +kernel))
  · intro item
    rw [h.2.2.1, h.2.2.2]
    simp
  intro hshape
  have hitems := congrArg Radix.items hshape
  rw [h.2.2.1, h.2.2.2] at hitems
  simp at hitems

end Rippled.SHAMap
