import Rippled.SHAMap.Codec
import Rippled.SHAMap.Delta

namespace Rippled.SHAMap

open Lib List Option

variable {item : Item} {h : Uint256} {d : Nat} {rest : NodeStack} {l : List Blob}

def TreeNode.header : TreeNode → Option Node
  | .null => none
  | .leaf _ h type item => some (.leaf h type item)
  | .inner _ h hashes children => some (.inner {
      hash := h
      isBranch := fun i => !(children i).isNull
      hashes := fun i => if (children i).isNull then 0 else hashes i
      hashes_eq := fun i hi => if_pos (by simpa using hi) })

def sentBlob (e : TreeNode × NodeID) : Option Blob := e.1.header.bind Node.serializeForWire

def getProofPath (m : SHAMap) (key : Uint256) : Option (Option (List Blob)) :=
  (walkTowardsKey key m.root .root []).bind fun stack =>
    match stack with
    | (.leaf c h type item, id) :: rest =>
      if item.key ≠ key then some none
      else (((TreeNode.leaf c h type item, id) :: rest).mapM sentBlob).map some
    | _ => some none

/-- The outcome of a verification, with the depths at which branches were selected. -/
structure Verdict where
  ok : Bool
  selected : List Nat
deriving DecidableEq

section Verify

variable (sha512Half : Blob → Uint256)

def Node.updateHash : Node → Uint256
  | .leaf _ type item => leafHash sha512Half type item
  | .inner n => innerHash sha512Half n.hashes n.isBranch

/-- Go through the nodes of a path from the root down. At depth 64 the selection of a branch reads
behind the end of the key. -/
def verifyBlobs (key : Uint256) (size : Nat) : Nat → Uint256 → List Blob → Verdict
  | _, _, [] => ⟨false, []⟩
  | depth, hash, blob :: blobs =>
    match makeFromWire sha512Half blob with
    | .error _ => ⟨false, []⟩
    | .ok none => ⟨false, []⟩
    | .ok (some node) =>
      if node.updateHash sha512Half ≠ hash then ⟨false, []⟩
      else
        match node with
        | .inner n =>
          if h : depth ≤ leafDepth then
            let branch := selectBranch (.createID depth h key) key
            let verdict := verifyBlobs key size (depth + 1) (n.hashes branch) blobs
            ⟨verdict.ok, depth :: verdict.selected⟩
          else ⟨false, []⟩
        | .leaf .. => ⟨depth + 1 = size, []⟩

def verifyProofPath (rootHash key : Uint256) (path : List Blob) : Verdict :=
  if path = [] ∨ 65 < path.length then ⟨false, []⟩
  else verifyBlobs sha512Half key path.length 0 rootHash path.reverse

def hashedBlob (blob : Blob) : List Blob :=
  match makeFromWire sha512Half blob with
  | .ok (some (.inner n)) => if n.isEmpty then [] else [innerWithPrefix n.hashes]
  | .ok (some (.leaf _ type item)) => [leafWithPrefix type item]
  | _ => []

/-- The keys of transactions without metadata are their identifiers. -/
def KeyedByID (type : LeafType) (items : List Item) : Prop :=
  type = .tnTRANSACTION_NM →
    ∀ x ∈ items, x.key = sha512Half (HashPrefix.transactionID.bytes ++ x.data)

end Verify

variable {sha512Half : Blob → Uint256} {type : LeafType} {key : Uint256} {size depth : Nat}
  {hash : Uint256} {blob : Blob} {bs : List Blob}

theorem verifyBlobs_inner {n : InnerNode} (h : makeFromWire sha512Half blob = .ok (some (.inner n)))
    (hh : innerHash sha512Half n.hashes n.isBranch = hash) (hd : depth ≤ leafDepth) :
    verifyBlobs sha512Half key size depth hash (blob :: bs) =
      ⟨(verifyBlobs sha512Half key size (depth + 1) (n.hashes (key.nibble depth)) bs).ok,
        depth :: (verifyBlobs sha512Half key size (depth + 1)
          (n.hashes (key.nibble depth)) bs).selected⟩ := by
  rw [verifyBlobs, h]
  simp [Node.updateHash, hh, hd, selectBranch, NodeID.createID]

theorem verifyBlobs_leaf {t : LeafType}
    (hr : makeFromWire sha512Half blob = .ok (some (.leaf h t item)))
    (hh : leafHash sha512Half t item = hash) :
    verifyBlobs sha512Half key size depth hash (blob :: bs) = ⟨depth + 1 = size, []⟩ := by
  rw [verifyBlobs, hr]
  simp [Node.updateHash, hh]

section Complete

def cleanInner (sha512Half : Blob → Uint256) (type : LeafType) (cs : Fin 16 → Radix 16 Item) :
    InnerNode where
  hash := merkle sha512Half type (.inner cs)
  isBranch := fun i => !(cs i).isEmpty
  hashes := fun i => merkle sha512Half type (cs i)
  hashes_eq := fun i hi => by
    have hempty : cs i = .empty := isEmpty_iff.mp (by simpa using hi)
    rw [hempty]
    rfl

variable (sha512Half type) in
theorem header_clean_inner (cs : Fin 16 → Radix 16 Item) :
    (clean sha512Half type (.inner cs)).header = some (.inner (cleanInner sha512Half type cs)) := by
  simp only [clean, TreeNode.header, cleanInner, isNull_clean, some_inj, Node.inner.injEq]
  ext1
  · rfl
  · rfl
  funext i
  dsimp only
  split_ifs with he
  · rw [isEmpty_iff.mp he]
    rfl
  · rfl

theorem cleanInner_upToDate {cs : Fin 16 → Radix 16 Item} (hg : Grown d (.inner cs))
    (hz : ∀ x ∈ blobs sha512Half type (.inner cs), sha512Half x ≠ 0) :
    (cleanInner sha512Half type cs).UpToDate sha512Half where
  marked := by
    intro i
    constructor
    · intro hi
      apply merkle_ne_zero (fun x hx => hz x (mem_blobs_child i hx)) (hg.child i).full
      intro he
      simp [cleanInner, he, Radix.isEmpty] at hi
    intro hi
    by_contra he
    have hcs : cs i = .empty := isEmpty_iff.mp (by simpa [cleanInner] using he)
    apply hi
    change merkle sha512Half type (cs i) = 0
    rw [hcs]
    rfl
  hash := rfl

theorem Walk.depth_eq {t : TreeNode} {id : NodeID} {top : TreeNode × NodeID}
    (hw : Walk key t id top rest) : top.2.depth = id.depth + rest.length := by
  induction hw with
  | leaf c h type item id => rfl
  | stop hn => rfl
  | down hn hid hwl ih =>
    rw [ih, NodeID.getChildNodeID_depth hid, length_append, length_singleton]
    omega

theorem wire_leaf_hash (sha512Half : Blob → Uint256) (h : type = .tnACCOUNT_STATE → item.key ≠ 0) :
    ∃ blob item', (Node.leaf (leafHash sha512Half type item) type item).serializeForWire = some blob ∧
      makeFromWire sha512Half blob = .ok (some (.leaf (leafHash sha512Half type item) type item')) ∧
        leafHash sha512Half type item' = leafHash sha512Half type item := by
  cases type with
  | tnTRANSACTION_NM =>
    refine ⟨_, ⟨sha512Half (HashPrefix.transactionID.bytes ++ item.data), item.data⟩, rfl, ?_, rfl⟩
    rw [makeFromWire, getLast?_concat, dropLast_concat]
    rfl
  | tnTRANSACTION_MD =>
    have hr : Readable sha512Half .tnTRANSACTION_MD item := ⟨by simp, by simp⟩
    obtain ⟨blob, hb, hw⟩ := wire_leaf hr
    exact ⟨blob, item, hb, hw, rfl⟩
  | tnACCOUNT_STATE =>
    have hr : Readable sha512Half .tnACCOUNT_STATE item := ⟨h, by simp⟩
    obtain ⟨blob, hb, hw⟩ := wire_leaf hr
    exact ⟨blob, item, hb, hw, rfl⟩

/-- The nodes on a walk through a clean tree to a leaf verify against the hash of the tree. -/
theorem Walk.verifies {t : TreeNode} {id id' : NodeID} {c : UInt32} {type' : LeafType}
    (hw : Walk key t id (.leaf c h type' item, id') rest) {s : Radix 16 Item}
    (ht : t = clean sha512Half type s) (hg : Grown id.depth s)
    (hz : ∀ x ∈ blobs sha512Half type s, sha512Half x ≠ 0)
    (hkey : type = .tnACCOUNT_STATE → item.key ≠ 0) :
    ∃ path, ((.leaf c h type' item, id') :: rest : NodeStack).mapM sentBlob = some path ∧
      path.length = rest.length + 1 ∧ ∀ size,
      (verifyBlobs sha512Half key size id.depth (merkle sha512Half type s) path.reverse).ok ↔
        id.depth + path.length = size := by
  generalize htop : (TreeNode.leaf c h type' item, id') = top at hw
  induction hw generalizing s with
  | leaf c₁ h₁ t₁ item₁ id₁ =>
    cases htop
    cases s with
    | empty => cases ht
    | inner cs => cases ht
    | leaf item₂ =>
      cases ht
      obtain ⟨blob, item', hb, hr, hhs⟩ := wire_leaf_hash sha512Half hkey
      refine ⟨[blob], ?_, rfl, ?_⟩
      · have hs : sentBlob (.leaf 0 (leafHash sha512Half type item) type item, id') = some blob :=
          hb
        simp [hs]
      · intro size
        rw [reverse_singleton, merkle, verifyBlobs_leaf hr hhs]
        exact decide_eq_true_iff
  | stop hn => cases htop
  | @down c₁ h₁ hashes children id₁ id₂ top rest₁ hn hid hwl ih =>
    cases s with
    | empty => cases ht
    | leaf item₂ => cases ht
    | inner cs =>
      have hh := header_clean_inner sha512Half type cs
      rw [← ht] at hh
      injection ht with _ _ _ hch
      have hd := NodeID.getChildNodeID_depth hid
      have hbr := congrFun hch (selectBranch id₁ key)
      have hc := hg.child (selectBranch id₁ key)
      rw [← hd] at hc
      obtain ⟨path, hp, hlen, hok⟩ := ih hbr hc.grown (fun x hx => hz x (mem_blobs_child _ hx)) htop
      have hdt := cleanInner_upToDate hg hz
      have hne : (cleanInner sha512Half type cs).isEmpty = false := by
        have hsm : (cs (selectBranch id₁ key)).isEmpty = false := by
          have hi : (clean sha512Half type (cs (selectBranch id₁ key))).isNull = false := by
            rw [← hbr]
            exact Bool.eq_false_iff.mpr (mt TreeNode.isNull_iff.mp hn)
          rwa [isNull_clean] at hi
        rw [Bool.eq_false_iff, ne_eq, InnerNode.isEmpty_iff]
        intro hall
        have hbit := hall (selectBranch id₁ key)
        simp [cleanInner, hsm] at hbit
      obtain ⟨blob, hb, hr⟩ := wire_inner hdt hne
      refine ⟨path ++ [blob], ?_, ?_, ?_⟩
      · have hs : sentBlob (.inner c₁ h₁ hashes children, id₁) = some blob := by
          rw [sentBlob, hh]
          exact hb
        rw [← cons_append, mapM_append, hp]
        simp [hs]
      · simp [hlen]
      · intro size
        have hm : innerHash sha512Half (cleanInner sha512Half type cs).hashes
            (cleanInner sha512Half type cs).isBranch = merkle sha512Half type (.inner cs) := rfl
        have hbl := hok size
        rw [hd] at hbl
        rw [reverse_append, reverse_singleton, singleton_append,
          verifyBlobs_inner hr hm id₁.depth_le, length_append, length_singleton]
        refine hbl.trans ?_
        omega

/-- The path of a key that is present verifies. -/
theorem Kept.proofPath_verifies {m : SHAMap} (hk : Kept sha512Half type m)
    (hz : ∀ x ∈ blobs sha512Half type m.root.shape, sha512Half x ≠ 0)
    (hkey : type = .tnACCOUNT_STATE → key ≠ 0) (h : contents m.root.shape key ≠ none) :
    ∃ hash m' path, m.getHash sha512Half = some (hash, m') ∧
      m'.getProofPath key = some (some path) ∧ (verifyProofPath sha512Half hash key path).ok := by
  obtain ⟨m', hh, hr⟩ := hk.exists_getHash
  obtain ⟨item, hi⟩ := ne_none_iff_exists'.mp h
  have hc' : Canonical m'.root.shape := by
    rw [hr, shape_clean]
    exact hk.canonical
  obtain ⟨hmem, rfl⟩ := (contents_eq_some_iff hk.canonical.grown.placed).mp hi
  have hmem' : item ∈ m'.root.shape.items := by rwa [hr, shape_clean]
  obtain ⟨c, h', t, id, rest, hw⟩ := hc'.walk_of_mem hmem'
  obtain ⟨path, hp, hlen, hok⟩ := hw.verifies hr hk.canonical.grown hz hkey
  have hd := hw.depth_eq
  have hle := id.depth_le
  rw [NodeID.root_depth] at hd hok
  dsimp only at hd
  refine ⟨_, m', path, hh, ?_, ?_⟩
  · rw [getProofPath, hw.walkTowardsKey_eq, append_nil, bind_some]
    simp only [ne_eq, not_true_eq_false, if_false, hp, map_some]
  have hs : path ≠ [] := by
    rintro rfl
    simp at hlen
  have hsh : ¬ 65 < path.length := by
    unfold leafDepth at hle
    omega
  rw [verifyProofPath, if_neg (not_or.mpr ⟨hs, hsh⟩)]
  exact (hok _).mpr (Nat.zero_add _)

end Complete

section Sound

variable {n : InnerNode}

theorem innerHash_of_isEmpty (h : n.isEmpty) : innerHash sha512Half n.hashes n.isBranch = 0 := by
  rw [innerHash, if_neg]
  simp [InnerNode.isEmpty_iff.mp h]

theorem innerHash_of_not_isEmpty (h : n.isEmpty = false) :
    innerHash sha512Half n.hashes n.isBranch = sha512Half (innerWithPrefix n.hashes) := by
  rw [innerHash, if_pos]
  by_contra hno
  simp only [not_exists, Bool.not_eq_true] at hno
  rw [InnerNode.isEmpty_iff.mpr hno] at h
  cases h

theorem mem_hashedBlob_inner (h : makeFromWire sha512Half blob = .ok (some (.inner n)))
    (hne : n.isEmpty = false) : innerWithPrefix n.hashes ∈ hashedBlob sha512Half blob := by
  simp [hashedBlob, h, hne]

variable {t : LeafType}

theorem mem_hashedBlob_leaf (hr : makeFromWire sha512Half blob = .ok (some (.leaf h t item))) :
    leafWithPrefix t item ∈ hashedBlob sha512Half blob := by
  simp [hashedBlob, hr]

/-- The tree below the branch of a key, of which an empty tree has only empty ones. -/
def below (d : Nat) (key : Uint256) : Radix 16 Item → Radix 16 Item
  | .inner cs => cs (key.nibble d)
  | _ => .empty

variable {s : Radix 16 Item}

/-- An inner node of a path that has the hash of a tree holds the hashes of its branches. -/
theorem inner_of_hash (hf : CollisionFree sha512Half (blobs sha512Half type s ++ l))
    (hmem : n.isEmpty = false → innerWithPrefix n.hashes ∈ l)
    (hh : innerHash sha512Half n.hashes n.isBranch = merkle sha512Half type s) (key : Uint256)
    (d : Nat) :
    n.hashes (key.nibble d) = merkle sha512Half type (below d key s) ∧ ∀ item, s ≠ .leaf item := by
  have hl := fun x hx => hf.ne_zero x (mem_append_left l hx)
  cases he : n.isEmpty with
  | true =>
    rw [innerHash_of_isEmpty he] at hh
    rw [n.hashes_eq _ (InnerNode.isEmpty_iff.mp he _)]
    cases s with
    | empty => exact ⟨rfl, nofun⟩
    | leaf item => exact absurd hh.symm (hl _ (mem_singleton_self _))
    | inner cs =>
      refine ⟨?_, nofun⟩
      by_cases hb : ∃ i, (cs i).isEmpty = false
      · rw [merkle_inner hb] at hh
        exact absurd hh.symm (hl _ (mem_blobs_inner hb))
      have hcs := isEmpty_iff.mp (by simpa using not_exists.mp hb (key.nibble d))
      rw [below, hcs]
      rfl
  | false =>
    have hin := mem_append_right (blobs sha512Half type s) (hmem he)
    rw [innerHash_of_not_isEmpty he] at hh
    cases s with
    | empty => exact absurd hh (hf.ne_zero _ hin)
    | leaf item =>
      have hbl := hf.inj _ hin _ (mem_append_left l (mem_singleton_self _)) hh
      exact absurd hbl.symm (leafWithPrefix_ne_innerWithPrefix type item _)
    | inner cs =>
      refine ⟨?_, nofun⟩
      by_cases hb : ∃ i, (cs i).isEmpty = false
      · rw [merkle_inner hb] at hh
        have hbl := hf.inj _ hin _ (mem_append_left l (mem_blobs_inner hb)) hh
        exact congrFun (innerWithPrefix_injective hbl) (key.nibble d)
      · rw [merkle_inner_empty hb] at hh
        exact absurd hh (hf.ne_zero _ hin)

theorem leafWithPrefix_type {t' : LeafType} {x y : Item}
    (h : leafWithPrefix t x = leafWithPrefix t' y) : t = t' := by
  have hf := congrArg (List.take 4) h
  cases t <;> cases t' <;> simp [leafWithPrefix, HashPrefix.bytes] at hf ⊢

/-- A leaf of a path that has the hash of a tree is the leaf of that tree. -/
theorem leaf_of_hash (hf : CollisionFree sha512Half (blobs sha512Half type s ++ l))
    (hr : makeFromWire sha512Half blob = .ok (some (.leaf h t item)))
    (hmem : leafWithPrefix t item ∈ l) (hids : KeyedByID sha512Half type s.items)
    (hh : leafHash sha512Half t item = merkle sha512Half type s) : s = .leaf item := by
  have hin := mem_append_right (blobs sha512Half type s) hmem
  cases s with
  | empty => exact absurd hh (hf.ne_zero _ hin)
  | leaf x =>
    have hb := hf.inj _ hin _ (mem_append_left l (mem_singleton_self _)) hh
    obtain rfl := leafWithPrefix_type hb
    rw [leafWithPrefix_inj hb]
    intro ht hd
    subst ht
    rw [makeFromWire_transaction hr, hids rfl x (by simp), hd]
  | inner cs =>
    by_cases hbr : ∃ i, (cs i).isEmpty = false
    · rw [merkle_inner hbr] at hh
      have hb := hf.inj _ hin _ (mem_append_left l (mem_blobs_inner hbr)) hh
      exact absurd hb (leafWithPrefix_ne_innerWithPrefix t item _)
    · rw [merkle_inner_empty hbr] at hh
      exact absurd hh (hf.ne_zero _ hin)

theorem mem_blobs_below {x : Blob} (h : x ∈ blobs sha512Half type (below d key s)) :
    x ∈ blobs sha512Half type s := by
  cases s with
  | empty => exact h
  | leaf item => cases h
  | inner cs => exact mem_blobs_child _ h

theorem mem_items_below {x : Item} (h : x ∈ (below d key s).items) : x ∈ s.items := by
  cases s with
  | empty => exact h
  | leaf item => cases h
  | inner cs => exact Radix.mem_items_inner.mpr ⟨_, h⟩

theorem contentsAt_below (hs : ∀ item, s ≠ .leaf item) (d : Nat) :
    contentsAt (d + 1) (below d key s) key = contentsAt d s key := by
  cases s with
  | empty => rfl
  | leaf item => exact absurd rfl (hs item)
  | inner cs => rfl

/-- A path that verifies against the hash of a tree and ends with a leaf of the key leads to an
item of the tree. -/
theorem verifyBlobs_sound
    (hf : CollisionFree sha512Half (blobs sha512Half type s ++ bs.flatMap (hashedBlob sha512Half)))
    (hids : KeyedByID sha512Half type s.items)
    (hl : ∀ b, bs.getLast? = some b → makeFromWire sha512Half b = .ok (some (.leaf h t item)))
    (hs : d + bs.length = size) (hkey : item.key = key)
    (hok : (verifyBlobs sha512Half key size d (merkle sha512Half type s) bs).ok) :
    contentsAt d s key = some item := by
  induction bs generalizing d s with
  | nil => cases hok
  | cons b bs ih =>
    unfold verifyBlobs at hok
    split at hok
    · cases hok
    · cases hok
    rename_i node hr
    split at hok
    · cases hok
    rename_i hh
    simp only [ne_eq, not_not] at hh
    have hsub : ∀ x ∈ hashedBlob sha512Half b,
        x ∈ (b :: bs).flatMap (hashedBlob sha512Half) := fun x hx => mem_append_left _ hx
    split at hok
    · rename_i n
      split at hok
      · obtain ⟨hc, hn⟩ := inner_of_hash hf
          (fun hne => hsub _ (mem_hashedBlob_inner hr hne)) hh key d
        have hbl : (verifyBlobs sha512Half key size (d + 1)
            (merkle sha512Half type (below d key s)) bs).ok := hc ▸ hok
        have hm : bs ≠ [] := by
          rintro rfl
          cases hbl
        rw [← contentsAt_below hn]
        refine ih ?_ ?_ ?_ ?_ hbl
        · apply hf.mono
          intro x hx
          obtain hx | hx := mem_append.mp hx
          · exact mem_append_left _ (mem_blobs_below hx)
          · exact mem_append_right _ (mem_append_right _ hx)
        · exact fun ht x hx => hids ht x (mem_items_below hx)
        · intro b' hb'
          apply hl
          rw [getLast?_cons, hb']
          rfl
        · rw [← hs, length_cons]
          omega
      · cases hok
    · rename_i h' t' item'
      have hend : bs = [] := by
        have hone := of_decide_eq_true hok
        rw [length_cons] at hs
        exact length_eq_zero_iff.mp (by omega)
      subst hend
      have hsm := hl b rfl
      rw [hr] at hsm
      cases hsm
      rw [leaf_of_hash hf hr (hsub _ (mem_hashedBlob_leaf hr)) hids hh, contentsAt_leaf]
      exact single_eq_some_iff.mpr ⟨rfl, hkey⟩

theorem selected_lt {e : Nat} (he : e ∈ (verifyBlobs sha512Half key size depth hash bs).selected) :
    e < depth + bs.length ∧
      ((∀ b n, bs.getLast? = some b → makeFromWire sha512Half b ≠ .ok (some (.inner n))) →
        e + 1 < depth + bs.length) := by
  induction bs generalizing depth hash with
  | nil => cases he
  | cons b bs ih =>
    unfold verifyBlobs at he
    split at he
    · cases he
    · cases he
    rename_i node hr
    split at he
    · cases he
    rename_i hh
    split at he
    · rename_i n
      split at he
      · rw [length_cons]
        obtain rfl | he := mem_cons.mp he
        · refine ⟨by omega, ?_⟩
          intro hl
          cases bs with
          | nil => exact absurd hr (hl b n rfl)
          | cons b' bs =>
            rw [length_cons]
            omega
        · obtain ⟨hlt, hlt'⟩ := ih he
          refine ⟨by omega, ?_⟩
          intro hl
          have hrs := hlt' fun b' n' hb' => hl b' n' (by rw [getLast?_cons, hb']; rfl)
          omega
      · cases he
    · cases he

end Sound

/-- The path of every key of a map verifies against the hash of the map. A path that verifies and
whose deepest node is a leaf of the key leads to an item of every map with that hash. Branches are
selected within the key on every path that is not one of 65 inner nodes. -/
theorem proof_path (sha512Half : Blob → Uint256) :
    (∀ type m key, Kept sha512Half type m →
      (∀ x ∈ blobs sha512Half type m.root.shape, sha512Half x ≠ 0) →
      (type = .tnACCOUNT_STATE → key ≠ 0) → contents m.root.shape key ≠ none →
      ∃ hash m' path, m.getHash sha512Half = some (hash, m') ∧
        m'.getProofPath key = some (some path) ∧
          (verifyProofPath sha512Half hash key path).ok) ∧
    (∀ rootHash key path, (verifyProofPath sha512Half rootHash key path).ok →
      ∀ h t item, path.head?.map (makeFromWire sha512Half) = some (.ok (some (.leaf h t item))) →
      item.key = key → ∀ type m m', Kept sha512Half type m →
      m.getHash sha512Half = some (rootHash, m') →
      CollisionFree sha512Half
        (blobs sha512Half type m.root.shape ++ path.flatMap (hashedBlob sha512Half)) →
      KeyedByID sha512Half type m.root.shape.items → contents m.root.shape key = some item) ∧
    ∀ rootHash key path, (path.length ≤ 64 ∨ ∀ n,
        path.head?.map (makeFromWire sha512Half) ≠ some (.ok (some (.inner n)))) →
      ∀ d ∈ (verifyProofPath sha512Half rootHash key path).selected, d < 64 := by
  refine ⟨fun type m key hk hzero hkey h => hk.proofPath_verifies hzero hkey h, ?_, ?_⟩
  · intro rootHash key path hok h t item hhead hkey type m m' hk hhash hfree hids
    unfold verifyProofPath at hok
    split_ifs at hok
    obtain ⟨m₁, hhash₁, -⟩ := hk.exists_getHash
    rw [hhash, Option.some_inj, Prod.mk.injEq] at hhash₁
    rw [hhash₁.1] at hok
    have hlast : ∀ b, path.reverse.getLast? = some b →
        makeFromWire sha512Half b = .ok (some (.leaf h t item)) := by
      intro b hb
      rw [List.getLast?_reverse] at hb
      rw [hb, Option.map_some, Option.some_inj] at hhead
      exact hhead
    refine verifyBlobs_sound ?_ hids hlast ?_ hkey hok
    · apply hfree.mono
      intro x hx
      rw [List.mem_append, List.mem_flatMap] at hx ⊢
      simpa only [List.mem_reverse] using hx
    · simp
  · intro rootHash key path hpath d hd
    unfold verifyProofPath at hd
    split at hd
    · cases hd
    rename_i hsize
    rw [not_or, not_lt] at hsize
    obtain ⟨hlt, hlt'⟩ := selected_lt hd
    rw [List.length_reverse] at hlt hlt'
    obtain hshort | hdeepest := hpath
    · omega
    have hless := hlt' (by
      intro b n hb hread
      rw [List.getLast?_reverse] at hb
      apply hdeepest n
      rw [hb, Option.map_some, hread])
    omega

theorem sumHash_ne_zero (blob : Blob) : sumHash blob ≠ 0 := by
  intro h
  have hb := congrArg (fun a => a.bytes ⟨0, by decide⟩) h
  exact absurd hb (show (1 : UInt8) ≠ 0 by decide)

def givenPath (items : List Item) (key : Uint256) :
    Option (SHAMap × Uint256 × SHAMap × List Blob) :=
  (mapWith .tnACCOUNT_STATE items).bind fun m =>
    (m.getHash sumHash).bind fun hashed =>
      (hashed.2.getProofPath key).bind fun path => path.map fun path => (m, hashed.1, hashed.2, path)

theorem exists_givenPath (items : List Item) (key : Uint256) {P : SHAMap → Uint256 → List Blob → Prop}
    [∀ m hash path, Decidable (P m hash path)]
    (h : ((givenPath items key).any fun g => P g.1 g.2.1 g.2.2.2)) :
    ∃ m hash m' path, mapWith .tnACCOUNT_STATE items = some m ∧ m.getHash sumHash = some (hash, m') ∧
      m'.getProofPath key = some (some path) ∧ P m hash path := by
  obtain ⟨g, hg, h⟩ := Run.exists_of_any h
  obtain ⟨m, hm, hg⟩ := bind_eq_some_iff.mp hg
  obtain ⟨⟨hash, m'⟩, hh, hg⟩ := bind_eq_some_iff.mp hg
  obtain ⟨found, hp, hg⟩ := bind_eq_some_iff.mp hg
  obtain ⟨path, rfl, rfl⟩ := map_eq_some_iff.mp hg
  exact ⟨m, hash, m', path, hm, hh, hp, h⟩

theorem proof_path_levels : ∃ m hash m' path, path.length = 3 ∧
    mapWith .tnACCOUNT_STATE [itemAt 0x10, itemAt 0x20, itemAt 0x11] = some m ∧
      m.getHash sumHash = some (hash, m') ∧
      (∃ hash m' path, m.getHash sumHash = some (hash, m') ∧
        m'.getProofPath (itemAt 0x10).key = some (some path) ∧
          (verifyProofPath sumHash hash (itemAt 0x10).key path).ok) ∧
      (verifyProofPath sumHash hash (itemAt 0x10).key path).ok ∧
      contents m.root.shape (itemAt 0x10).key = some (itemAt 0x10) := by
  obtain ⟨m, hash, m', path, hm, hhash, -, hlevels, hok, hfree, hhead, hpresent⟩ :=
    exists_givenPath [itemAt 0x10, itemAt 0x20, itemAt 0x11] (itemAt 0x10).key
      (P := fun m hash path => path.length = 3 ∧
        (verifyProofPath sumHash hash (itemAt 0x10).key path).ok ∧
        CollisionFree sumHash (blobs sumHash .tnACCOUNT_STATE m.root.shape ++
          path.flatMap (hashedBlob sumHash)) ∧
        (path.head?.bind fun b => (readLeaf sumHash b).toOption) = some (some (itemAt 0x10)) ∧
        contents m.root.shape (itemAt 0x10).key ≠ none) (by decide +kernel)
  obtain ⟨blob, hblob, hread⟩ := Option.bind_eq_some_iff.mp hhead
  obtain ⟨hash', t, hleaf⟩ := readLeaf_eq hread
  have hwire : path.head?.map (makeFromWire sumHash) = some (.ok (some (.leaf hash' t (itemAt 0x10)))) := by
    rw [hblob, Option.map_some, hleaf]
  obtain ⟨hcomplete, hsound, -⟩ := proof_path sumHash
  exact ⟨m, hash, m', path, hlevels, hm, hhash,
    hcomplete _ m _ (kept_mapWith hm) (fun x _ => sumHash_ne_zero x) (fun _ => by decide) hpresent,
    hok, hsound hash _ path hok _ t _ hwire rfl .tnACCOUNT_STATE m m' (kept_mapWith hm) hhash hfree nofun⟩

/-- The path of an account state without a key does not verify. The key of the leaf is not compared
with the key that is asked for. After 64 inner nodes a branch is selected behind the end of the
key. -/
theorem proof_path_limits :
    (∃ m hash m' path, mapWith .tnACCOUNT_STATE [⟨0, List.replicate 12 7⟩] = some m ∧
      m.getHash sumHash = some (hash, m') ∧ m'.getProofPath 0 = some (some path) ∧
      contents m.root.shape 0 ≠ none ∧ (verifyProofPath sumHash hash 0 path).ok = false) ∧
    (∃ m hash m' path, mapWith .tnACCOUNT_STATE [itemAt 0x10] = some m ∧
      m.getHash sumHash = some (hash, m') ∧
      CollisionFree sumHash (blobs sumHash .tnACCOUNT_STATE m.root.shape ++
        path.flatMap (hashedBlob sumHash)) ∧
      (verifyProofPath sumHash hash (itemAt 0x11).key path).ok ∧
      contents m.root.shape (itemAt 0x11).key = none) ∧
    64 ∈ (verifyProofPath constantHash (constantHash []) ⟨fun _ => 0x55⟩
      (List.replicate 65 (List.replicate 32 1 ++ [5, wireTypeCompressedInner]))).selected := by
  refine ⟨exists_givenPath _ 0 (by decide +kernel), ?_, by decide +kernel⟩
  exact (exists_givenPath _ (itemAt 0x10).key (by decide +kernel)).imp fun m => .imp fun hash =>
    .imp fun m' => .imp fun path h => ⟨h.1, h.2.1, h.2.2.2⟩

end Rippled.SHAMap
