import Rippled.Basics.BaseUInt
import Rippled.Lib.Radix

namespace Rippled.SHAMap

def leafDepth : Nat := 64

def depthMask (depth : Nat) : Uint256 :=
  ⟨fun i => if 2 * i.val + 2 ≤ depth then 0xFF else if 2 * i.val + 1 = depth then 0xF0 else 0⟩

theorem depthMask_byte (depth : Nat) (i : Fin 32) : ((depthMask depth).bytes i).toNat =
      if 2 * i.val + 2 ≤ depth then 255 else if 2 * i.val + 1 = depth then 240 else 0 := by
  simp only [depthMask]
  split_ifs
  · rfl
  · rfl
  · rfl

theorem and_240_div (x : Nat) (h : x < 256) : (x &&& 240) / 16 = x / 16 := by
  have hdiv : (x &&& 240) / 2 ^ 4 = x / 2 ^ 4 &&& (2 ^ 4 - 1) := Nat.and_div_two_pow
  rw [Nat.and_two_pow_sub_one_eq_mod] at hdiv
  omega

theorem and_240_mod (x : Nat) : (x &&& 240) % 16 = 0 := by
  have hmod : (x &&& 240) % 2 ^ 4 = x % 2 ^ 4 &&& 240 % 2 ^ 4 := Nat.and_mod_two_pow
  simpa using hmod

theorem nibble_and_depthMask (a : Uint256) (depth : Nat) {d : Nat} (hd : d < 64) :
    (a &&& depthMask depth).nibble d = if d < depth then a.nibble d else 0 := by
  have hn : d / 2 < 32 := by omega
  have hb : (a.bytes ⟨d / 2, hn⟩).toNat < 256 := UInt8.toNat_lt _
  have h255 := (Nat.and_two_pow_sub_one_eq_mod _ 8).trans (Nat.mod_eq_of_lt hb)
  have hand : ((a &&& depthMask depth).bytes ⟨d / 2, hn⟩).toNat =
      (a.bytes ⟨d / 2, hn⟩).toNat &&& ((depthMask depth).bytes ⟨d / 2, hn⟩).toNat :=
    UInt8.toNat_and _ _
  have hval := BaseUInt.nibble_val a hn
  apply Fin.ext
  rw [BaseUInt.nibble_val _ hn, hand, depthMask_byte]
  by_cases hf : 2 * (d / 2) + 2 ≤ depth
  · have hlt : d < depth := by omega
    rw [if_pos hf, h255, if_pos hlt, hval]
  rw [if_neg hf]
  by_cases hp : 2 * (d / 2) + 1 = depth
  · rw [if_pos hp, and_240_mod, and_240_div _ hb]
    by_cases hodd : d % 2 = 1
    · rw [if_pos hodd, if_neg (by omega)]
      rfl
    · rw [if_neg hodd, if_pos (by omega), hval, if_neg hodd]
  · have hlt : ¬ d < depth := by omega
    rw [if_neg hp, if_neg hlt]
    simp

theorem masked_iff {a : Uint256} {depth : Nat} :
    a &&& depthMask depth = a ↔ ∀ d, depth ≤ d → d < 64 → a.nibble d = 0 := by
  constructor
  · intro h d hle hd
    rw [← h, nibble_and_depthMask a depth hd, if_neg (by omega)]
  intro h
  apply BaseUInt.ext_nibble
  intro d hd
  rw [nibble_and_depthMask a depth hd]
  split_ifs with hlt
  · rfl
  · exact (h d (by omega) hd).symm

/-- Identifies a node inside a map by its depth and the half bytes of the path to it. -/
structure NodeID where
  depth : Nat
  id : Uint256
  depth_le : depth ≤ leafDepth
  masked : id &&& depthMask depth = id
deriving DecidableEq

namespace NodeID

def root : NodeID where
  depth := 0
  id := 0
  depth_le := by decide
  masked := by decide

def isRoot (n : NodeID) : Bool := n.depth = 0

@[simp] theorem root_depth : root.depth = 0 := rfl

theorem root_isRoot : root.isRoot := rfl

def createID (depth : Nat) (h : depth ≤ leafDepth) (key : Uint256) : NodeID where
  depth := depth
  id := key &&& depthMask depth
  depth_le := h
  masked := by
    apply masked_iff.mpr
    intro d hle hd
    rw [nibble_and_depthMask key depth hd, if_neg (by omega)]

end NodeID

/-- The half byte at depth `d` of a number, with the bits of `m` added. -/
def orNibble (a : Uint256) (d : Nat) (m : Fin 16) : Uint256 :=
  ⟨fun i => if i.val = d / 2 then
      a.bytes i ||| (if d % 2 = 1 then UInt8.ofNat m else UInt8.ofNat m <<< 4)
    else a.bytes i⟩

theorem toNat_shiftLeft_4 (m : Fin 16) : (UInt8.ofNat m.val <<< 4).toNat = m.val * 16 := by
  have hm := m.isLt
  rw [UInt8.toNat_shiftLeft, UInt8.toNat_ofNat', Nat.shiftLeft_eq]
  simp only [UInt8.reduceToNat, Nat.reduceMod, Nat.reducePow]
  omega

theorem toNat_ofNat_fin (m : Fin 16) : (UInt8.ofNat m.val).toNat = m.val := by
  have hm := m.isLt
  rw [UInt8.toNat_ofNat']
  omega

theorem nibble_orNibble_of_ne (a : Uint256) {d e : Nat} (he : e < 64) (m : Fin 16) (h : e ≠ d) :
    (orNibble a d m).nibble e = a.nibble e := by
  have hn : e / 2 < 32 := by omega
  have hm := m.isLt
  by_cases hb : e / 2 = d / 2
  · apply Fin.ext
    rw [BaseUInt.nibble_val _ hn, BaseUInt.nibble_val _ hn]
    simp only [orNibble, hb, if_pos, UInt8.toNat_or]
    by_cases hodd : e % 2 = 1
    · have hev : ¬ d % 2 = 1 := by omega
      rw [if_pos hodd, if_neg hev, if_pos hodd, toNat_shiftLeft_4,
        Nat.or_mod_two_pow (n := 4)]
      simp
    · have hodd' : d % 2 = 1 := by omega
      have hdiv : m.val / 16 = 0 := by omega
      rw [if_neg hodd, if_pos hodd', if_neg hodd, toNat_ofNat_fin,
        Nat.or_div_two_pow (n := 4), hdiv, Nat.or_zero]
  · apply BaseUInt.nibble_congr
    intro i hi
    simp only [orNibble]
    rw [if_neg (by omega)]

namespace NodeID

/-- The ID of the child in a branch. Asking for a child below the level of the leaves throws. -/
def getChildNodeID (n : NodeID) (m : Fin 16) : Option NodeID :=
  if h : n.depth < leafDepth then
    some {
      depth := n.depth + 1
      id := orNibble n.id n.depth m
      depth_le := h
      masked := by
        apply masked_iff.mpr
        intro d hle hd
        rw [nibble_orNibble_of_ne n.id hd m (by omega)]
        exact masked_iff.mp n.masked d (by omega) hd }
  else none

end NodeID

def selectBranch (id : NodeID) (hash : Uint256) : Fin 16 := hash.nibble id.depth

namespace NodeID

theorem getChildNodeID_depth {n n' : NodeID} {m : Fin 16} (h : n.getChildNodeID m = some n') :
    n'.depth = n.depth + 1 := by
  unfold getChildNodeID at h
  split at h
  · cases h
    rfl
  · cases h

theorem exists_getChildNodeID (n : NodeID) (m : Fin 16) (h : n.depth < leafDepth) :
    ∃ n', n.getChildNodeID m = some n' ∧ n'.depth = n.depth + 1 := by
  rw [getChildNodeID, dif_pos h]
  exact ⟨_, rfl, rfl⟩

end NodeID

open Lib

abbrev Blob := List UInt8

structure Item where
  key : Uint256
  data : Blob

instance : DecidableEq Item := fun a b =>
  decidable_of_iff (a.key = b.key ∧ a.data = b.data) (by cases a; cases b; simp)

inductive LeafType
  | tnTRANSACTION_NM
  | tnTRANSACTION_MD
  | tnACCOUNT_STATE
deriving DecidableEq

/-- The four bytes put in front of hashed material to give each kind of hash its own space. -/
inductive HashPrefix
  | transactionID
  | txNode
  | leafNode
  | innerNode
deriving DecidableEq

def HashPrefix.bytes : HashPrefix → Blob
  | .transactionID => [0x54, 0x58, 0x4e, 0]
  | .txNode => [0x53, 0x4e, 0x44, 0]
  | .leafNode => [0x4d, 0x4c, 0x4e, 0]
  | .innerNode => [0x4d, 0x49, 0x4e, 0]

/-- What a leaf is hashed and stored as. A transaction is identified by its data alone. -/
def leafWithPrefix (type : LeafType) (item : Item) : Blob :=
  match type with
  | .tnTRANSACTION_NM => HashPrefix.transactionID.bytes ++ item.data
  | .tnTRANSACTION_MD => HashPrefix.txNode.bytes ++ item.data ++ item.key.toList
  | .tnACCOUNT_STATE => HashPrefix.leafNode.bytes ++ item.data ++ item.key.toList

def innerWithPrefix (hashes : Fin 16 → Uint256) : Blob :=
  HashPrefix.innerNode.bytes ++ (List.finRange 16).flatMap fun i => (hashes i).toList

/-- A pointer to a node of a map, with everything below it. Every inner node keeps the hash of
each child beside the child, and every node the number of the map that owns it. -/
inductive TreeNode
  | null
  | leaf (cowid : UInt32) (hash : Uint256) (type : LeafType) (item : Item)
  | inner (cowid : UInt32) (hash : Uint256) (hashes : Fin 16 → Uint256)
    (children : Fin 16 → TreeNode)

namespace TreeNode

def isNull : TreeNode → Bool
  | null => true
  | _ => false

def cowid : TreeNode → UInt32
  | null => 0
  | leaf c .. => c
  | inner c .. => c

def getHash : TreeNode → Uint256
  | null => 0
  | leaf _ h .. => h
  | inner _ h .. => h

def withCowid (c : UInt32) : TreeNode → TreeNode
  | null => null
  | leaf _ h type item => leaf c h type item
  | inner _ h hashes children => inner c h hashes children

def clone (c : UInt32) (node : TreeNode) : TreeNode := node.withCowid c

section

variable (node : TreeNode)

def unshare : TreeNode := node.withCowid 0

def newInner (c : UInt32) : TreeNode := inner c 0 (fun _ => 0) fun _ => null

def isEmptyBranch (m : Fin 16) : Bool :=
  match node with
  | inner _ _ _ children => (children m).isNull
  | _ => true

def branches (children : Fin 16 → TreeNode) : List (Fin 16) :=
  (List.finRange 16).filter fun i => !(children i).isNull

def getBranchCount : TreeNode → Nat
  | inner _ _ _ children => (branches children).length
  | _ => 0

/-- Hook a child to a branch, or empty the branch. The hashes it affects are cleared. -/
def setChild (m : Fin 16) (child : TreeNode) : TreeNode :=
  match node with
  | inner c _ hashes children => inner c 0 (Function.update hashes m 0) (Function.update children m child)
  | _ => node

end

def shape : TreeNode → Radix 16 Item
  | null => .empty
  | leaf _ _ _ item => .leaf item
  | inner _ _ _ children => .inner fun i => (children i).shape

def OfType (type : LeafType) : TreeNode → Prop
  | null => True
  | leaf _ _ t _ => t = type
  | inner _ _ _ children => ∀ i, (children i).OfType type

variable {node : TreeNode}

theorem isNull_iff : node.isNull ↔ node = null := by
  cases node <;> simp [isNull]

theorem shape_eq_empty_iff : node.shape = .empty ↔ node = null := by
  cases node <;> simp [shape]

@[simp] theorem setChild_inner (c : UInt32) (h : Uint256) (hashes : Fin 16 → Uint256)
    (children : Fin 16 → TreeNode) (m : Fin 16) (child : TreeNode) :
    (inner c h hashes children).setChild m child =
      inner c 0 (Function.update hashes m 0) (Function.update children m child) := rfl

theorem shape_update (children : Fin 16 → TreeNode) (m : Fin 16) (child : TreeNode) :
    (fun i => (Function.update children m child i).shape) =
      Function.update (fun i => (children i).shape) m child.shape := by
  funext i
  by_cases h : i = m
  · subst h
    simp
  · simp [h]

theorem forall_update {P : TreeNode → Prop} {children : Fin 16 → TreeNode} {child : TreeNode}
    (h : ∀ i, P (children i)) (hc : P child) (m i : Fin 16) : P (Function.update children m child i) := by
  by_cases him : i = m
  · subst him
    rwa [Function.update_self]
  · rw [Function.update_of_ne him]
    exact h i

end TreeNode

section Hash

variable (sha512Half : Blob → Uint256)

section

variable (type : LeafType) (item : Item)

def leafHash : Uint256 := sha512Half (leafWithPrefix type item)

def innerHash (hashes : Fin 16 → Uint256) (isBranch : Fin 16 → Bool) : Uint256 :=
  if ∃ i, isBranch i then sha512Half (innerWithPrefix hashes) else 0

def makeTypedLeaf (owner : UInt32) : TreeNode :=
  .leaf owner (leafHash sha512Half type item) type item

end

/-- Recalculate the hash of a node, for an inner node from the hashes it keeps. -/
def TreeNode.updateHash : TreeNode → TreeNode
  | .null => .null
  | .leaf c _ type item => .leaf c (leafHash sha512Half type item) type item
  | .inner c _ hashes children =>
    .inner c (innerHash sha512Half hashes fun i => !(children i).isNull) hashes children

/-- Take the hashes of all children and then recalculate the hash of the node. -/
def TreeNode.updateHashDeep : TreeNode → TreeNode
  | .inner c h _ children =>
    (TreeNode.inner c h (fun i => (children i).getHash) children).updateHash sha512Half
  | node => node.updateHash sha512Half

@[simp] theorem shape_makeTypedLeaf (type : LeafType) (item : Item) (owner : UInt32) :
    (makeTypedLeaf sha512Half type item owner).shape = .leaf item := rfl

end Hash

end Rippled.SHAMap
