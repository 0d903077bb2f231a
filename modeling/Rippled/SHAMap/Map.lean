import Rippled.SHAMap.TreeNode

namespace Rippled

inductive SHAMapState
  | modifying
  | immutable
  | synching
  | invalid
deriving DecidableEq

/-- A map, with the nodes that hang from its root. A branch whose child is in the node store only
counts as having that child, which is loaded when it is first asked for. -/
structure SHAMap where
  root : SHAMap.TreeNode
  cowid : UInt32 := 1
  state : SHAMapState := .modifying
  backed : Bool := true

namespace SHAMap

/-- Nodes on the way down from the root with their IDs, the lowest one first. -/
abbrev NodeStack := List (TreeNode × NodeID)

def new (backed : Bool) : SHAMap where
  root := .newInner 1
  backed := backed

/-- Go down from a node towards a key. Nothing is returned where the ID of a node cannot be
formed, which throws. -/
def walkTowardsKey (key : Uint256) : TreeNode → NodeID → NodeStack → Option NodeStack
  | .null, _, stack => some stack
  | .leaf c h type item, id, stack => some ((.leaf c h type item, id) :: stack)
  | .inner c h hashes children, id, stack =>
    let branch := selectBranch id key
    if (children branch).isNull then some ((.inner c h hashes children, id) :: stack)
    else (id.getChildNodeID branch).bind fun child =>
      walkTowardsKey key (children branch) child ((.inner c h hashes children, id) :: stack)

def unshareNode (cowid : UInt32) (node : TreeNode) : TreeNode :=
  if node.cowid ≠ cowid then node.clone cowid else node

/-- Hook a child to the nodes above it, up to the root, which is returned. -/
def dirtyUp (cowid : UInt32) (target : Uint256) (stack : NodeStack) (child : TreeNode) : TreeNode :=
  stack.foldl (fun child entry =>
    (unshareNode cowid entry.1).setChild (selectBranch entry.2 target) child) child

def findKey (m : SHAMap) (key : Uint256) : Option (Option Item) :=
  (walkTowardsKey key m.root .root []).map fun stack =>
    match stack with
    | (.leaf _ _ _ item, _) :: _ => if item.key = key then some item else none
    | _ => none

def peekItem (m : SHAMap) (key : Uint256) : Option (Option Item) := m.findKey key

def hasItem (m : SHAMap) (key : Uint256) : Option Bool := (m.findKey key).map Option.isSome

section Modify

variable (sha512Half : Blob → Uint256)

/-- Put two items below a new inner node, with further inner nodes as long as both go to the same
branch. The nodes that are still to be hooked up are added to the stack. -/
def splitLeaf (cowid : UInt32) (type : LeafType) (item other : Item) :
    Nat → NodeID → TreeNode → NodeStack → Option (TreeNode × NodeStack)
  | 0, _, _, _ => none
  | fuel + 1, id, node, stack =>
    let b1 := selectBranch id item.key
    let b2 := selectBranch id other.key
    if b1 = b2 then
      (id.getChildNodeID b1).bind fun child =>
        splitLeaf cowid type item other fuel child (.newInner cowid) ((node, id) :: stack)
    else
      some ((node.setChild b1 (makeTypedLeaf sha512Half type item cowid)).setChild b2
        (makeTypedLeaf sha512Half type other cowid), stack)

def onlyBelow : TreeNode → Option Item
  | .null => none
  | .leaf _ _ _ item => some item
  | .inner _ _ _ children =>
    match TreeNode.branches children with
    | [i] => onlyBelow (children i)
    | _ => none

/-- What takes the place of an inner node after one of its branches has been emptied. -/
def pullUp (type : LeafType) (node : TreeNode) : TreeNode :=
  if node.getBranchCount = 0 then .null
  else if node.getBranchCount = 1 then
    match onlyBelow node with
    | some item => makeTypedLeaf sha512Half type item node.cowid
    | none => node
  else node

/-- Empty the branch of a deleted leaf, and go up to the root, which is returned, with what is left
of the nodes on the way. -/
def delUp (cowid : UInt32) (type : LeafType) (key : Uint256) (stack : NodeStack) : TreeNode :=
  stack.foldl (fun prevNode entry =>
    let node := (unshareNode cowid entry.1).setChild (selectBranch entry.2 key) prevNode
    if entry.2.isRoot then node else pullUp sha512Half type node) .null

/-- The root above a node that has changed in its place, with nothing else touched. -/
def inPlace (key : Uint256) (stack : NodeStack) (child : TreeNode) : TreeNode :=
  stack.foldl (fun child entry =>
    match entry.1 with
    | .inner c h hashes children =>
      .inner c h hashes (Function.update children (selectBranch entry.2 key) child)
    | node => node) child

variable (m : SHAMap)

/-- Add an item, does not update. A map without a number of its own cannot own nodes: hooking a
child to a node that nobody owns fails an assertion. -/
def addGiveItem (type : LeafType) (item : Item) : Option (SHAMap × Bool) :=
  if m.state = .immutable then none
  else
    (walkTowardsKey item.key m.root .root []).bind fun stack =>
      match stack with
      | (.leaf _ _ _ other, id) :: stack =>
        if other.key = item.key then some (m, false)
        else if m.cowid = 0 then none
        else
          (splitLeaf sha512Half m.cowid type item other (leafDepth + 1) id (.newInner m.cowid)
            stack).map fun split =>
              ({ m with root := dirtyUp m.cowid item.key split.2 split.1 }, true)
      | (.inner c h hashes children, id) :: stack =>
        if m.cowid = 0 then none
        else
          let node := (unshareNode m.cowid (.inner c h hashes children)).setChild
            (selectBranch id item.key) (makeTypedLeaf sha512Half type item m.cowid)
          some ({ m with root := dirtyUp m.cowid item.key stack node }, true)
      | _ => none

/-- Delete the item with a key. Inner nodes that are left with a single item below them are
replaced by its leaf, the root excepted. -/
def delItem (key : Uint256) : Option (SHAMap × Bool) :=
  if m.state = .immutable then none
  else
    (walkTowardsKey key m.root .root []).bind fun stack =>
      match stack with
      | (.leaf _ _ type item, _) :: stack =>
        if item.key ≠ key then some (m, false)
        else if m.cowid = 0 then none
        else some ({ m with root := delUp sha512Half m.cowid type key stack }, true)
      | [] => none
      | _ => some (m, false)

/-- Replace the item of a leaf. Where the hash stays as it was nothing above the leaf is touched:
a leaf of the map's own has changed in its place then, and a copy made of a shared leaf is
dropped. -/
def updateGiveItem (type : LeafType) (item : Item) : Option (SHAMap × Bool) :=
  if m.state = .immutable then none
  else
    (walkTowardsKey item.key m.root .root []).bind fun stack =>
      match stack with
      | (.leaf c h t old, _) :: stack =>
        if old.key ≠ item.key then some (m, false)
        else if t ≠ type then some (m, false)
        else if m.cowid = 0 then none
        else
          let node := makeTypedLeaf sha512Half t item m.cowid
          if h ≠ node.getHash then
            some ({ m with root := dirtyUp m.cowid item.key stack node }, true)
          else if c = m.cowid then
            some ({ m with root := inPlace item.key stack node }, true)
          else some (m, true)
      | [] => none
      | _ => some (m, false)

end Modify

end SHAMap

end Rippled
