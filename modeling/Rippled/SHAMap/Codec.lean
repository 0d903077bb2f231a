import Rippled.Lib.Except
import Rippled.SHAMap.Hash

namespace Rippled.SHAMap

open List

/-- An inner node without its children: its branches and their hashes. No hash is stored for a
branch that is empty. -/
structure InnerNode where
  hash : Uint256
  isBranch : Fin 16 → Bool
  hashes : Fin 16 → Uint256
  hashes_eq : ∀ i, isBranch i = false → hashes i = 0

inductive Node
  | leaf (hash : Uint256) (type : LeafType) (item : Item)
  | inner (node : InnerNode)

variable {hash : Option Uint256} {data : Blob} {node : Node} {k : Nat}

@[ext] theorem InnerNode.ext {n n' : InnerNode} (hash : n.hash = n'.hash)
    (isBranch : n.isBranch = n'.isBranch) (hashes : n.hashes = n'.hashes) : n = n' := by
  cases n
  cases n'
  cases hash
  cases isBranch
  cases hashes
  rfl

def InnerNode.branches (n : InnerNode) : List (Fin 16) := (List.finRange 16).filter n.isBranch

def InnerNode.isEmpty (n : InnerNode) : Bool := n.branches.isEmpty

theorem InnerNode.isEmpty_iff {n : InnerNode} : n.isEmpty = true ↔ ∀ i, n.isBranch i = false := by
  simp [isEmpty, branches, filter_eq_nil_iff]

def wireTypeTransaction : UInt8 := 0
def wireTypeAccountState : UInt8 := 1
def wireTypeInner : UInt8 := 2
def wireTypeCompressedInner : UInt8 := 3
def wireTypeTransactionWithMeta : UInt8 := 4

/-- A branch of the compressed form: the hash and then the number of the branch. -/
def branchEntry (e : Uint256 × Fin 16) : Blob := e.1.toList ++ [UInt8.ofNat e.2.val]

/-- The form of an inner node that is sent: if it is sparse, only the branches that are not empty.
An empty node fails an assertion. -/
def InnerNode.serializeForWire (n : InnerNode) : Option Blob :=
  if n.isEmpty then none
  else if n.branches.length < 12 then
    some (n.branches.flatMap (fun i => branchEntry (n.hashes i, i)) ++ [wireTypeCompressedInner])
  else some ((List.finRange 16).flatMap (fun i => (n.hashes i).toList) ++ [wireTypeInner])

def Node.serializeForWire : Node → Option Blob
  | .inner n => n.serializeForWire
  | .leaf _ .tnTRANSACTION_NM item => some (item.data ++ [wireTypeTransaction])
  | .leaf _ .tnTRANSACTION_MD item =>
    some (item.data ++ item.key.toList ++ [wireTypeTransactionWithMeta])
  | .leaf _ .tnACCOUNT_STATE item => some (item.data ++ item.key.toList ++ [wireTypeAccountState])

def Node.serializeWithPrefix : Node → Option Blob
  | .inner n => if n.isEmpty then none else some (innerWithPrefix n.hashes)
  | .leaf _ type item => some (leafWithPrefix type item)

def getBitString (data : Blob) (offset : Nat) : Option Uint256 :=
  if offset + 32 ≤ data.length then some (BaseUInt.fromVoid (data.drop offset)) else none

variable {sha512Half : Blob → Uint256}

section Make

variable (sha512Half)

/-- Keep the hashes of the branches only, and take the given hash or calculate it. -/
def InnerNode.pack (hash : Option Uint256) (isBranch : Fin 16 → Bool) (hashes : Fin 16 → Uint256) :
    InnerNode where
  hash := hash.getD (innerHash sha512Half (fun i => if isBranch i then hashes i else 0) isBranch)
  isBranch := isBranch
  hashes := fun i => if isBranch i then hashes i else 0
  hashes_eq := fun i h => by simp [h]

def makeFullInner (data : Blob) (hash : Option Uint256) : Except String Node :=
  if data.length ≠ 512 then .error "Invalid FI node"
  else
    let hashes := fun i : Fin 16 => (getBitString data (i.val * 32)).getD 0
    .ok (.inner (.pack sha512Half hash (fun i => decide (hashes i ≠ 0)) hashes))

structure Reading where
  isBranch : Fin 16 → Bool
  hashes : Fin 16 → Uint256

def Reading.start : Reading := ⟨fun _ => false, fun _ => 0⟩

/-- Take over the hash of a branch. A branch is marked when its hash is not zero, and stays so. -/
def Reading.place (r : Reading) (hash : Uint256) (pos : Fin 16) : Reading where
  isBranch := if hash ≠ 0 then Function.update r.isBranch pos true else r.isBranch
  hashes := Function.update r.hashes pos hash

def readEntry (data : Blob) (r : Reading) (i : Nat) : Except String Reading :=
  match data[32 + i * 33]? with
  | none => .error "short CI node"
  | some pos =>
    if h : pos.toNat < 16 then
      .ok (r.place ((getBitString data (i * 33)).getD (r.hashes ⟨pos.toNat, h⟩)) ⟨pos.toNat, h⟩)
    else .error "invalid CI node"

def makeCompressedInner (data : Blob) : Except String Node :=
  ((List.range (data.length / 33)).foldlM (readEntry data) .start).map fun r =>
    .inner (.pack sha512Half none r.isBranch r.hashes)

def makeLeaf (type : LeafType) (item : Item) (hash : Option Uint256) : Node :=
  .leaf (hash.getD (leafHash sha512Half type item)) type item

def makeTransaction (data : Blob) (hash : Option Uint256) : Except String Node :=
  .ok (makeLeaf sha512Half .tnTRANSACTION_NM
    ⟨sha512Half (HashPrefix.transactionID.bytes ++ data), data⟩ hash)

def chopKey (data : Blob) (short outOfRange : String) : Except String Item :=
  if data.length < 32 then .error short
  else
    match getBitString data (data.length - 32) with
    | none => .error (outOfRange ++ " (" ++ toString data.length ++ ")")
    | some tag => .ok ⟨tag, data.take (data.length - 32)⟩

def makeTransactionWithMeta (data : Blob) (hash : Option Uint256) : Except String Node :=
  (chopKey data "Short TXN+MD node" "Short TXN+MD node").map fun item =>
    makeLeaf sha512Half .tnTRANSACTION_MD item hash

def makeAccountState (data : Blob) (hash : Option Uint256) : Except String Node :=
  (chopKey data "short AS node" "Short AS node").bind fun item =>
    if item.key = 0 then .error "Invalid AS node"
    else .ok (makeLeaf sha512Half .tnACCOUNT_STATE item hash)

def makeFromWire (rawNode : Blob) : Except String (Option Node) :=
  match rawNode.getLast? with
  | none => .ok none
  | some type =>
    let data := rawNode.dropLast
    if type = wireTypeTransaction then (makeTransaction sha512Half data none).map some
    else if type = wireTypeAccountState then (makeAccountState sha512Half data none).map some
    else if type = wireTypeInner then (makeFullInner sha512Half data none).map some
    else if type = wireTypeCompressedInner then (makeCompressedInner sha512Half data).map some
    else if type = wireTypeTransactionWithMeta then
      (makeTransactionWithMeta sha512Half data none).map some
    else .error ("wire: Unknown type (" ++ toString type.toNat ++ ")")

def makeFromPrefix (rawNode : Blob) (hash : Uint256) : Except String Node :=
  if rawNode.length < 4 then .error "prefix: short node"
  else
    let type := rawNode.take 4
    let data := rawNode.drop 4
    if type = HashPrefix.transactionID.bytes then makeTransaction sha512Half data (some hash)
    else if type = HashPrefix.leafNode.bytes then makeAccountState sha512Half data (some hash)
    else if type = HashPrefix.innerNode.bytes then makeFullInner sha512Half data (some hash)
    else if type = HashPrefix.txNode.bytes then makeTransactionWithMeta sha512Half data (some hash)
    else
      .error ("prefix: unknown type (" ++
        toString (type.foldl (fun n b => n * 256 + b.toNat) 0) ++ ")")

end Make

theorem drop_flatMap {ι α : Type} {f : ι → List α} (hlen : ∀ i, (f i).length = k) (l : List ι)
    (j : Nat) : (l.flatMap f).drop (j * k) = (l.drop j).flatMap f := by
  induction l generalizing j with
  | nil => simp
  | cons a l ih =>
    cases j with
    | zero => simp
    | succ j =>
      rw [flatMap_cons, drop_succ_cons, ← ih j, drop_append, hlen a,
        drop_eq_nil_of_le (by rw [hlen a, Nat.succ_mul]; omega), nil_append]
      congr 1
      rw [Nat.succ_mul]
      omega

theorem length_flatMap_const {ι α : Type} {f : ι → List α} (hlen : ∀ i, (f i).length = k)
    (l : List ι) : (l.flatMap f).length = l.length * k := by
  induction l with
  | nil => simp
  | cons a l ih => rw [flatMap_cons, length_append, hlen a, ih, length_cons, Nat.succ_mul,
      Nat.add_comm]

theorem getBitString_of_drop {rest : Blob} {offset : Nat} {a : Uint256}
    (h : data.drop offset = a.toList ++ rest) : getBitString data offset = some a := by
  have hlen := congrArg List.length h
  rw [length_drop, length_append, BaseUInt.length_toList] at hlen
  rw [getBitString, if_pos (by omega), h, BaseUInt.fromVoid_append]

theorem getBitString_hashes (hashes : Fin 16 → Uint256) (i : Fin 16) :
    getBitString ((List.finRange 16).flatMap fun i => (hashes i).toList) (i.val * 32) =
      some (hashes i) := by
  have hd := drop_flatMap (fun i => BaseUInt.length_toList (hashes i)) (List.finRange 16) i.val
  have hi : i.val < (List.finRange 16).length := by simp
  rw [drop_eq_getElem_cons hi, flatMap_cons, getElem_finRange] at hd
  exact getBitString_of_drop hd

variable {n : InnerNode}

/-- The branches of a node are those that have a hash, and its own hash is that of theirs. -/
structure InnerNode.UpToDate (sha512Half : Blob → Uint256) (n : InnerNode) : Prop where
  marked : ∀ i, n.isBranch i ↔ n.hashes i ≠ 0
  hash : n.hash = innerHash sha512Half n.hashes n.isBranch

theorem InnerNode.UpToDate.pack_eq (h : n.UpToDate sha512Half)
    (hhs : hash = none ∨ hash = some n.hash) {isBranch : Fin 16 → Bool}
    {hashes : Fin 16 → Uint256} (hb : isBranch = n.isBranch)
    (hh : ∀ i, n.isBranch i → hashes i = n.hashes i) :
    InnerNode.pack sha512Half hash isBranch hashes = n := by
  subst hb
  have hk : (fun i => if n.isBranch i then hashes i else 0) = n.hashes := by
    funext i
    split_ifs with hi
    · exact hh i hi
    · exact (n.hashes_eq i (by simpa using hi)).symm
  apply InnerNode.ext
  · obtain rfl | rfl := hhs
    · simp only [pack, hk, Option.getD_none, h.hash]
    · rfl
  · rfl
  · exact hk

theorem makeFullInner_hashes (h : n.UpToDate sha512Half) (hh : hash = none ∨ hash = some n.hash) :
    makeFullInner sha512Half ((List.finRange 16).flatMap fun i => (n.hashes i).toList) hash =
      .ok (.inner n) := by
  have hlen : ((List.finRange 16).flatMap fun i => (n.hashes i).toList).length = 512 := by
    rw [length_flatMap_const fun i => BaseUInt.length_toList (n.hashes i)]
    simp
  rw [makeFullInner, if_neg (not_not.mpr hlen)]
  simp only [getBitString_hashes, Option.getD_some]
  rw [h.pack_eq hh _ fun _ _ => rfl]
  funext i
  rw [Bool.eq_iff_iff, decide_eq_true_iff]
  exact (h.marked i).symm

theorem makeFullInner_upToDate (h : makeFullInner sha512Half data none = .ok (.inner n)) :
    n.UpToDate sha512Half := by
  unfold makeFullInner at h
  split_ifs at h
  cases h
  refine ⟨?_, rfl⟩
  intro i
  simp only [InnerNode.pack]
  split <;> simp_all

section Compressed

abbrev Entry := Uint256 × UInt8

/-- The hashes and positions that the compressed form consists of. Bytes that do not make up an
entry are left over. -/
def entries (data : Blob) : List Entry :=
  (List.range (data.length / 33)).map fun i =>
    ((getBitString data (i * 33)).getD 0, data.getD (32 + i * 33) 0)

def lastHash (es : List Entry) (p : Fin 16) : Uint256 :=
  ((es.filter fun e => e.2.toNat = p.val).getLast?.map Prod.fst).getD 0

/-- No branch that is given a hash ends up with the hash zero. -/
def Unspoiled (es : List Entry) : Prop :=
  ∀ p : Fin 16, (∃ e ∈ es, e.2.toNat = p.val ∧ e.1 ≠ 0) → lastHash es p ≠ 0

def placeEntry (r : Reading) (e : Entry) : Except String Reading :=
  if h : e.2.toNat < 16 then .ok (r.place e.1 ⟨e.2.toNat, h⟩) else .error "invalid CI node"

variable {es : List Entry} {r : Reading}

theorem readEntry_eq {i : Nat} (h : i < data.length / 33) (r : Reading) : readEntry data r i =
      placeEntry r ((getBitString data (i * 33)).getD 0, data.getD (32 + i * 33) 0) := by
  have hin : 32 + i * 33 < data.length := by omega
  have hb : i * 33 + 32 ≤ data.length := by omega
  rw [readEntry, getElem?_eq_getElem hin, getD_eq_getElem?_getD,
    getElem?_eq_getElem hin, getBitString, if_pos hb]
  rfl

theorem foldlM_readEntry (data : Blob) (r : Reading) :
    (List.range (data.length / 33)).foldlM (readEntry data) r = (entries data).foldlM placeEntry r := by
  have hall : ∀ l : List Nat, (∀ i ∈ l, i < data.length / 33) → ∀ r,
      l.foldlM (readEntry data) r = (l.map fun i =>
        ((getBitString data (i * 33)).getD 0, data.getD (32 + i * 33) 0)).foldlM placeEntry r := by
    intro l hl
    induction l with
    | nil => exact fun _ => rfl
    | cons i l ih =>
      intro r
      rw [forall_mem_cons] at hl
      rw [foldlM_cons, map_cons, foldlM_cons, readEntry_eq hl.1]
      congr 1
      funext r'
      exact ih hl.2 r'
  exact hall _ (fun i hi => mem_range.mp hi) r

theorem lastHash_append (es : List Entry) (e : Entry) (p : Fin 16) :
    lastHash (es ++ [e]) p = if e.2.toNat = p.val then e.1 else lastHash es p := by
  unfold lastHash
  rw [filter_append]
  split_ifs with he
  · simp [he]
  · simp [he]

theorem placed_entries (h : es.foldlM placeEntry .start = .ok r) (p : Fin 16) :
    r.hashes p = lastHash es p ∧ (r.isBranch p ↔ ∃ e ∈ es, e.2.toNat = p.val ∧ e.1 ≠ 0) := by
  induction es using List.reverseRecOn generalizing r with
  | nil =>
    cases h
    simp [lastHash, Reading.start]
  | append_singleton es e ih =>
    rw [foldlM_append] at h
    obtain ⟨r₀, hes, h⟩ := Lib.bind_eq_ok h
    obtain ⟨r₁, hpl, h⟩ := Lib.bind_eq_ok h
    cases h
    obtain ⟨hh, hm⟩ := ih hes
    unfold placeEntry at hpl
    split at hpl
    · rename_i hpos
      cases hpl
      rw [lastHash_append]
      have heq : e.2.toNat = p.val ↔ p = ⟨e.2.toNat, hpos⟩ := by
        rw [Fin.ext_iff]
        exact eq_comm
      by_cases hp : p = ⟨e.2.toNat, hpos⟩
      · subst hp
        simp only [Reading.place, Function.update_self, if_true, true_and]
        split_ifs with hne
        · simp [hne]
        · simp only [ne_eq, not_not] at hne
          simp [hm, hne]
      · have hne := mt heq.mp hp
        simp only [Reading.place, Function.update_of_ne hp, if_neg hne, hh, true_and]
        split
        · simp [Function.update_of_ne hp, hm, hne]
        · simp [hm, hne]
    · cases hpl

theorem exists_placed (h : ∀ e ∈ es, e.2.toNat < 16) (r : Reading) :
    ∃ r', es.foldlM placeEntry r = .ok r' := by
  induction es generalizing r with
  | nil => exact ⟨r, rfl⟩
  | cons e es ih =>
    rw [forall_mem_cons] at h
    obtain ⟨r', hr'⟩ := ih h.2 (r.place e.1 ⟨e.2.toNat, h.1⟩)
    refine ⟨r', ?_⟩
    rw [foldlM_cons, placeEntry, dif_pos h.1]
    exact hr'

theorem lastHash_eq {p : Fin 16} {hash : Uint256} (hex : ∃ e ∈ es, e.2.toNat = p.val)
    (hall : ∀ e ∈ es, e.2.toNat = p.val → e.1 = hash) : lastHash es p = hash := by
  have hne : es.filter (fun e => e.2.toNat = p.val) ≠ [] := by
    obtain ⟨e, he, hp⟩ := hex
    exact ne_nil_of_mem (mem_filter.mpr ⟨he, decide_eq_true hp⟩)
  rw [lastHash, getLast?_eq_some_getLast hne]
  obtain ⟨hmem, hp⟩ := mem_filter.mp (getLast_mem hne)
  exact hall _ hmem (of_decide_eq_true hp)

theorem length_branchEntry (e : Uint256 × Fin 16) : (branchEntry e).length = 33 := by
  simp [branchEntry]

theorem entries_flatMap (l : List (Uint256 × Fin 16)) :
    entries (l.flatMap branchEntry) = l.map fun e => (e.1, UInt8.ofNat e.2.val) := by
  have hlen := length_flatMap_const length_branchEntry l
  apply ext_getElem
  · simp [entries, hlen]
  intro j hj hj'
  rw [length_map] at hj'
  have hd := drop_flatMap length_branchEntry l j
  rw [drop_eq_getElem_cons hj', flatMap_cons, branchEntry, append_assoc] at hd
  have hpos : (l.flatMap branchEntry).getD (32 + j * 33) 0 = UInt8.ofNat l[j].2.val := by
    rw [getD_eq_getElem?_getD, Nat.add_comm, ← getElem?_drop, hd,
      getElem?_append_right (by simp)]
    simp
  simp only [entries, getElem_map, getElem_range, getBitString_of_drop hd, hpos,
    Option.getD_some]

theorem makeCompressedInner_upToDate (h : makeCompressedInner sha512Half data = .ok (.inner n))
    (hok : Unspoiled (entries data)) : n.UpToDate sha512Half := by
  rw [makeCompressedInner, foldlM_readEntry] at h
  obtain ⟨r, hr, heq⟩ := Lib.map_eq_ok h
  cases heq
  refine ⟨?_, rfl⟩
  intro i
  obtain ⟨hh, hm⟩ := placed_entries hr i
  simp only [InnerNode.pack]
  split_ifs with hi
  · simp only [hi, true_iff, hh]
    exact hok i (hm.mp hi)
  · simp [hi]

theorem makeCompressedInner_branches (h : n.UpToDate sha512Half) :
    makeCompressedInner sha512Half (n.branches.flatMap fun i => branchEntry (n.hashes i, i)) =
      .ok (.inner n) := by
  have hd : (n.branches.flatMap fun i => branchEntry (n.hashes i, i)) =
      (n.branches.map fun i => (n.hashes i, i)).flatMap branchEntry := by
    rw [flatMap_map]
  have hen : entries (n.branches.flatMap fun i => branchEntry (n.hashes i, i)) =
      n.branches.map fun i => (n.hashes i, UInt8.ofNat i.val) := by
    rw [hd, entries_flatMap, map_map]
    rfl
  have hpos : ∀ i : Fin 16, (UInt8.ofNat i.val).toNat = i.val := by decide
  have hmem : ∀ e, e ∈ entries (n.branches.flatMap fun i => branchEntry (n.hashes i, i)) ↔
      ∃ i, n.isBranch i ∧ (n.hashes i, UInt8.ofNat i.val) = e := by
    intro e
    rw [hen, mem_map]
    simp [InnerNode.branches]
  have hp : ∀ e ∈ entries (n.branches.flatMap fun i => branchEntry (n.hashes i, i)),
      e.2.toNat < 16 := by
    intro e he
    obtain ⟨i, -, rfl⟩ := (hmem e).mp he
    rw [hpos i]
    exact i.isLt
  obtain ⟨r, hr⟩ := exists_placed hp .start
  have hm : r.isBranch = n.isBranch := by
    funext i
    rw [Bool.eq_iff_iff, (placed_entries hr i).2]
    constructor
    · rintro ⟨e, he, hi, -⟩
      obtain ⟨j, hj, rfl⟩ := (hmem e).mp he
      rw [hpos j] at hi
      exact Fin.ext hi ▸ hj
    · intro hi
      exact ⟨_, (hmem _).mpr ⟨i, hi, rfl⟩, hpos i, (h.marked i).mp hi⟩
  have hh : ∀ i, n.isBranch i → r.hashes i = n.hashes i := by
    intro i hi
    rw [(placed_entries hr i).1]
    apply lastHash_eq ⟨_, (hmem _).mpr ⟨i, hi, rfl⟩, hpos i⟩
    intro e he hei
    obtain ⟨j, -, rfl⟩ := (hmem e).mp he
    rw [hpos j] at hei
    rw [Fin.ext hei]
  rw [makeCompressedInner, foldlM_readEntry, hr]
  exact congrArg (Except.ok ∘ Node.inner) (h.pack_eq (.inl rfl) hm hh)

end Compressed

section RoundTrip

variable {type : LeafType} {item : Item}

/-- What a leaf must be like to be read back: an account state has a key, and the key of a
transaction without metadata is its identifier. -/
def Readable (sha512Half : Blob → Uint256) (type : LeafType) (item : Item) : Prop :=
  (type = .tnACCOUNT_STATE → item.key ≠ 0) ∧
    (type = .tnTRANSACTION_NM → item.key = sha512Half (HashPrefix.transactionID.bytes ++ item.data))

theorem chopKey_append (item : Item) (short outOfRange : String) :
    chopKey (item.data ++ item.key.toList) short outOfRange = .ok item := by
  have hlen : (item.data ++ item.key.toList).length = item.data.length + 32 := by simp
  have hsub : (item.data ++ item.key.toList).length - 32 = item.data.length := by omega
  have hd : (item.data ++ item.key.toList).drop item.data.length = item.key.toList ++ [] := by simp
  rw [chopKey, if_neg (by omega), hsub, getBitString_of_drop hd]
  simp

theorem wire_leaf (h : Readable sha512Half type item) :
    ∃ blob, (Node.leaf (leafHash sha512Half type item) type item).serializeForWire = some blob ∧
      makeFromWire sha512Half blob =
        .ok (some (.leaf (leafHash sha512Half type item) type item)) := by
  cases type with
  | tnTRANSACTION_NM =>
    refine ⟨_, rfl, ?_⟩
    simp only [makeFromWire, getLast?_concat, dropLast_concat]
    rw [if_pos trivial, makeTransaction, ← h.2 rfl]
    rfl
  | tnTRANSACTION_MD =>
    refine ⟨_, rfl, ?_⟩
    simp only [makeFromWire, getLast?_concat, dropLast_concat]
    rw [makeTransactionWithMeta, chopKey_append]
    rfl
  | tnACCOUNT_STATE =>
    refine ⟨_, rfl, ?_⟩
    simp only [makeFromWire, getLast?_concat, dropLast_concat]
    rw [makeAccountState, chopKey_append, Except.bind, if_neg (h.1 rfl)]
    rfl

theorem prefix_leaf (h : Readable sha512Half type item) (hash : Uint256) :
    ∃ blob, (Node.leaf hash type item).serializeWithPrefix = some blob ∧
      makeFromPrefix sha512Half blob hash = .ok (.leaf hash type item) := by
  cases type with
  | tnTRANSACTION_NM =>
    refine ⟨_, rfl, ?_⟩
    have hkey := h.2 rfl
    obtain ⟨key, data⟩ := item
    dsimp only at hkey
    subst hkey
    simp [makeFromPrefix, leafWithPrefix, HashPrefix.bytes, makeTransaction, makeLeaf]
  | tnTRANSACTION_MD =>
    refine ⟨_, rfl, ?_⟩
    simp [makeFromPrefix, leafWithPrefix, HashPrefix.bytes, makeTransactionWithMeta, chopKey_append,
      makeLeaf, Except.map]
  | tnACCOUNT_STATE =>
    refine ⟨_, rfl, ?_⟩
    simp [makeFromPrefix, leafWithPrefix, HashPrefix.bytes, makeAccountState, chopKey_append,
      makeLeaf, Except.bind, h.1 rfl]

theorem wire_inner (h : n.UpToDate sha512Half) (hne : n.isEmpty = false) :
    ∃ blob, (Node.inner n).serializeForWire = some blob ∧
      makeFromWire sha512Half blob = .ok (some (.inner n)) := by
  rw [Node.serializeForWire, InnerNode.serializeForWire, if_neg (by simp [hne])]
  split
  · refine ⟨_, rfl, ?_⟩
    simp only [makeFromWire, getLast?_concat, dropLast_concat]
    rw [makeCompressedInner_branches h]
    rfl
  · refine ⟨_, rfl, ?_⟩
    simp only [makeFromWire, getLast?_concat, dropLast_concat]
    rw [makeFullInner_hashes h (.inl rfl)]
    rfl

theorem prefix_inner (h : n.UpToDate sha512Half) (hne : n.isEmpty = false) :
    ∃ blob, (Node.inner n).serializeWithPrefix = some blob ∧
      makeFromPrefix sha512Half blob n.hash = .ok (.inner n) := by
  refine ⟨innerWithPrefix n.hashes, if_neg (by simp [hne]), ?_⟩
  have hf := makeFullInner_hashes h (.inr rfl)
  simp only [makeFromPrefix, innerWithPrefix]
  simp [HashPrefix.bytes, hf]

theorem makeAccountState_eq (h : makeAccountState sha512Half data hash = .ok node) :
    ∃ item, node = makeLeaf sha512Half .tnACCOUNT_STATE item hash := by
  obtain ⟨item, _, h⟩ := Lib.bind_eq_ok h
  split_ifs at h
  cases h
  exact ⟨item, rfl⟩

theorem makeTransactionWithMeta_eq (h : makeTransactionWithMeta sha512Half data hash = .ok node) :
    ∃ item, node = makeLeaf sha512Half .tnTRANSACTION_MD item hash := by
  obtain ⟨item, _, heq⟩ := Lib.map_eq_ok h
  exact ⟨item, heq.symm⟩

variable {rawNode : Blob}

/-- A node that is read from the wire is of one of five kinds, by the last byte. -/
theorem makeFromWire_cases (h : makeFromWire sha512Half rawNode = .ok (some node)) :
    ∃ data, makeTransaction sha512Half data none = .ok node ∨
      makeAccountState sha512Half data none = .ok node ∨
      (rawNode = data ++ [wireTypeInner] ∧ makeFullInner sha512Half data none = .ok node) ∨
      (rawNode = data ++ [wireTypeCompressedInner] ∧ makeCompressedInner sha512Half data = .ok node) ∨
      makeTransactionWithMeta sha512Half data none = .ok node := by
  have hs : ∀ made : Except String Node, made.map some = .ok (some node) → made = .ok node := by
    intro made hm
    obtain ⟨node', hn, heq⟩ := Lib.map_eq_ok hm
    cases heq
    exact hn
  induction rawNode using List.reverseRecOn with
  | nil => cases h
  | append_singleton data type _ =>
    refine ⟨data, ?_⟩
    simp only [makeFromWire, getLast?_concat, dropLast_concat] at h
    split at h
    · exact .inl (hs _ h)
    split at h
    · exact .inr (.inl (hs _ h))
    split at h
    · rename_i ht
      exact .inr (.inr (.inl ⟨by rw [ht], hs _ h⟩))
    split at h
    · rename_i ht
      exact .inr (.inr (.inr (.inl ⟨by rw [ht], hs _ h⟩)))
    · split at h
      · exact .inr (.inr (.inr (.inr (hs _ h))))
      · cases h

/-- The bytes of an inner node are of one of the two forms. -/
theorem makeFromWire_inner (h : makeFromWire sha512Half rawNode = .ok (some (.inner n))) :
    ∃ data, (rawNode = data ++ [wireTypeInner] ∧
        makeFullInner sha512Half data none = .ok (.inner n)) ∨
      (rawNode = data ++ [wireTypeCompressedInner] ∧
        makeCompressedInner sha512Half data = .ok (.inner n)) := by
  obtain ⟨data, htx | has | hf | hc | hm⟩ := makeFromWire_cases h
  · cases htx
  · obtain ⟨item, hi⟩ := makeAccountState_eq has
    cases hi
  · exact ⟨data, .inl hf⟩
  · exact ⟨data, .inr hc⟩
  · obtain ⟨item, hi⟩ := makeTransactionWithMeta_eq hm
    cases hi

theorem makeFromWire_transaction {hash : Uint256}
    (h : makeFromWire sha512Half rawNode = .ok (some (.leaf hash .tnTRANSACTION_NM item))) :
    item.key = sha512Half (HashPrefix.transactionID.bytes ++ item.data) := by
  obtain ⟨data, htx | has | ⟨-, hf⟩ | ⟨-, hc⟩ | hm⟩ := makeFromWire_cases h
  · cases htx
    rfl
  · obtain ⟨item', hi⟩ := makeAccountState_eq has
    cases hi
  · unfold makeFullInner at hf
    split_ifs at hf
    cases hf
  · obtain ⟨r, _, heq⟩ := Lib.map_eq_ok hc
    cases heq
  · obtain ⟨item', hi⟩ := makeTransactionWithMeta_eq hm
    cases hi

/-- Nodes that are up to date are read back from both forms as they were, and every inner node that
is accepted from the wire is up to date and, if it is not empty, can be sent on, unless a branch
that had a hash was given the hash zero. -/
theorem node_codec (sha512Half : Blob → Uint256) :
    (∀ n : InnerNode, n.UpToDate sha512Half → n.isEmpty = false →
      (∃ blob, (Node.inner n).serializeForWire = some blob ∧
        makeFromWire sha512Half blob = .ok (some (.inner n))) ∧
      ∃ blob, (Node.inner n).serializeWithPrefix = some blob ∧
        makeFromPrefix sha512Half blob n.hash = .ok (.inner n)) ∧
    (∀ type item, Readable sha512Half type item →
      (∃ blob, (Node.leaf (leafHash sha512Half type item) type item).serializeForWire = some blob ∧
        makeFromWire sha512Half blob =
          .ok (some (.leaf (leafHash sha512Half type item) type item))) ∧
      ∃ blob, (Node.leaf (leafHash sha512Half type item) type item).serializeWithPrefix = some blob ∧
        makeFromPrefix sha512Half blob (leafHash sha512Half type item) =
          .ok (.leaf (leafHash sha512Half type item) type item)) ∧
    ∀ rawNode n, makeFromWire sha512Half rawNode = .ok (some (.inner n)) →
      (rawNode.getLast? = some wireTypeCompressedInner → Unspoiled (entries rawNode.dropLast)) →
      (∀ i, n.isBranch i ↔ n.hashes i ≠ 0) ∧
        (n.isEmpty = false → ∃ blob, (Node.inner n).serializeForWire = some blob ∧
          makeFromWire sha512Half blob = .ok (some (.inner n))) := by
  refine ⟨fun n h hne => ⟨wire_inner h hne, prefix_inner h hne⟩,
    fun type item h => ⟨wire_leaf h, prefix_leaf h _⟩, ?_⟩
  intro rawNode n h hok
  have hdate : n.UpToDate sha512Half := by
    obtain ⟨data, ⟨-, hfull⟩ | ⟨rfl, hcompressed⟩⟩ := makeFromWire_inner h
    · exact makeFullInner_upToDate hfull
    · apply makeCompressedInner_upToDate hcompressed
      simpa using hok (by simp)
  exact ⟨hdate.marked, wire_inner hdate⟩

def oneBranch (hash : Uint256) : InnerNode where
  hash := constantHash []
  isBranch := fun i => i.val = 5
  hashes := fun i => if i.val = 5 then hash else 0
  hashes_eq := fun i h => by
    rw [decide_eq_false_iff_not] at h
    exact if_neg h

theorem oneBranch_upToDate : (oneBranch (constantHash [])).UpToDate constantHash where
  marked := by decide
  hash := by decide

def repeatedBranch : Blob :=
  List.replicate 32 1 ++ [5] ++ List.replicate 32 2 ++ [9] ++ List.replicate 32 3 ++
    [5, wireTypeCompressedInner]

/-- An inner node, a leaf, and an inner node that comes with two hashes for one branch. -/
theorem node_codec_repeated :
    (∃ blob, (Node.inner (oneBranch (constantHash []))).serializeForWire = some blob ∧
      makeFromWire constantHash blob = .ok (some (.inner (oneBranch (constantHash []))))) ∧
    (∃ blob, (Node.leaf (constantHash []) .tnTRANSACTION_NM
        ⟨constantHash [], List.replicate 12 7⟩).serializeWithPrefix = some blob ∧
      makeFromPrefix constantHash blob (constantHash []) =
        .ok (.leaf (constantHash []) .tnTRANSACTION_NM ⟨constantHash [], List.replicate 12 7⟩)) ∧
    ∃ n, makeFromWire constantHash repeatedBranch = .ok (some (.inner n)) ∧
      n.hashes 5 = ⟨fun _ => 3⟩ ∧ ∃ blob, (Node.inner n).serializeForWire = some blob ∧
        makeFromWire constantHash blob = .ok (some (.inner n)) := by
  obtain ⟨hinner, hleaf, hread⟩ := node_codec constantHash
  refine ⟨(hinner _ oneBranch_upToDate (by decide)).1,
    (hleaf .tnTRANSACTION_NM ⟨constantHash [], _⟩ ⟨nofun, fun _ => rfl⟩).2, _, rfl,
    by decide +kernel, (hread repeatedBranch _ rfl fun _ => ?_).2 (by decide +kernel)⟩
  unfold Unspoiled
  decide +kernel

/-- A reading that is compared by what it marks and stores for a branch. -/
def readBranch (rawNode : Blob) (i : Fin 16) : Option (Bool × Uint256) :=
  match makeFromWire constantHash rawNode with
  | .ok (some (.inner n)) => some (n.isBranch i, n.hashes i)
  | _ => none

def readLeaf (sha512Half : Blob → Uint256) (rawNode : Blob) : Except String (Option Item) :=
  (makeFromWire sha512Half rawNode).map fun node =>
    match node with
    | some (.leaf _ _ item) => some item
    | _ => none

theorem readLeaf_eq (h : (readLeaf sha512Half rawNode).toOption = some (some item)) :
    ∃ hash type, makeFromWire sha512Half rawNode = .ok (some (.leaf hash type item)) := by
  unfold readLeaf at h
  cases hr : makeFromWire sha512Half rawNode with
  | error err =>
    rw [hr] at h
    cases h
  | ok node =>
    rw [hr] at h
    cases node with
    | none => cases h
    | some node =>
      cases node with
      | inner n => cases h
      | leaf hash type item' =>
        cases h
        exact ⟨hash, type, rfl⟩

/-- What is not read back: an account state without a key, a transaction under another key than its
identifier, and a branch whose hash is not up to date. An empty inner node is accepted but cannot be
sent on, and a branch stays marked when a second entry takes its hash away. -/
theorem node_codec_limits :
    readLeaf constantHash (List.replicate 12 7 ++ List.replicate 32 0 ++ [wireTypeAccountState]) =
      .error "Invalid AS node" ∧
    (Node.leaf 0 .tnACCOUNT_STATE ⟨0, List.replicate 12 7⟩).serializeForWire =
      some (List.replicate 12 7 ++ List.replicate 32 0 ++ [wireTypeAccountState]) ∧
    (Node.leaf 0 .tnTRANSACTION_NM ⟨0, List.replicate 12 7⟩).serializeForWire =
      some (List.replicate 12 7 ++ [wireTypeTransaction]) ∧
    readLeaf constantHash (List.replicate 12 7 ++ [wireTypeTransaction]) =
      .ok (some ⟨constantHash [], List.replicate 12 7⟩) ∧
    (oneBranch 0).isBranch 5 ∧
    (Node.inner (oneBranch 0)).serializeForWire =
      some (List.replicate 32 0 ++ [5, wireTypeCompressedInner]) ∧
    readBranch (List.replicate 32 0 ++ [5, wireTypeCompressedInner]) 5 = some (false, 0) ∧
    (∃ n, makeFromWire constantHash [wireTypeCompressedInner] = .ok (some (.inner n)) ∧
      (Node.inner n).serializeForWire = none) ∧
    readBranch (List.replicate 32 1 ++ [5] ++ List.replicate 32 0 ++ [5, wireTypeCompressedInner]) 5 =
      some (true, 0) := by
  refine ⟨by decide +kernel, by decide +kernel, by decide +kernel, by decide +kernel, by decide,
    by decide +kernel, by decide +kernel, ⟨_, rfl, by decide +kernel⟩, by decide +kernel⟩

end RoundTrip

end Rippled.SHAMap
