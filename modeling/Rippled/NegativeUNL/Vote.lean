import Rippled.Lib.HashMap
import Rippled.NegativeUNL.Ledger

namespace Rippled.NegativeUNL

open Lib List

abbrev NodeID := Uint160

def negativeUNLLowWaterMark : Nat := flagLedgerInterval * 50 / 100
def negativeUNLHighWaterMark : Nat := flagLedgerInterval * 80 / 100
def negativeUNLMinLocalValsToVote : Nat := flagLedgerInterval * 90 / 100
def newValidatorDisableSkip : Nat := flagLedgerInterval * 2

/-- The nearest number whose last `e` bits are zero. Of two that are equally near it is the one that
is even in its other bits. -/
def roundAt (e n : Nat) : Nat :=
  let q := n >>> e
  let r := n - q <<< e
  if 2 * r < 1 <<< e ∨ 2 * r = 1 <<< e ∧ q % 2 = 0 then q <<< e else (q + 1) <<< e

/-- A number with the 24 significant bits of a single precision float. -/
def single (n : Nat) : Nat := roundAt (n.log2 - 23) n

theorem log2_le_of_lt {n k : Nat} (h : n < 1 <<< (k + 1)) : n.log2 ≤ k := by
  rw [Nat.one_shiftLeft] at h
  by_cases h0 : n = 0
  · rw [h0, Nat.log2_zero]
    exact Nat.zero_le k
  · exact Nat.lt_succ_iff.mp ((Nat.log2_lt h0).mpr h)

/-- Up to this number rounding does not lift a quarter over the next whole number. -/
theorem quarter_single_le {n : Nat} (h : n < 67108876) : (single n + 3) / 4 ≤ (n + 3) / 4 := by
  have hlog : n.log2 ≤ 26 := log2_le_of_lt (Nat.lt_trans h (by decide))
  have hc : n.log2 - 23 = 0 ∨ n.log2 - 23 = 1 ∨ n.log2 - 23 = 2 ∨
      n.log2 - 23 = 3 ∧ 67108864 ≤ n := by
    by_cases hbig : n < 67108864
    · have hs : n.log2 ≤ 25 := log2_le_of_lt (by simpa using hbig)
      omega
    · omega
  rw [single]
  obtain he | he | he | ⟨he, hn⟩ := hc <;> rw [he] <;>
    simp only [roundAt, Nat.shiftRight_eq_div_pow, Nat.shiftLeft_eq] <;> split <;> omega

variable {Blob : Type} [DecidableEq Blob] (publicKeyType : Blob → Bool)

abbrev PublicKey := {k : Blob // publicKeyType k}

def toPublicKey (k : Blob) : Option (PublicKey publicKeyType) :=
  if h : publicKeyType k then some ⟨k, h⟩ else none

/-- What a vote reads besides the ledger: the validations of a ledger by trusted validators, and the
orders in which the hash tables of this node are walked. -/
structure Voter where
  myId : NodeID
  newValidators : HashMap NodeID UInt32
  trustedForLedger : Uint256 → List NodeID
  order : List NodeID → List NodeID
  order_perm : ∀ l, (order l).Perm l
  keyOrder : List (PublicKey publicKeyType) → List (PublicKey publicKeyType)
  keyOrder_perm : ∀ l, (keyOrder l).Perm l

variable {l : Ledger Blob}

section Keys

variable (l)

def negativeUNL : List (PublicKey publicKeyType) :=
  ((l.entry.getD {}).keys.filterMap (toPublicKey publicKeyType)).dedup

def validatorToDisable : Option (PublicKey publicKeyType) :=
  (l.entry.getD {}).validatorToDisable.bind (toPublicKey publicKeyType)

def validatorToReEnable : Option (PublicKey publicKeyType) :=
  (l.entry.getD {}).validatorToReEnable.bind (toPublicKey publicKeyType)

/-- The list as it is expected to be once the pending changes are folded in. -/
def nextNegUnl : List (PublicKey publicKeyType) :=
  let negUnlKeys := negativeUNL publicKeyType l
  let negUnlKeys := (validatorToDisable publicKeyType l).elim negUnlKeys fun k => negUnlKeys.insert k
  (validatorToReEnable publicKeyType l).elim negUnlKeys fun k => negUnlKeys.erase k

end Keys

variable {publicKeyType}

abbrev ScoreTable := List (NodeID × UInt32)

/-- One more validation, unless it is not by a member of the table. -/
def ScoreTable.count (scoreTable : ScoreTable) (nodeId : NodeID) : ScoreTable :=
  scoreTable.map fun e => if e.1 = nodeId then (e.1, e.2 + 1) else e

variable {voter : Voter publicKeyType}

section

variable (voter)

def buildScoreTable (prevLedger : Ledger Blob) (unl : List NodeID) : Option ScoreTable :=
  match prevLedger.skip with
  | none => none
  | some ledgerAncestors =>
    if ledgerAncestors.length < flagLedgerInterval then none
    else
      let scoreTable := (ledgerAncestors.reverse.take flagLedgerInterval).foldl
        (fun table ancestor => (voter.trustedForLedger ancestor).foldl ScoreTable.count table)
        ((voter.order unl).map fun k => (k, 0))
      let myValidationCount := ((scoreTable.lookup voter.myId).getD 0).toNat
      if myValidationCount < negativeUNLMinLocalValsToVote then none
      else if negativeUNLMinLocalValsToVote < myValidationCount ∧
          myValidationCount ≤ flagLedgerInterval then some scoreTable
      else none

structure Candidates where
  toDisableCandidates : List NodeID
  toReEnableCandidates : List NodeID

/-- A quarter of the UNL, computed with floats of single precision and rounded up. -/
def maxNegativeListed (n : Nat) : Nat := (single n + 3) / 4

def findAllCandidates (unl negUnl : List NodeID) (scoreTable : ScoreTable) : Candidates :=
  let negativeListed := (unl.filter negUnl.contains).length
  let canAdd := decide (negativeListed < maxNegativeListed unl.length)
  let toDisable := scoreTable.filter fun e =>
    canAdd && decide (e.2.toNat < negativeUNLLowWaterMark) && !negUnl.contains e.1 &&
      (voter.newValidators.lookup e.1).isNone
  let toReEnable := scoreTable.filter fun e =>
    decide (negativeUNLHighWaterMark < e.2.toNat) && negUnl.contains e.1
  { toDisableCandidates := toDisable.map Prod.fst
    -- A member of the list that is no longer in the UNL is removed only if there is no other.
    toReEnableCandidates :=
      if toReEnable.isEmpty then (voter.order negUnl).filter fun n => !unl.contains n
      else toReEnable.map Prod.fst }

/-- The candidate that is nearest to the first bytes of the hash of the parent ledger. -/
def choose (randomPadData : Uint256) : List NodeID → Option NodeID
  | [] => none
  | candidate :: candidates =>
    let randomPad : NodeID := BaseUInt.fromVoid randomPadData.toList
    some (candidates.foldl
      (fun txNodeID c => if (c ^^^ randomPad) < (txNodeID ^^^ randomPad) then c else txNodeID)
      candidate)

/-- Forget the validators that were new more than two flag ledgers ago. -/
def purgeNewValidators (seq : UInt32) : Voter publicKeyType :=
  { voter with
    newValidators := voter.newValidators.filter fun _ since =>
      !decide (newValidatorDisableSkip < (seq - since).toNat) }

end

def addTx (seq : UInt32) (vp : PublicKey publicKeyType) (modify : NegativeUNLModify) :
    UNLModify Blob :=
  ⟨some modify.code, some seq, some vp.val⟩

variable (calcNodeID : PublicKey publicKeyType → NodeID)

def emplace (nidToKeyMap : HashMap NodeID (PublicKey publicKeyType)) (k : PublicKey publicKeyType) :
    HashMap NodeID (PublicKey publicKeyType) :=
  if (nidToKeyMap.lookup (calcNodeID k)).isSome then nidToKeyMap
  else nidToKeyMap.insert (calcNodeID k) k

def doVoting (voter : Voter publicKeyType) (prevLedger : Ledger Blob)
    (unlKeys : List (PublicKey publicKeyType)) : Voter publicKeyType × List (UNLModify Blob) :=
  let unlNodeIDs := (unlKeys.map calcNodeID).dedup
  match buildScoreTable voter prevLedger unlNodeIDs with
  | none => (voter, [])
  | some scoreTable =>
    let negUnlKeys := nextNegUnl publicKeyType prevLedger
    let negUnlNodeIDs := (negUnlKeys.map calcNodeID).dedup
    let nidToKeyMap := (unlKeys ++ voter.keyOrder negUnlKeys).foldl (emplace calcNodeID) ∅
    let seq := UInt32.ofNat prevLedger.seq + 1
    let voter := purgeNewValidators voter seq
    let candidates := findAllCandidates voter unlNodeIDs negUnlNodeIDs scoreTable
    let voted := fun candidates modify =>
      ((choose prevLedger.hash candidates).bind nidToKeyMap.lookup).toList.map
        fun vp => addTx seq vp modify
    (voter, voted candidates.toDisableCandidates .toDisable ++
      voted candidates.toReEnableCandidates .toReEnable)

variable {k : PublicKey publicKeyType} {α : Type} {o : Option α} {ks : List α}

section Lists

omit [DecidableEq Blob] in
theorem toPublicKey_eq_some_iff {b : Blob} : toPublicKey publicKeyType b = some k ↔ b = k.val := by
  rw [toPublicKey]
  split_ifs with hb
  · rw [Option.some_inj, ← Subtype.val_inj]
  constructor
  · intro h
    cases h
  · intro h
    exact absurd (h ▸ k.property) hb

theorem mem_negativeUNL : k ∈ negativeUNL publicKeyType l ↔ k.val ∈ (l.entry.getD {}).keys := by
  simp [negativeUNL, toPublicKey_eq_some_iff]

omit [DecidableEq Blob] in
theorem bind_toPublicKey_eq_some_iff {o : Option Blob} :
    o.bind (toPublicKey publicKeyType) = some k ↔ o = some k.val := by
  simp [Option.bind_eq_some_iff, toPublicKey_eq_some_iff]

theorem mem_elim_insert [BEq α] [LawfulBEq α] {k : α} :
    k ∈ o.elim ks (fun k' => ks.insert k') ↔ k ∈ ks ∨ o = some k := by
  cases o with
  | none => simp
  | some k' => simp [or_comm, eq_comm]

theorem mem_elim_erase [BEq α] [LawfulBEq α] (h : ks.Nodup) {k : α} :
    k ∈ o.elim ks (fun k' => ks.erase k') ↔ k ∈ ks ∧ o ≠ some k := by
  cases o with
  | none => simp
  | some k' => simp [h.mem_erase_iff, and_comm, eq_comm]

theorem mem_nextNegUnl (h : Consistent (l.entry.getD {})) (seq : Nat) :
    k ∈ nextNegUnl publicKeyType l ↔ k.val ∈ ((updateNegativeUNL seq l.entry).getD {}).keys := by
  have hn : ((validatorToDisable publicKeyType l).elim (negativeUNL publicKeyType l)
      fun k => (negativeUNL publicKeyType l).insert k).Nodup := by
    cases validatorToDisable publicKeyType l with
    | none => exact nodup_dedup _
    | some k' => exact (nodup_dedup _).insert
  rw [nextNegUnl, mem_elim_erase hn, mem_elim_insert, mem_negativeUNL,
    validatorToDisable, bind_toPublicKey_eq_some_iff, Ne, validatorToReEnable,
    bind_toPublicKey_eq_some_iff,
    (updateNegativeUNL_spec seq l.entry).1]
  simp only [mem_append, mem_filter, decide_eq_true_eq, Option.mem_toList]
  constructor
  · rintro ⟨hk | hk, hre⟩
    · exact .inl ⟨hk, hre⟩
    · exact .inr hk
  · rintro (⟨hk, hre⟩ | hk)
    · exact ⟨.inl hk, hre⟩
    · exact ⟨.inr hk, (h.toDisable k.val hk).2⟩

end Lists

variable {tx : UNLModify Blob} {n : NodeID} {scoreTable : ScoreTable} {prev : Ledger Blob}
  {unlKeys : List (PublicKey publicKeyType)}

section Voting

section

omit [DecidableEq Blob]

theorem mem_toDisableCandidates {unl negUnl : List NodeID}
    (h : n ∈ (findAllCandidates voter unl negUnl scoreTable).toDisableCandidates) :
    (∃ e ∈ scoreTable, e.1 = n) ∧ n ∉ negUnl ∧
      (unl.filter negUnl.contains).length < maxNegativeListed unl.length := by
  obtain ⟨e, he, rfl⟩ := List.mem_map.mp h
  obtain ⟨he, hc⟩ := mem_filter.mp he
  simp only [Bool.and_eq_true, decide_eq_true_eq, Bool.not_eq_true', contains_eq_mem,
    decide_eq_false_iff_not] at hc
  exact ⟨⟨e, he, rfl⟩, hc.1.2, hc.1.1.1⟩

theorem mem_toReEnableCandidates {unl negUnl : List NodeID}
    (h : n ∈ (findAllCandidates voter unl negUnl scoreTable).toReEnableCandidates) :
    n ∈ negUnl := by
  unfold findAllCandidates at h
  dsimp only at h
  split at h
  · exact (voter.order_perm negUnl).mem_iff.mp (mem_filter.mp h).1
  obtain ⟨e, he, rfl⟩ := List.mem_map.mp h
  have hc := (mem_filter.mp he).2
  rw [Bool.and_eq_true, contains_iff_mem] at hc
  exact hc.2

end

theorem mem_of_choose {pad : Uint256} {candidates : List NodeID}
    (h : choose pad candidates = some n) : n ∈ candidates := by
  cases candidates with
  | nil => cases h
  | cons c cs =>
    cases h
    refine List.foldlRecOn cs _ (motive := fun n => n ∈ c :: cs) mem_cons_self ?_
    intro n hn c' hc'
    split
    · exact mem_cons_of_mem c hc'
    · exact hn

variable {calcNodeID}

omit [DecidableEq Blob] in
theorem lookup_emplace_foldl {ks : List (PublicKey publicKeyType)}
    (h : (ks.foldl (emplace calcNodeID) ∅).lookup n = some k) : k ∈ ks ∧ calcNodeID k = n := by
  suffices hall : ∀ n k, (ks.foldl (emplace calcNodeID) ∅).lookup n = some k →
      k ∈ ks ∧ calcNodeID k = n from hall n k h
  refine List.foldlRecOn ks _
    (motive := fun m : HashMap NodeID (PublicKey publicKeyType) =>
      ∀ n k, m.lookup n = some k → k ∈ ks ∧ calcNodeID k = n) ?_ ?_
  · intro n k hk
    rw [Finmap.lookup_empty] at hk
    cases hk
  intro m hm k' hk' n k hk
  rw [emplace] at hk
  split at hk
  · exact hm n k hk
  rw [HashMap.lookup_insert_eq] at hk
  split_ifs at hk with hn
  · cases hk
    exact ⟨hk', hn.symm⟩
  · exact hm n k hk

variable (calcNodeID voter prev unlKeys) in
inductive Voted : UNLModify Blob → Prop
  | disable (k : PublicKey publicKeyType) (hunl : k ∈ unlKeys)
    (hid : calcNodeID k ∉ (nextNegUnl publicKeyType prev).map calcNodeID)
    (hmax : ((unlKeys.map calcNodeID).dedup.filter
      ((nextNegUnl publicKeyType prev).map calcNodeID).dedup.contains).length <
        maxNegativeListed (unlKeys.map calcNodeID).dedup.length) :
    Voted (addTx (UInt32.ofNat prev.seq + 1) k .toDisable)
  | reEnable (k k' : PublicKey publicKeyType)
    (hk : k ∈ unlKeys ∨ k ∈ nextNegUnl publicKeyType prev)
    (hk' : k' ∈ nextNegUnl publicKeyType prev) (hid : calcNodeID k = calcNodeID k') :
    Voted (addTx (UInt32.ofNat prev.seq + 1) k .toReEnable)

theorem voted_doVoting (h : tx ∈ (doVoting calcNodeID voter prev unlKeys).2) :
    Voted calcNodeID prev unlKeys tx := by
  unfold doVoting at h
  dsimp only at h
  split at h
  · cases h
  rename_i scoreTable ht
  generalize hv : purgeNewValidators voter (UInt32.ofNat prev.seq + 1) = voter' at h
  rw [mem_append] at h
  simp only [List.mem_map, Option.mem_toList, Option.bind_eq_some_iff] at h
  obtain ⟨k, ⟨n, hn, hk⟩, rfl⟩ | ⟨k, ⟨n, hn, hk⟩, rfl⟩ := h
  · obtain ⟨hky, rfl⟩ := lookup_emplace_foldl hk
    obtain ⟨⟨e, he, hek⟩, hneg, hmax⟩ := mem_toDisableCandidates (mem_of_choose hn)
    rw [mem_dedup] at hneg
    refine .disable k ?_ hneg hmax
    rw [mem_append, (voter.keyOrder_perm _).mem_iff] at hky
    exact hky.resolve_right fun hk => hneg (mem_map_of_mem hk)
  · obtain ⟨hky, rfl⟩ := lookup_emplace_foldl hk
    have hneg := mem_toReEnableCandidates (mem_of_choose hn)
    rw [mem_dedup] at hneg
    obtain ⟨k', hk', hid⟩ := List.mem_map.mp hneg
    rw [mem_append, (voter.keyOrder_perm _).mem_iff] at hky
    exact .reEnable k k' hky hk' hid.symm

omit [DecidableEq Blob] in
theorem Addressed.of_addTx (hseq : l.seq = prev.seq + 1) (hf : isFlagLedger l.seq)
    (k : PublicKey publicKeyType) (modify : NegativeUNLModify) :
    Addressed publicKeyType l.seq modify.code k.val (addTx (UInt32.ofNat prev.seq + 1) k modify) where
  flag := hf
  disabling := rfl
  seq := by
    refine ⟨_, rfl, ?_⟩
    have hlt := l.seq_lt
    rw [UInt32.toNat_add, UInt32.toNat_ofNat', hseq]
    simp
    omega
  validator := rfl
  type := k.property

/-- A transaction of a vote succeeds if none of its kind did before it. -/
theorem succeeds_of_voted (hp : Consistent (prev.entry.getD {})) (hseq : l.seq = prev.seq + 1)
    (hf : isFlagLedger l.seq)
    (hids : Set.InjOn calcNodeID {k | k ∈ unlKeys ∨ k ∈ nextNegUnl publicKeyType prev})
    (hv : Voted calcNodeID prev unlKeys tx) {pre : List (UNLModify Blob)}
    (hpre : ∀ tx' ∈ applied publicKeyType l.seq (opened l.seq prev.entry) pre,
      tx'.unlModifyDisabling ≠ tx.unlModifyDisabling) :
    (applyUNLModify publicKeyType l.seq
      (applyEach publicKeyType l.seq (opened l.seq prev.entry) pre) tx).1 = .tesSUCCESS := by
  have ho : opened l.seq prev.entry = updateNegativeUNL l.seq prev.entry := if_pos hf
  obtain ⟨-, hd, hr⟩ := updateNegativeUNL_spec l.seq prev.entry
  have hc : Consistent ((applyEach publicKeyType l.seq
      (updateNegativeUNL l.seq prev.entry) pre).getD {}) :=
    (hp.updateNegativeUNL l.seq).applyEach pre
  have hn : ∀ k : PublicKey publicKeyType, k ∈ nextNegUnl publicKeyType prev ↔
      k.val ∈ ((applyEach publicKeyType l.seq (updateNegativeUNL l.seq prev.entry) pre).getD
        {}).keys := by
    intro k
    rw [mem_nextNegUnl hp l.seq, keys_applyEach]
  rw [ho] at hpre ⊢
  cases hv with
  | disable k hunl hid hmax =>
    have hkey : k.val ∉ ((applyEach publicKeyType l.seq (updateNegativeUNL l.seq prev.entry)
        pre).getD {}).keys := fun hk => hid (mem_map_of_mem ((hn k).mpr hk))
    refine applyUNLModify_disable (Addressed.of_addTx hseq hf k .toDisable) ?_ ?_ hkey
    · exact pending_applyEach_eq_none .toDisable hd hpre
    · intro hk
      exact hkey (hc.toReEnable k.val hk)
  | reEnable k k' hk hk' hid =>
    cases hids hk (.inr hk') hid
    have hkey := (hn k).mp hk'
    refine applyUNLModify_reEnable (Addressed.of_addTx hseq hf k .toReEnable) ?_ ?_ hkey
    · exact pending_applyEach_eq_none .toReEnable hr hpre
    · intro hdis
      exact (hc.toDisable k.val hdis).1 hkey

end Voting

section Quarter

def disabledMembers (unlKeys : List (PublicKey publicKeyType)) (n : Entry Blob) :
    List (PublicKey publicKeyType) :=
  unlKeys.filter fun k => decide (k.val ∈ n.keys ∨ n.validatorToDisable = some k.val)

variable {n : Entry Blob}

theorem mem_disabledMembers : k ∈ disabledMembers unlKeys n ↔
      k ∈ unlKeys ∧ (k.val ∈ n.keys ∨ n.validatorToDisable = some k.val) := by
  simp [disabledMembers]

variable (unlKeys) in
/-- What limits the disabled members of the UNL. One change of each kind can be made in an interval,
so the number of intervals is a limit as well. -/
structure Limited (seq : Nat) (n : Entry Blob) : Prop where
  ids : Set.InjOn calcNodeID {k | k ∈ disabledMembers unlKeys n}
  max : (disabledMembers unlKeys n).length ≤ maxNegativeListed (unlKeys.map calcNodeID).dedup.length
  intervals : n.keys.length + n.validatorToDisable.toList.length ≤ seq / flagLedgerInterval

variable {calcNodeID}

theorem Voted.perm {keys : List (PublicKey publicKeyType)} (hp : keys.Perm unlKeys)
    (h : Voted calcNodeID prev keys tx) : Voted calcNodeID prev unlKeys tx := by
  have hids := (hp.map calcNodeID).dedup
  cases h with
  | disable k hunl hid hmax =>
    rw [(hids.filter _).length_eq, hids.length_eq] at hmax
    exact .disable k (hp.mem_iff.mp hunl) hid hmax
  | reEnable k k' hk hk' hid =>
    rw [hp.mem_iff] at hk
    exact .reEnable k k' hk hk' hid

theorem limited_empty (seq : Nat) : Limited calcNodeID unlKeys seq ({} : Entry Blob) := by
  have hn : disabledMembers unlKeys ({} : Entry Blob) = [] := by
    simp [disabledMembers, Entry.keys]
  refine ⟨?_, ?_, ?_⟩
  · rw [hn]
    intro k hk
    cases hk
  · rw [hn]
    exact Nat.zero_le _
  · exact Nat.zero_le _

theorem Limited.mono {seq seq' : Nat} (h : Limited calcNodeID unlKeys seq n) (hseq : seq ≤ seq') :
    Limited calcNodeID unlKeys seq' n :=
  ⟨h.ids, h.max, h.intervals.trans (Nat.div_le_div_right hseq)⟩

theorem Limited.updateNegativeUNL {seq : Nat} {entry : Option (Entry Blob)}
    (h : Limited calcNodeID unlKeys seq (entry.getD {})) (seq' : Nat) :
    Limited calcNodeID unlKeys seq ((updateNegativeUNL seq' entry).getD {}) := by
  obtain ⟨hky, hd, -⟩ := updateNegativeUNL_spec seq' entry
  have hsub : (disabledMembers unlKeys ((NegativeUNL.updateNegativeUNL seq' entry).getD {})).Sublist
      (disabledMembers unlKeys (entry.getD {})) := by
    apply monotone_filter_right
    intro k hk
    rw [decide_eq_true_eq, hky, hd, mem_append, mem_filter, Option.mem_toList] at hk
    rw [decide_eq_true_eq]
    obtain (⟨hk, -⟩ | hk) | hk := hk
    · exact .inl hk
    · exact .inr hk
    · cases hk
  refine ⟨h.ids.mono hsub.subset, hsub.length_le.trans h.max, ?_⟩
  rw [hd, hky, length_append]
  have hf := length_filter_le
    (fun k => decide ((entry.getD {}).validatorToReEnable ≠ some k)) (entry.getD {}).keys
  have hi := h.intervals
  simp only [Option.toList_none, length_nil]
  omega

variable (hunl : unlKeys.Nodup)

include hunl

/-- The members that are disabled are counted in full by the vote. -/
theorem length_disabledMembers_le
    (hids : Set.InjOn calcNodeID {k | k ∈ disabledMembers unlKeys n})
    (hn : ∀ k ∈ disabledMembers unlKeys n, k ∈ nextNegUnl publicKeyType prev) :
    (disabledMembers unlKeys n).length ≤ ((unlKeys.map calcNodeID).dedup.filter
      ((nextNegUnl publicKeyType prev).map calcNodeID).dedup.contains).length := by
  have hnd := (hunl.filter _).map_on fun a ha b hb hab => hids ha hb hab
  have hsub : (disabledMembers unlKeys n).map calcNodeID ⊆ (unlKeys.map calcNodeID).dedup.filter
      ((nextNegUnl publicKeyType prev).map calcNodeID).dedup.contains := by
    intro id hid
    obtain ⟨k, hk, rfl⟩ := List.mem_map.mp hid
    rw [mem_filter, mem_dedup, contains_iff_mem, mem_dedup]
    exact ⟨mem_map_of_mem (mem_disabledMembers.mp hk).1, mem_map_of_mem (hn k hk)⟩
  have hl := (subperm_of_subset hnd hsub).length_le
  rwa [length_map] at hl

/-- A member more, for which there is room and whose id is new, in the next interval. -/
theorem Limited.disable {seq seq' : Nat} {n' : Entry Blob} (h : Limited calcNodeID unlKeys seq n)
    (hn : n.validatorToDisable = none) (hky : n'.keys = n.keys)
    (hk : n'.validatorToDisable = some k.val)
    (hid : ∀ k' ∈ disabledMembers unlKeys n, calcNodeID k' ≠ calcNodeID k)
    (hr : (disabledMembers unlKeys n).length < maxNegativeListed (unlKeys.map calcNodeID).dedup.length)
    (hseq : seq' / flagLedgerInterval = seq / flagLedgerInterval + 1) :
    Limited calcNodeID unlKeys seq' n' := by
  have hmem : ∀ k' ∈ disabledMembers unlKeys n', k' ∈ k :: disabledMembers unlKeys n := by
    intro k' hk'
    rw [mem_disabledMembers, hky, hk, Option.some_inj] at hk'
    rw [mem_cons, mem_disabledMembers]
    obtain ⟨hk', hls | heq⟩ := hk'
    · exact .inr ⟨hk', .inl hls⟩
    · exact .inl (Subtype.val_inj.mp heq.symm)
  refine ⟨?_, ?_, ?_⟩
  · intro a ha b hb hab
    obtain rfl | ha := mem_cons.mp (hmem a ha)
    · obtain rfl | hb := mem_cons.mp (hmem b hb)
      · rfl
      · exact absurd hab.symm (hid b hb)
    · obtain rfl | hb := mem_cons.mp (hmem b hb)
      · exact absurd hab (hid a ha)
      · exact h.ids ha hb hab
  · have hl := (subperm_of_subset (hunl.filter _) hmem).length_le
    rw [length_cons] at hl
    exact hl.trans hr
  · have hi := h.intervals
    rw [hn, Option.toList_none, length_nil] at hi
    rw [hky, hk, Option.toList_some, length_singleton]
    omega

/-- One ledger adds at most one member, and only if the vote found room for it. -/
theorem Limited.next {txs : List (UNLModify Blob)} (hpr : Consistent (prev.entry.getD {}))
    (h : Limited calcNodeID unlKeys prev.seq (prev.entry.getD {})) (hseq : l.seq = prev.seq + 1)
    (hv : ∀ tx ∈ applied publicKeyType l.seq (opened l.seq prev.entry) txs,
      tx.unlModifyDisabling = some 1 → Voted calcNodeID prev unlKeys tx) :
    Limited calcNodeID unlKeys l.seq
      ((applyEach publicKeyType l.seq (opened l.seq prev.entry) txs).getD {}) := by
  cases hf : isFlagLedger l.seq with
  | false =>
    have ho : opened l.seq prev.entry = prev.entry := by
      rw [opened, hf]
      rfl
    rw [applyEach_of_not_flag hf, ho]
    exact h.mono (by omega)
  | true =>
    have ho : opened l.seq prev.entry = NegativeUNL.updateNegativeUNL l.seq prev.entry :=
      if_pos hf
    have hu := h.updateNegativeUNL l.seq
    have hd := (updateNegativeUNL_spec l.seq prev.entry).2.1
    have hn : ∀ k ∈ disabledMembers unlKeys
        ((NegativeUNL.updateNegativeUNL l.seq prev.entry).getD {}),
        k ∈ nextNegUnl publicKeyType prev := by
      intro k hk
      obtain hk | hk := (mem_disabledMembers.mp hk).2
      · exact (mem_nextNegUnl hpr l.seq).mpr hk
      · rw [hd] at hk
        cases hk
    rw [ho] at hv ⊢
    generalize NegativeUNL.updateNegativeUNL l.seq prev.entry = e at hu hd hn hv ⊢
    have hky : ((applyEach publicKeyType l.seq e txs).getD {}).keys = (e.getD {}).keys :=
      keys_applyEach txs
    cases hp : ((applyEach publicKeyType l.seq e txs).getD {}).validatorToDisable with
    | none =>
      have hs : disabledMembers unlKeys ((applyEach publicKeyType l.seq e txs).getD {}) =
          disabledMembers unlKeys (e.getD {}) := by
        simp only [disabledMembers, hky, hp, hd]
      refine Limited.mono ⟨hs ▸ hu.ids, hs ▸ hu.max, ?_⟩ (hseq ▸ Nat.le_add_right prev.seq 1)
      have hi := hu.intervals
      rw [hd] at hi
      rw [hky, hp]
      exact hi
    | some b =>
      obtain hb | ⟨tx, htx, hkn, hvl⟩ := pending_applyEach
        (show ((applyEach publicKeyType l.seq e txs).getD {}).pending .toDisable = some b from hp)
      · rw [Entry.pending, hd] at hb
        cases hb
      cases hv tx htx hkn with
      | reEnable => cases hkn
      | disable k hm hid hmax =>
        cases hvl
        refine hu.disable hunl hd hky hp ?_ ?_ ?_
        · intro k' hk' heq
          exact hid (heq ▸ mem_map_of_mem (hn k' hk'))
        · exact (length_disabledMembers_le hunl hu.ids hn).trans_lt hmax
        · rw [isFlagLedger, beq_iff_eq] at hf
          unfold flagLedgerInterval at hf ⊢
          omega

theorem Limited.quarter {seq : Nat} (h : Limited calcNodeID unlKeys seq n)
    (hseq : seq < 4294967296) : (disabledMembers unlKeys n).length ≤ (unlKeys.length + 3) / 4 := by
  have hids : (unlKeys.map calcNodeID).dedup.length ≤ unlKeys.length := by
    have hl := (dedup_sublist (unlKeys.map calcNodeID)).length_le
    rwa [length_map] at hl
  by_cases hs : (unlKeys.map calcNodeID).dedup.length < 67108876
  · have hq := quarter_single_le hs
    have hmax := h.max
    unfold maxNegativeListed at hmax
    omega
  have hn : ((disabledMembers unlKeys n).map Subtype.val).Nodup :=
    (hunl.filter _).map Subtype.val_injective
  have hsub : (disabledMembers unlKeys n).map Subtype.val ⊆
      n.keys ++ n.validatorToDisable.toList := by
    intro b hb
    obtain ⟨k, hk, rfl⟩ := List.mem_map.mp hb
    rw [mem_append, Option.mem_toList]
    exact (mem_disabledMembers.mp hk).2
  have hl := (subperm_of_subset hn hsub).length_le
  rw [length_map, length_append] at hl
  have hi := h.intervals
  unfold flagLedgerInterval at hi
  omega

theorem Chain.limited {ok : Ledger Blob → List (UNLModify Blob) → Prop}
    (hok : ∀ prev txs, ok prev txs → ∀ tx ∈ applied publicKeyType (prev.seq + 1)
      (opened (prev.seq + 1) prev.entry) txs, tx.unlModifyDisabling = some 1 →
        Voted calcNodeID prev unlKeys tx)
    (h : Chain publicKeyType ok l) : Limited calcNodeID unlKeys l.seq (l.entry.getD {}) := by
  induction h with
  | genesis l h =>
    rw [h]
    exact limited_empty l.seq
  | next prev l txs hp hoks hseq h ih =>
    rw [h]
    apply ih.next hunl hp.consistent hseq
    rw [hseq]
    exact hok prev txs hoks

end Quarter

variable (publicKeyType) in
/-- Over every chain of ledgers the entry is consistent. What a vote proposes for a flag ledger
succeeds there if nothing of its kind did before. If only votes disable validators, and with one UNL,
no more than a quarter of it is ever disabled or pending to be. -/
theorem negativeUNL_life_cycle :
    (∀ l, Chain publicKeyType (fun _ _ => True) l → Consistent (l.entry.getD {})) ∧
    (∀ prev l : Ledger Blob, Chain publicKeyType (fun _ _ => True) prev → l.seq = prev.seq + 1 →
      isFlagLedger l.seq → ∀ voter unlKeys,
      Set.InjOn calcNodeID {k | k ∈ unlKeys ∨ k ∈ nextNegUnl publicKeyType prev} →
      ∀ tx ∈ (doVoting calcNodeID voter prev unlKeys).2, ∀ pre,
      (∀ tx' ∈ applied publicKeyType l.seq (opened l.seq prev.entry) pre,
        tx'.unlModifyDisabling ≠ tx.unlModifyDisabling) →
      (applyUNLModify publicKeyType l.seq
        (applyEach publicKeyType l.seq (opened l.seq prev.entry) pre) tx).1 = .tesSUCCESS) ∧
    (∀ unlKeys : List (PublicKey publicKeyType), unlKeys.Nodup → ∀ l,
      Chain publicKeyType (fun prev txs => ∀ tx ∈ applied publicKeyType (prev.seq + 1)
        (opened (prev.seq + 1) prev.entry) txs, tx.unlModifyDisabling = some 1 →
          ∃ voter keys, keys.Perm unlKeys ∧ tx ∈ (doVoting calcNodeID voter prev keys).2) l →
      (unlKeys.filter fun k => decide (k.val ∈ (l.entry.getD {}).keys ∨
        (l.entry.getD {}).validatorToDisable = some k.val)).length ≤ (unlKeys.length + 3) / 4) := by
  refine ⟨?_, ?_, ?_⟩
  · intro l h
    exact h.consistent
  · intro prev l hprev hseq hflag voter unlKeys hids tx htx pre hpre
    exact succeeds_of_voted hprev.consistent hseq hflag hids (voted_doVoting htx) hpre
  intro unlKeys hunl l h
  have hlimited : Limited calcNodeID unlKeys l.seq (l.entry.getD {}) := by
    apply Chain.limited hunl _ h
    intro prev txs hok tx htx hkind
    obtain ⟨voter, keys, hperm, hvote⟩ := hok tx htx hkind
    exact (voted_doVoting hvote).perm hperm
  exact hlimited.quarter hunl l.seq_lt

section Witness

def anyKey : Nat → Bool := fun _ => true

def idOf (k : PublicKey anyKey) : NodeID := ⟨fun _ => UInt8.ofNat k.val⟩

def four : List (PublicKey anyKey) := [⟨1, rfl⟩, ⟨2, rfl⟩, ⟨3, rfl⟩, ⟨4, rfl⟩]

def first : Voter anyKey where
  myId := idOf ⟨1, rfl⟩
  newValidators := ∅
  trustedForLedger := fun _ => [idOf ⟨1, rfl⟩]
  order := id
  order_perm := List.Perm.refl
  keyOrder := id
  keyOrder_perm := List.Perm.refl

def parent : Ledger Nat where
  seq := 255
  seq_lt := by decide
  hash := 0
  skip := some (List.replicate 256 0)
  entry := none

def flag : Ledger Nat where
  seq := 256
  seq_lt := by decide
  hash := 0
  skip := some (List.replicate 256 0)
  entry := some { validatorToDisable := some 2 }

set_option maxRecDepth 100000 in
theorem doVoting_first : (doVoting idOf first parent four).2 = [⟨some 1, some 256, some 2⟩] := by
  decide +kernel

theorem applied_first : applied anyKey (parent.seq + 1) (opened (parent.seq + 1) parent.entry)
      [⟨some 1, some 256, some 2⟩] = [⟨some 1, some 256, some 2⟩] := by
  decide +kernel

theorem idOf_injOn : Set.InjOn idOf {k | k ∈ four ∨ k ∈ nextNegUnl anyKey parent} := by
  have hf : ∀ a ∈ four, ∀ b ∈ four, idOf a = idOf b → a = b := by
    decide +kernel
  have hn : nextNegUnl anyKey parent = [] := rfl
  rw [hn]
  intro a ha b hb hab
  exact hf a (ha.resolve_right not_mem_nil) b (hb.resolve_right not_mem_nil) hab

/-- The vote disables the second validator, and then one of four is pending. -/
theorem life_cycle_second :
    (applyUNLModify anyKey 256 (opened 256 parent.entry) ⟨some 1, some 256, some 2⟩).1 =
      .tesSUCCESS ∧
    (four.filter fun k => decide (k.val ∈ (flag.entry.getD {}).keys ∨
      (flag.entry.getD {}).validatorToDisable = some k.val)).length ≤ 1 := by
  obtain ⟨-, hsucceeds, hquarter⟩ := negativeUNL_life_cycle anyKey idOf
  have hvote : (⟨some 1, some 256, some 2⟩ : UNLModify Nat) ∈
      (doVoting idOf first parent four).2 := by
    rw [doVoting_first]
    exact List.mem_singleton_self _
  constructor
  · apply hsucceeds parent flag (.genesis parent rfl) rfl rfl first four idOf_injOn _ hvote []
    intro tx htx
    cases htx
  apply hquarter four (by decide) flag
  refine .next parent flag [⟨some 1, some 256, some 2⟩] (.genesis parent rfl) ?_ rfl rfl
  intro tx htx hkind
  rw [applied_first] at htx
  cases List.mem_singleton.mp htx
  exact ⟨first, four, List.Perm.refl _, hvote⟩

end Witness

end Rippled.NegativeUNL
