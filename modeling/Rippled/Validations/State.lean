import Rippled.Lib.HashMap
import Rippled.LedgerTrie.Trie

namespace Rippled.Validations

open Lib

/-- Timing parameters, in seconds. -/
structure ValidationParms where
  validationCURRENT_WALL : Int := 300
  validationCURRENT_LOCAL : Int := 180
  validationCURRENT_EARLY : Int := 180
  validationSET_EXPIRES : Int := 600

/-- Enforces that validations of one node have increasing sequence numbers, unless they expire. -/
structure SeqEnforcer where
  seq_ : Nat := 0
  when_ : Int := 0
deriving DecidableEq

/-- Try to advance the largest sequence number. The reset after an expiry stays even when the
advance fails. -/
def SeqEnforcer.tryAdvance (e : SeqEnforcer) (now : Int) (s : Nat) (p : ValidationParms) :
    Bool × SeqEnforcer :=
  let e := if e.when_ + p.validationSET_EXPIRES < now then { e with seq_ := 0 } else e
  if s ≤ e.seq_ then (false, e) else (true, ⟨s, now⟩)

def SeqEnforcer.largest (e : SeqEnforcer) : Nat := e.seq_

variable {p : ValidationParms} {e : SeqEnforcer} {now : Int} {s : Nat}

structure Validation (ID : Type) where
  ledgerID : ID
  seq : Nat
  signTime : Int
  seenTime : Int
  trusted : Bool
  full : Bool
  cookie : Nat
deriving DecidableEq

/-- Whether a validation still speaks for its node, from when it was signed and first seen. -/
def isCurrent (p : ValidationParms) (now signTime seenTime : Int) : Bool :=
  now - p.validationCURRENT_EARLY < signTime && signTime < now + p.validationCURRENT_WALL &&
    (seenTime == 0 || seenTime < now + p.validationCURRENT_LOCAL)

inductive ValStatus
  | current
  | stale
  | badSeq
  | multiple
  | conflicting
deriving DecidableEq

structure Aged (V : Type) where
  when : Int
  value : V

def Aged.touch {V : Type} (now : Int) (e : Aged V) : Aged V := { e with when := now }

def Aged.expire {K V : Type} (now age : Int) (m : HashMap K (Aged V)) : HashMap K (Aged V) :=
  HashMap.filter (fun _ e => now - age < e.when) m

/-- Subscripting creates an empty entry when there is none and leaves the time of an existing one. -/
def Aged.subscript {K V : Type} [DecidableEq K] (m : HashMap K (Aged V)) (now : Int) (k : K)
    (empty : V) : Aged V :=
  (m.lookup k).getD ⟨now, empty⟩

theorem SeqEnforcer.tryAdvance_fst (h : (e.tryAdvance now s p).1) :
    (e.tryAdvance now s p).2 = ⟨s, now⟩ := by
  rw [tryAdvance] at h ⊢
  by_cases hs : s ≤ (if e.when_ + p.validationSET_EXPIRES < now then { e with seq_ := 0 } else e).seq_
  · simp [hs] at h
  · simp [hs]

theorem SeqEnforcer.tryAdvance_of_le (hnow : now ≤ e.when_ + p.validationSET_EXPIRES)
    (hs : s ≤ e.seq_) : e.tryAdvance now s p = (false, e) := by
  rw [tryAdvance, if_neg (not_lt.mpr hnow)]
  simp [hs]

/-- What the class leaves to its surroundings: the outcome of each attempt to acquire a ledger, and
the orders in which the hash containers are traversed. All may differ from call to call, so they
depend on a counter. -/
structure Adaptor (L ID N : Type) where
  acquire : Nat → ID → Option L
  nodeOrder : Nat → Finset N → List N
  keyOrder : Nat → Finset (Nat × ID) → List (Nat × ID)

/-- An acquired ledger is the requested one, and a traversal visits each element once. -/
structure Adaptor.Lawful {L ID N : Type} [Ledger L ID] (a : Adaptor L ID N) : Prop where
  acquire_id : ∀ k i l, a.acquire k i = some l → Ledger.id l = i
  nodup_nodeOrder : ∀ k s, (a.nodeOrder k s).Nodup
  mem_nodeOrder : ∀ k s n, n ∈ a.nodeOrder k s ↔ n ∈ s
  nodup_keyOrder : ∀ k s, (a.keyOrder k s).Nodup
  mem_keyOrder : ∀ k s i, i ∈ a.keyOrder k s ↔ i ∈ s

/-- The adaptor that traverses every container in increasing order. -/
def Adaptor.sorted {L ID N : Type} [LinearOrder ID] [LinearOrder N]
    (acquire : Nat → ID → Option L) : Adaptor L ID N where
  acquire := acquire
  nodeOrder _ s := ascending s
  keyOrder _ s := (ascending (s.map ⟨toLex, toLex.injective⟩)).map ofLex

theorem Adaptor.sorted_lawful {L ID N : Type} [Ledger L ID] [LinearOrder ID] [LinearOrder N]
    {acquire : Nat → ID → Option L} (h : ∀ k i l, acquire k i = some l → Ledger.id l = i) :
    (Adaptor.sorted acquire : Adaptor L ID N).Lawful where
  acquire_id := h
  nodup_nodeOrder _ s := nodup_ascending s
  mem_nodeOrder _ s n := mem_ascending
  nodup_keyOrder _ s := (nodup_ascending _).map ofLex.injective
  mem_keyOrder _ s i := by simp [sorted, mem_ascending]

end Rippled.Validations

namespace Rippled

open Lib
open LedgerTrie (Trie SpanTip)
open Validations (Validation SeqEnforcer Aged)

/-- The members of the class, and the counter for the adaptor. -/
structure Validations (L ID N : Type) where
  current_ : HashMap N (Validation ID)
  localSeqEnforcer_ : SeqEnforcer
  seqEnforcers_ : HashMap N SeqEnforcer
  byLedger_ : HashMap ID (Aged (HashMap N (Validation ID)))
  bySequence_ : HashMap Nat (Aged (HashMap N (Validation ID)))
  toKeep_ : Option Nat
  trie_ : Trie L
  lastLedger_ : HashMap N L
  acquiring_ : HashMap (Nat × ID) (Finset N)
  calls : Nat

end Rippled

namespace Rippled.Validations

open Ledger hiding id
open Lib
open LedgerTrie (Trie SpanTip)

variable {L ID N : Type} [Ledger L ID] [LinearOrder ID] [DecidableEq N]

def Validation.key (v : Validation ID) : Nat × ID := (v.seq, v.ledgerID)

def new : Validations L ID N :=
  ⟨∅, {}, ∅, ∅, ∅, none, Trie.new, ∅, ∅, 0⟩

/-- Take a node out of the set that waits for a ledger; empty sets are dropped. -/
def dropWaiting (acquiring : HashMap (Nat × ID) (Finset N)) (key : Nat × ID) (nodeID : N) :
    HashMap (Nat × ID) (Finset N) :=
  match acquiring.lookup key with
  | some nodes =>
    if nodes.erase nodeID = ∅ then acquiring.erase key
    else acquiring.insert key (nodes.erase nodeID)
  | none => acquiring

section

variable (s : Validations L ID N) (nodeID : N)

def removeTrie (val : Validation ID) : Validations L ID N :=
  let s := { s with acquiring_ := dropWaiting s.acquiring_ val.key nodeID }
  match s.lastLedger_.lookup nodeID with
  | some ledger =>
    if Ledger.id ledger = val.ledgerID then
      { s with
        trie_ := (s.trie_.remove ledger 1).2
        lastLedger_ := s.lastLedger_.erase nodeID }
    else s
  | none => s

def updateTrieLedger (ledger : L) : Validations L ID N :=
  let trie := match s.lastLedger_.lookup nodeID with
    | some old => (s.trie_.remove old 1).2
    | none => s.trie_
  { s with
    lastLedger_ := s.lastLedger_.insert nodeID ledger
    trie_ := trie.insert ledger 1 }

end

section Fields

variable (s : Validations L ID N) (nodeID : N) (ledger : L)

@[simp] theorem updateTrieLedger_current : (updateTrieLedger s nodeID ledger).current_ = s.current_ :=
  rfl

@[simp] theorem updateTrieLedger_acquiring :
    (updateTrieLedger s nodeID ledger).acquiring_ = s.acquiring_ :=
  rfl

@[simp] theorem updateTrieLedger_last :
    (updateTrieLedger s nodeID ledger).lastLedger_ = s.lastLedger_.insert nodeID ledger :=
  rfl

variable (val : Validation ID)

theorem removeTrie_frame : (removeTrie s nodeID val).current_ = s.current_ ∧
    (removeTrie s nodeID val).acquiring_ = dropWaiting s.acquiring_ val.key nodeID ∧
    (removeTrie s nodeID val).calls = s.calls := by
  rw [removeTrie]
  cases s.lastLedger_.lookup nodeID with
  | none => exact ⟨rfl, rfl, rfl⟩
  | some ledger =>
    by_cases hid : Ledger.id ledger = val.ledgerID
    · simp [hid]
    · simp [hid]

theorem lookup_removeTrie (m : N) : (removeTrie s nodeID val).lastLedger_.lookup m =
      if m = nodeID then (s.lastLedger_.lookup m).filter (fun l => Ledger.id l ≠ val.ledgerID)
      else s.lastLedger_.lookup m := by
  rw [removeTrie]
  by_cases hm : m = nodeID
  · subst hm
    cases hl : s.lastLedger_.lookup m with
    | none => simp [hl]
    | some ledger =>
      by_cases hid : Ledger.id ledger = val.ledgerID
      · simp [hid, Option.filter]
      · simp [hid, hl, Option.filter]
  · cases hl : s.lastLedger_.lookup nodeID with
    | none => simp [hm]
    | some ledger =>
      by_cases hid : Ledger.id ledger = val.ledgerID
      · simp [hid, hm, Finmap.lookup_erase_ne hm]
      · simp [hid, hm]

end Fields

variable (a : Adaptor L ID N)

section

variable (s : Validations L ID N)

def checkKey (key : Nat × ID) : Validations L ID N :=
  match s.acquiring_.lookup key with
  | none => s
  | some nodes =>
    match a.acquire s.calls key.2 with
    | some ledger =>
      let order := a.nodeOrder s.calls nodes
      let s := order.foldl (fun s nodeID => updateTrieLedger s nodeID ledger)
        { s with calls := s.calls + 1 }
      { s with acquiring_ := s.acquiring_.erase key }
    | none => { s with calls := s.calls + 1 }

def checkAcquired : Validations L ID N :=
  (a.keyOrder s.calls s.acquiring_.keys).foldl (checkKey a) { s with calls := s.calls + 1 }

def clearPrior (nodeID : N) : Option (Nat × ID) → Validations L ID N
  | some key => { s with acquiring_ := dropWaiting s.acquiring_ key nodeID }
  | none => s

/-- Process a new trusted validation. It counts once its ledger has been acquired; until then the
prior ledger of the node remains. -/
def updateTrie (nodeID : N) (val : Validation ID) (prior : Option (Nat × ID)) :
    Validations L ID N :=
  let s := checkAcquired a (clearPrior s nodeID prior)
  match s.acquiring_.lookup val.key with
  | some nodes => { s with acquiring_ := s.acquiring_.insert val.key (insert nodeID nodes) }
  | none =>
    match a.acquire s.calls val.ledgerID with
    | some ledger => updateTrieLedger { s with calls := s.calls + 1 } nodeID ledger
    | none =>
      { s with
        acquiring_ := s.acquiring_.insert val.key {nodeID}
        calls := s.calls + 1 }

end

variable (p : ValidationParms) (now : Int)

def currentStep (r : Validations L ID N × List (N × Validation ID)) (nodeID : N) :
    Validations L ID N × List (N × Validation ID) :=
  match r.1.current_.lookup nodeID with
  | some val =>
    if isCurrent p now val.signTime val.seenTime then (r.1, r.2 ++ [(nodeID, val)])
    else
      let s := removeTrie r.1 nodeID val
      ({ s with current_ := s.current_.erase nodeID }, r.2)
  | none => r

/-- Iterate the current validations, flushing those that are stale. -/
def current (s : Validations L ID N) : Validations L ID N × List (N × Validation ID) :=
  (a.nodeOrder s.calls s.current_.keys).foldl (currentStep p now)
    ({ s with calls := s.calls + 1 }, [])

def withTrie (s : Validations L ID N) : Validations L ID N :=
  checkAcquired a (current a p now s).1

/-- The validation tracked for a node at a sequence number, once a new one has arrived: the first
one, unless that was signed long before the new one. -/
def trackSequence (p : ValidationParms) (val : Validation ID) :
    Option (Validation ID) → Validation ID
  | none => val
  | some old =>
    let diff := max old.signTime val.signTime - min old.signTime val.signTime
    if p.validationCURRENT_WALL < diff ∧ old.signTime < val.signTime then val else old

def violation (tracked val : Validation ID) : ValStatus :=
  if tracked.seq = val.seq ∧ tracked.ledgerID ≠ val.ledgerID then .conflicting
  else if tracked.seq = val.seq ∧ tracked.cookie ≠ val.cookie then .multiple
  else .badSeq

section

variable (a : Adaptor L ID N)

/-- Record a validation that passed the checks as the current one of its node, unless there is a
newer one. -/
def addCurrent (s : Validations L ID N) (nodeID : N) (val : Validation ID) :
    ValStatus × Validations L ID N :=
  match s.current_.lookup nodeID with
  | some old =>
    if old.signTime < val.signTime then
      let s := { s with current_ := s.current_.insert nodeID val }
      (.current, if val.trusted then updateTrie a s nodeID val (some old.key) else s)
    else (.stale, s)
  | none =>
    let s := { s with current_ := s.current_.insert nodeID val }
    (.current, if val.trusted then updateTrie a s nodeID val none else s)

/-- Attempt to add a new validation, at network time `now` and at time `clock` of the steady clock. -/
def add (p : ValidationParms) (now clock : Int) (s : Validations L ID N) (nodeID : N)
    (val : Validation ID) : ValStatus × Validations L ID N :=
  if isCurrent p now val.signTime val.seenTime then
    let slot := Aged.subscript s.bySequence_ clock val.seq ∅
    let tracked := trackSequence p val (slot.value.lookup nodeID)
    let s := { s with
      bySequence_ := s.bySequence_.insert val.seq ⟨slot.when, slot.value.insert nodeID tracked⟩ }
    let advance := ((s.seqEnforcers_.lookup nodeID).getD {}).tryAdvance clock val.seq p
    let s := { s with seqEnforcers_ := s.seqEnforcers_.insert nodeID advance.2 }
    if advance.1 then
      let slot := Aged.subscript s.byLedger_ clock val.ledgerID ∅
      addCurrent a { s with
        byLedger_ := s.byLedger_.insert val.ledgerID ⟨slot.when, slot.value.insert nodeID val⟩ }
        nodeID val
    else (violation tracked val, s)
  else (.stale, s)

def canValidateSeq (p : ValidationParms) (clock : Int) (s : Validations L ID N) (seq : Nat) :
    Bool × Validations L ID N :=
  let advance := s.localSeqEnforcer_.tryAdvance clock seq p
  (advance.1, { s with localSeqEnforcer_ := advance.2 })

def setSeqToKeep (s : Validations L ID N) (seq : Nat) : Validations L ID N :=
  { s with toKeep_ := some seq }

/-- Whether a set of validations is kept, from the validation that its traversal starts with. -/
def keepsLedger (calls : Nat) (toKeep : Nat) (m : HashMap N (Validation ID)) : Bool :=
  match a.nodeOrder calls m.keys with
  | nodeID :: _ =>
    match m.lookup nodeID with
    | some val => toKeep ≤ val.seq
    | none => false
  | [] => false

def expire (p : ValidationParms) (clock : Int) (s : Validations L ID N) : Validations L ID N :=
  let s := match s.toKeep_ with
    | some toKeep =>
      { s with
        byLedger_ := HashMap.mapValues (fun _ (e : Aged _) =>
          if keepsLedger a s.calls toKeep e.value then e.touch clock else e) s.byLedger_
        bySequence_ := HashMap.mapValues (fun seq (e : Aged _) =>
          if toKeep ≤ seq then e.touch clock else e) s.bySequence_
        calls := s.calls + 1 }
    | none => s
  { s with
    byLedger_ := Aged.expire clock p.validationSET_EXPIRES s.byLedger_
    bySequence_ := Aged.expire clock p.validationSET_EXPIRES s.bySequence_ }

/-- The new trust of a validation when nodes are added to or removed from the trusted set. -/
def retrust (added removed : Finset N) (nodeID : N) (val : Validation ID) : Validation ID :=
  if nodeID ∈ added then { val with trusted := true }
  else if nodeID ∈ removed then { val with trusted := false }
  else val

def trustStep (added removed : Finset N) (s : Validations L ID N) (nodeID : N) :
    Validations L ID N :=
  match s.current_.lookup nodeID with
  | some val =>
    let val' := retrust added removed nodeID val
    let s := { s with current_ := s.current_.insert nodeID val' }
    if nodeID ∈ added then updateTrie a s nodeID val' none
    else if nodeID ∈ removed then removeTrie s nodeID val'
    else s
  | none => s

def trustChanged (s : Validations L ID N) (added removed : Finset N) : Validations L ID N :=
  let s := (a.nodeOrder s.calls s.current_.keys).foldl (trustStep a added removed)
    { s with calls := s.calls + 1 }
  { s with byLedger_ := HashMap.mapValues (fun _ (e : Aged _) =>
      ⟨e.when, HashMap.mapValues (retrust added removed) e.value⟩) s.byLedger_ }

end

/-- The acquisition with the most waiting nodes, by identifier among equals. -/
def largestWaiting (acquiring : HashMap (Nat × ID) (Finset N)) :
    List (Nat × ID) → Option (Nat × ID)
  | [] => none
  | key :: keys => some (keys.foldl (fun best key =>
      let size := fun key => ((acquiring.lookup key).getD ∅).card
      if toLex (size best, best.2) < toLex (size key, key.2) then key else best) key)

/-- The choice between the preferred ledger of the trie and the working ledger. -/
def preferOver (curr : L) (preferred : SpanTip L ID) : Nat × ID :=
  if preferred.seq = seq curr + 1 ∧ preferred.ancestor (seq curr) = Ledger.id curr then
    (seq curr, Ledger.id curr)
  else if seq curr < preferred.seq then (preferred.seq, preferred.id)
  else if ancestor curr preferred.seq ≠ preferred.id then (preferred.seq, preferred.id)
  else (seq curr, Ledger.id curr)

section

variable (a : Adaptor L ID N) (p : ValidationParms) (now : Int) (s : Validations L ID N)

/-- The sequence number and identifier of the preferred working ledger. Without any support in the
trie the largest pending acquisition decides. -/
def getPreferred (curr : L) : Option (Nat × ID) × Validations L ID N :=
  let s := withTrie a p now s
  let result := s.trie_.getPreferred s.localSeqEnforcer_.largest
  let s := { s with trie_ := result.2 }
  match result.1 with
  | some preferred => (some (preferOver curr preferred), s)
  | none => (largestWaiting s.acquiring_ (a.keyOrder s.calls s.acquiring_.keys),
      { s with calls := s.calls + 1 })

def getNodesAfter (ledger : L) (ledgerID : ID) : Nat × Validations L ID N :=
  if Ledger.id ledger = ledgerID then
    let s := withTrie a p now s
    (LedgerTrie.sub32 (s.trie_.branchSupport ledger) (s.trie_.tipSupport ledger), s)
  else
    ((HashMap.values s.lastLedger_).countP (fun curr =>
      0 < seq curr ∧ ancestor curr (seq curr - 1) = ledgerID), s)

def currentTrusted : List (Validation ID) × Validations L ID N :=
  let r := current a p now s
  ((r.2.map Prod.snd).filter (fun v => v.trusted && v.full), r.1)

end

def trustedFor (s : Validations L ID N) (ledgerID : ID) : HashMap N (Validation ID) :=
  match s.byLedger_.lookup ledgerID with
  | some e => HashMap.filter (fun _ v => v.trusted && v.full) e.value
  | none => ∅

/-- The number of trusted full validations for a ledger. The set counts as used. -/
def numTrustedForLedger (clock : Int) (s : Validations L ID N) (ledgerID : ID) :
    Nat × Validations L ID N :=
  ((HashMap.values (trustedFor s ledgerID)).card,
    { s with byLedger_ := HashMap.mapValues (fun i (e : Aged _) =>
        if i = ledgerID then e.touch clock else e) s.byLedger_ })

inductive Call (L ID N : Type)
  | add (now clock : Int) (nodeID : N) (val : Validation ID)
  | canValidateSeq (clock : Int) (seq : Nat)
  | setSeqToKeep (seq : Nat)
  | expire (clock : Int)
  | trustChanged (added removed : Finset N)
  | getPreferred (now : Int) (curr : L)
  | getNodesAfter (now : Int) (ledger : L) (ledgerID : ID)
  | currentTrusted (now : Int)
  | numTrustedForLedger (clock : Int) (ledgerID : ID)

def apply (a : Adaptor L ID N) (p : ValidationParms) (s : Validations L ID N) :
    Call L ID N → Validations L ID N
  | .add now clock nodeID val => (add a p now clock s nodeID val).2
  | .canValidateSeq clock seq => (canValidateSeq p clock s seq).2
  | .setSeqToKeep seq => setSeqToKeep s seq
  | .expire clock => expire a p clock s
  | .trustChanged added removed => trustChanged a s added removed
  | .getPreferred now curr => (getPreferred a p now s curr).2
  | .getNodesAfter now ledger ledgerID => (getNodesAfter a p now s ledger ledgerID).2
  | .currentTrusted now => (currentTrusted a p now s).2
  | .numTrustedForLedger clock ledgerID => (numTrustedForLedger clock s ledgerID).2

end Rippled.Validations
