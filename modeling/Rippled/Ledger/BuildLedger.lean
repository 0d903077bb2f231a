import Mathlib.Data.Prod.Lex
import Rippled.Tx.Transactor

namespace Rippled.BuildLedger

open Lib Tx

def ledgerTotalPasses : Nat := 3

def ledgerRetryPasses : Nat := 1

/-- A transaction: its identifier, the fields by which it is ordered, and all else it holds. -/
structure STTx (B : Type) extends Common Nat where
  id : Nat
  body : B

variable {B : Type}

section CanonicalTXSet

namespace CanonicalTXSet

structure Key where
  account : Nat
  seqProxy : SeqProxy
  txId : Nat

def rank : SeqProxy.Type → Nat
  | .seq => 0
  | .ticket => 1

def Key.order (k : Key) : Nat ×ₗ Nat ×ₗ Nat ×ₗ Nat :=
  toLex (k.account, toLex (rank k.seqProxy.type, toLex (k.seqProxy.value, k.txId)))

theorem rank_injective : Function.Injective rank := by
  intro a b h
  cases a <;> cases b <;> simp [rank] at h ⊢

theorem Key.order_injective : Function.Injective Key.order := by
  rintro ⟨account, ⟨value, type⟩, txId⟩ ⟨account', ⟨value', type'⟩, txId'⟩ h
  simp only [Key.order, EmbeddingLike.apply_eq_iff_eq, Prod.mk.injEq] at h
  obtain ⟨ha, ht, hv, hid⟩ := h
  rw [ha, rank_injective ht, hv, hid]

instance : LinearOrder Key := LinearOrder.lift' Key.order Key.order_injective

/-- The key of an account, changed by the salt so that no account comes first in every ledger. -/
def accountKey (salt account : Nat) : Nat := account <<< 96 ^^^ salt

def keyOf (salt : Nat) (txn : STTx B) : Key :=
  ⟨accountKey salt txn.account, txn.getSeqProxy, txn.id⟩

end CanonicalTXSet

open CanonicalTXSet

structure CanonicalTXSet (B : Type) where
  salt : Nat
  map : OrdMap Key (STTx B)
  keyed : ∀ k txn, map.find? k = some txn → k = keyOf salt txn

namespace CanonicalTXSet

def ofSalt (salt : Nat) : CanonicalTXSet B where
  salt := salt
  map := OrdMap.empty
  keyed := by simp

def insert (s : CanonicalTXSet B) (txn : STTx B) : CanonicalTXSet B where
  salt := s.salt
  map := s.map.alter (keyOf s.salt txn) fun old => some (old.getD txn)
  keyed := by
    intro k t h
    rw [OrdMap.find?_alter] at h
    split_ifs at h with hk
    · cases hold : s.map.find? (keyOf s.salt txn) with
      | none =>
        rw [hold] at h
        cases h
        exact hk
      | some old =>
        rw [hold] at h
        cases h
        exact hk.trans (s.keyed _ _ hold)
    · exact s.keyed k t h

def erase (s : CanonicalTXSet B) (k : Key) : CanonicalTXSet B where
  salt := s.salt
  map := s.map.erase k
  keyed := by
    intro k' t h
    rw [OrdMap.find?_erase] at h
    split_ifs at h
    exact s.keyed k' t h

def ofList (salt : Nat) (txns : List (STTx B)) : CanonicalTXSet B := txns.foldl insert (ofSalt salt)

instance : Membership (STTx B) (CanonicalTXSet B) :=
  ⟨fun s txn => s.map.find? (keyOf s.salt txn) = some txn⟩

variable {s : CanonicalTXSet B} {txn : STTx B}

theorem mem_def : txn ∈ s ↔ s.map.find? (keyOf s.salt txn) = some txn := Iff.rfl

theorem mem_of_find? {k : Key} (h : s.map.find? k = some txn) : txn ∈ s := by
  rw [mem_def, ← s.keyed k txn h]
  exact h

variable {t : STTx B}

theorem mem_insert (hf : ∀ t ∈ s, t.id ≠ txn.id) : t ∈ s.insert txn ↔ t ∈ s ∨ t = txn := by
  have hn : s.map.find? (keyOf s.salt txn) = none := by
    cases hold : s.map.find? (keyOf s.salt txn) with
    | none => rfl
    | some old =>
      have hid : txn.id = old.id := congrArg Key.txId (s.keyed _ _ hold)
      exact absurd hid.symm (hf old (mem_of_find? hold))
  rw [mem_def, mem_def, insert, OrdMap.find?_alter, hn]
  split_ifs with hk
  · rw [hk, hn]
    simp [eq_comm]
  constructor
  · exact .inl
  · rintro (h | rfl)
    · exact h
    · exact absurd rfl hk

theorem mem_erase (hmem : txn ∈ s) : t ∈ s.erase (keyOf s.salt txn) ↔ t ∈ s ∧ t ≠ txn := by
  rw [mem_def, mem_def, erase, OrdMap.find?_erase]
  split_ifs with hk
  · have heq : s.map.find? (keyOf s.salt t) = some t → t = txn := by
      intro h
      rw [hk, mem_def.mp hmem] at h
      exact (Option.some.inj h).symm
    constructor
    · intro h
      cases h
    · rintro ⟨h, hne⟩
      exact absurd (heq h) hne
  · constructor
    · intro h
      refine ⟨h, ?_⟩
      rintro rfl
      exact hk rfl
    · exact And.left

variable {txns : List (STTx B)}

variable (hids : (txns.map STTx.id).Nodup)

include hids

theorem mem_foldl_insert (hf : ∀ t ∈ s, ∀ txn ∈ txns, t.id ≠ txn.id) :
    t ∈ txns.foldl insert s ↔ t ∈ s ∨ t ∈ txns := by
  induction txns generalizing s with
  | nil => simp
  | cons txn txns ih =>
    obtain ⟨hid, hids⟩ := List.nodup_cons.mp hids
    have hi : ∀ {t : STTx B}, t ∈ s.insert txn ↔ t ∈ s ∨ t = txn :=
      mem_insert (fun t ht => hf t ht txn (by simp))
    rw [List.foldl_cons, ih hids, hi, List.mem_cons, or_assoc]
    intro t ht t' ht'
    rcases hi.mp ht with ht | rfl
    · exact hf t ht t' (List.mem_cons_of_mem _ ht')
    · intro heq
      exact hid (heq ▸ List.mem_map_of_mem ht')

theorem mem_ofList {salt : Nat} : t ∈ ofList salt txns ↔ t ∈ txns := by
  have he : ∀ t : STTx B, t ∉ (ofSalt salt : CanonicalTXSet B) := by
    intro t h
    cases mem_def.mp h
  rw [ofList, mem_foldl_insert hids (fun t ht => absurd ht (he t))]
  simp [he t]

end CanonicalTXSet

end CanonicalTXSet

variable {V : Type}

structure ApplyFlags where
  tapFAIL_HARD : Bool := false
  tapRETRY : Bool := false
  tapPREFER_QUEUE : Bool := false
  tapUNLIMITED : Bool := false

def tapNONE : ApplyFlags := {}

def wasApplied : Except String (TER × Bool) → Bool
  | .ok (_, applied) => applied
  | .error _ => false

/-- What transactions do to a view. An attempt throws, or leaves the view as it is, or applies the
transaction. With `tapRETRY` it does what it does without, or does not apply the transaction. -/
structure Semantics (V B : Type) where
  apply : V → STTx B → ApplyFlags → Except String (TER × Bool) × V
  unapplied : ∀ view txn flags, wasApplied (apply view txn flags).1 = false →
    (apply view txn flags).2 = view
  retry : ∀ view txn flags, apply view txn { flags with tapRETRY := true } = apply view txn flags ∨
    wasApplied (apply view txn { flags with tapRETRY := true }).1 = false

inductive ApplyResult
  | Success
  | Fail
  | Retry
deriving DecidableEq

def resultOf : Except String (TER × Bool) → ApplyResult
  | .ok (result, applied) =>
    if applied then .Success
    else if isTefFailure result || isTemMalformed result || isTelLocal result then .Fail
    else .Retry
  | .error _ => .Fail

def applyTransaction (sem : Semantics V B) (view : V) (txn : STTx B) (retryAssured : Bool)
    (flags : ApplyFlags) : ApplyResult × V :=
  let flags := if retryAssured then { flags with tapRETRY := true } else flags
  let (result, view) := sem.apply view txn flags
  (resultOf result, view)

/-- A line of the journal: a transaction that was tried, whether it was sure to be tried again, and
what came of it. -/
structure Attempt (B : Type) where
  txn : STTx B
  retryAssured : Bool
  result : ApplyResult

def Attempt.applied? (a : Attempt B) : Option (STTx B) :=
  if a.result = .Success then some a.txn else none

def applied (journal : List (Attempt B)) : List (STTx B) := journal.filterMap Attempt.applied?

section Build

variable (sem : Semantics V B)

structure Building (V B : Type) where
  txns : CanonicalTXSet B
  failed : Finset Nat
  view : V
  changes : Nat := 0
  journal : List (Attempt B) := []

def attempt (certainRetry : Bool) (s : Building V B) (it : CanonicalTXSet.Key × STTx B) :
    Building V B :=
  let txid := it.1.txId
  let (result, view) := applyTransaction sem s.view it.2 certainRetry tapNONE
  let journal := s.journal ++ [⟨it.2, certainRetry, result⟩]
  match result with
  | .Success => { s with txns := s.txns.erase it.1, view, changes := s.changes + 1, journal }
  | .Fail => { s with failed := insert txid s.failed, txns := s.txns.erase it.1, view, journal }
  | .Retry => { s with view, journal }

variable (txExists : Nat → Except String Bool)

section

variable (pass : Nat) (certainRetry : Bool) (s : Building V B)

def step (it : CanonicalTXSet.Key × STTx B) : Building V B :=
  let txid := it.1.txId
  match if pass = 0 then txExists txid else .ok false with
  | .error _ => { s with failed := insert txid s.failed, txns := s.txns.erase it.1 }
  | .ok true => { s with txns := s.txns.erase it.1 }
  | .ok false => attempt sem certainRetry s it

def runPass : Building V B :=
  s.txns.map.entries.foldl (step sem txExists pass certainRetry) { s with changes := 0 }

end

def runPasses : Nat → Nat → Bool → Nat → Building V B → Nat × Building V B
  | 0, _, _, count, s => (count, s)
  | left + 1, pass, certainRetry, count, s =>
    let s := runPass sem txExists pass certainRetry s
    let count := count + s.changes
    if s.changes = 0 ∧ !certainRetry then (count, s)
    else
      let certainRetry := if s.changes = 0 ∨ ledgerRetryPasses ≤ pass then false else certainRetry
      runPasses left (pass + 1) certainRetry count s

def applyTransactions (txns : CanonicalTXSet B) (failed : Finset Nat) (view : V) :
    Nat × Building V B :=
  runPasses sem txExists ledgerTotalPasses 0 true 0 { txns, failed, view }

def replay (applyFlags : ApplyFlags) (view : V) : List (STTx B) → V × List (Attempt B)
  | [] => (view, [])
  | txn :: orderedTxns =>
    let (result, view) := applyTransaction sem view txn false applyFlags
    let (view, journal) := replay applyFlags view orderedTxns
    (view, ⟨txn, false, result⟩ :: journal)

end Build

end Rippled.BuildLedger
