import Rippled.Basics.BaseUInt
import Rippled.Tx.TER

namespace Rippled.NegativeUNL

open List
open Tx (TER)

def flagLedgerInterval : Nat := 256

def isFlagLedger (seq : Nat) : Bool := seq % flagLedgerInterval == 0

variable (Blob : Type)

structure DisabledValidator where
  publicKey : Option Blob
  firstLedgerSequence : Nat

structure Entry where
  disabledValidators : List (DisabledValidator Blob) := []
  validatorToDisable : Option Blob := none
  validatorToReEnable : Option Blob := none

structure UNLModify where
  unlModifyDisabling : Option UInt8
  ledgerSequence : Option UInt32
  unlModifyValidator : Option Blob
deriving DecidableEq

/-- What is read of a ledger. The hashes of its ancestors are those of its skip list. -/
structure Ledger where
  seq : Nat
  seq_lt : seq < 4294967296
  hash : Uint256
  skip : Option (List Uint256)
  entry : Option (Entry Blob)

variable {Blob}

inductive NegativeUNLModify
  | toDisable
  | toReEnable
deriving DecidableEq

def NegativeUNLModify.code : NegativeUNLModify → UInt8
  | toDisable => 1
  | toReEnable => 0

def Entry.pending (n : Entry Blob) : NegativeUNLModify → Option Blob
  | .toDisable => n.validatorToDisable
  | .toReEnable => n.validatorToReEnable

variable [DecidableEq Blob]

def Entry.keys (n : Entry Blob) : List Blob := n.disabledValidators.filterMap DisabledValidator.publicKey

/-- Fold the changes of the last interval into the list. An entry with nothing left is removed. -/
def updateNegativeUNL (seq : Nat) (entry : Option (Entry Blob)) : Option (Entry Blob) :=
  match entry with
  | none => none
  | some n =>
    if n.validatorToDisable.isNone ∧ n.validatorToReEnable.isNone then some n
    else
      let kept := n.disabledValidators.filter fun v =>
        !(n.validatorToReEnable.isSome && decide (v.publicKey = n.validatorToReEnable))
      let newNUnl := kept ++ n.validatorToDisable.toList.map fun k => ⟨some k, seq⟩
      if newNUnl.isEmpty then none
      else some { disabledValidators := newNUnl }

variable (publicKeyType : Blob → Bool) {seq : Nat} {entry : Option (Entry Blob)}

section

variable (seq entry)

/-- Apply a change to the entry. A transaction that fails leaves the ledger as it was. -/
def applyUNLModify (tx : UNLModify Blob) : TER × Option (Entry Blob) :=
  if !isFlagLedger seq then (.tef .tefFAILURE, entry)
  else
    match tx.unlModifyDisabling, tx.ledgerSequence, tx.unlModifyValidator with
    | some disabling, some txSeq, some validator =>
      if 1 < disabling then (.tef .tefFAILURE, entry)
      else if txSeq.toNat ≠ seq then (.tef .tefFAILURE, entry)
      else if !publicKeyType validator then (.tef .tefFAILURE, entry)
      else
        let n := entry.getD {}
        let found := n.disabledValidators.any fun v => decide (v.publicKey = some validator)
        if disabling ≠ 0 then
          if n.validatorToDisable.isSome then (.tef .tefFAILURE, entry)
          else if n.validatorToReEnable = some validator then (.tef .tefFAILURE, entry)
          else if found then (.tef .tefFAILURE, entry)
          else (.tesSUCCESS, some { n with validatorToDisable := some validator })
        else
          if n.validatorToReEnable.isSome then (.tef .tefFAILURE, entry)
          else if n.validatorToDisable = some validator then (.tef .tefFAILURE, entry)
          else if !found then (.tef .tefFAILURE, entry)
          else (.tesSUCCESS, some { n with validatorToReEnable := some validator })
    | _, _, _ => (.tef .tefFAILURE, entry)

def applyEach (txs : List (UNLModify Blob)) : Option (Entry Blob) :=
  txs.foldl (fun entry tx => (applyUNLModify publicKeyType seq entry tx).2) entry

end

/-- The transactions that succeed when they are applied one after the other. -/
def applied (seq : Nat) : Option (Entry Blob) → List (UNLModify Blob) → List (UNLModify Blob)
  | _, [] => []
  | entry, tx :: txs =>
    let r := applyUNLModify publicKeyType seq entry tx
    if r.1 = .tesSUCCESS then tx :: applied seq r.2 txs else applied seq r.2 txs

def opened (seq : Nat) (entry : Option (Entry Blob)) : Option (Entry Blob) :=
  if isFlagLedger seq then updateNegativeUNL seq entry else entry

/-- The ledgers that are built one on top of the other, with transactions that meet a condition on
the parent. -/
inductive Chain (ok : Ledger Blob → List (UNLModify Blob) → Prop) : Ledger Blob → Prop
  | genesis (l : Ledger Blob) (h : l.entry = none) : Chain ok l
  | next (prev l : Ledger Blob) (txs : List (UNLModify Blob)) (hprev : Chain ok prev)
    (hok : ok prev txs) (hseq : l.seq = prev.seq + 1)
    (h : l.entry = applyEach publicKeyType l.seq (opened l.seq prev.entry) txs) :
    Chain ok l

/-- The disabled list and the changes that are pending agree. -/
structure Consistent (n : Entry Blob) : Prop where
  nodup : n.keys.Nodup
  toDisable : ∀ k, n.validatorToDisable = some k → k ∉ n.keys ∧ n.validatorToReEnable ≠ some k
  toReEnable : ∀ k, n.validatorToReEnable = some k → k ∈ n.keys

omit [DecidableEq Blob] in
theorem consistent_empty : Consistent ({} : Entry Blob) where
  nodup := nodup_nil
  toDisable := by
    intro k h
    cases h
  toReEnable := by
    intro k h
    cases h

theorem keys_kept (toReEnable : Option Blob) (vs : List (DisabledValidator Blob)) :
    (vs.filter fun v => !(toReEnable.isSome && decide (v.publicKey = toReEnable))).filterMap
        DisabledValidator.publicKey =
      (vs.filterMap DisabledValidator.publicKey).filter fun k => decide (toReEnable ≠ some k) := by
  induction vs with
  | nil => rfl
  | cons v vs ih =>
    cases hv : v.publicKey with
    | none =>
      cases toReEnable with
      | none => simp [hv]
      | some r => simpa [hv] using ih
    | some k =>
      cases toReEnable with
      | none => simp [hv]
      | some r =>
        by_cases hk : k = r
        · simpa [hv, hk] using ih
        · simpa [hv, hk, Ne.symm hk] using ih

/-- The list after an update, and nothing is pending any more. -/
theorem updateNegativeUNL_spec (seq : Nat) (entry : Option (Entry Blob)) :
    ((updateNegativeUNL seq entry).getD {}).keys =
        ((entry.getD {}).keys.filter fun k =>
          decide ((entry.getD {}).validatorToReEnable ≠ some k)) ++
        (entry.getD {}).validatorToDisable.toList ∧
      ((updateNegativeUNL seq entry).getD {}).validatorToDisable = none ∧
      ((updateNegativeUNL seq entry).getD {}).validatorToReEnable = none := by
  cases entry with
  | none => exact ⟨rfl, rfl, rfl⟩
  | some n =>
    rw [updateNegativeUNL, Option.getD_some]
    split_ifs with hn
    · rw [Option.isNone_iff_eq_none, Option.isNone_iff_eq_none] at hn
      simp [hn]
    have hk : ((n.disabledValidators.filter fun v =>
          !(n.validatorToReEnable.isSome && decide (v.publicKey = n.validatorToReEnable))) ++
          n.validatorToDisable.toList.map
            fun k => (⟨some k, seq⟩ : DisabledValidator Blob)).filterMap
            DisabledValidator.publicKey =
        (n.keys.filter fun k => decide (n.validatorToReEnable ≠ some k)) ++
          n.validatorToDisable.toList := by
      rw [filterMap_append, keys_kept]
      congr 1
      cases n.validatorToDisable <;> rfl
    dsimp only
    split_ifs with he
    · rw [List.isEmpty_iff] at he
      rw [he, filterMap_nil] at hk
      exact ⟨hk, rfl, rfl⟩
    · exact ⟨hk, rfl, rfl⟩

theorem Consistent.updateNegativeUNL (h : Consistent (entry.getD {})) (seq : Nat) :
    Consistent ((updateNegativeUNL seq entry).getD {}) := by
  obtain ⟨hky, hd, hr⟩ := updateNegativeUNL_spec seq entry
  refine ⟨?_, ?_, ?_⟩
  · rw [hky, nodup_append]
    refine ⟨h.nodup.filter _, ?_, ?_⟩
    · cases (entry.getD {}).validatorToDisable with
      | none => exact nodup_nil
      | some k => exact nodup_singleton k
    · intro a ha b hb hab
      rw [Option.mem_toList] at hb
      exact (h.toDisable b hb).1 (hab ▸ (mem_filter.mp ha).1)
  · intro k hk
    rw [hd] at hk
    cases hk
  · intro k hk
    rw [hr] at hk
    cases hk

section Modify

variable {publicKeyType} {tx : UNLModify Blob}

omit [DecidableEq Blob] in
theorem any_publicKey [DecidableEq Blob] (n : Entry Blob) (k : Blob) :
    (n.disabledValidators.any fun v => decide (v.publicKey = some k)) ↔ k ∈ n.keys := by
  simp [Entry.keys]

variable (publicKeyType) (seq) (entry) (tx) in
inductive Modified : TER × Option (Entry Blob) → Prop
  | failed : Modified (.tef .tefFAILURE, entry)
  | disable (k : Blob) (hflag : isFlagLedger seq) (htx : tx.unlModifyDisabling = some 1)
    (hvalidator : tx.unlModifyValidator = some k)
    (hnone : (entry.getD {}).validatorToDisable = none)
    (hother : (entry.getD {}).validatorToReEnable ≠ some k) (hkey : k ∉ (entry.getD {}).keys) :
    Modified (.tesSUCCESS, some { entry.getD {} with validatorToDisable := some k })
  | reEnable (k : Blob) (hflag : isFlagLedger seq) (htx : tx.unlModifyDisabling = some 0)
    (hvalidator : tx.unlModifyValidator = some k)
    (hnone : (entry.getD {}).validatorToReEnable = none)
    (hother : (entry.getD {}).validatorToDisable ≠ some k) (hkey : k ∈ (entry.getD {}).keys) :
    Modified (.tesSUCCESS, some { entry.getD {} with validatorToReEnable := some k })

theorem modified_applyUNLModify :
    Modified seq entry tx (applyUNLModify publicKeyType seq entry tx) := by
  unfold applyUNLModify
  split_ifs with hfl
  · exact .failed
  have hfl : isFlagLedger seq := by simpa using hfl
  split
  · rename_i disabling txSeq k hd _ hv
    split
    · exact .failed
    rename_i hle
    split
    · exact .failed
    split
    · exact .failed
    dsimp only
    split
    · rename_i hnn
      have hone : disabling = 1 := by
        rw [UInt8.not_lt, UInt8.le_iff_toNat_le] at hle
        apply UInt8.toNat_inj.mp
        have hpos : disabling.toNat ≠ 0 := fun h => hnn (UInt8.toNat_inj.mp h)
        simp at hle ⊢
        omega
      split
      · exact .failed
      rename_i hn
      split
      · exact .failed
      rename_i ho
      split_ifs with hf
      · exact .failed
      · rw [any_publicKey] at hf
        exact .disable k hfl (hone ▸ hd) hv (by simpa using hn) ho
          hf
    · rename_i hz
      have hz : disabling = 0 := by simpa using hz
      split
      · exact .failed
      rename_i hn
      split
      · exact .failed
      rename_i ho
      split_ifs with hf
      · exact .failed
      · rw [Bool.not_eq_true', Bool.not_eq_false, any_publicKey] at hf
        exact .reEnable k hfl (hz ▸ hd) hv (by simpa using hn) ho
          hf
  · exact .failed

/-- A transaction for the ledger it is applied in, which has to be a flag ledger. -/
structure Addressed (publicKeyType : Blob → Bool) (seq : Nat) (disabling : UInt8) (k : Blob)
    (tx : UNLModify Blob) : Prop where
  flag : isFlagLedger seq
  disabling : tx.unlModifyDisabling = some disabling
  seq : ∃ s : UInt32, tx.ledgerSequence = some s ∧ s.toNat = seq
  validator : tx.unlModifyValidator = some k
  type : publicKeyType k

variable {k : Blob}

theorem applyUNLModify_disable (h : Addressed publicKeyType seq 1 k tx)
    (hn : (entry.getD {}).validatorToDisable = none)
    (ho : (entry.getD {}).validatorToReEnable ≠ some k) (hkey : k ∉ (entry.getD {}).keys) :
    (applyUNLModify publicKeyType seq entry tx).1 = .tesSUCCESS := by
  obtain ⟨s, hs, hseq⟩ := h.seq
  have hf : ¬ ((entry.getD {}).disabledValidators.any
      fun v => decide (v.publicKey = some k)) := by
    rw [any_publicKey]
    exact hkey
  simp [applyUNLModify, h.flag, h.disabling, hs, hseq, h.validator, h.type, hn, ho, hf]

theorem applyUNLModify_reEnable (h : Addressed publicKeyType seq 0 k tx)
    (hn : (entry.getD {}).validatorToReEnable = none)
    (ho : (entry.getD {}).validatorToDisable ≠ some k) (hkey : k ∈ (entry.getD {}).keys) :
    (applyUNLModify publicKeyType seq entry tx).1 = .tesSUCCESS := by
  obtain ⟨s, hs, hseq⟩ := h.seq
  have hf : ((entry.getD {}).disabledValidators.any
      fun v => decide (v.publicKey = some k)) := by
    rw [any_publicKey]
    exact hkey
  simp [applyUNLModify, h.flag, h.disabling, hs, hseq, h.validator, h.type, hn, ho, hf]

section

omit [DecidableEq Blob]

theorem Consistent.modified {r : TER × Option (Entry Blob)} (h : Consistent (entry.getD {}))
    (hr : Modified seq entry tx r) : Consistent (r.2.getD {}) := by
  cases hr with
  | failed => exact h
  | disable k hf htx hv hn ho hkey =>
    refine ⟨h.nodup, ?_, h.toReEnable⟩
    intro k' hk'
    cases hk'
    exact ⟨hkey, ho⟩
  | reEnable k hf htx hv hn ho hkey =>
    refine ⟨h.nodup, ?_, ?_⟩
    · intro k' hk'
      refine ⟨(h.toDisable k' hk').1, ?_⟩
      intro heq
      cases heq
      exact ho hk'
    · intro k' hk'
      cases hk'
      exact hkey

theorem Modified.keys {r : TER × Option (Entry Blob)} (hr : Modified seq entry tx r) :
    (r.2.getD {}).keys = (entry.getD {}).keys := by
  cases hr <;> rfl

theorem Modified.pending {r : TER × Option (Entry Blob)} (hr : Modified seq entry tx r)
    {modify : NegativeUNLModify} {k : Blob} (h : (r.2.getD {}).pending modify = some k) :
    (entry.getD {}).pending modify = some k ∨ r.1 = .tesSUCCESS ∧
      tx.unlModifyDisabling = some modify.code ∧ tx.unlModifyValidator = some k := by
  cases hr with
  | failed => exact .inl h
  | disable k' hf htx hv hn ho hkey =>
    cases modify with
    | toDisable => exact .inr ⟨rfl, htx, hv.trans h⟩
    | toReEnable => exact .inl h
  | reEnable k' hf htx hv hn ho hkey =>
    cases modify with
    | toDisable => exact .inl h
    | toReEnable => exact .inr ⟨rfl, htx, hv.trans h⟩

end

theorem keys_applyEach (txs : List (UNLModify Blob)) :
    ((applyEach publicKeyType seq entry txs).getD {}).keys = (entry.getD {}).keys := by
  induction txs generalizing entry with
  | nil => rfl
  | cons tx txs ih => exact ih.trans modified_applyUNLModify.keys

variable {txs : List (UNLModify Blob)}

theorem pending_applyEach {modify : NegativeUNLModify}
    (h : ((applyEach publicKeyType seq entry txs).getD {}).pending modify = some k) :
    (entry.getD {}).pending modify = some k ∨ ∃ tx ∈ applied publicKeyType seq entry txs,
      tx.unlModifyDisabling = some modify.code ∧ tx.unlModifyValidator = some k := by
  induction txs generalizing entry with
  | nil => exact .inl h
  | cons tx txs ih =>
    have hs : Modified seq entry tx (applyUNLModify publicKeyType seq entry tx) :=
      modified_applyUNLModify
    change ((applyEach publicKeyType seq (applyUNLModify publicKeyType seq entry tx).2 txs).getD
      {}).pending modify = some k at h
    rw [applied]
    generalize applyUNLModify publicKeyType seq entry tx = r at hs h ⊢
    have hsub : ∀ tx' ∈ applied publicKeyType seq r.2 txs, tx' ∈
        if r.1 = .tesSUCCESS then tx :: applied publicKeyType seq r.2 txs
        else applied publicKeyType seq r.2 txs := by
      intro tx' htx'
      split
      · exact mem_cons_of_mem _ htx'
      · exact htx'
    obtain hr | ⟨tx', htx', hf⟩ := ih h
    · obtain hb | ⟨hter, hf⟩ := hs.pending hr
      · exact .inl hb
      · refine .inr ⟨tx, ?_, hf⟩
        rw [if_pos hter]
        exact mem_cons_self
    · exact .inr ⟨tx', hsub tx' htx', hf⟩

theorem pending_applyEach_eq_none (modify : NegativeUNLModify)
    (hn : (entry.getD {}).pending modify = none)
    (h : ∀ tx ∈ applied publicKeyType seq entry txs, tx.unlModifyDisabling ≠ some modify.code) :
    ((applyEach publicKeyType seq entry txs).getD {}).pending modify = none := by
  rw [Option.eq_none_iff_forall_ne_some]
  intro k hk
  obtain hk | ⟨tx, htx, hkn, -⟩ := pending_applyEach hk
  · rw [hn] at hk
    cases hk
  · exact h tx htx hkn

theorem applyEach_of_not_flag (hf : isFlagLedger seq = false) (txs : List (UNLModify Blob)) :
    applyEach publicKeyType seq entry txs = entry := by
  induction txs with
  | nil => rfl
  | cons tx txs ih =>
    have hfl : applyUNLModify publicKeyType seq entry tx = (.tef .tefFAILURE, entry) := by
      rw [applyUNLModify, hf]
      rfl
    rw [applyEach, foldl_cons, hfl]
    exact ih

theorem Consistent.applyEach (h : Consistent (entry.getD {})) (txs : List (UNLModify Blob)) :
    Consistent ((applyEach publicKeyType seq entry txs).getD {}) := by
  induction txs generalizing entry with
  | nil => exact h
  | cons tx txs ih => exact ih (h.modified modified_applyUNLModify)

theorem Consistent.opened (h : Consistent (entry.getD {})) (seq : Nat) :
    Consistent ((opened seq entry).getD {}) := by
  unfold NegativeUNL.opened
  split
  · exact h.updateNegativeUNL seq
  · exact h

theorem Chain.consistent {ok : Ledger Blob → List (UNLModify Blob) → Prop} {l : Ledger Blob}
    (h : Chain publicKeyType ok l) : Consistent (l.entry.getD {}) := by
  induction h with
  | genesis l h =>
    rw [h]
    exact consistent_empty
  | next prev l txs hp hok hseq h ih =>
    rw [h]
    exact (ih.opened l.seq).applyEach txs

end Modify

end Rippled.NegativeUNL
