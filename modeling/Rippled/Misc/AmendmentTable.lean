import Rippled.Lib.HashMap
import Rippled.Basics.BaseUInt
import Mathlib.Algebra.GroupWithZero.Nat

namespace Rippled.AmendmentTable

open Lib List

/-- What the vote reads of a validation. Any vector may stand in the amendments field. -/
structure STValidation where
  isTrusted : Bool
  amendments : Option (List Uint256)

structure Rules where
  fixAmendmentMajorityCalc : Bool

def preFixAmendmentMajorityCalcThreshold : Nat × Nat := (51, 64)

def postFixAmendmentMajorityCalcThreshold : Nat × Nat := (4, 5)

abbrev Votes := HashMap Uint256 Nat

structure AmendmentSet where
  votes : Votes
  rules : Rules
  trustedValidations : Nat
  threshold : Nat

def countVote (votes : Votes) (amendment : Uint256) : Votes :=
  votes.insert amendment ((votes.lookup amendment).getD 0 + 1)

def choices (val : STValidation) : List Uint256 := val.amendments.getD []

/-- Take a validation into account: one vote for each entry of its vector. -/
def countValidation (s : Votes × Nat) (val : STValidation) : Votes × Nat :=
  if val.isTrusted then ((choices val).foldl countVote s.1, s.2 + 1) else s

def AmendmentSet.new (rules : Rules) (valSet : List STValidation) : AmendmentSet :=
  let (votes, trustedValidations) := valSet.foldl countValidation (∅, 0)
  let ratio :=
    if !rules.fixAmendmentMajorityCalc then preFixAmendmentMajorityCalcThreshold
    else postFixAmendmentMajorityCalcThreshold
  { votes, rules, trustedValidations
    threshold := max 1 (trustedValidations * ratio.1 / ratio.2) }

def AmendmentSet.passes (s : AmendmentSet) (amendment : Uint256) : Bool :=
  match s.votes.lookup amendment with
  | none => false
  | some n =>
    -- one validator is an exception, otherwise it could not gain a majority
    if !s.rules.fixAmendmentMajorityCalc || s.trustedValidations == 1 then
      decide (s.threshold ≤ n)
    else decide (s.threshold < n)

def tfGotMajority : UInt32 := 0x00010000
def tfLostMajority : UInt32 := 0x00020000

structure AmendmentState where
  vetoed : Bool

/-- What a vote is held with besides the validations: the amendments the server knows of, the time
a majority must hold, and what the last closed ledger says. -/
structure Table where
  amendmentMap : HashMap Uint256 AmendmentState
  majorityTime : Nat
  closeTime : Nat
  enabledAmendments : Finset Uint256
  majorityAmendments : HashMap Uint256 Nat

/-- The flags of the pseudo-transaction for an amendment, if there is to be one. -/
def action (t : Table) (vote : AmendmentSet) (amendment : Uint256) (state : AmendmentState) :
    Option UInt32 :=
  let hasValMajority := vote.passes amendment
  let majorityTime := (t.majorityAmendments.lookup amendment).getD 0
  if amendment ∈ t.enabledAmendments then none
  else if hasValMajority ∧ majorityTime = 0 ∧ !state.vetoed then some tfGotMajority
  else if !hasValMajority ∧ majorityTime ≠ 0 then some tfLostMajority
  else if majorityTime ≠ 0 ∧ majorityTime + t.majorityTime ≤ t.closeTime ∧ !state.vetoed then some 0
  else none

section

variable (t : Table) (rules : Rules) (valSet : List STValidation)

def doVoting : HashMap Uint256 UInt32 :=
  let vote := AmendmentSet.new rules valSet
  HashMap.mapValues (fun amendment state => (action t vote amendment state).getD 0)
    (HashMap.filter (fun amendment state => (action t vote amendment state).isSome) t.amendmentMap)

theorem lookup_doVoting (a : Uint256) : (doVoting t rules valSet).lookup a =
      (t.amendmentMap.lookup a).bind (action t (AmendmentSet.new rules valSet) a) := by
  rw [doVoting, HashMap.lookup_mapValues, HashMap.lookup_filter]
  cases t.amendmentMap.lookup a with
  | none => rfl
  | some state =>
    cases h : action t (AmendmentSet.new rules valSet) a state with
    | none => simp [h]
    | some flags => simp [h]

end

theorem action_of_not_passes {t : Table} {vote : AmendmentSet} {a : Uint256} {state : AmendmentState}
    {flags : UInt32} (h : vote.passes a = false) (hact : action t vote a state = some flags) :
    flags = tfLostMajority := by
  simp only [action, h] at hact
  split at hact
  · cases hact
  split at hact
  · rename_i hmaj
    exact absurd hmaj.1 Bool.false_ne_true
  split at hact
  · exact (Option.some.inj hact).symm
  rename_i hl
  split at hact
  · rename_i hh
    exact absurd ⟨rfl, hh.1⟩ hl
  · cases hact

section

variable (valSet : List STValidation)

def trusted : List STValidation :=
  valSet.filter (·.isTrusted)

def voters (a : Uint256) : Nat :=
  (trusted valSet).countP fun val => (choices val).contains a

def entries (a : Uint256) : Nat :=
  ((trusted valSet).map fun val => (choices val).count a).sum

theorem lookup_countVotes (l : List Uint256) (votes : Votes) (a : Uint256) :
    ((l.foldl countVote votes).lookup a).getD 0 = (votes.lookup a).getD 0 + l.count a := by
  induction l generalizing votes with
  | nil => rfl
  | cons b l ih =>
    rw [foldl_cons, ih, countVote, HashMap.lookup_insert_eq, count_cons]
    by_cases hab : a = b
    · subst hab
      simp only [if_pos, beq_self_eq_true, Option.getD_some]
      omega
    · have hba : (b == a) = false := by simpa using Ne.symm hab
      rw [if_neg hab, hba]
      rfl

theorem countValidations (s : Votes × Nat) (a : Uint256) :
    (((valSet.foldl countValidation s).1).lookup a).getD 0 =
        (s.1.lookup a).getD 0 + entries valSet a ∧
      (valSet.foldl countValidation s).2 = s.2 + (trusted valSet).length := by
  induction valSet generalizing s with
  | nil => exact ⟨rfl, rfl⟩
  | cons val valSet ih =>
    obtain ⟨hv, hc⟩ := ih (countValidation s val)
    rw [foldl_cons, hv, hc]
    cases ht : val.isTrusted with
    | false => simp [countValidation, ht, entries, trusted]
    | true =>
      simp only [countValidation, ht, if_true, lookup_countVotes, entries, trusted,
        filter_cons_of_pos, map_cons, sum_cons, length_cons]
      omega

end

section Fixed

variable {rules : Rules} (hfix : rules.fixAmendmentMajorityCalc)
include hfix

variable {valSet : List STValidation}

theorem passes_iff_entries (hn : 2 ≤ (trusted valSet).length) (a : Uint256) :
    (AmendmentSet.new rules valSet).passes a ↔
      4 * (trusted valSet).length < 5 * entries valSet a := by
  obtain ⟨hv, hc⟩ := countValidations valSet (∅, 0) a
  have hone : (0 + (trusted valSet).length == 1) = false := by
    rw [beq_eq_false_iff_ne]
    omega
  simp only [AmendmentSet.passes, AmendmentSet.new, hfix, hc, hone,
    postFixAmendmentMajorityCalcThreshold] at hv ⊢
  rw [Finmap.lookup_empty, Option.getD_none, Nat.zero_add] at hv
  cases hl : ((valSet.foldl countValidation (∅, 0)).1).lookup a with
  | none =>
    rw [hl, Option.getD_none] at hv
    simp only [Bool.false_eq_true, false_iff]
    omega
  | some n =>
    rw [hl, Option.getD_some] at hv
    simp only [Bool.not_true, Bool.false_or, Bool.false_eq_true, if_false, decide_eq_true_eq]
    omega

/-- What the rule asks of a vote: an amendment passes when more than 80% of the trusted validators
name it, and without that it is neither proposed nor activated. -/
def CountsValidators (rules : Rules) (valSet : List STValidation) (a : Uint256) : Prop :=
  ((AmendmentSet.new rules valSet).passes a ↔
      4 * (trusted valSet).length < 5 * voters valSet a) ∧
    (5 * voters valSet a ≤ 4 * (trusted valSet).length → ∀ t : Table,
      (doVoting t rules valSet).lookup a ≠ some tfGotMajority ∧
        (doVoting t rules valSet).lookup a ≠ some 0)

section

omit hfix

theorem voters_le_entries (valSet : List STValidation) (a : Uint256) :
    voters valSet a ≤ entries valSet a := by
  unfold voters entries
  induction trusted valSet with
  | nil => exact Nat.le_refl 0
  | cons val l ih =>
    rw [countP_cons, map_cons, sum_cons]
    cases ha : (choices val).contains a with
    | true =>
      have hpos := count_pos_iff.mpr (contains_iff_mem.mp ha)
      simp only [if_true]
      omega
    | false =>
      simp only [Bool.false_eq_true, if_false]
      omega

theorem doVoting_of_not_passes (t : Table) {a : Uint256}
    (h : (AmendmentSet.new rules valSet).passes a = false) :
    (doVoting t rules valSet).lookup a ≠ some tfGotMajority ∧
      (doVoting t rules valSet).lookup a ≠ some 0 := by
  have hl : ∀ flags, (doVoting t rules valSet).lookup a = some flags → flags = tfLostMajority := by
    intro flags hf
    rw [lookup_doVoting] at hf
    obtain ⟨state, -, hact⟩ := Option.bind_eq_some_iff.mp hf
    exact action_of_not_passes h hact
  constructor
  · intro hgot
    exact absurd (hl _ hgot) (by decide)
  · intro hz
    exact absurd (hl _ hz) (by decide)

end

/-- Validators are what is counted as long as repeated entries do not lift an amendment over the
threshold. -/
theorem countsValidators_iff {valSet : List STValidation} (hn : 2 ≤ (trusted valSet).length)
    (a : Uint256) :
    CountsValidators rules valSet a ↔
      4 * (trusted valSet).length < 5 * voters valSet a ∨
        5 * entries valSet a ≤ 4 * (trusted valSet).length := by
  have hpass := passes_iff_entries hfix hn a
  have hle := voters_le_entries valSet a
  constructor
  · intro h
    by_contra hnot
    rw [not_or, not_lt, not_le] at hnot
    have hvoters := h.1.mp (hpass.mpr hnot.2)
    omega
  · intro h
    refine ⟨by rw [hpass]; omega, ?_⟩
    intro hfew t
    apply doVoting_of_not_passes
    rw [← Bool.not_eq_true, hpass]
    omega

end Fixed

/-- Five trusted validators, of whom one names an amendment `n` times. -/
def oneOfFive (n : Nat) : List STValidation :=
  ⟨true, some (List.replicate n 0)⟩ :: List.replicate 4 ⟨true, none⟩

theorem countsValidators_oneOfFive : CountsValidators ⟨true⟩ (oneOfFive 1) 0 :=
  (countsValidators_iff rfl (by decide) 0).mpr (by decide +kernel)

/-- A server that does not veto the amendment, at a ledger that records no majority for it. -/
def openTable : Table := ⟨Finmap.singleton 0 ⟨false⟩, 10, 100, ∅, ∅⟩

/-- One validator of five gives an amendment the majority by naming it five times. -/
theorem oneOfFive_gotMajority :
    voters (oneOfFive 5) 0 = 1 ∧ (trusted (oneOfFive 5)).length = 5 ∧
      (AmendmentSet.new ⟨true⟩ (oneOfFive 5)).passes 0 ∧
      (doVoting openTable ⟨true⟩ (oneOfFive 5)).lookup 0 = some tfGotMajority := by
  have hpass : (AmendmentSet.new ⟨true⟩ (oneOfFive 5)).passes 0 :=
    (passes_iff_entries rfl (by decide) 0).mpr (by decide +kernel)
  refine ⟨by decide +kernel, rfl, hpass, ?_⟩
  rw [lookup_doVoting]
  simp [openTable, Finmap.lookup_singleton_eq, action, hpass]

end Rippled.AmendmentTable
