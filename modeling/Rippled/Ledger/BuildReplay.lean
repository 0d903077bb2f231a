import Rippled.Ledger.BuildLedger
import Rippled.Tx.NoReplay

namespace Rippled.BuildLedger

open Lib Tx List

variable {retryAssured : Bool}

section Attempts

variable {V B : Type} {sem : Semantics V B} {view view' : V} {txn : STTx B} {flags : ApplyFlags}

theorem resultOf_eq_success {r : Except String (TER × Bool)} :
    resultOf r = .Success ↔ wasApplied r := by
  obtain _ | ⟨ter, _ | _⟩ := r
  · simp [resultOf, wasApplied]
  · simp only [resultOf, wasApplied, Bool.false_eq_true, if_false, iff_false]
    split <;> simp
  · simp [resultOf, wasApplied]

theorem applyTransaction_final
    (h : applyTransaction sem view txn retryAssured flags = (.Success, view')) :
    applyTransaction sem view txn false flags = (.Success, view') := by
  cases retryAssured with
  | false => exact h
  | true =>
    have hr : resultOf (sem.apply view txn { flags with tapRETRY := true }).1 = .Success :=
      congrArg Prod.fst h
    rcases sem.retry view txn flags with heq | hnot
    · rw [← h, applyTransaction, applyTransaction, if_pos rfl, heq]
      rfl
    · rw [resultOf_eq_success, hnot] at hr
      cases hr

theorem applyTransaction_unapplied
    (h : (applyTransaction sem view txn retryAssured flags).1 ≠ .Success) :
    (applyTransaction sem view txn retryAssured flags).2 = view := by
  apply sem.unapplied
  rw [← Bool.not_eq_true, ← resultOf_eq_success]
  exact h

theorem replay_append (txns txns' : List (STTx B)) : replay sem flags view (txns ++ txns') =
      ((replay sem flags (replay sem flags view txns).1 txns').1,
        (replay sem flags view txns).2 ++ (replay sem flags (replay sem flags view txns).1 txns').2) := by
  induction txns generalizing view with
  | nil => rfl
  | cons txn txns ih =>
    simp only [cons_append, replay, ih]

@[simp] theorem applied_append (journal journal' : List (Attempt B)) :
    applied (journal ++ journal') = applied journal ++ applied journal' :=
  filterMap_append

@[simp] theorem applied_success (txn : STTx B) (retryAssured : Bool) :
    applied [⟨txn, retryAssured, .Success⟩] = [txn] := rfl

theorem applied_not_success {result : ApplyResult} (h : result ≠ .Success) (txn : STTx B)
    (retryAssured : Bool) : applied [⟨txn, retryAssured, result⟩] = [] := by
  simp [applied, Attempt.applied?, h]

end Attempts

variable {failed : Finset Nat} {txExists : Nat → Except String Bool}

section Steps

variable {V B : Type} {sem : Semantics V B} {pass : Nat} {certainRetry : Bool} {s : Building V B}
  {txn : STTx B}

def Building.without (s : Building V B) (txn : STTx B) : CanonicalTXSet B :=
  s.txns.erase (CanonicalTXSet.keyOf s.txns.salt txn)

inductive Visited (sem : Semantics V B) (txExists : Nat → Except String Bool) (pass : Nat)
    (certainRetry : Bool) (s : Building V B) (txn : STTx B) : Building V B → Prop
  | unreadable (hpass : pass = 0) {e : String} (herror : txExists txn.id = .error e) :
    Visited sem txExists pass certainRetry s txn
      { s with failed := insert txn.id s.failed, txns := s.without txn }
  | existing (hpass : pass = 0) (hexists : txExists txn.id = .ok true) :
    Visited sem txExists pass certainRetry s txn { s with txns := s.without txn }
  | success (hnew : pass = 0 → txExists txn.id = .ok false) {view : V}
    (happly : applyTransaction sem s.view txn certainRetry tapNONE = (.Success, view)) :
    Visited sem txExists pass certainRetry s txn
      { s with
        txns := s.without txn, view, changes := s.changes + 1
        journal := s.journal ++ [⟨txn, certainRetry, .Success⟩] }
  | fail (hnew : pass = 0 → txExists txn.id = .ok false) :
    Visited sem txExists pass certainRetry s txn
      { s with
        failed := insert txn.id s.failed, txns := s.without txn
        journal := s.journal ++ [⟨txn, certainRetry, .Fail⟩] }
  | retry (hnew : pass = 0 → txExists txn.id = .ok false) :
    Visited sem txExists pass certainRetry s txn
      { s with journal := s.journal ++ [⟨txn, certainRetry, .Retry⟩] }

theorem step_visited (s : Building V B) (txn : STTx B) :
    Visited sem txExists pass certainRetry s txn
      (step sem txExists pass certainRetry s (CanonicalTXSet.keyOf s.txns.salt txn, txn)) := by
  have ha (hnew : pass = 0 → txExists txn.id = .ok false) :
      Visited sem txExists pass certainRetry s txn
        (attempt sem certainRetry s (CanonicalTXSet.keyOf s.txns.salt txn, txn)) := by
    have hv : (applyTransaction sem s.view txn certainRetry tapNONE).1 ≠ .Success →
        (applyTransaction sem s.view txn certainRetry tapNONE).2 = s.view :=
      applyTransaction_unapplied
    rw [attempt]
    cases hap : applyTransaction sem s.view txn certainRetry tapNONE with
    | mk result view =>
      rw [hap] at hv
      cases result with
      | Success => exact .success hnew hap
      | Fail =>
        rw [show view = s.view from hv (by simp)]
        exact .fail hnew
      | Retry =>
        rw [show view = s.view from hv (by simp)]
        exact .retry hnew
  rw [step]
  by_cases hp : pass = 0
  · rw [if_pos hp]
    cases hf : txExists txn.id with
    | error e =>
      simp only [CanonicalTXSet.keyOf, hf]
      exact .unreadable hp hf
    | ok found =>
      simp only [CanonicalTXSet.keyOf, hf]
      cases found with
      | true => exact .existing hp hf
      | false => exact ha (fun _ => hf)
  · rw [if_neg hp]
    exact ha (fun h => absurd h hp)

/-- Where the transactions of the original set are, after some of them were visited. -/
structure Tracked (sem : Semantics V B) (txExists : Nat → Except String Bool)
    (txns : CanonicalTXSet B) (view : V) (count : Nat) (s : Building V B) : Prop where
  left : ∀ txn ∈ s.txns, txn ∈ txns ∧ txn ∉ applied s.journal ∧ txn.id ∉ s.failed
  success : ∀ txn ∈ applied s.journal,
    txn ∈ txns ∧ txn.id ∉ s.failed ∧ txExists txn.id = .ok false
  failed : ∀ txn ∈ txns, txn.id ∈ s.failed → txExists txn.id ≠ .ok true
  gone : ∀ txn ∈ txns, txn ∈ s.txns ∨ txn ∈ applied s.journal ∨ txn.id ∈ s.failed ∨
    txExists txn.id = .ok true
  nodup : (applied s.journal).Nodup
  counted : (applied s.journal).length = count + s.changes
  replays : replay sem tapNONE view (applied s.journal) =
    (s.view, (applied s.journal).map fun txn => ⟨txn, false, .Success⟩)

def Distinct (txns : CanonicalTXSet B) : Prop :=
  ∀ txn ∈ txns, ∀ txn' ∈ txns, txn.id = txn'.id → txn = txn'

variable {txns : CanonicalTXSet B} {view : V} {count : Nat} {s' : Building V B}

namespace Tracked

theorem init (txns : CanonicalTXSet B) (hf : ∀ txn ∈ txns, txn.id ∉ failed) (view : V) :
    Tracked sem txExists txns view 0 { txns, failed, view } where
  left txn hmem := ⟨hmem, by simp [applied], hf txn hmem⟩
  success txn hmem := by simp [applied] at hmem
  failed txn hmem h := absurd h (hf txn hmem)
  gone txn hmem := .inl hmem
  nodup := by simp [applied]
  counted := by simp [applied]
  replays := rfl

section

variable (h : Tracked sem txExists txns view count s)

include h

/-- Taking a transaction out of the set because it failed. -/
theorem fail (hd : Distinct txns)
    (hmem : txn ∈ s.txns) (hnew : txExists txn.id ≠ .ok true) (journal : List (Attempt B))
    (hj : applied journal = applied s.journal) : Tracked sem txExists txns view count
      { s with failed := insert txn.id s.failed, txns := s.without txn, journal } where
  left t ht := by
    obtain ⟨ht, hne⟩ := (CanonicalTXSet.mem_erase hmem).mp ht
    obtain ⟨htx, ha, hf⟩ := h.left t ht
    refine ⟨htx, hj ▸ ha, ?_⟩
    rw [Finset.mem_insert, not_or]
    exact ⟨fun hid => hne (hd t htx txn (h.left txn hmem).1 hid), hf⟩
  success t ht := by
    rw [hj] at ht
    obtain ⟨htx, hf, he⟩ := h.success t ht
    refine ⟨htx, ?_, he⟩
    rw [Finset.mem_insert, not_or]
    refine ⟨fun hid => ?_, hf⟩
    have heq : t = txn := hd t htx txn (h.left txn hmem).1 hid
    exact (h.left txn hmem).2.1 (heq ▸ ht)
  failed t ht hf := by
    rcases Finset.mem_insert.mp hf with hid | hf
    · rw [hid]
      exact hnew
    · exact h.failed t ht hf
  gone t ht := by
    rw [hj]
    by_cases heq : t = txn
    · exact .inr (.inr (.inl (by simp [heq])))
    rcases h.gone t ht with hl | ha | hf | he
    · exact .inl ((CanonicalTXSet.mem_erase hmem).mpr ⟨hl, heq⟩)
    · exact .inr (.inl ha)
    · exact .inr (.inr (.inl (Finset.mem_insert_of_mem hf)))
    · exact .inr (.inr (.inr he))
  nodup := by
    rw [hj]
    exact h.nodup
  counted := by
    rw [hj]
    exact h.counted
  replays := by
    rw [hj]
    exact h.replays

theorem existing (hmem : txn ∈ s.txns) (he : txExists txn.id = .ok true) :
    Tracked sem txExists txns view count { s with txns := s.without txn } where
  left t ht := h.left t ((CanonicalTXSet.mem_erase hmem).mp ht).1
  success := h.success
  failed := h.failed
  gone t ht := by
    by_cases heq : t = txn
    · exact .inr (.inr (.inr (heq ▸ he)))
    · exact (h.gone t ht).imp_left (fun hl => (CanonicalTXSet.mem_erase hmem).mpr ⟨hl, heq⟩)
  nodup := h.nodup
  counted := h.counted
  replays := h.replays

/-- Applying a transaction of the set. -/
theorem apply (hmem : txn ∈ s.txns)
    (hnew : txExists txn.id = .ok false) {view' : V} (hap : applyTransaction sem s.view txn
      certainRetry tapNONE = (.Success, view')) : Tracked sem txExists txns view count
      { s with
        txns := s.without txn, view := view', changes := s.changes + 1
        journal := s.journal ++ [⟨txn, certainRetry, .Success⟩] } where
  left t ht := by
    obtain ⟨ht, hne⟩ := (CanonicalTXSet.mem_erase hmem).mp ht
    obtain ⟨htx, ha, hf⟩ := h.left t ht
    exact ⟨htx, by simp [ha, hne], hf⟩
  success t ht := by
    simp only [applied_append, applied_success, mem_append, mem_singleton] at ht
    rcases ht with ht | rfl
    · exact h.success t ht
    · exact ⟨(h.left t hmem).1, (h.left t hmem).2.2, hnew⟩
  failed := h.failed
  gone t ht := by
    simp only [applied_append, applied_success, mem_append, mem_singleton]
    by_cases heq : t = txn
    · exact .inr (.inl (.inr heq))
    rcases h.gone t ht with hl | ha | hr
    · exact .inl ((CanonicalTXSet.mem_erase hmem).mpr ⟨hl, heq⟩)
    · exact .inr (.inl (.inl ha))
    · exact .inr (.inr hr)
  nodup := by
    rw [applied_append, applied_success, nodup_append]
    refine ⟨h.nodup, by simp, ?_⟩
    intro t ht t' ht' heq
    rw [mem_singleton.mp ht'] at heq
    exact (h.left txn hmem).2.1 (heq ▸ ht)
  counted := by
    have hc := h.counted
    simp only [applied_append, applied_success, length_append, length_singleton]
    omega
  replays := by
    have hfn := applyTransaction_final hap
    rw [applied_append, applied_success, replay_append, h.replays]
    simp [replay, hfn]

theorem retry : Tracked sem txExists txns view count
      { s with journal := s.journal ++ [⟨txn, certainRetry, .Retry⟩] } := by
  have hj : applied (s.journal ++ [⟨txn, certainRetry, .Retry⟩]) = applied s.journal := by
    simp [applied_not_success]
  constructor <;> simp only [hj]
  · exact h.left
  · exact h.success
  · exact h.failed
  · exact h.gone
  · exact h.nodup
  · exact h.counted
  · exact h.replays

theorem visited (hd : Distinct txns)
    (hmem : txn ∈ s.txns) (hl : pass ≠ 0 → txExists txn.id = .ok false)
    (hv : Visited sem txExists pass certainRetry s txn s') :
    Tracked sem txExists txns view count s' := by
  have hf : (pass = 0 → txExists txn.id = .ok false) → txExists txn.id = .ok false := by
    intro hnew
    by_cases hp : pass = 0
    · exact hnew hp
    · exact hl hp
  cases hv with
  | unreadable hp he => exact h.fail hd hmem (by simp [he]) s.journal rfl
  | existing hp hes => exact h.existing hmem hes
  | success hnew ha => exact h.apply hmem (hf hnew) ha
  | fail hnew => exact h.fail hd hmem (by simp [hf hnew]) _ (by simp [applied_not_success])
  | retry hnew => exact h.retry

end

end Tracked

namespace Visited

section

variable (h : Visited sem txExists pass certainRetry s txn s')

include h

theorem salt_eq : s'.txns.salt = s.txns.salt := by
  cases h <;> rfl

theorem mem_iff (hmem : txn ∈ s.txns) {t : STTx B} (hne : t ≠ txn) : t ∈ s'.txns ↔ t ∈ s.txns := by
  have he : t ∈ s.without txn ↔ t ∈ s.txns := by
    rw [Building.without, CanonicalTXSet.mem_erase hmem, and_iff_left hne]
  cases h with
  | retry => rfl
  | _ => exact he

theorem tried (hmem : txn ∈ s.txns)
    (hl : txn ∈ s'.txns) : ⟨txn, certainRetry, .Retry⟩ ∈ s'.journal ∧
      (pass = 0 → txExists txn.id = .ok false) := by
  have he : txn ∉ s.without txn := fun hin => ((CanonicalTXSet.mem_erase hmem).mp hin).2 rfl
  cases h with
  | retry hnew => exact ⟨by simp, hnew⟩
  | _ => exact absurd hl he

theorem journal_subset : s.journal ⊆ s'.journal := by
  cases h <;> simp

end

end Visited

variable (certainRetry) in
/-- After the visits to some transactions of the set, those of them that are left have been tried. -/
theorem foldl_step (hd : Distinct txns) {es : List (CanonicalTXSet.Key × STTx B)}
    (hes : ∀ e ∈ es, s.txns.map.find? e.1 = some e.2) (hky : (es.map Prod.fst).Nodup)
    (h : Tracked sem txExists txns view count s)
    (hl : pass ≠ 0 → ∀ t ∈ s.txns, txExists t.id = .ok false) :
    let s' := es.foldl (step sem txExists pass certainRetry) s
    Tracked sem txExists txns view count s' ∧ s.journal ⊆ s'.journal ∧
      ∀ t ∈ s'.txns, t ∈ s.txns ∧ (t ∈ es.map Prod.snd →
        ⟨t, certainRetry, .Retry⟩ ∈ s'.journal ∧ (pass = 0 → txExists t.id = .ok false)) := by
  induction es generalizing s with
  | nil => exact ⟨h, fun _ ha => ha, fun t ht => ⟨ht, by simp⟩⟩
  | cons e es ih =>
    obtain ⟨k, txn⟩ := e
    obtain ⟨hk, hky⟩ := nodup_cons.mp hky
    have hf : s.txns.map.find? k = some txn := hes (k, txn) (by simp)
    have hkey := s.txns.keyed k txn hf
    have hmem : txn ∈ s.txns := CanonicalTXSet.mem_of_find? hf
    have hv : Visited sem txExists pass certainRetry s txn
        (step sem txExists pass certainRetry s (k, txn)) := hkey ▸ step_visited s txn
    rw [foldl_cons]
    generalize step sem txExists pass certainRetry s (k, txn) = s₁ at hv ⊢
    have hmem₁ : ∀ t ∈ s₁.txns, t ∈ s.txns := by
      intro t ht
      by_cases heq : t = txn
      · exact heq ▸ hmem
      · exact (hv.mem_iff hmem heq).mp ht
    have hes₁ : ∀ e ∈ es, s₁.txns.map.find? e.1 = some e.2 := by
      intro e he
      have hf' := hes e (mem_cons_of_mem _ he)
      have hne : e.2 ≠ txn := by
        intro heq
        apply hk
        rw [hkey, ← heq, ← s.txns.keyed e.1 e.2 hf']
        exact mem_map_of_mem he
      have hin : e.2 ∈ s₁.txns :=
        (hv.mem_iff hmem hne).mpr (CanonicalTXSet.mem_of_find? hf')
      rw [s.txns.keyed e.1 e.2 hf', ← hv.salt_eq]
      exact hin
    obtain ⟨htr, hj, hlf⟩ := ih hes₁ hky (h.visited hd hmem (fun hp => hl hp txn hmem) hv)
      (fun hp t ht => hl hp t (hmem₁ t ht))
    refine ⟨htr, fun a ha => hj (hv.journal_subset ha), ?_⟩
    intro t ht
    obtain ⟨ht₁, htd⟩ := hlf t ht
    refine ⟨hmem₁ t ht₁, ?_⟩
    intro hin
    rcases mem_cons.mp hin with rfl | hin
    · obtain ⟨hen, hnew⟩ := hv.tried hmem ht₁
      exact ⟨hj hen, hnew⟩
    · exact htd hin

variable (certainRetry) in
theorem runPass_tracked (hd : Distinct txns)
    (h : Tracked sem txExists txns view count { s with changes := 0 })
    (hl : pass ≠ 0 → ∀ t ∈ s.txns, txExists t.id = .ok false) :
    Tracked sem txExists txns view count (runPass sem txExists pass certainRetry s) ∧
      ∀ t ∈ (runPass sem txExists pass certainRetry s).txns,
        ⟨t, certainRetry, .Retry⟩ ∈ (runPass sem txExists pass certainRetry s).journal ∧
          txExists t.id = .ok false := by
  have hes : ∀ e ∈ s.txns.map.entries, { s with changes := 0 }.txns.map.find? e.1 = some e.2 :=
    fun e he => OrdMap.mem_entries_iff.mp he
  obtain ⟨htr, -, hlf⟩ :=
    foldl_step certainRetry hd hes s.txns.map.nodup_keys h hl
  refine ⟨htr, fun t ht => ?_⟩
  obtain ⟨hin, htd⟩ := hlf t ht
  obtain ⟨hen, hnew⟩ := htd (mem_map_of_mem (OrdMap.mem_entries_iff.mpr hin))
  refine ⟨hen, ?_⟩
  by_cases hp : pass = 0
  · exact hnew hp
  · exact hl hp t hin

theorem Tracked.next (h : Tracked sem txExists txns view count s) :
    Tracked sem txExists txns view (count + s.changes) { s with changes := 0 } :=
  ⟨h.left, h.success, h.failed, h.gone, h.nodup, h.counted, h.replays⟩

theorem runPasses_tracked (hd : Distinct txns) {left : Nat}
    (hlf : pass + (left + 1) = ledgerTotalPasses)
    (hr : ledgerRetryPasses < pass → certainRetry = false) (h : Tracked sem txExists txns view
      count { s with changes := 0 }) (hl : pass ≠ 0 → ∀ t ∈ s.txns, txExists t.id = .ok false) :
    let r := runPasses sem txExists (left + 1) pass certainRetry count s
    Tracked sem txExists txns view r.1 { r.2 with changes := 0 } ∧
      ∀ t ∈ r.2.txns, ⟨t, false, .Retry⟩ ∈ r.2.journal ∧ txExists t.id = .ok false := by
  induction left generalizing pass certainRetry count s with
  | zero =>
    have hp : pass = 2 := by
      rw [ledgerTotalPasses] at hlf
      omega
    cases hr (by rw [hp, ledgerRetryPasses]; omega)
    obtain ⟨htr, htd⟩ := runPass_tracked false hd h hl
    rw [runPasses]
    split
    · exact ⟨htr.next, htd⟩
    · exact ⟨htr.next, htd⟩
  | succ left ih =>
    obtain ⟨htr, htd⟩ := runPass_tracked certainRetry hd h hl
    rw [runPasses]
    split
    next hb =>
      have hf : certainRetry = false := by simpa using hb.2
      subst hf
      exact ⟨htr.next, htd⟩
    next =>
      refine ih (by omega) ?_ htr.next (fun _ t ht => (htd t ht).2)
      intro hp
      rw [if_pos (.inr (by omega))]

theorem applyTransactions_tracked (sem : Semantics V B) (txExists : Nat → Except String Bool)
    (hd : Distinct txns) (hf : ∀ txn ∈ txns, txn.id ∉ failed) (view : V) :
    let r := applyTransactions sem txExists txns failed view
    Tracked sem txExists txns view r.1 { r.2 with changes := 0 } ∧
      ∀ t ∈ r.2.txns, ⟨t, false, .Retry⟩ ∈ r.2.journal ∧ txExists t.id = .ok false :=
  runPasses_tracked hd rfl (fun h => absurd h (Nat.not_lt_zero _))
    (Tracked.init txns hf view) (fun h => absurd rfl h)

end Steps

section Agreement

variable {V B : Type}

inductive Fate
  | applied
  | failed
  | existing
  | left

def Fate.Holds (txExists : Nat → Except String Bool) (s : Building V B) (txn : STTx B) : Fate → Prop
  | .applied => txn ∈ BuildLedger.applied s.journal
  | .failed => txn.id ∈ s.failed
  | .existing => txExists txn.id = .ok true
  | .left => txn ∈ s.txns

/-- What a finished build says of the transactions it was given and of the view it began with. -/
structure Agrees (sem : Semantics V B) (txExists : Nat → Except String Bool) (txns : List (STTx B))
    (view : V) (count : Nat) (s : Building V B) : Prop where
  fate : ∀ txn ∈ txns, ∃! fate, Fate.Holds txExists s txn fate
  applied_subset : applied s.journal ⊆ txns
  once : (applied s.journal).Nodup
  left_subset : ∀ txn ∈ s.txns, txn ∈ txns
  tried : ∀ txn ∈ s.txns, ⟨txn, false, .Retry⟩ ∈ s.journal
  count_eq : count = (applied s.journal).length
  replay_succeeds : ∀ attempt ∈ (replay sem tapNONE view (applied s.journal)).2,
    attempt.result = .Success
  replay_view : (replay sem tapNONE view (applied s.journal)).1 = s.view

variable {sem : Semantics V B}

theorem distinct_ofList {txns : List (STTx B)} (hids : (txns.map STTx.id).Nodup) (salt : Nat) :
    Distinct (CanonicalTXSet.ofList salt txns) := by
  intro txn hmem txn' hmem' hid
  rw [CanonicalTXSet.mem_ofList hids] at hmem hmem'
  exact inj_on_of_nodup_map hids hmem hmem' hid

theorem Tracked.existsUnique_fate {txns : CanonicalTXSet B} {view : V} {count : Nat}
    {s : Building V B} (h : Tracked sem txExists txns view count s)
    (hnew : ∀ t ∈ s.txns, txExists t.id = .ok false) {txn : STTx B} (hmem : txn ∈ txns) :
    ∃! fate, Fate.Holds txExists s txn fate := by
  have hu : ∀ fate fate', Fate.Holds txExists s txn fate → Fate.Holds txExists s txn fate' →
      fate = fate' := by
    have hl := h.left txn
    have ha := h.success txn
    have hfl := h.failed txn hmem
    have hnew := hnew txn
    intro fate fate' hf hf'
    cases fate <;> cases fate' <;> simp only [Fate.Holds] at hf hf' <;> simp_all
  have hs : ∃ fate, Fate.Holds txExists s txn fate := by
    rcases h.gone txn hmem with hl | ha | hfl | he
    · exact ⟨.left, hl⟩
    · exact ⟨.applied, ha⟩
    · exact ⟨.failed, hfl⟩
    · exact ⟨.existing, he⟩
  obtain ⟨fate, hf⟩ := hs
  exact ⟨fate, hf, fun fate' hf' => hu fate' fate hf' hf⟩

/-- Building a ledger from consensus transactions and replaying those that were applied agree. -/
theorem applyTransactions_agrees_replay (sem : Semantics V B)
    (txExists : Nat → Except String Bool) (salt : Nat) {txns : List (STTx B)}
    (hids : (txns.map STTx.id).Nodup) {failed : Finset Nat}
    (hfailed : ∀ txn ∈ txns, txn.id ∉ failed) (view : V) :
    Agrees sem txExists txns view
      (applyTransactions sem txExists (CanonicalTXSet.ofList salt txns) failed view).1
      (applyTransactions sem txExists (CanonicalTXSet.ofList salt txns) failed view).2 := by
  have hmem : ∀ {txn : STTx B}, txn ∈ CanonicalTXSet.ofList salt txns ↔ txn ∈ txns :=
    CanonicalTXSet.mem_ofList hids
  obtain ⟨htracked, htried⟩ := applyTransactions_tracked sem txExists
    (distinct_ofList hids salt) (fun txn h => hfailed txn (hmem.mp h)) view
  generalize applyTransactions sem txExists _ failed view = r at htracked htried ⊢
  have hreplays := htracked.replays
  exact {
    fate := fun txn htxn => htracked.existsUnique_fate (fun t ht => (htried t ht).2) (hmem.mpr htxn)
    applied_subset := fun txn htxn => hmem.mp (htracked.success txn htxn).1
    once := htracked.nodup
    left_subset := fun txn htxn => hmem.mp (htracked.left txn htxn).1
    tried := fun txn htxn => (htried txn htxn).1
    count_eq := htracked.counted.symm
    replay_succeeds := by
      rw [hreplays]
      intro attempt hattempt
      obtain ⟨txn, -, rfl⟩ := List.mem_map.mp hattempt
      rfl
    replay_view := by rw [hreplays] }

/-- A transaction with an odd sequence is applied on the last pass only. -/
def parity : Semantics (List Nat) Unit where
  apply view txn flags :=
    if flags.tapRETRY && txn.sequence % 2 = 1 then (.ok (.tec .tecCLAIM, false), view)
    else (.ok (.tesSUCCESS, true), view ++ [txn.id])
  unapplied view txn flags h := by
    split_ifs at h ⊢
    · rfl
    · cases h
  retry view txn flags := by
    by_cases hodd : txn.sequence % 2 = 1
    · exact .inr (by simp [hodd, wasApplied])
    · exact .inl (by simp [hodd])

def parityTxns : List (STTx Unit) :=
  [{ account := 1, fee := 10, sequence := 3, id := 7, body := () },
    { account := 1, fee := 10, sequence := 4, id := 5, body := () }]

theorem applyTransactions_agrees_replay_parity :
    Agrees parity (fun _ => .ok false) parityTxns []
      (applyTransactions parity (fun _ => .ok false) (CanonicalTXSet.ofList 0 parityTxns) ∅ []).1
      (applyTransactions parity (fun _ => .ok false) (CanonicalTXSet.ofList 0 parityTxns) ∅ []).2 :=
  applyTransactions_agrees_replay parity (fun _ => .ok false) 0 (by decide) (by simp) []

/-- How a ledger is opened for transactions and closed with them. -/
structure Closing (L V : Type) where
  /-- The successor of a ledger, before any transaction. -/
  successor : L → L
  openView : L → V
  /-- Write the changes of a view to the ledger. -/
  applyView : V → L → L
  /-- Update the skip list and accept the ledger. -/
  accept : L → L
  txExists : L → Nat → Except String Bool

variable {L : Type} (closing : Closing L V)

def buildLedgerImpl (parent : L) (applyTxs : V → L → V) : L :=
  let built := closing.successor parent
  closing.accept (closing.applyView (applyTxs (closing.openView built) built) built)

variable (sem : Semantics V B)

section

variable (parent : L) (txns : CanonicalTXSet B) (failed : Finset Nat)

def buildLedger : L :=
  buildLedgerImpl closing parent fun accum built =>
    (applyTransactions sem (closing.txExists built) txns failed accum).2.view

def appliedTxns : List (STTx B) :=
  let built := closing.successor parent
  applied (applyTransactions sem (closing.txExists built) txns failed
    (closing.openView built)).2.journal

end

def replayLedger (applyFlags : ApplyFlags) (parent : L) (orderedTxns : List (STTx B)) : L :=
  buildLedgerImpl closing parent fun accum _ => (replay sem applyFlags accum orderedTxns).1

theorem replayLedger_appliedTxns (parent : L) (txns : CanonicalTXSet B) (hd : Distinct txns)
    (hf : ∀ txn ∈ txns, txn.id ∉ failed) :
    replayLedger closing sem tapNONE parent (appliedTxns closing sem parent txns failed) =
      buildLedger closing sem parent txns failed := by
  have ht := (applyTransactions_tracked sem (closing.txExists (closing.successor parent))
    hd hf (closing.openView (closing.successor parent))).1
  have hv := congrArg Prod.fst ht.replays
  exact congrArg (fun v => closing.accept (closing.applyView v (closing.successor parent))) hv

end Agreement

section Engine

variable {K : Type} [LinearOrder K]

/-- The part of a transaction that depends on its type: its checks, which may ask for a retry where
they would fail, and its work. -/
structure Body (K : Type) [LinearOrder K] where
  preclaimResult (tapRETRY : Bool) : Tx.Ledger Nat K → TER
  retry tapRETRY view : isTesSuccess (preclaimResult true view) →
    preclaimResult tapRETRY view = preclaimResult true view
  doApply : DoApply Nat K

section

open Transactor

variable {A : Type} [LinearOrder A] (env : Env A K) (idx : Indexes A K) (tx : Common A) (pre : TER)
  (doApply : DoApply A K) (base : Tx.Ledger A K)

theorem operator_tapRETRY :
    operator { env with tapRETRY := true } idx tx pre doApply base =
        operator env idx tx pre doApply base ∨
      ∃ outcome, operator { env with tapRETRY := true } idx tx pre doApply base =
        .ok outcome ∧ outcome.applied = false := by
  rw [operator, operator]
  cases ha : attempted idx tx pre doApply base with
  | error e => exact .inl rfl
  | ok r =>
    obtain ⟨result, attempt⟩ := r
    simp only [bind, Except.bind, Bool.not_true, Bool.and_false, Bool.or_false]
    generalize hs : (if attempt.size > oversizeMetaDataCap then TER.tec .tecOVERSIZE else result) =
      sized
    by_cases hh : (isTecClaim sized && env.tapFAIL_HARD)
    · exact .inl (by rw [if_pos hh, if_pos hh])
    rw [if_neg hh, if_neg hh]
    by_cases hk : killsOffers sized
    · exact .inl (by rw [if_pos hk, if_pos (by simp [hk])]; rfl)
    rw [if_neg hk]
    by_cases htec : isTecClaim sized
    · -- the result is not that of an attempt that grew too large, so the attempt itself failed
      have hr : result = sized := by
        rw [← hs] at hk ⊢
        split_ifs at hk ⊢
        · exact absurd rfl hk
        · rfl
      have hf : isTesSuccess result = false := by
        rw [hr]
        cases sized <;> first | rfl | cases htec
      refine .inr ⟨_, if_neg (by simp [hf]), rfl⟩
    · have hno : ¬ (killsOffers sized || isTecClaim sized && !env.tapRETRY) := by
        simp [hk, htec]
      rw [if_neg hno]
      exact .inl rfl

theorem applyTransaction_tapRETRY {pre' : TER} (h : isTesSuccess pre' → pre = pre') :
    Transactor.applyTransaction { env with tapRETRY := true } idx tx pre' doApply base =
        Transactor.applyTransaction env idx tx pre doApply base ∨
      (Transactor.applyTransaction { env with tapRETRY := true } idx tx pre' doApply base).applied =
        false := by
  rw [Transactor.applyTransaction, Transactor.applyTransaction]
  by_cases hpre : isTesSuccess pre'
  · obtain rfl := h hpre
    simp only [hpre, Bool.true_or, if_true]
    rcases operator_tapRETRY env idx tx pre doApply base with heq | ⟨o, ho, hu⟩
    · exact .inl (by rw [heq])
    · exact .inr (by rw [ho]; exact hu)
  · simp only [hpre, Bool.not_true, Bool.and_false, Bool.or_false, Bool.false_eq_true, if_false]
    exact .inr trivial

end

-- The invariants also read the ledger before the transaction, and the transaction itself.
variable (info : Info) (idx : Indexes Nat K)
  (invariants : Tx.Ledger Nat K → STTx (Body K) → TER → Int → Tx.Ledger Nat K → Bool)

def transactors : Semantics (Tx.Ledger Nat K) (Body K) where
  apply view txn flags :=
    let env : Env Nat K :=
      { info, invariants := invariants view txn, tapFAIL_HARD := flags.tapFAIL_HARD
        tapRETRY := flags.tapRETRY }
    let outcome := Transactor.applyTransaction env idx txn.toCommon
      (txn.body.preclaimResult flags.tapRETRY view) txn.body.doApply view
    (.ok (outcome.result, outcome.applied), outcome.ledger)
  unapplied _ _ _ h := Tx.applyTransaction_unapplied h
  retry view txn flags := by
    have henv := applyTransaction_tapRETRY (K := K)
      { info, invariants := invariants view txn, tapFAIL_HARD := flags.tapFAIL_HARD
        tapRETRY := flags.tapRETRY } idx txn.toCommon _ txn.body.doApply view
      (txn.body.retry flags.tapRETRY view)
    refine henv.imp_left (fun heq => ?_)
    dsimp only at heq ⊢
    rw [heq]

/-- What `doAccept` hands to `buildLCL`: transactions, and the identifiers it could not parse. -/
structure Accepted (B : Type) where
  txns : List (STTx B)
  failed : Finset Nat
  nodup : (txns.map STTx.id).Nodup
  parsed : ∀ txn ∈ txns, txn.id ∉ failed

theorem replayLedger_transactors {L : Type} (closing : Closing L (Tx.Ledger Nat K)) (parent : L)
    (salt : Nat) (a : Accepted (Body K)) :
    let sem := transactors info idx invariants
    let txns := CanonicalTXSet.ofList salt a.txns
    replayLedger closing sem tapNONE parent (appliedTxns closing sem parent txns a.failed) =
      buildLedger closing sem parent txns a.failed :=
  replayLedger_appliedTxns closing _ parent _ (distinct_ofList a.nodup salt) fun txn h =>
    a.parsed txn ((CanonicalTXSet.mem_ofList a.nodup).mp h)

/-- The accounts lose the fee, and hold as much as before otherwise. -/
def xrpNotCreated (view : Tx.Ledger Nat Nat) (_ : STTx (Body Nat)) (_ : TER) (fee : Int)
    (after : Tx.Ledger Nat Nat) : Bool :=
  (after.accounts.entries.map fun e => e.2.balance).sum + fee =
    (view.accounts.entries.map fun e => e.2.balance).sum

/-- Move 30 drops, but only from an account with some reserve, which may come later. -/
def transfer (x y : Nat) (reserve : Int) : Body Nat where
  preclaimResult tapRETRY view :=
    if reserve ≤ balanceOf view.accounts x then .tesSUCCESS
    else if tapRETRY then .ter .terINSUF_FEE_B else .tec .tecUNFUNDED
  retry tapRETRY view h := by
    split_ifs at h ⊢ <;> first | rfl | cases h
  doApply := transferTo x y

def transfers : Accepted (Body Nat) where
  txns :=
    [{ account := 2, fee := 1, sequence := 8, id := 7, body := transfer 2 1 60 },
      { account := 1, fee := 1, sequence := 5, id := 6, body := transfer 1 2 60 },
      { account := 1, fee := 1, sequence := 6, id := 5, body := transfer 1 2 1000 }]
  failed := {4}
  nodup := by decide
  parsed := by simp

def copying : Closing (Tx.Ledger Nat Nat) (Tx.Ledger Nat Nat) where
  successor := id
  openView := id
  applyView view _ := view
  accept := id
  txExists _ _ := .ok false

/-- The first transfer waits for the second, and the last one pays its fee on the last pass. -/
theorem replayLedger_transfers :
    let sem := transactors (plainEnv 0).info plainIndexes xrpNotCreated
    let txns := CanonicalTXSet.ofList 3 transfers.txns
    (appliedTxns copying sem twoAccounts txns {4}).map STTx.id = [6, 7, 5] ∧
      replayLedger copying sem tapNONE twoAccounts (appliedTxns copying sem twoAccounts txns {4}) =
        buildLedger copying sem twoAccounts txns {4} :=
  ⟨by decide +kernel, replayLedger_transactors _ _ _ copying twoAccounts 3 transfers⟩

end Engine

end Rippled.BuildLedger
