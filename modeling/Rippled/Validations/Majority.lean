import Rippled.Lib.Run
import Rippled.LedgerTrie.Path
import Rippled.Validations.Waiting
import Mathlib.Algebra.Order.BigOperators.Group.Finset

namespace Rippled.Validations

open Finmap

open Ledger hiding id
open Lib

variable {L ID N : Type} [Ledger L ID] [LinearOrder ID] [DecidableEq N] {a : Adaptor L ID N}
  {p : ValidationParms} {s s' : Validations L ID N} {n : N} {v old : Validation ID}

/-- A validation that is not trusted does not come from a node whose current one is. -/
def NotDemoted (s : Validations L ID N) (n : N) (v : Validation ID) : Prop :=
  v.trusted = true ∨ ∀ old, s.current_.lookup n = some old → old.trusted = false

namespace AcquiringOk

omit [Ledger L ID] in
theorem clearPrior (h : AcquiringOk s) :
    AcquiringOk (clearPrior (setCurrent s n v) n ((s.current_.lookup n).map Validation.key)) := by
  have ho : ∀ m, m ≠ n → (s.current_.insert n v).lookup m = s.current_.lookup m :=
    fun m hm => lookup_insert_of_ne _ hm
  cases hcur : s.current_.lookup n with
  | none =>
    refine h.replace rfl ho (fun k hw => ?_)
    obtain ⟨v, hv, _⟩ := h.waits k n hw
    rw [hcur] at hv
    cases hv
  | some old => exact h.vacate hcur rfl ho

theorem addCurrent (ha : a.Lawful) (h : AcquiringOk s) (hv : NotDemoted s n v) :
    AcquiringOk (addCurrent a s n v).2 := by
  obtain heq | ⟨ht, heq⟩ | ⟨ht, heq⟩ := addCurrent_cases a s n v
  · rw [heq]
    exact h
  · rw [heq]
    exact AcquiringOk.updateTrie ha h.clearPrior (lookup_insert _) ht
  rw [heq]
  refine h.replace rfl (fun m hm => lookup_insert_of_ne _ hm) (fun k hw => ?_)
  obtain ⟨old, hcur, hold, _⟩ := h.waits k n hw
  rw [hv.resolve_left (by simp [ht]) old hcur] at hold
  cases hold

theorem currentStep {now : Int} {r : Validations L ID N × List (N × Validation ID)}
    (h : AcquiringOk r.1) : AcquiringOk (currentStep p now r n).1 := by
  obtain heq | ⟨v, hcur, _, heq⟩ := currentStep_cases p now r n
  · rw [heq]
    exact h
  · rw [heq]
    exact h.vacate hcur (removeTrie_frame r.1 n v).2.1 (fun m hm => lookup_erase_ne hm)

omit [Ledger L ID] in
theorem retrust (h : AcquiringOk s) (hcur : s.current_.lookup n = some old)
    (ht : v.trusted) (hkey : v.key = old.key) : AcquiringOk (setCurrent s n v) := by
  refine h.replace rfl (fun m hm => lookup_insert_of_ne _ hm) (fun k hw => ?_)
  exact ⟨v, lookup_insert _, ht, hkey.trans (h.key_eq hw hcur).2⟩

theorem trustStep (ha : a.Lawful) {added removed : Finset N} (h : AcquiringOk s) :
    AcquiringOk (trustStep a added removed s n) := by
  obtain heq | ⟨v, hcur, ⟨_, w, ht, hkey, heq⟩ | ⟨_, _, w, _, hkey, heq⟩⟩ :=
    trustStep_cases a added removed s n
  · rw [heq]
    exact h
  · rw [heq]
    exact AcquiringOk.updateTrie ha (h.retrust hcur ht hkey) (lookup_insert _) ht
  · rw [heq]
    obtain ⟨hc, hacq, _⟩ := removeTrie_frame (setCurrent s n w) n w
    refine h.vacate hcur (hkey ▸ hacq) (fun m hm => ?_)
    rw [hc]
    exact lookup_insert_of_ne _ hm

end AcquiringOk

namespace Fresh

theorem addCurrent (ha : a.Lawful) (hr : a.Retains) (hok : AcquiringOk s) (h : Fresh a s) :
    Fresh a (addCurrent a s n v).2 := by
  obtain heq | ⟨_, heq⟩ | ⟨_, heq⟩ := addCurrent_cases a s n v
  · rw [heq]
    exact h
  · rw [heq]
    refine Fresh.updateTrie ha hr hok.clearPrior ?_ (lookup_insert _)
    cases s.current_.lookup n with
    | none => exact h.mono le_rfl (fun _ _ hw => hw) (fun _ _ hl => hl)
    | some old => exact h.mono le_rfl (fun _ _ hw => (waits_dropWaiting.mp hw).1) (fun _ _ hl => hl)
  · rw [heq]
    exact h.mono le_rfl (fun _ _ hw => hw) (fun _ _ hl => hl)

theorem removeTrie (h : Fresh a s) : Fresh a (removeTrie s n v) := by
  obtain ⟨_, hacq, hc⟩ := removeTrie_frame s n v
  refine h.mono hc.ge (fun k m hw => ?_) (fun m l hl => ?_)
  · rw [hacq] at hw
    exact (waits_dropWaiting.mp hw).1
  rw [lookup_removeTrie] at hl
  by_cases hm : m = n
  · rw [if_pos hm] at hl
    exact (Option.filter_eq_some_iff.mp hl).1
  · rwa [if_neg hm] at hl

theorem currentStep {now : Int} {r : Validations L ID N × List (N × Validation ID)}
    (h : Fresh a r.1) : Fresh a (currentStep p now r n).1 := by
  obtain heq | ⟨v, _, _, heq⟩ := currentStep_cases p now r n
  · rw [heq]
    exact h
  · rw [heq]
    exact (h.removeTrie (n := n) (v := v)).mono le_rfl (fun _ _ hw => hw) (fun _ _ hl => hl)

theorem trustStep (ha : a.Lawful) (hr : a.Retains) {added removed : Finset N} (hok : AcquiringOk s)
    (h : Fresh a s) : Fresh a (trustStep a added removed s n) := by
  have hset : ∀ w, Fresh a (setCurrent s n w) := fun w =>
    h.mono le_rfl (fun _ _ hw => hw) (fun _ _ hl => hl)
  obtain heq | ⟨v, hcur, ⟨_, w, ht, hkey, heq⟩ | ⟨_, _, w, _, _, heq⟩⟩ :=
    trustStep_cases a added removed s n
  · rw [heq]
    exact h
  · rw [heq]
    refine Fresh.updateTrie ha hr ?_ (hset w) (lookup_insert _)
    exact hok.retrust hcur ht hkey
  · rw [heq]
    exact (hset w).removeTrie

end Fresh

/-- The condition on a call under which the waiting nodes stay in order. -/
def Call.Promotes (s : Validations L ID N) : Call L ID N → Prop
  | .add _ _ n v => NotDemoted s n v
  | _ => True

theorem AcquiringOk.apply (ha : a.Lawful) {c : Call L ID N} (h : AcquiringOk s)
    (hc : c.Promotes s) : AcquiringOk (apply a p s c) := by
  refine apply_keeps (fun s s' hs h => ?_) (fun s h => h.progress (checkAcquired_progress ha s))
    ?_ (fun _ _ _ s n h => h.trustStep ha) (fun _ _ r n h => h.currentStep) h
  · exact ⟨hs.acquiring ▸ hs.current ▸ h.waits, hs.acquiring ▸ h.noneEmpty⟩
  · intro now clock n v s' hcl hs _ h
    subst hcl
    refine h.addCurrent ha ?_
    rw [NotDemoted, hs.current]
    exact hc

theorem Fresh.apply (ha : a.Lawful) (hr : a.Retains) {c : Call L ID N} (hok : AcquiringOk s)
    (h : Fresh a s) (hc : c.Promotes s) : Fresh a (apply a p s c) := by
  suffices AcquiringOk (Validations.apply a p s c) ∧ Fresh a (Validations.apply a p s c) from this.2
  refine apply_keeps (J := fun s => AcquiringOk s ∧ Fresh a s) (fun s s' hs h => ?_)
    (fun s h => ?_) ?_ (fun _ _ _ s n h => ⟨h.1.trustStep ha, h.2.trustStep ha hr h.1⟩)
    (fun _ _ r n h => ⟨h.1.currentStep, h.2.currentStep⟩) ⟨hok, h⟩
  · refine ⟨⟨hs.acquiring ▸ hs.current ▸ h.1.waits, hs.acquiring ▸ h.1.noneEmpty⟩, ?_⟩
    refine h.2.mono hs.calls (fun k n hw => ?_) (fun n l hl => ?_)
    · rwa [hs.acquiring] at hw
    · rwa [hs.last] at hl
  · have hp := checkAcquired_progress ha s
    exact ⟨h.1.progress hp, h.2.progress ha h.1 hp⟩
  · intro now clock n v s' hcl hs _ h
    subst hcl
    refine ⟨h.1.addCurrent ha ?_, h.2.addCurrent ha hr h.1⟩
    rw [NotDemoted, hs.current]
    exact hc

theorem acquiringOk_new : AcquiringOk (new : Validations L ID N) :=
  ⟨fun _ _ ⟨_, hk, _⟩ => by simp [new] at hk, fun _ _ hk => by simp [new] at hk⟩

theorem fresh_new : Fresh a (new : Validations L ID N) :=
  ⟨fun _ _ hl => by simp [new] at hl, fun _ _ _ _ hl => by simp [new] at hl⟩

def trustedNodes (s : Validations L ID N) : Finset N :=
  s.current_.keys.filter (fun n => (s.current_.lookup n).any Validation.trusted)

def waitingFor (s : Validations L ID N) (key : Nat × ID) : Finset N :=
  (s.acquiring_.lookup key).getD ∅

omit [Ledger L ID] [DecidableEq N] in
theorem mem_waitingFor {key : Nat × ID} : n ∈ waitingFor s key ↔ Waits s.acquiring_ key n := by
  rw [waitingFor, Waits]
  cases s.acquiring_.lookup key <;> simp

omit [Ledger L ID] in
theorem AcquiringOk.sum_card_le (h : AcquiringOk s) :
    ∑ key ∈ s.acquiring_.keys, (waitingFor s key).card ≤ (trustedNodes s).card := by
  rw [← Finset.card_biUnion]
  · refine Finset.card_le_card (fun n hn => ?_)
    obtain ⟨key, _, hw⟩ := Finset.mem_biUnion.mp hn
    obtain ⟨v, hv, ht, _⟩ := h.waits key n (mem_waitingFor.mp hw)
    have hmem := mem_keys.mpr (mem_of_lookup_eq_some hv)
    simp [trustedNodes, hmem, hv, ht]
  · intro k _ k' _ hne
    refine Finset.disjoint_left.mpr (fun n hn hn' => hne ?_)
    obtain ⟨v, hv, _, rfl⟩ := h.waits k n (mem_waitingFor.mp hn)
    exact (h.key_eq (mem_waitingFor.mp hn') hv).2

/-- In every run in which no node with a trusted current validation sends one that is not, a node
waits for the ledger of its current validation only. -/
theorem waiting_counts_once (ha : a.Lawful) (cs : List (Call L ID N))
    (h : Run.Allowed (apply a p) (fun s c => c.Promotes s) new cs) :
    let s := cs.foldl (apply a p) new
    (∀ k k' n, n ∈ waitingFor s k → n ∈ waitingFor s k' → k = k') ∧
    (∀ k n, n ∈ waitingFor s k →
      ∃ v, s.current_.lookup n = some v ∧ v.key = k ∧ v.trusted) ∧
    (∀ k nodes, s.acquiring_.lookup k = some nodes → nodes.Nonempty) ∧
    (a.Retains → ∀ k n l, n ∈ waitingFor s k → s.lastLedger_.lookup n = some l →
      Ledger.id l ≠ k.2) ∧
    ∑ key ∈ s.acquiring_.keys, (waitingFor s key).card ≤ (trustedNodes s).card := by
  intro s
  have hok : AcquiringOk s := Run.invariant AcquiringOk (fun _ _ hs hc => hs.apply ha hc) cs
    acquiringOk_new h
  refine ⟨fun k k' n hk hk' => ?_, fun k n hk => ?_, hok.noneEmpty, fun hr k n l hk hl => ?_,
    hok.sum_card_le⟩
  · obtain ⟨v, hv, _, rfl⟩ := hok.waits k n (mem_waitingFor.mp hk)
    exact (hok.key_eq (mem_waitingFor.mp hk') hv).2
  · obtain ⟨v, hv, ht, hkey⟩ := hok.waits k n (mem_waitingFor.mp hk)
    exact ⟨v, hv, hkey, ht⟩
  · have hboth := Run.invariant (fun s => AcquiringOk s ∧ Fresh a s) (fun _ _ hs hc => ⟨hs.1.apply
      ha hc, hs.2.apply ha hr hs.1 hc⟩) cs ⟨acquiringOk_new, fresh_new⟩ h
    exact hboth.2.fresh k n l (mem_waitingFor.mp hk) hl

/-- A full validation of the ledger with the given path, signed and seen at the same time. -/
def pathValidation (ledgerID : List Nat) (time : Int) (trusted : Bool) : Validation (List Nat) :=
  ⟨ledgerID, ledgerID.length, time, time, trusted, true, 0⟩

def acquireBranch (branch : List Nat) (_ : Nat) (ledgerID : List Nat) : Option Path :=
  if ledgerID <+: branch then some ⟨ledgerID⟩ else none

theorem acquireBranch_lawful (branch : List Nat) :
    (Adaptor.sorted (acquireBranch branch) : Adaptor Path (List Nat) Nat).Lawful := by
  refine Adaptor.sorted_lawful (fun k i l hl => ?_)
  rw [acquireBranch] at hl
  split_ifs at hl
  cases hl
  rfl

theorem waiting_counts_once_path :
    let cs : List (Call Path (List Nat) Nat) := [.add 100 100 7 (pathValidation [1] 100 true),
      .add 101 101 8 (pathValidation [2] 101 true), .add 102 102 7 (pathValidation [2, 1] 102 true)]
    let s := cs.foldl (apply (Adaptor.sorted (acquireBranch [1])) {}) new
    waitingFor s (2, [2, 1]) = {7} ∧ (trustedNodes s).card = 2 ∧
      (∀ l, s.lastLedger_.lookup 7 = some l → Ledger.id l ≠ [2, 1]) ∧
      ∑ key ∈ s.acquiring_.keys, (waitingFor s key).card ≤ 2 := by
  intro cs
  have h := waiting_counts_once (p := {}) (acquireBranch_lawful [1]) cs
    ⟨.inl rfl, .inl rfl, .inl rfl, trivial⟩
  refine ⟨by decide +kernel, by decide +kernel, fun l hl => ?_, h.2.2.2.2.trans (by decide +kernel)⟩
  exact h.2.2.2.1 (fun _ _ _ _ hacq => hacq) (2, [2, 1]) 7 l (by decide +kernel) hl

/-- After an untrusted validation in between, a node waits for two ledgers. -/
theorem waits_twice_after_demotion :
    let cs : List (Call Path (List Nat) Nat) := [.add 100 100 7 (pathValidation [1] 100 true),
      .add 101 101 7 (pathValidation [1, 1] 101 false),
      .add 102 102 7 (pathValidation [1, 1, 1] 102 true)]
    let s := cs.foldl (apply (Adaptor.sorted (acquireBranch [])) {}) new
    waitingFor s (1, [1]) = {7} ∧ waitingFor s (3, [1, 1, 1]) = {7} ∧ (trustedNodes s).card = 1 := by
  decide +kernel

end Rippled.Validations
