import Rippled.Validations.State

namespace Rippled.Validations

open Ledger hiding id
open Lib

variable {L ID N : Type} [Ledger L ID] [LinearOrder ID]

/-- The part of the state that decides about support is the same; a trie may have its children
sorted. -/
structure SameBooks (s s' : Validations L ID N) : Prop where
  current : s'.current_ = s.current_ := by rfl
  acquiring : s'.acquiring_ = s.acquiring_ := by rfl
  last : s'.lastLedger_ = s.lastLedger_ := by rfl
  trie : s'.trie_ = s.trie_ ∨ ∃ seq, s'.trie_ = (s.trie_.getPreferred seq).2 := by exact .inl rfl
  calls : s.calls ≤ s'.calls := by exact le_rfl

theorem SameBooks.refl (s : Validations L ID N) : SameBooks s s := {}

theorem SameBooks.of_calls (s : Validations L ID N) {c : Nat} (h : s.calls ≤ c) :
    SameBooks s { s with calls := c } := { calls := h }

variable [DecidableEq N] {a : Adaptor L ID N} {s : Validations L ID N}

section

variable (a)

theorem expire_sameBooks (p : ValidationParms) (clock : Int) (s : Validations L ID N) :
    SameBooks s (expire a p clock s) := by
  rw [expire]
  cases s.toKeep_ with
  | none => exact {}
  | some toKeep => exact { calls := Nat.le_succ _ }

/-- Adding a validation is a matter of the books only once it has passed the checks. -/
theorem add_cases (p : ValidationParms) (now clock : Int) (s : Validations L ID N) (n : N)
    (v : Validation ID) : SameBooks s (add a p now clock s n v).2 ∨
    ∃ s', SameBooks s s' ∧ isCurrent p now v.signTime v.seenTime ∧
      add a p now clock s n v = addCurrent a s' n v := by
  rw [add]
  by_cases hcur : isCurrent p now v.signTime v.seenTime
  · rw [if_pos hcur]
    by_cases hadv : (((s.seqEnforcers_.lookup n).getD {}).tryAdvance clock v.seq p).1
    · simp only [hadv, if_true]
      refine .inr ⟨_, ?_, hcur, rfl⟩
      exact {}
    · simp only [hadv]
      exact .inl {}
  · rw [if_neg hcur]
    exact .inl (SameBooks.refl s)

section

variable (s) (n : N) (v : Validation ID)

def setCurrent : Validations L ID N :=
  { s with current_ := s.current_.insert n v }

theorem addCurrent_cases : (addCurrent a s n v).2 = s ∨
    (v.trusted ∧ (addCurrent a s n v).2 =
      updateTrie a (setCurrent s n v) n v ((s.current_.lookup n).map Validation.key)) ∨
    (v.trusted = false ∧ (addCurrent a s n v).2 = setCurrent s n v) := by
  rw [addCurrent]
  cases s.current_.lookup n with
  | none => cases ht : v.trusted <;> simp [setCurrent]
  | some old =>
    by_cases hs : old.signTime < v.signTime
    · cases ht : v.trusted <;> simp [hs, setCurrent]
    · simp [hs]

end

theorem currentStep_cases (p : ValidationParms) (now : Int)
    (r : Validations L ID N × List (N × Validation ID)) (n : N) : (currentStep p now r n).1 = r.1 ∨
    ∃ v, r.1.current_.lookup n = some v ∧ isCurrent p now v.signTime v.seenTime = false ∧
      (currentStep p now r n).1 = { removeTrie r.1 n v with current_ := r.1.current_.erase n } := by
  rw [currentStep]
  cases hcur : r.1.current_.lookup n with
  | none => exact .inl rfl
  | some v =>
    cases hnow : isCurrent p now v.signTime v.seenTime with
    | true => exact .inl (by simp [hnow])
    | false =>
      refine .inr ⟨v, rfl, hnow, ?_⟩
      simp [hnow, (removeTrie_frame r.1 n v).1]

theorem trustStep_cases (added removed : Finset N) (s : Validations L ID N) (n : N) :
    trustStep a added removed s n = s ∨
    ∃ v, s.current_.lookup n = some v ∧ ((n ∈ added ∧ ∃ w, w.trusted ∧ w.key = v.key ∧
          trustStep a added removed s n = updateTrie a (setCurrent s n w) n w none) ∨
        (n ∉ added ∧ n ∈ removed ∧ ∃ w, w.trusted = false ∧ w.key = v.key ∧
          trustStep a added removed s n = removeTrie (setCurrent s n w) n w)) := by
  rw [trustStep]
  cases hcur : s.current_.lookup n with
  | none => exact .inl rfl
  | some v =>
    by_cases hadd : n ∈ added
    · refine .inr ⟨v, rfl, .inl ⟨hadd, { v with trusted := true }, rfl, rfl, ?_⟩⟩
      simp only [hadd, if_true, retrust, setCurrent]
    by_cases hrem : n ∈ removed
    · refine .inr ⟨v, rfl, .inr ⟨hadd, hrem, { v with trusted := false }, rfl, rfl, ?_⟩⟩
      simp only [hadd, hrem, if_true, if_false, retrust, setCurrent]
    · refine .inl ?_
      simp only [hadd, hrem, if_false, retrust, HashMap.insert_of_lookup hcur]

end

def Call.flushes : Call L ID N → Option Int
  | .getPreferred now _ => some now
  | .getNodesAfter now ledger ledgerID => if Ledger.id ledger = ledgerID then some now else none
  | .currentTrusted now => some now
  | _ => none

section Rule

variable {p : ValidationParms} {J : Validations L ID N → Prop}

theorem current_keeps {now : Int} (hs : ∀ s s', SameBooks s s' → J s → J s')
    (hf : ∀ r n, J r.1 → J (currentStep p now r n).1) (h : J s) : J (current a p now s).1 := by
  have hst := hs _ _ (SameBooks.of_calls s (Nat.le_succ _)) h
  exact List.foldlRecOn _ _ (motive := fun r => J r.1) (b := (_, [])) hst fun r hr n _ => hf r n hr

variable (hsm : ∀ s s', SameBooks s s' → J s → J s')

include hsm

theorem trustChanged_keeps {added removed : Finset N}
    (ht : ∀ s n, J s → J (trustStep a added removed s n)) (h : J s) :
    J (trustChanged a s added removed) := by
  have hst := hsm _ _ (SameBooks.of_calls s (Nat.le_succ _)) h
  have hend := List.foldlRecOn (a.nodeOrder s.calls s.current_.keys) (trustStep a added removed)
    hst fun s hs n _ => ht s n hs
  refine hsm _ (trustChanged a s added removed) ?_ hend
  exact {}

/-- A property of the books is kept by a call if it is kept by what that call does to them. -/
theorem apply_keeps (hc : ∀ s, J s → J (checkAcquired a s)) {c : Call L ID N}
    (hadd : ∀ now clock n v s', c = .add now clock n v → SameBooks s s' →
      isCurrent p now v.signTime v.seenTime → J s' → J (addCurrent a s' n v).2)
    (ht : ∀ added removed, c = .trustChanged added removed → ∀ s n, J s → J (trustStep a added removed s n))
    (hf : ∀ now, c.flushes = some now → ∀ r n, J r.1 → J (currentStep p now r n).1) (h : J s) :
    J (apply a p s c) := by
  have hw : ∀ now, c.flushes = some now → J (withTrie a p now s) := fun now hnow =>
    hc _ (current_keeps hsm (hf now hnow) h)
  cases c with
  | add now clock n v =>
    obtain hs | ⟨s', hs, hcur, heq⟩ := add_cases a p now clock s n v
    · exact hsm _ _ hs h
    · rw [apply, heq]
      exact hadd now clock n v s' rfl hs hcur (hsm _ _ hs h)
  | canValidateSeq clock seq | setSeqToKeep seq => exact hsm s _ {} h
  | expire clock => exact hsm _ _ (expire_sameBooks a p clock s) h
  | trustChanged added removed => exact trustChanged_keeps hsm (ht added removed rfl) h
  | getPreferred now curr =>
    rw [apply, getPreferred]
    split
    · exact hsm (withTrie a p now s) _ { trie := .inr ⟨_, rfl⟩ } (hw now rfl)
    · exact hsm (withTrie a p now s) _ { trie := .inr ⟨_, rfl⟩, calls := Nat.le_succ _ } (hw now rfl)
  | getNodesAfter now ledger ledgerID =>
    rw [apply, getNodesAfter]
    by_cases hid : Ledger.id ledger = ledgerID
    · rw [if_pos hid]
      exact hw now (if_pos hid)
    · rw [if_neg hid]
      exact h
  | currentTrusted now => exact current_keeps hsm (hf now rfl) h
  | numTrustedForLedger clock ledgerID => exact hsm s _ {} h

end Rule

end Rippled.Validations
