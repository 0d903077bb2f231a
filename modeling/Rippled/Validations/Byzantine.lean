import Rippled.Validations.Majority

namespace Rippled.Validations

open Ledger hiding id
open Lib

variable {L ID N : Type} {a : Adaptor L ID N} {p : ValidationParms}
  {s s' s'' : Validations L ID N}

/-- What the books and the trie do not touch: the sets of validations and the enforcers. -/
structure SameRecords (s s' : Validations L ID N) : Prop where
  byLedger : s'.byLedger_ = s.byLedger_
  bySequence : s'.bySequence_ = s.bySequence_
  enforcers : s'.seqEnforcers_ = s.seqEnforcers_

theorem SameRecords.refl (s : Validations L ID N) : SameRecords s s := ⟨rfl, rfl, rfl⟩

theorem SameRecords.trans (h : SameRecords s s') (h' : SameRecords s' s'') : SameRecords s s'' :=
  ⟨h'.byLedger.trans h.byLedger, h'.bySequence.trans h.bySequence, h'.enforcers.trans h.enforcers⟩

theorem foldl_sameRecords {O : Type} {step : Validations L ID N → O → Validations L ID N}
    (h : ∀ s o, SameRecords s (step s o)) (os : List O) (s : Validations L ID N) :
    SameRecords s (os.foldl step s) :=
  List.foldlRecOn os step (SameRecords.refl s) fun s' hs o _ => hs.trans (h s' o)

variable [Ledger L ID] [LinearOrder ID] [DecidableEq N]

section

variable (s : Validations L ID N)

theorem removeTrie_sameRecords (n : N) (v : Validation ID) : SameRecords s (removeTrie s n v) := by
  rw [removeTrie]
  cases s.lastLedger_.lookup n with
  | none => exact ⟨rfl, rfl, rfl⟩
  | some l =>
    by_cases hid : Ledger.id l = v.ledgerID
    · simp only [hid, if_true]
      exact ⟨rfl, rfl, rfl⟩
    · simp only [hid, if_false]
      exact ⟨rfl, rfl, rfl⟩

theorem updateTrieLedger_sameRecords (n : N) (l : L) : SameRecords s (updateTrieLedger s n l) :=
  ⟨rfl, rfl, rfl⟩

theorem checkKey_sameRecords (key : Nat × ID) : SameRecords s (checkKey a s key) := by
  rw [checkKey]
  cases s.acquiring_.lookup key with
  | none => exact SameRecords.refl s
  | some nodes =>
    cases a.acquire s.calls key.2 with
    | none => exact ⟨rfl, rfl, rfl⟩
    | some l =>
      have hl := foldl_sameRecords (fun s n => updateTrieLedger_sameRecords s n l)
        (a.nodeOrder s.calls nodes) { s with calls := s.calls + 1 }
      exact ⟨hl.byLedger, hl.bySequence, hl.enforcers⟩

theorem checkAcquired_sameRecords : SameRecords s (checkAcquired a s) := by
  have hs : SameRecords s { s with calls := s.calls + 1 } := ⟨rfl, rfl, rfl⟩
  exact hs.trans (foldl_sameRecords checkKey_sameRecords _ _)

variable (n : N) (v : Validation ID)

theorem updateTrie_sameRecords (prior : Option (Nat × ID)) :
    SameRecords s (updateTrie a s n v prior) := by
  have hc : SameRecords s (clearPrior s n prior) := by cases prior <;> exact ⟨rfl, rfl, rfl⟩
  refine (hc.trans (checkAcquired_sameRecords (a := a) _)).trans ?_
  rw [updateTrie]
  generalize checkAcquired a (clearPrior s n prior) = s₁
  have hcl : SameRecords s₁ { s₁ with calls := s₁.calls + 1 } := ⟨rfl, rfl, rfl⟩
  cases s₁.acquiring_.lookup v.key with
  | some nodes => exact ⟨rfl, rfl, rfl⟩
  | none =>
    cases a.acquire s₁.calls v.ledgerID with
    | some l => exact hcl.trans (updateTrieLedger_sameRecords _ _ _)
    | none => exact ⟨rfl, rfl, rfl⟩

theorem addCurrent_sameRecords : SameRecords s (addCurrent a s n v).2 := by
  have hset : SameRecords s (setCurrent s n v) := ⟨rfl, rfl, rfl⟩
  obtain heq | ⟨_, heq⟩ | ⟨_, heq⟩ := addCurrent_cases a s n v
  · rw [heq]
    exact SameRecords.refl s
  · rw [heq]
    exact hset.trans (updateTrie_sameRecords _ _ _ _)
  · rw [heq]
    exact hset

end

theorem trustStep_sameRecords (added removed : Finset N) (s : Validations L ID N) (n : N) :
    SameRecords s (trustStep a added removed s n) := by
  obtain heq | ⟨_, _, ⟨_, w, _, _, heq⟩ | ⟨_, _, w, _, _, heq⟩⟩ :=
    trustStep_cases a added removed s n
  · rw [heq]
    exact SameRecords.refl s
  · rw [heq]
    exact (⟨rfl, rfl, rfl⟩ : SameRecords s (setCurrent s n w)).trans (updateTrie_sameRecords _ _ _ _)
  · rw [heq]
    exact (⟨rfl, rfl, rfl⟩ : SameRecords s (setCurrent s n w)).trans (removeTrie_sameRecords _ _ _)

section

variable (now : Int) (s : Validations L ID N)

theorem current_sameRecords : SameRecords s (current a p now s).1 := by
  have hs : ∀ (r : Validations L ID N × List (N × Validation ID)) n,
      SameRecords r.1 (currentStep p now r n).1 := by
    intro r n
    obtain heq | ⟨v, _, _, heq⟩ := currentStep_cases p now r n
    · rw [heq]
      exact SameRecords.refl _
    · rw [heq]
      have hrem := removeTrie_sameRecords r.1 n v
      exact ⟨hrem.byLedger, hrem.bySequence, hrem.enforcers⟩
  have hst : SameRecords s { s with calls := s.calls + 1 } := ⟨rfl, rfl, rfl⟩
  exact List.foldlRecOn _ _ (motive := fun r => SameRecords s r.1) (b := (_, [])) hst
    fun r hr n _ => hr.trans (hs r n)

theorem withTrie_sameRecords : SameRecords s (withTrie a p now s) :=
  (current_sameRecords now s).trans (checkAcquired_sameRecords _)

end

/-- The enforcer of a node; there is one from the first validation on. -/
def enforcer (s : Validations L ID N) (n : N) : SeqEnforcer := (s.seqEnforcers_.lookup n).getD {}

theorem add_records {now : Int} (clock : Int) (n : N) {v : Validation ID}
    (hcur : isCurrent p now v.signTime v.seenTime) : let s' := (add a p now clock s n v).2
    let advance := (enforcer s n).tryAdvance clock v.seq p
    let seqSlot := Aged.subscript s.bySequence_ clock v.seq ∅
    let slot := Aged.subscript s.byLedger_ clock v.ledgerID ∅
    s'.seqEnforcers_ = s.seqEnforcers_.insert n advance.2 ∧
    s'.bySequence_ = s.bySequence_.insert v.seq
      ⟨seqSlot.when, seqSlot.value.insert n (trackSequence p v (seqSlot.value.lookup n))⟩ ∧
    s'.byLedger_ = if advance.1 then
      s.byLedger_.insert v.ledgerID ⟨slot.when, slot.value.insert n v⟩ else s.byLedger_ := by
  intro s' advance seqSlot slot
  by_cases hadv : advance.1
  · have hs' : s' = (addCurrent a { s with
        bySequence_ := s.bySequence_.insert v.seq
          ⟨seqSlot.when, seqSlot.value.insert n (trackSequence p v (seqSlot.value.lookup n))⟩
        seqEnforcers_ := s.seqEnforcers_.insert n advance.2
        byLedger_ := s.byLedger_.insert v.ledgerID ⟨slot.when, slot.value.insert n v⟩ } n v).2 := by
      simp only [s', add, if_pos hcur, advance, enforcer] at hadv ⊢
      simp only [hadv, if_true, seqSlot, slot]
    have hsm := addCurrent_sameRecords (a := a) { s with
        bySequence_ := s.bySequence_.insert v.seq
          ⟨seqSlot.when, seqSlot.value.insert n (trackSequence p v (seqSlot.value.lookup n))⟩
        seqEnforcers_ := s.seqEnforcers_.insert n advance.2
        byLedger_ := s.byLedger_.insert v.ledgerID ⟨slot.when, slot.value.insert n v⟩ } n v
    rw [hs', if_pos hadv]
    exact ⟨hsm.enforcers, hsm.bySequence, hsm.byLedger⟩
  · have hs' : s' = { s with
        bySequence_ := s.bySequence_.insert v.seq
          ⟨seqSlot.when, seqSlot.value.insert n (trackSequence p v (seqSlot.value.lookup n))⟩
        seqEnforcers_ := s.seqEnforcers_.insert n advance.2 } := by
      simp only [s', add, if_pos hcur, advance, enforcer] at hadv ⊢
      simp only [hadv, seqSlot]
      rfl
    rw [hs', if_neg hadv]
    exact ⟨rfl, rfl, rfl⟩

theorem trustChanged_records (added removed : Finset N) : let s' := trustChanged a s added removed
    s'.seqEnforcers_ = s.seqEnforcers_ ∧ s'.bySequence_ = s.bySequence_ ∧
    s'.byLedger_ = HashMap.mapValues (fun _ (e : Aged _) =>
      ⟨e.when, HashMap.mapValues (retrust added removed) e.value⟩) s.byLedger_ := by
  have hl := (⟨rfl, rfl, rfl⟩ : SameRecords s { s with calls := s.calls + 1 }).trans
    (foldl_sameRecords (trustStep_sameRecords (a := a) added removed)
      (a.nodeOrder s.calls s.current_.keys) _)
  refine ⟨hl.enforcers, hl.bySequence, ?_⟩
  simp only [trustChanged]
  rw [hl.byLedger]

omit [Ledger L ID] in
theorem expire_records (clock : Int) : let s' := expire a p clock s
    s'.seqEnforcers_ = s.seqEnforcers_ ∧
    (∀ q e, s'.bySequence_.lookup q = some e →
      ∃ e', s.bySequence_.lookup q = some e' ∧ e.value = e'.value) ∧
    ∀ i e, s'.byLedger_.lookup i = some e →
      ∃ e', s.byLedger_.lookup i = some e' ∧ e.value = e'.value := by
  have hep : ∀ {K V : Type} [DecidableEq K] (m : HashMap K (Aged V)) (age : Int) k e,
      (Aged.expire clock age m).lookup k = some e → m.lookup k = some e := by
    intro K V _ m age k e he
    rw [Aged.expire, HashMap.lookup_filter, Option.filter_eq_some_iff] at he
    exact he.1
  have ht : ∀ {K V : Type} [DecidableEq K] (m : HashMap K (Aged V)) (b : K → Aged V → Bool) k e,
      (HashMap.mapValues (fun k e => if b k e then e.touch clock else e) m).lookup k = some e →
      ∃ e', m.lookup k = some e' ∧ e.value = e'.value := by
    intro K V _ m b k e he
    rw [HashMap.lookup_mapValues, Option.map_eq_some_iff] at he
    obtain ⟨e', he', rfl⟩ := he
    refine ⟨e', he', ?_⟩
    cases b k e' <;> rfl
  rw [expire]
  cases s.toKeep_ with
  | none =>
    exact ⟨rfl, fun q e he => ⟨e, hep _ _ _ _ he, rfl⟩, fun i e he => ⟨e, hep _ _ _ _ he, rfl⟩⟩
  | some toKeep =>
    refine ⟨rfl, fun q e he => ?_, fun i e he => ?_⟩
    · exact ht _ (fun q _ => decide (toKeep ≤ q)) q e (by simpa using hep _ _ _ _ he)
    · exact ht _ (fun _ e => keepsLedger a s.calls toKeep e.value) i e (hep _ _ _ _ he)

/-- A validation that has passed the check of its sequence number, at a time of the steady clock. -/
structure Acceptance (ID N : Type) where
  clock : Int
  node : N
  val : Validation ID
deriving DecidableEq

def accepts (p : ValidationParms) (s : Validations L ID N) : Call L ID N → Option (Acceptance ID N)
  | .add now clock n v =>
    if isCurrent p now v.signTime v.seenTime && ((enforcer s n).tryAdvance clock v.seq p).1 then
      some ⟨clock, n, v⟩
    else none
  | _ => none

/-- A run so far: the state, the accepted validations and the time reached. -/
structure Trace (L ID N : Type) where
  state : Validations L ID N
  log : List (Acceptance ID N)
  time : Int

def Call.clock : Call L ID N → Option Int
  | .add _ clock _ _ => some clock
  | .canValidateSeq clock _ => some clock
  | .expire clock => some clock
  | .numTrustedForLedger clock _ => some clock
  | _ => none

namespace Trace

def start (time : Int) : Trace L ID N := ⟨new, [], time⟩

def step (a : Adaptor L ID N) (p : ValidationParms) (r : Trace L ID N) (c : Call L ID N) :
    Trace L ID N :=
  ⟨apply a p r.state c, r.log ++ (accepts p r.state c).toList, (c.clock).getD r.time⟩

/-- The steady clock does not go back. -/
def Monotone (r : Trace L ID N) (c : Call L ID N) : Prop := ∀ t, c.clock = some t → r.time ≤ t

end Trace

variable {r : Trace L ID N} {c : Call L ID N}

/-- An accepted validation binds the enforcer of its node until it expires. -/
structure Enforced (p : ValidationParms) (r : Trace L ID N) : Prop where
  past : ∀ e ∈ r.log, e.clock ≤ r.time
  since : ∀ e ∈ r.log, e.clock ≤ (enforcer r.state e.node).when_
  bound : ∀ e ∈ r.log, e.val.seq ≤ (enforcer r.state e.node).seq_ ∨
    e.clock + p.validationSET_EXPIRES < r.time
  rising : r.log.Pairwise (fun e e' => e.clock ≤ e'.clock ∧ (e.node = e'.node →
    e'.clock ≤ e.clock + p.validationSET_EXPIRES → e.val.seq < e'.val.seq))

omit [Ledger L ID] [LinearOrder ID] in
theorem Enforced.tryAdvance (h : Enforced p r) {e : Acceptance ID N} (he : e ∈ r.log) {t : Int}
    {q : Nat} (ht : r.time ≤ t) (hwin : t ≤ e.clock + p.validationSET_EXPIRES)
    (hq : q ≤ e.val.seq) :
    (enforcer r.state e.node).tryAdvance t q p = (false, enforcer r.state e.node) := by
  have hs := h.since e he
  obtain hb | hb := h.bound e he
  · exact SeqEnforcer.tryAdvance_of_le (by omega) (hq.trans hb)
  · omega

theorem tryAdvance_keeps {f : SeqEnforcer} {t clock : Int} {q s : Nat} (hw : clock ≤ f.when_)
    (hc : clock ≤ t) :
    clock ≤ (f.tryAdvance t s p).2.when_ ∧
    (q ≤ f.seq_ → q ≤ (f.tryAdvance t s p).2.seq_ ∨ clock + p.validationSET_EXPIRES < t) := by
  rw [SeqEnforcer.tryAdvance]
  by_cases hexp : f.when_ + p.validationSET_EXPIRES < t
  · simp only [hexp, if_true]
    refine ⟨?_, fun _ => .inr (by omega)⟩
    split_ifs <;> assumption
  simp only [hexp, if_false]
  by_cases hs : s ≤ f.seq_
  · simp only [hs, if_true]
    exact ⟨hw, fun hq => .inl hq⟩
  · simp only [hs, if_false]
    exact ⟨hc, fun hq => .inl (by omega)⟩

variable {e : Acceptance ID N} {v : Validation ID}

theorem apply_sameRecords (hc : match c with
      | .add .. | .trustChanged .. | .expire .. | .numTrustedForLedger .. => False
      | _ => True) : SameRecords s (apply a p s c) := by
  cases c with
  | canValidateSeq clock seq | setSeqToKeep seq => exact ⟨rfl, rfl, rfl⟩
  | getPreferred now curr =>
    have hw := withTrie_sameRecords (a := a) (p := p) now s
    rw [apply, getPreferred]
    split
    · exact ⟨hw.byLedger, hw.bySequence, hw.enforcers⟩
    · exact ⟨hw.byLedger, hw.bySequence, hw.enforcers⟩
  | getNodesAfter now ledger ledgerID =>
    rw [apply, getNodesAfter]
    by_cases hid : Ledger.id ledger = ledgerID
    · rw [if_pos hid]
      exact withTrie_sameRecords now s
    · rw [if_neg hid]
      exact SameRecords.refl s
  | currentTrusted now => exact current_sameRecords now s
  | add | trustChanged | expire | numTrustedForLedger => exact hc.elim

theorem enforcer_apply (n : N) :
    enforcer (apply a p s c) n = enforcer s n ∨ ∃ now clock v, c = .add now clock n v ∧
      enforcer (apply a p s c) n = ((enforcer s n).tryAdvance clock v.seq p).2 := by
  cases c with
  | add now clock m v =>
    cases hcur : isCurrent p now v.signTime v.seenTime with
    | false => exact .inl (by simp [apply, add, hcur])
    | true =>
      obtain ⟨henf, _⟩ := add_records (a := a) (s := s) clock m hcur
      rw [apply, enforcer, henf, HashMap.lookup_insert_eq]
      by_cases hn : n = m
      · subst hn
        exact .inr ⟨now, clock, v, rfl, by rw [if_pos rfl]; rfl⟩
      · rw [if_neg hn]
        exact .inl rfl
  | trustChanged added removed => exact .inl (by rw [enforcer, apply, (trustChanged_records _ _).1]; rfl)
  | expire clock => exact .inl (by rw [enforcer, apply, (expire_records _).1]; rfl)
  | numTrustedForLedger clock ledgerID => exact .inl rfl
  | _ => exact .inl (by rw [enforcer, (apply_sameRecords trivial).enforcers]; rfl)

theorem byLedger_apply {i : ID} {e : Aged (HashMap N (Validation ID))} {n : N}
    (he : (apply a p s c).byLedger_.lookup i = some e) (hv : e.value.lookup n = some v) :
    (∃ e' w, s.byLedger_.lookup i = some e' ∧ e'.value.lookup n = some w ∧
      v.key = w.key) ∨ ∃ x, accepts p s c = some x ∧ x.node = n ∧ x.val = v ∧ v.ledgerID = i := by
  cases c with
  | add now clock m w =>
    cases hcur : isCurrent p now w.signTime w.seenTime with
    | false =>
      simp only [apply, add, hcur] at he
      exact .inl ⟨e, v, he, hv, rfl⟩
    | true =>
      obtain ⟨_, _, hby⟩ := add_records (a := a) (s := s) clock m hcur
      rw [apply, hby] at he
      cases hadv : ((enforcer s m).tryAdvance clock w.seq p).1 with
      | false =>
        rw [hadv] at he
        exact .inl ⟨e, v, he, hv, rfl⟩
      | true =>
        rw [hadv, if_pos rfl, HashMap.lookup_insert_eq] at he
        by_cases hi : i = w.ledgerID
        · rw [if_pos hi] at he
          cases he
          rw [HashMap.lookup_insert_eq] at hv
          by_cases hn : n = m
          · rw [if_pos hn] at hv
            cases hv
            exact .inr ⟨⟨clock, m, v⟩, by simp [accepts, hcur, hadv], hn.symm, rfl, hi.symm⟩
          rw [if_neg hn, Aged.subscript, ← hi] at hv
          cases hl : s.byLedger_.lookup i with
          | none => simp [hl] at hv
          | some e' =>
            rw [hl, Option.getD_some] at hv
            exact .inl ⟨e', v, rfl, hv, rfl⟩
        · rw [if_neg hi] at he
          exact .inl ⟨e, v, he, hv, rfl⟩
  | trustChanged added removed =>
    rw [apply, (trustChanged_records _ _).2.2, HashMap.lookup_mapValues, Option.map_eq_some_iff] at he
    obtain ⟨e', he', rfl⟩ := he
    rw [HashMap.lookup_mapValues, Option.map_eq_some_iff] at hv
    obtain ⟨w, hw, rfl⟩ := hv
    refine .inl ⟨e', w, he', hw, ?_⟩
    rw [retrust]
    split_ifs <;> rfl
  | expire clock =>
    obtain ⟨e', he', hval⟩ := (expire_records clock).2.2 i e he
    exact .inl ⟨e', v, he', hval ▸ hv, rfl⟩
  | numTrustedForLedger clock ledgerID =>
    rw [apply, numTrustedForLedger, HashMap.lookup_mapValues, Option.map_eq_some_iff] at he
    obtain ⟨e', he', rfl⟩ := he
    refine .inl ⟨e', v, he', ?_, rfl⟩
    rw [← hv]
    split_ifs <;> rfl
  | _ =>
    rw [(apply_sameRecords trivial).byLedger] at he
    exact .inl ⟨e, v, he, hv, rfl⟩

omit [LinearOrder ID] in
theorem trackSequence_cases (v : Validation ID) (old : Option (Validation ID)) :
    trackSequence p v old = v ∨ old = some (trackSequence p v old) := by
  cases old with
  | none => exact .inl rfl
  | some u =>
    simp only [trackSequence]
    split_ifs
    · exact .inl rfl
    · exact .inr rfl

theorem bySequence_apply {q : Nat} {e : Aged (HashMap N (Validation ID))} {n : N}
    (he : (apply a p s c).bySequence_.lookup q = some e) (hv : e.value.lookup n = some v) :
    (∃ e', s.bySequence_.lookup q = some e' ∧ e'.value.lookup n = some v) ∨ v.seq = q := by
  cases c with
  | add now clock m w =>
    cases hcur : isCurrent p now w.signTime w.seenTime with
    | false =>
      simp only [apply, add, hcur] at he
      exact .inl ⟨e, he, hv⟩
    | true =>
      obtain ⟨_, hby, _⟩ := add_records (a := a) (s := s) clock m hcur
      have hs : ∀ u, (Aged.subscript s.bySequence_ clock w.seq ∅).value.lookup n = some u →
          ∃ e', s.bySequence_.lookup w.seq = some e' ∧ e'.value.lookup n = some u := by
        intro u hu
        rw [Aged.subscript] at hu
        cases hl : s.bySequence_.lookup w.seq with
        | none => simp [hl] at hu
        | some e' => exact ⟨e', rfl, by simpa [hl] using hu⟩
      rw [apply, hby, HashMap.lookup_insert_eq] at he
      by_cases hq : q = w.seq
      · rw [if_pos hq] at he
        cases he
        rw [HashMap.lookup_insert_eq] at hv
        subst hq
        by_cases hn : n = m
        · subst hn
          rw [if_pos rfl] at hv
          cases hv
          obtain ht | ht := trackSequence_cases (p := p) w
            ((Aged.subscript s.bySequence_ clock w.seq ∅).value.lookup n)
          · exact .inr (by rw [ht])
          · exact .inl (hs _ ht)
        · rw [if_neg hn] at hv
          exact .inl (hs v hv)
      · rw [if_neg hq] at he
        exact .inl ⟨e, he, hv⟩
  | trustChanged added removed =>
    rw [apply, (trustChanged_records _ _).2.1] at he
    exact .inl ⟨e, he, hv⟩
  | expire clock =>
    obtain ⟨e', he', hval⟩ := (expire_records clock).2.1 q e he
    exact .inl ⟨e', he', hval ▸ hv⟩
  | numTrustedForLedger clock ledgerID => exact .inl ⟨e, he, hv⟩
  | _ =>
    rw [(apply_sameRecords trivial).bySequence] at he
    exact .inl ⟨e, he, hv⟩

theorem accepts_eq_some (h : accepts p s c = some e) : (∃ now, c = .add now e.clock e.node e.val) ∧
    ((enforcer s e.node).tryAdvance e.clock e.val.seq p).1 ∧
    enforcer (apply a p s c) e.node = ⟨e.val.seq, e.clock⟩ := by
  cases c with
  | add now clock n v =>
    simp only [accepts] at h
    split_ifs at h with hok
    cases h
    obtain ⟨hcur, hadv⟩ := Bool.and_eq_true_iff.mp hok
    obtain ⟨henf, _⟩ := add_records (a := a) (s := s) clock n hcur
    refine ⟨⟨now, rfl⟩, hadv, ?_⟩
    rw [apply, enforcer, henf, Finmap.lookup_insert, Option.getD_some,
      SeqEnforcer.tryAdvance_fst hadv]
  | _ => cases h

theorem Trace.time_le_step (hc : r.Monotone c) : r.time ≤ (r.step a p c).time := by
  cases hcl : c.clock with
  | none => simp [Trace.step, hcl]
  | some t => simpa [Trace.step, hcl] using hc t hcl

theorem Trace.mem_log_step : e ∈ (r.step a p c).log ↔ e ∈ r.log ∨ accepts p r.state c = some e := by
  simp [Trace.step]

/-- An enforcer that binds still does so after a call, unless the time has run out. -/
theorem Enforced.kept (h : Enforced p r) (hc : r.Monotone c) (he : e ∈ r.log) :
    e.clock ≤ (enforcer (apply a p r.state c) e.node).when_ ∧
    (e.val.seq ≤ (enforcer (apply a p r.state c) e.node).seq_ ∨
      e.clock + p.validationSET_EXPIRES < (r.step a p c).time) := by
  obtain hs | ⟨now, t, v, rfl, heq⟩ := enforcer_apply (a := a) (p := p) (s := r.state) (c := c)
    e.node
  · rw [hs]
    exact ⟨h.since e he, (h.bound e he).imp_right (fun hb => hb.trans_le (Trace.time_le_step hc))⟩
  have hle : r.time ≤ t := hc t rfl
  obtain ⟨hw, hseq⟩ := tryAdvance_keeps (p := p) (t := t) (s := v.seq) (q := e.val.seq)
    (h.since e he) ((h.past e he).trans hle)
  rw [heq]
  refine ⟨hw, ?_⟩
  obtain hb | hb := h.bound e he
  · exact hseq hb
  · exact .inr (hb.trans_le hle)

theorem Enforced.step (h : Enforced p r) (hc : r.Monotone c) : Enforced p (r.step a p c) := by
  have hnew : ∀ e, accepts p r.state c = some e →
      (r.step a p c).time = e.clock ∧ r.time ≤ e.clock := by
    intro e he
    obtain ⟨⟨now, rfl⟩, _⟩ := accepts_eq_some (a := a) he
    exact ⟨rfl, hc _ rfl⟩
  constructor
  · intro e he
    obtain he | he := Trace.mem_log_step.mp he
    · exact (h.past e he).trans (Trace.time_le_step hc)
    · exact (hnew e he).1.ge
  · intro e he
    obtain he | he := Trace.mem_log_step.mp he
    · exact (h.kept hc he).1
    · exact (accepts_eq_some he).2.2 ▸ le_rfl
  · intro e he
    obtain he | he := Trace.mem_log_step.mp he
    · exact (h.kept hc he).2
    · exact .inl ((accepts_eq_some he).2.2 ▸ le_rfl)
  · refine List.pairwise_append.mpr ⟨h.rising, ?_, fun e he e' he' => ?_⟩
    · cases accepts p r.state c <;> simp
    rw [Option.mem_toList] at he'
    obtain ⟨_, hadv, _⟩ := accepts_eq_some (a := a) he'
    have hle := (hnew e' he').2
    refine ⟨(h.past e he).trans hle, fun hn hwin => ?_⟩
    by_contra hseq
    rw [← hn, h.tryAdvance he hle hwin (not_lt.mp hseq)] at hadv
    cases hadv

/-- The records hold accepted validations under their ledger, and tracked ones under their
sequence number. -/
structure Recorded (r : Trace L ID N) : Prop where
  tracked : ∀ q e n v, r.state.bySequence_.lookup q = some e → e.value.lookup n = some v → v.seq = q
  logged : ∀ i e n v, r.state.byLedger_.lookup i = some e → e.value.lookup n = some v →
    v.ledgerID = i ∧ ∃ x ∈ r.log, x.node = n ∧ x.val.key = v.key

theorem Recorded.step (h : Recorded r) : Recorded (r.step a p c) := by
  constructor
  · intro q e n v he hv
    obtain ⟨e', he', hv'⟩ | hq := bySequence_apply he hv
    · exact h.tracked q e' n v he' hv'
    · exact hq
  intro i e n v he hv
  obtain ⟨e', w, he', hw, hkey⟩ | ⟨x, hx, hn, rfl, hi⟩ := byLedger_apply he hv
  · obtain ⟨hi, x, hx, hn, hxk⟩ := h.logged i e' n w he' hw
    refine ⟨(congrArg Prod.snd hkey).trans hi, x, Trace.mem_log_step.mpr (.inl hx), hn, ?_⟩
    rw [hxk, hkey]
  · exact ⟨hi, x, Trace.mem_log_step.mpr (.inr hx), hn, rfl⟩

theorem recorded_start (t₀ : Int) : Recorded (Trace.start t₀ : Trace L ID N) := by
  constructor
  · intro q e n v he
    simp [Trace.start, new] at he
  · intro i e n v he
    simp [Trace.start, new] at he

/-- Acceptances of one node for one sequence number, none of which had expired when the other came,
are for one ledger. -/
def Agree (p : ValidationParms) (x y : Acceptance ID N) : Prop :=
  x.node = y.node → x.val.seq = y.val.seq → x.clock ≤ y.clock + p.validationSET_EXPIRES →
    y.clock ≤ x.clock + p.validationSET_EXPIRES → x.val.ledgerID = y.val.ledgerID

instance : Std.Symm (Agree p : Acceptance ID N → Acceptance ID N → Prop) :=
  ⟨fun _ _ h hn hs hxy hyx => (h hn.symm hs.symm hyx hxy).symm⟩

omit [Ledger L ID] [LinearOrder ID] in
theorem Enforced.agree (h : Enforced p r) {x y : Acceptance ID N} (hx : x ∈ r.log)
    (hy : y ∈ r.log) : Agree p x y := by
  refine List.Pairwise.forall_of_forall (R := Agree p) (fun _ _ _ _ _ _ => rfl) ?_ hx hy
  exact h.rising.imp (fun hr hn hs _ hw => absurd hs (hr.2 hn hw).ne)

/-- Within the expiry of an accepted validation, one for the same or a lower sequence number is not
taken, and it is reported when it contradicts the one that is tracked. -/
theorem byzantine_filter (t₀ : Int) (cs : List (Call L ID N))
    (h : Run.Allowed (Trace.step a p) Trace.Monotone (Trace.start t₀) cs) :
    let r := cs.foldl (Trace.step a p) (Trace.start t₀)
    (∀ e ∈ r.log, ∀ now t v, r.time ≤ t → t ≤ e.clock + p.validationSET_EXPIRES →
      v.seq ≤ e.val.seq →
      let result := add a p now t r.state e.node v
      result.1 ≠ .current ∧ result.2.byLedger_ = r.state.byLedger_ ∧
      result.2.current_ = r.state.current_ ∧ result.2.lastLedger_ = r.state.lastLedger_ ∧
      result.2.trie_ = r.state.trie_ ∧
      (isCurrent p now v.signTime v.seenTime → ∀ slot u,
        r.state.bySequence_.lookup v.seq = some slot → slot.value.lookup e.node = some u →
        max u.signTime v.signTime - min u.signTime v.signTime ≤ p.validationCURRENT_WALL →
        u.ledgerID ≠ v.ledgerID → result.1 = .conflicting)) ∧
    (∀ n i v, (trustedFor r.state i).lookup n = some v →
      ∃ x ∈ r.log, x.node = n ∧ x.val.seq = v.seq ∧ x.val.ledgerID = i) ∧
    ∀ x ∈ r.log, ∀ y ∈ r.log, Agree p x y := by
  intro r
  have henf : Enforced p r := Run.invariant (Enforced p) (fun _ _ hr hc => hr.step hc) cs
    (by constructor <;> simp [Trace.start]) h
  have hrec : Recorded r := Run.invariant Recorded (fun _ _ hr _ => hr.step) cs (recorded_start t₀) h
  refine ⟨fun e he now t v ht hwin hseq => ?_, fun n i v hv => ?_, fun x hx y hy => henf.agree hx hy⟩
  · have hadv := henf.tryAdvance he ht hwin hseq
    rw [enforcer] at hadv
    cases hcur : isCurrent p now v.signTime v.seenTime with
    | false =>
      have hadd : add a p now t r.state e.node v = (.stale, r.state) := by simp [add, hcur]
      rw [hadd]
      exact ⟨by simp, rfl, rfl, rfl, rfl, by simp⟩
    | true =>
      simp only [add, hcur, if_true, hadv]
      refine ⟨?_, rfl, rfl, rfl, rfl, fun _ slot u hslot hu hsign hid => ?_⟩
      · simp only [Bool.false_eq_true, if_false, violation]
        split_ifs <;> simp
      have hsub : Aged.subscript r.state.bySequence_ t v.seq ∅ = slot := by
        rw [Aged.subscript, hslot, Option.getD_some]
      have htrack : trackSequence p v (some u) = u := by
        simp only [trackSequence]
        rw [if_neg (fun hdiff => absurd hdiff.1 (not_lt.mpr hsign))]
      simp only [Bool.false_eq_true, if_false, hsub, hu, htrack, violation]
      rw [if_pos ⟨hrec.tracked v.seq slot e.node u hslot hu, hid⟩]
  · rw [trustedFor] at hv
    cases hl : r.state.byLedger_.lookup i with
    | none => simp [hl] at hv
    | some e =>
      rw [hl] at hv
      simp only [HashMap.lookup_filter, Option.filter_eq_some_iff] at hv
      obtain ⟨hi, x, hx, hn, hkey⟩ := hrec.logged i e n v hl hv.1
      exact ⟨x, hx, hn, congrArg Prod.fst hkey, (congrArg Prod.snd hkey).trans hi⟩

theorem byzantine_filter_path :
    let cs : List (Call Path (List Nat) Nat) := [.add 100 100 7 (pathValidation [1] 100 true)]
    let r := cs.foldl (Trace.step (Adaptor.sorted (acquireBranch [1])) {}) (Trace.start 0)
    (add (Adaptor.sorted (acquireBranch [1])) {} 150 150 r.state 7 (pathValidation [2] 150 true)).1 =
      .conflicting := by
  intro cs
  have h := (byzantine_filter (a := Adaptor.sorted (acquireBranch [1])) (p := {}) 0 cs
    ⟨fun t ht => by cases ht; decide, trivial⟩).1
    ⟨100, 7, pathValidation [1] 100 true⟩ (by decide +kernel) 150 150 (pathValidation [2] 150 true)
    (by decide +kernel) (by decide) (by decide)
  exact h.2.2.2.2.2 (by decide) _ (pathValidation [1] 100 true) rfl (by decide +kernel) (by decide)
    (by decide)

/-- A contradicting validation that is not current is stale before it is conflicting, and what was
accepted before the expiry remains counted besides what is accepted after it. -/
theorem contradiction_not_reported :
    let cs : List (Call Path (List Nat) Nat) := [.add 100 100 7 (pathValidation [1] 100 true)]
    let cs' : List (Call Path (List Nat) Nat) := [.add 100 100 7 (pathValidation [1] 100 true),
      .add 800 800 7 (pathValidation [2] 800 true)]
    let a : Adaptor Path (List Nat) Nat := Adaptor.sorted (acquireBranch [1])
    let s := cs.foldl (apply a {}) new
    let s' := cs'.foldl (apply a {}) new
    (add a {} 400 400 s 7 (pathValidation [2] 150 true)).1 = .stale ∧
    (numTrustedForLedger 800 s' [1]).1 = 1 ∧ (numTrustedForLedger 800 s' [2]).1 = 1 := by
  decide +kernel

end Rippled.Validations
