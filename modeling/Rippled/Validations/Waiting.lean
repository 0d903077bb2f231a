import Rippled.Validations.Books

namespace Rippled.Validations

open Ledger hiding id
open Lib

variable {L ID N : Type} [Ledger L ID] [LinearOrder ID]

section

variable (acquiring : HashMap (Nat × ID) (Finset N))

def Waits (key : Nat × ID) (nodeID : N) : Prop :=
  ∃ nodes, acquiring.lookup key = some nodes ∧ nodeID ∈ nodes

def NoneEmpty : Prop :=
  ∀ key nodes, acquiring.lookup key = some nodes → nodes.Nonempty

end

section Sets

variable {acquiring : HashMap (Nat × ID) (Finset N)} {key k : Nat × ID} {nodeID n : N}

theorem waits_insert {nodes : Finset N} : Waits (acquiring.insert key nodes) k n ↔
      (k = key ∧ n ∈ nodes) ∨ (k ≠ key ∧ Waits acquiring k n) := by
  simp only [Waits, HashMap.lookup_insert_eq]
  by_cases hk : k = key
  · simp [hk]
  · simp [hk]

theorem waits_erase : Waits (acquiring.erase key) k n ↔ k ≠ key ∧ Waits acquiring k n := by
  simp only [Waits, HashMap.lookup_erase_eq]
  by_cases hk : k = key
  · simp [hk]
  · simp [hk]

theorem NoneEmpty.insert (h : NoneEmpty acquiring) {nodes : Finset N} (hn : nodes.Nonempty) :
    NoneEmpty (acquiring.insert key nodes) := by
  intro k ns hk
  rw [HashMap.lookup_insert_eq] at hk
  split_ifs at hk
  · cases hk
    exact hn
  · exact h k ns hk

theorem NoneEmpty.erase (h : NoneEmpty acquiring) : NoneEmpty (acquiring.erase key) := by
  intro k ns hk
  rw [HashMap.lookup_erase_eq] at hk
  split_ifs at hk
  exact h k ns hk

variable [DecidableEq N]

theorem waits_dropWaiting : Waits (dropWaiting acquiring key nodeID) k n ↔
      Waits acquiring k n ∧ ¬ (k = key ∧ n = nodeID) := by
  rw [dropWaiting]
  cases hl : acquiring.lookup key with
  | none =>
    refine (and_iff_left_of_imp ?_).symm
    rintro ⟨nodes, hk, _⟩ ⟨rfl, _⟩
    rw [hl] at hk
    cases hk
  | some nodes =>
    have hw : ∀ m, Waits acquiring key m ↔ m ∈ nodes := fun m => by simp [Waits, hl]
    by_cases he : nodes.erase nodeID = ∅
    · have hsub : ∀ m ∈ nodes, m = nodeID := fun m hm => by
        by_contra hne
        exact absurd (Finset.mem_erase.mpr ⟨hne, hm⟩) (by simp [he])
      simp only [he, if_true, waits_erase]
      by_cases hk : k = key
      · subst hk
        simp only [ne_eq, not_true_eq_false, false_and, hw, true_and, false_iff, not_and, not_not]
        exact hsub n
      · simp [hk]
    · simp only [he, if_false, waits_insert, Finset.mem_erase]
      by_cases hk : k = key
      · subst hk
        simp [hw, and_comm]
      · simp [hk]

theorem NoneEmpty.dropWaiting (h : NoneEmpty acquiring) :
    NoneEmpty (dropWaiting acquiring key nodeID) := by
  rw [Validations.dropWaiting]
  cases hl : acquiring.lookup key with
  | none => exact h
  | some nodes =>
    by_cases he : nodes.erase nodeID = ∅
    · simpa only [he, if_true] using h.erase
    · simpa only [he, if_false] using h.insert (Finset.nonempty_iff_ne_empty.mpr he)

end Sets

variable [DecidableEq N]

/-- What a check of the pending acquisitions can do: for some nodes the ledger they waited for is
delivered and becomes their last ledger. -/
structure Progress (a : Adaptor L ID N) (s s' : Validations L ID N) : Prop where
  current : s'.current_ = s.current_
  calls : s.calls ≤ s'.calls
  waits : ∀ k n, Waits s'.acquiring_ k n → Waits s.acquiring_ k n
  settled : ∀ k, s.acquiring_.lookup k = none → s'.acquiring_.lookup k = none
  noneEmpty : NoneEmpty s.acquiring_ → NoneEmpty s'.acquiring_
  last : ∀ n, s'.lastLedger_.lookup n = s.lastLedger_.lookup n ∨
    ∃ k l, Waits s.acquiring_ k n ∧ s'.acquiring_.lookup k = none ∧
      s'.lastLedger_.lookup n = some l ∧ ∃ c < s'.calls, a.acquire c k.2 = some l

variable {a : Adaptor L ID N}

omit [Ledger L ID] [DecidableEq N] in
theorem not_waits_of_lookup {s : Validations L ID N} {k : Nat × ID} {n : N}
    (h : s.acquiring_.lookup k = none) : ¬ Waits s.acquiring_ k n := by
  rintro ⟨nodes, hk, _⟩
  rw [h] at hk
  cases hk

section

omit [Ledger L ID]

theorem Progress.of_calls (a : Adaptor L ID N) (s : Validations L ID N) {c : Nat} (h : s.calls ≤ c) :
    Progress a s { s with calls := c } :=
  ⟨rfl, h, fun _ _ hw => hw, fun _ hk => hk, fun hn => hn, fun _ => .inl rfl⟩

theorem Progress.refl (s : Validations L ID N) : Progress a s s := Progress.of_calls a s le_rfl

theorem Progress.trans {s s' s'' : Validations L ID N} (h : Progress a s s')
    (h' : Progress a s' s'') : Progress a s s'' := by
  refine ⟨h'.current.trans h.current, h.calls.trans h'.calls,
    fun k n hw => h.waits k n (h'.waits k n hw), fun k hk => h'.settled k (h.settled k hk),
    fun hn => h'.noneEmpty (h.noneEmpty hn), fun n => ?_⟩
  obtain h2 | ⟨k, l, hw, hk, hl, hc⟩ := h'.last n
  · obtain h1 | ⟨k, l, hw, hk, hl, c, hc, hacq⟩ := h.last n
    · exact .inl (h2.trans h1)
    · exact .inr ⟨k, l, hw, h'.settled k hk, h2.trans hl, c, hc.trans_le h'.calls, hacq⟩
  · exact .inr ⟨k, l, h.waits k n hw, hk, hl, hc⟩

end

section Loops

variable {s : Validations L ID N}

theorem lookup_updateTrieLedger (s : Validations L ID N) (nodeID n : N) (ledger : L) :
    (updateTrieLedger s nodeID ledger).lastLedger_.lookup n =
      if n = nodeID then some ledger else s.lastLedger_.lookup n :=
  HashMap.lookup_insert_eq _ _ _ _

theorem foldl_updateTrieLedger (order : List N) (s : Validations L ID N) (ledger : L) :
    let s' := order.foldl (fun s nodeID => updateTrieLedger s nodeID ledger) s
    s'.current_ = s.current_ ∧ s'.acquiring_ = s.acquiring_ ∧ s'.calls = s.calls ∧
      ∀ n, s'.lastLedger_.lookup n = if n ∈ order then some ledger else s.lastLedger_.lookup n := by
  induction order generalizing s with
  | nil => simp
  | cons m order ih =>
    obtain ⟨hcur, hacq, hc, hl⟩ := ih (updateTrieLedger s m ledger)
    refine ⟨hcur, hacq, hc, fun n => ?_⟩
    rw [List.foldl_cons, hl n, lookup_updateTrieLedger]
    by_cases hn : n ∈ order
    · simp [hn]
    · simp [hn]

variable (ha : a.Lawful)

include ha

section

variable (s : Validations L ID N)

theorem checkKey_cases (key : Nat × ID) : (s.acquiring_.lookup key = none ∧ checkKey a s key = s) ∨
    (a.acquire s.calls key.2 = none ∧ checkKey a s key = { s with calls := s.calls + 1 }) ∨
    ∃ ledger, a.acquire s.calls key.2 = some ledger ∧ Ledger.id ledger = key.2 ∧
      (checkKey a s key).current_ = s.current_ ∧
      (checkKey a s key).calls = s.calls + 1 ∧
      (checkKey a s key).acquiring_ = s.acquiring_.erase key ∧
      (∀ n, Waits s.acquiring_ key n → (checkKey a s key).lastLedger_.lookup n = some ledger) ∧
      ∀ n, ¬ Waits s.acquiring_ key n →
        (checkKey a s key).lastLedger_.lookup n = s.lastLedger_.lookup n := by
  cases hl : s.acquiring_.lookup key with
  | none => exact .inl ⟨rfl, by simp only [checkKey, hl]⟩
  | some nodes =>
    cases hacq : a.acquire s.calls key.2 with
    | none => exact .inr (.inl ⟨rfl, by simp only [checkKey, hl, hacq]⟩)
    | some ledger =>
      have hw : ∀ n, Waits s.acquiring_ key n ↔ n ∈ a.nodeOrder s.calls nodes := fun n => by
        simp [Waits, hl, ha.mem_nodeOrder]
      obtain ⟨hcur, hacq', hc, hls⟩ := foldl_updateTrieLedger (a.nodeOrder s.calls nodes)
        { s with calls := s.calls + 1 } ledger
      refine .inr (.inr ⟨ledger, rfl, ha.acquire_id _ _ _ hacq, ?_⟩)
      simp only [checkKey, hl, hacq, hw]
      refine ⟨hcur, hc, by rw [hacq'], fun n hn => ?_, fun n hn => ?_⟩
      · rw [hls n, if_pos hn]
      · rw [hls n, if_neg hn]

theorem checkKey_progress (key : Nat × ID) : Progress a s (checkKey a s key) := by
  obtain ⟨_, h⟩ | ⟨_, h⟩ | ⟨l, hl, _, hcur, hc, hacq, hin, hout⟩ := checkKey_cases ha s key
  · rw [h]
    exact Progress.refl s
  · rw [h]
    exact Progress.of_calls a s (Nat.le_succ _)
  refine ⟨hcur, hc ▸ Nat.le_succ _, fun k n hw => ?_, fun k hk => ?_, fun hn => ?_, fun n => ?_⟩
  · rw [hacq, waits_erase] at hw
    exact hw.2
  · rw [hacq, HashMap.lookup_erase_eq, hk, ite_self]
  · rw [hacq]
    exact hn.erase
  · by_cases hw : Waits s.acquiring_ key n
    · refine .inr ⟨key, l, hw, ?_, hin n hw, s.calls, hc ▸ Nat.lt_succ_self _, hl⟩
      rw [hacq, Finmap.lookup_erase]
    · exact .inl (hout n hw)

theorem foldl_checkKey_progress (keys : List (Nat × ID)) (s : Validations L ID N) :
    Progress a s (keys.foldl (checkKey a) s) :=
  List.foldlRecOn keys _ (Progress.refl s) fun s' hs key _ => hs.trans (checkKey_progress ha s' key)

theorem checkAcquired_progress : Progress a s (checkAcquired a s) :=
  (Progress.of_calls a s (Nat.le_succ _)).trans (foldl_checkKey_progress ha _ _)

end

theorem acquire_failed {key : Nat × ID} {n : N} (hw : Waits (checkAcquired a s).acquiring_ key n) :
    ∃ c, s.calls ≤ c ∧ a.acquire c key.2 = none := by
  have hlp : ∀ (keys : List (Nat × ID)) (s : Validations L ID N), key ∈ keys →
      Waits (keys.foldl (checkKey a) s).acquiring_ key n →
      ∃ c, s.calls ≤ c ∧ a.acquire c key.2 = none := by
    intro keys
    induction keys with
    | nil => simp
    | cons k keys ih =>
      intro s hmem hw
      have hw' := (foldl_checkKey_progress ha keys (checkKey a s k)).waits key n hw
      by_cases hk : key = k
      · subst hk
        obtain ⟨hn, h⟩ | ⟨hf, _⟩ | ⟨l, _, _, _, _, hacq, _⟩ := checkKey_cases ha s key
        · rw [h] at hw'
          exact absurd hw' (not_waits_of_lookup hn)
        · exact ⟨s.calls, le_rfl, hf⟩
        · rw [hacq, waits_erase] at hw'
          exact absurd rfl hw'.1
      · obtain ⟨c, hc, hf⟩ := ih (checkKey a s k) ((List.mem_cons.mp hmem).resolve_left hk) hw
        exact ⟨c, (checkKey_progress ha s k).calls.trans hc, hf⟩
  have hkey : key ∈ a.keyOrder s.calls s.acquiring_.keys := by
    obtain ⟨nodes, hl, _⟩ := (checkAcquired_progress ha s).waits key n hw
    rw [ha.mem_keyOrder, Finmap.mem_keys]
    exact Finmap.mem_of_lookup_eq_some hl
  obtain ⟨c, hc, hf⟩ := hlp _ _ hkey hw
  exact ⟨c, (Nat.le_succ _).trans hc, hf⟩

end Loops

variable {L ID N : Type} [LinearOrder ID] [DecidableEq N] {a : Adaptor L ID N}
  {s s' : Validations L ID N} {n : N} {v old : Validation ID}

/-- Who waits has a trusted current validation for that ledger. -/
structure AcquiringOk (s : Validations L ID N) : Prop where
  waits : ∀ k n, Waits s.acquiring_ k n → ∃ v, s.current_.lookup n = some v ∧ v.trusted ∧ v.key = k
  noneEmpty : NoneEmpty s.acquiring_

namespace AcquiringOk

variable (h : AcquiringOk s)

include h

theorem key_eq {k : Nat × ID} (hw : Waits s.acquiring_ k n) (hcur : s.current_.lookup n = some v) :
    v.trusted ∧ v.key = k := by
  obtain ⟨w, hw', ht, hk⟩ := h.waits k n hw
  rw [hcur] at hw'
  cases hw'
  exact ⟨ht, hk⟩

theorem progress (hp : Progress a s s') : AcquiringOk s' := by
  refine ⟨fun k n hw => ?_, hp.noneEmpty h.noneEmpty⟩
  rw [hp.current]
  exact h.waits k n (hp.waits k n hw)

theorem replace (hacq : s'.acquiring_ = s.acquiring_)
    (hcur : ∀ m, m ≠ n → s'.current_.lookup m = s.current_.lookup m)
    (hn : ∀ k, Waits s.acquiring_ k n → ∃ v, s'.current_.lookup n = some v ∧ v.trusted ∧ v.key = k) :
    AcquiringOk s' := by
  constructor
  · intro k m hw
    rw [hacq] at hw
    by_cases hm : m = n
    · subst hm
      exact hn k hw
    · rw [hcur m hm]
      exact h.waits k m hw
  · rw [hacq]
    exact h.noneEmpty

variable (hold : s.current_.lookup n = some old)

include hold

theorem not_waits_dropWaiting (k : Nat × ID) :
    ¬ Waits (dropWaiting s.acquiring_ old.key n) k n := by
  intro hw
  rw [waits_dropWaiting] at hw
  exact hw.2 ⟨(h.key_eq hw.1 hold).2.symm, rfl⟩

theorem vacate (hacq : s'.acquiring_ = dropWaiting s.acquiring_ old.key n)
    (hcur : ∀ m, m ≠ n → s'.current_.lookup m = s.current_.lookup m) : AcquiringOk s' := by
  have hd : AcquiringOk { s with acquiring_ := dropWaiting s.acquiring_ old.key n } :=
    ⟨fun k m hw => h.waits k m (waits_dropWaiting.mp hw).1, h.noneEmpty.dropWaiting⟩
  exact hd.replace hacq hcur (fun k hw => absurd hw (h.not_waits_dropWaiting hold k))

end AcquiringOk

structure Enqueued (n : N) (key : Nat × ID) (s s' : Validations L ID N) : Prop where
  current : s'.current_ = s.current_
  last : s'.lastLedger_ = s.lastLedger_
  trie : s'.trie_ = s.trie_
  calls : s.calls ≤ s'.calls
  waits : ∀ k m, Waits s'.acquiring_ k m ↔ Waits s.acquiring_ k m ∨ (k = key ∧ m = n)
  noneEmpty : NoneEmpty s.acquiring_ → NoneEmpty s'.acquiring_

theorem AcquiringOk.enqueued (h : AcquiringOk s) (hcur : s.current_.lookup n = some v)
    (ht : v.trusted) (he : Enqueued n v.key s s') : AcquiringOk s' := by
  refine ⟨fun k m hw => ?_, he.noneEmpty h.noneEmpty⟩
  rw [he.current]
  obtain hw | ⟨rfl, rfl⟩ := (he.waits k m).mp hw
  · exact h.waits k m hw
  · exact ⟨v, hcur, ht, rfl⟩

theorem clearPrior_current (s : Validations L ID N) (n : N) (prior : Option (Nat × ID)) :
    (clearPrior s n prior).current_ = s.current_ := by
  cases prior <;> rfl

variable [Ledger L ID]

theorem updateTrie_cases (s : Validations L ID N) (n : N) (v : Validation ID)
    (prior : Option (Nat × ID)) : let s₁ := checkAcquired a (clearPrior s n prior)
    (∃ l, s₁.acquiring_.lookup v.key = none ∧ a.acquire s₁.calls v.ledgerID = some l ∧
      updateTrie a s n v prior = updateTrieLedger { s₁ with calls := s₁.calls + 1 } n l) ∨
    (Enqueued n v.key s₁ (updateTrie a s n v prior) ∧
      (a.acquire s₁.calls v.ledgerID = none ∨ ∃ nodes, s₁.acquiring_.lookup v.key = some nodes)) := by
  intro s₁
  cases hl : s₁.acquiring_.lookup v.key with
  | some nodes =>
    refine .inr ⟨?_, .inr ⟨nodes, rfl⟩⟩
    have hup : updateTrie a s n v prior =
        { s₁ with acquiring_ := s₁.acquiring_.insert v.key (insert n nodes) } := by
      simp only [updateTrie, s₁] at hl ⊢
      simp only [hl]
    rw [hup]
    refine ⟨rfl, rfl, rfl, le_rfl, fun k m => ?_, fun hn => hn.insert ⟨n, by simp⟩⟩
    rw [waits_insert]
    by_cases hk : k = v.key
    · subst hk
      simp [Waits, hl, or_comm]
    · simp [hk]
  | none =>
    cases hacq : a.acquire s₁.calls v.ledgerID with
    | some l =>
      refine .inl ⟨l, rfl, rfl, ?_⟩
      simp only [updateTrie, s₁] at hl hacq ⊢
      simp only [hl, hacq]
    | none =>
      refine .inr ⟨?_, .inl rfl⟩
      have hup : updateTrie a s n v prior =
          { s₁ with acquiring_ := s₁.acquiring_.insert v.key {n}, calls := s₁.calls + 1 } := by
        simp only [updateTrie, s₁] at hl hacq ⊢
        simp only [hl, hacq]
      rw [hup]
      refine ⟨rfl, rfl, rfl, Nat.le_succ _, fun k m => ?_, fun hn => hn.insert ⟨n, by simp⟩⟩
      rw [waits_insert]
      by_cases hk : k = v.key
      · subst hk
        simp [Waits, hl]
      · simp [hk]

theorem AcquiringOk.updateTrie (ha : a.Lawful) {prior : Option (Nat × ID)}
    (h : AcquiringOk (clearPrior s n prior)) (hcur : s.current_.lookup n = some v)
    (ht : v.trusted) : AcquiringOk (updateTrie a s n v prior) := by
  have hp := checkAcquired_progress ha (clearPrior s n prior)
  have hok := h.progress hp
  have hcur' : (checkAcquired a (clearPrior s n prior)).current_.lookup n = some v := by
    rw [hp.current, clearPrior_current, hcur]
  obtain ⟨l, _, _, hup⟩ | ⟨hq, _⟩ := updateTrie_cases (a := a) s n v prior
  · rw [hup]
    constructor
    · simpa only [updateTrieLedger_acquiring, updateTrieLedger_current] using hok.waits
    · simpa only [updateTrieLedger_acquiring] using hok.noneEmpty
  · exact hok.enqueued hcur' ht hq

/-- A ledger that has been delivered once is delivered from then on. -/
def Adaptor.Retains (a : Adaptor L ID N) : Prop :=
  ∀ c c' i, c ≤ c' → a.acquire c i ≠ none → a.acquire c' i ≠ none

/-- The last ledger of a node was delivered, and it is not the one the node waits for. -/
structure Fresh (a : Adaptor L ID N) (s : Validations L ID N) : Prop where
  delivered : ∀ n l, s.lastLedger_.lookup n = some l →
    ∃ c < s.calls, a.acquire c (Ledger.id l) = some l
  fresh : ∀ k n l, Waits s.acquiring_ k n → s.lastLedger_.lookup n = some l → Ledger.id l ≠ k.2

namespace Fresh

theorem mono (h : Fresh a s) (hcl : s.calls ≤ s'.calls)
    (hwt : ∀ k n, Waits s'.acquiring_ k n → Waits s.acquiring_ k n)
    (hls : ∀ n l, s'.lastLedger_.lookup n = some l → s.lastLedger_.lookup n = some l) :
    Fresh a s' := by
  constructor
  · intro n l hl
    obtain ⟨c, hc, hacq⟩ := h.delivered n l (hls n l hl)
    exact ⟨c, hc.trans_le hcl, hacq⟩
  · intro k n l hw hl
    exact h.fresh k n l (hwt k n hw) (hls n l hl)

theorem progress (ha : a.Lawful) (h : Fresh a s) (hok : AcquiringOk s) (hp : Progress a s s') :
    Fresh a s' := by
  constructor
  · intro n l hl
    obtain hs | ⟨k, l', _, _, hl', c, hc, hacq⟩ := hp.last n
    · obtain ⟨c, hc, hacq⟩ := h.delivered n l (hs ▸ hl)
      exact ⟨c, hc.trans_le hp.calls, hacq⟩
    · rw [hl'] at hl
      cases hl
      exact ⟨c, hc, by rw [ha.acquire_id c k.2 _ hacq, hacq]⟩
  · intro k n l hw hl
    have hw₀ := hp.waits k n hw
    obtain hs | ⟨k', _, hw', hn, _⟩ := hp.last n
    · exact h.fresh k n l hw₀ (hs ▸ hl)
    · obtain ⟨u, hu, _, rfl⟩ := hok.waits k n hw₀
      have hk : u.key = k' := (hok.key_eq hw' hu).2
      exact absurd hw (not_waits_of_lookup (hk ▸ hn))

theorem updateTrie (ha : a.Lawful) (hr : a.Retains) {prior : Option (Nat × ID)}
    (hok : AcquiringOk (clearPrior s n prior)) (h : Fresh a (clearPrior s n prior))
    (hcur : s.current_.lookup n = some v) : Fresh a (updateTrie a s n v prior) := by
  have hcur₀ : (clearPrior s n prior).current_.lookup n = some v := by
    rw [clearPrior_current, hcur]
  have hp := checkAcquired_progress ha (clearPrior s n prior)
  have hok₁ := hok.progress hp
  have h₁ := h.progress ha hok hp
  obtain ⟨l, hn, hacq, hup⟩ | ⟨hq, hf⟩ := updateTrie_cases (a := a) s n v prior
  · rw [hup]
    constructor
    · intro m l' hl
      rw [lookup_updateTrieLedger] at hl
      by_cases hm : m = n
      · rw [if_pos hm] at hl
        cases hl
        exact ⟨_, Nat.lt_succ_self _, by rw [ha.acquire_id _ _ _ hacq, hacq]⟩
      · rw [if_neg hm] at hl
        obtain ⟨c, hc, hacq'⟩ := h₁.delivered m l' hl
        exact ⟨c, hc.trans (Nat.lt_succ_self _), hacq'⟩
    · intro k m l' hw hl
      rw [updateTrieLedger_acquiring] at hw
      rw [lookup_updateTrieLedger] at hl
      by_cases hm : m = n
      · subst hm
        have hk := (hok.key_eq (hp.waits k m hw) hcur₀).2
        exact absurd hw (not_waits_of_lookup (hk ▸ hn))
      · rw [if_neg hm] at hl
        exact h₁.fresh k m l' hw hl
  · constructor
    · intro m l hl
      rw [hq.last] at hl
      obtain ⟨c, hc, hacq⟩ := h₁.delivered m l hl
      exact ⟨c, hc.trans_le hq.calls, hacq⟩
    intro k m l hw hl hid
    rw [hq.last] at hl
    obtain hw | ⟨rfl, rfl⟩ := (hq.waits k m).mp hw
    · exact h₁.fresh k m l hw hl hid
    have hd : ∀ c' c, c' ≤ c → a.acquire c' (Ledger.id l) = some l →
        a.acquire c v.ledgerID ≠ none := by
      intro c' c hc hacq
      rw [show v.ledgerID = Ledger.id l from hid.symm]
      exact hr c' c _ hc (by simp [hacq])
    obtain hn | ⟨nodes, hnd⟩ := hf
    · obtain ⟨c, hc, hacq⟩ := h₁.delivered m l hl
      exact hd c _ hc.le hacq hn
    obtain ⟨m', hm'⟩ := hok₁.noneEmpty _ _ hnd
    obtain ⟨c, hc, hn⟩ := acquire_failed ha ⟨nodes, hnd, hm'⟩
    obtain hs | ⟨k', l', hw', hg, _⟩ := hp.last m
    · obtain ⟨c', hc', hacq⟩ := h.delivered m l (hs ▸ hl)
      exact hd c' c (hc'.le.trans hc) hacq hn
    · have hk := (hok.key_eq hw' hcur₀).2
      rw [← hk, hnd] at hg
      cases hg

end Fresh

end Rippled.Validations
