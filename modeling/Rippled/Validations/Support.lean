import Rippled.LedgerTrie.Refinement
import Rippled.Validations.Majority

namespace Rippled.Validations

open Ledger hiding id
open Lib
open LedgerTrie

variable {L ID N : Type} [Ledger L ID] [LinearOrder ID] [DecidableEq N] {a : Adaptor L ID N}
  {p : ValidationParms} {nodes : Finset N} {s s' : Validations L ID N} {n : N} {v : Validation ID}

/-- The trie holds the last ledger of every node that has one, and these nodes are known. -/
structure Represents (nodes : Finset N) (s : Validations L ID N) : Prop where
  trie : Refines s.trie_ (HashMap.values s.lastLedger_)
  known : ∀ n l, s.lastLedger_.lookup n = some l → n ∈ nodes

omit [LinearOrder ID] in
theorem Represents.card_erase_lt (hc : nodes.card < 2 ^ 32) (h : Represents nodes s)
    (hn : n ∈ nodes) : (HashMap.values (s.lastLedger_.erase n)).card + 1 < 2 ^ 32 := by
  have hsub : (s.lastLedger_.erase n).keys ⊆ nodes.erase n := by
    intro m hm
    obtain ⟨l, hl⟩ := Finmap.mem_iff.mp (Finmap.mem_keys.mp hm)
    rw [HashMap.lookup_erase_eq] at hl
    split_ifs at hl with hne
    exact Finset.mem_erase.mpr ⟨hne, h.known m l hl⟩
  have hle := Finset.card_le_card hsub
  rw [Finset.card_erase_of_mem hn] at hle
  have hpos := Finset.card_pos.mpr ⟨n, hn⟩
  rw [HashMap.card_values]
  omega

section Represents

variable [LawfulLedger L]

theorem Represents.sameBooks (h : Represents nodes s) (hs : SameBooks s s') :
    Represents nodes s' := by
  constructor
  · rw [hs.last]
    obtain heq | ⟨seq, heq⟩ := hs.trie
    · rw [heq]
      exact h.trie
    · rw [heq]
      exact h.trie.apply (.getPreferred seq) trivial
  · rw [hs.last]
    exact h.known

theorem Represents.updateTrieLedger (hc : nodes.card < 2 ^ 32) (h : Represents nodes s)
    (hn : n ∈ nodes) (l : L) : Represents nodes (updateTrieLedger s n l) := by
  have hr := h.card_erase_lt hc hn
  constructor
  · rw [updateTrieLedger_last, ← HashMap.insert_erase,
      HashMap.values_insert (Finmap.lookup_erase n s.lastLedger_), Validations.updateTrieLedger]
    cases hl : s.lastLedger_.lookup n with
    | none =>
      rw [HashMap.erase_of_lookup hl] at hr ⊢
      exact h.trie.insert_cons l hr
    | some old =>
      have hold := h.trie
      rw [HashMap.values_of_lookup hl] at hold
      exact hold.remove_cons.insert_cons l hr
  · intro m l' hl
    rw [lookup_updateTrieLedger] at hl
    by_cases hm : m = n
    · exact hm ▸ hn
    · rw [if_neg hm] at hl
      exact h.known m l' hl

theorem Represents.removeTrie (h : Represents nodes s) : Represents nodes (removeTrie s n v) := by
  rw [Validations.removeTrie]
  cases hl : s.lastLedger_.lookup n with
  | none => simpa only [hl] using ⟨h.trie, h.known⟩
  | some l =>
    by_cases hid : Ledger.id l = v.ledgerID
    · simp only [hid, if_true]
      have ht := h.trie
      rw [HashMap.values_of_lookup hl] at ht
      refine ⟨ht.remove_cons, fun m l' hl' => ?_⟩
      rw [HashMap.lookup_erase_eq] at hl'
      split_ifs at hl'
      exact h.known m l' hl'
    · simp only [hid, if_false]
      exact ⟨h.trie, h.known⟩

variable (ha : a.Lawful) (hc : nodes.card < 2 ^ 32) (h : Represents nodes s)

include ha hc h

theorem Represents.checkKey {key : Nat × ID} (hw : ∀ n, Waits s.acquiring_ key n → n ∈ nodes) :
    Represents nodes (checkKey a s key) := by
  rw [Validations.checkKey]
  cases hl : s.acquiring_.lookup key with
  | none => exact h
  | some waiting =>
    cases hacq : a.acquire s.calls key.2 with
    | none => exact ⟨h.trie, h.known⟩
    | some l =>
      have hst : Represents nodes { s with calls := s.calls + 1 } := ⟨h.trie, h.known⟩
      have hend := List.foldlRecOn (a.nodeOrder s.calls waiting)
        (fun s n => Validations.updateTrieLedger s n l) hst fun _ hs n hn =>
          hs.updateTrieLedger hc (hw n ⟨waiting, hl, (ha.mem_nodeOrder _ _ _).mp hn⟩) l
      exact ⟨hend.trie, hend.known⟩

theorem Represents.checkAcquired (hw : ∀ k n, Waits s.acquiring_ k n → n ∈ nodes) :
    Represents nodes (checkAcquired a s) := by
  have hst : Represents nodes { s with calls := s.calls + 1 } := ⟨h.trie, h.known⟩
  refine (List.foldlRecOn _ (Validations.checkKey a) (motive := fun s =>
    Represents nodes s ∧ ∀ k n, Waits s.acquiring_ k n → n ∈ nodes) ⟨hst, hw⟩ ?_).1
  rintro s ⟨hs, hw⟩ key -
  refine ⟨hs.checkKey ha hc (hw key), fun k n hk => hw k n ?_⟩
  exact (checkKey_progress ha s key).waits k n hk

end Represents

/-- Where the condition holds for the current validation of a node, its last ledger, if any, is the
ledger of that validation. -/
def SettledOn (drops : N → Validation ID → Prop) (s : Validations L ID N) : Prop :=
  ∀ n v l, drops n v → s.current_.lookup n = some v → s.lastLedger_.lookup n = some l →
    Ledger.id l = v.ledgerID

theorem SettledOn.sameBooks {drops : N → Validation ID → Prop} (h : SettledOn drops s)
    (hs : SameBooks s s') : SettledOn drops s' := by
  intro n v l hd hv hl
  rw [hs.current] at hv
  rw [hs.last] at hl
  exact h n v l hd hv hl

/-- Every node that has support in the trie has a trusted current validation. -/
structure Supports (nodes : Finset N) (s : Validations L ID N) : Prop where
  acquiring : AcquiringOk s
  trusted : ∀ n l, s.lastLedger_.lookup n = some l → ∃ v, s.current_.lookup n = some v ∧ v.trusted
  known : ∀ n v, s.current_.lookup n = some v → n ∈ nodes
  represents : Represents nodes s

namespace Supports

variable {drops : N → Validation ID → Prop}

theorem waits_known (h : Supports nodes s) {k : Nat × ID} (hw : Waits s.acquiring_ k n) :
    n ∈ nodes := by
  obtain ⟨v, hv, _⟩ := h.acquiring.waits k n hw
  exact h.known n v hv

theorem settledOn_progress (ha : a.Lawful) (h : Supports nodes s) (hset : SettledOn drops s)
    (hp : Progress a s s') : SettledOn drops s' := by
  intro n v l hd hv hl
  rw [hp.current] at hv
  obtain hs | ⟨k, l', hw, _, hl', c, _, hacq⟩ := hp.last n
  · exact hset n v l hd hv (hs ▸ hl)
  rw [hl'] at hl
  cases hl
  rw [ha.acquire_id c k.2 _ hacq, ← (h.acquiring.key_eq hw hv).2]
  rfl

variable [LawfulLedger L]

theorem sameBooks (h : Supports nodes s) (hs : SameBooks s s') : Supports nodes s' :=
  ⟨⟨hs.acquiring ▸ hs.current ▸ h.acquiring.waits, hs.acquiring ▸ h.acquiring.noneEmpty⟩,
    hs.last ▸ hs.current ▸ h.trusted, hs.current ▸ h.known, h.represents.sameBooks hs⟩

theorem checkAcquired (ha : a.Lawful) (hc : nodes.card < 2 ^ 32) (h : Supports nodes s) :
    Supports nodes (checkAcquired a s) := by
  have hp := checkAcquired_progress ha s
  refine ⟨h.acquiring.progress hp, fun n l hl => ?_, hp.current ▸ h.known,
    h.represents.checkAcquired ha hc (fun _ _ hw => h.waits_known hw)⟩
  rw [hp.current]
  obtain hs | ⟨k, _, hw, _⟩ := hp.last n
  · exact h.trusted n l (hs ▸ hl)
  · obtain ⟨v, hv, ht, _⟩ := h.acquiring.waits k n hw
    exact ⟨v, hv, ht⟩

omit [LawfulLedger L] in
theorem setCurrent (h : Supports nodes s) (hn : n ∈ nodes) (ht : v.trusted)
    {prior : Option (Nat × ID)} (hok : AcquiringOk (clearPrior (setCurrent s n v) n prior)) :
    Supports nodes (clearPrior (setCurrent s n v) n prior) := by
  have hcur : (clearPrior (Validations.setCurrent s n v) n prior).current_ =
      s.current_.insert n v := clearPrior_current _ _ _
  have hls : (clearPrior (Validations.setCurrent s n v) n prior).lastLedger_ = s.lastLedger_ := by
    cases prior <;> rfl
  have htr : (clearPrior (Validations.setCurrent s n v) n prior).trie_ = s.trie_ := by
    cases prior <;> rfl
  refine ⟨hok, fun m l hl => ?_, fun m w hm => ?_, ?_⟩
  · rw [hls] at hl
    rw [hcur, HashMap.lookup_insert_eq]
    by_cases hm : m = n
    · exact ⟨v, if_pos hm, ht⟩
    · rw [if_neg hm]
      exact h.trusted m l hl
  · rw [hcur, HashMap.lookup_insert_eq] at hm
    by_cases hmn : m = n
    · exact hmn ▸ hn
    · rw [if_neg hmn] at hm
      exact h.known m w hm
  · exact ⟨by rw [hls, htr]; exact h.represents.trie, by rw [hls]; exact h.represents.known⟩

theorem updateTrie (ha : a.Lawful) (hc : nodes.card < 2 ^ 32) {prior : Option (Nat × ID)}
    (h : Supports nodes (clearPrior s n prior)) (hcur : s.current_.lookup n = some v)
    (ht : v.trusted) : Supports nodes (updateTrie a s n v prior) := by
  have h₁ := h.checkAcquired ha hc
  have hcur₁ : (Validations.checkAcquired a (clearPrior s n prior)).current_.lookup n = some v := by
    rw [(checkAcquired_progress ha _).current, clearPrior_current, hcur]
  have hok := AcquiringOk.updateTrie ha h.acquiring hcur ht
  obtain ⟨l, _, _, hup⟩ | ⟨hq, _⟩ := updateTrie_cases (a := a) s n v prior
  · rw [hup] at hok ⊢
    refine ⟨hok, fun m l' hl => ?_, fun m w hw => ?_, ?_⟩
    · rw [lookup_updateTrieLedger] at hl
      rw [updateTrieLedger_current]
      by_cases hm : m = n
      · exact ⟨v, hm ▸ hcur₁, ht⟩
      · rw [if_neg hm] at hl
        exact h₁.trusted m l' hl
    · rw [updateTrieLedger_current] at hw
      exact h₁.known m w hw
    · refine Represents.updateTrieLedger hc ?_ (h₁.known n v hcur₁) l
      exact ⟨h₁.represents.trie, h₁.represents.known⟩
  · refine ⟨hok, hq.last ▸ hq.current ▸ h₁.trusted, hq.current ▸ h₁.known, ?_, ?_⟩
    · rw [hq.trie, hq.last]
      exact h₁.represents.trie
    · rw [hq.last]
      exact h₁.represents.known

omit [LawfulLedger L] in
theorem settledOn_updateTrie (ha : a.Lawful) {prior : Option (Nat × ID)}
    (h : Supports nodes (clearPrior s n prior)) (hset : SettledOn drops (clearPrior s n prior))
    (hn : ∀ v, ¬ drops n v) : SettledOn drops (Validations.updateTrie a s n v prior) := by
  have h₁ := h.settledOn_progress ha hset (checkAcquired_progress ha _)
  obtain ⟨l, _, _, hup⟩ | ⟨hq, _⟩ := updateTrie_cases (a := a) s n v prior
  · rw [hup]
    intro m w l' hd hw hl
    have hm : m ≠ n := fun he => hn w (he ▸ hd)
    rw [updateTrieLedger_current] at hw
    rw [lookup_updateTrieLedger, if_neg hm] at hl
    exact h₁ m w l' hd hw hl
  · intro m w l hd hw hl
    rw [hq.current] at hw
    rw [hq.last] at hl
    exact h₁ m w l hd hw hl

theorem addCurrent (ha : a.Lawful) (hc : nodes.card < 2 ^ 32) (h : Supports nodes s)
    (hn : n ∈ nodes) (hv : NotDemoted s n v) : Supports nodes (addCurrent a s n v).2 := by
  have hok := h.acquiring.addCurrent ha hv
  obtain heq | ⟨ht, heq⟩ | ⟨ht, heq⟩ := addCurrent_cases a s n v
  · rw [heq]
    exact h
  · rw [heq]
    exact (h.setCurrent hn ht h.acquiring.clearPrior).updateTrie ha hc
      (Finmap.lookup_insert _) ht
  · rw [heq] at hok ⊢
    refine ⟨hok, fun m l hl => ?_, fun m w hw => ?_, h.represents.trie, h.represents.known⟩
    · obtain ⟨w, hw, htw⟩ := h.trusted m l hl
      have hm : m ≠ n := by
        rintro rfl
        rw [hv.resolve_left (by simp [ht]) w hw] at htw
        cases htw
      exact ⟨w, (Finmap.lookup_insert_of_ne _ hm).trans hw, htw⟩
    · by_cases hm : m = n
      · exact hm ▸ hn
      · exact h.known m w ((Finmap.lookup_insert_of_ne _ hm).symm.trans hw)

section

omit [LawfulLedger L]

theorem lookup_removeTrie_of_settled {w : Validation ID} (hset : SettledOn drops s)
    (hd : drops n v) (hcur : s.current_.lookup n = some v) (hls : s'.lastLedger_ = s.lastLedger_)
    (hw : w.ledgerID = v.ledgerID) : (removeTrie s' n w).lastLedger_.lookup n = none := by
  rw [lookup_removeTrie, if_pos rfl, hls, Option.filter_eq_none_iff]
  intro l hl
  simpa using (hset n v l hd hcur hl).trans hw.symm

/-- Taking away what a node supports leaves the other nodes as they were. -/
theorem drop (h : Supports nodes s) (hset : SettledOn drops s) (hok : AcquiringOk s')
    (hrep : Represents nodes s') (hnn : s'.lastLedger_.lookup n = none)
    (hls : ∀ m, m ≠ n → s'.lastLedger_.lookup m = s.lastLedger_.lookup m)
    (hcur : ∀ m, m ≠ n → s'.current_.lookup m = s.current_.lookup m)
    (hn : ∀ w, s'.current_.lookup n = some w → n ∈ nodes) :
    Supports nodes s' ∧ SettledOn drops s' := by
  have hne : ∀ {m l}, s'.lastLedger_.lookup m = some l → m ≠ n := by
    rintro m l hl rfl
    rw [hnn] at hl
    cases hl
  refine ⟨⟨hok, fun m l hl => ?_, fun m w hw => ?_, hrep⟩, fun m w l hd hw hl => ?_⟩
  · rw [hcur m (hne hl)]
    exact h.trusted m l ((hls m (hne hl)).symm.trans hl)
  · by_cases hm : m = n
    · subst hm
      exact hn w hw
    · exact h.known m w ((hcur m hm).symm.trans hw)
  · rw [hcur m (hne hl)] at hw
    exact hset m w l hd hw ((hls m (hne hl)).symm.trans hl)

end

theorem currentStep {now : Int} {r : Validations L ID N × List (N × Validation ID)}
    (hd : ∀ n v, isCurrent p now v.signTime v.seenTime = false → drops n v)
    (h : Supports nodes r.1) (hset : SettledOn drops r.1) :
    Supports nodes (currentStep p now r n).1 ∧ SettledOn drops (currentStep p now r n).1 := by
  have hok : AcquiringOk (Validations.currentStep p now r n).1 := h.acquiring.currentStep
  obtain heq | ⟨v, hcur, hs, heq⟩ := currentStep_cases p now r n
  · rw [heq]
    exact ⟨h, hset⟩
  have hrep := h.represents.removeTrie (n := n) (v := v)
  rw [heq] at hok ⊢
  refine h.drop (n := n) hset hok ⟨hrep.trie, hrep.known⟩ ?_ (fun m hm => ?_) (fun m hm => ?_)
    (fun w hw => ?_)
  · exact lookup_removeTrie_of_settled hset (hd n v hs) hcur rfl rfl
  · rw [lookup_removeTrie, if_neg hm]
  · exact Finmap.lookup_erase_ne hm
  · exact h.known n v hcur

theorem trustStep (ha : a.Lawful) (hc : nodes.card < 2 ^ 32) {added removed : Finset N}
    (hd : ∀ n v, drops n v ↔ n ∈ removed ∧ n ∉ added) (h : Supports nodes s)
    (hset : SettledOn drops s) :
    Supports nodes (trustStep a added removed s n) ∧
      SettledOn drops (trustStep a added removed s n) := by
  have hok : AcquiringOk (Validations.trustStep a added removed s n) := h.acquiring.trustStep ha
  obtain heq | ⟨v, hcur, ⟨hadd, w, ht, hkey, heq⟩ | ⟨hadd, hrem, w, _, hkey, heq⟩⟩ :=
    trustStep_cases a added removed s n
  · rw [heq]
    exact ⟨h, hset⟩
  · rw [heq]
    have hnd : ∀ v, ¬ drops n v := fun v hdv => ((hd n v).mp hdv).2 hadd
    have h₀ : Supports nodes (clearPrior (Validations.setCurrent s n w) n none) :=
      h.setCurrent (h.known n v hcur) ht (h.acquiring.retrust hcur ht hkey)
    have hset₀ : SettledOn drops (Validations.setCurrent s n w) := by
      intro m u l hdm hu hl
      have hm : m ≠ n := fun he => hnd u (he ▸ hdm)
      exact hset m u l hdm ((Finmap.lookup_insert_of_ne _ hm).symm.trans hu) hl
    exact ⟨h₀.updateTrie ha hc (Finmap.lookup_insert _) ht, h₀.settledOn_updateTrie ha hset₀ hnd⟩
  · have hrep : Represents nodes (removeTrie (Validations.setCurrent s n w) n w) :=
      Represents.removeTrie ⟨h.represents.trie, h.represents.known⟩
    rw [heq] at hok ⊢
    refine h.drop (n := n) hset hok hrep ?_ (fun m hm => ?_) (fun m hm => ?_) (fun w hw => ?_)
    · exact lookup_removeTrie_of_settled hset ((hd n v).mpr ⟨hrem, hadd⟩) hcur rfl
        (congrArg Prod.snd hkey)
    · rw [lookup_removeTrie, if_neg hm]
      rfl
    · rw [(removeTrie_frame _ _ _).1]
      exact Finmap.lookup_insert_of_ne _ hm
    · exact h.known n v hcur

end Supports

/-- The validations whose support a call is to take away: those of nodes that lose trust, and the
stale ones. -/
def Call.drops (p : ValidationParms) (c : Call L ID N) (n : N) (v : Validation ID) : Prop :=
  match c with
  | .trustChanged added removed => n ∈ removed ∧ n ∉ added
  | c => ∃ now, c.flushes = some now ∧ isCurrent p now v.signTime v.seenTime = false

/-- The node of a validation is known and not demoted by it. -/
def Call.Regular (nodes : Finset N) (s : Validations L ID N) : Call L ID N → Prop
  | .add _ _ n v => n ∈ nodes ∧ NotDemoted s n v
  | _ => True

/-- A call finds the support it is to take away under the validation that it looks at. -/
structure Call.Ok (p : ValidationParms) (nodes : Finset N) (s : Validations L ID N)
    (c : Call L ID N) : Prop where
  regular : c.Regular nodes s
  settled : SettledOn (c.drops p) s

section Run

variable [LawfulLedger L]

theorem Supports.apply (ha : a.Lawful) (hcr : nodes.card < 2 ^ 32) {c : Call L ID N}
    (h : Supports nodes s) (hc : c.Ok p nodes s) : Supports nodes (apply a p s c) := by
  suffices Supports nodes (Validations.apply a p s c) ∧
    SettledOn (c.drops p) (Validations.apply a p s c) from this.1
  refine apply_keeps (J := fun s => Supports nodes s ∧ SettledOn (c.drops p) s)
    (fun s s' hs h => ⟨h.1.sameBooks hs, h.2.sameBooks hs⟩) (fun s h => ?_) ?_ ?_ ?_
    ⟨h, hc.settled⟩
  · exact ⟨h.1.checkAcquired ha hcr, h.1.settledOn_progress ha h.2 (checkAcquired_progress ha s)⟩
  · rintro now clock n v s' rfl hs _ h
    have hreg := hc.regular
    refine ⟨h.1.addCurrent ha hcr hreg.1 ?_, ?_⟩
    · rw [NotDemoted, hs.current]
      exact hreg.2
    · rintro m w l ⟨_, hf, _⟩
      cases hf
  · rintro added removed rfl s n h
    exact h.1.trustStep ha hcr (fun _ _ => Iff.rfl) h.2
  · intro now hnow r n h
    refine h.1.currentStep (fun m v hst => ?_) h.2
    cases c with
    | trustChanged added removed => cases hnow
    | _ => exact ⟨now, hnow, hst⟩

section

omit [LawfulLedger L]

end

end Run

end Rippled.Validations
