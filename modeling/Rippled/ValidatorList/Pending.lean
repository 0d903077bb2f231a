import Rippled.ValidatorList.Calls

namespace Rippled.ValidatorList

open Lib List OrdMap

variable {PK : Type} {c : PublisherListCollection PK}

section

variable (c)

/-- Something at least as new as a list is current, or will be no later than the list is effective. -/
def Covered (n : Nat × Nat × Nat) : Prop :=
  n.1 ≤ c.current.sequence ∨ ∃ e ∈ c.remaining.entries, n.1 ≤ e.1 ∧ e.2.validFrom ≤ n.2.1

/-- The greatest sequence number is that of the current list or of a pending one. -/
structure Topped : Prop where
  pending_le : ∀ e ∈ c.remaining.entries, e.1 ≤ c.maxSequence.getD 0
  current_le : c.current.sequence ≤ c.maxSequence.getD 0
  reached : c.maxSequence.getD 0 = c.current.sequence ∨
    ∃ l, (c.maxSequence.getD 0, l) ∈ c.remaining.entries
  sequence_eq : ∀ e ∈ c.remaining.entries, e.2.sequence = e.1

/-- Pending lists come after the current one. -/
def After : Prop := ∀ e ∈ c.remaining.entries, c.current.sequence < e.1

/-- Each pending list is effective later than those before it. -/
def Increasing : Prop := c.remaining.entries.Pairwise fun a b => a.2.validFrom < b.2.validFrom

end

variable {e : Nat × PublisherList PK} {k : Nat}

theorem mem_entries_erase :
    e ∈ (c.remaining.alter k fun _ => none).entries ↔ e ∈ c.remaining.entries ∧ e.1 ≠ k := by
  obtain ⟨k', l⟩ := e
  rw [mem_entries_iff, mem_entries_iff, find?_alter]
  by_cases hk : k' = k
  · simp [hk]
  · simp [hk]

theorem mem_entries_insert {l : PublisherList PK} (hn : c.remaining.find? k = none) :
    e ∈ (c.remaining.alter k fun _ => some l).entries ↔ e = (k, l) ∨ e ∈ c.remaining.entries := by
  obtain ⟨k', l'⟩ := e
  rw [mem_entries_iff, mem_entries_iff, find?_alter]
  by_cases hk : k' = k
  · simp [hk, hn, eq_comm]
  · simp [hk]

variable {c' : PublisherListCollection PK} {now version : Nat} {j : PublishedList PK}
  {n : Nat × Nat × Nat}

section Deliver

variable [LinearOrder PK] {d : ListDisposition}

inductive Delivered (c : PublisherListCollection PK) (now : Nat) (j : PublishedList PK)
    (n : Nat × Nat × Nat) : PublisherListCollection PK → Prop
  | refused (h : n.2.2 ≤ n.2.1 ∨ Covered c n) : Delivered c now j n c
  | resent (l : PublisherList PK) (h : c.remaining.find? n.1 = some l) : Delivered c now j n c
  | current {c' : PublisherListCollection PK} (hvalid : n.2.1 < n.2.2)
    (hnewer : c.current.sequence < n.1)
    (hfrom : n.2.1 ≤ now) (hcurrent : c'.current = stored c j n)
    (hremaining : c'.remaining = c.remaining.alter n.1 fun _ => none)
    (hmax : c'.maxSequence = some (max n.1 (c.maxSequence.getD 0))) : Delivered c now j n c'
  | pending {c' : PublisherListCollection PK} (hvalid : n.2.1 < n.2.2)
    (hnewer : c.current.sequence < n.1)
    (hnone : c.remaining.find? n.1 = none) (hcurrent : c'.current = c.current)
    (hremaining : c'.remaining =
      c.remaining.alter n.1 fun _ => some (makeList {} j n.1 n.2.1 n.2.2))
    (hmax : c'.maxSequence = some (max n.1 (c.maxSequence.getD 0))) : Delivered c now j n c'

theorem delivered_current (hd : d = .accepted ∨ d = .expired) (hv : n.2.1 < n.2.2)
    (hn : c.current.sequence < n.1) (hf : n.2.1 ≤ now) :
    Delivered c now j n (takeList c d version j n.1 n.2.1 n.2.2) := by
  have ht : takeList c d version j n.1 n.2.1 n.2.2 =
      { makeCurrent { c with
          status := if d = .accepted then .available else if d = .expired then .expired else c.status
          maxSequence := some (max n.1 (c.maxSequence.getD 0)) } j n.1 n.2.1 n.2.2 with
        rawVersion := (takeList c d version j n.1 n.2.1 n.2.2).rawVersion } := by
    simp only [takeList, if_pos hd]
  refine .current hv hn hf ?_ ?_ ?_
  · rw [ht]
    exact current_makeCurrent { c with status := _, maxSequence := _ } j n
  · rw [ht]
    dsimp only [makeCurrent]
    cases hfn : c.remaining.find? n.1 with
    | none =>
      apply ext_find?
      intro k
      by_cases hk : k = n.1
      · simp [hk, hfn]
      · simp [hk]
    | some l => rfl
  · rw [ht]
    dsimp only [makeCurrent]
    cases c.remaining.find? n.1 <;> rfl

theorem delivered_pending (hv : n.2.1 < n.2.2) (hnw : c.current.sequence < n.1)
    (hn : c.remaining.find? n.1 = none) :
    Delivered c now j n (takeList c .pending version j n.1 n.2.1 n.2.2) := by
  refine .pending hv hnw hn rfl ?_ rfl
  apply ext_find?
  intro k
  by_cases hk : k = n.1
  · simp [takeList, makePending, hk, hn]
  · simp [takeList, makePending, hk]

variable (now version j n) in
/-- The last pending list is there when it is looked up, and what becomes of a list follows from the
times and the lists there are. -/
theorem Topped.dispose (h : Topped c) : ∃ d, dispose c now n.1 n.2.1 n.2.2 = some d ∧
      (ListDisposition.pending.rank < d.rank → Delivered c now j n c) ∧
      (d.rank ≤ ListDisposition.pending.rank →
        Delivered c now j n (takeList c d version j n.1 n.2.1 n.2.2)) := by
  unfold ValidatorList.dispose
  split
  · rename_i hi
    exact ⟨_, rfl, fun _ => .refused (.inl hi), fun hr => absurd hr (by decide)⟩
  rename_i hi
  have hv : n.2.1 < n.2.2 := Nat.lt_of_not_le hi
  split
  · rename_i hs
    exact ⟨_, rfl, fun _ => .refused (.inr (.inl hs.le)), fun hr => absurd hr (by decide)⟩
  split
  · rename_i hsm
    exact ⟨_, rfl, fun _ => .refused (.inr (.inl hsm.le)), fun hr => absurd hr (by decide)⟩
  rename_i hs hsm
  have hn : c.current.sequence < n.1 := by omega
  split
  · rename_i he
    exact ⟨_, rfl, fun hr => absurd hr (by decide),
      fun _ => delivered_current (.inr rfl) hv hn (by omega)⟩
  split
  · have hp : c.remaining.find? n.1 = none → ∃ d, some ListDisposition.pending = some d ∧
        (ListDisposition.pending.rank < d.rank → Delivered c now j n c) ∧
        (d.rank ≤ ListDisposition.pending.rank →
          Delivered c now j n (takeList c d version j n.1 n.2.1 n.2.2)) := by
      intro hnn
      exact ⟨_, rfl, fun hr => absurd hr (by decide), fun _ => delivered_pending hv hn hnn⟩
    have ha : c.maxSequence.getD 0 < n.1 → c.remaining.find? n.1 = none := by
      intro hlt
      rw [Option.eq_none_iff_forall_ne_some]
      intro l hl
      exact absurd (h.pending_le _ (mem_entries_iff.mpr hl)) (Nat.not_le.mpr hlt)
    cases hmax : c.maxSequence with
    | none =>
      apply hp (ha ?_)
      rw [hmax]
      exact Nat.zero_lt_of_lt hn
    | some max =>
      have hg : c.maxSequence.getD 0 = max := by rw [hmax]; rfl
      dsimp only
      split
      · rename_i hlt
        exact hp (ha (hg ▸ hlt))
      rename_i hle
      cases hf : c.remaining.find? n.1 with
      | some l =>
        exact ⟨_, rfl, fun _ => .resent l hf, fun hr => absurd hr (by decide)⟩
      | none =>
        -- a sequence number above the current one is that of a pending list
        obtain hc | ⟨last, hls⟩ := h.reached
        · omega
        rw [hg] at hls
        simp only [Option.isSome_none, Bool.false_eq_true, if_false,
          mem_entries_iff.mp hls, Option.map_some]
        split_ifs with hlr
        · exact hp hf
        refine ⟨_, rfl, fun _ => .refused (.inr (.inr ⟨_, hls, ?_, ?_⟩)),
          fun hr => absurd hr (by decide)⟩
        · exact Nat.le_of_not_lt hle
        · exact Nat.le_of_not_lt hlr
  · rename_i hfr
    exact ⟨_, rfl, fun hr => absurd hr (by decide),
      fun _ => delivered_current (.inl rfl) hv hn (by omega)⟩

theorem sequence_stored (h : Topped c) : (stored c j n).sequence = n.1 := by
  unfold stored
  cases hf : c.remaining.find? n.1 with
  | none => rfl
  | some l => exact h.sequence_eq _ (mem_entries_iff.mpr hf)

theorem Delivered.eq_of_le (hd : Delivered c now j n c') (h : n.2.2 ≤ n.2.1) : c' = c := by
  cases hd with
  | refused => rfl
  | resent => rfl
  | current hv | pending hv => exact absurd hv (Nat.not_lt.mpr h)

theorem Topped.delivered (h : Topped c) (hd : Delivered c now j n c') : Topped c' := by
  cases hd with
  | refused => exact h
  | resent => exact h
  | current hv hnw hf hc hr hmax =>
    have hs : c'.current.sequence = n.1 := by rw [hc, sequence_stored h]
    refine ⟨?_, ?_, ?_, ?_⟩
    · intro e he
      rw [hr, mem_entries_erase] at he
      rw [hmax]
      exact (h.pending_le e he.1).trans (le_max_right _ _)
    · rw [hs, hmax]
      exact le_max_left _ _
    · rw [hs, hmax, Option.getD_some]
      rcases le_or_gt (c.maxSequence.getD 0) n.1 with hle | hlt
      · exact .inl (max_eq_left hle)
      -- the greatest number is that of a list which stays pending
      right
      rw [max_eq_right hlt.le, hr]
      obtain hcur | ⟨l, hl⟩ := h.reached
      · omega
      · exact ⟨l, mem_entries_erase.mpr ⟨hl, hlt.ne'⟩⟩
    · intro e he
      rw [hr, mem_entries_erase] at he
      exact h.sequence_eq e he.1
  | pending hv hnw hn hc hr hmax =>
    refine ⟨?_, ?_, ?_, ?_⟩
    · intro e he
      rw [hr, mem_entries_insert hn] at he
      rw [hmax]
      rcases he with rfl | he
      · exact le_max_left _ _
      · exact (h.pending_le e he).trans (le_max_right _ _)
    · rw [hc, hmax]
      exact h.current_le.trans (le_max_right _ _)
    · rw [hc, hmax, Option.getD_some, hr]
      right
      rcases le_or_gt (c.maxSequence.getD 0) n.1 with hle | hlt
      · rw [max_eq_left hle]
        exact ⟨_, (mem_entries_insert hn).mpr (.inl rfl)⟩
      rw [max_eq_right hlt.le]
      obtain hcur | ⟨l, hl⟩ := h.reached
      · omega
      · exact ⟨l, (mem_entries_insert hn).mpr (.inr hl)⟩
    · intro e he
      rw [hr, mem_entries_insert hn] at he
      rcases he with rfl | he
      · rfl
      · exact h.sequence_eq e he

end Deliver

section CleanUp

variable {sequence : Nat} {l : List (Nat × PublisherList PK)}

/-- Every list that is followed by one which is effective no later is followed by such a list
immediately. -/
def Decided (sequence : Nat) : List (Nat × PublisherList PK) → Prop
  | [] => True
  | e :: rest => (sequence < e.1 → (∃ e' ∈ rest, e'.2.validFrom ≤ e.2.validFrom) →
      ∃ next ∈ rest.head?, next.2.validFrom ≤ e.2.validFrom) ∧ Decided sequence rest

theorem lt_of_mem_cleanUp (h : e ∈ cleanUp sequence l) : sequence < e.1 := by
  induction l with
  | nil => cases h
  | cons e' rest ih =>
    rw [cleanUp] at h
    split_ifs at h with hk
    · exact ih h
    · rcases mem_cons.mp h with rfl | h
      · exact Nat.lt_of_not_le fun hle => hk (.inl hle)
      · exact ih h

theorem cleanUp_increasing (h : Decided sequence l) :
    (cleanUp sequence l).Pairwise fun a b => a.2.validFrom < b.2.validFrom := by
  induction l with
  | nil => exact List.Pairwise.nil
  | cons e rest ih =>
    rw [cleanUp]
    split_ifs with hk
    · exact ih h.2
    rw [not_or, Nat.not_le] at hk
    refine pairwise_cons.mpr ⟨?_, ih h.2⟩
    intro e' he'
    apply Nat.lt_of_not_le
    intro hle
    exact hk.2 (h.1 hk.1 ⟨e', (cleanUp_sublist sequence rest).subset he', hle⟩)

theorem cleanUp_covers (hs : OrdMap.Sorted l) (he : e ∈ l) :
    e.1 ≤ sequence ∨ ∃ e' ∈ cleanUp sequence l, e.1 ≤ e'.1 ∧ e'.2.validFrom ≤ e.2.validFrom := by
  induction l generalizing e with
  | nil => cases he
  | cons a rest ih =>
    obtain ⟨hfr, hr⟩ := pairwise_cons.mp hs
    rw [cleanUp]
    split_ifs with hd
    · rcases mem_cons.mp he with rfl | he
      · rcases hd with hle | ⟨next, hn, hf⟩
        · exact .inl hle
        have hmem := mem_of_mem_head? hn
        have hlt := hfr next hmem
        rcases ih hr hmem with hle | ⟨e', he', hle, hf'⟩
        · exact .inl (hlt.le.trans hle)
        · exact .inr ⟨e', he', hlt.le.trans hle, hf'.trans hf⟩
      · exact ih hr he
    · rcases mem_cons.mp he with rfl | he
      · exact .inr ⟨e, mem_cons_self, le_rfl, le_rfl⟩
      · rcases ih hr he with hle | ⟨e', he', hc⟩
        · exact .inl hle
        · exact .inr ⟨e', mem_cons_of_mem _ he', hc⟩

theorem Covered.clean {n : Nat × Nat × Nat} (h : Covered c n) : Covered (clean c) n := by
  rcases h with hle | ⟨e, he, hle, hf⟩
  · exact .inl hle
  · rcases cleanUp_covers c.remaining.sorted he with hcur | ⟨e', he', hle', hf'⟩
    · exact .inl (hle.trans hcur)
    · exact .inr ⟨e', he', hle.trans hle', hf'.trans hf⟩

theorem Topped.clean (h : Topped c) : Topped (clean c) := by
  have hmem : ∀ {e}, e ∈ (ValidatorList.clean c).remaining.entries → e ∈ c.remaining.entries :=
    fun he => (cleanUp_sublist _ _).subset he
  refine ⟨fun e he => h.pending_le e (hmem he), h.current_le, ?_, fun e he => h.sequence_eq e (hmem he)⟩
  rcases h.reached with hcur | ⟨l, hl⟩
  · exact .inl hcur
  have hc := h.current_le
  rcases cleanUp_covers c.remaining.sorted hl with hle | ⟨e, he, hle, -⟩
  · exact .inl (Nat.le_antisymm hle hc)
  · have heq := Nat.le_antisymm (h.pending_le e (hmem he)) hle
    exact .inr ⟨e.2, heq ▸ he⟩

end CleanUp

variable {time : Nat}

/-- Everything rotating can do: the last of the effective lists becomes current, and the lists
behind it stay. -/
inductive Rotated (time : Nat) (c : PublisherListCollection PK) :
    PublisherListCollection PK → Prop
  | same : Rotated time c c
  | next {c' : PublisherListCollection PK} (skipped : List (Nat × PublisherList PK))
    (k : Nat) (l : PublisherList PK)
    (hentries : c.remaining.entries = skipped ++ (k, l) :: c'.remaining.entries)
    (heffective : l.validFrom ≤ time)
    (hcurrent : c'.current = if l.validUntil ≤ time then { l with list := [] } else l)
    (hmax : c'.maxSequence = c.maxSequence) : Rotated time c c'

theorem lt_of_mem_upcoming (h : Increasing c)
    (he : e ∈ (upcoming c.remaining time).entries) : time < e.2.validFrom := by
  change e ∈ c.remaining.entries.dropWhile _ at he
  rw [Increasing] at h
  generalize c.remaining.entries = entries at h he
  induction entries with
  | nil => cases he
  | cons a rest ih =>
    obtain ⟨hf, hr⟩ := pairwise_cons.mp h
    rw [dropWhile_cons] at he
    split_ifs at he with hl
    · exact ih hr he
    have hlt : time < a.2.validFrom := by simpa using hl
    rcases mem_cons.mp he with rfl | he
    · exact hlt
    · exact hlt.trans (hf e he)

theorem rotated_cases (time : Nat) (c : PublisherListCollection PK) :
    Rotated time c (rotated time c) := by
  unfold rotated
  split
  · exact .same
  · rename_i k l hl
    have hs : c.remaining.entries =
        (c.remaining.entries.takeWhile fun e => decide (e.2.validFrom ≤ time)) ++
          (upcoming c.remaining time).entries := (takeWhile_append_dropWhile).symm
    obtain ⟨skipped, hsk⟩ := getLast?_eq_some_iff.mp hl
    have hef := all_eq_true.mp all_takeWhile _ (mem_of_getLast? hl)
    rw [hsk, append_assoc, singleton_append] at hs
    exact .next skipped k l hs (by simpa using hef) rfl rfl

theorem remaining_refreshed (time : Nat) (c : PublisherListCollection PK) :
    (refreshed time c).remaining.entries = (upcoming c.remaining time).entries := by
  have hr : (rotated time c).remaining.entries = (upcoming c.remaining time).entries := by
    unfold rotated
    split
    · rename_i hn
      rw [getLast?_eq_none_iff] at hn
      change _ = c.remaining.entries.dropWhile _
      conv_lhs => rw [← takeWhile_append_dropWhile
        (p := fun e => decide (e.2.validFrom ≤ time)) (l := c.remaining.entries)]
      rw [hn, nil_append]
    · rfl
  unfold refreshed
  split
  · exact hr
  · exact hr

theorem Rotated.sequence_current (h : Topped c) {c' : PublisherListCollection PK}
    {l : PublisherList PK} (hmem : (k, l) ∈ c.remaining.entries)
    (hc : c'.current = if l.validUntil ≤ time then { l with list := [] } else l) :
    c'.current.sequence = k := by
  have hl : l.sequence = k := h.sequence_eq _ hmem
  rw [hc]
  split
  · exact hl
  · exact hl

theorem Topped.rotated (h : Topped c) (ha : After c) (time : Nat) :
    Topped (rotated time c) ∧ After (rotated time c) := by
  have hc := rotated_cases time c
  generalize ValidatorList.rotated time c = c' at hc
  cases hc with
  | same => exact ⟨h, ha⟩
  | next skipped k l hen hef hcr hmax =>
    have hr : ∀ {e}, e ∈ (k, l) :: c'.remaining.entries → e ∈ c.remaining.entries :=
      fun he => hen ▸ mem_append_right _ he
    have hmem := hr mem_cons_self
    have hs := Rotated.sequence_current h hmem hcr
    have hsr := c.remaining.sorted
    rw [OrdMap.Sorted, hen, pairwise_append, pairwise_cons] at hsr
    obtain ⟨-, ⟨hb, -⟩, hbf⟩ := hsr
    refine ⟨⟨?_, ?_, ?_, fun e he => h.sequence_eq e (hr (mem_cons_of_mem _ he))⟩, ?_⟩
    · intro e he
      rw [hmax]
      exact h.pending_le e (hr (mem_cons_of_mem _ he))
    · rw [hs, hmax]
      exact h.pending_le _ hmem
    · rw [hs, hmax]
      have hle := h.pending_le _ hmem
      rcases h.reached with hcur | ⟨l', hl'⟩
      · have hlt := ha _ hmem
        omega
      rw [hen] at hl'
      rcases mem_append.mp hl' with hsk | hl'
      · have hlt := hbf _ hsk _ mem_cons_self
        exact absurd hlt (Nat.not_lt.mpr hle)
      · rcases mem_cons.mp hl' with heq | hl'
        · exact .inl (Prod.mk.inj heq).1
        · exact .inr ⟨l', hl'⟩
    · intro e he
      rw [hs]
      exact hb e he

theorem Topped.refreshed (h : Topped c) (ha : After c) :
    Topped (refreshed time c) ∧ After (refreshed time c) := by
  obtain ⟨ht, ha'⟩ := h.rotated ha time
  unfold ValidatorList.refreshed
  split
  · exact ⟨⟨ht.pending_le, ht.current_le, ht.reached, ht.sequence_eq⟩, ha'⟩
  · exact ⟨ht, ha'⟩

theorem Increasing.refreshed (h : Increasing c) : Increasing (refreshed time c) := by
  rw [Increasing, remaining_refreshed]
  exact h.sublist (dropWhile_sublist _)

theorem lt_of_mem_refreshed (h : Increasing c) :
    ∀ e ∈ (refreshed time c).remaining.entries, time < e.2.validFrom := by
  rw [remaining_refreshed]
  exact fun e he => lt_of_mem_upcoming h he

section Live

variable [LinearOrder PK] {ds : List (PublishedList PK × (Nat × Nat × Nat))}

/-- A list is the one that was published, with its keys in order. -/
structure IsList (d : PublishedList PK × (Nat × Nat × Nat)) (l : PublisherList PK) : Prop where
  sequence : l.sequence = d.2.1
  validFrom : l.validFrom = d.2.2.1
  validUntil : l.validUntil = d.2.2.2
  list : l.list = (d.1.validators.filterMap ValidatorEntry.key).insertionSort (· ≤ ·)

section

variable (time ds)

/-- The current list is one that was published and has been effective by a time. Its keys may have
been dropped if it has expired. -/
def IsCurrent (current : PublisherList PK) : Prop :=
  current.sequence = 0 ∨ ∃ d ∈ ds, current.validFrom ≤ time ∧ (IsList d current ∨
    ∃ keys, IsList d { current with list := keys } ∧ current.list = [] ∧ current.validUntil ≤ time)

/-- The lists held are those that were published, as far as they matter. -/
structure Live (c : PublisherListCollection PK) : Prop where
  pending : ∀ e ∈ c.remaining.entries, ∃ d ∈ ds, IsList d e.2
  current : IsCurrent time ds c.current
  covered : ∀ d ∈ ds, Covered c d.2

end

theorem isList_makeList (place : PublisherList PK) (j : PublishedList PK)
    (n : Nat × Nat × Nat) : IsList (j, n) (makeList place j n.1 n.2.1 n.2.2) :=
  ⟨rfl, rfl, rfl, rfl⟩

theorem IsCurrent.mono {ds' : List (PublishedList PK × (Nat × Nat × Nat))}
    {current : PublisherList PK} (h : IsCurrent time ds current) (hsub : ds ⊆ ds') :
    IsCurrent time ds' current := by
  rcases h with hz | ⟨d, hd, hl⟩
  · exact .inl hz
  · exact .inr ⟨d, hsub hd, hl⟩

variable (h : Live time ds c)

include h

theorem Live.delivered (htp : Topped c) (hd : Delivered c now j n c') (hv : n.2.1 < n.2.2)
    (hnow : now ≤ time) (hsm : ∀ l, c.remaining.find? n.1 = some l → l.validFrom = n.2.1) :
    Live time (ds ++ [(j, n)]) c' := by
  have hsub : ds ⊆ ds ++ [(j, n)] := subset_append_left _ _
  have hsl : (j, n) ∈ ds ++ [(j, n)] := mem_append_right _ (mem_singleton_self _)
  have hp : ∀ e ∈ c.remaining.entries, ∃ d ∈ ds ++ [(j, n)], IsList d e.2 := by
    intro e he
    obtain ⟨d, hd, hl⟩ := h.pending e he
    exact ⟨d, hsub hd, hl⟩
  have hall : ∀ {c'' : PublisherListCollection PK}, (∀ d ∈ ds, Covered c'' d.2) → Covered c'' n →
      ∀ d ∈ ds ++ [(j, n)], Covered c'' d.2 := by
    intro c'' hds hn d hd
    rcases mem_append.mp hd with hd | hd
    · exact hds d hd
    · rw [mem_singleton.mp hd]
      exact hn
  cases hd with
  | refused hrf =>
    have hcv := hrf.resolve_left (Nat.not_le.mpr hv)
    exact ⟨hp, h.current.mono hsub, hall h.covered hcv⟩
  | resent l hf =>
    refine ⟨hp, h.current.mono hsub, hall h.covered (.inr ⟨(n.1, l), ?_, le_rfl, ?_⟩)⟩
    · exact mem_entries_iff.mpr hf
    · exact (hsm l hf).le
  | current hv hnw hfr hc hr hmax =>
    have hs : c'.current.sequence = n.1 := by rw [hc, sequence_stored htp]
    refine ⟨?_, ?_, hall ?_ (.inl hs.ge)⟩
    · intro e he
      rw [hr, mem_entries_erase] at he
      exact hp e he.1
    · rw [hc, stored]
      cases hf : c.remaining.find? n.1 with
      | none => exact .inr ⟨(j, n), hsl, hfr.trans hnow, .inl (isList_makeList _ _ _)⟩
      | some l =>
        obtain ⟨d, hd, hl⟩ := hp _ (mem_entries_iff.mpr hf)
        refine .inr ⟨d, hd, ?_, .inl hl⟩
        exact (hsm l hf).le.trans (hfr.trans hnow)
    · intro d hd
      rcases h.covered d hd with hle | ⟨e, he, hle, ht⟩
      · exact .inl (hle.trans (hnw.le.trans hs.ge))
      · by_cases hkey : e.1 = n.1
        · exact .inl (hle.trans (hkey.le.trans hs.ge))
        · exact .inr ⟨e, by rw [hr]; exact mem_entries_erase.mpr ⟨he, hkey⟩, hle, ht⟩
  | pending hv hnw hnn hc hr hmax =>
    refine ⟨?_, ?_, hall ?_ (.inr ⟨(n.1, makeList {} j n.1 n.2.1 n.2.2), ?_, le_rfl, le_rfl⟩)⟩
    · intro e he
      rw [hr, mem_entries_insert hnn] at he
      rcases he with rfl | he
      · exact ⟨(j, n), hsl, isList_makeList _ _ _⟩
      · exact hp e he
    · rw [hc]
      exact h.current.mono hsub
    · intro d hd
      rcases h.covered d hd with hle | ⟨e, he, hle, ht⟩
      · rw [← hc] at hle
        exact .inl hle
      · exact .inr ⟨e, by rw [hr]; exact (mem_entries_insert hnn).mpr (.inr he), hle, ht⟩
    · rw [hr]
      exact (mem_entries_insert hnn).mpr (.inl rfl)

theorem Live.clean : Live time ds (clean c) where
  pending := fun e he => h.pending e ((cleanUp_sublist _ _).subset he)
  current := h.current
  covered := fun d hd => (h.covered d hd).clean

variable (ht : Topped c) (ha : After c)

include ht ha

theorem Live.rotated {time' : Nat} (hle : time' ≤ time) : Live time ds (rotated time' c) := by
  have hc := rotated_cases time' c
  generalize ValidatorList.rotated time' c = c' at hc
  cases hc with
  | same => exact h
  | next skipped k l hen hef hcr hmax =>
    have hr : ∀ {e}, e ∈ (k, l) :: c'.remaining.entries → e ∈ c.remaining.entries :=
      fun he => hen ▸ mem_append_right _ he
    have hmem := hr mem_cons_self
    have hs := Rotated.sequence_current ht hmem hcr
    refine ⟨?_, ?_, ?_⟩
    · intro e he
      exact h.pending e (hr (mem_cons_of_mem _ he))
    · obtain ⟨d, hd, hl⟩ := h.pending _ hmem
      rw [hcr]
      split_ifs with hep
      · exact .inr ⟨d, hd, hef.trans hle, .inr ⟨l.list, hl, rfl, hep.trans hle⟩⟩
      · exact .inr ⟨d, hd, hef.trans hle, .inl hl⟩
    · intro d hd
      have hsr := c.remaining.sorted
      rw [OrdMap.Sorted, hen, pairwise_append] at hsr
      rcases h.covered d hd with hcur | ⟨e, he, hseq, htm⟩
      · exact .inl (hcur.trans ((ha _ hmem).le.trans hs.ge))
      rw [hen] at he
      rcases mem_append.mp he with he | he
      · exact .inl (hseq.trans ((hsr.2.2 _ he _ mem_cons_self).le.trans hs.ge))
      · rcases mem_cons.mp he with rfl | he
        · exact .inl (hseq.trans hs.ge)
        · exact .inr ⟨e, he, hseq, htm⟩

theorem Live.refreshed {time' : Nat} (hle : time' ≤ time) : Live time ds (refreshed time' c) := by
  have hr := h.rotated ht ha hle
  unfold ValidatorList.refreshed
  split_ifs with he
  · refine ⟨hr.pending, ?_, hr.covered⟩
    rcases hr.current with hz | ⟨d, hd, hf, hl | ⟨keys, hl, -, hu⟩⟩
    · exact .inl hz
    · exact .inr ⟨d, hd, hf, .inr ⟨_, hl, rfl, he.2.trans hle⟩⟩
    · exact .inr ⟨d, hd, hf, .inr ⟨keys, hl, rfl, hu⟩⟩
  · exact hr

end Live

end Rippled.ValidatorList
