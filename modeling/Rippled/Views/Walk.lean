import Rippled.Views.Tables

namespace Rippled.Views.RawStateTable

open Lib List

variable {K D : Type} [LinearOrder K] {l0 : List (K × Entry D)} {l1 : List (K × RawAction × SLE D)}

section

variable (l0 l1)

def merged (k : K) : Option (Entry D) :=
  match OrdMap.lookup k l1 with
  | none => OrdMap.lookup k l0
  | some (action, sle) => if isErase action then none else some sle.toEntry

/-- The two positions of a walk are at the same key: what the table still erases is still ahead. -/
structure Aligned : Prop where
  sorted0 : OrdMap.Sorted l0
  sorted1 : OrdMap.Sorted l1
  erased : ∀ k sle, (k, RawAction.erase, sle) ∈ l1 → (OrdMap.lookup k l0).isSome

end

/-- The walk does not stand on an entry that the table erases. -/
def Skipped (it : SlesIter K D) : Prop :=
  ∀ k1 sle1 rest1, it.iter1 = (k1, RawAction.erase, sle1) :: rest1 →
    ∃ k0 e0 rest0, it.iter0 = (k0, e0) :: rest0 ∧ k0 < k1

section Lists

variable {V : Type} {k : K} {l : List (K × V)} {v : V}

theorem lookup_cons_of_ne {k0 : K} (h : k ≠ k0) :
    OrdMap.lookup k ((k0, v) :: l) = OrdMap.lookup k l :=
  if_neg h

theorem lookup_cons_self : OrdMap.lookup k ((k, v) :: l) = some v :=
  if_pos rfl

theorem sorted_cons (h : OrdMap.Sorted ((k, v) :: l)) :
    OrdMap.Sorted l ∧ ∀ k' v', (k', v') ∈ l → k < k' := by
  obtain ⟨hlt, hl⟩ := pairwise_cons.mp h
  exact ⟨hl, fun k' v' hmem => hlt (k', v') hmem⟩

theorem lookup_eq_none_of_sorted {k' : K} (h : OrdMap.Sorted ((k, v) :: l)) (hle : k' ≤ k) :
    OrdMap.lookup k' l = none :=
  OrdMap.lookup_eq_none_of_lt fun e he => hle.trans_lt ((sorted_cons h).2 e.1 e.2 he)

theorem merged_eq_none (h0 : OrdMap.lookup k l0 = none) (h1 : OrdMap.lookup k l1 = none) :
    merged l0 l1 k = none := by
  rw [merged, h1, h0]

variable {e : Entry D} {item : RawAction × SLE D}

theorem Aligned.tails (h : Aligned ((k, e) :: l0) ((k, item) :: l1)) : Aligned l0 l1 := by
  obtain ⟨hs1, hlt⟩ := sorted_cons h.sorted1
  refine ⟨(sorted_cons h.sorted0).1, hs1, ?_⟩
  intro k' sle' hmem
  have hf := h.erased k' sle' (mem_cons_of_mem _ hmem)
  rwa [lookup_cons_of_ne (hlt k' _ hmem).ne'] at hf

theorem Aligned.tail0 {k0 k1 : K} (h : Aligned ((k0, e) :: l0) ((k1, item) :: l1)) (hlt : k0 < k1) :
    Aligned l0 ((k1, item) :: l1) := by
  refine ⟨(sorted_cons h.sorted0).1, h.sorted1, ?_⟩
  intro k' sle' hmem
  have hk' : k0 < k' := by
    obtain heq | hmem' := mem_cons.mp hmem
    · cases heq
      exact hlt
    · exact hlt.trans ((sorted_cons h.sorted1).2 k' _ hmem')
  have hf := h.erased k' sle' hmem
  rwa [lookup_cons_of_ne hk'.ne'] at hf

theorem Aligned.tail1 {k1 : K} (h : Aligned l0 ((k1, item) :: l1)) : Aligned l0 l1 :=
  ⟨h.sorted0, (sorted_cons h.sorted1).1,
    fun k' sle' hmem => h.erased k' sle' (mem_cons_of_mem _ hmem)⟩

theorem merged_tails {k' : K} (h : k' ≠ k) :
    merged ((k, e) :: l0) ((k, item) :: l1) k' = merged l0 l1 k' := by
  rw [merged, lookup_cons_of_ne h, lookup_cons_of_ne h, merged]

theorem merged_tail0 {k0 k' : K} (h : k' ≠ k0) :
    merged ((k0, e) :: l0) l1 k' = merged l0 l1 k' := by
  rw [merged, lookup_cons_of_ne h, merged]

theorem merged_tail1 {k1 k' : K} (h : k' ≠ k1) :
    merged l0 ((k1, item) :: l1) k' = merged l0 l1 k' := by
  rw [merged, lookup_cons_of_ne h, merged]

theorem skip_spec (h : Aligned l0 l1) :
    ∃ it, skip l0 l1 = some it ∧ Aligned it.iter0 it.iter1 ∧ Skipped it ∧
      it.iter0.length ≤ l0.length ∧ it.iter1.length ≤ l1.length ∧
      merged it.iter0 it.iter1 = merged l0 l1 := by
  induction l1 generalizing l0 with
  | nil => exact ⟨⟨l0, []⟩, by simp [skip], h, nofun, le_refl _, le_refl _, rfl⟩
  | cons a rest1 ih =>
    obtain ⟨k1, action, sle1⟩ := a
    cases action with
    | insert | replace => exact ⟨⟨l0, _⟩, by simp [skip], h, nofun, le_refl _, le_refl _, rfl⟩
    | erase =>
      have hf := h.erased k1 sle1 mem_cons_self
      cases l0 with
      | nil => cases hf
      | cons b rest0 =>
        obtain ⟨k0, e0⟩ := b
        by_cases heq : k0 = k1
        · subst heq
          have hs : merged rest0 rest1 =
              merged ((k0, e0) :: rest0) ((k0, RawAction.erase, sle1) :: rest1) := by
            funext k
            by_cases hk : k = k0
            · subst hk
              rw [merged_eq_none (lookup_eq_none_of_sorted h.sorted0 (le_refl k))
                (lookup_eq_none_of_sorted h.sorted1 (le_refl k)), merged, lookup_cons_self]
              rfl
            · exact (merged_tails hk).symm
          cases hr0 : rest0 with
          | nil =>
            refine ⟨⟨[], rest1⟩, ?_, hr0 ▸ h.tails, ?_, Nat.zero_le _, Nat.le_succ _, hr0 ▸ hs⟩
            · simp [skip]
            intro k' sle' rest' hi
            have hmem : (k', RawAction.erase, sle') ∈ rest1 := by
              rw [show rest1 = _ from hi]
              exact mem_cons_self
            have hf' := h.tails.erased k' sle' hmem
            rw [hr0] at hf'
            cases hf'
          | cons c rest0' =>
            obtain ⟨it, hit, ha, hsk, hlen0, hlen1, hm⟩ := ih h.tails
            rw [hr0] at hit hlen0
            refine ⟨it, ?_, ha, hsk, Nat.le_succ_of_le hlen0, Nat.le_succ_of_le hlen1,
              hm.trans (hr0 ▸ hs)⟩
            rw [skip, if_pos rfl]
            simpa using hit
        · refine ⟨⟨(k0, e0) :: rest0, (k1, .erase, sle1) :: rest1⟩, ?_, h, ?_, le_refl _, le_refl _,
            rfl⟩
          · rw [skip, if_neg heq]
          intro k' sle' rest' hi
          cases hi
          refine ⟨k0, e0, rest0, rfl, ?_⟩
          rw [lookup_cons_of_ne (Ne.symm heq)] at hf
          obtain ⟨e, he⟩ := Option.isSome_iff_exists.mp hf
          exact (sorted_cons h.sorted0).2 k1 e (OrdMap.mem_of_lookup he)

end Lists

/-- One step of a walk gives the least entry that is seen and leaves the others. -/
structure Stepped (it : SlesIter K D) (e : K × Entry D) (next : SlesIter K D) : Prop where
  dereference : it.dereference = some e
  increment : it.increment = some next
  aligned : Aligned next.iter0 next.iter1
  skipped : Skipped next
  shorter : next.iter0.length + next.iter1.length < it.iter0.length + it.iter1.length
  seen : ∀ k, merged it.iter0 it.iter1 k = if k = e.1 then some e.2 else merged next.iter0 next.iter1 k
  after : ∀ k, k ≤ e.1 → merged next.iter0 next.iter1 k = none

/-- The walk goes on from two positions that lie after an entry. -/
theorem stepped_of_skip {l0 l0' : List (K × Entry D)} {l1 l1' : List (K × RawAction × SLE D)} {k : K}
    {e : Entry D} (ha : Aligned l0' l1') (hd : SlesIter.dereference ⟨l0, l1⟩ = some (k, e))
    (hi : SlesIter.increment ⟨l0, l1⟩ = skip l0' l1')
    (hlen : l0'.length + l1'.length < l0.length + l1.length) (hk : merged l0 l1 k = some e)
    (ho : ∀ k', k' ≠ k → merged l0 l1 k' = merged l0' l1' k')
    (h0 : ∀ k' ≤ k, OrdMap.lookup k' l0' = none) (h1 : ∀ k' ≤ k, OrdMap.lookup k' l1' = none) :
    ∃ e next, Stepped ⟨l0, l1⟩ e next := by
  obtain ⟨next, hn, ha, hs, hlen0, hlen1, hm⟩ := skip_spec ha
  refine ⟨(k, e), next, hd, hi.trans hn, ha, hs, by dsimp only; omega, ?_, ?_⟩
  · intro k'
    rw [hm]
    split_ifs with hk'
    · exact hk' ▸ hk
    · exact ho k' hk'
  · intro k' hk'
    rw [hm]
    exact merged_eq_none (h0 k' hk') (h1 k' hk')

theorem skip_nil {l1 : List (K × RawAction × SLE D)} (h : Aligned [] l1) :
    skip [] l1 = some ⟨[], l1⟩ := by
  cases l1 with
  | nil => simp [skip]
  | cons a rest1 =>
    obtain ⟨k1, action, sle1⟩ := a
    cases action with
    | erase => cases h.erased k1 sle1 mem_cons_self
    | insert | replace => simp [skip]

variable {it : SlesIter K D}

variable (h : Aligned it.iter0 it.iter1) (hs : Skipped it)

include h hs

theorem stepped (hne : ¬(it.iter0.isEmpty ∧ it.iter1.isEmpty)) : ∃ e next, Stepped it e next := by
  obtain ⟨l0, l1⟩ := it
  cases l1 with
  | nil =>
    cases l0 with
    | nil => exact absurd ⟨rfl, rfl⟩ hne
    | cons b rest0 =>
      obtain ⟨k0, e0⟩ := b
      exact stepped_of_skip ⟨(sorted_cons h.sorted0).1, h.sorted1, nofun⟩ rfl
        (by simp [skip, SlesIter.increment]) (by simp) lookup_cons_self (fun k hk => merged_tail0 hk)
        (fun k hk => lookup_eq_none_of_sorted h.sorted0 hk) fun k hk => rfl
  | cons a rest1 =>
    obtain ⟨k1, action, sle1⟩ := a
    have h1 : ∀ k ≤ k1, OrdMap.lookup k rest1 = none :=
      fun k hk => lookup_eq_none_of_sorted h.sorted1 hk
    -- an entry that the table erases lies behind one of the base
    have hi : (∀ k0 e0 rest0, l0 = (k0, e0) :: rest0 → k1 ≤ k0) →
        merged l0 ((k1, action, sle1) :: rest1) k1 = some sle1.toEntry := by
      intro hle
      rw [merged, lookup_cons_self]
      cases action with
      | erase =>
        obtain ⟨k0, e0, rest0, hir, hlt⟩ := hs k1 sle1 rest1 rfl
        exact absurd (hle k0 e0 rest0 hir) (not_le.mpr hlt)
      | insert | replace => rfl
    cases l0 with
    | nil =>
      exact stepped_of_skip h.tail1 rfl (skip_nil h.tail1).symm (by simp) (hi nofun)
        (fun k hk => merged_tail1 hk) (fun k hk => rfl) h1
    | cons b rest0 =>
      obtain ⟨k0, e0⟩ := b
      have h0 : ∀ k ≤ k0, OrdMap.lookup k rest0 = none :=
        fun k hk => lookup_eq_none_of_sorted h.sorted0 hk
      obtain hlt | rfl | hgt := lt_trichotomy k1 k0
      · refine stepped_of_skip h.tail1 (if_pos hlt.le) (by simp [SlesIter.increment, hlt, hlt.ne])
          (by simp) (hi ?_) (fun k hk => merged_tail1 hk) ?_ h1
        · intro _ _ _ heq
          cases heq
          exact hlt.le
        · intro k hk
          rw [lookup_cons_of_ne (hk.trans_lt hlt).ne]
          exact h0 k (hk.trans hlt.le)
      · refine stepped_of_skip h.tails (if_pos (le_refl _)) (by simp [SlesIter.increment])
          (by simp; omega) (hi ?_) (fun k hk => merged_tails hk) h0 h1
        intro _ _ _ heq
        cases heq
        exact le_refl _
      · have hn : ∀ k ≤ k0, OrdMap.lookup k ((k1, action, sle1) :: rest1) = none := by
          intro k hk
          rw [lookup_cons_of_ne (hk.trans_lt hgt).ne]
          exact h1 k (hk.trans hgt.le)
        refine stepped_of_skip (h.tail0 hgt) (if_neg (not_le.mpr hgt))
          (by simp [SlesIter.increment, hgt.not_gt, hgt.ne']) (by simp) ?_
          (fun k hk => merged_tail0 hk) h0 hn
        rw [merged, hn k0 (le_refl _)]
        exact lookup_cons_self

theorem collect_spec {fuel : Nat} (hf : it.iter0.length + it.iter1.length < fuel) :
    ∃ l, it.collect fuel = some l ∧ OrdMap.Sorted l ∧
      ∀ k, OrdMap.lookup k l = merged it.iter0 it.iter1 k := by
  induction fuel generalizing it with
  | zero => exact absurd hf (Nat.not_lt_zero _)
  | succ fuel ih =>
    by_cases hend : it.iter0.isEmpty ∧ it.iter1.isEmpty
    · refine ⟨[], by simp [SlesIter.collect, hend], List.Pairwise.nil, ?_⟩
      intro k
      rw [isEmpty_iff.mp hend.1, isEmpty_iff.mp hend.2]
      rfl
    obtain ⟨e, next, hst⟩ := stepped h hs hend
    obtain ⟨l, hl, hsr, hlk⟩ := ih hst.aligned hst.skipped
      (show _ < fuel by have := hst.shorter; omega)
    refine ⟨e :: l, ?_, ?_, ?_⟩
    · rw [SlesIter.collect, if_neg hend, hst.dereference, hst.increment]
      simp [hl]
    · refine pairwise_cons.mpr ⟨?_, hsr⟩
      intro e' he'
      by_contra hnot
      have hn := hst.after e'.1 (not_lt.mp hnot)
      rw [← hlk, OrdMap.lookup_of_mem hsr he'] at hn
      cases hn
    · intro k
      rw [hst.seen, OrdMap.lookup, hlk]

end Rippled.Views.RawStateTable
