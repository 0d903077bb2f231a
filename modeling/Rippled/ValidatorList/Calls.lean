import Rippled.ValidatorList.State

namespace Rippled.ValidatorList

open Lib List Option

variable {PK : Type} [LinearOrder PK]

namespace State

@[simp] theorem collection_modify (s : State PK) (key key' : Option PK)
    (f : PublisherListCollection PK → PublisherListCollection PK) :
    (s.modify key f).collection key' =
      if key' = key then (s.collection key').map f else s.collection key' := by
  simp only [collection, modify]
  induction s.publisherLists with
  | nil => simp
  | cons e l ih =>
    obtain ⟨k, c⟩ := e
    rw [map_cons, lookup_cons]
    by_cases hk : k = key
    · by_cases hk' : key' = k
      · simp [hk, hk']
      have hne := beq_eq_false_iff_ne.mpr hk'
      simp only [hk, if_true, lookup_cons] at ih ⊢
      rw [hk] at hne
      simp only [hne, ih]
    · by_cases hk' : key' = k
      · simp [hk, hk']
      · have hne := beq_eq_false_iff_ne.mpr hk'
        simp only [hk, if_false, lookup_cons, hne, ih]

variable {c : PublisherListCollection PK}

theorem mem_of_collection {s : State PK} {key : Option PK}
    (h : s.collection key = some c) : (key, c) ∈ s.publisherLists := by
  obtain ⟨l, l', hl, -⟩ := lookup_eq_some_iff.mp h
  rw [hl]
  exact mem_append_right _ mem_cons_self

theorem collection_eq_some_iff {s : State PK} (hn : (s.publisherLists.map Prod.fst).Nodup)
    {key : Option PK} : s.collection key = some c ↔ (key, c) ∈ s.publisherLists := by
  refine ⟨mem_of_collection, ?_⟩
  intro hmem
  obtain ⟨c', hc'⟩ : ∃ c', s.collection key = some c' := by
    rw [← isSome_iff_exists, collection, lookup_isSome_iff]
    exact ⟨(key, c), hmem, by simp⟩
  have hs := inj_on_of_nodup_map hn (mem_of_collection hc') hmem rfl
  rw [hc', (Prod.mk.inj hs).2]

section

variable (s : State PK) (key : Option PK)
  (f : PublisherListCollection PK → PublisherListCollection PK)

@[simp] theorem keyListings_modify :
    (s.modify key f).keyListings = s.keyListings := rfl

@[simp] theorem publisherManifests_modify :
    (s.modify key f).publisherManifests = s.publisherManifests := rfl

@[simp] theorem keys_modify :
    (s.modify key f).publisherLists.map Prod.fst = s.publisherLists.map Prod.fst := by
  rw [modify, List.map_map]
  apply map_congr_left
  intro e _
  simp only [Function.comp_apply]
  split <;> rfl

end

end State

variable (verifies : Manifest PK → Bool) (s : State PK)

@[simp] theorem collection_updatePublisherList
    (current : PublisherList PK) (oldList : List PK) (key : Option PK) :
    (updatePublisherList verifies s current oldList).collection key = s.collection key := rfl

@[simp] theorem collection_removePublisherList (key key' : Option PK)
    (reason : PublisherStatus) : (removePublisherList s key reason).collection key' =
      if key' = key then (s.collection key').map (withdrawn reason) else s.collection key' := by
  unfold removePublisherList
  cases hc : s.collection key with
  | none =>
    by_cases hk : key' = key
    · simp [hk, hc]
    · simp [hk]
  | some c => exact State.collection_modify s key key' (withdrawn reason)

@[simp] theorem publisherManifests_removePublisherList
    (key : Option PK) (reason : PublisherStatus) :
    (removePublisherList s key reason).publisherManifests = s.publisherManifests := by
  unfold removePublisherList
  cases s.collection key <;> rfl

def manifestFor (globalManifest : Option (Manifest PK)) (info : ValidatorBlobInfo PK) :
    Option (Manifest PK) :=
  info.manifest.getD globalManifest

/-- A list that gets as far as being read: signed with the key in force for its publisher. -/
structure Presented (globalManifest : Option (Manifest PK))
    (info : ValidatorBlobInfo PK) (m : Manifest PK) (s' : State PK)
    (c : PublisherListCollection PK) (j : PublishedList PK) : Prop where
  manifest : manifestFor globalManifest info = some m
  valid : m.revoked = false
  verified : (takePublisherManifest verifies s m).1 ≠ .invalid
  taken : s' = (takePublisherManifest verifies s m).2
  signed : info.signedWith (s'.publisherManifests.getSigningKey m.masterKey)
  collection : s'.collection (some m.masterKey) = some c
  blob : info.blob = some j

def withList (key : PK) (c : PublisherListCollection PK) (d : ListDisposition)
    (version : Nat) (j : PublishedList PK) (n : Nat × Nat × Nat) : State PK :=
  let c' := takeList c d version j n.1 n.2.1 n.2.2
  if d = .accepted ∨ d = .expired then
    updatePublisherList verifies (s.modify (some key) fun _ => c') c'.current c.current.list
  else s.modify (some key) fun _ => c'

theorem collection_takePublisherManifest (m : Manifest PK) (key : Option PK) :
    ((takePublisherManifest verifies s m).2.collection key).isSome = (s.collection key).isSome := by
  unfold takePublisherManifest
  dsimp only
  split
  · rw [State.collection_modify, collection_removePublisherList]
    by_cases hk : key = some m.masterKey
    · simp [hk]
      rfl
    · simp [hk]
      rfl
  · rfl

variable (now version : Nat) (globalManifest : Option (Manifest PK))
  (info : ValidatorBlobInfo PK)

inductive Applied : State PK × Option (PublisherListStats PK) → Prop
  | unknown (stats : PublisherListStats PK) (hkey : stats.publisherKey = none)
    (h : ∀ m, manifestFor globalManifest info = some m → s.collection (some m.masterKey) = none) :
    Applied (s, some stats)
  | unsigned (m : Manifest PK) (stats : PublisherListStats PK)
    (hkey : stats.publisherKey = none) (hm : manifestFor globalManifest info = some m)
    (hknown : (s.collection (some m.masterKey)).isSome)
    (h : ∀ s' c j, ¬ Presented verifies s globalManifest info m s' c j) :
    Applied ((takePublisherManifest verifies s m).2, some stats)
  | threw {m : Manifest PK} {s' : State PK} {c : PublisherListCollection PK}
    {j : PublishedList PK} (hp : Presented verifies s globalManifest info m s' c j)
    (h : ∀ n, numbers j = some n → dispose c now n.1 n.2.1 n.2.2 = none) :
    Applied (s', none)
  | refused {m : Manifest PK} {s' : State PK} {c : PublisherListCollection PK}
    {j : PublishedList PK} {n : Nat × Nat × Nat} {d : ListDisposition}
    (hp : Presented verifies s globalManifest info m s' c j) (hn : numbers j = some n)
    (hd : dispose c now n.1 n.2.1 n.2.2 = some d) (h : ListDisposition.pending.rank < d.rank) :
    Applied (s', some (refused s' (some m.masterKey) d))
  | took {m : Manifest PK} {s' : State PK} {c : PublisherListCollection PK}
    {j : PublishedList PK} {n : Nat × Nat × Nat} {d : ListDisposition}
    (hp : Presented verifies s globalManifest info m s' c j) (hn : numbers j = some n)
    (hd : dispose c now n.1 n.2.1 n.2.2 = some d) (h : d.rank ≤ ListDisposition.pending.rank)
    (stats : PublisherListStats PK) (hstats : stats.dispositions = {d} ∧
      stats.publisherKey = some m.masterKey) :
    Applied (withList verifies s' m.masterKey c d version j n, some stats)

theorem applied_applyList : Applied verifies s now version globalManifest info
      (applyList verifies s now version globalManifest info) := by
  have hmn : manifestFor globalManifest info = info.manifest.getD globalManifest := rfl
  unfold applyList verify
  cases hm : info.manifest.getD globalManifest with
  | none =>
    refine .unknown _ rfl ?_
    intro m h
    rw [hmn, hm] at h
    cases h
  | some m =>
    rw [hm] at hmn
    dsimp only
    cases hk : s.collection (some m.masterKey) with
    | none =>
      refine .unknown _ ?_ ?_
      · simp [refused, hk, PublisherListStats.of]
      · intro m' h
        rw [hmn, Option.some.injEq] at h
        rw [← h, hk]
    | some c0 =>
      simp only [isNone_some, Bool.false_eq_true, if_false]
      have hl : (s.collection (some m.masterKey)).isSome := by
        rw [hk]
        rfl
      rcases hpr : takePublisherManifest verifies s m with ⟨result, s'⟩
      have ht : s' = (takePublisherManifest verifies s m).2 := by rw [hpr]
      have hsm : (s'.collection (some m.masterKey)).isSome := by
        rw [ht, collection_takePublisherManifest]
        exact hl
      obtain ⟨c, hc⟩ := isSome_iff_exists.mp hsm
      have hrf : ∀ d, ListDisposition.knownSequence.rank < d.rank →
          (refused s' (some m.masterKey) d).publisherKey = none := by
        intro d hd
        simp only [refused, bind_some, hc]
        cases c.maxSequence with
        | none => rfl
        | some max => cases d <;> first | rfl | simp [ListDisposition.rank] at hd
      by_cases hr : m.revoked ∨ result = .invalid
      · rw [if_pos hr]
        have h : ∀ s'' c j, ¬ Presented verifies s globalManifest info m s'' c j := by
          intro s'' c j hp
          have hv := hp.verified
          rw [hpr] at hv
          rcases hr with hrev | hinv
          · exact absurd hrev (by simp [hp.valid])
          · exact hv hinv
        rw [ht]
        exact .unsigned m _ (ht ▸ hrf _ (by decide)) hmn hl h
      · rw [if_neg hr]
        cases hs : info.signedWith (s'.publisherManifests.getSigningKey m.masterKey) with
        | false =>
          have h : ∀ s'' c j, ¬ Presented verifies s globalManifest info m s'' c j := by
            intro s'' c j hp
            have hsg := hp.signed
            rw [hp.taken, ← ht, hs] at hsg
            cases hsg
          rw [ht]
          exact .unsigned m _ (ht ▸ hrf _ (by decide)) hmn hl h
        | true =>
          simp only [Bool.not_true, Bool.false_eq_true, if_false]
          cases hb : info.blob with
          | none =>
            have h : ∀ s'' c j, ¬ Presented verifies s globalManifest info m s'' c j := by
              intro s'' c j hp
              have hj := hp.blob
              rw [hb] at hj
              cases hj
            rw [ht]
            exact .unsigned m _ (ht ▸ hrf _ (by decide)) hmn hl h
          | some j =>
            rw [not_or, Bool.not_eq_true] at hr
            have hp : Presented verifies s globalManifest info m s' c j :=
              ⟨hmn, hr.1, by rw [hpr]; exact hr.2, ht, hs, hc, hb⟩
            cases hn : numbers j with
            | none =>
              simp only [bind_eq_bind, hn, bind_none]
              apply Applied.threw hp
              intro n h
              rw [hn] at h
              cases h
            | some n =>
              cases hd : dispose c now n.1 n.2.1 n.2.2 with
              | none =>
                simp only [bind_eq_bind, bind_some, hc, hn, hd, bind_none]
                apply Applied.threw hp
                intro n' h
                rw [hn, Option.some.injEq] at h
                rw [← h, hd]
              | some d =>
                simp only [bind_eq_bind, bind_some, hc, hn, hd, map_some,
                  Option.pure_def]
                by_cases hrn : ListDisposition.pending.rank < d.rank
                · rw [if_pos hrn]
                  exact .refused hp hn hd hrn
                rw [if_neg hrn]
                have htk : ∀ stats : PublisherListStats PK, stats.dispositions = {d} ∧
                    stats.publisherKey = some m.masterKey →
                      Applied verifies s now version globalManifest info
                        (withList verifies s' m.masterKey c d version j n, some stats) :=
                  Applied.took hp hn hd (Nat.le_of_not_lt hrn)
                unfold withList at htk
                split_ifs with hd'
                · rw [if_pos hd'] at htk
                  exact htk _ ⟨rfl, rfl⟩
                · rw [if_neg hd'] at htk
                  exact htk _ ⟨rfl, rfl⟩

section Frames

variable {verifies s now version globalManifest info} {m : Manifest PK}

theorem takePublisherManifest_of_revoked (h : s.publisherManifests.revoked m.masterKey) :
    takePublisherManifest verifies s m = (.stale, s) := by
  obtain ⟨old, hold, hrev⟩ := ManifestCache.revoked_iff.mp h
  have hs : s.publisherManifests.isStale m := by
    rw [Manifest.revoked, beq_iff_eq] at hrev
    simp only [ManifestCache.isStale, hold, hrev, decide_eq_true_eq]
    have hmax := m.sequence.toNat_lt
    rw [UInt32.le_iff_toNat_le]
    simp
    omega
  have ha : s.publisherManifests.applyManifest verifies m = (.stale, s.publisherManifests) := by
    rw [ManifestCache.applyManifest, if_pos hs]
  simp [takePublisherManifest, ha]

@[simp] theorem publisherManifests_takePublisherManifest (m : Manifest PK) :
    (takePublisherManifest verifies s m).2.publisherManifests =
      (s.publisherManifests.applyManifest verifies m).2 := by
  unfold takePublisherManifest
  dsimp only
  split
  · rw [State.publisherManifests_modify, publisherManifests_removePublisherList]
  · rfl

theorem collection_takePublisherManifest_of_ne {key : Option PK} (h : key ≠ some m.masterKey) :
    (takePublisherManifest verifies s m).2.collection key = s.collection key := by
  unfold takePublisherManifest
  dsimp only
  split
  · rw [State.collection_modify, if_neg h, collection_removePublisherList, if_neg h]
    rfl
  · rfl

section

variable (key : PK) (c : PublisherListCollection PK) (d : ListDisposition)
  (j : PublishedList PK) (n : Nat × Nat × Nat)

@[simp] theorem collection_withList (key' : Option PK) :
    (withList verifies s key c d version j n).collection key' = if key' = some key then
        (s.collection key').map fun _ => takeList c d version j n.1 n.2.1 n.2.2
      else s.collection key' := by
  unfold withList
  split
  · rw [collection_updatePublisherList, State.collection_modify]
  · rw [State.collection_modify]

@[simp] theorem publisherManifests_withList :
    (withList verifies s key c d version j n).publisherManifests = s.publisherManifests := by
  unfold withList
  split <;> rfl

end

omit [LinearOrder PK] in
variable (now) in
theorem dispose_of_le {c : PublisherListCollection PK} {sequence validFrom validUntil : Nat}
    (h : validUntil ≤ validFrom ∨ sequence ≤ c.current.sequence) :
    ∃ d, dispose c now sequence validFrom validUntil = some d ∧
      ListDisposition.pending.rank < d.rank := by
  unfold dispose
  split
  · exact ⟨_, rfl, by decide⟩
  rename_i hv
  have hle := h.resolve_left hv
  split
  · exact ⟨_, rfl, by decide⟩
  · rename_i hs
    rw [if_pos (Nat.le_antisymm hle (Nat.le_of_not_lt hs))]
    exact ⟨_, rfl, by decide⟩

variable (verifies s now globalManifest) in
/-- The lists are taken in one by one, and one collection may be cleaned up. -/
theorem applyLists_cases (blobs : List (ValidatorBlobInfo PK))
    (hv : version ∈ supportedListVersions) :
    (applyLists verifies s now globalManifest version blobs).2.isSome =
        (applyEach verifies now version globalManifest blobs s {}).2.isSome ∧
      ((applyLists verifies s now globalManifest version blobs).1 =
          (applyEach verifies now version globalManifest blobs s {}).1 ∨
        ∃ key, (applyLists verifies s now globalManifest version blobs).1 =
          (applyEach verifies now version globalManifest blobs s {}).1.modify (some key) clean) := by
  unfold applyLists
  rw [if_neg (not_not.mpr hv)]
  rcases applyEach verifies now version globalManifest blobs s {} with ⟨s', _ | result⟩
  · exact ⟨rfl, .inl rfl⟩
  dsimp only
  cases hkey : result.publisherKey with
  | none => exact ⟨rfl, .inl rfl⟩
  | some key =>
    rw [bind_some]
    cases s'.collection (some key) with
    | none => exact ⟨rfl, .inl rfl⟩
    | some c => exact ⟨rfl, .inr ⟨key, rfl⟩⟩

variable {ok : State PK → ValidatorBlobInfo PK → Prop}

section

variable {blobs : List (ValidatorBlobInfo PK)} (I : State PK → Prop)
  (hs : ∀ s info, I s → ok s info → I (applyList verifies s now version globalManifest info).1)
  (h : I s)
  (hok : Run.Allowed (fun s info => (applyList verifies s now version globalManifest info).1)
    ok s blobs)

include hs h hok

/-- What every list keeps is kept by taking in all of them. -/
theorem applyEach_invariant (result : PublisherListStats PK) :
    I (applyEach verifies now version globalManifest blobs s result).1 := by
  induction blobs generalizing s result with
  | nil => exact h
  | cons info blobs ih =>
    have hn := hs s info h hok.1
    have ht := hok.2
    dsimp only at ht
    rw [applyEach]
    rcases hp : applyList verifies s now version globalManifest info with ⟨s', _ | stats⟩
    · rw [hp] at hn
      exact hn
    · rw [hp] at hn ht
      exact ih hn ht _

/-- What every list keeps and a clean-up keeps is kept by the call. -/
theorem applyLists_invariant (hclean : ∀ s key, I s → I (s.modify (some key) clean)) :
    I (applyLists verifies s now globalManifest version blobs).1 := by
  by_cases hv : version ∈ supportedListVersions
  · have he := applyEach_invariant I hs h hok {}
    obtain ⟨-, hsm | ⟨key, hc⟩⟩ := applyLists_cases verifies s now globalManifest blobs hv
    · rw [hsm]
      exact he
    · rw [hc]
      exact hclean _ key he
  · rw [applyLists, if_pos hv]
    exact h

end

section

variable (closeTime : Nat) (c : PublisherListCollection PK)

/-- The collection of a publisher with the last of the pending lists that are effective in the place
of the current one. -/
def rotated : PublisherListCollection PK :=
  match (c.remaining.entries.takeWhile fun e => decide (e.2.validFrom ≤ closeTime)).getLast? with
  | none => c
  | some (_, candidate) =>
    { c with
      current :=
        if candidate.validUntil ≤ closeTime then { candidate with list := [] } else candidate
      status := .available
      remaining := upcoming c.remaining closeTime }

/-- The collection of a publisher after its lists are rotated, without the current one if it has
expired. -/
def refreshed : PublisherListCollection PK :=
  if (rotated closeTime c).status = .available ∧ (rotated closeTime c).current.validUntil ≤ closeTime
  then withdrawn .expired (rotated closeTime c) else rotated closeTime c

end

section

variable (key key' : Option PK) (closeTime : Nat)

theorem collection_rotate : (rotate verifies s key closeTime).collection key' =
      if key' = key then (s.collection key').map (rotated closeTime) else s.collection key' := by
  unfold rotate
  by_cases hkey : key' = key
  · rw [if_pos hkey]
    subst hkey
    cases hc : s.collection key' with
    | none => exact hc
    | some c =>
      simp only [rotated, map_some]
      cases (c.remaining.entries.takeWhile fun e => decide (e.2.validFrom ≤ closeTime)).getLast? with
      | none => exact hc
      | some e => simp [hc]
  · rw [if_neg hkey]
    cases s.collection key with
    | none => rfl
    | some c =>
      dsimp only
      split
      · rfl
      · rw [collection_updatePublisherList, State.collection_modify, if_neg hkey]

@[simp] theorem publisherManifests_rotate (key : Option PK) (closeTime : Nat) :
    (rotate verifies s key closeTime).publisherManifests = s.publisherManifests := by
  unfold rotate
  cases s.collection key with
  | none => rfl
  | some c =>
    dsimp only
    split <;> rfl

theorem collection_refresh : (refresh verifies closeTime s key).collection key' =
      if key' = key then (s.collection key').map (refreshed closeTime) else s.collection key' := by
  have hr : ∀ k, (rotate verifies s key closeTime).collection k =
      if k = key then (s.collection k).map (rotated closeTime) else s.collection k :=
    fun k => collection_rotate key k closeTime
  unfold refresh
  dsimp only
  cases hc : (rotate verifies s key closeTime).collection key with
  | none =>
    rw [hr] at hc ⊢
    by_cases hkey : key' = key
    · subst hkey
      simp_all
    · simp [hkey]
  | some c =>
    dsimp only
    have hk := hr key
    rw [hc, if_pos rfl] at hk
    obtain ⟨c0, hc0, rfl⟩ := map_eq_some_iff.mp hk.symm
    by_cases hkey : key' = key
    · subst hkey
      rw [if_pos rfl, hc0, map_some, refreshed]
      split
      · rw [collection_removePublisherList, if_pos rfl, hc]
        rfl
      · exact hc
    · rw [if_neg hkey]
      split
      · rw [collection_removePublisherList, if_neg hkey, hr, if_neg hkey]
      · rw [hr, if_neg hkey]

end

@[simp] theorem publisherManifests_refresh (key : Option PK) (closeTime : Nat) :
    (refresh verifies closeTime s key).publisherManifests = s.publisherManifests := by
  unfold refresh
  dsimp only
  split
  · exact publisherManifests_rotate key closeTime
  · split
    · rw [publisherManifests_removePublisherList, publisherManifests_rotate]
    · exact publisherManifests_rotate key closeTime

theorem collection_foldl_refresh {keys : List (Option PK)} (hn : keys.Nodup)
    (closeTime : Nat) (key : Option PK) :
    (keys.foldl (refresh verifies closeTime) s).collection key =
      if key ∈ keys then (s.collection key).map (refreshed closeTime) else s.collection key := by
  induction keys generalizing s with
  | nil => rfl
  | cons key' keys ih =>
    obtain ⟨hnot, hn⟩ := nodup_cons.mp hn
    rw [foldl_cons, ih hn, collection_refresh]
    by_cases hkey : key = key'
    · simp [hkey, hnot]
    · simp [hkey]

theorem collection_updateKeys (hn : (s.publisherLists.map Prod.fst).Nodup)
    (now closeTime : Nat) (key : Option PK) :
    (updateKeys verifies s now closeTime).1.collection key =
      (s.collection key).map (refreshed (effectiveTime now closeTime)) := by
  have hs : (updateKeys verifies s now closeTime).1.collection key =
      ((s.publisherLists.map Prod.fst).foldl
        (refresh verifies (effectiveTime now closeTime)) s).collection key := rfl
  rw [hs, collection_foldl_refresh hn]
  split_ifs with hnot
  · rfl
  have hnn : s.collection key = none := by
    rw [State.collection, lookup_eq_none_iff]
    intro e he
    simp only [bne_iff_ne, ne_eq]
    rintro rfl
    exact hnot (mem_map_of_mem he)
  rw [hnn]
  rfl

def wiped (c : PublisherListCollection PK) : PublisherListCollection PK :=
  { withdrawn .revoked c with remaining := OrdMap.empty }

variable (verifies s) in
theorem collection_takePublisherManifest_cases (m : Manifest PK) (key : Option PK) :
    (takePublisherManifest verifies s m).2.collection key = s.collection key ∨
      key = some m.masterKey ∧
        (takePublisherManifest verifies s m).2.collection key = (s.collection key).map wiped := by
  by_cases hkey : key = some m.masterKey
  · unfold takePublisherManifest
    dsimp only
    split
    · refine .inr ⟨hkey, ?_⟩
      rw [State.collection_modify, if_pos hkey, collection_removePublisherList, if_pos hkey,
        Option.map_map]
      rfl
    · exact .inl rfl
  · exact .inl (collection_takePublisherManifest_of_ne hkey)

variable (c : PublisherListCollection PK) (j : PublishedList PK) (n : Nat × Nat × Nat)

/-- The list that a list is stored as. One that is pending with the same sequence number takes its
place. -/
def stored : PublisherList PK :=
  (c.remaining.find? n.1).getD (makeList c.current j n.1 n.2.1 n.2.2)

theorem current_makeCurrent : (makeCurrent c j n.1 n.2.1 n.2.2).current = stored c j n := by
  unfold makeCurrent stored
  cases c.remaining.find? n.1 <;> rfl

end Frames

section LocalKey

variable {verifies s now version globalManifest info}

@[simp] theorem localPubKey_removePublisherList (key : Option PK) (reason : PublisherStatus) :
    (removePublisherList s key reason).localPubKey = s.localPubKey := by
  unfold removePublisherList
  split <;> rfl

@[simp] theorem localPubKey_takePublisherManifest (m : Manifest PK) :
    (takePublisherManifest verifies s m).2.localPubKey = s.localPubKey := by
  unfold takePublisherManifest
  dsimp only
  split
  · exact localPubKey_removePublisherList _ _
  · rfl

theorem localPubKey_applyList :
    (applyList verifies s now version globalManifest info).1.localPubKey = s.localPubKey := by
  have ha := applied_applyList verifies s now version globalManifest info
  generalize applyList verifies s now version globalManifest info = r at ha
  have ht : ∀ {m s' c j}, Presented verifies s globalManifest info m s' c j →
      s'.localPubKey = s.localPubKey := by
    intro m s' c j hp
    rw [hp.taken, localPubKey_takePublisherManifest]
  cases ha with
  | unknown => rfl
  | unsigned m => exact localPubKey_takePublisherManifest m
  | threw hp => exact ht hp
  | refused hp => exact ht hp
  | took hp =>
    rw [← ht hp, withList]
    split <;> rfl

variable (verifies s) in
theorem unchanged_refresh (closeTime : Nat) (key : Option PK) :
    (refresh verifies closeTime s key).localPubKey = s.localPubKey ∧
      (refresh verifies closeTime s key).trustedMasterKeys = s.trustedMasterKeys := by
  have hrm : ∀ (s : State PK) reason,
      (removePublisherList s key reason).trustedMasterKeys = s.trustedMasterKeys := by
    intro s reason
    unfold removePublisherList
    split <;> rfl
  have hr : (rotate verifies s key closeTime).localPubKey = s.localPubKey ∧
      (rotate verifies s key closeTime).trustedMasterKeys = s.trustedMasterKeys := by
    unfold rotate
    split
    · exact ⟨rfl, rfl⟩
    · dsimp only
      split <;> exact ⟨rfl, rfl⟩
  unfold refresh
  dsimp only
  split
  · exact hr
  split
  · rw [localPubKey_removePublisherList, hrm]
    exact hr
  · exact hr

theorem unchanged_foldl_refresh (closeTime : Nat) (keys : List (Option PK)) :
    (keys.foldl (refresh verifies closeTime) s).localPubKey = s.localPubKey ∧
      (keys.foldl (refresh verifies closeTime) s).trustedMasterKeys = s.trustedMasterKeys := by
  refine List.foldlRecOn keys _ (motive := fun s' : State PK =>
    s'.localPubKey = s.localPubKey ∧ s'.trustedMasterKeys = s.trustedMasterKeys) ⟨rfl, rfl⟩ ?_
  intro s' hs key _
  obtain ⟨hl, ht⟩ := unchanged_refresh verifies s' closeTime key
  exact ⟨hl.trans hs.1, ht.trans hs.2⟩

end LocalKey

/-- The state when it is the turn of the lists that come after some of a call. -/
def afterLists (s : State PK) (now version : Nat)
    (globalManifest : Option (Manifest PK)) (done : List (ValidatorBlobInfo PK)) :
    State PK :=
  done.foldl (fun s info => (applyList verifies s now version globalManifest info).1) s

section Events

variable (PK)

inductive Event
  | applyLists (now : Nat) (manifest : Option (Manifest PK)) (version : Nat)
    (blobs : List (ValidatorBlobInfo PK))
  | updateTrusted (now closeTime : Nat)

variable {PK}

def step (s : State PK) : Event PK → State PK
  | .applyLists now manifest version blobs =>
    (applyLists verifies s now manifest version blobs).1
  | .updateTrusted now closeTime => (updateKeys verifies s now closeTime).1

def Event.time : Event PK → Nat
  | .applyLists now _ _ _ => now
  | .updateTrusted now closeTime => effectiveTime now closeTime

omit [LinearOrder PK] in
/-- No call before another one is made at a later time. -/
theorem time_le_of_clock {p q : List (Event PK)} {e : Event PK}
    (h : ((p ++ e :: q).map Event.time).Pairwise (· ≤ ·)) : ∀ e' ∈ p, e'.time ≤ e.time := by
  intro e' he'
  rw [map_append, pairwise_append] at h
  exact h.2.2 _ (mem_map_of_mem he') _ mem_cons_self

/-- A state in which a configuration has just been loaded. The map of publishers may be gone
through in any order. -/
def LoadedFrom (validatorManifests publisherManifests : ManifestCache PK)
    (localSigningKey : Option PK) (configKeys publisherKeys : List PK)
    (s : State PK) : Prop :=
  s.publisherLists.Perm (load validatorManifests publisherManifests localSigningKey configKeys
    publisherKeys).publisherLists ∧
  s = { load validatorManifests publisherManifests localSigningKey configKeys publisherKeys with
    publisherLists := s.publisherLists }

def Loaded (s : State PK) : Prop :=
  ∃ validatorManifests publisherManifests localSigningKey configKeys publisherKeys,
    LoadedFrom validatorManifests publisherManifests localSigningKey configKeys publisherKeys s

omit verifies in
theorem Loaded.collection_eq {s : State PK} {key : PK}
    {c : PublisherListCollection PK} (h : Loaded s) (hc : s.collection (some key) = some c) :
    c = { status := if s.publisherManifests.revoked key then .revoked else .unavailable } := by
  obtain ⟨validatorManifests, publisherManifests, localSigningKey, configKeys, publisherKeys, hp,
    hs⟩ := h
  have hm : s.publisherManifests = publisherManifests := by
    rw [hs]
    rfl
  have hmem := hp.mem_iff.mp (State.mem_of_collection hc)
  have hpb : (some key, c) ∈ publisherKeys.dedup.map fun id => (some id,
      ({ status := if publisherManifests.revoked id then .revoked else .unavailable } :
        PublisherListCollection PK)) := by
    unfold load at hmem
    dsimp only at hmem
    generalize @configKeysFrom PK _ _ _ _ = loaded at hmem
    split at hmem
    · exact hmem
    · exact (mem_cons.mp hmem).resolve_left (by simp)
  obtain ⟨id, -, hid⟩ := mem_map.mp hpb
  obtain ⟨hkey, rfl⟩ := Prod.mk.inj hid
  cases hkey
  rw [hm]

def onePublisher : State Nat := load .new .new none [] [7]

theorem loaded_onePublisher : Loaded onePublisher :=
  ⟨.new, .new, none, [], [7], List.Perm.refl _, rfl⟩

end Events

end Rippled.ValidatorList
