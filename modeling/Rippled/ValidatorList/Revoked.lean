import Rippled.ValidatorList.Calls

namespace Rippled.ValidatorList

open Lib

variable {PK : Type} [LinearOrder PK]

/-- What is left of the lists of a publisher that is revoked. -/
structure Silenced (c : PublisherListCollection PK) : Prop where
  status : c.status = .revoked
  current : c.current.list = []
  remaining : c.remaining.entries = []

omit [LinearOrder PK] in
theorem Silenced.clean {c : PublisherListCollection PK} (h : Silenced c) : Silenced (clean c) where
  status := h.status
  current := h.current
  remaining := by
    change cleanUp c.current.sequence c.remaining.entries = []
    rw [h.remaining]
    rfl

section

variable (key : PK) (s : State PK)

/-- A publisher of the configuration, silenced once its master key is revoked. -/
def Silent : Prop :=
  ∃ c, s.collection (some key) = some c ∧ (s.publisherManifests.revoked key → Silenced c)

theorem Silent.of_eq {key : PK} {s s' : State PK} (h : Silent key s)
    (hc : s'.collection (some key) = s.collection (some key))
    (hrev : s'.publisherManifests.revoked key = s.publisherManifests.revoked key) :
    Silent key s' := by
  unfold Silent
  rw [hc, hrev]
  exact h

/-- A list signed with the master key itself of a publisher, under a manifest from before its
revocation. It is either newer than the last current list or has numbers that throw. -/
def Offends (globalManifest : Option (Manifest PK)) (info : ValidatorBlobInfo PK) : Prop :=
  ∃ m j, manifestFor globalManifest info = some m ∧ m.masterKey = key ∧ m.revoked = false ∧
    info.signedWith key ∧ info.blob = some j ∧
    ∀ n, numbers j = some n → n.2.1 < n.2.2 ∧
      ∀ c, s.collection (some key) = some c → c.current.sequence < n.1

end

variable {verifies : Manifest PK → Bool} {key : PK} {s : State PK}
  {now version : Nat} {globalManifest : Option (Manifest PK)}
  {info : ValidatorBlobInfo PK} {m : Manifest PK}

section Lists

variable {cache : ManifestCache PK}

theorem getSigningKey_of_revoked (h : cache.revoked key) : cache.getSigningKey key = key := by
  obtain ⟨m, hm, hrev⟩ := ManifestCache.revoked_iff.mp h
  simp [ManifestCache.getSigningKey, hm, hrev]

theorem revoked_of_revoked_applyManifest (hm : m.revoked = false)
    (h : (cache.applyManifest verifies m).2.revoked key) :
    cache.revoked key := by
  obtain ⟨-, hs⟩ | ⟨ha, -, -⟩ := ManifestCache.applyManifest_cases verifies cache m
  · rw [hs] at h
    exact h
  rw [ha] at h
  obtain ⟨m', hm', hrev⟩ := ManifestCache.revoked_iff.mp h
  rw [ManifestCache.lookup_map_store] at hm'
  split at hm'
  · rw [← Option.some.inj hm', hm] at hrev
    cases hrev
  · exact ManifestCache.revoked_iff.mpr ⟨m', hm', hrev⟩

theorem revoked_applyManifest_of_ne (h : key ≠ m.masterKey) :
    (cache.applyManifest verifies m).2.revoked key = cache.revoked key := by
  obtain ⟨-, hs⟩ | ⟨ha, -, -⟩ := ManifestCache.applyManifest_cases verifies cache m
  · rw [hs]
  · simp only [ha, ManifestCache.revoked, ManifestCache.lookup_map_store, if_neg h]

theorem Silent.takePublisherManifest (h : Silent key s) (m : Manifest PK) :
    Silent key (takePublisherManifest verifies s m).2 := by
  by_cases hkey : key = m.masterKey
  · by_cases hrev : s.publisherManifests.revoked key
    · rw [takePublisherManifest_of_revoked (hkey ▸ hrev)]
      exact h
    obtain ⟨c, hc, -⟩ := h
    unfold ValidatorList.takePublisherManifest
    dsimp only
    split_ifs with hnot
    · refine ⟨{ withdrawn .revoked c with remaining := OrdMap.empty }, ?_, fun _ => ⟨rfl, rfl, rfl⟩⟩
      rw [State.collection_modify, collection_removePublisherList, if_pos (by rw [hkey]),
        if_pos (by rw [hkey])]
      change ((s.collection (some key)).map _).map _ = _
      rw [hc]
      rfl
    · refine ⟨c, hc, ?_⟩
      intro hnow
      exfalso
      -- only an accepted revocation revokes the key
      obtain ⟨-, hs⟩ | ⟨ha, -, -⟩ :=
        ManifestCache.applyManifest_cases verifies s.publisherManifests m
      · dsimp only at hnow
        rw [hs] at hnow
        exact hrev hnow
      · rw [ha] at hnot
        have hm : m.revoked = false := by simpa using hnot
        exact hrev (revoked_of_revoked_applyManifest hm hnow)
  · apply h.of_eq
    · exact collection_takePublisherManifest_of_ne (by simpa using hkey)
    · rw [publisherManifests_takePublisherManifest]
      exact revoked_applyManifest_of_ne hkey

variable (now) in
/-- Every list that gets as far as being taken in, or as throwing, offends. -/
theorem Presented.offends {m : Manifest PK} {s' : State PK}
    {c : PublisherListCollection PK} {j : PublishedList PK}
    (hp : Presented verifies s globalManifest info m s' c j)
    (hrev : s.publisherManifests.revoked m.masterKey)
    (h : ∀ n d, numbers j = some n → dispose c now n.1 n.2.1 n.2.2 = some d →
      d.rank ≤ ListDisposition.pending.rank) : Offends m.masterKey s globalManifest info := by
  have hs' : s' = s := by rw [hp.taken, takePublisherManifest_of_revoked hrev]
  have hsg := hp.signed
  rw [hs', getSigningKey_of_revoked hrev] at hsg
  refine ⟨m, j, hp.manifest, rfl, hp.valid, hsg, hp.blob, ?_⟩
  intro n hn
  have hnot : ¬ (n.2.2 ≤ n.2.1 ∨ n.1 ≤ c.current.sequence) := by
    intro hle
    obtain ⟨d, hd, hr⟩ := dispose_of_le now hle
    exact absurd (h n d hn hd) (Nat.not_le.mpr hr)
  rw [not_or, Nat.not_le, Nat.not_le] at hnot
  refine ⟨hnot.1, ?_⟩
  intro c' hc'
  rw [← hs', hp.collection] at hc'
  rw [← Option.some.inj hc']
  exact hnot.2

theorem Silent.applyList (h : Silent key s)
    (hno : s.publisherManifests.revoked key → ¬ Offends key s globalManifest info) :
    Silent key (applyList verifies s now version globalManifest info).1 := by
  have ha := applied_applyList verifies s now version globalManifest info
  generalize ValidatorList.applyList verifies s now version globalManifest info = r at ha
  cases ha with
  | unknown => exact h
  | unsigned m => exact h.takePublisherManifest m
  | threw hp | refused hp =>
    rw [hp.taken]
    exact h.takePublisherManifest _
  | @took m s' c j n d hp hn hd hr stats =>
    have hs' : Silent key s' := by
      rw [hp.taken]
      exact h.takePublisherManifest m
    by_cases hkey : key = m.masterKey
    · subst hkey
      refine ⟨takeList c d version j n.1 n.2.1 n.2.2, ?_, ?_⟩
      · rw [collection_withList, if_pos rfl, hp.collection]
        rfl
      intro hrev
      exfalso
      rw [publisherManifests_withList, hp.taken, publisherManifests_takePublisherManifest] at hrev
      have hb := revoked_of_revoked_applyManifest hp.valid hrev
      refine hno hb (hp.offends now hb ?_)
      intro n' d' hn' hd'
      rw [hn] at hn'
      cases hn'
      rw [hd] at hd'
      cases hd'
      exact hr
    · apply hs'.of_eq
      · rw [collection_withList, if_neg (by simpa using hkey)]
      · rw [publisherManifests_withList]

/-- Each list names a publisher that is not one of the configuration, or the one given. -/
def OnlyFrom (key : PK) (s : State PK) (globalManifest : Option (Manifest PK))
    (info : ValidatorBlobInfo PK) : Prop :=
  ∀ m, manifestFor globalManifest info = some m →
    m.masterKey = key ∨ s.collection (some m.masterKey) = none

variable (verifies now version) in
theorem applyList_eq_self (hrev : s.publisherManifests.revoked key)
    (ho : OnlyFrom key s globalManifest info) (hno : ¬ Offends key s globalManifest info) :
    ∃ stats, applyList verifies s now version globalManifest info = (s, some stats) := by
  have ha := applied_applyList verifies s now version globalManifest info
  generalize applyList verifies s now version globalManifest info = r at ha
  have hpr : ∀ {m s' c j}, Presented verifies s globalManifest info m s' c j →
      m.masterKey = key ∧ s' = s := by
    intro m s' c j hp
    have hsm : (s.collection (some m.masterKey)).isSome := by
      rw [← collection_takePublisherManifest verifies s m, ← hp.taken, hp.collection]
      rfl
    have hkey : m.masterKey = key := by
      rcases ho m hp.manifest with hkey | hnn
      · exact hkey
      · rw [hnn] at hsm
        cases hsm
    exact ⟨hkey, by rw [hp.taken, takePublisherManifest_of_revoked (hkey ▸ hrev)]⟩
  cases ha with
  | unknown stats => exact ⟨stats, rfl⟩
  | unsigned m stats hkey hm hk =>
    rcases ho m hm with hms | hnn
    · rw [takePublisherManifest_of_revoked (hms ▸ hrev)]
      exact ⟨stats, rfl⟩
    · rw [hnn] at hk
      cases hk
  | threw hp ht =>
    obtain ⟨hkey, -⟩ := hpr hp
    exfalso
    refine hno (hkey ▸ hp.offends now (hkey ▸ hrev) ?_)
    intro n d hn hd
    rw [ht n hn] at hd
    cases hd
  | refused hp =>
    obtain ⟨-, hs'⟩ := hpr hp
    rw [hs']
    exact ⟨_, rfl⟩
  | took hp hn hd hr =>
    obtain ⟨hkey, -⟩ := hpr hp
    exfalso
    refine hno (hkey ▸ hp.offends now (hkey ▸ hrev) ?_)
    intro n' d' hn' hd'
    rw [hn] at hn'
    cases hn'
    rw [hd] at hd'
    cases hd'
    exact hr

end Lists

section Runs

omit [LinearOrder PK] in
theorem refreshed_of_silenced {c : PublisherListCollection PK} (h : Silenced c)
    (closeTime : Nat) : refreshed closeTime c = c := by
  have hr : rotated closeTime c = c := by simp [rotated, h.remaining]
  simp [refreshed, hr, h.status]

theorem Silent.refresh (h : Silent key s) (closeTime : Nat) (key' : Option PK) :
    Silent key (refresh verifies closeTime s key') := by
  obtain ⟨c, hc, hs⟩ := h
  unfold Silent
  rw [collection_refresh, publisherManifests_refresh, hc]
  split
  · refine ⟨refreshed closeTime c, rfl, ?_⟩
    intro hrev
    rw [refreshed_of_silenced (hs hrev)]
    exact hs hrev
  · exact ⟨c, rfl, hs⟩

theorem Silent.updateKeys (h : Silent key s) (now closeTime : Nat) :
    Silent key (updateKeys verifies s now closeTime).1 := by
  have hf : Silent key ((s.publisherLists.map Prod.fst).foldl
      (ValidatorList.refresh verifies (effectiveTime now closeTime)) s) :=
    List.foldlRecOn _ _ h fun _ hs key' _ => hs.refresh _ key'
  exact hf

theorem Silent.modify_clean (h : Silent key s) (key' : Option PK) :
    Silent key (s.modify key' clean) := by
  obtain ⟨c, hc, hs⟩ := h
  unfold Silent
  rw [State.collection_modify, hc, State.publisherManifests_modify]
  split
  · exact ⟨clean c, rfl, fun hrev => (hs hrev).clean⟩
  · exact ⟨c, rfl, hs⟩

variable (verifies)

/-- No list offends at its turn, if the publisher is revoked by then. -/
def Unoffended (key : PK) (s : State PK) : Event PK → Prop
  | .applyLists now manifest version blobs => Run.Allowed
      (fun s info => (applyList verifies s now version manifest info).1)
      (fun s info => s.publisherManifests.revoked key → ¬ Offends key s manifest info) s blobs
  | .updateTrusted _ _ => True

variable {verifies}

theorem Silent.applyLists (h : Silent key s) {blobs : List (ValidatorBlobInfo PK)}
    (hno : Unoffended verifies key s (.applyLists now globalManifest version blobs)) :
    Silent key (applyLists verifies s now globalManifest version blobs).1 := by
  refine applyLists_invariant (Silent key) ?_ h hno ?_
  · exact fun _ _ hs hi => hs.applyList hi
  · exact fun _ key' hs => hs.modify_clean (some key')

theorem Silent.step (h : Silent key s) {e : Event PK}
    (hno : Unoffended verifies key s e) : Silent key (step verifies s e) := by
  cases e with
  | applyLists now manifest version blobs => exact h.applyLists hno
  | updateTrusted now closeTime => exact h.updateKeys now closeTime

theorem Loaded.silent (h : Loaded s) (hl : (s.collection (some key)).isSome) : Silent key s := by
  obtain ⟨c, hc⟩ := Option.isSome_iff_exists.mp hl
  refine ⟨c, hc, ?_⟩
  intro hrev
  rw [h.collection_eq hc]
  exact ⟨if_pos hrev, rfl, rfl⟩

/-- What is expected of a call that carries the lists of a revoked publisher. -/
structure Harmless (key : PK) (s : State PK)
    (r : State PK × Option (PublisherListStats PK)) : Prop where
  silenced : ∃ c, r.1.collection (some key) = some c ∧ Silenced c
  keyListings : r.1.keyListings = s.keyListings
  returns : r.2.isSome

variable (verifies now version) in
theorem applyEach_eq_self (hrev : s.publisherManifests.revoked key)
    {blobs : List (ValidatorBlobInfo PK)} (ho : ∀ info ∈ blobs, OnlyFrom key s globalManifest info)
    (hno : ∀ info ∈ blobs, ¬ Offends key s globalManifest info) (result : PublisherListStats PK) :
    ∃ stats, applyEach verifies now version globalManifest blobs s result = (s, some stats) := by
  induction blobs generalizing result with
  | nil => exact ⟨result, rfl⟩
  | cons info blobs ih =>
    rw [List.forall_mem_cons] at ho hno
    obtain ⟨stats, hs⟩ := applyList_eq_self verifies now version hrev ho.1 hno.1
    rw [applyEach, hs]
    exact ih ho.2 hno.2 _

variable {blobs : List (ValidatorBlobInfo PK)}

theorem harmless_applyLists (h : Silent key s) (hrev : s.publisherManifests.revoked key)
    (ho : ∀ info ∈ blobs, OnlyFrom key s globalManifest info)
    (hno : ∀ info ∈ blobs, ¬ Offends key s globalManifest info) :
    Harmless key s (applyLists verifies s now globalManifest version blobs) := by
  obtain ⟨c, hc, hs⟩ := h
  by_cases hv : version ∈ supportedListVersions
  · obtain ⟨stats, he⟩ := applyEach_eq_self verifies now version hrev ho hno {}
    obtain ⟨hsm, hst⟩ := applyLists_cases verifies s now globalManifest blobs hv
    rw [he] at hsm hst
    rcases hst with hsa | ⟨key', hcl⟩
    · exact ⟨⟨c, by rw [hsa, hc], hs hrev⟩, by rw [hsa], hsm⟩
    refine ⟨?_, by rw [hcl, State.keyListings_modify], hsm⟩
    rw [hcl, State.collection_modify, hc]
    split
    · exact ⟨clean c, rfl, (hs hrev).clean⟩
    · exact ⟨c, rfl, hs hrev⟩
  · rw [applyLists, if_pos hv]
    exact ⟨⟨c, hc, hs hrev⟩, rfl, rfl⟩

omit [LinearOrder PK] in
/-- A list that is newer than the current one is taken in, unless looking up the pending ones
throws. -/
theorem dispose_of_remaining_eq_nil {c : PublisherListCollection PK}
    (hr : c.remaining.entries = []) {sequence validFrom validUntil : Nat}
    (hv : validFrom < validUntil) (hn : c.current.sequence < sequence) {d : ListDisposition}
    (hd : dispose c now sequence validFrom validUntil = some d) :
    d.rank ≤ ListDisposition.pending.rank := by
  have hf : ∀ k, c.remaining.find? k = none := by
    intro k
    rw [OrdMap.find?, hr]
    rfl
  unfold dispose at hd
  rw [if_neg (by omega), if_neg (by omega), if_neg (by omega)] at hd
  split at hd
  · cases hd
    decide
  split at hd
  · cases hmax : c.maxSequence with
    | none =>
      rw [hmax] at hd
      cases hd
      decide
    | some max =>
      simp only [hmax, hf, Option.isSome_none, Bool.false_eq_true, if_false, Option.map_none] at hd
      split at hd
      · cases hd
        decide
      · cases hd
  · cases hd
    decide

variable (version) in
theorem not_silenced_takeList {c : PublisherListCollection PK} (h : Silenced c)
    (d : ListDisposition) (j : PublishedList PK) {n : Nat × Nat × Nat}
    (hn : c.current.sequence < n.1) :
    ¬ Silenced (takeList c d version j n.1 n.2.1 n.2.2) ∧
      ¬ Silenced (clean (takeList c d version j n.1 n.2.1 n.2.2)) := by
  by_cases hd : d = .accepted ∨ d = .expired
  · have hst : (takeList c d version j n.1 n.2.1 n.2.2).status ≠ .revoked := by
      rcases hd with rfl | rfl
      all_goals
        simp only [takeList, makeCurrent, if_true, reduceCtorEq, true_or, or_true, if_false]
        split <;> simp
    exact ⟨fun hs => hst hs.status, fun hs => hst hs.status⟩
  · have he : (takeList c d version j n.1 n.2.1 n.2.2).remaining.entries =
        [(n.1, makeList {} j n.1 n.2.1 n.2.2)] := by
      simp [takeList, hd, makePending, OrdMap.alter, h.remaining, OrdMap.alterList]
    have hc : (takeList c d version j n.1 n.2.1 n.2.2).current = c.current := by
      simp [takeList, hd, makePending]
    constructor
    · intro hs
      have hnil := hs.remaining
      rw [he] at hnil
      cases hnil
    intro hs
    have hnil : cleanUp _ _ = [] := hs.remaining
    rw [he, hc] at hnil
    simp [cleanUp, Nat.not_le.mpr hn] at hnil

variable (verifies) in
theorem Offends.presented (hrev : s.publisherManifests.revoked key)
    {c : PublisherListCollection PK} (hc : s.collection (some key) = some c)
    (h : Offends key s globalManifest info) :
    ∃ m j, Presented verifies s globalManifest info m s c j ∧ m.masterKey = key ∧
      ∀ n, numbers j = some n → n.2.1 < n.2.2 ∧ c.current.sequence < n.1 := by
  obtain ⟨m, j, hm, rfl, hv, hs, hb, hnm⟩ := h
  have ht : takePublisherManifest verifies s m = (.stale, s) :=
    takePublisherManifest_of_revoked hrev
  refine ⟨m, j, ⟨hm, hv, by simp [ht], by rw [ht], ?_, hc, hb⟩, rfl, ?_⟩
  · rw [getSigningKey_of_revoked hrev]
    exact hs
  · intro n hn
    exact ⟨(hnm n hn).1, (hnm n hn).2 c hc⟩

section

variable (h : Silent key s) (hrev : s.publisherManifests.revoked key)
  (hv : version ∈ supportedListVersions)

include h hrev hv

theorem Offends.not_harmless (hoff : Offends key s globalManifest info) :
    ¬ Harmless key s (applyLists verifies s now globalManifest version [info]) := by
  obtain ⟨c, hc, himp⟩ := h
  have hsl := himp hrev
  obtain ⟨m, j, hp, rfl, hnm⟩ := hoff.presented verifies hrev hc
  rintro ⟨⟨c', hc', hsl'⟩, -, hr⟩
  obtain ⟨hsm, hst⟩ := applyLists_cases verifies s now globalManifest [info] hv
  rw [hsm] at hr
  have ha := applied_applyList verifies s now version globalManifest info
  rw [applyEach] at hr hst
  generalize applyList verifies s now version globalManifest info = r at ha hr hst
  have hu : ∀ {m' s' c' j'}, Presented verifies s globalManifest info m' s' c' j' →
      m' = m ∧ s' = s ∧ c' = c ∧ j' = j := by
    intro m' s' c' j' hp'
    have hm : m' = m := Option.some.inj (hp'.manifest.symm.trans hp.manifest)
    subst hm
    have hs : s' = s := hp'.taken.trans hp.taken.symm
    subst hs
    exact ⟨rfl, rfl, Option.some.inj (hp'.collection.symm.trans hp.collection),
      Option.some.inj (hp'.blob.symm.trans hp.blob)⟩
  cases ha with
  | unknown stats hkey hnn =>
    rw [hnn m hp.manifest] at hc
    cases hc
  | unsigned m' stats hkey hm hk hnot =>
    rw [hp.manifest] at hm
    cases hm
    exact hnot _ _ _ hp
  | threw => cases hr
  | refused hp' hn hd hrn =>
    obtain ⟨rfl, rfl, rfl, rfl⟩ := hu hp'
    obtain ⟨hvl, hnw⟩ := hnm _ hn
    exact absurd (dispose_of_remaining_eq_nil hsl.remaining hvl hnw hd)
      (Nat.not_le.mpr hrn)
  | @took m' s' c'' j' n d hp' hn hd hrn stats hss =>
    obtain ⟨rfl, rfl, rfl, rfl⟩ := hu hp'
    obtain ⟨hnot, hnt⟩ :=
      not_silenced_takeList version hsl d j' (hnm n hn).2
    dsimp only [applyEach] at hst
    have hl : (withList verifies s' m'.masterKey c'' d version j' n).collection
        (some m'.masterKey) = some (takeList c'' d version j' n.1 n.2.1 n.2.2) := by
      rw [collection_withList, if_pos rfl, hc]
      rfl
    rcases hst with hsa | ⟨key', hcl⟩
    · rw [hsa, hl] at hc'
      cases hc'
      exact hnot hsl'
    rw [hcl, State.collection_modify, hl] at hc'
    split at hc'
    · cases hc'
      exact hnt hsl'
    · cases hc'
      exact hnot hsl'

theorem harmless_iff (ho : OnlyFrom key s globalManifest info) :
    Harmless key s (applyLists verifies s now globalManifest version [info]) ↔
      ¬ Offends key s globalManifest info := by
  constructor
  · intro hh hoff
    exact hoff.not_harmless h hrev hv hh
  intro hno
  apply harmless_applyLists h hrev
  · simpa using ho
  · simpa using hno

end

theorem Unoffended.forall_mem (hrev : s.publisherManifests.revoked key)
    (ho : ∀ info ∈ blobs, OnlyFrom key s globalManifest info)
    (hno : Unoffended verifies key s (.applyLists now globalManifest version blobs)) :
    ∀ info ∈ blobs, ¬ Offends key s globalManifest info := by
  induction blobs with
  | nil => exact List.forall_mem_nil _
  | cons info blobs ih =>
    obtain ⟨hi, hr⟩ := hno
    rw [List.forall_mem_cons] at ho ⊢
    obtain ⟨stats, hs⟩ :=
      applyList_eq_self verifies now version hrev ho.1 (hi hrev)
    dsimp only at hr
    rw [hs] at hr
    exact ⟨hi hrev, ih ho.2 hr⟩

/-- What is expected of a run, for a publisher that is revoked at some point of it: nothing is left
of its lists, no list of its is heard, and no call with such lists alone changes a count. -/
structure Unheard (verifies : Manifest PK → Bool) (key : PK)
    (s : State PK) (es : List (Event PK)) : Prop where
  silenced : ∀ p, p <+: es → (p.foldl (step verifies) s).publisherManifests.revoked key →
    ∃ c, (p.foldl (step verifies) s).collection (some key) = some c ∧ Silenced c
  harmless : ∀ p now manifest version blobs, p ++ [.applyLists now manifest version blobs] <+: es →
    (p.foldl (step verifies) s).publisherManifests.revoked key →
    (∀ info ∈ blobs, OnlyFrom key (p.foldl (step verifies) s) manifest info) →
    Harmless key (p.foldl (step verifies) s)
      (applyLists verifies (p.foldl (step verifies) s) now manifest version blobs)
  ignored : ∀ p now manifest version done info rest,
    p ++ [.applyLists now manifest version (done ++ info :: rest)] <+: es →
    ∀ s', s' = afterLists verifies (p.foldl (step verifies) s) now version manifest done →
    s'.publisherManifests.revoked key → OnlyFrom key s' manifest info →
    ∃ stats, applyList verifies s' now version manifest info = (s', some stats)

/-- In every run in which no list offends that comes after the revocation, the publisher is not
heard any more. In each state of such a run, a call with one list of the publisher is harmless
exactly if the list does not offend. -/
theorem unheard_of_unoffended (hload : Loaded s) (hlisted : (s.collection (some key)).isSome)
    (es : List (Event PK)) (hok : Run.Allowed (step verifies) (Unoffended verifies key) s es) :
    Unheard verifies key s es ∧
      ∀ s', s' = es.foldl (step verifies) s → s'.publisherManifests.revoked key →
        ∀ now manifest version info, version ∈ supportedListVersions → OnlyFrom key s' manifest info →
          (Harmless key s' (applyLists verifies s' now manifest version [info]) ↔
            ¬ Offends key s' manifest info) := by
  have hsilent : ∀ p, p <+: es → Silent key (p.foldl (step verifies) s) ∧
      ∀ e, p ++ [e] <+: es → Unoffended verifies key (p.foldl (step verifies) s) e := by
    rintro p ⟨q, rfl⟩
    have hprior := Run.allowed_append.mp hok
    refine ⟨Run.invariant (Silent key) (fun s e hs he => hs.step he) p (hload.silent hlisted) hprior.1,
      ?_⟩
    rintro e ⟨r, hr⟩
    have hq : q = e :: r := by simpa using hr.symm
    subst hq
    exact hprior.2.1
  have hof : ∀ {p e}, p ++ [e] <+: es → p <+: es := (List.prefix_append _ _).trans
  refine ⟨⟨?_, ?_, ?_⟩, ?_⟩
  · intro p hp hrev
    obtain ⟨c, hc, hsilenced⟩ := (hsilent p hp).1
    exact ⟨c, hc, hsilenced hrev⟩
  · intro p now manifest version blobs hp hrev honly
    obtain ⟨hs, hno⟩ := hsilent p (hof hp)
    exact harmless_applyLists hs hrev honly ((hno _ hp).forall_mem hrev honly)
  · intro p now manifest version done info rest hp s' hs' hrev honly
    obtain ⟨-, hno⟩ := hsilent p (hof hp)
    have hturn := (Run.allowed_append.mp (hno _ hp)).2.1
    subst hs'
    exact applyList_eq_self verifies now version hrev honly (hturn hrev)
  · rintro s' rfl hrev now manifest version info hversion honly
    exact harmless_iff (hsilent es (List.prefix_refl es)).1 hrev hversion honly

/-- The revocation of the publisher, and then a list that comes with the manifest from before it. -/
def revocation (signer : Nat) : List (Event Nat) :=
  let revoked : Manifest Nat := ⟨7, none, 0xFFFFFFFF, [], by simp⟩
  let list : PublishedList Nat := ⟨1, none, 100, [⟨some 5, none⟩]⟩
  [.applyLists 10 (some revoked) 1 [⟨none, fun _ => true, some list⟩],
    .applyLists 20 (some (ManifestCache.naming 7 8)) 1 [⟨none, fun k => decide (k = signer), some list⟩]]

/-- The old signing key is of no use after the revocation. -/
theorem unheard_old_signing_key :
    (onePublisher.collection (some 7)).isSome ∧
      ((revocation 8).foldl (step fun _ => true) onePublisher).publisherManifests.revoked 7 ∧
      Unheard (fun _ => true) 7 onePublisher (revocation 8) := by
  refine ⟨rfl, rfl, (unheard_of_unoffended loaded_onePublisher rfl (revocation 8) ?_).1⟩
  refine ⟨⟨?_, trivial⟩, ⟨?_, trivial⟩, trivial⟩
  · intro hrev
    cases hrev
  · rintro - ⟨m, j, -, -, -, hsigned, -⟩
    cases hsigned

/-- With the master key, the publisher is believed in spite of its revocation. -/
theorem heard_master_key :
    (((revocation 7).take 1).foldl (step fun _ => true) onePublisher).publisherManifests.revoked 7 =
        true ∧
      ((((revocation 7).foldl (step fun _ => true) onePublisher).collection (some 7)).map fun c =>
        (c.status, c.current.list)) = some (.available, [5]) ∧
      ((revocation 7).foldl (step fun _ => true) onePublisher).keyListings.lookup 5 = some 1 ∧
      ¬ Unheard (fun _ => true) 7 onePublisher (revocation 7) := by
  refine ⟨rfl, rfl, rfl, ?_⟩
  intro h
  obtain ⟨c, hc, hsilenced⟩ := h.silenced _ (List.prefix_refl _) rfl
  cases hc
  exact absurd hsilenced.status (by decide)

end Runs

end Rippled.ValidatorList
