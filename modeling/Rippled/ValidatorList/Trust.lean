import Rippled.ValidatorList.Listings

namespace Rippled.ValidatorList

open Lib List Option Finset

variable {PK : Type} [LinearOrder PK]

section Force

variable {verifies : Manifest PK → Bool} {s : State PK}
  {now version : Nat} {globalManifest : Option (Manifest PK)}
  {info : ValidatorBlobInfo PK} {c : PublisherListCollection PK}

/-- The list of the greatest sequence number that is effective at a time, or else the current one. -/
def newest (time : Nat) (c : PublisherListCollection PK) : PublisherList PK :=
  ((c.remaining.entries.filter fun e => e.2.validFrom ≤ time).getLast?.map Prod.snd).getD c.current

/-- A key is in the newest effective list of a publisher, and that is in force at a time. -/
def InForce (s : State PK) (time : Nat) (key : PK) : Prop :=
  ∃ publisher c, s.collection (some publisher) = some c ∧ key ∈ (newest time c).list ∧
    (newest time c).validFrom ≤ time ∧ time < (newest time c).validUntil

/-- The keys of a current list are there as long as it can expire, and not before it is effective. -/
def Current (time : Nat) (c : PublisherListCollection PK) : Prop :=
  c.current.list = [] ∨ c.status = .available ∧ c.current.validFrom ≤ time

section

omit [LinearOrder PK]

theorem Current.rotated {time time' : Nat} (h : Current time c) (hle : time' ≤ time) :
    Current time (rotated time' c) := by
  unfold ValidatorList.rotated
  split
  · exact h
  rename_i sequence candidate hl
  have he : candidate.validFrom ≤ time' := by
    have hall := all_eq_true.mp all_takeWhile _ (mem_of_getLast? hl)
    simpa using hall
  refine .inr ⟨rfl, ?_⟩
  split
  · exact he.trans hle
  · exact he.trans hle

theorem Current.refreshed {time time' : Nat} (h : Current time c) (hle : time' ≤ time) :
    Current time (refreshed time' c) := by
  unfold ValidatorList.refreshed
  split
  · exact .inl rfl
  · exact h.rotated hle

/-- What an update leaves of a collection are the keys of its newest effective list. -/
theorem mem_refreshed_iff {time : Nat} (h : Current time c)
    (ht : ∀ e ∈ (upcoming c.remaining time).entries, time < e.2.validFrom) {k : PK} :
    k ∈ (refreshed time c).current.list ↔ k ∈ (newest time c).list ∧
      (newest time c).validFrom ≤ time ∧ time < (newest time c).validUntil := by
  have hready : (c.remaining.entries.filter fun e => decide (e.2.validFrom ≤ time)) =
      c.remaining.entries.takeWhile fun e => decide (e.2.validFrom ≤ time) := by
    conv_lhs => rw [← takeWhile_append_dropWhile
      (p := fun e => decide (e.2.validFrom ≤ time)) (l := c.remaining.entries)]
    rw [filter_append, filter_eq_self.mpr (all_eq_true.mp all_takeWhile), append_right_eq_self,
      filter_eq_nil_iff]
    intro e he
    simpa using ht e he
  rw [newest, hready, refreshed, rotated]
  cases hl : (c.remaining.entries.takeWhile fun e => decide (e.2.validFrom ≤ time)).getLast? with
  | none =>
    dsimp only [Option.map_none, Option.getD_none]
    rcases h with hnil | ⟨hs, hf⟩
    · split_ifs <;> simp [withdrawn, hnil]
    · by_cases hu : c.current.validUntil ≤ time
      · simp [withdrawn, hs, hu]
      · simp [hu, hf, Nat.lt_of_not_le hu]
  | some e =>
    obtain ⟨sequence, candidate⟩ := e
    have he := all_eq_true.mp all_takeWhile _ (mem_of_getLast? hl)
    by_cases hu : candidate.validUntil ≤ time
    · simp [withdrawn, hu]
    · simp [hu, Nat.lt_of_not_le hu, of_decide_eq_true he]

end

variable (verifies) in
/-- A list that has expired when it comes has no keys, and one that is effective is not stored as a
pending list that is not. -/
def TimelyList (now : Nat) (globalManifest : Option (Manifest PK)) (s : State PK)
    (info : ValidatorBlobInfo PK) : Prop :=
  ∀ m s' c j n, Presented verifies s globalManifest info m s' c j → numbers j = some n →
    (dispose c now n.1 n.2.1 n.2.2 = some .expired → (stored c j n).list = []) ∧
    (dispose c now n.1 n.2.1 n.2.2 = some .accepted → (stored c j n).validFrom ≤ now)

variable (verifies) in
/-- When trust is updated, the pending lists that are effective come before those that are not, and
the clock has not run out. -/
def Timely (s : State PK) : Event PK → Prop
  | .applyLists now manifest version blobs => Run.Allowed
      (fun s info => (applyList verifies s now version manifest info).1)
      (TimelyList verifies now manifest) s blobs
  | .updateTrusted now closeTime => effectiveTime now closeTime < maxTime ∧
      ∀ publisher c, s.collection (some publisher) = some c →
        ∀ e ∈ (upcoming c.remaining (effectiveTime now closeTime)).entries,
          effectiveTime now closeTime < e.2.validFrom

/-- The keys that are listed come from the configuration, or from lists that are current. -/
structure Punctual (config : Option (PublisherListCollection PK))
    (localPubKey : Option PK) (time : Nat) (s : State PK) : Prop where
  counted : Counted s
  localPubKey : s.localPubKey = localPubKey
  config : s.collection none = config
  current : ∀ publisher c, s.collection (some publisher) = some c → Current time c

variable {config : Option (PublisherListCollection PK)} {localPubKey : Option PK}
  {time closeTime : Nat}

theorem Punctual.takePublisherManifest (h : Punctual config localPubKey time s) (m : Manifest PK) :
    Punctual config localPubKey time (takePublisherManifest verifies s m).2 where
  counted := h.counted.takePublisherManifest m
  localPubKey := by
    rw [localPubKey_takePublisherManifest]
    exact h.localPubKey
  config := by
    rw [collection_takePublisherManifest_of_ne (by simp)]
    exact h.config
  current := by
    intro publisher c hc
    rcases collection_takePublisherManifest_cases verifies s m (some publisher) with
      hs | ⟨-, hw⟩
    · rw [hs] at hc
      exact h.current publisher c hc
    · rw [hw] at hc
      obtain ⟨c', -, rfl⟩ := map_eq_some_iff.mp hc
      exact .inl rfl

theorem current_takeList {d : ListDisposition} (j : PublishedList PK) {n : Nat × Nat × Nat}
    (h : Current time c) (he : d = .expired → (stored c j n).list = [])
    (ha : d = .accepted → (stored c j n).validFrom ≤ time) :
    Current time (takeList c d version j n.1 n.2.1 n.2.2) := by
  by_cases hd : d = .accepted ∨ d = .expired
  · have hc : (takeList c d version j n.1 n.2.1 n.2.2).current = stored c j n := by
      simp only [takeList, if_pos hd]
      rw [current_makeCurrent]
      rfl
    rcases hd with rfl | rfl
    · refine .inr ⟨?_, ?_⟩
      · simp only [takeList, makeCurrent, true_or, if_true]
        split <;> rfl
      · rw [hc]
        exact ha rfl
    · refine .inl ?_
      rw [hc]
      exact he rfl
  · have hc : (takeList c d version j n.1 n.2.1 n.2.2).current = c.current := by
      simp [takeList, hd, makePending]
    have hs : (takeList c d version j n.1 n.2.1 n.2.2).status = c.status := by
      rw [not_or] at hd
      simp [takeList, hd, makePending]
    unfold Current
    rw [hc, hs]
    exact h

section

variable (h : Punctual config localPubKey time s)

include h

theorem Punctual.applyList (hnow : now ≤ time)
    (htm : TimelyList verifies now globalManifest s info) : Punctual config localPubKey time
      (applyList verifies s now version globalManifest info).1 := by
  have ht : ∀ {m s' c j}, Presented verifies s globalManifest info m s' c j →
      Punctual config localPubKey time s' := by
    intro m s' c j hp
    rw [hp.taken]
    exact h.takePublisherManifest m
  have hcl : ∀ {r}, Applied verifies s now version globalManifest info r →
      r.1.collection none = config ∧
        ∀ publisher c, r.1.collection (some publisher) = some c → Current time c := by
    intro r ha
    cases ha with
    | unknown => exact ⟨h.config, h.current⟩
    | unsigned m =>
      exact ⟨(h.takePublisherManifest m).config, (h.takePublisherManifest m).current⟩
    | threw hp | refused hp => exact ⟨(ht hp).config, (ht hp).current⟩
    | @took m s' c j n d hp hn hd =>
      have hs' := ht hp
      simp only [collection_withList]
      refine ⟨by rw [if_neg (by simp)]; exact hs'.config, ?_⟩
      intro publisher c' hc'
      split_ifs at hc' with hkey
      · cases hkey
        rw [hp.collection, map_some, Option.some.injEq] at hc'
        subst hc'
        obtain ⟨he, hac⟩ := htm m s' c j n hp hn
        refine current_takeList j (hs'.current _ _ hp.collection) ?_ ?_
        · intro heq
          exact he (heq ▸ hd)
        · intro heq
          exact (hac (heq ▸ hd)).trans hnow
      · exact hs'.current _ _ hc'
  obtain ⟨hcn, hcr⟩ :=
    hcl (applied_applyList verifies s now version globalManifest info)
  exact ⟨h.counted.applyList, localPubKey_applyList.trans h.localPubKey, hcn, hcr⟩

theorem Punctual.modify_clean (key : PK) :
    Punctual config localPubKey time (s.modify (some key) clean) where
  counted := h.counted.modify_of_list_eq fun _ _ => rfl
  localPubKey := h.localPubKey
  config := by
    rw [State.collection_modify, if_neg (by simp)]
    exact h.config
  current := by
    intro publisher c hc
    rw [State.collection_modify] at hc
    split at hc
    · obtain ⟨c', hc', rfl⟩ := map_eq_some_iff.mp hc
      exact h.current publisher c' hc'
    · exact h.current publisher c hc

theorem Punctual.applyLists (hnow : now ≤ time) {blobs : List (ValidatorBlobInfo PK)}
    (ht : Timely verifies s (.applyLists now globalManifest version blobs)) :
    Punctual config localPubKey time
      (applyLists verifies s now globalManifest version blobs).1 := by
  refine applyLists_invariant (Punctual config localPubKey time) ?_ h ht ?_
  · exact fun _ _ hs hi => hs.applyList hnow hi
  · exact fun _ key hs => hs.modify_clean key

end

/-- The configuration can be told from a published list in that it does not expire. -/
def Unexpiring (config : Option (PublisherListCollection PK)) : Prop :=
  ∀ c, config = some c → c.remaining.entries = [] ∧ c.current.validUntil = maxTime

omit [LinearOrder PK] in
theorem Unexpiring.refreshed (h : Unexpiring config) (ht : time < maxTime) :
    config.map (refreshed time) = config := by
  cases hc : config with
  | none => rfl
  | some c =>
    obtain ⟨hr, hu⟩ := h c hc
    have hrt : rotated time c = c := by simp [rotated, hr]
    rw [map_some, ValidatorList.refreshed, hrt, hu, if_neg]
    rintro ⟨-, hle⟩
    exact absurd ht (Nat.not_lt.mpr hle)

section

variable (h : Punctual config localPubKey time s)

include h

theorem Punctual.updateKeys (hcn : Unexpiring config) {closeTime : Nat}
    (ht : effectiveTime now closeTime < maxTime) (hle : effectiveTime now closeTime ≤ time) :
    Punctual config localPubKey time (updateKeys verifies s now closeTime).1 where
  counted := h.counted.updateKeys now closeTime
  localPubKey := (unchanged_foldl_refresh _ _).1.trans h.localPubKey
  config := by
    rw [collection_updateKeys h.counted.nodup, h.config]
    exact hcn.refreshed ht
  current := by
    intro publisher c hc
    rw [collection_updateKeys h.counted.nodup] at hc
    obtain ⟨c', hc', rfl⟩ := map_eq_some_iff.mp hc
    exact (h.current publisher c' hc').refreshed hle

theorem Punctual.step (hc : Unexpiring config) {e : Event PK}
    (ht : Timely verifies s e) (hle : e.time ≤ time) :
    Punctual config localPubKey time (step verifies s e) := by
  cases e with
  | applyLists now manifest version blobs => exact h.applyLists hle ht
  | updateTrusted now closeTime => exact h.updateKeys hc ht.1 hle

theorem Punctual.listed_iff (k : PK) :
    k ∈ s.keyListings ↔ localPubKey = some k ∨ (∃ c, config = some c ∧ k ∈ c.current.list) ∨
      ∃ publisher c, s.collection (some publisher) = some c ∧ k ∈ c.current.list := by
  have hc : k ∈ s.keyListings ↔ s.occurrences k ≠ 0 := by
    rw [← Finmap.lookup_isSome, h.counted.tally k]
    by_cases hz : s.occurrences k = 0
    · simp [hz]
    · simp [hz]
  have hls : k ∈ s.listed ↔ ∃ key c, s.collection key = some c ∧ k ∈ c.current.list := by
    simp only [State.listed, mem_flatMap, State.collection_eq_some_iff h.counted.nodup,
      Prod.exists]
  rw [hc, State.occurrences, h.localPubKey]
  by_cases hl : localPubKey = some k
  · simp [hl]
  · simp only [hl, if_false, Nat.zero_add, false_or, ne_eq, count_eq_zero, not_not, hls,
      ← h.config]
    rw [Option.exists]

end

variable (verifies s) in
/-- The trusted keys are those that are listed and not revoked, and the changes are exact. -/
theorem updateKeys_changes (now closeTime : Nat) {r : State PK × TrustChanges PK}
    (hr : r = updateKeys verifies s now closeTime) :
    r.1.trustedMasterKeys = listedKeys r.1 ∧
      r.2.added = r.1.trustedMasterKeys \ s.trustedMasterKeys ∧
      r.2.removed = s.trustedMasterKeys \ r.1.trustedMasterKeys := by
  subst hr
  unfold updateKeys
  dsimp only
  rw [(unchanged_foldl_refresh _ _).2]
  generalize (s.publisherLists.map Prod.fst).foldl
    (refresh verifies (effectiveTime now closeTime)) s = s'
  have hl : ∀ k, k ∈ listedKeys s' ↔
      ¬ ((!(s'.keyListings.lookup k).isSome || s'.validatorManifests.revoked k) = true) := by
    intro k
    simp [listedKeys, Finmap.mem_keys, Finmap.lookup_eq_none]
  have hrm : (s.trustedMasterKeys.filter fun key =>
      !(s'.keyListings.lookup key).isSome || s'.validatorManifests.revoked key) =
        s.trustedMasterKeys \ listedKeys s' := by
    ext k
    rw [Finset.mem_filter, Finset.mem_sdiff, hl, not_not]
  have hs : ∀ trusted, listedKeys { s' with trustedMasterKeys := trusted } = listedKeys s' :=
    fun _ => rfl
  rw [hrm, hs]
  have hall : s.trustedMasterKeys \ (s.trustedMasterKeys \ listedKeys s') ∪
      listedKeys s' \ (s.trustedMasterKeys \ (s.trustedMasterKeys \ listedKeys s')) =
        listedKeys s' := by
    rw [union_sdiff_self_eq_union, sdiff_sdiff_self_left]
    exact union_eq_right.mpr inter_subset_right
  rw [hall]
  refine ⟨rfl, ?_, rfl⟩
  rw [sdiff_sdiff_self_left, sdiff_inter_self_right]

variable {NodeID : Type} [DecidableEq NodeID]

/-- What is expected of an update of trust, for a configuration: the lists in force are those held
before it, and the changes are told by node. -/
structure Follows (calcNodeID : PK → NodeID) (localSigningKey : Option PK)
    (configKeys : List PK) (s : State PK) (time : Nat)
    (r : State PK × TrustChanges NodeID) : Prop where
  trusted : ∀ k, k ∈ r.1.trustedMasterKeys ↔ r.1.validatorManifests.revoked k = false ∧
    (s.localPubKey = some k ∨ (k ∈ configKeys ∧ localSigningKey ≠ some k) ∨ InForce s time k)
  added : r.2.added = (r.1.trustedMasterKeys \ s.trustedMasterKeys).image calcNodeID
  removed : r.2.removed = (s.trustedMasterKeys \ r.1.trustedMasterKeys).image calcNodeID

variable {validatorManifests publisherManifests : ManifestCache PK}
  {localSigningKey : Option PK} {configKeys publisherKeys keys : List PK}

/-- The keys in the current lists after an update are those of the lists in force before it. -/
theorem inForce_iff_updateKeys (h : Punctual config localPubKey (effectiveTime now closeTime) s)
    (ht : Timely verifies s (.updateTrusted now closeTime)) (k : PK) :
    InForce s (effectiveTime now closeTime) k ↔
      ∃ publisher c, (updateKeys verifies s now closeTime).1.collection (some publisher) =
        some c ∧ k ∈ c.current.list := by
  unfold InForce
  simp only [collection_updateKeys h.counted.nodup, map_eq_some_iff]
  constructor
  · rintro ⟨publisher, c, hc, hk⟩
    exact ⟨publisher, _, ⟨c, hc, rfl⟩,
      (mem_refreshed_iff (h.current publisher c hc) (ht.2 publisher c hc)).mpr hk⟩
  · rintro ⟨publisher, _, ⟨c, hc, rfl⟩, hk⟩
    exact ⟨publisher, c, hc,
      (mem_refreshed_iff (h.current publisher c hc) (ht.2 publisher c hc)).mp hk⟩

section

variable (h : LoadedAs validatorManifests localSigningKey configKeys keys s)

include h

theorem LoadedAs.unexpiring : Unexpiring (s.collection none) := by
  intro c hc
  rw [h.config] at hc
  split_ifs at hc
  cases hc
  exact ⟨rfl, rfl⟩

theorem LoadedAs.punctual (time : Nat) : Punctual (s.collection none) s.localPubKey time s where
  counted := h.counted
  localPubKey := rfl
  config := rfl
  current := fun publisher c hc => .inl (h.publisher publisher c hc)

end

theorem follows_updateTrusted (calcNodeID : PK → NodeID) {s₀ : State PK}
    (hl : LoadedAs validatorManifests localSigningKey configKeys keys s₀)
    (h : Punctual (s₀.collection none) s₀.localPubKey (effectiveTime now closeTime) s)
    (ht : Timely verifies s (.updateTrusted now closeTime)) :
    Follows calcNodeID localSigningKey configKeys s (effectiveTime now closeTime)
      (updateTrusted verifies s now closeTime calcNodeID) := by
  obtain ⟨htr, ha, hr⟩ := updateKeys_changes verifies s now closeTime rfl
  refine ⟨?_, congrArg (image calcNodeID) ha, congrArg (image calcNodeID) hr⟩
  intro k
  have hst : (updateTrusted verifies s now closeTime calcNodeID).1 =
      (updateKeys verifies s now closeTime).1 := rfl
  have hc : (∃ c, s₀.collection none = some c ∧ k ∈ c.current.list) ↔ k ∈ keys := by
    rw [hl.config]
    split
    · simp [*]
    · simp [configured]
  have haf : Punctual (s₀.collection none) s₀.localPubKey (effectiveTime now closeTime)
      (updateKeys verifies s now closeTime).1 :=
    h.updateKeys hl.unexpiring ht.1 le_rfl
  have hls := haf.listed_iff k
  rw [hst, htr, listedKeys, Finset.mem_filter, Finmap.mem_keys, hls, inForce_iff_updateKeys h ht, hc,
    hl.mem_keys, h.localPubKey]
  by_cases hlc : s₀.localPubKey = some k
  · simp [hlc]
  · simp [hlc, and_comm]

/-- The counts are right in every state of every run. In every run with a clock that does not go
back, in which no list that has expired brings keys, no effective list is taken for a pending one
that is not, and the pending lists are in the order of their times when trust is updated, the
trusted keys are those of the lists in force. -/
theorem trust_follows (calcNodeID : PK → NodeID) {s : State PK}
    (hload : LoadedFrom validatorManifests publisherManifests localSigningKey configKeys publisherKeys
      s) :
    (∀ (es : List (Event PK)) k,
      (es.foldl (step verifies) s).keyListings.lookup k =
        if (es.foldl (step verifies) s).occurrences k = 0 then none
        else some ((es.foldl (step verifies) s).occurrences k)) ∧
      ∀ es : List (Event PK), (es.map Event.time).Pairwise (· ≤ ·) →
        Run.Allowed (step verifies) (Timely verifies) s es →
        ∀ p now closeTime, p ++ [.updateTrusted now closeTime] <+: es →
          Follows calcNodeID localSigningKey configKeys (p.foldl (step verifies) s)
            (effectiveTime now closeTime)
            (updateTrusted verifies (p.foldl (step verifies) s) now closeTime calcNodeID) := by
  obtain ⟨keys, hload⟩ := hload.loadedAs
  constructor
  · intro es
    have hcounted : Counted (es.foldl (step verifies) s) :=
      List.foldlRecOn _ _ hload.counted fun _ hs e _ => hs.step e
    exact hcounted.tally
  rintro es hclock hok p now closeTime ⟨q, rfl⟩
  rw [List.append_assoc] at hok hclock
  obtain ⟨hp, htimely, -⟩ := Run.allowed_append.mp hok
  apply follows_updateTrusted calcNodeID hload _ htimely
  exact Run.invariant (Punctual (s.collection none) s.localPubKey (effectiveTime now closeTime))
    (fun _ _ hs he => hs.step hload.unexpiring he.1 he.2) p (hload.punctual _)
    (hp.and_mem (time_le_of_clock hclock))

/-- A server with key 3 that trusts key 4 by configuration and has one publisher, with master
key 7. -/
def oneSource : State Nat := load .new .new (some 3) [4] [7]

def listComes (effective expiration : Int) : Event Nat :=
  let list : PublishedList Nat := ⟨1, some effective, expiration, [⟨some 5, none⟩]⟩
  .applyLists 10 (some (ManifestCache.naming 7 8)) 1 [⟨none, fun k => decide (k = 8), some list⟩]

def withListOf (effective expiration : Int) : State Nat :=
  step (fun _ => true) oneSource (listComes effective expiration)

theorem timely_listComes : Run.Allowed (step fun _ => true) (Timely fun _ => true) oneSource
    [listComes 5 100, .updateTrusted 10 10] := by
  refine ⟨⟨?_, trivial⟩, ⟨by decide, ?_⟩, trivial⟩
  · intro m s' c j n hp hn
    have hm := hp.manifest
    cases hm
    have hj := hp.blob
    cases hj
    cases hn
    have hc := hp.collection
    rw [hp.taken] at hc
    cases hc
    constructor
    · intro hd
      exact absurd hd (by decide)
    · intro _
      decide
  · intro publisher c hc
    have hpn : ∀ e ∈ (withListOf 5 100).publisherLists, e.2.remaining.entries.isEmpty := by
      decide
    have hnil := isEmpty_iff.mp (hpn _ (State.mem_of_collection hc))
    intro e he
    have hmem := (dropWhile_sublist _).subset he
    rw [hnil] at hmem
    cases hmem

/-- A list in time is trusted, beside the server itself and its configuration. -/
theorem follows_listComes :
    Follows (· % 4) (some 3) [4] (withListOf 5 100) 10
        (updateTrusted (fun _ => true) (withListOf 5 100) 10 10 (· % 4)) ∧
      (updateTrusted (fun _ => true) (withListOf 5 100) 10 10 (· % 4)).1.trustedMasterKeys =
        {3, 4, 5} :=
  have hload : LoadedFrom .new .new (some 3) [4] [7] oneSource := ⟨List.Perm.refl _, rfl⟩
  ⟨(trust_follows (· % 4) hload).2 _ (by decide) timely_listComes [listComes 5 100] 10 10
    (List.prefix_refl _), by decide⟩

/-- A list that comes when it has expired is trusted as well, and will be for ever. -/
theorem trusts_expired_list :
    ([listComes 2 5, .updateTrusted 10 10].map Event.time).Pairwise (· ≤ ·) ∧
      5 ∈ (updateTrusted (fun _ => true) (withListOf 2 5) 10 10 id).1.trustedMasterKeys ∧
      ¬ InForce (withListOf 2 5) 10 5 ∧
      ¬ Follows id (some 3) [4] (withListOf 2 5) 10
        (updateTrusted (fun _ => true) (withListOf 2 5) 10 10 id) := by
  have htrusted :
      5 ∈ (updateTrusted (fun _ => true) (withListOf 2 5) 10 10 id).1.trustedMasterKeys := by
    decide
  have hexpired : ∀ e ∈ (withListOf 2 5).publisherLists,
      e.1 = none ∨ (newest 10 e.2).validUntil ≤ 10 := by
    decide
  have hnot : ¬ InForce (withListOf 2 5) 10 5 := by
    rintro ⟨publisher, c, hc, -, -, huntil⟩
    obtain hnone | hle := hexpired _ (State.mem_of_collection hc)
    · cases hnone
    · exact absurd huntil (Nat.not_lt.mpr hle)
  refine ⟨by decide, htrusted, hnot, ?_⟩
  intro h
  obtain ⟨-, hlocal | hconfig | hforce⟩ := (h.trusted 5).mp htrusted
  · exact absurd hlocal (by decide)
  · exact absurd hconfig.1 (by decide)
  · exact hnot hforce

end Force

end Rippled.ValidatorList
