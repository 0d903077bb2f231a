import Rippled.ValidatorList.Calls

namespace Rippled.ValidatorList

open Lib List

variable {PK : Type} [LinearOrder PK]

/-- The listings map each key to its count. Keys with count 0 are absent. -/
def Tally (listings : HashMap PK Nat) (count : PK → Nat) : Prop :=
  ∀ key, listings.lookup key = if count key = 0 then none else some (count key)

section Tally

variable {listings : HashMap PK Nat} {count : PK → Nat} {olds : List PK}

section

variable (h : Tally listings count)

include h

theorem Tally.getD (key : PK) : (listings.lookup key).getD 0 = count key := by
  rw [h key]
  split
  · simp [*]
  · rfl

theorem Tally.increment (key : PK) :
    Tally (increment listings key) fun k => count k + [key].count k := by
  intro k
  rw [ValidatorList.increment, HashMap.lookup_insert_eq, h.getD]
  by_cases hk : k = key
  · simp [hk]
  · simp [hk, Ne.symm hk, h k]

theorem Tally.decrement {key : PK} (hkey : 0 < count key) :
    Tally (decrement listings key) fun k => count k - [key].count k := by
  intro k
  rw [ValidatorList.decrement, h.getD]
  by_cases hk : k = key
  · subst hk
    split
    · have hone : count k - 1 = 0 := by omega
      simp [hone]
    · have hm : count k - 1 ≠ 0 := by omega
      simp [hm]
  · split <;> simp [hk, Ne.symm hk, h k]

theorem Tally.congr {count' : PK → Nat} (heq : ∀ k, count k = count' k) :
    Tally listings count' := by
  rw [← funext heq]
  exact h

theorem Tally.foldl_decrement (hle : ∀ k, olds.count k ≤ count k) :
    Tally (olds.foldl ValidatorList.decrement listings) fun k => count k - olds.count k := by
  induction olds generalizing listings count with
  | nil => exact h
  | cons old olds ih =>
    have hs : ∀ k, (old :: olds).count k = [old].count k + olds.count k := by
      intro k
      rw [← count_append, singleton_append]
    have hpos : 0 < count old := by
      have hold := hle old
      rw [count_cons_self] at hold
      omega
    refine (ih (h.decrement hpos) ?_).congr ?_
    · intro k
      have hk := hle k
      rw [hs] at hk
      omega
    · intro k
      rw [hs]
      omega

theorem Tally.unlist {key : PK} (hkey : 0 < count key) :
    unlist listings key = ValidatorList.decrement listings key := by
  have hl : (listings.lookup key).isSome := by
    rw [h key, if_neg (Nat.ne_of_gt hkey)]
    rfl
  rw [ValidatorList.unlist, if_pos hl]

theorem Tally.foldl_unlist (hle : ∀ k, olds.count k ≤ count k) :
    olds.foldl ValidatorList.unlist listings = olds.foldl ValidatorList.decrement listings := by
  induction olds generalizing listings count with
  | nil => rfl
  | cons old olds ih =>
    have hpos : 0 < count old := by
      have hold := hle old
      rw [count_cons_self] at hold
      omega
    rw [foldl_cons, foldl_cons, h.unlist hpos]
    apply ih (h.decrement hpos)
    intro k
    have hk := hle k
    rw [← singleton_append, count_append] at hk
    omega

end

/-- One key of a merge is counted, whatever is counted down before it. -/
theorem Tally.mergeKey {key : PK} {keys : List PK} {next : List PK → HashMap
      PK Nat → HashMap PK Nat} (hn : ∀ {olds listings} {count : PK → Nat},
      Tally listings count → (∀ k, olds.count k ≤ count k) → Tally (next olds listings) fun k =>
      count k + keys.count k - olds.count k)
    {olds : List PK} (h : Tally listings count) (hle : ∀ k, olds.count k ≤ count k) :
    Tally (mergeKey key next olds listings)
      fun k => count k + (key :: keys).count k - olds.count k := by
  have hs : ∀ (a : PK) l k, (a :: l).count k = [a].count k + l.count k := by
    intro a l k
    rw [← count_append, singleton_append]
  induction olds generalizing listings count with
  | nil =>
    rw [ValidatorList.mergeKey]
    refine (hn (h.increment key) (by simp)).congr ?_
    intro k
    rw [hs key keys]
    omega
  | cons old olds ih =>
    rw [ValidatorList.mergeKey]
    split
    · refine (hn (h.increment key) ?_).congr ?_
      · intro k
        exact (hle k).trans (Nat.le_add_right _ _)
      · intro k
        rw [hs key keys]
        omega
    · split
      · have hpos : 0 < count old := by
          have hold := hle old
          rw [count_cons_self] at hold
          omega
        refine (ih (h.decrement hpos) ?_).congr ?_
        · intro k
          have hk := hle k
          rw [hs] at hk
          omega
        intro k
        have hk := hle k
        rw [hs old olds] at hk ⊢
        omega
      · -- the key is in both lists, and its count stays as it is
        rename_i hlt hgt
        have heq : key = old := le_antisymm (not_lt.mp hgt) (not_lt.mp hlt)
        subst heq
        refine (hn h ?_).congr ?_
        · intro k
          have hk := hle k
          rw [hs] at hk
          omega
        · intro k
          rw [hs key keys, hs key olds]
          omega

theorem Tally.mergeKeys {keys olds : List PK} (h : Tally listings count)
    (hle : ∀ k, olds.count k ≤ count k) :
    Tally (mergeKeys keys olds listings) fun k => count k + keys.count k - olds.count k := by
  induction keys generalizing olds listings count with
  | nil => exact h.foldl_decrement hle
  | cons key keys ih => exact h.mergeKey ih hle

end Tally

namespace State

def listed (s : State PK) : List PK :=
  s.publisherLists.flatMap fun e => e.2.current.list

def occurrences (s : State PK) (key : PK) : Nat :=
  (if s.localPubKey = some key then 1 else 0) + s.listed.count key

/-- A collection stands in one place, so that only its own list changes with it. -/
theorem listed_modify {s : State PK} (hn : (s.publisherLists.map Prod.fst).Nodup)
    {key : Option PK} {c : PublisherListCollection PK} (hc : s.collection key = some c)
    (f : PublisherListCollection PK → PublisherListCollection PK) :
    ∃ before after, s.listed = before ++ c.current.list ++ after ∧
      (s.modify key f).listed = before ++ (f c).current.list ++ after := by
  obtain ⟨l, l', hl, hf⟩ := lookup_eq_some_iff.mp hc
  rw [hl, map_append, map_cons, nodup_append] at hn
  have hs : ∀ {es : List (Option PK × PublisherListCollection PK)},
      (∀ e ∈ es, e.1 ≠ key) → (es.map fun e => if e.1 = key then (e.1, f e.2) else e) = es := by
    intro es hes
    rw [map_congr_left fun e he => if_neg (hes e he), map_id'']
    intro e
    rfl
  have hb : ∀ e ∈ l, e.1 ≠ key := by
    intro e he heq
    simpa [heq] using hf e he
  have ha : ∀ e ∈ l', e.1 ≠ key := by
    intro e he heq
    exact (nodup_cons.mp hn.2.1).1 (mem_map.mpr ⟨e, he, heq⟩)
  refine ⟨l.flatMap fun e => e.2.current.list, l'.flatMap fun e => e.2.current.list, ?_, ?_⟩
  · rw [listed, hl]
    simp
  · rw [listed, modify, hl, map_append, map_cons, hs hb, hs ha]
    simp

end State

/-- The listings count the keys of the current lists, and that of the server itself. -/
structure Counted (s : State PK) : Prop where
  nodup : (s.publisherLists.map Prod.fst).Nodup
  tally : Tally s.keyListings s.occurrences

section Counted

variable {verifies : Manifest PK → Bool} {s : State PK}
  {now version : Nat} {globalManifest : Option (Manifest PK)}
  {info : ValidatorBlobInfo PK} {key : Option PK}
  {c : PublisherListCollection PK}

section

variable (h : Counted s)

include h

/-- A collection whose current list changes, with listings that change by the difference. -/
theorem Counted.modify (hc : s.collection key = some c)
    (f : PublisherListCollection PK → PublisherListCollection PK)
    {s' : State PK} (hls : s'.publisherLists = (s.modify key f).publisherLists)
    (hlc : s'.localPubKey = s.localPubKey) (ht : ∀ count : PK → Nat, Tally s.keyListings count →
      (∀ k, c.current.list.count k ≤ count k) → Tally s'.keyListings fun k =>
        count k + (f c).current.list.count k - c.current.list.count k) :
    Counted s' where
  nodup := by
    rw [hls, State.keys_modify]
    exact h.nodup
  tally := by
    obtain ⟨before, after, hl, hm⟩ := State.listed_modify h.nodup hc f
    have hl' : s'.listed = before ++ (f c).current.list ++ after := by
      rw [State.listed, hls]
      exact hm
    refine (ht _ h.tally ?_).congr ?_
    · intro k
      rw [State.occurrences, hl, count_append, count_append]
      omega
    · intro k
      simp only [State.occurrences, hlc, hl, hl', count_append]
      omega

theorem Counted.modify_of_list_eq
    {f : PublisherListCollection PK → PublisherListCollection PK}
    (hf : ∀ c, s.collection key = some c → (f c).current.list = c.current.list) :
    Counted (s.modify key f) := by
  cases hc : s.collection key with
  | none =>
    have hs : s.modify key f = s := by
      have hl : (s.modify key f).publisherLists = s.publisherLists := by
        rw [State.modify]
        conv_rhs => rw [← map_id s.publisherLists]
        apply map_congr_left
        intro e he
        apply if_neg
        rintro rfl
        have hn := lookup_eq_none_iff.mp hc e he
        simp at hn
      rw [State.modify] at hl ⊢
      simp only at hl
      rw [hl]
    rw [hs]
    exact h
  | some c =>
    refine h.modify hc f rfl rfl ?_
    intro count ht hle
    refine ht.congr ?_
    intro k
    rw [hf c hc]
    omega

theorem Counted.updatePublisherList (hc : s.collection key = some c)
    (f : PublisherListCollection PK → PublisherListCollection PK)
    {current : PublisherList PK} (hcr : (f c).current.list = current.list) :
    Counted (updatePublisherList verifies (s.modify key f) current c.current.list) := by
  refine h.modify hc f rfl rfl ?_
  intro count ht hle
  rw [hcr]
  exact ht.mergeKeys hle

theorem Counted.removePublisherList (key : Option PK) (reason : PublisherStatus) :
    Counted (removePublisherList s key reason) := by
  unfold ValidatorList.removePublisherList
  cases hc : s.collection key with
  | none => exact h
  | some c =>
    refine h.modify hc (withdrawn reason) rfl rfl ?_
    intro count ht hle
    dsimp only
    rw [ht.foldl_unlist hle]
    exact ht.foldl_decrement hle

theorem Counted.takePublisherManifest (m : Manifest PK) :
    Counted (takePublisherManifest verifies s m).2 := by
  have hc : ∀ cache, Counted { s with publisherManifests := cache } := fun cache =>
    ⟨h.nodup, h.tally⟩
  unfold ValidatorList.takePublisherManifest
  dsimp only
  split
  · dsimp only
    apply Counted.modify_of_list_eq ((hc _).removePublisherList _ _)
    intro c _
    rfl
  · exact hc _

end

theorem Counted.withList {key : PK} (h : Counted s) (hc : s.collection (some key) = some c)
    (d : ListDisposition) (j : PublishedList PK) (n : Nat × Nat × Nat) :
    Counted (withList verifies s key c d version j n) := by
  unfold ValidatorList.withList
  split_ifs with hd
  · exact h.updatePublisherList hc _ rfl
  apply h.modify_of_list_eq
  intro c' hc'
  rw [hc] at hc'
  cases hc'
  simp [takeList, hd, makePending]

variable (h : Counted s)

include h

theorem Counted.applyList : Counted (applyList verifies s now version globalManifest info).1 := by
  have ha := applied_applyList verifies s now version globalManifest info
  generalize ValidatorList.applyList verifies s now version globalManifest info = r at ha
  have ht : ∀ {m s' c j}, Presented verifies s globalManifest info m s' c j → Counted s' := by
    intro m s' c j hp
    rw [hp.taken]
    exact h.takePublisherManifest m
  cases ha with
  | unknown => exact h
  | unsigned m => exact h.takePublisherManifest m
  | threw hp => exact ht hp
  | refused hp => exact ht hp
  | took hp => exact (ht hp).withList hp.collection _ _ _

theorem Counted.rotate (key : Option PK) (closeTime : Nat) :
    Counted (rotate verifies s key closeTime) := by
  unfold ValidatorList.rotate
  cases hc : s.collection key with
  | none => exact h
  | some c =>
    dsimp only
    split
    · exact h
    · exact h.updatePublisherList hc _ rfl

theorem Counted.refresh (closeTime : Nat) (key : Option PK) :
    Counted (refresh verifies closeTime s key) := by
  unfold ValidatorList.refresh
  dsimp only
  split
  · exact h.rotate key closeTime
  · split
    · exact (h.rotate key closeTime).removePublisherList _ _
    · exact h.rotate key closeTime

theorem Counted.updateKeys (now closeTime : Nat) :
    Counted (updateKeys verifies s now closeTime).1 := by
  have hf : Counted ((s.publisherLists.map Prod.fst).foldl
      (ValidatorList.refresh verifies (effectiveTime now closeTime)) s) :=
    List.foldlRecOn _ _ h fun _ hs key _ => hs.refresh _ key
  exact ⟨hf.nodup, hf.tally⟩

theorem Counted.applyLists (blobs : List (ValidatorBlobInfo PK)) :
    Counted (applyLists verifies s now globalManifest version blobs).1 := by
  apply applyLists_invariant Counted (fun _ _ hs _ => hs.applyList) h
  · exact Run.allowed_of_forall (fun _ _ => trivial) s blobs
  · exact fun _ key hs => hs.modify_of_list_eq fun _ _ => rfl

theorem Counted.step (e : Event PK) : Counted (step verifies s e) := by
  cases e with
  | applyLists now manifest version blobs => exact h.applyLists blobs
  | updateTrusted now closeTime => exact h.updateKeys now closeTime

end Counted

section Load

/-- A key of the configuration is taken in unless it is one of the server itself. -/
theorem mem_configKeysFrom {isLocal : PK → Bool} {own : PK → Nat}
    (ids : List PK) (hown : ∀ k, isLocal k = false → own k = 0) {l : List PK}
    {listings : HashMap PK Nat} (h : Tally listings fun k => own k + l.count k) :
    (∀ k, k ∈ (configKeysFrom isLocal ids (listings, l)).2 ↔ k ∈ l ∨ k ∈ ids ∧ isLocal k = false) ∧
      Tally (configKeysFrom isLocal ids (listings, l)).1
        fun k => own k + (configKeysFrom isLocal ids (listings, l)).2.count k := by
  induction ids generalizing listings l with
  | nil => exact ⟨by simp [configKeysFrom], h⟩
  | cons id ids ih =>
    rw [configKeysFrom]
    have hls : isLocal id = false → ((listings.lookup id).isSome ↔ id ∈ l) := by
      intro hid
      simp only [h id, hown id hid, Nat.zero_add]
      by_cases hmem : id ∈ l
      · simp [hmem, count_eq_zero]
      · simp [hmem, count_eq_zero_of_not_mem hmem]
    split_ifs with hs
    · obtain ⟨hmem, ht⟩ := ih h
      refine ⟨?_, ht⟩
      intro k
      rw [hmem, mem_cons]
      constructor
      · rintro (hl | ⟨hids, hk⟩)
        · exact .inl hl
        · exact .inr ⟨.inr hids, hk⟩
      rintro (hl | ⟨rfl | hids, hk⟩)
      · exact .inl hl
      · exact .inl ((hls hk).mp (hs.resolve_left (by simp [hk])))
      · exact .inr ⟨hids, hk⟩
    · rw [not_or, Bool.not_eq_true] at hs
      have hnot : id ∉ l := fun hmem => hs.2 ((hls hs.1).mpr hmem)
      have hn : Tally (listings.insert id 1) fun k => own k + (l ++ [id]).count k := by
        intro k
        simp only [HashMap.lookup_insert_eq, count_append]
        by_cases hk : k = id
        · subst hk
          simp [hown k hs.1, count_eq_zero_of_not_mem hnot]
        · simp [hk, Ne.symm hk, h k]
      obtain ⟨hmem, ht⟩ := ih hn
      refine ⟨?_, ht⟩
      intro k
      rw [hmem, mem_append, mem_singleton, mem_cons]
      constructor
      · rintro ((hl | rfl) | ⟨hids, hk⟩)
        · exact .inl hl
        · exact .inr ⟨.inl rfl, hs.1⟩
        · exact .inr ⟨.inr hids, hk⟩
      rintro (hl | ⟨rfl | hids, hk⟩)
      · exact .inl (.inl hl)
      · exact .inl (.inr rfl)
      · exact .inr ⟨hids, hk⟩

variable {validatorManifests publisherManifests : ManifestCache PK}
  {localSigningKey : Option PK} {configKeys publisherKeys : List PK}
  {s : State PK}

/-- What a configuration leaves: publishers without a list, and a list of keys that are not those of
the server itself. -/
structure LoadedAs (validatorManifests : ManifestCache PK)
    (localSigningKey : Option PK) (configKeys : List PK) (keys : List PK)
    (s : State PK) : Prop where
  counted : Counted s
  localPubKey : s.localPubKey = localSigningKey.map validatorManifests.getMasterKey
  mem_keys : ∀ k, k ∈ keys ↔ k ∈ configKeys ∧ s.localPubKey ≠ some k ∧ localSigningKey ≠ some k
  config : s.collection none = if keys = [] then none else some (configured keys)
  publisher : ∀ key c, s.collection (some key) = some c → c.current.list = []

theorem LoadedFrom.loadedAs (h : LoadedFrom validatorManifests publisherManifests localSigningKey
    configKeys publisherKeys s) :
    ∃ keys, LoadedAs validatorManifests localSigningKey configKeys keys s := by
  obtain ⟨hp, hs⟩ := h
  have hlc : s.localPubKey = localSigningKey.map validatorManifests.getMasterKey := by
    rw [hs]
    rfl
  have hown : ∀ k, (decide (localSigningKey.map validatorManifests.getMasterKey = some k) ||
      decide (localSigningKey = some k)) = false → (if s.localPubKey = some k then 1 else 0) = 0 := by
    intro k hk
    rw [Bool.or_eq_false_iff, decide_eq_false_iff_not, ← hlc] at hk
    rw [if_neg hk.1]
  have hi : Tally (ownListing (localSigningKey.map validatorManifests.getMasterKey))
      fun k => (if s.localPubKey = some k then 1 else 0) + ([] : List PK).count k := by
    rw [hlc]
    intro k
    cases localSigningKey.map validatorManifests.getMasterKey with
    | none => simp [ownListing]
    | some key => by_cases hk : k = key <;> simp [ownListing, HashMap.lookup_insert_eq, hk, eq_comm]
  obtain ⟨hmem, ht⟩ := mem_configKeysFrom configKeys hown hi
  unfold load at hp hs
  dsimp only at hp hs
  generalize configKeysFrom _ configKeys (ownListing _, []) = loaded at hp hs hmem ht
  obtain ⟨listings, keys⟩ := loaded
  generalize hpb : (publisherKeys.dedup.map fun id => (some id,
    ({ status := if publisherManifests.revoked id then .revoked else .unavailable } :
      PublisherListCollection PK))) = publishers at hp hs
  have hem : ∀ e ∈ publishers, e.1 ≠ none ∧ e.2.current.list = [] := by
    rw [← hpb, forall_mem_map]
    intro id _
    exact ⟨by simp, rfl⟩
  have hky : (publishers.map Prod.fst).Nodup := by
    rw [← hpb, map_map]
    exact (nodup_dedup publisherKeys).map (Option.some_injective PK)
  have hf : (publishers.flatMap fun e => e.2.current.list) = [] := by
    rw [flatMap_eq_nil_iff]
    exact fun e he => (hem e he).2
  have hl : s.publisherLists.Perm
      ((if keys = [] then [] else [(none, configured keys)]) ++ publishers) := by
    by_cases hnil : keys = []
    · simpa [hnil] using hp
    · simpa [hnil] using hp
  have hn : (s.publisherLists.map Prod.fst).Nodup := by
    rw [(hl.map Prod.fst).nodup_iff, map_append, nodup_append]
    refine ⟨?_, hky, ?_⟩
    · split <;> simp
    intro a ha b hb hab
    obtain ⟨e, he, rfl⟩ := mem_map.mp hb
    refine (hem e he).1 ?_
    rw [← hab]
    split at ha
    · simp at ha
    · simpa using ha
  have hls : ∀ k, s.listed.count k = keys.count k := by
    intro k
    rw [State.listed, (hl.flatMap_right _).count_eq, flatMap_append, hf, append_nil]
    split
    · simp [*]
    · simp [configured]
  refine ⟨keys, ⟨hn, ?_⟩, hlc, ?_, ?_, ?_⟩
  · have hlt : s.keyListings = listings := by rw [hs]
    rw [hlt]
    refine ht.congr ?_
    intro k
    rw [State.occurrences, hls]
  · intro k
    rw [hmem, hlc]
    simp
  · split_ifs with hnil
    · rw [Option.eq_none_iff_forall_ne_some]
      intro c hc
      have hin := hl.mem_iff.mp (State.mem_of_collection hc)
      rw [if_pos hnil, nil_append] at hin
      exact (hem _ hin).1 rfl
    · rw [State.collection_eq_some_iff hn, hl.mem_iff, if_neg hnil]
      exact mem_cons_self
  · intro key c hc
    rcases mem_append.mp (hl.mem_iff.mp (State.mem_of_collection hc)) with hin | hin
    · split at hin
      · simp at hin
      · simp at hin
    · exact (hem _ hin).2

theorem Loaded.counted (h : Loaded s) : Counted s := by
  obtain ⟨_, _, _, _, _, hf⟩ := h
  obtain ⟨keys, hl⟩ := hf.loadedAs
  exact hl.counted

end Load

end Rippled.ValidatorList
