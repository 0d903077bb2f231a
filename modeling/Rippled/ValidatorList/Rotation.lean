import Rippled.ValidatorList.Listings
import Rippled.ValidatorList.Pending

namespace Rippled.ValidatorList

open Lib List

variable {PK : Type} [LinearOrder PK] {verifies : Manifest PK → Bool}
  {key : PK} {s : State PK} {now version : Nat}
  {globalManifest : Option (Manifest PK)} {info : ValidatorBlobInfo PK}
  {c : PublisherListCollection PK}

def published (info : ValidatorBlobInfo PK) : Option (PublishedList PK × (Nat × Nat × Nat)) :=
  info.blob.bind fun j => (numbers j).map fun n => (j, n)

variable (verifies) in
/-- A list of the publisher, signed with the key in force and well formed. -/
def SignedList (key : PK) (globalManifest : Option (Manifest PK))
    (s : State PK) (info : ValidatorBlobInfo PK) : Prop :=
  ∃ m s' c j n, Presented verifies s globalManifest info m s' c j ∧ m.masterKey = key ∧
    numbers j = some n

variable {blobs : List (ValidatorBlobInfo PK)} {j : PublishedList PK}

section Lists

theorem Presented.collection_eq {m : Manifest PK} {s' : State PK}
    (hp : Presented verifies s globalManifest info m s' c j) :
    s.collection (some m.masterKey) = some c := by
  have hs : s'.collection (some m.masterKey) = s.collection (some m.masterKey) := by
    rw [hp.taken, takePublisherManifest]
    simp only [hp.valid, Bool.false_eq_true, false_and, if_false]
    rfl
  rw [← hs, hp.collection]

omit [LinearOrder PK] in
theorem bestDisposition_of_eq {stats : PublisherListStats PK} {d : ListDisposition}
    (h : stats.dispositions = {d}) : stats.bestDisposition = d := by
  rw [PublisherListStats.bestDisposition, h, Multiset.fold_singleton]
  cases d <;> rfl

theorem dispositions_refused (s : State PK) (pubKey : Option PK) (d : ListDisposition) :
    (refused s pubKey d).dispositions = {d} := by
  unfold refused
  split
  · split
    · split <;> rfl
    · rfl
  · rfl

/-- The publisher of the best of some lists is known if one of them has been taken in. -/
def Credits (key : PK) (stats : PublisherListStats PK) : Prop :=
  stats.bestDisposition.rank ≤ ListDisposition.pending.rank → stats.publisherKey = some key

variable (now version) in
/-- A list of the publisher is dealt with as its collection says, and nothing is thrown. -/
theorem applyList_signed {m : Manifest PK} {s' : State PK} {j : PublishedList PK}
    {n : Nat × Nat × Nat} (hp : Presented verifies s globalManifest info m s' c j)
    (hn : numbers j = some n) (ht : Topped c) :
    ∃ s'' c' stats, applyList verifies s now version globalManifest info = (s'', some stats) ∧
      s''.collection (some m.masterKey) = some c' ∧ Delivered c now j n c' ∧
      Credits m.masterKey stats ∧
      (c' = c ∨ stats.bestDisposition.rank ≤ ListDisposition.pending.rank) := by
  have ha := applied_applyList verifies s now version globalManifest info
  generalize applyList verifies s now version globalManifest info = r at ha
  obtain ⟨d, hd, hrf, htk⟩ := ht.dispose now version j n
  have hu : ∀ {m' s'' c' j'}, Presented verifies s globalManifest info m' s'' c' j' →
      m' = m ∧ c' = c ∧ j' = j := by
    intro m' s'' c' j' hp'
    have hm : m' = m := Option.some.inj (hp'.manifest.symm.trans hp.manifest)
    subst hm
    exact ⟨rfl, Option.some.inj (hp'.collection_eq.symm.trans hp.collection_eq),
      Option.some.inj (hp'.blob.symm.trans hp.blob)⟩
  cases ha with
  | unknown stats hkey hnn =>
    have hk := hp.collection_eq
    rw [hnn m hp.manifest] at hk
    cases hk
  | unsigned m' stats hkey hm hk hnot =>
    rw [hp.manifest] at hm
    cases hm
    exact absurd hp (hnot _ _ _)
  | threw hp' hth =>
    obtain ⟨rfl, rfl, rfl⟩ := hu hp'
    rw [hth n hn] at hd
    cases hd
  | refused hp' hn' hd' hr =>
    obtain ⟨rfl, rfl, rfl⟩ := hu hp'
    rw [hn] at hn'
    cases hn'
    rw [hd] at hd'
    cases hd'
    refine ⟨_, _, _, rfl, hp'.collection, hrf hr, ?_, .inl rfl⟩
    intro hle
    rw [bestDisposition_of_eq (dispositions_refused _ _ _)] at hle
    exact absurd hle (Nat.not_le.mpr hr)
  | took hp' hn' hd' hr stats hs =>
    obtain ⟨rfl, rfl, rfl⟩ := hu hp'
    rw [hn] at hn'
    cases hn'
    rw [hd] at hd'
    cases hd'
    have hb := bestDisposition_of_eq hs.1
    refine ⟨_, _, _, rfl, ?_, htk hr, fun _ => hs.2, .inr (hb ▸ hr)⟩
    rw [collection_withList, if_pos rfl, hp'.collection]
    rfl

omit [LinearOrder PK] in
theorem bestDisposition_mergeDispositions (a b : PublisherListStats PK) :
    (a.mergeDispositions b).bestDisposition.rank =
      min a.bestDisposition.rank b.bestDisposition.rank := by
  have hr : ∀ a b : ListDisposition, (a.better b).rank = min a.rank b.rank := by
    intro a b
    rw [ListDisposition.better, Nat.min_def]
    split <;> rfl
  have hf := Multiset.fold_add ListDisposition.better .invalid .invalid a.dispositions b.dispositions
  rw [← hr]
  exact congrArg ListDisposition.rank hf

def merged (result stats : PublisherListStats PK) : PublisherListStats PK :=
  if stats.bestDisposition.rank < result.bestDisposition.rank ∨
      (stats.bestDisposition = result.bestDisposition ∧ result.sequence < stats.sequence) then
    stats.mergeDispositions result
  else result.mergeDispositions stats

section

omit [LinearOrder PK]

theorem rank_merged (result stats : PublisherListStats PK) :
    (merged result stats).bestDisposition.rank =
      min result.bestDisposition.rank stats.bestDisposition.rank := by
  unfold merged
  split
  · rw [bestDisposition_mergeDispositions, min_comm]
  · rw [bestDisposition_mergeDispositions]

theorem Credits.merged {result stats : PublisherListStats PK} (hrs : Credits key result)
    (hs : Credits key stats) : Credits key (merged result stats) := by
  intro hr
  rw [rank_merged] at hr
  unfold ValidatorList.merged
  split_ifs with hb
  · apply hs
    rcases hb with hlt | ⟨heq, -⟩
    · omega
    · rw [← heq] at hr
      omega
  · rw [not_or] at hb
    apply hrs
    omega

end

variable
  (I : List (PublishedList PK × (Nat × Nat × Nat)) → PublisherListCollection PK → Prop)
  {ok : State PK → ValidatorBlobInfo PK → Prop}
  (hok : Run.Allowed (fun s info => (applyList verifies s now version globalManifest info).1)
    ok s blobs)
  (ht : ∀ {ds c}, I ds c → Topped c)
  (hs : ∀ {s info}, ok s info → SignedList verifies key globalManifest s info)
  (hst : ∀ {s info ds c c' j n}, ok s info → s.collection (some key) = some c →
    published info = some (j, n) → I ds c → Delivered c now j n c' → I (ds ++ [(j, n)]) c')

include hok ht hs hst

variable (hc : s.collection (some key) = some c)

include hc

/-- Lists of the publisher are dealt with one by one, and what holds of its collection at the end
follows from what holds of each of them. -/
theorem applyEach_signed {ds : List (PublishedList PK × (Nat × Nat × Nat))}
    {result : PublisherListStats PK} (h : I ds c) (hrl : Credits key result) :
    ∃ c' result', applyEach verifies now version globalManifest blobs s result =
        (afterLists verifies s now version globalManifest blobs, some result') ∧
      (afterLists verifies s now version globalManifest blobs).collection (some key) = some c' ∧
      I (ds ++ blobs.filterMap published) c' ∧ Credits key result' ∧
      (result.bestDisposition.rank ≤ ListDisposition.pending.rank ∨ c' ≠ c →
        result'.bestDisposition.rank ≤ ListDisposition.pending.rank) := by
  induction blobs generalizing s ds c result with
  | nil =>
    refine ⟨c, result, rfl, hc, ?_, hrl, ?_⟩
    · rw [filterMap_nil, append_nil]
      exact h
    · rintro (hr | hne)
      · exact hr
      · exact absurd rfl hne
  | cons info blobs ih =>
    obtain ⟨hi, hrs⟩ := hok
    obtain ⟨m, s', c₀, j, n, hp, rfl, hn⟩ := hs hi
    have hc₀ : c₀ = c := Option.some.inj (hp.collection_eq.symm.trans hc)
    subst hc₀
    have hpb : published info = some (j, n) := by
      rw [published, hp.blob, Option.bind_some, hn]
      rfl
    obtain ⟨s'', c₁, stats, ha, hc₁, hd, hcr, htk⟩ :=
      applyList_signed now version hp hn (ht h)
    have hnx := hst hi hc hpb h hd
    dsimp only at hrs
    rw [ha] at hrs
    obtain ⟨c', result', he, hc', hI, hcr', hr⟩ :=
      ih hrs hc₁ hnx (hrl.merged hcr)
    refine ⟨c', result', ?_, ?_, ?_, hcr', ?_⟩
    · rw [applyEach, ha, afterLists, foldl_cons, ha]
      exact he
    · rw [afterLists, foldl_cons, ha]
      exact hc'
    · rw [filterMap_cons, hpb]
      rw [append_assoc] at hI
      exact hI
    · intro hta
      apply hr
      rw [rank_merged]
      rcases hta with hle | hne
      · exact .inl ((Nat.min_le_left _ _).trans hle)
      · rcases htk with rfl | hle
        · exact .inr hne
        · exact .inl ((Nat.min_le_right _ _).trans hle)

/-- After lists of the publisher have been taken in, its collection is cleaned up. -/
theorem applyLists_signed (h : I [] c) (hv : version ∈ supportedListVersions) :
    (applyLists verifies s now globalManifest version blobs).2.isSome ∧
      ∃ c', (afterLists verifies s now version globalManifest blobs).collection (some key) =
          some c' ∧ I (blobs.filterMap published) c' ∧
        ((applyLists verifies s now globalManifest version blobs).1.collection (some key) =
            some (clean c') ∨
          c' = c ∧ (applyLists verifies s now globalManifest version blobs).1.collection
            (some key) = some c) := by
  have hi : Credits key ({} : PublisherListStats PK) := by
    intro hr
    have hb : ({} : PublisherListStats PK).bestDisposition = .invalid :=
      Multiset.fold_zero _ _
    rw [hb] at hr
    exact absurd hr (by decide)
  obtain ⟨c', result, he, hc', hI, hcr, hr⟩ :=
    applyEach_signed I hok ht hs hst hc h hi
  rw [nil_append] at hI
  unfold applyLists
  rw [if_neg (not_not.mpr hv), he]
  dsimp only
  by_cases hs : c' = c
  · subst hs
    cases result.publisherKey with
    | none => exact ⟨rfl, c', hc', hI, .inr ⟨rfl, hc'⟩⟩
    | some key' =>
      rw [Option.bind_some]
      cases (afterLists verifies s now version globalManifest blobs).collection (some key') with
      | none => exact ⟨rfl, c', hc', hI, .inr ⟨rfl, hc'⟩⟩
      | some _ =>
        refine ⟨rfl, c', hc', hI, ?_⟩
        rw [State.collection_modify, hc']
        split
        · exact .inl rfl
        · exact .inr ⟨rfl, rfl⟩
  · rw [hcr (hr (.inr hs)), Option.bind_some, hc']
    refine ⟨rfl, c', rfl, hI, .inl ?_⟩
    rw [State.collection_modify, if_pos rfl, hc']
    rfl

end Lists

section Runs

variable (verifies)

section

variable (key s)

/-- Every list of a call is one of the publisher, correctly signed at its turn. -/
def Signed : Event PK → Prop
  | .applyLists now manifest version blobs => version ∈ supportedListVersions → Run.Allowed
      (fun s info => (applyList verifies s now version manifest info).1)
      (SignedList verifies key manifest) s blobs
  | .updateTrusted _ _ => True

/-- When the pending lists are cleaned up, each of them that is followed by one which is effective
no later is followed by such a list immediately. -/
def Tidy : Event PK → Prop
  | .applyLists now manifest version blobs => version ∈ supportedListVersions →
      ∀ c, (afterLists verifies s now version manifest blobs).collection (some key) = some c →
        Decided c.current.sequence c.remaining.entries
  | .updateTrusted _ _ => True

/-- A list that comes with the sequence number of a pending one has its time. -/
def SameTimes : Event PK → Prop
  | .applyLists now manifest version blobs => version ∈ supportedListVersions → Run.Allowed
      (fun s info => (applyList verifies s now version manifest info).1)
      (fun s info => ∀ c j n l, s.collection (some key) = some c → published info = some (j, n) →
        c.remaining.find? n.1 = some l → l.validFrom = n.2.1) s blobs
  | .updateTrusted _ _ => True

end

variable {verifies}

/-- The lists of a call, apart from those which expire before they are effective. -/
def Event.lists : Event PK → List (PublishedList PK × (Nat × Nat × Nat))
  | .applyLists _ _ version blobs =>
    if version ∈ supportedListVersions then
      (blobs.filterMap published).filter fun d => decide (d.2.2.1 < d.2.2.2)
    else []
  | .updateTrusted _ _ => []

def lastPending (c : PublisherListCollection PK) : Nat :=
  (c.remaining.entries.getLast?.map Prod.fst).getD 0

omit [LinearOrder PK] in
theorem Topped.maxSequence_eq (h : Topped c) :
    c.maxSequence.getD 0 = max c.current.sequence (lastPending c) := by
  have hc := h.current_le
  cases hls : c.remaining.entries.getLast? with
  | none =>
    have hnil := getLast?_eq_none_iff.mp hls
    have hz : lastPending c = 0 := by rw [lastPending, hls]; rfl
    rcases h.reached with hcur | ⟨l, hl⟩
    · omega
    · rw [hnil] at hl
      cases hl
  | some e =>
    have hp : lastPending c = e.1 := by rw [lastPending, hls]; rfl
    have hle := h.pending_le e (mem_of_getLast? hls)
    rcases h.reached with hcur | ⟨l, hl⟩
    · omega
    -- the keys are in order, so that none exceeds the last
    obtain ⟨before, hs⟩ := getLast?_eq_some_iff.mp hls
    have hsr := c.remaining.sorted
    rw [OrdMap.Sorted, hs, pairwise_append] at hsr
    rw [hs] at hl
    rcases mem_append.mp hl with hl | hl
    · have hlt := hsr.2.2 _ hl e (mem_singleton_self e)
      omega
    have heq := (mem_singleton.mp hl).symm
    subst heq
    omega

variable {time : Nat} {ds : List (PublishedList PK × (Nat × Nat × Nat))}

/-- One list of the publisher more, valid or not. -/
theorem Live.published {c' : PublisherListCollection PK} {n : Nat × Nat × Nat}
    {ds' : List (PublishedList PK × (Nat × Nat × Nat))}
    (h : Live time (ds ++ ds'.filter fun d => decide (d.2.2.1 < d.2.2.2)) c) (ht : Topped c)
    (hd : Delivered c now j n c') (hnow : now ≤ time)
    (hs : ∀ l, c.remaining.find? n.1 = some l → l.validFrom = n.2.1) :
    Live time (ds ++ (ds' ++ [(j, n)]).filter fun d => decide (d.2.2.1 < d.2.2.2)) c' := by
  rw [filter_append, ← append_assoc]
  by_cases hv : n.2.1 < n.2.2
  · have hf : ([(j, n)].filter fun d => decide (d.2.2.1 < d.2.2.2)) = [(j, n)] := by simp [hv]
    rw [hf]
    exact h.delivered ht hd hv hnow hs
  · have hf : ([(j, n)].filter fun d => decide (d.2.2.1 < d.2.2.2)) = [] := by simp [hv]
    rw [hf, append_nil, hd.eq_of_le (Nat.le_of_not_lt hv)]
    exact h

/-- The collection of the publisher at the boundary of calls. -/
structure Settled (key : PK) (s : State PK) (c : PublisherListCollection PK) : Prop where
  collection : s.collection (some key) = some c
  topped : Topped c
  after : After c

section

variable (h : Settled key s c)

include h

theorem settled_updateKeys (hc : Counted s) (now closeTime : Nat) :
    Settled key (updateKeys verifies s now closeTime).1
      (refreshed (effectiveTime now closeTime) c) where
  collection := by
    rw [collection_updateKeys hc.nodup, h.collection]
    rfl
  topped := (h.topped.refreshed h.after).1
  after := (h.topped.refreshed h.after).2

variable (hsg : Signed verifies key s (.applyLists now globalManifest version blobs))

include hsg

theorem settled_applyLists :
    (applyLists verifies s now globalManifest version blobs).2.isSome ∧
      ∃ c', Settled key (applyLists verifies s now globalManifest version blobs).1 c' ∧
        (Increasing c → Tidy verifies key s (.applyLists now globalManifest version blobs) →
          Increasing c') := by
  by_cases hv : version ∈ supportedListVersions
  · obtain ⟨hs, c', hc', htp, hcl | ⟨rfl, hsm⟩⟩ := applyLists_signed
      (fun _ c => Topped c) (hsg hv) id id (fun _ _ _ h hd => h.delivered hd) h.collection
      h.topped hv
    · exact ⟨hs, clean c', ⟨hcl, htp.clean, fun _ => lt_of_mem_cleanUp⟩,
        fun _ ht => cleanUp_increasing (ht hv c' hc')⟩
    · exact ⟨hs, c', ⟨hsm, h.topped, h.after⟩, fun hi _ => hi⟩
  · rw [applyLists, if_pos hv]
    exact ⟨rfl, c, h, fun hi _ => hi⟩

theorem live_applyLists (hlv : Live time ds c)
    (hs : SameTimes verifies key s (.applyLists now globalManifest version blobs))
    (hnow : now ≤ time) :
    ∃ c', (applyLists verifies s now globalManifest version blobs).1.collection (some key) = some c' ∧
      Live time (ds ++ (Event.applyLists now globalManifest version blobs).lists) c' := by
  by_cases hv : version ∈ supportedListVersions
  · have hls : (Event.applyLists now globalManifest version blobs).lists =
        (blobs.filterMap published).filter fun d => decide (d.2.2.1 < d.2.2.2) := by
      rw [Event.lists, if_pos hv]
    rw [hls]
    obtain ⟨-, c', -, ⟨-, hlv'⟩, hcl | ⟨rfl, hsm⟩⟩ := applyLists_signed
      (fun ds' c => Topped c ∧ Live time (ds ++ ds'.filter fun d => decide (d.2.2.1 < d.2.2.2)) c)
      (Run.Allowed.and (hsg hv) (hs hv)) And.left And.left
      (fun hok hc hpub hI hd => ⟨hI.1.delivered hd,
        hI.2.published hI.1 hd hnow fun l hl => hok.2 _ _ _ l hc hpub hl⟩)
      h.collection ⟨h.topped, by simpa using hlv⟩ hv
    · exact ⟨clean c', hcl, hlv'.clean⟩
    · exact ⟨c', hsm, hlv'⟩
  · have hls : (Event.applyLists now globalManifest version blobs).lists = [] := by
      rw [Event.lists, if_neg hv]
    rw [hls, append_nil, applyLists, if_pos hv]
    exact ⟨c, h.collection, hlv⟩

end

theorem settled_step (h : Settled key s c) (hcn : Counted s) {e : Event PK}
    (hs : Signed verifies key s e) : ∃ c', Settled key (step verifies s e) c' ∧
      (Increasing c → Tidy verifies key s e → Increasing c') ∧
      ∀ {time ds}, Live time ds c → SameTimes verifies key s e → e.time ≤ time →
        Live time (ds ++ e.lists) c' := by
  cases e with
  | applyLists now manifest version blobs =>
    obtain ⟨-, c', hc', hi⟩ := settled_applyLists h hs
    refine ⟨c', hc', hi, fun hl hsm hle => ?_⟩
    obtain ⟨c'', hc'', hl'⟩ := live_applyLists h hs hl hsm hle
    cases hc'.collection.symm.trans hc''
    exact hl'
  | updateTrusted now closeTime =>
    refine ⟨_, settled_updateKeys h hcn now closeTime, fun hi _ => hi.refreshed, fun hl _ hle => ?_⟩
    rw [Event.lists, append_nil]
    exact hl.refreshed h.topped h.after hle

/-- The publisher along a run of calls. -/
theorem settled_foldl {es : List (Event PK)} (h : Settled key s c) (hcn : Counted s)
    (hs : Run.Allowed (step verifies) (Signed verifies key) s es) :
    ∃ c', Settled key (es.foldl (step verifies) s) c' ∧
      (Increasing c → Run.Allowed (step verifies) (Tidy verifies key) s es → Increasing c') ∧
      ∀ {time ds}, Live time ds c → Run.Allowed (step verifies) (SameTimes verifies key) s es →
        (∀ e ∈ es, e.time ≤ time) → Live time (ds ++ es.flatMap Event.lists) c' := by
  induction es generalizing s c with
  | nil =>
    refine ⟨c, h, fun hi _ => hi, fun hl _ _ => ?_⟩
    rwa [flatMap_nil, append_nil]
  | cons e es ih =>
    obtain ⟨c₁, hc₁, hi₁, hl₁⟩ := settled_step h hcn hs.1
    obtain ⟨c', hc', hi', hl'⟩ := ih hc₁ (hcn.step e) hs.2
    refine ⟨c', hc', fun hi ht => hi' (hi₁ hi ht.1) ht.2, fun hl hsm hle => ?_⟩
    rw [forall_mem_cons] at hle
    rw [flatMap_cons, ← append_assoc]
    exact hl' (hl₁ hl hsm.1 hle.1) hsm.2 hle.2

theorem Loaded.settled (h : Loaded s) (hl : (s.collection (some key)).isSome) :
    ∃ c, Settled key s c ∧ Increasing c ∧ ∀ time, Live time [] c := by
  obtain ⟨c, hc⟩ := Option.isSome_iff_exists.mp hl
  have heq := h.collection_eq hc
  subst heq
  refine ⟨_, ⟨hc, ⟨?_, le_rfl, .inl rfl, ?_⟩, ?_⟩, List.Pairwise.nil, fun time => ⟨?_, .inl rfl, ?_⟩⟩
  all_goals exact forall_mem_nil _

/-- In every run of correctly signed lists the pending lists follow the current one, and looking up
the last one does not throw. Where they can be cleaned up in one pass, their times increase, and an
update leaves none pending that is effective. If the clock does not go back, and a list that comes
again while it is pending has the same time, the current list is then the one of the highest
sequence number among the effective ones. -/
theorem lists_rotate (hload : Loaded s) (hlisted : (s.collection (some key)).isSome)
    (es : List (Event PK)) (hsigned : Run.Allowed (step verifies) (Signed verifies key) s es) :
    (∀ p, p <+: es → ∃ c, (p.foldl (step verifies) s).collection (some key) = some c ∧
      After c ∧ c.maxSequence.getD 0 = max c.current.sequence (lastPending c) ∧
      (Run.Allowed (step verifies) (Tidy verifies key) s p → Increasing c)) ∧
    (∀ p now manifest version blobs, p ++ [.applyLists now manifest version blobs] <+: es →
      (applyLists verifies (p.foldl (step verifies) s) now manifest version blobs).2.isSome) ∧
    ∀ p now closeTime, p ++ [.updateTrusted now closeTime] <+: es →
      ∃ c, (step verifies (p.foldl (step verifies) s) (.updateTrusted now closeTime)).collection
          (some key) = some c ∧
        (Run.Allowed (step verifies) (Tidy verifies key) s p →
          ∀ e ∈ c.remaining.entries, effectiveTime now closeTime < e.2.validFrom) ∧
        ((es.map Event.time).Pairwise (· ≤ ·) →
          Run.Allowed (step verifies) (SameTimes verifies key) s p →
          IsCurrent (effectiveTime now closeTime) (p.flatMap Event.lists) c.current ∧
          (Run.Allowed (step verifies) (Tidy verifies key) s p →
            ∀ d ∈ p.flatMap Event.lists, d.2.2.1 ≤ effectiveTime now closeTime →
              d.2.1 ≤ c.current.sequence)) := by
  obtain ⟨c₀, hc₀, hincreasing₀, hlive₀⟩ := hload.settled hlisted
  refine ⟨?_, ?_, ?_⟩
  · rintro p ⟨q, rfl⟩
    obtain ⟨c, hc, hincreasing, -⟩ :=
      settled_foldl hc₀ hload.counted (Run.allowed_append.mp hsigned).1
    exact ⟨c, hc.collection, hc.after, hc.topped.maxSequence_eq, hincreasing hincreasing₀⟩
  · rintro p now manifest version blobs ⟨q, rfl⟩
    rw [List.append_assoc] at hsigned
    obtain ⟨hp, hsign, -⟩ := Run.allowed_append.mp hsigned
    obtain ⟨c, hc, -⟩ := settled_foldl hc₀ hload.counted hp
    exact (settled_applyLists hc hsign).1
  · rintro p now closeTime ⟨q, rfl⟩
    rw [List.append_assoc] at hsigned ⊢
    obtain ⟨c, hc, hincreasing, hlive⟩ :=
      settled_foldl hc₀ hload.counted (Run.allowed_append.mp hsigned).1
    have hcounted : Counted (p.foldl (step verifies) s) :=
      List.foldlRecOn _ _ hload.counted fun _ hs e _ => hs.step e
    have hlater : Run.Allowed (step verifies) (Tidy verifies key) s p →
        ∀ e ∈ (refreshed (effectiveTime now closeTime) c).remaining.entries,
          effectiveTime now closeTime < e.2.validFrom :=
      fun htidy => lt_of_mem_refreshed (hincreasing hincreasing₀ htidy)
    refine ⟨_, (settled_updateKeys hc hcounted now closeTime).collection, hlater, fun hclock hsame => ?_⟩
    have hrefreshed := (hlive (hlive₀ _) hsame (time_le_of_clock hclock)).refreshed hc.topped
      hc.after (le_refl (effectiveTime now closeTime))
    refine ⟨hrefreshed.current, fun htidy d hd hdue => ?_⟩
    rcases hrefreshed.covered d hd with hcur | ⟨e, he, -, htime⟩
    · exact hcur
    · exact absurd (hlater htidy e he) (Nat.not_lt.mpr (htime.trans hdue))

/-- A list of the publisher with master key 7, given by its sequence number and times. -/
def sends (now : Nat) (sequence effective expiration : Int) : Event Nat :=
  .applyLists now (some (ManifestCache.naming 7 8)) 2
    [⟨none, fun k => decide (k = 8), some ⟨sequence, some effective, expiration, [⟨some 5, none⟩]⟩⟩]

/-- A list, one that follows it, and an update when both are effective. -/
def oneAfterOther : List (Event Nat) := [sends 10 1 0 100, sends 10 2 20 200, .updateTrusted 30 30]

theorem signed_oneAfterOther :
    Run.Allowed (step fun _ => true) (Signed (fun _ => true) 7) onePublisher oneAfterOther :=
  ⟨fun _ => ⟨⟨_, _, _, _, _, ⟨rfl, rfl, by decide, rfl, rfl, rfl, rfl⟩, rfl, rfl⟩, trivial⟩,
    fun _ => ⟨⟨_, _, _, _, _, ⟨rfl, rfl, by decide, rfl, rfl, rfl, rfl⟩, rfl, rfl⟩, trivial⟩,
    trivial, trivial⟩

theorem tidy_oneAfterOther :
    Run.Allowed (step fun _ => true) (Tidy (fun _ => true) 7) onePublisher
      [sends 10 1 0 100, sends 10 2 20 200] := by
  refine ⟨?_, ?_, trivial⟩
  · intro _ c hc
    cases hc
    trivial
  intro _ c hc
  cases hc
  refine ⟨?_, trivial⟩
  rintro - ⟨e, he, -⟩
  cases he

theorem sameTimes_oneAfterOther :
    Run.Allowed (step fun _ => true) (SameTimes (fun _ => true) 7) onePublisher
      [sends 10 1 0 100, sends 10 2 20 200] := by
  refine ⟨fun _ => ⟨?_, trivial⟩, fun _ => ⟨?_, trivial⟩, trivial⟩
  all_goals
    intro c j n l hc hp hf
    cases hc
    cases hp
    cases hf

/-- The second of two lists takes the place of the first when it is effective. -/
theorem rotates_oneAfterOther :
    ∃ c, (oneAfterOther.foldl (step fun _ => true) onePublisher).collection (some 7) = some c ∧
      2 ≤ c.current.sequence ∧ IsCurrent 30 (oneAfterOther.flatMap Event.lists) c.current := by
  obtain ⟨-, -, hupdate⟩ := lists_rotate loaded_onePublisher rfl oneAfterOther signed_oneAfterOther
  obtain ⟨c, hc, -, hlive⟩ := hupdate [sends 10 1 0 100, sends 10 2 20 200] 30 30 (List.prefix_refl _)
  obtain ⟨hcurrent, hhighest⟩ := hlive (by decide) sameTimes_oneAfterOther
  exact ⟨c, hc, hhighest tidy_oneAfterOther _ (List.mem_cons_of_mem _ List.mem_cons_self) (by decide), hcurrent⟩

/-- A list that comes again with an earlier time is not heard, as its sequence number is pending. -/
def sentAgain : List (Event Nat) := [sends 10 6 50 100, sends 10 6 20 100, .updateTrusted 30 30]

/-- One pass does not see that the first of these lists is followed by one that is effective
earlier. -/
def outOfOrder : List (Event Nat) :=
  [sends 10 6 40 100, sends 10 7 100 200, sends 10 8 30 200, .updateTrusted 35 35]

/-- The list sent again is effective by the time of the update, but is not the live one. Lists that
come out of order may be left with times that do not increase, and one of them is then pending
although it is effective. -/
theorem not_live_sentAgain :
    (Run.Allowed (step fun _ => true) (Signed (fun _ => true) 7) onePublisher sentAgain ∧
      (sentAgain.map Event.time).Pairwise (· ≤ ·) ∧
      (∃ d ∈ sentAgain.flatMap Event.lists, d.2 = (6, 20, 100)) ∧
      ((sentAgain.foldl (step fun _ => true) onePublisher).collection (some 7)).map
        (fun c => (c.current.sequence, c.remaining.entries.map fun e => (e.1, e.2.validFrom))) =
          some (0, [(6, 50)])) ∧
    Run.Allowed (step fun _ => true) (Signed (fun _ => true) 7) onePublisher outOfOrder ∧
      (outOfOrder.map Event.time).Pairwise (· ≤ ·) ∧
      ((outOfOrder.foldl (step fun _ => true) onePublisher).collection (some 7)).map
        (fun c => (c.current.sequence, c.remaining.entries.map fun e => (e.1, e.2.validFrom))) =
          some (0, [(6, 40), (8, 30)]) := by
  refine ⟨⟨⟨?_, ?_, trivial, trivial⟩, by decide, ?_, rfl⟩, ⟨?_, ?_, ?_, trivial, trivial⟩, by decide, rfl⟩
  all_goals first
    | exact fun _ => ⟨⟨_, _, _, _, _, ⟨rfl, rfl, by decide, rfl, rfl, rfl, rfl⟩, rfl, rfl⟩, trivial⟩
    | exact ⟨_, List.mem_cons_of_mem _ List.mem_cons_self, rfl⟩

end Runs

end Rippled.ValidatorList
