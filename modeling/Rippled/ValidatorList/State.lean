import Rippled.Misc.Manifest
import Rippled.Lib.OrdMap

namespace Rippled

open Lib

/-- What becomes of a list that is received, from the most to the least desirable. -/
inductive ListDisposition
  | accepted
  | expired
  | pending
  | sameSequence
  | knownSequence
  | stale
  | untrusted
  | unsupportedVersion
  | invalid
deriving DecidableEq

namespace ListDisposition

def rank : ListDisposition → Nat
  | accepted => 0
  | expired => 1
  | pending => 2
  | sameSequence => 3
  | knownSequence => 4
  | stale => 5
  | untrusted => 6
  | unsupportedVersion => 7
  | invalid => 8

def better (a b : ListDisposition) : ListDisposition := if a.rank ≤ b.rank then a else b

instance : Std.Commutative better where
  comm := by
    intro a b
    cases a <;> cases b <;> rfl

instance : Std.Associative better where
  assoc := by
    intro a b c
    cases a <;> cases b <;> cases c <;> rfl

end ListDisposition

/-- Where a publisher stands, from the most to the least desirable. -/
inductive PublisherStatus
  | available
  | expired
  | unavailable
  | revoked
deriving DecidableEq

namespace ValidatorList

variable (PK : Type)

/-- An entry for a validator in a published list. A key or a manifest that cannot be read is
`none`. -/
structure ValidatorEntry where
  key : Option PK
  manifest : Option (Option (Manifest PK))

/-- The fields of a published list that is well formed. -/
structure PublishedList where
  sequence : Int
  effective : Option Int
  expiration : Int
  validators : List (ValidatorEntry PK)

/-- A list with its signature, as it is received. The manifest is one of its own, if it has one,
and is `none` if it cannot be read, as is a list that is not well formed. -/
structure ValidatorBlobInfo where
  manifest : Option (Option (Manifest PK))
  signedWith : PK → Bool
  blob : Option (PublishedList PK)

structure PublisherList where
  list : List PK := []
  manifests : List (Option (Manifest PK)) := []
  sequence : Nat := 0
  validFrom : Nat := 0
  validUntil : Nat := 0

/-- What is held for a publisher: the list of the greatest sequence number that has been effective,
and lists of greater sequence numbers which are not effective yet. -/
structure PublisherListCollection where
  status : PublisherStatus
  current : PublisherList PK := {}
  remaining : OrdMap Nat (PublisherList PK) := OrdMap.empty
  maxSequence : Option Nat := none
  rawVersion : Nat := 0

structure PublisherListStats where
  dispositions : Multiset ListDisposition := 0
  publisherKey : Option PK := none
  status : PublisherStatus := .unavailable
  sequence : Nat := 0

structure TrustChanges (NodeID : Type) where
  added : Finset NodeID
  removed : Finset NodeID

/-- The lists are in the order in which the map of publishers is gone through. Those of the
configuration have the empty key, `none`. -/
structure State where
  validatorManifests : ManifestCache PK
  publisherManifests : ManifestCache PK
  publisherLists : List (Option PK × PublisherListCollection PK)
  keyListings : HashMap PK Nat
  trustedMasterKeys : Finset PK
  localPubKey : Option PK

variable {PK} [LinearOrder PK]

def PublisherListStats.bestDisposition (s : PublisherListStats PK) : ListDisposition :=
  s.dispositions.fold ListDisposition.better .invalid

def PublisherListStats.mergeDispositions (s src : PublisherListStats PK) : PublisherListStats PK :=
  { s with dispositions := s.dispositions + src.dispositions }

def PublisherListStats.of (d : ListDisposition) : PublisherListStats PK :=
  { dispositions := {d} }

namespace State

variable (s : State PK) (key : Option PK)

def collection : Option (PublisherListCollection PK) :=
  s.publisherLists.lookup key

def modify (f : PublisherListCollection PK → PublisherListCollection PK) : State PK :=
  { s with publisherLists := s.publisherLists.map fun e => if e.1 = key then (e.1, f e.2) else e }

end State

section

variable (listings : HashMap PK Nat) (key : PK)

def increment : HashMap PK Nat :=
  listings.insert key ((listings.lookup key).getD 0 + 1)

def decrement : HashMap PK Nat :=
  if (listings.lookup key).getD 0 ≤ 1 then listings.erase key
  else listings.insert key ((listings.lookup key).getD 0 - 1)

end

section Load

/-- The greatest time. Lists of the configuration are valid until then. -/
def maxTime : Nat := 4294967295

def configured (keys : List PK) : PublisherListCollection PK where
  status := .available
  current := { list := keys, validUntil := maxTime }

/-- Take in the keys of the configuration one by one, without those of the server itself and those
that are listed already. -/
def configKeysFrom (isLocal : PK → Bool) :
    List PK → HashMap PK Nat × List PK → HashMap PK Nat × List PK
  | [], s => s
  | id :: ids, s =>
    if isLocal id ∨ (s.1.lookup id).isSome then configKeysFrom isLocal ids s
    else configKeysFrom isLocal ids (s.1.insert id 1, s.2 ++ [id])

def ownListing : Option PK → HashMap PK Nat
  | some key => (∅ : HashMap PK Nat).insert key 1
  | none => ∅

def load (validatorManifests publisherManifests : ManifestCache PK)
    (localSigningKey : Option PK) (configKeys publisherKeys : List PK) :
    State PK :=
  let publishers : List (Option PK × PublisherListCollection PK) :=
    publisherKeys.dedup.map fun id =>
      (some id, { status := if publisherManifests.revoked id then .revoked else .unavailable })
  let localPubKey := localSigningKey.map validatorManifests.getMasterKey
  let (keyListings, configList) := configKeysFrom
    (fun id => decide (localPubKey = some id) || decide (localSigningKey = some id)) configKeys
    (ownListing localPubKey, [])
  { validatorManifests, publisherManifests
    publisherLists :=
      if configList = [] then publishers else (none, configured configList) :: publishers
    keyListings
    trustedMasterKeys := ∅
    localPubKey }

end Load

section Lists

variable (verifies : Manifest PK → Bool)

/-- One new key against the old ones, in a merge of both. What is in both lists is not counted
again. -/
def mergeKey (key : PK) (next : List PK → HashMap PK Nat → HashMap PK Nat) :
    List PK → HashMap PK Nat → HashMap PK Nat
  | [], listings => next [] (increment listings key)
  | old :: olds, listings =>
    if key < old then next (old :: olds) (increment listings key)
    else if old < key then mergeKey key next olds (decrement listings old)
    else next olds listings

def mergeKeys : List PK → List PK → HashMap PK Nat → HashMap PK Nat
  | [], olds, listings => olds.foldl decrement listings
  | key :: keys, olds, listings => mergeKey key (mergeKeys keys) olds listings

def takeManifest (listings : HashMap PK Nat) (cache : ManifestCache PK)
    (m : Option (Manifest PK)) : ManifestCache PK :=
  match m with
  | some m =>
    if (listings.lookup m.masterKey).isSome then (cache.applyManifest verifies m).2 else cache
  | none => cache

section

variable (s : State PK)

def updatePublisherList (current : PublisherList PK) (oldList : List PK) : State PK :=
  let keyListings := mergeKeys current.list oldList s.keyListings
  { s with
    keyListings
    validatorManifests :=
      current.manifests.foldl (takeManifest verifies keyListings) s.validatorManifests }

def unlist (listings : HashMap PK Nat) (key : PK) : HashMap PK Nat :=
  if (listings.lookup key).isSome then decrement listings key else listings

/-- A collection without its current list, for which there is a reason. -/
def withdrawn (reason : PublisherStatus) (c : PublisherListCollection PK) :
    PublisherListCollection PK :=
  { c with current := { c.current with list := [] }, status := reason }

def removePublisherList (key : Option PK) (reason : PublisherStatus) : State PK :=
  match s.collection key with
  | none => s
  | some c =>
    { s.modify key (withdrawn reason) with
      keyListings := c.current.list.foldl unlist s.keyListings }

def asUInt (v : Int) : Option Nat := if 0 ≤ v then some v.toNat else none

def numbers (j : PublishedList PK) : Option (Nat × Nat × Nat) := do
  let sequence ← asUInt j.sequence
  let validFrom ← asUInt (j.effective.getD 0)
  let validUntil ← asUInt j.expiration
  return (sequence, validFrom, validUntil)

/-- What becomes of a list that is signed and well formed. Looking up the last pending list throws
if there is none. -/
def dispose (c : PublisherListCollection PK) (now sequence validFrom validUntil : Nat) :
    Option ListDisposition :=
  if validUntil ≤ validFrom then some .invalid
  else if sequence < c.current.sequence then some .stale
  else if sequence = c.current.sequence then some .sameSequence
  else if validUntil ≤ now then some .expired
  else if now < validFrom then
    match c.maxSequence with
    | none => some .pending
    | some max =>
      if max < sequence then some .pending
      else if (c.remaining.find? sequence).isSome then some .knownSequence
      else (c.remaining.find? max).map fun last =>
        if validFrom < last.validFrom then .pending else .knownSequence
  else some .accepted

/-- Take in the manifest of a publisher. A revocation that is accepted takes its lists away. -/
def takePublisherManifest (m : Manifest PK) : ManifestDisposition × State PK :=
  let (result, cache) := s.publisherManifests.applyManifest verifies m
  let s := { s with publisherManifests := cache }
  if m.revoked ∧ result = .accepted then
    (result, (removePublisherList s (some m.masterKey) .revoked).modify (some m.masterKey)
      fun c => { c with remaining := OrdMap.empty })
  else (result, s)

/-- Check a list. The state is returned with what happened, which is nothing if an exception was
thrown, and with the list in the cases in which it has been read. -/
def verify (now : Nat) (manifest : Option (Manifest PK)) (info : ValidatorBlobInfo PK) :
    State PK × Option (ListDisposition × Option (PublishedList PK)) :=
  match manifest with
  | none => (s, some (.untrusted, none))
  | some m =>
    if (s.collection (some m.masterKey)).isNone then (s, some (.untrusted, none))
    else
      let (result, s) := takePublisherManifest verifies s m
      if m.revoked ∨ result = .invalid then (s, some (.untrusted, none))
      else if !info.signedWith (s.publisherManifests.getSigningKey m.masterKey) then
        (s, some (.invalid, none))
      else
        match info.blob with
        | none => (s, some (.invalid, none))
        | some j => (s, do
            let (sequence, validFrom, validUntil) ← numbers j
            let c ← s.collection (some m.masterKey)
            let d ← dispose c now sequence validFrom validUntil
            return (d, some j))

end

/-- The list that is made of a published one. The manifests are added to those of the list whose
place it takes. -/
def makeList (place : PublisherList PK) (j : PublishedList PK)
    (sequence validFrom validUntil : Nat) : PublisherList PK where
  list := (j.validators.filterMap ValidatorEntry.key).insertionSort (· ≤ ·)
  manifests := place.manifests ++ j.validators.filterMap ValidatorEntry.manifest
  sequence := sequence
  validFrom := validFrom
  validUntil := validUntil

section

variable (c : PublisherListCollection PK)

section

variable (j : PublishedList PK) (sequence validFrom validUntil : Nat)

/-- Store a list that is live, or has been. A list seen before is moved from the pending ones. -/
def makeCurrent : PublisherListCollection PK :=
  match c.remaining.find? sequence with
  | some seen => { c with current := seen, remaining := c.remaining.alter sequence fun _ => none }
  | none => { c with current := makeList c.current j sequence validFrom validUntil }

def makePending : PublisherListCollection PK :=
  let store := fun place : Option (PublisherList PK) =>
    some (makeList (place.getD {}) j sequence validFrom validUntil)
  { c with remaining := c.remaining.alter sequence store }

end

def takeList (d : ListDisposition) (version : Nat) (j : PublishedList PK)
    (sequence validFrom validUntil : Nat) : PublisherListCollection PK :=
  let c := { c with
    status := if d = .accepted then .available else if d = .expired then .expired else c.status
    maxSequence := some (max sequence (c.maxSequence.getD 0)) }
  let c :=
    if d = .accepted ∨ d = .expired then makeCurrent c j sequence validFrom validUntil
    else makePending c j sequence validFrom validUntil
  { c with rawVersion := max (max c.rawVersion version) (if c.remaining.entries = [] then 0 else 2) }

end

def refused (s : State PK) (pubKey : Option PK) (d : ListDisposition) : PublisherListStats PK :=
  match pubKey.bind fun key => s.collection (some key) with
  | some c =>
    match c.maxSequence with
    | some max =>
      if d = .sameSequence ∨ d = .knownSequence then
        { dispositions := {d}, publisherKey := pubKey, status := c.status, sequence := max }
      else .of d
    | none => .of d
  | none => .of d

def applyList (s : State PK) (now version : Nat) (globalManifest : Option (Manifest PK))
    (info : ValidatorBlobInfo PK) : State PK × Option (PublisherListStats PK) :=
  let manifest := info.manifest.getD globalManifest
  let pubKey := manifest.map Manifest.masterKey
  match verify verifies s now manifest info with
  | (s, none) => (s, none)
  | (s, some (d, j)) =>
    if ListDisposition.pending.rank < d.rank then (s, some (refused s pubKey d))
    else
      match pubKey, j.bind fun j => (numbers j).map fun n => (j, n) with
      | some key, some (j, sequence, validFrom, validUntil) =>
        match s.collection (some key) with
        | none => (s, none)
        | some c =>
          let c' := takeList c d version j sequence validFrom validUntil
          let stats : PublisherListStats PK :=
            { dispositions := {d}, publisherKey := key, status := c'.status
              sequence := c'.maxSequence.getD 0 }
          let s := s.modify (some key) fun _ => c'
          if d = .accepted ∨ d = .expired then
            (updatePublisherList verifies s c'.current c.current.list, some stats)
          else (s, some stats)
      | _, _ => (s, none)

/-- Take in lists one by one, as long as nothing is thrown, and collect what is reported. -/
def applyEach (now version : Nat) (manifest : Option (Manifest PK)) :
    List (ValidatorBlobInfo PK) → State PK → PublisherListStats PK →
      State PK × Option (PublisherListStats PK)
  | [], s, result => (s, some result)
  | info :: infos, s, result =>
    match applyList verifies s now version manifest info with
    | (s, none) => (s, none)
    | (s, some stats) =>
      let result :=
        if stats.bestDisposition.rank < result.bestDisposition.rank ∨
            (stats.bestDisposition = result.bestDisposition ∧ result.sequence < stats.sequence) then
          stats.mergeDispositions result
        else result.mergeDispositions stats
      applyEach now version manifest infos s result

/-- One pass over the pending lists, which drops those that are not newer than the current one and
those whose follower is effective no later. -/
def cleanUp (sequence : Nat) :
    List (Nat × PublisherList PK) → List (Nat × PublisherList PK)
  | [] => []
  | e :: rest =>
    if e.1 ≤ sequence ∨ ∃ next ∈ rest.head?, next.2.validFrom ≤ e.2.validFrom then
      cleanUp sequence rest
    else e :: cleanUp sequence rest

omit [LinearOrder PK] in
theorem cleanUp_sublist (sequence : Nat) (l : List (Nat × PublisherList PK)) :
    (cleanUp sequence l).Sublist l := by
  induction l with
  | nil => exact List.Sublist.refl _
  | cons e rest ih =>
    rw [cleanUp]
    split
    · exact ih.cons e
    · exact ih.cons_cons e

def clean (c : PublisherListCollection PK) : PublisherListCollection PK :=
  { c with remaining := ⟨cleanUp c.current.sequence c.remaining.entries,
      c.remaining.sorted.sublist (cleanUp_sublist _ _)⟩ }

def supportedListVersions : List Nat := [1, 2]

/-- Take in the lists of a message, and clean up the collection of the publisher whose list came
off best. -/
def applyLists (s : State PK) (now : Nat) (manifest : Option (Manifest PK))
    (version : Nat) (blobs : List (ValidatorBlobInfo PK)) :
    State PK × Option (PublisherListStats PK) :=
  if version ∉ supportedListVersions then (s, some (.of .unsupportedVersion))
  else
    match applyEach verifies now version manifest blobs s {} with
    | (s, none) => (s, none)
    | (s, some result) =>
      match result.publisherKey.bind fun key => s.collection (some key) with
      | none => (s, some result)
      | some c =>
        (s.modify (result.publisherKey) clean,
          some { result with sequence := c.maxSequence.getD 0 })

def upcoming (remaining : OrdMap Nat (PublisherList PK)) (closeTime : Nat) :
    OrdMap Nat (PublisherList PK) :=
  ⟨remaining.entries.dropWhile fun e => decide (e.2.validFrom ≤ closeTime),
    remaining.sorted.sublist (List.dropWhile_sublist _)⟩

/-- Put the last of the pending lists that are effective in the place of the current one. -/
def rotate (s : State PK) (key : Option PK) (closeTime : Nat) : State PK :=
  match s.collection key with
  | none => s
  | some c =>
    let ready := c.remaining.entries.takeWhile fun e => decide (e.2.validFrom ≤ closeTime)
    match ready.getLast? with
    | none => s
    | some (_, candidate) =>
      -- the keys of a list that has expired are not taken in
      let current :=
        if candidate.validUntil ≤ closeTime then { candidate with list := [] } else candidate
      let s := s.modify key fun c =>
        { c with current, status := .available, remaining := upcoming c.remaining closeTime }
      updatePublisherList verifies s current c.current.list

/-- Rotate the lists of a publisher and remove the current one if it has expired. -/
def refresh (closeTime : Nat) (s : State PK) (key : Option PK) : State PK :=
  let s := rotate verifies s key closeTime
  match s.collection key with
  | none => s
  | some c =>
    if c.status = .available ∧ c.current.validUntil ≤ closeTime then
      removePublisherList s key .expired
    else s

variable (s : State PK)

def listedKeys : Finset PK :=
  s.keyListings.keys.filter fun key => !s.validatorManifests.revoked key

variable (now closeTime : Nat)

def effectiveTime : Nat := if closeTime + 30 < now then now else closeTime

/-- Update the trusted keys, and tell which of them come and go. -/
def updateKeys : State PK × TrustChanges PK :=
  let s := (s.publisherLists.map Prod.fst).foldl
    (refresh verifies (effectiveTime now closeTime)) s
  let removed := s.trustedMasterKeys.filter fun key =>
    !(s.keyListings.lookup key).isSome || s.validatorManifests.revoked key
  let kept := s.trustedMasterKeys \ removed
  let added := listedKeys s \ kept
  ({ s with trustedMasterKeys := kept ∪ added }, { added, removed })

def updateTrusted {NodeID : Type} [DecidableEq NodeID] (calcNodeID : PK → NodeID) :
    State PK × TrustChanges NodeID :=
  let (s, changes) := updateKeys verifies s now closeTime
  (s, { added := changes.added.image calcNodeID, removed := changes.removed.image calcNodeID })

end Lists

end ValidatorList

end Rippled
