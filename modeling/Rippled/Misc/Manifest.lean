import Rippled.Lib.HashMap
import Rippled.Lib.Run

namespace Rippled

open Lib

/-- A certificate by which the holder of a master key names the key it signs with. The greatest
sequence number revokes the master key, and such a manifest names no signing key. -/
structure Manifest (PK : Type) where
  masterKey : PK
  signingKey : Option PK
  sequence : UInt32
  serialized : List UInt8
  names_iff : signingKey = none ↔ sequence = 0xFFFFFFFF

variable {PK : Type} {m : Manifest PK}

namespace Manifest

def revoked (m : Manifest PK) : Bool := m.sequence == 0xFFFFFFFF

theorem revoked_iff : m.revoked ↔ m.signingKey = none := by
  rw [revoked, beq_iff_eq, m.names_iff]

theorem revoked_eq_false_iff : m.revoked = false ↔ ∃ s, m.signingKey = some s := by
  rw [← Bool.not_eq_true, revoked_iff, ← Option.ne_none_iff_exists']

end Manifest

inductive ManifestDisposition
  | accepted
  | stale
  | invalid
deriving DecidableEq

structure ManifestCache (PK : Type) where
  /-- Active manifests stored by master public key. -/
  map : HashMap PK (Manifest PK)
  /-- Master public keys stored by current ephemeral public key. -/
  signingToMasterKeys : HashMap PK PK
  /-- A monotonically increasing number used to detect new manifests. -/
  seq : UInt32

namespace ManifestCache

variable [DecidableEq PK]

def new : ManifestCache PK := ⟨∅, ∅, 0⟩

def getSigningKey (c : ManifestCache PK) (pk : PK) : PK :=
  match c.map.lookup pk with
  | some m => if m.revoked then pk else m.signingKey.getD pk
  | none => pk

variable {c : ManifestCache PK}

section

variable (c)

def getMasterKey (pk : PK) : PK :=
  (c.signingToMasterKeys.lookup pk).getD pk

def revoked (pk : PK) : Bool :=
  match c.map.lookup pk with
  | some m => m.revoked
  | none => false

def eraseSigningKey (keys : HashMap PK PK) (signingKey : Option PK) : HashMap PK PK :=
  match signingKey with
  | some s => keys.erase s
  | none => keys

def insertSigningKey (keys : HashMap PK PK) (m : Manifest PK) : HashMap PK PK :=
  match m.signingKey with
  | some s => if m.revoked then keys else keys.insert s m.masterKey
  | none => keys

/-- Store a manifest that is newer than what is held for its master key, and verifies. -/
def store (m : Manifest PK) : ManifestCache PK where
  map := c.map.insert m.masterKey m
  signingToMasterKeys :=
    match c.map.lookup m.masterKey with
    | none => insertSigningKey c.signingToMasterKeys m
    | some old => insertSigningKey (eraseSigningKey c.signingToMasterKeys old.signingKey) m
  seq := c.seq + 1

def isStale (m : Manifest PK) : Bool :=
  match c.map.lookup m.masterKey with
  | some old => decide (m.sequence ≤ old.sequence)
  | none => false

end

variable (verify : Manifest PK → Bool)

def applyManifest (c : ManifestCache PK) (m : Manifest PK) :
    ManifestDisposition × ManifestCache PK :=
  if c.isStale m then (.stale, c)
  else if !verify m then (.invalid, c)
  else (.accepted, c.store m)

def received (ms : List (Manifest PK)) : ManifestCache PK :=
  ms.foldl (fun c m => (c.applyManifest verify m).2) new

def acceptedFrom : ManifestCache PK → List (Manifest PK) → List (Manifest PK)
  | _, [] => []
  | c, m :: ms =>
    if (c.applyManifest verify m).1 = .accepted then
      m :: acceptedFrom (c.applyManifest verify m).2 ms
    else acceptedFrom (c.applyManifest verify m).2 ms

variable {verify}

/-- The signing keys on record are those of the manifests in force, and lead back to the master key
that named them. -/
structure Consistent (c : ManifestCache PK) : Prop where
  pairs : ∀ s k, c.signingToMasterKeys.lookup s = some k ↔
    ∃ m, c.map.lookup k = some m ∧ m.revoked = false ∧ m.signingKey = some s
  getMasterKey : ∀ k m, c.map.lookup k = some m → m.revoked = false →
    c.getMasterKey (c.getSigningKey k) = k

/-- No other master key has named the signing key of a manifest in the manifest it has in force. -/
def Unclaimed (c : ManifestCache PK) (m : Manifest PK) : Prop :=
  ∀ k old, c.map.lookup k = some old → k ≠ m.masterKey → old.revoked = false →
    old.signingKey ≠ m.signingKey

variable (verify) in
theorem applyManifest_cases (c : ManifestCache PK) (m : Manifest PK) :
    (c.applyManifest verify m).1 ≠ .accepted ∧ (c.applyManifest verify m).2 = c ∨
      c.applyManifest verify m = (.accepted, c.store m) ∧ c.isStale m = false ∧ verify m = true := by
  unfold applyManifest
  split
  · exact .inl ⟨by simp, rfl⟩
  split
  · exact .inl ⟨by simp, rfl⟩
  · rename_i hs hv
    exact .inr ⟨rfl, by simpa using hs, by simpa using hv⟩

@[simp] theorem lookup_map_store (c : ManifestCache PK) (m : Manifest PK) (k : PK) :
    (c.store m).map.lookup k = if k = m.masterKey then some m else c.map.lookup k :=
  HashMap.lookup_insert_eq _ _ _ _

theorem lookup_insertSigningKey (keys : HashMap PK PK) (m : Manifest PK)
    (s : PK) : (insertSigningKey keys m).lookup s =
      if m.signingKey = some s then some m.masterKey else keys.lookup s := by
  unfold insertSigningKey
  cases h : m.signingKey with
  | none => simp
  | some t =>
    have hrev : m.revoked = false := Manifest.revoked_eq_false_iff.mpr ⟨t, h⟩
    simp only [hrev, Bool.false_eq_true, if_false, HashMap.lookup_insert_eq, Option.some.injEq]
    exact if_congr eq_comm rfl rfl

theorem lookup_eraseSigningKey (keys : HashMap PK PK) (o : Option PK) (s : PK) :
    (eraseSigningKey keys o).lookup s = if o = some s then none else keys.lookup s := by
  cases o with
  | none => simp [eraseSigningKey]
  | some t =>
    simp only [eraseSigningKey, HashMap.lookup_erase_eq, Option.some.injEq]
    exact if_congr eq_comm rfl rfl

theorem lookup_signing_store (c : ManifestCache PK) (m : Manifest PK) (s : PK) :
    (c.store m).signingToMasterKeys.lookup s = if m.signingKey = some s then some m.masterKey
      else if (c.map.lookup m.masterKey).bind Manifest.signingKey = some s then none
      else c.signingToMasterKeys.lookup s := by
  unfold store
  cases h : c.map.lookup m.masterKey with
  | none => simp [lookup_insertSigningKey]
  | some old => simp [lookup_insertSigningKey, lookup_eraseSigningKey]

/-- What the two maps say of a signing key, with the revocations left out. -/
theorem pairs_iff : (∀ s k, c.signingToMasterKeys.lookup s = some k ↔
      ∃ m, c.map.lookup k = some m ∧ m.revoked = false ∧ m.signingKey = some s) ↔
    ∀ s k, c.signingToMasterKeys.lookup s = some k ↔
      (c.map.lookup k).bind Manifest.signingKey = some s := by
  have hb : ∀ s k, (∃ m, c.map.lookup k = some m ∧ m.revoked = false ∧ m.signingKey = some s) ↔
      (c.map.lookup k).bind Manifest.signingKey = some s := by
    intro s k
    rw [Option.bind_eq_some_iff]
    apply exists_congr
    intro m
    have hrev := @Manifest.revoked_eq_false_iff _ m
    constructor
    · rintro ⟨hm, -, hs⟩
      exact ⟨hm, hs⟩
    · rintro ⟨hm, hs⟩
      exact ⟨hm, hrev.mpr ⟨s, hs⟩, hs⟩
  simp only [hb]

theorem consistent_of_pairs
    (h : ∀ s k, c.signingToMasterKeys.lookup s = some k ↔
      (c.map.lookup k).bind Manifest.signingKey = some s) :
    Consistent c where
  pairs := pairs_iff.mpr h
  getMasterKey := by
    intro k m hk hrev
    obtain ⟨s, hs⟩ := Manifest.revoked_eq_false_iff.mp hrev
    have hl : c.signingToMasterKeys.lookup s = some k := by
      rw [h, hk]
      exact hs
    have hsg : c.getSigningKey k = s := by simp [getSigningKey, hk, hrev, hs]
    rw [hsg, ManifestCache.getMasterKey, hl]
    rfl

theorem consistent_new : Consistent (new : ManifestCache PK) := by
  apply consistent_of_pairs
  intro s k
  simp [new]

theorem Consistent.store {c : ManifestCache PK} (h : Consistent c) {m : Manifest PK}
    (hm : Unclaimed c m) : Consistent (c.store m) := by
  have hp := pairs_iff.mp h.pairs
  apply consistent_of_pairs
  intro s k
  rw [lookup_signing_store, lookup_map_store]
  by_cases hk : k = m.masterKey
  · subst hk
    rw [if_pos rfl]
    by_cases hs : m.signingKey = some s
    · simp [hs]
    simp only [hs, if_false, Option.bind_some, iff_false]
    split_ifs with hold
    · simp
    · rw [hp]
      exact hold
  · rw [if_neg hk]
    by_cases hs : m.signingKey = some s
    · simp only [hs, if_true, Option.some.injEq, Ne.symm hk, false_iff]
      intro hold
      obtain ⟨old, hl, hsg⟩ := Option.bind_eq_some_iff.mp hold
      have hrev := Manifest.revoked_eq_false_iff.mpr ⟨s, hsg⟩
      exact hm k old hl hk hrev (hsg.trans hs.symm)
    · rw [if_neg hs]
      split_ifs with hold
      · -- the key was recorded for the master key of the manifest alone
        have hms := (hp s m.masterKey).mpr hold
        simp only [false_iff]
        intro ho
        have hsm := (hp s k).mpr ho
        rw [hms] at hsm
        exact hk (Option.some.inj hsm).symm
      · exact hp s k

theorem Consistent.unclaimed (h : Consistent (c.store m)) : Unclaimed c m := by
  have hp := pairs_iff.mp h.pairs
  intro k old hk hne hrev heq
  obtain ⟨s, hs⟩ := Manifest.revoked_eq_false_iff.mp hrev
  have hold : (c.store m).signingToMasterKeys.lookup s = some k := by
    rw [hp, lookup_map_store, if_neg hne, hk]
    exact hs
  have hnew : (c.store m).signingToMasterKeys.lookup s = some m.masterKey := by
    rw [hp, lookup_map_store, if_pos rfl]
    exact heq.symm.trans hs
  rw [hold] at hnew
  exact hne (Option.some.inj hnew)

theorem isStale_eq_false_iff :
    c.isStale m = false ↔ ∀ old, c.map.lookup m.masterKey = some old → old.sequence < m.sequence := by
  unfold isStale
  cases c.map.lookup m.masterKey with
  | none => simp
  | some old => simp [UInt32.not_le]

/-- Whatever is accepted is newer than what the cache had, and than what was accepted before it. -/
theorem acceptedFrom_increasing (c : ManifestCache PK) (ms : List (Manifest PK)) :
    (∀ m ∈ acceptedFrom verify c ms, ∀ old, c.map.lookup m.masterKey = some old →
        old.sequence < m.sequence) ∧
      (acceptedFrom verify c ms).Pairwise fun a b =>
        a.masterKey = b.masterKey → a.sequence < b.sequence := by
  induction ms generalizing c with
  | nil => exact ⟨List.forall_mem_nil _, List.Pairwise.nil⟩
  | cons m ms ih =>
    obtain ⟨hn, hp⟩ := ih (c.applyManifest verify m).2
    rw [acceptedFrom]
    obtain ⟨hrej, hsm⟩ | ⟨hap, hs, -⟩ := applyManifest_cases verify c m
    · rw [if_neg hrej]
      rw [hsm] at hn hp ⊢
      exact ⟨hn, hp⟩
    rw [isStale_eq_false_iff] at hs
    simp only [hap, if_true] at hn hp ⊢
    have hh : ∀ a ∈ acceptedFrom verify (c.store m) ms, m.masterKey = a.masterKey →
        m.sequence < a.sequence := by
      intro a ha heq
      apply hn a ha m
      rw [lookup_map_store, if_pos heq.symm]
    refine ⟨List.forall_mem_cons.mpr ⟨hs, ?_⟩, List.pairwise_cons.mpr ⟨hh, hp⟩⟩
    intro a ha old hold
    by_cases heq : a.masterKey = m.masterKey
    · rw [heq] at hold
      exact UInt32.lt_trans (hs old hold) (hh a ha heq.symm)
    · apply hn a ha old
      rw [lookup_map_store, if_neg heq, hold]

variable {k : PK}

theorem revoked_iff : c.revoked k ↔ ∃ m, c.map.lookup k = some m ∧ m.revoked := by
  unfold revoked
  cases c.map.lookup k with
  | none => simp
  | some m => simp

theorem revoked_applyManifest (h : c.revoked k) (m : Manifest PK) :
    (c.applyManifest verify m).2.revoked k := by
  obtain ⟨-, hs⟩ | ⟨ha, hst, -⟩ := applyManifest_cases verify c m
  · rw [hs]
    exact h
  obtain ⟨old, hold, hrev⟩ := revoked_iff.mp h
  rw [ha, revoked_iff]
  by_cases hk : k = m.masterKey
  · -- no sequence number is higher than that of a revocation
    rw [hk] at hold
    have hlt := isStale_eq_false_iff.mp hst old hold
    rw [Manifest.revoked, beq_iff_eq] at hrev
    rw [hrev, UInt32.lt_iff_toNat_lt] at hlt
    have hmax := m.sequence.toNat_lt
    simp at hlt
    omega
  · refine ⟨old, ?_, hrev⟩
    rw [lookup_map_store, if_neg hk, hold]

theorem revoked_foldl (h : c.revoked k) (ms : List (Manifest PK)) :
    (ms.foldl (fun c m => (c.applyManifest verify m).2) c).revoked k :=
  List.foldlRecOn ms _ (motive := fun c : ManifestCache PK => c.revoked k = true) h
    fun _ hc m _ => revoked_applyManifest hc m

variable (verify)

structure Sound (ms : List (Manifest PK)) : Prop where
  increasing : (acceptedFrom verify new ms).Pairwise fun a b =>
    a.masterKey = b.masterKey → a.sequence < b.sequence
  revoked : ∀ p q, p ++ q <+: ms → ∀ k, (received verify p).revoked k →
    (received verify (p ++ q)).revoked k
  consistent : ∀ p, p <+: ms → Consistent (received verify p)

/-- The cache is sound along exactly the runs in which no manifest that is new and verifies names a
signing key that is in force for another master key. -/
theorem sound_iff (ms : List (Manifest PK)) :
    Sound verify ms ↔ Run.Allowed (fun c m => (applyManifest verify c m).2)
      (fun c m => c.isStale m = false → verify m = true → Unclaimed c m) new ms := by
  have hstep : ∀ (c : ManifestCache PK) (m : Manifest PK), Consistent c →
      (Consistent (applyManifest verify c m).2 ↔
        (c.isStale m = false → verify m = true → Unclaimed c m)) := by
    intro c m hc
    unfold applyManifest
    cases hs : c.isStale m with
    | true => simp [hc]
    | false =>
      cases hv : verify m with
      | false => simp [hc]
      | true =>
        simp only [Bool.false_eq_true, if_false, Bool.not_true, true_implies]
        exact ⟨Consistent.unclaimed, hc.store⟩
  rw [← Run.forall_isPrefix_iff_allowed hstep consistent_new]
  constructor
  · exact Sound.consistent
  intro h
  refine ⟨(acceptedFrom_increasing new ms).2, ?_, h⟩
  intro p q _ k hk
  rw [received, List.foldl_append]
  exact revoked_foldl hk q

def naming (masterKey signingKey : Nat) : Manifest Nat := ⟨masterKey, some signingKey, 1, [], by simp⟩

/-- The second of two master keys that name one signing key takes it from the first. -/
theorem naming_twice :
    (received (fun _ => true) [naming 1 9, naming 2 9]).map.lookup 1 = some (naming 1 9) ∧
      (naming 1 9).revoked = false ∧
      (received (fun _ => true) [naming 1 9, naming 2 9]).getSigningKey 1 = 9 ∧
      (received (fun _ => true) [naming 1 9, naming 2 9]).getMasterKey 9 = 2 ∧
      ¬ Sound (fun _ => true) [naming 1 9, naming 2 9] := by
  refine ⟨rfl, rfl, rfl, rfl, ?_⟩
  intro h
  have hmaster := (h.consistent _ (List.prefix_refl _)).getMasterKey 1 (naming 1 9) rfl rfl
  exact absurd hmaster (by decide)

end ManifestCache

end Rippled
