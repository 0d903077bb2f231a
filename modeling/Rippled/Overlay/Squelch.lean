import Mathlib.Algebra.GroupWithZero.Nat
import Rippled.Lib.Run
import Rippled.Overlay.Slot

namespace Rippled.ReduceRelay

open Lib List Option Function OrdMap

variable {V P H : Type} [LinearOrder V] [LinearOrder P] [LinearOrder H] {now : Nat}
  {told : P → Option Nat}

section Hear

omit [LinearOrder P] in
def Notice.peer : Notice P → P
  | squelch id _ => id
  | unsquelch id => id

def Notice.expiry (now : Nat) : Notice P → Option Nat
  | squelch _ duration => some (now + duration)
  | unsquelch _ => none

def hear (now : Nat) (notices : List (Notice P)) (told : P → Option Nat) : P → Option Nat :=
  notices.foldl (fun told n => Function.update told n.peer (n.expiry now)) told

theorem hear_append (now : Nat) (ns ns' : List (Notice P)) (told : P → Option Nat) :
    hear now (ns ++ ns') told = hear now ns' (hear now ns told) :=
  foldl_append

variable {W : Type} {f : P × W → Option (Notice P)} {p : P}

theorem hear_of_not_mem {ns : List (Notice P)} (h : ∀ n ∈ ns, n.peer ≠ p) : hear now ns told p = told p := by
  induction ns generalizing told with
  | nil => rfl
  | cons n ns ih =>
    rw [forall_mem_cons] at h
    exact (ih h.2).trans (update_of_ne (Ne.symm h.1) _ _)

theorem hear_filterMap (hf : ∀ e n, f e = some n → n.peer = e.1) (m : OrdMap P W) (told : P → Option Nat)
    (p : P) :
    hear now (m.entries.filterMap f) told p =
      ((m.find? p).bind fun w => f (p, w)).elim (told p) (Notice.expiry now) := by
  have hnn : (∀ w, m.find? p = some w → f (p, w) = none) →
      hear now (m.entries.filterMap f) told p = told p := by
    intro h
    apply hear_of_not_mem
    rintro n hn rfl
    obtain ⟨⟨k, w⟩, hmem, hfe⟩ := mem_filterMap.mp hn
    have hk := hf _ n hfe
    subst hk
    cases (h w (mem_entries_iff.mp hmem)).symm.trans hfe
  cases hw : m.find? p with
  | none => exact hnn fun w h => by cases hw.symm.trans h
  | some w =>
    cases hn : f (p, w) with
    | none =>
      rw [bind_some, hn]
      refine hnn fun w' h => ?_
      cases hw.symm.trans h
      exact hn
    | some n =>
      obtain ⟨pre, post, hen, _⟩ := exists_split hw
      have hp := hf _ n hn
      have hs := m.sorted
      rw [hen, OrdMap.Sorted, pairwise_append] at hs
      have hps : ∀ n' ∈ post.filterMap f, n'.peer ≠ p := by
        rintro n' hn' rfl
        obtain ⟨e, he, hfe⟩ := mem_filterMap.mp hn'
        have hlt := (pairwise_cons.mp hs.2.1).1 e he
        exact absurd (hf e n' hfe) hlt.ne
      rw [hen, filterMap_append, hear_append, filterMap_cons, hn]
      rw [hear, foldl_cons]
      refine (hear_of_not_mem hps).trans ?_
      rw [bind_some, hn, hp]
      exact update_self _ _ _

end Hear

namespace Slot

variable {slot slot' : Slot P} {id : P}

def stateOf (slot : Slot P) (p : P) : Option (PeerState × Nat) :=
  (slot.peers.find? p).map fun peer => (peer.state, peer.expire)

/-- A slot records as squelched exactly the peers that were told so and have to be silent still. None of
them is considered for selection. -/
structure Tracks (now : Nat) (told : P → Option Nat) (slot : Slot P) : Prop where
  told_iff : ∀ p e, now ≤ e → (told p = some e ↔ slot.stateOf p = some (.squelched, e))
  considered : ∀ p ∈ slot.considered, ∀ e, slot.stateOf p ≠ some (.squelched, e)

theorem Tracks.mono {now' : Nat} (h : Tracks now told slot) (hnow : now ≤ now') : Tracks now' told slot :=
  ⟨fun p e he => h.told_iff p e (hnow.trans he), h.considered⟩

theorem Tracks.of_stateOf (h : Tracks now told slot) (hs : ∀ p, slot'.stateOf p = slot.stateOf p)
    (hc : ∀ p ∈ slot'.considered, ∀ e, slot.stateOf p ≠ some (.squelched, e)) :
    Tracks now told slot' := by
  refine ⟨fun p e he => ?_, fun p hp e => ?_⟩
  · rw [hs]
    exact h.told_iff p e he
  · rw [hs]
    exact hc p hp e

theorem stateOf_initCounting (slot : Slot P) (p : P) : slot.initCounting.stateOf p = slot.stateOf p := by
  rw [stateOf, stateOf, initCounting, resetCounts, OrdMap.find?_map]
  cases slot.peers.find? p <;> rfl

theorem Tracks.initCounting (h : Tracks now told slot) : Tracks now told slot.initCounting :=
  h.of_stateOf (stateOf_initCounting slot) (fun p hp => by cases hp)

theorem stateOf_insert (slot : Slot P) (id p : P) (peer : PeerInfo) :
    { slot with peers := slot.peers.insert id peer }.stateOf p =
      if p = id then some (peer.state, peer.expire) else slot.stateOf p := by
  rw [stateOf, find?_insert]
  split_ifs <;> rfl

variable {peer peer' : PeerInfo}

theorem stateOf_insert_same (hpr : slot.peers.find? id = some peer)
    (hs : peer'.state = peer.state) (he : peer'.expire = peer.expire) (p : P) :
    { slot with peers := slot.peers.insert id peer' }.stateOf p = slot.stateOf p := by
  rw [stateOf_insert]
  split_ifs with hp
  · rw [hp, stateOf, hpr, hs, he]
    rfl
  · rfl

theorem Tracks.insert (h : Tracks now told slot) (hs : peer.state ≠ .squelched)
    (hold : ∀ e, now ≤ e → slot.stateOf id ≠ some (.squelched, e)) :
    Tracks now told (Slot.initCounting { slot with peers := slot.peers.insert id peer }) := by
  refine ⟨fun p e he => ?_, fun p hp => by cases hp⟩
  rw [stateOf_initCounting, stateOf_insert]
  split_ifs with hp
  · subst hp
    rw [h.told_iff p e he]
    refine iff_of_false (hold e he) fun heq => ?_
    exact hs (congrArg Prod.fst (Option.some.inj heq))
  · exact h.told_iff p e he

theorem draw_subset {peers : OrdMap P PeerInfo} {index : Nat → Nat} {size : Nat}
    {considered selected : List P}
    {p : P} (h : p ∈ draw peers now index size considered selected) : p ∈ considered ∨ p ∈ selected := by
  induction size generalizing considered selected with
  | zero => exact .inr h
  | succ size ih =>
    rw [draw] at h
    split_ifs at h with hf
    · exact .inr h
    dsimp only at h
    split at h
    · exact .inr h
    · next id hid =>
      have hmem : id ∈ considered := mem_of_getElem? hid
      have hold : ∀ {q}, q ∈ considered.eraseIdx (index (size + 1) % (size + 1)) → q ∈ considered :=
        fun hq => mem_of_mem_eraseIdx hq
      split at h
      · exact (ih h).imp_left hold
      rcases ih h with hc | hs
      · exact .inl (hold hc)
      split_ifs at hs
      · rcases mem_insert_iff.mp hs with rfl | hs
        · exact .inl hmem
        · exact .inr hs
      · exact .inr hs

theorem chooseNotice_peer {npeers : Nat} {random : Random P} {selected : List P} (e : P × PeerInfo)
    (n : Notice P) (h : chooseNotice npeers random selected e = some n) : n.peer = e.1 := by
  rw [chooseNotice] at h
  split_ifs at h
  cases h
  rfl

section

variable (h : Tracks now told slot)

include h

section

variable (random : Random P)

theorem Tracks.select :
    Tracks now (hear now (slot.select now random).2 told) (slot.select now random).1 := by
  rw [Slot.select]
  split_ifs with hf
  · exact h.initCounting
  refine ⟨fun p e he => ?_, fun p hp => by cases hp⟩
  have hsub : p ∈ draw slot.peers now random.index slot.considered.length slot.considered [] →
      p ∈ slot.considered := fun hp => (draw_subset hp).elim (fun hc => hc) (fun hn => by cases hn)
  generalize draw slot.peers now random.index slot.considered.length slot.considered [] = selected at *
  have ht := h.told_iff p e he
  rw [hear_filterMap chooseNotice_peer, stateOf]
  rw [OrdMap.find?_map]
  rw [stateOf] at ht
  cases hpr : slot.peers.find? p with
  | none =>
    rw [hpr] at ht
    exact ht
  | some peer =>
    have hnot := fun hc => h.considered p (hsub hc)
    rw [stateOf, hpr] at hnot
    rw [hpr] at ht
    simp only [map_some, bind_some, choose, chooseNotice] at ht hnot ⊢
    by_cases hsel : selected.contains p
    · have hs : peer.state ≠ .squelched := fun heq =>
        hnot (contains_iff_mem.mp hsel) peer.expire (by rw [heq])
      simp only [hsel, Bool.not_true, Bool.false_eq_true, false_and, if_false, if_true, elim_none]
      rw [ht]
      simp [hs]
    · rw [Bool.not_eq_true] at hsel
      by_cases hs : peer.state = .squelched
      · simp only [hsel, hs, ne_eq, not_true_eq_false, and_false, if_false, Bool.false_eq_true,
          elim_none]
        rw [ht, hs]
      · simp only [hsel, hs, Notice.expiry, Bool.not_false, ne_eq, not_false_eq_true, and_self, if_true,
          if_false, Bool.false_eq_true, elim_some, Option.some.injEq, Prod.mk.injEq, true_and]

theorem Tracks.counted (hpr : slot.peers.find? id = some peer) (hs : peer.state ≠ .squelched) :
    Tracks now told (slot.counted id peer) := by
  refine h.of_stateOf (stateOf_insert_same hpr rfl rfl) fun p hp e => ?_
  have hmem : p = id ∨ p ∈ slot.considered := by
    have hmem : p ∈ if peer.count + 1 > minMessageThreshold then slot.considered.insert id
      else slot.considered := hp
    split_ifs at hmem
    · exact mem_insert_iff.mp hmem
    · exact .inr hmem
  rcases hmem with rfl | hold
  · rw [stateOf, hpr]
    simp [hs]
  · exact h.considered p hold e

theorem Tracks.countMessage (hp : slot.peers.find? id = some peer) (hs : peer.state ≠ .squelched) :
    Tracks now (hear now (slot.countMessage now random id peer).2 told)
      (slot.countMessage now random id peer).1 := by
  have hc := h.counted hp hs
  rw [Slot.countMessage]
  split_ifs
  · exact hc.initCounting
  · exact hc.select random
  · exact hc

theorem Tracks.update (id : P) :
    Tracks now (hear now (slot.update now random id).2 told) (slot.update now random id).1 := by
  rw [Slot.update]
  split
  · next hn =>
    refine h.insert (by simp) fun e _ => ?_
    rw [stateOf, hn]
    simp
  · next peer hp =>
    have hs : slot.stateOf id = some (peer.state, peer.expire) := by rw [stateOf, hp]; rfl
    split_ifs with hep
    · refine h.insert (by simp) fun e he heq => ?_
      have her : peer.expire = e := congrArg Prod.snd (Option.some.inj (hs.symm.trans heq))
      exact absurd he (not_le.mpr (her ▸ hep.2))
    have hh : Tracks now told
        { slot with peers := slot.peers.insert id { peer with lastMessage := now } } := by
      refine h.of_stateOf (stateOf_insert_same hp rfl rfl) ?_
      exact h.considered
    dsimp only
    split_ifs with hq
    · exact hh
    · rw [not_or] at hq
      exact hh.countMessage random (by simp) hq.2

end

theorem Tracks.release : Tracks now (hear now (slot.release now).2 told) (slot.release now).1 := by
  refine ⟨fun p e he => ?_, fun p hp => by cases hp⟩
  have ht := h.told_iff p e he
  rw [Slot.release]
  rw [hear_filterMap, stateOf]
  · dsimp only
    rw [OrdMap.find?_map]
    rw [stateOf] at ht
    cases hpr : slot.peers.find? p with
    | none =>
      rw [hpr] at ht
      exact ht
    | some peer =>
      rw [hpr] at ht
      by_cases hs : peer.state = .squelched
      · simp [hs, Notice.expiry]
      · simpa [hs] using ht
  · intro entry n hn
    split_ifs at hn
    cases hn
    rfl

end

theorem unconsider_stateOf (peer : PeerInfo) (p : P) :
    (slot.unconsider id peer).stateOf p = slot.stateOf p := by
  rw [unconsider]
  split_ifs <;> rfl

theorem Tracks.unconsider (h : Tracks now told slot) (peer : PeerInfo) :
    Tracks now told (slot.unconsider id peer) := by
  refine h.of_stateOf (unconsider_stateOf peer) fun p hp => h.considered p ?_
  rw [Slot.unconsider] at hp
  split_ifs at hp
  · exact mem_of_mem_erase hp
  · exact mem_of_mem_erase hp
  · exact hp

theorem stateOf_forget (erase : Bool) (p : P) : (slot.forget now id erase).stateOf p =
    if erase ∧ p = id then none else slot.stateOf p := by
  rw [stateOf, stateOf, forget]
  cases erase with
  | true =>
    rw [if_pos rfl, find?_erase]
    by_cases hp : p = id <;> simp [hp]
  | false =>
    rw [if_neg Bool.false_ne_true, find?_modify]
    by_cases hp : p = id
    · rw [if_pos hp, hp]
      cases slot.peers.find? id <;> simp
    · simp [hp]

def disconnect (id : P) (erase : Bool) (told : P → Option Nat) : P → Option Nat :=
  if erase then Function.update told id none else told

section

variable (erase : Bool)

theorem disconnect_apply (p : P) : disconnect id erase told p =
    if erase ∧ p = id then none else told p := by
  cases erase with
  | true =>
    rw [disconnect, if_pos rfl, update_apply]
    by_cases hp : p = id <;> simp [hp]
  | false => simp [disconnect]

theorem Tracks.forget (h : Tracks now told slot) (id : P) (erase : Bool) :
    Tracks now (disconnect id erase told) (slot.forget now id erase) := by
  refine ⟨fun p e he => ?_, fun p hp e => ?_⟩
  · rw [stateOf_forget, disconnect_apply]
    split_ifs
    · simp
    · exact h.told_iff p e he
  rw [stateOf_forget]
  split_ifs
  · simp
  · exact h.considered p hp e

theorem deletePeer_selected (h : slot.peers.find? id = some peer) (hs : peer.state = .selected) :
    slot.deletePeer now id erase =
      ((slot.release now).1.forget now id erase, (slot.release now).2) := by
  rw [Slot.deletePeer, h]
  dsimp only
  rw [if_pos hs]

theorem deletePeer_other (h : slot.peers.find? id = some peer) (hs : peer.state ≠ .selected) :
    slot.deletePeer now id erase = ((slot.unconsider id peer).forget now id erase, []) := by
  rw [Slot.deletePeer, h]
  dsimp only
  rw [if_neg hs]

theorem Tracks.deletePeer (h : Tracks now told slot) (id : P) (erase : Bool) :
    Tracks now (disconnect id erase (hear now (slot.deletePeer now id erase).2 told))
      (slot.deletePeer now id erase).1 := by
  cases hpr : slot.peers.find? id with
  | none =>
    rw [Slot.deletePeer, hpr]
    refine ⟨fun p e he => ?_, h.considered⟩
    rw [disconnect_apply]
    split_ifs with hp
    · rw [hp.2, stateOf, hpr]
      simp
    · exact h.told_iff p e he
  | some peer =>
    by_cases hsel : peer.state = .selected
    · rw [deletePeer_selected erase hpr hsel]
      exact h.release.forget id erase
    · rw [deletePeer_other erase hpr hsel]
      exact (h.unconsider peer).forget id erase

theorem Tracks.deleteIdle {ids : List P} (h : Tracks now told slot) :
    Tracks now (hear now (slot.deleteIdle now ids).2 told) (slot.deleteIdle now ids).1 := by
  induction ids generalizing slot told with
  | nil => exact h
  | cons id rest ih =>
    rw [Slot.deleteIdle]
    rw [hear_append]
    apply ih
    split
    · exact h
    · split_ifs
      · exact h.deletePeer id false
      · exact h

theorem unsquelch_mem_deletePeer (hid : slot.peers.find? id = some peer)
    (hs : peer.state = .selected) {p : P} (hp : slot.peers.find? p = some peer')
    (hsq : peer'.state = .squelched) : .unsquelch p ∈ (slot.deletePeer now id erase).2 := by
  rw [deletePeer_selected erase hid hs, Slot.release, mem_filterMap]
  exact ⟨(p, peer'), mem_entries_iff.mpr hp, if_pos hsq⟩

end

/-- The peer is selected and idles. -/
def Idles (now : Nat) (slot : Slot P) (q : P) : Prop :=
  ∃ peer, slot.peers.find? q = some peer ∧ peer.state = .selected ∧ now - peer.lastMessage > idled

theorem Idles.mem_keys {q : P} (h : slot.Idles now q) : q ∈ slot.peers.keys := by
  obtain ⟨peer, hq, -⟩ := h
  exact mem_keys_iff.mpr (isSome_of_eq_some hq)

/-- The slot after some of its peers were looked at. Either none of them was selected and idled, or all
peers count again. -/
inductive Swept (now : Nat) (slot : Slot P) (ids : List P) (r : Slot P × List (Notice P)) : Prop
  | kept (hidle : ∀ q ∈ ids, ¬ slot.Idles now q) (hstate : ∀ p, r.1.stateOf p = slot.stateOf p)
  | released (q : P) (hq : q ∈ ids) (hidle : slot.Idles now q)
    (hstate : ∀ p e, r.1.stateOf p ≠ some (.squelched, e))
    (htold : ∀ p e, slot.stateOf p = some (.squelched, e) → .unsquelch p ∈ r.2)

theorem idles_forget (hid : slot.peers.find? id = some peer) (hs : peer.state ≠ .selected) (q : P) :
    ((slot.unconsider id peer).forget now id false).Idles now q ↔ slot.Idles now q := by
  have hpr : (slot.unconsider id peer).peers = slot.peers := by
    rw [Slot.unconsider]
    split_ifs <;> rfl
  rw [Idles, Idles, Slot.forget, if_neg Bool.false_ne_true, hpr, find?_modify]
  split_ifs with hq
  · simp [hq, hid, hs]
  · rfl

theorem stateOf_release (p : P) (e : Nat) : (slot.release now).1.stateOf p ≠ some (.squelched, e) := by
  rw [stateOf, Slot.release]
  simp [OrdMap.find?_map]

theorem Swept.cons {rest : List P} {r : Slot P × List (Notice P)} (h : Swept now slot' rest r)
    (hid : ¬ slot.Idles now id) (hi : ∀ q, slot'.Idles now q ↔ slot.Idles now q)
    (hst : ∀ p, slot'.stateOf p = slot.stateOf p) (ns : List (Notice P)) :
    Swept now slot (id :: rest) (r.1, ns ++ r.2) := by
  cases h with
  | kept hidle hstate =>
    refine .kept (forall_mem_cons.mpr ⟨hid, fun q hq => ?_⟩) fun p => (hstate p).trans (hst p)
    rw [← hi]
    exact hidle q hq
  | released q hq hidle hstate htold =>
    refine .released q (mem_cons_of_mem _ hq) ((hi q).mp hidle) hstate fun p e hp => ?_
    exact mem_append_right _ (htold p e (by rwa [hst]))

theorem deleteIdle_swept {ids : List P} : Swept now slot ids (slot.deleteIdle now ids) := by
  induction ids generalizing slot with
  | nil => exact .kept (by simp) fun _ => rfl
  | cons id rest ih =>
    rw [Slot.deleteIdle]
    cases hp : slot.peers.find? id with
    | none => exact ih.cons (by simp [Idles, hp]) (fun _ => Iff.rfl) (fun _ => rfl) []
    | some peer =>
      dsimp only
      split_ifs with hi
      · by_cases hs : peer.state = .selected
        · rw [deletePeer_selected false hp hs]
          refine .released id mem_cons_self ⟨peer, hp, hs, hi⟩ (fun p e => ?_) fun p e hq => ?_
          · cases (ih : Swept now ((slot.release now).1.forget now id false) rest _) with
            | kept _ hst =>
              rw [hst, stateOf_forget, if_neg (by simp)]
              exact stateOf_release p e
            | released _ _ _ hst => exact hst p e
          · obtain ⟨peer', hp', heq⟩ := map_eq_some_iff.mp hq
            refine mem_append_left _ (mem_filterMap.mpr ⟨(p, peer'), mem_entries_iff.mpr hp', ?_⟩)
            exact if_pos (congrArg Prod.fst heq)
        · rw [deletePeer_other false hp hs]
          refine ih.cons (by simp [Idles, hp, hs]) (idles_forget hp hs) (fun p => ?_) []
          rw [stateOf_forget, if_neg (by simp), unconsider_stateOf]
      · exact ih.cons (by simpa [Idles, hp] using fun _ => hi) (fun _ => Iff.rfl) (fun _ => rfl) []

theorem lastSelected_deleteIdle (ids : List P) :
    (slot.deleteIdle now ids).1.lastSelected = slot.lastSelected := by
  induction ids generalizing slot with
  | nil => rfl
  | cons id rest ih =>
    rw [Slot.deleteIdle]
    refine ih.trans ?_
    split
    · rfl
    · next peer hp =>
      split_ifs
      · by_cases hs : peer.state = .selected
        · rw [deletePeer_selected false hp hs]
          rfl
        · rw [deletePeer_other false hp hs, forget, unconsider]
          split_ifs <;> rfl
      · rfl

end Slot

/-- A server with what its peers were told last: the time until which they have to be silent. -/
structure Overlay (V P H : Type) [LinearOrder V] [LinearOrder P] [LinearOrder H] where
  slots : Slots V P H := {}
  now : Nat := 0
  told : V → P → Option Nat := fun _ _ => none

inductive Call (V P H : Type)
  | update (random : Random P) (key : H) (validator : V) (id : P)
  | deletePeer (id : P) (erase : Bool)
  | deleteIdlePeers

namespace Overlay

variable [Zero H] {s : Overlay V P H}

section

variable (s)

def step (e : Nat × Call V P H) : Overlay V P H :=
  let now := s.now + e.1
  match e.2 with
  | .update random key validator id =>
    let (slots, notices) := s.slots.updateSlotAndSquelch now random key validator id
    { slots, now, told := Function.update s.told validator (hear now notices (s.told validator)) }
  | .deletePeer id erase =>
    let (slots, notices) := s.slots.deletePeer now id erase
    { slots, now, told := fun v => Slot.disconnect id erase (hear now (notices v) (s.told v)) }
  | .deleteIdlePeers =>
    let (slots, notices) := s.slots.deleteIdlePeers now
    { slots, now, told := fun v => hear now (notices v) (s.told v) }

/-- No squelch is orphaned. -/
structure Tracked : Prop where
  recorded : ∀ v p e, s.told v p = some e → s.now ≤ e → ∃ slot peer,
    s.slots.slots.find? v = some slot ∧ slot.peers.find? p = some peer ∧ peer.state = .squelched
  lost : ∀ v p e now slot q peer, s.told v p = some e → s.now ≤ now → now ≤ e →
    s.slots.slots.find? v = some slot → slot.peers.find? q = some peer → peer.state = .selected →
    ∀ erase, .unsquelch p ∈ (slot.deletePeer now q erase).2
  selectedIdle : ∀ v p e now slot q peer, s.told v p = some e → s.now ≤ now → now ≤ e →
    s.slots.slots.find? v = some slot → slot.peers.find? q = some peer → peer.state = .selected →
    now - peer.lastMessage > idled → .unsquelch p ∈ (slot.deleteIdlePeer now).2

/-- Of a slot that was selected too long ago a selected peer idles, or no peer has to be silent. -/
def Spares (e : Nat × Call V P H) : Prop :=
  match e.2 with
  | .deleteIdlePeers => ∀ v slot, s.slots.slots.find? v = some slot →
    s.now + e.1 - slot.lastSelected > maxUnsquelchExpireDefault →
    (∀ q, ¬ slot.Idles (s.now + e.1) q) → ∀ p peer, slot.peers.find? p = some peer →
      peer.state = .squelched → peer.expire < s.now + e.1
  | _ => True

structure Sound : Prop where
  tracks : ∀ v slot, s.slots.slots.find? v = some slot → slot.Tracks s.now (s.told v)
  absent : ∀ v, s.slots.slots.find? v = none → ∀ p e, s.now ≤ e → s.told v p ≠ some e

end

variable {e : Nat × Call V P H}

section

omit [Zero H]

theorem Sound.squelched (h : s.Sound) {v : V} {p : P} {t : Nat} (ht : s.told v p = some t)
    (hnow : s.now ≤ t) : ∃ slot peer, s.slots.slots.find? v = some slot ∧
      slot.peers.find? p = some peer ∧ peer.state = .squelched := by
  cases hs : s.slots.slots.find? v with
  | none => exact absurd ht (h.absent v hs p t hnow)
  | some slot =>
    obtain ⟨peer, hp, heq⟩ := map_eq_some_iff.mp (((h.tracks v slot hs).told_iff p t hnow).mp ht)
    exact ⟨slot, peer, rfl, hp, congrArg Prod.fst heq⟩

theorem Sound.tracked (h : s.Sound) : s.Tracked where
  recorded v p t ht hnow := h.squelched ht hnow
  lost v p t now slot q peer ht hle hnow hs hq hsl erase := by
    obtain ⟨slot', peer', hs', hp, hsq⟩ := h.squelched ht (hle.trans hnow)
    cases hs.symm.trans hs'
    exact Slot.unsquelch_mem_deletePeer erase hq hsl hp hsq
  selectedIdle v p t now slot q peer ht hle hnow hs hq hsl hi := by
    obtain ⟨slot', peer', hs', hp, hsq⟩ := h.squelched ht (hle.trans hnow)
    cases hs.symm.trans hs'
    have hidles : slot.Idles now q := ⟨peer, hq, hsl, hi⟩
    cases (Slot.deleteIdle_swept : Slot.Swept now slot slot.peers.keys _) with
    | kept hidle => exact absurd hidles (hidle q hidles.mem_keys)
    | released _ _ _ _ htold =>
      apply htold p peer'.expire
      rw [Slot.stateOf, hp, ← hsq]
      rfl

end

theorem addPeerMessage_slots (now : Nat) (key : H) (id : P) (s : Slots V P H) :
    (s.addPeerMessage now key id).2.slots = s.slots := by
  rw [Slots.addPeerMessage]
  split_ifs
  · split
    · rfl
    · split_ifs <;> rfl
  · rfl

/-- The slot of the validator is updated, or the message is one that the peer relayed before. -/
theorem updateSlotAndSquelch_cases (now : Nat) (random : Random P) (key : H) (v : V) (id : P)
    (s : Slots V P H) :
    ((s.updateSlotAndSquelch now random key v id).1.slots = s.slots ∧
      (s.updateSlotAndSquelch now random key v id).2 = []) ∨
    ((s.updateSlotAndSquelch now random key v id).1.slots =
        s.slots.insert v (((s.slots.find? v).getD { lastSelected := now }).update now random id).1 ∧
      (s.updateSlotAndSquelch now random key v id).2 =
        (((s.slots.find? v).getD { lastSelected := now }).update now random id).2) := by
  have hs := addPeerMessage_slots now key id s
  rw [Slots.updateSlotAndSquelch]
  split
  · next s' heq =>
    rw [heq] at hs
    exact .inl ⟨hs, rfl⟩
  · next s' heq =>
    rw [heq] at hs
    right
    rw [← hs]
    exact ⟨rfl, rfl⟩

section

omit [Zero H]

theorem Sound.later (h : s.Sound) {now : Nat} (hnow : s.now ≤ now) :
    ({ s with now } : Overlay V P H).Sound :=
  ⟨fun v slot hs => (h.tracks v slot hs).mono hnow,
    fun v hn p t ht => h.absent v hn p t (hnow.trans ht)⟩

theorem Sound.slotOf (h : s.Sound) (v : V) :
    ((s.slots.slots.find? v).getD { lastSelected := s.now }).Tracks s.now (s.told v) := by
  cases hs : s.slots.slots.find? v with
  | none =>
    refine ⟨fun p t ht => iff_of_false (h.absent v hs p t ht) ?_, fun p hp => by cases hp⟩
    simp [Slot.stateOf]
  | some slot => exact h.tracks v slot hs

end

theorem Sound.update (h : s.Sound) (random : Random P) (key : H) (v : V) (id : P) :
    Sound { s with
      slots := (s.slots.updateSlotAndSquelch s.now random key v id).1
      told := Function.update s.told v
        (hear s.now (s.slots.updateSlotAndSquelch s.now random key v id).2 (s.told v)) } := by
  rcases updateSlotAndSquelch_cases s.now random key v id s.slots with ⟨hsl, hnt⟩ | ⟨hsl, hnt⟩
  · have htl : Function.update s.told v
        (hear s.now (s.slots.updateSlotAndSquelch s.now random key v id).2 (s.told v)) = s.told := by
      rw [hnt]
      exact update_eq_self v s.told
    rw [htl]
    refine ⟨fun v' slot hs => ?_, fun v' hn => ?_⟩
    · rw [hsl] at hs
      exact h.tracks v' slot hs
    · rw [hsl] at hn
      exact h.absent v' hn
  · have hu := (h.slotOf v).update random id
    rw [← hnt] at hu
    refine ⟨fun v' slot hs => ?_, fun v' hn p t ht => ?_⟩
    · rw [hsl, find?_insert] at hs
      dsimp only
      split_ifs at hs with hv
      · cases hs
        rw [hv, update_self]
        exact hu
      · rw [update_of_ne hv]
        exact h.tracks v' slot hs
    · rw [hsl, find?_insert] at hn
      dsimp only
      split_ifs at hn with hv
      rw [update_of_ne hv]
      exact h.absent v' hn p t ht

section

omit [Zero H]

theorem Sound.deletePeer (h : s.Sound) (id : P) (erase : Bool) :
    Sound { s with
      slots := (s.slots.deletePeer s.now id erase).1
      told := fun v => Slot.disconnect id erase
        (hear s.now ((s.slots.deletePeer s.now id erase).2 v) (s.told v)) } := by
  refine ⟨fun v slot hs => ?_, fun v hn p t ht => ?_⟩
  · rw [Slots.deletePeer] at hs ⊢
    dsimp only at hs ⊢
    rw [OrdMap.find?_map] at hs
    obtain ⟨slot', hs', rfl⟩ := map_eq_some_iff.mp hs
    rw [hs']
    exact (h.tracks v slot' hs').deletePeer id erase
  · rw [Slots.deletePeer] at hn ⊢
    dsimp only at hn ⊢
    rw [OrdMap.find?_map, Option.map_eq_none_iff] at hn
    rw [hn, Slot.disconnect_apply]
    split_ifs
    · simp
    · exact h.absent v hn p t ht

theorem Sound.tracks_idle (h : s.Sound) {v : V} {slot : Slot P} (hs : s.slots.slots.find? v = some slot) :
    (slot.deleteIdlePeer s.now).1.Tracks s.now
      (hear s.now ((s.slots.deleteIdlePeers s.now).2 v) (s.told v)) := by
  rw [Slots.deleteIdlePeers]
  dsimp only
  rw [hs]
  exact (h.tracks v slot hs).deleteIdle

theorem find?_deleteIdlePeers (v : V) : (s.slots.deleteIdlePeers s.now).1.slots.find? v =
    (s.slots.slots.find? v).bind fun slot =>
      if s.now - (slot.deleteIdlePeer s.now).1.lastSelected > maxUnsquelchExpireDefault then none
      else some (slot.deleteIdlePeer s.now).1 := by
  rw [Slots.deleteIdlePeers, OrdMap.find?_filterMap]

theorem Sound.deleteIdlePeers (h : s.Sound) (hsp : ∀ v slot, s.slots.slots.find? v = some slot →
      s.now - slot.lastSelected > maxUnsquelchExpireDefault → (∀ q, ¬ slot.Idles s.now q) →
      ∀ p peer, slot.peers.find? p = some peer → peer.state = .squelched → peer.expire < s.now) :
    Sound { s with
      slots := (s.slots.deleteIdlePeers s.now).1
      told := fun v => hear s.now ((s.slots.deleteIdlePeers s.now).2 v) (s.told v) } := by
  refine ⟨fun v slot hs => ?_, fun v hn p t ht => ?_⟩
  · rw [find?_deleteIdlePeers] at hs
    obtain ⟨slot', hs', heq⟩ := bind_eq_some_iff.mp hs
    split_ifs at heq
    cases heq
    exact h.tracks_idle hs'
  · rw [find?_deleteIdlePeers] at hn
    cases hs : s.slots.slots.find? v with
    | none =>
      rw [Slots.deleteIdlePeers]
      dsimp only
      rw [hs]
      exact h.absent v hs p t ht
    | some slot =>
      rw [hs, bind_some] at hn
      split_ifs at hn with hold
      intro htl
      have hsq := ((h.tracks_idle hs).told_iff p t ht).mp htl
      rw [Slot.deleteIdlePeer, Slot.lastSelected_deleteIdle] at hold
      rw [Slot.deleteIdlePeer] at hsq
      cases (Slot.deleteIdle_swept : Slot.Swept s.now slot slot.peers.keys _) with
      | kept hidle hstate =>
        rw [hstate] at hsq
        obtain ⟨peer, hp, heq⟩ := map_eq_some_iff.mp hsq
        obtain ⟨hst, he⟩ := Prod.mk.inj heq
        refine absurd ht (not_le.mpr (he ▸ hsp v slot hs hold (fun q hq => ?_) p peer hp hst))
        exact hidle q hq.mem_keys hq
      | released _ _ _ hstate => exact absurd hsq (hstate p t)

end

theorem Sound.step (h : s.Sound) (hs : s.Spares e) : (s.step e).Sound := by
  have hl := h.later (Nat.le_add_right s.now e.1)
  obtain ⟨elapsed, call⟩ := e
  cases call with
  | update random key validator id => exact hl.update random key validator id
  | deletePeer id erase => exact hl.deletePeer id erase
  | deleteIdlePeers => exact hl.deleteIdlePeers hs

theorem Sound.spares (h : s.Sound) (ht : (s.step e).Tracked) : s.Spares e := by
  have hl := h.later (Nat.le_add_right s.now e.1)
  obtain ⟨elapsed, call⟩ := e
  cases call with
  | update random key validator id => trivial
  | deletePeer id erase => trivial
  | deleteIdlePeers =>
    intro v slot hs hold hidle p peer hp hst
    by_contra he
    rw [not_lt] at he
    have htl := ((hl.tracks_idle hs).told_iff p peer.expire he).mpr (by
      cases (Slot.deleteIdle_swept : Slot.Swept (s.now + elapsed) slot slot.peers.keys _) with
      | kept _ hstate =>
        rw [Slot.deleteIdlePeer, hstate, Slot.stateOf, hp, ← hst]
        rfl
      | released q _ hq => exact absurd hq (hidle q))
    obtain ⟨slot', _, hs', _⟩ := ht.recorded v p peer.expire htl he
    have hn := find?_deleteIdlePeers (s := { s with now := s.now + elapsed }) v
    rw [hs, bind_some, Slot.deleteIdlePeer, Slot.lastSelected_deleteIdle, if_pos hold] at hn
    cases hn.symm.trans hs'

omit [Zero H] in
theorem sound_start : ({} : Overlay V P H).Sound where
  tracks v slot hs := by cases hs
  absent v _ p t _ ht := by cases ht

/-- Squelches are never orphaned, in any run, exactly as long as no slot is deleted for its age while a
peer in it has to be silent. -/
theorem squelches_tracked_iff (calls : List (Nat × Call V P H)) :
    (∀ pre, pre <+: calls → (pre.foldl step ({} : Overlay V P H)).Tracked) ↔
      Run.Allowed step Spares ({} : Overlay V P H) calls :=
  Run.forall_isPrefix_iff_allowed_of_invariant (fun _ h => h.tracked) (fun _ _ h hs => h.step hs)
    (fun _ _ h ht => h.spares ht) sound_start

section Example

/-- A message of a peer from validator 1. Durations are chosen as long as they may be with 66 peers. -/
def hears (elapsed : Nat) (id : Nat) : Nat × Call Nat Nat Nat :=
  (elapsed, .update { index := fun _ => 0, duration := fun _ => 310 } 0 1 id)

/-- After 66 peers joined, five of them are selected and the others squelched. The five still send
messages when the slot is found too old. -/
def aging : List (Nat × Call Nat Nat Nat) :=
  (List.range 66).map (hears 0) ++ (List.replicate 11 (List.range 5)).flatten.map (hears 0) ++
    [hears 605 0, hears 0 1, hears 0 2, hears 0 3, hears 0 4, (1, .deleteIdlePeers)]

theorem squelch_orphaned :
    (aging.foldl step ({} : Overlay Nat Nat Nat)).now = 606 ∧
    (aging.foldl step ({} : Overlay Nat Nat Nat)).told 1 65 = some 610 ∧
    ((aging.foldl step ({} : Overlay Nat Nat Nat)).slots.slots.find? 1).isNone := by
  decide +kernel

end Example

end Overlay

end Rippled.ReduceRelay
