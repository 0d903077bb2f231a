import Rippled.Views.Tables

namespace Rippled.Views

open Lib Function OrdMap

variable {K D A : Type} [LinearOrder K] {content : K → Option (Entry D)} {key : K}

section Fits

section

variable (inserted cached : A → Bool)

/-- An item agrees with the view below: what is inserted is absent there and what is erased, changed
or only cached is present, in the last case as it is cached. -/
def FitsAt (content : K → Option (Entry D)) (key : K) (item : A × SLE D) : Prop :=
  (inserted item.1 ↔ content key = none) ∧ (cached item.1 → content key = some item.2.toEntry)

def Fits (items : Table K A D) (content : K → Option (Entry D)) : Prop :=
  ∀ key item, items.find? key = some item → FitsAt inserted cached content key item

end

variable {inserted cached erased : A → Bool} {items : Table K A D}

def seen (erased : A → Bool) (item : A × SLE D) : Option (Entry D) :=
  if erased item.1 then none else some item.2.toEntry

variable (erased) in
def Sets (items : Table K A D) (content : K → Option (Entry D)) (key : K) (r : Option (Entry D))
    (items' : Table K A D) : Prop :=
  overlay erased items' content = Function.update (overlay erased items content) key r

theorem Fits.insert (h : Fits inserted cached items content) {item : A × SLE D}
    (hi : FitsAt inserted cached content key item) :
    Fits inserted cached (OrdMap.insert items key item) content := by
  intro k it hit
  rw [find?_insert] at hit
  split_ifs at hit with hk
  · cases hit
    exact hk ▸ hi
  · exact h k it hit

theorem Fits.erase (h : Fits inserted cached items content) :
    Fits inserted cached (OrdMap.erase items key) content := by
  intro k it hit
  rw [find?_erase] at hit
  split_ifs at hit
  exact h k it hit

theorem sets_insert (item : A × SLE D) :
    Sets erased items content key (seen erased item) (OrdMap.insert items key item) := by
  funext k
  by_cases hk : k = key
  · subst hk
    rw [update_self, overlay, find?_insert, if_pos rfl]
    rfl
  · rw [update_of_ne hk, overlay, find?_insert, if_neg hk, overlay]

theorem sets_erase : Sets erased items content key (content key) (OrdMap.erase items key) := by
  funext k
  by_cases hk : k = key
  · subst hk
    rw [update_self, overlay, find?_erase, if_pos rfl]
  · rw [update_of_ne hk, overlay, find?_erase, if_neg hk, overlay]

variable (inserted cached erased) in
def Changes (items : Table K A D) (content : K → Option (Entry D)) (key : K) (r : Option (Entry D))
    (result : Except String (Table K A D)) : Prop :=
  ∃ items', result = .ok items' ∧ Fits inserted cached items' content ∧
    Sets erased items content key r items'

variable (h : Fits inserted cached items content)

include h

theorem Fits.put {item : A × SLE D} {r : Option (Entry D)}
    (hi : FitsAt inserted cached content key item) (hr : seen erased item = r) :
    Changes inserted cached erased items content key r (.ok (OrdMap.insert items key item)) :=
  ⟨_, rfl, h.insert hi, hr ▸ sets_insert item⟩

theorem Fits.drop (hn : content key = none) :
    Changes inserted cached erased items content key none (.ok (OrdMap.erase items key)) :=
  ⟨_, rfl, h.erase, hn ▸ sets_erase⟩

end Fits

namespace RawStateTable

def isInsert : RawAction → Bool
  | .insert => true
  | _ => false

abbrev Fit (items : RawStateTable K D) (content : K → Option (Entry D)) : Prop :=
  Fits isInsert (fun _ => false) items content

variable {items : RawStateTable K D}

abbrev Changed (items : RawStateTable K D) (content : K → Option (Entry D)) :
    K → Option (Entry D) → Except String (RawStateTable K D) → Prop :=
  Changes isInsert (fun _ => false) isErase items content

variable (h : Fit items content) (sle : SLE D)

include h

theorem erase_spec (hkey : overlay isErase items content key ≠ none) :
    Changed items content key none (erase items key sle) := by
  rw [erase]
  cases hi : items.find? key with
  | none =>
    rw [overlay_none hi] at hkey
    exact h.put ⟨⟨nofun, fun hn => absurd hn hkey⟩, nofun⟩ rfl
  | some item =>
    obtain ⟨action, sle'⟩ := item
    obtain ⟨hin, -⟩ := h key _ hi
    rw [overlay_some hi] at hkey
    cases action with
    | erase => exact absurd rfl hkey
    | insert => exact h.drop (hin.mp rfl)
    | replace => exact h.put ⟨hin, nofun⟩ rfl

theorem insert_spec (hkey : overlay isErase items content key = none) :
    Changed items content key (some sle.toEntry) (insert items key sle) := by
  rw [insert]
  cases hi : items.find? key with
  | none =>
    rw [overlay_none hi] at hkey
    exact h.put ⟨⟨fun _ => hkey, fun _ => rfl⟩, nofun⟩ rfl
  | some item =>
    obtain ⟨action, sle'⟩ := item
    obtain ⟨hin, -⟩ := h key _ hi
    rw [overlay_some hi] at hkey
    cases action with
    | erase => exact h.put ⟨hin, nofun⟩ rfl
    | insert | replace => cases hkey

theorem replace_spec (hkey : overlay isErase items content key ≠ none) :
    Changed items content key (some sle.toEntry) (replace items key sle) := by
  rw [replace]
  cases hi : items.find? key with
  | none =>
    rw [overlay_none hi] at hkey
    exact h.put ⟨⟨nofun, fun hn => absurd hn hkey⟩, nofun⟩ rfl
  | some item =>
    obtain ⟨action, sle'⟩ := item
    obtain ⟨hin, -⟩ := h key _ hi
    rw [overlay_some hi] at hkey
    cases action with
    | erase => exact absurd rfl hkey
    | insert | replace => exact h.put ⟨hin, nofun⟩ rfl

end RawStateTable

namespace ApplyStateTable

def isInsert : Action → Bool
  | .insert => true
  | _ => false

def isCache : Action → Bool
  | .cache => true
  | _ => false

abbrev Fit (items : ApplyStateTable K D) (content : K → Option (Entry D)) : Prop :=
  Fits isInsert isCache items content

variable {items : ApplyStateTable K D}

abbrev Changed (items : ApplyStateTable K D) (content : K → Option (Entry D)) :
    K → Option (Entry D) → Except String (ApplyStateTable K D) → Prop :=
  Changes isInsert isCache isErase items content

section

variable (h : Fit items content) (sle : SLE D)

include h

theorem rawErase_spec (hkey : overlay isErase items content key ≠ none) :
    Changed items content key none (rawErase items key sle) := by
  rw [rawErase]
  cases hi : items.find? key with
  | none =>
    rw [overlay_none hi] at hkey
    exact h.put ⟨⟨nofun, fun hn => absurd hn hkey⟩, nofun⟩ rfl
  | some item =>
    obtain ⟨action, sle'⟩ := item
    obtain ⟨hin, -⟩ := h key _ hi
    rw [overlay_some hi] at hkey
    cases action with
    | erase => exact absurd rfl hkey
    | insert => exact h.drop (hin.mp rfl)
    | cache | modify => exact h.put ⟨hin, nofun⟩ rfl

theorem insert_spec (hkey : overlay isErase items content key = none) :
    Changed items content key (some sle.toEntry) (insert items key sle) := by
  rw [insert]
  cases hi : items.find? key with
  | none =>
    rw [overlay_none hi] at hkey
    exact h.put ⟨⟨fun _ => hkey, fun _ => rfl⟩, nofun⟩ rfl
  | some item =>
    obtain ⟨action, sle'⟩ := item
    obtain ⟨hin, -⟩ := h key _ hi
    rw [overlay_some hi] at hkey
    cases action with
    | erase => exact h.put ⟨hin, nofun⟩ rfl
    | cache | insert | modify => cases hkey

theorem replace_spec (hkey : overlay isErase items content key ≠ none) :
    Changed items content key (some sle.toEntry) (replace items key sle) := by
  rw [replace]
  cases hi : items.find? key with
  | none =>
    rw [overlay_none hi] at hkey
    exact h.put ⟨⟨nofun, fun hn => absurd hn hkey⟩, nofun⟩ rfl
  | some item =>
    obtain ⟨action, sle'⟩ := item
    obtain ⟨hin, -⟩ := h key _ hi
    rw [overlay_some hi] at hkey
    cases action with
    | erase => exact absurd rfl hkey
    | cache | insert | modify => exact h.put ⟨hin, nofun⟩ rfl

end

/-- The table holds an object for a key, as it does once `peek` has returned it. -/
def Held (items : ApplyStateTable K D) (key : K) (ref : Nat) : Prop :=
  ∃ action item, items.find? key = some (action, item) ∧ action ≠ .erase ∧ item.ref = ref

variable (h : Fit items content)

include h

theorem update_spec {sle : SLE D} (hh : Held items key sle.ref) :
    Changed items content key (some sle.toEntry) (update items key sle) := by
  obtain ⟨action, item, hi, hne, href⟩ := hh
  obtain ⟨hin, -⟩ := h key _ hi
  rw [update, hi]
  dsimp only
  rw [if_neg (not_not.mpr href)]
  cases action with
  | erase => exact absurd rfl hne
  | cache | insert | modify => exact h.put ⟨hin, nofun⟩ rfl

theorem erase_spec {sle : SLE D} (hh : Held items key sle.ref) :
    Changed items content key none (erase items key sle) := by
  obtain ⟨action, item, hi, hne, href⟩ := hh
  obtain ⟨hin, -⟩ := h key _ hi
  rw [erase, hi]
  dsimp only
  rw [if_neg (not_not.mpr href)]
  cases action with
  | erase => exact absurd rfl hne
  | insert => exact h.drop (hin.mp rfl)
  | cache | modify => exact h.put ⟨hin, nofun⟩ rfl

/-- Looking up an object changes nothing that is seen and gives what is seen, which the table then
holds. -/
theorem peek_spec (ref : Nat) {base : ReadView K D} {k : Keylet K}
    (hr : base.read k = (content k.key).filter k.check) : Fit (peek items base k ref).2 content ∧
      overlay isErase (peek items base k ref).2 content = overlay isErase items content ∧
      (peek items base k ref).1.map SLE.toEntry =
        (overlay isErase items content k.key).filter k.check ∧
      ∀ sle, (peek items base k ref).1 = some sle →
        Held (peek items base k ref).2 k.key sle.ref := by
  rw [peek]
  cases hi : items.find? k.key with
  | none =>
    rw [overlay_none hi]
    cases hb : base.read k with
    | none => exact ⟨h, rfl, hr ▸ hb.symm, nofun⟩
    | some e =>
      rw [hr] at hb
      have hc := (Option.filter_eq_some_iff.mp hb).1
      have hf : FitsAt isInsert isCache content k.key (.cache, ⟨e, ref⟩) :=
        ⟨⟨nofun, fun hn => by rw [hc] at hn; cases hn⟩, fun _ => hc⟩
      refine ⟨h.insert hf, ?_, hb.symm, ?_⟩
      · have hs : overlay isErase items content k.key = some e :=
          (overlay_none hi).trans hc
        refine (sets_insert _).trans ?_
        rw [show seen isErase (Action.cache, (⟨e, ref⟩ : SLE D)) = some e from rfl, ← hs,
          update_eq_self]
      · intro sle hsle
        cases hsle
        exact ⟨.cache, ⟨e, ref⟩, by simp, nofun, rfl⟩
  | some item =>
    obtain ⟨action, sle⟩ := item
    have hh : action ≠ .erase → ∀ sle', (if k.check sle.toEntry then some sle else none) = some sle' →
        Held items k.key sle'.ref := by
      intro hne sle' hsle'
      split at hsle'
      · cases hsle'
        exact ⟨action, sle, hi, hne, rfl⟩
      · cases hsle'
    have hch : (if k.check sle.toEntry then some sle else none).map SLE.toEntry =
        (some sle.toEntry).filter k.check := by
      by_cases hk : k.check sle.toEntry
      · simp [hk, Option.filter]
      · simp [hk, Option.filter]
    cases action with
    | erase => exact ⟨h, rfl, by rw [overlay_some hi]; rfl, nofun⟩
    | cache | insert | modify =>
      exact ⟨h, rfl, by rw [overlay_some hi]; exact hch, hh nofun⟩

end ApplyStateTable

end Rippled.Views
