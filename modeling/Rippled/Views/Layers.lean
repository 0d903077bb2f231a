import Rippled.Lib.Run
import Rippled.Views.Fits
import Rippled.Views.Walk
import Mathlib.Algebra.GroupWithZero.Nat

namespace Rippled.Views

open Lib List Function OrdMap

variable {K D A : Type} [LinearOrder K] {items : ApplyStateTable K D} {v : View K D}

namespace View

def stack : View K D → List (View K D)
  | ledger stateMap => [ledger stateMap]
  | openView items base => openView items base :: base.stack
  | applyView items base => applyView items base :: base.stack

def WellFormed : View K D → Prop
  | ledger _ => True
  | openView items base => RawStateTable.Fit items base.content ∧ base.WellFormed
  | applyView items base => ApplyStateTable.Fit items base.content ∧ base.WellFormed

/-- A view after a change of one key: those below are as they were. -/
structure SetsTo (v : View K D) (key : K) (r : Option (Entry D)) (v' : View K D) : Prop where
  wellFormed : v'.WellFormed
  content : v'.content = Function.update v.content key r
  below : v'.stack.tail = v.stack.tail

section Raw

variable {key : K} {r : Option (Entry D)}

theorem ledger_setsTo {stateMap stateMap' : OrdMap K (Entry D)}
    (h : ∀ k, stateMap'.find? k = if k = key then r else stateMap.find? k) :
    SetsTo (ledger stateMap) key r (ledger stateMap') := by
  refine ⟨trivial, ?_, rfl⟩
  funext k
  rw [update_apply]
  exact h k

theorem openView_setsTo {items : RawStateTable K D} {base : View K D}
    {result : Except String (RawStateTable K D)} (h : base.WellFormed)
    (hr : RawStateTable.Changed items base.content key r result) :
    ∃ v', result.map (openView · base) = .ok v' ∧ SetsTo (openView items base) key r v' := by
  obtain ⟨items', rfl, hfit, hs⟩ := hr
  exact ⟨.openView items' base, rfl, ⟨hfit, h⟩, hs, rfl⟩

theorem applyView_setsTo {base : View K D} {result : Except String (ApplyStateTable K D)}
    (h : base.WellFormed) (hr : ApplyStateTable.Changed items base.content key r result) :
    ∃ v', result.map (applyView · base) = .ok v' ∧ SetsTo (applyView items base) key r v' := by
  obtain ⟨items', rfl, hfit, hs⟩ := hr
  exact ⟨.applyView items' base, rfl, ⟨hfit, h⟩, hs, rfl⟩

variable (h : v.WellFormed) (sle : SLE D)

include h

theorem rawErase_spec (hkey : v.content key ≠ none) :
    ∃ v', v.rawErase key sle = .ok v' ∧ v.SetsTo key none v' := by
  cases v with
  | ledger stateMap =>
    cases hf : stateMap.find? key with
    | none => exact absurd hf hkey
    | some e =>
      refine ⟨.ledger (stateMap.erase key), by simp [rawErase, hf], ?_⟩
      exact ledger_setsTo fun k => stateMap.find?_erase key k
  | openView items base => exact openView_setsTo h.2 (RawStateTable.erase_spec h.1 sle hkey)
  | applyView items base =>
    exact applyView_setsTo h.2 (ApplyStateTable.rawErase_spec h.1 sle hkey)

theorem rawInsert_spec (hkey : v.content key = none) :
    ∃ v', v.rawInsert key sle = .ok v' ∧ v.SetsTo key (some sle.toEntry) v' := by
  cases v with
  | ledger stateMap =>
    refine ⟨.ledger (stateMap.insert key sle.toEntry), ?_, ?_⟩
    · rw [rawInsert, show stateMap.find? key = none from hkey]
    · exact ledger_setsTo fun k => stateMap.find?_insert key k _
  | openView items base => exact openView_setsTo h.2 (RawStateTable.insert_spec h.1 sle hkey)
  | applyView items base => exact applyView_setsTo h.2 (ApplyStateTable.insert_spec h.1 sle hkey)

theorem rawReplace_spec (hkey : v.content key ≠ none) :
    ∃ v', v.rawReplace key sle = .ok v' ∧ v.SetsTo key (some sle.toEntry) v' := by
  cases v with
  | ledger stateMap =>
    cases hf : stateMap.find? key with
    | none => exact absurd hf hkey
    | some e =>
      refine ⟨.ledger (stateMap.insert key sle.toEntry), by simp [rawReplace, hf], ?_⟩
      exact ledger_setsTo fun k => stateMap.find?_insert key k _
  | openView items base => exact openView_setsTo h.2 (RawStateTable.replace_spec h.1 sle hkey)
  | applyView items base =>
    exact applyView_setsTo h.2 (ApplyStateTable.replace_spec h.1 sle hkey)

end Raw

section Apply

variable {erased inserted cached : A → Bool}
  {f : View K D → K × A × SLE D → Except String (View K D)}

variable (hf : ∀ v item, v.WellFormed → FitsAt inserted cached v.content item.1 item.2 →
  ∃ v', f v item = .ok v' ∧ v.SetsTo item.1 (seen erased item.2) v')

include hf

/-- Items that fit a view are applied to it one after the other, and each key is then seen as it was
through the table. -/
theorem foldlM_spec {l : List (K × A × SLE D)} (hl : OrdMap.Sorted l) {v : View K D}
    (h : v.WellFormed) (hft : ∀ item ∈ l, FitsAt inserted cached v.content item.1 item.2) :
    ∃ v', l.foldlM f v = .ok v' ∧ v'.WellFormed ∧ v'.stack.tail = v.stack.tail ∧
      ∀ k, v'.content k = (OrdMap.lookup k l).elim (v.content k) (seen erased) := by
  induction l generalizing v with
  | nil => exact ⟨v, rfl, h, rfl, fun _ => rfl⟩
  | cons item l ih =>
    obtain ⟨hlt, hsr⟩ := pairwise_cons.mp hl
    obtain ⟨v', hv', hs⟩ := hf v item h (hft item mem_cons_self)
    have ho : ∀ k, k ≠ item.1 → v'.content k = v.content k := by
      intro k hk
      rw [hs.content, update_of_ne hk]
    obtain ⟨v'', hrun, hw, hb, hc⟩ := ih hsr hs.wellFormed (by
      intro item' hmem
      unfold FitsAt
      rw [ho item'.1 (hlt item' hmem).ne']
      exact hft item' (mem_cons_of_mem _ hmem))
    refine ⟨v'', ?_, hw, hb.trans hs.below, ?_⟩
    · rw [foldlM_cons, hv']
      exact hrun
    intro k
    rw [hc, OrdMap.lookup]
    split_ifs with hk
    · subst hk
      rw [lookup_eq_none_of_lt hlt, hs.content, Option.elim_none, update_self]
      rfl
    · rw [ho k hk]

/-- A table that fits a view is applied to it. -/
theorem apply_table {items : Table K A D} {v : View K D} (h : v.WellFormed)
    (hft : Fits inserted cached items v.content) :
    ∃ v', items.entries.foldlM f v = .ok v' ∧ v'.WellFormed ∧ v'.stack.tail = v.stack.tail ∧
      v'.content = overlay erased items v.content := by
  obtain ⟨v', hrun, hw, hb, hc⟩ := foldlM_spec hf items.sorted h
    fun item hi => hft item.1 item.2 (mem_entries_iff.mp hi)
  refine ⟨v', hrun, hw, hb, ?_⟩
  funext k
  refine (hc k).trans ?_
  change (items.find? k).elim (v.content k) (seen erased) = overlay erased items v.content k
  cases hi : items.find? k with
  | none => rw [overlay_none hi, Option.elim_none]
  | some item => rw [overlay_some hi, Option.elim_some, seen]

end Apply

theorem rawApply_spec {items : RawStateTable K D} {base : View K D}
    (h : (openView items base).WellFormed) :
    ∃ v', RawStateTable.apply items base = .ok v' ∧ v'.WellFormed ∧
      v'.stack.tail = base.stack.tail ∧ v'.content = (openView items base).content := by
  have hf : ∀ (v : View K D) (item : K × RawAction × SLE D), v.WellFormed →
      FitsAt RawStateTable.isInsert (fun _ => false) v.content item.1 item.2 →
      ∃ v', RawStateTable.applyItem v item = .ok v' ∧
        v.SetsTo item.1 (seen RawStateTable.isErase item.2) v' := by
    rintro v ⟨key, action, sle⟩ hv ⟨hi, -⟩
    cases action with
    | erase => exact rawErase_spec hv sle fun hn => nomatch hi.mpr hn
    | insert => exact rawInsert_spec hv sle (hi.mp rfl)
    | replace => exact rawReplace_spec hv sle fun hn => nomatch hi.mpr hn
  exact apply_table hf h.2 h.1

theorem applyApply_spec {base : View K D} (h : (applyView items base).WellFormed) :
    ∃ v', ApplyStateTable.apply items base = .ok v' ∧ v'.WellFormed ∧
      v'.stack.tail = base.stack.tail ∧ v'.content = (applyView items base).content := by
  have hf : ∀ (v : View K D) (item : K × Action × SLE D), v.WellFormed →
      FitsAt ApplyStateTable.isInsert ApplyStateTable.isCache v.content item.1 item.2 →
      ∃ v', ApplyStateTable.applyItem v item = .ok v' ∧
        v.SetsTo item.1 (seen ApplyStateTable.isErase item.2) v' := by
    rintro v ⟨key, action, sle⟩ hv ⟨hi, hc⟩
    cases action with
    | cache =>
      refine ⟨v, rfl, hv, ?_, rfl⟩
      have hs := hc rfl
      rw [show seen ApplyStateTable.isErase (Action.cache, sle) = some sle.toEntry from rfl, ← hs,
        update_eq_self]
    | erase => exact rawErase_spec hv sle fun hn => nomatch hi.mpr hn
    | insert => exact rawInsert_spec hv sle (hi.mp rfl)
    | modify => exact rawReplace_spec hv sle fun hn => nomatch hi.mpr hn
  exact apply_table hf h.2 h.1

def base : View K D → View K D
  | ledger stateMap => ledger stateMap
  | openView _ base => base
  | applyView _ base => base

def touched : View K D → K → Bool
  | ledger _, _ => true
  | openView items _, k => (items.find? k).isSome
  | applyView items _, k => (items.find? k).isSome

theorem content_of_not_touched (v : View K D) {k : K} (h : v.touched k = false) :
    v.content k = v.base.content k := by
  cases v with
  | ledger stateMap => cases h
  | openView items base | applyView items base => exact overlay_none (by simpa [touched] using h)

end View

def applyOp (ms : List (OrdMap K (Entry D))) (op : Op K D) : List (OrdMap K (Entry D)) :=
  match op, ms with
  | .insert key sle, m :: ms => m.insert key sle.toEntry :: ms
  | .update key sle, m :: ms => m.insert key sle.toEntry :: ms
  | .erase key _, m :: ms => m.erase key :: ms
  | .rawInsert key sle, m :: ms => m.insert key sle.toEntry :: ms
  | .rawReplace key sle, m :: ms => m.insert key sle.toEntry :: ms
  | .rawErase key _, m :: ms => m.erase key :: ms
  | .openView, m :: ms => m :: m :: ms
  | .applyView, m :: ms => m :: m :: ms
  | .apply, m :: _ :: ms => m :: ms
  | .discard, _ :: m :: ms => m :: ms
  | _, ms => ms

/-- What the caller has to see to: the view offers the call, keys are inserted that are absent and
those changed or erased are present. An apply view changes and erases the objects that it holds. -/
def Permitted [Zero K] (v : View K D) : Op K D → Prop
  | .insert key _ => (∃ items base, v = .applyView items base) ∧ v.content key = none
  | .update key sle => ∃ items base, v = .applyView items base ∧ ApplyStateTable.Held items key sle.ref
  | .erase key sle => ∃ items base, v = .applyView items base ∧ ApplyStateTable.Held items key sle.ref
  | .peek k _ => k.key ≠ 0
  | .rawInsert key _ => v.content key = none
  | .rawReplace key _ => v.content key ≠ none
  | .rawErase key _ => v.content key ≠ none
  | _ => True

/-- A stack of views stands for a list of maps. -/
structure Models (v : View K D) (ms : List (OrdMap K (Entry D))) : Prop where
  wellFormed : v.WellFormed
  content : v.stack.map View.content = ms.map OrdMap.find?

variable {m : OrdMap K (Entry D)}

section Step

variable {v' : View K D} {ms : List (OrdMap K (Entry D))}

theorem View.stack_eq (v : View K D) : v.stack = v :: v.stack.tail := by
  cases v <;> rfl

theorem Models.cons (h : Models v ms) : ∃ m ms', ms = m :: ms' ∧ v.content = m.find? ∧
    v.stack.tail.map View.content = ms'.map OrdMap.find? := by
  have hc := h.content
  rw [v.stack_eq] at hc
  cases ms with
  | nil => cases hc
  | cons m ms' =>
    rw [map_cons, map_cons, List.cons.injEq] at hc
    exact ⟨m, ms', rfl, hc.1, hc.2⟩

theorem Models.of_cons {ms' : List (OrdMap K (Entry D))} (hw : v.WellFormed)
    (hm : v.content = m.find?) (hb : v.stack.tail.map View.content = ms'.map OrdMap.find?) :
    Models v (m :: ms') := by
  refine ⟨hw, ?_⟩
  rw [v.stack_eq, map_cons, map_cons, hm, hb]

theorem Models.insert {key : K} {e : Entry D} (h : Models v (m :: ms))
    (hs : v.SetsTo key (some e) v') : Models v' (m.insert key e :: ms) := by
  obtain ⟨_, _, heq, hm, hb⟩ := h.cons
  cases heq
  refine Models.of_cons hs.wellFormed ?_ (hs.below ▸ hb)
  funext k
  rw [hs.content, hm, update_apply, find?_insert]

theorem Models.erase {key : K} (h : Models v (m :: ms)) (hs : v.SetsTo key none v') :
    Models v' (m.erase key :: ms) := by
  obtain ⟨_, _, heq, hm, hb⟩ := h.cons
  cases heq
  refine Models.of_cons hs.wellFormed ?_ (hs.below ▸ hb)
  funext k
  rw [hs.content, hm, update_apply, find?_erase]

theorem Models.base {m : OrdMap K (Entry D)} (h : Models v (m :: ms)) :
    (∃ stateMap, v = .ledger stateMap ∧ ms = []) ∨ Models v.base ms ∧ v.stack.tail = v.base.stack := by
  obtain ⟨_, _, heq, -, hb⟩ := h.cons
  cases heq
  cases v with
  | ledger stateMap => exact .inl ⟨stateMap, rfl, map_eq_nil_iff.mp hb.symm⟩
  | openView items base | applyView items base => exact .inr ⟨⟨h.wellFormed.2, hb⟩, rfl⟩

theorem Models.apply (h : Models v.base ms) (hw : v'.WellFormed)
    (hs : v'.stack.tail = v.base.stack.tail) (hm : v'.content = m.find?) :
    ∃ m' ms', ms = m' :: ms' ∧ Models v' (m :: ms') := by
  obtain ⟨m', ms', rfl, -, hb⟩ := h.cons
  exact ⟨m', ms', rfl, Models.of_cons hw hm (hs ▸ hb)⟩

theorem View.apply_spec [Zero K] (h : v.WellFormed) :
    ∃ v', v.step .apply = .ok v' ∧ v'.WellFormed ∧ v'.stack.tail = v.base.stack.tail ∧
      v'.content = v.content := by
  cases v with
  | ledger stateMap => exact ⟨_, rfl, h, rfl, rfl⟩
  | openView items base => exact View.rawApply_spec h
  | applyView items base => exact View.applyApply_spec h

theorem Models.step [Zero K] (h : Models v ms) {op : Op K D} (hok : Permitted v op) :
    ∃ v', v.step op = .ok v' ∧ Models v' (applyOp ms op) := by
  obtain ⟨m, ms, rfl, hm, hbl⟩ := h.cons
  cases op with
  | insert key sle =>
    obtain ⟨⟨items, base, rfl⟩, hkey⟩ := hok
    obtain ⟨v', hv', hs⟩ := View.applyView_setsTo h.wellFormed.2
      (ApplyStateTable.insert_spec h.wellFormed.1 sle hkey)
    exact ⟨v', hv', h.insert hs⟩
  | update key sle =>
    obtain ⟨items, base, rfl, hh⟩ := hok
    obtain ⟨v', hv', hs⟩ := View.applyView_setsTo h.wellFormed.2
      (ApplyStateTable.update_spec h.wellFormed.1 hh)
    exact ⟨v', hv', h.insert hs⟩
  | erase key sle =>
    obtain ⟨items, base, rfl, hh⟩ := hok
    obtain ⟨v', hv', hs⟩ := View.applyView_setsTo h.wellFormed.2
      (ApplyStateTable.erase_spec h.wellFormed.1 hh)
    exact ⟨v', hv', h.erase hs⟩
  | peek k ref =>
    cases v with
    | ledger stateMap | openView items base => exact ⟨_, rfl, h⟩
    | applyView items base =>
      obtain ⟨hfit, hsm, -⟩ := ApplyStateTable.peek_spec h.wellFormed.1 ref (base.read_eq hok)
      exact ⟨_, rfl, Models.of_cons ⟨hfit, h.wellFormed.2⟩ (hsm.trans hm) hbl⟩
  | rawInsert key sle =>
    obtain ⟨v', hv', hs⟩ := View.rawInsert_spec h.wellFormed sle hok
    exact ⟨v', hv', h.insert hs⟩
  | rawReplace key sle =>
    obtain ⟨v', hv', hs⟩ := View.rawReplace_spec h.wellFormed sle hok
    exact ⟨v', hv', h.insert hs⟩
  | rawErase key sle =>
    obtain ⟨v', hv', hs⟩ := View.rawErase_spec h.wellFormed sle hok
    exact ⟨v', hv', h.erase hs⟩
  | openView | applyView => exact ⟨_, rfl, Models.of_cons ⟨nofun, h.wellFormed⟩ hm h.content⟩
  | apply =>
    obtain ⟨v', hv', hw, hst, hc⟩ := View.apply_spec h.wellFormed
    obtain ⟨stateMap, rfl, rfl⟩ | ⟨hb, -⟩ := h.base
    · exact ⟨_, rfl, h⟩
    · obtain ⟨m', ms', rfl, hmd⟩ := hb.apply hw hst (hc.trans hm)
      exact ⟨v', hv', hmd⟩
  | discard =>
    obtain ⟨stateMap, rfl, rfl⟩ | ⟨hb, -⟩ := h.base
    · exact ⟨_, rfl, h⟩
    · obtain ⟨m', ms', rfl, -⟩ := hb.cons
      refine ⟨v.base, ?_, hb⟩
      cases v <;> rfl

theorem Models.run [Zero K] (h : Models v ms) {os : List (Op K D)}
    (hok : Run.AllowedIn (fun v op => (v.step op).toOption) Permitted v os) :
    ∃ v', os.foldlM View.step v = .ok v' ∧ Models v' (os.foldl applyOp ms) := by
  induction os generalizing v ms with
  | nil => exact ⟨v, rfl, h⟩
  | cons op os ih =>
    obtain ⟨v', hv', h'⟩ := h.step hok.1
    obtain ⟨v'', hrun, h''⟩ := ih h' (hok.2 v' (congrArg Except.toOption hv'))
    refine ⟨v'', ?_, h''⟩
    rw [foldlM_cons, hv']
    exact hrun

end Step

section Shows

variable [Zero K]

/-- No apply view of the stack has a change that is not applied. -/
def View.Settled : View K D → Prop
  | .ledger _ => True
  | .openView _ base => base.Settled
  | .applyView items base => (∀ k item, items.find? k = some item → item.1 = .cache) ∧ base.Settled

/-- A view shows a map: every read gives what the map gives. -/
structure Shows (v : View K D) (m : OrdMap K (Entry D)) : Prop where
  read : ∀ k : Keylet K, k.key ≠ 0 → v.reads.read k = (m.find? k.key).filter k.check
  exists? : ∀ k : Keylet K, (∀ e, m.find? k.key = some e → k.check e) →
    v.reads.exists? k = (m.find? k.key).isSome
  succ : ∀ key last, v.reads.succ key last = some (m.succ key last)
  sles : v.Settled → ∀ start, v.reads.sles start = some (m.entriesFrom start)
  peek : ∀ items base, v = .applyView items base → ∀ (k : Keylet K) (ref : Nat), k.key ≠ 0 →
    (ApplyStateTable.peek items base.reads k ref).1.map SLE.toEntry = (m.find? k.key).filter k.check

theorem View.sles_spec (h : v.WellFormed) (hs : v.Settled) (start : Option K) :
    ∃ l, v.reads.sles start = some l ∧ OrdMap.Sorted l ∧
      ∀ k, OrdMap.lookup k l = if start.all (· < k) then v.content k else none := by
  induction v with
  | ledger stateMap =>
    exact ⟨_, rfl, stateMap.sorted_entriesFrom start, stateMap.lookup_entriesFrom start⟩
  | openView items base ih =>
    obtain ⟨l0, hl0, hsr, hlk⟩ := ih h.2 hs
    have ha : RawStateTable.Aligned l0 (items.entriesFrom start) := by
      refine ⟨hsr, items.sorted_entriesFrom start, ?_⟩
      intro k sle hmem
      obtain ⟨hi, hst⟩ := mem_entriesFrom.mp hmem
      rw [hlk, if_pos hst]
      exact Option.isSome_iff_ne_none.mpr fun hn => nomatch (h.1 k _ hi).1.mpr hn
    obtain ⟨it, hit, hit', hsk, hlen0, hlen1, hm⟩ := RawStateTable.skip_spec ha
    obtain ⟨l, hl, hsr', hlk'⟩ := RawStateTable.collect_spec hit' hsk
      (show _ < l0.length + (items.entriesFrom start).length + 1 by omega)
    refine ⟨l, ?_, hsr', ?_⟩
    · change RawStateTable.sles items base.reads start = some l
      simp only [RawStateTable.sles, hl0, Option.bind_some, hit, hl]
    intro k
    rw [hlk', hm, RawStateTable.merged, items.lookup_entriesFrom, hlk, View.content, overlay]
    by_cases hst : start.all (· < k)
    · rw [if_pos hst, if_pos hst, if_pos hst]
      cases items.find? k <;> rfl
    · rw [if_neg hst, if_neg hst, if_neg hst]
  | applyView items base ih =>
    obtain ⟨l, hl, hsr, hlk⟩ := ih h.2 hs.2
    have hsm : (applyView items base).content = base.content := by
      funext k
      cases hi : items.find? k with
      | none => exact overlay_none hi
      | some item =>
        obtain ⟨action, sle⟩ := item
        have hc : action = .cache := hs.1 k _ hi
        subst hc
        exact (overlay_some hi).trans ((h.1 k _ hi).2 rfl).symm
    rw [hsm]
    exact ⟨l, hl, hsr, hlk⟩

theorem shows_of_content (hw : v.WellFormed) (hm : v.content = m.find?) : Shows v m := by
  refine ⟨?_, ?_, ?_, ?_, ?_⟩
  · intro k hk
    rw [v.read_eq hk, hm]
  · intro k hc
    rw [v.exists?_eq (hm ▸ hc), hm]
  · intro key last
    obtain ⟨r, hr, hsc⟩ := v.isSucc_succ key last
    rw [hm] at hsc
    rw [hr, hsc.unique (m.isSucc_succ key last)]
  · intro hs start
    obtain ⟨l, hl, hsr, hlk⟩ := View.sles_spec hw hs start
    rw [hl, eq_of_lookup_eq hsr (m.sorted_entriesFrom start)]
    intro k
    rw [hlk, m.lookup_entriesFrom, hm]
  · rintro items base rfl k ref hk
    obtain ⟨-, -, hp, -⟩ := ApplyStateTable.peek_spec hw.1 ref (base.read_eq hk)
    rw [hp, ← hm]
    rfl

theorem Models.forall₂_shows {ms : List (OrdMap K (Entry D))} (h : Models v ms) :
    List.Forall₂ Shows v.stack ms := by
  induction v generalizing ms with
  | ledger stateMap =>
    obtain ⟨m, ms, rfl, hm, hb⟩ := h.cons
    cases map_eq_nil_iff.mp hb.symm
    exact .cons (shows_of_content h.wellFormed hm) .nil
  | openView items base ih | applyView items base ih =>
    obtain ⟨m, ms, rfl, hm, hb⟩ := h.cons
    exact .cons (shows_of_content h.wellFormed hm) (ih ⟨h.wellFormed.2, hb⟩)

end Shows

/-- Every stack of views shows the maps that the calls make of the ledger, if the calls are permitted
ones, and no call ends in a logic error. A view that is applied makes its parent show what it showed,
and a key it does not touch is shown as before. -/
theorem layers_transparent [Zero K] (m : OrdMap K (Entry D)) (os : List (Op K D))
    (hok : Run.AllowedIn (fun v op => (v.step op).toOption) Permitted (.ledger m) os) :
    ∃ v, os.foldlM View.step (.ledger m) = .ok v ∧
      List.Forall₂ Shows v.stack (os.foldl applyOp [m]) ∧
      ∃ v', v.step .apply = .ok v' ∧ v'.content = v.content ∧
        ∀ k, v.touched k = false → v'.content k = v.base.content k := by
  have hledger : Models (.ledger m) [m] := ⟨trivial, rfl⟩
  obtain ⟨v, hrun, hmodels⟩ := hledger.run hok
  obtain ⟨v', hv', -, -, hcontent⟩ := View.apply_spec hmodels.wellFormed
  refine ⟨v, hrun, hmodels.forall₂_shows, v', hv', hcontent, ?_⟩
  intro k hk
  rw [hcontent, v.content_of_not_touched hk]

section Examples

def oneOffer : OrdMap Nat (Entry Nat) := OrdMap.empty.insert 1 ⟨.offer, 10⟩

def changedOffer (ref : Nat) : SLE Nat := ⟨⟨.offer, 20⟩, ref⟩

/-- The offer is changed in one view and erased in the one above, which is then applied. -/
theorem transparent_changed_offer :
    ∃ v, [Op.applyView, .peek ⟨.offer, 1⟩ 7, .update 1 (changedOffer 7), .insert 2 (changedOffer 8),
        .openView, .rawErase 1 (changedOffer 7), .apply].foldlM View.step (.ledger oneOffer) = .ok v ∧
      List.Forall₂ Shows v.stack [(oneOffer.insert 1 ⟨.offer, 20⟩).insert 2 ⟨.offer, 20⟩ |>.erase 1,
        oneOffer] := by
  have hok : Run.AllowedIn (fun v op => (v.step op).toOption) Permitted (.ledger oneOffer)
      [Op.applyView, .peek ⟨.offer, 1⟩ 7, .update 1 (changedOffer 7), .insert 2 (changedOffer 8),
        .openView, .rawErase 1 (changedOffer 7), .apply] := by
    refine ⟨trivial, fun v hv => ?_⟩
    cases hv
    refine ⟨Nat.one_ne_zero, fun v hv => ?_⟩
    cases hv
    refine ⟨⟨_, _, rfl, .cache, ⟨⟨.offer, 10⟩, 7⟩, rfl, nofun, rfl⟩, fun v hv => ?_⟩
    cases hv
    refine ⟨⟨⟨_, _, rfl⟩, rfl⟩, fun v hv => ?_⟩
    cases hv
    refine ⟨trivial, fun v hv => ?_⟩
    cases hv
    refine ⟨nofun, fun v hv => ?_⟩
    cases hv
    exact ⟨trivial, fun v hv => trivial⟩
  obtain ⟨v, hrun, hshows, -⟩ := layers_transparent oneOffer _ hok
  exact ⟨v, hrun, hshows⟩

/-- A walk passes by what an apply view below holds. Whether an entry of another type exists depends
on which view knows the entry. An object that was looked up is not the one the view holds any more
when a view above has changed the entry and was applied. -/
theorem not_transparent :
    ([Op.applyView, .insert 2 (changedOffer 8), .openView].foldlM View.step (.ledger oneOffer)).map
        (fun v => (v.content 2, v.reads.sles none)) =
      .ok (some ⟨.offer, 20⟩, some [(1, ⟨.offer, 10⟩)]) ∧
    (View.ledger oneOffer).reads.exists? ⟨.accountRoot, 1⟩ ∧
    ([Op.applyView, .peek ⟨.offer, 1⟩ 7].foldlM View.step (.ledger oneOffer)).map
        (fun v => (v.content 1, v.reads.exists? ⟨.accountRoot, 1⟩)) =
      .ok (some ⟨.offer, 10⟩, false) ∧
    [Op.applyView, .peek ⟨.offer, 1⟩ 7, .applyView, .peek ⟨.offer, 1⟩ 8, .update 1 (changedOffer 8),
        .apply, .update 1 (changedOffer 7)].foldlM View.step (.ledger oneOffer) =
      .error "ApplyStateTable::update: unknown SLE" :=
  ⟨rfl, rfl, rfl, rfl⟩

end Examples

end Rippled.Views
