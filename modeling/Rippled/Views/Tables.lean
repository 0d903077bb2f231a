import Rippled.Lib.Succ

namespace Rippled.Views

open Lib

inductive LedgerEntryType
  | any
  | child
  | invalid
  | accountRoot
  | dirNode
  | rippleState
  | ticket
  | signerList
  | offer
  | ledgerHashes
  | amendments
  | feeSettings
  | escrow
  | payChan
  | check
  | depositPreauth
  | negativeUNL
  | nickname
  | notUsed01
deriving DecidableEq

structure Entry (D : Type) where
  type : LedgerEntryType
  data : D
deriving DecidableEq

/-- An entry in memory. Tables hold pointers to these, so each object has an identity. -/
structure SLE (D : Type) extends Entry D where
  ref : Nat

structure Keylet (K : Type) where
  type : LedgerEntryType
  key : K

variable {K D A : Type}

def Keylet.check (k : Keylet K) (sle : Entry D) : Bool :=
  match k.type with
  | .any => true
  | .invalid => false
  | .child => sle.type ≠ .dirNode
  | type => sle.type = type

/-- The reads a view offers. A search that does not end has no result, and neither has a walk over
the entries that runs off its end. -/
structure ReadView (K D : Type) where
  exists? : Keylet K → Bool
  read : Keylet K → Option (Entry D)
  succ : K → Option K → Option (Option K)
  sles : Option K → Option (List (K × Entry D))

variable [LinearOrder K]

section Table

/-- Changes on top of a view. The key an entry is filed under is the key of the entry. -/
abbrev Table (K A D : Type) [LinearOrder K] := OrdMap K (A × SLE D)

variable (erased : A → Bool) (items : Table K A D) (base : ReadView K D)

def Table.exists? (k : Keylet K) : Bool :=
  match items.find? k.key with
  | none => base.exists? k
  | some (action, sle) => if erased action then false else k.check sle.toEntry

def Table.read (k : Keylet K) : Option (Entry D) :=
  match items.find? k.key with
  | none => base.read k
  | some (action, sle) =>
    if erased action then none else if k.check sle.toEntry then some sle.toEntry else none

def Table.skipErased (last : Option K) : Nat → K → Option (Option K)
  | 0, _ => none
  | fuel + 1, key =>
    (base.succ key last).bind fun next =>
      match next with
      | none => some none
      | some next =>
        if (items.find? next).any fun item => erased item.1 then
          Table.skipErased last fuel next
        else some (some next)

def Table.succ (key : K) (last : Option K) : Option (Option K) :=
  (Table.skipErased erased items base last (items.entries.length + 1) key).map fun next =>
    let own := ((items.upperBound key).find? fun item => !erased item.2.1).map Prod.fst
    cut last (lower next own)

end Table

section RawStateTable

inductive RawAction
  | erase
  | insert
  | replace
deriving DecidableEq

abbrev RawStateTable (K D : Type) [LinearOrder K] := Table K RawAction D

namespace RawStateTable

def isErase : RawAction → Bool
  | .erase => true
  | _ => false

def erase (items : RawStateTable K D) (key : K) (sle : SLE D) : Except String (RawStateTable K D) :=
  match items.find? key with
  | none => .ok (items.insert key (.erase, sle))
  | some (.erase, _) => .error "RawStateTable::erase: already erased"
  | some (.insert, _) => .ok (OrdMap.erase items key)
  | some (.replace, _) => .ok (items.insert key (.erase, sle))

def insert (items : RawStateTable K D) (key : K) (sle : SLE D) :
    Except String (RawStateTable K D) :=
  match items.find? key with
  | none => .ok (OrdMap.insert items key (.insert, sle))
  | some (.erase, _) => .ok (OrdMap.insert items key (.replace, sle))
  | some (.insert, _) => .error "RawStateTable::insert: already inserted"
  | some (.replace, _) => .error "RawStateTable::insert: already exists"

def replace (items : RawStateTable K D) (key : K) (sle : SLE D) :
    Except String (RawStateTable K D) :=
  match items.find? key with
  | none => .ok (OrdMap.insert items key (.replace, sle))
  | some (.erase, _) => .error "RawStateTable::replace: was erased"
  | some (.insert, _) => .ok (OrdMap.insert items key (.insert, sle))
  | some (.replace, _) => .ok (OrdMap.insert items key (.replace, sle))

/-- A walk over the entries of the base and the items of the table at the same time. -/
structure SlesIter (K D : Type) where
  iter0 : List (K × Entry D)
  iter1 : List (K × RawAction × SLE D)

def skip (iter0 : List (K × Entry D)) : List (K × RawAction × SLE D) → Option (SlesIter K D)
  | (k1, .erase, sle1) :: rest1 =>
    match iter0 with
    | [] => none
    | (k0, e0) :: rest0 =>
      if k0 = k1 then
        if rest0.isEmpty then some ⟨rest0, rest1⟩ else skip rest0 rest1
      else some ⟨(k0, e0) :: rest0, (k1, .erase, sle1) :: rest1⟩
  | iter1 => some ⟨iter0, iter1⟩

def SlesIter.increment (it : SlesIter K D) : Option (SlesIter K D) :=
  match it.iter0, it.iter1 with
  | [], [] => none
  | [], _ :: rest1 => some ⟨[], rest1⟩
  | _ :: rest0, [] => some ⟨rest0, []⟩
  | (k0, _) :: rest0, (k1, _) :: rest1 =>
    if k1 = k0 then skip rest0 rest1
    else if k1 < k0 then skip it.iter0 rest1
    else skip rest0 it.iter1

def SlesIter.dereference (it : SlesIter K D) : Option (K × Entry D) :=
  match it.iter0, it.iter1 with
  | [], [] => none
  | e0 :: _, [] => some e0
  | [], (k1, _, sle1) :: _ => some (k1, sle1.toEntry)
  | (k0, e0) :: _, (k1, _, sle1) :: _ => if k1 ≤ k0 then some (k1, sle1.toEntry) else some (k0, e0)

def SlesIter.collect : Nat → SlesIter K D → Option (List (K × Entry D))
  | 0, _ => none
  | fuel + 1, it =>
    if it.iter0.isEmpty ∧ it.iter1.isEmpty then some []
    else
      it.dereference.bind fun e => it.increment.bind fun next => (collect fuel next).map (e :: ·)

/-- The entries from the beginning or from the upper bound of a key. -/
def sles (items : RawStateTable K D) (base : ReadView K D) (start : Option K) :
    Option (List (K × Entry D)) :=
  (base.sles start).bind fun iter0 =>
    let iter1 := items.entriesFrom start
    (skip iter0 iter1).bind (SlesIter.collect (iter0.length + iter1.length + 1))

end RawStateTable

end RawStateTable

section ApplyStateTable

inductive Action
  | cache
  | erase
  | insert
  | modify
deriving DecidableEq

abbrev ApplyStateTable (K D : Type) [LinearOrder K] := Table K Action D

namespace ApplyStateTable

def isErase : Action → Bool
  | .erase => true
  | _ => false

/-- The object for a key, which is copied from the base at the first call. -/
def peek (items : ApplyStateTable K D) (base : ReadView K D) (k : Keylet K) (ref : Nat) :
    Option (SLE D) × ApplyStateTable K D :=
  match items.find? k.key with
  | none =>
    match base.read k with
    | none => (none, items)
    | some e =>
      let sle : SLE D := ⟨e, ref⟩
      (some sle, OrdMap.insert items k.key (.cache, sle))
  | some (.erase, _) => (none, items)
  | some (_, sle) => (if k.check sle.toEntry then some sle else none, items)

def erase (items : ApplyStateTable K D) (key : K) (sle : SLE D) :
    Except String (ApplyStateTable K D) :=
  match items.find? key with
  | none => .error "ApplyStateTable::erase: missing key"
  | some (action, item) =>
    if item.ref ≠ sle.ref then .error "ApplyStateTable::erase: unknown SLE"
    else
      match action with
      | .erase => .error "ApplyStateTable::erase: double erase"
      | .insert => .ok (OrdMap.erase items key)
      | .cache | .modify => .ok (OrdMap.insert items key (.erase, sle))

def rawErase (items : ApplyStateTable K D) (key : K) (sle : SLE D) :
    Except String (ApplyStateTable K D) :=
  match items.find? key with
  | none => .ok (OrdMap.insert items key (.erase, sle))
  | some (.erase, _) => .error "ApplyStateTable::rawErase: double erase"
  | some (.insert, _) => .ok (OrdMap.erase items key)
  | some (.cache, _) | some (.modify, _) => .ok (OrdMap.insert items key (.erase, sle))

def insert (items : ApplyStateTable K D) (key : K) (sle : SLE D) :
    Except String (ApplyStateTable K D) :=
  match items.find? key with
  | none => .ok (OrdMap.insert items key (.insert, sle))
  | some (.cache, _) => .error "ApplyStateTable::insert: already cached"
  | some (.insert, _) => .error "ApplyStateTable::insert: already inserted"
  | some (.modify, _) => .error "ApplyStateTable::insert: already modified"
  | some (.erase, _) => .ok (OrdMap.insert items key (.modify, sle))

def replace (items : ApplyStateTable K D) (key : K) (sle : SLE D) :
    Except String (ApplyStateTable K D) :=
  match items.find? key with
  | none => .ok (OrdMap.insert items key (.modify, sle))
  | some (.erase, _) => .error "ApplyStateTable::replace: already erased"
  | some (.cache, _) => .ok (OrdMap.insert items key (.modify, sle))
  | some (action, _) => .ok (OrdMap.insert items key (action, sle))

/-- The object is the one in the table, so the table holds what was written to it. -/
def update (items : ApplyStateTable K D) (key : K) (sle : SLE D) :
    Except String (ApplyStateTable K D) :=
  match items.find? key with
  | none => .error "ApplyStateTable::update: missing key"
  | some (action, item) =>
    if item.ref ≠ sle.ref then .error "ApplyStateTable::update: unknown SLE"
    else
      match action with
      | .erase => .error "ApplyStateTable::update: erased"
      | .cache => .ok (OrdMap.insert items key (.modify, sle))
      | .insert | .modify => .ok (OrdMap.insert items key (action, sle))

end ApplyStateTable

end ApplyStateTable

inductive View (K D : Type) [LinearOrder K]
  | ledger (stateMap : OrdMap K (Entry D))
  | openView (items : RawStateTable K D) (base : View K D)
  | applyView (items : ApplyStateTable K D) (base : View K D)

namespace View

/-- An apply view has no walk of its own and gives that of its base. -/
def reads [Zero K] : View K D → ReadView K D
  | ledger stateMap =>
    { exists? := fun k => (stateMap.find? k.key).isSome
      read := fun k => if k.key = 0 then none else (stateMap.find? k.key).filter k.check
      succ := fun key last => some (stateMap.succ key last)
      sles := fun start => some (stateMap.entriesFrom start) }
  | openView items base =>
    { exists? := Table.exists? RawStateTable.isErase items base.reads
      read := Table.read RawStateTable.isErase items base.reads
      succ := Table.succ RawStateTable.isErase items base.reads
      sles := RawStateTable.sles items base.reads }
  | applyView items base =>
    { exists? := Table.exists? ApplyStateTable.isErase items base.reads
      read := Table.read ApplyStateTable.isErase items base.reads
      succ := Table.succ ApplyStateTable.isErase items base.reads
      sles := base.reads.sles }

def rawErase (key : K) (sle : SLE D) : View K D → Except String (View K D)
  | ledger stateMap =>
    match stateMap.find? key with
    | none => .error "Ledger::rawErase: key not found"
    | some _ => .ok (ledger (stateMap.erase key))
  | openView items base => (RawStateTable.erase items key sle).map (openView · base)
  | applyView items base => (ApplyStateTable.rawErase items key sle).map (applyView · base)

def rawInsert (key : K) (sle : SLE D) : View K D → Except String (View K D)
  | ledger stateMap =>
    match stateMap.find? key with
    | none => .ok (ledger (stateMap.insert key sle.toEntry))
    | some _ => .error "Ledger::rawInsert: key already exists"
  | openView items base => (RawStateTable.insert items key sle).map (openView · base)
  | applyView items base => (ApplyStateTable.insert items key sle).map (applyView · base)

def rawReplace (key : K) (sle : SLE D) : View K D → Except String (View K D)
  | ledger stateMap =>
    match stateMap.find? key with
    | none => .error "Ledger::rawReplace: key not found"
    | some _ => .ok (ledger (stateMap.insert key sle.toEntry))
  | openView items base => (RawStateTable.replace items key sle).map (openView · base)
  | applyView items base => (ApplyStateTable.replace items key sle).map (applyView · base)

end View

def RawStateTable.applyItem (target : View K D) (item : K × RawAction × SLE D) :
    Except String (View K D) :=
  match item.2.1 with
  | .erase => target.rawErase item.1 item.2.2
  | .insert => target.rawInsert item.1 item.2.2
  | .replace => target.rawReplace item.1 item.2.2

def RawStateTable.apply (items : RawStateTable K D) (target : View K D) :
    Except String (View K D) :=
  items.entries.foldlM RawStateTable.applyItem target

def ApplyStateTable.applyItem (target : View K D) (item : K × Action × SLE D) :
    Except String (View K D) :=
  match item.2.1 with
  | .cache => .ok target
  | .erase => target.rawErase item.1 item.2.2
  | .insert => target.rawInsert item.1 item.2.2
  | .modify => target.rawReplace item.1 item.2.2

def ApplyStateTable.apply (items : ApplyStateTable K D) (target : View K D) :
    Except String (View K D) :=
  items.entries.foldlM ApplyStateTable.applyItem target

inductive Op (K D : Type)
  | insert (key : K) (sle : SLE D)
  | update (key : K) (sle : SLE D)
  | erase (key : K) (sle : SLE D)
  | peek (k : Keylet K) (ref : Nat)
  | rawInsert (key : K) (sle : SLE D)
  | rawReplace (key : K) (sle : SLE D)
  | rawErase (key : K) (sle : SLE D)
  | openView
  | applyView
  | apply
  | discard

/-- What a call does. A call that the view does not offer does nothing. -/
def View.step [Zero K] (v : View K D) : Op K D → Except String (View K D)
  | .insert key sle =>
    match v with
    | .applyView items base => (ApplyStateTable.insert items key sle).map (View.applyView · base)
    | v => .ok v
  | .update key sle =>
    match v with
    | .applyView items base => (ApplyStateTable.update items key sle).map (View.applyView · base)
    | v => .ok v
  | .erase key sle =>
    match v with
    | .applyView items base => (ApplyStateTable.erase items key sle).map (View.applyView · base)
    | v => .ok v
  | .peek k ref =>
    match v with
    | .applyView items base => .ok (.applyView (ApplyStateTable.peek items base.reads k ref).2 base)
    | v => .ok v
  | .rawInsert key sle => v.rawInsert key sle
  | .rawReplace key sle => v.rawReplace key sle
  | .rawErase key sle => v.rawErase key sle
  | .openView => .ok (.openView OrdMap.empty v)
  | .applyView => .ok (.applyView OrdMap.empty v)
  | .apply =>
    match v with
    | .ledger stateMap => .ok (.ledger stateMap)
    | .openView items base => RawStateTable.apply items base
    | .applyView items base => ApplyStateTable.apply items base
  | .discard =>
    match v with
    | .ledger stateMap => .ok (.ledger stateMap)
    | .openView _ base => .ok base
    | .applyView _ base => .ok base

def overlay (erased : A → Bool) (items : Table K A D) (base : K → Option (Entry D)) (key : K) :
    Option (Entry D) :=
  match items.find? key with
  | none => base key
  | some (action, sle) => if erased action then none else some sle.toEntry

def View.content : View K D → K → Option (Entry D)
  | ledger stateMap => stateMap.find?
  | openView items base => overlay RawStateTable.isErase items base.content
  | applyView items base => overlay ApplyStateTable.isErase items base.content

section Table

variable {erased : A → Bool} {items : Table K A D} {base : ReadView K D}
  {content : K → Option (Entry D)} {key : K}

theorem overlay_none (h : items.find? key = none) :
    overlay erased items content key = content key := by
  rw [overlay, h]

theorem overlay_some {action : A} {sle : SLE D} (h : items.find? key = some (action, sle)) :
    overlay erased items content key = if erased action then none else some sle.toEntry := by
  rw [overlay, h]

theorem Table.read_eq {k : Keylet K} (h : base.read k = (content k.key).filter k.check) :
    Table.read erased items base k = (overlay erased items content k.key).filter k.check := by
  rw [Table.read]
  cases hi : items.find? k.key with
  | none => rw [overlay_none hi, h]
  | some item =>
    obtain ⟨action, sle⟩ := item
    rw [overlay_some hi]
    dsimp only
    cases erased action with
    | true => rfl
    | false => simp [Option.filter]

theorem Table.exists?_eq {k : Keylet K} (hc : ∀ e, overlay erased items content k.key = some e →
      k.check e) (h : (∀ e, content k.key = some e → k.check e) → base.exists? k =
      (content k.key).isSome) :
    Table.exists? erased items base k = (overlay erased items content k.key).isSome := by
  rw [Table.exists?]
  cases hi : items.find? k.key with
  | none =>
    rw [overlay_none hi] at hc ⊢
    exact h hc
  | some item =>
    obtain ⟨action, sle⟩ := item
    rw [overlay_some hi] at hc ⊢
    dsimp only
    cases he : erased action with
    | true => rfl
    | false =>
      rw [he] at hc
      exact hc sle.toEntry rfl

theorem length_upperBound_lt {next : K} {item : A × SLE D} (hlt : key < next)
    (hi : items.find? next = some item) :
    (items.upperBound next).length < (items.upperBound key).length := by
  have hf : items.upperBound next = (items.upperBound key).filter fun e => next < e.1 := by
    rw [OrdMap.upperBound, OrdMap.upperBound, List.filter_filter]
    apply List.filter_congr
    intro e he
    by_cases hn : next < e.1
    · simp [hn, hlt.trans hn]
    · simp [hn]
  rw [hf, List.length_filter_lt_length_iff_exists]
  exact ⟨(next, item), OrdMap.mem_upperBound.mpr ⟨hi, hlt⟩, by simp⟩

variable (erased) in
/-- The search in the base ends, since each key it passes by is an item of the table. -/
theorem Table.isSucc_skipErased (h : ∀ key last, ∃ r, base.succ key last = some r ∧
      IsSucc (fun k => (content k).isSome) key last r)
    (last : Option K) {fuel : Nat} {key : K} (hf : (items.upperBound key).length < fuel) :
    ∃ r, Table.skipErased erased items base last fuel key = some r ∧
      IsSucc (fun k => (content k).isSome ∧
        ¬((items.find? k).any fun item => erased item.1)) key last r := by
  induction fuel generalizing key with
  | zero => exact absurd hf (Nat.not_lt_zero _)
  | succ fuel ih =>
    obtain ⟨r, hr, hs⟩ := h key last
    rw [Table.skipErased, hr, Option.bind_some]
    cases r with
    | none => exact ⟨none, rfl, nofun, fun _ k hk => hs.empty rfl k hk.1⟩
    | some next =>
      obtain ⟨hn, hlt, hw, hle⟩ := hs.least next rfl
      dsimp only
      split_ifs with he
      · cases hi : items.find? next with
        | none =>
          rw [hi] at he
          cases he
        | some item =>
          have hsh := length_upperBound_lt hlt hi
          obtain ⟨r, hr, hs'⟩ := ih (show (items.upperBound next).length < fuel by omega)
          refine ⟨r, hr, ?_, ?_⟩
          · intro k hk
            obtain ⟨hk, hlt', hw', hle'⟩ := hs'.least k hk
            refine ⟨hk, hlt.trans hlt', hw', ?_⟩
            intro k' hk' hkey
            obtain heq | hgt := (hle k' hk'.1 hkey).eq_or_lt
            · subst heq
              exact absurd he hk'.2
            · exact hle' k' hk' hgt
          · intro hnn k hk hkey
            obtain heq | hgt := (hle k hk.1 hkey).eq_or_lt
            · subst heq
              exact absurd he hk.2
            · exact hs'.empty hnn k hk hgt
      · refine ⟨some next, rfl, ?_, nofun⟩
        intro k hk
        cases hk
        exact ⟨⟨hn, he⟩, hlt, hw, fun k' hk' => hle k' hk'.1⟩

theorem Table.isSucc_succ (h : ∀ key last, ∃ r, base.succ key last = some r ∧
      IsSucc (fun k => (content k).isSome) key last r) (key : K) (last : Option K) :
    ∃ r, Table.succ erased items base key last = some r ∧
      IsSucc (fun k => (overlay erased items content k).isSome) key last r := by
  have hf : (items.upperBound key).length < items.entries.length + 1 :=
    Nat.lt_succ_of_le (List.length_filter_le _ _)
  obtain ⟨next, hn, hs⟩ := Table.isSucc_skipErased erased h last hf
  rw [Table.succ, hn, Option.map_some]
  refine ⟨_, rfl, ?_⟩
  refine (hs.cut_lower (items.isSucc_find? key fun item => !erased item.2.1)).congr ?_
  intro k hk
  cases hi : items.find? k with
  | none => simp [overlay_none hi]
  | some item =>
    obtain ⟨action, sle⟩ := item
    rw [overlay_some hi]
    cases he : erased action with
    | true => simp [he]
    | false => simp [he]

end Table

namespace View

variable [Zero K] (v : View K D)

theorem read_eq {k : Keylet K} (hk : k.key ≠ 0) :
    v.reads.read k = (v.content k.key).filter k.check := by
  induction v with
  | ledger stateMap => exact if_neg hk
  | openView items base ih | applyView items base ih => exact Table.read_eq ih

theorem exists?_eq {k : Keylet K} (hc : ∀ e, v.content k.key = some e → k.check e) :
    v.reads.exists? k = (v.content k.key).isSome := by
  induction v with
  | ledger stateMap => rfl
  | openView items base ih | applyView items base ih => exact Table.exists?_eq hc ih

theorem isSucc_succ (key : K) (last : Option K) : ∃ r, v.reads.succ key last = some r ∧
      IsSucc (fun k => (v.content k).isSome) key last r := by
  induction v generalizing key last with
  | ledger stateMap => exact ⟨_, rfl, stateMap.isSucc_succ key last⟩
  | openView items base ih | applyView items base ih => exact Table.isSucc_succ ih key last

end View

end Rippled.Views
