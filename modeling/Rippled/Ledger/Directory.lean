import Rippled.Lib.OrdMap
import Rippled.Lib.Ring

namespace Rippled.Directory

open Lib

def dirNodeMaxEntries : Nat := 32

def dirNodeMaxPages : Nat := 262144

def rootPage : Nat := 0

structure Page (K : Type) where
  indexes : List K
  indexNext : Nat := 0
  indexPrevious : Nat := 0
deriving DecidableEq

abbrev Pages (K : Type) := OrdMap Nat (Page K)

variable {K : Type}

namespace Page

def setIndexes (indexes : List K) (p : Page K) : Page K := { p with indexes }

def setIndexNext (n : Nat) (p : Page K) : Page K := { p with indexNext := n }

def setIndexPrevious (n : Nat) (p : Page K) : Page K := { p with indexPrevious := n }

@[simp] theorem indexNext_setIndexes (indexes : List K) (p : Page K) :
    (p.setIndexes indexes).indexNext = p.indexNext := rfl

@[simp] theorem indexPrevious_setIndexes (indexes : List K) (p : Page K) :
    (p.setIndexes indexes).indexPrevious = p.indexPrevious := rfl

end Page

variable [LinearOrder K]

def addIndex (preserveOrder : Bool) (indexes : List K) (key : K) : Except String (List K) :=
  if preserveOrder then
    if key ∈ indexes then .error "dirInsert: double insertion" else .ok (indexes ++ [key])
  else
    let sorted := indexes.insertionSort (· ≤ ·)
    let pos := sorted.dropWhile (· < key)
    if pos.head? = some key then .error "dirInsert: double insertion"
    else .ok (sorted.takeWhile (· < key) ++ key :: pos)

/-- Add a key to the last page, or to a new page behind it. Gives the number of the page, or nothing
if the directory is full. -/
def dirAdd (preserveOrder : Bool) (pages : Pages K) (key : K) :
    Except String (Option Nat × Pages K) :=
  match pages.find? rootPage with
  | none => .ok (some 0, pages.insert rootPage { indexes := [key] })
  | some root =>
    let page := root.indexPrevious
    match pages.find? page with
    | none => .error "Directory chain: root back-pointer broken."
    | some node =>
      if node.indexes.length < dirNodeMaxEntries then
        (addIndex preserveOrder node.indexes key).map fun indexes =>
          (some page, pages.modify page (Page.setIndexes indexes))
      else if page + 1 ≥ dirNodeMaxPages then .ok (none, pages)
      else
        let pages := pages.modify page (Page.setIndexNext (page + 1))
        let pages := pages.modify rootPage (Page.setIndexPrevious (page + 1))
        .ok (some (page + 1), pages.insert (page + 1)
          { indexes := [key], indexPrevious := if page + 1 ≠ 1 then page else 0 })

def eraseRoot (keepRoot : Bool) (prevPage nextPage : Nat) (pages : Pages K) : Bool × Pages K :=
  if keepRoot then (true, pages)
  else if nextPage = rootPage ∧ prevPage = rootPage then (true, OrdMap.erase pages rootPage)
  else (true, pages)

/-- The root has become empty. It stays as long as there are other pages with entries. -/
def removeRoot (keepRoot : Bool) (prevPage nextPage : Nat) (pages : Pages K) :
    Except String (Bool × Pages K) :=
  if nextPage = rootPage ∧ prevPage ≠ rootPage then .error "Directory chain: fwd link broken"
  else if prevPage = rootPage ∧ nextPage ≠ rootPage then .error "Directory chain: rev link broken"
  else if nextPage = prevPage ∧ nextPage ≠ rootPage then
    match pages.find? nextPage with
    | none => .error "Directory chain: fwd link broken."
    | some last =>
      if last.indexes.isEmpty then
        let pages := pages.modify rootPage (Page.setIndexNext rootPage)
        let pages := pages.modify rootPage (Page.setIndexPrevious rootPage)
        .ok (eraseRoot keepRoot rootPage rootPage (OrdMap.erase pages nextPage))
      else .ok (eraseRoot keepRoot prevPage nextPage pages)
  else .ok (eraseRoot keepRoot prevPage nextPage pages)

/-- Erase the page before the one removed if that leaves an empty root. -/
def eraseEmptyRoot (keepRoot : Bool) (prevPage nextPage : Nat) (pages : Pages K) : Bool × Pages K :=
  if !keepRoot ∧ nextPage = rootPage ∧ prevPage = rootPage then
    if (pages.find? prevPage).any fun prev => prev.indexes.isEmpty then
      (true, OrdMap.erase pages prevPage)
    else (true, pages)
  else (true, pages)

/-- Unlink and erase an empty page other than the root. An empty last page behind it goes as well. -/
def removePage (keepRoot : Bool) (page prevPage nextPage : Nat) (pages : Pages K) :
    Except String (Bool × Pages K) :=
  if nextPage = page then .error "Directory chain: fwd link broken"
  else if prevPage = page then .error "Directory chain: rev link broken"
  else if (pages.find? prevPage).isNone then .error "Directory chain: fwd link broken."
  else
    let pages := pages.modify prevPage (Page.setIndexNext nextPage)
    if (pages.find? nextPage).isNone then .error "Directory chain: rev link broken."
    else
      let pages := pages.modify nextPage (Page.setIndexPrevious prevPage)
      let pages := OrdMap.erase pages page
      if nextPage ≠ rootPage ∧
          (pages.find? nextPage).any fun next => next.indexNext = rootPage ∧ next.indexes.isEmpty then
        let pages := OrdMap.erase pages nextPage
        let pages := pages.modify prevPage (Page.setIndexNext rootPage)
        if (pages.find? rootPage).isNone then .error "Directory chain: root link broken."
        else
          let pages := pages.modify rootPage (Page.setIndexPrevious prevPage)
          .ok (eraseEmptyRoot keepRoot prevPage rootPage pages)
      else .ok (eraseEmptyRoot keepRoot prevPage nextPage pages)

def dirRemove (pages : Pages K) (page : Nat) (key : K) (keepRoot : Bool) :
    Except String (Bool × Pages K) :=
  match pages.find? page with
  | none => .ok (false, pages)
  | some node =>
    if key ∉ node.indexes then .ok (false, pages)
    else
      let entries := node.indexes.erase key
      let pages := pages.modify page (Page.setIndexes entries)
      if !entries.isEmpty then .ok (true, pages)
      else if page = rootPage then removeRoot keepRoot node.indexPrevious node.indexNext pages
      else removePage keepRoot page node.indexPrevious node.indexNext pages

structure Cursor (K : Type) where
  node : Page K
  entry : Nat

/-- Advance to the next entry. The call does not return if it finds no end within the fuel. -/
def dirNext (pages : Pages K) : Nat → Cursor K → Option (Option (K × Cursor K))
  | 0, _ => none
  | fuel + 1, c =>
    match c.node.indexes[c.entry]? with
    | some key => some (some (key, { c with entry := c.entry + 1 }))
    | none =>
      if c.node.indexNext = 0 then some none
      else
        match pages.find? c.node.indexNext with
        | none => some none
        | some next => dirNext pages fuel { node := next, entry := 0 }

def dirFirst (pages : Pages K) (fuel : Nat) : Option (Option (K × Cursor K)) :=
  (pages.find? rootPage).bind fun root => dirNext pages fuel { node := root, entry := 0 }

def visited (pages : Pages K) : Nat → Option (Option (K × Cursor K)) → Option (List K)
  | 0, _ => none
  | _ + 1, none => none
  | _ + 1, some none => some []
  | fuel + 1, some (some (key, c)) =>
    (visited pages fuel (dirNext pages fuel c)).map fun keys => key :: keys

/-- A directory with its live keys in the order they were added, each with the page number that was
returned for it. -/
structure State (K : Type) where
  pages : Pages K
  live : List (K × Nat)

inductive Op (K : Type)
  | dirAppend (key : K)
  | dirInsert (key : K)
  | dirRemove (key : K) (keepRoot : Bool)

namespace State

def empty : State K where
  pages := OrdMap.empty
  live := []

def add (s : State K) (preserveOrder : Bool) (key : K) : Except String (State K) :=
  (dirAdd preserveOrder s.pages key).map fun r =>
    { pages := r.2, live := s.live ++ r.1.toList.map fun page => (key, page) }

def remove (s : State K) (key : K) (keepRoot : Bool) : Except String (State K) :=
  match s.live.find? fun e => e.1 = key with
  | none => .ok s
  | some e =>
    (Directory.dirRemove s.pages e.2 key keepRoot).map fun r =>
      { pages := r.2, live := if r.1 then s.live.erase e else s.live }

def step (s : State K) : Op K → Except String (State K)
  | .dirAppend key => s.add true key
  | .dirInsert key => s.add false key
  | .dirRemove key keepRoot => s.remove key keepRoot

def Proper (s : State K) : Op K → Prop
  | .dirAppend key => key ∉ s.live.map Prod.fst
  | .dirInsert key => key ∉ s.live.map Prod.fst
  | .dirRemove key _ => key ∈ s.live.map Prod.fst

instance (s : State K) : (op : Op K) → Decidable (s.Proper op)
  | .dirAppend key => inferInstanceAs (Decidable (key ∉ s.live.map Prod.fst))
  | .dirInsert key => inferInstanceAs (Decidable (key ∉ s.live.map Prod.fst))
  | .dirRemove key _ => inferInstanceAs (Decidable (key ∈ s.live.map Prod.fst))

end State

open List Option OrdMap

variable {K : Type}

section

variable (pages : Pages K)

def nextOf (n : Nat) : Nat := ((pages.find? n).map Page.indexNext).getD 0

def prevOf (n : Nat) : Nat := ((pages.find? n).map Page.indexPrevious).getD 0

def contents (n : Nat) : Option (List K) := (pages.find? n).map Page.indexes

def placed : List (K × Nat) :=
  pages.entries.flatMap fun e => e.2.indexes.map fun k => (k, e.1)

/-- The pages form one ring through the root, and no other page is empty. -/
structure Chained : Prop where
  ring : pages.keys = [] ∨
    ∃ l, pages.keys = rootPage :: l ∧ Ring.Closed (nextOf pages) (prevOf pages) rootPage l
  size_le : ∀ n l, contents pages n = some l → l.length ≤ dirNodeMaxEntries
  nonempty : ∀ n, n ≠ rootPage → contents pages n ≠ some []

end

section Modify

variable {pages : Pages K} {n m : Nat} {p : Page K} {f : Page K → Page K}

theorem isNone_eq_false (h : n ∈ pages.keys) : (pages.find? n).isNone = false := by
  obtain ⟨p, hp⟩ := isSome_iff_exists.mp (mem_keys_iff.mp h)
  rw [hp]
  rfl

theorem nextOf_eq (h : pages.find? n = some p) : nextOf pages n = p.indexNext := by
  simp [nextOf, h]

theorem prevOf_eq (h : pages.find? n = some p) : prevOf pages n = p.indexPrevious := by
  simp [prevOf, h]

theorem nextOf_modify (hf : ∀ p, (f p).indexNext = p.indexNext) (m : Nat) :
    nextOf (pages.modify n f) m = nextOf pages m := by
  rw [nextOf, nextOf, map_find?_modify hf]

theorem prevOf_modify (hf : ∀ p, (f p).indexPrevious = p.indexPrevious) (m : Nat) :
    prevOf (pages.modify n f) m = prevOf pages m := by
  rw [prevOf, prevOf, map_find?_modify hf]

@[simp] theorem nextOf_setIndexes (n : Nat) (indexes : List K) :
    nextOf (pages.modify n (Page.setIndexes indexes)) = nextOf pages :=
  funext (nextOf_modify fun _ => rfl)

@[simp] theorem nextOf_setIndexPrevious (n b : Nat) :
    nextOf (pages.modify n (Page.setIndexPrevious b)) = nextOf pages :=
  funext (nextOf_modify fun _ => rfl)

@[simp] theorem prevOf_setIndexes (n : Nat) (indexes : List K) :
    prevOf (pages.modify n (Page.setIndexes indexes)) = prevOf pages :=
  funext (prevOf_modify fun _ => rfl)

@[simp] theorem prevOf_setIndexNext (n b : Nat) :
    prevOf (pages.modify n (Page.setIndexNext b)) = prevOf pages :=
  funext (prevOf_modify fun _ => rfl)

theorem nextOf_setIndexNext (h : n ∈ pages.keys) (b m : Nat) :
    nextOf (pages.modify n (Page.setIndexNext b)) m = if m = n then b else nextOf pages m := by
  obtain ⟨p, hp⟩ := isSome_iff_exists.mp (mem_keys_iff.mp h)
  rw [nextOf, nextOf, find?_modify]
  split_ifs with hm
  · simp [hp, Page.setIndexNext]
  · rfl

theorem prevOf_setIndexPrevious (h : n ∈ pages.keys) (b m : Nat) :
    prevOf (pages.modify n (Page.setIndexPrevious b)) m = if m = n then b else prevOf pages m := by
  obtain ⟨p, hp⟩ := isSome_iff_exists.mp (mem_keys_iff.mp h)
  rw [prevOf, prevOf, find?_modify]
  split_ifs with hm
  · simp [hp, Page.setIndexPrevious]
  · rfl

theorem nextOf_insert (p : Page K) (m : Nat) :
    nextOf (pages.insert n p) m = if m = n then p.indexNext else nextOf pages m := by
  rw [nextOf, find?_insert]
  split_ifs <;> rfl

theorem prevOf_insert (p : Page K) (m : Nat) :
    prevOf (pages.insert n p) m = if m = n then p.indexPrevious else prevOf pages m := by
  rw [prevOf, find?_insert]
  split_ifs <;> rfl

theorem nextOf_erase (h : m ≠ n) : nextOf (OrdMap.erase pages n) m = nextOf pages m := by
  rw [nextOf, find?_erase, if_neg h]
  rfl

theorem prevOf_erase (h : m ≠ n) : prevOf (OrdMap.erase pages n) m = prevOf pages m := by
  rw [prevOf, find?_erase, if_neg h]
  rfl

theorem mem_placed {k : K} : (k, n) ∈ placed pages ↔ ∃ p, pages.find? n = some p ∧ k ∈ p.indexes := by
  constructor
  · intro h
    obtain ⟨e, he, hk⟩ := mem_flatMap.mp h
    obtain ⟨k', hk', hkn⟩ := mem_map.mp hk
    obtain ⟨rfl, rfl⟩ := Prod.mk.inj hkn
    exact ⟨e.2, mem_entries_iff.mp he, hk'⟩
  · rintro ⟨p, hp, hk⟩
    exact mem_flatMap.mpr ⟨(n, p), mem_entries_iff.mpr hp, mem_map.mpr ⟨k, hk, rfl⟩⟩

theorem placed_ne_nil {l : List K} (h : contents pages n = some l) (hl : l ≠ []) : placed pages ≠ [] := by
  obtain ⟨p, hp, rfl⟩ := map_eq_some_iff.mp h
  obtain ⟨k, hk⟩ := exists_mem_of_ne_nil _ hl
  exact ne_nil_of_mem (mem_placed.mpr ⟨p, hp, hk⟩)

theorem placed_modify (hf : ∀ p, (f p).indexes = p.indexes) : placed (pages.modify n f) = placed pages := by
  cases h : pages.find? n with
  | none =>
    rw [modify_of_find?_none h]
  | some p =>
    obtain ⟨pre, post, hl, ha⟩ := exists_split h
    rw [placed, placed, OrdMap.modify, ha, hl]
    simp [hf]

@[simp] theorem placed_setIndexNext (n b : Nat) :
    placed (pages.modify n (Page.setIndexNext b)) = placed pages :=
  placed_modify fun _ => rfl

@[simp] theorem placed_setIndexPrevious (n b : Nat) :
    placed (pages.modify n (Page.setIndexPrevious b)) = placed pages :=
  placed_modify fun _ => rfl

@[simp] theorem contents_setIndexNext (n b : Nat) :
    contents (pages.modify n (Page.setIndexNext b)) = contents pages :=
  funext (map_find?_modify fun _ => rfl)

@[simp] theorem contents_setIndexPrevious (n b : Nat) :
    contents (pages.modify n (Page.setIndexPrevious b)) = contents pages :=
  funext (map_find?_modify fun _ => rfl)

@[simp] theorem contents_insert (p : Page K) (m : Nat) :
    contents (pages.insert n p) m = if m = n then some p.indexes else contents pages m := by
  rw [contents, find?_insert]
  split_ifs <;> rfl

@[simp] theorem contents_setIndexes (h : pages.find? n = some p) (indexes : List K) (m : Nat) :
    contents (pages.modify n (Page.setIndexes indexes)) m =
      if m = n then some indexes else contents pages m := by
  rw [contents, find?_modify, h]
  split_ifs <;> rfl

@[simp] theorem contents_erase (m : Nat) :
    contents (OrdMap.erase pages n) m = if m = n then none else contents pages m := by
  rw [contents, find?_erase]
  split_ifs <;> rfl

theorem placed_erase_empty (h : pages.find? n = some p) (hp : p.indexes = []) :
    placed (OrdMap.erase pages n) = placed pages := by
  obtain ⟨pre, post, hl, ha⟩ := exists_split h
  rw [placed, placed, OrdMap.erase, ha, hl]
  simp [hp]

theorem keys_erase (h : n ∈ pages.keys) :
    ∃ pre post, pages.keys = pre ++ n :: post ∧ (OrdMap.erase pages n).keys = pre ++ post := by
  obtain ⟨p, hp⟩ := isSome_iff_exists.mp (mem_keys_iff.mp h)
  obtain ⟨pre, post, hl, ha⟩ := exists_split hp
  refine ⟨pre.map Prod.fst, post.map Prod.fst, ?_, ?_⟩
  · rw [OrdMap.keys, hl]
    simp
  · rw [OrdMap.keys, OrdMap.erase, ha]
    simp

variable [LinearOrder K]

theorem placed_erase {key : K} (h : pages.find? n = some p) (hk : key ∈ p.indexes) :
    placed (pages.modify n (Page.setIndexes (p.indexes.erase key))) = (placed pages).erase (key, n) := by
  obtain ⟨pre, post, hl, ha⟩ := exists_split h
  have hpre : (key, n) ∉ pre.flatMap fun e => e.2.indexes.map fun k => (k, e.1) := by
    intro hm
    obtain ⟨e, he, hme⟩ := mem_flatMap.mp hm
    obtain ⟨k, _, hk⟩ := mem_map.mp hme
    have hs := pages.sorted
    rw [hl, OrdMap.Sorted, pairwise_append] at hs
    have hlt : e.1 < n := hs.2.2 e he (n, p) (by simp)
    exact hlt.ne (congrArg Prod.snd hk)
  have hinj : Function.Injective fun k : K => (k, n) := fun a b hab => congrArg Prod.fst hab
  rw [placed, placed, OrdMap.modify, ha, hl]
  simp only [map_some, toList_some, map_cons, map_nil, flatMap_append,
    flatMap_cons, flatMap_nil, append_nil, Page.setIndexes, append_assoc]
  rw [erase_append_right _ hpre]
  rw [erase_append_left _ (mem_map.mpr ⟨key, hk, rfl⟩), map_erase hinj]

end Modify

end Rippled.Directory
