import Rippled.Ledger.DirectoryEdits
import Rippled.Lib.Run

namespace Rippled.Directory

open Lib List

variable {K : Type}

section Traversal

variable {pages : Pages K} {c : Cursor K} {ps : List (Page K)} {fuel fuel' : Nat}

def Follows (pages : Pages K) : Nat → List (Page K) → Prop
  | n, [] => n = rootPage
  | n, p :: ps => n ≠ rootPage ∧ pages.find? n = some p ∧ Follows pages p.indexNext ps

theorem follows_of_linked {a : Nat} {rest : List (Nat × Page K)}
    (h : Ring.Linked (nextOf pages) (prevOf pages) (a :: (rest.map Prod.fst ++ [rootPage])))
    (hr : ∀ e ∈ rest, e.1 ≠ rootPage ∧ pages.find? e.1 = some e.2) :
    Follows pages (nextOf pages a) (rest.map Prod.snd) := by
  induction rest generalizing a with
  | nil =>
    obtain ⟨⟨hn, _⟩, _⟩ := isChain_cons_cons.mp h
    exact hn
  | cons e rest ih =>
    obtain ⟨⟨hn, _⟩, ht⟩ := isChain_cons_cons.mp h
    obtain ⟨he0, hf⟩ := hr e (by simp)
    rw [hn]
    refine ⟨he0, hf, ?_⟩
    rw [← nextOf_eq hf]
    exact ih ht (fun e' hm => hr e' (by simp [hm]))

def ahead (c : Cursor K) (ps : List (Page K)) : List K :=
  c.node.indexes.drop c.entry ++ ps.flatMap Page.indexes

theorem dirNext_found {k : K} (h : c.node.indexes[c.entry]? = some k) :
    dirNext pages (fuel + 1) c = some (some (k, { c with entry := c.entry + 1 })) := by
  rw [dirNext, h]

theorem ahead_found {k : K} (h : c.node.indexes[c.entry]? = some k) :
    ahead c ps = k :: ahead { c with entry := c.entry + 1 } ps := by
  obtain ⟨hlt, hk⟩ := List.getElem?_eq_some_iff.mp h
  rw [ahead, drop_eq_getElem_cons hlt, hk]
  rfl

theorem dirNext_spec (h : Follows pages c.node.indexNext ps) (hfl : ps.length < fuel) :
    (dirNext pages fuel c = some none ∧ ahead c ps = []) ∨
    ∃ k c' ps', dirNext pages fuel c = some (some (k, c')) ∧ ahead c ps = k :: ahead c' ps' ∧
      Follows pages c'.node.indexNext ps' ∧ ps'.length ≤ ps.length := by
  induction ps generalizing c fuel with
  | nil =>
    obtain ⟨fuel, rfl⟩ := Nat.exists_eq_add_one_of_ne_zero (by omega : fuel ≠ 0)
    cases hget : c.node.indexes[c.entry]? with
    | some k =>
      exact .inr ⟨k, _, _, dirNext_found hget, ahead_found hget, h, le_rfl⟩
    | none =>
      refine .inl ⟨?_, ?_⟩
      · rw [dirNext, hget]
        exact if_pos h
      · rw [ahead, drop_eq_nil_of_le (getElem?_eq_none_iff.mp hget)]
        rfl
  | cons p ps ih =>
    obtain ⟨fuel, rfl⟩ := Nat.exists_eq_add_one_of_ne_zero (by omega : fuel ≠ 0)
    cases hget : c.node.indexes[c.entry]? with
    | some k =>
      exact .inr ⟨k, _, _, dirNext_found hget, ahead_found hget, h, le_rfl⟩
    | none =>
      obtain ⟨hn0, hfn, hp⟩ := h
      have hah : ahead c (p :: ps) = ahead { node := p, entry := 0 } ps := by
        rw [ahead, drop_eq_nil_of_le (getElem?_eq_none_iff.mp hget)]
        rfl
      have hnx : dirNext pages (fuel + 1) c = dirNext pages fuel { node := p, entry := 0 } := by
        rw [dirNext, hget]
        simp only [hfn]
        exact if_neg hn0
      rw [hnx, hah]
      rcases ih (c := { node := p, entry := 0 }) hp (by simpa using hfl) with
        hend | ⟨k, c', ps', hs, ha, hf, hle⟩
      · exact .inl hend
      · exact .inr ⟨k, c', ps', hs, ha, hf, hle.trans (by simp)⟩

theorem visited_spec {l : List K} (hl : ahead c ps = l) (h : Follows pages c.node.indexNext ps)
    (hfl' : ps.length < fuel') (hfl : l.length + ps.length < fuel) :
    visited pages fuel (dirNext pages fuel' c) = some l := by
  induction l generalizing c ps fuel fuel' with
  | nil =>
    cases fuel with
    | zero => simp at hfl
    | succ fuel =>
      rcases dirNext_spec h hfl' with ⟨hend, _⟩ | ⟨k, c', ps', _, ha, _⟩
      · rw [hend]
        rfl
      · simp [hl] at ha
  | cons k l ih =>
    cases fuel with
    | zero => simp at hfl
    | succ fuel =>
      rcases dirNext_spec h hfl' with ⟨_, ha⟩ | ⟨k', c', ps', hs, ha, hf, hle⟩
      · simp [hl] at ha
      rw [hl] at ha
      obtain ⟨rfl, hl'⟩ := List.cons.inj ha
      simp only [length_cons] at hfl
      rw [hs, visited, ih hl'.symm hf (by omega) (by omega)]
      rfl

/-- Going through the directory finds its entries page by page. -/
theorem Chained.visited_dirFirst (h : Chained pages) {root : Page K}
    (hr : pages.find? rootPage = some root)
    (hfu : (placed pages).length + pages.keys.length < fuel) :
    visited pages fuel (dirFirst pages fuel) = some ((placed pages).map Prod.fst) ∧
      ∃ ps, Follows pages root.indexNext ps ∧
        (root :: ps).flatMap Page.indexes = (placed pages).map Prod.fst := by
  obtain ⟨l, hk, hrn⟩ := h.keys_eq hr
  cases hen : pages.entries with
  | nil => simp [OrdMap.keys, hen] at hk
  | cons e rest =>
    rw [OrdMap.keys, hen, map_cons] at hk
    obtain ⟨he, hl⟩ := List.cons.inj hk
    have hfn : ∀ e' ∈ pages.entries, pages.find? e'.1 = some e'.2 := fun e' hm =>
      OrdMap.mem_entries_iff.mp hm
    have he2 : e.2 = root := by
      have := hfn e (by simp [hen])
      rw [he, hr] at this
      exact (Option.some.inj this).symm
    have hrs : ∀ e' ∈ rest, e'.1 ≠ rootPage ∧ pages.find? e'.1 = some e'.2 := by
      intro e' hm
      refine ⟨fun h0 => ?_, hfn e' (by simp [hen, hm])⟩
      have hs := pages.sorted
      rw [hen, OrdMap.Sorted, pairwise_cons] at hs
      have hlt := hs.1 e' hm
      rw [he, h0] at hlt
      exact hlt.false
    rw [← hl] at hrn
    have hf := follows_of_linked hrn hrs
    rw [nextOf_eq hr] at hf
    have hfl : (root :: rest.map Prod.snd).flatMap Page.indexes = (placed pages).map Prod.fst := by
      rw [placed, hen, map_flatMap, flatMap_cons, flatMap_cons, he2, flatMap_map]
      simp [Function.comp_def]
    refine ⟨?_, rest.map Prod.snd, hf, hfl⟩
    have hlen : pages.keys.length = rest.length + 1 := by
      rw [OrdMap.keys, hen]
      simp
    rw [dirFirst, hr]
    exact visited_spec (c := { node := root, entry := 0 }) hfl hf (by simp; omega)
      (by simp; omega)

end Traversal

section Runs

variable {s s' : State K}

/-- A directory in order: the pages form one doubly linked list from the root, none but the root is
empty, and every live key is in the page number returned for it and in no other place. -/
structure Sound (s : State K) : Prop where
  ring : s.pages.keys = [] ∨
    ∃ l, s.pages.keys = rootPage :: l ∧ Ring.Closed (nextOf s.pages) (prevOf s.pages) rootPage l
  size : ∀ n p, s.pages.find? n = some p →
    p.indexes.length ≤ dirNodeMaxEntries ∧ (n ≠ rootPage → p.indexes ≠ [])
  live_iff : ∀ k n, (k, n) ∈ s.live ↔ ∃ p, s.pages.find? n = some p ∧ k ∈ p.indexes
  once : (s.live.map Prod.fst).Nodup
  traversal : ∀ root, s.pages.find? rootPage = some root →
    ∀ fuel, s.live.length + s.pages.keys.length < fuel →
      ∃ keys ps, visited s.pages fuel (dirFirst s.pages fuel) = some keys ∧
        keys.Perm (s.live.map Prod.fst) ∧ Follows s.pages root.indexNext ps ∧
        (root :: ps).flatMap Page.indexes = keys

structure Kept (s : State K) : Prop where
  chained : Chained s.pages
  perm : s.live.Perm (placed s.pages)
  nodup : (s.live.map Prod.fst).Nodup

theorem kept_empty : Kept (State.empty : State K) where
  chained := chained_empty
  perm := .refl _
  nodup := .nil

theorem Kept.sound (h : Kept s) : Sound s where
  ring := h.chained.ring
  size n p hp := by
    have hc : contents s.pages n = some p.indexes := by simp [contents, hp]
    exact ⟨h.chained.size_le n _ hc, fun hn he => h.chained.nonempty n hn (he ▸ hc)⟩
  live_iff k n := h.perm.mem_iff.trans mem_placed
  once := h.nodup
  traversal root hr fuel hf := by
    rw [h.perm.length_eq] at hf
    obtain ⟨hvis, ps, hfol, hfl⟩ := h.chained.visited_dirFirst hr hf
    exact ⟨_, ps, hvis, (h.perm.map _).symm, hfol, hfl⟩

variable [LinearOrder K]

/-- What an operation changes. An addition that is refused changes nothing, and the directory is
removed with its last key unless the root is to be kept. -/
def Answered (s s' : State K) : Op K → Prop
  | .dirAppend key | .dirInsert key =>
    (s'.pages.find? rootPage).isSome ∧ (s' = s ∨ ∃ page, s'.live = s.live ++ [(key, page)])
  | .dirRemove key keepRoot =>
    (∃ page, (key, page) ∈ s.live ∧ s'.live = s.live.erase (key, page)) ∧
      (s'.pages.find? rootPage = none ↔ s'.live = [] ∧ keepRoot = false)

theorem Kept.add (h : Kept s) {key : K} (hk : key ∉ s.live.map Prod.fst) (preserveOrder : Bool) :
    ∃ s', s.add preserveOrder key = .ok s' ∧ Kept s' ∧ (s'.pages.find? rootPage).isSome ∧
      (s' = s ∨ ∃ page, s'.live = s.live ++ [(key, page)]) ∧
      (preserveOrder → s.live = placed s.pages → s'.live = placed s'.pages) := by
  have hk' : key ∉ (placed s.pages).map Prod.fst := fun hm =>
    hk ((h.perm.map Prod.fst).mem_iff.mpr hm)
  rcases dirAdd_spec preserveOrder h.chained hk' with
    ⟨hadd, hr⟩ | ⟨page, pages', hadd, hch, hr, hpr, hkp⟩
  · refine ⟨s, ?_, h, hr, .inl rfl, fun _ hl => hl⟩
    rw [State.add, hadd]
    simp [Except.map]
  refine ⟨⟨pages', s.live ++ [(key, page)]⟩, by rw [State.add, hadd]; rfl, ⟨hch, ?_, ?_⟩, hr,
    .inr ⟨page, rfl⟩, fun hp hl => ?_⟩
  · exact (h.perm.append_right _).trans hpr.symm
  · rw [map_append]
    exact nodup_append.mpr ⟨h.nodup, by simp, fun a ha b hb hab => by
      rw [map_singleton, mem_singleton] at hb
      rw [hab, hb] at ha
      exact hk ha⟩
  · rw [hkp hp, ← hl]

theorem Kept.remove (h : Kept s) {key : K} (hk : key ∈ s.live.map Prod.fst) (keepRoot : Bool) :
    ∃ s', s.remove key keepRoot = .ok s' ∧ Kept s' ∧
      (∃ page, (key, page) ∈ s.live ∧ s'.live = s.live.erase (key, page)) ∧
      (s'.pages.find? rootPage = none ↔ s'.live = [] ∧ keepRoot = false) ∧
      (s.live = placed s.pages → s'.live = placed s'.pages) := by
  cases hf : s.live.find? fun e => decide (e.1 = key) with
  | none =>
    obtain ⟨e, he, hek⟩ := mem_map.mp hk
    exact absurd (by simpa using hek) (find?_eq_none.mp hf e he)
  | some e =>
    have he : e ∈ s.live := mem_of_find?_eq_some hf
    have hek : e.1 = key := by simpa using find?_some hf
    obtain ⟨k, page⟩ := e
    subst hek
    obtain ⟨pages', hrem, hch, hpl, hg⟩ :=
      dirRemove_spec h.chained (h.perm.mem_iff.mp he) keepRoot
    have hp : (s.live.erase (k, page)).Perm (placed pages') := by
      rw [hpl]
      exact h.perm.erase _
    refine ⟨⟨pages', s.live.erase (k, page)⟩, ?_, ⟨hch, hp, ?_⟩, ⟨page, he, rfl⟩, ?_, ?_⟩
    · simp [State.remove, hf, hrem, Except.map]
    · exact h.nodup.sublist (erase_sublist.map _)
    · have hnil : placed pages' = [] ↔ s.live.erase (k, page) = [] := by
        constructor
        · intro hnil
          rw [hnil] at hp
          exact hp.eq_nil
        · intro hnil
          rw [hnil] at hp
          exact hp.symm.eq_nil
      rw [hg, hnil]
    · intro hl
      rw [hpl, ← hl]

theorem Kept.step (h : Kept s) {op : Op K} (hop : s.Proper op) :
    ∃ s', s.step op = .ok s' ∧ Kept s' ∧ Answered s s' op ∧
      ((∀ key, op ≠ .dirInsert key) → s.live = placed s.pages → s'.live = placed s'.pages) := by
  cases op with
  | dirAppend key =>
    obtain ⟨s', hs, hk, hr, hl, hord⟩ := h.add hop true
    exact ⟨s', hs, hk, ⟨hr, hl⟩, fun _ => hord rfl⟩
  | dirInsert key =>
    obtain ⟨s', hs, hk, hr, hl, _⟩ := h.add hop false
    exact ⟨s', hs, hk, ⟨hr, hl⟩, fun hne => absurd rfl (hne key)⟩
  | dirRemove key keepRoot =>
    obtain ⟨s', hs, hk, hl, hg, hord⟩ := h.remove hop keepRoot
    exact ⟨s', hs, hk, ⟨hl, hg⟩, fun _ => hord⟩

theorem Kept.run (ops : List (Op K)) (h : Kept s)
    (hops : Run.AllowedIn (fun s o => (State.step s o).toOption) State.Proper s ops) :
    ∃ s', ops.foldlM State.step s = .ok s' ∧ Kept s' ∧
      ((∀ key, .dirInsert key ∉ ops) → s.live = placed s.pages → s'.live = placed s'.pages) := by
  induction ops generalizing s with
  | nil => exact ⟨s, rfl, h, fun _ hl => hl⟩
  | cons op ops ih =>
    obtain ⟨hop, hops⟩ := hops
    obtain ⟨t, hs, hk, _, hord⟩ := h.step hop
    obtain ⟨s', hrun, hk', hord'⟩ := ih hk (hops t (congrArg Except.toOption hs))
    refine ⟨s', ?_, hk', fun hins hl => ?_⟩
    · rw [foldlM_cons, hs]
      exact hrun
    · simp only [mem_cons, not_or] at hins
      exact hord' (fun key => (hins key).2) (hord (fun key he => (hins key).1 he.symm) hl)

/-- Every run of additions and removals, from no directory on, keeps the directory in order, and
never finds a broken chain. -/
theorem directory_in_order (ops : List (Op K))
    (h : Run.AllowedIn (fun s o => (State.step s o).toOption) State.Proper State.empty ops) :
    ∃ s, ops.foldlM State.step State.empty = .ok s ∧ Sound s ∧
      (∀ op, s.Proper op → ∃ s', s.step op = .ok s' ∧ Answered s s' op) ∧
      (∀ preserveOrder key pages', dirAdd preserveOrder s.pages key = .ok (none, pages') →
        pages' = s.pages) ∧
      ((∀ key, .dirInsert key ∉ ops) → ∀ root, s.pages.find? rootPage = some root →
        ∀ fuel, s.live.length + s.pages.keys.length < fuel →
          visited s.pages fuel (dirFirst s.pages fuel) = some (s.live.map Prod.fst)) := by
  obtain ⟨s, hrun, hkept, hord⟩ := kept_empty.run ops h
  refine ⟨s, hrun, hkept.sound, fun op hop => ?_, fun preserveOrder key pages' => dirAdd_refused, ?_⟩
  · obtain ⟨s', hs, _, hans, _⟩ := hkept.step hop
    exact ⟨s', hs, hans⟩
  intro hins root hroot fuel hfuel
  rw [hkept.perm.length_eq] at hfuel
  rw [hord hins rfl]
  exact (hkept.chained.visited_dirFirst hroot hfuel).1

/-- Three pages are begun, and the one in the middle is emptied. -/
def mixedOps : List (Op Nat) :=
  (List.range 66).map .dirAppend ++ (List.range 32).map (fun i => .dirRemove (i + 32) false) ++
    [.dirInsert 40]

theorem directory_in_order_mixed : ∃ s, mixedOps.foldlM State.step State.empty = .ok s ∧
    Sound s ∧ s.pages.keys = [0, 2] := by
  obtain ⟨s, hrun, hsound, -⟩ := directory_in_order mixedOps (by decide +kernel)
  have hkeys : ((mixedOps.foldlM State.step State.empty).toOption.map fun s => s.pages.keys) =
      some [0, 2] := by
    decide +kernel
  rw [hrun] at hkeys
  exact ⟨s, hrun, hsound, Option.some.inj hkeys⟩

end Runs

end Rippled.Directory
