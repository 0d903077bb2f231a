import Rippled.Ledger.Directory

namespace Rippled.Directory

open Lib List Option OrdMap

variable {K : Type} {pages : Pages K} {node : Page K} {n : Nat} {key : K}

section Add

variable {root : Page K}

section

variable (h : Chained pages)

include h

theorem Chained.keys_eq (hr : pages.find? rootPage = some root) :
    ∃ l, pages.keys = rootPage :: l ∧ Ring.Closed (nextOf pages) (prevOf pages) rootPage l := by
  rcases h.ring with hk | hk
  · have hm : rootPage ∈ pages.keys := mem_keys_iff.mpr (by simp [hr])
    rw [hk] at hm
    exact absurd hm not_mem_nil
  · exact hk

theorem Chained.keys_eq_nil (hr : pages.find? rootPage = none) : pages.keys = [] := by
  rcases h.ring with hk | ⟨l, hk, _⟩
  · exact hk
  · exact absurd (by simp [hk]) (find?_eq_none_iff.mp hr)

/-- The page before the root is the last one of the directory. -/
theorem Chained.last_entry (hr : pages.find? rootPage = some root) :
    ∃ node pre, pages.find? root.indexPrevious = some node ∧
      pages.entries = pre ++ [(root.indexPrevious, node)] ∧
      ∀ f, (pages.alter root.indexPrevious f).entries =
        pre ++ (f (some node)).toList.map fun v => (root.indexPrevious, v) := by
  obtain ⟨l, hk, hrn⟩ := h.keys_eq hr
  obtain ⟨x, hx⟩ := hrn.exists_concat
  rw [prevOf_eq hr] at hx
  have hm : root.indexPrevious ∈ pages.keys := by
    rw [hk, hx]
    simp
  obtain ⟨node, hn⟩ := isSome_iff_exists.mp (mem_keys_iff.mp hm)
  obtain ⟨pre, post, hl, ha⟩ := exists_split hn
  have hp : post = [] := by
    have hd := pages.nodup_keys
    have he : pages.keys = pre.map Prod.fst ++ root.indexPrevious :: post.map Prod.fst := by
      rw [OrdMap.keys, hl]
      simp
    have hls : x ++ [root.indexPrevious] =
        pre.map Prod.fst ++ root.indexPrevious :: post.map Prod.fst := by
      rw [← hx, ← hk, he]
    cases post using List.reverseRecOn with
    | nil => rfl
    | append_singleton post e =>
      rw [map_append, ← cons_append, ← append_assoc] at hls
      have heq : root.indexPrevious = e.1 := by
        simpa using (append_inj' hls rfl).2
      rw [he, nodup_append, nodup_cons] at hd
      exact absurd (by simp [heq]) hd.2.1.1
  subst hp
  exact ⟨node, pre, hn, hl, fun f => by simpa using ha f⟩

theorem Chained.addRoot (hr : pages.find? rootPage = none) (key : K) :
    Chained (pages.insert rootPage { indexes := [key] }) ∧
      placed (pages.insert rootPage { indexes := [key] }) = placed pages ++ [(key, rootPage)] := by
  have hk := h.keys_eq_nil hr
  have hnil := map_eq_nil_iff.mp hk
  have hnn : ∀ m, contents pages m = none := fun m => by
    rw [contents, find?_eq_none_iff.mpr (by simp [hk])]
    rfl
  have he : (pages.insert rootPage { indexes := [key] }).entries =
      [(rootPage, { indexes := [key] })] := by
    rw [entries_insert_of_lt (by simp [hk]), hnil]
    rfl
  refine ⟨⟨.inr ⟨[], by rw [OrdMap.keys, he]; rfl, ?_⟩, ?_, ?_⟩, ?_⟩
  · exact isChain_pair.mpr ⟨by simp [nextOf_insert]; rfl, by simp [prevOf_insert]; rfl⟩
  · intro n l hl
    rw [contents_insert, hnn] at hl
    split_ifs at hl
    cases hl
    simp [dirNodeMaxEntries]
  · intro n hn
    rw [contents_insert, if_neg hn, hnn]
    simp
  · rw [placed, placed, he, hnil]
    rfl

theorem Chained.setIndexes (hn : pages.find? n = some node) {indexes : List K}
    (hlen : indexes.length ≤ dirNodeMaxEntries) (hne : n ≠ rootPage → indexes ≠ []) :
    Chained (pages.modify n (Page.setIndexes indexes)) := by
  refine ⟨by simpa using h.ring, ?_, ?_⟩
  · intro m l hl
    rw [contents_setIndexes hn] at hl
    split_ifs at hl with hm
    · cases hl
      exact hlen
    · exact h.size_le m l hl
  · intro m hm0
    rw [contents_setIndexes hn]
    split_ifs with hm
    · simpa using hne (hm ▸ hm0)
    · exact h.nonempty m hm0

end

def linkPage (pages : Pages K) (page : Nat) (p : Page K) : Pages K :=
  ((pages.modify page (Page.setIndexNext (page + 1))).modify rootPage
    (Page.setIndexPrevious (page + 1))).insert (page + 1) p

theorem Chained.linkPage (h : Chained pages) (hr : pages.find? rootPage = some root) (key : K) :
    Chained (linkPage pages root.indexPrevious
        { indexes := [key], indexPrevious := root.indexPrevious }) ∧
      placed (Directory.linkPage pages root.indexPrevious
        { indexes := [key], indexPrevious := root.indexPrevious }) =
        placed pages ++ [(key, root.indexPrevious + 1)] := by
  obtain ⟨node, pre, hnd, hl, _⟩ := h.last_entry hr
  obtain ⟨l, hk, hrn⟩ := h.keys_eq hr
  have hp0 := prevOf_eq hr
  have hlt : ∀ n ∈ pages.keys, n < root.indexPrevious + 1 := by
    intro n hn
    obtain ⟨e, he, rfl⟩ := mem_map.mp hn
    have hs := pages.sorted
    rw [hl, OrdMap.Sorted, pairwise_append] at hs
    rw [hl] at he
    rcases mem_append.mp he with he | he
    · exact Nat.lt_succ_of_lt (hs.2.2 e he (root.indexPrevious, node) (by simp))
    · rw [mem_singleton.mp he]
      exact Nat.lt_succ_self _
  have hroot_mem : rootPage ∈ pages.keys := by simp [hk]
  have hpage_mem : root.indexPrevious ∈ pages.keys := mem_keys_iff.mpr (by simp [hnd])
  generalize root.indexPrevious = page at *
  set linked := (pages.modify page (Page.setIndexNext (page + 1))).modify rootPage
    (Page.setIndexPrevious (page + 1)) with hln
  have hlk : linked.keys = pages.keys := by simp [hln]
  have hnx : ∀ m, nextOf linked m = if m = page then page + 1 else nextOf pages m := by
    intro m
    rw [hln, nextOf_setIndexPrevious, nextOf_setIndexNext hpage_mem]
  have hp : ∀ m, prevOf linked m = if m = rootPage then page + 1 else prevOf pages m := by
    intro m
    rw [hln, prevOf_setIndexPrevious (by simpa using hroot_mem), prevOf_setIndexNext]
  have hen : (Directory.linkPage pages page { indexes := [key], indexPrevious := page }).entries =
      linked.entries ++ [(page + 1, { indexes := [key], indexPrevious := page })] :=
    entries_insert_of_lt (by rw [hlk]; exact hlt) _
  have hpl : placed linked = placed pages := by
    rw [hln, placed_setIndexPrevious, placed_setIndexNext]
  have hnot : page + 1 ∉ rootPage :: l := by
    rw [← hk]
    exact fun hm => (hlt _ hm).false
  refine ⟨⟨.inr ⟨l ++ [page + 1], ?_, ?_⟩, ?_, ?_⟩, ?_⟩
  · rw [OrdMap.keys, hen, map_append]
    change linked.keys ++ [page + 1] = _
    rw [hlk, hk]
    rfl
  · apply hrn.concat (hk ▸ pages.nodup_keys)
    · intro a ha
      have hane : a ≠ page + 1 := fun he => hnot (he ▸ ha)
      rw [Directory.linkPage, nextOf_insert, if_neg hane, hnx, hp0]
    · rw [Directory.linkPage, nextOf_insert, if_pos rfl]
      rfl
    · intro b hb
      have hbne : b ≠ page + 1 := fun he => hnot (by simp [← he, hb])
      have hb0 : b ≠ rootPage := by
        intro he
        have hd := pages.nodup_keys
        rw [hk, ← he] at hd
        exact (nodup_cons.mp hd).1 hb
      rw [Directory.linkPage, prevOf_insert, if_neg hbne, hp, if_neg hb0]
    · rw [Directory.linkPage, prevOf_insert, if_neg (by simp [rootPage]), hp, if_pos rfl]
    · rw [Directory.linkPage, prevOf_insert, if_pos rfl, hp0]
  · intro n l hl
    rw [Directory.linkPage, contents_insert, contents_setIndexPrevious, contents_setIndexNext] at hl
    split_ifs at hl with hn
    · cases hl
      simp [dirNodeMaxEntries]
    · exact h.size_le n l hl
  · intro n hn0
    rw [Directory.linkPage, contents_insert, contents_setIndexPrevious, contents_setIndexNext]
    split_ifs with hn
    · simp
    · exact h.nonempty n hn0
  · rw [← hpl, placed, hen, flatMap_append]
    rfl

variable [LinearOrder K] (preserveOrder : Bool)

theorem addIndex_spec {indexes : List K} (hk : key ∉ indexes) :
    ∃ indexes', addIndex preserveOrder indexes key = .ok indexes' ∧ indexes'.Perm (indexes ++ [key]) ∧
      (preserveOrder → indexes' = indexes ++ [key]) := by
  cases preserveOrder with
  | true => exact ⟨indexes ++ [key], by simp [addIndex, hk], .refl _, fun _ => rfl⟩
  | false =>
    have hs : (indexes.insertionSort (· ≤ ·)).Perm indexes := perm_insertionSort _ _
    have hhd : ((indexes.insertionSort (· ≤ ·)).dropWhile (· < key)).head? ≠ some key := by
      intro hh
      have hm := (dropWhile_sublist _).subset (mem_of_mem_head? hh)
      exact hk (hs.mem_iff.mp hm)
    refine ⟨_, by rw [addIndex]; simp only [Bool.false_eq_true, if_false, if_neg hhd]; rfl, ?_, by simp⟩
    apply perm_middle.trans
    rw [takeWhile_append_dropWhile]
    exact (hs.cons key).trans (perm_append_singleton key indexes).symm

theorem dirAdd_refused {preserveOrder : Bool} {pages' : Pages K}
    (h : dirAdd preserveOrder pages key = .ok (none, pages')) : pages' = pages := by
  rw [dirAdd] at h
  split at h
  · cases h
  dsimp only at h
  split at h
  · cases h
  split_ifs at h
  · cases hadd : addIndex preserveOrder _ key with
    | error e | ok indexes =>
      rw [hadd] at h
      cases h
  · cases h
    rfl
  · cases h
  · cases h

theorem dirAdd_spec (h : Chained pages) (hk : key ∉ (placed pages).map Prod.fst) :
    dirAdd preserveOrder pages key = .ok (none, pages) ∧ (pages.find? rootPage).isSome ∨
    ∃ page pages', dirAdd preserveOrder pages key = .ok (some page, pages') ∧ Chained pages' ∧
      (pages'.find? rootPage).isSome ∧ (placed pages').Perm (placed pages ++ [(key, page)]) ∧
      (preserveOrder → placed pages' = placed pages ++ [(key, page)]) := by
  cases hr : pages.find? rootPage with
  | none =>
    obtain ⟨hch, hpl⟩ := h.addRoot hr key
    exact .inr ⟨0, _, by rw [dirAdd, hr], hch, by simp, .of_eq hpl, fun _ => hpl⟩
  | some root =>
    obtain ⟨node, pre, hn, hl, ha⟩ := h.last_entry hr
    by_cases hs : node.indexes.length < dirNodeMaxEntries
    · have hkn : key ∉ node.indexes := fun hm =>
        hk (mem_map.mpr ⟨(key, root.indexPrevious), mem_placed.mpr ⟨node, hn, hm⟩, rfl⟩)
      obtain ⟨indexes, hadd, hpr, hkp⟩ := addIndex_spec preserveOrder hkn
      have hlen : indexes.length ≤ dirNodeMaxEntries := by
        have := hpr.length_eq
        simp at this
        omega
      have hne : indexes ≠ [] := by
        intro he
        have := hpr.length_eq
        simp [he] at this
      have hpc : placed (pages.modify root.indexPrevious (Page.setIndexes indexes)) =
          (pre.flatMap fun e => e.2.indexes.map fun k => (k, e.1)) ++
            indexes.map fun k => (k, root.indexPrevious) := by
        rw [placed, OrdMap.modify, ha]
        simp [Page.setIndexes]
      have hold : placed pages ++ [(key, root.indexPrevious)] =
          (pre.flatMap fun e => e.2.indexes.map fun k => (k, e.1)) ++
            (node.indexes ++ [key]).map fun k => (k, root.indexPrevious) := by
        rw [placed, hl]
        simp
      refine .inr ⟨root.indexPrevious, _, ?_, h.setIndexes hn hlen (fun _ => hne), ?_, ?_, ?_⟩
      · simp only [dirAdd, hr, hn, if_pos hs, hadd]
        rfl
      · rw [find?_modify]
        split_ifs with he
        · simp [← he, hr]
        · simp [hr]
      · rw [hpc, hold]
        exact (hpr.map _).append_left _
      · intro hp
        rw [hpc, hold, hkp hp]
    · by_cases hf : root.indexPrevious + 1 ≥ dirNodeMaxPages
      · left
        simp only [dirAdd, hr, hn, if_neg hs, if_pos hf, isSome_some, and_self]
      obtain ⟨hch, hpl⟩ := h.linkPage hr key
      have hpv : (if root.indexPrevious + 1 ≠ 1 then root.indexPrevious else 0) =
          root.indexPrevious := by
        split_ifs <;> omega
      refine .inr ⟨root.indexPrevious + 1, _, ?_, hch, ?_, .of_eq hpl, fun _ => hpl⟩
      · simp only [dirAdd, hr, hn, if_neg hs, if_neg hf, hpv]
        rfl
      · have hm : rootPage ≠ root.indexPrevious + 1 := by simp [rootPage]
        rw [Directory.linkPage, find?_insert, if_neg hm, ← mem_keys_iff]
        simp [mem_keys_iff, hr]

end Add

section Remove

variable {l : List Nat}

def unlink (pages : Pages K) (page prevPage nextPage : Nat) : Pages K :=
  OrdMap.erase ((pages.modify prevPage (Page.setIndexNext nextPage)).modify nextPage
    (Page.setIndexPrevious prevPage)) page

theorem contents_unlink (prevPage nextPage m : Nat) :
    contents (unlink pages n prevPage nextPage) m = if m = n then none else contents pages m := by
  rw [unlink, contents_erase, contents_setIndexPrevious, contents_setIndexNext]

theorem placed_unlink (hn : pages.find? n = some node) (he : node.indexes = [])
    (prevPage nextPage : Nat) : placed (unlink pages n prevPage nextPage) = placed pages := by
  have hc : contents ((pages.modify prevPage (Page.setIndexNext nextPage)).modify nextPage
      (Page.setIndexPrevious prevPage)) n = some [] := by
    rw [contents_setIndexPrevious, contents_setIndexNext, contents, hn, ← he]
    rfl
  obtain ⟨p, hp, hnil⟩ := map_eq_some_iff.mp hc
  rw [unlink, placed_erase_empty hp hnil, placed_setIndexPrevious, placed_setIndexNext]

section

variable (hk : pages.keys = rootPage :: l)
  (hr : Ring.Closed (nextOf pages) (prevOf pages) rootPage l) (hn : n ∈ l)

include hk hr hn

theorem neighbours :
    prevOf pages n ∈ pages.keys ∧ nextOf pages n ∈ pages.keys ∧ prevOf pages n ≠ n ∧
      nextOf pages n ≠ n := by
  obtain ⟨pre, post, rfl⟩ := append_of_mem hn
  have hd := pages.nodup_keys
  rw [hk, ← cons_append, nodup_append] at hd
  obtain ⟨_, hps, hdis⟩ := hd
  have hp := hr.prev_mem
  have hnx := hr.next_mem
  refine ⟨?_, ?_, fun he => hdis _ hp n (by simp) he, fun he => ?_⟩
  · rw [hk, ← cons_append]
    exact mem_append_left _ hp
  · rw [hk]
    rcases mem_append.mp hnx with hm | hm
    · simp [hm]
    · simp [mem_singleton.mp hm]
  · rw [he] at hnx
    rcases mem_append.mp hnx with hm | hm
    · exact (nodup_cons.mp hps).1 hm
    · exact hdis rootPage (by simp) n (by simp) (mem_singleton.mp hm).symm

theorem ring_unlink :
    ∃ l', (unlink pages n (prevOf pages n) (nextOf pages n)).keys = rootPage :: l' ∧
      Ring.Closed (nextOf (unlink pages n (prevOf pages n) (nextOf pages n)))
        (prevOf (unlink pages n (prevOf pages n) (nextOf pages n))) rootPage l' ∧
      (l' = [] → nextOf pages n = rootPage ∧ prevOf pages n = rootPage) := by
  obtain ⟨hpm, hnm, _, _⟩ := neighbours hk hr hn
  have hd := pages.nodup_keys
  have hmem : n ∈ ((pages.modify (prevOf pages n) (Page.setIndexNext (nextOf pages n))).modify
      (nextOf pages n) (Page.setIndexPrevious (prevOf pages n))).keys := by
    simp [hk, hn]
  obtain ⟨pre, post, hs, her⟩ := keys_erase hmem
  rw [keys_modify, keys_modify] at hs
  have hn0 : n ≠ rootPage := by
    intro he
    rw [hk, ← he] at hd
    exact (nodup_cons.mp hd).1 hn
  cases pre with
  | nil =>
    rw [hk, nil_append] at hs
    exact absurd (List.cons.inj hs).1.symm hn0
  | cons c pre =>
    rw [hk, cons_append] at hs
    obtain ⟨rfl, rfl⟩ := List.cons.inj hs
    refine ⟨pre ++ post, her, ?_, ?_⟩
    · apply hr.erase (hk ▸ hd)
      · intro a ha
        rw [unlink, nextOf_erase ha, nextOf_setIndexPrevious, nextOf_setIndexNext hpm]
      · intro b hb
        rw [unlink, prevOf_erase hb, prevOf_setIndexPrevious (by simpa using hnm), prevOf_setIndexNext]
    · intro hnil
      obtain ⟨rfl, rfl⟩ := append_eq_nil_iff.mp hnil
      exact ⟨by simpa using hr.next_mem, by simpa using hr.prev_mem⟩

end

theorem chained_empty : Chained (OrdMap.empty : Pages K) where
  ring := .inl rfl
  size_le := fun _ _ h => nomatch h
  nonempty := fun _ _ h => nomatch h

theorem placed_empty : placed (OrdMap.empty : Pages K) = [] := rfl

theorem erase_root (hk : pages.keys = [rootPage]) : OrdMap.erase pages rootPage = OrdMap.empty := by
  apply ext_find?
  intro m
  rw [find?_erase, find?_empty]
  split_ifs with hm
  · rfl
  · exact find?_eq_none_iff.mpr (by simpa [hk] using hm)

theorem Chained.exists_contents (h : Chained pages) {m : Nat} (hm : m ∈ pages.keys) (hm0 : m ≠ rootPage) :
    ∃ l, contents pages m = some l ∧ l ≠ [] := by
  obtain ⟨p, hp⟩ := isSome_iff_exists.mp (mem_keys_iff.mp hm)
  have hc : contents pages m = some p.indexes := by simp [contents, hp]
  exact ⟨p.indexes, hc, fun he => h.nonempty m hm0 (he ▸ hc)⟩

/-- An emptied root stays in the directory as long as there are other pages. -/
theorem Chained.removeRoot (h : Chained pages) (hnd : pages.find? rootPage = some node)
    (hem : node.indexes = []) (keepRoot : Bool) :
    ∃ pages', Directory.removeRoot keepRoot node.indexPrevious node.indexNext pages =
        .ok (true, pages') ∧ Chained pages' ∧ placed pages' = placed pages ∧
      (pages'.find? rootPage = none ↔ placed pages' = [] ∧ keepRoot = false) := by
  obtain ⟨l, hk, hr⟩ := h.keys_eq hnd
  have hnx := nextOf_eq hnd
  have hpr := prevOf_eq hnd
  by_cases hl : l = []
  · subst hl
    obtain ⟨⟨hn0, hp0⟩, _⟩ := isChain_cons_cons.mp hr
    rw [hnx] at hn0
    rw [hpr] at hp0
    have hpl := placed_erase_empty hnd hem
    rw [erase_root hk] at hpl
    have hrem : Directory.removeRoot keepRoot node.indexPrevious node.indexNext pages =
        .ok (eraseRoot keepRoot rootPage rootPage pages) := by
      simp [Directory.removeRoot, hn0, hp0]
    cases keepRoot with
    | true => exact ⟨pages, hrem, h, rfl, by simp [hnd]⟩
    | false =>
      refine ⟨OrdMap.empty, ?_, chained_empty, hpl, by simp [placed_empty]⟩
      rw [hrem, eraseRoot, erase_root hk]
      rfl
  · have hd := pages.nodup_keys
    rw [hk] at hd
    have hrt : rootPage ∉ l := (nodup_cons.mp hd).1
    have hnm : node.indexNext ∈ l := hnx ▸ hr.next_first hl
    have hpm : node.indexPrevious ∈ l := hpr ▸ hr.prev_first hl
    have hn0 : node.indexNext ≠ rootPage := fun he => hrt (he ▸ hnm)
    have hp0 : node.indexPrevious ≠ rootPage := fun he => hrt (he ▸ hpm)
    obtain ⟨c, hc, hcne⟩ := h.exists_contents (by simp [hk, hnm]) hn0
    obtain ⟨last, hls, rfl⟩ := map_eq_some_iff.mp hc
    refine ⟨pages, ?_, h, rfl, ?_⟩
    · have her : eraseRoot keepRoot node.indexPrevious node.indexNext pages = (true, pages) := by
        simp [eraseRoot, hn0]
      simp [Directory.removeRoot, hn0, hp0, hls, hcne, her]
    · simp [hnd, placed_ne_nil hc hcne]

section

variable (hk : pages.keys = rootPage :: l)
  (hr : Ring.Closed (nextOf pages) (prevOf pages) rootPage l) (hn : n ∈ l)
  (hnd : pages.find? n = some node)

include hk hr hn hnd

theorem removePage_eq (hne : ∀ m, m ≠ rootPage → m ≠ n → contents pages m ≠ some [])
    (keepRoot : Bool) : removePage keepRoot n node.indexPrevious node.indexNext pages =
      .ok (eraseEmptyRoot keepRoot node.indexPrevious node.indexNext
        (unlink pages n node.indexPrevious node.indexNext)) := by
  obtain ⟨hpm, hnm, hpn, hnn⟩ := neighbours hk hr hn
  rw [prevOf_eq hnd] at hpm hpn
  rw [nextOf_eq hnd] at hnm hnn
  have hp : ¬ (pages.find? node.indexPrevious).isNone := by simp only [isNone_eq_false hpm]; simp
  have hnx : ¬ ((pages.modify node.indexPrevious (Page.setIndexNext node.indexNext)).find?
      node.indexNext).isNone := by
    rw [isNone_eq_false (by simpa using hnm)]
    simp
  -- the page behind is not empty, so the clean-up of old directories does not set in
  have hl : ¬ (node.indexNext ≠ rootPage ∧
      ((unlink pages n node.indexPrevious node.indexNext).find? node.indexNext).any
        fun next => next.indexNext = rootPage ∧ next.indexes.isEmpty) := by
    rintro ⟨hn0, hany⟩
    cases hf : (unlink pages n node.indexPrevious node.indexNext).find? node.indexNext with
    | none => simp [hf] at hany
    | some next =>
      have hnil : next.indexes = [] := by
        simp [hf] at hany
        exact hany.2
      have hc : contents (unlink pages n node.indexPrevious node.indexNext) node.indexNext = some [] := by
        simp [contents, hf, hnil]
      rw [contents_unlink, if_neg hnn] at hc
      exact hne _ hn0 hnn hc
  rw [removePage, if_neg hnn, if_neg hpn, if_neg hp]
  rw [if_neg hnx]
  exact if_neg hl

/-- An emptied page other than the root is taken out, and an empty root left alone with it. -/
theorem removePage_spec (hem : node.indexes = [])
    (hs : ∀ m c, contents pages m = some c → c.length ≤ dirNodeMaxEntries)
    (hne : ∀ m, m ≠ rootPage → m ≠ n → contents pages m ≠ some []) (keepRoot : Bool) :
    ∃ pages', removePage keepRoot n node.indexPrevious node.indexNext pages = .ok (true, pages') ∧
      Chained pages' ∧ placed pages' = placed pages ∧
      (pages'.find? rootPage = none ↔ placed pages' = [] ∧ keepRoot = false) := by
  obtain ⟨hpm, hnm, hpn, hnn⟩ := neighbours hk hr hn
  obtain ⟨l', hk', hr', hl'⟩ := ring_unlink hk hr hn
  have heq := removePage_eq hk hr hn hnd hne keepRoot
  rw [prevOf_eq hnd, nextOf_eq hnd] at hk' hr' hl'
  rw [prevOf_eq hnd] at hpm hpn
  rw [nextOf_eq hnd] at hnm hnn
  set rest := unlink pages n node.indexPrevious node.indexNext with hrs
  have hch : Chained rest := by
    refine ⟨.inr ⟨l', hk', hr'⟩, ?_, ?_⟩
    · intro m c hc
      rw [hrs, contents_unlink] at hc
      split_ifs at hc
      exact hs m c hc
    intro m hm0
    rw [hrs, contents_unlink]
    split_ifs with hm
    · simp
    · exact hne m hm0 hm
  have hp : placed rest = placed pages := placed_unlink hnd hem _ _
  obtain ⟨root, hrt⟩ := isSome_iff_exists.mp
    (mem_keys_iff.mp (show rootPage ∈ rest.keys by simp [hk']))
  have hrl : rootPage ∉ l' := by
    have hd := rest.nodup_keys
    rw [hk'] at hd
    exact (nodup_cons.mp hd).1
  by_cases ha : l' = []
  · obtain ⟨hnx0, hpr0⟩ := hl' ha
    rw [ha] at hk'
    by_cases hre : root.indexes = []
    · cases keepRoot with
      | true => exact ⟨rest, by rw [heq]; rfl, hch, hp, by simp [hrt]⟩
      | false =>
        have hg := placed_erase_empty hrt hre
        rw [erase_root hk'] at hg
        have her : eraseEmptyRoot false node.indexPrevious node.indexNext rest =
            (true, OrdMap.empty) := by
          simp [eraseEmptyRoot, hnx0, hpr0, hrt, hre, erase_root hk']
        exact ⟨OrdMap.empty, by rw [heq, her], chained_empty, hg.trans hp, by simp [placed_empty]⟩
    · have her : eraseEmptyRoot keepRoot node.indexPrevious node.indexNext rest = (true, rest) := by
        simp [eraseEmptyRoot, hpr0, hrt, hre]
      refine ⟨rest, by rw [heq, her], hch, hp, ?_⟩
      · have hc : contents rest rootPage = some root.indexes := by simp [contents, hrt]
        simp [hrt, placed_ne_nil hc hre]
  · obtain ⟨m, hm⟩ := exists_mem_of_ne_nil _ ha
    obtain ⟨c, hc, hcne⟩ := hch.exists_contents (m := m) (by simp [hk', hm])
      (fun he => hrl (he ▸ hm))
    have hkp : ¬ (node.indexNext = rootPage ∧ node.indexPrevious = rootPage) := by
      rintro ⟨hnx0, hpr0⟩
      have hsl : nextOf rest rootPage = rootPage := by
        have hn0 : rootPage ≠ n := hnx0 ▸ hnn
        rw [hrs, unlink, nextOf_erase hn0, nextOf_setIndexPrevious, nextOf_setIndexNext hpm, hpr0,
          if_pos rfl, hnx0]
      exact hrl (hsl ▸ hr'.next_first ha)
    refine ⟨rest, ?_, hch, hp, by simp [hrt, placed_ne_nil hc hcne]⟩
    rw [heq, eraseEmptyRoot, if_neg (fun h => hkp h.2)]

end

variable [LinearOrder K]

theorem dirRemove_spec (h : Chained pages) (hm : (key, n) ∈ placed pages) (keepRoot : Bool) :
    ∃ pages', dirRemove pages n key keepRoot = .ok (true, pages') ∧ Chained pages' ∧
      placed pages' = (placed pages).erase (key, n) ∧
      (pages'.find? rootPage = none ↔ placed pages' = [] ∧ keepRoot = false) := by
  obtain ⟨node, hnd, hkey⟩ := mem_placed.mp hm
  have hp := placed_erase hnd hkey
  have hlen : (node.indexes.erase key).length ≤ dirNodeMaxEntries :=
    length_erase_le.trans (h.size_le n node.indexes (by simp [contents, hnd]))
  have hmem : n ∈ pages.keys := mem_keys_iff.mpr (by simp [hnd])
  obtain ⟨l, hk, hr⟩ := h.ring.resolve_left (ne_nil_of_mem hmem)
  have hf : (pages.modify n (Page.setIndexes (node.indexes.erase key))).find? n =
      some (node.setIndexes (node.indexes.erase key)) := by
    simp [hnd]
  by_cases hl : node.indexes.erase key = []
  · by_cases hn : n = rootPage
    · subst hn
      have hch := h.setIndexes hnd hlen (fun hne => absurd rfl hne)
      obtain ⟨pages', hrem, hch', hpl, hg⟩ := hch.removeRoot hf hl keepRoot
      refine ⟨pages', ?_, hch', hpl.trans hp, hg⟩
      rw [dirRemove, hnd]
      simpa [hkey, hl] using hrem
    · have hnl : n ∈ l := by
        rw [hk] at hmem
        exact (mem_cons.mp hmem).resolve_left hn
      have hs : ∀ m c, contents (pages.modify n (Page.setIndexes (node.indexes.erase key))) m =
          some c → c.length ≤ dirNodeMaxEntries := by
        intro m c hc
        rw [contents_setIndexes hnd] at hc
        split_ifs at hc
        · cases hc
          exact hlen
        · exact h.size_le m c hc
      have hne : ∀ m, m ≠ rootPage → m ≠ n →
          contents (pages.modify n (Page.setIndexes (node.indexes.erase key))) m ≠ some [] := by
        intro m hm0 hmn
        rw [contents_setIndexes hnd, if_neg hmn]
        exact h.nonempty m hm0
      obtain ⟨pages', hrem, hch', hpl, hg⟩ := removePage_spec (by rw [keys_modify, hk])
        (by simpa using hr) hnl hf hl hs hne keepRoot
      refine ⟨pages', ?_, hch', hpl.trans hp, hg⟩
      rw [dirRemove, hnd]
      simpa [hkey, hl, hn] using hrem
  · refine ⟨_, ?_, h.setIndexes hnd hlen (fun _ => hl), hp, ?_⟩
    · rw [dirRemove, hnd]
      simp [hkey, hl]
    have hc : contents (pages.modify n (Page.setIndexes (node.indexes.erase key))) n =
        some (node.indexes.erase key) := by
      rw [contents_setIndexes hnd, if_pos rfl]
    have hrt : rootPage ∈ (pages.modify n (Page.setIndexes (node.indexes.erase key))).keys := by
      simp [hk]
    simp only [placed_ne_nil hc hl, false_and, iff_false]
    rw [find?_eq_none_iff]
    exact fun hnot => hnot hrt

end Remove

end Rippled.Directory
