import Rippled.Ledger.DirectoryEdits

namespace Rippled.Directory

open Lib List

variable {K : Type}

/-- The first entry from a page on, with the page it is on. The call does not return if it finds no end
within the fuel. -/
def firstFrom (pages : Pages K) : Nat → Nat × Page K → Option (Option (K × Nat × Page K))
  | 0, _ => none
  | fuel + 1, (page, node) =>
    match node.indexes with
    | key :: _ => some (some (key, page, node))
    | [] =>
      if node.indexNext = 0 then some none
      else
        match pages.find? node.indexNext with
        | none => some none
        | some next => firstFrom pages fuel (node.indexNext, next)

section Clear

variable {S ε : Type} (dir : S → Pages K) (delete : S → K → Except ε S) (noEnd : ε)

/-- Delete the entries of a directory one after the other. A page that is erased on the way is left
behind empty, with its link to the next one. -/
def clear : Nat → S → Nat × Page K → Except ε S
  | 0, _, _ => .error noEnd
  | fuel + 1, s, position =>
    match firstFrom (dir s) fuel position with
    | none => .error noEnd
    | some none => .ok s
    | some (some (key, page, node)) =>
      match delete s key with
      | .error e => .error e
      | .ok s => clear fuel s (page, ((dir s).find? page).getD { node with indexes := [] })

end Clear

def emptyDirDelete (pages : Pages K) : Except String (Bool × Pages K) :=
  match pages.find? rootPage with
  | none => .ok (false, pages)
  | some node =>
    if !node.indexes.isEmpty then .ok (false, pages)
    else if node.indexNext = rootPage ∧ node.indexPrevious ≠ rootPage then
      .error "Directory chain: fwd link broken"
    else if node.indexPrevious = rootPage ∧ node.indexNext ≠ rootPage then
      .error "Directory chain: rev link broken"
    else if node.indexNext = node.indexPrevious ∧ node.indexNext ≠ rootPage then
      match pages.find? node.indexNext with
      | none => .error "Directory chain: fwd link broken."
      | some last =>
        if !last.indexes.isEmpty then .ok (false, pages)
        else .ok (true, OrdMap.erase (OrdMap.erase pages node.indexNext) rootPage)
    else if node.indexNext = rootPage ∧ node.indexPrevious = rootPage then
      .ok (true, OrdMap.erase pages rootPage)
    else .ok (true, pages)

def dirIsEmpty (pages : Pages K) : Bool :=
  match pages.find? rootPage with
  | none => true
  | some node => node.indexes.isEmpty && node.indexNext = 0

variable {pages pages' : Pages K} {p : Nat}

section Above

variable {q : Nat}

def above (pages : Pages K) (p : Nat) : List Nat := pages.keys.filter (p < ·)

theorem above_append (pre : List Nat) {post : List Nat} (h : pages.keys = pre ++ p :: post) :
    above pages p = post := by
  have hs := pages.sorted_keys
  rw [h, pairwise_append, pairwise_cons] at hs
  obtain ⟨_, ⟨hp, _⟩, hpre⟩ := hs
  have hn : pre.filter (p < ·) = [] := by
    rw [filter_eq_nil_iff]
    intro m hm
    simpa using (hpre m hm p (by simp)).le
  have hall : post.filter (p < ·) = post := by
    rw [filter_eq_self]
    intro m hm
    simpa using hp m hm
  simp [above, h, hn, hall]

theorem above_of_cons {rest : List Nat} (h : above pages p = q :: rest) :
    q ∈ pages.keys ∧ p < q ∧ above pages q = rest := by
  have hq : q ∈ above pages p := by simp [h]
  have hmem := mem_filter.mp hq
  refine ⟨hmem.1, by simpa using hmem.2, ?_⟩
  have hs : (q :: rest).Pairwise (· < ·) := by
    rw [← h]
    exact pages.sorted_keys.filter _
  have ht : above pages q = (above pages p).filter (q < ·) := by
    rw [above, above, filter_filter]
    apply filter_congr
    intro m _
    have hpq : p < q := by simpa using hmem.2
    rw [Bool.eq_iff_iff]
    simp only [decide_eq_true_eq, Bool.and_eq_true]
    omega
  rw [ht, h, filter_cons, if_neg (by simp), filter_eq_self]
  intro m hm
  simpa using rel_of_pairwise_cons hs hm

theorem Chained.nextOf_eq_above (h : Chained pages) (hp : p ∈ pages.keys) :
    nextOf pages p = (above pages p).headD 0 := by
  obtain ⟨l, hk, hr⟩ := h.ring.resolve_left (ne_nil_of_mem hp)
  rw [hk] at hp
  rcases mem_cons.mp hp with rfl | hp
  · rw [above_append [] hk]
    cases l with
    | nil | cons b l =>
      obtain ⟨⟨hn, _⟩, _⟩ := isChain_cons_cons.mp hr
      exact hn
  · obtain ⟨pre, post, rfl⟩ := append_of_mem hp
    rw [above_append (rootPage :: pre) (by rw [hk]; rfl)]
    obtain ⟨_, b, _, _, _, hb, _, _, hn, _⟩ := hr.around
    cases post with
    | nil | cons c post =>
      rw [hn]
      exact (List.cons.inj hb).1.symm

theorem Chained.mem_keys_iff (h : Chained pages) (hp : p ≠ rootPage) :
    p ∈ pages.keys ↔ ∃ k, (k, p) ∈ placed pages := by
  rw [OrdMap.mem_keys_iff]
  constructor
  · intro hs
    obtain ⟨node, hn⟩ := Option.isSome_iff_exists.mp hs
    have hne : node.indexes ≠ [] := fun he => h.nonempty p hp (by simp [contents, hn, he])
    obtain ⟨k, hk⟩ := exists_mem_of_ne_nil _ hne
    exact ⟨k, mem_placed.mpr ⟨node, hn, hk⟩⟩
  · rintro ⟨k, hk⟩
    obtain ⟨node, hn, _⟩ := mem_placed.mp hk
    simp [hn]

end Above

variable {k : K}

section Cleared

variable {node : Page K} {fuel : Nat}

/-- A position from which on all entries are found: no page before it has any. -/
structure At (pages : Pages K) (p : Nat) (node : Page K) : Prop where
  entries : node.indexes = (contents pages p).getD []
  next : node.indexNext = (above pages p).headD 0
  behind : ∀ e ∈ placed pages, e.2 = p ∨ e.2 ∈ above pages p

theorem At.root (h : Chained pages) (hr : pages.find? rootPage = some node) :
    At pages rootPage node where
  entries := by simp [contents, hr]
  next := by
    rw [← nextOf_eq hr]
    exact h.nextOf_eq_above (OrdMap.mem_keys_iff.mpr (by simp [hr]))
  behind := by
    rintro ⟨k, n⟩ he
    obtain ⟨q, hq, _⟩ := mem_placed.mp he
    rcases Nat.eq_zero_or_pos n with h0 | hpos
    · exact .inl h0
    · exact .inr (mem_filter.mpr ⟨OrdMap.mem_keys_iff.mpr (by simp [hq]), decide_eq_true hpos⟩)

theorem At.not_mem (h : At pages p node) (hnil : node.indexes = []) : (k, p) ∉ placed pages := by
  intro hk
  obtain ⟨q, hq, hkq⟩ := mem_placed.mp hk
  have he := h.entries
  rw [hnil, contents, hq] at he
  exact ne_nil_of_mem hkq he.symm

theorem firstFrom_spec (hch : Chained pages) (h : At pages p node) {found : Option (K × Nat × Page K)}
    (hf : firstFrom pages fuel (p, node) = some found) :
    (found = none → placed pages = []) ∧
      ∀ k p' node', found = some (k, p', node') → At pages p' node' ∧ (k, p') ∈ placed pages := by
  induction fuel generalizing p node with
  | zero => cases hf
  | succ fuel ih =>
    rw [firstFrom] at hf
    split at hf
    · next key rest hi =>
      cases hf
      refine ⟨fun heq => absurd heq (Option.some_ne_none _), fun k p' node' heq => ?_⟩
      cases heq
      refine ⟨h, ?_⟩
      have he := h.entries
      rw [hi, contents] at he
      cases hfn : pages.find? p with
      | none =>
        rw [hfn] at he
        cases he
      | some q =>
        rw [hfn] at he
        have hq : key :: rest = q.indexes := he
        exact mem_placed.mpr ⟨q, hfn, by simp [← hq]⟩
    · next hi =>
      have hn := h.next
      cases ha : above pages p with
      | nil =>
        rw [ha, headD_nil] at hn
        rw [hn, if_pos rfl] at hf
        cases hf
        refine ⟨fun _ => ?_, fun _ _ _ heq => absurd heq.symm (Option.some_ne_none _)⟩
        rw [eq_nil_iff_forall_not_mem]
        rintro ⟨k, n⟩ hk
        rcases h.behind _ hk with rfl | hb
        · exact h.not_mem hi hk
        · rw [ha] at hb
          cases hb
      | cons q rest =>
        rw [ha, headD_cons] at hn
        obtain ⟨hq, hlt, hr⟩ := above_of_cons ha
        obtain ⟨next, hfn⟩ := Option.isSome_iff_exists.mp (OrdMap.mem_keys_iff.mp hq)
        rw [hn, if_neg (by omega), hfn] at hf
        refine ih ⟨?_, ?_, ?_⟩ hf
        · simp [contents, hfn]
        · rw [← nextOf_eq hfn]
          exact hch.nextOf_eq_above hq
        rintro ⟨k, n⟩ hk
        rcases h.behind _ hk with rfl | hb
        · exact absurd hk (h.not_mem hi)
        · rw [ha] at hb
          rw [hr]
          exact mem_cons.mp hb

theorem above_congr (hch : Chained pages) (hch' : Chained pages')
    (hs : ∀ e, e ≠ (k, p) → (e ∈ placed pages' ↔ e ∈ placed pages)) :
    above pages' p = above pages p := by
  apply List.Pairwise.eq_of_mem_iff (r := (· < ·)) (pages'.sorted_keys.filter _) (pages.sorted_keys.filter _)
  intro m
  rw [mem_filter, mem_filter]
  refine and_congr_left fun hm => ?_
  have hpm : p < m := by simpa using hm
  have hr : m ≠ rootPage := by
    rw [rootPage]
    omega
  rw [hch'.mem_keys_iff hr, hch.mem_keys_iff hr]
  exact exists_congr fun k' => hs _ fun heq => hpm.ne (congrArg Prod.snd heq).symm

theorem At.deleted (h : At pages p node) (hch : Chained pages)
    (hch' : Chained pages') (hs : ∀ e, e ≠ (k, p) → (e ∈ placed pages' ↔ e ∈ placed pages)) :
    At pages' p ((pages'.find? p).getD { node with indexes := [] }) := by
  have ha := above_congr hch hch' hs
  refine ⟨?_, ?_, ?_⟩
  · cases hf : pages'.find? p <;> simp [contents, hf]
  · cases hf : pages'.find? p with
    | none =>
      rw [ha]
      exact h.next
    | some q =>
      have hmem : p ∈ pages'.keys := OrdMap.mem_keys_iff.mpr (by simp [hf])
      have hn := hch'.nextOf_eq_above hmem
      rw [nextOf_eq hf] at hn
      exact hn
  · intro e he
    rw [ha]
    by_cases heq : e = (k, p)
    · exact .inl (congrArg Prod.snd heq)
    · exact h.behind e ((hs e heq).mp he)

/-- A loop that deletes the entries of a directory one after the other ends with none left. -/
theorem clear_spec {S ε : Type} {dir : S → Pages K} {delete : S → K → Except ε S} {noEnd : ε} {s s' : S}
    (I : S → Prop) (hI : ∀ s, I s → Chained (dir s))
    (hd : ∀ s s' k p, I s → (k, p) ∈ placed (dir s) → delete s k = .ok s' →
      I s' ∧ ∀ e, e ≠ (k, p) → (e ∈ placed (dir s') ↔ e ∈ placed (dir s)))
    (hs : I s) (hat : At (dir s) p node) (h : clear dir delete noEnd fuel s (p, node) = .ok s') :
    I s' ∧ placed (dir s') = [] := by
  induction fuel generalizing s p node with
  | zero => cases h
  | succ fuel ih =>
    rw [clear] at h
    split at h
    · cases h
    · next hf =>
      cases h
      exact ⟨hs, (firstFrom_spec (hI _ hs) hat hf).1 rfl⟩
    · next k q node' hf =>
      obtain ⟨hat', hk⟩ := (firstFrom_spec (hI s hs) hat hf).2 k q node' rfl
      split at h
      · cases h
      · next s₁ hdel =>
        obtain ⟨hs₁, hsm⟩ := hd s s₁ k q hs hk hdel
        exact ih hs₁ (hat'.deleted (hI s hs) (hI s₁ hs₁) hsm) h

end Cleared

theorem emptyDirDelete_spec {pages pages' : Pages K} {b : Bool} (h : Chained pages)
    (hnil : placed pages = []) (hd : emptyDirDelete pages = .ok (b, pages')) :
    Chained pages' ∧ placed pages' = [] := by
  have hky : ∀ m ∈ pages.keys, m = rootPage := by
    intro m hm
    by_contra hne
    obtain ⟨k, hk⟩ := (h.mem_keys_iff hne).mp hm
    rw [hnil] at hk
    cases hk
  rw [emptyDirDelete] at hd
  split at hd
  · cases hd
    exact ⟨h, hnil⟩
  · next node hn =>
    obtain ⟨l, hk, hrn⟩ := h.keys_eq hn
    have hl : l = [] := by
      rw [eq_nil_iff_forall_not_mem]
      intro m hm
      have hr := hky m (by simp [hk, hm])
      have hnd := pages.nodup_keys
      rw [hk, nodup_cons] at hnd
      exact hnd.1 (hr ▸ hm)
    have hg := erase_root (by rw [hk, hl])
    have hnx : node.indexNext = 0 := by
      rw [← nextOf_eq hn, h.nextOf_eq_above (by simp [hk]), above_append [] (by rw [hk]; rfl), hl]
      rfl
    split_ifs at hd with _ _ _ hs
    · cases hd
      exact ⟨h, hnil⟩
    · exact absurd hnx hs.2
    · cases hd
      rw [hg]
      exact ⟨chained_empty, placed_empty⟩
    · cases hd
      exact ⟨h, hnil⟩

/-- A directory in order, in which no key is found twice. -/
structure Tidy (pages : Pages K) : Prop where
  chained : Chained pages
  once : ((placed pages).map Prod.fst).Nodup

/-- Entries other than those of the key are the same, and none are new. -/
structure Leaves (k : K) (pages pages' : Pages K) : Prop where
  subset : ∀ e ∈ placed pages', e ∈ placed pages
  others : ∀ e ∈ placed pages, e.1 ≠ k → e ∈ placed pages'

section Tidy

variable {n m : Nat}

theorem Tidy.page_unique (h : Tidy pages) (hn : (k, n) ∈ placed pages) (hm : (k, m) ∈ placed pages) :
    n = m :=
  congrArg Prod.snd (inj_on_of_nodup_map h.once hn hm rfl)

theorem Leaves.mem_iff (h : Leaves k pages pages') (ht : Tidy pages) (hk : (k, n) ∈ placed pages)
    (e : K × Nat) (he : e ≠ (k, n)) : e ∈ placed pages' ↔ e ∈ placed pages := by
  refine ⟨h.subset e, fun hmem => h.others e hmem fun heq => he ?_⟩
  obtain ⟨k', m⟩ := e
  cases heq
  rw [ht.page_unique hk hmem]

variable [LinearOrder K]

theorem Tidy.dirRemove (h : Tidy pages) {keepRoot : Bool}
    (hr : dirRemove pages n k keepRoot = .ok (true, pages')) :
    Tidy pages' ∧ Leaves k pages pages' ∧ (k, n) ∈ placed pages ∧ ∀ m, (k, m) ∉ placed pages' := by
  have hk : (k, n) ∈ placed pages := by
    rw [Directory.dirRemove] at hr
    split at hr
    · cases hr
    · next node hn =>
      by_cases hmem : k ∈ node.indexes
      · exact mem_placed.mpr ⟨node, hn, hmem⟩
      · rw [if_pos hmem] at hr
        cases hr
  obtain ⟨pages₁, hr₁, hch, hp, _⟩ := dirRemove_spec h.chained hk keepRoot
  cases hr.symm.trans hr₁
  have hnd : (placed pages).Nodup := h.once.of_map _
  refine ⟨⟨hch, ?_⟩, ⟨?_, ?_⟩, hk, ?_⟩
  · rw [hp]
    exact h.once.sublist (erase_sublist.map _)
  · intro e he
    rw [hp] at he
    exact mem_of_mem_erase he
  · intro e he hne
    rw [hp]
    exact (mem_erase_of_ne fun heq => hne (congrArg Prod.fst heq)).mpr he
  · intro m hm
    rw [hp, hnd.mem_erase_iff] at hm
    exact hm.1 (by rw [h.page_unique hm.2 hk])

theorem Tidy.dirAdd (h : Tidy pages) {preserveOrder : Bool} (hk : k ∉ (placed pages).map Prod.fst)
    (ha : dirAdd preserveOrder pages k = .ok (some n, pages')) :
    Tidy pages' ∧ ∀ e, e ∈ placed pages' ↔ e ∈ placed pages ∨ e = (k, n) := by
  rcases dirAdd_spec preserveOrder h.chained hk with ⟨hn, _⟩ | ⟨page, pages₁, hadd, hch, _, hp, _⟩
  · cases ha.symm.trans hn
  cases ha.symm.trans hadd
  refine ⟨⟨hch, ?_⟩, fun e => ?_⟩
  · refine ((hp.map Prod.fst).nodup_iff).mpr ?_
    rw [map_append]
    refine nodup_append.mpr ⟨h.once, by simp, fun x hx y hy hxy => hk ?_⟩
    have hyk : y = k := by simpa using hy
    rw [← hyk, ← hxy]
    exact hx
  · rw [hp.mem_iff, mem_append, mem_singleton]

end Tidy

end Rippled.Directory
