import Mathlib.Data.Multiset.Bind
import Mathlib.Tactic.Abel
import Rippled.LedgerTrie.Invariant

namespace Rippled.LedgerTrie

open List Multiset

open Ledger hiding id

section

variable {α β : Type}

theorem countP_replicate (p : α → Prop) [DecidablePred p] (k : Nat) (a : α) :
    (Multiset.replicate k a).countP p = if p a then k else 0 := by
  rw [← coe_replicate, coe_countP, List.countP_replicate]
  simp

theorem countP_sum (p : α → Prop) [DecidablePred p] (f : β → Multiset α) (l : List β) :
    (l.map f).sum.countP p = (l.map (fun b => (f b).countP p)).sum := by
  have h := map_list_sum (countPAddMonoidHom p) (l.map f)
  rwa [List.map_map] at h

theorem card_sum (f : β → Multiset α) (l : List β) :
    (l.map f).sum.card = (l.map (fun b => (f b).card)).sum := by
  have h := map_list_sum cardHom (l.map f)
  rwa [List.map_map] at h

theorem mem_sum {f : β → Multiset α} {l : List β} {a : α} (h : a ∈ (l.map f).sum) :
    ∃ b ∈ l, a ∈ f b := by
  have h' : a ∈ (l : Multiset β).bind f := by
    rwa [Multiset.bind, Multiset.join, map_coe, sum_coe]
  exact mem_bind.mp h'

end

variable {L ID : Type} [Ledger L ID] {c : Node L} {s : List ID} {n : Node L}

namespace Node

/-- The supported histories below a node, each as often as it has tip support. -/
def supported (n : Node L) : Multiset (List ID) :=
  (n.nodes.map (fun m => Multiset.replicate m.tipSupport m.key)).sum

theorem supported_eq (n : Node L) :
    n.supported = Multiset.replicate n.tipSupport n.key + (n.children.map supported).sum := by
  rw [supported, nodes_eq, List.map_cons, List.sum_cons]
  congr 1
  induction n.children with
  | nil => rfl
  | cons c cs ih => rw [flatMap_cons, List.map_append, List.sum_append, ih]; rfl

theorem countP_supported (p : List ID → Prop) [DecidablePred p] (n : Node L) :
    n.supported.countP p = (if p n.key then n.tipSupport else 0) +
      (n.children.map (fun c => c.supported.countP p)).sum := by
  rw [supported_eq, countP_add, countP_sum, countP_replicate]

theorem card_supported (h : n.Good) : n.supported.card = n.branchSupport := by
  induction n using Node.induct with
  | h n ih =>
    have hs : ((n.children.map supported).sum).card = (n.children.map branchSupport).sum := by
      rw [card_sum]
      exact congrArg List.sum (map_congr_left (fun c hc => ih c hc (h.child c hc).1))
    rw [supported_eq, card_add, card_replicate, hs, h.here.branch]

def entry (n : Node L) : List ID := hist n.span.ledger_ (n.span.start_ + 1)

theorem entry_prefix_key (n : Node L) : n.entry <+: n.key := hist_isPrefix _ n.span.nonempty

theorem Local.entry_eq (h : n.Local) (hc : c ∈ n.children) :
    c.entry = n.key ++ [c.span.startID] := by
  rw [entry, hist_succ, h.start c hc, h.history c hc, Span.startID, h.start c hc]

theorem Local.key_prefix_entry (h : n.Local) (hc : c ∈ n.children) : n.key <+: c.entry := by
  rw [h.entry_eq hc]
  exact prefix_append _ _

variable {m : Node L}

theorem Good.entry_isPrefix (h : n.Good) (hm : m ∈ n.nodes) : n.entry <+: m.entry := by
  induction n using Node.induct with
  | h n ih =>
    rcases mem_nodes_iff.mp hm with rfl | ⟨c, hc, hm⟩
    · exact prefix_rfl
    · exact (n.entry_prefix_key.trans (h.here.key_prefix_entry hc)).trans
        (ih c hc (h.child c hc).1 hm)

theorem Good.key_isPrefix (h : n.Good) (hm : m ∈ n.nodes) : n.key <+: m.key := by
  rcases mem_nodes_iff.mp hm with rfl | ⟨c, hc, hm⟩
  · exact prefix_rfl
  · exact ((h.here.key_prefix_entry hc).trans ((h.child c hc).1.entry_isPrefix hm)).trans
      m.entry_prefix_key

theorem mem_supported (h : s ∈ n.supported) : ∃ m ∈ n.nodes, m.tipSupport ≠ 0 ∧ s = m.key := by
  obtain ⟨m, hm, hs⟩ := mem_sum h
  obtain ⟨hk, rfl⟩ := Multiset.mem_replicate.mp hs
  exact ⟨m, hm, hk, rfl⟩

theorem Good.key_prefix_of_supported (h : n.Good) (hs : s ∈ n.supported) : n.key <+: s := by
  obtain ⟨m, hm, _, rfl⟩ := mem_supported hs
  exact h.key_isPrefix hm

variable {q : List ID}

section Count

variable {p : List ID → Prop} [DecidablePred p]

theorem countP_eq_zero_of (h : ∀ s ∈ n.supported, ¬ p s) : n.supported.countP p = 0 :=
  countP_eq_zero.mpr h

variable (h : n.Good) (hp : ∀ s, p s → q <+: s)

include h hp

theorem Good.countP_off_path (hlen : n.entry.length ≤ q.length) (hoff : ¬ n.entry <+: q) :
    n.supported.countP p = 0 := by
  refine countP_eq_zero_of (fun s hs hps => hoff ?_)
  exact prefix_of_prefix_length_le
    (n.entry_prefix_key.trans (h.key_prefix_of_supported hs)) (hp s hps) hlen

theorem Good.countP_child (hc : c ∈ n.children) (hq : c.entry <+: q) :
    n.supported.countP p = c.supported.countP p := by
  have hlen : ∀ d ∈ n.children, d.entry.length = n.key.length + 1 := fun d hd => by
    rw [h.here.entry_eq hd]
    simp
  have hkey : ¬ p n.key := fun hpk => by
    have h1 := (hp _ hpk).length_le
    have h2 := hq.length_le
    rw [hlen c hc] at h2
    omega
  rw [countP_supported, if_neg hkey, Nat.zero_add]
  obtain ⟨left, right, hlr⟩ := append_of_mem hc
  have ho : ∀ d, (d ∈ left ∨ d ∈ right) → d.supported.countP p = 0 := by
    intro d hd
    have hd' : d ∈ n.children := by
      rw [hlr]
      rcases hd with hd | hd <;> simp [hd]
    have hne : d.span.startID ≠ c.span.startID := by
      have hs := h.here.starts
      rw [hlr, pairwise_append, pairwise_cons] at hs
      rcases hd with hd | hd
      · exact hs.2.2 d hd c (by simp)
      · exact Ne.symm (hs.2.1.1 d hd)
    refine (h.child d hd').1.countP_off_path hp ?_ (fun hdq => hne ?_)
    · rw [hlen d hd', ← hlen c hc]
      exact hq.length_le
    have he : d.entry = c.entry := List.IsPrefix.eq_of_length
      (prefix_of_prefix_length_le hdq hq (by rw [hlen d hd', hlen c hc]))
      (by rw [hlen d hd', hlen c hc])
    rw [h.here.entry_eq hd', h.here.entry_eq hc] at he
    simpa using he
  have hz : ∀ l : List (Node L), (∀ d ∈ l, d.supported.countP p = 0) →
      (l.map (fun d => d.supported.countP p)).sum = 0 := by
    intro l hl
    exact sum_eq_zero (by simpa using hl)
  rw [hlr, List.map_append, List.map_cons, List.sum_append, List.sum_cons,
    hz left (fun d hd => ho d (.inl hd)), hz right (fun d hd => ho d (.inr hd))]
  omega

theorem Good.countP_of_mem (hm : m ∈ n.nodes) (hq : m.entry <+: q) :
    n.supported.countP p = m.supported.countP p := by
  induction n using Node.induct with
  | h n ih =>
    rcases mem_nodes_iff.mp hm with rfl | ⟨c, hc, hm⟩
    · rfl
    · have hg := (h.child c hc).1
      rw [h.countP_child hp hc ((hg.entry_isPrefix hm).trans hq)]
      exact ih c hc hg hm

end Count

variable [DecidableEq ID]

theorem Good.countP_isPrefix (h : n.Good) (hm : m ∈ n.nodes) (hq : m.entry <+: q)
    (hk : q <+: m.key) : n.supported.countP (fun s => q <+: s) = m.branchSupport := by
  have hg := h.of_mem hm
  rw [h.countP_of_mem (fun _ hs => hs) hm hq, ← card_supported hg, countP_eq_card]
  exact fun s hs => hk.trans (hg.key_prefix_of_supported hs)

theorem Good.count_key (h : n.Good) (hm : m ∈ n.nodes) :
    n.supported.count m.key = m.tipSupport := by
  have hg := h.of_mem hm
  have hp : ∀ s : List ID, m.key = s → m.key <+: s := fun s hs => hs ▸ prefix_rfl
  rw [Multiset.count, h.countP_of_mem hp hm m.entry_prefix_key, countP_supported, if_pos rfl]
  have hz : (m.children.map (fun c => c.supported.countP (m.key = ·))).sum = 0 := by
    refine sum_eq_zero (fun k hk => ?_)
    obtain ⟨c, hc, rfl⟩ := mem_map.mp hk
    refine countP_eq_zero_of (fun s hs he => ?_)
    have h1 := (((hg.child c hc).1.key_prefix_of_supported hs)).length_le
    have h2 := (c.entry_prefix_key).length_le
    rw [hg.here.entry_eq hc, length_append, length_singleton, he] at h2
    omega
  rw [hz, Nat.add_zero]

theorem count_key_eq_zero (h : ∀ m ∈ n.nodes, m.key ≠ q) : n.supported.count q = 0 := by
  refine count_eq_zero.mpr (fun hs => ?_)
  obtain ⟨m, hm, _, rfl⟩ := mem_supported hs
  exact h m hm rfl

end Node

variable (fs : List (Frame L))

def ctxSupported : Multiset (List ID) :=
  (fs.map (fun f => Multiset.replicate f.tipSupport (hist f.span.ledger_ f.span.end_) +
    ((f.left ++ f.right).map Node.supported).sum)).sum

@[simp] theorem ctxSupported_update (step : Nat → Nat) (fs : List (Frame L)) :
    ctxSupported (fs.map (Frame.update step)) = ctxSupported fs := by
  simp only [ctxSupported, List.map_map]
  rfl

theorem supported_plug (n : Node L) : (plug fs n).supported = n.supported + ctxSupported fs := by
  induction fs generalizing n with
  | nil => simp [plug, ctxSupported]
  | cons f fs ih =>
    rw [plug, ih, Node.supported_eq]
    simp only [Frame.plug, Node.key, ctxSupported, List.map_append, List.map_cons, List.sum_append,
      List.sum_cons]
    abel

open LawfulLedger

theorem findFrom_eq (l : L) (n : Node L) (pos : Nat) : findFrom l n pos =
      if pos = n.span.end_ then (findAmong l n.children pos).getD (n, pos) else (n, pos) := by
  cases n
  rw [findFrom]

theorem findAmong_eq (l : L) (cs : List (Node L)) (pos : Nat) :
    findAmong l cs pos = (cs.find? (fun c => decide (pos < c.span.diff l))).map
      (fun c => findFrom l c (c.span.diff l)) := by
  induction cs with
  | nil => rfl
  | cons c cs ih =>
    rw [findAmong, List.find?_cons]
    split_ifs with h
    · simp [h]
    · simp [h, ih]

/-- Where a search ends: at a node that the ledger runs through, with the first difference inside
its span or at its end, where no child continues. -/
structure Located (root : Node L) (l : L) (loc : Node L) (pos : Nat) : Prop where
  mem : loc ∈ root.nodes
  pos_eq : pos = loc.span.diff l
  through : loc.span.start_ < pos
  stuck : pos = loc.span.end_ → ∀ c ∈ loc.children, c.span.diff l ≤ pos

theorem findFrom_located (l : L) (n : Node L) (h : n.span.start_ < n.span.diff l) (hg : n.Good) :
    Located n l (findFrom l n (n.span.diff l)).1 (findFrom l n (n.span.diff l)).2 := by
  induction n using Node.induct with
  | h n ih =>
    rw [findFrom_eq]
    split_ifs with hend
    · rw [findAmong_eq]
      cases hf : n.children.find? (fun c => decide (n.span.diff l < c.span.diff l)) with
      | none =>
        refine ⟨n.mem_nodes_self, rfl, h, fun _ c hc => ?_⟩
        simpa using find?_eq_none.mp hf c hc
      | some c =>
        have hc := mem_of_find?_eq_some hf
        have hlt : n.span.diff l < c.span.diff l := by simpa using find?_some hf
        have hs : c.span.start_ < c.span.diff l := by
          rw [hg.here.start c hc, ← hend]
          exact hlt
        have hloc := ih c hc hs (hg.child c hc).1
        exact ⟨Node.mem_nodes_iff.mpr (.inr ⟨c, hc, hloc.mem⟩), hloc.pos_eq, hloc.through, hloc.stuck⟩
    · exact ⟨n.mem_nodes_self, rfl, h, fun he => absurd he hend⟩

theorem findByLedgerIDFrom_eq [DecidableEq ID] (l : L) (n : Node L) :
    findByLedgerIDFrom l n = n.nodes.find? (fun m => decide (Ledger.id l = m.span.tip.id)) := by
  induction n using Node.induct with
  | h n ih =>
    have hcs : ∀ cs : List (Node L), (∀ c ∈ cs, c ∈ n.children) → findByLedgerIDAmong l cs =
          (cs.flatMap Node.nodes).find? (fun m => decide (Ledger.id l = m.span.tip.id)) := by
      intro cs hcs
      induction cs with
      | nil => rfl
      | cons c cs ihcs =>
        rw [findByLedgerIDAmong, flatMap_cons, find?_append, ih c (hcs c (by simp)),
          ihcs (fun d hd => hcs d (by simp [hd]))]
    rw [Node.nodes_eq, List.find?_cons]
    have hn := hcs n.children (fun _ hc => hc)
    cases n with
    | mk a p span t b cs =>
      rw [findByLedgerIDFrom, hn]
      split_ifs with h
      · simp [h]
      · simp [h]

theorem start_lt_diff_iff {l : L} :
    n.span.start_ < n.span.diff l ↔ n.span.start_ < mismatch n.span.ledger_ l := by
  have := n.span.nonempty
  simp only [Span.diff, Span.clamp]
  omega

section Lawful

variable [LawfulLedger L] {l : L}

theorem start_lt_diff_iff_entry (hend : n.span.end_ ≤ seq n.span.ledger_ + 1) :
    n.span.start_ < n.span.diff l ↔ n.entry <+: chain l := by
  rw [start_lt_diff_iff, lt_mismatch_iff, Node.entry, chain, hist_prefix_iff]
  have := n.span.nonempty
  constructor
  · rintro ⟨_, h, he⟩
    exact ⟨by omega, he⟩
  · rintro ⟨h, he⟩
    exact ⟨by omega, by omega, he⟩

namespace Located

variable {root loc : Node L} {pos : Nat}

section

omit [LawfulLedger L]

variable (h : Located root l loc pos)

include h

theorem pos_eq_min : pos = min (mismatch loc.span.ledger_ l) loc.span.end_ := by
  have h1 := h.pos_eq
  have h2 := h.through
  simp only [Span.diff, Span.clamp] at h1
  omega

theorem pos_le_end : pos ≤ loc.span.end_ := by
  have := h.pos_eq_min
  omega

end

variable (h : Located root l loc pos)

include h

theorem pos_le_seq : pos ≤ seq l + 1 := by
  have h1 := h.pos_eq_min
  have h2 := mismatch_le loc.span.ledger_ l
  omega

theorem hist_eq : hist loc.span.ledger_ pos = hist l pos := by
  refine hist_eq_iff.mpr (fun s hs => ancestor_eq_of_lt_mismatch ?_)
  have := h.pos_eq_min
  omega

theorem entry_isPrefix : loc.entry <+: chain l := by
  have he := hist_eq_iff.mpr (fun s hs => hist_eq_iff.mp h.hist_eq s (lt_of_lt_of_le hs h.through))
  rw [Node.entry, he]
  exact hist_isPrefix l (h.through.trans_le h.pos_le_seq)

theorem ancestor_ne (hend : loc.span.end_ ≤ seq loc.span.ledger_ + 1) (h1 : pos < loc.span.end_)
    (h2 : pos ≤ seq l) : ancestor loc.span.ledger_ pos ≠ ancestor l pos := by
  have hm : mismatch loc.span.ledger_ l = pos := by
    have := h.pos_eq_min
    omega
  have := ancestor_mismatch_ne (a := loc.span.ledger_) (b := l) (by omega)
  rwa [hm] at this

theorem startID_ne (hg : loc.Good) (h1 : pos = loc.span.end_) {c : Node L} (hc : c ∈ loc.children)
    (h2 : pos ≤ seq l) : c.span.startID ≠ ancestor l pos := by
  intro he
  have hs := h.stuck h1 c hc
  have hst := hg.here.start c hc
  have hlt : c.span.start_ < c.span.diff l := by
    refine (start_lt_diff_iff_entry (hg.child c hc).1.here.end_le).mpr ?_
    rw [hg.here.entry_eq hc, he, Node.key, ← h1, h.hist_eq, ← hist_succ]
    exact hist_isPrefix l (by omega)
  omega

end Located

theorem Node.tip_id_eq_iff (hend : n.span.end_ ≤ seq n.span.ledger_ + 1) :
    Ledger.id l = n.span.tip.id ↔ n.key = chain l := by
  have hpos : 0 < n.span.end_ := lt_of_le_of_lt (Nat.zero_le _) n.span.nonempty
  constructor
  · intro h
    exact chain_eq_of_id hpos hend h.symm
  intro h
  have hlen : n.span.end_ = seq l + 1 := by simpa [Node.key] using congrArg List.length h
  have he := ancestor_eq_of_isPrefix (p := seq l) (h ▸ prefix_rfl : chain l <+: n.key)
    (prefix_rfl : n.key <+: n.key) (Nat.lt_succ_self _) (by omega)
  rw [ancestor_seq] at he
  simpa [Span.tip, hlen] using he

namespace Trie

variable {t : Trie L}

theorem Inv.find_located (h : t.Inv) (l : L) : Located t.root l (t.find l).1 (t.find l).2 := by
  refine findFrom_located l t.root ?_ h.good
  rw [start_lt_diff_iff, lt_mismatch_iff, h.root_start]
  exact ⟨Nat.zero_le _, Nat.zero_le _, by rw [chain_zero, chain_zero]⟩

variable [DecidableEq ID]

variable (h : t.Inv)

include h

theorem Inv.findByLedgerID_some {loc : Node L} (hf : t.findByLedgerID l = some loc) :
    loc ∈ t.root.nodes ∧ loc.key = chain l := by
  rw [findByLedgerID, findByLedgerIDFrom_eq] at hf
  have hm := mem_of_find?_eq_some hf
  have hid : Ledger.id l = loc.span.tip.id := by simpa using find?_some hf
  exact ⟨hm, (Node.tip_id_eq_iff (h.good.of_mem hm).here.end_le).mp hid⟩

theorem Inv.findByLedgerID_none (hf : t.findByLedgerID l = none) :
    ∀ m ∈ t.root.nodes, m.key ≠ chain l := by
  intro m hm hk
  rw [findByLedgerID, findByLedgerIDFrom_eq] at hf
  have hne := find?_eq_none.mp hf m hm
  exact hne (by simpa using (Node.tip_id_eq_iff (h.good.of_mem hm).here.end_le).mpr hk)

theorem Inv.tipSupport_eq (l : L) : t.tipSupport l = t.root.supported.count (chain l) := by
  rw [tipSupport]
  cases hf : t.findByLedgerID l with
  | none => exact (Node.count_key_eq_zero (h.findByLedgerID_none hf)).symm
  | some loc =>
    obtain ⟨hm, hk⟩ := h.findByLedgerID_some hf
    rw [← hk, h.good.count_key hm]

theorem Inv.countP_eq_zero (hf : t.findByLedgerID l = none)
    (hout : ¬ (seq l < (t.find l).2 ∧ seq l < (t.find l).1.span.end_)) :
    t.root.supported.countP (fun s => chain l <+: s) = 0 := by
  cases hfn : t.find l with
  | mk loc pos =>
    have hloc : Located t.root l loc pos := by simpa [hfn] using h.find_located l
    have hg := h.good.of_mem hloc.mem
    have hle := hloc.pos_le_end
    have hseq := hloc.pos_le_seq
    simp only [hfn] at hout
    rw [h.good.countP_of_mem (fun _ hs => hs) hloc.mem hloc.entry_isPrefix]
    refine Node.countP_eq_zero_of (fun s hs hpre => ?_)
    have hkey := hg.key_prefix_of_supported hs
    rcases Nat.lt_or_ge pos loc.span.end_ with hlt | hge
    · exact hloc.ancestor_ne hg.here.end_le hlt (by omega)
        (ancestor_eq_of_isPrefix hkey hpre hlt (by omega))
    have hpos : pos = loc.span.end_ := by omega
    have hlt : pos ≤ seq l := by
      by_contra hn
      have hk : loc.key = chain l := by
        rw [Node.key, chain, ← hpos, hloc.hist_eq]
        congr 1
        omega
      exact h.findByLedgerID_none hf loc hloc.mem hk
    obtain ⟨m, hm, _, rfl⟩ := Node.mem_supported hs
    rcases Node.mem_nodes_iff.mp hm with rfl | ⟨c, hc, hm⟩
    · have := hpre.length_le
      simp [Node.key] at this
      omega
    have hst := hg.here.start c hc
    have hce := ((hg.child c hc).1.entry_isPrefix hm).trans m.entry_prefix_key
    refine hloc.startID_ne hg hpos hc hlt ?_
    rw [Span.startID, hst, ← hpos]
    exact ancestor_eq_of_isPrefix hce hpre (by omega) (by omega)

theorem Inv.branchSupport_eq (l : L) :
    t.branchSupport l = t.root.supported.countP (fun s => chain l <+: s) := by
  rw [branchSupport]
  cases hf : t.findByLedgerID l with
  | some loc =>
    obtain ⟨hm, hk⟩ := h.findByLedgerID_some hf
    rw [← hk, h.good.countP_isPrefix hm loc.entry_prefix_key prefix_rfl]
  | none =>
    have hloc := h.find_located l
    change (if seq l < (t.find l).2 ∧ seq l < (t.find l).1.span.end_ then
      (t.find l).1.branchSupport else 0) = _
    split_ifs with hin
    · have hk : chain l <+: (t.find l).1.key := by
        rw [chain, Node.key, hist_prefix_iff]
        refine ⟨by omega, hist_eq_iff.mpr (fun s hs => ?_)⟩
        exact (hist_eq_iff.mp hloc.hist_eq s (by omega)).symm
      rw [h.good.countP_isPrefix hloc.mem hloc.entry_isPrefix hk]
    · exact (h.countP_eq_zero hf hin).symm

end Trie

end Lawful

end Rippled.LedgerTrie
