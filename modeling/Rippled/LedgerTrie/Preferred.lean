import Rippled.LedgerTrie.Remove
import Rippled.LedgerTrie.PlainWalk

namespace Rippled.LedgerTrie

open List Multiset

open Ledger hiding id
open Lib

variable {L ID : Type} [Ledger L ID]

def seqCount (S : Multiset (List ID)) (s : Nat) : Nat := S.countP (fun h => h.length = s + 1)

/-- The map holds, for each sequence number with support, the amount of it. -/
def Tallies (m : OrdMap Nat Nat) (S : Multiset (List ID)) : Prop :=
  ∀ s, m.find? s = if seqCount S s = 0 then none else some (seqCount S s)

theorem seqCount_add_replicate (S : Multiset (List ID)) (k s : Nat) (h : List ID) :
    seqCount (S + Multiset.replicate k h) s = seqCount S s + if h.length = s + 1 then k else 0 := by
  rw [seqCount, countP_add, countP_replicate]
  rfl

theorem seqCount_le_card (S : Multiset (List ID)) (s : Nat) : seqCount S s ≤ S.card :=
  countP_le_card _ _

theorem tallies_empty : Tallies OrdMap.empty (0 : Multiset (List ID)) := fun s => by
  simp [seqCount]

variable {S : Multiset (List ID)}

section Tallies

variable {m : OrdMap Nat Nat} {h : List ID} {s k : Nat}

theorem Tallies.getD (ht : Tallies m S) (s : Nat) : (m.find? s).getD 0 = seqCount S s := by
  rw [ht s]
  split_ifs with h0
  · exact h0.symm
  · rfl

theorem Tallies.add (ht : Tallies m S) (hlen : h.length = s + 1) (hk : 0 < k)
    (hb : S.card + k < 2 ^ 32) :
    Tallies (m.alter s (fun v => some (add32 (v.getD 0) k))) (S + Multiset.replicate k h) := by
  intro s'
  have hle := seqCount_le_card S s
  rw [OrdMap.find?_alter, seqCount_add_replicate]
  by_cases hs : s' = s
  · subst hs
    rw [if_pos rfl, if_pos hlen, ht.getD, add32_eq (by omega), if_neg (by omega)]
  · have hne : h.length ≠ s' + 1 := by omega
    rw [if_neg hs, if_neg hne, Nat.add_zero, ht s']

theorem Tallies.sub (ht : Tallies m (S + Multiset.replicate k h)) (hlen : h.length = s + 1)
    (hb : S.card + k < 2 ^ 32) : Tallies (m.alter s (fun v => v.bind (fun n =>
      if sub32 n k = 0 then none else some (sub32 n k)))) S := by
  intro s'
  have hle := seqCount_le_card S s
  have htl := ht s'
  rw [seqCount_add_replicate] at htl
  rw [OrdMap.find?_alter]
  by_cases hs : s' = s
  · subst hs
    rw [if_pos hlen] at htl
    rw [if_pos rfl, htl]
    by_cases h0 : seqCount S s' + k = 0
    · rw [if_pos h0, if_pos (by omega)]
      rfl
    · rw [if_neg h0, Option.bind_some, sub32_eq (by omega) (by omega), Nat.add_sub_cancel]
  · have hne : h.length ≠ s' + 1 := by omega
    rw [if_neg hne, Nat.add_zero] at htl
    rw [if_neg hs, htl]

theorem Tallies.unique {m' : OrdMap Nat Nat} (ht : Tallies m S) (ht' : Tallies m' S) : m = m' :=
  OrdMap.ext_find? (fun s => (ht s).trans (ht' s).symm)

end Tallies

/-- The contribution of one visited node. -/
theorem Tallies.visit {m : OrdMap Nat Nat} {S : Multiset (List ID)} (ht : Tallies m S)
    (n : Node L) (hb : S.card + n.tipSupport < 2 ^ 32) : Tallies (if n.tipSupport ≠ 0 then
        m.alter (n.span.end_ - 1) (fun v => some (add32 (v.getD 0) n.tipSupport)) else m)
      (S + Multiset.replicate n.tipSupport n.key) := by
  split_ifs with h0
  · have hend := n.span.nonempty
    refine ht.add ?_ (Nat.pos_of_ne_zero h0) hb
    rw [Node.key, hist_length]
    omega
  · rw [not_not.mp h0, Multiset.replicate_zero, add_zero]
    exact ht

/-- The traversal accepts every stack of well-formed nodes and adds up their support. -/
theorem checkNodes_tallies (rootAddr fuel : Nat) (stack : List (Node L)) (m : OrdMap Nat Nat)
    (S : Multiset (List ID)) (hf : (stack.map (fun n => n.nodes.length)).sum ≤ fuel)
    (hgd : ∀ n ∈ stack, n.Good ∧ (n.addr ≠ rootAddr → n.Compressed)) (ht : Tallies m S)
    (hb : S.card + ((stack.map Node.supported).sum).card < 2 ^ 32) :
    ∃ m', checkNodes rootAddr fuel stack m = some m' ∧
      Tallies m' (S + (stack.map Node.supported).sum) := by
  induction fuel generalizing stack m S with
  | zero =>
    cases stack with
    | nil => exact ⟨m, rfl, by simpa using ht⟩
    | cons n rest =>
      rw [List.map_cons, List.sum_cons, n.nodes_eq, List.length_cons] at hf
      omega
  | succ fuel ih =>
    cases stack with
    | nil => exact ⟨m, rfl, by simpa using ht⟩
    | cons n rest =>
      obtain ⟨hg, hc⟩ := hgd n (by simp)
      have hfr : ¬ (n.addr ≠ rootAddr ∧ n.tipSupport = 0 ∧ n.children.length < 2) :=
        fun h => absurd (hc h.1 h.2.1) (not_le.mpr h.2.2)
      have hsum : S + ((n :: rest).map Node.supported).sum =
          S + Multiset.replicate n.tipSupport n.key +
            ((n.children.reverse ++ rest).map Node.supported).sum := by
        rw [List.map_cons, List.sum_cons, n.supported_eq, List.map_append, List.sum_append,
          List.map_reverse, List.sum_reverse]
        abel
      have hch : n.children.all (fun c => c.parent == some n.addr) ∧
          n.tipSupport + (n.children.map Node.branchSupport).sum = n.branchSupport := by
        refine ⟨List.all_eq_true.mpr (fun c hc => ?_), hg.here.branch.symm⟩
        simpa using hg.here.parent c hc
      have hcr := congrArg Multiset.card hsum
      simp only [card_add, card_replicate] at hcr
      rw [checkNodes, if_neg hfr]
      simp only [hch, and_self, if_true]
      rw [hsum]
      refine ih _ _ _ ?_ ?_ (ht.visit n ?_) ?_
      · rw [List.map_cons, List.sum_cons, n.nodes_eq, List.length_cons, List.length_flatMap] at hf
        rw [List.map_append, List.sum_append, List.map_reverse, List.sum_reverse]
        omega
      · intro c hc
        rcases List.mem_append.mp hc with hc | hc
        · exact ⟨(hg.child c (by simpa using hc)).1, fun _ => (hg.child c (by simpa using hc)).2⟩
        · exact hgd c (by simp [hc])
      · omega
      · rw [card_add, card_replicate]
        omega

theorem Trie.Inv.checkInvariants {t : Trie L} (h : t.Inv) (ht : Tallies t.seqSupport t.root.supported)
    (hb : t.root.supported.card < 2 ^ 32) : t.checkInvariants := by
  obtain ⟨m, hm, htm⟩ := checkNodes_tallies t.root.addr t.root.nodes.length [t.root] OrdMap.empty 0
    (by simp) (by simpa using h.good) tallies_empty (by simpa using hb)
  simp only [List.map_singleton, List.sum_singleton, zero_add] at htm
  rw [Trie.checkInvariants, hm, htm.unique ht, beq_self_eq_true]

def endedBelow (S : Multiset (List ID)) (bound : Nat) : Nat := S.countP (fun h => tipSeq h < bound)

/-- The iterator over the sequence support has passed everything below `bound` and the support
passed so far has been added up. -/
structure Pending (S : Multiset (List ID)) (bound : Nat) (it : List (Nat × Nat)) (total : Nat) :
    Prop where
  sorted : OrdMap.Sorted it
  ge : ∀ e ∈ it, bound ≤ e.1
  entry : ∀ s, bound ≤ s →
    OrdMap.lookup s it = if seqCount S s = 0 then none else some (seqCount S s)
  total_eq : total = endedBelow S bound

section Pending

variable {bound bound' total : Nat} {it : List (Nat × Nat)}

theorem endedBelow_cons (h : List ID) (S : Multiset (List ID)) (bound : Nat) :
    endedBelow (h ::ₘ S) bound = endedBelow S bound + if tipSeq h < bound then 1 else 0 :=
  countP_cons _ _ _

theorem seqCount_cons (h : List ID) (S : Multiset (List ID)) (s : Nat) :
    seqCount (h ::ₘ S) s = seqCount S s + if h.length = s + 1 then 1 else 0 :=
  countP_cons _ _ _

theorem endedBelow_le_card (S : Multiset (List ID)) (bound : Nat) : endedBelow S bound ≤ S.card :=
  countP_le_card _ _

theorem endedBelow_succ (hS : ∀ h ∈ S, h ≠ []) (s : Nat) :
    endedBelow S (s + 1) = endedBelow S s + seqCount S s := by
  induction S using Multiset.induction with
  | empty => rfl
  | cons h S ih =>
    have hpos := length_pos_of_ne_nil (hS h (by simp))
    have hrec := ih (fun k hk => hS k (by simp [hk]))
    rw [endedBelow_cons, endedBelow_cons, seqCount_cons, hrec, tipSeq]
    split_ifs <;> omega

theorem pending_zero {m : OrdMap Nat Nat} (ht : Tallies m S) : Pending S 0 m.entries 0 := by
  refine ⟨m.sorted, fun _ _ => Nat.zero_le _, fun s _ => ht s, ?_⟩
  exact (countP_eq_zero.mpr (fun h _ => Nat.not_lt_zero (tipSeq h))).symm

theorem Pending.skip (h : Pending S bound it total) (hS : ∀ h ∈ S, h ≠ []) (hle : bound ≤ bound')
    (hge : ∀ e ∈ it, bound' ≤ e.1) : Pending S bound' it total := by
  refine ⟨h.sorted, hge, fun s hs => h.entry s (hle.trans hs), ?_⟩
  have hz : ∀ s, bound ≤ s → s < bound' → seqCount S s = 0 := by
    intro s hs hlt
    by_contra h0
    have hl := h.entry s hs
    rw [if_neg h0] at hl
    exact absurd (hge _ (OrdMap.mem_of_lookup hl)) (not_le.mpr hlt)
  rw [h.total_eq]
  clear hge
  induction bound', hle using Nat.le_induction with
  | base => rfl
  | succ s hs ih =>
    rw [endedBelow_succ hS, hz s hs (Nat.lt_succ_self s), Nat.add_zero]
    exact ih (fun s' h1 h2 => hz s' h1 (h2.trans (Nat.lt_succ_self s)))

theorem Pending.pop {e : Nat × Nat} (h : Pending S bound (e :: it) total) (hS : ∀ h ∈ S, h ≠ []) :
    Pending S (e.1 + 1) it (total + e.2) := by
  obtain ⟨hlt, hsr⟩ := pairwise_cons.mp h.sorted
  have hsk := h.skip hS (h.ge e (by simp)) (fun d hd => by
    rcases mem_cons.mp hd with rfl | hd
    · exact le_rfl
    · exact (hlt d hd).le)
  have he := hsk.entry e.1 le_rfl
  rw [OrdMap.lookup, if_pos rfl] at he
  refine ⟨hsr, hlt, fun s hs => ?_, ?_⟩
  · rw [← h.entry s ((h.ge e (by simp)).trans (Nat.le_of_succ_le hs)), OrdMap.lookup,
      if_neg (by omega)]
  · split_ifs at he with h0
    rw [endedBelow_succ hS, hsk.total_eq, Option.some.inj he]

theorem addUncommitted_pending (h : Pending S bound it total) (hS : ∀ h ∈ S, h ≠ [])
    (hle : bound ≤ bound') (hb : S.card < 2 ^ 32) :
    Pending S bound' (addUncommitted bound' it total).1 (addUncommitted bound' it total).2 := by
  induction it generalizing bound total with
  | nil => exact h.skip hS hle (by simp)
  | cons e it ih =>
    rw [addUncommitted]
    split_ifs with hlt
    · have hpop := h.pop hS
      have hc := endedBelow_le_card S (e.1 + 1)
      rw [← hpop.total_eq] at hc
      rw [add32_eq (by omega)]
      exact ih hpop hlt
    · refine h.skip hS hle (fun d hd => ?_)
      rcases mem_cons.mp hd with rfl | hd
      · exact not_lt.mp hlt
      · exact (not_lt.mp hlt).trans ((pairwise_cons.mp h.sorted).1 d hd).le

end Pending

theorem Node.Good.branch_pos {n : Node L} (h : n.Good) (hc : n.Compressed) : 0 < n.branchSupport := by
  induction n using Node.induct with
  | h n ih =>
    rw [h.here.branch]
    by_cases h0 : n.tipSupport = 0
    · obtain ⟨c, hmem⟩ := exists_mem_of_length_pos (lt_of_lt_of_le two_pos (hc h0))
      have hpos := ih c hmem (h.child c hmem).1 (h.child c hmem).2
      have hle := single_le_sum (fun _ _ => Nat.zero_le _) _
        (mem_map_of_mem (f := branchSupport) hmem)
      exact Nat.add_pos_right _ (hpos.trans_le hle)
    · exact Nat.add_pos_left (Nat.pos_of_ne_zero h0) _

theorem Node.Good.supported_ne_nil {n : Node L} (h : n.Good) : ∀ s ∈ n.supported, s ≠ [] := by
  rintro s hs rfl
  have hlen := (h.key_prefix_of_supported hs).length_le
  have hend := n.span.nonempty
  rw [Node.key, hist_length, length_nil] at hlen
  omega

section Best

variable [LinearOrder ID] {root n : Node L}

section

variable (hg : root.Good) (hn : n ∈ root.nodes)

include hg hn

theorem Node.Good.mem_supported_of_isPrefix {q h : List ID} (hq : n.entry <+: q)
    (hh : h ∈ root.supported) (hpre : q <+: h) : h ∈ n.supported := by
  have hc := hg.countP_of_mem (p := fun s => s = h ∧ q <+: s) (q := q) (fun s hs => hs.2) hn hq
  have hpos : 0 < root.supported.countP (fun s => s = h ∧ q <+: s) :=
    countP_pos.mpr ⟨h, hh, rfl, hpre⟩
  rw [hc] at hpos
  obtain ⟨s, hs, rfl, _⟩ := countP_pos.mp hpos
  exact hs

theorem best_inside (hpos : 0 < n.branchSupport) {p : Nat} (h1 : n.span.start_ < p)
    (h2 : p < n.span.end_) : best root.supported (hist n.span.ledger_ p) =
      some (ancestor n.span.ledger_ p, n.branchSupport) := by
  have hx : n.entry <+: hist n.span.ledger_ p := hist_isPrefix _ h1
  have hsc := hist_succ n.span.ledger_ p
  have hsp : support root.supported (hist n.span.ledger_ p ++ [ancestor n.span.ledger_ p]) =
      n.branchSupport := by
    rw [← hsc]
    exact hg.countP_isPrefix hn (hist_isPrefix _ (h1.le.trans_lt (Nat.lt_succ_self p)))
      (hist_isPrefix _ h2)
  refine best_of_single (b := toLex (n.branchSupport, ancestor n.span.ledger_ p))
    (Finset.eq_singleton_iff_unique_mem.mpr ⟨?_, ?_⟩)
  · exact mem_candidates.mpr ⟨hpos, hsp.symm⟩
  intro c hc
  obtain ⟨hcp, hce⟩ := mem_candidates.mp hc
  obtain ⟨h, hh, hpre⟩ := support_pos_iff.mp (hce ▸ hcp)
  have hkey := (hg.of_mem hn).key_prefix_of_supported
    (hg.mem_supported_of_isPrefix hn (hx.trans (prefix_append _ _)) hh hpre)
  have hid : (ofLex c).2 = ancestor n.span.ledger_ p := by
    have he := (prefix_of_prefix_length_le hpre
      ((hist_isPrefix n.span.ledger_ h2).trans hkey) (by simp)).eq_of_length (by simp)
    rw [hsc] at he
    simpa using he
  have hs : (ofLex c).1 = n.branchSupport := by rw [hce, hid, hsp]
  exact congrArg toLex (Prod.ext hs hid)

theorem mem_candidates_key {c : Nat ×ₗ ID} :
    c ∈ candidates root.supported n.key ↔ ∃ d ∈ n.children, c = childKey d := by
  have hng := hg.of_mem hn
  have hsp : ∀ d ∈ n.children,
      support root.supported (n.key ++ [d.span.startID]) = d.branchSupport := by
    intro d hd
    rw [← hng.here.entry_eq hd]
    exact hg.countP_isPrefix (Node.mem_nodes_child hn hd) prefix_rfl d.entry_prefix_key
  rw [mem_candidates]
  constructor
  · rintro ⟨hpos, he⟩
    obtain ⟨h, hh, hpre⟩ := support_pos_iff.mp (he ▸ hpos)
    have hin := hg.mem_supported_of_isPrefix hn
      (n.entry_prefix_key.trans (prefix_append _ _)) hh hpre
    obtain ⟨m, hm, _, rfl⟩ := Node.mem_supported hin
    rcases Node.mem_nodes_iff.mp hm with rfl | ⟨d, hd, hm⟩
    · have hlen := hpre.length_le
      simp at hlen
    have hen := ((hng.child d hd).1.entry_isPrefix hm).trans m.entry_prefix_key
    rw [hng.here.entry_eq hd] at hen
    have hid : (ofLex c).2 = d.span.startID := by
      simpa using (prefix_of_prefix_length_le hpre hen (by simp)).eq_of_length (by simp)
    have hs : (ofLex c).1 = d.branchSupport := by rw [he, hid, hsp d hd]
    exact ⟨d, hd, congrArg toLex (Prod.ext hs hid)⟩
  · rintro ⟨d, hd, rfl⟩
    exact ⟨(hng.child d hd).1.branch_pos (hng.child d hd).2, (hsp d hd).symm⟩

end

def ranked (cs : List (Node L)) : List (Node L) :=
  cs.insertionSort (fun a b => childKey b ≤ childKey a)

theorem ranked_sorted (cs : List (Node L)) :
    (ranked cs).Pairwise (fun a b => childKey b ≤ childKey a) := by
  have : Std.Total (fun a b : Node L => childKey b ≤ childKey a) := ⟨fun a b => le_total _ _⟩
  have : IsTrans (Node L) (fun a b => childKey b ≤ childKey a) :=
    ⟨fun a b c hab hbc => hbc.trans hab⟩
  exact pairwise_insertionSort _ cs

theorem length_ranked (cs : List (Node L)) : (ranked cs).length = cs.length :=
  length_insertionSort _ _

theorem bestChild_of_ranked {cs rest : List (Node L)} {b r : Node L}
    (hr : ranked cs = b :: r :: rest) : bestChild cs = some (b,
      (if r.span.startID < b.span.startID then add32 (sub32 b.branchSupport r.branchSupport) 1
        else sub32 b.branchSupport r.branchSupport), r :: rest) := by
  have hlen := length_ranked cs
  rw [hr] at hlen
  match cs with
  | [] => simp at hlen
  | [c] => simp at hlen
  | c :: d :: cs =>
    rw [ranked] at hr
    rw [bestChild, hr]
    · simp
    · simp

omit [LinearOrder ID] in
theorem Node.Good.child_branch_le {c : Node L} (h : n.Good) (hc : c ∈ n.children) :
    c.branchSupport ≤ n.branchSupport := by
  rw [h.here.branch]
  exact (single_le_sum (fun _ _ => Nat.zero_le _) _
    (mem_map_of_mem (f := branchSupport) hc)).trans (Nat.le_add_left _ _)

/-- The margin as the source computes it. -/
theorem margin_eq {b r : Node L} (hle : childKey r ≤ childKey b) (hpos : 0 < r.branchSupport)
    (hb : b.branchSupport < 2 ^ 32) :
    (if r.span.startID < b.span.startID then add32 (sub32 b.branchSupport r.branchSupport) 1
      else sub32 b.branchSupport r.branchSupport) =
    b.branchSupport - r.branchSupport + if r.span.startID < b.span.startID then 1 else 0 := by
  have hrb : r.branchSupport ≤ b.branchSupport := by
    rcases Prod.Lex.toLex_le_toLex.mp hle with hlt | ⟨he, _⟩
    · exact hlt.le
    · exact he.le
  rw [sub32_eq hrb hb]
  split_ifs
  · exact add32_eq (by omega)
  · rfl

/-- The choice among the children is the best continuation, with the same margin. -/
theorem bestChild_spec (hg : root.Good) (hn : n ∈ root.nodes) (hbn : n.branchSupport < 2 ^ 32) :
    (n.children = [] ∧ bestChild n.children = none ∧ best root.supported n.key = none) ∨
    ∃ b margin others, bestChild n.children = some (b, margin, others) ∧
      (b :: others).Perm n.children ∧
      best root.supported n.key = some (b.span.startID, margin) := by
  have hng := hg.of_mem hn
  have hst := hng.here.starts
  match hcs : n.children with
  | [] =>
    refine .inl ⟨rfl, rfl, best_of_empty (Finset.eq_empty_of_forall_notMem (fun c hc => ?_))⟩
    obtain ⟨d, hd, _⟩ := (mem_candidates_key hg hn).mp hc
    simp [hcs] at hd
  | [b] =>
    refine .inr ⟨b, b.branchSupport, [], rfl, List.Perm.refl _, ?_⟩
    refine best_of_single (b := childKey b) (Finset.ext (fun c => ?_))
    rw [mem_candidates_key hg hn, hcs]
    simp
  | c :: d :: cs =>
    rw [← hcs]
    have hp : (ranked n.children).Perm n.children := perm_insertionSort _ _
    have hs := ranked_sorted n.children
    have hne := (hp.pairwise_iff (fun h => Ne.symm h)).mpr hst
    have hlen := length_ranked n.children
    rw [hcs, length_cons, length_cons, ← hcs] at hlen
    match hr : ranked n.children with
    | [] => simp [hr] at hlen
    | [b] => simp [hr] at hlen
    | b :: r :: rest =>
      rw [hr] at hp hs hne
      have hmem : ∀ e ∈ b :: r :: rest, e ∈ n.children := fun e he => hp.mem_iff.mp he
      obtain ⟨hb, hrs⟩ := pairwise_cons.mp hs
      have hrb : childKey r ≤ childKey b := hb r (by simp)
      have hlt : childKey r < childKey b := by
        refine lt_of_le_of_ne hrb (fun he => (pairwise_cons.mp hne).1 r (by simp) ?_)
        exact congrArg (fun k : Nat ×ₗ ID => (ofLex k).2) he.symm
      have hrg := hng.child r (hmem r (by simp))
      have hm := margin_eq hrb (hrg.1.branch_pos hrg.2)
        ((hng.child_branch_le (hmem b (by simp))).trans_lt hbn)
      refine .inr ⟨b, _, r :: rest, bestChild_of_ranked hr, hp, ?_⟩
      rw [hm]
      refine best_of_second ((mem_candidates_key hg hn).mpr ⟨b, hmem b (by simp), rfl⟩)
        ((mem_candidates_key hg hn).mpr ⟨r, hmem r (by simp), rfl⟩) hlt (fun k hk => ?_)
      obtain ⟨e, he, rfl⟩ := (mem_candidates_key hg hn).mp hk
      rcases mem_cons.mp (hp.mem_iff.mpr he) with rfl | he
      · exact .inl rfl
      · rcases mem_cons.mp he with rfl | he
        · exact .inr le_rfl
        · exact .inr ((pairwise_cons.mp hrs).1 e he)

end Best

end Rippled.LedgerTrie
