import Rippled.LedgerTrie.Refinement

namespace Rippled.LedgerTrie

open Ledger hiding id
open LawfulLedger
open Lib

variable {L ID : Type} [Ledger L ID] [LinearOrder ID] [LawfulLedger L]

theorem Refines.preferred_walk {t : Trie L} {m : Multiset L} (h : Refines t m)
    (hne : t.empty = false) (largestIssued : Nat) :
    ∃ tip, (t.getPreferred largestIssued).1 = some tip ∧ hist tip.ledger (tip.seq + 1) =
        plainWalk (m.map chain) largestIssued [Ledger.id (makeGenesis : L)] ∧
      tip.id = ancestor tip.ledger tip.seq ∧ tip.seq ≤ seq tip.ledger := by
  rw [← h.supported]
  refine h.inv.getPreferred_walk h.tallies (h.card_eq ▸ h.bound) (fun h0 => ?_) largestIssued
  rw [h.inv.empty_iff.mpr h0] at hne
  exact Bool.noConfusion hne

theorem map_chain_congr {m m' : Multiset L} (h : ∀ l, multiplicity m' l = multiplicity m l) :
    m'.map chain = m.map chain := by
  refine Multiset.ext.mpr (fun c => ?_)
  by_cases hc : ∃ l : L, chain l = c
  · obtain ⟨l, rfl⟩ := hc
    rw [count_chain, count_chain, h l]
  have hnot : ∀ m : Multiset L, (m.map chain).count c = 0 := fun m =>
    Multiset.count_eq_zero.mpr (fun hm => by
      obtain ⟨l, _, hl⟩ := Multiset.mem_map.mp hm
      exact hc ⟨l, hl⟩)
  rw [hnot, hnot]

omit [LinearOrder ID] [LawfulLedger L] in
theorem tip_eq_of_hist {tip tip' : SpanTip L ID} (hid : tip.id = ancestor tip.ledger tip.seq)
    (hid' : tip'.id = ancestor tip'.ledger tip'.seq) (h : hist tip'.ledger (tip'.seq + 1) = hist
      tip.ledger (tip.seq + 1)) : tip'.seq = tip.seq ∧ tip'.id = tip.id := by
  have hseq : tip'.seq = tip.seq := by simpa using congrArg List.length h
  rw [hseq] at h
  refine ⟨hseq, ?_⟩
  rw [hid, hid', hseq]
  exact hist_eq_iff.mp h _ (Nat.lt_succ_self _)

/-- The preferred ledger of a trie with support is the end of the plain walk over the supported
ledgers, so it depends on nothing but their multiplicities. -/
theorem getPreferred_eq_plainWalk (ops : List (Op L))
    (h : Run.Allowed applySpec Op.Ok (0 : Multiset L) ops)
    (hne : (ops.foldl Trie.apply Trie.new).empty = false) (largestIssued : Nat) :
    ∃ tip, ((ops.foldl Trie.apply Trie.new).getPreferred largestIssued).1 = some tip ∧
      hist tip.ledger (tip.seq + 1) = plainWalk ((ops.foldl applySpec 0).map chain) largestIssued
        [Ledger.id (makeGenesis : L)] ∧
      tip.id = ancestor tip.ledger tip.seq ∧ tip.seq ≤ seq tip.ledger ∧
      ∀ ops', Run.Allowed applySpec Op.Ok (0 : Multiset L) ops' →
        (∀ l, multiplicity (ops'.foldl applySpec 0) l = multiplicity (ops.foldl applySpec 0) l) →
        ∃ tip', ((ops'.foldl Trie.apply Trie.new).getPreferred largestIssued).1 = some tip' ∧
          tip'.seq = tip.seq ∧ tip'.id = tip.id := by
  have hr := run_refines ops h
  obtain ⟨tip, htip, hwalk, hid, hseq⟩ := hr.preferred_walk hne largestIssued
  refine ⟨tip, htip, hwalk, hid, hseq, fun ops' h' hmult => ?_⟩
  have hr' := run_refines ops' h'
  have hmap := map_chain_congr hmult
  have hne' : (ops'.foldl Trie.apply Trie.new).empty = false := by
    rw [Bool.eq_false_iff, ne_eq, hr'.inv.empty_iff, hr'.supported, hmap, ← hr.supported,
      ← hr.inv.empty_iff]
    exact Bool.eq_false_iff.mp hne
  obtain ⟨tip', htip', hwalk', hid', _⟩ := hr'.preferred_walk hne' largestIssued
  exact ⟨tip', htip', tip_eq_of_hist hid hid' (by rw [hwalk', hwalk, hmap])⟩

theorem getPreferred_eq_plainWalk_path :
    let ops : List (Op Path) := [.insert ⟨[1, 2]⟩ 2, .insert ⟨[1, 3]⟩ 1]
    ∃ tip, ((ops.foldl Trie.apply Trie.new).getPreferred 0).1 = some tip ∧
      hist tip.ledger (tip.seq + 1) =
        plainWalk ((ops.foldl applySpec 0).map chain) 0 [([] : List Nat)] := by
  obtain ⟨tip, htip, hwalk, _⟩ := getPreferred_eq_plainWalk
    (L := Path) [.insert ⟨[1, 2]⟩ 2, .insert ⟨[1, 3]⟩ 1]
    ⟨⟨by decide, by decide⟩, ⟨by decide, by decide⟩, trivial⟩ (by decide +kernel) 0
  exact ⟨tip, htip, hwalk⟩

theorem Refines.branchSupport_eq {t : Trie L} {m : Multiset L} (h : Refines t m) (l : L) :
    t.branchSupport l = support (m.map chain) (chain l) := by
  rw [h.inv.branchSupport_eq, h.supported, support]

omit [LinearOrder ID] in
theorem chain_eq_append {l k : L} {s : Nat} (hs : 1 ≤ s) (hl : seq l = s) (hk : s ≤ seq k)
    (hpar : ancestor l (s - 1) = ancestor k (s - 1)) : chain l = hist k s ++ [Ledger.id l] := by
  have hpre : hist l s = hist k s := by
    have := hist_succ_eq (a := l) (b := k) (s := s - 1) (by omega) (by omega) hpar
    rwa [Nat.sub_add_cancel hs] at this
  rw [chain, hl, hist_succ, hpre, ← hl, ancestor_seq]

/-- Take any ledger on the way to the preferred one, at sequence number `s`. However the validators
whose last ledger comes before `s` move, that ledger stays strictly ahead, by branch support and
identifier, of every other ledger at `s` with the same parent. -/
theorem preferred_stays_ahead (ops : List (Op L))
    (h : Run.Allowed applySpec Op.Ok (0 : Multiset L) ops) (largestIssued : Nat)
    (tip : SpanTip L ID)
    (htip : ((ops.foldl Trie.apply Trie.new).getPreferred largestIssued).1 = some tip)
    (x : L) (s : Nat) (hs : 1 ≤ s) (hle : s ≤ tip.seq) (hx : seq x = s)
    (hid : Ledger.id x = tip.ancestor s) (keep moved moved' : Multiset L)
    (hm : ops.foldl applySpec 0 = keep + moved) (hmoved : ∀ l ∈ moved, seq l < s)
    (hcard : moved'.card = moved.card) (ops' : List (Op L))
    (h' : Run.Allowed applySpec Op.Ok (0 : Multiset L) ops')
    (hm' : ops'.foldl applySpec 0 = keep + moved') (y : L) (hy : seq y = s)
    (hpar : ancestor y (s - 1) = ancestor x (s - 1)) (hne : Ledger.id y ≠ Ledger.id x) :
    toLex ((ops'.foldl Trie.apply Trie.new).branchSupport y, Ledger.id y) <
      toLex ((ops'.foldl Trie.apply Trie.new).branchSupport x, Ledger.id x) := by
  have hr := run_refines ops h
  have hr' := run_refines ops' h'
  have hempty : (ops.foldl Trie.apply Trie.new).empty = false := by
    rw [Bool.eq_false_iff]
    intro he
    rw [Trie.getPreferred, if_pos he] at htip
    cases htip
  obtain ⟨tip', htip', hwalk, _, hseq⟩ := hr.preferred_walk hempty largestIssued
  obtain rfl : tip' = tip := Option.some.inj (htip'.symm.trans htip)
  have hxk := hist_succ_eq hx.ge (hle.trans hseq) (by rw [← hx, ancestor_seq, hid, hx]; rfl)
  have hxpar : ancestor x (s - 1) = ancestor tip'.ledger (s - 1) :=
    hist_eq_iff.mp hxk _ (by omega)
  have hcx := chain_eq_append hs hx (hle.trans hseq) hxpar
  have hcy := chain_eq_append hs hy (hle.trans hseq) (hpar.trans hxpar)
  have hstep : step ((ops.foldl applySpec 0).map chain) largestIssued (hist tip'.ledger s) =
      some (hist tip'.ledger s ++ [Ledger.id x]) := by
    apply step_of_prefix_plainWalk (x := [Ledger.id (makeGenesis : L)]) (by simpa using hs)
    rw [← hcx, chain, hx, hxk, ← hwalk]
    exact hist_isPrefix _ (Nat.succ_le_succ hle)
  have hS : (ops.foldl applySpec 0).map chain = keep.map chain + moved.map chain := by
    rw [hm, Multiset.map_add]
  rw [hr'.branchSupport_eq, hr'.branchSupport_eq, hcx, hcy, hm', Multiset.map_add]
  refine step_safe hstep hS ?_ (by rw [Multiset.card_map, Multiset.card_map, hcard]) hne
  intro c hc
  obtain ⟨l, hl, rfl⟩ := Multiset.mem_map.mp hc
  rw [tipSeq, chain_length, hist_length]
  exact hmoved l hl

theorem preferred_stays_ahead_path :
    let ops : List (Op Path) := [.insert ⟨[1]⟩ 3, .insert ⟨[2]⟩ 1]
    let t := ops.foldl Trie.apply Trie.new
    toLex (t.branchSupport ⟨[2]⟩, [2]) < toLex (t.branchSupport ⟨[1]⟩, [1]) :=
  preferred_stays_ahead (L := Path) [.insert ⟨[1]⟩ 3, .insert ⟨[]⟩ 1]
    ⟨⟨by decide, by decide⟩, ⟨by decide, by decide⟩, trivial⟩ 0 ⟨1, [1], ⟨[1]⟩⟩
    (by decide +kernel) ⟨[1]⟩ 1 le_rfl le_rfl rfl rfl (Multiset.replicate 3 ⟨[1]⟩) {⟨[]⟩} {⟨[2]⟩}
    (by decide) (by decide) rfl [.insert ⟨[1]⟩ 3, .insert ⟨[2]⟩ 1]
    ⟨⟨by decide, by decide⟩, ⟨by decide, by decide⟩, trivial⟩ (by decide) ⟨[2]⟩ rfl rfl (by decide)

end Rippled.LedgerTrie
