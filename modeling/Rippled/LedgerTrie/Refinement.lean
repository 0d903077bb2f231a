import Rippled.Lib.Run
import Rippled.LedgerTrie.GetPreferred
import Rippled.LedgerTrie.Path

namespace Rippled.LedgerTrie

open Multiset

open Ledger hiding id
open LawfulLedger
open Lib

variable {L ID : Type} [Ledger L ID]

structure Refines (t : Trie L) (m : Multiset L) : Prop where
  inv : t.Inv
  supported : t.root.supported = m.map chain
  tallies : Tallies t.seqSupport t.root.supported
  bound : m.card < 2 ^ 32

theorem refines_new : Refines (Trie.new : Trie L) 0 := by
  have hs : (Trie.new : Trie L).root.supported = 0 := by
    rw [Node.supported_eq]
    rfl
  refine ⟨⟨?_, ?_, ?_, rfl, rfl, rfl⟩, hs, hs ▸ tallies_empty, by simp⟩
  · exact .of_children ⟨Nat.succ_le_succ (Nat.zero_le _), by simp [Trie.new], by simp [Trie.new],
      by simp [Trie.new], by simp [Trie.new], by simp [Trie.new]⟩ (by simp [Trie.new])
  · simp [Trie.new, Node.addrs_eq]
  · simp [Trie.new, Node.addrs_eq]

variable {t : Trie L} {m : Multiset L}

theorem Refines.card_eq (h : Refines t m) : t.root.supported.card = m.card := by
  rw [h.supported, card_map]

theorem Refines.branch_eq (h : Refines t m) : t.root.branchSupport = m.card := by
  rw [← Node.card_supported h.inv.good, h.card_eq]

theorem Refines.congr {m' : Multiset L} (h : Refines t m) (hm : m.map chain = m'.map chain) :
    Refines t m' := by
  refine ⟨h.inv, h.supported.trans hm, h.tallies, ?_⟩
  rw [← card_map chain m', ← hm, card_map]
  exact h.bound

section Chain

variable [LawfulLedger L]

theorem chain_eq_iff {a b : L} : chain a = chain b ↔ Ledger.id a = Ledger.id b := by
  constructor
  · intro h
    have hs : seq a = seq b := by simpa using congrArg List.length h
    have hp := ancestor_eq_of_isPrefix (p := seq a) (h ▸ List.prefix_rfl : hist a (seq a + 1) <+: chain b)
      (List.prefix_rfl : hist b (seq b + 1) <+: chain b) (Nat.lt_succ_self _) (by omega)
    rwa [ancestor_seq, hs, ancestor_seq] at hp
  · intro h
    refine chain_eq_of_id (Nat.succ_pos _) le_rfl ?_
    rw [Nat.succ_sub_one, ancestor_seq, h]

theorem chain_prefix_iff {a b : L} :
    chain a <+: chain b ↔ seq a ≤ seq b ∧ ancestor b (seq a) = Ledger.id a := by
  rw [chain, chain, hist_prefix_iff]
  constructor
  · rintro ⟨hle, he⟩
    have := hist_eq_iff.mp he (seq a) (Nat.lt_succ_self _)
    rw [ancestor_seq] at this
    exact ⟨Nat.le_of_succ_le_succ hle, this.symm⟩
  · rintro ⟨hle, he⟩
    refine ⟨Nat.succ_le_succ hle, hist_succ_eq le_rfl hle ?_⟩
    rw [ancestor_seq, he]

theorem Refines.insert {t : Trie L} {m : Multiset L} (h : Refines t m) (l : L) {count : Nat} (hc : 1 ≤ count)
    (hb : m.card + count < 2 ^ 32) :
    Refines (t.insert l count) (m + Multiset.replicate count l) := by
  obtain ⟨hinv, hs⟩ := h.inv.insert l hc (h.branch_eq ▸ hb)
  refine ⟨hinv, ?_, ?_, by simpa using hb⟩
  · rw [hs, h.supported, map_add, map_replicate]
  · rw [hs]
    exact h.tallies.add (chain_length l) hc (h.card_eq ▸ hb)

theorem Refines.insert_cons (h : Refines t m) (l : L) (hb : m.card + 1 < 2 ^ 32) :
    Refines (t.insert l 1) (l ::ₘ m) := by
  have hi := h.insert l le_rfl hb
  rwa [replicate_one, add_comm, singleton_add] at hi

end Chain

variable [LinearOrder ID]

/-- The calls that change a trie. Asking for the preferred ledger sorts children in place. -/
inductive Op (L : Type)
  | insert (ledger : L) (count : Nat)
  | remove (ledger : L) (count : Nat)
  | getPreferred (largestIssued : Nat)

def Trie.apply (t : Trie L) : Op L → Trie L
  | .insert ledger count => t.insert ledger count
  | .remove ledger count => (t.remove ledger count).2
  | .getPreferred largestIssued => (t.getPreferred largestIssued).2

section

variable (m : Multiset L)

def multiplicity (ledger : L) : Nat :=
  m.countP (fun k => Ledger.id k = Ledger.id ledger)

def applySpec : Op L → Multiset L
  | .insert ledger count => m + Multiset.replicate count ledger
  | .remove ledger count => m.filter (fun k => Ledger.id k ≠ Ledger.id ledger) +
      Multiset.replicate (multiplicity m ledger - count) ledger
  | .getPreferred _ => m

/-- Counts are positive and the total support stays a 32-bit number. -/
def Op.Ok : Op L → Prop
  | .insert _ count => 1 ≤ count ∧ m.card + count < 2 ^ 32
  | .remove _ count => 1 ≤ count
  | .getPreferred _ => True

end

section Lawful

variable [LawfulLedger L]

section

variable (m : Multiset L) (l : L)

theorem count_chain : (m.map chain).count (chain l) = multiplicity m l := by
  rw [Multiset.count, countP_map, multiplicity, countP_eq_card_filter]
  congr 1
  refine filter_congr (fun k _ => ?_)
  rw [eq_comm, chain_eq_iff]

theorem countP_chain : (m.map chain).countP (fun s => chain l <+: s) =
      m.countP (fun k => seq l ≤ seq k ∧ ancestor k (seq l) = Ledger.id l) := by
  rw [countP_map, countP_eq_card_filter]
  exact congrArg Multiset.card (filter_congr (fun k _ => chain_prefix_iff))

theorem map_chain_eq : m.map chain = (m.filter (fun k => Ledger.id k ≠ Ledger.id l)).map chain +
      Multiset.replicate (multiplicity m l) (chain l) := by
  have hs : (m.filter (fun k => Ledger.id k = Ledger.id l)).map chain =
      Multiset.replicate (multiplicity m l) (chain l) := by
    rw [multiplicity, countP_eq_card_filter, ← map_const']
    exact map_congr rfl (fun k hk => chain_eq_iff.mpr (mem_filter.mp hk).2)
  conv_lhs => rw [← filter_add_not (fun k => Ledger.id k = Ledger.id l) m]
  rw [map_add, hs, add_comm]

end

section Step

variable {t : Trie L} {m : Multiset L}

theorem Refines.remove (h : Refines t m) (l : L) (count : Nat) :
    Refines (t.remove l count).2 (applySpec m (.remove l count)) ∧
      ((t.remove l count).1 ↔ 0 < multiplicity m l) := by
  have hc : t.root.supported.count (chain l) = multiplicity m l := by
    rw [h.supported, count_chain]
  by_cases h0 : multiplicity m l = 0
  · have hall := filter_eq_self.mpr (fun k hk => countP_eq_zero.mp h0 k hk)
    rw [h.inv.remove_none (hc.trans h0), applySpec, hall, h0, Nat.zero_sub]
    simpa using h
  obtain ⟨ht, hinv, hs, hseq⟩ := h.inv.remove_some count (hc ▸ h0) (h.branch_eq ▸ h.bound)
  rw [hc] at hs hseq
  have hsp : multiplicity m l = multiplicity m l - count + min count (multiplicity m l) := by
    omega
  have hr : (t.remove l count).2.root.supported = (applySpec m (.remove l count)).map chain := by
    refine add_right_cancel (hs.symm.trans ?_)
    rw [h.supported, map_chain_eq m l, hsp, replicate_add, ← add_assoc, applySpec,
      map_add, map_replicate, ← hsp]
  have hcr := congrArg Multiset.card hs
  rw [h.card_eq, hr, card_add, card_map, card_replicate] at hcr
  have hb := h.bound
  refine ⟨⟨hinv, hr, ?_, by omega⟩, iff_of_true ht (Nat.pos_of_ne_zero h0)⟩
  rw [hseq]
  refine Tallies.sub (hs ▸ h.tallies) (chain_length l) ?_
  rw [hr, card_map]
  omega

theorem Refines.remove_cons {l : L} (h : Refines t (l ::ₘ m)) : Refines (t.remove l 1).2 m := by
  refine (h.remove l 1).1.congr ?_
  have hc : multiplicity (l ::ₘ m) l = multiplicity m l + 1 :=
    countP_cons_of_pos _ rfl
  have hf : (l ::ₘ m).filter (fun k => Ledger.id k ≠ Ledger.id l) =
      m.filter (fun k => Ledger.id k ≠ Ledger.id l) :=
    filter_cons_of_neg _ (fun hne => hne rfl)
  rw [applySpec, hc, hf, Nat.add_sub_cancel, map_add, map_replicate,
    ← map_chain_eq]

theorem Refines.apply (h : Refines t m) (op : Op L) (hok : op.Ok m) :
    Refines (t.apply op) (applySpec m op) := by
  cases op with
  | insert l count => exact h.insert l hok.1 hok.2
  | remove l count => exact (h.remove l count).1
  | getPreferred largestIssued =>
    obtain ⟨hinv, hs, hseq⟩ := h.inv.getPreferred h.tallies (h.card_eq ▸ h.bound) largestIssued
    exact ⟨hinv, hs.trans h.supported, by rw [Trie.apply, hseq, hs]; exact h.tallies, h.bound⟩

theorem run_refines (ops : List (Op L)) (h : Run.Allowed applySpec Op.Ok (0 : Multiset L) ops) :
    Refines (ops.foldl Trie.apply Trie.new) (ops.foldl applySpec 0) :=
  Run.simulates Refines (fun _ _ op hr hok => hr.apply op hok) ops refines_new h

omit [LawfulLedger L] in
theorem multiplicity_remove (m : Multiset L) (l k : L) (count : Nat) :
    multiplicity (applySpec m (.remove l count)) k =
      if Ledger.id k = Ledger.id l then multiplicity m l - count else multiplicity m k := by
  rw [applySpec, multiplicity, countP_add, countP_replicate,
    countP_filter]
  by_cases hid : Ledger.id k = Ledger.id l
  · rw [if_pos hid, if_pos hid.symm, hid, countP_eq_zero.mpr (fun a _ h => h.2 h.1),
      Nat.zero_add]
  · rw [if_neg hid, if_neg (Ne.symm hid), Nat.add_zero, multiplicity]
    refine countP_congr rfl (fun a _ => propext (and_iff_left_of_imp (fun h he => ?_)))
    exact hid (h.symm.trans he)

end Step

/-- After every sequence of calls the trie stands for the multiset of the supported ledgers: it
passes its own check, siblings branch off at the end of their parent's span, the supports are the
multiplicity of a ledger and the number of supported descendants, and a removal takes away what
there is. -/
theorem trie_refines_multiset (ops : List (Op L))
    (h : Run.Allowed applySpec Op.Ok (0 : Multiset L) ops) :
    let t := ops.foldl Trie.apply Trie.new
    let m := ops.foldl applySpec 0
    t.checkInvariants ∧
    (∀ n ∈ t.root.nodes, (∀ c ∈ n.children, c.span.start_ = n.span.end_) ∧
      n.children.Pairwise (fun c d => c.span.startID ≠ d.span.startID)) ∧
    (∀ l, t.tipSupport l = multiplicity m l) ∧
    (∀ l, t.branchSupport l =
      m.countP (fun k => seq l ≤ seq k ∧ ancestor k (seq l) = Ledger.id l)) ∧
    (∀ l count, 1 ≤ count →
      ((t.remove l count).1 ↔ 0 < multiplicity m l) ∧
      ∀ k, (t.remove l count).2.tipSupport k = if Ledger.id k = Ledger.id l then
        multiplicity m l - min count (multiplicity m l) else multiplicity m k) := by
  intro t m
  have hr : Refines t m := run_refines ops h
  have htip : ∀ {t : Trie L} {m : Multiset L}, Refines t m → ∀ l,
      t.tipSupport l = multiplicity m l := fun hr l => by
    rw [hr.inv.tipSupport_eq, hr.supported, count_chain]
  refine ⟨hr.inv.checkInvariants hr.tallies (hr.card_eq ▸ hr.bound), fun n hn => ?_, htip hr,
    fun l => ?_, fun l count _ => ?_⟩
  · have hl := (hr.inv.good.of_mem hn).here
    exact ⟨hl.start, hl.starts⟩
  · rw [hr.inv.branchSupport_eq, hr.supported, countP_chain]
  · obtain ⟨hrem, htrue⟩ := hr.remove l count
    refine ⟨htrue, fun k => ?_⟩
    rw [htip hrem k, multiplicity_remove]
    split_ifs
    · omega
    · rfl

theorem trie_refines_multiset_path :
    let ops : List (Op Path) := [.insert ⟨[1, 2]⟩ 2, .insert ⟨[1, 3]⟩ 1, .getPreferred 0]
    let t := ops.foldl Trie.apply Trie.new
    t.checkInvariants = true ∧ t.branchSupport ⟨[1]⟩ = 3 ∧ (t.remove ⟨[1]⟩ 1).1 = false := by
  have h := trie_refines_multiset
    (L := Path) [.insert ⟨[1, 2]⟩ 2, .insert ⟨[1, 3]⟩ 1, .getPreferred 0]
    ⟨⟨by decide, by decide⟩, ⟨by decide, by decide⟩, trivial, trivial⟩
  refine ⟨h.1, (h.2.2.2.1 ⟨[1]⟩).trans (by decide), ?_⟩
  exact Bool.eq_false_iff.mpr (fun ht => absurd ((h.2.2.2.2 ⟨[1]⟩ 1 le_rfl).1.mp ht) (by decide))

end Lawful

end Rippled.LedgerTrie
