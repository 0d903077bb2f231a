import Rippled.LedgerTrie.Span

namespace Rippled

/-- A ledger given by the choices that lead to it from the genesis ledger. Its identifier is the
path itself. -/
structure Path where
  choices : List Nat
deriving DecidableEq

namespace Path

def firstDiff : List Nat → List Nat → Nat
  | a :: as, b :: bs => if a = b then firstDiff as bs + 1 else 1
  | _, _ => 1

instance : Ledger Path (List Nat) where
  makeGenesis := ⟨[]⟩
  seq p := p.choices.length
  id p := p.choices
  ancestor p s := p.choices.take s
  mismatch p q := firstDiff p.choices q.choices

theorem firstDiff_le (as bs : List Nat) : firstDiff as bs ≤ min as.length bs.length + 1 := by
  fun_induction firstDiff as bs with
  | case1 a as bs ih =>
    simp only [List.length_cons]
    omega
  | case2 a as b bs h => omega
  | case3 as bs h => omega

theorem take_eq_of_lt_firstDiff {as bs : List Nat} {s : Nat} (h : s < firstDiff as bs) :
    as.take s = bs.take s := by
  fun_induction firstDiff as bs generalizing s with
  | case1 a as bs ih =>
    cases s with
    | zero => rfl
    | succ s => rw [List.take_succ_cons, List.take_succ_cons, ih (Nat.lt_of_succ_lt_succ h)]
  | case2 a as b bs hne | case3 as bs hne =>
    obtain rfl : s = 0 := by omega
    rfl

theorem take_firstDiff_ne {as bs : List Nat} (h : firstDiff as bs ≤ min as.length bs.length) :
    as.take (firstDiff as bs) ≠ bs.take (firstDiff as bs) := by
  fun_induction firstDiff as bs with
  | case1 a as bs ih =>
    simp only [List.length_cons] at h
    rw [List.take_succ_cons, List.take_succ_cons]
    exact fun he => ih (by omega) (List.cons.inj he).2
  | case2 a as b bs hne => simpa using hne
  | case3 as bs hne =>
    cases as with
    | nil => simp at h
    | cons a as =>
      cases bs with
      | nil => simp at h
      | cons b bs => exact absurd rfl (hne a as b bs rfl)

instance : LawfulLedger Path where
  genesis_seq := rfl
  genesis_ancestor _ := rfl
  ancestor_seq p := List.take_length
  ancestor_seq_unique := by
    intro p q s t hs ht h
    have hlen := congrArg List.length h
    simp only [Ledger.ancestor, Ledger.seq, List.length_take] at hs ht hlen
    omega
  unique_history := by
    intro p q s _ _ h k hk
    have htake := congrArg (List.take k) h
    simpa only [Ledger.ancestor, List.take_take, min_eq_left hk.le] using htake
  mismatch_le p q := firstDiff_le p.choices q.choices
  ancestor_eq_of_lt_mismatch h := take_eq_of_lt_firstDiff h
  ancestor_mismatch_ne h := take_firstDiff_ne h

end Path

end Rippled
