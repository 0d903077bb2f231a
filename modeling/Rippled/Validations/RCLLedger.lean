import Rippled.Basics.BaseUInt

namespace Rippled

/-- A ledger as the validations see it, with the hashes of its last ancestors. -/
structure RCLValidatedLedger where
  ledgerID_ : Uint256
  ledgerSeq_ : Nat
  ancestors_ : List Uint256

namespace RCLValidatedLedger

def minSeq (l : RCLValidatedLedger) : Nat := l.ledgerSeq_ - min l.ledgerSeq_ l.ancestors_.length

def subscript (l : RCLValidatedLedger) (s : Nat) : Uint256 :=
  if l.minSeq ≤ s ∧ s ≤ l.ledgerSeq_ then
    if s = l.ledgerSeq_ then l.ledgerID_
    else l.ancestors_.getD (l.ancestors_.length - (l.ledgerSeq_ - s)) 0
  else 0

def mismatchLoop (a b : RCLValidatedLedger) (lower : Nat) : Nat → Nat
  | 0 => 0
  | curr + 1 =>
    if a.subscript (curr + 1) ≠ b.subscript (curr + 1) ∧ lower ≤ curr + 1 then
      mismatchLoop a b lower curr
    else curr + 1

def mismatch (a b : RCLValidatedLedger) : Nat :=
  let lower := max a.minSeq b.minSeq
  let upper := min a.ledgerSeq_ b.ledgerSeq_
  let curr := mismatchLoop a b lower upper
  if curr < lower then 1 else (curr + 1) % 4294967296

variable {a b : RCLValidatedLedger} {lower : Nat}

theorem mismatchLoop_comm (curr : Nat) :
    mismatchLoop a b lower curr = mismatchLoop b a lower curr := by
  induction curr with
  | zero => rfl
  | succ curr ih => simp only [mismatchLoop, ih, ne_comm]

theorem mismatch_comm (a b : RCLValidatedLedger) : mismatch a b = mismatch b a := by
  rw [mismatch, mismatch, max_comm, min_comm, mismatchLoop_comm]

theorem mismatchLoop_spec (curr : Nat) :
    mismatchLoop a b lower curr ≤ curr ∧
    (∀ s, mismatchLoop a b lower curr < s → s ≤ curr → a.subscript s ≠ b.subscript s) ∧
    (lower ≤ mismatchLoop a b lower curr → mismatchLoop a b lower curr = 0 ∨
      a.subscript (mismatchLoop a b lower curr) = b.subscript (mismatchLoop a b lower curr)) := by
  induction curr with
  | zero | succ curr ih => grind [mismatchLoop]

/-- The chain of a ledger from the genesis ledger on. A ledger has one parent, and the hashes of so
many of its last ancestors. -/
structure Chain (parent : Uint256 → Uint256) where
  id : Uint256
  seq : Nat
  known : Nat
  known_le : known ≤ seq
  seq_lt : seq + 1 < 4294967296
  genesis : parent^[seq] id = 0

namespace Chain

variable {parent : Uint256 → Uint256} {x y : Chain parent} {s t : Nat}

def ancestor (x : Chain parent) (s : Nat) : Uint256 := parent^[x.seq - s] x.id

def ledger (x : Chain parent) : RCLValidatedLedger where
  ledgerID_ := x.id
  ledgerSeq_ := x.seq
  ancestors_ := (List.range x.known).map fun i => x.ancestor (x.seq - x.known + i)

def Agree (x y : Chain parent) (s : Nat) : Prop :=
  s ≤ x.seq ∧ s ≤ y.seq ∧ x.ancestor s = y.ancestor s

def Known (x : Chain parent) (s : Nat) : Prop := x.seq - x.known ≤ s ∧ s ≤ x.seq

theorem seq_ledger : x.ledger.ledgerSeq_ = x.seq := rfl

theorem minSeq_ledger : x.ledger.minSeq = x.seq - x.known := by
  simp [minSeq, ledger, x.known_le]

theorem subscript_ledger (h : x.Known s) : x.ledger.subscript s = x.ancestor s := by
  have hk := x.known_le
  obtain ⟨hl, hu⟩ := h
  rw [subscript, minSeq_ledger, if_pos ⟨hl, hu⟩]
  by_cases he : s = x.seq
  · simp [ledger, ancestor, he]
  · have hs : x.seq - x.known + (x.known - (x.seq - s)) = s := by omega
    have hi : x.known - (x.seq - s) < x.known := by omega
    simp [ledger, hs, hi, he]

theorem Agree.of_le (h : x.Agree y s) (ht : t ≤ s) : x.Agree y t := by
  obtain ⟨hx, hy, he⟩ := h
  have hi : ∀ z : Chain parent, s ≤ z.seq → z.ancestor t = parent^[s - t] (z.ancestor s) := by
    intro z hz
    rw [ancestor, ancestor, ← Function.iterate_add_apply]
    congr 2
    omega
  exact ⟨by omega, by omega, by rw [hi x hx, hi y hy, he]⟩

theorem agree_zero : x.Agree y 0 := ⟨by omega, by omega, x.genesis.trans y.genesis.symm⟩

end Chain

open Chain

/-- Below the result the chains agree, and at it they do not, unless they agree nowhere where both
are known. -/
theorem mismatch_spec {parent : Uint256 → Uint256} (x y : Chain parent) :
    mismatch x.ledger y.ledger = mismatch y.ledger x.ledger ∧
    (∀ s < mismatch x.ledger y.ledger, x.Agree y s) ∧
    ((∃ s, x.Known s ∧ y.Known s ∧ x.Agree y s) → ¬ x.Agree y (mismatch x.ledger y.ledger)) ∧
    ((¬ ∃ s, x.Known s ∧ y.Known s ∧ x.Agree y s) → mismatch x.ledger y.ledger = 1) := by
  refine ⟨mismatch_comm _ _, ?_⟩
  obtain ⟨hle, hne, heq⟩ := @mismatchLoop_spec x.ledger y.ledger
    (max x.ledger.minSeq y.ledger.minSeq) (min x.ledger.ledgerSeq_ y.ledger.ledgerSeq_)
  have hlast := x.seq_lt
  rw [mismatch]
  generalize mismatchLoop _ _ _ _ = curr at *
  simp only [minSeq_ledger, seq_ledger] at *
  have hd : ∀ s, x.Known s → y.Known s → x.Agree y s → s ≤ curr := by
    intro s hx hy ha
    by_contra hlt
    refine hne s (by omega) (le_min hx.2 hy.2) ?_
    rw [subscript_ledger hx, subscript_ledger hy, ha.2.2]
  split_ifs with hlt
  · refine ⟨fun s hs => ?_, fun ⟨s, hx, hy, h⟩ => ?_, fun _ => rfl⟩
    · cases Nat.lt_one_iff.mp hs
      exact agree_zero
    · have := hd s hx hy h
      grind [Known]
  · rw [Nat.mod_eq_of_lt (by omega)]
    have hx : x.Known curr := ⟨by omega, by omega⟩
    have hy : y.Known curr := ⟨by omega, by omega⟩
    have h : x.Agree y curr := by
      obtain rfl | he := heq (by omega)
      · exact agree_zero
      · rw [subscript_ledger hx, subscript_ledger hy] at he
        exact ⟨hx.2, hy.2, he⟩
    refine ⟨fun s hs => h.of_le (by omega), fun _ hc => ?_, fun hno => absurd ⟨curr, hx, hy, h⟩ hno⟩
    have := hd _ ⟨by omega, hc.1⟩ ⟨by omega, hc.2.1⟩ hc
    omega

/-- Ledger 2 is followed by ledger 3 on one chain, and by ledger 5 on the other. -/
def forkedParent (id : Uint256) : Uint256 :=
  .fromVoid [if id.bytes 0 = 5 then 2 else id.bytes 0 - 1]

def shortFork : Chain forkedParent := ⟨.fromVoid [4], 4, 3, by decide, by decide, by decide⟩

def longFork : Chain forkedParent := ⟨.fromVoid [7], 5, 4, by decide, by decide, by decide⟩

theorem mismatch_forked : mismatch shortFork.ledger longFork.ledger = 3 ∧
    (∀ s < 3, shortFork.Agree longFork s) ∧ ¬ shortFork.Agree longFork 3 := by
  obtain ⟨-, hbelow, hat, -⟩ := mismatch_spec shortFork longFork
  have hthree : mismatch shortFork.ledger longFork.ledger = 3 := by decide
  rw [hthree] at hbelow hat
  refine ⟨hthree, hbelow, hat ⟨2, ?_, ?_, ?_⟩⟩
  · exact ⟨by decide, by decide⟩
  · exact ⟨by decide, by decide⟩
  · exact ⟨by decide, by decide, by decide⟩

end RCLValidatedLedger

end Rippled
