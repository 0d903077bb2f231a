import Mathlib.Tactic.Linarith

namespace Rippled

/-- The operations a trie of ledgers needs of its ledger type. `ancestor l s` is the subscript
operator: the identifier of the ancestor of `l` with sequence number `s`. -/
class Ledger (L : Type) (ID : outParam Type) where
  makeGenesis : L
  seq : L → Nat
  id : L → ID
  ancestor : L → Nat → ID
  mismatch : L → L → Nat

/-- A ledger type with full ancestry, unique history and an exact `mismatch`. An identifier names
one ledger, so it occurs at one sequence number only. -/
class LawfulLedger (L : Type) {ID : outParam Type} [Ledger L ID] : Prop where
  genesis_seq : Ledger.seq (Ledger.makeGenesis : L) = 0
  genesis_ancestor (l : L) : Ledger.ancestor l 0 = Ledger.id (Ledger.makeGenesis : L)
  ancestor_seq (l : L) : Ledger.ancestor l (Ledger.seq l) = Ledger.id l
  ancestor_seq_unique {a b : L} {s t : Nat} (hs : s ≤ Ledger.seq a) (ht : t ≤ Ledger.seq b)
    (h : Ledger.ancestor a s = Ledger.ancestor b t) : s = t
  unique_history {a b : L} {s : Nat} (ha : s ≤ Ledger.seq a) (hb : s ≤ Ledger.seq b)
    (h : Ledger.ancestor a s = Ledger.ancestor b s) {p : Nat} (hp : p < s) :
    Ledger.ancestor a p = Ledger.ancestor b p
  mismatch_le (a b : L) : Ledger.mismatch a b ≤ min (Ledger.seq a) (Ledger.seq b) + 1
  ancestor_eq_of_lt_mismatch {a b : L} {s : Nat} (h : s < Ledger.mismatch a b) :
    Ledger.ancestor a s = Ledger.ancestor b s
  ancestor_mismatch_ne {a b : L} (h : Ledger.mismatch a b ≤ min (Ledger.seq a) (Ledger.seq b)) :
    Ledger.ancestor a (Ledger.mismatch a b) ≠ Ledger.ancestor b (Ledger.mismatch a b)

end Rippled

variable {spot e s e' : Nat}

namespace Rippled.LedgerTrie

open Ledger hiding id
open LawfulLedger

variable {L ID : Type} [Ledger L ID]

structure SpanTip (L ID : Type) where
  seq : Nat
  id : ID
  ledger : L
deriving DecidableEq

def SpanTip.ancestor (t : SpanTip L ID) (s : Nat) : ID := Ledger.ancestor t.ledger s

/-- The half-open interval `[start_, end_)` of the ancestry of `ledger_`. Spans are never empty. -/
@[ext]
structure Span (L : Type) where
  start_ : Nat
  end_ : Nat
  ledger_ : L
  nonempty : start_ < end_

namespace Span

def genesis : Span L := ⟨0, 1, makeGenesis, Nat.zero_lt_one⟩

def ofLedger (l : L) : Span L := ⟨0, seq l + 1, l, Nat.succ_pos _⟩

variable (sp : Span L)

def clamp (val : Nat) : Nat := min (max sp.start_ val) sp.end_

def sub (lo hi : Nat) : Option (Span L) :=
  if h : sp.clamp lo < sp.clamp hi then some ⟨sp.clamp lo, sp.clamp hi, sp.ledger_, h⟩ else none

def fromSpot (spot : Nat) : Option (Span L) := sp.sub spot sp.end_

def before (spot : Nat) : Option (Span L) := sp.sub sp.start_ spot

def startID : ID := ancestor sp.ledger_ sp.start_

def diff (o : L) : Nat := sp.clamp (mismatch sp.ledger_ o)

def tip : SpanTip L ID :=
  ⟨sp.end_ - 1, ancestor sp.ledger_ (sp.end_ - 1), sp.ledger_⟩

/-- The combined span, with the ledger of the span that reaches the higher sequence. -/
def merge (a b : Span L) : Span L :=
  if a.end_ < b.end_ then ⟨min a.start_ b.start_, b.end_, b.ledger_, min_lt_of_right_lt b.nonempty⟩
  else ⟨min a.start_ b.start_, a.end_, a.ledger_, min_lt_of_left_lt a.nonempty⟩

theorem before_eq (hl : sp.start_ < spot) (hr : spot ≤ sp.end_) :
    sp.before spot = some ⟨sp.start_, spot, sp.ledger_, hl⟩ := by
  have h0 : sp.clamp sp.start_ = sp.start_ := by simp [clamp, sp.nonempty.le]
  have h1 : sp.clamp spot = spot := by simp [clamp, hl.le, hr]
  simp [before, sub, h0, h1, hl]

theorem fromSpot_eq (hl : sp.start_ ≤ spot) (hr : spot < sp.end_) :
    sp.fromSpot spot = some ⟨spot, sp.end_, sp.ledger_, hr⟩ := by
  have h0 : sp.clamp spot = spot := by simp [clamp, hl, hr.le]
  have h1 : sp.clamp sp.end_ = sp.end_ := by simp [clamp, sp.nonempty.le]
  simp [fromSpot, sub, h0, h1, hr]

theorem fromSpot_eq_none (h : sp.end_ ≤ spot) : sp.fromSpot spot = none := by
  have h0 : sp.clamp spot = sp.end_ := by simp [clamp, sp.nonempty.le.trans h, h]
  have h1 : sp.clamp sp.end_ = sp.end_ := by simp [clamp, sp.nonempty.le]
  simp [fromSpot, sub, h0, h1]

end Span

section

variable (l : L)

/-- The history of a ledger below a sequence number, as the string of ancestor identifiers. -/
def hist (e : Nat) : List ID := (List.range e).map (ancestor l)

def chain : List ID := hist l (seq l + 1)

@[simp] theorem hist_length (e : Nat) : (hist l e).length = e := by simp [hist]

@[simp] theorem chain_length : (chain l).length = seq l + 1 := by simp [chain]

theorem hist_succ (e : Nat) : hist l (e + 1) = hist l e ++ [ancestor l e] := by
  simp [hist, List.range_succ]

theorem hist_getElem? (h : s < e) : (hist l e)[s]? = some (ancestor l s) := by
  simp [hist, h]

theorem hist_eq_iff {a b : L} : hist a e = hist b e ↔ ∀ s < e, ancestor a s = ancestor b s := by
  simp [hist]

theorem hist_isPrefix (h : e ≤ e') : hist l e <+: hist l e' := by
  obtain ⟨d, rfl⟩ := Nat.exists_eq_add_of_le h
  rw [hist, hist, List.range_add, List.map_append]
  exact List.prefix_append _ _

end

theorem hist_prefix_iff {a b : L} : hist a e <+: hist b e' ↔ e ≤ e' ∧ hist a e = hist b e := by
  constructor
  · intro h
    have hle : e ≤ e' := by simpa using h.length_le
    exact ⟨hle, List.IsPrefix.eq_of_length
      (List.prefix_of_prefix_length_le h (hist_isPrefix b hle) (by simp)) (by simp)⟩
  · rintro ⟨hle, he⟩
    exact he ▸ hist_isPrefix b hle

theorem ancestor_eq_of_isPrefix {a b : L} {p : Nat} {s : List ID} (ha : hist a e <+: s)
    (hb : hist b e' <+: s) (h : p < e) (h' : p < e') : ancestor a p = ancestor b p := by
  obtain ⟨x, rfl⟩ := ha
  obtain ⟨y, hy⟩ := hb
  have hget := congrArg (fun s => s[p]?) hy
  simp only [List.getElem?_append_left (by simpa using h : p < (hist a e).length),
    List.getElem?_append_left (by simpa using h' : p < (hist b e').length), hist_getElem? a h,
    hist_getElem? b h', Option.some.injEq] at hget
  exact hget.symm

section Lawful

variable [LawfulLedger L]

theorem hist_succ_eq {a b : L} (ha : s ≤ seq a) (hb : s ≤ seq b) (h : ancestor a s = ancestor b s) :
    hist a (s + 1) = hist b (s + 1) := by
  refine hist_eq_iff.mpr (fun p hp => ?_)
  rcases Nat.lt_succ_iff_lt_or_eq.mp hp with hp | rfl
  · exact unique_history ha hb h hp
  · exact h

theorem lt_mismatch_iff {a b : L} :
    s < mismatch a b ↔ s ≤ seq a ∧ s ≤ seq b ∧ hist a (s + 1) = hist b (s + 1) := by
  have hle := mismatch_le a b
  constructor
  · intro h
    refine ⟨by omega, by omega, hist_eq_iff.mpr (fun p hp => ?_)⟩
    exact ancestor_eq_of_lt_mismatch (by omega)
  rintro ⟨ha, hb, he⟩
  by_contra hn
  have hm := not_lt.mp hn
  exact ancestor_mismatch_ne (a := a) (b := b) (by omega) (hist_eq_iff.mp he _ (by omega))

theorem chain_eq_of_id {a : L} {b : L} (he : 0 < e) (hb : e ≤ seq b + 1)
    (h : ancestor b (e - 1) = Ledger.id a) : hist b e = chain a := by
  have hs : e - 1 = seq a := by
    refine ancestor_seq_unique (a := b) (b := a) (by omega) le_rfl ?_
    rw [h, ancestor_seq]
  have he' : e = seq a + 1 := by omega
  subst he'
  exact hist_succ_eq (by omega) le_rfl (by simpa [ancestor_seq] using h)

theorem chain_zero (l : L) : hist l 1 = [Ledger.id (makeGenesis : L)] := by
  simp [hist, genesis_ancestor]

end Lawful

end Rippled.LedgerTrie
