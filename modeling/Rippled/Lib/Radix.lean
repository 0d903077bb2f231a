import Mathlib.Data.List.FinRange
import Mathlib.Data.List.Pairwise

namespace Rippled.Lib

open List Function

/-- A radix tree of width `w`. Items sit in the leaves only. -/
inductive Radix (w : Nat) (α : Type)
  | empty
  | leaf (a : α)
  | inner (children : Fin w → Radix w α)

variable {d : Nat} {n : Nat}

namespace Radix

variable {w : Nat} {α κ : Type}

/-- The items of a tree, the branches of each inner node taken in increasing order. -/
def items : Radix w α → List α
  | empty => []
  | leaf a => [a]
  | inner cs => (List.finRange w).flatMap fun b => (cs b).items

def isEmpty : Radix w α → Bool
  | empty => true
  | _ => false

@[simp] theorem items_empty : (empty : Radix w α).items = [] := rfl

@[simp] theorem items_leaf (a : α) : (leaf a : Radix w α).items = [a] := rfl

variable {a : α} {cs : Fin w → Radix w α}

@[simp] theorem mem_items_inner : a ∈ (inner cs).items ↔ ∃ b, a ∈ (cs b).items := by
  simp [items]

variable {t : Radix w α}

theorem mem_items_inner_update {b : Fin w} : a ∈ (inner (Function.update cs b t)).items ↔
      a ∈ t.items ∨ ∃ b', b' ≠ b ∧ a ∈ (cs b').items := by
  rw [mem_items_inner]
  constructor
  · rintro ⟨b', hb⟩
    by_cases h : b' = b
    · subst h
      rw [update_self] at hb
      exact .inl hb
    · rw [update_of_ne h] at hb
      exact .inr ⟨b', h, hb⟩
  · rintro (hb | ⟨b', h, hb⟩)
    · exact ⟨b, by rwa [update_self]⟩
    · exact ⟨b', by rwa [update_of_ne h]⟩

/-- Every inner node has at least two leaves below it. -/
def Full : Radix w α → Prop
  | empty => True
  | leaf _ => True
  | inner cs => 2 ≤ (inner cs).items.length ∧ ∀ b, (cs b).Full

variable {b : α}

theorem two_le_length {l : List α} (ha : a ∈ l) (hb : b ∈ l) (h : a ≠ b) : 2 ≤ l.length := by
  cases l with
  | nil => simp at ha
  | cons x l =>
    cases l with
    | nil =>
      rw [mem_singleton] at ha hb
      exact absurd (ha.trans hb.symm) h
    | cons y l => simp

theorem Full.eq_empty (ht : t.Full) (h : t.items = []) : t = empty := by
  cases t with
  | empty => rfl
  | leaf a => simp at h
  | inner cs => simp [h, Full] at ht

theorem Full.eq_leaf (ht : t.Full) (h : t.items = [a]) : t = leaf a := by
  cases t with
  | empty => simp at h
  | leaf b => simpa using h
  | inner cs => simp [h, Full] at ht

variable (digit : κ → Nat → Fin w) (key : α → κ)

def Agree (d : Nat) (k l : κ) : Prop := ∀ e < d, digit k e = digit l e

/-- Two keys first differ in a digit in which the first key has the smaller value. -/
def Precedes (k l : κ) : Prop := ∃ d, Agree digit d k l ∧ digit k d < digit l d

/-- Every item lies on the path that its digits spell from depth `d` on. -/
def Placed : Nat → Radix w α → Prop
  | _, empty => True
  | _, leaf _ => True
  | d, inner cs => ∀ b, Placed (d + 1) (cs b) ∧ ∀ a ∈ (cs b).items, digit (key a) d = b

variable {digit key}

theorem Agree.symm {d : Nat} {k l : κ} (h : Agree digit d k l) : Agree digit d l k :=
  fun e he => (h e he).symm

variable {k : κ} {l : κ}

theorem Agree.mono {e : Nat} (h : Agree digit d k l) (he : e ≤ d) :
    Agree digit e k l := fun f hf => h f (hf.trans_le he)

theorem Agree.succ (h : Agree digit d k l) (hd : digit k d = digit l d) :
    Agree digit (d + 1) k l := by
  intro e he
  obtain he | rfl := Nat.lt_succ_iff_lt_or_eq.mp he
  · exact h e he
  · exact hd

@[simp] theorem agree_zero (k l : κ) : Agree digit 0 k l := fun _ he => absurd he (Nat.not_lt_zero _)

theorem Placed.digit_eq (h : Placed digit key d (inner cs)) {b : Fin w} (ha : a ∈ (cs b).items) :
    digit (key a) d = b :=
  (h b).2 a ha

theorem Placed.mem_child (h : Placed digit key d (inner cs)) :
    a ∈ (inner cs).items ↔ a ∈ (cs (digit (key a) d)).items := by
  rw [mem_items_inner]
  constructor
  · rintro ⟨b, hb⟩
    rwa [h.digit_eq hb]
  · intro ha
    exact ⟨_, ha⟩

theorem Placed.update {d : Nat} (h : Placed digit key d (inner cs)) {b : Fin w} {t : Radix w α}
    (ht : Placed digit key (d + 1) t) (hd : ∀ a ∈ t.items, digit (key a) d = b) :
    Placed digit key d (inner (Function.update cs b t)) := by
  intro b'
  by_cases hb : b' = b
  · subst hb
    rw [update_self]
    exact ⟨ht, hd⟩
  · rw [update_of_ne hb]
    exact h b'

section

variable (h : Placed digit key d t)

include h

/-- Items in different branches come in the order of the branches. -/
theorem Placed.pairwise_items {R : α → α → Prop} (hR : ∀ e a b, d ≤ e → a ∈ t.items → b ∈ t.items →
      (∀ f, d ≤ f → f < e → digit (key a) f = digit (key b) f) → digit (key a) e < digit (key b) e →
        R a b) :
    t.items.Pairwise R := by
  induction t generalizing d with
  | empty => exact List.Pairwise.nil
  | leaf a => exact pairwise_singleton R a
  | inner cs ih =>
    rw [items, pairwise_flatMap]
    constructor
    · intro b _
      apply ih b (h b).1
      intro e x y he hx hy hs hlt
      apply hR e x y (by omega) (mem_items_inner.mpr ⟨b, hx⟩) (mem_items_inner.mpr ⟨b, hy⟩) _ hlt
      intro f hf hfe
      obtain rfl | hf := Nat.eq_or_lt_of_le hf
      · rw [h.digit_eq hx, h.digit_eq hy]
      · exact hs f hf hfe
    · apply (pairwise_lt_finRange w).imp
      intro b c hbc x hx y hy
      apply hR d x y le_rfl (mem_items_inner.mpr ⟨b, hx⟩) (mem_items_inner.mpr ⟨c, hy⟩)
      · intro f hf hfd
        omega
      · rw [h.digit_eq hx, h.digit_eq hy]
        exact hbc

theorem Placed.pairwise_ne : t.items.Pairwise fun a b => key a ≠ key b := by
  apply h.pairwise_items
  intro e a b _ _ _ _ hlt heq
  rw [heq] at hlt
  exact lt_irrefl _ hlt

theorem Placed.nodup : t.items.Nodup :=
  h.pairwise_ne.imp fun hne heq => hne (congrArg key heq)

theorem Placed.eq_of_key_eq (ha : a ∈ t.items) (hb : b ∈ t.items) (hkey : key a = key b) :
    a = b := by
  by_contra hne
  have : Std.Symm fun a b => key a ≠ key b := ⟨fun _ _ h => h.symm⟩
  exact h.pairwise_ne.forall ha hb hne hkey

end

/-- From the root, the items come in the order of their keys. -/
theorem Placed.sorted (h : Placed digit key 0 t) :
    t.items.Pairwise fun a b => Precedes digit (key a) (key b) := by
  apply h.pairwise_items
  intro e a b _ _ _ hs hlt
  exact ⟨e, fun f hf => hs f (Nat.zero_le f) hf, hlt⟩

variable (digit key) in
/-- All items of a tree agree in the digits above depth `d`. -/
def Together (d : Nat) (t : Radix w α) : Prop :=
  ∀ a ∈ t.items, ∀ b ∈ t.items, Agree digit d (key a) (key b)

theorem together_zero (t : Radix w α) : Together digit key 0 t := fun a _ b _ => agree_zero (key a) (key b)

theorem Together.child (h : Together digit key d (inner cs)) (hp : Placed digit key d (inner cs))
    (b : Fin w) : Together digit key (d + 1) (cs b) := by
  intro x hx y hy
  apply (h x (mem_items_inner.mpr ⟨b, hx⟩) y (mem_items_inner.mpr ⟨b, hy⟩)).succ
  rw [hp.digit_eq hx, hp.digit_eq hy]

theorem Placed.exists_ne (hp : Placed digit key d t) (h : 2 ≤ t.items.length) (a : α) :
    ∃ b ∈ t.items, b ≠ a := by
  have hn := hp.nodup
  by_contra hno
  push Not at hno
  have hrep := eq_replicate_of_mem hno
  rw [hrep, nodup_replicate] at hn
  omega

/-- Inner nodes with two items below them lie above the depth at which all keys differ. -/
theorem Full.depth_lt (hn : ∀ k l : κ, Agree digit n k l → k = l) (hf : (inner cs).Full)
    (hp : Placed digit key d (inner cs)) (ht : Together digit key d (inner cs)) : d < n := by
  by_contra hle
  obtain ⟨a, ha⟩ : ∃ a, a ∈ (inner cs).items :=
    List.exists_mem_of_length_pos (Nat.lt_of_lt_of_le Nat.zero_lt_two hf.1)
  obtain ⟨b, hb, hne⟩ := hp.exists_ne hf.1 a
  have hkey := hn _ _ ((ht b hb a ha).mono (by omega))
  exact hne (hp.eq_of_key_eq hb ha hkey)

section Find

variable [DecidableEq κ]

variable (digit key) in
def find (k : κ) : Nat → Radix w α → Option α
  | _, empty => none
  | _, leaf a => if key a = k then some a else none
  | d, inner cs => find k (d + 1) (cs (digit k d))

variable (h : Placed digit key d t)

include h

theorem Placed.find_eq_some_iff : find digit key k d t = some a ↔ a ∈ t.items ∧ key a = k := by
  induction t generalizing d with
  | empty => simp [find]
  | leaf b =>
    simp only [find, items_leaf, mem_singleton]
    split_ifs with hb
    · constructor
      · intro hab
        cases hab
        exact ⟨rfl, hb⟩
      · rintro ⟨rfl, -⟩
        rfl
    · simp only [false_iff, not_and]
      rintro rfl
      exact hb
  | inner cs ih =>
    rw [find, ih _ (h _).1, mem_items_inner]
    constructor
    · rintro ⟨ha, hk⟩
      exact ⟨⟨_, ha⟩, hk⟩
    · rintro ⟨⟨b, ha⟩, rfl⟩
      rw [h.digit_eq ha]
      exact ⟨ha, rfl⟩

theorem Placed.find_eq_none_iff : find digit key k d t = none ↔ ∀ a ∈ t.items, key a ≠ k := by
  rw [Option.eq_none_iff_forall_ne_some]
  constructor
  · intro hn a ha hk
    exact hn a (h.find_eq_some_iff.mpr ⟨ha, hk⟩)
  · intro hn a ha
    obtain ⟨hm, hk⟩ := h.find_eq_some_iff.mp ha
    exact hn a hm hk

end Find

section Canonical

/-- Trees without superfluous inner nodes are determined by their items. -/
theorem eq_of_items {u : Radix w α} (ht : Placed digit key d t) (hu : Placed digit key d u)
    (hft : t.Full) (hfu : u.Full) (h : ∀ a, a ∈ t.items ↔ a ∈ u.items) : t = u := by
  have hp := (perm_ext_iff_of_nodup ht.nodup hu.nodup).mpr h
  induction t generalizing d u with
  | empty => exact (hfu.eq_empty (nil_perm.mp hp)).symm
  | leaf a => exact (hfu.eq_leaf (singleton_perm.mp hp).symm).symm
  | inner cs ih =>
    cases u with
    | empty => exact hft.eq_empty (perm_nil.mp hp)
    | leaf a => exact hft.eq_leaf (perm_singleton.mp hp)
    | inner cs' =>
      congr 1
      funext b
      have hb : ∀ a, a ∈ (cs b).items ↔ a ∈ (cs' b).items := by
        intro a
        constructor
        · intro ha
          have hd := ht.digit_eq ha
          have := hu.mem_child.mp ((h a).mp (mem_items_inner.mpr ⟨b, ha⟩))
          rwa [hd] at this
        intro ha
        have hd := hu.digit_eq ha
        have := ht.mem_child.mp ((h a).mpr (mem_items_inner.mpr ⟨b, ha⟩))
        rwa [hd] at this
      exact ih b (ht b).1 (hu b).1 (hft.2 b) (hfu.2 b) hb
        ((perm_ext_iff_of_nodup (ht b).1.nodup (hu b).1.nodup).mpr hb)

inductive LeafAt : Radix w α → α → Nat → Prop
  | here (a : α) : LeafAt (leaf a) a 0
  | deeper {cs : Fin w → Radix w α} {a : α} {n : Nat} (b : Fin w) :
    LeafAt (cs b) a n → LeafAt (inner cs) a (n + 1)

theorem LeafAt.mem (h : LeafAt t a n) : a ∈ t.items := by
  induction h with
  | here a => simp
  | deeper b _ ih => exact mem_items_inner.mpr ⟨b, ih⟩

/-- At the depth of its leaf the path of an item is its own. -/
theorem LeafAt.unique (h : LeafAt t a n) (ht : Placed digit key d t) (hb : b ∈ t.items)
    (ha : ∀ e, d ≤ e → e < d + n → digit (key a) e = digit (key b) e) : b = a := by
  induction h generalizing d with
  | here a => simpa using hb
  | @deeper cs a n c hc ih =>
    have hda := ht.digit_eq hc.mem
    have hb := ht.mem_child.mp hb
    rw [← ha d le_rfl (by omega), hda] at hb
    exact ih (ht c).1 hb fun e he hen => ha e (by omega) (by omega)

/-- One level above its leaf an item of a full tree shares its path with another item. -/
theorem LeafAt.shared (h : LeafAt t a (n + 1)) (ht : Placed digit key d t) (hf : t.Full) :
    ∃ b ∈ t.items, b ≠ a ∧ ∀ e, d ≤ e → e < d + n → digit (key a) e = digit (key b) e := by
  induction n generalizing d t with
  | zero =>
    cases h with
    | @deeper cs _ _ c hc =>
      obtain ⟨b, hb, hne⟩ := ht.exists_ne hf.1 a
      exact ⟨b, hb, hne, fun e he hed => by omega⟩
  | succ n ih =>
    cases h with
    | @deeper cs _ _ c hc =>
      obtain ⟨b, hb, hne, ha⟩ := ih hc (ht c).1 (hf.2 c)
      refine ⟨b, mem_items_inner.mpr ⟨c, hb⟩, hne, ?_⟩
      intro e he hed
      obtain rfl | he := Nat.eq_or_lt_of_le he
      · rw [ht.digit_eq hc.mem, ht.digit_eq hb]
      · exact ha e he (by omega)

end Canonical

variable (digit) in
/-- Replace what stands at the end of the path of a key. -/
def alter (k : κ) (f : Nat → Radix w α → Radix w α) : Nat → Radix w α → Radix w α
  | d, inner cs => inner (Function.update cs (digit k d) (alter k f (d + 1) (cs (digit k d))))
  | d, empty => f d empty
  | d, leaf a => f d (leaf a)

variable (digit key) in
/-- The chain of inner nodes from depth `d` to the first digit in which two items differ. -/
def pair (a b : α) : Nat → Nat → Radix w α
  | 0, _ => empty
  | n + 1, d =>
    if digit (key a) d = digit (key b) d then
      inner (Function.update (fun _ => empty) (digit (key a) d) (pair a b n (d + 1)))
    else
      inner (Function.update (Function.update (fun _ => empty) (digit (key a) d) (leaf a))
        (digit (key b) d) (leaf b))

theorem differ_later (h : ∃ e < n + 1, digit k (d + e) ≠ digit l (d + e))
    (heq : digit k d = digit l d) : ∃ e < n, digit k (d + 1 + e) ≠ digit l (d + 1 + e) := by
  obtain ⟨e, he, hne⟩ := h
  cases e with
  | zero => exact absurd heq hne
  | succ e => exact ⟨e, by omega, by rwa [Nat.add_assoc, Nat.add_comm 1 e]⟩

theorem mem_pair {x : α} (h : ∃ e < n, digit (key a) (d + e) ≠ digit (key b) (d + e)) :
    x ∈ (pair digit key a b n d).items ↔ x = a ∨ x = b := by
  induction n generalizing d with
  | zero =>
    obtain ⟨e, he, -⟩ := h
    omega
  | succ n ih =>
    rw [pair]
    split
    · rename_i heq
      rw [mem_items_inner_update, ih (differ_later h heq)]
      simp
    rename_i hne
    rw [mem_items_inner_update]
    simp only [items_leaf, mem_singleton]
    constructor
    · rintro (rfl | ⟨c, hc, hx⟩)
      · exact .inr rfl
      by_cases hca : c = digit (key a) d
      · subst hca
        rw [update_self] at hx
        exact .inl (by simpa using hx)
      · rw [update_of_ne hca] at hx
        simp at hx
    · rintro (rfl | rfl)
      · exact .inr ⟨_, hne, by simp⟩
      · exact .inl rfl

theorem placed_inner_empty : Placed digit key d (inner fun _ => (empty : Radix w α)) := by
  intro b
  exact ⟨trivial, by simp⟩

theorem placed_pair (h : ∃ e < n, digit (key a) (d + e) ≠ digit (key b) (d + e)) :
    Placed digit key d (pair digit key a b n d) := by
  induction n generalizing d with
  | zero => trivial
  | succ n ih =>
    rw [pair]
    split_ifs with heq
    · have hn := differ_later h heq
      apply placed_inner_empty.update (ih hn)
      intro x hx
      obtain rfl | rfl := (mem_pair hn).mp hx
      · rfl
      · exact heq.symm
    · have ha : Placed digit key d
          (inner (Function.update (fun _ => empty) (digit (key a) d) (leaf a))) :=
        placed_inner_empty.update trivial (by simp)
      exact ha.update trivial (by simp)

theorem Full.update {b : Fin w} {t : Radix w α} (h : ∀ c, (cs c).Full) (ht : t.Full) (c : Fin w) :
    (Function.update cs b t c).Full := by
  by_cases hc : c = b
  · subst hc
    rwa [update_self]
  · rw [update_of_ne hc]
    exact h c

theorem full_pair (h : ∃ e < n, digit (key a) (d + e) ≠ digit (key b) (d + e)) :
    (pair digit key a b n d).Full := by
  have hab : a ≠ b := by
    rintro rfl
    obtain ⟨e, -, he⟩ := h
    exact he rfl
  induction n generalizing d with
  | zero => trivial
  | succ n ih =>
    have hmem : ∀ x, x ∈ (pair digit key a b (n + 1) d).items ↔ x = a ∨ x = b := fun x => mem_pair h
    have hlen := two_le_length ((hmem a).mpr (.inl rfl)) ((hmem b).mpr (.inr rfl)) hab
    have hem : ∀ c : Fin w, ((fun _ => empty : Fin w → Radix w α) c).Full := fun _ => trivial
    rw [pair] at hlen ⊢
    by_cases heq : digit (key a) d = digit (key b) d
    · rw [if_pos heq] at hlen ⊢
      exact ⟨hlen, Full.update hem (ih (differ_later h heq))⟩
    · rw [if_neg heq] at hlen ⊢
      exact ⟨hlen, Full.update (Full.update hem trivial) trivial⟩

variable (digit key) in
/-- Put an item at the end of the path of its key, next to the item that may be there. -/
def insert (n : Nat) (a : α) : Nat → Radix w α → Radix w α :=
  alter digit (key a) fun d t =>
    match t with
    | leaf b => pair digit key a b (n - d) d
    | _ => leaf a

variable (digit key) in
/-- Put an item in the place of the item at the end of the path of its key. -/
def replace (a : α) : Nat → Radix w α → Radix w α :=
  alter digit (key a) fun _ _ => leaf a

@[simp] theorem insert_empty (n d : Nat) (a : α) :
    insert digit key n a d (empty : Radix w α) = leaf a := rfl

@[simp] theorem insert_leaf (n d : Nat) (a b : α) :
    insert digit key n a d (leaf b : Radix w α) = pair digit key a b (n - d) d := rfl

theorem insert_inner (n d : Nat) (a : α) (cs : Fin w → Radix w α) :
    insert digit key n a d (inner cs) = inner (Function.update cs (digit (key a) d)
      (insert digit key n a (d + 1) (cs (digit (key a) d)))) := rfl

/-- What makes a new item fit into a tree at depth `d`: it lies on the same path so far and
differs from every item of the tree in one of the first `n` digits. -/
def Fits (digit : κ → Nat → Fin w) (key : α → κ) (n d : Nat) (a : α) (t : Radix w α) : Prop :=
  ∀ b ∈ t.items, Agree digit d (key a) (key b) ∧ ∃ e < n, digit (key a) e ≠ digit (key b) e

theorem Fits.differ (h : Fits digit key n d a (leaf b)) :
    ∃ e < n - d, digit (key a) (d + e) ≠ digit (key b) (d + e) := by
  obtain ⟨ha, e, he, hne⟩ := h b (by simp)
  have hde : d ≤ e := by
    by_contra hlt
    exact hne (ha e (by omega))
  refine ⟨e - d, by omega, ?_⟩
  rwa [Nat.add_sub_cancel' hde]

theorem Fits.child (h : Fits digit key n d a (inner cs)) (hp : Placed digit key d (inner cs)) :
    Fits digit key n (d + 1) a (cs (digit (key a) d)) := by
  intro b hb
  obtain ⟨ha, hd⟩ := h b (mem_items_inner.mpr ⟨_, hb⟩)
  exact ⟨ha.succ (hp.digit_eq hb).symm, hd⟩

section

variable (hp : Placed digit key d t) (h : Fits digit key n d a t)

include hp h

theorem mem_insert {x : α} : x ∈ (insert digit key n a d t).items ↔ x = a ∨ x ∈ t.items := by
  induction t generalizing d with
  | empty => simp
  | leaf b =>
    rw [insert_leaf, mem_pair h.differ]
    simp
  | inner cs ih =>
    rw [insert_inner, mem_items_inner_update, ih _ (hp _).1 (h.child hp), mem_items_inner]
    constructor
    · rintro ((rfl | hx) | ⟨b, -, hx⟩)
      · exact .inl rfl
      · exact .inr ⟨_, hx⟩
      · exact .inr ⟨b, hx⟩
    rintro (rfl | ⟨b, hx⟩)
    · exact .inl (.inl rfl)
    by_cases hb : b = digit (key a) d
    · subst hb
      exact .inl (.inr hx)
    · exact .inr ⟨b, hb, hx⟩

theorem placed_insert : Placed digit key d (insert digit key n a d t) := by
  induction t generalizing d with
  | empty => trivial
  | leaf b => exact placed_pair h.differ
  | inner cs ih =>
    rw [insert_inner]
    apply hp.update (ih _ (hp _).1 (h.child hp))
    intro x hx
    obtain rfl | hx := (mem_insert (hp _).1 (h.child hp)).mp hx
    · rfl
    · exact hp.digit_eq hx

theorem full_insert (hf : t.Full) : (insert digit key n a d t).Full := by
  induction t generalizing d with
  | empty => trivial
  | leaf b => exact full_pair h.differ
  | inner cs ih =>
    have hle : (inner cs).items.length ≤ (insert digit key n a d (inner cs)).items.length := by
      apply List.Subperm.length_le
      apply subperm_of_subset hp.nodup
      intro x hx
      exact (mem_insert hp h).mpr (.inr hx)
    rw [insert_inner] at hle ⊢
    exact ⟨hf.1.trans hle, Full.update hf.2 (ih _ (hp _).1 (h.child hp) (hf.2 _))⟩

end

@[simp] theorem replace_leaf (d : Nat) (a b : α) :
    replace digit key a d (leaf b : Radix w α) = leaf a := rfl

theorem replace_inner (d : Nat) (a : α) (cs : Fin w → Radix w α) :
    replace digit key a d (inner cs) = inner (Function.update cs (digit (key a) d)
      (replace digit key a (d + 1) (cs (digit (key a) d)))) := rfl

theorem items_inner_update_map {b : Fin w} {f : α → α} (ht : t.items = (cs b).items.map f)
    (ho : ∀ c, c ≠ b → ∀ x ∈ (cs c).items, f x = x) :
    (inner (Function.update cs b t)).items = (inner cs).items.map f := by
  rw [items, items, map_flatMap]
  congr 1
  funext c
  by_cases hc : c = b
  · subst hc
    rw [update_self, ht]
  · have hid : (cs c).items.map f = (cs c).items.map id := map_congr_left (ho c hc)
    rw [update_of_ne hc, hid, map_id]

section Replace

variable [DecidableEq κ]

section

variable (hp : Placed digit key d t) (h : ∃ b ∈ t.items, key b = key a)

include hp h

theorem items_replace :
    (replace digit key a d t).items = t.items.map fun x => if key x = key a then a else x := by
  induction t generalizing d with
  | empty => simp at h
  | leaf b =>
    have hb : key b = key a := by simpa using h
    simp [hb]
  | inner cs ih =>
    obtain ⟨b, hb, hkey⟩ := h
    have hb := hp.mem_child.mp hb
    rw [hkey] at hb
    rw [replace_inner]
    apply items_inner_update_map (ih _ (hp _).1 ⟨b, hb, hkey⟩)
    intro c hc x hx
    have hne : key x ≠ key a := by
      intro heq
      rw [← hp.digit_eq hx, heq] at hc
      exact hc rfl
    exact if_neg hne

theorem placed_replace : Placed digit key d (replace digit key a d t) := by
  induction t generalizing d with
  | empty => trivial
  | leaf b => trivial
  | inner cs ih =>
    obtain ⟨b, hb, hkey⟩ := h
    have hb := hp.mem_child.mp hb
    rw [hkey] at hb
    rw [replace_inner]
    apply hp.update (ih _ (hp _).1 ⟨b, hb, hkey⟩)
    intro x hx
    rw [items_replace (hp _).1 ⟨b, hb, hkey⟩, mem_map] at hx
    obtain ⟨y, hy, rfl⟩ := hx
    split
    · rfl
    · exact hp.digit_eq hy

theorem full_replace (hf : t.Full) : (replace digit key a d t).Full := by
  induction t generalizing d with
  | empty => trivial
  | leaf b => trivial
  | inner cs ih =>
    have hlen := congrArg List.length (items_replace hp h)
    rw [length_map] at hlen
    obtain ⟨b, hb, hkey⟩ := h
    have hb := hp.mem_child.mp hb
    rw [hkey] at hb
    rw [replace_inner] at hlen ⊢
    exact ⟨hlen ▸ hf.1, Full.update hf.2 (ih _ (hp _).1 ⟨b, hb, hkey⟩ (hf.2 _))⟩

end

end Replace

section Erase

/-- A tree with at most one item, with the inner nodes above the item left out. -/
def shrink (t : Radix w α) : Radix w α :=
  match t.items with
  | [] => empty
  | [a] => leaf a
  | _ => t

@[simp] theorem items_shrink (t : Radix w α) : t.shrink.items = t.items := by
  unfold shrink
  split
  · rename_i h
    rw [h, items_empty]
  · rename_i h
    rw [h, items_leaf]
  · rfl

theorem shrink_of_nil (h : t.items = []) : t.shrink = empty := by
  simp [shrink, h]

theorem shrink_of_singleton (h : t.items = [a]) : t.shrink = leaf a := by
  simp [shrink, h]

theorem shrink_of_two_le (h : 2 ≤ t.items.length) : t.shrink = t := by
  unfold shrink
  split
  · rename_i hl
    simp [hl] at h
  · rename_i hl
    simp [hl] at h
  · rfl

theorem placed_shrink (h : Placed digit key d t) : Placed digit key d t.shrink := by
  unfold shrink
  split
  · trivial
  · trivial
  · exact h

theorem full_shrink (h : ∀ b, (cs b).Full) : (inner cs).shrink.Full := by
  unfold shrink
  split
  · trivial
  · trivial
  rename_i hnil hone
  refine ⟨?_, h⟩
  cases hl : (inner cs).items with
  | nil => exact absurd hl hnil
  | cons a l =>
    cases l with
    | nil => exact absurd hl (hone a)
    | cons b l => simp

variable [DecidableEq κ]

variable (digit key) in
/-- Take out the item with a given key, with the inner nodes that are then superfluous. -/
def erase (k : κ) : Nat → Radix w α → Radix w α
  | _, empty => empty
  | _, leaf a => if key a = k then empty else leaf a
  | d, inner cs => shrink (inner (Function.update cs (digit k d) (erase k (d + 1) (cs (digit k d)))))

theorem items_inner_update_filter {b : Fin w} {p : α → Bool}
    (ht : t.items = (cs b).items.filter p) (ho : ∀ c, c ≠ b → ∀ x ∈ (cs c).items, p x) :
    (inner (Function.update cs b t)).items = (inner cs).items.filter p := by
  rw [items, items, filter_flatMap]
  congr 1
  funext c
  by_cases hc : c = b
  · subst hc
    rw [update_self, ht]
  · rw [update_of_ne hc]
    exact (filter_eq_self.mpr (ho c hc)).symm

theorem Placed.ne_of_branch (hp : Placed digit key d (inner cs)) {c : Fin w} (hc : c ≠ digit k d) :
    ∀ x ∈ (cs c).items, decide (key x ≠ k) := by
  intro x hx
  rw [decide_eq_true_eq]
  rintro rfl
  exact hc (hp.digit_eq hx).symm

theorem items_erase (hp : Placed digit key d t) :
    (erase digit key k d t).items = t.items.filter fun x => key x ≠ k := by
  induction t generalizing d with
  | empty => rfl
  | leaf b =>
    rw [erase]
    split_ifs with h
    · simp [h]
    · simp [h]
  | inner cs ih =>
    rw [erase, items_shrink]
    exact items_inner_update_filter (ih _ (hp _).1) fun c hc => hp.ne_of_branch hc

theorem placed_erase (hp : Placed digit key d t) : Placed digit key d (erase digit key k d t) := by
  induction t generalizing d with
  | empty => trivial
  | leaf b =>
    rw [erase]
    split <;> trivial
  | inner cs ih =>
    rw [erase]
    apply placed_shrink
    apply hp.update (ih _ (hp _).1)
    intro x hx
    rw [items_erase (hp _).1] at hx
    exact hp.digit_eq (mem_of_mem_filter hx)

theorem full_erase (hf : t.Full) : (erase digit key k d t).Full := by
  induction t generalizing d with
  | empty => trivial
  | leaf b =>
    rw [erase]
    split <;> trivial
  | inner cs ih =>
    rw [erase]
    exact full_shrink (Full.update hf.2 (ih _ (hf.2 _)))

end Erase

end Radix

end Rippled.Lib
