import Mathlib.Algebra.BigOperators.Group.List.Basic
import Mathlib.Algebra.Ring.Int.Defs
import Mathlib.Algebra.GroupWithZero.Nat
import Rippled.Lib.OrdMap

namespace Rippled.Lib.OrdMap

open List Option

variable {K V : Type} [LinearOrder K] {f : V → Int} {m m' : OrdMap K V} {k : K} {v : V}

def total (f : V → Int) (m : OrdMap K V) : Int := (m.entries.map fun e => f e.2).sum

theorem sum_alterList (g : Option V → Option V) {l : List (K × V)} (h : Sorted l) :
    ((alterList k g l).map fun e => f e.2).sum + ((lookup k l).map f).getD 0 =
      (l.map fun e => f e.2).sum + ((g (lookup k l)).map f).getD 0 := by
  induction l with
  | nil =>
    cases hg : g none <;> simp [alterList, lookup, hg]
  | cons a rest ih =>
    obtain ⟨ha, hr⟩ := pairwise_cons.mp h
    rw [alterList]
    by_cases hlt : k < a.1
    · have hn : lookup k (a :: rest) = none := by
        apply lookup_eq_none_of_lt
        intro e he
        rcases mem_cons.mp he with rfl | he
        · exact hlt
        · exact hlt.trans (ha e he)
      rw [if_pos hlt, hn]
      cases hg : g none <;> simp [add_comm]
    · by_cases heq : k = a.1
      · rw [if_neg hlt, if_pos heq, lookup, if_pos heq]
        cases hg : g (some a.2) <;> simp [add_comm, add_left_comm]
      · rw [if_neg hlt, if_neg heq, lookup, if_neg heq, map_cons, map_cons, sum_cons,
          sum_cons, add_assoc, add_assoc, ih hr]

theorem total_alter (m : OrdMap K V) (k : K) (g : Option V → Option V) :
    total f (m.alter k g) + ((m.find? k).map f).getD 0 = total f m + ((g (m.find? k)).map f).getD 0 :=
  sum_alterList g m.sorted

theorem total_insert_of_none (h : m.find? k = none) (v : V) :
    total f (m.insert k v) = total f m + f v := by
  have ht := total_alter (f := f) m k fun _ => some v
  rw [h] at ht
  simpa [insert] using ht

section

variable (h : m.find? k = some v)

include h

theorem total_insert_of_some (v' : V) : total f (m.insert k v') = total f m + (f v' - f v) := by
  have ht := total_alter (f := f) m k fun _ => some v'
  rw [h] at ht
  simp only [map_some, getD_some] at ht
  rw [insert]
  omega

theorem total_erase : total f (m.erase k) = total f m - f v := by
  have ht := total_alter (f := f) m k fun _ => none
  rw [h] at ht
  simp only [map_some, getD_some, map_none, getD_none] at ht
  rw [erase]
  omega

theorem total_modify (g : V → V) : total f (m.modify k g) = total f m + (f (g v) - f v) := by
  have ht := total_alter (f := f) m k (Option.map g)
  rw [h] at ht
  simp only [map_some, getD_some] at ht
  rw [modify]
  omega

end

theorem total_eq_zero (h : ∀ k v, m.find? k = some v → f v = 0) : total f m = 0 := by
  rw [total]
  apply sum_eq_zero
  intro x hx
  obtain ⟨⟨k, v⟩, he, rfl⟩ := mem_map.mp hx
  exact h k v (mem_entries_iff.mp he)

theorem total_nonneg (h : ∀ v, 0 ≤ f v) : 0 ≤ total f m := by
  rw [total]
  induction m.entries with
  | nil => exact le_rfl
  | cons e l ih =>
    rw [map_cons, sum_cons]
    have he := h e.2
    omega

end Rippled.Lib.OrdMap
