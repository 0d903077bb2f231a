import Rippled.Consensus.Basic
import Mathlib.Algebra.Order.BigOperators.Group.List
import Mathlib.Algebra.Order.Group.Nat

namespace Rippled.Consensus

open Lib List

variable {threshConsensus : Nat}

/-- The latest of the times that have the most votes. -/
def Leading (votes : List (Int × Nat)) (e : Int × Nat) : Prop :=
  e ∈ votes ∧ ∀ e' ∈ votes, e'.2 < e.2 ∨ e'.2 = e.2 ∧ e'.1 ≤ e.1

variable {votes : List (Int × Nat)}

theorem exists_leading (h : votes ≠ []) : ∃ e, Leading votes e := by
  induction votes with
  | nil => exact absurd rfl h
  | cons e votes ih =>
    by_cases hv : votes = []
    · exact ⟨e, by grind [Leading]⟩
    · obtain ⟨e', he⟩ := ih hv
      by_cases hlt : e'.2 < e.2 ∨ e'.2 = e.2 ∧ e'.1 ≤ e.1
      · exact ⟨e, by grind [Leading]⟩
      · exact ⟨e', by grind [Leading]⟩

theorem closeTimeLoop_of_lt {thresh : Nat} (h : ∀ e ∈ votes, e.2 < thresh) (t : Int) (b : Bool) :
    closeTimeLoop threshConsensus votes thresh t b = (t, b) := by
  induction votes with
  | nil => rfl
  | cons e votes ih => grind [closeTimeLoop]

/-- The threshold that the loop raises is met again by the leading time only. -/
theorem closeTimeLoop_eq (hs : OrdMap.Sorted votes) {e : Int × Nat} (he : Leading votes e)
    (thresh : Nat) (t : Int) (b : Bool) : closeTimeLoop threshConsensus votes thresh t b =
      if thresh ≤ e.2 then (e.1, b || decide (threshConsensus ≤ e.2)) else (t, b) := by
  induction votes generalizing thresh t b with
  | nil => exact absurd he.1 not_mem_nil
  | cons a votes ih =>
    obtain ⟨ha, hs⟩ := pairwise_cons.mp hs
    obtain rfl | hm := mem_cons.mp he.1
    · -- every later time has fewer votes than the head
      have hlt : ∀ e' ∈ votes, e'.2 < e.2 := by grind [Leading]
      rw [closeTimeLoop]
      split_ifs with h
      · rw [closeTimeLoop_of_lt hlt]
      · exact closeTimeLoop_of_lt (fun e' h' => by grind) t b
    · have hl : Leading votes e := ⟨hm, fun e' h' => he.2 e' (mem_cons_of_mem _ h')⟩
      have hle : a.2 ≤ e.2 := by grind [Leading]
      have hor : (decide (threshConsensus ≤ a.2) || decide (threshConsensus ≤ e.2)) =
          decide (threshConsensus ≤ e.2) := by grind
      rw [closeTimeLoop, ih hs hl, ih hs hl, Bool.or_assoc, hor]
      grind

theorem add_le_sum_of_mem {e e' : Int × Nat} (he : e ∈ votes) (he' : e' ∈ votes) (hne : e ≠ e') :
    e.2 + e'.2 ≤ (votes.map Prod.snd).sum := by
  induction votes with
  | nil => cases he
  | cons a votes ih =>
    have hle : ∀ e ∈ votes, e.2 ≤ (votes.map Prod.snd).sum :=
      fun e he => single_le_sum (fun _ _ => Nat.zero_le _) _ (mem_map_of_mem he)
    grind

/-- For a map of votes of all participants the loop finds the leading time if it has enough votes,
which are agreed if they also reach the threshold for it. From three participants on, that is a
majority. -/
theorem closeTime_vote (votes : OrdMap Int Nat) (percentTime : Int) :
    let n := (votes.entries.map Prod.snd).sum
    let threshVote := participantsNeeded n (avalanche {} percentTime)
    let threshConsensus := participantsNeeded n ({} : ConsensusParms).avCT_CONSENSUS_PCT
    let r := closeTimeLoop threshConsensus votes.entries threshVote 0 false
    (votes.entries = [] → r = (0, false)) ∧
    (votes.entries ≠ [] → ∃ e, Leading votes.entries e ∧
      (r.1 = if threshVote ≤ e.2 then e.1 else 0) ∧
      (r.2 ↔ threshVote ≤ e.2 ∧ threshConsensus ≤ e.2)) ∧
    (3 ≤ n → r.2 → ∃ v, votes.find? r.1 = some v ∧ n < 2 * v ∧
      ∀ t v', votes.find? t = some v' → n < 2 * v' → t = r.1) := by
  intro n threshVote threshConsensus r
  have hnil : votes.entries = [] → r = (0, false) := by
    intro h
    simp only [r, h, closeTimeLoop]
  have hlead : votes.entries ≠ [] → ∃ e, Leading votes.entries e ∧
      r = if threshVote ≤ e.2 then (e.1, decide (threshConsensus ≤ e.2)) else (0, false) := by
    intro h
    obtain ⟨e, he⟩ := exists_leading h
    exact ⟨e, he, by simpa using closeTimeLoop_eq votes.sorted he threshVote 0 false⟩
  refine ⟨hnil, fun h => by grind, ?_⟩
  intro h3 ht
  obtain ⟨e, he, hr⟩ := hlead (by grind)
  have hc : threshConsensus ≤ e.2 ∧ r.1 = e.1 := by grind
  have hmaj : n < 2 * e.2 := by grind [participantsNeeded]
  rw [hc.2]
  refine ⟨e.2, OrdMap.mem_entries_iff.mp he.1, hmaj, fun t v hv hlt => ?_⟩
  by_contra hne
  have := add_le_sum_of_mem he.1 (OrdMap.mem_entries_iff.mpr hv) (by grind)
  omega

end Rippled.Consensus
