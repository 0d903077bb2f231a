import Rippled.Lib.Run

namespace Rippled

open Lib

def lftNormalFee : UInt32 := 256
def lftFeeIncFraction : UInt32 := 4
def lftFeeDecFraction : UInt32 := 4
def lftFeeMax : UInt32 := lftNormalFee * 1000000

/-- The current fee schedule, as scale factors of the normal fee. -/
structure LoadFeeTrack where
  localTxnLoadFee_ : UInt32 := lftNormalFee
  remoteTxnLoadFee_ : UInt32 := lftNormalFee
  clusterTxnLoadFee_ : UInt32 := lftNormalFee
  raiseCount_ : UInt32 := 0

namespace LoadFeeTrack

section

variable (t : LoadFeeTrack)

/-- The local fee after the remote one took effect and a fraction was added, in 32 bits. -/
def increased : UInt32 :=
  let fee := if t.localTxnLoadFee_ < t.remoteTxnLoadFee_ then t.remoteTxnLoadFee_
    else t.localTxnLoadFee_
  fee + fee / lftFeeIncFraction

def raiseLocalFee : Bool × LoadFeeTrack :=
  let t := { t with raiseCount_ := t.raiseCount_ + 1 }
  if t.raiseCount_ < 2 then (false, t)
  else
    let fee := if lftFeeMax < t.increased then lftFeeMax else t.increased
    (t.localTxnLoadFee_ != fee, { t with localTxnLoadFee_ := fee })

def lowerLocalFee : Bool × LoadFeeTrack :=
  let fee := t.localTxnLoadFee_ - t.localTxnLoadFee_ / lftFeeDecFraction
  let fee := if fee < lftNormalFee then lftNormalFee else fee
  (t.localTxnLoadFee_ != fee, { t with localTxnLoadFee_ := fee, raiseCount_ := 0 })

inductive Call
  | raiseLocalFee
  | lowerLocalFee
  | setRemoteFee (f : UInt32)
  | setClusterFee (fee : UInt32)

def step : Call → LoadFeeTrack
  | .raiseLocalFee => t.raiseLocalFee.2
  | .lowerLocalFee => t.lowerLocalFee.2
  | .setRemoteFee f => { t with remoteTxnLoadFee_ := f }
  | .setClusterFee fee => { t with clusterTxnLoadFee_ := fee }

def InRange : Prop :=
  lftNormalFee ≤ t.localTxnLoadFee_ ∧ t.localTxnLoadFee_ ≤ lftFeeMax

/-- What is expected of a call: the fee stays in range and moves in the right direction only. -/
def Steady (c : Call) : Prop :=
  (t.step c).InRange ∧
    match c with
    | .raiseLocalFee => t.localTxnLoadFee_ ≤ (t.step c).localTxnLoadFee_
    | .lowerLocalFee => (t.step c).localTxnLoadFee_ ≤ t.localTxnLoadFee_
    | _ => True

/-- A quarter more than the higher fee fits into 32 bits, or exceeds them by the local fee. -/
def Unwrapped : Call → Prop
  | .raiseLocalFee => t.raiseCount_ + 1 < 2 ∨
    let x := max t.localTxnLoadFee_.toNat t.remoteTxnLoadFee_.toNat
    x + x / 4 < 4294967296 ∨ 4294967296 + t.localTxnLoadFee_.toNat ≤ x + x / 4
  | _ => True

end

variable {t : LoadFeeTrack}

theorem raiseLocalFee_fee (t : LoadFeeTrack) : t.raiseLocalFee.2.localTxnLoadFee_ =
    if t.raiseCount_ + 1 < 2 then t.localTxnLoadFee_
    else if lftFeeMax < t.increased then lftFeeMax else t.increased := by
  unfold raiseLocalFee
  dsimp only
  split <;> rfl

theorem le_increased_iff (t : LoadFeeTrack) : t.localTxnLoadFee_ ≤ t.increased ↔
    let x := max t.localTxnLoadFee_.toNat t.remoteTxnLoadFee_.toNat
    x + x / 4 < 4294967296 ∨ 4294967296 + t.localTxnLoadFee_.toNat ≤ x + x / 4 := by
  have hl := t.localTxnLoadFee_.toNat_lt
  have hr := t.remoteTxnLoadFee_.toNat_lt
  rw [UInt32.le_iff_toNat_le, increased, UInt32.toNat_add, UInt32.toNat_div]
  have hx : (if t.localTxnLoadFee_ < t.remoteTxnLoadFee_ then t.remoteTxnLoadFee_
      else t.localTxnLoadFee_).toNat = max t.localTxnLoadFee_.toNat t.remoteTxnLoadFee_.toNat := by
    split <;> rename_i h <;> rw [UInt32.lt_iff_toNat_lt] at h <;> omega
  rw [hx, show lftFeeIncFraction.toNat = 4 from rfl]
  omega

theorem steady_iff_unwrapped (h : t.InRange) (c : Call) : t.Steady c ↔ t.Unwrapped c := by
  obtain ⟨hl, hu⟩ := h
  cases c with
  | raiseLocalFee =>
    dsimp only [Steady, Unwrapped, step, InRange]
    rw [raiseLocalFee_fee, ← le_increased_iff]
    have hm : lftNormalFee ≤ lftFeeMax := by decide
    grind
  | lowerLocalFee =>
    refine iff_of_true ?_ trivial
    dsimp only [Steady, step, lowerLocalFee, InRange]
    grind [lftFeeDecFraction, lftNormalFee]
  | setRemoteFee f | setClusterFee fee => exact iff_of_true ⟨⟨hl, hu⟩, trivial⟩ trivial

theorem allowed_steady_iff (h : t.InRange) (calls : List Call) :
    Run.Allowed step Steady t calls ↔ Run.Allowed step Unwrapped t calls := by
  induction calls generalizing t with
  | nil => exact Iff.rfl
  | cons c calls ih =>
    rw [Run.Allowed, Run.Allowed, steady_iff_unwrapped h]
    exact and_congr_right fun hc => ih ((steady_iff_unwrapped h c).mpr hc).1

theorem lowerLocalFee_cases (t : LoadFeeTrack) :
    t.lowerLocalFee.2.localTxnLoadFee_ = lftNormalFee ∨
      t.localTxnLoadFee_ ≠ lftNormalFee ∧
        t.lowerLocalFee.2.localTxnLoadFee_ < t.localTxnLoadFee_ := by
  dsimp only [lowerLocalFee]
  grind [lftFeeDecFraction, lftNormalFee]

theorem foldl_lowerLocalFee (t : LoadFeeTrack) (n : Nat) :
    let t' := (List.replicate n .lowerLocalFee).foldl step t
    t'.localTxnLoadFee_ = lftNormalFee ∨
      t'.localTxnLoadFee_.toNat + n ≤ t.localTxnLoadFee_.toNat := by
  induction n with
  | zero => exact .inr (Nat.le_refl _)
  | succ n ih =>
    rw [List.replicate_succ', List.foldl_append]
    obtain hn | ⟨hne, hlt⟩ := lowerLocalFee_cases ((List.replicate n .lowerLocalFee).foldl step t)
    · exact .inl hn
    · have hle := ih.resolve_left hne
      have hlt := UInt32.lt_iff_toNat_lt.mp hlt
      right
      dsimp only [List.foldl_cons, List.foldl_nil, step] at hle ⊢
      omega

/-- The local fee stays in range and moves in the right direction in exactly the runs in which the
fee that is raised does not wrap around, and calls that lower it bring it back to the normal fee. -/
theorem localFee_steady_iff (calls : List Call) :
    (Run.Allowed step Steady {} calls ↔ Run.Allowed step Unwrapped {} calls) ∧
      ∃ n, ∀ m ≥ n, ((calls ++ List.replicate m Call.lowerLocalFee).foldl step {}).localTxnLoadFee_ =
        lftNormalFee := by
  refine ⟨allowed_steady_iff ⟨by decide, by decide⟩ calls,
    (calls.foldl step {}).localTxnLoadFee_.toNat + 1, fun m hm => ?_⟩
  rw [List.foldl_append]
  exact (foldl_lowerLocalFee (calls.foldl step {}) m).resolve_right (by omega)

/-- A remote fee of four fifths of the 32-bit range makes the local fee zero when that is raised, and
lowering it then raises it. -/
theorem localFee_wraps :
    let t := [.setRemoteFee 3435973837, .raiseLocalFee].foldl step {}
    t.localTxnLoadFee_ = lftNormalFee ∧ (t.step .raiseLocalFee).localTxnLoadFee_ = 0 ∧
      ((t.step .raiseLocalFee).step .lowerLocalFee).localTxnLoadFee_ = lftNormalFee := by
  decide

end LoadFeeTrack

end Rippled
