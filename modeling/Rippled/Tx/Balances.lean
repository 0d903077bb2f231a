import Rippled.Lib.Total
import Rippled.Tx.FeeOnly

namespace Rippled.Tx

open Lib Transactor OrdMap

variable {A K : Type} [LinearOrder A] [LinearOrder K]

def single (x : A) (d : Int) (a : A) : Int := if a = x then d else 0

theorem single_self (x : A) (d : Int) : single x d x = d := if_pos rfl

theorem single_of_ne {x a : A} (h : a ≠ x) (d : Int) : single x d a = 0 := if_neg h

theorem single_zero (x : A) : single x 0 = fun _ => 0 := by
  funext a
  exact ite_self _

def balanceOf (accounts : OrdMap A AccountRoot) (a : A) : Int :=
  ((accounts.find? a).map AccountRoot.balance).getD 0

/-- The balances change by the given amounts, which sum up to `s`. No account comes or goes. -/
structure Shift (m m' : OrdMap A AccountRoot) (d : A → Int) (s : Int) : Prop where
  same : ∀ a, (m'.find? a).isSome = (m.find? a).isSome
  moved : ∀ a, balanceOf m' a = balanceOf m a + d a
  total : m'.total AccountRoot.balance = m.total AccountRoot.balance + s

namespace Shift

variable {m m' m'' : OrdMap A AccountRoot} {d d' : A → Int} {s s' : Int} {x : A} {n : Int}

theorem refl (m : OrdMap A AccountRoot) : Shift m m (fun _ => 0) 0 :=
  ⟨fun _ => rfl, fun _ => (add_zero _).symm, (add_zero _).symm⟩

theorem trans (h : Shift m m' d s) (h' : Shift m' m'' d' s') :
    Shift m m'' (fun a => d a + d' a) (s + s') where
  same a := (h'.same a).trans (h.same a)
  moved a := by rw [h'.moved, h.moved, add_assoc]
  total := by rw [h'.total, h.total, add_assoc]

theorem congr (h : Shift m m' d s) (hd : ∀ a, d a = d' a) (hs : s = s') : Shift m m' d' s' where
  same := h.same
  moved a := by rw [h.moved, hd]
  total := by rw [h.total, hs]

theorem none (m : OrdMap A AccountRoot) (x : A) : Shift m m (single x 0) 0 := by
  rw [single_zero]
  exact Shift.refl m

theorem modify {f : AccountRoot → AccountRoot} (hx : (m.find? x).isSome)
    (hf : ∀ root, (f root).balance = root.balance + n) : Shift m (m.modify x f) (single x n) n := by
  obtain ⟨root, hr⟩ := Option.isSome_iff_exists.mp hx
  refine ⟨fun a => ?_, fun a => ?_, ?_⟩
  · rw [find?_modify]
    split_ifs with ha
    · rw [ha, hr]
      rfl
    · rfl
  · rw [balanceOf, find?_modify, single]
    split_ifs with ha
    · simp [ha, balanceOf, hr, hf]
    · rw [add_zero]
      rfl
  · rw [total_modify hr, hf]
    omega

theorem insert {root root' : AccountRoot} (hr : m.find? x = some root)
    (hb : root'.balance = root.balance) : Shift m (m.insert x root') (fun _ => 0) 0 := by
  refine ⟨fun a => ?_, fun a => ?_, ?_⟩
  · rw [find?_insert]
    split_ifs with ha
    · rw [ha, hr]
      rfl
    · rfl
  · rw [balanceOf, find?_insert, add_zero]
    split_ifs with ha
    · simp [ha, balanceOf, hr, hb]
    · rfl
  · rw [total_insert_of_some hr, hb]
    omega

end Shift

section Effects

variable {env : Env A K} {idx : Indexes A K} {tx : Common A} {base l l' : Ledger A K}

theorem Consumed.books (h : Consumed idx tx l l') (hacc : (l.accounts.find? tx.account).isSome) :
    Shift l.accounts l'.accounts (fun _ => 0) 0 ∧ l'.payChans = l.payChans ∧ l'.escrows = l.escrows := by
  cases h with
  | sequence _ =>
    refine ⟨?_, rfl, rfl⟩
    have hs : Shift l.accounts (l.modifyAccount tx.account fun root =>
        { root with sequence := add32 tx.getSeqProxy.value 1 }).accounts (single tx.account 0) 0 :=
      Shift.modify hacc fun root => (add_zero root.balance).symm
    exact hs.congr (fun a => ite_self _) rfl
  | ticket _ _ _ hr _ => exact ⟨Shift.insert hr rfl, rfl, rfl⟩

theorem FeeClaimed.books {fee : Int} (h : FeeClaimed idx tx base fee l) :
    Shift base.accounts l.accounts (single tx.account (-fee)) (-fee) ∧ l.payChans = base.payChans ∧
      l.escrows = base.escrows := by
  obtain ⟨root, hr, _, hcn⟩ := h
  have hacc : (base.accounts.find? tx.account).isSome := by simp [hr]
  have hc : Shift base.accounts (base.modifyAccount tx.account (AccountRoot.credit (-fee))).accounts
      (single tx.account (-fee)) (-fee) := Shift.modify hacc fun _ => rfl
  have hb := hcn.books (by rw [hc.same]; exact hacc)
  refine ⟨(hc.trans hb.1).congr (fun a => add_zero _) (add_zero _), hb.2.1, hb.2.2⟩

theorem isTesSuccess_of_isTecClaim {ter : TER} (h : isTecClaim ter) : isTesSuccess ter = false := by
  cases ter <;> first | rfl | cases h

def Transactor.Outcome.success (o : Outcome A K) : Bool := o.applied && isTesSuccess o.result

/-- What applying a transaction comes to if its work erases no offers. -/
inductive Effect (idx : Indexes A K) (tx : Common A) (pre : TER)
    (f : Ledger A K → Except Failure (Ledger A K)) (base : Ledger A K) (o : Outcome A K) : Prop
  | nothing (happlied : o.applied = false) (hledger : o.ledger = base) (hfee : o.fee = 0)
  | feeOnly (hresult : isTecClaim o.result) (hfee : 0 ≤ o.fee)
    (hclaimed : FeeClaimed idx tx base o.fee o.ledger)
  | done {view : Ledger A K} (hsuccess : o.success) (hpre : pre = .tesSUCCESS)
    (hfee : 0 ≤ o.fee) (htx : o.fee = tx.fee) (hcons : Consumed idx tx base view)
    (hwork : f (payFee tx view) = .ok o.ledger)

variable {f : Ledger A K → Except Failure (Ledger A K)} {attempt : Attempt A K}

theorem attempted_work {pre ter : TER} {size : Nat}
    (hacc : pre = .tesSUCCESS → (base.accounts.find? tx.account).isSome)
    (h : attempted idx tx pre (work f size) base = .ok (ter, attempt)) :
    attempt.erasedOffers = [] ∧ (pre ≠ .tesSUCCESS ∧ ter = pre ∨ pre = .tesSUCCESS ∧
      (ter = .tesSUCCESS → ∃ view, Consumed idx tx base view ∧
        f (payFee tx view) = .ok attempt.view)) := by
  rw [attempted] at h
  split_ifs at h with hpre
  · obtain ⟨root, hr⟩ := Option.isSome_iff_exists.mp (hacc hpre)
    rw [apply, hr] at h
    dsimp only at h
    split at h
    · obtain ⟨ter', hter', h⟩ := map_eq_ok h
      cases h
      exact ⟨rfl, .inr ⟨hpre, fun hter => absurd hter (Failure.result_ne hter')⟩⟩
    · next view hc =>
      rw [work] at h
      split at h
      · next view' hw =>
        cases h
        exact ⟨rfl, .inr ⟨hpre, fun _ => ⟨view, consumed_of_consumeSeqProxy hc, hw⟩⟩⟩
      · obtain ⟨ter', hter', h⟩ := map_eq_ok h
        cases h
        exact ⟨rfl, .inr ⟨hpre, fun hter => absurd hter (Failure.result_ne hter')⟩⟩
  · cases h
    exact ⟨rfl, .inl ⟨hpre, rfl⟩⟩

theorem ClaimedWith.feeClaimed {result : TER} {fee : Int}
    (h : ClaimedWith idx tx base attempt result fee l) (hn : attempt.erasedOffers = []) :
    FeeClaimed idx tx base fee l := by
  obtain ⟨charged, offers, hfc, hdel, _, hsub, _⟩ := h
  rw [removedOffers, hn] at hsub
  cases hdel with
  | nil => exact hfc
  | cons => simp at hsub

theorem applyTransaction_effect (env : Env A K) (size : Nat) {pre : TER}
    (hacc : pre = .tesSUCCESS → (base.accounts.find? tx.account).isSome) :
    Effect idx tx pre f base (applyTransaction env idx tx pre (work f size) base) := by
  rw [applyTransaction]
  split_ifs
  · cases hop : operator env idx tx pre (work f size) base with
    | error what => exact .nothing rfl rfl rfl
    | ok o =>
      rcases operator_effect hop with ⟨_, rfl⟩ | ⟨ter, attempt, ha, hap, h0, _, hc⟩
      · exact .nothing rfl rfl rfl
      obtain ⟨hn, hpre⟩ := attempted_work hacc ha
      rcases hc with ⟨htec, hcw⟩ | ⟨hres, hter, hfee, hl⟩
      · exact .feeOnly htec h0 (hcw.feeClaimed hn)
      rcases hpre with ⟨hne, heq⟩ | ⟨heq, hv⟩
      · exact absurd (heq ▸ hter) hne
      · obtain ⟨view, hcn, hw⟩ := hv hter
        have hs : o.success := by rw [Outcome.success, hap, hres]; rfl
        exact .done hs heq h0 hfee hcn (hl ▸ hw)
  · exact .nothing rfl rfl rfl

/-- The ledger in which the fee is charged and nothing else concerns balances, channels or escrows. -/
structure FeeCharged (tx : Common A) (base : Ledger A K) (fee : Int) (charged : Ledger A K) : Prop where
  payChans : charged.payChans = base.payChans
  escrows : charged.escrows = base.escrows
  shift : Shift base.accounts charged.accounts (single tx.account (-fee)) (-fee)

theorem Consumed.payFee (h : Consumed idx tx base l) (hacc : (base.accounts.find? tx.account).isSome) :
    FeeCharged tx base tx.fee (payFee tx l) := by
  obtain ⟨hs, hc, he⟩ := h.books hacc
  have hfee : Shift l.accounts (Transactor.payFee tx l).accounts (single tx.account (-tx.fee)) (-tx.fee) :=
    Shift.modify (by rw [hs.same]; exact hacc) fun root => rfl
  exact ⟨hc, he, (hs.trans hfee).congr (fun a => zero_add _) (zero_add _)⟩

/-- Beyond the fee, the ledger changes by the work of a transaction that succeeds. -/
theorem Effect.charged {pre : TER} {f : Ledger A K → Except Failure (Ledger A K)} {o : Outcome A K}
    (h : Effect idx tx pre f base o)
    (hacc : pre = .tesSUCCESS → (base.accounts.find? tx.account).isSome) :
    (o.fee = 0 ∨ 0 ≤ o.fee ∧ o.fee ≤ tx.fee) ∧ ∃ charged, FeeCharged tx base o.fee charged ∧
      (o.success = false ∧ o.ledger = charged ∨
        o.success ∧ pre = .tesSUCCESS ∧ f charged = .ok o.ledger) := by
  cases h with
  | nothing ha hl hfee =>
    refine ⟨.inl hfee, base, ⟨rfl, rfl, ?_⟩, .inl ⟨by rw [Outcome.success, ha]; rfl, hl⟩⟩
    rw [hfee, neg_zero]
    exact (Shift.refl base.accounts).congr (fun a => (ite_self _).symm) rfl
  | feeOnly hr hfee hc =>
    obtain ⟨hs, hch, he⟩ := hc.books
    obtain ⟨root, _, hmin, _⟩ := hc
    have hle : o.fee ≤ tx.fee := by
      rw [hmin]
      exact min_le_left _ _
    have hf : o.success = false := by
      rw [Outcome.success, isTesSuccess_of_isTecClaim hr, Bool.and_false]
    exact ⟨.inr ⟨hfee, hle⟩, o.ledger, ⟨hch, he, hs⟩, .inl ⟨hf, rfl⟩⟩
  | done hsc hpre hfee htx hcn hw =>
    refine ⟨.inr ⟨hfee, htx.le⟩, _, ?_, .inr ⟨hsc, hpre, hw⟩⟩
    rw [htx]
    exact hcn.payFee (hacc hpre)

def gained (l : Ledger A K) (tx : Common A) (o : Outcome A K) (x : A) : Int :=
  balanceOf o.ledger.accounts x - balanceOf l.accounts x + single tx.account o.fee x

theorem FeeCharged.gained_eq {charged : Ledger A K} {o : Outcome A K}
    (h : FeeCharged tx base o.fee charged) (x : A) :
    gained base tx o x = balanceOf o.ledger.accounts x - balanceOf charged.accounts x := by
  rw [gained, h.shift.moved, single, single]
  split_ifs <;> omega

theorem firstFailure_mem {l : List TER} (h : firstFailure l = .tesSUCCESS) :
    ∀ ter ∈ l, ter = .tesSUCCESS := by
  induction l with
  | nil => simp
  | cons t rest ih =>
    rw [List.forall_mem_cons]
    cases t <;> first | exact ⟨rfl, ih h⟩ | cases h

theorem account_of_preclaimResult {checks : Checks} {preflight preclaim : TER}
    (h : preclaimResult env idx tx checks preflight preclaim base = .tesSUCCESS) :
    (base.accounts.find? tx.account).isSome := by
  have hseq := firstFailure_mem h (checkSeqProxy idx env.info.rules base tx) (by simp)
  rw [checkSeqProxy] at hseq
  split at hseq
  · cases hseq
  · next hr =>
    rw [hr]
    rfl

theorem eq_false_of_check {bad : Bool} {ter : TER} (hter : ter ≠ .tesSUCCESS)
    (h : check bad ter = .tesSUCCESS) : bad = false := by
  rw [check] at h
  split_ifs at h with hbad
  · exact absurd h hter
  · simpa using hbad

theorem pos_of_badAmount {amount : STAmount} (h : badAmount amount = false) : 0 < amount.xrp := by
  rw [badAmount, Bool.or_eq_false_iff] at h
  simpa using h.2

end Effects

section Example

def passed : Checks := ⟨.tesSUCCESS, .tesSUCCESS, .tesSUCCESS⟩

def applied (closeTime : Nat) {T : Type} (tx : T) : Application Nat Nat T :=
  { env := plainEnv closeTime, checks := passed, size := 4, tx }

def twoAccounts : Ledger Nat Nat where
  accounts := (OrdMap.empty.insert 1 { balance := 200, sequence := 5 }).insert 2
    { balance := 50, sequence := 8 }

end Example

end Rippled.Tx
