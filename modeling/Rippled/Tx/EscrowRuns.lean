import Rippled.Lib.Run
import Rippled.Tx.Balances
import Rippled.Tx.Escrow

namespace Rippled.Tx

open Lib Transactor OrdMap

variable {A K H : Type} [LinearOrder A] [LinearOrder K] {slep : Escrow A} {conds : CryptoConditions}
  {getTransactionID : EscrowFinish A → H} {router : HashRouter H}

section Fulfilled

variable {tx : EscrowFinish A}

def Fulfilled (conds : CryptoConditions) (tx : EscrowFinish A) (cb : Blob) : Prop :=
  ∃ fb c f, tx.fulfillment = some fb ∧ conds.deserializeCondition cb = some c ∧
    conds.deserializeFulfillment fb = some f ∧ f.condition conds = c

omit [LinearOrder A] in
theorem fulfilled_of_checkCondition {fb cb : Blob} (hfb : tx.fulfillment = some fb)
    (h : checkCondition conds fb cb) : Fulfilled conds tx cb := by
  rw [checkCondition] at h
  split at h
  · cases h
  · next c hc =>
    split at h
    · cases h
    · next f hf =>
      rw [Fulfillment.validate, Fulfillment.matches, Bool.and_eq_true, Bool.and_eq_true,
        decide_eq_true_eq, decide_eq_true_eq] at h
      exact ⟨fb, c, f, hfb, hc, hf, h.1.2.symm⟩

/-- The hash router calls valid only what was checked. -/
def RouterOk (conds : CryptoConditions) (getTransactionID : EscrowFinish A → H)
    (router : HashRouter H) : Prop :=
  ∀ tx : EscrowFinish A, (router (getTransactionID tx)).valid →
    ∃ cb, tx.condition = some cb ∧ Fulfilled conds tx cb

variable (h : RouterOk conds getTransactionID router)

include h

section

omit [LinearOrder A]

theorem RouterOk.checkFlags
    (hid : ∀ tx tx', getTransactionID tx = getTransactionID tx' → tx.condition = tx'.condition ∧
      tx.fulfillment = tx'.fulfillment)
    (tx : EscrowFinish A) [DecidableEq H] :
    RouterOk conds getTransactionID (tx.checkFlags conds getTransactionID router) := by
  intro tx' hv
  rw [EscrowFinish.checkFlags] at hv
  cases hcb : tx.condition with
  | none =>
    rw [hcb] at hv
    exact h tx' hv
  | some cb =>
    cases hfb : tx.fulfillment with
    | none =>
      rw [hcb, hfb] at hv
      exact h tx' hv
    | some fb =>
      rw [hcb, hfb] at hv
      dsimp only at hv
      split_ifs at hv
      · exact h tx' hv
      rw [HashRouter.setFlags] at hv
      split_ifs at hv with heq
      · obtain ⟨hc, hf⟩ := hid tx' tx heq
        rw [Bool.or_eq_true] at hv
        rcases hv with hold | hnew
        · exact h tx' hold
        · exact ⟨cb, hc.trans hcb, fulfilled_of_checkCondition (hf.trans hfb) hnew⟩
      · exact h tx' hv

theorem EscrowFinish.flags_spec {flags : CFFlags} {cb : Blob}
    (hf : tx.flags conds getTransactionID router = .ok flags) (hcb : tx.condition = some cb)
    (hv : flags.invalid = false) : Fulfilled conds tx cb := by
  rw [EscrowFinish.flags, hcb] at hf
  dsimp only at hf
  split_ifs at hf with hk
  · cases hf
    rw [CFFlags.known, hv, Bool.false_or] at hk
    obtain ⟨cb', hcb', hful⟩ := h tx hk
    cases hcb.symm.trans hcb'
    exact hful
  · split at hf
    · cases hf
    · next fb hfb =>
      cases hf
      refine fulfilled_of_checkCondition hfb ?_
      rw [CFFlags.of, Bool.not_eq_false'] at hv
      exact hv

theorem EscrowFinish.refused_spec (hok : tx.refused conds getTransactionID router slep = .ok ()) :
    tx.condition = slep.condition ∧ ∀ cb, slep.condition = some cb → Fulfilled conds tx cb := by
  obtain ⟨flags, hf, hok⟩ := bind_eq_ok hok
  split_ifs at hok with hi he hd
  have hc : tx.condition = slep.condition := by
    cases hs : slep.condition with
    | none =>
      by_contra hn
      exact he ⟨by simp [hs], Option.isSome_iff_ne_none.mpr hn⟩
    | some cb =>
      by_contra hn
      exact hd ⟨by simp [hs], by rw [hs]; exact Ne.symm hn⟩
  exact ⟨hc, fun cb hcb => flags_spec h hf (hc.trans hcb) (by simpa using hi)⟩

end

end Fulfilled

variable {idx : Indexes A K} {env : Env A K}

section Handled

variable {l l' : Ledger A K} {key : K}

theorem leaveDirectories_eq (h : leaveDirectories l key slep = .ok l') :
    ∃ dirs, l' = { l with ownerDirs := dirs } := by
  obtain ⟨view, hv, h⟩ := bind_eq_ok h
  obtain ⟨dirs, rfl⟩ := Ledger.ownerDirRemove_eq hv
  split at h
  · cases h
    exact ⟨dirs, rfl⟩
  · obtain ⟨dirs', rfl⟩ := Ledger.ownerDirRemove_eq h
    exact ⟨dirs', rfl⟩

/-- An escrow is finished at a time between its two times, by a transaction that presents its
condition and a fulfillment. -/
structure Finishes (conds : CryptoConditions) (env : Env A K) (tx : EscrowFinish A) (e : Escrow A) :
    Prop where
  times : ¬ EscrowFinish.isBarred env e
  condition : tx.condition = e.condition
  fulfilled : ∀ cb, e.condition = some cb → Fulfilled conds tx cb

def EscrowTx.isCreate : EscrowTx A → Bool
  | create _ => true
  | _ => false

/-- What a transaction that succeeds does to the escrow it is made for. -/
inductive EscrowHandled (conds : CryptoConditions) (idx : Indexes A K) (env : Env A K) (tx : EscrowTx A)
    (l l' : Ledger A K) : Prop
  | created {e : Escrow A} (htx : tx.isCreate) (hnew : l.escrows.find? (tx.escrow idx) = none)
    (hescrows : l'.escrows = l.escrows.insert (tx.escrow idx) e)
    (hshift : Shift l.accounts l'.accounts (single e.account (-e.amount)) (-e.amount))
  | finished {t : EscrowFinish A} {e : Escrow A} (htx : tx = .finish t)
    (he : l.escrows.find? (tx.escrow idx) = some e) (hfin : Finishes conds env t e)
    (hescrows : l'.escrows = l.escrows.erase (tx.escrow idx))
    (hshift : Shift l.accounts l'.accounts (single e.destination e.amount) e.amount)
  | cancelled {t : EscrowCancel A} {e : Escrow A} (htx : tx = .cancel t)
    (he : l.escrows.find? (tx.escrow idx) = some e) (htime : ¬ EscrowCancel.isBarred env e)
    (hescrows : l'.escrows = l.escrows.erase (tx.escrow idx))
    (hshift : Shift l.accounts l'.accounts (single e.account e.amount) e.amount)

variable {tx : EscrowCreate A}

theorem EscrowCreate.joinDestination_eq {page : Option Nat}
    (h : tx.joinDestination l key = .ok (page, l')) :
    ∃ dirs, l' = { l with ownerDirs := dirs } := by
  rw [joinDestination] at h
  split_ifs at h
  · obtain ⟨r, hr, heq⟩ := map_eq_ok h
    cases heq
    exact Ledger.ownerDirAdd_eq hr
  · cases h
    exact ⟨_, rfl⟩

theorem EscrowCreate.handled (h : tx.doApply env idx l = .ok l') :
    EscrowHandled conds idx env (.create tx) l l' := by
  rw [doApply] at h
  split_ifs at h
  split at h
  · cases h
  · next sle hsle =>
    dsimp only at h
    split_ifs at h
    split at h
    · cases h
    split_ifs at h
    rw [insert] at h
    split at h
    · cases h
    · next hn =>
      obtain ⟨⟨ownerNode, view1⟩, h1, h⟩ := bind_eq_ok h
      obtain ⟨⟨destinationNode, view2⟩, h2, h⟩ := bind_eq_ok h
      obtain ⟨dirs1, rfl⟩ := Ledger.ownerDirAdd_eq h1
      obtain ⟨dirs2, rfl⟩ := joinDestination_eq h2
      cases h
      exact .created rfl hn rfl (Shift.modify (by rw [hsle]; rfl) fun root => rfl)

theorem EscrowFinish.handled {tx : EscrowFinish A} (hr : RouterOk conds getTransactionID router)
    (h : tx.doApply conds getTransactionID env idx router l = .ok l') :
    EscrowHandled conds idx env (.finish tx) l l' := by
  rw [doApply] at h
  split at h
  · cases h
  · next e he =>
    split_ifs at h with ht
    obtain ⟨_, hrf, h⟩ := bind_eq_ok h
    obtain ⟨hc, hful⟩ := refused_spec hr hrf
    split at h
    · cases h
    · next sled hs =>
      split_ifs at h
      obtain ⟨view, hv, h⟩ := bind_eq_ok h
      obtain ⟨dirs, rfl⟩ := leaveDirectories_eq hv
      dsimp only at h
      split at h
      · cases h
      · next root hrt =>
        cases h
        refine .finished rfl he ⟨ht, hc, hful⟩ rfl ?_
        have hp : Shift l.accounts (l.accounts.modify e.destination (AccountRoot.credit e.amount))
            (single e.destination e.amount) e.amount :=
          Shift.modify (by rw [hs]; rfl) fun root => rfl
        have hcn := Shift.modify (n := 0) (f := AccountRoot.adjustOwnerCount (-1))
          (by rw [hrt]; rfl) fun root => (add_zero root.balance).symm
        refine (hp.trans hcn).congr (fun a => ?_) (add_zero _)
        rw [single_zero, add_zero]

theorem EscrowCancel.handled {tx : EscrowCancel A} (h : tx.doApply env idx l = .ok l') :
    EscrowHandled conds idx env (.cancel tx) l l' := by
  rw [doApply] at h
  split at h
  · cases h
  · next e he =>
    split_ifs at h with ht
    obtain ⟨view, hv, h⟩ := bind_eq_ok h
    obtain ⟨dirs, rfl⟩ := leaveDirectories_eq hv
    split at h
    · cases h
    · next root hr =>
      cases h
      exact .cancelled rfl he ht rfl (Shift.modify (by rw [hr]; rfl) fun root => rfl)

variable (hr : RouterOk conds getTransactionID router)

include hr

theorem EscrowTx.handled {tx : EscrowTx A}
    (h : tx.doApply conds getTransactionID idx env router l = .ok l') :
    EscrowHandled conds idx env tx l l' := by
  cases tx with
  | create tx => exact EscrowCreate.handled h
  | finish tx => exact EscrowFinish.handled hr h
  | cancel tx => exact EscrowCancel.handled h

theorem EscrowTx.apply_effect (a : Application A K (EscrowTx A)) (o : Outcome A K)
    (ho : o = EscrowTx.apply conds getTransactionID idx router a l) :
    (o.fee = 0 ∨ 0 ≤ o.fee ∧ o.fee ≤ a.tx.common.fee) ∧
      ∃ charged, FeeCharged a.tx.common l o.fee charged ∧ (o.success = false ∧ o.ledger = charged ∨
          o.success ∧ EscrowHandled conds idx a.env a.tx charged o.ledger) := by
  have hacc : preclaimResult a.env idx a.tx.common a.checks (a.tx.preflight conds a.env a.checks)
      .tesSUCCESS l = .tesSUCCESS → (l.accounts.find? a.tx.common.account).isSome :=
    account_of_preclaimResult
  obtain ⟨hfee, charged, hc, hd⟩ := (applyTransaction_effect a.env
    (f := a.tx.doApply conds getTransactionID idx a.env router) a.size hacc).charged hacc
  subst ho
  exact ⟨hfee, charged, hc, hd.imp_right fun h => ⟨h.1, handled hr h.2.2⟩⟩

end Handled

def Ledger.escrowXRP (l : Ledger A K) : Int :=
  l.accounts.total AccountRoot.balance + l.escrows.total Escrow.amount

/-- The escrows of a ledger together with the hash router, and how many transactions have created and
resolved an escrow under each key. -/
structure Vault (A K H : Type) [LinearOrder A] [LinearOrder K] where
  ledger : Ledger A K
  router : HashRouter H
  created : K → Nat
  resolved : K → Nat := fun _ => 0

/-- A condition is checked when a transaction is first seen, or while it is applied. What was found
expires at any time. -/
inductive EscrowEvent (A K H : Type) [LinearOrder A] [LinearOrder K]
  | check (tx : EscrowFinish A)
  | expire (ids : H → Bool)
  | apply (a : Application A K (EscrowTx A))

namespace Vault

variable {s : Vault A K H} {a : Application A K (EscrowTx A)}

section Definitions

variable (conds getTransactionID idx)

def initial (l : Ledger A K) : Vault A K H where
  ledger := l
  router := fun _ => {}
  created k := if (l.escrows.find? k).isSome then 1 else 0

def outcome (s : Vault A K H) (a : Application A K (EscrowTx A)) : Outcome A K :=
  EscrowTx.apply conds getTransactionID idx s.router a s.ledger

def step [DecidableEq H] (s : Vault A K H) : EscrowEvent A K H → Vault A K H
  | .check tx => { s with router := tx.checkFlags conds getTransactionID s.router }
  | .expire ids => { s with router := fun id => if ids id then {} else s.router id }
  | .apply a =>
    let o := s.outcome conds getTransactionID idx a
    let counts b k := o.success && a.tx.isCreate = b && a.tx.escrow idx = k
    { s with
      ledger := o.ledger
      created := fun k => if counts true k then s.created k + 1 else s.created k
      resolved := fun k => if counts false k then s.resolved k + 1 else s.resolved k }

/-- An escrow that was created is resolved once or still open. -/
def Counted (s : Vault A K H) : Prop :=
  ∀ k, s.created k = s.resolved k + if (s.ledger.escrows.find? k).isSome then 1 else 0

variable (s a)

/-- The whole amount goes to the destination, after the finish time and not after the cancel time, for
the exact condition and a fulfillment of it. -/
def Finished (e : Escrow A) : Prop :=
  ∃ tx, a.tx = .finish tx ∧
    gained s.ledger a.tx.common (s.outcome conds getTransactionID idx a) = single e.destination e.amount ∧
    (∀ mark, e.finishAfter = some mark → mark < a.env.info.parentCloseTime) ∧
    (∀ mark, e.cancelAfter = some mark → a.env.info.parentCloseTime ≤ mark) ∧
    tx.condition = e.condition ∧ ∀ cb, e.condition = some cb → Fulfilled conds tx cb

/-- The whole amount goes back to the owner, after the cancel time. -/
def Cancelled (e : Escrow A) : Prop :=
  ∃ tx, a.tx = .cancel tx ∧
    gained s.ledger a.tx.common (s.outcome conds getTransactionID idx a) = single e.account e.amount ∧
    ∃ mark, e.cancelAfter = some mark ∧ mark < a.env.info.parentCloseTime

def Resolves (k : K) (e : Escrow A) : Prop :=
  s.ledger.escrows.find? k = some e ∧
    (s.outcome conds getTransactionID idx a).ledger.escrows.find? k = none

structure Fair : Prop where
  kept : ∀ k e e', s.ledger.escrows.find? k = some e →
    (s.outcome conds getTransactionID idx a).ledger.escrows.find? k = some e' → e' = e
  paid : ∀ k e, s.Resolves conds getTransactionID idx a k e →
    s.Finished conds getTransactionID idx a e ∨ s.Cancelled conds getTransactionID idx a e
  exclusive : ∀ k e a' tx tx', a.tx = .finish tx → a'.tx = .cancel tx' → a'.env.info.rules.fix1571 →
    a'.env.info.parentCloseTime = a.env.info.parentCloseTime →
    s.Resolves conds getTransactionID idx a k e → ¬ s.Resolves conds getTransactionID idx a' k e
  fee : (s.outcome conds getTransactionID idx a).fee = 0 ∨
    0 ≤ (s.outcome conds getTransactionID idx a).fee ∧
      (s.outcome conds getTransactionID idx a).fee ≤ a.tx.common.fee
  xrp : (s.outcome conds getTransactionID idx a).ledger.escrowXRP =
    s.ledger.escrowXRP - (s.outcome conds getTransactionID idx a).fee

end Definitions

variable {k : K} {e : Escrow A}

theorem finish_times (hfix : env.info.rules.fix1571) (h : ¬ EscrowFinish.isBarred env e) :
    (∀ mark, e.finishAfter = some mark → mark < env.info.parentCloseTime) ∧
      ∀ mark, e.cancelAfter = some mark → env.info.parentCloseTime ≤ mark := by
  rw [EscrowFinish.isBarred, if_pos hfix, Bool.or_eq_true, not_or] at h
  refine ⟨fun mark hm => ?_, fun mark hm => ?_⟩
  · simpa [hm, after] using h.1
  · simpa [hm, after] using h.2

theorem cancel_time (hfix : env.info.rules.fix1571) (h : ¬ EscrowCancel.isBarred env e) :
    ∃ mark, e.cancelAfter = some mark ∧ mark < env.info.parentCloseTime := by
  rw [EscrowCancel.isBarred, if_pos hfix, Bool.or_eq_true, not_or] at h
  cases hm : e.cancelAfter with
  | none => simp [hm] at h
  | some mark => exact ⟨mark, rfl, by simpa [hm, after] using h.2⟩

inductive Fate (conds : CryptoConditions) (idx : Indexes A K) (l : Ledger A K)
    (a : Application A K (EscrowTx A)) (o : Outcome A K) (k : K) : Prop
  | untouched (hother : o.success = false ∨ a.tx.escrow idx ≠ k)
    (hsame : o.ledger.escrows.find? k = l.escrows.find? k)
  | created {e : Escrow A} (hsuccess : o.success) (hk : a.tx.escrow idx = k) (htx : a.tx.isCreate)
    (hbefore : l.escrows.find? k = none) (hafter : o.ledger.escrows.find? k = some e)
  | finished {tx : EscrowFinish A} {e : Escrow A} (hsuccess : o.success) (hk : a.tx.escrow idx = k)
    (htx : a.tx = .finish tx) (hbefore : l.escrows.find? k = some e)
    (hafter : o.ledger.escrows.find? k = none) (hfin : Finishes conds a.env tx e)
    (hgained : gained l a.tx.common o = single e.destination e.amount)
  | cancelled {tx : EscrowCancel A} {e : Escrow A} (hsuccess : o.success) (hk : a.tx.escrow idx = k)
    (htx : a.tx = .cancel tx) (hbefore : l.escrows.find? k = some e)
    (hafter : o.ledger.escrows.find? k = none) (htime : ¬ EscrowCancel.isBarred a.env e)
    (hgained : gained l a.tx.common o = single e.account e.amount)

theorem fate (hr : RouterOk conds getTransactionID s.router) (idx : Indexes A K)
    (a : Application A K (EscrowTx A)) (k : K) :
    Fate conds idx s.ledger a (s.outcome conds getTransactionID idx a) k := by
  generalize ho : s.outcome conds getTransactionID idx a = o
  obtain ⟨_, charged, hc, hd⟩ := EscrowTx.apply_effect hr a o ho.symm
  rcases hd with ⟨hf, hi⟩ | ⟨hsc, hh⟩
  · exact .untouched (.inl hf) (by rw [hi, hc.escrows])
  have hg : ∀ {x d n}, Shift charged.accounts o.ledger.accounts (single x d) n →
      gained s.ledger a.tx.common o = single x d := by
    intro x d n hs
    funext y
    rw [hc.gained_eq, hs.moved]
    omega
  by_cases hk : a.tx.escrow idx = k
  · subst hk
    cases hh with
    | created htx hnew hes =>
      rw [hc.escrows] at hnew hes
      exact .created hsc rfl htx hnew (by rw [hes, find?_insert, if_pos rfl])
    | finished htx he hfin hes hs =>
      rw [hc.escrows] at he hes
      exact .finished hsc rfl htx he (by rw [hes, find?_erase, if_pos rfl]) hfin (hg hs)
    | cancelled htx he ht hes hs =>
      rw [hc.escrows] at he hes
      exact .cancelled hsc rfl htx he (by rw [hes, find?_erase, if_pos rfl]) ht (hg hs)
  · refine .untouched (.inr hk) ?_
    have hkp : ∀ {escrows : OrdMap K (Escrow A)}, escrows.find? k = charged.escrows.find? k →
        escrows.find? k = s.ledger.escrows.find? k := fun h => by rw [h, hc.escrows]
    apply hkp
    cases hh with
    | created _ _ hes => rw [hes, find?_insert, if_neg (Ne.symm hk)]
    | finished _ _ _ hes | cancelled _ _ _ hes => rw [hes, find?_erase, if_neg (Ne.symm hk)]

/-- The hash router tells the truth and the escrows are counted. -/
structure Sound (conds : CryptoConditions) (getTransactionID : EscrowFinish A → H) (s : Vault A K H) :
    Prop where
  router : RouterOk conds getTransactionID s.router
  counted : s.Counted

theorem Sound.step [DecidableEq H] (hid : ∀ tx tx', getTransactionID tx = getTransactionID tx' →
      tx.condition = tx'.condition ∧ tx.fulfillment = tx'.fulfillment)
    (hs : s.Sound conds getTransactionID) (event : EscrowEvent A K H) :
    (s.step conds getTransactionID idx event).Sound conds getTransactionID := by
  cases event with
  | check tx => exact ⟨hs.router.checkFlags hid tx, hs.counted⟩
  | expire ids =>
    refine ⟨fun tx hv => ?_, hs.counted⟩
    rw [Vault.step] at hv
    dsimp only at hv
    split_ifs at hv
    exact hs.router tx hv
  | apply a =>
    refine ⟨hs.router, fun k => ?_⟩
    have hc := hs.counted k
    rw [Vault.step]
    dsimp only
    cases fate hs.router idx a k with
    | untouched ho hsm =>
      have hno : ∀ b, ¬ ((s.outcome conds getTransactionID idx a).success && a.tx.isCreate = b &&
          a.tx.escrow idx = k) := by
        intro b
        rcases ho with h | h <;> simp [h]
      rw [if_neg (hno _), if_neg (hno _), hsm]
      exact hc
    | created hsc hk htx hb ha =>
      simp [hsc, hk, htx, hb, ha, hc]
    | finished hsc hk htx hb ha | cancelled hsc hk htx hb ha =>
      have hcr : a.tx.isCreate = false := by rw [htx]; rfl
      simp [hsc, hk, hcr, hb, ha, hc]

section

variable (hr : RouterOk conds getTransactionID s.router)

include hr

theorem escrowXRP_step (a : Application A K (EscrowTx A)) :
    (s.outcome conds getTransactionID idx a).ledger.escrowXRP =
      s.ledger.escrowXRP - (s.outcome conds getTransactionID idx a).fee := by
  obtain ⟨_, charged, hc, hd⟩ := EscrowTx.apply_effect hr a
    (s.outcome conds getTransactionID idx a) rfl
  have hfee := hc.shift.total
  rw [Ledger.escrowXRP, Ledger.escrowXRP]
  rcases hd with ⟨_, hi⟩ | ⟨_, hh⟩
  · rw [hi, hfee, hc.escrows]
    omega
  cases hh with
  | created _ hnew hes hs =>
    have hm := hs.total
    rw [hc.escrows] at hnew hes
    rw [hes, total_insert_of_none hnew]
    omega
  | finished _ he _ hes hs | cancelled _ he _ hes hs =>
    have hm := hs.total
    rw [hc.escrows] at he hes
    rw [hes, total_erase he]
    omega

theorem resolves_cases (hfix : a.env.info.rules.fix1571)
    (h : s.Resolves conds getTransactionID idx a k e) :
    s.Finished conds getTransactionID idx a e ∨ s.Cancelled conds getTransactionID idx a e := by
  obtain ⟨he, hn⟩ := h
  cases fate hr idx a k with
  | untouched _ hs => cases hn.symm.trans (hs.trans he)
  | created _ _ _ hb => cases hb.symm.trans he
  | finished _ _ htx hb _ hfin hg =>
    cases hb.symm.trans he
    obtain ⟨hfn, hc⟩ := finish_times hfix hfin.times
    exact .inl ⟨_, htx, hg, hfn, hc, hfin.condition, hfin.fulfilled⟩
  | cancelled _ _ htx hb _ ht hg =>
    cases hb.symm.trans he
    exact .inr ⟨_, htx, hg, cancel_time hfix ht⟩

end

theorem Sound.fair (hs : s.Sound conds getTransactionID) (hfix : a.env.info.rules.fix1571) :
    s.Fair conds getTransactionID idx a where
  kept k e e' he he' := by
    cases fate hs.router idx a k with
    | untouched _ hsm => cases he'.symm.trans (hsm.trans he); rfl
    | created _ _ _ hb => cases hb.symm.trans he
    | finished _ _ _ _ ha | cancelled _ _ _ _ ha => cases ha.symm.trans he'
  paid k e h := resolves_cases hs.router hfix h
  exclusive k e a' tx tx' htx htx' hfix' ht h h' := by
    rcases resolves_cases hs.router hfix h with ⟨_, _, _, _, hc, _⟩ | ⟨_, hbad, _⟩
    · rcases resolves_cases hs.router hfix' h' with ⟨_, hbad, _⟩ | ⟨_, _, _, mark, hm, hlt⟩
      · cases htx'.symm.trans hbad
      · have hle := hc mark hm
        omega
    · cases htx.symm.trans hbad
  fee := (EscrowTx.apply_effect hs.router a (s.outcome conds getTransactionID idx a) rfl).1
  xrp := escrowXRP_step hs.router a

end Vault

/-- In every run every escrow that is created is resolved at most once, and every transaction made with
fix1571 enabled treats the escrows fairly. -/
theorem escrows_resolved_fairly [DecidableEq H] (conds : CryptoConditions)
    (getTransactionID : EscrowFinish A → H) (idx : Indexes A K)
    (hid : ∀ tx tx', getTransactionID tx = getTransactionID tx' →
      tx.condition = tx'.condition ∧ tx.fulfillment = tx'.fulfillment)
    (l : Ledger A K) (events : List (EscrowEvent A K H)) :
    (events.foldl (Vault.step conds getTransactionID idx) (Vault.initial l)).Counted ∧
      ∀ a, a.env.info.rules.fix1571 →
        (events.foldl (Vault.step conds getTransactionID idx) (Vault.initial l)).Fair conds
          getTransactionID idx a := by
  have hsound : (events.foldl (Vault.step conds getTransactionID idx) (Vault.initial l)).Sound conds
      getTransactionID := by
    apply Run.invariant (Vault.Sound conds getTransactionID) (fun s event hs _ => hs.step hid event) events
    · exact ⟨fun tx hvalid => (Bool.false_ne_true hvalid).elim, fun k => (zero_add _).symm⟩
    · exact Run.allowed_of_forall (fun _ _ => trivial) _ _
  exact ⟨hsound.counted, fun a hfix => hsound.fair hfix⟩

section Example

/-- A condition is a byte that the payload has to sum up to, followed by the length of the payload. -/
def plainConditions : CryptoConditions where
  deserializeCondition b := some
    { type := .preimageSha256, fingerprint := b.take 1, cost := (b.drop 1).foldl (fun _ n => n.toNat) 0 }
  deserializeFulfillment b := some ⟨b⟩
  sha256 b := [b.foldl (· + ·) 0]

def plainID (tx : EscrowFinish Nat) : Option Blob × Option Blob := (tx.condition, tx.fulfillment)

def createEscrow : EscrowTx Nat :=
  .create { account := 1, fee := 10, sequence := 5, destination := 2, amount := drops 100
            condition := some [7, 2], cancelAfter := some 20 }

def finishEscrow : EscrowTx Nat :=
  .finish { account := 2, fee := 10, sequence := 8, owner := 1, offerSequence := 5
            condition := some [7, 2], fulfillment := some [3, 4] }

theorem escrows_resolved_fairly_once :
    (∀ tx tx', plainID tx = plainID tx' →
      tx.condition = tx'.condition ∧ tx.fulfillment = tx'.fulfillment) ∧
    ([EscrowEvent.apply (applied 10 createEscrow), .apply (applied 20 finishEscrow)].foldl
      (Vault.step plainConditions plainID plainIndexes) (Vault.initial twoAccounts)).resolved
        (plainIndexes.escrow 1 5) = 1 ∧
    (applied 30 finishEscrow).env.info.rules.fix1571 ∧
    ([EscrowEvent.apply (applied 10 createEscrow), .apply (applied 20 finishEscrow)].foldl
      (Vault.step plainConditions plainID plainIndexes) (Vault.initial twoAccounts)).Fair plainConditions
        plainID plainIndexes (applied 30 finishEscrow) := by
  have hid : ∀ tx tx', plainID tx = plainID tx' →
      tx.condition = tx'.condition ∧ tx.fulfillment = tx'.fulfillment :=
    fun tx tx' h => ⟨congrArg Prod.fst h, congrArg Prod.snd h⟩
  exact ⟨hid, by decide +kernel, rfl,
    (escrows_resolved_fairly plainConditions plainID plainIndexes hid twoAccounts _).2 _ rfl⟩

end Example

end Rippled.Tx
