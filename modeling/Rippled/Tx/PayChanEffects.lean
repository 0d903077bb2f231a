import Rippled.Tx.Balances
import Rippled.Tx.PayChan

namespace Rippled.Tx

open Lib Transactor

variable {rules : Rules} {A K : Type} [LinearOrder A] [LinearOrder K] {view view' : Ledger A K}

section Close

variable {key : K} {slep : PayChan A}

theorem leaveDestination_eq (h : closeChannel.leaveDestination rules view key slep = .ok view') :
    ∃ dirs, view' = { view with ownerDirs := dirs } := by
  rw [closeChannel.leaveDestination] at h
  split at h
  · cases h
    exact ⟨_, rfl⟩
  split_ifs at h
  · exact Ledger.ownerDirRemove_eq h
  · cases h
    exact ⟨_, rfl⟩

theorem closeChannel_eq (h : closeChannel rules view key slep = .ok view') :
    (view.accounts.find? slep.account).isSome ∧ ∃ dirs, view' = { view with
      ownerDirs := dirs
      accounts := view.accounts.modify slep.account fun sle =>
        (sle.credit (slep.amount - slep.balance)).adjustOwnerCount (-1)
      payChans := view.payChans.erase key } := by
  obtain ⟨view1, h1, h⟩ := bind_eq_ok h
  obtain ⟨view2, h2, h⟩ := bind_eq_ok h
  obtain ⟨dirs1, rfl⟩ := Ledger.ownerDirRemove_eq h1
  obtain ⟨dirs2, rfl⟩ := leaveDestination_eq h2
  split at h
  · cases h
  · next hr =>
    cases h
    exact ⟨by rw [hr]; rfl, dirs2, rfl⟩

end Close

variable {env : Env A K} {c : PayChan A}

section Create

variable {idx : Indexes A K} {tx : PayChanCreate A}

theorem joinDestination_eq {dst : A} {key : K} {page : Option Nat}
    (h : joinDestination rules view dst key = .ok (page, view')) :
    ∃ dirs, view' = { view with ownerDirs := dirs } := by
  rw [joinDestination] at h
  split_ifs at h
  · obtain ⟨r, hr, heq⟩ := map_eq_ok h
    cases heq
    exact Ledger.ownerDirAdd_eq hr
  · cases h
    exact ⟨_, rfl⟩

theorem PayChanCreate.doApply_eq (h : tx.doApply env idx view = .ok view') :
    (view.accounts.find? tx.account).isSome ∧
      view.payChans.find? (idx.payChan tx.account tx.destination tx.getSeqProxy.value) = none ∧
      ∃ dirs ownerNode destinationNode, view' = { view with
        ownerDirs := dirs
        accounts := view.accounts.modify tx.account fun sle =>
          (sle.credit (-tx.amount.xrp)).adjustOwnerCount 1
        payChans := view.payChans.insert (idx.payChan tx.account tx.destination tx.getSeqProxy.value)
          { account := tx.account, destination := tx.destination, amount := tx.amount.xrp, balance := 0
            settleDelay := tx.settleDelay, publicKey := tx.publicKey, cancelAfter := tx.cancelAfter
            ownerNode, destinationNode } } := by
  rw [doApply] at h
  split at h
  · cases h
  · next hr =>
    dsimp only at h
    split at h
    · cases h
    · next hn =>
      obtain ⟨⟨ownerNode, view1⟩, h1, h⟩ := bind_eq_ok h
      obtain ⟨⟨destinationNode, view2⟩, h2, h⟩ := bind_eq_ok h
      obtain ⟨dirs1, rfl⟩ := Ledger.ownerDirAdd_eq h1
      obtain ⟨dirs2, rfl⟩ := joinDestination_eq h2
      cases h
      exact ⟨by rw [hr]; rfl, hn, dirs2, ownerNode, destinationNode, rfl⟩

end Create

section Fund

variable {tx : PayChanFund A K}

theorem PayChanFund.extend_eq {slep slep' : PayChan A} (h : tx.extend env slep = .ok slep') :
    ∃ e, slep' = { slep with expiration := e } ∧ (tx.expiration = none → e = slep.expiration) ∧
      (∀ x, tx.expiration = some x → e = some x ∧ minExpiration env.info.parentCloseTime slep ≤ x) := by
  rw [extend] at h
  split at h
  · next hnn =>
    cases h
    exact ⟨slep.expiration, rfl, fun _ => rfl, fun x hx => by rw [hnn] at hx; cases hx⟩
  · next x hx =>
    split_ifs at h with hlt
    cases h
    refine ⟨some x, rfl, ⟨fun hn => ?_, fun y hy => ?_⟩⟩
    · rw [hx] at hn
      cases hn
    · rw [hx] at hy
      cases hy
      exact ⟨rfl, not_lt.mp hlt⟩

theorem PayChanFund.doApply_eq (h : tx.doApply env view = .ok view') :
    ∃ c, view.payChans.find? tx.channel = some c ∧ ((c.isExpired env.info.parentCloseTime ∧
        closeChannel env.info.rules view tx.channel c = .ok view') ∨
      (¬ c.isExpired env.info.parentCloseTime ∧ c.account = tx.account ∧
        (view.accounts.find? tx.account).isSome ∧ ∃ e,
        (tx.expiration = none → e = c.expiration) ∧
        (∀ x, tx.expiration = some x → e = some x ∧ minExpiration env.info.parentCloseTime c ≤ x) ∧
        view' = { view with
          accounts := view.accounts.modify tx.account (AccountRoot.credit (-tx.amount.xrp))
          payChans := view.payChans.insert tx.channel
            { c with amount := c.amount + tx.amount.xrp, expiration := e } })) := by
  rw [doApply] at h
  split at h
  · cases h
  · next c hc =>
    refine ⟨c, hc, ?_⟩
    split_ifs at h with hexp hacc
    · exact .inl ⟨hexp, h⟩
    obtain ⟨slep, hext, h⟩ := bind_eq_ok h
    obtain ⟨e, rfl, hk, hset⟩ := extend_eq hext
    split at h
    · cases h
    · next sle hsle =>
      dsimp only at h
      split_ifs at h
      cases h
      exact .inr ⟨hexp, not_not.mp hacc, by rw [hsle]; rfl, e, hk, hset, rfl⟩

end Fund

section Claim

variable {tx : PayChanClaim A K} {c' : PayChan A}

/-- A claim pays what it asks for, which is more than was paid and not more than there is. -/
theorem PayChanClaim.pay_eq (h : tx.pay env view c = .ok (c', view')) :
    (tx.balance = none ∧ c' = c ∧ view' = view) ∨
    ∃ req, tx.balance = some req ∧ c.balance < req.xrp ∧ req.xrp ≤ c.amount ∧
      (tx.account = c.destination → tx.signature.isSome ∧ tx.publicKey = some c.publicKey) ∧
      (view.accounts.find? c.destination).isSome ∧ c' = { c with balance := req.xrp } ∧
      view' = view.modifyAccount c.destination (AccountRoot.credit (req.xrp - c.balance)) := by
  rw [pay] at h
  split at h
  · next hn =>
    cases h
    exact .inl ⟨hn, rfl, rfl⟩
  · next req hreq =>
    split_ifs at h with hsig hkey hf hm
    split at h
    · cases h
    · next sled hsl =>
      split_ifs at h
      cases h
      refine .inr ⟨req, hreq, not_le.mp hm, not_lt.mp hf, fun hdst => ?_, by rw [hsl]; rfl, rfl, rfl⟩
      have hs : tx.signature.isSome := by
        rw [not_and, Bool.not_eq_true, Option.isNone_eq_false_iff] at hsig
        exact hsig hdst
      exact ⟨hs, not_not.mp (not_and.mp hkey hs)⟩

omit [LinearOrder K] in
theorem PayChanClaim.renew_eq (h : tx.renew c = .ok c') :
    c' = { c with expiration := if tx.tfRenew then none else c.expiration } ∧
      (tx.tfRenew → c.account = tx.account) := by
  rw [renew] at h
  split_ifs at h with hren hacc
  · cases h
    rw [if_pos hren]
    exact ⟨rfl, fun _ => not_not.mp hacc⟩
  · cases h
    rw [if_neg hren]
    exact ⟨rfl, fun hr => absurd hr hren⟩

theorem PayChanClaim.close_eq {cur : Option Nat} (h : tx.close env view cur c = .ok view') :
    (tx.tfClose ∧ (c.destination = tx.account ∨ c.balance = c.amount) ∧
      closeChannel env.info.rules view tx.channel c = .ok view') ∨
    (tx.tfClose ∧ c.destination ≠ tx.account ∧
      view' = { view with
        payChans := view.payChans.insert tx.channel
          { c with expiration := if cur.all (fun e => e > add32 env.info.parentCloseTime c.settleDelay)
            then some (add32 env.info.parentCloseTime c.settleDelay) else c.expiration } }) ∨
    (tx.tfClose = false ∧ view' = { view with payChans := view.payChans.insert tx.channel c }) := by
  rw [close] at h
  split_ifs at h with hc hnow
  · exact .inl ⟨hc, hnow, h⟩
  · rw [not_or] at hnow
    cases h
    refine .inr (.inl ⟨hc, hnow.1, ?_⟩)
    split_ifs <;> rfl
  · cases h
    exact .inr (.inr ⟨by simpa using hc, rfl⟩)

end Claim

variable {sigs : Signatures K} {checks : Checks}

section Preflight

theorem PayChanCreate.preflight_spec {tx : PayChanCreate A}
    (h : tx.preflight sigs env checks = .tesSUCCESS) :
    0 < tx.amount.xrp ∧ tx.account ≠ tx.destination := by
  have hmem := firstFailure_mem h
  have ha := eq_false_of_check (by simp) (hmem _ (List.mem_of_getElem? (i := 2) rfl))
  have hdst := eq_false_of_check (by simp) (hmem _ (List.mem_of_getElem? (i := 3) rfl))
  exact ⟨pos_of_badAmount ha, by simpa using hdst⟩

theorem PayChanFund.preflight_spec {tx : PayChanFund A K}
    (h : tx.preflight env checks = .tesSUCCESS) : 0 < tx.amount.xrp :=
  pos_of_badAmount
    (eq_false_of_check (by simp) (firstFailure_mem h _ (List.mem_of_getElem? (i := 2) rfl)))

/-- An authorization by a key for at least the balance. -/
def Authorized (sigs : Signatures K) (channel : K) (publicKey : Blob) (balance : Int) : Prop :=
  ∃ sig amt, sigs.verify publicKey (sigs.serializePayChanAuthorization channel amt) sig ∧ balance ≤ amt

variable {tx : PayChanClaim A K}

omit [LinearOrder A] [LinearOrder K] in
theorem PayChanClaim.checkSignature_spec {bal : STAmount} {pk : Blob}
    (h : tx.checkSignature sigs = .tesSUCCESS) (hsig : tx.signature.isSome)
    (hbal : tx.balance = some bal) (hpk : tx.publicKey = some pk) :
    Authorized sigs tx.channel pk bal.xrp := by
  obtain ⟨sig, hsig⟩ := Option.isSome_iff_exists.mp hsig
  rw [checkSignature, hsig, hpk, hbal] at h
  dsimp only at h
  split_ifs at h with hm _ hv
  exact ⟨sig, _, by simpa using hv, not_lt.mp hm⟩

theorem PayChanClaim.preflight_spec (h : tx.preflight sigs env checks = .tesSUCCESS) :
    (tx.tfClose && tx.tfRenew) = false ∧ tx.checkSignature sigs = .tesSUCCESS := by
  have hmem := firstFailure_mem h
  exact ⟨eq_false_of_check (by simp) (hmem _ (List.mem_of_getElem? (i := 5) rfl)),
    hmem _ (List.mem_of_getElem? (i := 6) rfl)⟩

end Preflight

section Handled

variable {idx : Indexes A K} {tx : ChannelTx A K} {l l' : Ledger A K} {b : Int}

/-- The destination of a channel is paid, and its owner gets back the rest. -/
def Moved (l l' : Ledger A K) (c : PayChan A) (paid back : Int) : Prop :=
  Shift l.accounts l'.accounts (fun x => single c.destination paid x + single c.account back x)
    (paid + back)

section

variable (sigs) (idx : Indexes A K)

/-- The balance of a channel is raised to `b`, or stays. -/
structure Paying (tx : ChannelTx A K) (c : PayChan A) (b : Int) : Prop where
  grows : c.balance ≤ b
  funded : c.balance < b → b ≤ c.amount
  authorized : c.balance < b → tx.common.account = c.destination →
    Authorized sigs (tx.channel idx) c.publicKey b

omit [LinearOrder A] [LinearOrder K] in
theorem Paying.refl (tx : ChannelTx A K) (c : PayChan A) : Paying sigs idx tx c c.balance :=
  ⟨le_rfl, fun h => absurd h (lt_irrefl _), fun h => absurd h (lt_irrefl _)⟩

/-- A transaction that asks for the channel to be closed after the settle delay. -/
def ChannelTx.requestsClose : ChannelTx A K → Bool
  | create _ => false
  | fund tx => tx.expiration.isSome
  | claim tx => tx.tfClose

def ChannelTx.renews : ChannelTx A K → Bool
  | claim tx => tx.tfRenew
  | _ => false

inductive Rescheduled (closeTime : Nat) (tx : ChannelTx A K) (c : PayChan A) : Option Nat → Prop
  | kept (hreq : tx.requestsClose = false) (hren : tx.renews = false) :
    Rescheduled closeTime tx c c.expiration
  | cleared (hren : tx.renews) (howner : c.account = tx.common.account) :
    Rescheduled closeTime tx c none
  | requested {e : Nat} (hreq : tx.requestsClose = true) (hren : tx.renews = false)
    (howner : c.account = tx.common.account) (hmin : minExpiration closeTime c ≤ e) :
    Rescheduled closeTime tx c (some e)

inductive Handled (closeTime : Nat) (tx : ChannelTx A K) (l l' : Ledger A K) : Prop
  | created {c : PayChan A} (hnew : l.payChans.find? (tx.channel idx) = none)
    (hbalance : c.balance = 0) (hamount : 0 < c.amount) (hne : c.account ≠ c.destination)
    (hexp : c.expiration = none) (hchans : l'.payChans = l.payChans.insert (tx.channel idx) c)
    (hmoved : Moved l l' c 0 (-c.amount))
  | updated {c : PayChan A} {b n : Int} {e : Option Nat} (hc : l.payChans.find? (tx.channel idx) = some c)
    (hlive : ¬ c.isExpired closeTime) (hpay : Paying sigs idx tx c b) (hn : c.amount ≤ n)
    (hexp : Rescheduled closeTime tx c e)
    (hchans : l'.payChans = l.payChans.insert (tx.channel idx)
      { c with balance := b, amount := n, expiration := e })
    (hmoved : Moved l l' c (b - c.balance) (c.amount - n))
  | closed {c : PayChan A} {b : Int} (hc : l.payChans.find? (tx.channel idx) = some c)
    (hpay : Paying sigs idx tx c b)
    (hwhy : c.isExpired closeTime ∨ c.destination = tx.common.account ∨ b = c.amount)
    (hchans : l'.payChans = l.payChans.erase (tx.channel idx))
    (hmoved : Moved l l' c (b - c.balance) (c.amount - b))

end

theorem closeChannel_moved {view : Ledger A K} {key : K}
    (h : closeChannel rules view key c = .ok l')
    (hp : Shift l.accounts view.accounts (single c.destination b) b) :
    Moved l l' c b (c.amount - c.balance) ∧ l'.payChans = view.payChans.erase key := by
  obtain ⟨hacc, dirs, rfl⟩ := closeChannel_eq h
  exact ⟨hp.trans (Shift.modify hacc fun root => rfl), rfl⟩

theorem Handled.of_expired (hc : l.payChans.find? (tx.channel idx) = some c) {closeTime : Nat}
    (hexp : c.isExpired closeTime) (h : closeChannel rules l (tx.channel idx) c = .ok l') :
    Handled sigs idx closeTime tx l l' := by
  obtain ⟨hm, hch⟩ := closeChannel_moved h (Shift.none l.accounts c.destination)
  refine .closed hc (.refl sigs idx tx c) (.inl hexp) hch ?_
  rw [sub_self]
  exact hm

theorem PayChanCreate.handled {tx : PayChanCreate A}
    (hpre : tx.preflight sigs env checks = .tesSUCCESS) (h : tx.doApply env idx l = .ok l') :
    Handled sigs idx env.info.parentCloseTime (.create tx) l l' := by
  obtain ⟨hpos, hne⟩ := preflight_spec hpre
  obtain ⟨hacc, hn, dirs, ownerNode, destinationNode, rfl⟩ := doApply_eq h
  refine .created hn rfl hpos hne rfl rfl ?_
  exact (Shift.none l.accounts tx.destination).trans (Shift.modify hacc fun root => rfl)

theorem PayChanFund.handled {tx : PayChanFund A K} (hpre : tx.preflight env checks = .tesSUCCESS)
    (h : tx.doApply env l = .ok l') :
    Handled sigs idx env.info.parentCloseTime (.fund tx) l l' := by
  have hpos := preflight_spec hpre
  obtain ⟨c, hc, ⟨hexp, h⟩ | ⟨hl, ho, hacc, e, hk, hset, rfl⟩⟩ := doApply_eq h
  · exact .of_expired hc hexp h
  refine .updated hc hl (.refl sigs idx (.fund tx) c) (Int.le_add_of_nonneg_right hpos.le) ?_ rfl ?_
  · cases hexp : tx.expiration with
    | none =>
      rw [hk hexp]
      exact .kept (by simp [ChannelTx.requestsClose, hexp]) rfl
    | some x =>
      obtain ⟨rfl, hmin⟩ := hset x hexp
      exact .requested (by simp [ChannelTx.requestsClose, hexp]) rfl ho hmin
  · rw [sub_self, sub_add_cancel_left]
    rw [Moved, ho]
    exact (Shift.none l.accounts c.destination).trans (Shift.modify hacc fun root => rfl)

theorem PayChanClaim.pay_spec (idx : Indexes A K) {tx : PayChanClaim A K} {c' : PayChan A}
    (hpre : tx.preflight sigs env checks = .tesSUCCESS) (h : tx.pay env l c = .ok (c', l')) :
    ∃ b, c' = { c with balance := b } ∧ Paying sigs idx (.claim tx) c b ∧
      Shift l.accounts l'.accounts (single c.destination (b - c.balance)) (b - c.balance) ∧
      l'.payChans = l.payChans := by
  rcases pay_eq h with ⟨_, rfl, rfl⟩ | ⟨req, hreq, hm, hf, hsig, hacc, rfl, rfl⟩
  · refine ⟨c'.balance, rfl, .refl sigs idx _ c', ?_, rfl⟩
    rw [sub_self]
    exact Shift.none _ _
  refine ⟨req.xrp, rfl, ⟨hm.le, fun _ => hf, fun _ hdst => ?_⟩,
    Shift.modify hacc fun root => rfl, rfl⟩
  obtain ⟨hs, hpk⟩ := hsig hdst
  exact checkSignature_spec (preflight_spec hpre).2 hs hreq hpk

omit [LinearOrder A] in
theorem minExpiration_le_request (closeTime : Nat) {e : Option Nat} (c : PayChan A)
    (he : e = if c.expiration.all (fun e => e > add32 closeTime c.settleDelay)
      then some (add32 closeTime c.settleDelay) else c.expiration) :
    ∃ x, e = some x ∧ minExpiration closeTime c ≤ x := by
  rw [minExpiration]
  cases hcur : c.expiration with
  | none =>
    rw [hcur] at he
    exact ⟨_, he, le_rfl⟩
  | some x =>
    simp only [hcur, Option.all_some, decide_eq_true_eq] at he
    split_ifs at he with hl
    · refine ⟨_, he, ?_⟩
      dsimp only
      split_ifs <;> omega
    · refine ⟨x, he, ?_⟩
      dsimp only
      split_ifs <;> omega

theorem PayChanClaim.handled {tx : PayChanClaim A K}
    (hpre : tx.preflight sigs env checks = .tesSUCCESS) (h : tx.doApply env l = .ok l') :
    Handled sigs idx env.info.parentCloseTime (.claim tx) l l' := by
  have hf := (preflight_spec hpre).1
  rw [doApply] at h
  split at h
  · cases h
  · next c hc =>
    split_ifs at h with hexp hpr
    · exact .of_expired hc hexp h
    obtain ⟨⟨c1, view⟩, hpay, h⟩ := bind_eq_ok h
    obtain ⟨c2, hr, h⟩ := bind_eq_ok h
    obtain ⟨b, rfl, hp, hs, hch⟩ := pay_spec idx hpre hpay
    obtain ⟨rfl, how⟩ := renew_eq hr
    have ho : Moved l view c (b - c.balance) (c.amount - c.amount) := by
      rw [sub_self]
      exact (hs.trans (Shift.none view.accounts c.account))
    rcases close_eq h with ⟨_, hwhy, h⟩ | ⟨hcl, hdst, rfl⟩ | ⟨hcl, rfl⟩
    · obtain ⟨hm, he⟩ := closeChannel_moved h hs
      exact .closed hc hp (.inr hwhy) (by rw [he, hch]; rfl) hm
    · have hren : tx.tfRenew = false := by simpa [hcl] using hf
      obtain ⟨x, hx, hmin⟩ := minExpiration_le_request env.info.parentCloseTime c rfl
      refine .updated hc hexp hp le_rfl (.requested hcl hren ?_ hmin) ?_ ho
      · by_contra hn
        exact hpr ⟨Ne.symm hn, Ne.symm hdst⟩
      rw [← hx]
      rw [hch, hren]
      rfl
    · refine .updated hc hexp hp le_rfl ?_ (by dsimp only; rw [hch]; rfl) ho
      cases hren : tx.tfRenew with
      | false => exact .kept hcl hren
      | true => exact .cleared hren (how hren)

theorem ChannelTx.handled {checks : Checks} (hpre : tx.preflight sigs env checks = .tesSUCCESS)
    (h : tx.doApply idx env l = .ok l') : Handled sigs idx env.info.parentCloseTime tx l l' := by
  cases tx with
  | create tx => exact PayChanCreate.handled hpre h
  | fund tx => exact PayChanFund.handled hpre h
  | claim tx => exact PayChanClaim.handled hpre h

variable (sigs) (idx : Indexes A K) (a : Application A K (ChannelTx A K)) (l : Ledger A K)

/-- The fee is charged, and beyond it a transaction that succeeds acts on its channel. -/
structure ChannelEffect (o : Outcome A K) : Prop where
  fee : o.fee = 0 ∨ 0 ≤ o.fee ∧ o.fee ≤ a.tx.common.fee
  handled : ∃ charged, FeeCharged a.tx.common l o.fee charged ∧
    (o.success = false ∧ o.ledger = charged ∨ o.success = true ∧
      Handled sigs idx a.env.info.parentCloseTime a.tx charged o.ledger)

theorem ChannelTx.apply_effect : ChannelEffect sigs idx a l (ChannelTx.apply sigs idx a l) := by
  have hacc : preclaimResult a.env idx a.tx.common a.checks (a.tx.preflight sigs a.env a.checks)
      (a.tx.preclaim a.env l) l = .tesSUCCESS → (l.accounts.find? a.tx.common.account).isSome :=
    account_of_preclaimResult
  obtain ⟨hfee, charged, hc, hd⟩ :=
    (applyTransaction_effect a.env (f := a.tx.doApply idx a.env) a.size hacc).charged hacc
  refine ⟨hfee, charged, hc, hd.imp_right ?_⟩
  rintro ⟨hs, hpre, hw⟩
  exact ⟨hs, handled (firstFailure_mem hpre _ (List.mem_of_getElem? (i := 0) rfl)) hw⟩

end Handled

end Rippled.Tx
