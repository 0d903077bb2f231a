import Rippled.Tx.Transactor

namespace Rippled.Tx

open Lib Directory Transactor

variable {A K : Type} [LinearOrder A] [LinearOrder K] {ter : TER} {key : K} {keepRoot : Bool}
  {e : Failure} {page : Nat} {owner : A} {idx : Indexes A K} {tx : Common A}

section Consume

variable {l l' : Ledger A K}

/-- A sequence is consumed by advancing that of the account, a ticket by removing it from the ledger,
the directory of its owner and the owner's counts. -/
inductive Consumed (idx : Indexes A K) (tx : Common A) (l : Ledger A K) : Ledger A K → Prop
  | sequence (htype : tx.getSeqProxy.type = .seq) :
    Consumed idx tx l (l.modifyAccount tx.account fun root =>
      { root with sequence := add32 tx.getSeqProxy.value 1 })
  | ticket {sle : Ticket A} {pages : Pages K} {root : AccountRoot} {count : Nat}
    (htype : tx.getSeqProxy.type = .ticket)
    (hticket : l.tickets.find? (idx.ticket tx.account tx.getSeqProxy.value) = some sle)
    (hdir : dirRemove (l.ownerDir tx.account) sle.ownerNode (idx.ticket tx.account tx.getSeqProxy.value)
      true = .ok (true, pages))
    (hroot : l.accounts.find? tx.account = some root) (hcount : root.ticketCount = some count) :
    Consumed idx tx l { l with
      accounts := l.accounts.insert tx.account
        ({ root with ticketCount := lessTicket count }.adjustOwnerCount (-1))
      tickets := l.tickets.erase (idx.ticket tx.account tx.getSeqProxy.value)
      ownerDirs := l.ownerDirs.insert tx.account pages }

theorem ownerDirRemove_pages (h : l.ownerDirRemove owner page key keepRoot = .ok l') :
    ∃ pages, dirRemove (l.ownerDir owner) page key keepRoot = .ok (true, pages) ∧
      l' = { l with ownerDirs := l.ownerDirs.insert owner pages } := by
  rw [Ledger.ownerDirRemove] at h
  split at h
  · cases h
  · cases h
  · next pages hp =>
    cases h
    exact ⟨pages, hp, rfl⟩

theorem ticketDelete_eq {account : A} (h : ticketDelete l account key = .ok l') :
    ∃ sle pages root count, l.tickets.find? key = some sle ∧
      dirRemove (l.ownerDir account) sle.ownerNode key true = .ok (true, pages) ∧
      l.accounts.find? account = some root ∧ root.ticketCount = some count ∧
      l' = { l with
        accounts := l.accounts.insert account
          ({ root with ticketCount := lessTicket count }.adjustOwnerCount (-1))
        tickets := l.tickets.erase key
        ownerDirs := l.ownerDirs.insert account pages } := by
  rw [ticketDelete] at h
  split at h
  · cases h
  · next sle ht =>
    obtain ⟨view, hv, h⟩ := bind_eq_ok h
    obtain ⟨pages, hdir, rfl⟩ := ownerDirRemove_pages hv
    split at h
    · cases h
    · next root hr =>
      split at h
      · cases h
      · next count hc =>
        cases h
        exact ⟨sle, pages, root, count, ht, hdir, hr, hc, rfl⟩

theorem consumed_of_consumeSeqProxy (h : consumeSeqProxy idx tx l = .ok l') : Consumed idx tx l l' := by
  rw [consumeSeqProxy] at h
  split at h
  · next ht =>
    cases h
    exact .sequence ht
  · next ht =>
    obtain ⟨sle, pages, root, count, htc, hdir, hr, hc, rfl⟩ := ticketDelete_eq h
    exact .ticket ht htc hdir hr hc

theorem ownerDirRemove_result (h : l.ownerDirRemove owner page key keepRoot = .error e)
    (hter : e.result = .ok ter) : ter = .tef .tefBAD_LEDGER := by
  rw [Ledger.ownerDirRemove] at h
  split at h
  · cases h
    cases hter
  · cases h
    cases hter
    rfl
  · cases h

theorem consumeSeqProxy_result (h : consumeSeqProxy idx tx l = .error e)
    (hter : e.result = .ok ter) : ter = .tef .tefBAD_LEDGER := by
  have hbad : ∀ {e : Failure}, e = .tef .tefBAD_LEDGER → e.result = .ok ter → ter = .tef .tefBAD_LEDGER := by
    rintro _ rfl hter
    cases hter
    rfl
  rw [consumeSeqProxy] at h
  split at h
  · cases h
  rw [ticketDelete] at h
  split at h
  · cases h
    exact hbad rfl hter
  · next sle _ =>
    cases hdir : l.ownerDirRemove tx.account sle.ownerNode
        (idx.ticket tx.account tx.getSeqProxy.value) true with
    | error e' =>
      rw [hdir] at h
      cases h
      exact ownerDirRemove_result hdir hter
    | ok view =>
      rw [hdir] at h
      simp only [bind, Except.bind] at h
      split at h
      · cases h
        exact hbad rfl hter
      split at h
      · cases h
        exact hbad rfl hter
      · cases h

end Consume

variable {view : Ledger A K} {base : Ledger A K}

def FeeClaimed (idx : Indexes A K) (tx : Common A) (base : Ledger A K) (fee : Int)
    (view : Ledger A K) : Prop :=
  ∃ root, base.accounts.find? tx.account = some root ∧ fee = min tx.fee root.balance ∧
    Consumed idx tx (base.modifyAccount tx.account (AccountRoot.credit (-fee))) view

theorem reset_eq {fee fee' : Int} (h : reset idx tx base fee = .ok ((ter, fee'), view))
    (hter : isTesSuccess ter) :
    ∃ root, base.accounts.find? tx.account = some root ∧ fee' = min fee root.balance ∧
      Consumed idx tx (base.modifyAccount tx.account (AccountRoot.credit (-fee'))) view := by
  rw [reset] at h
  split at h
  · cases h
    cases hter
  · next root hr =>
    dsimp only at h
    have hfee : (if fee > root.balance then root.balance else fee) = min fee root.balance := by
      rw [min_def]
      split_ifs <;> omega
    rw [hfee] at h
    split at h
    · next hc =>
      obtain ⟨ter', hter', h⟩ := map_eq_ok h
      cases h
      rw [consumeSeqProxy_result hc hter'] at hter
      cases hter
    · next view' hc =>
      cases h
      exact ⟨root, hr, rfl, consumed_of_consumeSeqProxy hc⟩

theorem reset_result {fee fee' : Int} (h : reset idx tx base fee = .ok ((ter, fee'), view)) :
    isTesSuccess ter ∨ ¬ isTecClaim ter := by
  rw [reset] at h
  split at h
  · cases h
    exact .inr (by simp [isTecClaim])
  dsimp only at h
  split at h
  · next hc =>
    obtain ⟨ter', hter', h⟩ := map_eq_ok h
    cases h
    rw [consumeSeqProxy_result hc hter']
    exact .inr (by simp [isTecClaim])
  · cases h
    exact .inl rfl

section Offers

variable {view' : Ledger A K} {offers : List K} {removed : Nat}

inductive OffersDeleted : Ledger A K → List K → Ledger A K → Prop
  | nil (view : Ledger A K) : OffersDeleted view [] view
  | cons {view next last : Ledger A K} {index : K} {sle : Offer A K} {ter : TER} {offers : List K}
    (hfind : view.offers.find? index = some sle) (hdelete : offerDelete view index sle = .ok (ter, next))
    (hrest : OffersDeleted next offers last) : OffersDeleted view (index :: offers) last

theorem offersDeleted_of_removeUnfundedOffers (hr : removed < unfundedOfferRemoveLimit)
    (h : removeUnfundedOffers removed view offers = .ok view') :
    ∃ deleted, OffersDeleted view deleted view' ∧ deleted ⊆ offers ∧
      removed + deleted.length ≤ unfundedOfferRemoveLimit := by
  induction offers generalizing view removed with
  | nil =>
    cases h
    exact ⟨[], .nil _, by simp, by simpa using hr.le⟩
  | cons index offers ih =>
    rw [removeUnfundedOffers] at h
    split at h
    · obtain ⟨deleted, hdel, hsub, hlen⟩ := ih hr h
      exact ⟨deleted, hdel, fun k hk => List.mem_cons_of_mem _ (hsub hk), hlen⟩
    · next sle hf =>
      obtain ⟨⟨ter, next⟩, hd, h⟩ := bind_eq_ok h
      split_ifs at h with hl
      · cases h
        exact ⟨[index], .cons hf hd (.nil _), by simp, by simp [hl]⟩
      obtain ⟨deleted, hdel, hsub, hlen⟩ := ih (by omega) h
      refine ⟨index :: deleted, .cons hf hd hdel, ?_, by simp; omega⟩
      intro k hk
      rcases List.mem_cons.mp hk with rfl | hk
      · simp
      · exact List.mem_cons_of_mem _ (hsub hk)

end Offers

variable {env : Env A K}

section Claim

variable {attempt : Attempt A K} {result : TER} {c c' : Charged A K}

/-- Only the fee is claimed, and offers the attempt erased with an unchanged `takerPays` are deleted. -/
def ClaimedWith (idx : Indexes A K) (tx : Common A) (base : Ledger A K) (attempt : Attempt A K)
    (result : TER) (fee : Int) (view : Ledger A K) : Prop :=
  ∃ charged offers, FeeClaimed idx tx base fee charged ∧ OffersDeleted charged offers view ∧
    offers.length ≤ unfundedOfferRemoveLimit ∧ offers ⊆ removedOffers base attempt ∧
    (offers ≠ [] → killsOffers result)

theorem FeeClaimed.claimedWith {fee : Int} (h : FeeClaimed idx tx base fee view) :
    ClaimedWith idx tx base attempt result fee view :=
  ⟨view, [], h, .nil view, by simp, by simp, by simp⟩

theorem claimFee_spec (h : claimFee idx tx base attempt result = .ok c) (hc : isTecClaim c.result) :
    c.result = result ∧ ClaimedWith idx tx base attempt result c.fee c.view := by
  obtain ⟨⟨⟨ter, fee⟩, view⟩, hr, h⟩ := bind_eq_ok h
  obtain ⟨view', hv', h⟩ := bind_eq_ok h
  cases h
  have hter : isTesSuccess ter := by
    by_contra hter
    rw [if_neg hter] at hc
    exact (reset_result hr).elim hter (fun hn => hn hc)
  rw [if_pos hter, replayRemovals] at hv'
  rw [if_pos hter]
  refine ⟨rfl, ?_⟩
  obtain ⟨root, hrt, hfee, hcn⟩ := reset_eq hr hter
  have hfc : FeeClaimed idx tx base fee view := ⟨root, hrt, hfee, hcn⟩
  split_ifs at hv' with hk
  · obtain ⟨deleted, hdel, hsub, hlen⟩ := offersDeleted_of_removeUnfundedOffers (by decide) hv'
    exact ⟨view, deleted, hfc, hdel, by simpa using hlen, hsub, fun _ => hk⟩
  · cases hv'
    exact hfc.claimedWith

theorem settle_cases (h : settle env idx tx base c = .ok c')
    (hr : isTecClaim c'.result ∨ isTesSuccess c'.result) :
    c' = c ∨ (c'.result = .tec .tecINVARIANT_FAILED ∧
      ∃ root, base.accounts.find? tx.account = some root ∧ c'.fee = min c.fee root.balance ∧
        Consumed idx tx (base.modifyAccount tx.account (AccountRoot.credit (-c'.fee))) c'.view) := by
  rw [settle] at h
  split_ifs at h with hf
  · obtain ⟨⟨⟨ter, fee⟩, view⟩, hrs, h⟩ := bind_eq_ok h
    cases h
    have hter : isTesSuccess ter := by
      by_contra hter
      rw [if_neg hter] at hr
      have hnot : ¬ isTecClaim ter := (reset_result hrs).resolve_left hter
      simp [hter, hnot] at hr
    refine .inr ⟨?_, reset_eq hrs hter⟩
    rw [if_pos hter, hf] at hr ⊢
    simp only [isTesSuccess, isTecClaim, Bool.or_true, if_true] at hr ⊢
    rw [checkInvariants] at hr ⊢
    split_ifs at hr ⊢
    · rfl
    · simp [failInvariantCheck] at hr
  · cases h
    left
    rw [checkInvariants] at hr hf ⊢
    split_ifs at hr hf ⊢ with hinv
    · rfl
    rw [failInvariantCheck] at hr hf
    split_ifs at hr hf with ha
    · simp [isTecClaim, isTesSuccess] at hr
    · exact absurd rfl hf

end Claim

section Main

theorem destroyed_eq (fee : Int) : destroyed env fee = if env.info.isOpen then 0 else fee := by
  rw [destroyed]
  cases env.info.isOpen
  · by_cases hfee : fee = 0 <;> simp [hfee]
  · simp

variable {o : Outcome A K}

theorem finish_cases {c : Charged A K} (h : finish env idx tx base c = .ok o) :
    (∃ result, o = { result, applied := false, ledger := base }) ∨
    ∃ c', settle env idx tx base c = .ok c' ∧ (isTecClaim c'.result ∨ isTesSuccess c'.result) ∧
      0 ≤ c'.fee ∧ o = { result := c'.result, applied := true, ledger := c'.view, fee := c'.fee
                         xrpDestroyed := destroyed env c'.fee } := by
  obtain ⟨c', hs, h⟩ := bind_eq_ok h
  split_ifs at h with hr hfee
  · cases h
    exact .inl ⟨_, rfl⟩
  cases h
  refine .inr ⟨c', hs, ?_, not_lt.mp hfee, rfl⟩
  by_contra hn
  rw [not_or] at hn
  simp [hn.1, hn.2] at hr

/-- What the application of a transaction may end in if it does not succeed. -/
structure CostsOnlyFee (env : Env A K) (idx : Indexes A K) (tx : Common A) (preclaimResult : TER)
    (doApply : DoApply A K) (base : Ledger A K) (o : Outcome A K) : Prop where
  unapplied : o.applied = false → o.ledger = base ∧ o.xrpDestroyed = 0
  claimed : o.applied → isTecClaim o.result → ∃ ter attempt fee,
    attempted idx tx preclaimResult doApply base = .ok (ter, attempt) ∧
      ClaimedWith idx tx base attempt o.result fee o.ledger ∧
      o.xrpDestroyed = if env.info.isOpen then 0 else fee
  advanced : checkSeqProxy idx env.info.rules base tx = .tesSUCCESS → tx.getSeqProxy.type = .seq →
    ∀ root, base.accounts.find? tx.account = some root → tx.getSeqProxy.value = root.sequence

variable {preclaimResult : TER} {doApply : DoApply A K}

theorem checkSeqProxy_sequence {rules : Rules} (h : checkSeqProxy idx rules base tx = .tesSUCCESS)
    (ht : tx.getSeqProxy.type = .seq) {root : AccountRoot}
    (hr : base.accounts.find? tx.account = some root) : tx.getSeqProxy.value = root.sequence := by
  rw [checkSeqProxy, hr] at h
  simp only [ht] at h
  split_ifs at h with _ hne
  exact not_not.mp hne

/-- The fee charged before the invariants are checked is that of the transaction, as far as the
balance goes. -/
theorem settle_claimed {c c' : Charged A K} {attempt : Attempt A K}
    (h : settle env idx tx base c = .ok c') (hcl : isTecClaim c'.result) (hc : isTecClaim c.result
      → ClaimedWith idx tx base attempt c.result c.fee c.view) (hfee : ∀ root, base.accounts.find?
      tx.account = some root → min c.fee root.balance = min tx.fee root.balance) :
    ClaimedWith idx tx base attempt c'.result c'.fee c'.view := by
  rcases settle_cases h (.inl hcl) with rfl | ⟨_, root, hr, hf, hcn⟩
  · exact hc hcl
  · have hfc : FeeClaimed idx tx base c'.fee c'.view := ⟨root, hr, hf.trans (hfee root hr), hcn⟩
    exact hfc.claimedWith

section

variable (h : operator env idx tx preclaimResult doApply base = .ok o)

include h

theorem operator_cases :
    ∃ ter attempt, attempted idx tx preclaimResult doApply base = .ok (ter, attempt) ∧
      ((∃ result, o = { result, applied := false, ledger := base }) ∨
      (∃ result c, claimFee idx tx base attempt result = .ok c ∧ isTecClaim c.result ∧
        finish env idx tx base c = .ok o) ∨
      (ter = .tesSUCCESS ∧
        finish env idx tx base { result := ter, fee := tx.fee, view := attempt.view } = .ok o)) := by
  obtain ⟨⟨ter, attempt⟩, ha, h⟩ := bind_eq_ok h
  refine ⟨ter, attempt, ha, ?_⟩
  dsimp only at h
  generalize hr : (if attempt.size > oversizeMetaDataCap then TER.tec .tecOVERSIZE else ter) =
    result at h
  split_ifs at h with hh hcl htes
  · cases h
    exact .inl ⟨_, rfl⟩
  · obtain ⟨c, hc, h⟩ := bind_eq_ok h
    split_ifs at h with htec
    · exact .inr (.inl ⟨result, c, hc, htec, h⟩)
    · cases h
      exact .inl ⟨_, rfl⟩
  · have hter : ter = .tesSUCCESS := by
      cases ter <;> first | rfl | cases htes
    have hs : ¬ attempt.size > oversizeMetaDataCap := by
      intro hs
      rw [if_pos hs] at hr
      rw [← hr] at hcl
      exact hcl rfl
    rw [if_neg hs] at hr
    rw [hr]
    exact .inr (.inr ⟨hr ▸ hter, h⟩)
  · cases h
    exact .inl ⟨_, rfl⟩

theorem operator_effect : (∃ result, o = { result, applied := false, ledger := base }) ∨
    ∃ ter attempt, attempted idx tx preclaimResult doApply base = .ok (ter, attempt) ∧
      o.applied ∧ 0 ≤ o.fee ∧ o.xrpDestroyed = destroyed env o.fee ∧
      ((isTecClaim o.result ∧ ClaimedWith idx tx base attempt o.result o.fee o.ledger) ∨
      (o.result = .tesSUCCESS ∧ ter = .tesSUCCESS ∧ o.fee = tx.fee ∧ o.ledger = attempt.view)) := by
  obtain ⟨ter, attempt, ha, hcs⟩ := operator_cases h
  rcases hcs with hun | ⟨result, c, hc, htec, hf⟩ | ⟨hter, hf⟩
  · exact .inl hun
  · obtain ⟨hr, hcw⟩ := claimFee_spec hc htec
    obtain ⟨charged, _, ⟨root, hrt, hfee, _⟩, _⟩ := id hcw
    rcases finish_cases hf with hun | ⟨c', hs, hres, h0, rfl⟩
    · exact .inl hun
    have hmin : ∀ root', base.accounts.find? tx.account = some root' →
        min c.fee root'.balance = min tx.fee root'.balance := by
      intro root' hrt'
      rw [hrt] at hrt'
      cases hrt'
      rw [hfee, min_assoc, min_self]
    have htec' : isTecClaim c'.result := by
      rcases hres with htec' | htes
      · exact htec'
      rcases settle_cases hs (.inr htes) with rfl | ⟨hinv, _⟩
      · exact htec
      · rw [hinv]
        rfl
    exact .inr ⟨ter, attempt, ha, rfl, h0, rfl,
      .inl ⟨htec', settle_claimed hs htec' (fun _ => hr ▸ hcw) hmin⟩⟩
  · rcases finish_cases hf with hun | ⟨c', hs, hres, h0, rfl⟩
    · exact .inl hun
    refine .inr ⟨ter, attempt, ha, rfl, h0, rfl, ?_⟩
    rcases hres with htec | htes
    · have hnot : ¬ isTecClaim ter := by
        rw [hter]
        simp [isTecClaim]
      exact .inl ⟨htec, settle_claimed hs htec (fun hn => absurd hn hnot) (fun _ _ => rfl)⟩
    rcases settle_cases hs (.inr htes) with rfl | ⟨hinv, _⟩
    · exact .inr ⟨hter, hter, rfl, rfl⟩
    · rw [hinv] at htes
      cases htes

theorem operator_costs : CostsOnlyFee env idx tx preclaimResult doApply base o := by
  refine ⟨?_, ?_, fun hseq ht root => checkSeqProxy_sequence hseq ht⟩
  · intro hna
    rcases operator_effect h with ⟨_, rfl⟩ | ⟨_, _, _, ha, _⟩
    · exact ⟨rfl, rfl⟩
    · rw [hna] at ha
      cases ha
  · intro ha hc
    rcases operator_effect h with ⟨_, rfl⟩ | ⟨ter, attempt, hat, _, _, hdes, hcs⟩
    · cases ha
    rcases hcs with ⟨_, hcw⟩ | ⟨htes, _⟩
    · exact ⟨ter, attempt, o.fee, hat, hcw, hdes.trans (destroyed_eq o.fee)⟩
    · rw [htes] at hc
      cases hc

end

/-- A transaction that fails costs its fee and nothing else, whatever its work did to the ledger. -/
theorem failed_costs_only_fee (env : Env A K) (idx : Indexes A K) (tx : Common A) (preclaimResult : TER)
    (doApply : DoApply A K) (base : Ledger A K) :
    CostsOnlyFee env idx tx preclaimResult doApply base
      (applyTransaction env idx tx preclaimResult doApply base) := by
  have hunapplied : ∀ result, CostsOnlyFee env idx tx preclaimResult doApply base
      { result, applied := false, ledger := base } := fun result =>
    ⟨fun _ => ⟨rfl, rfl⟩, fun happlied => (Bool.false_ne_true happlied).elim,
      fun hseq htype root => checkSeqProxy_sequence hseq htype⟩
  rw [applyTransaction]
  split_ifs
  · cases h : operator env idx tx preclaimResult doApply base with
    | ok o => exact operator_costs h
    | error what => exact hunapplied _
  · exact hunapplied _

end Main

section Changed

def drops (n : Nat) : STAmount :=
  { issue := ⟨0, 0⟩, value := n, offset := 0, isNative := true, isNegative := false }

def plainRules : Rules where
  depositAuth := true
  fix1543 := true
  fix1571 := true
  fixPayChanRecipientOwnerDir := true
  cryptoConditionsSuite := false
  ticketBatch := true
  deletableAccounts := true

def plainEnv (parentCloseTime : Nat) : Env Nat Nat where
  info := { seq := 1000, parentCloseTime, isOpen := false, fees := ⟨10, 2⟩, rules := plainRules }
  tapFAIL_HARD := false
  tapRETRY := false
  invariants := fun _ _ _ => true

def plainIndexes : Indexes Nat Nat where
  ticket a n := 3 * (1000 * a + n)
  payChan a d n := 3 * (1000000 * a + 1000 * d + n) + 1
  escrow a n := 3 * (1000 * a + n) + 2

def postedOffer : Offer Nat Nat where
  account := 2
  takerPays := drops 20
  takerGets := drops 30
  bookDirectory := 9
  bookNode := 0
  ownerNode := 0

def offerLedger : Ledger Nat Nat where
  accounts := (OrdMap.empty.insert 1 { balance := 100, sequence := 5 }).insert 2
    { balance := 50, sequence := 8, ownerCount := 1 }
  offers := OrdMap.empty.insert 7 postedOffer
  ownerDirs := OrdMap.empty.insert 2 (OrdMap.empty.insert 0 { indexes := [7] })
  bookDirs := OrdMap.empty.insert 9 (OrdMap.empty.insert 0 { indexes := [7] })

/-- What is left of the offer when it is erased gives less, for the same payment. -/
def consumedOffer : Offer Nat Nat := { postedOffer with takerGets := drops 29 }

def crossAndKill : DoApply Nat Nat := fun view =>
  .ok (.tec .tecKILLED, { view, erasedOffers := [(7, consumedOffer)], size := 3 })

/-- Only `takerPays` is compared, so an offer that the attempt had changed is deleted too. -/
theorem deletes_changed_offer :
    consumedOffer ≠ postedOffer ∧ offerLedger.offers.find? 7 = some postedOffer ∧
      (applyTransaction (plainEnv 0) plainIndexes { account := 1, fee := 10, sequence := 5 } .tesSUCCESS
        crossAndKill offerLedger).result = .tec .tecKILLED ∧
      (applyTransaction (plainEnv 0) plainIndexes { account := 1, fee := 10, sequence := 5 } .tesSUCCESS
        crossAndKill offerLedger).applied ∧
      (applyTransaction (plainEnv 0) plainIndexes { account := 1, fee := 10, sequence := 5 } .tesSUCCESS
        crossAndKill offerLedger).ledger.offers.find? 7 = none := by
  decide +kernel

end Changed

end Rippled.Tx
