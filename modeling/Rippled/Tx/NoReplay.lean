import Mathlib.Data.Nat.Pairing
import Rippled.Lib.Run
import Rippled.Tx.Balances
import Rippled.Tx.TicketLife

namespace Rippled.Tx

open Lib Directory Transactor List

variable {A K : Type} [LinearOrder A] [LinearOrder K]

/-- The transactions that give out numbers, delete accounts or create them, and all others. The offers
an account deletion erased are recorded with it. -/
inductive Transaction (A K : Type) [LinearOrder A] [LinearOrder K]
  | ticketCreate (tx : CreateTicket A)
  | accountDelete (tx : DeleteAccount A) (erased : List (K × Offer A K))
  | payment (tx : Common A) (destination : A) (preflight : TER) (preclaim : Ledger A K → TER)
    (transfer : DoApply A K)
  | other (tx : Common A) (preflight : TER) (preclaim : Ledger A K → TER) (doApply : DoApply A K)

variable {others : OtherEntries A K} {idx : Indexes A K}

namespace Transaction

variable (others idx)

def common : Transaction A K → Common A
  | ticketCreate tx => tx.toCommon
  | accountDelete tx _ => tx.toCommon
  | payment tx _ _ _ _ => tx
  | other tx _ _ _ => tx

def preflight (env : Env A K) (checks : Checks) : Transaction A K → TER
  | ticketCreate tx => tx.preflight env checks
  | accountDelete tx _ => tx.preflight env checks
  | payment _ _ preflight _ _ => preflight
  | other _ preflight _ _ => preflight

def preclaim (env : Env A K) (base : Ledger A K) : Transaction A K → TER
  | ticketCreate tx => tx.preclaim base
  | accountDelete tx _ => tx.preclaim others env base
  | payment _ _ _ preclaim _ => preclaim base
  | other _ _ preclaim _ => preclaim base

def doApply (env : Env A K) (size : Nat) : Transaction A K → DoApply A K
  | ticketCreate tx => work (tx.doApply env idx) size
  | accountDelete tx erased => fun view =>
    (work (tx.doApply others) size view).map fun r => (r.1, { r.2 with erasedOffers := erased })
  | payment _ destination _ _ transfer => fun view => transfer (createDestination env destination view)
  | other _ _ _ doApply => doApply

def apply (a : Application A K (Transaction A K)) (base : Ledger A K) : Outcome A K :=
  applyTransaction a.env idx a.tx.common
    (preclaimResult a.env idx a.tx.common a.checks (a.tx.preflight a.env a.checks)
      (a.tx.preclaim others a.env base) base)
    (a.tx.doApply others idx a.env a.size) base

end Transaction

variable {env : Env A K} {tx : Common A} {base : Ledger A K}

section Applied

variable {pre : TER} {doApply : DoApply A K}

/-- A transaction that is applied claims its fee, or does its work after its number is consumed. -/
theorem applyTransaction_applied (hacc : pre = .tesSUCCESS → (base.accounts.find? tx.account).isSome)
    (h : (applyTransaction env idx tx pre doApply base).applied) :
    (isTesSuccess pre ∨ isTecClaim pre) ∧
      ((∃ attempt result fee, ClaimedWith idx tx base attempt result fee
        (applyTransaction env idx tx pre doApply base).ledger) ∨
      pre = .tesSUCCESS ∧ ∃ view attempt, Consumed idx tx base view ∧
        doApply (payFee tx view) = .ok (.tesSUCCESS, attempt) ∧
        (applyTransaction env idx tx pre doApply base).ledger = attempt.view) := by
  rw [applyTransaction] at h ⊢
  split_ifs at h ⊢ with hl
  have hpre : isTesSuccess pre ∨ isTecClaim pre := by
    rw [Bool.or_eq_true, Bool.and_eq_true] at hl
    exact hl.imp_right And.left
  refine ⟨hpre, ?_⟩
  cases hop : operator env idx tx pre doApply base with
  | error what =>
    rw [hop] at h
    cases h
  | ok o =>
    rw [hop] at h
    rcases operator_effect hop with ⟨_, rfl⟩ | ⟨ter, attempt, ha, _, _, _, hc⟩
    · cases h
    rcases hc with ⟨_, hcl⟩ | ⟨_, hter, _, hld⟩
    · exact .inl ⟨attempt, o.result, o.fee, hcl⟩
    subst hter
    rw [attempted] at ha
    split_ifs at ha with htes
    · obtain ⟨root, hr⟩ := Option.isSome_iff_exists.mp (hacc htes)
      rw [apply, hr] at ha
      dsimp only at ha
      split at ha
      · obtain ⟨ter', hter', heq⟩ := map_eq_ok ha
        cases heq
        exact absurd rfl (Failure.result_ne hter')
      · next view hcn =>
        exact .inr ⟨htes, view, attempt, consumed_of_consumeSeqProxy hcn, ha, hld⟩
    · cases ha
      exact absurd rfl htes

theorem applyTransaction_unapplied (h : (applyTransaction env idx tx pre doApply base).applied = false) :
    (applyTransaction env idx tx pre doApply base).ledger = base := by
  rw [applyTransaction] at h ⊢
  split_ifs at h ⊢
  · cases hop : operator env idx tx pre doApply base with
    | error what => rfl
    | ok o =>
      rw [hop] at h
      rcases operator_effect hop with ⟨_, rfl⟩ | ⟨_, _, _, ha, _⟩
      · rfl
      · cases h.symm.trans ha
  · rfl

theorem firstFailure_cons {ter : TER} {rest : List TER} (hter : isTecClaim ter = false)
    (h : isTesSuccess (firstFailure (ter :: rest)) ∨ isTecClaim (firstFailure (ter :: rest))) :
    ter = .tesSUCCESS ∧ (isTesSuccess (firstFailure rest) ∨ isTecClaim (firstFailure rest)) := by
  cases ter with
  | tesSUCCESS => exact ⟨rfl, h⟩
  | tec code => cases hter
  | _ => rcases h with h | h <;> cases h

theorem checkSeqProxy_not_tec (rules : Rules) :
    isTecClaim (checkSeqProxy idx rules base tx) = false := by
  rw [checkSeqProxy]
  split
  · rfl
  dsimp only
  split
  · split_ifs <;> rfl
  · split_ifs <;> rfl

/-- A transaction that claims a fee passed the check of its sequence. -/
theorem checkSeqProxy_of_preclaimResult {checks : Checks} {preflight preclaim : TER}
    (hnot : isTecClaim preflight = false)
    (h : isTesSuccess (preclaimResult env idx tx checks preflight preclaim base) ∨
      isTecClaim (preclaimResult env idx tx checks preflight preclaim base)) :
    checkSeqProxy idx env.info.rules base tx = .tesSUCCESS :=
  (firstFailure_cons (checkSeqProxy_not_tec env.info.rules) (firstFailure_cons hnot h).2).1

end Applied

section Advance

variable {l l' : Ledger A K} {seq : Nat} {used issued : List (A × Nat)}

structure Advanced (idx : Indexes A K) (seq : Nat) (used issued : List (A × Nat)) (tx : Common A)
    (base l : Ledger A K) : Prop where
  good : Good idx seq ((tx.account, tx.getSeqProxy.value) :: used) issued l l.numbers
  fresh : (tx.account, tx.getSeqProxy.value) ∉ used
  later : ∀ k t, l.tickets.find? k = some t → base.tickets.find? k = none →
    ∃ s c, base.numbers t.account = some (s, c) ∧ s ≤ t.ticketSequence

theorem Good.mono {seq' : Nat} (h : Good idx seq used issued l l.numbers) (hseq : seq ≤ seq') :
    Good idx seq' used issued l l.numbers :=
  ⟨h.tickets, h.pastUsed.mono_seq hseq, h.pastIssued.mono_seq hseq, h.spent⟩

theorem later_of_noNewTickets (h : NoNewTickets base l) (k : K) (t : Ticket A)
    (ht : l.tickets.find? k = some t) (hn : base.tickets.find? k = none) :
    ∃ s c, base.numbers t.account = some (s, c) ∧ s ≤ t.ticketSequence := by
  cases hn.symm.trans (h k t ht)

theorem Took.unrelated (h : Took idx seq used issued tx base l) (hu : Unrelated env idx l l')
    (he : Later env seq) :
    Took idx seq used issued tx base l' := by
  obtain ⟨s, c, s', c', hs, hs', hn⟩ := h.numbers
  refine ⟨h.good.unrelated hu he, h.fresh, fun k t ht => h.tickets k t ?_,
    s, c, s', c', hs, hu.kept _ _ _ hs', hn⟩
  rw [hu.tickets] at ht
  exact ht

theorem Took.advanced (h : Took idx seq used issued tx base l) (hseq : seq ≤ env.info.seq) :
    Advanced idx env.info.seq used issued tx base l :=
  ⟨h.good.mono hseq, h.fresh, later_of_noNewTickets h.tickets⟩

theorem credit_unrelated (a : A) (n : Int) : Unrelated env idx l (l.modifyAccount a (AccountRoot.credit n)) :=
  .modifyAccount a fun _ => ⟨rfl, rfl⟩

variable {root : AccountRoot} {attempt : Attempt A K} {view : Ledger A K}

section

variable (hidx : idx.Apart) (he : Later env seq) (h : Good idx seq used issued base base.numbers)
  (hr : base.accounts.find? tx.account = some root)
  (hv : tx.getSeqProxy.type = .seq → tx.getSeqProxy.value = root.sequence)
  (hrm : root.sequence + 255 < 4294967296)

include hidx he h hr hv hrm

theorem Good.claimed {result : TER} {fee : Int}
    (hcl : ClaimedWith idx tx base attempt result fee l) :
    Advanced idx env.info.seq used issued tx base l := by
  obtain ⟨charged, offers, ⟨_, _, _, hcn⟩, hd, _⟩ := hcl
  have hc : Unrelated env idx base (base.modifyAccount tx.account (AccountRoot.credit (-fee))) :=
    credit_unrelated tx.account (-fee)
  have hnum := hc.kept _ _ _ (numbers_of_find? hr)
  have ht := (h.unrelated hc he).consume hidx hnum hv hrm hcn
  have ho : Unrelated env idx charged l :=
    hd.unrelated ht.good.tickets.tidy ht.good.tickets.offers
  have hl := ht.unrelated ho he
  exact ⟨hl.good.mono he.seq_le, hl.fresh, later_of_noNewTickets hl.tickets⟩

theorem Good.paid (hc : Consumed idx tx base view) :
    Took idx seq used issued tx base (payFee tx view) := by
  have hcr : Unrelated env idx view (payFee tx view) := credit_unrelated tx.account (-tx.fee)
  exact (h.consume hidx (numbers_of_find? hr) hv hrm hc).unrelated hcr he

end

theorem work_eq_ok {f : Ledger A K → Except Failure (Ledger A K)} {size : Nat}
    (h : work f size view = .ok (.tesSUCCESS, attempt)) : f view = .ok attempt.view := by
  rw [work] at h
  split at h
  · next view' hv =>
    cases h
    exact hv
  · obtain ⟨ter, hter, heq⟩ := map_eq_ok h
    cases heq
    exact absurd rfl (Failure.result_ne hter)

theorem CreateTicket.ticketCount_le {tx : CreateTicket A} {checks : Checks}
    (h : tx.preflight env checks = .tesSUCCESS) : tx.ticketCount ≤ maxValidCount := by
  have hc := eq_false_of_check (by simp) (firstFailure_mem h
    (check (tx.ticketCount < minValidCount || tx.ticketCount > maxValidCount) (.tem .temINVALID_COUNT))
    (by simp))
  simp only [Bool.or_eq_false_iff, decide_eq_false_iff_not] at hc
  exact not_lt.mp hc.2

theorem Took.createTicket {tx : CreateTicket A} {checks : Checks} (hidx : idx.Apart)
    (hseq : seq ≤ env.info.seq) (h : Took idx seq used issued tx.toCommon base l)
    (hr : base.accounts.find? tx.account = some root) (hrm : root.sequence + 255 < 4294967296)
    (hb : TicketsOk idx base base.numbers) (hpr : tx.preflight env checks = .tesSUCCESS)
    (hp : tx.preclaim base = .tesSUCCESS) (hap : tx.doApply env idx l = .ok l') :
    Advanced idx env.info.seq used issued tx.toCommon base l' := by
  obtain ⟨s, c, s', c', hs, hs', hle, hle', hc⟩ := h.numbers
  have hnum := numbers_of_find? hr
  cases hnum.symm.trans hs
  have hcn := CreateTicket.ticketCount_le hpr
  have hold := (hb.counted _ _ _ hs).2
  rw [CreateTicket.preclaim, hr] at hp
  dsimp only at hp
  split_ifs at hp with hty hm hm
  all_goals
    rw [not_lt, sub32, add32, CreateTicket.maxTicketThreshold] at hm
    rw [CreateTicket.maxTicketThreshold] at hold
    rw [CreateTicket.maxValidCount] at hcn
    simp only [hty, if_true, if_false] at hc
    have hfew : c' + tx.ticketCount ≤ CreateTicket.maxTicketThreshold := by
      rw [CreateTicket.maxTicketThreshold]
      omega
    obtain ⟨hg, hnew⟩ := h.good.createTicket hidx hs' (by omega) hfew hap
    refine ⟨hg.mono hseq, h.fresh, fun k t ht hn => ?_⟩
    by_cases hv : l.tickets.find? k = none
    · obtain ⟨ha, hge⟩ := hnew k t ht hv
      exact ⟨_, _, ha ▸ hs, hle.trans hge⟩
    · obtain ⟨t', ht'⟩ := Option.ne_none_iff_exists'.mp hv
      cases hn.symm.trans (h.tickets k t' ht')

theorem Took.deleteAccount {tx : DeleteAccount A} (hidx : idx.Apart) (ho : others.Proper env idx)
    (he : Later env seq) (h : Took idx seq used issued tx.toCommon base l)
    (hr : base.accounts.find? tx.account = some root) (hrm : root.sequence + 255 < 4294967296)
    (hp : tx.preclaim others env base = .tesSUCCESS) (ha : tx.doApply others l = .ok l') :
    Advanced idx env.info.seq used issued tx.toCommon base l' := by
  obtain ⟨s, c, s', c', hs, hs', _, hle, _⟩ := h.numbers
  cases (numbers_of_find? hr).symm.trans hs
  have hold : root.sequence + 255 ≤ env.info.seq := by
    rw [DeleteAccount.preclaim] at hp
    split at hp
    · cases hp
    split_ifs at hp
    rw [hr] at hp
    dsimp only at hp
    split_ifs at hp with hsn
    rw [not_lt, DeleteAccount.seqDelta, add32] at hsn
    omega
  obtain ⟨hg, hnew⟩ := h.good.deleteAccount hidx ho he hs' (by omega) ha
  exact ⟨hg, h.fresh, later_of_noNewTickets fun k t ht => h.tickets k t (hnew k t ht)⟩

end Advance

/-- What a transaction does besides creating its destination does not concern tickets. -/
def Transaction.LeavesTickets (env : Env A K) (idx : Indexes A K) : Transaction A K → Prop
  | ticketCreate _ => True
  | accountDelete _ _ => True
  | payment _ _ _ _ transfer =>
    ∀ view attempt, transfer view = .ok (.tesSUCCESS, attempt) → Unrelated env idx view attempt.view
  | other _ _ _ doApply =>
    ∀ view attempt, doApply view = .ok (.tesSUCCESS, attempt) → Unrelated env idx view attempt.view

/-- A ledger, the sequence of the last ledger, and the numbers that were used by applied transactions
and given to tickets so far. -/
structure History (A K : Type) [LinearOrder A] [LinearOrder K] where
  ledger : Ledger A K
  seq : Nat := 0
  used : List (A × Nat) := []
  issued : List (A × Nat) := []

def newTickets (l l' : Ledger A K) : List (A × Nat) :=
  (l'.tickets.entries.filter fun e => (l.tickets.find? e.1).isNone).map fun e =>
    (e.2.account, e.2.ticketSequence)

namespace History

variable (others idx) {s : History A K} {a : Application A K (Transaction A K)}

section

variable (s a)

def step : History A K :=
  let o := Transaction.apply others idx a s.ledger
  let tx := a.tx.common
  { ledger := o.ledger
    seq := a.env.info.seq
    used := if o.applied then (tx.account, tx.getSeqProxy.value) :: s.used else s.used
    issued := newTickets s.ledger o.ledger ++ s.issued }

/-- Accounts can be deleted, ledgers come in order and there is room for 32-bit sequences. A preflight
does not claim a fee. -/
structure Regular : Prop where
  deletable : a.env.info.rules.deletableAccounts
  seq_le : s.seq ≤ a.env.info.seq
  room : ∀ root, s.ledger.accounts.find? a.tx.common.account = some root →
    root.sequence + 255 < 4294967296
  notTEC : isTecClaim (a.tx.preflight a.env a.checks) = false
  leaves : a.tx.LeavesTickets a.env idx
  others : others.Proper a.env idx

end

/-- No number was used or issued twice, and tickets are in order. -/
structure NoReplay (idx : Indexes A K) (s : History A K) : Prop where
  used : s.used.Nodup
  issued : s.issued.Nodup
  spent : ∀ a n, (a, n) ∈ s.used → s.ledger.tickets.find? (idx.ticket a n) = none
  passed : ∀ a n root, (a, n) ∈ s.used → s.ledger.accounts.find? a = some root → n < root.sequence
  below : ∀ k t, s.ledger.tickets.find? k = some t →
    ∃ root, s.ledger.accounts.find? t.account = some root ∧ t.ticketSequence < root.sequence
  counted : ∀ a root, s.ledger.accounts.find? a = some root →
    s.ledger.ticketTotal a = root.ticketCount.getD 0

structure Sound (s : History A K) : Prop where
  good : Good idx s.seq s.used s.issued s.ledger s.ledger.numbers
  used : s.used.Nodup
  issued : s.issued.Nodup

variable {others idx}

theorem Sound.noReplay (h : s.Sound idx) : s.NoReplay idx where
  used := h.used
  issued := h.issued
  spent := h.good.spent
  passed b n root hn hr := h.good.pastUsed.lived b n _ _ hn (numbers_of_find? hr)
  below k t ht := by
    obtain ⟨n, c, hnum, hlt⟩ := h.good.tickets.below k t ht
    obtain ⟨root, hr, heq⟩ := Option.map_eq_some_iff.mp hnum
    cases heq
    exact ⟨root, hr, hlt⟩
  counted b root hr := (h.good.tickets.counted b _ _ (numbers_of_find? hr)).1

theorem Sound.advanced (hidx : idx.Apart) (h : s.Sound idx) (hok : Regular others idx s a)
    (ha : (Transaction.apply others idx a s.ledger).applied) :
    Advanced idx a.env.info.seq s.used s.issued a.tx.common s.ledger
      (Transaction.apply others idx a s.ledger).ledger := by
  obtain ⟨hdel, hseq, hrm, hnot, hl, ho⟩ := hok
  have he : Later a.env s.seq := ⟨hdel, hseq⟩
  rw [Transaction.apply] at ha ⊢
  obtain ⟨hpre, hcs⟩ := applyTransaction_applied account_of_preclaimResult ha
  have hc := checkSeqProxy_of_preclaimResult hnot hpre
  have hacc : ∃ root, s.ledger.accounts.find? a.tx.common.account = some root := by
    cases hr : s.ledger.accounts.find? a.tx.common.account with
    | none =>
      rw [checkSeqProxy, hr] at hc
      cases hc
    | some root => exact ⟨root, rfl⟩
  obtain ⟨root, hr⟩ := hacc
  have hv := fun hty => checkSeqProxy_sequence hc hty hr
  rcases hcs with ⟨attempt, result, fee, hcl⟩ | ⟨htes, view, attempt, hcn, hw, hld⟩
  · exact h.good.claimed hidx he hr hv (hrm root hr) hcl
  have hall := firstFailure_mem htes
  have hpr := hall (a.tx.preflight a.env a.checks) (by simp)
  have hp := hall (a.tx.preclaim others a.env s.ledger) (by simp)
  have ht := h.good.paid hidx he hr hv (hrm root hr) hcn
  rw [hld]
  cases htx : a.tx with
  | ticketCreate tx =>
    rw [htx] at hr hrm hpr hp hw ht
    exact ht.createTicket hidx hseq hr (hrm root hr) h.good.tickets hpr hp
      (work_eq_ok hw)
  | accountDelete tx erased =>
    rw [htx] at hr hrm hp hw ht
    obtain ⟨⟨ter, attempt'⟩, hw', heq⟩ := map_eq_ok hw
    cases heq
    have hap := work_eq_ok hw'
    exact ht.deleteAccount hidx ho he hr (hrm root hr) hp hap
  | payment tx destination preflight preclaim transfer =>
    rw [htx] at hw ht hl
    have hcr : Unrelated a.env idx (payFee tx view)
        (createDestination a.env destination (payFee tx view)) := createDestination_unrelated destination
    exact ((ht.unrelated hcr he).unrelated (hl _ _ hw) he).advanced hseq
  | other tx preflight preclaim doApply =>
    rw [htx] at hw ht hl
    exact (ht.unrelated (hl _ _ hw) he).advanced hseq

theorem mem_newTickets {l l' : Ledger A K} {b : A} {n : Nat} (h : (b, n) ∈ newTickets l l') :
    ∃ k t, l'.tickets.find? k = some t ∧ l.tickets.find? k = none ∧ t.account = b ∧
      t.ticketSequence = n := by
  obtain ⟨⟨k, t⟩, hmem, heq⟩ := mem_map.mp h
  obtain ⟨he, hn⟩ := mem_filter.mp hmem
  cases heq
  exact ⟨k, t, OrdMap.mem_entries_iff.mp he, Option.isNone_iff_eq_none.mp hn, rfl, rfl⟩

theorem newTickets_self (l : Ledger A K) : newTickets l l = [] := by
  rw [eq_nil_iff_forall_not_mem]
  rintro ⟨b, n⟩ hmem
  obtain ⟨k, t, ht, hn, _⟩ := mem_newTickets hmem
  cases hn.symm.trans ht

theorem nodup_newTickets {l l' : Ledger A K} (h : TicketsOk idx l' l'.numbers) :
    (newTickets l l').Nodup := by
  have he : l'.tickets.entries.Nodup := .of_map Prod.fst l'.tickets.nodup_keys
  refine List.Nodup.map_on ?_ (he.filter _)
  rintro ⟨k, t⟩ hk ⟨k', t'⟩ hk' heq
  have ht := OrdMap.mem_entries_iff.mp (mem_filter.mp hk).1
  have ht' := OrdMap.mem_entries_iff.mp (mem_filter.mp hk').1
  obtain ⟨ha, hn⟩ := Prod.mk.inj heq
  have hkey : k = k' := by rw [h.keyed k t ht, h.keyed k' t' ht', ha, hn]
  subst hkey
  cases ht.symm.trans ht'
  rfl

theorem Sound.step (hidx : idx.Apart) (h : s.Sound idx) (hok : Regular others idx s a) :
    (step others idx s a).Sound idx := by
  rw [History.step]
  cases ha : (Transaction.apply others idx a s.ledger).applied with
  | false =>
    have hl : (Transaction.apply others idx a s.ledger).ledger = s.ledger :=
      applyTransaction_unapplied ha
    rw [hl, newTickets_self]
    exact ⟨h.good.mono hok.seq_le, h.used, h.issued⟩
  | true =>
    have hadv := h.advanced hidx hok ha
    have hg := hadv.good
    refine ⟨⟨hg.tickets, hg.pastUsed, ⟨?_, ?_⟩, hg.spent⟩, h.used.cons hadv.fresh, ?_⟩
    · intro b n q c hmem hq
      rcases mem_append.mp hmem with hnew | hold
      · obtain ⟨k, t, ht, _, rfl, rfl⟩ := mem_newTickets hnew
        obtain ⟨q', c', hq', hlt⟩ := hg.tickets.below k t ht
        cases hq.symm.trans hq'
        exact hlt
      · exact hg.pastIssued.lived b n q c hold hq
    · intro b n hmem hn
      rcases mem_append.mp hmem with hnew | hold
      · obtain ⟨k, t, ht, _, rfl, rfl⟩ := mem_newTickets hnew
        obtain ⟨q', c', hq', _⟩ := hg.tickets.below k t ht
        cases hn.symm.trans hq'
      · exact hg.pastIssued.gone b n hold hn
    · refine nodup_append.mpr ⟨nodup_newTickets hg.tickets, h.issued, ?_⟩
      rintro ⟨b, n⟩ hnew _ hold rfl
      obtain ⟨k, t, ht, hn, rfl, rfl⟩ := mem_newTickets hnew
      obtain ⟨q, c, hq, hle⟩ := hadv.later k t ht hn
      exact absurd (h.good.pastIssued.lived _ _ _ _ hold hq) (not_lt.mpr hle)

end History

/-- Over every run of transactions, also across the deletion and creation of accounts, no number is
used by two transactions or given to two tickets. -/
theorem numbers_never_reused (others : OtherEntries A K) {idx : Indexes A K} (hidx : idx.Apart)
    {l : Ledger A K} (hl : TicketsOk idx l l.numbers) (as : List (Application A K (Transaction A K)))
    (hok : Run.Allowed (History.step others idx) (History.Regular others idx) { ledger := l } as) :
    (as.foldl (History.step others idx) { ledger := l }).NoReplay idx := by
  have hstart : History.Sound idx { ledger := l } :=
    ⟨⟨hl, ⟨by simp, by simp⟩, ⟨by simp, by simp⟩, by simp⟩, .nil, .nil⟩
  exact (Run.invariant (History.Sound idx) (fun _ _ h hreg => h.step hidx hreg) as hstart hok).noReplay

section Example

theorem ticketsOk_of_accounts {idx : Indexes A K} {accounts : OrdMap A AccountRoot}
    (h : ∀ a root, accounts.find? a = some root → root.ticketCount = none) :
    TicketsOk idx ({ accounts } : Ledger A K) ({ accounts } : Ledger A K).numbers where
  keyed k t ht := by cases ht
  below k t ht := by cases ht
  counted a s c hs := by
    obtain ⟨root, hr, heq⟩ := Option.map_eq_some_iff.mp hs
    cases heq
    rw [h a root hr]
    exact ⟨rfl, Nat.zero_le _⟩
  offers k hk := by cases hk
  tidy a := ⟨chained_empty, .nil⟩
  placed_iff a b n page := by
    constructor
    · intro hm
      cases hm
    · rintro ⟨_, t, ht, _⟩
      cases ht

def pairIndexes : Indexes Nat Nat where
  ticket a n := Nat.pair a n
  payChan a d n := Nat.pair a (Nat.pair d n)
  escrow a n := Nat.pair a n

def nothingElse : OtherEntries Nat Nat where
  deletable _ _ := none
  remove _ _ _ := .error (.tef .tefBAD_LEDGER)

def transferTo (x y : Nat) : DoApply Nat Nat := fun view =>
  let view := view.modifyAccount x (AccountRoot.credit (-30))
  .ok (.tesSUCCESS, { view := view.modifyAccount y (AccountRoot.credit 30) })

/-- Account 1 makes two tickets, uses one and is deleted. Account 2 creates it again. -/
def recreation : List (Application Nat Nat (Transaction Nat Nat)) :=
  [applied 0 (.ticketCreate { account := 1, fee := 1, sequence := 5, ticketCount := 2 }),
   applied 0 (.other { account := 1, fee := 1, sequence := 0, ticketSequence := some 6 } .tesSUCCESS
     (fun _ => .tesSUCCESS) (transferTo 1 2)),
   applied 0 (.accountDelete { account := 1, fee := 1, sequence := 8, destination := 2 } []),
   applied 0 (.payment { account := 2, fee := 1, sequence := 8 } 1 .tesSUCCESS (fun _ => .tesSUCCESS)
     (transferTo 2 1)),
   applied 0 (.ticketCreate { account := 1, fee := 1, sequence := 1000, ticketCount := 1 })]

theorem recreation_regular : Run.Allowed (History.step nothingElse pairIndexes)
    (History.Regular nothingElse pairIndexes) { ledger := twoAccounts } recreation := by
  have ho : ∀ env, nothingElse.Proper env pairIndexes := by
    intro env l a k l' _ _ h
    cases h
  have hl : ∀ (env : Env Nat Nat) x y view attempt,
      transferTo x y view = .ok (.tesSUCCESS, attempt) → Unrelated env pairIndexes view attempt.view := by
    intro env x y view attempt h
    cases h
    exact (credit_unrelated x (-30)).trans (credit_unrelated y 30)
  have hr : ∀ o : Option AccountRoot, (o.all fun root => root.sequence + 255 < 4294967296) →
      ∀ root, o = some root → root.sequence + 255 < 4294967296 := by
    intro o h root hrt
    subst hrt
    simpa using h
  refine ⟨⟨rfl, by decide, ?_, rfl, trivial, ho _⟩, ⟨rfl, by decide, ?_, rfl, hl _ _ _, ho _⟩,
    ⟨rfl, by decide, ?_, rfl, trivial, ho _⟩, ⟨rfl, by decide, ?_, rfl, hl _ _ _, ho _⟩,
    ⟨rfl, by decide, ?_, rfl, trivial, ho _⟩, trivial⟩
  all_goals exact hr _ (by decide)

theorem numbers_never_reused_recreated :
    (recreation.foldl (History.step nothingElse pairIndexes) { ledger := twoAccounts }).used =
      [(1, 1000), (2, 8), (1, 8), (1, 6), (1, 5)] ∧
    (recreation.foldl (History.step nothingElse pairIndexes) { ledger := twoAccounts }).issued =
      [(1, 1001), (1, 6), (1, 7)] ∧
    (recreation.foldl (History.step nothingElse pairIndexes) { ledger := twoAccounts }).NoReplay
      pairIndexes := by
  refine ⟨by decide, by decide, numbers_never_reused nothingElse ?_ (ticketsOk_of_accounts ?_) recreation
    recreation_regular⟩
  · intro a b n m h
    exact Nat.pair_eq_pair.mp h
  intro a root h
  rw [OrdMap.find?_insert] at h
  split_ifs at h
  · cases h
    rfl
  rw [OrdMap.find?_insert] at h
  split_ifs at h
  · cases h
    rfl
  · cases h

end Example

end Rippled.Tx
