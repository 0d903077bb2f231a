import Rippled.Tx.PayChanBooks

namespace Rippled.Tx

open Lib Transactor

variable {A K : Type} [LinearOrder A] [LinearOrder K]

/-- The books with the time of the last transaction and, for each channel, the time of the earliest
request of its owner to close it that no renewal has undone. -/
structure Schedule (A K : Type) [LinearOrder A] [LinearOrder K] extends Books A K where
  now : Nat := 0
  requested : K → Option Nat := fun _ => none

namespace Schedule

variable (sigs : Signatures K) (idx : Indexes A K)

def reschedule (tx : ChannelTx A K) (closeTime : Nat) (request : Option Nat) : Option Nat :=
  if tx.renews then none
  else if tx.requestsClose then some (request.getD closeTime)
  else request

variable {s : Schedule A K} {a : Application A K (ChannelTx A K)}

section

variable (s a)

def request (k : K) : Option Nat :=
  if k = a.tx.channel idx then
    if (s.ledger.payChans.find? k).isNone then none
    else if (ChannelTx.apply sigs idx a s.ledger).success then
      reschedule a.tx a.env.info.parentCloseTime (s.requested k)
    else s.requested k
  else s.requested k

def step : Schedule A K where
  toBooks := s.toBooks.step sigs idx a
  now := a.env.info.parentCloseTime
  requested := s.request sigs idx a

/-- A transaction comes in order, and if the owner requests to close a channel by it the settle delay
ends within 32 bits. -/
def inRange : Bool :=
  s.now ≤ a.env.info.parentCloseTime &&
    (s.ledger.payChans.find? (a.tx.channel idx)).all fun c =>
      !(a.tx.requestsClose && a.tx.common.account = c.account) ||
        a.env.info.parentCloseTime + c.settleDelay < 4294967296

/-- If a transaction closes a channel that could have paid more, then it is sent by the destination,
or the channel had a time to end, or the settle delay has passed since the request. -/
def Protects : Prop :=
  ∀ k c, s.ledger.payChans.find? k = some c → (s.step sigs idx a).ledger.payChans.find? k = none →
    (s.step sigs idx a).paid k < c.amount → a.tx.common.account ≠ c.destination →
    ¬ c.cancelAfter.any (fun x => x ≤ a.env.info.parentCloseTime) →
    ∃ r, s.requested k = some r ∧ r + c.settleDelay ≤ a.env.info.parentCloseTime

end

/-- An expiration leaves the settle delay after the request. -/
structure Timed (s : Schedule A K) : Prop where
  sound : s.toBooks.Sound
  past : ∀ k r, s.requested k = some r → r ≤ s.now
  delayed : ∀ k c e, s.ledger.payChans.find? k = some c → c.expiration = some e →
    ∃ r, s.requested k = some r ∧ r + c.settleDelay ≤ e

variable {sigs idx} {k : K} {c : PayChan A}

theorem request_of_other (hc : s.ledger.payChans.find? k = some c) (h : k ≠ a.tx.channel idx ∨
      (ChannelTx.apply sigs idx a s.ledger).success = false) :
    s.request sigs idx a k = s.requested k := by
  rw [request]
  rcases h with h | h
  · rw [if_neg h]
  · simp [h, hc]

theorem request_of_success (hc : s.ledger.payChans.find? k = some c) (hk : k = a.tx.channel idx)
    (h : (ChannelTx.apply sigs idx a s.ledger).success) :
    s.request sigs idx a k = reschedule a.tx a.env.info.parentCloseTime (s.requested k) := by
  rw [request, if_pos hk, hc, if_neg (by simp), if_pos h]

variable (hs : s.Timed)

include hs

theorem request_le (hnow : s.now ≤ a.env.info.parentCloseTime) {r : Nat}
    (h : s.request sigs idx a k = some r) : r ≤ a.env.info.parentCloseTime := by
  have hp : ∀ r, s.requested k = some r → r ≤ a.env.info.parentCloseTime :=
    fun r hr => (hs.past k r hr).trans hnow
  rw [request, reschedule] at h
  split_ifs at h
  · cases hr : s.requested k with
    | none =>
      rw [hr] at h
      cases h
      exact le_rfl
    | some r' =>
      rw [hr] at h
      cases h
      exact hp r' hr
  all_goals exact hp r h

theorem Timed.rescheduled (hok : s.inRange idx a) (hk : k = a.tx.channel idx)
    (hc : s.ledger.payChans.find? k = some c) {e : Option Nat} {x : Nat}
    (hexp : Rescheduled a.env.info.parentCloseTime a.tx c e) (he : e = some x) :
    ∃ r, reschedule a.tx a.env.info.parentCloseTime (s.requested k) = some r ∧ r + c.settleDelay ≤ x := by
  subst hk
  rw [inRange, hc] at hok
  simp only [Option.all_some, Bool.and_eq_true, Bool.or_eq_true, Bool.not_eq_true', decide_eq_true_eq,
    Bool.and_eq_false_iff, decide_eq_false_iff_not] at hok
  cases hexp with
  | kept hreq hren =>
    obtain ⟨r, hr, hle⟩ := hs.delayed _ c x hc he
    exact ⟨r, by rw [reschedule, hreq, hren]; exact hr, hle⟩
  | cleared => cases he
  | requested hreq hren ho hmin =>
    cases he
    have hw : add32 a.env.info.parentCloseTime c.settleDelay =
        a.env.info.parentCloseTime + c.settleDelay := by
      refine Nat.mod_eq_of_lt (hok.2.resolve_left ?_)
      simp [hreq, ho]
    rw [minExpiration, hw] at hmin
    refine ⟨(s.requested (a.tx.channel idx)).getD a.env.info.parentCloseTime,
      by rw [reschedule, hreq, hren]; rfl, ?_⟩
    -- A request made before is kept; it is not later than this one, nor is the expiration it led to.
    cases hr : s.requested (a.tx.channel idx) with
    | none =>
      cases hcur : c.expiration with
      | none =>
        rw [hcur] at hmin
        exact hmin
      | some e' =>
        obtain ⟨r, hr', _⟩ := hs.delayed _ c e' hc hcur
        cases hr.symm.trans hr'
    | some r =>
      have hp := (hs.past _ r hr).trans hok.1
      rw [Option.getD_some]
      cases hcur : c.expiration with
      | none =>
        simp only [hcur] at hmin
        omega
      | some e' =>
        obtain ⟨r', hr', hle⟩ := hs.delayed _ c e' hc hcur
        cases hr.symm.trans hr'
        simp only [hcur] at hmin
        split_ifs at hmin <;> omega

theorem Timed.step (hok : s.inRange idx a) : (s.step sigs idx a).Timed where
  sound := hs.sound.step a
  past k r hr := by
    rw [inRange, Bool.and_eq_true, decide_eq_true_eq] at hok
    exact request_le hs hok.1 hr
  delayed k c' e hc' he := by
    cases hs.sound.fate sigs idx a k with
    | absent _ ha => cases ha.symm.trans hc'
    | untouched ho hb ha =>
      cases ha.symm.trans hc'
      obtain ⟨r, hr, hle⟩ := hs.delayed k c' e hb he
      exact ⟨r, (request_of_other hb ho).trans hr, hle⟩
    | created _ ha _ _ _ hexp =>
      cases ha.symm.trans hc'
      cases hexp.symm.trans he
    | updated hk hsc hb ha _ _ hexp =>
      cases ha.symm.trans hc'
      obtain ⟨r, hr, hle⟩ := hs.rescheduled hok hk hb hexp he
      exact ⟨r, (request_of_success hb hk hsc).trans hr, hle⟩
    | closed _ _ ha => cases ha.symm.trans hc'

theorem Timed.protects (a : Application A K (ChannelTx A K)) : s.Protects sigs idx a := by
  intro k c hc hn hl ho hcn
  cases hs.sound.fate sigs idx a k with
  | absent hb => cases hb.symm.trans hc
  | untouched _ _ ha => cases ha.symm.trans hn
  | created hb => cases hb.symm.trans hc
  | updated _ _ _ ha => cases ha.symm.trans hn
  | closed _ hb _ _ hwhy hpd =>
    cases hb.symm.trans hc
    have hwas := (hs.sound k c hc).paid
    have hfn : (s.step sigs idx a).paid k = s.paid k + (_ - c.balance) := hpd
    rcases hwhy with hexp | hdst | hall
    · rw [PayChan.isExpired, Bool.or_eq_true] at hexp
      have hp := hexp.resolve_left hcn
      cases he : c.expiration with
      | none =>
        rw [he] at hp
        cases hp
      | some e =>
        rw [he, Option.any_some, decide_eq_true_eq] at hp
        obtain ⟨r, hr, hd⟩ := hs.delayed k c e hc he
        exact ⟨r, hr, hd.trans hp⟩
    · exact absurd hdst.symm ho
    · omega

end Schedule

/-- As long as no settle delay ends beyond 32 bits, a channel that could have paid more is not closed
before the settle delay has passed since the owner's request. -/
theorem settle_delay_protects (sigs : Signatures K) (idx : Indexes A K) (l : Ledger A K)
    (hnone : l.payChans = OrdMap.empty) (as : List (Application A K (ChannelTx A K)))
    (hok : Run.Allowed (Schedule.step sigs idx) (fun s a => s.inRange idx a) { ledger := l } as) :
    ∀ a, (as.foldl (Schedule.step sigs idx) { ledger := l }).Protects sigs idx a := by
  have htimed : (as.foldl (Schedule.step sigs idx) { ledger := l }).Timed := by
    apply Run.invariant Schedule.Timed (fun s a hs hok => hs.step hok) as ?_ hok
    refine ⟨fun k c hc => ?_, fun k r hr => ?_, fun k c e hc _ => ?_⟩
    · rw [hnone] at hc
      cases hc
    · cases hr
    · rw [hnone] at hc
      cases hc
  exact fun a => htimed.protects a

section Example

def requestClose : ChannelTx Nat Nat :=
  .claim { account := 1, fee := 10, sequence := 6, channel := channelKey, tfClose := true }

def touchChannel : ChannelTx Nat Nat :=
  .claim { account := 1, fee := 10, sequence := 7, channel := channelKey }

theorem settle_delay_protects_short : twoAccounts.payChans = OrdMap.empty ∧
    Run.Allowed (Schedule.step plainSignatures plainIndexes) (fun s a => s.inRange plainIndexes a)
      { ledger := twoAccounts } [applied 1 (openChannel 3), applied 2 requestClose] ∧
    ([applied 1 (openChannel 3), applied 2 requestClose].foldl
      (Schedule.step plainSignatures plainIndexes) { ledger := twoAccounts }).Protects plainSignatures
        plainIndexes (applied 5 touchChannel) := by
  have hok : Run.Allowed (Schedule.step plainSignatures plainIndexes)
      (fun s a => s.inRange plainIndexes a) { ledger := twoAccounts }
      [applied 1 (openChannel 3), applied 2 requestClose] :=
    ⟨by decide +kernel, by decide +kernel, trivial⟩
  exact ⟨rfl, hok, settle_delay_protects plainSignatures plainIndexes twoAccounts rfl _ hok _⟩

def longDelay : Schedule Nat Nat :=
  [applied 100 (openChannel 4294967295), applied 100 requestClose].foldl
    (Schedule.step plainSignatures plainIndexes) { ledger := twoAccounts }

/-- The owner closes a channel right after the request, though nothing of it was paid. -/
theorem long_delay_unprotected :
    ¬ longDelay.Protects plainSignatures plainIndexes (applied 100 touchChannel) := by
  intro h
  have hchannel : longDelay.ledger.payChans.find? channelKey = some
      { account := 1, destination := 2, amount := 100, balance := 0, publicKey := [7]
        settleDelay := 4294967295, expiration := some 99, ownerNode := 0, destinationNode := some 0 } := by
    decide +kernel
  obtain ⟨r, _, hr⟩ := h channelKey _ hchannel (by decide +kernel) (by decide +kernel) (by decide)
    (by decide)
  exact absurd hr (by simp [applied, plainEnv])

end Example

end Rippled.Tx
