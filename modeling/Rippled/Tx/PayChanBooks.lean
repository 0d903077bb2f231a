import Rippled.Lib.Run
import Rippled.Tx.PayChanEffects

namespace Rippled.Tx

open Lib Transactor OrdMap

variable {A K : Type} [LinearOrder A] [LinearOrder K]

/-- A ledger with the amounts that the destinations of its channels received through them. -/
structure Books (A K : Type) [LinearOrder A] [LinearOrder K] where
  ledger : Ledger A K
  paid : K → Int := fun _ => 0

variable {sigs : Signatures K} {idx : Indexes A K} {s : Books A K}
  {a : Application A K (ChannelTx A K)}

namespace Books

variable (sigs idx)

def record (s : Books A K) (tx : ChannelTx A K) (o : Outcome A K) (k : K) : Int :=
  if k = tx.channel idx then
    match s.ledger.payChans.find? k with
    | none => 0
    | some c => s.paid k + gained s.ledger tx.common o c.destination
  else s.paid k

def step (s : Books A K) (a : Application A K (ChannelTx A K)) : Books A K :=
  let o := ChannelTx.apply sigs idx a s.ledger
  { ledger := o.ledger, paid := s.record idx a.tx o }

variable (s a)

theorem step_ledger : (s.step sigs idx a).ledger = (ChannelTx.apply sigs idx a s.ledger).ledger := rfl

theorem step_paid : (s.step sigs idx a).paid =
    s.record idx a.tx (ChannelTx.apply sigs idx a s.ledger) := rfl

end Books

def Ledger.channelXRP (l : Ledger A K) : Int :=
  l.accounts.total AccountRoot.balance + l.payChans.total fun c => c.amount - c.balance

variable {o : Outcome A K}

section Gained

variable {l charged : Ledger A K} {tx : Common A} {c : PayChan A} {paid back : Int}

variable (hm : Moved charged o.ledger c paid back) (h : FeeCharged tx l o.fee charged)
  (hne : c.account ≠ c.destination)

include hm h hne

theorem Moved.gained_destination : gained l tx o c.destination = paid := by
  rw [h.gained_eq, hm.moved, single_self, single_of_ne hne.symm]
  omega

theorem Moved.gained_account : gained l tx o c.account = back := by
  rw [h.gained_eq, hm.moved, single_self, single_of_ne hne]
  omega

end Gained

/-- A channel pays out no more than it holds, and what it paid its destination received. -/
structure Books.Right (s : Books A K) (k : K) (c : PayChan A) : Prop where
  nonneg : 0 ≤ c.balance
  funded : c.balance ≤ c.amount
  apart : c.account ≠ c.destination
  paid : s.paid k = c.balance

def Books.Sound (s : Books A K) : Prop := ∀ k c, s.ledger.payChans.find? k = some c → s.Right k c

/-- How one transaction treats the channels: no balance falls, a channel that is closed returns to its
owner what it did not pay, a destination only raises a balance with an authorization, and XRP is lost
by fees only. -/
structure Books.Fair (sigs : Signatures K) (idx : Indexes A K) (s : Books A K)
    (a : Application A K (ChannelTx A K)) : Prop where
  grows : ∀ k c c', s.ledger.payChans.find? k = some c →
    (s.step sigs idx a).ledger.payChans.find? k = some c' → c.balance ≤ c'.balance
  refunded : ∀ k c, s.ledger.payChans.find? k = some c →
    (s.step sigs idx a).ledger.payChans.find? k = none →
    gained s.ledger a.tx.common (ChannelTx.apply sigs idx a s.ledger) c.account =
      c.amount - (s.step sigs idx a).paid k
  authorized : ∀ k c, s.ledger.payChans.find? k = some c → a.tx.common.account = c.destination →
    c.balance < (s.step sigs idx a).paid k →
    Authorized sigs k c.publicKey ((s.step sigs idx a).paid k)
  fee : (ChannelTx.apply sigs idx a s.ledger).fee = 0 ∨
    0 ≤ (ChannelTx.apply sigs idx a s.ledger).fee ∧
      (ChannelTx.apply sigs idx a s.ledger).fee ≤ a.tx.common.fee
  xrp : (s.step sigs idx a).ledger.channelXRP =
    s.ledger.channelXRP - (ChannelTx.apply sigs idx a s.ledger).fee

section Step

variable {tx : ChannelTx A K} {k : K}

theorem Books.record_of_none (h : s.ledger.payChans.find? (tx.channel idx) = none) :
    s.record idx tx o (tx.channel idx) = 0 := by
  rw [record, if_pos rfl, h]

theorem Books.record_of_some {c : PayChan A} (h : s.ledger.payChans.find? (tx.channel idx) = some c) :
    s.record idx tx o (tx.channel idx) =
      s.paid (tx.channel idx) + gained s.ledger tx.common o c.destination := by
  rw [record, if_pos rfl, h]

inductive Fate (sigs : Signatures K) (idx : Indexes A K) (s : Books A K)
    (a : Application A K (ChannelTx A K)) (o : Outcome A K) (s' : Books A K) (k : K) : Prop
  | absent (hbefore : s.ledger.payChans.find? k = none) (hafter : s'.ledger.payChans.find? k = none)
  | untouched {c : PayChan A} (hother : k ≠ a.tx.channel idx ∨ o.success = false)
    (hbefore : s.ledger.payChans.find? k = some c) (hafter : s'.ledger.payChans.find? k = some c)
    (hpaid : s'.paid k = s.paid k)
  | created {c : PayChan A} (hbefore : s.ledger.payChans.find? k = none)
    (hafter : s'.ledger.payChans.find? k = some c) (hbalance : c.balance = 0) (hamount : 0 < c.amount)
    (hne : c.account ≠ c.destination) (hexp : c.expiration = none) (hpaid : s'.paid k = 0)
  | updated {c : PayChan A} {b n : Int} {e : Option Nat} (hk : k = a.tx.channel idx)
    (hsuccess : o.success) (hbefore : s.ledger.payChans.find? k = some c)
    (hafter : s'.ledger.payChans.find? k = some { c with balance := b, amount := n, expiration := e })
    (hpay : Paying sigs idx a.tx c b) (hn : c.amount ≤ n)
    (hexp : Rescheduled a.env.info.parentCloseTime a.tx c e)
    (hpaid : s'.paid k = s.paid k + (b - c.balance))
  | closed {c : PayChan A} {b : Int} (hk : k = a.tx.channel idx)
    (hbefore : s.ledger.payChans.find? k = some c) (hafter : s'.ledger.payChans.find? k = none)
    (hpay : Paying sigs idx a.tx c b)
    (hwhy : c.isExpired a.env.info.parentCloseTime ∨ c.destination = a.tx.common.account ∨ b = c.amount)
    (hpaid : s'.paid k = s.paid k + (b - c.balance))
    (hback : gained s.ledger a.tx.common o c.account = c.amount - b)

theorem Fate.of_same {s' : Books A K} (ho : k ≠ a.tx.channel idx ∨ o.success = false)
    (hs : s'.ledger.payChans.find? k = s.ledger.payChans.find? k)
    (hp : s.ledger.payChans.find? k ≠ none → s'.paid k = s.paid k) : Fate sigs idx s a o s' k := by
  cases hc : s.ledger.payChans.find? k with
  | none => exact .absent hc (hs.trans hc)
  | some c => exact .untouched ho hc (hs.trans hc) (hp (by simp [hc]))

theorem find?_of_ne (hk : k ≠ a.tx.channel idx) :
    (s.step sigs idx a).ledger.payChans.find? k = s.ledger.payChans.find? k := by
  obtain ⟨charged, hc, hd⟩ := (ChannelTx.apply_effect sigs idx a s.ledger).handled
  have hch : ∀ l : Ledger A K, l.payChans.find? k = charged.payChans.find? k →
      l.payChans.find? k = s.ledger.payChans.find? k := fun l h => by rw [h, hc.payChans]
  apply hch
  rw [Books.step_ledger]
  rcases hd with ⟨_, hi⟩ | ⟨_, hh⟩
  · rw [hi]
  cases hh with
  | created _ _ _ _ _ hins | updated _ _ _ _ _ hins => rw [hins, find?_insert, if_neg hk]
  | closed _ _ _ he => rw [he, find?_erase, if_neg hk]

section

variable (hs : s.Sound) (a)

include hs

variable (sigs idx) in
theorem Books.Sound.fate (k : K) :
    Fate sigs idx s a (ChannelTx.apply sigs idx a s.ledger) (s.step sigs idx a) k := by
  by_cases hk : k = a.tx.channel idx
  · subst hk
    obtain ⟨charged, hch, hd⟩ := (ChannelTx.apply_effect sigs idx a s.ledger).handled
    rcases hd with ⟨hf, hi⟩ | ⟨hsc, hh⟩
    · refine .of_same (.inr hf) ?_ fun hsm => ?_
      · rw [Books.step_ledger, hi, hch.payChans]
      · obtain ⟨c, hc⟩ := Option.ne_none_iff_exists'.mp hsm
        rw [Books.step_paid, Books.record_of_some hc, hch.gained_eq, hi]
        omega
    · cases hh with
      | created hnew hb ha hne hexp hcn =>
        rw [hch.payChans] at hnew hcn
        refine .created hnew ?_ hb ha hne hexp (Books.record_of_none hnew)
        rw [Books.step_ledger, hcn, find?_insert, if_pos rfl]
      | updated hc _ hpay hn hexp hcn hm =>
        rw [hch.payChans] at hc hcn
        refine .updated rfl hsc hc ?_ hpay hn hexp ?_
        · rw [Books.step_ledger, hcn, find?_insert, if_pos rfl]
        · rw [Books.step_paid, Books.record_of_some hc, hm.gained_destination hch (hs _ _ hc).apart]
      | closed hc hpay hwhy hcn hm =>
        rw [hch.payChans] at hc hcn
        refine .closed rfl hc ?_ hpay hwhy ?_ (hm.gained_account hch (hs _ _ hc).apart)
        · rw [Books.step_ledger, hcn, find?_erase, if_pos rfl]
        · rw [Books.step_paid, Books.record_of_some hc, hm.gained_destination hch (hs _ _ hc).apart]
  · exact .of_same (.inl hk) (find?_of_ne hk) fun _ => if_neg hk

theorem Books.Sound.step : (s.step sigs idx a).Sound := by
  intro k c' ha'
  cases hs.fate sigs idx a k with
  | absent _ ha => cases ha.symm.trans ha'
  | untouched _ hb ha hp =>
    cases ha.symm.trans ha'
    have hr := hs k c' hb
    exact ⟨hr.nonneg, hr.funded, hr.apart, hp.trans hr.paid⟩
  | created _ ha hbl ham hne _ hp =>
    cases ha.symm.trans ha'
    exact ⟨hbl.ge, by omega, hne, hp.trans hbl.symm⟩
  | updated _ _ hb ha hpay hn _ hp =>
    cases ha.symm.trans ha'
    have hr := hs k _ hb
    have hg := hpay.grows
    have hf := hpay.funded
    have hle := hr.funded
    have hnn := hr.nonneg
    have hwas := hr.paid
    refine ⟨?_, ?_, hr.apart, ?_⟩
    all_goals dsimp only; omega
  | closed _ _ ha => cases ha.symm.trans ha'

end

theorem channelXRP_step (sigs : Signatures K) (idx : Indexes A K) (s : Books A K)
    (a : Application A K (ChannelTx A K)) : (s.step sigs idx a).ledger.channelXRP =
      s.ledger.channelXRP - (ChannelTx.apply sigs idx a s.ledger).fee := by
  obtain ⟨charged, hcr, hd⟩ := (ChannelTx.apply_effect sigs idx a s.ledger).handled
  have hfee := hcr.shift.total
  rw [Ledger.channelXRP, Ledger.channelXRP, Books.step_ledger]
  rcases hd with ⟨_, hi⟩ | ⟨_, hh⟩
  · rw [hi, hfee, hcr.payChans]
    omega
  cases hh with
  | created hnew hb _ _ _ hch hm =>
    have hmv := hm.total
    rw [hcr.payChans] at hnew hch
    rw [hch, total_insert_of_none hnew]
    omega
  | updated hc _ _ _ _ hch hm =>
    have hmv := hm.total
    rw [hcr.payChans] at hc hch
    rw [hch, total_insert_of_some hc]
    dsimp only
    omega
  | closed hc _ _ hch hm =>
    have hmv := hm.total
    rw [hcr.payChans] at hc hch
    rw [hch, total_erase hc]
    omega

theorem Books.Sound.fair (hs : s.Sound) (a : Application A K (ChannelTx A K)) : s.Fair sigs idx a where
  grows k c c' hc hc' := by
    cases hs.fate sigs idx a k with
    | absent hb => cases hb.symm.trans hc
    | untouched _ hb ha =>
      cases hb.symm.trans hc
      cases ha.symm.trans hc'
      exact le_rfl
    | created hb => cases hb.symm.trans hc
    | updated _ _ hb ha hpay =>
      cases hb.symm.trans hc
      cases ha.symm.trans hc'
      exact hpay.grows
    | closed _ _ ha => cases ha.symm.trans hc'
  refunded k c hc hn := by
    cases hs.fate sigs idx a k with
    | absent hb => cases hb.symm.trans hc
    | untouched _ _ ha => cases ha.symm.trans hn
    | created hb => cases hb.symm.trans hc
    | updated _ _ _ ha => cases ha.symm.trans hn
    | closed _ hb _ _ _ hp hbc =>
      cases hb.symm.trans hc
      have hwas := (hs k c hc).paid
      rw [hbc, hp]
      omega
  authorized k c hc hdst hr := by
    have hwas := (hs k c hc).paid
    cases hs.fate sigs idx a k with
    | absent hb => cases hb.symm.trans hc
    | untouched _ _ _ hp => omega
    | created hb => cases hb.symm.trans hc
    | updated hk _ hb _ hpay _ _ hp | closed hk hb _ hpay _ hp =>
      cases hb.symm.trans hc
      rw [hp, hwas, add_sub_cancel, hk]
      exact hpay.authorized (by omega) hdst
  fee := (ChannelTx.apply_effect sigs idx a s.ledger).fee
  xrp := channelXRP_step sigs idx s a

end Step

/-- After any transactions by any accounts, from a ledger without channels, the books are in order and
every further transaction treats the channels fairly. -/
theorem channels_keep_books (sigs : Signatures K) (idx : Indexes A K) (l : Ledger A K)
    (hnone : l.payChans = OrdMap.empty) (as : List (Application A K (ChannelTx A K))) :
    (as.foldl (Books.step sigs idx) { ledger := l }).Sound ∧
      ∀ a, (as.foldl (Books.step sigs idx) { ledger := l }).Fair sigs idx a := by
  have hsound : (as.foldl (Books.step sigs idx) { ledger := l }).Sound := by
    apply Run.invariant Books.Sound (fun s a hs _ => hs.step a) as
    · intro k c hc
      rw [hnone] at hc
      cases hc
    · exact Run.allowed_of_forall (fun _ _ => trivial) _ _
  exact ⟨hsound, fun a => hsound.fair a⟩

section Example

def plainSignatures : Signatures Nat where
  publicKeyType key := !key.isEmpty
  verify key message sig := sig = key ++ message
  serializePayChanAuthorization channel amount := [UInt8.ofNat channel, UInt8.ofNat amount.toNat]

def openChannel (settleDelay : Nat) : ChannelTx Nat Nat :=
  .create { account := 1, fee := 10, sequence := 5, destination := 2, amount := drops 100, settleDelay
            publicKey := [7] }

def channelKey : Nat := plainIndexes.payChan 1 2 5

def claimSixty : ChannelTx Nat Nat :=
  .claim { account := 2, fee := 10, sequence := 8, channel := channelKey, balance := some (drops 60)
           amount := some (drops 70), publicKey := some [7]
           signature := some ([7] ++ plainSignatures.serializePayChanAuthorization channelKey 70) }

theorem channels_keep_books_claimed : twoAccounts.payChans = OrdMap.empty ∧
    ([applied 0 (openChannel 3), applied 1 claimSixty].foldl (Books.step plainSignatures plainIndexes)
      { ledger := twoAccounts }).paid channelKey = 60 ∧
    ([applied 0 (openChannel 3), applied 1 claimSixty].foldl (Books.step plainSignatures plainIndexes)
      { ledger := twoAccounts }).Sound :=
  ⟨rfl, by decide +kernel, (channels_keep_books plainSignatures plainIndexes twoAccounts rfl
    [applied 0 (openChannel 3), applied 1 claimSixty]).1⟩

end Example

end Rippled.Tx
