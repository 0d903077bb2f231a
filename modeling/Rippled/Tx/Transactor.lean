import Rippled.Lib.Except
import Rippled.Tx.Ledger

namespace Rippled.Tx

open Lib Directory

theorem Failure.result_ne {e : Failure} {ter : TER} (h : e.result = .ok ter) : ter ≠ .tesSUCCESS := by
  cases e <;> cases h <;> simp

variable {A K : Type} [LinearOrder A] [LinearOrder K]

def oversizeMetaDataCap : Nat := 5200

def unfundedOfferRemoveLimit : Nat := 1000

inductive SeqProxy.Type
  | seq
  | ticket
deriving DecidableEq

structure SeqProxy where
  value : Nat
  type : SeqProxy.Type
deriving DecidableEq

structure Common (A : Type) where
  account : A
  fee : Int
  sequence : Nat
  ticketSequence : Option Nat := none

def Common.getSeqProxy (tx : Common A) : SeqProxy :=
  if tx.sequence ≠ 0 then ⟨tx.sequence, .seq⟩
  else
    match tx.ticketSequence with
    | none => ⟨tx.sequence, .seq⟩
    | some ticketSeq => ⟨ticketSeq, .ticket⟩

def checkSeqProxy (idx : Indexes A K) (rules : Rules) (view : Ledger A K) (tx : Common A) : TER :=
  match view.accounts.find? tx.account with
  | none => .ter .terNO_ACCOUNT
  | some sle =>
    let seqProx := tx.getSeqProxy
    match seqProx.type with
    | .seq =>
      if tx.ticketSequence.isSome ∧ rules.ticketBatch then .tem .temSEQ_AND_TICKET
      else if seqProx.value ≠ sle.sequence then
        if sle.sequence < seqProx.value then .ter .terPRE_SEQ else .tef .tefPAST_SEQ
      else .tesSUCCESS
    | .ticket =>
      if sle.sequence ≤ seqProx.value then .ter .terPRE_TICKET
      else if (view.tickets.find? (idx.ticket tx.account seqProx.value)).isNone then .tef .tefNO_TICKET
      else .tesSUCCESS

def lessTicket : Nat → Option Nat
  | 1 => none
  | n => some (add32 n 4294967295)

def ticketDelete (view : Ledger A K) (account : A) (ticketIndex : K) : Except Failure (Ledger A K) :=
  match view.tickets.find? ticketIndex with
  | none => .error (.tef .tefBAD_LEDGER)
  | some sleTicket => do
    let view ← view.ownerDirRemove account sleTicket.ownerNode ticketIndex true
    match view.accounts.find? account with
    | none => .error (.tef .tefBAD_LEDGER)
    | some sleAccount =>
      match sleAccount.ticketCount with
      | none => .error (.tef .tefBAD_LEDGER)
      | some ticketCount =>
        .ok { view with
          accounts := view.accounts.insert account
            ({ sleAccount with ticketCount := lessTicket ticketCount }.adjustOwnerCount (-1))
          tickets := view.tickets.erase ticketIndex }

def consumeSeqProxy (idx : Indexes A K) (tx : Common A) (view : Ledger A K) :
    Except Failure (Ledger A K) :=
  let seqProx := tx.getSeqProxy
  match seqProx.type with
  | .seq =>
    .ok (view.modifyAccount tx.account fun root => { root with sequence := add32 seqProx.value 1 })
  | .ticket => ticketDelete view tx.account (idx.ticket tx.account seqProx.value)

/-- What an attempt to apply a transaction leaves behind: the changed ledger, the offers it erased in
the state they had then, and the number of entries it touched. -/
structure Attempt (A K : Type) [LinearOrder A] [LinearOrder K] where
  view : Ledger A K
  erasedOffers : List (K × Offer A K) := []
  size : Nat := 0

/-- The work of a transaction type. It is not limited in what it does to the ledger. -/
abbrev DoApply (A K : Type) [LinearOrder A] [LinearOrder K] :=
  Ledger A K → Except String (TER × Attempt A K)

/-- The circumstances of an application: the ledger, the flags, and the checks made on the changes. -/
structure Env (A K : Type) [LinearOrder A] [LinearOrder K] where
  info : Info
  tapFAIL_HARD : Bool
  tapRETRY : Bool
  /-- Whether all invariants hold of the changes, given the result and the fee. -/
  invariants : TER → Int → Ledger A K → Bool

section Offers

def offerDelete (view : Ledger A K) (offerIndex : K) (sle : Offer A K) :
    Except String (TER × Ledger A K) :=
  match view.ownerDirRemove sle.account sle.ownerNode offerIndex false with
  | .error e => e.result.map fun ter => (ter, view)
  | .ok view =>
    match view.bookDirRemove sle.bookDirectory sle.bookNode offerIndex false with
    | .error e => e.result.map fun ter => (ter, view)
    | .ok view =>
      let view := view.modifyAccount sle.account (AccountRoot.adjustOwnerCount (-1))
      .ok (.tesSUCCESS, { view with offers := view.offers.erase offerIndex })

/-- Remove offers up to the limit. Those that are not in the ledger are passed over. -/
def removeUnfundedOffers : Nat → Ledger A K → List K → Except String (Ledger A K)
  | _, view, [] => .ok view
  | removed, view, index :: offers =>
    match view.offers.find? index with
    | none => removeUnfundedOffers removed view offers
    | some sleOffer => do
      let (_, view) ← offerDelete view index sleOffer
      if removed + 1 = unfundedOfferRemoveLimit then .ok view
      else removeUnfundedOffers (removed + 1) view offers

def removedOffers (base : Ledger A K) (attempt : Attempt A K) : List K :=
  (attempt.erasedOffers.filter fun e =>
    (base.offers.find? e.1).any fun before => before.takerPays = e.2.takerPays).map Prod.fst

end Offers

namespace Transactor

variable (env : Env A K) (idx : Indexes A K) (tx : Common A)

def payFee (view : Ledger A K) : Ledger A K :=
  view.modifyAccount tx.account (AccountRoot.credit (-tx.fee))

def apply (doApply : DoApply A K) (base : Ledger A K) : Except String (TER × Attempt A K) :=
  match base.accounts.find? tx.account with
  | none => doApply base
  | some _ =>
    match consumeSeqProxy idx tx base with
    | .error e => e.result.map fun ter => (ter, { view := base })
    | .ok view => doApply (payFee tx view)

def attempted (preclaimResult : TER) (doApply : DoApply A K) (base : Ledger A K) :
    Except String (TER × Attempt A K) :=
  if preclaimResult = .tesSUCCESS then apply idx tx doApply base
  else .ok (preclaimResult, { view := base })

section

variable (base : Ledger A K)

/-- Discard all changes, then charge the fee as far as the balance goes and consume the sequence or
ticket once more. -/
def reset (fee : Int) : Except String ((TER × Int) × Ledger A K) :=
  match base.accounts.find? tx.account with
  | none => .ok ((.tef .tefINTERNAL, 0), base)
  | some txnAcct =>
    let fee := if fee > txnAcct.balance then txnAcct.balance else fee
    match consumeSeqProxy idx tx (base.modifyAccount tx.account (AccountRoot.credit (-fee))) with
    | .error e => e.result.map fun ter => ((ter, fee), base)
    | .ok view => .ok ((.tesSUCCESS, fee), view)

def failInvariantCheck (result : TER) : TER :=
  if result = .tec .tecINVARIANT_FAILED ∨ result = .tef .tefINVARIANT_FAILED then
    .tef .tefINVARIANT_FAILED
  else .tec .tecINVARIANT_FAILED

def checkInvariants (result : TER) (fee : Int) (view : Ledger A K) : TER :=
  if env.invariants result fee view then result else failInvariantCheck result

/-- How the application of a transaction ends, with the fee charged and the XRP taken out of existence. -/
structure Outcome (A K : Type) [LinearOrder A] [LinearOrder K] where
  result : TER
  applied : Bool
  ledger : Ledger A K
  fee : Int := 0
  xrpDestroyed : Int := 0

structure Charged (A K : Type) [LinearOrder A] [LinearOrder K] where
  result : TER
  fee : Int
  view : Ledger A K

def killsOffers (result : TER) : Bool :=
  result = .tec .tecOVERSIZE ∨ result = .tec .tecKILLED

def replayRemovals (result : TER) (view : Ledger A K) (removed : List K) :
    Except String (Ledger A K) :=
  if killsOffers result then removeUnfundedOffers 0 view removed else .ok view

/-- Take back the attempt and only claim the fee. Offers that the attempt found unfunded stay
removed after some results. -/
def claimFee (attempt : Attempt A K) (result : TER) : Except String (Charged A K) := do
  let ((ter, fee), view) ← reset idx tx base tx.fee
  let removed := if killsOffers result then removedOffers base attempt else []
  let result := if isTesSuccess ter then result else ter
  let view ← replayRemovals result view removed
  .ok { result, fee, view }

variable (c : Charged A K)

/-- Check the invariants, and if they fail claim the fee only and check them again. -/
def settle : Except String (Charged A K) :=
  let result := checkInvariants env c.result c.fee c.view
  if result = .tec .tecINVARIANT_FAILED then do
    let ((ter, fee), view) ← reset idx tx base c.fee
    let result := if isTesSuccess ter then result else ter
    let result := if isTesSuccess result || isTecClaim result then checkInvariants env result fee view
      else result
    .ok { result, fee, view }
  else .ok { c with result }

/-- The fee was taken from the account already. It only has to leave the books of a closed ledger. -/
def destroyed (fee : Int) : Int := if !env.info.isOpen ∧ fee ≠ 0 then fee else 0

/-- Hand the changes to the ledger, unless the invariants rule it out. -/
def finish : Except String (Outcome A K) := do
  let c ← settle env idx tx base c
  if !isTecClaim c.result && !isTesSuccess c.result then
    .ok { result := c.result, applied := false, ledger := base }
  else if c.fee < 0 then .error "fee charged is negative!"
  else
    .ok { result := c.result, applied := true, ledger := c.view, fee := c.fee
          xrpDestroyed := destroyed env c.fee }

end

section

variable (preclaimResult : TER) (doApply : DoApply A K) (base : Ledger A K)

/-- Apply a transaction that passed the earlier checks with the given result. -/
def operator : Except String (Outcome A K) := do
  let (result, attempt) ← attempted idx tx preclaimResult doApply base
  let applied := isTesSuccess result
  let result := if attempt.size > oversizeMetaDataCap then .tec .tecOVERSIZE else result
  if isTecClaim result && env.tapFAIL_HARD then
    .ok { result, applied := false, ledger := base }
  else if killsOffers result || (isTecClaim result && !env.tapRETRY) then do
    let c ← claimFee idx tx base attempt result
    if isTecClaim c.result then finish env idx tx base c
    else .ok { result := c.result, applied := false, ledger := base }
  else if applied then finish env idx tx base { result, fee := tx.fee, view := attempt.view }
  else .ok { result, applied := false, ledger := base }

/-- Apply a transaction to a ledger. After an exception the ledger is as before. -/
def applyTransaction : Outcome A K :=
  if isTesSuccess preclaimResult || (isTecClaim preclaimResult && !env.tapRETRY) then
    match operator env idx tx preclaimResult doApply base with
    | .ok outcome => outcome
    | .error _ => { result := .tef .tefEXCEPTION, applied := false, ledger := base }
  else { result := preclaimResult, applied := false, ledger := base }

end

/-- The checks all transaction types have in common, apart from that of the sequence. -/
structure Checks where
  preflight1 : TER
  preflight2 : TER
  preclaim : TER

def firstFailure : List TER → TER
  | [] => .tesSUCCESS
  | .tesSUCCESS :: rest => firstFailure rest
  | ter :: _ => ter

def check (bad : Bool) (ter : TER) : TER := if bad then ter else .tesSUCCESS

def preclaimResult (checks : Checks) (preflight : TER) (preclaim : TER) (base : Ledger A K) : TER :=
  firstFailure [preflight, checkSeqProxy idx env.info.rules base tx, checks.preclaim, preclaim]

/-- The work of a transaction type that erases no offers. What it did up to a failure is discarded. -/
def work (f : Ledger A K → Except Failure (Ledger A K)) (size : Nat) : DoApply A K := fun view =>
  match f view with
  | .ok view => .ok (.tesSUCCESS, { view, size })
  | .error e => e.result.map fun ter => (ter, { view, size })

end Transactor

def badAmount (amount : STAmount) : Bool := !amount.isNative || amount.xrp ≤ 0

def depositRefused (env : Env A K) (view : Ledger A K) (sled : AccountRoot) (dst txAccount : A) : Bool :=
  env.info.rules.depositAuth && sled.depositAuth && txAccount ≠ dst &&
    !view.depositPreauths.contains (dst, txAccount)

structure Application (A K T : Type) [LinearOrder A] [LinearOrder K] where
  env : Env A K
  checks : Transactor.Checks
  size : Nat
  tx : T

end Rippled.Tx
