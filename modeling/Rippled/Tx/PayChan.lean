import Rippled.Tx.Transactor

namespace Rippled.Tx

open Lib Transactor

variable {A K : Type} [LinearOrder A] [LinearOrder K]

/-- Signatures, and the message by which a channel's key authorizes a claim. -/
structure Signatures (K : Type) where
  publicKeyType : Blob → Bool
  verify : Blob → Blob → Blob → Bool
  serializePayChanAuthorization : K → Int → Blob

structure PayChanCreate (A : Type) extends Common A where
  /-- Whether flags are set that no transaction knows. -/
  invalidFlags : Bool := false
  destination : A
  amount : STAmount
  settleDelay : Nat
  publicKey : Blob
  cancelAfter : Option Nat := none
  destinationTag : Option Nat := none

structure PayChanFund (A K : Type) extends Common A where
  invalidFlags : Bool := false
  channel : K
  amount : STAmount
  expiration : Option Nat := none

structure PayChanClaim (A K : Type) extends Common A where
  invalidFlags : Bool := false
  tfRenew : Bool := false
  tfClose : Bool := false
  channel : K
  balance : Option STAmount := none
  amount : Option STAmount := none
  signature : Option Blob := none
  publicKey : Option Blob := none

section Channel

/-- Remove a channel from the directories and the ledger, and return to its owner what it did not
pay. -/
def closeChannel (rules : Rules) (view : Ledger A K) (key : K) (slep : PayChan A) :
    Except Failure (Ledger A K) := do
  let view ← view.ownerDirRemove slep.account slep.ownerNode key true
  let view ← leaveDestination rules view key slep
  match view.accounts.find? slep.account with
  | none => .error (.tef .tefINTERNAL)
  | some _ =>
    let view := view.modifyAccount slep.account fun sle =>
      (sle.credit (slep.amount - slep.balance)).adjustOwnerCount (-1)
    .ok { view with payChans := view.payChans.erase key }
where
  /-- Remove the channel from the recipient's directory, if present. -/
  leaveDestination (rules : Rules) (view : Ledger A K) (key : K) (slep : PayChan A) :
      Except Failure (Ledger A K) :=
    match slep.destinationNode with
    | none => .ok view
    | some page =>
      if rules.fixPayChanRecipientOwnerDir then
        view.ownerDirRemove slep.destination page key true
      else .ok view

/-- Any transaction that touches a channel closes it from one of these times on. -/
def PayChan.isExpired (slep : PayChan A) (closeTime : Nat) : Bool :=
  slep.cancelAfter.any (· ≤ closeTime) || slep.expiration.any (· ≤ closeTime)

end Channel

variable {sigs : Signatures K} {env : Env A K} {idx : Indexes A K}

section Create

variable (sigs env idx) (tx : PayChanCreate A)

def PayChanCreate.preflight (checks : Checks) : TER :=
  firstFailure [
    check (env.info.rules.fix1543 && tx.invalidFlags) (.tem .temINVALID_FLAG),
    checks.preflight1,
    check (badAmount tx.amount) (.tem .temBAD_AMOUNT),
    check (tx.account = tx.destination) (.tem .temDST_IS_SRC),
    check (!sigs.publicKeyType tx.publicKey) (.tem .temMALFORMED),
    checks.preflight2]

def PayChanCreate.preclaim (base : Ledger A K) : TER :=
  match base.accounts.find? tx.account with
  | none => .ter .terNO_ACCOUNT
  | some sle =>
    let reserve := env.info.fees.accountReserve (add32 sle.ownerCount 1)
    if sle.balance < reserve then .tec .tecINSUFFICIENT_RESERVE
    else if sle.balance < reserve + tx.amount.xrp then .tec .tecUNFUNDED
    else
      match base.accounts.find? tx.destination with
      | none => .tec .tecNO_DST
      | some sled =>
        if sled.requireDestTag ∧ tx.destinationTag.isNone then .tec .tecDST_TAG_NEEDED
        else if !env.info.rules.depositAuth ∧ sled.disallowXRP then .tec .tecNO_TARGET
        else .tesSUCCESS

def joinDestination (rules : Rules) (view : Ledger A K) (dst : A) (key : K) :
    Except Failure (Option Nat × Ledger A K) :=
  if rules.fixPayChanRecipientOwnerDir then
    (view.ownerDirAdd dst key).map fun r => (some r.1, r.2)
  else .ok (none, view)

def PayChanCreate.doApply (view : Ledger A K) : Except Failure (Ledger A K) :=
  match view.accounts.find? tx.account with
  | none => .error (.tef .tefINTERNAL)
  | some _ =>
    let key := idx.payChan tx.account tx.destination tx.getSeqProxy.value
    match view.payChans.find? key with
    | some _ => .error (.exception "key already exists")
    | none => do
      let (ownerNode, view) ← view.ownerDirAdd tx.account key
      let (destinationNode, view) ← joinDestination env.info.rules view tx.destination key
      let view := view.modifyAccount tx.account fun sle =>
        (sle.credit (-tx.amount.xrp)).adjustOwnerCount 1
      .ok { view with
        payChans := view.payChans.insert key
          { account := tx.account, destination := tx.destination, amount := tx.amount.xrp, balance := 0
            settleDelay := tx.settleDelay, publicKey := tx.publicKey, cancelAfter := tx.cancelAfter
            ownerNode, destinationNode } }

end Create

section Fund

variable (env) (tx : PayChanFund A K)

def PayChanFund.preflight (checks : Checks) : TER :=
  firstFailure [
    check (env.info.rules.fix1543 && tx.invalidFlags) (.tem .temINVALID_FLAG),
    checks.preflight1,
    check (badAmount tx.amount) (.tem .temBAD_AMOUNT),
    checks.preflight2]

/-- The earliest expiration the owner may set: the settle delay from now, or what is set already. -/
def minExpiration (closeTime : Nat) (slep : PayChan A) : Nat :=
  let earliest := add32 closeTime slep.settleDelay
  match slep.expiration with
  | none => earliest
  | some expiration => if expiration < earliest then expiration else earliest

def PayChanFund.extend (slep : PayChan A) : Except Failure (PayChan A) :=
  match tx.expiration with
  | none => .ok slep
  | some extend =>
    if extend < minExpiration env.info.parentCloseTime slep then
      .error (.tem .temBAD_EXPIRATION)
    else .ok { slep with expiration := some extend }

def PayChanFund.doApply (view : Ledger A K) : Except Failure (Ledger A K) :=
  match view.payChans.find? tx.channel with
  | none => .error (.tec .tecNO_ENTRY)
  | some slep =>
    if slep.isExpired env.info.parentCloseTime then closeChannel env.info.rules view tx.channel slep
    else if slep.account ≠ tx.account then .error (.tec .tecNO_PERMISSION)
    else do
      let slep ← tx.extend env slep
      match view.accounts.find? tx.account with
      | none => .error (.tef .tefINTERNAL)
      | some sle =>
        let reserve := env.info.fees.accountReserve sle.ownerCount
        if sle.balance < reserve then .error (.tec .tecINSUFFICIENT_RESERVE)
        else if sle.balance < reserve + tx.amount.xrp then .error (.tec .tecUNFUNDED)
        else if (view.accounts.find? slep.destination).isNone then .error (.tec .tecNO_DST)
        else
          let view := view.modifyAccount tx.account (AccountRoot.credit (-tx.amount.xrp))
          .ok { view with
            payChans := view.payChans.insert tx.channel
              { slep with amount := slep.amount + tx.amount.xrp } }

end Fund

section Claim

variable (sigs env) (tx : PayChanClaim A K)

/-- The signature is for the amount given, or else for the balance. -/
def PayChanClaim.checkSignature : TER :=
  match tx.signature with
  | none => .tesSUCCESS
  | some sig =>
    match tx.publicKey, tx.balance with
    | some pk, some bal =>
      let authAmt := (tx.amount.getD bal).xrp
      if bal.xrp > authAmt then .tem .temBAD_AMOUNT
      else if !sigs.publicKeyType pk then .tem .temMALFORMED
      else if !sigs.verify pk (sigs.serializePayChanAuthorization tx.channel authAmt) sig then
        .tem .temBAD_SIGNATURE
      else .tesSUCCESS
    | _, _ => .tem .temMALFORMED

def PayChanClaim.preflight (checks : Checks) : TER :=
  firstFailure [
    checks.preflight1,
    check (tx.balance.any badAmount) (.tem .temBAD_AMOUNT),
    check (tx.amount.any badAmount) (.tem .temBAD_AMOUNT),
    check (tx.balance.any fun bal => tx.amount.any fun amt => bal.xrp > amt.xrp) (.tem .temBAD_AMOUNT),
    check (env.info.rules.fix1543 && tx.invalidFlags) (.tem .temINVALID_FLAG),
    check (tx.tfClose && tx.tfRenew) (.tem .temMALFORMED),
    tx.checkSignature sigs,
    checks.preflight2]

variable (view : Ledger A K)

def PayChanClaim.pay (slep : PayChan A) : Except Failure (PayChan A × Ledger A K) :=
  match tx.balance with
  | none => .ok (slep, view)
  | some reqBalance =>
    if tx.account = slep.destination ∧ tx.signature.isNone then
      .error (.tem .temBAD_SIGNATURE)
    else if tx.signature.isSome ∧ tx.publicKey ≠ some slep.publicKey then
      .error (.tem .temBAD_SIGNER)
    else if reqBalance.xrp > slep.amount then .error (.tec .tecUNFUNDED_PAYMENT)
    else if reqBalance.xrp ≤ slep.balance then .error (.tec .tecUNFUNDED_PAYMENT)
    else
      match view.accounts.find? slep.destination with
      | none => .error (.tec .tecNO_DST)
      | some sled =>
        if !env.info.rules.depositAuth ∧ tx.account = slep.account ∧ sled.disallowXRP then
          .error (.tec .tecNO_TARGET)
        else if depositRefused env view sled slep.destination tx.account then
          .error (.tec .tecNO_PERMISSION)
        else
          .ok ({ slep with balance := reqBalance.xrp }, view.modifyAccount slep.destination
            (AccountRoot.credit (reqBalance.xrp - slep.balance)))

def PayChanClaim.renew (slep : PayChan A) : Except Failure (PayChan A) :=
  if tx.tfRenew then
    if slep.account ≠ tx.account then .error (.tec .tecNO_PERMISSION)
    else .ok { slep with expiration := none }
  else .ok slep

/-- A request to close takes effect at once if there is nothing to wait for, and else after the
settle delay. -/
def PayChanClaim.close (curExpiration : Option Nat) (slep : PayChan A) :
    Except Failure (Ledger A K) :=
  if tx.tfClose then
    if slep.destination = tx.account ∨ slep.balance = slep.amount then
      closeChannel env.info.rules view tx.channel slep
    else
      let settleExpiration := add32 env.info.parentCloseTime slep.settleDelay
      let slep := if curExpiration.all (· > settleExpiration) then
        { slep with expiration := some settleExpiration } else slep
      .ok { view with payChans := view.payChans.insert tx.channel slep }
  else .ok { view with payChans := view.payChans.insert tx.channel slep }

def PayChanClaim.doApply : Except Failure (Ledger A K) :=
  match view.payChans.find? tx.channel with
  | none => .error (.tec .tecNO_TARGET)
  | some slep =>
    if slep.isExpired env.info.parentCloseTime then closeChannel env.info.rules view tx.channel slep
    else if tx.account ≠ slep.account ∧ tx.account ≠ slep.destination then
      .error (.tec .tecNO_PERMISSION)
    else do
      let curExpiration := slep.expiration
      let (slep, view) ← tx.pay env view slep
      let slep ← tx.renew slep
      tx.close env view curExpiration slep

end Claim

inductive ChannelTx (A K : Type)
  | create (tx : PayChanCreate A)
  | fund (tx : PayChanFund A K)
  | claim (tx : PayChanClaim A K)

namespace ChannelTx

variable (sigs idx)

def common : ChannelTx A K → Common A
  | create tx => tx.toCommon
  | fund tx => tx.toCommon
  | claim tx => tx.toCommon

def channel : ChannelTx A K → K
  | create tx => idx.payChan tx.account tx.destination tx.getSeqProxy.value
  | fund tx => tx.channel
  | claim tx => tx.channel

def preflight (env : Env A K) (checks : Checks) : ChannelTx A K → TER
  | create tx => tx.preflight sigs env checks
  | fund tx => tx.preflight env checks
  | claim tx => tx.preflight sigs env checks

def preclaim (env : Env A K) (base : Ledger A K) : ChannelTx A K → TER
  | create tx => tx.preclaim env base
  | fund _ => .tesSUCCESS
  | claim _ => .tesSUCCESS

def doApply (env : Env A K) : ChannelTx A K → Ledger A K → Except Failure (Ledger A K)
  | create tx => tx.doApply env idx
  | fund tx => tx.doApply env
  | claim tx => tx.doApply env

def apply (a : Application A K (ChannelTx A K)) (base : Ledger A K) : Outcome A K :=
  applyTransaction a.env idx a.tx.common
    (preclaimResult a.env idx a.tx.common a.checks (a.tx.preflight sigs a.env a.checks)
      (a.tx.preclaim a.env base) base)
    (work (a.tx.doApply idx a.env) a.size) base

end ChannelTx

end Rippled.Tx
