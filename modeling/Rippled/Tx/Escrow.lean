import Rippled.Tx.Transactor

namespace Rippled.Tx

open Lib Transactor

variable {A K H : Type} [LinearOrder A] [LinearOrder K] [DecidableEq H]

section Conditions

inductive ConditionType
  | preimageSha256
  | prefixSha256
  | thresholdSha256
  | rsaSha256
  | ed25519Sha256
deriving DecidableEq

structure Condition where
  type : ConditionType
  fingerprint : Blob
  cost : Nat
  subtypes : List ConditionType := []
deriving DecidableEq

/-- The only fulfillments that are supported: preimages of a hash. -/
structure Fulfillment where
  payload : Blob
deriving DecidableEq

/-- The encodings of conditions and fulfillments, and the hash they are based on. -/
structure CryptoConditions where
  deserializeCondition : Blob → Option Condition
  deserializeFulfillment : Blob → Option Fulfillment
  sha256 : Blob → Blob

variable (conds : CryptoConditions)

def Fulfillment.type (_ : Fulfillment) : ConditionType := .preimageSha256

section

variable (f : Fulfillment)

def Fulfillment.condition : Condition :=
  { type := f.type, cost := f.payload.length, fingerprint := conds.sha256 f.payload }

variable (c : Condition)

def Fulfillment.matches : Bool :=
  f.type = c.type && c = f.condition conds

def Fulfillment.validates (_ : Fulfillment) (_message : Blob) : Bool := true

def Fulfillment.validate : Bool := f.matches conds c && f.validates []

end

def checkCondition (f c : Blob) : Bool :=
  match conds.deserializeCondition c with
  | none => false
  | some condition =>
    match conds.deserializeFulfillment f with
    | none => false
    | some fulfillment => fulfillment.validate conds condition

end Conditions

section Router

structure CFFlags where
  invalid : Bool := false
  valid : Bool := false

def CFFlags.known (flags : CFFlags) : Bool := flags.invalid || flags.valid

def CFFlags.of (valid : Bool) : CFFlags := { invalid := !valid, valid }

abbrev HashRouter (H : Type) := H → CFFlags

def HashRouter.setFlags (router : HashRouter H) (id : H) (flags : CFFlags) : HashRouter H := fun i =>
  if i = id then { invalid := (router i).invalid || flags.invalid, valid := (router i).valid || flags.valid }
  else router i

end Router

def after (now mark : Nat) : Bool := now > mark

structure EscrowCreate (A : Type) extends Common A where
  /-- Whether flags are set that no transaction knows. -/
  invalidFlags : Bool := false
  destination : A
  amount : STAmount
  condition : Option Blob := none
  cancelAfter : Option Nat := none
  finishAfter : Option Nat := none
  destinationTag : Option Nat := none

structure EscrowFinish (A : Type) extends Common A where
  invalidFlags : Bool := false
  owner : A
  offerSequence : Nat
  condition : Option Blob := none
  fulfillment : Option Blob := none

structure EscrowCancel (A : Type) extends Common A where
  invalidFlags : Bool := false
  owner : A
  offerSequence : Nat

def leaveDirectories (view : Ledger A K) (key : K) (slep : Escrow A) : Except Failure (Ledger A K) := do
  let view ← view.ownerDirRemove slep.account slep.ownerNode key true
  match slep.destinationNode with
  | none => .ok view
  | some page => view.ownerDirRemove slep.destination page key true

variable {conds : CryptoConditions} {getTransactionID : EscrowFinish A → H} {env : Env A K}
  {idx : Indexes A K}

section Create

variable (conds env idx) (tx : EscrowCreate A)

def EscrowCreate.checkType : TER :=
  match tx.condition with
  | none => .tesSUCCESS
  | some cb =>
    match conds.deserializeCondition cb with
    | none => .tem .temMALFORMED
    | some condition =>
      check (condition.type ≠ .preimageSha256 ∧ !env.info.rules.cryptoConditionsSuite) (.tem .temDISABLED)

def EscrowCreate.preflight (checks : Checks) : TER :=
  firstFailure [
    check (env.info.rules.fix1543 && tx.invalidFlags) (.tem .temINVALID_FLAG),
    checks.preflight1,
    check (badAmount tx.amount) (.tem .temBAD_AMOUNT),
    check (tx.cancelAfter.isNone && tx.finishAfter.isNone) (.tem .temBAD_EXPIRATION),
    check (tx.cancelAfter.any fun cancel => tx.finishAfter.any fun finish => cancel ≤ finish)
      (.tem .temBAD_EXPIRATION),
    check (env.info.rules.fix1571 && tx.finishAfter.isNone && tx.condition.isNone) (.tem .temMALFORMED),
    tx.checkType conds env,
    checks.preflight2]

/-- Prior to fix1571 the times had to be strictly greater than the close time. -/
def EscrowCreate.isLate : Bool :=
  if env.info.rules.fix1571 then
    tx.cancelAfter.any (after env.info.parentCloseTime) || tx.finishAfter.any (after env.info.parentCloseTime)
  else
    tx.cancelAfter.any (env.info.parentCloseTime ≥ ·) || tx.finishAfter.any (env.info.parentCloseTime ≥ ·)

def EscrowCreate.joinDestination (view : Ledger A K) (key : K) :
    Except Failure (Option Nat × Ledger A K) :=
  if tx.destination ≠ tx.account then
    (view.ownerDirAdd tx.destination key).map fun r => (some r.1, r.2)
  else .ok (none, view)

def EscrowCreate.insert (view : Ledger A K) : Except Failure (Ledger A K) :=
  let key := idx.escrow tx.account tx.getSeqProxy.value
  match view.escrows.find? key with
  | some _ => .error (.exception "key already exists")
  | none => do
    let (ownerNode, view) ← view.ownerDirAdd tx.account key
    let (destinationNode, view) ← tx.joinDestination view key
    let view := view.modifyAccount tx.account fun sle =>
      (sle.credit (-tx.amount.xrp)).adjustOwnerCount 1
    .ok { view with
      escrows := view.escrows.insert key
        { account := tx.account, destination := tx.destination, amount := tx.amount.xrp
          condition := tx.condition, cancelAfter := tx.cancelAfter, finishAfter := tx.finishAfter
          ownerNode, destinationNode } }

def EscrowCreate.doApply (view : Ledger A K) : Except Failure (Ledger A K) :=
  if tx.isLate env then .error (.tec .tecNO_PERMISSION)
  else
    match view.accounts.find? tx.account with
    | none => .error (.tef .tefINTERNAL)
    | some sle =>
      let reserve := env.info.fees.accountReserve (add32 sle.ownerCount 1)
      if sle.balance < reserve then .error (.tec .tecINSUFFICIENT_RESERVE)
      else if sle.balance < reserve + tx.amount.xrp then .error (.tec .tecUNFUNDED)
      else
        match view.accounts.find? tx.destination with
        | none => .error (.tec .tecNO_DST)
        | some sled =>
          if sled.requireDestTag ∧ tx.destinationTag.isNone then .error (.tec .tecDST_TAG_NEEDED)
          else if !env.info.rules.depositAuth ∧ sled.disallowXRP then .error (.tec .tecNO_TARGET)
          else tx.insert idx view

end Create

section Finish

variable (conds getTransactionID env idx) (tx : EscrowFinish A)

def EscrowFinish.preflight (checks : Checks) : TER :=
  firstFailure [
    check (env.info.rules.fix1543 && tx.invalidFlags) (.tem .temINVALID_FLAG),
    checks.preflight1,
    check (tx.condition.isSome ≠ tx.fulfillment.isSome) (.tem .temMALFORMED),
    checks.preflight2]

def EscrowFinish.checkFlags (router : HashRouter H) : HashRouter H :=
  match tx.condition, tx.fulfillment with
  | some cb, some fb =>
    if (router (getTransactionID tx)).known then router
    else router.setFlags (getTransactionID tx) (.of (checkCondition conds fb cb))
  | _, _ => router

/-- Prior to fix1571 a finish only succeeded strictly after the cancel time. -/
def EscrowFinish.isBarred (slep : Escrow A) : Bool :=
  if env.info.rules.fix1571 then
    slep.finishAfter.any (fun mark => !after env.info.parentCloseTime mark) ||
      slep.cancelAfter.any (after env.info.parentCloseTime)
  else
    slep.finishAfter.any (env.info.parentCloseTime ≤ ·) || slep.cancelAfter.any (env.info.parentCloseTime ≤ ·)

/-- What is known of the condition. If the results have expired from the hash router the check is run
again. -/
def EscrowFinish.flags (router : HashRouter H) : Except Failure CFFlags :=
  let flags := router (getTransactionID tx)
  match tx.condition with
  | none => .ok flags
  | some cb =>
    if flags.known then .ok flags
    else
      match tx.fulfillment with
      | none => .error (.tec .tecINTERNAL)
      | some fb => .ok (.of (checkCondition conds fb cb))

variable (router : HashRouter H)

/-- Check the presented condition, and compare it with that of the entry. -/
def EscrowFinish.refused (slep : Escrow A) : Except Failure Unit := do
  let flags ← tx.flags conds getTransactionID router
  if flags.invalid then .error (.tec .tecCRYPTOCONDITION_ERROR)
  else if slep.condition.isNone ∧ tx.condition.isSome then .error (.tec .tecCRYPTOCONDITION_ERROR)
  else if slep.condition.isSome ∧ slep.condition ≠ tx.condition then
    .error (.tec .tecCRYPTOCONDITION_ERROR)
  else .ok ()

variable (view : Ledger A K)

/-- Pay the destination. An owner without account would stop the server. -/
def EscrowFinish.pay (key : K) (slep : Escrow A) : Except Failure (Ledger A K) := do
  let view ← leaveDirectories view key slep
  let view := view.modifyAccount slep.destination (AccountRoot.credit slep.amount)
  match view.accounts.find? slep.account with
  | none => .error (.exception "no account")
  | some _ =>
    let view := view.modifyAccount slep.account (AccountRoot.adjustOwnerCount (-1))
    .ok { view with escrows := view.escrows.erase key }

def EscrowFinish.doApply : Except Failure (Ledger A K) :=
  let k := idx.escrow tx.owner tx.offerSequence
  match view.escrows.find? k with
  | none => .error (.tec .tecNO_TARGET)
  | some slep =>
    if isBarred env slep then .error (.tec .tecNO_PERMISSION)
    else do
      tx.refused conds getTransactionID router slep
      match view.accounts.find? slep.destination with
      | none => .error (.tec .tecNO_DST)
      | some sled =>
        if depositRefused env view sled slep.destination tx.account then .error (.tec .tecNO_PERMISSION)
        else pay view k slep

end Finish

section Cancel

variable (env idx) (tx : EscrowCancel A)

def EscrowCancel.preflight (checks : Checks) : TER :=
  firstFailure [
    check (env.info.rules.fix1543 && tx.invalidFlags) (.tem .temINVALID_FLAG),
    checks.preflight1,
    checks.preflight2]

/-- Without a cancel time there is no cancelling. The amendment fix1571 changes nothing here. -/
def EscrowCancel.isBarred (slep : Escrow A) : Bool :=
  if env.info.rules.fix1571 then
    slep.cancelAfter.isNone || slep.cancelAfter.any (fun mark => !after env.info.parentCloseTime mark)
  else slep.cancelAfter.isNone || slep.cancelAfter.any (env.info.parentCloseTime ≤ ·)

variable (view : Ledger A K)

/-- Pay the owner back. An owner without account would stop the server. -/
def EscrowCancel.pay (key : K) (slep : Escrow A) : Except Failure (Ledger A K) := do
  let view ← leaveDirectories view key slep
  match view.accounts.find? slep.account with
  | none => .error (.exception "no account")
  | some _ =>
    let view := view.modifyAccount slep.account fun sle =>
      (sle.credit slep.amount).adjustOwnerCount (-1)
    .ok { view with escrows := view.escrows.erase key }

def EscrowCancel.doApply : Except Failure (Ledger A K) :=
  let k := idx.escrow tx.owner tx.offerSequence
  match view.escrows.find? k with
  | none => .error (.tec .tecNO_TARGET)
  | some slep =>
    if isBarred env slep then .error (.tec .tecNO_PERMISSION)
    else pay view k slep

end Cancel

inductive EscrowTx (A : Type)
  | create (tx : EscrowCreate A)
  | finish (tx : EscrowFinish A)
  | cancel (tx : EscrowCancel A)

namespace EscrowTx

variable (conds getTransactionID idx)

def common : EscrowTx A → Common A
  | create tx => tx.toCommon
  | finish tx => tx.toCommon
  | cancel tx => tx.toCommon

def escrow : EscrowTx A → K
  | create tx => idx.escrow tx.account tx.getSeqProxy.value
  | finish tx => idx.escrow tx.owner tx.offerSequence
  | cancel tx => idx.escrow tx.owner tx.offerSequence

def preflight (env : Env A K) (checks : Checks) : EscrowTx A → TER
  | create tx => tx.preflight conds env checks
  | finish tx => tx.preflight env checks
  | cancel tx => tx.preflight env checks

def doApply (env : Env A K) (router : HashRouter H) :
    EscrowTx A → Ledger A K → Except Failure (Ledger A K)
  | create tx => tx.doApply env idx
  | finish tx => tx.doApply conds getTransactionID env idx router
  | cancel tx => tx.doApply env idx

def apply (router : HashRouter H) (a : Application A K (EscrowTx A)) (base : Ledger A K) : Outcome A K :=
  applyTransaction a.env idx a.tx.common
    (preclaimResult a.env idx a.tx.common a.checks (a.tx.preflight conds a.env a.checks) .tesSUCCESS base)
    (work (a.tx.doApply conds getTransactionID idx a.env router) a.size) base

end EscrowTx

end Rippled.Tx
