import Rippled.Ledger.DirectoryClear
import Rippled.Tx.Balances
import Rippled.Tx.SignerList

namespace Rippled.Tx

open Lib Directory Transactor

variable {A K : Type} [LinearOrder A] [LinearOrder K]

structure KeyRules where
  fixMasterKeyAsRegularKey : Bool
  multiSignReserve : Bool
  requireFullyCanonicalSig : Bool

structure Signature (A : Type) where
  signingPubKey : Blob
  txnSignature : Option Blob := none
  signers : Option (List (Signer A)) := none
  fullyCanonicalSig : Bool := true
  signingData : Blob := []
  multiSigningData : A → Blob := fun _ => []

def Signature.signedTx (sig : Signature A) (account : A) : SignedTx A :=
  { account, signers := sig.signers, txnSignature := sig.txnSignature
    fullyCanonicalSig := sig.fullyCanonicalSig, multiSigningData := sig.multiSigningData }

section Signing

variable (crypto : Crypto A)

namespace STTx

def checkSingleSign (requireCanonicalSig : Bool) (sig : Signature A) : Bool × String :=
  if sig.signers.isSome then (false, "Cannot both single- and multi-sign.")
  else
    let fullyCanonical := sig.fullyCanonicalSig || requireCanonicalSig
    let validSig := if crypto.publicKeyType sig.signingPubKey then
        match crypto.verify sig.signingPubKey sig.signingData (sig.txnSignature.getD []) fullyCanonical with
        | .ok valid => valid
        | .error _ => false
      else false
    if validSig then (true, "") else (false, "Invalid signature.")

/-- Whether a transaction is single- or multi-signed is decided by its public key. -/
def checkSign [OrderBot A] (requireCanonicalSig : Bool) (account : A) (sig : Signature A) : Bool × String :=
  if sig.signingPubKey.isEmpty then checkMultiSign crypto requireCanonicalSig (sig.signedTx account)
  else checkSingleSign crypto requireCanonicalSig sig

end STTx

namespace Transactor

variable (rules : KeyRules) (view : SigningLedger A K) (account : A)

def checkSingleSign (pkSigner : Blob) : TER :=
  if !crypto.publicKeyType pkSigner then .tef .tefBAD_AUTH
  else
    let idSigner := crypto.calcAccountID pkSigner
    match view.keysOf account with
    | none => .ter .terNO_ACCOUNT
    | some keys =>
      if rules.fixMasterKeyAsRegularKey then
        if keys.regularKey = some idSigner then .tesSUCCESS
        else if !keys.disableMaster ∧ account = idSigner then .tesSUCCESS
        else if keys.disableMaster ∧ account = idSigner then .tef .tefMASTER_DISABLED
        else .tef .tefBAD_AUTH
      else if idSigner = account then
        if keys.disableMaster then .tef .tefMASTER_DISABLED else .tesSUCCESS
      else if keys.regularKey = some idSigner then .tesSUCCESS
      else if keys.regularKey.isSome then .tef .tefBAD_AUTH
      else .tef .tefBAD_AUTH_MASTER

/-- Where the source reads past a signer list, the check is taken to pass. -/
def checkSign (sig : Signature A) : TER :=
  if sig.signingPubKey.isEmpty then (checkMultiSign crypto view (sig.signedTx account)).getD .tesSUCCESS
  else checkSingleSign crypto rules view account sig.signingPubKey

end Transactor

end Signing

/-- What an account root holds besides keys, balance and counts. -/
structure Settings where
  requireAuth : Bool := false
  defaultRipple : Bool := false
  noFreeze : Bool := false
  globalFreeze : Bool := false
  accountTxnID : Bool := false
  emailHash : Option Nat := none
  walletLocator : Option Nat := none
  messageKey : Option Blob := none
  domain : Option Blob := none
  transferRate : Option Nat := none
  tickSize : Option Nat := none
deriving DecidableEq

structure KeyLedger (A K : Type) [LinearOrder A] [LinearOrder K] extends SigningLedger A K where
  settings : OrdMap A Settings := OrdMap.empty

section SetRegularKey

structure SetRegularKey (A : Type) extends Common A where
  invalidFlags : Bool := false
  regularKey : Option A

namespace SetRegularKey

def preflight (rules : KeyRules) (checks : Checks) (tx : SetRegularKey A) : TER :=
  firstFailure [
    checks.preflight1,
    check tx.invalidFlags (.tem .temINVALID_FLAG),
    check (rules.fixMasterKeyAsRegularKey && tx.regularKey = some tx.account) (.tem .temBAD_REGKEY),
    checks.preflight2]

def doApply (tx : SetRegularKey A) (view : KeyLedger A K) : Except Failure (KeyLedger A K) :=
  match view.keysOf tx.account with
  | none => .error (.tef .tefINTERNAL)
  | some keys =>
    match tx.regularKey with
    | some key => .ok { view with keys := view.keys.insert tx.account { keys with regularKey := some key } }
    | none =>
      if keys.disableMaster ∧ (view.signerLists.find? tx.account).isNone then
        .error (.tec .tecNO_ALTERNATIVE_KEY)
      else .ok { view with keys := view.keys.insert tx.account { keys with regularKey := none } }

end SetRegularKey

end SetRegularKey

section SetAccount

def asfRequireDest : Nat := 1

def asfRequireAuth : Nat := 2

def asfDisallowXRP : Nat := 3

def asfDisableMaster : Nat := 4

def asfAccountTxnID : Nat := 5

def asfNoFreeze : Nat := 6

def asfGlobalFreeze : Nat := 7

def asfDefaultRipple : Nat := 8

def asfDepositAuth : Nat := 9

def qualityOne : Nat := 1000000000

def minTickSize : Nat := 3

def maxTickSize : Nat := 16

def domainBytesMax : Nat := 256

structure SetAccount (A : Type) extends Common A where
  invalidFlags : Bool := false
  tfRequireDestTag : Bool := false
  tfOptionalDestTag : Bool := false
  tfRequireAuth : Bool := false
  tfOptionalAuth : Bool := false
  tfDisallowXRP : Bool := false
  tfAllowXRP : Bool := false
  setFlag : Nat := 0
  clearFlag : Nat := 0
  emailHash : Option Nat := none
  walletLocator : Option Nat := none
  messageKey : Option Blob := none
  domain : Option Blob := none
  transferRate : Option Nat := none
  tickSize : Option Nat := none

namespace SetAccount

variable (tx : SetAccount A)

def setsRequireAuth : Bool := tx.tfRequireAuth || tx.setFlag = asfRequireAuth

def clearsRequireAuth : Bool := tx.tfOptionalAuth || tx.clearFlag = asfRequireAuth

def setsRequireDest : Bool := tx.tfRequireDestTag || tx.setFlag = asfRequireDest

def clearsRequireDest : Bool := tx.tfOptionalDestTag || tx.clearFlag = asfRequireDest

def setsDisallowXRP : Bool := tx.tfDisallowXRP || tx.setFlag = asfDisallowXRP

def clearsDisallowXRP : Bool := tx.tfAllowXRP || tx.clearFlag = asfDisallowXRP

variable (crypto : Crypto A)

def preflight (checks : Checks) : TER :=
  firstFailure [
    checks.preflight1,
    check tx.invalidFlags (.tem .temINVALID_FLAG),
    check (tx.setFlag ≠ 0 && tx.setFlag = tx.clearFlag) (.tem .temINVALID_FLAG),
    check (tx.setsRequireAuth && tx.clearsRequireAuth) (.tem .temINVALID_FLAG),
    check (tx.setsRequireDest && tx.clearsRequireDest) (.tem .temINVALID_FLAG),
    check (tx.setsDisallowXRP && tx.clearsDisallowXRP) (.tem .temINVALID_FLAG),
    check (tx.transferRate.any fun rate => rate ≠ 0 && rate < qualityOne) (.tem .temBAD_TRANSFER_RATE),
    check (tx.transferRate.any fun rate => rate > 2 * qualityOne) (.tem .temBAD_TRANSFER_RATE),
    check (tx.tickSize.any fun size => size ≠ 0 && (size < minTickSize || size > maxTickSize))
      (.tem .temBAD_TICK_SIZE),
    check (tx.messageKey.any fun key => !key.isEmpty && !crypto.publicKeyType key)
      (.tel .telBAD_PUBLIC_KEY),
    check (tx.domain.any fun domain => domain.length > domainBytesMax) (.tel .telBAD_DOMAIN),
    checks.preflight2]

variable (env : Env A K)

def preclaim (view : KeyLedger A K) : TER :=
  if (view.ledger.accounts.find? tx.account).isNone then .ter .terNO_ACCOUNT
  else
    let settings := (view.settings.find? tx.account).getD {}
    if tx.setsRequireAuth && !settings.requireAuth && !dirIsEmpty (view.ledger.ownerDir tx.account) then
      if env.tapRETRY then .ter .terOWNERS else .tec .tecOWNERS
    else .tesSUCCESS

def toggle (set clear flagIn : Bool) : Bool :=
  let flagOut := if set && !flagIn then true else flagIn
  if clear && flagIn then false else flagOut

/-- A field the transaction has is set, or removed if it has the default value. -/
def assign {T : Type} (field : Option T) (isDefault : T → Bool) (current : Option T) : Option T :=
  match field with
  | none => current
  | some value => if isDefault value then none else some value

variable (sig : Signature A)

def sigWithMaster : Bool :=
  crypto.publicKeyType sig.signingPubKey && crypto.calcAccountID sig.signingPubKey = tx.account

/-- The flag that disables the master key, unless it is not allowed to be set. -/
def disableMasterOut (sigWithMaster hasSigners : Bool) (keys : Keys A) : Except Failure Bool :=
  if tx.setFlag = asfDisableMaster ∧ keys.disableMaster = false then
    if !sigWithMaster then .error (.tec .tecNEED_MASTER_KEY)
    else if keys.regularKey.isNone ∧ !hasSigners then .error (.tec .tecNO_ALTERNATIVE_KEY)
    else .ok true
  else if tx.clearFlag = asfDisableMaster ∧ keys.disableMaster then .ok false
  else .ok keys.disableMaster

def settingsOut (settings : Settings) : Settings :=
  let noFreeze := settings.noFreeze || tx.setFlag = asfNoFreeze
  { requireAuth := toggle tx.setsRequireAuth tx.clearsRequireAuth settings.requireAuth
    defaultRipple := if tx.setFlag = asfDefaultRipple then true
      else if tx.clearFlag = asfDefaultRipple then false else settings.defaultRipple
    noFreeze
    globalFreeze := if tx.setFlag = asfGlobalFreeze then true
      else if tx.clearFlag = asfGlobalFreeze ∧ noFreeze = false then false else settings.globalFreeze
    accountTxnID := if tx.setFlag = asfAccountTxnID then true
      else if tx.clearFlag = asfAccountTxnID then false else settings.accountTxnID
    emailHash := assign tx.emailHash (· = 0) settings.emailHash
    walletLocator := assign tx.walletLocator (· = 0) settings.walletLocator
    messageKey := assign tx.messageKey List.isEmpty settings.messageKey
    domain := assign tx.domain List.isEmpty settings.domain
    transferRate := assign tx.transferRate (fun rate => rate = 0 || rate = qualityOne) settings.transferRate
    tickSize := assign tx.tickSize (fun size => size = 0 || size = maxTickSize) settings.tickSize }

def rootOut (root : AccountRoot) : AccountRoot :=
  { root with
    requireDestTag := toggle tx.setsRequireDest tx.clearsRequireDest root.requireDestTag
    disallowXRP := toggle tx.setsDisallowXRP tx.clearsDisallowXRP root.disallowXRP
    depositAuth := if env.info.rules.depositAuth then
        if tx.setFlag = asfDepositAuth then true
        else if tx.clearFlag = asfDepositAuth then false else root.depositAuth
      else root.depositAuth }

def doApply (view : KeyLedger A K) : Except Failure (KeyLedger A K) :=
  match view.keysOf tx.account with
  | none => .error (.tef .tefINTERNAL)
  | some keys => do
    let hasSigners := (view.signerLists.find? tx.account).isSome
    let disableMaster ← tx.disableMasterOut (tx.sigWithMaster crypto sig) hasSigners keys
    if tx.setFlag = asfNoFreeze ∧ tx.sigWithMaster crypto sig = false ∧ keys.disableMaster = false then
      .error (.tec .tecNEED_MASTER_KEY)
    else
      let settings := (view.settings.find? tx.account).getD {}
      .ok { view with
        ledger := view.ledger.modifyAccount tx.account (tx.rootOut env)
        keys := view.keys.insert tx.account { keys with disableMaster }
        settings := view.settings.insert tx.account (tx.settingsOut settings) }

end SetAccount

end SetAccount

section KeyTx

inductive KeyTx (A : Type)
  | accountSet (tx : SetAccount A)
  | setRegularKey (tx : SetRegularKey A)
  | signerListSet (tx : SetSignerList A)

structure KeyApplication (A K : Type) [LinearOrder A] [LinearOrder K] extends
    Application A K (KeyTx A) where
  signature : Signature A
  rules : KeyRules

namespace KeyTx

def common : KeyTx A → Common A
  | accountSet tx => tx.toCommon
  | setRegularKey tx => tx.toCommon
  | signerListSet tx => tx.toCommon

variable (crypto : Crypto A) (signersIndex : A → K) (idx : Indexes A K)

/-- The last of the checks before the ledger is looked at includes that of the signature. -/
def checksOf [OrderBot A] (a : KeyApplication A K) : Checks :=
  let sigGood := (STTx.checkSign crypto a.rules.requireFullyCanonicalSig a.tx.common.account a.signature).1
  { a.checks with preflight2 := firstFailure [check (!sigGood) (.tem .temINVALID), a.checks.preflight2] }

def preflight [OrderBot A] (a : KeyApplication A K) : TER :=
  match a.tx with
  | accountSet tx => tx.preflight crypto (checksOf crypto a)
  | setRegularKey tx => tx.preflight a.rules (checksOf crypto a)
  | signerListSet tx => tx.preflight (checksOf crypto a)

def preclaim (a : KeyApplication A K) (view : KeyLedger A K) : TER :=
  match a.tx with
  | accountSet tx => tx.preclaim a.env view
  | setRegularKey _ => .tesSUCCESS
  | signerListSet _ => .tesSUCCESS

def doApply (a : KeyApplication A K) (view : KeyLedger A K) : Except Failure (KeyLedger A K) :=
  match a.tx with
  | accountSet tx => tx.doApply crypto a.env a.signature view
  | setRegularKey tx => tx.doApply view
  | signerListSet tx =>
    (tx.doApply signersIndex a.env.info.fees a.rules.multiSignReserve view.toSigningLedger).map fun signing =>
      { view with toSigningLedger := signing }

def preResult [OrderBot A] (a : KeyApplication A K) (view : KeyLedger A K) : TER :=
  preclaimResult a.env idx a.tx.common a.checks (preflight crypto a)
    (firstFailure [checkSign crypto a.rules view.toSigningLedger a.tx.common.account a.signature,
      preclaim a view]) view.ledger

def outcome [OrderBot A] (a : KeyApplication A K) (view : KeyLedger A K) : Outcome A K :=
  applyTransaction a.env idx a.tx.common (preResult crypto idx a view)
    (work (fun ledger => (doApply crypto signersIndex a { view with ledger }).map fun view => view.ledger)
      a.size) view.ledger

def worked (a : KeyApplication A K) (view : KeyLedger A K) : Except Failure (KeyLedger A K) := do
  let ledger ← consumeSeqProxy idx a.tx.common view.ledger
  doApply crypto signersIndex a { view with ledger := payFee a.tx.common ledger }

/-- Apply a transaction. What it did to keys, lists and settings stays if it succeeded. -/
def apply [OrderBot A] (a : KeyApplication A K) (view : KeyLedger A K) : KeyLedger A K :=
  let o := outcome crypto signersIndex idx a view
  match o.success, worked crypto signersIndex idx a view with
  | true, .ok view' => { view' with ledger := o.ledger }
  | _, _ => { view with ledger := o.ledger }

end KeyTx

end KeyTx

end Rippled.Tx
