import Rippled.Tx.Transactor

namespace Rippled.Tx

open Lib Directory Transactor

variable {A K : Type} [LinearOrder A] [LinearOrder K]

structure SignerEntry (A : Type) where
  account : A
  weight : UInt16
deriving DecidableEq

structure SignerList (A : Type) where
  signerQuorum : UInt32
  signerEntries : List (SignerEntry A)
  /-- Whether the list counts as one owned entry, however long it is. -/
  oneOwnerCount : Bool
  ownerNode : Nat
deriving DecidableEq

structure Keys (A : Type) where
  disableMaster : Bool := false
  regularKey : Option A := none
deriving DecidableEq

structure SigningLedger (A K : Type) [LinearOrder A] [LinearOrder K] where
  ledger : Ledger A K
  keys : OrdMap A (Keys A) := OrdMap.empty
  signerLists : OrdMap A (SignerList A) := OrdMap.empty

def SigningLedger.keysOf (view : SigningLedger A K) (account : A) : Option (Keys A) :=
  (view.ledger.accounts.find? account).map fun _ => (view.keys.find? account).getD {}

def minMultiSigners : Nat := 1

def maxMultiSigners : Nat := 8

section SetSignerList

/-- A member of the array of a transaction, which need not be a signer entry. -/
structure RawEntry (A : Type) where
  isSignerEntry : Bool := true
  entry : SignerEntry A

structure SetSignerList (A : Type) extends Common A where
  signerQuorum : UInt32
  signerEntries : Option (List (RawEntry A))

namespace SetSignerList

inductive Operation
  | unknown
  | set
  | destroy
deriving DecidableEq

def deserialize : List (RawEntry A) → Except TER (List (SignerEntry A))
  | [] => .ok []
  | e :: rest =>
    if e.isSignerEntry then (deserialize rest).map (e.entry :: ·) else .error (.tem .temMALFORMED)

/-- A non-zero quorum means that the list is created or replaced, zero that it is destroyed. -/
def determineOperation (tx : SetSignerList A) : Except TER (List (SignerEntry A) × Operation) :=
  match tx.signerEntries with
  | some entries =>
    if tx.signerQuorum ≠ 0 then
      (deserialize entries).map fun signers =>
        (signers.insertionSort fun a b => a.account ≤ b.account, .set)
    else .ok ([], .unknown)
  | none => .ok ([], if tx.signerQuorum = 0 then .destroy else .unknown)

/-- Whether two neighbours are equal. Entries are compared by their accounts. -/
def adjacentFind : List (SignerEntry A) → Bool
  | a :: b :: rest => a.account = b.account || adjacentFind (b :: rest)
  | _ => false

/-- The weight of all signers, unless one has none or is the account itself. -/
def allSignersWeight (account : A) : List (SignerEntry A) → Except TER Nat
  | [] => .ok 0
  | signer :: rest =>
    if signer.weight ≤ 0 then .error (.tem .temBAD_WEIGHT)
    else if signer.account = account then .error (.tem .temBAD_SIGNER)
    else (allSignersWeight account rest).map (signer.weight.toNat + ·)

def validateQuorumAndSignerEntries (quorum : UInt32) (signers : List (SignerEntry A)) (account : A) :
    TER :=
  if signers.length < minMultiSigners ∨ signers.length > maxMultiSigners then .tem .temMALFORMED
  else if adjacentFind signers then .tem .temBAD_SIGNER
  else
    match allSignersWeight account signers with
    | .error ter => ter
    | .ok weight => if quorum ≤ 0 ∨ weight < quorum.toNat then .tem .temBAD_QUORUM else .tesSUCCESS

def checkOperation (tx : SetSignerList A) : TER :=
  match tx.determineOperation with
  | .error ter => ter
  | .ok (_, .unknown) => .tem .temMALFORMED
  | .ok (signers, .set) => validateQuorumAndSignerEntries tx.signerQuorum signers tx.account
  | .ok (_, .destroy) => .tesSUCCESS

def preflight (checks : Checks) (tx : SetSignerList A) : TER :=
  firstFailure [checks.preflight1, tx.checkOperation, checks.preflight2]

/-- The owner count of a list as it was before `featureMultiSignReserve`. -/
def signerCountBasedOwnerCountDelta (entryCount : Nat) : Nat := 2 + entryCount

variable (signersIndex : A → K) (fees : Fees) (multiSignReserve : Bool)

def removeSignersFromLedger (account : A) (view : SigningLedger A K) :
    Except Failure (SigningLedger A K) :=
  match view.signerLists.find? account with
  | none => .ok view
  | some signers => do
    let removeFromOwnerCount : Int := if signers.oneOwnerCount then -1
      else -signerCountBasedOwnerCountDelta signers.signerEntries.length
    let ledger ← view.ledger.ownerDirRemove account signers.ownerNode (signersIndex account) false
    .ok { view with
      ledger := ledger.modifyAccount account (AccountRoot.adjustOwnerCount removeFromOwnerCount)
      signerLists := view.signerLists.erase account }

variable (tx : SetSignerList A)

def replaceSignerList (signers : List (SignerEntry A)) (view : SigningLedger A K) :
    Except Failure (SigningLedger A K) := do
  let view ← removeSignersFromLedger signersIndex tx.account view
  match view.ledger.accounts.find? tx.account with
  | none => .error (.tef .tefINTERNAL)
  | some sle =>
    let addedOwnerCount := if multiSignReserve then 1 else signerCountBasedOwnerCountDelta signers.length
    let newReserve := fees.accountReserve (add32 sle.ownerCount addedOwnerCount)
    if sle.balance + tx.fee < newReserve then .error (.tec .tecINSUFFICIENT_RESERVE)
    else do
      let (page, ledger) ← view.ledger.ownerDirAdd tx.account (signersIndex tx.account)
      let signerList : SignerList A :=
        { signerQuorum := tx.signerQuorum, signerEntries := signers, oneOwnerCount := multiSignReserve
          ownerNode := page }
      .ok { view with
        ledger := ledger.modifyAccount tx.account (AccountRoot.adjustOwnerCount addedOwnerCount)
        signerLists := view.signerLists.insert tx.account signerList }

/-- The list of an account that has no other way to sign has to stay. -/
def destroySignerList (account : A) (view : SigningLedger A K) : Except Failure (SigningLedger A K) :=
  match view.keysOf account with
  | none => .error (.tef .tefINTERNAL)
  | some keys =>
    if keys.disableMaster ∧ keys.regularKey.isNone then .error (.tec .tecNO_ALTERNATIVE_KEY)
    else removeSignersFromLedger signersIndex account view

def doApply (view : SigningLedger A K) : Except Failure (SigningLedger A K) :=
  match tx.determineOperation with
  | .ok (signers, .set) => tx.replaceSignerList signersIndex fees multiSignReserve signers view
  | .ok (_, .destroy) => destroySignerList signersIndex tx.account view
  | _ => .error (.tem .temMALFORMED)

end SetSignerList

end SetSignerList

section MultiSign

structure Signer (A : Type) where
  account : A
  signingPubKey : Blob
  txnSignature : Blob

structure SignedTx (A : Type) where
  account : A
  signers : Option (List (Signer A))
  txnSignature : Option Blob
  fullyCanonicalSig : Bool
  /-- The data a signer signs. -/
  multiSigningData : A → Blob

/-- The signature scheme. Verification may throw. -/
structure Crypto (A : Type) where
  publicKeyType : Blob → Bool
  calcAccountID : Blob → A
  verify : Blob → Blob → Blob → Bool → Except String Bool
  toBase58 : A → String

variable (crypto : Crypto A)

namespace STTx

def validSig (tx : SignedTx A) (fullyCanonical : Bool) (signer : Signer A) : Bool :=
  if crypto.publicKeyType signer.signingPubKey then
    match crypto.verify signer.signingPubKey (tx.multiSigningData signer.account) signer.txnSignature
      fullyCanonical with
    | .ok valid => valid
    | .error _ => false
  else false

/-- Go through the signers. Each account has to be greater than the last one. -/
def checkSigners (tx : SignedTx A) (fullyCanonical : Bool) (lastAccountID : A) :
    List (Signer A) → Bool × String
  | [] => (true, "")
  | signer :: rest =>
    let accountID := signer.account
    if accountID = tx.account then (false, "Invalid multisigner.")
    else if lastAccountID = accountID then (false, "Duplicate Signers not allowed.")
    else if lastAccountID > accountID then (false, "Unsorted Signers array.")
    else if !validSig crypto tx fullyCanonical signer then
      (false, "Invalid signature on account " ++ crypto.toBase58 accountID ++ ".")
    else checkSigners tx fullyCanonical accountID rest

def checkMultiSign [OrderBot A] (requireCanonicalSig : Bool) (tx : SignedTx A) : Bool × String :=
  match tx.signers with
  | none => (false, "Empty SigningPubKey.")
  | some signers =>
    if tx.txnSignature.isSome then (false, "Cannot both single- and multi-sign.")
    else if signers.length < minMultiSigners ∨ signers.length > maxMultiSigners then
      (false, "Invalid Signers array size.")
    else
      let fullyCanonical := tx.fullyCanonicalSig || requireCanonicalSig
      checkSigners crypto tx fullyCanonical ⊥ signers

end STTx

namespace Transactor

/-- Advance to the first entry that is not below the account. There is no result where the source reads
past the end of the list. -/
def advance (txSignerAcctID : A) : List (SignerEntry A) → Option (Except TER (List (SignerEntry A)))
  | [] => none
  | entry :: rest =>
    if entry.account < txSignerAcctID then
      if rest.isEmpty then some (.error (.tef .tefBAD_SIGNATURE)) else advance txSignerAcctID rest
    else some (.ok (entry :: rest))

def checkKey (view : SigningLedger A K) (txSigner : Signer A) : TER :=
  if !crypto.publicKeyType txSigner.signingPubKey then .tef .tefBAD_SIGNATURE
  else
    let signingAcctIDFromPubKey := crypto.calcAccountID txSigner.signingPubKey
    let sleTxSignerRoot := view.keysOf txSigner.account
    if signingAcctIDFromPubKey = txSigner.account then
      match sleTxSignerRoot with
      | none => .tesSUCCESS
      | some keys => if keys.disableMaster then .tef .tefMASTER_DISABLED else .tesSUCCESS
    else
      match sleTxSignerRoot with
      | none => .tef .tefBAD_SIGNATURE
      | some keys =>
        match keys.regularKey with
        | none => .tef .tefBAD_SIGNATURE
        | some regularKey =>
          if signingAcctIDFromPubKey ≠ regularKey then .tef .tefBAD_SIGNATURE else .tesSUCCESS

/-- Walk through the signers and the list side by side and sum up the weights. -/
def weigh (view : SigningLedger A K) :
    List (SignerEntry A) → Nat → List (Signer A) → Option (Except TER Nat)
  | _, weightSum, [] => some (.ok weightSum)
  | iter, weightSum, txSigner :: rest =>
    match advance txSigner.account iter with
    | none => none
    | some (.error ter) => some (.error ter)
    | some (.ok []) => none
    | some (.ok (entry :: after)) =>
      if entry.account ≠ txSigner.account then some (.error (.tef .tefBAD_SIGNATURE))
      else
        match checkKey crypto view txSigner with
        | .tesSUCCESS => weigh view (entry :: after) (add32 weightSum entry.weight.toNat) rest
        | ter => some (.error ter)

def checkMultiSign (view : SigningLedger A K) (tx : SignedTx A) : Option TER :=
  match view.signerLists.find? tx.account with
  | none => some (.tef .tefNOT_MULTI_SIGNING)
  | some sleAccountSigners =>
    match weigh crypto view sleAccountSigners.signerEntries 0 (tx.signers.getD []) with
    | none => none
    | some (.error ter) => some ter
    | some (.ok weightSum) =>
      if weightSum < sleAccountSigners.signerQuorum.toNat then some (.tef .tefBAD_QUORUM)
      else some .tesSUCCESS

end Transactor

end MultiSign

end Rippled.Tx
