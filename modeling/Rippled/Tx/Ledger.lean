import Rippled.Basics.STAmount
import Rippled.Ledger.Directory
import Rippled.Tx.TER

namespace Rippled.Tx

open Lib Directory

abbrev Blob := List UInt8

def add32 (a b : Nat) : Nat := (a + b) % 4294967296

section Entries

variable (A K : Type)

structure AccountRoot where
  balance : Int
  sequence : Nat
  ownerCount : Nat := 0
  ticketCount : Option Nat := none
  requireDestTag : Bool := false
  disallowXRP : Bool := false
  depositAuth : Bool := false
deriving DecidableEq

structure Ticket where
  account : A
  ticketSequence : Nat
  ownerNode : Nat
deriving DecidableEq

structure Offer where
  account : A
  takerPays : STAmount
  takerGets : STAmount
  bookDirectory : K
  bookNode : Nat
  ownerNode : Nat
deriving DecidableEq

structure PayChan where
  account : A
  destination : A
  amount : Int
  balance : Int
  publicKey : Blob
  settleDelay : Nat
  expiration : Option Nat := none
  cancelAfter : Option Nat := none
  ownerNode : Nat
  destinationNode : Option Nat := none
deriving DecidableEq

structure Escrow where
  account : A
  destination : A
  amount : Int
  condition : Option Blob := none
  cancelAfter : Option Nat := none
  finishAfter : Option Nat := none
  ownerNode : Nat
  destinationNode : Option Nat := none
deriving DecidableEq

end Entries

structure Ledger (A K : Type) [LinearOrder A] [LinearOrder K] where
  accounts : OrdMap A AccountRoot
  tickets : OrdMap K (Ticket A) := OrdMap.empty
  offers : OrdMap K (Offer A K) := OrdMap.empty
  payChans : OrdMap K (PayChan A) := OrdMap.empty
  escrows : OrdMap K (Escrow A) := OrdMap.empty
  /-- The accounts that may pay an account that requires authorization. -/
  depositPreauths : List (A × A) := []
  ownerDirs : OrdMap A (Pages K) := OrdMap.empty
  bookDirs : OrdMap K (Pages K) := OrdMap.empty

/-- How the work on a ledger ends early: with a result other than success, or by an exception. -/
inductive Failure
  | tel (code : TELcodes)
  | tem (code : TEMcodes)
  | tef (code : TEFcodes)
  | ter (code : TERcodes)
  | tec (code : TECcodes)
  | exception (what : String)

def Failure.result : Failure → Except String TER
  | .tel code => .ok (.tel code)
  | .tem code => .ok (.tem code)
  | .tef code => .ok (.tef code)
  | .ter code => .ok (.ter code)
  | .tec code => .ok (.tec code)
  | .exception what => .error what

structure Indexes (A K : Type) where
  ticket : A → Nat → K
  payChan : A → A → Nat → K
  escrow : A → Nat → K

structure Fees where
  reserve : Int
  increment : Int

def Fees.accountReserve (fees : Fees) (ownerCount : Nat) : Int :=
  fees.reserve + ownerCount * fees.increment

/-- The amendments the modelled transactions depend on. -/
structure Rules where
  depositAuth : Bool
  fix1543 : Bool
  fix1571 : Bool
  fixPayChanRecipientOwnerDir : Bool
  cryptoConditionsSuite : Bool
  ticketBatch : Bool
  deletableAccounts : Bool

/-- What a transaction sees of the ledger it is applied to, apart from the entries. -/
structure Info where
  seq : Nat
  parentCloseTime : Nat
  isOpen : Bool
  fees : Fees
  rules : Rules

def confineOwnerCount (current : Nat) (adjustment : Int) : Nat :=
  let adjusted := ((current + adjustment) % 4294967296).toNat
  if adjustment > 0 then
    if adjusted < current then 4294967295 else adjusted
  else if adjusted > current then 0 else adjusted

section

variable (amount : Int) (root : AccountRoot)

def AccountRoot.adjustOwnerCount : AccountRoot :=
  { root with ownerCount := confineOwnerCount root.ownerCount amount }

def AccountRoot.credit : AccountRoot :=
  { root with balance := root.balance + amount }

end

namespace Ledger

variable {A K : Type} [LinearOrder A] [LinearOrder K]

section

variable (l : Ledger A K)

def modifyAccount (a : A) (f : AccountRoot → AccountRoot) : Ledger A K :=
  { l with accounts := l.accounts.modify a f }

def ownerDir (owner : A) : Pages K := (l.ownerDirs.find? owner).getD OrdMap.empty

def bookDir (book : K) : Pages K := (l.bookDirs.find? book).getD OrdMap.empty

def ownerDirAdd (owner : A) (key : K) : Except Failure (Nat × Ledger A K) :=
  match dirAdd false (l.ownerDir owner) key with
  | .error what => .error (.exception what)
  | .ok (none, _) => .error (.tec .tecDIR_FULL)
  | .ok (some page, pages) => .ok (page, { l with ownerDirs := l.ownerDirs.insert owner pages })

/-- Take a key out of the directory of an owner, unless it is not there. -/
def ownerDirRemove (owner : A) (page : Nat) (key : K) (keepRoot : Bool) :
    Except Failure (Ledger A K) :=
  match dirRemove (l.ownerDir owner) page key keepRoot with
  | .error what => .error (.exception what)
  | .ok (false, _) => .error (.tef .tefBAD_LEDGER)
  | .ok (true, pages) => .ok { l with ownerDirs := l.ownerDirs.insert owner pages }

def bookDirRemove (book : K) (page : Nat) (key : K) (keepRoot : Bool) :
    Except Failure (Ledger A K) :=
  match dirRemove (l.bookDir book) page key keepRoot with
  | .error what => .error (.exception what)
  | .ok (false, _) => .error (.tef .tefBAD_LEDGER)
  | .ok (true, pages) => .ok { l with bookDirs := l.bookDirs.insert book pages }

end

theorem ownerDirAdd_eq {l l' : Ledger A K} {owner : A} {key : K} {page : Nat}
    (h : l.ownerDirAdd owner key = .ok (page, l')) : ∃ dirs, l' = { l with ownerDirs := dirs } := by
  rw [ownerDirAdd] at h
  split at h
  · cases h
  · cases h
  · cases h
    exact ⟨_, rfl⟩

theorem ownerDirRemove_eq {l l' : Ledger A K} {owner : A} {key : K} {page : Nat} {keepRoot : Bool}
    (h : l.ownerDirRemove owner page key keepRoot = .ok l') : ∃ dirs, l' = { l with ownerDirs := dirs } := by
  rw [ownerDirRemove] at h
  split at h
  · cases h
  · cases h
  · cases h
    exact ⟨_, rfl⟩

end Ledger

end Rippled.Tx
