import Rippled.Ledger.DirectoryClear
import Rippled.Tx.Transactor

namespace Rippled.Tx

open Lib Directory Transactor

variable {A K : Type} [LinearOrder A] [LinearOrder K]

def sub32 (a b : Nat) : Nat := (a + 4294967296 - b) % 4294967296

section CreateTicket

structure CreateTicket (A : Type) extends Common A where
  /-- Whether flags are set that no transaction knows. -/
  invalidFlags : Bool := false
  ticketCount : Nat

namespace CreateTicket

def minValidCount : Nat := 1

def maxValidCount : Nat := 250

def maxTicketThreshold : Nat := 250

variable (env : Env A K) (idx : Indexes A K) (tx : CreateTicket A)

def preflight (checks : Checks) : TER :=
  firstFailure [
    check (!env.info.rules.ticketBatch) (.tem .temDISABLED),
    check tx.invalidFlags (.tem .temINVALID_FLAG),
    check (tx.ticketCount < minValidCount || tx.ticketCount > maxValidCount) (.tem .temINVALID_COUNT),
    checks.preflight1,
    checks.preflight2]

def preclaim (base : Ledger A K) : TER :=
  match base.accounts.find? tx.account with
  | none => .ter .terNO_ACCOUNT
  | some root =>
    let consumedTickets := if tx.getSeqProxy.type = .ticket then 1 else 0
    if sub32 (add32 (root.ticketCount.getD 0) tx.ticketCount) consumedTickets > maxTicketThreshold then
      .tec .tecDIR_FULL
    else .tesSUCCESS

/-- Add tickets with consecutive numbers. A key that is taken stops the server. -/
def addTickets (account : A) : Nat → Nat → Ledger A K → Except Failure (Ledger A K)
  | 0, _, view => .ok view
  | count + 1, curTicketSeq, view =>
    let key := idx.ticket account curTicketSeq
    match view.tickets.find? key with
    | some _ => .error (.exception "key already exists")
    | none =>
      match view.ownerDirAdd account key with
      | .error e => .error e
      | .ok (page, view) =>
        let sleTicket : Ticket A := { account, ticketSequence := curTicketSeq, ownerNode := page }
        addTickets account count (add32 curTicketSeq 1)
          { view with tickets := view.tickets.insert key sleTicket }

def doApply (view : Ledger A K) : Except Failure (Ledger A K) :=
  match view.accounts.find? tx.account with
  | none => .error (.tef .tefINTERNAL)
  | some root =>
    let reserve := env.info.fees.accountReserve (add32 root.ownerCount tx.ticketCount)
    if root.balance + tx.fee < reserve then .error (.tec .tecINSUFFICIENT_RESERVE)
    else
      let firstTicketSeq := root.sequence
      if tx.sequence ≠ 0 ∧ tx.sequence ≠ sub32 firstTicketSeq 1 then .error (.tef .tefINTERNAL)
      else do
        let view ← addTickets idx tx.account tx.ticketCount firstTicketSeq view
        .ok (view.modifyAccount tx.account fun root =>
          { root.adjustOwnerCount tx.ticketCount with
            ticketCount := some (add32 (root.ticketCount.getD 0) tx.ticketCount)
            sequence := add32 firstTicketSeq tx.ticketCount })

end CreateTicket

end CreateTicket

section DeleteAccount

structure DeleteAccount (A : Type) extends Common A where
  invalidFlags : Bool := false
  destination : A
  destinationTag : Option Nat := none

/-- What there is in a ledger besides tickets and offers: whether a key belongs to an entry of a kind
that is deleted with its account, and how such an entry is removed. -/
structure OtherEntries (A K : Type) [LinearOrder A] [LinearOrder K] where
  deletable : Ledger A K → K → Option Bool
  remove : Ledger A K → A → K → Except Failure (Ledger A K)

namespace DeleteAccount

def maxDeletableDirEntries : Nat := 1000

def seqDelta : Nat := 255

variable (others : OtherEntries A K) (env : Env A K) (tx : DeleteAccount A)

def preflight (checks : Checks) : TER :=
  firstFailure [
    check (!env.info.rules.deletableAccounts) (.tem .temDISABLED),
    check tx.invalidFlags (.tem .temINVALID_FLAG),
    checks.preflight1,
    check (tx.account = tx.destination) (.tem .temDST_IS_SRC),
    checks.preflight2]

def deletable (view : Ledger A K) (key : K) : Option Bool :=
  if (view.tickets.find? key).isSome || (view.offers.find? key).isSome then some true
  else others.deletable view key

/-- All entries have to be of a kind that can be deleted, and they must not be too many. -/
def checkEntries (view : Ledger A K) : Nat → List K → TER
  | _, [] => .tesSUCCESS
  | count, key :: rest =>
    match deletable others view key with
    | none => .tef .tefBAD_LEDGER
    | some false => .tec .tecHAS_OBLIGATIONS
    | some true =>
      if count + 1 > maxDeletableDirEntries then .tef .tefTOO_BIG else checkEntries view (count + 1) rest

/-- Go through the owner directory. The fuel is more than there are entries and pages. -/
def checkDirectory (base : Ledger A K) : TER :=
  let pages := base.ownerDir tx.account
  if dirIsEmpty pages then .tesSUCCESS
  else
    let fuel := (placed pages).length + pages.keys.length + 1
    match visited pages fuel (dirFirst pages fuel) with
    | none => .tef .tefBAD_LEDGER
    | some keys => checkEntries others base 0 keys

def preclaim (base : Ledger A K) : TER :=
  match base.accounts.find? tx.destination with
  | none => .tec .tecNO_DST
  | some sleDst =>
    if sleDst.requireDestTag ∧ tx.destinationTag.isNone then .tec .tecDST_TAG_NEEDED
    else if env.info.rules.depositAuth ∧ sleDst.depositAuth ∧
        !base.depositPreauths.contains (tx.destination, tx.account) then
      .tec .tecNO_PERMISSION
    else
      match base.accounts.find? tx.account with
      | none => .ter .terNO_ACCOUNT
      | some sleAccount =>
        if add32 sleAccount.sequence seqDelta > env.info.seq then .tec .tecTOO_SOON
        else tx.checkDirectory others base

def deleteEntry (account : A) (view : Ledger A K) (key : K) : Except Failure (Ledger A K) :=
  match view.tickets.find? key with
  | some _ => ticketDelete view account key
  | none =>
    match view.offers.find? key with
    | some sle =>
      match offerDelete view key sle with
      | .error what => .error (.exception what)
      | .ok (.tesSUCCESS, view) => .ok view
      | .ok _ => .error (.tef .tefBAD_LEDGER)
    | none => others.remove view account key

section

variable (account : A) (view : Ledger A K)

/-- Delete all entries in the account directory, page by page, always the first one of a page. -/
def deleteEntries : Except Failure (Ledger A K) :=
  let pages := view.ownerDir account
  match pages.find? rootPage with
  | none => .ok view
  | some root =>
    clear (fun view => Ledger.ownerDir view account) (deleteEntry others account)
      (.exception "directory without end")
      ((placed pages).length + pages.keys.length + 1) view (rootPage, root)

def deleteDirectory : Except Failure (Ledger A K) :=
  if ((view.ownerDir account).find? rootPage).isNone then .ok view
  else
    match emptyDirDelete (view.ownerDir account) with
    | .error what => .error (.exception what)
    | .ok (false, _) => .error (.tec .tecHAS_OBLIGATIONS)
    | .ok (true, pages) => .ok { view with ownerDirs := view.ownerDirs.insert account pages }

end

def doApply (view : Ledger A K) : Except Failure (Ledger A K) :=
  match view.accounts.find? tx.account with
  | none => .error (.tef .tefBAD_LEDGER)
  | some src =>
    if (view.accounts.find? tx.destination).isNone then .error (.tef .tefBAD_LEDGER)
    else do
      let view ← deleteEntries others tx.account view
      let view := view.modifyAccount tx.destination (AccountRoot.credit src.balance)
      let view := view.modifyAccount tx.account (AccountRoot.credit (-src.balance))
      let view ← deleteDirectory tx.account view
      .ok { view with accounts := view.accounts.erase tx.account }

end DeleteAccount

end DeleteAccount

variable (env : Env A K)

def newSequence : Nat := if env.info.rules.deletableAccounts then env.info.seq else 1

def createDestination (destination : A) (view : Ledger A K) : Ledger A K :=
  match view.accounts.find? destination with
  | none =>
    { view with accounts := view.accounts.insert destination { balance := 0, sequence := newSequence env } }
  | some _ => view

end Rippled.Tx
