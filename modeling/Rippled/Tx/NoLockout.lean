import Rippled.Tx.AccountKeys
import Rippled.Tx.MultiSign

namespace Rippled.Tx

open Lib Directory Transactor Option

variable {A K : Type} [LinearOrder A] [LinearOrder K]

/-- A signer list of other accounts that can reach its quorum together. -/
structure Usable (account : A) (list : SignerList A) : Prop where
  nodup : (list.signerEntries.map SignerEntry.account).Nodup
  notSelf : ∀ e ∈ list.signerEntries, e.account ≠ account
  quorum : list.signerQuorum.toNat ≤ (list.signerEntries.map fun e => e.weight.toNat).sum

namespace KeyLedger

section

variable (view : KeyLedger A K)

def keysAt (a : A) : Keys A := (view.keys.find? a).getD {}

def CanSign (a : A) : Prop :=
  (view.keysAt a).disableMaster = false ∨ (∃ key, (view.keysAt a).regularKey = some key ∧ key ≠ a) ∨
    ∃ list, view.signerLists.find? a = some list ∧ Usable a list

structure Sound : Prop where
  regular : ∀ a, (view.keysAt a).regularKey ≠ some a
  lists : ∀ a list, view.signerLists.find? a = some list → Usable a list
  alternative : ∀ a, (view.keysAt a).disableMaster →
    (view.keysAt a).regularKey.isSome ∨ (view.signerLists.find? a).isSome

end

variable {view view' : KeyLedger A K}

theorem Sound.canSign (h : view.Sound) (a : A) : view.CanSign a := by
  cases hm : (view.keysAt a).disableMaster with
  | false => exact .inl hm
  | true =>
    rcases h.alternative a hm with hr | hl
    · obtain ⟨key, hkey⟩ := isSome_iff_exists.mp hr
      refine .inr (.inl ⟨key, hkey, ?_⟩)
      rintro rfl
      exact h.regular key hkey
    · obtain ⟨list, hl⟩ := isSome_iff_exists.mp hl
      exact .inr (.inr ⟨list, hl, h.lists a list hl⟩)

variable {keys : Keys A} {a : A}

theorem keysAt_of_keysOf (h : view.keysOf a = some keys) : view.keysAt a = keys := by
  obtain ⟨_, _, hk⟩ := map_eq_some_iff.mp h
  exact hk

theorem keysAt_of_insert (h : view'.keys = view.keys.insert a keys) (b : A) :
    view'.keysAt b = if b = a then keys else view.keysAt b := by
  rw [keysAt, h, OrdMap.find?_insert]
  split_ifs <;> rfl

/-- New keys for one account, which has to keep a way to sign. -/
theorem Sound.insert (h : view.Sound) (hk : view'.keys = view.keys.insert a keys)
    (hl : view'.signerLists = view.signerLists) (hr : keys.regularKey ≠ some a)
    (ha : keys.disableMaster → keys.regularKey.isSome ∨ (view.signerLists.find? a).isSome) :
    view'.Sound := by
  refine ⟨fun b => ?_, fun b list hls => ?_, fun b => ?_⟩
  · rw [keysAt_of_insert hk]
    split_ifs with hb
    · rw [hb]
      exact hr
    · exact h.regular b
  · rw [hl] at hls
    exact h.lists b list hls
  · rw [keysAt_of_insert hk, hl]
    split_ifs with hb
    · rw [hb]
      exact ha
    · exact h.alternative b

/-- A new list for one account, or none if it has other ways to sign. -/
theorem Sound.setList (h : view.Sound) (hk : view'.keys = view.keys) {o : Option (SignerList A)}
    (hls : ∀ b, view'.signerLists.find? b = if b = a then o else view.signerLists.find? b)
    (hu : ∀ list, o = some list → Usable a list)
    (ha : o = none → (view.keysAt a).disableMaster → (view.keysAt a).regularKey.isSome) :
    view'.Sound := by
  have hat : ∀ b, view'.keysAt b = view.keysAt b := by
    intro b
    rw [keysAt, keysAt, hk]
  refine ⟨fun b => ?_, fun b list hl => ?_, fun b hm => ?_⟩
  · rw [hat]
    exact h.regular b
  · rw [hls] at hl
    split_ifs at hl with hb
    · rw [hb]
      exact hu list hl
    · exact h.lists b list hl
  · rw [hat] at hm ⊢
    rw [hls]
    split_ifs with hb
    · subst hb
      cases ho : o with
      | none => exact .inl (ha ho hm)
      | some list => exact .inr rfl
    · exact h.alternative b hm

end KeyLedger

section Lists

variable {signersIndex : A → K} {fees : Fees} {multiSignReserve : Bool} {view view' : SigningLedger A K}
  {tx : SetSignerList A}

theorem allSignersWeight_eq_ok {account : A} {l : List (SignerEntry A)} {w : Nat}
    (h : SetSignerList.allSignersWeight account l = .ok w) :
    (∀ e ∈ l, e.account ≠ account) ∧ w = (l.map fun e => e.weight.toNat).sum := by
  induction l generalizing w with
  | nil =>
    cases h
    exact ⟨by simp, rfl⟩
  | cons e rest ih =>
    rw [SetSignerList.allSignersWeight] at h
    split_ifs at h with hwg hs
    obtain ⟨w', hw', rfl⟩ := map_eq_ok h
    obtain ⟨hall, rfl⟩ := ih hw'
    rw [List.forall_mem_cons, List.map_cons, List.sum_cons]
    exact ⟨⟨hs, hall⟩, rfl⟩

theorem usable_of_checkOperation {signers : List (SignerEntry A)}
    (hop : tx.determineOperation = .ok (signers, .set)) (h : tx.checkOperation = .tesSUCCESS)
    (oneOwnerCount : Bool) (ownerNode : Nat) : Usable tx.account
      { signerQuorum := tx.signerQuorum, signerEntries := signers, oneOwnerCount, ownerNode } := by
  have hi := installed_of_checkOperation hop h oneOwnerCount ownerNode
  rw [SetSignerList.checkOperation, hop] at h
  dsimp only at h
  rw [SetSignerList.validateQuorumAndSignerEntries] at h
  split_ifs at h with hsz hf
  cases hw : SetSignerList.allSignersWeight tx.account signers with
  | error ter =>
    rw [hw] at h
    have hne : ∀ l ter, SetSignerList.allSignersWeight tx.account l = .error ter → ter ≠ .tesSUCCESS := by
      intro l
      induction l with
      | nil =>
        intro ter hter
        cases hter
      | cons e rest ih =>
        intro ter hter
        rw [SetSignerList.allSignersWeight] at hter
        split_ifs at hter
        · cases hter
          simp
        · cases hter
          simp
        cases hr : SetSignerList.allSignersWeight tx.account rest with
        | error ter' =>
          rw [hr] at hter
          cases hter
          exact ih _ hr
        | ok w =>
          rw [hr] at hter
          cases hter
    exact absurd h (hne _ _ hw)
  | ok w =>
    rw [hw] at h
    dsimp only at h
    split_ifs at h with hq
    obtain ⟨hs, rfl⟩ := allSignersWeight_eq_ok hw
    rw [not_or, not_lt] at hq
    exact ⟨hi.sorted.imp fun hlt => hlt.ne, hs, hq.2⟩

theorem setSignerList_keys (h : tx.doApply signersIndex fees multiSignReserve view = .ok view') :
    view'.keys = view.keys := by
  rw [SetSignerList.doApply] at h
  split at h
  · exact (replaceSignerList_lists h).1
  · rw [SetSignerList.destroySignerList] at h
    split at h
    · cases h
    · split_ifs at h
      exact (removeSignersFromLedger_lists h).1
  · cases h

end Lists

variable {tx : SetAccount A} {sig : Signature A} {env : Env A K}

section Work

variable {crypto : Crypto A} {signersIndex : A → K} {view view' : KeyLedger A K} {a : KeyApplication A K}

theorem setRegularKey_keys {tx : SetRegularKey A} (ha : tx.doApply view = .ok view') :
    view'.keys = view.keys.insert tx.account
      { view.keysAt tx.account with regularKey := tx.regularKey } ∧
    view'.signerLists = view.signerLists ∧
    (tx.regularKey = none → (view.keysAt tx.account).disableMaster →
      (view.signerLists.find? tx.account).isSome) := by
  rw [SetRegularKey.doApply] at ha
  split at ha
  · cases ha
  · next keys hk =>
    rw [KeyLedger.keysAt_of_keysOf hk]
    split at ha
    · next key hkey =>
      cases ha
      rw [hkey]
      exact ⟨rfl, rfl, fun hn => by cases hn⟩
    · next hkey =>
      split_ifs at ha with hl
      cases ha
      rw [hkey]
      refine ⟨rfl, rfl, fun _ hm => ?_⟩
      rw [not_and] at hl
      rw [isSome_iff_ne_none]
      exact fun hn => hl hm (by rw [hn]; rfl)

theorem KeyLedger.Sound.setRegularKey {tx : SetRegularKey A} (h : view.Sound)
    (ho : tx.regularKey ≠ some tx.account) (ha : tx.doApply view = .ok view') : view'.Sound := by
  obtain ⟨hk, hl, hls⟩ := setRegularKey_keys ha
  refine h.insert hk hl ho fun hm => ?_
  cases hkey : tx.regularKey with
  | none => exact .inr (hls hkey hm)
  | some key => exact .inl rfl

omit [LinearOrder A] in
theorem disableMasterOut_eq_true {sigWithMaster hasSigners : Bool} {keys : Keys A}
    (h : tx.disableMasterOut sigWithMaster hasSigners keys = .ok true) :
    keys.disableMaster ∨ sigWithMaster ∧ (keys.regularKey.isSome ∨ hasSigners) := by
  rw [SetAccount.disableMasterOut] at h
  split_ifs at h with hset hsig hl hc
  · right
    refine ⟨by simpa using hsig, ?_⟩
    rw [not_and_or] at hl
    refine hl.imp (fun hn => ?_) (fun hs => by simpa using hs)
    rw [isSome_iff_ne_none]
    exact fun heq => hn (by rw [heq]; rfl)
  · cases h
  · left
    exact Except.ok.inj h

/-- What a transaction that sets account flags does to the keys. -/
theorem setAccount_keys (ha : tx.doApply crypto env sig view = .ok view') : ∃ disableMaster,
      tx.disableMasterOut (tx.sigWithMaster crypto sig) (view.signerLists.find? tx.account).isSome
        (view.keysAt tx.account) = .ok disableMaster ∧
      view'.keys = view.keys.insert tx.account { view.keysAt tx.account with disableMaster } ∧
      view'.signerLists = view.signerLists := by
  rw [SetAccount.doApply] at ha
  split at ha
  · cases ha
  · next keys hk =>
    rw [KeyLedger.keysAt_of_keysOf hk]
    obtain ⟨disableMaster, hout, ha⟩ := bind_eq_ok ha
    split_ifs at ha
    cases ha
    exact ⟨disableMaster, hout, rfl, rfl⟩

theorem KeyLedger.Sound.setAccount (h : view.Sound)
    (ha : tx.doApply crypto env sig view = .ok view') : view'.Sound := by
  obtain ⟨disableMaster, hout, hk, hl⟩ := setAccount_keys ha
  refine h.insert hk hl (h.regular tx.account) fun hm => ?_
  have ht : disableMaster := hm
  rw [ht] at hout
  rcases disableMasterOut_eq_true hout with hold | ⟨_, hal⟩
  · exact h.alternative tx.account hold
  · exact hal

theorem KeyLedger.Sound.setSignerList {tx : SetSignerList A} {fees : Fees} {multiSignReserve : Bool}
    {signing : SigningLedger A K} (h : view.Sound) (hc : tx.checkOperation = .tesSUCCESS)
    (ha : tx.doApply signersIndex fees multiSignReserve view.toSigningLedger = .ok signing) :
    KeyLedger.Sound { view with toSigningLedger := signing } := by
  rw [SetSignerList.doApply] at ha
  split at ha
  · next signers hop =>
    obtain ⟨hk, page, hl⟩ := replaceSignerList_lists ha
    refine h.setList hk hl (fun list heq => ?_) fun heq => by cases heq
    cases heq
    exact usable_of_checkOperation hop hc _ _
  · rw [SetSignerList.destroySignerList] at ha
    split at ha
    · cases ha
    · next keys hk =>
      split_ifs at ha with hls
      obtain ⟨hs, hl⟩ := removeSignersFromLedger_lists ha
      refine h.setList hs hl (fun list heq => by cases heq) fun _ hm => ?_
      rw [KeyLedger.keysAt_of_keysOf hk] at hm ⊢
      rw [not_and] at hls
      rw [isSome_iff_ne_none]
      exact fun hn => hls hm (by rw [hn]; rfl)
  · cases ha

theorem KeyLedger.Sound.doApply [OrderBot A] (h : view.Sound)
    (hfix : a.rules.fixMasterKeyAsRegularKey) (hp : KeyTx.preflight crypto a = .tesSUCCESS)
    (ha : KeyTx.doApply crypto signersIndex a view = .ok view') : view'.Sound := by
  rw [KeyTx.preflight] at hp
  rw [KeyTx.doApply] at ha
  cases htx : a.tx with
  | accountSet tx =>
    rw [htx] at ha
    exact h.setAccount ha
  | setRegularKey tx =>
    rw [htx] at hp ha
    have hs := eq_false_of_check (by simp) (firstFailure_mem hp
      (check (a.rules.fixMasterKeyAsRegularKey && tx.regularKey = some tx.account) (.tem .temBAD_REGKEY))
      (by simp))
    rw [hfix, Bool.true_and, decide_eq_false_iff_not] at hs
    exact h.setRegularKey hs ha
  | signerListSet tx =>
    rw [htx] at hp ha
    obtain ⟨signing, hsg, rfl⟩ := map_eq_ok ha
    exact h.setSignerList (firstFailure_mem hp tx.checkOperation (by simp)) hsg

end Work

section Runs

/-- A transaction that changes keys, or anything else that happens to the ledger. -/
inductive KeyEvent (A K : Type) [LinearOrder A] [LinearOrder K]
  | apply (a : KeyApplication A K)
  | elsewhere (ledger : Ledger A K) (settings : OrdMap A Settings)

variable [OrderBot A] (crypto : Crypto A) (signersIndex : A → K) (idx : Indexes A K)

def KeyLedger.step (view : KeyLedger A K) : KeyEvent A K → KeyLedger A K
  | .apply a => KeyTx.apply crypto signersIndex idx a view
  | .elsewhere ledger settings => { view with ledger, settings }

/-- The amendment that forbids the master key as regular key is enabled. -/
def KeyEvent.Fixed : KeyEvent A K → Prop
  | .apply a => a.rules.fixMasterKeyAsRegularKey
  | .elsewhere _ _ => True

structure SignedWithMaster (account : A) (a : KeyApplication A K) : Prop where
  sender : a.tx.common.account = account
  single : a.signature.signingPubKey ≠ []
  key : crypto.publicKeyType a.signature.signingPubKey
  master : crypto.calcAccountID a.signature.signingPubKey = account
  valid : (STTx.checkSingleSign crypto a.rules.requireFullyCanonicalSig a.signature).1

variable {crypto signersIndex idx} {view : KeyLedger A K}

theorem KeyTx.apply_cases (a : KeyApplication A K) (view : KeyLedger A K) :
    (∃ ledger, KeyTx.apply crypto signersIndex idx a view = { view with ledger }) ∨
    ∃ charged worked ledger, KeyTx.preResult crypto idx a view = .tesSUCCESS ∧
      KeyTx.doApply crypto signersIndex a { view with ledger := charged } = .ok worked ∧
      KeyTx.apply crypto signersIndex idx a view = { worked with ledger } := by
  have he : Effect idx a.tx.common (KeyTx.preResult crypto idx a view)
      (fun ledger => (KeyTx.doApply crypto signersIndex a { view with ledger }).map fun view => view.ledger)
      view.ledger (KeyTx.outcome crypto signersIndex idx a view) :=
    applyTransaction_effect a.env a.size account_of_preclaimResult
  rw [KeyTx.apply]
  split
  · next worked hs hw =>
    right
    obtain ⟨charged, _, ha⟩ := bind_eq_ok hw
    refine ⟨_, worked, _, ?_, ha, rfl⟩
    rw [Outcome.success, Bool.and_eq_true] at hs
    cases he with
    | nothing hap _ _ => cases hap.symm.trans hs.1
    | feeOnly hr _ _ =>
      rw [isTesSuccess_of_isTecClaim hr] at hs
      cases hs.2
    | done _ hpre _ _ _ _ => exact hpre
  · exact .inl ⟨_, rfl⟩

omit [OrderBot A] in
theorem KeyLedger.Sound.withLedger (h : view.Sound) (ledger : Ledger A K) (settings : OrdMap A Settings) :
    KeyLedger.Sound { view with ledger, settings } :=
  ⟨h.regular, h.lists, h.alternative⟩

theorem KeyLedger.Sound.step (h : view.Sound) {e : KeyEvent A K} (hf : e.Fixed) :
    (view.step crypto signersIndex idx e).Sound := by
  cases e with
  | apply a =>
    rw [KeyLedger.step]
    rcases KeyTx.apply_cases a view with ⟨ledger, heq⟩ | ⟨charged, worked, ledger, hpre, ha, heq⟩
    · rw [heq]
      exact h.withLedger ledger view.settings
    · rw [heq]
      have hp := firstFailure_mem hpre (KeyTx.preflight crypto a) (by simp)
      exact ((h.withLedger charged view.settings).doApply hf hp ha).withLedger ledger _
  | elsewhere ledger settings => exact h.withLedger ledger settings

theorem signedWithMaster_of_setAccount {a : KeyApplication A K} (htx : a.tx = .accountSet tx)
    (he : crypto.publicKeyType [] = false) (hp : KeyTx.preflight crypto a = .tesSUCCESS)
    (hm : tx.sigWithMaster crypto a.signature) : SignedWithMaster crypto tx.account a := by
  rw [SetAccount.sigWithMaster, Bool.and_eq_true, decide_eq_true_iff] at hm
  have hs : a.signature.signingPubKey ≠ [] := by
    intro hnil
    rw [hnil, he] at hm
    cases hm.1
  rw [KeyTx.preflight, htx] at hp
  have hsig := firstFailure_mem hp (KeyTx.checksOf crypto a).preflight2 (by simp)
  have hg := eq_false_of_check (by simp) (firstFailure_mem hsig _ (List.mem_cons_self))
  rw [STTx.checkSign, if_neg (by simpa using hs)] at hg
  exact ⟨by rw [htx]; rfl, hs, hm.1, hm.2, by simpa using hg⟩

theorem signedWithMaster_of_disabled (he : crypto.publicKeyType [] = false) {e : KeyEvent A K} {b : A}
    (hbf : (view.keysAt b).disableMaster = false)
    (ha : ((view.step crypto signersIndex idx e).keysAt b).disableMaster) :
    ∃ a, e = .apply a ∧ SignedWithMaster crypto b a := by
  have hs : ∀ {view' : KeyLedger A K}, view'.keys = view.keys →
      (view'.keysAt b).disableMaster ≠ true := by
    intro view' hk
    rw [KeyLedger.keysAt, hk]
    rw [KeyLedger.keysAt] at hbf
    rw [hbf]
    simp
  cases e with
  | elsewhere ledger settings => exact absurd ha (hs rfl)
  | apply a =>
    refine ⟨a, rfl, ?_⟩
    rw [KeyLedger.step] at ha
    rcases KeyTx.apply_cases a view with ⟨ledger, heq⟩ | ⟨charged, worked, ledger, hpre, hap, heq⟩
    · rw [heq] at ha
      exact absurd ha (hs rfl)
    rw [heq] at ha
    have hp := firstFailure_mem hpre (KeyTx.preflight crypto a) (by simp)
    rw [KeyTx.doApply] at hap
    cases htx : a.tx with
    | accountSet tx =>
      rw [htx] at hap
      obtain ⟨disableMaster, hout, hk, _⟩ := setAccount_keys hap
      have hat := KeyLedger.keysAt_of_insert hk b
      by_cases hb : b = tx.account
      · subst hb
        rw [if_pos rfl] at hat
        have ht : disableMaster := (congrArg Keys.disableMaster hat).symm.trans ha
        rw [ht] at hout
        rcases disableMasterOut_eq_true hout with hold | ⟨hm, _⟩
        · cases hbf.symm.trans hold
        · exact signedWithMaster_of_setAccount htx he hp hm
      · rw [if_neg hb] at hat
        cases hbf.symm.trans ((congrArg Keys.disableMaster hat).symm.trans ha)
    | setRegularKey tx =>
      rw [htx] at hap
      have hat := KeyLedger.keysAt_of_insert (setRegularKey_keys hap).1 b
      have hold : (worked.keysAt b).disableMaster = false := by
        rw [hat]
        split_ifs with hb
        · rw [← hb]
          exact hbf
        · exact hbf
      cases hold.symm.trans ha
    | signerListSet tx =>
      rw [htx] at hap
      obtain ⟨signing, hsg, rfl⟩ := map_eq_ok hap
      have hk := setSignerList_keys hsg
      exact absurd ha (hs hk)

omit [OrderBot A] in
theorem KeyLedger.sound_start (ledger : Ledger A K) (settings : OrdMap A Settings) :
    KeyLedger.Sound ({ ledger, settings } : KeyLedger A K) where
  regular b := by simp [KeyLedger.keysAt]
  lists b list hl := by cases hl
  alternative b hm := by cases hm

/-- From accounts as they are created, every run leaves every account a way to sign. A master key is
disabled only by a transaction that it signed. -/
theorem never_locked_out (hempty : crypto.publicKeyType [] = false) (ledger : Ledger A K)
    (settings : OrdMap A Settings) (events : List (KeyEvent A K)) (hfixed : ∀ e ∈ events, e.Fixed) :
    (∀ b, (events.foldl (KeyLedger.step crypto signersIndex idx) { ledger, settings }).CanSign b) ∧
    ∀ e b, ((events.foldl (KeyLedger.step crypto signersIndex idx)
      { ledger, settings }).keysAt b).disableMaster =
        false →
      (((events.foldl (KeyLedger.step crypto signersIndex idx) { ledger, settings }).step crypto signersIndex
        idx e).keysAt b).disableMaster →
      ∃ a, e = .apply a ∧ SignedWithMaster crypto b a := by
  have hall : Run.Allowed (KeyLedger.step crypto signersIndex idx) (fun _ e => True ∧ e.Fixed)
      ({ ledger, settings } : KeyLedger A K) events :=
    (Run.allowed_of_forall (fun _ _ => trivial) _ events).and_mem hfixed
  have hsound := Run.invariant KeyLedger.Sound (fun _ _ h he => h.step he.2) events
    (KeyLedger.sound_start ledger settings) hall
  exact ⟨hsound.canSign, fun e b => signedWithMaster_of_disabled hempty⟩

end Runs

section Example

def keyRules : KeyRules := ⟨true, true, true⟩

def signedWith (key : UInt8) (tx : KeyTx Nat) : KeyEvent Nat Nat :=
  .apply { applied 0 tx with
    signature := { signingPubKey := [key], txnSignature := some [1] }, rules := keyRules }

/-- Account 1 sets a regular key, disables its master key and tries to remove the regular key. -/
def keyChanges : List (KeyEvent Nat Nat) :=
  [signedWith 1 (.setRegularKey { account := 1, fee := 1, sequence := 5, regularKey := some 3 }),
   signedWith 1 (.accountSet { account := 1, fee := 1, sequence := 6, setFlag := asfDisableMaster }),
   signedWith 3 (.setRegularKey { account := 1, fee := 1, sequence := 7, regularKey := none })]

theorem never_locked_out_disabled :
    (keyChanges.foldl (KeyLedger.step byteCrypto id plainIndexes) { ledger := twoAccounts }).keysAt 1 =
      { disableMaster := true, regularKey := some 3 } ∧
    ((keyChanges.foldl (KeyLedger.step byteCrypto id plainIndexes) { ledger := twoAccounts
        }).ledger.accounts.find? 1).map AccountRoot.balance = some 197 ∧
    (∀ b, (keyChanges.foldl (KeyLedger.step byteCrypto id plainIndexes)
      { ledger := twoAccounts }).CanSign b) := by
  refine ⟨by decide, by decide, (never_locked_out (by decide) twoAccounts OrdMap.empty keyChanges ?_).1⟩
  intro e he
  simp only [keyChanges, List.mem_cons, List.not_mem_nil, or_false] at he
  rcases he with rfl | rfl | rfl <;> rfl

end Example

end Rippled.Tx
