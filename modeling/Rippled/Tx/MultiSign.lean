import Mathlib.Order.Nat
import Rippled.Lib.Run
import Rippled.Tx.Balances
import Rippled.Tx.SignerList

namespace Rippled.Tx

open Lib Directory Transactor List

variable {A K : Type} [LinearOrder A] [LinearOrder K] {signers : List (SignerEntry A)}
  {tx : SetSignerList A}

section Installed

/-- What the checks of a transaction that sets a signer list leave of it. -/
structure Installed (list : SignerList A) : Prop where
  sorted : (list.signerEntries.map SignerEntry.account).Pairwise (· < ·)
  nonempty : list.signerEntries ≠ []

theorem pairwise_lt_of_adjacentFind {l : List (SignerEntry A)}
    (hs : l.Pairwise fun a b => a.account ≤ b.account)
    (h : SetSignerList.adjacentFind l = false) : (l.map SignerEntry.account).Pairwise (· < ·) := by
  induction l with
  | nil => exact .nil
  | cons a rest ih =>
    cases rest with
    | nil => simp
    | cons b rest =>
      rw [SetSignerList.adjacentFind, Bool.or_eq_false_iff, decide_eq_false_iff_not] at h
      have hr := ih (pairwise_cons.mp hs).2 h.2
      have hab := lt_of_le_of_ne ((pairwise_cons.mp hs).1 b (by simp)) h.1
      rw [map_cons, pairwise_cons]
      refine ⟨fun c hc => ?_, hr⟩
      rw [map_cons, mem_cons] at hc
      rcases hc with rfl | hc
      · exact hab
      · exact hab.trans ((pairwise_cons.mp hr).1 c hc)

theorem pairwise_sort (l : List (SignerEntry A)) :
    (l.insertionSort fun a b => a.account ≤ b.account).Pairwise fun a b => a.account ≤ b.account := by
  have ht : Std.Total fun a b : SignerEntry A => a.account ≤ b.account :=
    ⟨fun a b => le_total a.account b.account⟩
  have htr : IsTrans (SignerEntry A) fun a b => a.account ≤ b.account :=
    ⟨fun a b c hab hbc => hab.trans hbc⟩
  exact pairwise_insertionSort _ l

theorem installed_of_checkOperation (hop : tx.determineOperation = .ok (signers, .set))
    (h : tx.checkOperation = .tesSUCCESS) (oneOwnerCount : Bool) (ownerNode : Nat) :
    Installed { signerQuorum := tx.signerQuorum, signerEntries := signers, oneOwnerCount, ownerNode } := by
  have hs : signers.Pairwise fun a b => a.account ≤ b.account := by
    rw [SetSignerList.determineOperation] at hop
    split at hop
    · split_ifs at hop
      · obtain ⟨entries, _, heq⟩ := map_eq_ok hop
        cases heq
        exact pairwise_sort entries
      · cases hop
    · split_ifs at hop
      · cases hop
      · cases hop
  rw [SetSignerList.checkOperation, hop] at h
  dsimp only at h
  rw [SetSignerList.validateQuorumAndSignerEntries] at h
  split_ifs at h with hsz hf
  refine ⟨pairwise_lt_of_adjacentFind hs (by simpa using hf), ?_⟩
  rintro rfl
  simp [minMultiSigners] at hsz

end Installed

section Runs

/-- What happens to the signer lists of a ledger. Everything else leaves them as they are. -/
inductive SigningEvent (A K : Type) [LinearOrder A] [LinearOrder K]
  | setSignerList (tx : SetSignerList A) (checks : Checks) (fees : Fees) (multiSignReserve : Bool)
  | removeFromLedger (account : A)
  | elsewhere (ledger : Ledger A K) (keys : OrdMap A (Keys A))

variable (signersIndex : A → K)

def SigningLedger.step (view : SigningLedger A K) : SigningEvent A K → SigningLedger A K
  | .setSignerList tx checks fees multiSignReserve =>
    if tx.preflight checks = .tesSUCCESS then
      match tx.doApply signersIndex fees multiSignReserve view with
      | .ok view' => view'
      | .error _ => view
    else view
  | .removeFromLedger account =>
    match SetSignerList.removeSignersFromLedger signersIndex account view with
    | .ok view' => view'
    | .error _ => view
  | .elsewhere ledger keys => { view with ledger, keys }

def SigningLedger.Lists (view : SigningLedger A K) : Prop :=
  ∀ a list, view.signerLists.find? a = some list → Installed list

variable {signersIndex} {view view' : SigningLedger A K}

theorem removeSignersFromLedger_lists {account : A} (h : SetSignerList.removeSignersFromLedger
      signersIndex account view = .ok view') : view'.keys = view.keys ∧
      ∀ b, view'.signerLists.find? b = if b = account then none else view.signerLists.find? b := by
  rw [SetSignerList.removeSignersFromLedger] at h
  split at h
  · next hn =>
    cases h
    refine ⟨rfl, fun b => ?_⟩
    split_ifs with hb
    · rw [hb, hn]
    · rfl
  · obtain ⟨ledger, _, h⟩ := bind_eq_ok h
    cases h
    exact ⟨rfl, fun b => OrdMap.find?_erase _ _ _⟩

theorem replaceSignerList_lists {fees : Fees} {multiSignReserve : Bool}
    (h : tx.replaceSignerList signersIndex fees multiSignReserve signers view = .ok view') :
    view'.keys = view.keys ∧ ∃ page, ∀ b, view'.signerLists.find? b =
      if b = tx.account then some { signerQuorum := tx.signerQuorum, signerEntries := signers
                                    oneOwnerCount := multiSignReserve, ownerNode := page }
      else view.signerLists.find? b := by
  obtain ⟨removed, hr, h⟩ := bind_eq_ok h
  obtain ⟨hk, hl⟩ := removeSignersFromLedger_lists hr
  split at h
  · cases h
  dsimp only at h
  generalize (if multiSignReserve = true then 1
    else SetSignerList.signerCountBasedOwnerCountDelta signers.length) = added at h
  split_ifs at h
  obtain ⟨⟨page, ledger⟩, _, h⟩ := bind_eq_ok h
  cases h
  refine ⟨hk, page, fun b => ?_⟩
  rw [OrdMap.find?_insert, hl]
  split_ifs <;> rfl

theorem SigningLedger.Lists.remove {account : A} (h : view.Lists)
    (hr : SetSignerList.removeSignersFromLedger signersIndex account view = .ok view') :
    view'.Lists := by
  intro a list hl
  rw [(removeSignersFromLedger_lists hr).2] at hl
  split_ifs at hl
  exact h a list hl

theorem SigningLedger.Lists.replace (h : view.Lists) {fees : Fees} {multiSignReserve : Bool}
    (hi : ∀ page, Installed
      { signerQuorum := tx.signerQuorum, signerEntries := signers
        oneOwnerCount := multiSignReserve, ownerNode := page })
    (hr : tx.replaceSignerList signersIndex fees multiSignReserve signers view = .ok view') :
    view'.Lists := by
  obtain ⟨-, page, hls⟩ := replaceSignerList_lists hr
  intro a list hl
  rw [hls] at hl
  split_ifs at hl
  · cases hl
    exact hi page
  · exact h a list hl

theorem SigningLedger.Lists.step (h : view.Lists) (e : SigningEvent A K) :
    (view.step signersIndex e).Lists := by
  cases e with
  | setSignerList tx checks fees multiSignReserve =>
    rw [SigningLedger.step]
    split_ifs with hp
    · have hc := firstFailure_mem hp tx.checkOperation (by simp)
      cases ha : tx.doApply signersIndex fees multiSignReserve view with
      | error e => exact h
      | ok view' =>
        rw [SetSignerList.doApply] at ha
        split at ha
        · next signers hop => exact h.replace (installed_of_checkOperation hop hc _) ha
        · rw [SetSignerList.destroySignerList] at ha
          split at ha
          · cases ha
          · split_ifs at ha
            exact h.remove ha
        · cases ha
    · exact h
  | removeFromLedger account =>
    rw [SigningLedger.step]
    cases hr : SetSignerList.removeSignersFromLedger signersIndex account view with
    | error e => exact h
    | ok view' => exact h.remove hr
  | elsewhere ledger keys => exact h

end Runs

section Merge

variable {crypto : Crypto A} {view : SigningLedger A K} {iter : List (SignerEntry A)}
  {signers : List (Signer A)} {w w' : Nat}

/-- The weight in a list that accounts have together. No entry counts twice. -/
def listWeight (entries : List (SignerEntry A)) (accounts : List A) : Nat :=
  ((entries.filter fun e => accounts.contains e.account).map fun e => e.weight.toNat).sum

theorem advance_spec (acct : A) (hne : iter ≠ []) :
    (advance acct iter = some (.error (.tef .tefBAD_SIGNATURE)) ∧ ∀ e ∈ iter, e.account < acct) ∨
    ∃ skipped entry rest, iter = skipped ++ entry :: rest ∧ (∀ e ∈ skipped, e.account < acct) ∧
      acct ≤ entry.account ∧ advance acct iter = some (.ok (entry :: rest)) := by
  induction iter with
  | nil => exact absurd rfl hne
  | cons entry rest ih =>
    rw [advance]
    split_ifs with hlt he
    · left
      rw [isEmpty_iff.mp he]
      exact ⟨rfl, by simpa using hlt⟩
    · rcases ih (by simpa using he) with ⟨heq, hall⟩ | ⟨skipped, entry', rest', rfl, hall, hle, heq⟩
      · exact .inl ⟨heq, forall_mem_cons.mpr ⟨hlt, hall⟩⟩
      · exact .inr ⟨entry :: skipped, entry', rest', rfl, forall_mem_cons.mpr ⟨hlt, hall⟩, hle, heq⟩
    · exact .inr ⟨[], entry, rest, rfl, by simp, not_lt.mp hlt, rfl⟩

theorem weigh_ne_none (hne : iter ≠ []) : weigh crypto view iter w signers ≠ none := by
  induction signers generalizing iter w with
  | nil => simp [weigh]
  | cons s rest ih =>
    rw [weigh]
    rcases advance_spec s.account hne with ⟨heq, _⟩ | ⟨_, entry, after, _, _, _, heq⟩
    · simp [heq]
    rw [heq]
    dsimp only
    split_ifs
    · simp
    · split
      · exact ih (by simp)
      · simp

theorem weigh_error_ne {ter : TER} (h : weigh crypto view iter w signers = some (.error ter)) :
    ter ≠ .tesSUCCESS := by
  induction signers generalizing iter w with
  | nil => cases h
  | cons s rest ih =>
    rw [weigh] at h
    split at h
    · cases h
    · next ter' ha =>
      cases h
      rcases iter with _ | ⟨entry, after⟩
      · cases ha
      rcases advance_spec s.account (cons_ne_nil entry after) with ⟨heq, _⟩ | ⟨_, _, _, _, _, _, heq⟩
      · cases ha.symm.trans heq
        simp
      · cases ha.symm.trans heq
    · cases h
    · split_ifs at h
      · cases h
        simp
      split at h
      · exact ih h
      · next hne =>
        cases h
        exact fun heq => hne heq

theorem listWeight_skip {skipped rest : List (SignerEntry A)} {accounts : List A}
    (h : ∀ e ∈ skipped, e.account ∉ accounts) :
    listWeight (skipped ++ rest) accounts = listWeight rest accounts := by
  have hnil : skipped.filter (fun e => accounts.contains e.account) = [] := by
    simpa [filter_eq_nil_iff] using h
  rw [listWeight, listWeight, filter_append, hnil, nil_append]

theorem listWeight_cons_self {entry : SignerEntry A} {rest : List (SignerEntry A)} {accounts : List A}
    (hr : ∀ e ∈ rest, e.account ≠ entry.account) (hen : entry.account ∉ accounts) :
    listWeight (entry :: rest) (entry.account :: accounts) =
      entry.weight.toNat + listWeight (entry :: rest) accounts := by
  have hs : rest.filter (fun e => (entry.account :: accounts).contains e.account) =
      rest.filter (fun e => accounts.contains e.account) := by
    refine filter_congr fun e he => ?_
    simp [hr e he]
  rw [listWeight, listWeight, filter_cons_of_pos (by simp), filter_cons_of_neg (by simpa using hen),
    hs, map_cons, sum_cons]

theorem weigh_eq_ok_iff (hsr : (iter.map SignerEntry.account).Pairwise (· < ·)) (hne : iter ≠ [])
    (hsg : (signers.map Signer.account).Pairwise (· < ·))
    (hr : w + 65535 * signers.length < 4294967296) :
    weigh crypto view iter w signers = some (.ok w') ↔
      (∀ s ∈ signers, s.account ∈ iter.map SignerEntry.account ∧ checkKey crypto view s = .tesSUCCESS) ∧
        w' = w + listWeight iter (signers.map Signer.account) := by
  induction signers generalizing iter w with
  | nil => simp [weigh, listWeight, eq_comm]
  | cons s rest ih =>
    obtain ⟨hf, hrs⟩ := pairwise_cons.mp hsg
    rw [weigh, forall_mem_cons]
    rcases advance_spec s.account hne with ⟨heq, hall⟩ | ⟨skipped, entry, after, rfl, hall, hle, heq⟩
    · rw [heq]
      refine iff_of_false (by simp) fun h => ?_
      obtain ⟨e, he, hacc⟩ := mem_map.mp h.1.1.1
      exact (hall e he).ne hacc
    · rw [heq]
      dsimp only
      rw [map_append, map_cons] at hsr
      have haf : ((entry :: after).map SignerEntry.account).Pairwise (· < ·) :=
        (pairwise_append.mp hsr).2.1
      obtain ⟨hg, _⟩ := pairwise_cons.mp haf
      have hmem : ∀ a, s.account ≤ a → (a ∈ (skipped ++ entry :: after).map SignerEntry.account ↔
          a ∈ (entry :: after).map SignerEntry.account) := by
        intro a ha
        rw [map_append, mem_append, or_iff_right]
        intro hsk
        obtain ⟨e, he, rfl⟩ := mem_map.mp hsk
        exact absurd (hall e he) (not_lt.mpr ha)
      split_ifs with hen
      · refine iff_of_false (by simp) fun h => ?_
        have hin := (hmem s.account le_rfl).mp h.1.1.1
        rw [map_cons, mem_cons] at hin
        rcases hin with heq | hin
        · exact hen heq.symm
        · exact absurd (hg _ hin) (not_lt.mpr hle)
      · have hacc := not_not.mp hen
        have hw := entry.weight.toNat_lt
        have hadd : add32 w entry.weight.toNat = w + entry.weight.toNat := by
          rw [add32]
          rw [length_cons] at hr
          omega
        have hsum : listWeight (skipped ++ entry :: after) ((s :: rest).map Signer.account) =
            entry.weight.toNat + listWeight (entry :: after) (rest.map Signer.account) := by
          rw [listWeight_skip, map_cons, ← hacc, listWeight_cons_self]
          · intro e he
            exact (hg _ (mem_map_of_mem he)).ne'
          · intro hin
            exact absurd (hf _ hin) (by rw [hacc]; exact lt_irrefl _)
          intro e he hin
          rw [map_cons, mem_cons] at hin
          rcases hin with heq | hin
          · exact (hall e he).ne heq
          · exact (hall e he).not_gt (hf _ hin)
        have hl := (hmem s.account le_rfl).mpr (by simp [hacc])
        have ho : (∀ s' ∈ rest, s'.account ∈ (skipped ++ entry :: after).map SignerEntry.account ∧
              checkKey crypto view s' = .tesSUCCESS) ↔
            ∀ s' ∈ rest, s'.account ∈ (entry :: after).map SignerEntry.account ∧
              checkKey crypto view s' = .tesSUCCESS := by
          refine forall₂_congr fun s' hs' => and_congr_left fun _ => hmem _ ?_
          exact (hf _ (mem_map_of_mem hs')).le
        rw [hsum, ho, hadd]
        split
        · next hkey =>
          rw [ih haf (by simp) hrs (by rw [length_cons] at hr; omega), ← Nat.add_assoc]
          simp only [hl, hkey, true_and]
        · next ter hkey =>
          refine iff_of_false (by simp) fun h => ?_
          exact hkey h.1.1.2

end Merge

section Authorization

variable (crypto : Crypto A)

section

variable (view : SigningLedger A K) (s : Signer A)

/-- The public key hashes to the signer's own account, which has no root or an enabled master key, or
to another account that is the regular key of the signer. -/
def MayUse : Prop :=
  (crypto.calcAccountID s.signingPubKey = s.account ∧
    ∀ keys, view.keysOf s.account = some keys → keys.disableMaster = false) ∨
  (crypto.calcAccountID s.signingPubKey ≠ s.account ∧
    ∃ keys, view.keysOf s.account = some keys ∧
      keys.regularKey = some (crypto.calcAccountID s.signingPubKey))

theorem checkKey_eq_tesSUCCESS_iff : checkKey crypto view s = .tesSUCCESS ↔
      crypto.publicKeyType s.signingPubKey ∧ MayUse crypto view s := by
  rw [checkKey, MayUse]
  by_cases ht : crypto.publicKeyType s.signingPubKey
  · rw [if_neg (by simpa using ht), and_iff_right ht]
    by_cases hown : crypto.calcAccountID s.signingPubKey = s.account
    · rw [if_pos hown]
      cases view.keysOf s.account <;> simp [hown]
    rw [if_neg hown]
    cases view.keysOf s.account with
    | none => simp [hown]
    | some keys =>
      cases hr : keys.regularKey with
      | none => simp [hown, hr]
      | some key =>
        have hc : key = crypto.calcAccountID s.signingPubKey ↔
            crypto.calcAccountID s.signingPubKey = key := eq_comm
        simp [hown, hr, hc]
  · simp [ht]

end

section

variable (tx : SignedTx A) (fullyCanonical : Bool)

omit [LinearOrder A] in
theorem validSig_eq_true_iff (s : Signer A) :
    STTx.validSig crypto tx fullyCanonical s ↔ crypto.publicKeyType s.signingPubKey ∧
      crypto.verify s.signingPubKey (tx.multiSigningData s.account) s.txnSignature fullyCanonical =
        .ok true := by
  rw [STTx.validSig]
  cases crypto.verify s.signingPubKey (tx.multiSigningData s.account) s.txnSignature fullyCanonical <;>
    split_ifs <;> simp_all

theorem checkSigners_iff (last : A) (signers : List (Signer A)) :
    (STTx.checkSigners crypto tx fullyCanonical last signers).1 ↔
      (last :: signers.map Signer.account).Pairwise (· < ·) ∧
        ∀ s ∈ signers, s.account ≠ tx.account ∧ STTx.validSig crypto tx fullyCanonical s := by
  induction signers generalizing last with
  | nil => simp [STTx.checkSigners]
  | cons s rest ih =>
    have hc : (last :: (s :: rest).map Signer.account).Pairwise (· < ·) ↔
        last < s.account ∧ (s.account :: rest.map Signer.account).Pairwise (· < ·) := by
      rw [map_cons, pairwise_cons, forall_mem_cons, and_assoc]
      refine and_congr_right fun hlt => and_iff_right_of_imp fun hr a ha => ?_
      exact hlt.trans ((pairwise_cons.mp hr).1 a ha)
    rw [STTx.checkSigners, hc, forall_mem_cons]
    split_ifs with hs hdup hu hsig
    · simp [hs]
    · simp [hdup]
    · simp [hu.le]
    · simp_all
    have hlt : last < s.account := lt_of_le_of_ne (not_lt.mp hu) hdup
    have hv : STTx.validSig crypto tx fullyCanonical s := by simpa using hsig
    rw [ih]
    simp only [hlt, hs, hv, ne_eq, not_false_eq_true, true_and]

end

structure Sufficient [OrderBot A] (canonical : Bool) (view : SigningLedger A K) (tx : SignedTx A)
    (signers : List (Signer A)) (list : SignerList A) : Prop where
  size : minMultiSigners ≤ signers.length ∧ signers.length ≤ maxMultiSigners
  sorted : (signers.map Signer.account).Pairwise (· < ·)
  nonzero : ∀ s ∈ signers, s.account ≠ ⊥
  notSelf : ∀ s ∈ signers, s.account ≠ tx.account
  listed : ∀ s ∈ signers, s.account ∈ list.signerEntries.map SignerEntry.account
  mayUse : ∀ s ∈ signers, MayUse crypto view s
  valid : ∀ s ∈ signers, crypto.publicKeyType s.signingPubKey ∧
    crypto.verify s.signingPubKey (tx.multiSigningData s.account) s.txnSignature
      (tx.fullyCanonicalSig || canonical) = .ok true
  quorum : list.signerQuorum.toNat ≤ listWeight list.signerEntries (signers.map Signer.account)

/-- A transaction is multi-signed by signers that are sufficient for the list of its account. -/
def SignersAuthorized [OrderBot A] (canonical : Bool) (view : SigningLedger A K) (tx : SignedTx A) : Prop :=
  ∃ signers list, tx.signers = some signers ∧ tx.txnSignature = none ∧
    view.signerLists.find? tx.account = some list ∧ Sufficient crypto canonical view tx signers list

variable {crypto} [OrderBot A] {canonical : Bool} {view : SigningLedger A K} {tx : SignedTx A}
  {signers : List (Signer A)} {list : SignerList A}

theorem checkMultiSign_preflight_iff (hs : tx.signers = some signers) :
    (STTx.checkMultiSign crypto canonical tx).1 ↔ tx.txnSignature = none ∧
      (minMultiSigners ≤ signers.length ∧ signers.length ≤ maxMultiSigners) ∧
      ((signers.map Signer.account).Pairwise (· < ·) ∧ ∀ s ∈ signers, s.account ≠ ⊥) ∧
      ∀ s ∈ signers, s.account ≠ tx.account ∧
        STTx.validSig crypto tx (tx.fullyCanonicalSig || canonical) s := by
  rw [STTx.checkMultiSign, hs]
  dsimp only
  split_ifs with hsig hsz
  · simp [Option.isSome_iff_ne_none.mp hsig]
  · refine iff_of_false (by simp) fun h => ?_
    omega
  have hn : tx.txnSignature = none := by simpa using hsig
  have hb : minMultiSigners ≤ signers.length ∧ signers.length ≤ maxMultiSigners := by omega
  rw [checkSigners_iff, pairwise_cons]
  simp only [hn, hb, true_and, forall_mem_map, bot_lt_iff_ne_bot]
  rw [and_comm (a := ∀ s ∈ signers, s.account ≠ ⊥)]

omit [OrderBot A] in
theorem checkMultiSign_preclaim_iff (hl : view.signerLists.find? tx.account = some list)
    (hi : Installed list) (hs : tx.signers = some signers)
    (hsr : (signers.map Signer.account).Pairwise (· < ·)) (hsz : signers.length ≤ maxMultiSigners) :
    checkMultiSign crypto view tx = some .tesSUCCESS ↔
      (∀ s ∈ signers, s.account ∈ list.signerEntries.map SignerEntry.account ∧
        checkKey crypto view s = .tesSUCCESS) ∧
      list.signerQuorum.toNat ≤ listWeight list.signerEntries (signers.map Signer.account) := by
  have hr : 0 + 65535 * signers.length < 4294967296 := by
    rw [maxMultiSigners] at hsz
    omega
  have hwg : ∀ w, weigh crypto view list.signerEntries 0 signers = some (.ok w) ↔ _ :=
    fun w => weigh_eq_ok_iff hi.sorted hi.nonempty hsr hr
  rw [checkMultiSign, hl, hs]
  dsimp only [Option.getD_some]
  split
  · next hn => exact absurd hn (weigh_ne_none hi.nonempty)
  · next ter he =>
    refine iff_of_false (fun h => weigh_error_ne he (Option.some.inj h)) fun h => ?_
    cases he.symm.trans ((hwg _).mpr ⟨h.1, rfl⟩)
  · next w hok =>
    obtain ⟨hall, hw⟩ := (hwg w).mp hok
    rw [zero_add] at hw
    subst hw
    split_ifs with hlt
    · exact iff_of_false (by simp) fun h => absurd h.2 (not_le.mpr hlt)
    · exact iff_of_true rfl ⟨hall, not_lt.mp hlt⟩

theorem passes_iff_authorized (hls : view.Lists) :
    ((STTx.checkMultiSign crypto canonical tx).1 ∧ checkMultiSign crypto view tx = some .tesSUCCESS) ↔
      SignersAuthorized crypto canonical view tx := by
  rw [SignersAuthorized]
  cases hsg : tx.signers with
  | none => simp [STTx.checkMultiSign, hsg]
  | some signers =>
    cases hl : view.signerLists.find? tx.account with
    | none => simp [checkMultiSign, hl]
    | some list =>
      rw [checkMultiSign_preflight_iff hsg]
      constructor
      · rintro ⟨⟨hn, hsz, ⟨hsr, hnn⟩, hall⟩, hpre⟩
        obtain ⟨hk, hq⟩ := (checkMultiSign_preclaim_iff hl (hls _ list hl) hsg hsr
          hsz.2).mp hpre
        refine ⟨signers, list, rfl, hn, rfl, hsz, hsr, hnn, fun s hs => (hall s hs).1,
          fun s hs => (hk s hs).1, fun s hs => ?_, fun s hs => ?_, hq⟩
        · exact ((checkKey_eq_tesSUCCESS_iff crypto view s).mp (hk s hs).2).2
        · exact (validSig_eq_true_iff crypto tx _ s).mp (hall s hs).2
      · rintro ⟨_, _, heq, hn, heq', h⟩
        cases heq
        cases heq'
        refine ⟨⟨hn, h.size, ⟨h.sorted, h.nonzero⟩, fun s hs => ⟨h.notSelf s hs, ?_⟩⟩, ?_⟩
        · exact (validSig_eq_true_iff crypto tx _ s).mpr (h.valid s hs)
        · refine (checkMultiSign_preclaim_iff hl (hls _ _ hl) hsg h.sorted h.size.2).mpr
            ⟨fun s hs => ⟨h.listed s hs, ?_⟩, h.quorum⟩
          exact (checkKey_eq_tesSUCCESS_iff crypto view s).mpr ⟨(h.valid s hs).1, h.mayUse s hs⟩

omit [OrderBot A] in
theorem checkMultiSign_ne_none (hl : view.Lists) : checkMultiSign crypto view tx ≠ none := by
  rw [checkMultiSign]
  split
  · simp
  · next list hls =>
    have hne := (hl _ list hls).nonempty
    split
    · next hn => exact absurd hn (weigh_ne_none hne)
    · simp
    · split_ifs <;> simp

end Authorization

/-- With the signer lists of any run, a multi-signed transaction passes exactly if it is authorized, and
the walk through a list never leaves it. -/
theorem multisign_iff_authorized [OrderBot A] (crypto : Crypto A) (signersIndex : A → K) (canonical : Bool)
    (ledger : Ledger A K) (keys : OrdMap A (Keys A)) (events : List (SigningEvent A K)) (tx : SignedTx A) :
    (((STTx.checkMultiSign crypto canonical tx).1 ∧
      checkMultiSign crypto (events.foldl (SigningLedger.step signersIndex) { ledger, keys }) tx =
        some .tesSUCCESS) ↔
      SignersAuthorized crypto canonical (events.foldl (SigningLedger.step signersIndex)
        { ledger, keys }) tx) ∧
    checkMultiSign crypto (events.foldl (SigningLedger.step signersIndex) { ledger, keys }) tx ≠ none := by
  have hstart : SigningLedger.Lists ({ ledger, keys } : SigningLedger A K) := fun a list h => by cases h
  have hall : Run.Allowed (SigningLedger.step signersIndex) (fun _ _ => True) { ledger, keys } events :=
    Run.allowed_of_forall (fun _ _ => trivial) _ events
  have hlists := Run.invariant SigningLedger.Lists (fun _ e h _ => h.step e) events hstart hall
  exact ⟨passes_iff_authorized hlists, checkMultiSign_ne_none hlists⟩

section Example

def byteCrypto : Crypto Nat where
  publicKeyType key := key.length = 1
  calcAccountID key := (key.headD 0).toNat
  verify _ _ signature _ := .ok (signature = [1])
  toBase58 a := toString a

def signedBy (key : UInt8) (account : Nat) : Signer Nat :=
  { account, signingPubKey := [key], txnSignature := [1] }

def signedTx (signers : List (Signer Nat)) : SignedTx Nat :=
  { account := 1, signers := some signers, txnSignature := none, fullyCanonicalSig := true
    multiSigningData := fun _ => [] }

def signerAccounts : Ledger Nat Nat where
  accounts := ((OrdMap.empty.insert 0 { balance := 20, sequence := 1 }).insert 1
    { balance := 200, sequence := 5 }).insert 3 { balance := 50, sequence := 8 }

/-- The regular key of account 3 is that of its disabled master key. Account 5 is that of account 0. -/
def signerKeys : OrdMap Nat (Keys Nat) :=
  (OrdMap.empty.insert 3 { disableMaster := true, regularKey := some 3 }).insert 0 { regularKey := some 5 }

def setSigners (accounts : List Nat) : SigningEvent Nat Nat :=
  .setSignerList
    { account := 1, fee := 1, sequence := 5, signerQuorum := 2
      signerEntries := some (accounts.map fun a => { entry := { account := a, weight := 2 } }) }
    passed ⟨10, 2⟩ true

def withSigners (accounts : List Nat) : SigningLedger Nat Nat :=
  [setSigners accounts].foldl (SigningLedger.step id) { ledger := signerAccounts, keys := signerKeys }

/-- A listed signer with enough weight is refused where its current regular key is its own disabled
master key, and where its account is zero. -/
theorem listed_signers_refused :
    ((STTx.checkMultiSign byteCrypto true (signedTx [signedBy 3 3])).1 ∧
      (withSigners [3, 2]).keysOf 3 = some { disableMaster := true, regularKey := some 3 } ∧
      listWeight [⟨2, 2⟩, ⟨3, 2⟩] [3] = 2 ∧
      ((withSigners [3, 2]).signerLists.find? 1).map SignerList.signerEntries = some [⟨2, 2⟩, ⟨3, 2⟩] ∧
      checkMultiSign byteCrypto (withSigners [3, 2]) (signedTx [signedBy 3 3]) =
        some (.tef .tefMASTER_DISABLED)) ∧
    ((withSigners [2, 0]).keysOf 0 = some { regularKey := some 5 } ∧
      checkMultiSign byteCrypto (withSigners [2, 0]) (signedTx [signedBy 5 0]) = some .tesSUCCESS ∧
      STTx.checkMultiSign byteCrypto true (signedTx [signedBy 5 0]) =
        (false, "Duplicate Signers not allowed.")) := by
  decide

end Example

end Rippled.Tx
