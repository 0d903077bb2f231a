import Rippled.Lib.Total
import Rippled.Tx.FeeOnly
import Rippled.Tx.Tickets

namespace Rippled.Tx

open Lib Directory Transactor Function OrdMap

variable {keepRoot : Bool} {seq' page : Nat} {A K : Type} [LinearOrder A] [LinearOrder K]

def Ledger.numbers (l : Ledger A K) (a : A) : Option (Nat × Nat) :=
  (l.accounts.find? a).map fun root => (root.sequence, root.ticketCount.getD 0)

def Ledger.ticketTotal (l : Ledger A K) (a : A) : Int :=
  l.tickets.total fun t => if t.account = a then 1 else 0

/-- Tickets are filed under their numbers and in the directories of their owners, they are below the
sequences of their owners, and as many as the owners claim. -/
structure TicketsOk (idx : Indexes A K) (l : Ledger A K) (num : A → Option (Nat × Nat)) : Prop where
  keyed : ∀ k t, l.tickets.find? k = some t → k = idx.ticket t.account t.ticketSequence
  below : ∀ k t, l.tickets.find? k = some t → ∃ s c, num t.account = some (s, c) ∧ t.ticketSequence < s
  counted : ∀ a s c, num a = some (s, c) → l.ticketTotal a = c ∧ c ≤ CreateTicket.maxTicketThreshold
  offers : ∀ k, (l.offers.find? k).isSome → ∀ a n, k ≠ idx.ticket a n
  tidy : ∀ a, Tidy (l.ownerDir a)
  placed_iff : ∀ a b n page, (idx.ticket b n, page) ∈ placed (l.ownerDir a) ↔
    b = a ∧ ∃ t, l.tickets.find? (idx.ticket b n) = some t ∧ t.ownerNode = page

/-- Numbers that were given out lie below the sequence of their account, or, if it is deleted, below
the ledgers to come. -/
structure Past (num : A → Option (Nat × Nat)) (seq : Nat) (given : List (A × Nat)) : Prop where
  lived : ∀ a n s c, (a, n) ∈ given → num a = some (s, c) → n < s
  gone : ∀ a n, (a, n) ∈ given → num a = none → n < seq

/-- No number that was used or issued can be used or issued again. -/
structure Good (idx : Indexes A K) (seq : Nat) (used issued : List (A × Nat)) (l : Ledger A K)
    (num : A → Option (Nat × Nat)) : Prop where
  tickets : TicketsOk idx l num
  pastUsed : Past num seq used
  pastIssued : Past num seq issued
  spent : ∀ a n, (a, n) ∈ used → l.tickets.find? (idx.ticket a n) = none

/-- What work that does not concern tickets may do: accounts keep their numbers, new ones start where
a payment lets them start, and tickets stay in the directories. -/
structure Unrelated (env : Env A K) (idx : Indexes A K) (l l' : Ledger A K) : Prop where
  tickets : l'.tickets = l.tickets
  offers : ∀ k, (l'.offers.find? k).isSome → (l.offers.find? k).isSome ∨ ∀ a n, k ≠ idx.ticket a n
  kept : ∀ a s c, l.numbers a = some (s, c) → l'.numbers a = some (s, c)
  opened : ∀ a s c, l.numbers a = none → l'.numbers a = some (s, c) → s = newSequence env ∧ c = 0
  tidy : ∀ a, Tidy (l.ownerDir a) → Tidy (l'.ownerDir a)
  placed_iff : ∀ a b n page, (idx.ticket b n, page) ∈ placed (l'.ownerDir a) ↔
    (idx.ticket b n, page) ∈ placed (l.ownerDir a)

/-- Accounts can be deleted, and the ledger does not come before the last one. -/
structure Later (env : Env A K) (seq : Nat) : Prop where
  deletable : env.info.rules.deletableAccounts
  seq_le : seq ≤ env.info.seq

variable {given : List (A × Nat)} {env : Env A K} {idx : Indexes A K} {l l' l'' : Ledger A K}
  {seq : Nat} {used issued : List (A × Nat)} {num : A → Option (Nat × Nat)}

theorem TicketsOk.ticketTotal_eq_zero (h : TicketsOk idx l num) {a : A} (ha : num a = none) :
    l.ticketTotal a = 0 := by
  refine total_eq_zero fun k t ht => if_neg ?_
  rintro rfl
  obtain ⟨s, c, hnum, _⟩ := h.below k t ht
  cases ha.symm.trans hnum

section

omit [LinearOrder A]

variable (h : Past num seq given) (hseq : seq ≤ seq')

include h hseq

theorem Past.mono {num' : A → Option (Nat × Nat)}
    (hk : ∀ a s c, num' a = some (s, c) → (∃ s' c', num a = some (s', c') ∧ s' ≤ s) ∨ num a = none ∧ seq ≤ s)
    (hg : ∀ a, num' a = none → ∀ s c, num a = some (s, c) → s ≤ seq') : Past num' seq' given where
  lived a n s c hn hs := by
    rcases hk a s c hs with ⟨s', c', hs', hle⟩ | ⟨hnn, hle⟩
    · exact (h.lived a n s' c' hn hs').trans_le hle
    · exact (h.gone a n hn hnn).trans_le hle
  gone a n hn hnn := by
    cases hnum : num a with
    | none => exact (h.gone a n hn hnum).trans_le hseq
    | some sc => exact (h.lived a n sc.1 sc.2 hn hnum).trans_le (hg a hnn sc.1 sc.2 hnum)

theorem Past.mono_seq : Past num seq' given where
  lived := h.lived
  gone a n hn hs := (h.gone a n hn hs).trans_le hseq

end

theorem Unrelated.numbers (h : Unrelated env idx l l') {a : A} {s c : Nat}
    (hs : l'.numbers a = some (s, c)) :
    l.numbers a = some (s, c) ∨ l.numbers a = none ∧ s = newSequence env ∧ c = 0 := by
  cases hnum : l.numbers a with
  | none => exact .inr ⟨rfl, h.opened a s c hnum hs⟩
  | some sc =>
    cases (h.kept a sc.1 sc.2 hnum).symm.trans hs
    exact .inl rfl

theorem TicketsOk.unrelated (h : TicketsOk idx l l.numbers) (hu : Unrelated env idx l l') :
    TicketsOk idx l' l'.numbers where
  keyed := by
    rw [hu.tickets]
    exact h.keyed
  below k t ht := by
    rw [hu.tickets] at ht
    obtain ⟨s, c, hnum, hlt⟩ := h.below k t ht
    exact ⟨s, c, hu.kept _ s c hnum, hlt⟩
  counted a s c hs := by
    rw [Ledger.ticketTotal, hu.tickets]
    rcases hu.numbers hs with hnum | ⟨hn, _, rfl⟩
    · exact h.counted a s c hnum
    · exact ⟨h.ticketTotal_eq_zero hn, Nat.zero_le _⟩
  offers k hk := (hu.offers k hk).elim (h.offers k) id
  tidy a := hu.tidy a (h.tidy a)
  placed_iff a b n page := by
    rw [hu.placed_iff, hu.tickets]
    exact h.placed_iff a b n page

theorem Good.unrelated (h : Good idx seq used issued l l.numbers) (hu : Unrelated env idx l l')
    (he : Later env seq) :
    Good idx seq used issued l' l'.numbers := by
  have hnew : newSequence env = env.info.seq := if_pos he.deletable
  have hk : ∀ a s c, l'.numbers a = some (s, c) →
      (∃ s' c', l.numbers a = some (s', c') ∧ s' ≤ s) ∨ l.numbers a = none ∧ seq ≤ s := by
    intro a s c hs
    rcases hu.numbers hs with hnum | ⟨hn, rfl, _⟩
    · exact .inl ⟨s, c, hnum, le_rfl⟩
    · exact .inr ⟨hn, hnew ▸ he.seq_le⟩
  have hg : ∀ a, l'.numbers a = none → ∀ s c, l.numbers a = some (s, c) → s ≤ seq := by
    intro a hn s c hs
    cases hn.symm.trans (hu.kept a s c hs)
  exact ⟨h.tickets.unrelated hu, h.pastUsed.mono le_rfl hk hg, h.pastIssued.mono le_rfl hk hg,
    by rw [hu.tickets]; exact h.spent⟩

theorem Unrelated.of_same (htc : l'.tickets = l.tickets) (ho : ∀ k, (l'.offers.find? k).isSome →
      (l.offers.find? k).isSome) (hn : ∀ a, l'.numbers a = l.numbers a)
    (hd : l'.ownerDirs = l.ownerDirs) : Unrelated env idx l l' := by
  have hdir : ∀ a, l'.ownerDir a = l.ownerDir a := fun a => by rw [Ledger.ownerDir, hd]; rfl
  refine ⟨htc, fun k hk => .inl (ho k hk), fun a s c hs => (hn a).trans hs,
    fun a s c hnn hs => ?_, fun a ht => ?_, fun a b n page => ?_⟩
  · cases hnn.symm.trans ((hn a).symm.trans hs)
  · rw [hdir]
    exact ht
  · rw [hdir]

theorem numbers_modifyAccount {f : AccountRoot → AccountRoot} (x : A)
    (hf : ∀ root, (f root).sequence = root.sequence ∧ (f root).ticketCount = root.ticketCount) (a : A) :
    (l.modifyAccount x f).numbers a = l.numbers a := by
  rw [Ledger.numbers, Ledger.numbers, Ledger.modifyAccount, find?_modify]
  split_ifs with ha
  · rw [ha]
    cases l.accounts.find? x with
    | none => rfl
    | some root => simp [hf root]
  · rfl

theorem Unrelated.modifyAccount {f : AccountRoot → AccountRoot} (x : A)
    (hf : ∀ root, (f root).sequence = root.sequence ∧ (f root).ticketCount = root.ticketCount) :
    Unrelated env idx l (l.modifyAccount x f) :=
  .of_same rfl (fun _ hk => hk) (numbers_modifyAccount x hf) rfl

theorem Unrelated.refl (l : Ledger A K) : Unrelated env idx l l :=
  .of_same rfl (fun _ hk => hk) (fun _ => rfl) rfl

theorem Unrelated.trans (h : Unrelated env idx l l') (h' : Unrelated env idx l' l'') :
    Unrelated env idx l l'' where
  tickets := h'.tickets.trans h.tickets
  offers k hk := (h'.offers k hk).elim (h.offers k) .inr
  kept a s c hs := h'.kept a s c (h.kept a s c hs)
  opened a s c hn hs := by
    rcases h'.numbers hs with hs' | ⟨_, hnew⟩
    · exact h.opened a s c hn hs'
    · exact hnew
  tidy a ht := h'.tidy a (h.tidy a ht)
  placed_iff a b n page := (h'.placed_iff a b n page).trans (h.placed_iff a b n page)

theorem numbers_insert (x : A) (root : AccountRoot) :
    { l with accounts := l.accounts.insert x root }.numbers =
      Function.update l.numbers x (some (root.sequence, root.ticketCount.getD 0)) := by
  funext a
  rw [Ledger.numbers, find?_insert, update_apply]
  split_ifs <;> rfl

theorem createDestination_unrelated (destination : A) :
    Unrelated env idx l (createDestination env destination l) := by
  rw [createDestination]
  split
  · next hn =>
    have hold : l.numbers destination = none := by rw [Ledger.numbers, hn]; rfl
    refine ⟨rfl, fun k hk => .inl hk, fun a s c hs => ?_, fun a s c ha hs => ?_, fun a ht => ht,
      fun a b n page => Iff.rfl⟩
    · rw [numbers_insert, update_apply, if_neg, hs]
      rintro rfl
      cases hold.symm.trans hs
    · rw [numbers_insert, update_apply] at hs
      split_ifs at hs
      · cases hs
        exact ⟨rfl, rfl⟩
      · cases ha.symm.trans hs
  · exact .refl l

theorem ownerDir_insert (owner a : A) (pages : Pages K) :
    { l with ownerDirs := l.ownerDirs.insert owner pages }.ownerDir a =
      if a = owner then pages else l.ownerDir a := by
  rw [Ledger.ownerDir, find?_insert]
  split_ifs <;> rfl

theorem Unrelated.ownerDirRemove {owner : A} {key : K}
    (h : l.ownerDirRemove owner page key keepRoot = .ok l') (htd : ∀ a, Tidy (l.ownerDir a))
    (hkey : ∀ a n, key ≠ idx.ticket a n) : Unrelated env idx l l' := by
  obtain ⟨pages, hp, rfl⟩ := ownerDirRemove_pages h
  obtain ⟨htd', hl, _⟩ := (htd owner).dirRemove hp
  refine ⟨rfl, fun _ hk => .inl hk, fun _ _ _ hs => hs, fun a s c hn hs => ?_, fun a ht => ?_,
    fun a b n p => ?_⟩
  · cases hn.symm.trans hs
  · rw [ownerDir_insert]
    split_ifs
    · exact htd'
    · exact ht
  · rw [ownerDir_insert]
    split_ifs with ha
    · subst ha
      exact ⟨hl.subset _, fun hm => hl.others _ hm (hkey b n).symm⟩
    · rfl

theorem bookDirRemove_eq {book : K} {key : K}
    (h : l.bookDirRemove book page key keepRoot = .ok l') :
    ∃ dirs, l' = { l with bookDirs := dirs } := by
  rw [Ledger.bookDirRemove] at h
  split at h
  · cases h
  · cases h
  · cases h
    exact ⟨_, rfl⟩

theorem offerDelete_unrelated {index : K} {sle : Offer A K} {ter : TER}
    (h : offerDelete l index sle = .ok (ter, l')) (ht : ∀ a, Tidy (l.ownerDir a))
    (hkey : ∀ a n, index ≠ idx.ticket a n) :
    Unrelated env idx l l' ∧ ∀ a, Leaves index (l.ownerDir a) (l'.ownerDir a) := by
  have hs : ∀ pages : Pages K, Leaves index pages pages := fun _ => ⟨fun _ h => h, fun _ h _ => h⟩
  rw [offerDelete] at h
  split at h
  · obtain ⟨ter', _, heq⟩ := map_eq_ok h
    cases heq
    exact ⟨.refl _, fun a => hs _⟩
  · next view hv =>
    have hun : Unrelated env idx l view := .ownerDirRemove hv ht hkey
    obtain ⟨pages, hp, rfl⟩ := ownerDirRemove_pages hv
    have hl : ∀ a, Leaves index (l.ownerDir a)
        ({ l with ownerDirs := l.ownerDirs.insert sle.account pages }.ownerDir a) := by
      intro a
      rw [ownerDir_insert]
      split_ifs with ha
      · subst ha
        exact ((ht sle.account).dirRemove hp).2.1
      · exact hs _
    split at h
    · obtain ⟨ter', _, heq⟩ := map_eq_ok h
      cases heq
      exact ⟨hun, hl⟩
    · next view' hv' =>
      obtain ⟨dirs, rfl⟩ := bookDirRemove_eq hv'
      cases h
      refine ⟨hun.trans (.of_same rfl (fun k hk => ?_) (fun a => ?_) rfl), hl⟩
      · dsimp only [Ledger.modifyAccount] at hk ⊢
        rw [find?_erase] at hk
        split_ifs at hk
        · cases hk
        · exact hk
      · exact numbers_modifyAccount (l := l) (f := AccountRoot.adjustOwnerCount (-1)) sle.account
          (fun root => ⟨rfl, rfl⟩) a

theorem OffersDeleted.unrelated {offers : List K} (h : OffersDeleted l offers l')
    (ht : ∀ a, Tidy (l.ownerDir a)) (ho : ∀ k, (l.offers.find? k).isSome → ∀ a n, k ≠ idx.ticket a n) :
    Unrelated env idx l l' := by
  induction h with
  | nil view => exact .refl view
  | cons hf hd _ ih =>
    have hun : Unrelated env idx _ _ :=
      (offerDelete_unrelated hd ht (ho _ (by simp [hf]))).1
    exact hun.trans (ih (fun a => hun.tidy a (ht a)) fun k hk =>
      (hun.offers k hk).elim (ho k) id)

def Indexes.Apart (idx : Indexes A K) : Prop :=
  ∀ a b n m, idx.ticket a n = idx.ticket b m → a = b ∧ n = m

variable {s c : Nat}

section Remove

variable {k : K} {t : Ticket A}

theorem TicketsOk.pos (h : TicketsOk idx l num) (ht : l.tickets.find? k = some t)
    (hnum : num t.account = some (s, c)) : 1 ≤ c := by
  have htt := (h.counted t.account s c hnum).1
  have he := total_erase (f := fun t' : Ticket A => if t'.account = t.account then 1 else 0) ht
  have hn := total_nonneg (f := fun t' : Ticket A => if t'.account = t.account then 1 else 0)
    (m := l.tickets.erase k) (fun t' => by split_ifs <;> simp)
  rw [if_pos rfl] at he
  rw [Ledger.ticketTotal] at htt
  omega

theorem lessTicket_getD (h1 : 1 ≤ c) (hc : c ≤ CreateTicket.maxTicketThreshold) :
    (lessTicket c).getD 0 = c - 1 := by
  rw [CreateTicket.maxTicketThreshold] at hc
  rw [lessTicket.eq_def]
  split
  · rfl
  · rw [Option.getD_some, add32]
    omega

theorem below_update {a b : A} {n s' c' : Nat} (ha : num a = some (s, c)) (hs : s ≤ s')
    (h : ∃ s₁ c₁, num b = some (s₁, c₁) ∧ n < s₁) :
    ∃ s₁ c₁, update num a (some (s', c')) b = some (s₁, c₁) ∧ n < s₁ := by
  obtain ⟨s₁, c₁, hs₁, hlt⟩ := h
  by_cases hb : b = a
  · subst hb
    cases ha.symm.trans hs₁
    exact ⟨s', c', update_self _ _ _, by omega⟩
  · exact ⟨s₁, c₁, by rwa [update_of_ne hb], hlt⟩

theorem counted_update {a : A} {s' c' : Nat} {held held' : A → Int}
    (h : ∀ b s c, num b = some (s, c) → held b = c ∧ c ≤ CreateTicket.maxTicketThreshold)
    (ha : held' a = c' ∧ c' ≤ CreateTicket.maxTicketThreshold) (hb : ∀ b, b ≠ a → held' b = held b)
    (b : A) (s₁ c₁ : Nat) (hs₁ : update num a (some (s', c')) b = some (s₁, c₁)) :
    held' b = c₁ ∧ c₁ ≤ CreateTicket.maxTicketThreshold := by
  by_cases heq : b = a
  · subst heq
    rw [update_self] at hs₁
    cases hs₁
    exact ha
  · rw [update_of_ne heq] at hs₁
    rw [hb b heq]
    exact h b s₁ c₁ hs₁

theorem find?_of_erase {k' : K} {t' : Ticket A} (h : (l.tickets.erase k).find? k' = some t') :
    l.tickets.find? k' = some t' ∧ k' ≠ k := by
  rw [find?_erase] at h
  split_ifs at h with heq
  exact ⟨h, heq⟩

theorem TicketsOk.remove (hidx : idx.Apart) (h : TicketsOk idx l num)
    (ht : l.tickets.find? k = some t) {owner : A} (ho : t.account = owner) {pages : Pages K}
    (hdir : dirRemove (l.ownerDir owner) t.ownerNode k keepRoot = .ok (true, pages))
    (hnum : num owner = some (s, c)) (accounts : OrdMap A AccountRoot) : TicketsOk idx { l with
      accounts := accounts
      tickets := l.tickets.erase k
      ownerDirs := l.ownerDirs.insert owner pages }
      (Function.update num owner (some (s, c - 1))) := by
  subst ho
  obtain ⟨htd, hl, _, hg⟩ := (h.tidy t.account).dirRemove hdir
  have hkey := h.keyed k t ht
  refine ⟨fun k' t' ht' => h.keyed k' t' (find?_of_erase ht').1, fun k' t' ht' =>
    below_update hnum le_rfl (h.below k' t' (find?_of_erase ht').1),
    counted_update h.counted ?_ fun b hb => ?_,
    h.offers, fun a => ?_, fun a b n page => ?_⟩
  · have he := total_erase (f := fun t' : Ticket A => if t'.account = t.account then 1 else 0) ht
    obtain ⟨htt, hle⟩ := h.counted t.account s c hnum
    have hpos := h.pos ht hnum
    rw [Ledger.ticketTotal] at htt
    rw [Ledger.ticketTotal, he, htt, if_pos rfl]
    exact ⟨by omega, by omega⟩
  · have he := total_erase (f := fun t' : Ticket A => if t'.account = b then 1 else 0) ht
    rw [Ledger.ticketTotal, he, if_neg (Ne.symm hb), sub_zero]
    rfl
  · rw [Ledger.ownerDir, find?_insert]
    split_ifs
    · exact htd
    · exact h.tidy a
  · rw [Ledger.ownerDir, find?_insert, find?_erase]
    have hold := h.placed_iff a b n page
    split_ifs with ha hk hk
    · exact iff_of_false (hk ▸ hg page) (by simp)
    · subst ha
      exact Iff.trans ⟨hl.subset _, fun hm => hl.others _ hm hk⟩ hold
    · refine iff_of_false (fun hm => ha ?_) (by simp)
      rw [← (hold.mp hm).1, (hidx _ _ _ _ (hk.trans hkey)).1]
    · exact hold

end Remove

section Consume

variable {tx : Common A} {a : A} {root : AccountRoot}

theorem numbers_of_find? (h : l.accounts.find? a = some root) :
    l.numbers a = some (root.sequence, root.ticketCount.getD 0) := by
  rw [Ledger.numbers, h]
  rfl

theorem Past.update {given : List (A × Nat)} (h : Past num seq given) (ha : num a = some (s, c))
    {s' c' : Nat} (hs : s ≤ s') : Past (Function.update num a (some (s', c'))) seq given := by
  refine h.mono le_rfl (fun b s₁ c₁ hs₁ => .inl ?_) fun b hn => ?_
  · by_cases hb : b = a
    · subst hb
      rw [update_self] at hs₁
      cases hs₁
      exact ⟨s, c, ha, hs⟩
    · rw [update_of_ne hb] at hs₁
      exact ⟨s₁, c₁, hs₁, le_rfl⟩
  · by_cases hb : b = a
    · subst hb
      rw [update_self] at hn
      cases hn
    · rw [update_of_ne hb] at hn
      intro s₁ c₁ hs₁
      cases hn.symm.trans hs₁

omit [LinearOrder A] in
theorem Past.cons {n : Nat} (h : Past num seq given) (ha : num a = some (s, c)) (hn : n < s) :
    Past num seq ((a, n) :: given) where
  lived b m s' c' hm hs' := by
    rcases List.mem_cons.mp hm with heq | hm
    · cases heq
      cases ha.symm.trans hs'
      exact hn
    · exact h.lived b m s' c' hm hs'
  gone b m hm hnn := by
    rcases List.mem_cons.mp hm with heq | hm
    · cases heq
      cases ha.symm.trans hnn
    · exact h.gone b m hm hnn

def NoNewTickets (l l' : Ledger A K) : Prop :=
  ∀ k t, l'.tickets.find? k = some t → l.tickets.find? k = some t

structure Took (idx : Indexes A K) (seq : Nat) (used issued : List (A × Nat)) (tx : Common A)
    (l l' : Ledger A K) : Prop where
  good : Good idx seq ((tx.account, tx.getSeqProxy.value) :: used) issued l' l'.numbers
  fresh : (tx.account, tx.getSeqProxy.value) ∉ used
  tickets : NoNewTickets l l'
  numbers : ∃ s c s' c', l.numbers tx.account = some (s, c) ∧ l'.numbers tx.account = some (s', c') ∧
    s ≤ s' ∧ s' ≤ s + 1 ∧ c = c' + if tx.getSeqProxy.type = .ticket then 1 else 0

theorem Good.consumeSequence (hidx : idx.Apart) (h : Good idx seq used issued l l.numbers)
    (hr : l.accounts.find? tx.account = some root) (hty : tx.getSeqProxy.type = .seq)
    (hv : tx.getSeqProxy.value = root.sequence) (hrm : root.sequence + 255 < 4294967296) :
    Took idx seq used issued tx l (l.modifyAccount tx.account fun root =>
      { root with sequence := add32 tx.getSeqProxy.value 1 }) := by
  have hnum := numbers_of_find? hr
  have hadd : add32 tx.getSeqProxy.value 1 = root.sequence + 1 := by
    rw [hv, add32]
    omega
  have hnum' : (l.modifyAccount tx.account fun root =>
      { root with sequence := add32 tx.getSeqProxy.value 1 }).numbers =
      Function.update l.numbers tx.account (some (root.sequence + 1, root.ticketCount.getD 0)) := by
    funext b
    rw [Ledger.numbers, Ledger.modifyAccount, find?_modify, update_apply, hadd]
    split_ifs with hb
    · rw [hr]
      rfl
    · rfl
  refine ⟨⟨?_, ?_, ?_, ?_⟩, ?_, fun _ _ ht => ht, root.sequence, root.ticketCount.getD 0,
    root.sequence + 1, root.ticketCount.getD 0, hnum, by rw [hnum', update_self], by omega,
    le_rfl, by simp [hty]⟩
  · rw [hnum']
    exact ⟨h.tickets.keyed, fun k t ht => below_update hnum (by omega) (h.tickets.below k t ht),
      counted_update h.tickets.counted (h.tickets.counted _ _ _ hnum) fun _ _ => rfl,
      h.tickets.offers, h.tickets.tidy, h.tickets.placed_iff⟩
  · rw [hnum']
    exact (h.pastUsed.update hnum (by omega)).cons (update_self _ _ _) (by omega)
  · rw [hnum']
    exact h.pastIssued.update hnum (by omega)
  · intro b n hm
    rcases List.mem_cons.mp hm with heq | hm
    · cases heq
      rw [Option.eq_none_iff_forall_ne_some]
      intro t ht
      obtain ⟨ha, hn⟩ := hidx _ _ _ _ (h.tickets.keyed _ t ht)
      obtain ⟨s', c', hs', hlt⟩ := h.tickets.below _ t ht
      rw [← ha] at hs'
      cases hnum.symm.trans hs'
      omega
    · exact h.spent b n hm
  · intro hm
    have hlt := h.pastUsed.lived _ _ _ _ hm hnum
    omega

def Ledger.withoutTicket (l : Ledger A K) (a : A) (root : AccountRoot) (count : Nat) (k : K)
    (pages : Pages K) : Ledger A K :=
  { l with
    accounts := l.accounts.insert a ({ root with ticketCount := lessTicket count }.adjustOwnerCount (-1))
    tickets := l.tickets.erase k
    ownerDirs := l.ownerDirs.insert a pages }

variable (hidx : idx.Apart) (h : Good idx seq used issued l l.numbers)

include hidx h

theorem Good.withoutTicket {k : K} {t : Ticket A} {pages : Pages K} {count : Nat}
    {keepRoot : Bool} (ht : l.tickets.find? k = some t) (ho : t.account = a)
    (hdir : dirRemove (l.ownerDir a) t.ownerNode k keepRoot = .ok (true, pages))
    (hr : l.accounts.find? a = some root) (hc : root.ticketCount = some count) :
    Good idx seq used issued (l.withoutTicket a root count k pages)
        (l.withoutTicket a root count k pages).numbers ∧
      NoNewTickets l (l.withoutTicket a root count k pages) ∧ 1 ≤ count ∧
      l.numbers a = some (root.sequence, count) ∧
      (l.withoutTicket a root count k pages).numbers a = some (root.sequence, count - 1) := by
  have hnum := numbers_of_find? hr
  rw [hc, Option.getD_some] at hnum
  have hpos := h.tickets.pos ht (ho ▸ hnum)
  have hnum' : (l.withoutTicket a root count k pages).numbers =
      Function.update l.numbers a (some (root.sequence, count - 1)) := by
    rw [← lessTicket_getD hpos (h.tickets.counted _ _ _ hnum).2]
    exact numbers_insert a _
  rw [hnum']
  refine ⟨⟨h.tickets.remove hidx ht ho hdir hnum _, h.pastUsed.update hnum le_rfl,
    h.pastIssued.update hnum le_rfl, fun b n hm => ?_⟩, fun k' t' ht' => (find?_of_erase ht').1,
    hpos, hnum, update_self _ _ _⟩
  rw [Ledger.withoutTicket, find?_erase, h.spent b n hm, ite_self]

theorem Good.consumeTicket {t : Ticket A} {pages : Pages K} {count : Nat}
    (hty : tx.getSeqProxy.type = .ticket)
    (htc : l.tickets.find? (idx.ticket tx.account tx.getSeqProxy.value) = some t)
    (hdir : dirRemove (l.ownerDir tx.account) t.ownerNode
      (idx.ticket tx.account tx.getSeqProxy.value) true = .ok (true, pages))
    (hr : l.accounts.find? tx.account = some root) (hc : root.ticketCount = some count) :
    Took idx seq used issued tx l (l.withoutTicket tx.account root count
      (idx.ticket tx.account tx.getSeqProxy.value) pages) := by
  obtain ⟨ha, hn⟩ := hidx _ _ _ _ (h.tickets.keyed _ t htc)
  obtain ⟨hg, hnew, hpos, hnum, hnum'⟩ := h.withoutTicket hidx htc ha.symm hdir hr hc
  obtain ⟨s', c', hs', hlt⟩ := h.tickets.below _ t htc
  rw [← ha] at hs'
  cases hnum.symm.trans hs'
  refine ⟨⟨hg.tickets, hg.pastUsed.cons hnum' (by omega), hg.pastIssued, fun b n hm => ?_⟩, fun hm => ?_,
    hnew, root.sequence, count, root.sequence, count - 1, hnum, hnum', le_rfl, by omega,
    by rw [hty, if_pos rfl]; omega⟩
  · rcases List.mem_cons.mp hm with hb | hm
    · cases hb
      rw [Ledger.withoutTicket, find?_erase, if_pos rfl]
    · exact hg.spent b n hm
  · cases (h.spent _ _ hm).symm.trans htc

theorem Good.consume (hnum : l.numbers tx.account = some (s, c))
    (hv : tx.getSeqProxy.type = .seq → tx.getSeqProxy.value = s) (hrm : s + 255 < 4294967296)
    (hc : Consumed idx tx l l') : Took idx seq used issued tx l l' := by
  cases hc with
  | sequence ht =>
    cases hr : l.accounts.find? tx.account with
    | none =>
      rw [Ledger.numbers, hr] at hnum
      cases hnum
    | some root =>
      cases (numbers_of_find? hr).symm.trans hnum
      exact h.consumeSequence hidx hr ht (hv ht) hrm
  | ticket ht htc hdir hr hcn => exact h.consumeTicket hidx ht htc hdir hr hcn

end Consume

end Rippled.Tx
