import Rippled.Tx.TicketOrder

namespace Rippled.Tx

open Lib Directory Transactor Function

variable {A K : Type} [LinearOrder A] [LinearOrder K] {idx : Indexes A K} {l l' : Ledger A K}
  {seq : Nat} {used issued : List (A × Nat)} {num : A → Option (Nat × Nat)} {a : A}

section Create

variable {c cur count page : Nat} {pages : Pages K}

theorem ownerDirAdd_pages {key : K} (h : l.ownerDirAdd a key = .ok (page, l')) :
    ∃ pages, dirAdd false (l.ownerDir a) key = .ok (some page, pages) ∧
      l' = { l with ownerDirs := l.ownerDirs.insert a pages } := by
  rw [Ledger.ownerDirAdd] at h
  split at h
  · cases h
  · cases h
  · next pages hp =>
    cases h
    exact ⟨pages, hp, rfl⟩

def Ledger.withTicket (l : Ledger A K) (idx : Indexes A K) (a : A) (cur page : Nat) (pages : Pages K) :
    Ledger A K :=
  { l with
    ownerDirs := l.ownerDirs.insert a pages
    tickets := l.tickets.insert (idx.ticket a cur)
      { account := a, ticketSequence := cur, ownerNode := page } }

theorem find?_withTicket (k : K) : (l.withTicket idx a cur page pages).tickets.find? k =
    if k = idx.ticket a cur then some { account := a, ticketSequence := cur, ownerNode := page }
    else l.tickets.find? k := by
  rw [Ledger.withTicket, OrdMap.find?_insert]

theorem ownerDir_withTicket (b : A) : (l.withTicket idx a cur page pages).ownerDir b =
    if b = a then pages else l.ownerDir b :=
  ownerDir_insert a b pages

theorem TicketsOk.add (hidx : idx.Apart) (h : TicketsOk idx l num) (hnum : num a = some (cur, c))
    (hc : c < CreateTicket.maxTicketThreshold) (hnew : l.tickets.find? (idx.ticket a cur) = none)
    (hadd : dirAdd false (l.ownerDir a) (idx.ticket a cur) = .ok (some page, pages)) :
    TicketsOk idx (l.withTicket idx a cur page pages) (Function.update num a (some (cur + 1, c + 1))) := by
  have hkey : idx.ticket a cur ∉ (placed (l.ownerDir a)).map Prod.fst := by
    intro hm
    obtain ⟨⟨k, p⟩, hp, rfl⟩ := List.mem_map.mp hm
    obtain ⟨_, t, ht, _⟩ := (h.placed_iff a a cur p).mp hp
    cases hnew.symm.trans ht
  obtain ⟨htd, hmem⟩ := (h.tidy a).dirAdd hkey hadd
  refine ⟨fun k t ht => ?_, fun k t ht => ?_, counted_update h.counted ?_ fun b hb => ?_, h.offers,
    fun b => ?_, fun b b' n p => ?_⟩
  · rw [find?_withTicket] at ht
    split_ifs at ht with hk
    · cases ht
      exact hk
    · exact h.keyed k t ht
  · rw [find?_withTicket] at ht
    split_ifs at ht with hk
    · cases ht
      exact ⟨cur + 1, c + 1, update_self _ _ _, Nat.lt_succ_self cur⟩
    exact below_update hnum (Nat.le_succ cur) (h.below k t ht)
  · have htt := OrdMap.total_insert_of_none (f := fun t : Ticket A => if t.account = a then 1 else 0)
      hnew { account := a, ticketSequence := cur, ownerNode := page }
    have hold := (h.counted a cur c hnum).1
    rw [Ledger.ticketTotal] at hold
    rw [Ledger.ticketTotal, Ledger.withTicket, htt, hold, if_pos rfl]
    exact ⟨by simp, hc⟩
  · have htt := OrdMap.total_insert_of_none (f := fun t : Ticket A => if t.account = b then 1 else 0)
      hnew { account := a, ticketSequence := cur, ownerNode := page }
    rw [Ledger.ticketTotal, Ledger.withTicket, htt, if_neg (Ne.symm hb), add_zero]
    rfl
  · rw [ownerDir_withTicket]
    split_ifs
    · exact htd
    · exact h.tidy b
  · have hold := h.placed_iff b b' n p
    have hno : idx.ticket b' n = idx.ticket a cur → (idx.ticket b' n, p) ∉ placed (l.ownerDir b) := by
      intro hk hp
      obtain ⟨_, t, ht, _⟩ := hold.mp hp
      cases hnew.symm.trans (hk ▸ ht)
    rw [ownerDir_withTicket, find?_withTicket]
    split_ifs with hb hk hk
    · have hno := hno hk
      obtain ⟨rfl, rfl⟩ := hidx _ _ _ _ hk
      subst hb
      rw [hmem]
      simp only [hno, false_or, Prod.mk.injEq, true_and, Option.some.injEq, exists_eq_left']
      exact eq_comm
    · subst hb
      rw [hmem, ← hold]
      exact or_iff_left fun heq => hk (congrArg Prod.fst heq)
    · refine iff_of_false (hno hk) fun hr => hb ?_
      rw [← hr.1, (hidx _ _ _ _ hk).1]
    · exact hold

section

variable (hidx : idx.Apart) (h : Good idx seq used issued l num) (hnum : num a = some (cur, c))

include hidx h hnum

/-- A ticket whose number is the sequence of the account, which goes up by one. -/
theorem Good.add (hc : c < CreateTicket.maxTicketThreshold)
    (hnew : l.tickets.find? (idx.ticket a cur) = none)
    (hadd : dirAdd false (l.ownerDir a) (idx.ticket a cur) = .ok (some page, pages)) :
    Good idx seq used issued (l.withTicket idx a cur page pages)
      (Function.update num a (some (cur + 1, c + 1))) where
  tickets := h.tickets.add hidx hnum hc hnew hadd
  pastUsed := h.pastUsed.update hnum (Nat.le_succ cur)
  pastIssued := h.pastIssued.update hnum (Nat.le_succ cur)
  spent b n hm := by
    rw [find?_withTicket]
    split_ifs with hk
    · obtain ⟨rfl, rfl⟩ := hidx _ _ _ _ hk
      exact absurd (h.pastUsed.lived b n n c hm hnum) (lt_irrefl n)
    · exact h.spent b n hm

theorem Good.addTickets (hr : cur + count < 4294967296)
    (hcn : c + count ≤ CreateTicket.maxTicketThreshold)
    (hadd : CreateTicket.addTickets idx a count cur l = .ok l') :
    Good idx seq used issued l' (Function.update num a (some (cur + count, c + count))) ∧
      l'.accounts = l.accounts ∧ ∀ k t, l'.tickets.find? k = some t → l.tickets.find? k = none →
        t.account = a ∧ cur ≤ t.ticketSequence := by
  induction count generalizing l num cur c with
  | zero =>
    cases hadd
    refine ⟨?_, rfl, fun k t ht hnn => by cases hnn.symm.trans ht⟩
    rw [add_zero, add_zero, ← hnum, update_eq_self]
    exact h
  | succ count ih =>
    rw [CreateTicket.addTickets] at hadd
    split at hadd
    · cases hadd
    · next hnew =>
      split at hadd
      · cases hadd
      · next page view hv =>
        obtain ⟨pages, hp, rfl⟩ := ownerDirAdd_pages hv
        have hnx : add32 cur 1 = cur + 1 := by
          rw [add32]
          omega
        rw [hnx] at hadd
        obtain ⟨hg, hac, htc⟩ := ih (h.add hidx hnum (by omega) hnew hp)
          (update_self _ _ _) (by omega) (by omega) hadd
        rw [update_idem] at hg
        refine ⟨?_, hac, fun k t ht hnn => ?_⟩
        · have hcur : cur + (count + 1) = cur + 1 + count := by omega
          have hc : c + (count + 1) = c + 1 + count := by omega
          rw [hcur, hc]
          exact hg
        by_cases hk : k = idx.ticket a cur
        · have hok := hg.tickets.keyed k t ht
          obtain ⟨ha, hn⟩ := hidx _ _ _ _ (hk.symm.trans hok)
          exact ⟨ha.symm, hn.le⟩
        have hold : (l.withTicket idx a cur page pages).tickets.find? k = none := by
          rw [find?_withTicket, if_neg hk]
          exact hnn
        obtain ⟨ha, hle⟩ := htc k t ht hold
        exact ⟨ha, by omega⟩

end

theorem Good.withAccounts (h : Good idx seq used issued l num) (accounts : OrdMap A AccountRoot) :
    Good idx seq used issued { l with accounts := accounts } num :=
  ⟨⟨h.tickets.keyed, h.tickets.below, h.tickets.counted, h.tickets.offers, h.tickets.tidy,
    h.tickets.placed_iff⟩, h.pastUsed, h.pastIssued, h.spent⟩

theorem Good.createTicket {env : Env A K} {tx : CreateTicket A} {s : Nat} (hidx : idx.Apart)
    (h : Good idx seq used issued l l.numbers) (hnum : l.numbers tx.account = some (s, c))
    (hrm : s + tx.ticketCount < 4294967296)
    (hc : c + tx.ticketCount ≤ CreateTicket.maxTicketThreshold)
    (ha : tx.doApply env idx l = .ok l') : Good idx seq used issued l' l'.numbers ∧
      ∀ k t, l'.tickets.find? k = some t → l.tickets.find? k = none →
        t.account = tx.account ∧ s ≤ t.ticketSequence := by
  rw [CreateTicket.doApply] at ha
  split at ha
  · cases ha
  · next root hr =>
    cases (numbers_of_find? hr).symm.trans hnum
    dsimp only at ha
    split_ifs at ha
    obtain ⟨view, hv, ha⟩ := bind_eq_ok ha
    obtain ⟨hg, hac, ht⟩ := h.addTickets hidx hnum hrm hc hv
    cases ha
    refine ⟨?_, ht⟩
    have hnum' : (view.modifyAccount tx.account fun root' =>
        { root'.adjustOwnerCount tx.ticketCount with
          ticketCount := some (add32 (root'.ticketCount.getD 0) tx.ticketCount)
          sequence := add32 root.sequence tx.ticketCount }).numbers =
        Function.update l.numbers tx.account
          (some (root.sequence + tx.ticketCount, root.ticketCount.getD 0 + tx.ticketCount)) := by
      funext b
      rw [Ledger.numbers, Ledger.modifyAccount, hac, OrdMap.find?_modify, update_apply]
      split_ifs with hb
      · rw [hr]
        rw [CreateTicket.maxTicketThreshold] at hc
        simp only [Option.map_some, Option.getD_some, add32, Option.some.injEq, Prod.mk.injEq]
        omega
      · rfl
    rw [hnum']
    exact hg.withAccounts _

end Create

section Delete

variable {others : OtherEntries A K} {env : Env A K} {s : Nat}

/-- An entry that is neither a ticket nor an offer is removed without touching tickets, and the owner's
directory keeps what else is in it. -/
def OtherEntries.Proper (others : OtherEntries A K) (env : Env A K) (idx : Indexes A K) : Prop :=
  ∀ l a k l', (∀ b, Tidy (l.ownerDir b)) → (∀ b n, k ≠ idx.ticket b n) → others.remove l a k = .ok l' →
    Unrelated env idx l l' ∧ Leaves k (l.ownerDir a) (l'.ownerDir a)

/-- The state of the deletion of an account. Its sequence does not change any more. -/
structure Deleting (idx : Indexes A K) (seq : Nat) (used issued : List (A × Nat)) (base : Ledger A K) (a : A)
    (s : Nat) (l : Ledger A K) : Prop where
  good : Good idx seq used issued l l.numbers
  exists_num : ∃ c, l.numbers a = some (s, c)
  tickets : NoNewTickets base l

variable {base : Ledger A K}

theorem Deleting.unrelated (h : Deleting idx seq used issued base a s l) (hu : Unrelated env idx l l')
    (he : Later env seq) :
    Deleting idx seq used issued base a s l' := by
  obtain ⟨c, hnum⟩ := h.exists_num
  refine ⟨h.good.unrelated hu he, ⟨c, hu.kept a s c hnum⟩, fun k t ht => h.tickets k t ?_⟩
  rw [hu.tickets] at ht
  exact ht

theorem Deleting.ticketDelete (hidx : idx.Apart) (h : Deleting idx seq used issued base a s l)
    {k : K} {p : Nat} (hk : (k, p) ∈ placed (l.ownerDir a)) (hd : ticketDelete l a k = .ok l') :
    Deleting idx seq used issued base a s l' ∧ Leaves k (l.ownerDir a) (l'.ownerDir a) := by
  obtain ⟨t, pages, root, count, ht, hdir, hr, hc, rfl⟩ := ticketDelete_eq hd
  have hkey := h.good.tickets.keyed k t ht
  have ho : t.account = a := ((h.good.tickets.placed_iff a _ _ p).mp (hkey ▸ hk)).1
  obtain ⟨c, hnum⟩ := h.exists_num
  obtain ⟨hg, hnew, _, hnum₀, hnum'⟩ := h.good.withoutTicket hidx ht ho hdir hr hc
  cases hnum₀.symm.trans hnum
  refine ⟨⟨hg, ⟨_, hnum'⟩, fun k' t' ht' => h.tickets k' t' (hnew k' t' ht')⟩, ?_⟩
  have hl := ((h.good.tickets.tidy a).dirRemove hdir).2.1
  have hp : ((l.ownerDirs.insert a pages).find? a).getD OrdMap.empty = pages := by simp
  rw [← hp] at hl
  exact hl

section

variable (hidx : idx.Apart) (ho : others.Proper env idx) (he : Later env seq)
  (h : Deleting idx seq used issued base a s l)

include hidx ho he h

theorem Deleting.deleteEntry {k : K} {p : Nat} (hk : (k, p) ∈ placed (l.ownerDir a))
    (hd : DeleteAccount.deleteEntry others a l k = .ok l') :
    Deleting idx seq used issued base a s l' ∧ Leaves k (l.ownerDir a) (l'.ownerDir a) := by
  rw [DeleteAccount.deleteEntry] at hd
  split at hd
  · exact h.ticketDelete hidx hk hd
  · next htc =>
    split at hd
    · next sle hof =>
      split at hd
      · cases hd
      · next view hdl =>
        cases hd
        have hkey := h.good.tickets.offers k (by simp [hof])
        have hoff : Unrelated env idx l l' ∧ ∀ b, Leaves k (l.ownerDir b) (l'.ownerDir b) :=
          offerDelete_unrelated hdl h.good.tickets.tidy hkey
        exact ⟨h.unrelated hoff.1 he, hoff.2 a⟩
      · cases hd
    · have hkey : ∀ b n, k ≠ idx.ticket b n := by
        rintro b n rfl
        obtain ⟨_, t, ht, _⟩ := (h.good.tickets.placed_iff a b n p).mp hk
        cases htc.symm.trans ht
      obtain ⟨hun, hl⟩ := ho l a k l' h.good.tickets.tidy hkey hd
      exact ⟨h.unrelated hun he, hl⟩

theorem Deleting.deleteEntries (hd : DeleteAccount.deleteEntries others a l = .ok l') :
    Deleting idx seq used issued base a s l' ∧ placed (l'.ownerDir a) = [] := by
  have hc : ∀ l, Deleting idx seq used issued base a s l → Chained (l.ownerDir a) :=
    fun l h => (h.good.tickets.tidy a).chained
  rw [DeleteAccount.deleteEntries] at hd
  split at hd
  · next hr =>
    cases hd
    refine ⟨h, ?_⟩
    rw [placed, List.map_eq_nil_iff.mp ((hc _ h).keys_eq_nil hr)]
    rfl
  · next root hr =>
    refine clear_spec _ hc ?_ h (At.root (hc l h) hr) hd
    intro l₁ l₂ k p h₁ hk hd₁
    obtain ⟨h₂, hl⟩ := h₁.deleteEntry hidx ho he hk hd₁
    exact ⟨h₂, hl.mem_iff (h₁.good.tickets.tidy a) hk⟩

end

theorem Unrelated.deleteDirectory (htd : Tidy (l.ownerDir a)) (hnil : placed (l.ownerDir a) = [])
    (hd : DeleteAccount.deleteDirectory a l = .ok l') :
    Unrelated env idx l l' ∧ placed (l'.ownerDir a) = [] := by
  rw [DeleteAccount.deleteDirectory] at hd
  split_ifs at hd
  · cases hd
    exact ⟨.refl _, hnil⟩
  split at hd
  · cases hd
  · cases hd
  · next pages hp =>
    cases hd
    obtain ⟨hch, hnil'⟩ := emptyDirDelete_spec htd.chained hnil hp
    have htd' : Tidy pages := ⟨hch, by rw [hnil']; exact .nil⟩
    refine ⟨⟨rfl, fun _ hk => .inl hk, fun _ _ _ hs => hs, fun b s c hn hs => ?_, fun b ht => ?_,
      fun b b' n page => ?_⟩, by rw [ownerDir_insert, if_pos rfl, hnil']⟩
    · cases hn.symm.trans hs
    · rw [ownerDir_insert]
      split_ifs
      · exact htd'
      · exact ht
    · rw [ownerDir_insert]
      split_ifs with hb
      · rw [hb, hnil, hnil']
      · rfl

theorem numbers_erase (x : A) : { l with accounts := l.accounts.erase x }.numbers =
    Function.update l.numbers x none := by
  funext b
  rw [Ledger.numbers, OrdMap.find?_erase, update_apply]
  split_ifs <;> rfl

theorem Deleting.erase (h : Deleting idx seq used issued base a s l) (hnil : placed (l.ownerDir a) = [])
    {seq' : Nat} (hseq : seq ≤ seq') (hs : s ≤ seq') :
    Good idx seq' used issued { l with accounts := l.accounts.erase a }
      { l with accounts := l.accounts.erase a }.numbers := by
  obtain ⟨c, hnum⟩ := h.exists_num
  have hn : ∀ k t, l.tickets.find? k = some t → t.account ≠ a := by
    rintro k t ht rfl
    have hkey := h.good.tickets.keyed k t ht
    have hp := (h.good.tickets.placed_iff t.account t.account t.ticketSequence t.ownerNode).mpr
      ⟨rfl, t, hkey ▸ ht, rfl⟩
    rw [hnil] at hp
    cases hp
  have hk : ∀ b s' c', Function.update l.numbers a none b = some (s', c') → l.numbers b = some (s', c') := by
    intro b s' c' hs'
    by_cases hb : b = a
    · rw [hb, update_self] at hs'
      cases hs'
    · rwa [update_of_ne hb] at hs'
  have hg : ∀ b, Function.update l.numbers a none b = none → ∀ s' c', l.numbers b = some (s', c') →
      s' ≤ seq' := by
    intro b hn' s' c' hs'
    by_cases hb : b = a
    · subst hb
      cases hnum.symm.trans hs'
      exact hs
    · rw [update_of_ne hb] at hn'
      cases hn'.symm.trans hs'
  rw [numbers_erase]
  refine ⟨⟨h.good.tickets.keyed, fun k t ht => ?_, fun b s' c' hs' => ?_, h.good.tickets.offers,
    h.good.tickets.tidy, h.good.tickets.placed_iff⟩, ?_, ?_, h.good.spent⟩
  · rw [update_of_ne (hn k t ht)]
    exact h.good.tickets.below k t ht
  · exact h.good.tickets.counted b s' c' (hk b s' c' hs')
  · exact h.good.pastUsed.mono hseq (fun b s' c' hs' => .inl ⟨s', c', hk b s' c' hs', le_rfl⟩) hg
  · exact h.good.pastIssued.mono hseq (fun b s' c' hs' => .inl ⟨s', c', hk b s' c' hs', le_rfl⟩) hg

theorem Good.deleteAccount {tx : DeleteAccount A} {c : Nat} (hidx : idx.Apart) (ho : others.Proper env idx)
    (he : Later env seq)
    (h : Good idx seq used issued l l.numbers) (hnum : l.numbers tx.account = some (s, c))
    (hs : s ≤ env.info.seq) (ha : tx.doApply others l = .ok l') :
    Good idx env.info.seq used issued l' l'.numbers ∧ NoNewTickets l l' := by
  rw [DeleteAccount.doApply] at ha
  split at ha
  · cases ha
  · next src _ =>
    split_ifs at ha
    obtain ⟨view, hv, ha⟩ := bind_eq_ok ha
    obtain ⟨view', hv', ha⟩ := bind_eq_ok ha
    have hst : Deleting idx seq used issued l tx.account s l := ⟨h, ⟨c, hnum⟩, fun _ _ ht => ht⟩
    obtain ⟨hcl, hnil⟩ := hst.deleteEntries hidx ho he hv
    have hc : ∀ (l : Ledger A K) x n, Unrelated env idx l (l.modifyAccount x (AccountRoot.credit n)) :=
      fun l x n => .modifyAccount x fun root => ⟨rfl, rfl⟩
    have hp := (hcl.unrelated (hc view tx.destination src.balance) he).unrelated
      (hc _ tx.account (-src.balance)) he
    have hdir : Unrelated env idx _ view' ∧ placed (view'.ownerDir tx.account) = [] :=
      Unrelated.deleteDirectory (hp.good.tickets.tidy tx.account) hnil hv'
    have hl := hp.unrelated hdir.1 he
    cases ha
    exact ⟨hl.erase hdir.2 he.seq_le hs, hl.tickets⟩

end Delete

end Rippled.Tx
