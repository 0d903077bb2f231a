import Mathlib.Algebra.GroupWithZero.Nat
import Mathlib.Algebra.Order.BigOperators.Group.List
import Mathlib.Algebra.Order.Group.Nat
import Mathlib.Data.Finset.Insert

/-! `peerfinder/impl/Handouts.h`: endpoints of the live cache dealt out to targets. -/

namespace Rippled.PeerFinder

section Loop

/-- A target class: what all its targets `τ` hold is one state `σ`. -/
structure Target (σ τ ε : Type) where
  full : σ → τ → Bool
  tryInsert : σ → τ → ε → Option σ

variable {σ τ ε : Type} (T : Target σ τ ε)

/-- The first endpoint the target takes moves to the back of its hop list. -/
def handoutOne (s : σ) (t : τ) : List ε → Option (σ × List ε)
  | [] => none
  | e :: h =>
    match T.tryInsert s t e with
    | some s' => some (s', h ++ [e])
    | none => (handoutOne s t h).map fun r => (r.1, e :: r.2)

/-- The variables of the loop over the targets; `c` is the hop list it deals from. -/
structure Turn (σ ε : Type) where
  s : σ
  c : List ε
  n : Nat
  allFull : Bool

def offer (p : Turn σ ε) (t : τ) : Turn σ ε :=
  if T.full p.s t then p
  else
    match handoutOne T p.s t p.c with
    | some (s, c) => ⟨s, c, p.n + 1, false⟩
    | none => { p with allFull := false }

/-- One pass over the hop lists; at the end, whether it returned from `handout`. -/
def pass (ts : List τ) (s : σ) (n : Nat) : List (List ε) → σ × List (List ε) × Nat × Bool
  | [] => (s, [], n, false)
  | c :: ls =>
    let p := ts.foldl (offer T) ⟨s, c, n, true⟩
    if p.allFull then (p.s, p.c :: ls, p.n, true)
    else
      let r := pass ts p.s p.n ls
      (r.1, p.c :: r.2.1, r.2.2)

/-- `for (;;)`, with a bound on the number of passes. -/
def handout (ts : List τ) : Nat → σ → List (List ε) → Option (σ × List (List ε))
  | 0, _, _ => none
  | k + 1, s, ls =>
    let r := pass T ts s 0 ls
    if r.2.2.2 || r.2.2.1 == 0 then some (r.1, r.2.1) else handout ts k r.1 r.2.1

variable (R : σ → τ → ε → σ → Prop) (ts : List τ)

/-- From `s` to `s'` by handing endpoints of `es` to targets of `ts`, each as `R` says. -/
def Handings (es : List ε) : σ → σ → Prop :=
  Relation.ReflTransGen fun s s' => ∃ t ∈ ts, ∃ e ∈ es, R s t e s'

/-- `handout` returns: it has handed out endpoints as `R` says, every target is full or refuses
them all, and the hop lists have the elements they had. -/
def HandsOut (s : σ) (ls : List (List ε)) : Prop :=
  ∃ m s' ls', (∀ k > m, handout T ts k s ls = some (s', ls')) ∧
    ls'.map Multiset.ofList = ls.map .ofList ∧ Handings R ts ls.flatten s s' ∧
    ∀ t ∈ ts, T.full s' t ∨ ∀ e ∈ ls.flatten, T.tryInsert s' t e = none

variable (es : List ε) (room : σ → Nat)

/-- A part of a pass that made the offers `W`: the count grows by no more than the room lost, and
if it did not grow every offer was refused. -/
structure Dealt (W : τ → ε → Prop) (s : σ) (n : Nat) (s' : σ) (n' : Nat) : Prop where
  run : Handings R ts es s s'
  le : n ≤ n'
  room : n' + room s' ≤ n + room s
  idle : n' = n → s' = s ∧ ∀ t e, W t e → T.full s t ∨ T.tryInsert s t e = none

variable {T R ts es room} {us : List τ} {W W' : τ → ε → Prop} {s s₁ s₂ : σ} {n n₁ n₂ : Nat}

theorem Dealt.refl (h : ∀ t e, W t e → T.full s t ∨ T.tryInsert s t e = none) :
    Dealt T R ts es room W s n s n :=
  ⟨.refl, le_rfl, le_rfl, fun _ => ⟨rfl, h⟩⟩

theorem Dealt.trans (h : Dealt T R ts es room W s n s₁ n₁)
    (h' : Dealt T R ts es room W' s₁ n₁ s₂ n₂) {V : τ → ε → Prop}
    (hV : ∀ t e, V t e → W t e ∨ W' t e) : Dealt T R ts es room V s n s₂ n₂ := by
  refine ⟨h.run.trans h'.run, h.le.trans h'.le, h'.room.trans h.room, fun hn => ?_⟩
  have hle := h.le
  have hle' := h'.le
  obtain ⟨rfl, hW⟩ := h.idle (by omega)
  obtain ⟨rfl, hW'⟩ := h'.idle (by omega)
  exact ⟨rfl, fun t e hv => (hV t e hv).elim (hW t e) (hW' t e)⟩

theorem handoutOne_eq_none {t : τ} {h : List ε} (hn : handoutOne T s t h = none) :
    ∀ e ∈ h, T.tryInsert s t e = none := by
  induction h with
  | nil => simp
  | cons e h ih =>
    rw [handoutOne] at hn
    split at hn
    · cases hn
    · rename_i he
      simpa [he] using ih (Option.map_eq_none_iff.mp hn)

theorem handoutOne_eq_some {t : τ} {h c : List ε} (hs : handoutOne T s t h = some (s₁, c)) :
    c.Perm h ∧ ∃ e ∈ h, T.tryInsert s t e = some s₁ := by
  induction h generalizing c with
  | nil => cases hs
  | cons e h ih =>
    rw [handoutOne] at hs
    split at hs
    · rename_i he
      cases hs
      exact ⟨List.perm_append_singleton e h, e, List.mem_cons_self, he⟩
    · obtain ⟨r, hr, hc⟩ := Option.map_eq_some_iff.mp hs
      cases hc
      obtain ⟨hp, d, hd, hg⟩ := ih hr
      exact ⟨hp.cons e, d, List.mem_cons_of_mem e hd, hg⟩

variable (hT : ∀ s t e s', t ∈ ts → T.tryInsert s t e = some s' → R s t e s' ∧ room s' < room s)
include hT

theorem offer_spec (p : Turn σ ε) {t : τ} (ht : t ∈ ts) (hc : ∀ e ∈ p.c, e ∈ es) :
    let q := offer T p t
    q.c.Perm p.c ∧ (q.allFull → q = p ∧ T.full p.s t) ∧
      Dealt T R ts es room (fun u e => u = t ∧ e ∈ p.c) p.s p.n q.s q.n := by
  rw [offer]
  split_ifs with hf
  · exact ⟨.refl _, fun _ => ⟨rfl, hf⟩, .refl fun u e h => .inl (h.1 ▸ hf)⟩
  split
  · rename_i s c ho
    obtain ⟨hp, e, he, hg⟩ := handoutOne_eq_some ho
    obtain ⟨hr, hlt⟩ := hT p.s t e s ht hg
    exact ⟨hp, nofun, .single ⟨t, ht, e, hc e he, hr⟩, by simp, by simp only; omega, by simp⟩
  · rename_i ho
    exact ⟨.refl _, nofun, .refl fun u e h => .inr (h.1 ▸ handoutOne_eq_none ho e h.2)⟩

theorem foldl_offer_spec (p : Turn σ ε) (hu : ∀ t ∈ us, t ∈ ts) (hc : ∀ e ∈ p.c, e ∈ es) :
    let q := us.foldl (offer T) p
    q.c.Perm p.c ∧ (q.allFull → q = p ∧ ∀ t ∈ us, T.full p.s t) ∧
      Dealt T R ts es room (fun u e => u ∈ us ∧ e ∈ p.c) p.s p.n q.s q.n := by
  induction us generalizing p with
  | nil => exact ⟨.refl _, by simp, .refl (by simp)⟩
  | cons t us ih =>
    obtain ⟨hp, ha, hd⟩ := offer_spec hT p (hu t List.mem_cons_self) hc
    obtain ⟨hp', ha', hd'⟩ := ih (offer T p t)
      (fun u h => hu u (List.mem_cons_of_mem t h)) fun e he => hc e (hp.subset he)
    refine ⟨hp'.trans hp, fun h => ?_, hd.trans hd' fun u e h => ?_⟩
    · obtain ⟨hq, hus⟩ := ha' h
      rw [List.foldl_cons, hq] at h
      obtain ⟨hq', ht⟩ := ha h
      rw [hq'] at hq hus
      exact ⟨by rw [List.foldl_cons, hq', hq], List.forall_mem_cons.mpr ⟨ht, hus⟩⟩
    · exact (List.mem_cons.mp h.1).imp (⟨·, h.2⟩) (⟨·, hp.mem_iff.mpr h.2⟩)

theorem pass_spec (ls : List (List ε)) (hl : ∀ e ∈ ls.flatten, e ∈ es) (s : σ) (n : Nat) :
    let r := pass T ts s n ls
    r.2.1.map Multiset.ofList = ls.map .ofList ∧ (r.2.2.2 → ∀ t ∈ ts, T.full r.1 t) ∧
      Dealt T R ts es room (fun t e => r.2.2.2 = false ∧ t ∈ ts ∧ e ∈ ls.flatten)
        s n r.1 r.2.2.1 := by
  induction ls generalizing s n with
  | nil => exact ⟨rfl, nofun, .refl (by simp)⟩
  | cons c ls ih =>
    rw [List.flatten_cons, List.forall_mem_append] at hl
    obtain ⟨hp, ha, hd⟩ := foldl_offer_spec hT ⟨s, c, n, true⟩ (fun _ => id) hl.1
    rw [pass]
    split_ifs with hf
    · obtain ⟨hq, ht⟩ := ha hf
      rw [hq]
      exact ⟨rfl, fun _ => ht, .refl (by simp)⟩
    · obtain ⟨hp', ha', hd'⟩ := ih hl.2 _ _
      refine ⟨congrArg₂ List.cons (Multiset.coe_eq_coe.mpr hp) hp', ha',
        hd.trans hd' fun t e h => ?_⟩
      exact (List.mem_append.mp h.2.2).imp (⟨h.2.1, ·⟩) (⟨h.1, h.2.1, ·⟩)

/-- By induction on the room left: a pass after which the loop goes on leaves less. -/
theorem HandsOut.of_room (s : σ) (ls : List (List ε)) : HandsOut T R ts s ls := by
  induction hm : room s using Nat.strong_induction_on generalizing s ls with
  | h m ih =>
    subst hm
    obtain ⟨hp, ha, hd⟩ := pass_spec hT ls (fun _ => id) s 0
    generalize hr : pass T ts s 0 ls = r at hp ha hd
    obtain ⟨s₁, ls₁, n, done⟩ := r
    by_cases h : done || n == 0
    · refine ⟨0, s₁, ls₁, fun k hk => ?_, hp, hd.run, fun t ht => ?_⟩
      · rw [← Nat.succ_pred_eq_of_pos hk, handout, hr, if_pos h]
      cases done with
      | true => exact .inl (ha rfl t ht)
      | false =>
        obtain ⟨rfl, hW⟩ := hd.idle (by simpa using h)
        exact or_iff_not_imp_left.mpr fun hf e he => (hW t e ⟨rfl, ht, he⟩).resolve_left hf
    · have hlt : room s₁ < room s := by
        have := hd.room
        simp only [Bool.or_eq_true, beq_iff_eq, not_or] at h this
        omega
      obtain ⟨m, s₂, ls₂, hs₂, hp₂, hrun, hend⟩ := ih (room s₁) hlt s₁ ls₁ rfl
      have hmem : ∀ e, e ∈ ls₁.flatten ↔ e ∈ ls.flatten := fun e => by
        simpa using congrArg (∃ m ∈ ·, e ∈ m) hp
      simp only [Handings, hmem] at hrun hend
      refine ⟨m + 1, s₂, ls₂, fun k hk => ?_, hp₂.trans hp, hd.run.trans hrun, hend⟩
      rw [← Nat.succ_pred_eq_of_pos (by omega : 0 < k), handout, hr, if_neg h]
      exact hs₂ _ (Nat.lt_pred_of_succ_lt hk)

end Loop

abbrev Tuning.maxHops : Int := 6
abbrev Tuning.numberOfEndpoints : Nat := 12
abbrev Tuning.redirectEndpointCount : Nat := 10

structure IPEndpoint (α : Type) where
  address : α
  port : UInt16
deriving DecidableEq

structure Endpoint (α : Type) where
  hops : Int
  address : IPEndpoint α

variable {τ ι α : Type} [DecidableEq τ] [DecidableEq ι] [DecidableEq α]

section

variable (cache : IPEndpoint α → Option Int) (ep : IPEndpoint α) (hops : Int)

def RecentT.insert : IPEndpoint α → Option Int :=
  match cache ep with
  | none => Function.update cache ep (some hops)
  | some h => if hops ≤ h then Function.update cache ep (some hops) else cache

def RecentT.filter : Bool :=
  (cache ep).any (· ≤ hops)

end

/-- The lists of targets `τ` and the recent tables of their slots `ι`. -/
structure Targets (τ ι α : Type) where
  list : τ → List (Endpoint α)
  recent : ι → IPEndpoint α → Option Int

variable (slot : τ → ι) (remote_address : ι → α) (s : Targets τ ι α) (t : τ) (ep : Endpoint α)

def Targets.full (count : Nat) : Bool := count ≤ (s.list t).length

def Targets.emplaceBack : Targets τ ι α :=
  { s with list := Function.update s.list t (s.list t ++ [ep]) }

def Targets.recentInsert (i : ι) : Targets τ ι α :=
  { s with recent := Function.update s.recent i (RecentT.insert (s.recent i) ep.address ep.hops) }

def RedirectHandouts.tryInsert : Option (Targets τ ι α) :=
  if s.full t Tuning.redirectEndpointCount then none
  else if ep.hops > Tuning.maxHops then none
  else if ep.hops = 0 then none
  else if remote_address (slot t) = ep.address.address then none
  else if (s.list t).any (·.address.address = ep.address.address) then none
  else some (s.emplaceBack t ep)

def RedirectHandouts : Target (Targets τ ι α) τ (Endpoint α) :=
  ⟨fun s t => s.full t Tuning.redirectEndpointCount,
    RedirectHandouts.tryInsert slot remote_address⟩

def SlotHandouts.tryInsert : Option (Targets τ ι α) :=
  if s.full t Tuning.numberOfEndpoints then none
  else if ep.hops > Tuning.maxHops then none
  else if RecentT.filter (s.recent (slot t)) ep.address ep.hops then none
  else if remote_address (slot t) = ep.address.address then none
  else if (s.list t).any (·.address.address = ep.address.address) then none
  else some ((s.emplaceBack t ep).recentInsert ep (slot t))

def SlotHandouts : Target (Targets τ ι α) τ (Endpoint α) :=
  ⟨fun s t => s.full t Tuning.numberOfEndpoints, SlotHandouts.tryInsert slot remote_address⟩

/-- What a target may be handed: near enough, not its own address and none its list has. -/
def Targets.Fits : Prop :=
  ep.hops ≤ Tuning.maxHops ∧ remote_address (slot t) ≠ ep.address.address ∧
    ∀ e ∈ s.list t, e.address.address ≠ ep.address.address

def RedirectHandouts.Handed (s' : Targets τ ι α) : Prop :=
  s.Fits slot remote_address t ep ∧ ep.hops ≠ 0 ∧ s' = s.emplaceBack t ep

def SlotHandouts.Handed (s' : Targets τ ι α) : Prop :=
  s.Fits slot remote_address t ep ∧ (∀ h ∈ s.recent (slot t) ep.address, ep.hops < h) ∧
    s' = (s.emplaceBack t ep).recentInsert ep (slot t)

def Targets.room (ts : List τ) (count : Nat) : Nat :=
  (ts.map fun t => count - (s.list t).length).sum

variable {slot remote_address s t ep} {ts : List τ} {s' : Targets τ ι α}

omit [DecidableEq ι] [DecidableEq α] in
theorem Targets.room_lt {count : Nat} (ht : t ∈ ts) (hf : ¬s.full t count)
    (hs : s'.list = (s.emplaceBack t ep).list) : s'.room ts count < s.room ts count := by
  have hlen (u : τ) : (s'.list u).length = (s.list u).length + if u = t then 1 else 0 := by
    rw [hs, emplaceBack]
    by_cases hu : u = t <;> simp [hu]
  simp only [full, decide_eq_true_eq] at hf
  refine List.sum_lt_sum _ _ (fun u _ => ?_) ⟨t, ht, ?_⟩
  · rw [hlen]
    omega
  · rw [hlen, if_pos rfl]
    omega

omit [DecidableEq ι] in
theorem RedirectHandouts.handed (ht : t ∈ ts)
    (h : RedirectHandouts.tryInsert slot remote_address s t ep = some s') :
    Handed slot remote_address s t ep s' ∧
      s'.room ts Tuning.redirectEndpointCount < s.room ts Tuning.redirectEndpointCount := by
  rw [RedirectHandouts.tryInsert] at h
  split_ifs at h with hf hh h0 hr hl
  cases h
  exact ⟨⟨⟨not_lt.mp hh, hr, by simpa using hl⟩, h0, rfl⟩, Targets.room_lt ht hf rfl⟩

theorem SlotHandouts.handed (ht : t ∈ ts)
    (h : SlotHandouts.tryInsert slot remote_address s t ep = some s') :
    Handed slot remote_address s t ep s' ∧
      s'.room ts Tuning.numberOfEndpoints < s.room ts Tuning.numberOfEndpoints := by
  rw [SlotHandouts.tryInsert] at h
  split_ifs at h with hf hh hn hr hl
  cases h
  have hn' : ∀ h ∈ s.recent (slot t) ep.address, ep.hops < h := fun h hh => by
    rw [RecentT.filter, Option.mem_def.mp hh] at hn
    simpa using hn
  exact ⟨⟨⟨not_lt.mp hh, hr, by simpa using hl⟩, hn', rfl⟩, Targets.room_lt ht hf rfl⟩

theorem handout_settles (slot : τ → ι) (remote_address : ι → α) (ts : List τ)
    (s : Targets τ ι α) (ls : List (List (Endpoint α))) :
    HandsOut (RedirectHandouts slot remote_address)
        (RedirectHandouts.Handed slot remote_address) ts s ls ∧
      HandsOut (SlotHandouts slot remote_address)
        (SlotHandouts.Handed slot remote_address) ts s ls :=
  ⟨.of_room (fun _ _ _ _ => RedirectHandouts.handed) s ls,
    .of_room (fun _ _ _ _ => SlotHandouts.handed) s ls⟩

/-- `m_list`, and the squelched addresses it refers to. -/
structure ConnectHandouts (α : Type) where
  list : List (IPEndpoint α)
  squelches : Finset α

namespace ConnectHandouts

variable (needed : Nat) (h : ConnectHandouts α) (es : List (Endpoint α)) (squelches : Finset α)

def tryInsert (ep : Endpoint α) : Option (ConnectHandouts α) :=
  if needed ≤ h.list.length then none
  else if h.list.any (·.address = ep.address.address) then none
  else if ep.address.address ∈ h.squelches then none
  else some ⟨h.list ++ [ep.address], insert ep.address.address h.squelches⟩

def target : Target (ConnectHandouts α) Unit (Endpoint α) :=
  ⟨fun h _ => needed ≤ h.list.length, fun h _ => h.tryInsert needed⟩

/-- The list has endpoints of `es`, no two of one address, that were not squelched and now are. -/
structure Listed : Prop where
  le : h.list.length ≤ needed
  nodup : (h.list.map (·.address)).Nodup
  new : ∀ p ∈ h.list, p.address ∉ squelches ∧ ∃ e ∈ es, e.address = p
  mem : ∀ a, a ∈ h.squelches ↔ a ∈ squelches ∨ a ∈ h.list.map (·.address)

variable {needed h es squelches} {h' : ConnectHandouts α}

theorem room_lt (hi : h.tryInsert needed ep = some h') :
    needed - h'.list.length < needed - h.list.length := by
  rw [tryInsert] at hi
  split_ifs at hi
  cases hi
  rw [List.length_append, List.length_singleton]
  omega

theorem Listed.step (hl : Listed needed h es squelches) (he : ep ∈ es)
    (hi : h.tryInsert needed ep = some h') : Listed needed h' es squelches := by
  rw [tryInsert] at hi
  split_ifs at hi with hf ha hs
  cases hi
  rw [hl.mem, not_or] at hs
  refine ⟨by simpa using Nat.succ_le_of_lt (not_le.mp hf), ?_, ?_, fun a => ?_⟩
  · simpa [List.nodup_append, hl.nodup] using hs.2
  · exact List.forall_mem_append.mpr ⟨hl.new, by simpa using ⟨hs.1, ep, he, rfl⟩⟩
  · simp [hl.mem, or_comm, or_left_comm]

/-- The live stage of `autoconnect` comes short only where it squelched all it could choose from. -/
theorem handout_live (needed : Nat) (squelches : Finset α) (ls : List (List (Endpoint α))) :
    ∃ m h ls', (∀ k > m, handout (target needed) [()] k ⟨[], squelches⟩ ls = some (h, ls')) ∧
      Listed needed h ls.flatten squelches ∧
      (h.list.length = needed ∨ ∀ e ∈ ls.flatten, e.address.address ∈ h.squelches) := by
  obtain ⟨m, h, ls', hret, -, hrun, hend⟩ : HandsOut (target needed)
      (fun h _ e h' => h.tryInsert needed e = some h') [()] ⟨[], squelches⟩ ls :=
    .of_room (fun _ _ _ _ _ hi => ⟨hi, room_lt hi⟩) _ ls
  have hl : Listed needed h ls.flatten squelches := by
    clear hret hend
    induction hrun with
    | refl => exact ⟨Nat.zero_le _, .nil, nofun, by simp⟩
    | tail _ hs ih =>
      obtain ⟨-, -, e, he, hi⟩ := hs
      exact ih.step he hi
  refine ⟨m, h, ls', hret, hl, ?_⟩
  by_cases hf : needed ≤ h.list.length
  · exact .inl (le_antisymm hl.le hf)
  · right
    intro e he
    have hi := (hend () List.mem_cons_self).resolve_left (by simpa [target] using hf) e he
    simp only [target, tryInsert, if_neg hf] at hi
    split_ifs at hi with ha hs
    · exact (hl.mem _).mpr (.inr (by simpa using ha))
    · exact hs

end ConnectHandouts

end Rippled.PeerFinder
