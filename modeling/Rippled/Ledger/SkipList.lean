import Rippled.Basics.BaseUInt

namespace Rippled.SkipList

open List Option

/-- The ledger entries for hashes: one for the last ledgers and one for each group of 65536. -/
inductive SkipKey
  | recent
  | group (index : Nat)
deriving DecidableEq

def skip : SkipKey := .recent

def skipOf (ledger : Nat) : SkipKey := .group (ledger >>> 16)

structure LedgerHashes where
  hashes : List Uint256
  lastLedgerSequence : Nat

structure Ledger where
  seq : Nat
  seq_lt : seq < 4294967296
  hash : Uint256
  parentHash : Uint256
  entries : SkipKey → Option LedgerHashes

variable {v : LedgerHashes} {g n : Nat} {l : Ledger}

section

variable (l)

def Ledger.setEntry (k : SkipKey) (v : LedgerHashes) : Ledger :=
  { l with entries := fun k' => if k' = k then some v else l.entries k' }

def updateGroup : Ledger :=
  let prevIndex := l.seq - 1
  if prevIndex &&& 0xff = 0 then
    let k := skipOf prevIndex
    let hashes := ((l.entries k).map LedgerHashes.hashes).getD []
    l.setEntry k ⟨hashes ++ [l.parentHash], prevIndex⟩
  else l

def makeRoom (hashes : List Uint256) : List Uint256 :=
  if hashes.length = 256 then hashes.tail else hashes

def updateRecent : Ledger :=
  let prevIndex := l.seq - 1
  let hashes := ((l.entries skip).map LedgerHashes.hashes).getD []
  l.setEntry skip ⟨makeRoom hashes ++ [l.parentHash], prevIndex⟩

def updateSkipList : Ledger :=
  if l.seq = 0 then l else updateRecent (updateGroup l)

def toInt32 (n : Nat) : Int := if n < 2147483648 then n else n - 4294967296

variable (seq : Nat)

def hashInRecent : Option Uint256 :=
  let diff := toInt32 (l.seq - seq)
  if diff ≤ 256 then
    (l.entries skip).bind fun v =>
      -- The comparison is one of unsigned numbers, so it fails for a negative difference.
      if 0 ≤ diff ∧ diff ≤ v.hashes.length then v.hashes[v.hashes.length - diff.toNat]? else none
  else none

def hashInGroup : Option Uint256 :=
  if seq &&& 0xff ≠ 0 then none
  else
    (l.entries (skipOf seq)).bind fun v =>
      let diff := (v.lastLedgerSequence - seq) >>> 8
      if diff < v.hashes.length then v.hashes[v.hashes.length - diff - 1]? else none

def hashOfSeq : Option Uint256 :=
  if l.seq < seq then none
  else if seq = l.seq then some l.hash
  else if seq = l.seq - 1 then some l.parentHash
  else (hashInRecent l seq).or (hashInGroup l seq)

end

/-- The ledgers from the genesis ledger on. The hash of a ledger is whatever its contents give. -/
inductive Chain : List Ledger → Prop
  | genesis (l : Ledger) (hseq : l.seq = 1) (hentries : ∀ k, l.entries k = none) : Chain [l]
  | next (ls : List Ledger) (prev l : Ledger) (hprev : Chain (ls ++ [prev]))
    (hseq : l.seq = prev.seq + 1) (hparent : l.parentHash = prev.hash)
    (hentries : l.entries = (updateSkipList { l with entries := prev.entries }).entries) :
    Chain (ls ++ [prev] ++ [l])

variable {past : List Uint256}

section

variable (past)

/-- The hashes of the last ledgers before a ledger, of which there are at most 256. -/
def Recent (o : Option LedgerHashes) : Prop :=
  (o.map LedgerHashes.hashes).getD [] = past.drop (past.length - 256) ∧ (o = none → past = [])

/-- The first sequence number of a group. There is no ledger with the number zero. -/
def groupStart (g : Nat) : Nat := if g = 0 then 256 else g * 65536

/-- The hashes of one group before a ledger, one for each multiple of 256. -/
structure Grouped (g : Nat) (v : LedgerHashes) : Prop where
  length : v.lastLedgerSequence + 256 = groupStart g + 256 * v.hashes.length
  pos : 0 < v.hashes.length
  group : v.lastLedgerSequence / 65536 = g
  le : v.lastLedgerSequence ≤ past.length
  hashes : ∀ j, j < v.hashes.length → v.hashes[j]? = past[groupStart g + 256 * j - 1]?
  last : ∀ s, s % 256 = 0 → s / 65536 = g → s ≤ past.length → s ≤ v.lastLedgerSequence

structure Recorded (entries : SkipKey → Option LedgerHashes) : Prop where
  recent : Recent past (entries .recent)
  grouped : ∀ g v, entries (.group g) = some v → Grouped past g v
  absent : ∀ g, entries (.group g) = none → ∀ s, 0 < s → s % 256 = 0 → s ≤ past.length → s / 65536 ≠ g

end

theorem and_255 (n : Nat) : n &&& 0xff = n % 256 := Nat.and_two_pow_sub_one_eq_mod n 8

theorem shiftRight_16 (n : Nat) : n >>> 16 = n / 65536 := Nat.shiftRight_eq_div_pow n 16

theorem groupStart_mod (g : Nat) : groupStart g % 256 = 0 := by
  unfold groupStart
  split <;> omega

theorem groupStart_div (g : Nat) : groupStart g / 65536 = g := by
  unfold groupStart
  split <;> omega

theorem groupStart_le {s : Nat} (hs : 0 < s) (hmod : s % 256 = 0) (hg : s / 65536 = g) :
    groupStart g ≤ s := by
  unfold groupStart
  split <;> omega

theorem groupStart_pos (g : Nat) : 0 < groupStart g := by
  unfold groupStart
  split <;> omega

theorem grouped_first (hash : Uint256) (hst : past.length + 1 = groupStart g) :
    Grouped (past ++ [hash]) g ⟨[hash], past.length + 1⟩ where
  length := by
    simp [hst]
  pos := Nat.zero_lt_one
  group := hst ▸ groupStart_div g
  le := by simp
  hashes := by
    intro j hj
    have hj : j = 0 := by simpa using hj
    subst hj
    simp [← hst]
  last := by
    intro s _ _ hs
    simpa using hs

theorem Grouped.push (h : Grouped past g v) (hash : Uint256) (hmod : (past.length + 1) % 256 = 0)
    (hg : (past.length + 1) / 65536 = g) :
    Grouped (past ++ [hash]) g ⟨v.hashes ++ [hash], past.length + 1⟩ := by
  have hlen := h.length
  have hst := groupStart_mod g
  have hpos := groupStart_pos g
  have hn : past.length + 1 = v.lastLedgerSequence + 256 := by
    have hle := h.le
    have hgr := h.group
    by_contra hne
    have hl := h.last (v.lastLedgerSequence + 256) (by omega) (by omega) (by omega)
    omega
  refine ⟨?_, by simp, hg, by simp, ?_, ?_⟩
  · dsimp only
    rw [length_append, length_singleton]
    omega
  · intro j hj
    rw [length_append, length_singleton] at hj
    by_cases hl : j < v.hashes.length
    · rw [getElem?_append_left hl, h.hashes j hl, getElem?_append_left (by omega)]
    · have hj : j = v.hashes.length := by omega
      have hi : groupStart g + 256 * j - 1 = past.length := by omega
      rw [hi, hj, getElem?_concat_length, getElem?_concat_length]
  · intro s _ _ hs
    simpa using hs

theorem Grouped.skip (h : Grouped past g v) (hash : Uint256)
    (ho : (past.length + 1) % 256 = 0 → (past.length + 1) / 65536 ≠ g) :
    Grouped (past ++ [hash]) g v := by
  have hle := h.le
  refine ⟨h.length, h.pos, h.group, by simp; omega, ?_, ?_⟩
  · intro j hj
    have hlen := h.length
    have hpos := groupStart_pos g
    rw [h.hashes j hj, getElem?_append_left (by omega)]
  intro s hmod hg hs
  rw [length_append, length_singleton] at hs
  obtain hs | rfl := Nat.le_or_eq_of_le_succ hs
  · exact h.last s hmod hg hs
  · exact absurd hg (ho hmod)

theorem makeRoom_drop (past : List Uint256) (hash : Uint256) :
    makeRoom (past.drop (past.length - 256)) ++ [hash] =
      (past ++ [hash]).drop ((past ++ [hash]).length - 256) := by
  rw [makeRoom, length_drop, length_append, length_singleton]
  by_cases hf : 256 ≤ past.length
  · have hlen : past.length - (past.length - 256) = 256 := by omega
    have hd : past.length + 1 - 256 = past.length - 256 + 1 := by omega
    rw [if_pos hlen, tail_drop, hd, drop_append_of_le_length (by omega)]
  have hlen : past.length - (past.length - 256) ≠ 256 := by omega
  have hd : past.length - 256 = 0 := by omega
  have hd' := Nat.sub_eq_zero_of_le (not_le.mp hf)
  rw [if_neg hlen, hd, hd', drop_zero, drop_zero]

theorem Recent.push {o : Option LedgerHashes} (h : Recent past o) (hash : Uint256) (seq : Nat) :
    Recent (past ++ [hash])
      (some ⟨makeRoom ((o.map LedgerHashes.hashes).getD []) ++ [hash], seq⟩) := by
  refine ⟨?_, nofun⟩
  rw [h.1, map_some, getD_some]
  exact makeRoom_drop past hash

structure After (past : List Uint256) (l : Ledger) : Prop where
  seq : l.seq = past.length + 1
  parent : past ≠ [] → past.getLast? = some l.parentHash
  recorded : Recorded past l.entries

section Step

variable {prev : Ledger}

theorem updateSkipList_recent (l : Ledger) (hseq : l.seq ≠ 0) :
    (updateSkipList l).entries .recent = some
      ⟨makeRoom (((l.entries .recent).map LedgerHashes.hashes).getD []) ++ [l.parentHash],
        l.seq - 1⟩ := by
  have hg : (updateGroup l).entries .recent = l.entries .recent ∧ (updateGroup l).seq = l.seq ∧
      (updateGroup l).parentHash = l.parentHash := by
    unfold updateGroup
    dsimp only
    split
    · exact ⟨rfl, rfl, rfl⟩
    · exact ⟨rfl, rfl, rfl⟩
  rw [updateSkipList, if_neg hseq, updateRecent, skip, hg.1, hg.2.1, hg.2.2]
  rfl

theorem updateSkipList_group (l : Ledger) (hseq : l.seq ≠ 0) (g : Nat) :
    (updateSkipList l).entries (.group g) =
      if (l.seq - 1) % 256 = 0 ∧ (l.seq - 1) / 65536 = g then some
        ⟨((l.entries (.group g)).map LedgerHashes.hashes).getD [] ++ [l.parentHash], l.seq - 1⟩
      else l.entries (.group g) := by
  rw [updateSkipList, if_neg hseq]
  change (updateGroup l).entries (.group g) = _
  rw [updateGroup, and_255]
  by_cases hmod : (l.seq - 1) % 256 = 0
  · simp only [hmod, if_true, true_and]
    rw [Ledger.setEntry, skipOf, shiftRight_16]
    by_cases hg : (l.seq - 1) / 65536 = g
    · simp [hg]
    · simp [hg, Ne.symm hg]
  · simp [hmod]

theorem After.next (h : After past prev) (hseq : l.seq = prev.seq + 1)
    (hp : l.parentHash = prev.hash)
    (he : l.entries = (updateSkipList { l with entries := prev.entries }).entries) :
    After (past ++ [prev.hash]) l := by
  have hlen : l.seq - 1 = past.length + 1 := by
    have := h.seq
    omega
  have hpos : l.seq ≠ 0 := by omega
  refine ⟨?_, ?_, ?_, ?_, ?_⟩
  · rw [length_append, length_singleton, hseq, h.seq]
  · intro _
    rw [getLast?_concat, hp]
  · rw [he, updateSkipList_recent { l with entries := prev.entries } hpos]
    rw [hp]
    exact h.recorded.recent.push prev.hash _
  · intro g v hv
    rw [he, updateSkipList_group { l with entries := prev.entries } hpos] at hv
    rw [hlen, hp] at hv
    split_ifs at hv with hg
    · cases hold : prev.entries (.group g) with
      | none =>
        rw [hold] at hv
        cases hv
        apply grouped_first
        have hst := groupStart_le (by omega) hg.1 hg.2
        have hmod := groupStart_mod g
        by_contra hne
        exact h.recorded.absent g hold (groupStart g) (groupStart_pos g) hmod (by omega)
          (groupStart_div g)
      | some w =>
        rw [hold] at hv
        cases hv
        exact (h.recorded.grouped g w hold).push prev.hash hg.1 hg.2
    · exact (h.recorded.grouped g v hv).skip prev.hash fun hmod hdiv => hg ⟨hmod, hdiv⟩
  · intro g hn s hs hmod hle hdiv
    rw [he, updateSkipList_group { l with entries := prev.entries } hpos] at hn
    rw [hlen] at hn
    split_ifs at hn with hg
    rw [length_append, length_singleton] at hle
    obtain hle | rfl := Nat.le_or_eq_of_le_succ hle
    · exact h.recorded.absent g hn s hs hmod hle hdiv
    · exact hg ⟨hmod, hdiv⟩

theorem Chain.after {ls : List Ledger} (h : Chain ls) {i : Nat} (hi : ls[i]? = some l) :
    After ((ls.take i).map Ledger.hash) l := by
  induction h generalizing i l with
  | genesis g hseq he =>
    obtain ⟨rfl, rfl⟩ : i = 0 ∧ g = l := by
      cases i with
      | zero => exact ⟨rfl, Option.some.inj hi⟩
      | succ i => cases hi
    refine ⟨hseq, fun hne => absurd rfl hne, ⟨?_, fun _ => rfl⟩, ?_, ?_⟩
    · simp [he]
    · intro index v hv
      rw [he] at hv
      cases hv
    · intro index _ s hs _ hle
      exact absurd hle (Nat.not_le.mpr hs)
  | next ls prev l' hpr hseq hp he ih =>
    obtain hlt | hge := Nat.lt_or_ge i (ls ++ [prev]).length
    · rw [getElem?_append_left hlt] at hi
      rw [take_append_of_le_length hlt.le]
      exact ih hi
    have hlen : i = (ls ++ [prev]).length := by
      have hbn := (List.getElem?_eq_some_iff.mp hi).1
      rw [length_append, length_singleton] at hbn
      omega
    subst hlen
    rw [getElem?_concat_length] at hi
    cases hi
    have hb := ih (getElem?_concat_length : (ls ++ [prev])[ls.length]? = some prev)
    rw [take_left] at hb ⊢
    rw [map_append, map_singleton]
    exact hb.next hseq hp he

end Step

section Lookup

variable {s : Nat}

theorem toInt32_of_le (h : n ≤ 256) : toInt32 n = n := if_pos (by omega)

theorem toInt32_of_gt (h : 256 < n) (hn : n < 4294967296) : toInt32 n ≤ 256 → toInt32 n < 0 := by
  unfold toInt32
  split <;> omega

section

variable (h : After past l) (hs : 1 ≤ s)

include h hs

theorem hashInRecent_eq (hle : s ≤ past.length) :
    hashInRecent l s = if l.seq - s ≤ 256 then past[s - 1]? else none := by
  have hseq := h.seq
  rw [hashInRecent]
  by_cases hd : l.seq - s ≤ 256
  · rw [toInt32_of_le hd, if_pos hd, if_pos (by omega), skip]
    obtain ⟨hh, hn⟩ := h.recorded.recent
    cases hr : l.entries .recent with
    | none =>
      rw [hn hr] at hle
      exact absurd hle (by simp; omega)
    | some v =>
      rw [hr, map_some, getD_some] at hh
      have hlen : v.hashes.length = past.length - (past.length - 256) := by
        rw [hh, length_drop]
      rw [bind_some, if_pos (by omega), hh, getElem?_drop, length_drop,
        Int.toNat_natCast]
      congr 1
      omega
  · rw [if_neg hd]
    split_ifs with hsm
    · have hneg := toInt32_of_gt (Nat.lt_of_not_le hd) ((Nat.sub_le l.seq s).trans_lt l.seq_lt) hsm
      cases l.entries skip with
      | none => rfl
      | some v => exact if_neg fun hpos => absurd hpos.1 (not_le.mpr hneg)
    · rfl

theorem hashInGroup_eq (hle : s ≤ past.length) :
    hashInGroup l s = if s % 256 = 0 then past[s - 1]? else none := by
  rw [hashInGroup, and_255]
  by_cases hmod : s % 256 = 0
  · rw [if_neg (not_not.mpr hmod), if_pos hmod, skipOf, shiftRight_16]
    cases he : l.entries (.group (s / 65536)) with
    | none => exact absurd rfl (h.recorded.absent _ he s hs hmod hle)
    | some v =>
      have hv := h.recorded.grouped _ v he
      have hl := hv.last s hmod rfl hle
      have hlen := hv.length
      have hst := groupStart_le hs hmod rfl
      have hsr := groupStart_mod (s / 65536)
      rw [bind_some, Nat.shiftRight_eq_div_pow, if_pos (by omega), hv.hashes _ (by omega)]
      congr 1
      omega
  · rw [if_pos hmod, if_neg hmod]

theorem hashOfSeq_eq :
    hashOfSeq l s = if s ≤ l.seq ∧ (l.seq - s ≤ 256 ∨ s % 256 = 0) then (past ++ [l.hash])[s - 1]?
      else none := by
  have hseq := h.seq
  rw [hashOfSeq]
  by_cases hf : l.seq < s
  · rw [if_pos hf, if_neg (by omega)]
  rw [if_neg hf]
  by_cases hsl : s = l.seq
  · have hi : s - 1 = past.length := by omega
    rw [if_pos hsl, if_pos (by omega), hi, getElem?_concat_length]
  rw [if_neg hsl, getElem?_append_left (by omega)]
  by_cases hp : s = l.seq - 1
  · have hne : past ≠ [] := by
      intro hnil
      rw [hnil] at hseq
      simp at hseq
      omega
    rw [if_pos hp, if_pos (by omega), ← h.parent hne, getLast?_eq_getElem?]
    congr 1
    omega
  · rw [if_neg hp, hashInRecent_eq h hs (by omega), hashInGroup_eq h hs (by omega)]
    by_cases hd : l.seq - s ≤ 256
    · have hfn : s ≤ l.seq ∧ (l.seq - s ≤ 256 ∨ s % 256 = 0) := ⟨by omega, .inl hd⟩
      rw [if_pos hd, if_pos hfn, getElem?_eq_getElem (by omega)]
      rfl
    rw [if_neg hd, none_or]
    by_cases hmod : s % 256 = 0
    · rw [if_pos hmod, if_pos (by omega)]
    · rw [if_neg hmod, if_neg (by omega)]

end

theorem Grouped.length_le (h : Grouped past g v) : v.hashes.length ≤ 256 := by
  have hlen := h.length
  have hg := h.group
  have hdiv := groupStart_div g
  omega

theorem After.length_le (h : After past l) {k : SkipKey} {v : LedgerHashes} (hv : l.entries k = some v) :
    v.hashes.length ≤ 256 := by
  cases k with
  | group g => exact (h.recorded.grouped g v hv).length_le
  | recent =>
    have hh := h.recorded.recent.1
    rw [hv, map_some, getD_some] at hh
    rw [hh, length_drop]
    omega

end Lookup

/-- In every ledger of a chain the hash of each ancestor within 256 ledgers and of each one whose
number is a multiple of 256 is found, and no other hash, in lists of at most 256. -/
theorem hashOfSeq_ancestor {ls : List Ledger} (h : Chain ls) {i : Nat} {l : Ledger}
    (hl : ls[i]? = some l) :
    (∀ s, 1 ≤ s → hashOfSeq l s =
      if s ≤ l.seq ∧ (l.seq - s ≤ 256 ∨ s % 256 = 0) then (ls[s - 1]?).map Ledger.hash else none) ∧
    (∀ s, 1 ≤ s → s ≤ l.seq → ∃ a, ls[s - 1]? = some a ∧ a.seq = s) ∧
    ∀ k v, l.entries k = some v → v.hashes.length ≤ 256 := by
  have hafter := h.after hl
  have hi : l.seq = i + 1 := by
    have hlen := hafter.seq
    have hbound := (List.getElem?_eq_some_iff.mp hl).1
    rw [List.length_map, List.length_take] at hlen
    omega
  refine ⟨?_, ?_, ?_⟩
  · intro s hs
    have hancestors : (ls.take i).map Ledger.hash ++ [l.hash] = (ls.take (i + 1)).map Ledger.hash := by
      rw [List.take_add_one, hl, List.map_append]
      rfl
    rw [hashOfSeq_eq hafter hs, hancestors, List.getElem?_map]
    by_cases hle : s ≤ l.seq
    · rw [List.getElem?_take_of_lt (by omega)]
    · rw [if_neg (by omega), if_neg (by omega)]
  · intro s hs hle
    have hbound := (List.getElem?_eq_some_iff.mp hl).1
    have ha : ls[s - 1]? = some (ls[s - 1]) := List.getElem?_eq_getElem (by omega)
    refine ⟨ls[s - 1], ha, ?_⟩
    have hseq := (h.after ha).seq
    rw [List.length_map, List.length_take] at hseq
    omega
  · intro k v hv
    exact hafter.length_le hv

section Descendants

def genesisLedger : Ledger := ⟨1, by decide, .fromVoid [0, 1], 0, fun _ => none⟩

def successor (prev : Ledger) : Ledger :=
  let seq := (prev.seq + 1) % 4294967296
  let l : Ledger := ⟨seq, Nat.mod_lt _ (by decide), .fromVoid [.ofNat (seq / 256), .ofNat seq],
    prev.hash, prev.entries⟩
  { l with entries := (updateSkipList l).entries }

def descendant : Nat → Ledger
  | 0 => genesisLedger
  | n + 1 => successor (descendant n)

theorem chain_descendant {n : Nat} (h : n + 1 < 4294967296) :
    Chain ((range (n + 1)).map descendant) ∧ (descendant n).seq = n + 1 := by
  induction n with
  | zero => exact ⟨.genesis _ rfl fun _ => rfl, rfl⟩
  | succ n ih =>
    obtain ⟨hchain, hseq⟩ := ih (by omega)
    have hmod : (descendant (n + 1)).seq = ((descendant n).seq + 1) % 4294967296 := rfl
    rw [hseq, Nat.mod_eq_of_lt h] at hmod
    refine ⟨?_, hmod⟩
    rw [range_succ, map_append] at hchain ⊢
    rw [range_succ, map_append]
    exact .next _ _ _ hchain (hmod.trans (congrArg (· + 1) hseq.symm)) rfl rfl

/-- A ledger finds an ancestor in the list of the last ones, and one that is further back if its
number is a multiple of 256. -/
theorem hashOfSeq_descendant :
    hashOfSeq (descendant 599) 400 = some (descendant 399).hash ∧
      hashOfSeq (descendant 599) 256 = some (descendant 255).hash ∧
      hashOfSeq (descendant 599) 300 = none := by
  obtain ⟨hchain, hseq⟩ := chain_descendant (show 599 + 1 < 4294967296 by decide)
  have hl : ((range (599 + 1)).map descendant)[599]? = some (descendant 599) := by
    simp
  obtain ⟨hhash, -⟩ := hashOfSeq_ancestor hchain hl
  rw [hseq] at hhash
  refine ⟨?_, ?_, ?_⟩
  all_goals
    rw [hhash _ (by decide)]
    simp

end Descendants

end Rippled.SkipList
