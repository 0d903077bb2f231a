import Rippled.SHAMap.Flush

namespace Rippled.SHAMap

open Lib List

variable {sha512Half : Blob → Uint256} {type : LeafType}

section Blobs

variable (sha512Half type)

/-- Everything that is hashed for a tree. An inner node without branches is not. -/
def blobs : Radix 16 Item → List Blob
  | .empty => []
  | .leaf item => [leafWithPrefix type item]
  | .inner cs =>
    (if ∃ i, (cs i).isEmpty = false then
      [innerWithPrefix fun i => merkle sha512Half type (cs i)] else []) ++
        (List.finRange 16).flatMap fun i => blobs (cs i)

/-- No two of the given inputs have the same hash, and none has the hash that stands for an empty
branch. -/
structure CollisionFree (l : List Blob) : Prop where
  inj : ∀ x ∈ l, ∀ y ∈ l, sha512Half x = sha512Half y → x = y
  ne_zero : ∀ x ∈ l, sha512Half x ≠ 0

instance (l : List Blob) : Decidable (CollisionFree sha512Half l) :=
  decidable_of_iff ((∀ x ∈ l, ∀ y ∈ l, sha512Half x = sha512Half y → x = y) ∧
    ∀ x ∈ l, sha512Half x ≠ 0) ⟨fun h => ⟨h.1, h.2⟩, fun h => ⟨h.inj, h.ne_zero⟩⟩

/-- The key of an item follows from its data where the hash of a leaf leaves the key out. -/
def Identified (xs ys : List Item) : Prop :=
  type = .tnTRANSACTION_NM → ∀ x ∈ xs, ∀ y ∈ ys, x.data = y.data → x.key = y.key

end Blobs

theorem CollisionFree.mono {sha512Half : Blob → Uint256} {l l' : List Blob}
    (h : CollisionFree sha512Half l) (hsub : ∀ x ∈ l', x ∈ l) : CollisionFree sha512Half l' where
  inj := fun x hx y hy => h.inj x (hsub x hx) y (hsub y hy)
  ne_zero := fun x hx => h.ne_zero x (hsub x hx)

theorem Identified.mono {type : LeafType} {xs ys xs' ys' : List Item} (h : Identified type xs ys)
    (hx : ∀ x ∈ xs', x ∈ xs) (hy : ∀ y ∈ ys', y ∈ ys) : Identified type xs' ys' :=
  fun ht x hx' y hy' => h ht x (hx x hx') y (hy y hy')

theorem eq_of_flatMap_eq {ι α : Type} {f g : ι → List α} {l : List ι}
    (hlen : ∀ i, (f i).length = (g i).length) (h : l.flatMap f = l.flatMap g) :
    ∀ i ∈ l, f i = g i := by
  induction l with
  | nil => exact fun i hi => absurd hi not_mem_nil
  | cons a l ih =>
    rw [flatMap_cons, flatMap_cons] at h
    obtain ⟨ha, hl⟩ := append_inj h (hlen a)
    exact forall_mem_cons.mpr ⟨ha, ih hl⟩

theorem innerWithPrefix_injective : Function.Injective innerWithPrefix := by
  intro f g h
  have hf := append_cancel_left h
  funext i
  apply BaseUInt.toList_injective
  apply eq_of_flatMap_eq _ hf i (mem_finRange i)
  intro i
  rw [BaseUInt.length_toList, BaseUInt.length_toList]

theorem leafWithPrefix_inj {type : LeafType} {x y : Item}
    (h : leafWithPrefix type x = leafWithPrefix type y)
    (hid : type = .tnTRANSACTION_NM → x.data = y.data → x.key = y.key) : x = y := by
  obtain ⟨k, d⟩ := x
  obtain ⟨k', d'⟩ := y
  have hlen : k.toList.length = k'.toList.length := by
    rw [BaseUInt.length_toList, BaseUInt.length_toList]
  cases type with
  | tnTRANSACTION_NM =>
    have hd : d = d' := append_cancel_left h
    cases hd
    cases hid rfl rfl
    rfl
  | tnTRANSACTION_MD | tnACCOUNT_STATE =>
    simp only [leafWithPrefix, append_assoc] at h
    obtain ⟨hd, hkey⟩ := append_inj' (append_cancel_left h) hlen
    rw [hd, BaseUInt.toList_injective hkey]

theorem leafWithPrefix_ne_innerWithPrefix (type : LeafType) (item : Item)
    (hashes : Fin 16 → Uint256) : leafWithPrefix type item ≠ innerWithPrefix hashes := by
  intro h
  have hf := congrArg (List.take 4) h
  cases type <;> simp [leafWithPrefix, innerWithPrefix, HashPrefix.bytes] at hf

variable {cs : Fin 16 → Radix 16 Item}

theorem mem_blobs_child (i : Fin 16) {x : Blob} (h : x ∈ blobs sha512Half type (cs i)) :
    x ∈ blobs sha512Half type (.inner cs) :=
  mem_append_right _ (mem_flatMap.mpr ⟨i, mem_finRange i, h⟩)

theorem mem_blobs_inner (h : ∃ i, (cs i).isEmpty = false) :
    (innerWithPrefix fun i => merkle sha512Half type (cs i)) ∈ blobs sha512Half type (.inner cs) := by
  rw [blobs, if_pos h]
  exact mem_append_left _ (mem_singleton_self _)

theorem merkle_inner (h : ∃ i, (cs i).isEmpty = false) : merkle sha512Half type (.inner cs) =
      sha512Half (innerWithPrefix fun i => merkle sha512Half type (cs i)) := by
  rw [merkle, innerHash, if_pos]
  simpa using h

theorem merkle_inner_empty (h : ¬ ∃ i, (cs i).isEmpty = false) :
    merkle sha512Half type (.inner cs) = 0 := by
  rw [merkle, innerHash, if_neg]
  simpa using h

theorem isEmpty_iff {t : Radix 16 Item} : t.isEmpty ↔ t = .empty := by
  cases t <;> simp [Radix.isEmpty]

theorem exists_branch_of_full (h : (Radix.inner cs).Full) : ∃ i, (cs i).isEmpty = false := by
  by_contra hno
  push Not at hno
  have he : ∀ i, cs i = .empty := fun i => isEmpty_iff.mp (by simpa using hno i)
  have htwo := h.1
  simp [Radix.items, he] at htwo

theorem merkle_ne_zero {t : Radix 16 Item} (hz : ∀ x ∈ blobs sha512Half type t, sha512Half x ≠ 0)
    (hf : t.Full) (hne : t ≠ .empty) : merkle sha512Half type t ≠ 0 := by
  cases t with
  | empty => exact absurd rfl hne
  | leaf item => exact hz _ (mem_singleton_self _)
  | inner cs =>
    have hb := exists_branch_of_full hf
    rw [merkle_inner hb]
    exact hz _ (mem_blobs_inner hb)

section Pair

variable {t u : Radix 16 Item}

section

variable (h : CollisionFree sha512Half (blobs sha512Half type t ++ blobs sha512Half type u))

include h

theorem CollisionFree.left : CollisionFree sha512Half (blobs sha512Half type t) :=
  h.mono fun _ hx => mem_append_left _ hx

theorem CollisionFree.right : CollisionFree sha512Half (blobs sha512Half type u) :=
  h.mono fun _ hx => mem_append_right _ hx

end

variable {ds : Fin 16 → Radix 16 Item}

theorem CollisionFree.child
    (h : CollisionFree sha512Half (blobs sha512Half type (.inner cs) ++ blobs sha512Half type
      (.inner ds)))
    (i : Fin 16) :
    CollisionFree sha512Half (blobs sha512Half type (cs i) ++ blobs sha512Half type (ds i)) := by
  apply h.mono
  intro x hx
  obtain hx | hx := mem_append.mp hx
  · exact mem_append_left _ (mem_blobs_child i hx)
  · exact mem_append_right _ (mem_blobs_child i hx)

theorem Identified.child (h : Identified type (Radix.inner cs).items (Radix.inner ds).items)
    (i : Fin 16) : Identified type (cs i).items (ds i).items :=
  h.mono (fun _ hx => Radix.mem_items_inner.mpr ⟨i, hx⟩) fun _ hy => Radix.mem_items_inner.mpr ⟨i, hy⟩

/-- Inner nodes with the same hash have children with the same hashes. -/
theorem merkle_children_eq
    (hf : CollisionFree sha512Half (blobs sha512Half type (.inner cs) ++ blobs sha512Half type
      (.inner ds))) (h : merkle sha512Half type (.inner cs) = merkle sha512Half type
      (.inner ds)) (i : Fin 16) :
    merkle sha512Half type (cs i) = merkle sha512Half type (ds i) := by
  by_cases hc : ∃ i, (cs i).isEmpty = false
  · by_cases hd : ∃ i, (ds i).isEmpty = false
    · rw [merkle_inner hc, merkle_inner hd] at h
      have hb := hf.inj _ (mem_append_left _ (mem_blobs_inner hc)) _
        (mem_append_right _ (mem_blobs_inner hd)) h
      exact congrFun (innerWithPrefix_injective hb) i
    · rw [merkle_inner hc, merkle_inner_empty hd] at h
      exact absurd h (hf.left.ne_zero _ (mem_blobs_inner hc))
  · by_cases hd : ∃ i, (ds i).isEmpty = false
    · rw [merkle_inner_empty hc, merkle_inner hd] at h
      exact absurd h.symm (hf.right.ne_zero _ (mem_blobs_inner hd))
    · have hcs : cs i = .empty := isEmpty_iff.mp (by simpa using not_exists.mp hc i)
      have hds : ds i = .empty := isEmpty_iff.mp (by simpa using not_exists.mp hd i)
      rw [hcs, hds]

theorem eq_of_merkle_eq (hf : CollisionFree sha512Half (blobs sha512Half type t ++
      blobs sha512Half type u)) (hid : Identified type t.items u.items) (ht : t.Full) (hu : u.Full)
    (h : merkle sha512Half type t = merkle sha512Half type u) : t = u := by
  induction t generalizing u with
  | empty =>
    by_contra hne
    exact merkle_ne_zero hf.right.ne_zero hu (Ne.symm hne) h.symm
  | leaf x =>
    cases u with
    | empty => exact absurd h (merkle_ne_zero hf.left.ne_zero ht nofun)
    | leaf y =>
      have hb := hf.inj _ (by simp [blobs]) _ (by simp [blobs]) h
      exact congrArg _ (leafWithPrefix_inj hb fun hty => hid hty x (by simp) y (by simp))
    | inner ds =>
      have hbr := exists_branch_of_full hu
      rw [merkle_inner hbr] at h
      have hb := hf.inj _ (by simp [blobs]) _ (mem_append_right _ (mem_blobs_inner hbr)) h
      exact absurd hb (leafWithPrefix_ne_innerWithPrefix type x _)
  | inner cs ih =>
    cases u with
    | empty => exact absurd h (merkle_ne_zero hf.left.ne_zero ht nofun)
    | leaf y =>
      have hbr := exists_branch_of_full ht
      rw [merkle_inner hbr] at h
      have hb := hf.inj _ (mem_append_left _ (mem_blobs_inner hbr)) _ (by simp [blobs]) h
      exact absurd hb.symm (leafWithPrefix_ne_innerWithPrefix type y _)
    | inner ds =>
      congr 1
      funext i
      exact ih i (hf.child i) (hid.child i) (ht.2 i) (hu.2 i) (merkle_children_eq hf h i)

end Pair

def constantHash : Blob → Uint256 := fun _ => ⟨fun _ => 1⟩

end Rippled.SHAMap
