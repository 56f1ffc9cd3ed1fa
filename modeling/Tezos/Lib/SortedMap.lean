import Mathlib.Data.Finset.Dedup

/-! Maps as lists of bindings in the order of their keys. -/

namespace Tezos.Lib
open List

abbrev SortedMap (K V : Type) := List (K × V)

namespace SortedMap
variable {K V : Type} [LinearOrder K]

def add (k : K) (v : V) : SortedMap K V → SortedMap K V
  | [] => [(k, v)]
  | (k', v') :: rest =>
    if k < k' then (k, v) :: (k', v') :: rest
    else if k = k' then (k, v) :: rest
    else (k', v') :: add k v rest

def remove (k : K) (m : SortedMap K V) : SortedMap K V := m.filter fun binding => binding.1 ≠ k

def find? (m : SortedMap K V) (k : K) : Option V := (List.find? (fun binding => binding.1 = k) m).map Prod.snd

def mem (k : K) (m : SortedMap K V) : Bool := (m.find? k).isSome

def domain (m : SortedMap K V) : Finset K := (m.map Prod.fst).toFinset

def Sorted (m : SortedMap K V) : Prop := m.Pairwise fun binding binding' => binding.1 < binding'.1

variable {m : SortedMap K V} {k k' : K} {v : V}

theorem mem_add {binding : K × V} (h : binding ∈ m.add k v) : binding = (k, v) ∨ binding ∈ m := by
  induction m with
  | nil => exact .inl (mem_singleton.mp h)
  | cons head rest ih =>
    simp only [add] at h
    split at h
    · exact mem_cons.mp h
    · split at h
      · exact (mem_cons.mp h).imp id (mem_cons_of_mem _)
      · rcases mem_cons.mp h with rfl | hrest
        · exact .inr mem_cons_self
        · exact (ih hrest).imp id (mem_cons_of_mem _)

theorem Sorted.add (h : Sorted m) : Sorted (m.add k v) := by
  induction m with
  | nil => exact pairwise_singleton _ _
  | cons head rest ih =>
    obtain ⟨hhead, hrest⟩ := pairwise_cons.mp h
    simp only [SortedMap.add]
    split
    · rename_i hlt
      refine pairwise_cons.mpr ⟨fun binding hmem => ?_, h⟩
      rcases mem_cons.mp hmem with rfl | hmem
      · exact hlt
      · exact lt_trans hlt (hhead binding hmem)
    · rename_i hge
      split
      · rename_i heq
        exact pairwise_cons.mpr ⟨fun binding hmem => heq ▸ hhead binding hmem, hrest⟩
      · rename_i hne
        refine pairwise_cons.mpr ⟨fun binding hmem => ?_, ih hrest⟩
        rcases mem_add hmem with rfl | hmem
        · exact lt_of_le_of_ne (not_lt.mp hge) (Ne.symm hne)
        · exact hhead binding hmem

theorem add_of_lt (h : ∀ binding ∈ m, binding.1 < k) : m.add k v = m ++ [(k, v)] := by
  induction m with
  | nil => rfl
  | cons head rest ih =>
    have hlt : head.1 < k := h head mem_cons_self
    rw [SortedMap.add, if_neg (not_lt_of_gt hlt), if_neg (ne_of_gt hlt),
      ih fun binding hmem => h binding (mem_cons_of_mem _ hmem)]
    rfl

theorem remove_eq_self (h : ∀ binding ∈ m, k < binding.1) : m.remove k = m :=
  filter_eq_self.mpr fun binding hmem => decide_eq_true (ne_of_gt (h binding hmem))

theorem Sorted.add_perm (h : Sorted m) : (m.add k v).Perm ((k, v) :: m.remove k) := by
  induction m with
  | nil => exact Perm.refl _
  | cons head rest ih =>
    obtain ⟨hhead, hrest⟩ := pairwise_cons.mp h
    simp only [SortedMap.add]
    split
    · rename_i hlt
      rw [remove_eq_self]
      intro binding hmem
      rcases mem_cons.mp hmem with rfl | hmem
      · exact hlt
      · exact lt_trans hlt (hhead binding hmem)
    · split
      · rename_i heq
        rw [remove, filter_cons_of_neg (by simp [heq])]
        change Perm _ ((k, v) :: remove k rest)
        rw [remove_eq_self fun binding hmem => heq ▸ hhead binding hmem]
      · rename_i hne
        rw [remove, filter_cons_of_pos (by simp [Ne.symm hne])]
        exact ((ih hrest).cons head).trans (Perm.swap _ _ _)

theorem Sorted.perm_of_find? (h : Sorted m) (hfind : m.find? k = some v) : m.Perm ((k, v) :: m.remove k) := by
  induction m with
  | nil => cases hfind
  | cons head rest ih =>
    obtain ⟨hhead, hrest⟩ := pairwise_cons.mp h
    by_cases heq : head.1 = k
    · simp only [find?, find?_cons, heq, decide_true, Option.map_some, Option.some_inj] at hfind
      rw [remove, filter_cons_of_neg (by simp [heq]), ← hfind, ← heq]
      change Perm _ (head :: remove head.1 rest)
      rw [remove_eq_self hhead]
    · simp only [find?, find?_cons, heq, decide_false] at hfind
      rw [remove, filter_cons_of_pos (by simp [heq])]
      exact ((ih hrest hfind).cons head).trans (Perm.swap _ _ _)

theorem remove_of_find?_none (hfind : m.find? k = none) : m.remove k = m := by
  refine filter_eq_self.mpr fun binding hmem => ?_
  have hne := find?_eq_none.mp (Option.map_eq_none_iff.mp hfind) binding hmem
  simpa using hne

theorem Sorted.remove (h : Sorted m) : Sorted (m.remove k) := Pairwise.filter _ h

theorem find?_add : (m.add k v).find? k' = if k' = k then some v else m.find? k' := by
  induction m with
  | nil => by_cases h : k' = k <;> simp [add, find?, h, eq_comm]
  | cons head rest ih =>
    obtain ⟨k₀, v₀⟩ := head
    simp only [add]
    split
    · by_cases h : k' = k
      · simp [find?, h]
      · simp [find?, h, Ne.symm h]
    · split
      · rename_i heq
        subst heq
        by_cases h : k' = k
        · simp [find?, h]
        · simp [find?, h, Ne.symm h]
      · rename_i hne
        by_cases h : k₀ = k'
        · subst h
          simp [find?, Ne.symm hne]
        · simpa [find?, h] using ih

theorem find?_remove : (m.remove k).find? k' = if k' = k then none else m.find? k' := by
  induction m with
  | nil => simp [remove, find?]
  | cons head rest ih =>
    obtain ⟨k₀, v₀⟩ := head
    simp only [find?, remove] at ih ⊢
    by_cases h₀ : k₀ = k
    · subst h₀
      rw [filter_cons_of_neg (by simp), ih]
      by_cases h : k' = k₀
      · simp [h]
      · simp [h, Ne.symm h]
    · by_cases h : k₀ = k'
      · subst h
        simp [h₀]
      · simpa [h] using ih

theorem Sorted.find?_filter (h : Sorted m) (p : V → Bool) :
    SortedMap.find? (m.filter fun binding => p binding.2) k = (m.find? k).filter p := by
  induction m with
  | nil => rfl
  | cons binding m ih =>
    obtain ⟨hlt, hm⟩ := pairwise_cons.mp h
    rw [filter_cons]
    by_cases hk : binding.1 = k
    · -- the other bindings have greater keys
      have hnone : SortedMap.find? m k = none :=
        Option.map_eq_none_iff.mpr (find?_eq_none.mpr fun x hx => by simpa using ne_of_gt (hk ▸ hlt x hx))
      split
      · next hp => simp [find?, hk, Option.filter, hp]
      · next hp => rw [ih hm, hnone]; simp [find?, hk, Option.filter, hp]
    · have heq (m : SortedMap K V) : SortedMap.find? (binding :: m) k = m.find? k := by simp [find?, hk]
      rw [heq, ← ih hm]
      split
      · exact heq _
      · rfl

theorem mem_domain : k ∈ domain m ↔ ∃ v, (k, v) ∈ m := by
  simp only [domain, mem_toFinset, mem_map, Prod.exists, exists_and_right, exists_eq_right]

theorem mem_iff : m.mem k = true ↔ k ∈ domain m := by
  rw [mem, find?, Option.isSome_map, find?_isSome, mem_domain]
  constructor
  · rintro ⟨⟨k', v⟩, hmem, hkey⟩
    obtain rfl : k' = k := of_decide_eq_true hkey
    exact ⟨v, hmem⟩
  · rintro ⟨v, hmem⟩
    exact ⟨(k, v), hmem, decide_eq_true rfl⟩

theorem mem_domain_add : k' ∈ domain (m.add k v) ↔ k' = k ∨ k' ∈ domain m := by
  induction m with
  | nil => simp [domain, add]
  | cons head rest ih =>
    simp only [domain, mem_toFinset] at ih ⊢
    simp only [add]
    split
    · rw [map_cons, mem_cons]
    · split
      · rename_i heq
        rw [map_cons, map_cons, mem_cons, mem_cons, heq, or_self_left]
      · rw [map_cons, map_cons, mem_cons, mem_cons, ih, or_left_comm]

theorem mem_domain_remove : k' ∈ domain (m.remove k) ↔ k' ∈ domain m ∧ k' ≠ k := by
  simp only [mem_domain, remove, mem_filter, decide_eq_true_eq, exists_and_right]

theorem Sorted.nodup (h : Sorted m) : (m.map Prod.fst).Nodup := pairwise_map.mpr (h.imp ne_of_lt)

end SortedMap

end Tezos.Lib
