import Mathlib.Algebra.BigOperators.Group.List.Basic
import Mathlib.Algebra.GroupWithZero.Nat
import Tezos.Lib.SortedMap

/-! A key-value store whose keys are kept in order, and the sums over its values. -/

namespace Tezos.Lib
open List SortedMap

structure Store (K V : Type) [LinearOrder K] where
  bindings : SortedMap K V
  sorted : Sorted bindings

abbrev Keys (K : Type) [LinearOrder K] := Store K Unit

namespace SortedMap
variable {K V : Type} [LinearOrder K]

theorem sorted_nil : Sorted ([] : SortedMap K V) := Pairwise.nil

end SortedMap

namespace Store
variable {K V : Type} [LinearOrder K]

def empty : Store K V := ⟨[], sorted_nil⟩

variable (s : Store K V) (k : K)

def find? : Option V := s.bindings.find? k

def mem : Bool := (s.find? k).isSome

def add (v : V) : Store K V := ⟨s.bindings.add k v, s.sorted.add⟩

def remove : Store K V := ⟨s.bindings.remove k, s.sorted.remove⟩

def put : Option V → Store K V
  | none => s.remove k
  | some v => s.add k v

def filter (keep : K → Bool) : Store K V :=
  ⟨s.bindings.filter fun binding => keep binding.1, Pairwise.filter _ s.sorted⟩

def keys : List K := s.bindings.map Prod.fst

def sum (f : K → V → Nat) : Nat := (s.bindings.map fun binding => f binding.1 binding.2).sum

variable {s : Store K V} {k k' : K} {v : V} {f g : K → V → Nat}

@[simp] theorem find?_empty : (empty : Store K V).find? k = none := rfl

@[simp] theorem sum_empty : (empty : Store K V).sum f = 0 := rfl

theorem find?_add : (s.add k v).find? k' = if k' = k then some v else s.find? k' := SortedMap.find?_add

@[simp] theorem find?_add_self : (s.add k v).find? k = some v := by rw [find?_add, if_pos rfl]

theorem find?_remove : (s.remove k).find? k' = if k' = k then none else s.find? k' := SortedMap.find?_remove

@[simp] theorem find?_remove_self : (s.remove k).find? k = none := by rw [find?_remove, if_pos rfl]

theorem find?_put {value : Option V} : (s.put k value).find? k' = if k' = k then value else s.find? k' := by
  rcases value with _ | v
  · exact find?_remove
  · exact find?_add

theorem find?_eq_some_iff : s.find? k = some v ↔ (k, v) ∈ s.bindings := by
  constructor
  · intro h
    obtain ⟨binding, hfind, rfl⟩ := Option.map_eq_some_iff.mp h
    have hkey : binding.1 = k := by simpa using find?_some hfind
    subst hkey
    exact mem_of_find?_eq_some hfind
  · intro h
    have hperm : SortedMap.mem k s.bindings = true := mem_iff.mpr (mem_domain.mpr ⟨v, h⟩)
    obtain ⟨v', hv'⟩ := Option.isSome_iff_exists.mp hperm
    have hmem := (s.sorted.perm_of_find? hv').mem_iff.mp h
    rcases mem_cons.mp hmem with heq | hmem
    · obtain ⟨-, rfl⟩ := Prod.mk.injEq _ _ _ _ ▸ heq
      exact hv'
    · exact absurd rfl (of_decide_eq_true (mem_filter.mp hmem).2)

theorem mem_keys : k ∈ s.keys ↔ s.mem k = true := by
  simp only [keys, mem, mem_map, Option.isSome_iff_exists, find?_eq_some_iff, Prod.exists, exists_eq_right,
    exists_and_right]

def part (f : K → V → Nat) (k : K) : Nat := ((s.find? k).map (f k)).getD 0

theorem part_of_some (h : s.find? k = some v) : s.part f k = f k v := by simp [part, h]

theorem part_of_none (h : s.find? k = none) : s.part f k = 0 := by simp [part, h]

theorem sum_remove : (s.remove k).sum f + s.part f k = s.sum f := by
  rcases hfind : s.find? k with _ | v
  · have hsame : (s.remove k).bindings = s.bindings := remove_of_find?_none hfind
    rw [part_of_none hfind, sum, hsame, add_zero, sum]
  · have hperm := (s.sorted.perm_of_find? hfind).map fun binding => f binding.1 binding.2
    have hsum : s.sum f = f k v + (s.remove k).sum f := by
      rw [sum, hperm.sum_eq, map_cons]
      rfl
    rw [part_of_some hfind, hsum, add_comm]

/-- A key that is written counts for its new value instead of the one it had. -/
theorem sum_add : (s.add k v).sum f + s.part f k = s.sum f + f k v := by
  have hperm := (s.sorted.add_perm (k := k) (v := v)).map fun binding => f binding.1 binding.2
  have hadd : (s.add k v).sum f = f k v + (s.remove k).sum f := by
    rw [sum, add, hperm.sum_eq, map_cons]
    rfl
  rw [hadd, add_assoc, sum_remove, add_comm]

theorem sum_congr (h : ∀ k v, s.find? k = some v → f k v = g k v) : s.sum f = s.sum g := by
  refine congrArg List.sum (map_congr_left fun binding hmem => ?_)
  exact h binding.1 binding.2 (find?_eq_some_iff.mpr hmem)

/-- A quantity that changes for one key changes the sum by what that key counts for. -/
theorem sum_update (h : ∀ k' v, k' ≠ k → f k' v = g k' v) : s.sum f + s.part g k = s.sum g + s.part f k := by
  have hrest : (s.remove k).sum f = (s.remove k).sum g := by
    refine sum_congr fun k' v hfind => h k' v ?_
    rintro rfl
    rw [find?_remove_self] at hfind
    cases hfind
  rw [← sum_remove (k := k) (f := f), ← sum_remove (k := k) (f := g)]
  omega

theorem sum_eq_zero (h : ∀ k v, s.find? k = some v → f k v = 0) : s.sum f = 0 := by
  refine List.sum_eq_zero fun x hx => ?_
  obtain ⟨binding, hmem, rfl⟩ := List.mem_map.mp hx
  exact h binding.1 binding.2 (find?_eq_some_iff.mpr hmem)

theorem mem_of_find? (h : s.find? k = some v) : s.mem k = true := by
  rw [mem, h]
  rfl

theorem mem_add : (s.add k v).mem k' = true ↔ k' = k ∨ s.mem k' = true := by
  simp only [mem, find?_add]
  split <;> simp_all

theorem mem_remove : (s.remove k).mem k' = true ↔ k' ≠ k ∧ s.mem k' = true := by
  simp only [mem, find?_remove]
  split <;> simp_all

theorem part_le_sum : s.part f k ≤ s.sum f := by
  rw [← sum_remove]
  exact Nat.le_add_left _ _

theorem le_sum (h : s.find? k = some v) : f k v ≤ s.sum f :=
  calc
    f k v = s.part f k := (part_of_some h).symm
    _ ≤ s.sum f := part_le_sum

end Store

end Tezos.Lib
