import Mathlib.Data.List.Nodup
import Mathlib.Data.List.Perm.Subperm

/-! Hash tables with hidden bindings: a binding that is added hides those of the same key, until it is removed. -/

namespace Tezos.Lib
open List

abbrev Table (K V : Type) := List (K × V)

namespace Table
variable {K V : Type}

def keys (t : Table K V) : List K := t.map Prod.fst

def add (t : Table K V) (k : K) (v : V) : Table K V := (k, v) :: t

section
variable [DecidableEq K] (t : Table K V) (k : K)

def find? : Option V := (List.find? (fun binding => binding.1 = k) t).map Prod.snd

def mem : Bool := (t.find? k).isSome

def remove : Table K V := t.eraseP fun binding => binding.1 = k

def replace (v : V) : Table K V := (t.remove k).add k v

def count : Nat := t.countP fun binding => binding.1 = k

/-- The key has the binding `v?`, and the other keys have those that they had. -/
structure Rebinds (t' : Table K V) (v? : Option V) : Prop where
  unique : t'.keys.Nodup
  other : ∀ k', k' ≠ k → t'.find? k' = t.find? k'
  self : t'.find? k = v?

end

section
variable {t : Table K V} {k k' : K} {v v' : V}

theorem mem_keys : k ∈ t.keys ↔ ∃ v, (k, v) ∈ t := by
  simp only [keys, mem_map, Prod.exists, exists_and_right, exists_eq_right]

theorem eq_of_nodup (hnd : t.keys.Nodup) (h : (k, v) ∈ t) (h' : (k, v') ∈ t) : v = v' :=
  (Prod.mk.inj (inj_on_of_nodup_map hnd h h' rfl)).2

variable [DecidableEq K]

theorem mem_of_find? (h : t.find? k = some v) : (k, v) ∈ t := by
  obtain ⟨⟨k', v'⟩, hfind, rfl⟩ := Option.map_eq_some_iff.mp h
  have hkey : k' = k := by simpa using find?_some hfind
  exact hkey ▸ mem_of_find?_eq_some hfind

theorem find?_eq_none : t.find? k = none ↔ k ∉ t.keys := by
  rw [find?, Option.map_eq_none_iff, List.find?_eq_none, keys, List.mem_map]
  constructor
  · rintro h ⟨binding, hmem, hkey⟩
    exact h binding hmem (decide_eq_true hkey)
  · intro h binding hmem hkey
    exact h ⟨binding, hmem, of_decide_eq_true hkey⟩

theorem find?_eq_some (hnd : t.keys.Nodup) : t.find? k = some v ↔ (k, v) ∈ t := by
  refine ⟨mem_of_find?, fun h => ?_⟩
  rcases hfind : t.find? k with _ | v'
  · exact absurd (mem_keys.mpr ⟨v, h⟩) (find?_eq_none.mp hfind)
  · rw [eq_of_nodup hnd h (mem_of_find? hfind)]

theorem keys_remove : (t.remove k).keys = t.keys.erase k := by
  rw [keys, keys, erase_eq_eraseP', eraseP_map]
  rfl

theorem length_remove (h : k ∈ t.keys) : (t.remove k).length + 1 = t.length := by
  have hlen : (t.remove k).keys.length = (t.keys.erase k).length := congrArg length keys_remove
  rw [length_erase_of_mem h, keys, keys, length_map, length_map] at hlen
  rw [hlen]
  refine Nat.succ_pred_eq_of_pos ?_
  have hpos := length_pos_of_mem h
  rwa [keys, length_map] at hpos

variable (hnd : t.keys.Nodup)
include hnd

theorem mem_remove : (k', v) ∈ t.remove k ↔ (k', v) ∈ t ∧ k' ≠ k := by
  constructor
  · intro h
    refine ⟨mem_of_mem_eraseP h, ?_⟩
    rintro rfl
    have hkey : k' ∈ (t.remove k').keys := mem_keys.mpr ⟨v, h⟩
    rw [keys_remove] at hkey
    exact (hnd.mem_erase_iff.mp hkey).1 rfl
  · rintro ⟨h, hne⟩
    exact (mem_eraseP_of_neg (by simpa using hne)).mpr h

theorem nodup_remove : (t.remove k).keys.Nodup := by
  rw [keys_remove]
  exact hnd.erase k

omit hnd in
theorem find?_add : (t.add k v).find? k' = if k' = k then some v else t.find? k' := by
  by_cases hkey : k' = k
  · simp [find?, add, hkey]
  · simp [find?, add, hkey, Ne.symm hkey]

theorem find?_remove : (t.remove k).find? k' = if k' = k then none else t.find? k' := by
  split
  · rename_i hkey
    rw [hkey, find?_eq_none, keys_remove]
    exact hnd.not_mem_erase
  · rename_i hkey
    refine Option.ext fun v => ?_
    rw [find?_eq_some (nodup_remove hnd), find?_eq_some hnd, mem_remove hnd]
    exact and_iff_left hkey

theorem find?_replace : (t.replace k v).find? k' = if k' = k then some v else t.find? k' := by
  rw [replace, find?_add, find?_remove hnd]
  split <;> rfl

omit [DecidableEq K] in
theorem nodup_add (h : k ∉ t.keys) : (t.add k v).keys.Nodup :=
  nodup_cons.mpr ⟨h, hnd⟩

theorem nodup_replace : (t.replace k v).keys.Nodup := by
  refine nodup_add (nodup_remove hnd) ?_
  rw [keys_remove]
  exact hnd.not_mem_erase

theorem rebinds_add (h : t.find? k = none) : t.Rebinds k (t.add k v) (some v) :=
  ⟨nodup_add hnd (find?_eq_none.mp h), fun _ hne => find?_add.trans (if_neg hne), find?_add.trans (if_pos rfl)⟩

theorem rebinds_remove : t.Rebinds k (t.remove k) none :=
  ⟨nodup_remove hnd, fun _ hne => (find?_remove hnd).trans (if_neg hne), (find?_remove hnd).trans (if_pos rfl)⟩

theorem rebinds_replace : t.Rebinds k (t.replace k v) (some v) :=
  ⟨nodup_replace hnd, fun _ hne => (find?_replace hnd).trans (if_neg hne),
    (find?_replace hnd).trans (if_pos rfl)⟩

omit hnd

theorem mem_keys_remove (h : k' ∈ (t.remove k).keys) : k' ∈ t.keys := by
  rw [keys_remove] at h
  exact mem_of_mem_erase h

theorem mem_keys_replace (h : k' ∈ (t.replace k v).keys) : k' = k ∨ k' ∈ t.keys :=
  (mem_cons.mp h).imp id mem_keys_remove

theorem count_eq_zero : t.count k = 0 ↔ k ∉ t.keys := by
  rw [count, countP_eq_zero, keys, mem_map]
  constructor
  · rintro h ⟨binding, hmem, hkey⟩
    exact h binding hmem (decide_eq_true hkey)
  · intro h binding hmem hkey
    exact h ⟨binding, hmem, of_decide_eq_true hkey⟩

theorem count_remove (t : Table K V) (k : K) : (t.remove k).count k = t.count k - 1 := by
  induction t with
  | nil => rfl
  | cons binding t ih =>
    by_cases hkey : binding.1 = k
    · simp only [remove, count, eraseP_cons, countP_cons, hkey, decide_true, cond_true, if_true]
      rfl
    · simp only [remove, count] at ih
      simp only [remove, count, eraseP_cons, countP_cons, hkey, decide_false, cond_false, Bool.false_eq_true,
        if_false, ih]
      rfl

theorem subperm_remove {l : List K} (h : (k :: l).Subperm t.keys) : l.Subperm (t.remove k).keys := by
  rw [keys_remove]
  have hers := h.erase k
  rwa [erase_cons_head] at hers

end

end Table

end Tezos.Lib
