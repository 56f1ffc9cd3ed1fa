import Mathlib.Data.List.Induction
import Mathlib.Data.List.Sort

/-! Lists that keep the greatest of the elements that are inserted (`lib_stdlib/tzList.ml`). -/

namespace Tezos.TzList.Bounded
open List
variable {α κ : Type} [LinearOrder κ]

section
variable (key : α → κ)

/-- `E.compare` compares the keys. -/
def push (x : α) : List α → List α := orderedInsert (key · ≤ key ·) x

/-- `size` is the length of `data`. -/
def insert (bound : Nat) (data : List α) (x : α) : List α :=
  if data.length < bound then push key x data
  else
    match data with
    -- Never so, as the bound is positive.
    | [] => []
    | hd :: tl => if key hd < key x then push key x tl else hd :: tl

/-- What is in a new list after the insertions. `create` raises when the bound is not positive. -/
def ofList (bound : Int) (l : List α) : Option (List α) :=
  if bound ≤ 0 then none else some (l.foldl (insert key bound.toNat) [])

/-- Of the elements that were inserted, as many as the bound allows are there, and the others are no greater. -/
structure Keeps (bound : Nat) (l data : List α) : Prop where
  length_eq : data.length = min bound l.length
  sorted : data.Pairwise (key · ≤ key ·)
  rest : ∃ rest, l.Perm (data ++ rest) ∧ ∀ x ∈ data, ∀ y ∈ rest, key y ≤ key x

end

variable {key : α → κ} {bound : Nat} {data l : List α}

theorem sorted_push {x : α} (h : data.Pairwise (key · ≤ key ·)) : (push key x data).Pairwise (key · ≤ key ·) :=
  h.orderedInsert x data

theorem Keeps.insert (hpos : 0 < bound) (h : Keeps key bound l data) (x : α) :
    Keeps key bound (l ++ [x]) (insert key bound data x) := by
  obtain ⟨hlen, hsrt, rest, hperm, hrest⟩ := h
  have hall : data.length + rest.length = l.length := by rw [hperm.length_eq, length_append]
  have hnext : (l ++ [x]).Perm (x :: (data ++ rest)) := (perm_append_singleton x l).trans (hperm.cons x)
  unfold Bounded.insert
  split
  · have hnil : rest = [] := length_eq_zero_iff.mp (by omega)
    subst hnil
    refine ⟨?_, sorted_push hsrt, [], hnext.trans ((perm_orderedInsert ..).symm.append_right []),
      fun _ _ _ h => absurd h not_mem_nil⟩
    rw [push, orderedInsert_length, length_append, length_singleton]
    omega
  · rename_i hfull
    cases data with
    | nil => exact absurd hpos hfull
    | cons hd tl =>
      obtain ⟨hhd, htl⟩ := pairwise_cons.mp hsrt
      have hle : ∀ z ∈ hd :: tl, key hd ≤ key z := forall_mem_cons.mpr ⟨le_rfl, hhd⟩
      rw [length_cons] at hlen hfull hall
      dsimp only
      split
      · rename_i hx
        refine ⟨?_, sorted_push htl, hd :: rest, ?_, ?_⟩
        · rw [push, orderedInsert_length, length_append, length_singleton]
          omega
        · refine hnext.trans (.trans (.swap hd x _) (.trans ?_ perm_middle.symm))
          exact ((perm_orderedInsert ..).symm.append_right rest).cons hd
        · intro z hz
          have hhdz : key hd ≤ key z := by
            rcases (mem_orderedInsert _).mp hz with rfl | hz
            · exact hx.le
            · exact hhd z hz
          exact forall_mem_cons.mpr ⟨hhdz, fun y hy => (hrest hd mem_cons_self y hy).trans hhdz⟩
      · rename_i hx
        refine ⟨?_, hsrt, x :: rest, hnext.trans perm_middle.symm, ?_⟩
        · rw [length_cons, length_append, length_singleton]
          omega
        · intro z hz
          exact forall_mem_cons.mpr ⟨(le_of_not_gt hx).trans (hle z hz), hrest z hz⟩

theorem ofList_eq (key : α → κ) {bound : Int} (hpos : 0 < bound) (l : List α) :
    ∃ data, ofList key bound l = some data ∧ Keeps key bound.toNat l data := by
  refine ⟨_, if_neg (not_le_of_gt hpos), ?_⟩
  induction l using reverseRecOn with
  | nil => exact ⟨(Nat.min_zero _).symm, .nil, [], .nil, fun _ h => absurd h not_mem_nil⟩
  | append_singleton l x ih =>
    rw [foldl_append]
    exact ih.insert (Int.lt_toNat.mpr hpos) x

end Tezos.TzList.Bounded
