import Mathlib.Data.List.Nodup

/-! Linked lists that share one table of successors, in which a cell is relinked without disturbing the other lists.
    -/

namespace Tezos.Lib
open List Function
variable {α ι : Type}

/-- The cells met when the successors are followed from a head, up to the cell that has none. -/
inductive Follows (next : α → Option α) : Option α → List α → Prop
  | nil : Follows next none []
  | cons {x : α} {l : List α} : Follows next (next x) l → Follows next (some x) (x :: l)

variable {next next' : α → Option α}

namespace Follows
variable {head : Option α} {l : List α}

theorem congr (h : Follows next head l) (hsame : ∀ x ∈ l, next' x = next x) : Follows next' head l := by
  induction h with
  | nil => exact .nil
  | @cons x l _ ih =>
    refine .cons ?_
    rw [hsame x mem_cons_self]
    exact ih fun y hy => hsame y (mem_cons_of_mem x hy)

theorem eq_nil_iff (h : Follows next head l) : head = none ↔ l = [] := by
  cases h with
  | nil => exact ⟨fun _ => rfl, fun _ => rfl⟩
  | cons => simp

theorem of_head {x : α} (h : Follows next (some x) l) : ∃ rest, l = x :: rest ∧ Follows next (next x) rest := by
  cases h with
  | cons hrest => exact ⟨_, rfl, hrest⟩

theorem of_cons {x : α} {rest : List α} (h : Follows next head (x :: rest)) :
    head = some x ∧ Follows next (next x) rest := by
  cases h with
  | cons hrest => exact ⟨rfl, hrest⟩

theorem isSome_of_mem_dropLast (h : Follows next head l) {x : α} (hx : x ∈ l.dropLast) : (next x).isSome = true := by
  induction h with
  | nil => cases hx
  | @cons y l hrest ih =>
    rcases l with _ | ⟨z, l⟩
    · cases hx
    · rcases mem_cons.mp hx with rfl | hx
      · rw [hrest.of_cons.1]
        rfl
      · exact ih hx

end Follows

/-- Lists without a cell in common, linked through one table of successors. -/
structure Threaded (next : α → Option α) (head : ι → Option α) (lists : ι → List α) : Prop where
  follows : ∀ i, Follows next (head i) (lists i)
  nodup : ∀ i, (lists i).Nodup
  disjoint : ∀ i j x, x ∈ lists i → x ∈ lists j → i = j

/-- The lists after the first cell of one was moved to the front of another. -/
def moved [DecidableEq ι] (lists : ι → List α) (i j : ι) (x : α) (rest : List α) : ι → List α :=
  update (update lists i rest) j (x :: lists j)

variable [DecidableEq ι] {head head' : ι → Option α} {lists : ι → List α} {i j k : ι} {x y : α} {rest : List α}

namespace Threaded

theorem pop (h : Threaded next head lists) (hlist : lists i = x :: rest)
    (hhead : ∀ j, head' j = if j = i then next x else head j) :
    Threaded next head' (update lists i rest) ∧ ∀ j, x ∉ update lists i rest j := by
  have hnd := h.nodup i
  rw [hlist, nodup_cons] at hnd
  have hsub : ∀ j y, y ∈ update lists i rest j → y ∈ lists j := by
    intro j y hy
    by_cases hj : j = i
    · subst hj
      rw [update_self] at hy
      rw [hlist]
      exact mem_cons_of_mem x hy
    · rwa [update_of_ne hj] at hy
  refine ⟨⟨fun j => ?_, fun j => ?_, fun j k y hj hk => h.disjoint j k y (hsub j y hj) (hsub k y hk)⟩, ?_⟩
  · rw [hhead j]
    by_cases hj : j = i
    · subst hj
      rw [if_pos rfl, update_self]
      have hfol := h.follows j
      rw [hlist] at hfol
      exact hfol.of_cons.2
    · rw [if_neg hj, update_of_ne hj]
      exact h.follows j
  · by_cases hj : j = i
    · subst hj
      rw [update_self]
      exact hnd.2
    · rw [update_of_ne hj]
      exact h.nodup j
  · intro j hx
    have hi : x ∈ lists i := by
      rw [hlist]
      exact mem_cons_self
    obtain rfl := h.disjoint j i x (hsub j x hx) hi
    rw [update_self] at hx
    exact hnd.1 hx

theorem push [DecidableEq α] (h : Threaded next head lists) (hfr : ∀ j, x ∉ lists j)
    (hnext : ∀ y, next' y = if y = x then head i else next y)
    (hhead : ∀ j, head' j = if j = i then some x else head j) :
    Threaded next' head' (update lists i (x :: lists i)) := by
  have hkept : ∀ j, Follows next' (head j) (lists j) := fun j =>
    (h.follows j).congr fun y hy => by rw [hnext y, if_neg (ne_of_mem_of_not_mem hy (hfr j))]
  have hcas : ∀ j y, y ∈ update lists i (x :: lists i) j → (j = i ∧ y = x) ∨ y ∈ lists j := by
    intro j y hy
    by_cases hj : j = i
    · subst hj
      rw [update_self] at hy
      exact (mem_cons.mp hy).imp (fun heq => ⟨rfl, heq⟩) id
    · rw [update_of_ne hj] at hy
      exact .inr hy
  refine ⟨fun j => ?_, fun j => ?_, fun j k y hj hk => ?_⟩
  · rw [hhead j]
    by_cases hj : j = i
    · subst hj
      rw [if_pos rfl, update_self]
      refine .cons ?_
      rw [hnext x, if_pos rfl]
      exact hkept j
    · rw [if_neg hj, update_of_ne hj]
      exact hkept j
  · by_cases hj : j = i
    · subst hj
      rw [update_self]
      exact nodup_cons.mpr ⟨hfr j, h.nodup j⟩
    · rw [update_of_ne hj]
      exact h.nodup j
  · rcases hcas j y hj with ⟨rfl, rfl⟩ | hj'
    · rcases hcas k y hk with ⟨rfl, -⟩ | hk'
      · rfl
      · exact absurd hk' (hfr k)
    · rcases hcas k y hk with ⟨-, rfl⟩ | hk'
      · exact absurd hj' (hfr j)
      · exact h.disjoint j k y hj' hk'

end Threaded

@[simp] theorem moved_to : moved lists i j x rest j = x :: lists j := update_self _ _ _

theorem moved_from (hij : i ≠ j) : moved lists i j x rest i = rest := by
  rw [moved, update_of_ne hij, update_self]

theorem moved_other (hi : k ≠ i) (hj : k ≠ j) : moved lists i j x rest k = lists k := by
  rw [moved, update_of_ne hj, update_of_ne hi]

/-- The cell that is moved is in its new list only, and the others are where they were. -/
theorem Threaded.mem_moved (h : Threaded next head lists) (hij : i ≠ j) (hlist : lists i = x :: rest) [DecidableEq α] :
    y ∈ moved lists i j x rest k ↔ if y = x then k = j else y ∈ lists k := by
  have hnd := h.nodup i
  rw [hlist, nodup_cons] at hnd
  by_cases hj : k = j
  · subst hj
    by_cases hy : y = x <;> simp [hy]
  · by_cases hi : k = i
    · subst hi
      rw [moved_from hij, hlist]
      by_cases hy : y = x <;> simp [hy, hj, hnd.1]
    · have hout : x ∉ lists k := fun hk => hi (h.disjoint k i x hk (by simp [hlist]))
      rw [moved_other hi hj]
      by_cases hy : y = x <;> simp [hy, hj, hout]

/-- The first cell of a list is moved to the front of another: two heads and one successor change. -/
theorem Threaded.move [DecidableEq α] (h : Threaded next head lists) (hij : i ≠ j) (hlist : lists i = x :: rest)
    (hnext : ∀ y, next' y = if y = x then head j else next y)
    (hhead : ∀ k, head' k = if k = j then some x else if k = i then next x else head k) :
    Threaded next' head' (moved lists i j x rest) := by
  obtain ⟨hpop, hfr⟩ := h.pop hlist fun k => rfl
  have hlink : ∀ y, next' y = if y = x then (if j = i then next x else head j) else next y := by
    intro y
    rw [hnext y, if_neg hij.symm]
  have hpush := hpop.push hfr hlink hhead
  rwa [update_of_ne hij.symm] at hpush

end Tezos.Lib
