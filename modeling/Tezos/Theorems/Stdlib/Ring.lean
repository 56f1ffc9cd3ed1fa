import Mathlib.Data.List.DropRight
import Mathlib.Data.List.Perm.Subperm
import Tezos.Lib.Runs
import Tezos.Stdlib.Ring

/-! A ring holds the values that were added last. -/

namespace Tezos.Ring
open Lib List

variable {α : Type}

/-! ### Ring buffers -/

def capacity : Raw α → Nat
  | .empty size _ => size
  | .inited s => s.data.length

theorem foldl_cons_eq {β : Type} (g : β → α) (l : List β) (acc : List α) :
    l.foldl (fun acc i => g i :: acc) acc = (l.map g).reverse ++ acc := by
  induction l generalizing acc with
  | nil => rfl
  | cons x l ih => rw [foldl_cons, ih, map_cons, reverse_cons, append_assoc, singleton_append]

theorem elements_eq (s : Inited α) :
    elements (.inited s) = ((range (min s.pos (s.data.length - 1) + 1)).map fun i => s.slot (s.pos - i)).reverse := by
  rw [elements, fold, foldl_cons_eq, append_nil]

theorem elements_of_lt {s : Inited α} (h : s.pos < s.data.length) : elements (.inited s) = s.data.take (s.pos + 1) := by
  rw [elements_eq]
  refine ext_getElem (by simp; omega) fun i h1 h2 => ?_
  simp only [length_reverse, length_map, length_range] at h1
  simp only [getElem_reverse, getElem_map, getElem_range, getElem_take, length_map,
    length_range, Inited.slot, get_eq_getElem]
  congr 1
  rw [Nat.mod_eq_of_lt (by omega)]
  omega

theorem elements_of_full {s : Inited α} (h : s.data.length ≤ s.pos + 1) :
    elements (.inited s) = s.data.rotate (s.pos + 1) := by
  have hlen := s.length_pos
  rw [elements_eq]
  refine ext_getElem (by simp; omega) fun i h1 h2 => ?_
  simp only [length_reverse, length_map, length_range] at h1
  simp only [getElem_reverse, getElem_map, getElem_range, getElem_rotate, length_map,
    length_range, Inited.slot, get_eq_getElem]
  congr 1
  have hturn : i + (s.pos + 1) = s.pos - (min s.pos (s.data.length - 1) + 1 - 1 - i) + s.data.length := by omega
  rw [hturn, Nat.add_mod_right]

theorem length_elements (s : Inited α) : (elements (.inited s)).length = min (s.pos + 1) s.data.length := by
  have hlen := s.length_pos
  rw [elements_eq, length_reverse, length_map, length_range]
  omega

variable (r : Raw α)

theorem elements_le_capacity : (elements r).length ≤ capacity r := by
  cases r with
  | empty size _ => exact Nat.zero_le size
  | inited s =>
    rw [length_elements]
    exact Nat.min_le_right _ _

theorem capacity_pos : 0 < capacity r := by
  cases r with
  | empty size size_pos => exact size_pos
  | inited s => exact s.length_pos

theorem capacity_add (v : α) : capacity (add r v) = capacity r := by
  cases r with
  | empty size _ => exact length_replicate
  | inited s => exact length_set

theorem nextPos_mod (s : Inited α) : nextPos s % s.data.length = (s.pos + 1) % s.data.length := by
  unfold nextPos
  split
  · rename_i h
    have := s.length_pos
    rw [h, Nat.mod_self, show 2 * s.data.length - 1 + 1 = 2 * s.data.length by omega, Nat.mul_mod_left]
  · rfl

theorem take_set (l : List α) (k : Nat) (v : α) (hk : k < l.length) : (l.set k v).take (k + 1) = l.take k ++ [v] := by
  rw [take_succ_eq_append_getElem (by rwa [length_set]), take_set_of_le le_rfl, getElem_set_self]

theorem rotate_set (l : List α) (k : Nat) (v : α) (hk : k < l.length) :
    (l.set k v).rotate (k + 1) = (l.rotate k).tail ++ [v] := by
  have hset : l.set k v = (l.take k ++ [v]) ++ l.drop (k + 1) := by
    rw [set_eq_take_append_cons_drop, if_pos hk, append_assoc, singleton_append]
  have hlen : k + 1 = (l.take k ++ [v]).length := by
    rw [length_append, length_take, length_singleton]
    omega
  rw [hset]
  conv_lhs => rw [hlen]
  rw [rotate_append_length_eq, rotate_eq_drop_append_take hk.le, drop_eq_getElem_cons hk,
    cons_append, tail_cons, append_assoc, ← hlen]

/-- What the next `add` leaves of the values of the ring. -/
def kept : List α := if (elements r).length < capacity r then elements r else (elements r).tail

/-- `add` puts a value after those of the ring, in the place of the oldest one if the ring is full. -/
theorem elements_add (v : α) : elements (add r v) = kept r ++ [v] := by
  unfold kept
  cases r with
  | empty size size_pos =>
    have hnil : elements (.empty size size_pos : Raw α) = [] := rfl
    rw [hnil, add, elements_of_lt (by rwa [length_replicate]), tail_nil, ite_self, take_replicate,
      Nat.min_eq_left size_pos]
    rfl
  | inited s =>
    have hlen := s.length_pos
    rw [length_elements, capacity]
    by_cases hpos : s.pos + 1 < s.data.length
    · have hnext : nextPos s = s.pos + 1 := if_neg (by omega)
      have hadd : elements (add (.inited s) v) = (s.data.set (nextPos s % s.data.length) v).take (nextPos s + 1) :=
        elements_of_lt (show nextPos s < _ by rw [length_set, hnext]; exact hpos)
      rw [hadd, hnext, Nat.mod_eq_of_lt hpos, take_set _ _ _ hpos, if_pos (by omega), elements_of_lt (by omega)]
    · have hnext : s.data.length ≤ nextPos s + 1 := by
        unfold nextPos
        split <;> omega
      have hadd : elements (add (.inited s) v) = (s.data.set (nextPos s % s.data.length) v).rotate (nextPos s + 1) :=
        elements_of_full (show _ ≤ nextPos s + 1 by rwa [length_set])
      have hturn : (nextPos s + 1) % s.data.length = ((s.pos + 1) % s.data.length + 1) % s.data.length := by
        rw [← Nat.mod_add_mod, nextPos_mod]
      have hrot (l : List α) (hl : l.length = s.data.length) :
          l.rotate (nextPos s + 1) = l.rotate ((s.pos + 1) % s.data.length + 1) := by
        rw [← rotate_mod, hl, hturn, ← hl, rotate_mod]
      rw [hadd, hrot _ length_set, nextPos_mod, rotate_set _ _ _ (Nat.mod_lt _ hlen), rotate_mod,
        if_neg (by omega), elements_of_full (by omega)]

theorem replaced_eq :
    replaced r = if (elements r).length < capacity r then none else (elements r).head? := by
  cases r with
  | empty size size_pos => exact (if_pos size_pos).symm
  | inited s =>
    have hlen := s.length_pos
    rw [replaced, length_elements, capacity]
    by_cases hpos : s.pos + 1 < s.data.length
    · rw [if_neg (by omega), if_pos (by omega)]
    · rw [if_pos (by omega), if_neg (by omega), elements_of_full (by omega), head?_eq_getElem?,
        getElem?_rotate hlen, Nat.zero_add, getElem?_eq_getElem (Nat.mod_lt _ hlen)]
      rfl

theorem elements_eq_kept : elements r = (replaced r).toList ++ kept r := by
  rw [replaced_eq, kept]
  split
  · rfl
  · cases elements r <;> rfl

theorem elements_clear : elements (clear r) = [] := by
  cases r <;> rfl

theorem last_eq : last r = (elements r).getLast? := by
  cases r with
  | empty size _ => rfl
  | inited s =>
    rw [elements_eq, getLast?_reverse, head?_map, head?_range]
    rfl

/-- A ring of capacity `n` that holds the last values of a list. -/
structure Window (n : Nat) (l : List α) (r : Raw α) : Prop where
  capacity_eq : capacity r = n
  elements_eq : elements r = l.rtake n

namespace Window
variable {n : Nat} {l : List α} {r : Raw α} (h : Window n l r)
include h

theorem pos : 0 < n := h.capacity_eq ▸ capacity_pos r

/-- The ring is full once `n` values were added, and then the next one takes the place of the oldest. -/
theorem cases : (l.length < n ∧ replaced r = none ∧ elements r = l.rtake (n - 1)) ∨
      ∃ x, (n ≤ l.length ∧ l[l.length - n]? = some x) ∧ replaced r = some x ∧
        elements r = x :: l.rtake (n - 1) := by
  have hpos := h.pos
  rw [replaced_eq, h.capacity_eq, h.elements_eq]
  simp only [rtake, length_drop]
  by_cases hlt : l.length < n
  · rw [if_pos (by omega), show l.length - n = 0 by omega, show l.length - (n - 1) = 0 by omega]
    exact .inl ⟨hlt, rfl, rfl⟩
  · have hold : l.length - n < l.length := by omega
    rw [if_neg (by omega), show l.length - (n - 1) = l.length - n + 1 by omega, drop_eq_getElem_cons hold]
    exact .inr ⟨_, ⟨Nat.le_of_not_lt hlt, getElem?_eq_getElem hold⟩, rfl, rfl⟩

theorem add (v : α) : Window n (l ++ [v]) (add r v) := by
  refine ⟨(capacity_add r v).trans h.capacity_eq, ?_⟩
  have hkept : kept r = l.rtake (n - 1) := by
    have hkept := elements_eq_kept r
    rcases h.cases with ⟨-, hr, heq⟩ | ⟨x, -, hr, heq⟩ <;> rw [hr, heq] at hkept
    · exact hkept.symm
    · exact (cons.inj hkept).2.symm
  rw [elements_add, hkept, ← Nat.sub_add_cancel h.pos, rtake_concat_succ, Nat.add_sub_cancel]

theorem clear : Window n [] (clear r) := by
  refine ⟨?_, ?_⟩
  · rw [← h.capacity_eq]
    cases r <;> rfl
  · rw [rtake_nil, elements_clear]

end Window

inductive Op (α : Type) where
  | add (v : α)
  | clear

def Op.apply : Op α → Raw α
  | .add v => (addAndReturnErased r v).1
  | .clear => Ring.clear r

def added : List (Op α) → List α :=
  foldl (fun l op => match op with
    | .add v => l ++ [v]
    | .clear => []) []

/-- The ring has the last `n` values that were added. -/
structure KeepsLast (n : Nat) (l : List α) (r : Raw α) : Prop where
  elements_eq : elements r = l.drop (l.length - min n l.length)
  last_eq : last r = l.getLast?
  erased : ∀ v x, (addAndReturnErased r v).2 = some x ↔ n ≤ l.length ∧ l[l.length - n]? = some x

theorem window_run {n : Nat} {r : Raw α} (h : Window n [] r) (ops : List (Op α)) :
    Window n (added ops) (run Op.apply r ops) := by
  induction ops using reverseRecOn with
  | nil => exact h
  | append_singleton ops op ih =>
    rw [run_append_singleton, added, foldl_append]
    cases op with
    | add v => exact ih.add v
    | clear => exact ih.clear

/-- After every run, a ring of capacity `n` keeps the last `n` of the values added since the last `clear`. -/
theorem keepsLast_run (n : Nat) (r : Raw α) (h : create n = some r) (ops : List (Op α)) :
    KeepsLast n (added ops) (run Op.apply r ops) := by
  have hinit : Window n [] r := by
    rw [create] at h
    split at h
    · cases h
    · obtain rfl := Option.some.inj h
      exact ⟨Int.toNat_natCast n, drop_nil.symm⟩
  have hrun := window_run hinit ops
  have hpos := hrun.pos
  generalize added ops = l at hrun ⊢
  have hmin : l.length - min n l.length = l.length - n := by omega
  refine ⟨hrun.elements_eq.trans (by rw [hmin, rtake]), ?_, fun v x => ?_⟩
  · rw [last_eq, hrun.elements_eq, rtake, getLast?_drop]
    split
    · rw [eq_nil_of_length_eq_zero (by omega : l.length = 0)]
      rfl
    · rfl
  · show replaced _ = some x ↔ _
    rcases hrun.cases with ⟨hlt, hnone, -⟩ | ⟨y, ⟨hle, hy⟩, hsome, -⟩
    · rw [hnone]
      exact iff_of_false (by simp) fun hx => absurd hx.1 (Nat.not_le.mpr hlt)
    · rw [hsome, hy]
      exact (and_iff_right hle).symm

theorem keepsLast_run_two :
    KeepsLast 2 [1, 2, 3] (run Op.apply (.empty 2 Nat.two_pos) [.add 0, .clear, .add 1, .add 2, .add 3]) :=
  keepsLast_run 2 _ rfl [.add 0, .clear, .add 1, .add 2, .add 3]

/-! ### Tables

The bounded sets of `MakeTable` evict by age only as long as no member is added again, and no value is evicted that is
in the ring a second time. -/

namespace Table
variable {α : Type} {v w : α} {k n : Nat}

inductive Op (α : Type) where
  | add (v : α)
  | remove (v : α)
  | clear

def Op.isAdd : Op α → Bool
  | .add _ => true
  | _ => false

/-- The value was added, and not removed since, with fewer than `k` additions since. -/
def Recent (k : Nat) (ops : List (Op α)) (v : α) : Prop :=
  Since (.add v) (fun after => .remove v ∉ after ∧ .clear ∉ after ∧ after.countP Op.isAdd < k) ops

def history (ops : List (Op α)) : List α :=
  ops.foldl (fun l op => match op with
    | .add v => l ++ [v]
    | .remove _ => l
    | .clear => []) []

section
variable (ops : List (Op α))
include ops

theorem history_add (v : α) : history (ops ++ [.add v]) = history ops ++ [v] := by
  rw [history, foldl_append]
  rfl

theorem history_remove (v : α) : history (ops ++ [.remove v]) = history ops := by
  rw [history, foldl_append]
  rfl

theorem history_clear : history (ops ++ [.clear]) = [] := by
  rw [history, foldl_append]
  rfl

theorem recent_add : Recent k (ops ++ [.add w]) v ↔ (v = w ∧ 0 < k) ∨ Recent (k - 1) ops v := by
  rw [Recent, since_concat]
  refine or_congr ⟨?_, ?_⟩ ⟨fun h => h.imp ?_, fun h => h.imp ?_⟩
  · rintro ⟨heq, -, -, hk⟩
    exact ⟨(Op.add.inj heq).symm, hk⟩
  · rintro ⟨rfl, hk⟩
    exact ⟨rfl, not_mem_nil, not_mem_nil, hk⟩
  · simp only [mem_append, mem_singleton, countP_append, countP_singleton, Op.isAdd]
    rintro after ⟨hr, hc, hk⟩
    exact ⟨fun h => hr (.inl h), fun h => hc (.inl h), by simp only [if_true] at hk; omega⟩
  · simp only [mem_append, mem_singleton, countP_append, countP_singleton, Op.isAdd]
    rintro after ⟨hr, hc, hk⟩
    exact ⟨fun h => h.elim hr nofun, fun h => h.elim hc nofun, by simp only [if_true]; omega⟩

theorem recent_remove : Recent k (ops ++ [.remove w]) v ↔ Recent k ops v ∧ v ≠ w := by
  rw [Recent, since_concat, or_iff_right (by rintro ⟨heq, -⟩; cases heq)]
  constructor
  · rintro ⟨before, after, heq, hr, hc, hk⟩
    rw [mem_append, mem_singleton, not_or] at hr hc
    rw [countP_append] at hk
    exact ⟨⟨before, after, heq, hr.1, hc.1, Nat.lt_of_le_of_lt (Nat.le_add_right _ _) hk⟩,
      fun h => hr.2 (by rw [h])⟩
  · rintro ⟨⟨before, after, heq, hr, hc, hk⟩, hne⟩
    refine ⟨before, after, heq, ?_, ?_, ?_⟩
    · rw [mem_append, mem_singleton, not_or]
      exact ⟨hr, fun h => hne (Op.remove.inj h)⟩
    · rw [mem_append, not_or]
      exact ⟨hc, nofun⟩
    · rw [countP_append]
      exact hk

theorem not_recent_clear : ¬Recent k (ops ++ [.clear]) v := by
  rw [Recent, since_concat]
  rintro (⟨heq, -⟩ | ⟨before, after, heq, hr, hc, hk⟩)
  · cases heq
  · exact hc (mem_append_right _ (mem_singleton_self _))

end

theorem mem_rtake_concat (l : List α) : v ∈ (l ++ [w]).rtake k ↔ (v = w ∧ 0 < k) ∨ v ∈ l.rtake (k - 1) := by
  rcases k with _ | k
  · simp
  · simp [rtake_concat_succ, or_comm]

/-- A value that was not removed since its last addition is a recent one if it is among the last values. -/
theorem recent_iff (ops : List (Op α)) (k : Nat) (v : α) :
    Recent k ops v ↔ (∃ k', Recent k' ops v) ∧ v ∈ (history ops).rtake k := by
  induction ops using List.reverseRecOn generalizing k v with
  | nil => exact iff_of_false not_since_nil fun h => not_since_nil h.1.choose_spec
  | append_singleton ops op ih =>
    cases op with
    | add w =>
      have hlive : (∃ k', Recent k' (ops ++ [.add w]) v) ↔ v = w ∨ ∃ k', Recent k' ops v := by
        simp only [recent_add, exists_or]
        refine or_congr ⟨fun h => h.choose_spec.1, fun h => ⟨1, h, Nat.one_pos⟩⟩ ⟨?_, ?_⟩
        · exact fun ⟨k', h⟩ => ⟨k' - 1, h⟩
        · exact fun ⟨k', h⟩ => ⟨k' + 1, h⟩
      rw [recent_add, hlive, history_add, mem_rtake_concat, ih]
      constructor
      · rintro (h | h)
        · exact ⟨.inl h.1, .inl h⟩
        · exact ⟨.inr h.1, .inr h.2⟩
      · rintro ⟨hw | hlive, h | h⟩
        · exact .inl h
        · refine .inl ⟨hw, Nat.pos_of_ne_zero fun h0 => ?_⟩
          rw [h0, rtake_zero] at h
          exact not_mem_nil h
        · exact .inl h
        · exact .inr ⟨hlive, h⟩
    | remove w =>
      simp only [recent_remove, history_remove, exists_and_right]
      rw [ih, and_right_comm]
    | clear => exact iff_of_false (not_recent_clear ops) fun h => not_recent_clear ops h.1.choose_spec

/-! ### Steps -/

variable {t : Table α} {ops : List (Op α)}

/-- The ring holds the last values, and the table the recent ones, each of them once. -/
structure Tracks (n : Nat) (ops : List (Op α)) (t : Table α) : Prop where
  size_eq : t.size = n
  capacity_eq : capacity t.ring = n
  elements_eq : Ring.elements t.ring = (history ops).rtake n
  nodup : t.table.Nodup
  mem_table : ∀ v, v ∈ t.table ↔ Recent n ops v

theorem Tracks.window (h : Tracks n ops t) : Window n (history ops) t.ring := ⟨h.capacity_eq, h.elements_eq⟩

variable [DecidableEq α]

def Op.apply (t : Table α) : Op α → Table α
  | .add v => t.add v
  | .remove v => t.remove v
  | .clear => t.clear

structure EvictsByAge (n : Nat) (ops : List (Op α)) (t : Table α) : Prop where
  removed : ∀ before v, ops = before ++ [.remove v] → t.mem v = false
  recent : ∀ v, Recent n ops v → t.mem v = true
  length_le : t.elements.length ≤ n
  nodup : t.elements.Nodup

/-- A value that is added is not a member, or is the one it evicts, and a member that it evicts is in no other slot
    of the ring. -/
def Op.Fresh (t : Table α) : Op α → Prop
  | .add v =>
    (t.mem v = true → replaced t.ring = some v) ∧
      ∀ x, replaced t.ring = some x → x ≠ v → t.mem x = true → x ∉ (Ring.elements t.ring).tail
  | .remove _ => True
  | .clear => True

theorem Tracks.add (h : Tracks n ops t) (hop : (Op.add v).Fresh t) : Tracks n (ops ++ [.add v]) (t.add v) := by
  obtain ⟨hnew, hold⟩ := hop
  have hadd : Window n (history (ops ++ [.add v])) (Ring.add t.ring v) := by
    rw [history_add]
    exact h.window.add v
  have hrecent (w : α) : w ∈ t.table ↔ (∃ k, Recent k ops w) ∧ w ∈ Ring.elements t.ring := by
    rw [h.mem_table, recent_iff, h.elements_eq]
  have haft (w : α) : Recent n (ops ++ [.add v]) w ↔
      w = v ∨ (∃ k, Recent k ops w) ∧ w ∈ (history ops).rtake (n - 1) := by
    rw [recent_add, recent_iff ops (n - 1), and_iff_left h.window.pos]
  have hmem {x : α} : t.mem x = true ↔ x ∈ t.table := decide_eq_true_iff
  rcases h.window.cases with ⟨-, hnone, heq⟩ | ⟨x, -, hsome, heq⟩
  · have htab : (t.add v).table = v :: t.table := by rw [Table.add, addAndReturnErased, hnone]
    have hnot : v ∉ t.table := fun hv => by
      have := hnew (hmem.mpr hv)
      rw [hnone] at this
      cases this
    refine ⟨h.size_eq, hadd.capacity_eq, hadd.elements_eq, ?_, fun w => ?_⟩
    · rw [htab]
      exact nodup_cons.mpr ⟨hnot, h.nodup⟩
    · rw [htab, mem_cons, haft, hrecent, heq]
  · have htab : (t.add v).table = v :: t.table.erase x := by rw [Table.add, addAndReturnErased, hsome]
    refine ⟨h.size_eq, hadd.capacity_eq, hadd.elements_eq, ?_, fun w => ?_⟩
    · rw [htab]
      refine nodup_cons.mpr ⟨fun hv => ?_, h.nodup.erase x⟩
      obtain ⟨hne, hv⟩ := h.nodup.mem_erase_iff.mp hv
      have := hnew (hmem.mpr hv)
      rw [hsome] at this
      exact hne (Option.some.inj this).symm
    · rw [htab, mem_cons, h.nodup.mem_erase_iff, haft]
      constructor
      · rintro (hwv | ⟨hne, hw⟩)
        · exact .inl hwv
        · obtain ⟨hlive, hw⟩ := (hrecent w).mp hw
          rw [heq] at hw
          exact .inr ⟨hlive, (mem_cons.mp hw).resolve_left hne⟩
      · intro hw
        by_cases hwv : w = v
        · exact .inl hwv
        · obtain ⟨hlive, hw⟩ := hw.resolve_left hwv
          have hwt : w ∈ t.table := (hrecent w).mpr ⟨hlive, by rw [heq]; exact mem_cons_of_mem x hw⟩
          refine .inr ⟨fun hwx => ?_, hwt⟩
          refine hold x hsome (fun hxv => hwv (hwx.trans hxv)) (hmem.mpr (hwx ▸ hwt)) ?_
          rw [heq, ← hwx]
          exact hw

theorem tracks_step (ops : List (Op α)) (t : Table α) (op : Op α) (h : Tracks n ops t) (hop : op.Fresh t) :
    Tracks n (ops ++ [op]) (op.apply t) := by
  cases op with
  | add v => exact h.add hop
  | remove v =>
    refine ⟨h.size_eq, h.capacity_eq, ?_, h.nodup.erase v, fun w => ?_⟩
    · rw [history_remove]
      exact h.elements_eq
    · rw [recent_remove, ← h.mem_table, and_comm]
      exact h.nodup.mem_erase_iff
  | clear =>
    refine ⟨h.size_eq, h.size_eq, ?_, nodup_nil, fun w => ?_⟩
    · rw [history_clear, rtake_nil]
      rfl
    · exact iff_of_false not_mem_nil (not_recent_clear ops)

theorem Tracks.evictsByAge (h : Tracks n ops t) : EvictsByAge n ops t where
  removed before v heq := by
    rw [mem, decide_eq_false_iff_not, h.mem_table, heq, recent_remove]
    exact fun hv => hv.2 rfl
  recent v hv := decide_eq_true ((h.mem_table v).mpr hv)
  length_le := by
    have hsub : t.table ⊆ Ring.elements t.ring := fun v hv => by
      rw [h.elements_eq]
      exact ((recent_iff ops n v).mp ((h.mem_table v).mp hv)).2
    calc t.table.length ≤ (Ring.elements t.ring).length := (subperm_of_subset h.nodup hsub).length_le
      _ ≤ n := h.capacity_eq ▸ elements_le_capacity t.ring
  nodup := h.nodup

/-- An addition that is not fresh leaves a value twice in the table, or takes a recent value out of it. -/
theorem Tracks.fresh (h : Tracks n ops t) {op : Op α} (hgood : EvictsByAge n (ops ++ [op]) (op.apply t)) :
    op.Fresh t := by
  cases op with
  | remove v => trivial
  | clear => trivial
  | add v =>
    have hmem {x : α} : t.mem x = true ↔ x ∈ t.table := decide_eq_true_iff
    have hnd : (t.add v).table.Nodup := hgood.nodup
    rcases h.window.cases with ⟨-, hnone, -⟩ | ⟨x, -, hsome, heq⟩
    · have htab : (t.add v).table = v :: t.table := by rw [Table.add, addAndReturnErased, hnone]
      rw [htab] at hnd
      refine ⟨fun hv => absurd (hmem.mp hv) (nodup_cons.mp hnd).1, fun x hx => ?_⟩
      rw [hnone] at hx
      cases hx
    · have htab : (t.add v).table = v :: t.table.erase x := by rw [Table.add, addAndReturnErased, hsome]
      rw [htab] at hnd
      refine ⟨fun hv => ?_, fun y hy hyv hyt hytl => ?_⟩
      · rw [hsome]
        by_contra hne
        exact (nodup_cons.mp hnd).1
          (h.nodup.mem_erase_iff.mpr ⟨fun heq => hne (congrArg some heq.symm), hmem.mp hv⟩)
      · rw [hsome] at hy
        obtain rfl := Option.some.inj hy
        rw [heq] at hytl
        -- the value is a recent one still, and the table had it once
        have hlive : ∃ k, Recent k ops x := ⟨n, (h.mem_table x).mp (hmem.mp hyt)⟩
        have hrecent : Recent n (ops ++ [.add v]) x :=
          (recent_add ops).mpr (.inr ((recent_iff ops (n - 1) x).mpr ⟨hlive, hytl⟩))
        have hx : x ∈ (t.add v).table := of_decide_eq_true (hgood.recent x hrecent)
        rw [htab, mem_cons, h.nodup.mem_erase_iff] at hx
        exact hx.elim hyv fun hx => hx.1 rfl

/-- Throughout a run on a set of capacity `n`, the set evicts by age only if, and only if, every addition is
    fresh. -/
theorem evictsByAge_iff_fresh (n : Nat) (t : Table α) (h : create n = some t) (ops : List (Op α)) :
    Throughout (fun ops => EvictsByAge n ops (run Op.apply t ops)) ops ↔ StepsMeet Op.apply t Op.Fresh ops := by
  have hinit : Tracks n [] t := by
    rw [create] at h
    split at h
    · cases h
    · obtain rfl := Option.some.inj h
      refine ⟨Int.toNat_natCast n, Int.toNat_natCast n, ?_, nodup_nil, fun v => ?_⟩
      · exact drop_nil.symm
      · exact iff_of_false not_mem_nil not_since_nil
  exact throughout_iff_stepsMeet (Tracks n) hinit tracks_step (fun _ h => h.evictsByAge)
    fun ops op h hgood => h.fresh (by rwa [run_append_singleton] at hgood)

theorem evictsByAge_iff_fresh_two :
    Throughout (fun ops => EvictsByAge 2 ops
      (run Op.apply (⟨2, Nat.two_pos, .empty 2 Nat.two_pos, []⟩ : Table Nat) ops))
        [.add 0, .add 1, .add 2, .remove 1] ↔
      StepsMeet Op.apply (⟨2, Nat.two_pos, .empty 2 Nat.two_pos, []⟩ : Table Nat) Op.Fresh
        [.add 0, .add 1, .add 2, .remove 1] :=
  evictsByAge_iff_fresh 2 _ rfl _

/-- A value that is added twice is still a member when it is removed; a value that is removed and added again is
    evicted by the slot of its first addition. -/
theorem mem_added_twice : (create 2).map (fun t => (run Op.apply t [.add 0, .add 0, .remove 0]).mem 0) = some true ∧
      (create 2).map (fun t => (run Op.apply t [.add 0, .remove 0, .add 0, .add 1]).mem 0) = some false ∧
        Recent 2 [.add 0, .remove 0, .add 0, .add 1] 0 :=
  ⟨by decide, by decide, [.add 0, .remove 0], [.add 1], rfl, by simp, by simp, by decide⟩

end Table

end Tezos.Ring
