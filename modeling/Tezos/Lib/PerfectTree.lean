import Mathlib.Data.List.GetD
import Mathlib.Data.Nat.Log
import Mathlib.Tactic.Ring

/-! Perfect binary trees, and the value at the root, which determines the tree when the values are combined injectively.
    -/

namespace Tezos.Lib
open List

inductive PerfectTree (α : Type) : Nat → Type where
  | leaf (a : α) : PerfectTree α 0
  | node {d : Nat} (l r : PerfectTree α d) : PerfectTree α (d + 1)

namespace PerfectTree
variable {α τ : Type} {d d' : Nat}

def leaves {d : Nat} : PerfectTree α d → List α
  | leaf a => [a]
  | node l r => l.leaves ++ r.leaves

@[simp] theorem leaves_node (l r : PerfectTree α d) : (node l r).leaves = l.leaves ++ r.leaves := rfl

theorem length_leaves (t : PerfectTree α d) : t.leaves.length = 2 ^ d := by
  induction t with
  | leaf a => rfl
  | node l r ihl ihr => rw [leaves_node, length_append, ihl, ihr, pow_succ, mul_two]

theorem leaves_injective (t t' : PerfectTree α d) (h : t.leaves = t'.leaves) : t = t' := by
  induction t with
  | leaf a =>
    cases t' with
    | leaf a' => rw [singleton_inj.mp h]
  | node l r ihl ihr =>
    cases t' with
    | node l' r' =>
      obtain ⟨hl, hr⟩ := append_inj h (by rw [length_leaves, length_leaves])
      rw [ihl l' hl, ihr r' hr]

def root (onLeaf : α → τ) (onNode : τ → τ → τ) {d : Nat} : PerfectTree α d → τ
  | leaf a => onLeaf a
  | node l r => onNode (l.root onLeaf onNode) (r.root onLeaf onNode)

@[simp] theorem root_node (onLeaf : α → τ) (onNode : τ → τ → τ) (l r : PerfectTree α d) :
    (node l r).root onLeaf onNode = onNode (l.root onLeaf onNode) (r.root onLeaf onNode) := rfl

theorem root_congr {onLeaf : α → τ} {onNode : τ → τ → τ} {t : PerfectTree α d} {t' : PerfectTree α d'}
    (hd : d = d')
    (h : t.leaves = t'.leaves) : t.root onLeaf onNode = t'.root onLeaf onNode := by
  subst hd
  rw [leaves_injective t t' h]

def tabulate (f : Nat → α) : (d : Nat) → PerfectTree α d
  | 0 => leaf (f 0)
  | d + 1 => node (tabulate f d) (tabulate (fun i => f (2 ^ d + i)) d)

theorem leaves_tabulate (f : Nat → α) (d : Nat) : (tabulate f d).leaves = (range (2 ^ d)).map f := by
  induction d generalizing f with
  | zero => rfl
  | succ d ih =>
    rw [tabulate, leaves_node, ih, ih, pow_succ, mul_two, range_add, map_append, map_map]
    rfl

def pairs (onNode : τ → τ → τ) (f : Nat → τ) (i : Nat) : τ := onNode (f (2 * i)) (f (2 * i + 1))

/-- The root can be reached level by level, combining the values of a level two by two. -/
theorem root_tabulate_succ (onNode : τ → τ → τ) (f : Nat → τ) (d : Nat) :
    (tabulate f (d + 1)).root id onNode = (tabulate (pairs onNode f) d).root id onNode := by
  induction d generalizing f with
  | zero => rfl
  | succ d ih =>
    have hrgt : pairs onNode (fun i => f (2 ^ (d + 1) + i)) = fun i => pairs onNode f (2 ^ d + i) := by
      funext i
      have heven : 2 ^ (d + 1) + 2 * i = 2 * (2 ^ d + i) := by ring
      rw [pairs, pairs, ← Nat.add_assoc, heven]
    rw [tabulate, root_node, ih, ih, hrgt]
    rfl

theorem root_tabulate (onLeaf : α → τ) (onNode : τ → τ → τ) (f : Nat → α) (d : Nat) :
    (tabulate f d).root onLeaf onNode = (tabulate (fun i => onLeaf (f i)) d).root id onNode := by
  induction d generalizing f with
  | zero => rfl
  | succ d ih => rw [tabulate, tabulate, root_node, root_node, ih, ih]

section
variable {onLeaf : α → τ} {onNode : τ → τ → τ}

theorem root_ne {x : τ} (hleaf : ∀ a, onLeaf a ≠ x) (hnode : ∀ l r, onNode l r ≠ x) (t : PerfectTree α d) :
    t.root onLeaf onNode ≠ x := by
  cases t with
  | leaf a => exact hleaf a
  | node l r => exact hnode _ _

theorem root_injective (hleaf : Function.Injective onLeaf) (hnode : Function.Injective2 onNode)
    (hdisj : ∀ a l r, onLeaf a ≠ onNode l r) (t : PerfectTree α d) (t' : PerfectTree α d')
    (h : t.root onLeaf onNode = t'.root onLeaf onNode) : d = d' ∧ t.leaves = t'.leaves := by
  induction t generalizing d' with
  | leaf a =>
    cases t' with
    | leaf a' => exact ⟨rfl, congrArg (fun x => [x]) (hleaf h)⟩
    | node l' r' => exact absurd h (hdisj a _ _)
  | node l r ihl ihr =>
    cases t' with
    | leaf a' => exact absurd h.symm (hdisj a' _ _)
    | node l' r' =>
      obtain ⟨hl, hr⟩ := hnode h
      obtain ⟨rfl, hleft⟩ := ihl l' hl
      obtain ⟨-, hrgt⟩ := ihr r' hr
      exact ⟨rfl, by rw [leaves_node, leaves_node, hleft, hrgt]⟩

end

end PerfectTree

/-! ### Lists padded to a power of two -/

section
variable {α : Type} {xs ys : List α} {last : α}

/-- A list followed by copies of its last element, up to the least power of two that is not below its length. -/
def padded (xs : List α) : List α :=
  match xs.getLast? with
  | none => []
  | some last => xs ++ replicate (2 ^ Nat.clog 2 xs.length - xs.length) last

theorem padded_of_getLast? (h : xs.getLast? = some last) :
    padded xs = xs ++ replicate (2 ^ Nat.clog 2 xs.length - xs.length) last := by
  rw [padded, h]

theorem padded_eq_nil (h : padded xs = []) : xs = [] := by
  by_contra hne
  rw [padded_of_getLast? (getLast?_eq_some_getLast hne)] at h
  exact hne (append_eq_nil_iff.mp h).1

theorem length_le_two_pow_clog (xs : List α) : xs.length ≤ 2 ^ Nat.clog 2 xs.length :=
  Nat.le_pow_clog (Nat.lt_succ_self 1) xs.length

theorem length_padded (h : xs ≠ []) : (padded xs).length = 2 ^ Nat.clog 2 xs.length := by
  rw [padded_of_getLast? (getLast?_eq_some_getLast h), length_append, length_replicate]
  exact Nat.add_sub_cancel' (length_le_two_pow_clog xs)

theorem map_getD_range (h : xs.getLast? = some last) :
    (range (2 ^ Nat.clog 2 xs.length)).map (fun i => xs.getD i last) = padded xs := by
  rw [padded_of_getLast? h]
  refine ext_getElem ?_ fun i hi hi' => ?_
  · rw [length_map, length_range, length_append, length_replicate]
    exact (Nat.add_sub_cancel' (length_le_two_pow_clog xs)).symm
  · rw [getElem_map, getElem_range, getElem_append]
    split
    · next hlt => rw [getD_eq_getElem xs last hlt]
    · next hge => rw [getElem_replicate, getD_eq_default _ _ (Nat.le_of_not_lt hge)]

/-- The second list is the first one followed by some of the copies of its last element that pad it. -/
def Stretches (xs ys : List α) : Prop :=
  ∃ last k, xs.getLast? = some last ∧ 0 < k ∧ ys = xs ++ replicate k last ∧ ys.length ≤ 2 ^ Nat.clog 2 xs.length

theorem Stretches.ne (h : Stretches xs ys) : xs ≠ ys := by
  obtain ⟨last, k, -, hk, rfl, -⟩ := h
  intro heq
  have hlen := congrArg length heq
  rw [length_append, length_replicate] at hlen
  omega

theorem Stretches.padded_eq (h : Stretches xs ys) : padded xs = padded ys := by
  obtain ⟨last, k, hlast, hk, rfl, hle⟩ := h
  have hlast' : (xs ++ replicate k last).getLast? = some last := by
    rw [getLast?_append, getLast?_replicate, if_neg (Nat.ne_of_gt hk), Option.some_or]
  have hclog : Nat.clog 2 (xs ++ replicate k last).length = Nat.clog 2 xs.length := by
    refine Nat.le_antisymm ?_ ?_
    · exact Nat.clog_le_of_le_pow hle
    · exact Nat.clog_mono_right 2 (length_append ▸ Nat.le_add_right _ _)
  rw [padded_of_getLast? hlast, padded_of_getLast? hlast', hclog, append_assoc, replicate_append_replicate,
    length_append, length_replicate]
  rw [length_append, length_replicate] at hle
  congr 2
  omega

theorem stretches_of_padded_eq (h : padded xs = padded ys) (hlen : xs.length ≤ ys.length) :
    xs = ys ∨ Stretches xs ys := by
  rcases eq_nil_or_concat xs with rfl | ⟨init, last, rfl⟩
  · exact .inl (padded_eq_nil h.symm).symm
  · rw [concat_eq_append] at *
    have hlast : (init ++ [last]).getLast? = some last := getLast?_concat
    have hys : ys ≠ [] := by
      rintro rfl
      exact absurd (padded_eq_nil h) (append_ne_nil_of_right_ne_nil init (cons_ne_nil last []))
    have hsize : ys.length ≤ 2 ^ Nat.clog 2 (init ++ [last]).length := by
      rw [← length_padded (append_ne_nil_of_right_ne_nil init (cons_ne_nil last [])), h, length_padded hys]
      exact length_le_two_pow_clog ys
    have htake : ys = (padded (init ++ [last])).take ys.length := by
      rw [h, padded_of_getLast? (getLast?_eq_some_getLast hys), take_left]
    rw [padded_of_getLast? hlast, take_append, take_of_length_le hlen, take_replicate] at htake
    rcases Nat.eq_or_lt_of_le hlen with heq | hlt
    · rw [heq, Nat.sub_self, Nat.zero_min, replicate_zero, append_nil] at htake
      exact .inl htake.symm
    · exact .inr ⟨last, _, hlast, by omega, htake, hsize⟩

theorem padded_eq_iff : padded xs = padded ys ↔ xs = ys ∨ Stretches xs ys ∨ Stretches ys xs := by
  constructor
  · intro h
    rcases Nat.le_total xs.length ys.length with hlen | hlen
    · rcases stretches_of_padded_eq h hlen with heq | hs
      · exact .inl heq
      · exact .inr (.inl hs)
    · rcases stretches_of_padded_eq h.symm hlen with heq | hs
      · exact .inl heq.symm
      · exact .inr (.inr hs)
  · rintro (rfl | hs | hs)
    · rfl
    · exact hs.padded_eq
    · exact hs.padded_eq.symm

/-! A stretched list repeats its last element. -/

theorem Stretches.length_lt (h : Stretches xs ys) : xs.length < ys.length := by
  obtain ⟨last, k, -, hk, rfl, -⟩ := h
  rw [length_append, length_replicate]
  exact Nat.lt_add_of_pos_right hk

theorem Stretches.not_nodup (h : Stretches xs ys) : ¬ys.Nodup := by
  obtain ⟨last, k, hlast, hk, rfl, -⟩ := h
  intro hnd
  have hmem : last ∈ replicate k last := mem_replicate.mpr ⟨Nat.ne_of_gt hk, rfl⟩
  exact (nodup_append.mp hnd).2.2 last (mem_of_getLast? hlast) last hmem rfl

theorem eq_of_padded_eq (h : padded xs = padded ys) (hxs : xs.Nodup) (hys : ys.Nodup) : xs = ys := by
  rcases padded_eq_iff.mp h with heq | hs | hs
  · exact heq
  · exact absurd hys hs.not_nodup
  · exact absurd hxs hs.not_nodup

theorem Stretches.flatten_eq {xs ys : List (List α)} (h : Stretches xs ys) (hnd : ys.flatten.Nodup) :
    ys.flatten = xs.flatten := by
  obtain ⟨last, k, hlast, hk, rfl, -⟩ := h
  have hemp : last = [] := by
    refine eq_nil_iff_forall_not_mem.mpr fun x hx => ?_
    rw [flatten_append] at hnd
    have hleft : x ∈ xs.flatten := mem_flatten.mpr ⟨last, mem_of_getLast? hlast, hx⟩
    have hrgt : x ∈ (replicate k last).flatten :=
      mem_flatten.mpr ⟨last, mem_replicate.mpr ⟨Nat.ne_of_gt hk, rfl⟩, hx⟩
    exact (nodup_append.mp hnd).2.2 x hleft x hrgt rfl
  rw [hemp, flatten_append, flatten_replicate_nil, append_nil]

section
variable {β : Type} {f : α → β}

theorem padded_map (xs : List α) : padded (xs.map f) = (padded xs).map f := by
  rcases hlast : xs.getLast? with _ | last
  · rw [getLast?_eq_none_iff.mp hlast]
    rfl
  · have hmap : (xs.map f).getLast? = some (f last) := by rw [getLast?_map, hlast, Option.map_some]
    rw [padded_of_getLast? hlast, padded_of_getLast? hmap, map_append, map_replicate, length_map]

theorem mem_of_mem_padded {x : α} (h : x ∈ padded xs) : x ∈ xs := by
  rcases hlast : xs.getLast? with _ | last
  · rw [getLast?_eq_none_iff.mp hlast] at h
    cases h
  · rw [padded_of_getLast? hlast, mem_append] at h
    rcases h with h | h
    · exact h
    · rw [(mem_replicate.mp h).2]
      exact mem_of_getLast? hlast

theorem eq_of_map_eq (hinj : ∀ x ∈ xs, ∀ y ∈ ys, f x = f y → x = y) (h : xs.map f = ys.map f) : xs = ys := by
  have hleng : xs.length = ys.length := by simpa only [length_map] using congrArg length h
  refine ext_getElem hleng fun i hi hi' => hinj _ (getElem_mem hi) _ (getElem_mem hi') ?_
  have hget := getElem_of_eq h ((length_map f).symm ▸ hi)
  rwa [getElem_map, getElem_map] at hget

theorem padded_eq_of_map (hinj : ∀ x ∈ xs, ∀ y ∈ ys, f x = f y → x = y)
    (h : padded (xs.map f) = padded (ys.map f)) : padded xs = padded ys := by
  rw [padded_map, padded_map] at h
  exact eq_of_map_eq (fun x hx y hy => hinj x (mem_of_mem_padded hx) y (mem_of_mem_padded hy)) h

end

end

end Tezos.Lib
