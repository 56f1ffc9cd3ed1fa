import Tezos.Crypto.MerkleTree
import Tezos.Lib.PerfectTree

/-! The array of a Merkle tree holds one level after the other, and the root commits to the padded list. -/

namespace Tezos.MerkleTree
open Lib PerfectTree List Option

variable {elt τ : Type} {H : Hash elt τ} {a : List τ} {n : Nat} {f : Nat → τ}

/-- The array holds the first values of a sequence, which is constant from there on. -/
structure Level (a : List τ) (n : Nat) (f : Nat → τ) : Prop where
  slots : ∀ i, i ≤ n → a[i]? = some (f i)
  constant : ∀ i, n ≤ i → f i = f n

theorem Level.lt_length (h : Level a n f) : n < a.length := by
  obtain ⟨hlt, -⟩ := List.getElem?_eq_some_iff.mp (h.slots n (le_refl n))
  exact hlt

variable {i j pos s : Nat} {last x : elt} {xs : List elt} {p : Path τ}

theorem set_eq_some (x : τ) (h : i < a.length) : set a i x = some (a.set i x) := if_pos h

/-- After some turns of the loop the slots below hold the level above, and the other ones are as before. -/
theorem foldlM_pair (h : Level a n f) (k : Nat) (hk : 2 * k ≤ n + 1) :
    ∃ a', (range k).foldlM (pair H) a = some a' ∧ a'.length = a.length ∧
      (∀ i, i < k → a'[i]? = some (pairs H.node f i)) ∧ ∀ i, k ≤ i → a'[i]? = a[i]? := by
  induction k with
  | zero => exact ⟨a, rfl, rfl, fun i hi => absurd hi (Nat.not_lt_zero i), fun i _ => rfl⟩
  | succ k ih =>
    obtain ⟨a', hfold, hlen, hbel, habv⟩ := ih (by omega)
    have hl : get a' (2 * k) = some (f (2 * k)) := (habv _ (by omega)).trans (h.slots _ (by omega))
    have hr : get a' (2 * k + 1) = some (f (2 * k + 1)) := (habv _ (by omega)).trans (h.slots _ (by omega))
    have hlt : k < a'.length := by
      have := h.lt_length
      omega
    refine ⟨a'.set k (pairs H.node f k), ?_, by rw [length_set, hlen], fun i hi => ?_, fun i hi => ?_⟩
    · simp only [range_succ, foldlM_append, hfold, foldlM_cons, foldlM_nil, pair, hl, hr,
        set_eq_some _ hlt, bind_eq_bind, bind_some, Option.pure_def, pairs]
    · rcases Nat.lt_succ_iff_lt_or_eq.mp hi with hi | rfl
      · rw [getElem?_set_ne (ne_of_gt hi), hbel i hi]
      · rw [getElem?_set_self hlt]
    · rw [getElem?_set_ne (Nat.ne_of_lt hi), habv i (Nat.le_of_succ_le hi)]

theorem reduce_spec (h : Level a n f) (hn : 1 ≤ n) :
    ∃ a', reduce H a n = some a' ∧ a'.length = a.length ∧ Level a' ((n + 1) / 2) (pairs H.node f) := by
  obtain ⟨a', hfold, hlen, hbel, habv⟩ := foldlM_pair (H := H) h ((n + 1) / 2) (by omega)
  have hlast : get a' n = some (f n) := (habv n (by omega)).trans (h.slots n (le_refl n))
  have hlt : (n + 1) / 2 < a'.length := by
    have := h.lt_length
    omega
  -- both neighbours at the end of the level above are padding
  have hpad : ∀ i, (n + 1) / 2 ≤ i → pairs H.node f i = H.node (f n) (f n) := by
    intro i hi
    rw [pairs, h.constant (2 * i) (by omega), h.constant (2 * i + 1) (by omega)]
  refine ⟨a'.set ((n + 1) / 2) (H.node (f n) (f n)), ?_, by rw [length_set, hlen], fun i hi => ?_, fun i hi => ?_⟩
  · simp only [reduce, hfold, hlast, set_eq_some _ hlt, bind_eq_bind, bind_some]
  · rcases lt_or_eq_of_le hi with hi | rfl
    · rw [getElem?_set_ne (ne_of_gt hi), hbel i hi]
    · rw [getElem?_set_self hlt, hpad _ le_rfl]
  · rw [hpad i hi, hpad _ le_rfl]

theorem extend_spec (h : Level a n f) (hlt : n + 1 < a.length) :
    ∃ a', extend a n = some a' ∧ a'.length = a.length ∧ Level a' (n + 1) f := by
  have hnext : f (n + 1) = f n := h.constant (n + 1) (Nat.le_succ n)
  refine ⟨a.set (n + 1) (f n), ?_, length_set, fun i hi => ?_, fun i hi => ?_⟩
  · rw [extend, get, h.slots n (le_refl n), bind_eq_bind, bind_some, set_eq_some _ hlt]
  · rcases lt_or_eq_of_le hi with hi | rfl
    · rw [getElem?_set_ne (Nat.ne_of_gt hi), h.slots i (Nat.le_of_lt_succ hi)]
    · rw [getElem?_set_self hlt, hnext]
  · rw [h.constant i (Nat.le_of_succ_le hi), hnext]

theorem fill_spec (a : List τ) (i : Nat) (xs : List elt) (h : i + xs.length ≤ a.length) :
    ∃ a', fill H a i xs = some a' ∧ a'.length = a.length ∧ (∀ j, j < i → a'[j]? = a[j]?) ∧
      (∀ j (hj : j < xs.length), a'[i + j]? = some (H.leaf xs[j])) ∧ ∀ j, i + xs.length ≤ j → a'[j]? = a[j]? := by
  induction xs generalizing a i with
  | nil => exact ⟨a, rfl, rfl, fun j _ => rfl, fun j hj => absurd hj (Nat.not_lt_zero j), fun j _ => rfl⟩
  | cons x xs ih =>
    rw [length_cons] at h
    obtain ⟨a', hfill, hlen, hbef, hat, haft⟩ :=
      ih (a.set i (H.leaf x)) (i + 1) (by rw [length_set]; omega)
    refine ⟨a', ?_, by rw [hlen, length_set], fun j hj => ?_, fun j hj => ?_, fun j hj => ?_⟩
    · rw [fill, set_eq_some _ (by omega), bind_eq_bind, bind_some, hfill]
    · rw [hbef j (Nat.lt_succ_of_lt hj), getElem?_set_ne (Nat.ne_of_gt hj)]
    · rcases j with _ | j
      · rw [Nat.add_zero, hbef i (Nat.lt_succ_self i), getElem?_set_self (by omega)]; rfl
      · have hj' : j < xs.length := Nat.lt_of_succ_lt_succ hj
        rw [← add_assoc, add_right_comm, hat j hj']
        rfl
    · rw [length_cons] at hj
      rw [haft j (by omega), getElem?_set_ne (by omega)]

theorem level_spec (hlast : xs.getLast? = some last) :
    ∃ a, level H xs = some a ∧ Level a xs.length fun i => H.leaf (xs.getD i last) := by
  obtain ⟨a, hfill, -, -, hat, haft⟩ :=
    fill_spec (H := H) (replicate (xs.length + 1) (H.leaf last)) 0 xs (by rw [length_replicate]; omega)
  refine ⟨a, ?_, fun i hi => ?_, fun i hi => ?_⟩
  · rw [level, hlast, bind_eq_bind, bind_some, hfill]
  · rcases lt_or_eq_of_le hi with hi | rfl
    · have := hat i hi
      rw [zero_add] at this
      rw [this, getD_eq_getElem xs last hi]
    · rw [haft xs.length (by omega), getD_eq_default _ _ le_rfl,
        getElem?_replicate_of_lt (Nat.lt_succ_self _)]
  · rw [getD_eq_default _ _ hi, getD_eq_default _ _ le_rfl]

theorem clog_succ_of_odd {m : Nat} (h : 2 ≤ m) (hodd : m % 2 ≠ 0) : Nat.clog 2 (m + 1) = Nat.clog 2 m := by
  rw [Nat.clog_of_two_le (Nat.le_refl 2) h, Nat.clog_of_two_le (Nat.le_refl 2) (Nat.le_succ_of_le h)]
  have hhalf : (m + 1 + 2 - 1) / 2 = (m + 2 - 1) / 2 := by omega
  rw [hhalf]

theorem clog_of_two_le {n : Nat} (h : 2 ≤ n) : Nat.clog 2 n = Nat.clog 2 ((n + 1) / 2) + 1 :=
  Nat.clog_of_two_le (Nat.le_refl 2) h

theorem clog_two : Nat.clog 2 2 = 1 := by rw [clog_of_two_le (Nat.le_refl 2), Nat.clog_one_right]

theorem step_spec (fuel : Nat) (hn : 2 ≤ n) (hfuel : n ≤ fuel) (h : Level a n f) :
    step H fuel a n = some ((tabulate f (Nat.clog 2 n)).root id H.node) := by
  induction fuel generalizing a n f with
  | zero => omega
  | succ fuel ih =>
    obtain ⟨a', hred, hlen, h'⟩ := reduce_spec (H := H) h (by omega)
    have hlt := h.lt_length
    rw [step, hred, bind_eq_bind, bind_some]
    by_cases hone : (n + 1) / 2 = 1
    · obtain rfl : n = 2 := by omega
      rw [get, h'.slots 0 (Nat.zero_le _), clog_two]
      rfl
    · rw [if_neg hone, clog_of_two_le hn, root_tabulate_succ]
      by_cases heven : (n + 1) / 2 % 2 = 0
      · rw [if_pos heven, ih (by omega) (by omega) h']
      · obtain ⟨a'', hextend, -, h''⟩ := extend_spec h' (by omega)
        rw [if_neg heven, hextend, bind_some, ih (by omega) (by omega) h'',
          clog_succ_of_odd (by omega) heven]

theorem compute_eq_root (hlast : xs.getLast? = some last) : compute H xs =
      some ((tabulate (fun i => xs.getD i last) (Nat.clog 2 xs.length)).root H.leaf H.node) := by
  rcases xs with _ | ⟨x, _ | ⟨y, xs⟩⟩
  · cases hlast
  · rfl
  · obtain ⟨a, hlvl, h⟩ := level_spec (H := H) hlast
    rw [compute, hlvl, bind_eq_bind, bind_some,
      step_spec _ (by rw [length_cons, length_cons]; omega) le_rfl h, root_tabulate H.leaf]

def Path.depth : Path τ → Nat
  | .op => 0
  | .left p _ | .right _ p => p.depth + 1

/-- A path that leads from a leaf to the index `j` of a level, extended to the level above. -/
theorem extendPath_spec (h : Level a n f) (hj : j < n) (hchk : checkSizedPath H p x = (f j, s, pos)) :
    ∃ p' pos', extendPath a p j = some p' ∧ p'.depth = p.depth + 1 ∧
      checkSizedPath H p' x = (pairs H.node f (j / 2), s * 2, pos') ∧ pos' + s * 2 * (j / 2) = pos + s * j := by
  rw [extendPath]
  by_cases heven : j % 2 = 0
  · have hj' : 2 * (j / 2) = j := by omega
    refine ⟨.left p (f (j + 1)), pos, ?_, rfl, ?_, by rw [mul_assoc, hj']⟩
    · rw [if_pos heven, get, h.slots (j + 1) hj]
      rfl
    · rw [checkSizedPath, hchk, pairs, hj']
  · have hj' : 2 * (j / 2) + 1 = j := by omega
    refine ⟨.right (f (j - 1)) p, pos + s, ?_, rfl, ?_, ?_⟩
    · rw [if_neg heven, get, h.slots (j - 1) (by omega)]
      rfl
    · have hleft : j - 1 = 2 * (j / 2) := by omega
      rw [checkSizedPath, hchk, pairs, hj', hleft]
    · calc pos + s + s * 2 * (j / 2) = pos + s * (2 * (j / 2) + 1) := by ring
        _ = pos + s * j := by rw [hj']

theorem stepPath_spec (fuel : Nat) (hn : 2 ≤ n) (hfuel : n ≤ fuel) (h : Level a n f) (hj : j < n)
    (hchk : checkSizedPath H p x = (f j, s, pos)) :
    ∃ p', stepPath H fuel a n p j = some p' ∧ p'.depth = p.depth + Nat.clog 2 n ∧
      checkPath H p' x = ((tabulate f (Nat.clog 2 n)).root id H.node, pos + s * j) := by
  induction fuel generalizing a n f p j s pos with
  | zero => omega
  | succ fuel ih =>
    obtain ⟨a', hred, hlen, h'⟩ := reduce_spec (H := H) h (by omega)
    obtain ⟨p', pos', hextend, hdep, hchk', hpos⟩ := extendPath_spec h hj hchk
    have hlt := h.lt_length
    simp only [stepPath, hextend, hred, bind_eq_bind, bind_some, ← hpos]
    by_cases hone : (n + 1) / 2 = 1
    · obtain rfl : n = 2 := by omega
      have hj0 : j / 2 = 0 := by omega
      rw [hj0] at hchk' ⊢
      rw [clog_two]
      refine ⟨p', by rfl, hdep, ?_⟩
      rw [checkPath, hchk']
      rfl
    · rw [if_neg hone, clog_of_two_le hn, root_tabulate_succ, ← add_assoc, add_right_comm, ← hdep]
      by_cases heven : (n + 1) / 2 % 2 = 0
      · rw [if_pos heven]
        exact ih (by omega) (by omega) h' (by omega) hchk'
      · obtain ⟨a'', hext, -, h''⟩ := extend_spec h' (by omega)
        rw [if_neg heven, hext, ← clog_succ_of_odd (by omega) heven]
        exact ih (by omega) (by omega) h'' (by omega) hchk'

theorem computePath_spec (hlast : xs.getLast? = some last) (hi : i < xs.length) : ∃ p, computePath H xs i = some p ∧
      p.depth = Nat.clog 2 xs.length ∧ checkPath H p xs[i] =
        ((tabulate (fun i => xs.getD i last) (Nat.clog 2 xs.length)).root H.leaf H.node, i) := by
  rcases xs with _ | ⟨x, _ | ⟨y, xs⟩⟩
  · cases hlast
  · obtain rfl : i = 0 := Nat.lt_one_iff.mp hi
    refine ⟨.op, rfl, (Nat.clog_one_right 2).symm, ?_⟩
    rfl
  · obtain ⟨a, hlvl, h⟩ := level_spec (H := H) hlast
    have hleaf : checkSizedPath H .op (x :: y :: xs)[i] = (H.leaf ((x :: y :: xs).getD i last), 1, 0) := by
      rw [getD_eq_getElem _ _ hi, checkSizedPath]
    obtain ⟨p, hp, hdep, hchk⟩ := stepPath_spec (x :: y :: xs).length
      (by rw [length_cons, length_cons]; omega) le_rfl h hi hleaf
    have hrng : ¬((i : Int) < 0 ∨ ((x :: y :: xs).length : Int) ≤ i) := by omega
    refine ⟨p, ?_, hdep.trans (zero_add _), by rw [hchk, root_tabulate H.leaf, zero_add, one_mul]⟩
    rw [computePath, if_neg hrng, hlvl, bind_eq_bind, bind_some, Int.toNat_natCast, hp]

theorem exists_tree (H : Hash elt τ) (hne : xs ≠ []) :
    ∃ t : PerfectTree elt (Nat.clog 2 xs.length), t.leaves = padded xs ∧
      compute H xs = some (t.root H.leaf H.node) := by
  have hlast := getLast?_eq_some_getLast hne
  refine ⟨tabulate (fun i => xs.getD i (xs.getLast hne)) (Nat.clog 2 xs.length), ?_, compute_eq_root hlast⟩
  rw [leaves_tabulate, map_getD_range hlast]

/-- The trees over a type, as the hashes of its elements. -/
inductive Free (α : Type) where
  | empty
  | leaf (x : α)
  | node (l r : Free α)
  deriving DecidableEq

def freeHash (α : Type) : Hash α (Free α) := ⟨.empty, .leaf, .node⟩

/-- The root of a list is the root of the perfect tree over the padded list, and the path to each of its elements
    leads from that element to this root and to its index. -/
theorem compute_and_paths (H : Hash elt τ) (xs : List elt) (hne : xs ≠ []) :
    ∃ t : PerfectTree elt (Nat.clog 2 xs.length), t.leaves = padded xs ∧
      compute H xs = some (t.root H.leaf H.node) ∧
      ∀ i (hi : i < xs.length), ∃ p, computePath H xs i = some p ∧
        checkPath H p xs[i] = (t.root H.leaf H.node, i) := by
  have hlast := getLast?_eq_some_getLast hne
  refine ⟨tabulate (fun i => xs.getD i (xs.getLast hne)) (Nat.clog 2 xs.length), ?_, compute_eq_root hlast,
    fun i hi => ?_⟩
  · rw [leaves_tabulate, map_getD_range hlast]
  · obtain ⟨p, hp, -, hchk⟩ := computePath_spec (H := H) hlast hi
    exact ⟨p, hp, hchk⟩

theorem compute_and_paths_five : ∃ t : PerfectTree Nat (Nat.clog 2 5), t.leaves = padded [1, 2, 3, 4, 5] ∧
      compute (freeHash Nat) [1, 2, 3, 4, 5] = some (t.root .leaf .node) ∧
      ∀ i : Nat, ∀ hi : i < 5, ∃ p, computePath (freeHash Nat) [1, 2, 3, 4, 5] i = some p ∧
        checkPath (freeHash Nat) p [1, 2, 3, 4, 5][i] = (t.root .leaf .node, i) :=
  compute_and_paths (freeHash Nat) [1, 2, 3, 4, 5] (cons_ne_nil 1 _)

/-- No two leaves and no two nodes have the same hash, and no leaf that of a node. -/
structure Hash.CollisionFree (H : Hash elt τ) : Prop where
  leaf : Function.Injective H.leaf
  node : Function.Injective2 H.node
  disjoint : ∀ x l r, H.leaf x ≠ H.node l r

/-- The hash of the empty list is neither that of a leaf nor that of a node. -/
structure Hash.EmptyFree (H : Hash elt τ) : Prop where
  leaf : ∀ x, H.leaf x ≠ H.empty
  node : ∀ l r, H.node l r ≠ H.empty

theorem collisionFree_freeHash (α : Type) : (freeHash α).CollisionFree where
  leaf _ _ h := Free.leaf.inj h
  node _ _ _ _ h := Free.node.inj h
  disjoint _ _ _ h := by cases h

theorem emptyFree_freeHash (α : Type) : (freeHash α).EmptyFree where
  leaf _ h := by cases h
  node _ _ h := by cases h

theorem exists_root (H : Hash elt τ) (xs : List elt) : ∃ root, compute H xs = some root := by
  rcases eq_or_ne xs [] with rfl | hne
  · exact ⟨H.empty, rfl⟩
  · obtain ⟨t, -, ht⟩ := exists_tree H hne
    exact ⟨_, ht⟩

theorem compute_ne_empty (hempty : H.EmptyFree) {xs : List elt} (hne : xs ≠ []) : compute H xs ≠ compute H [] := by
  obtain ⟨t, -, ht⟩ := exists_tree H hne
  rw [ht]
  exact fun h => root_ne hempty.leaf hempty.node t (some.inj h)

theorem compute_eq_iff (hfree : H.CollisionFree) (hempty : H.EmptyFree) (xs ys : List elt) :
    compute H xs = compute H ys ↔ padded xs = padded ys := by
  rcases eq_or_ne xs [] with rfl | hxs
  · rcases eq_or_ne ys [] with rfl | hys
    · exact ⟨fun _ => rfl, fun _ => rfl⟩
    · refine ⟨fun h => absurd h.symm (compute_ne_empty hempty hys), fun h => ?_⟩
      exact absurd (padded_eq_nil h.symm) hys
  · rcases eq_or_ne ys [] with rfl | hys
    · exact ⟨fun h => absurd h (compute_ne_empty hempty hxs), fun h => absurd (padded_eq_nil h) hxs⟩
    · obtain ⟨t, hleav, ht⟩ := exists_tree H hxs
      obtain ⟨t', hleav', ht'⟩ := exists_tree H hys
      rw [ht, ht', ← hleav, ← hleav']
      constructor
      · intro h
        exact (root_injective hfree.leaf hfree.node hfree.disjoint t t' (some.inj h)).2
      · intro h
        have hdep : Nat.clog 2 xs.length = Nat.clog 2 ys.length := by
          have hlen := congrArg length h
          rw [length_leaves, length_leaves] at hlen
          exact Nat.pow_right_injective (Nat.le_refl 2) hlen
        exact congrArg some (root_congr hdep h)

/-- The root commits to the list, unless one list is the other one with more of its padding. -/
theorem compute_injective_iff (H : Hash elt τ) (hfree : H.CollisionFree) (hempty : H.EmptyFree) (xs ys : List elt) :
    (compute H xs = compute H ys → xs = ys) ↔ ¬Stretches xs ys ∧ ¬Stretches ys xs := by
  rw [compute_eq_iff hfree hempty, padded_eq_iff]
  constructor
  · intro h
    exact ⟨fun hs => hs.ne (h (.inr (.inl hs))), fun hs => hs.ne (h (.inr (.inr hs))).symm⟩
  · rintro ⟨hxs, hys⟩ (heq | hs | hs)
    · exact heq
    · exact absurd hs hxs
    · exact absurd hs hys

theorem compute_injective_four :
    (compute (freeHash Nat) [1, 2, 3, 4] = compute (freeHash Nat) [1, 2, 4, 3] → [1, 2, 3, 4] = [1, 2, 4, 3]) ↔
      ¬Stretches [1, 2, 3, 4] [1, 2, 4, 3] ∧ ¬Stretches [1, 2, 4, 3] [1, 2, 3, 4] :=
  compute_injective_iff (freeHash Nat) (collisionFree_freeHash Nat) (emptyFree_freeHash Nat) [1, 2, 3, 4] [1, 2, 4, 3]

/-- A list of three elements has the root of the list that ends with its last element twice. -/
theorem compute_stretched :
    (freeHash Nat).CollisionFree ∧ (freeHash Nat).EmptyFree ∧
    compute (freeHash Nat) [1, 2, 3] = compute (freeHash Nat) [1, 2, 3, 3] ∧
      [1, 2, 3] ≠ [1, 2, 3, 3] :=
  ⟨collisionFree_freeHash Nat, emptyFree_freeHash Nat, by decide, by decide⟩

/-- A path to the root of a tree has the depth of the tree, and starts from the leaf at its position. -/
theorem checkSizedPath_sound (hfree : H.CollisionFree) (p : Path τ) (h : elt) {d s pos : Nat}
    (t : PerfectTree elt d) (hcheck : checkSizedPath H p h = (t.root H.leaf H.node, s, pos)) :
    s = 2 ^ d ∧ pos < 2 ^ d ∧ t.leaves[pos]? = some h := by
  induction p generalizing d s pos with
  | op =>
    obtain ⟨hroot, rfl, rfl⟩ := by simpa only [checkSizedPath, Prod.mk.injEq] using hcheck
    cases t with
    | leaf a =>
      obtain rfl : h = a := hfree.leaf hroot
      exact ⟨rfl, zero_lt_one, rfl⟩
    | node l r => exact absurd hroot (hfree.disjoint h _ _)
  | left p r ih =>
    rcases hp : checkSizedPath H p h with ⟨l, s', pos'⟩
    obtain ⟨hroot, rfl, rfl⟩ := by simpa only [checkSizedPath, hp, Prod.mk.injEq] using hcheck
    cases t with
    | leaf a => exact absurd hroot.symm (hfree.disjoint a _ _)
    | node tl tr =>
      obtain ⟨rfl, -⟩ := hfree.node hroot
      obtain ⟨rfl, hpos, hleaf⟩ := ih tl hp
      refine ⟨(pow_succ 2 _).symm, ?_, ?_⟩
      · exact Nat.lt_of_lt_of_le hpos (Nat.pow_le_pow_right Nat.two_pos (Nat.le_succ _))
      · rw [leaves_node, getElem?_append_left (by rw [length_leaves]; exact hpos), hleaf]
  | right l p ih =>
    rcases hp : checkSizedPath H p h with ⟨r, s', pos'⟩
    obtain ⟨hroot, rfl, rfl⟩ := by simpa only [checkSizedPath, hp, Prod.mk.injEq] using hcheck
    cases t with
    | leaf a => exact absurd hroot.symm (hfree.disjoint a _ _)
    | node tl tr =>
      obtain ⟨-, rfl⟩ := hfree.node hroot
      obtain ⟨rfl, hpos, hleaf⟩ := ih tr hp
      refine ⟨(pow_succ 2 _).symm, ?_, ?_⟩
      · rw [pow_succ, mul_two]
        exact Nat.add_lt_add_right hpos _
      · rw [leaves_node, ← length_leaves tl, getElem?_append_right (Nat.le_add_left _ _), Nat.add_sub_cancel,
          hleaf]

/-- What a path to the root of a list proves: the element it starts from is in the padded list, at its position. -/
theorem checkPath_sound (H : Hash elt τ) (hfree : H.CollisionFree) (xs : List elt) (hne : xs ≠ []) (p : Path τ)
    (h : elt) (pos : Nat) (root : τ) (hroot : compute H xs = some root) (hcheck : checkPath H p h = (root, pos)) :
    pos < 2 ^ Nat.clog 2 xs.length ∧ (padded xs)[pos]? = some h := by
  obtain ⟨t, hleav, ht⟩ := exists_tree H hne
  obtain rfl : root = t.root H.leaf H.node := some.inj (hroot.symm.trans ht)
  rcases hp : checkSizedPath H p h with ⟨root, s, pos'⟩
  obtain ⟨rfl, rfl⟩ := by simpa only [checkPath, hp, Prod.mk.injEq] using hcheck
  obtain ⟨-, hpos, hleaf⟩ := checkSizedPath_sound hfree p h t hp
  exact ⟨hpos, hleav ▸ hleaf⟩

/-- The path to the padding of a list of three elements. -/
theorem checkPath_sound_padding : 3 < 2 ^ Nat.clog 2 [1, 2, 3].length ∧ (padded [1, 2, 3])[3]? = some 3 :=
  checkPath_sound (freeHash Nat) (collisionFree_freeHash Nat) [1, 2, 3] (cons_ne_nil 1 _)
    (.right (.node (.leaf 1) (.leaf 2)) (.right (.leaf 3) .op)) 3 3
    (.node (.node (.leaf 1) (.leaf 2)) (.node (.leaf 3) (.leaf 3))) (by decide) (by decide)

end Tezos.MerkleTree
