import Tezos.Theorems.Shell.State.Tree

/-! The walks over a tree of blocks end, and give the common ancestor, the path and the live blocks. -/

namespace Tezos.ChainTraversal
open Lib State List
variable {B O L C ε : Type} [DecidableEq B] {s : ChainState B O L C ε} {g a b b1 b2 : Block B L C}
  {l : List (Block B L C)}

variable (htree : Tree s g) {x : Block B L C} {n : Int}
include htree

theorem not_ancestor_of_timestamp_le (hb1 : Stored s b1) (hne : b1.hash ≠ b2.hash)
    (hle : b1.header.shell.timestamp ≤ b2.header.shell.timestamp) : ¬Precedes s b2 b1 := by
  intro h
  have hlt := htree.timestamp_lt hb1 h fun heq => hne (congrArg Block.hash heq).symm
  exact absurd hlt (not_lt.mpr hle)

theorem depth_of_predecessor {d : Nat} {p : Block B L C} (hp : predecessor s b = some p)
    (hd : up (predecessor s) d b = some g) : ∃ d', d = d' + 1 ∧ up (predecessor s) d' p = some g := by
  cases d with
  | zero =>
    rw [Option.some.inj hd, htree.root] at hp
    cases hp
  | succ d => exact ⟨d, rfl, (up_succ hp).symm.trans hd⟩

section
variable (hb1 : Stored s b1) (hb2 : Stored s b2)
include hb1 hb2

theorem exists_predecessor_of_not_ancestor (h : ¬Precedes s b2 b1) : ∃ p, predecessor s b2 = some p := by
  refine htree.exists_predecessor hb2 ?_
  rintro rfl
  exact h (htree.rooted b1 hb1)

theorem commonAncestorLoop_spec {fuel d1 d2 : Nat}
    (hd1 : up (predecessor s) d1 b1 = some g) (hd2 : up (predecessor s) d2 b2 = some g) (hfuel : d1 + d2 < fuel) :
    ∃ a, commonAncestorLoop s fuel b1 b2 = .ok a ∧ GreatestCommonAncestor (predecessor s) a b1 b2 := by
  -- by induction on the fuel: the sum of the two depths decreases
  induction fuel generalizing b1 b2 d1 d2 with
  | zero => exact absurd hfuel (Nat.not_lt_zero _)
  | succ fuel ih =>
    rw [commonAncestorLoop]
    split
    · rename_i hash
      obtain rfl := hb1.eq hb2 hash
      exact ⟨b1, rfl, greatestCommonAncestor_self b1⟩
    rename_i hash
    split
    · rename_i hle
      have hnot := not_ancestor_of_timestamp_le htree hb1 hash hle
      obtain ⟨p, hp⟩ := exists_predecessor_of_not_ancestor htree hb1 hb2 hnot
      obtain ⟨d, rfl, hd⟩ := depth_of_predecessor htree hp hd2
      obtain ⟨a, ha, hgst⟩ := ih hb1 (stored_of_predecessor hp) hd1 hd (Nat.lt_of_succ_lt_succ hfuel)
      rw [hp]
      exact ⟨a, ha, hgst.of_parent hp hnot⟩
    · rename_i hlt
      have hnot := not_ancestor_of_timestamp_le htree hb2 (Ne.symm hash) (le_of_lt (not_le.mp hlt))
      obtain ⟨p, hp⟩ := exists_predecessor_of_not_ancestor htree hb2 hb1 hnot
      obtain ⟨d, rfl, hd⟩ := depth_of_predecessor htree hp hd1
      rw [Nat.add_right_comm] at hfuel
      obtain ⟨a, ha, hgst⟩ := ih (stored_of_predecessor hp) hb2 hd hd2 (Nat.lt_of_succ_lt_succ hfuel)
      rw [hp]
      exact ⟨a, ha, (hgst.symm.of_parent hp hnot).symm⟩

theorem commonAncestor_spec : ∃ a, commonAncestor s b1 b2 = .ok a ∧ GreatestCommonAncestor (predecessor s) a b1 b2 := by
  obtain ⟨d1, hd1⟩ := htree.rooted b1 hb1
  obtain ⟨d2, hd2⟩ := htree.rooted b2 hb2
  refine commonAncestorLoop_spec htree hb1 hb2 hd1 hd2 ?_
  have h1 := htree.up_lt_blockCount hb1 hd1
  have h2 := htree.up_lt_blockCount hb2 hd2
  omega

end

/-- The walk down to `a` with enough fuel: at each block before it, the predecessor is next. -/
theorem walk_induction {P : Nat → Block B L C → List (Block B L C) → Prop} {fuel : Nat} (hb : Stored s b)
    (hl : IsPath (predecessor s) a b l) (hfuel : l.length < fuel) (stop : ∀ fuel, P (fuel + 1) a [])
    (step : ∀ {fuel b p l}, Stored s b → b.hash ≠ a.hash → predecessor s b = some p → P fuel p l →
      P (fuel + 1) b (l ++ [b])) : P fuel b l := by
  induction l using reverseRecOn generalizing b fuel with
  | nil =>
    obtain rfl : a = b := hl
    obtain ⟨fuel, rfl⟩ := Nat.exists_eq_add_of_lt hfuel
    exact stop _
  | append_singleton l c ih =>
    rw [length_append] at hfuel
    obtain ⟨fuel, rfl⟩ := Nat.exists_eq_add_of_lt hfuel
    have hnot := hl.not_ancestor htree.root (htree.rooted b hb) mem_concat_self
    obtain ⟨rfl, p, hp, hl⟩ := hl.of_concat
    have ha : Stored s a := stored_of_ancestor hb (hl.ancestor.trans (ancestor_parent hp))
    refine step hb (fun hash => ?_) hp (ih (stored_of_predecessor hp) hl (Nat.lt_of_succ_lt_succ hfuel))
    rw [hb.eq ha hash] at hnot
    exact hnot (.refl _)

theorem pathLoop_spec {fuel : Nat} (acc : List (Block B L C)) (hb : Stored s b) (hl : IsPath (predecessor s) a b l)
    (hfuel : l.length < fuel) : pathLoop s a fuel acc b = .ok (some (l ++ acc)) := by
  revert acc
  apply walk_induction htree hb hl hfuel
  · exact fun _ _ => if_pos rfl
  · intro fuel b p l _ hne hp ih acc
    rw [pathLoop, if_neg hne.symm, hp, append_assoc]
    exact ih _

theorem path_spec (hb : Stored s b) (hl : IsPath (predecessor s) a b l) : path s a b = .ok (some l) := by
  have hfuel := Nat.lt_succ_of_lt (htree.length_lt_blockCount hb hl)
  rw [path, pathLoop_spec htree [] hb hl hfuel, append_nil]

theorem newBlocks_spec (hb1 : Stored s b1) (hb2 : Stored s b2) :
    ∃ a l, newBlocks s b1 b2 = .ok (a, l) ∧ GreatestCommonAncestor (predecessor s) a b1 b2 ∧
      IsPath (predecessor s) a b2 l := by
  obtain ⟨a, ha, hgst⟩ := commonAncestor_spec htree hb1 hb2
  obtain ⟨l, hl⟩ := exists_isPath hgst.right
  refine ⟨a, l, ?_, hgst, hl⟩
  simp only [newBlocks, ha, bind, Except.bind, path_spec htree hb2 hl]

/-! ### Live blocks -/

def operationsOf (s : ChainState B O L C ε) (b : Block B L C) (op : O) : Prop :=
  ∃ i ops, i < b.header.shell.validationPasses ∧ s.operationHashes b.hash i = some ops ∧ op ∈ ops

/-- A block among the `n` first predecessors of another one, or this one itself; all of them when `n` is negative. -/
def InWindow (s : ChainState B O L C ε) (b : Block B L C) (n : Int) (x : Block B L C) : Prop :=
  ∃ i : Nat, up (predecessor s) i b = some x ∧ (n < 0 ∨ (i : Int) ≤ n)

omit htree in
omit [DecidableEq B] in
theorem mapM_unoptAssert {α β : Type} {l : List α} {f : α → Option β} {v : α → β}
    (h : ∀ a ∈ l, f a = some (v a)) :
    (l.mapM fun a => unoptAssert (f a) : Result B C ε (List β)) = .ok (l.map v) := by
  induction l with
  | nil => rfl
  | cons a l ih =>
    rw [mapM_cons, h a mem_cons_self, ih fun a ha => h a (mem_cons_of_mem _ ha)]
    rfl

theorem allOperationHashes_spec (hb : Stored s b) :
    ∃ hashes, allOperationHashes s b = .ok hashes ∧ ∀ op, (∃ ops ∈ hashes, op ∈ ops) ↔
      operationsOf s b op := by
  have hlis : ∀ i ∈ range b.header.shell.validationPasses,
      s.operationHashes b.hash i = some ((s.operationHashes b.hash i).getD []) := by
    intro i hi
    obtain ⟨ops, hops⟩ := htree.operations b hb i (mem_range.mp hi)
    rw [hops]
    rfl
  refine ⟨_, mapM_unoptAssert hlis, fun op => ?_⟩
  constructor
  · rintro ⟨ops, hmem, hop⟩
    obtain ⟨i, hi, rfl⟩ := mem_map.mp hmem
    exact ⟨i, _, mem_range.mp hi, hlis i hi, hop⟩
  · rintro ⟨i, ops, hi, hops, hop⟩
    refine ⟨ops, mem_map.mpr ⟨i, mem_range.mpr hi, ?_⟩, hop⟩
    rw [hops]
    rfl

omit htree

theorem inWindow_self : InWindow s b n b := by
  refine ⟨0, rfl, ?_⟩
  rcases lt_or_ge n 0 with h | h
  · exact .inl h
  · exact .inr h

theorem inWindow_zero : InWindow s b 0 x ↔ x = b := by
  constructor
  · rintro ⟨i, hi, hle⟩
    obtain rfl : i = 0 := by omega
    exact (Option.some.inj hi).symm
  · rintro rfl
    exact inWindow_self

theorem inWindow_root (hroot : predecessor s b = none) : InWindow s b n x ↔ x = b := by
  constructor
  · rintro ⟨i, hi, -⟩
    exact (up_of_root hroot hi).2
  · rintro rfl
    exact inWindow_self

theorem inWindow_step {x p : Block B L C} (hp : predecessor s b = some p) (hn : n ≠ 0) :
    InWindow s b n x ↔ x = b ∨ InWindow s p (n - 1) x := by
  constructor
  · rintro ⟨i, hi, hle⟩
    rcases i with _ | i
    · exact .inl (Option.some.inj hi).symm
    · rw [up_succ hp] at hi
      exact .inr ⟨i, hi, by omega⟩
  · rintro (rfl | ⟨i, hi, hle⟩)
    · exact inWindow_self
    · exact ⟨i + 1, (up_succ hp).trans hi, by omega⟩

section
variable [DecidableEq O] {oacc : Finset O} {op : O}

theorem mem_foldl_insert {ops : List O} :
    op ∈ ops.foldl (fun oacc op => insert op oacc) oacc ↔ op ∈ oacc ∨ op ∈ ops := by
  induction ops generalizing oacc with
  | nil => simp
  | cons x ops ih =>
    rw [foldl_cons, ih, Finset.mem_insert, mem_cons]
    tauto

theorem mem_addOperations {hashes : List (List O)} :
    op ∈ addOperations oacc hashes ↔ op ∈ oacc ∨ ∃ ops ∈ hashes, op ∈ ops := by
  induction hashes generalizing oacc with
  | nil => simp [addOperations]
  | cons ops hashes ih =>
    have hcons : addOperations oacc (ops :: hashes) =
      addOperations (ops.foldl (fun oacc op => insert op oacc) oacc) hashes := rfl
    rw [hcons, ih, mem_foldl_insert, exists_mem_cons_iff]
    tauto

theorem liveBlocksLoop_spec (htree : Tree s g) {fuel d : Nat} (bacc : Finset B) (oacc : Finset O) (n : Int)
    (hb : Stored s b) (hd : up (predecessor s) d b = some g) (hfuel : d < fuel) :
    ∃ blocks ops, liveBlocksLoop s fuel bacc oacc b n = .ok (blocks, ops) ∧
      (∀ hash, hash ∈ blocks ↔ hash ∈ bacc ∨ ∃ x, InWindow s b n x ∧ x.hash = hash) ∧
      (∀ op, op ∈ ops ↔ op ∈ oacc ∨ ∃ x, InWindow s b n x ∧ operationsOf s x op) := by
  -- by induction on the fuel, the sets so far growing by the block
  induction fuel generalizing b d bacc oacc n with
  | zero => exact absurd hfuel (Nat.not_lt_zero d)
  | succ fuel ih =>
    obtain ⟨hashes, hhash, hops⟩ := allOperationHashes_spec htree hb
    simp only [liveBlocksLoop, hhash, bind, Except.bind]
    -- the walk ends at this block
    have hlast (hwin : ∀ x, InWindow s b n x ↔ x = b) :
        (∀ hash, hash ∈ insert b.hash bacc ↔ hash ∈ bacc ∨ ∃ x, InWindow s b n x ∧ x.hash = hash) ∧
        (∀ op, op ∈ addOperations oacc hashes ↔ op ∈ oacc ∨ ∃ x, InWindow s b n x ∧ operationsOf s x op) := by
      constructor
      · intro hash
        simp only [Finset.mem_insert, hwin, exists_eq_left]
        rw [or_comm, eq_comm]
      · intro op
        simp only [mem_addOperations, hwin, exists_eq_left, hops]
    split
    · rename_i hn
      subst hn
      exact ⟨_, _, rfl, hlast fun x => inWindow_zero⟩
    rename_i hn
    rcases hp : predecessor s b with _ | p
    · have hroot : b = g := by
        by_contra hne
        obtain ⟨p, hp'⟩ := htree.exists_predecessor hb hne
        rw [hp] at hp'
        cases hp'
      simp only [hroot, htree.genesis, if_true]
      rw [← htree.genesis, ← hroot]
      exact ⟨_, _, rfl, hlast fun x => inWindow_root hp⟩
    · obtain ⟨d, rfl, hup⟩ := depth_of_predecessor htree hp hd
      obtain ⟨blocks, ops, heq, hbloc, hall⟩ :=
        ih (insert b.hash bacc) (addOperations oacc hashes) (n - 1) (stored_of_predecessor hp) hup
          (Nat.lt_of_succ_lt_succ hfuel)
      refine ⟨blocks, ops, heq, fun hash => ?_, fun op => ?_⟩
      · simp only [hbloc, Finset.mem_insert, inWindow_step hp hn, or_and_right, exists_or, exists_eq_left]
        rw [or_assoc, or_left_comm, eq_comm]
      · simp only [hall, mem_addOperations, inWindow_step hp hn, or_and_right, exists_or, exists_eq_left, hops]
        rw [or_assoc]

theorem liveBlocks_spec (htree : Tree s g) (hb : Stored s b) (n : Int) :
    ∃ blocks ops, liveBlocks s b n = .ok (blocks, ops) ∧
      (∀ hash, hash ∈ blocks ↔ ∃ x, InWindow s b n x ∧ x.hash = hash) ∧
      (∀ op, op ∈ ops ↔ ∃ x, InWindow s b n x ∧ operationsOf s x op) := by
  obtain ⟨d, hd⟩ := htree.rooted b hb
  obtain ⟨blocks, ops, heq, hbloc, hops⟩ :=
    liveBlocksLoop_spec htree ∅ ∅ n hb hd (Nat.lt_succ_of_lt (htree.up_lt_blockCount hb hd))
  refine ⟨blocks, ops, heq, fun hash => ?_, fun op => ?_⟩
  · rw [hbloc, or_iff_right (Finset.notMem_empty hash)]
  · rw [hops, or_iff_right (Finset.notMem_empty op)]

end

end Tezos.ChainTraversal
