import Tezos.Shell.Prevalidator
import Tezos.Theorems.Shell.BlockValidator.Replay

/-! A reorganisation loses no live operation of the mempool and of the blocks that leave the chain. -/

namespace Tezos.ListPendings
open Lib State ChainTraversal BlockValidator List Function SortedMap
variable {B O L C ε : Type} [DecidableEq O] {H : Hashes B O L C} {s : ChainState B O L C ε}
  {g a b b1 b2 : Block B L C} {l : List (Block B L C)} {m : Mempool B O}

/-- The operations are under their hashes. -/
def Keyed (H : Hashes B O L C) (m : Mempool B O) : Prop := ∀ h op, m h = some op → H.operation op = h

section
variable (hfree : Injective H.operation)
include hfree

section
variable (hm : Keyed H m)
include hm

theorem foldl_update_some (ops : List (Operation B)) (h : O) (op : Operation B) :
    ops.foldl (fun m op => update m (H.operation op) (some op)) m h = some op ↔
      m h = some op ∨ op ∈ ops ∧ H.operation op = h := by
  induction ops generalizing m with
  | nil => simp
  | cons x ops ih =>
    have hx : ∀ h op, update m (H.operation x) (some x) h = some op ↔
        m h = some op ∨ x = op ∧ H.operation op = h := by
      intro h op
      rcases eq_or_ne h (H.operation x) with rfl | hne
      · simp only [update_self, Option.some_inj]
        refine ⟨fun heq => .inr ⟨heq, heq ▸ rfl⟩, ?_⟩
        rintro (hop | ⟨rfl, -⟩)
        · exact (hfree (hm _ _ hop)).symm
        · rfl
      · rw [update_of_ne hne]
        refine ⟨.inl, ?_⟩
        rintro (hop | ⟨rfl, rfl⟩)
        · exact hop
        · exact absurd rfl hne
    rw [foldl_cons, ih fun h op hop => ((hx h op).mp hop).elim (hm h op) And.right, hx, mem_cons]
    tauto

theorem foldl_update_none (ops : List (Operation B)) (h : O) (op : Operation B) :
    (ops.map H.operation).foldl (fun m h => update m h none) m h = some op ↔ m h = some op ∧ op ∉ ops := by
  induction ops generalizing m with
  | nil => simp
  | cons x ops ih =>
    have hx : ∀ h op, update m (H.operation x) none h = some op ↔ m h = some op ∧ op ≠ x := by
      intro h op
      rcases eq_or_ne h (H.operation x) with rfl | hne
      · simp only [update_self, reduceCtorEq, false_iff, not_and, not_not]
        exact fun hop => hfree (hm _ _ hop)
      · rw [update_of_ne hne]
        refine ⟨fun hop => ⟨hop, ?_⟩, And.left⟩
        rintro rfl
        exact hne (hm _ _ hop).symm
    rw [map_cons, foldl_cons, ih fun h op hop => hm h op ((hx h op).mp hop).1, hx, mem_cons, not_or, and_assoc]

end

end

/-- The operations of blocks, in their order. -/
def operationsOf (s : ChainState B O L C ε) (l : List (Block B L C)) : List (Operation B) :=
  l.flatMap fun x => (operationsIn s x).flatten

omit [DecidableEq O] in
theorem mem_operationsOf {op : Operation B} : op ∈ operationsOf s l ↔ ∃ x ∈ l, op ∈ (operationsIn s x).flatten :=
  mem_flatMap

section
variable [DecidableEq B] (hrec : Recorded H s)
include hrec

theorem popBlocks_eq (htree : Tree s g) {fuel : Nat} (m : Mempool B O) (hb : Stored s b) (hl : IsPath (predecessor s) a b l)
    (hfuel : l.length < fuel) : popBlocks H.operation s a.hash fuel b m =
      .ok ((operationsOf s l.reverse).foldl (fun m op => update m (H.operation op) (some op)) m) := by
  revert m
  apply walk_induction htree hb hl hfuel
  · exact fun _ _ => if_pos rfl
  · intro fuel b p l hb hne hp ih m
    rw [popBlocks, if_neg hne, allOperations_spec hrec hb, hp]
    refine (ih _).trans ?_
    rw [reverse_concat, operationsOf, operationsOf, flatMap_cons, foldl_append, foldl_flatten]

theorem foldlM_pushBlock (hl : ∀ x ∈ l, Stored s x) : l.foldlM (pushBlock s) m =
      .ok (((operationsOf s l).map H.operation).foldl (fun m h => update m h none) m) := by
  induction l generalizing m with
  | nil => rfl
  | cons x l ih =>
    have hall : allOperationHashes s x = .ok ((operationsIn s x).map (map H.operation)) := by
      rw [operationsIn, map_map]
      refine mapM_unoptAssert fun i hi => ?_
      obtain ⟨ops, hops, hhash⟩ := hrec x (hl x mem_cons_self) i (mem_range.mp hi)
      simp [hops, hhash]
    rw [foldlM_cons, pushBlock, hall]
    refine (ih fun x hx => hl x (mem_cons_of_mem _ hx)).trans ?_
    rw [operationsOf, operationsOf, flatMap_cons, map_append, foldl_append, map_flatten, foldl_flatten]

/-- `list_pendings` goes down to the greatest common ancestor of the two blocks and up again. -/
theorem listPendings_eq (htree : Tree s g) (hb1 : Stored s b1) (hb2 : Stored s b2) :
    ∃ a left entered, GreatestCommonAncestor (predecessor s) a b1 b2 ∧ IsPath (predecessor s) a b1 left ∧
      IsPath (predecessor s) a b2 entered ∧ ∀ (liveBlocks : Finset B) (old : Mempool B O),
        listPendings H.operation s b1 b2 liveBlocks old = .ok fun h =>
          (((operationsOf s entered).map H.operation).foldl (fun m h => update m h none)
            ((operationsOf s left.reverse).foldl (fun m op => update m (H.operation op) (some op)) old) h).filter
              fun op => op.branch ∈ liveBlocks := by
  obtain ⟨a, entered, hnew, hgst, hent⟩ := newBlocks_spec htree hb1 hb2
  obtain ⟨left, hleft⟩ := exists_isPath hgst.left
  refine ⟨a, left, entered, hgst, hleft, hent, fun liveBlocks old => ?_⟩
  have hpop := popBlocks_eq hrec htree old hb1 hleft (Nat.lt_succ_of_lt (htree.length_lt_blockCount hb1 hleft))
  simp only [listPendings, hnew, hpop, bind, Except.bind,
    foldlM_pushBlock hrec fun x hx => stored_of_ancestor hb2 (hent.mem hx).1]

end

/-- Between two blocks of a chain, `list_pendings` gives the operations that are in the mempool or in a block that is left,
    that are in no block that is entered, and whose branch is live. -/
theorem listPendings_exact (hfree : Injective H.operation) [DecidableEq B] (hrec : Recorded H s) (htree : Tree s g)
    (hb1 : Stored s b1) (hb2 : Stored s b2) (liveBlocks : Finset B) (old : Mempool B O) (hold : Keyed H old) :
    ∃ a left entered pendings, GreatestCommonAncestor (predecessor s) a b1 b2 ∧ IsPath (predecessor s) a b1 left ∧
      IsPath (predecessor s) a b2 entered ∧ listPendings H.operation s b1 b2 liveBlocks old = .ok pendings ∧
      ∀ h op, pendings h = some op ↔
        (old h = some op ∨ (∃ x ∈ left, op ∈ (operationsIn s x).flatten) ∧ H.operation op = h) ∧
        (∀ x ∈ entered, op ∉ (operationsIn s x).flatten) ∧ op.branch ∈ liveBlocks := by
  obtain ⟨a, left, entered, hgst, hleft, hent, heq⟩ := listPendings_eq hrec htree hb1 hb2
  refine ⟨a, left, entered, _, hgst, hleft, hent, heq liveBlocks old, fun h op => ?_⟩
  have hput := foldl_update_some hfree hold (operationsOf s left.reverse)
  have hkey : Keyed H ((operationsOf s left.reverse).foldl (fun m op => update m (H.operation op) (some op)) old) :=
    fun h op hop => ((hput h op).mp hop).elim (hold h op) And.right
  rw [Option.filter_eq_some_iff, foldl_update_none hfree hkey, hput, mem_operationsOf, mem_operationsOf,
    decide_eq_true_iff, and_assoc]
  simp only [mem_reverse, not_exists, not_and]

/-- The flush of the prevalidator, which is given the operations that it pops and the hashes that it pushes, has the pending
    operations that `list_pendings` finds on the chain. -/
theorem find?_listPendings_flush {O : Type} [LinearOrder O] [DecidableEq B] {H : Hashes B O L C} {s : ChainState B O L C ε}
    (hrec : Recorded H s) (htree : Tree s g) (hb1 : Stored s b1) (hb2 : Stored s b2) (P : Prevalidation.Protocol B)
    (old : SortedMap O (Operation B)) (hold : old.Sorted) :
    ∃ left entered, ∀ flush : Prevalidator.Flush P O, flush.popped = operationsOf s left →
      flush.pushed = (operationsOf s entered).map H.operation →
        listPendings H.operation s b1 b2 flush.liveBlocks old.find? =
          .ok (Prevalidator.listPendings P H.operation flush old).find? := by
  obtain ⟨a, left, entered, -, -, -, heq⟩ := listPendings_eq hrec htree hb1 hb2
  refine ⟨left.reverse, entered, fun flush hpop hpush => (heq _ _).trans (congrArg Except.ok (funext fun h => ?_))⟩
  have hadd : (operationsOf s left.reverse).foldl (fun m op => update m (H.operation op) (some op)) old.find? =
      ((operationsOf s left.reverse).foldl (fun m op => SortedMap.add (H.operation op) op m) old).find? :=
    foldl_hom SortedMap.find? fun m op => funext fun h => (update_apply ..).trans find?_add.symm
  have hsorted := foldlRecOn (motive := Sorted) (operationsOf s left.reverse)
    (fun m op => SortedMap.add (H.operation op) op m) hold fun m hm op _ => hm.add
  have hremove := foldlRecOn (motive := Sorted) ((operationsOf s entered).map H.operation)
    (fun m h => SortedMap.remove h m) hsorted fun m hm h _ => hm.remove
  rw [hadd, foldl_hom SortedMap.find? fun m h => funext fun h' => (update_apply ..).trans find?_remove.symm,
    Prevalidator.listPendings, hpop, hpush]
  exact (hremove.find?_filter fun op => decide (op.branch ∈ flush.liveBlocks)).symm

/-- Two blocks on top of the genesis block, each with an operation; the first one becomes the head. -/
def plainFork : List (BlockValidator.Action Nat (MerkleTree.Free PlainList) Unit) :=
  [.request 1 (plainHeader 1 0 1 [[⟨0, []⟩]]) [[⟨0, []⟩]],
    .request 2 (plainHeader 1 0 2 [[⟨0, [1]⟩]]) [[⟨0, [1]⟩]], .setHead 1]

/-- A mempool with the operation of the second block and one of a branch that is not live. -/
def plainMempool : Mempool Nat (Operation Nat) := fun op => if op = ⟨0, [1]⟩ ∨ op = ⟨7, []⟩ then some op else none

/-- From the first block to the second one: the operation of the first is pending again, the other two are not. -/
theorem listPendings_exact_fork :
    ∃ node : PlainNode, run (step plainEnvironment) (some plainNode) plainFork = some node ∧
    ∃ b1 b2 : PlainBlock, Stored node.chain b1 ∧ Stored node.chain b2 ∧
      (∃ pendings, listPendings id node.chain b1 b2 {0} plainMempool = .ok pendings ∧
        pendings ⟨0, []⟩ = some ⟨0, []⟩ ∧ pendings ⟨0, [1]⟩ = none ∧ pendings ⟨7, []⟩ = none) ∧
      ∃ a left entered pendings, GreatestCommonAncestor (predecessor node.chain) a b1 b2 ∧
        IsPath (predecessor node.chain) a b1 left ∧ IsPath (predecessor node.chain) a b2 entered ∧
        listPendings id node.chain b1 b2 {0} plainMempool = .ok pendings ∧ ∀ h op, pendings h = some op ↔
          (plainMempool h = some op ∨ (∃ x ∈ left, op ∈ (operationsIn node.chain x).flatten) ∧ op = h) ∧
          (∀ x ∈ entered, op ∉ (operationsIn node.chain x).flatten) ∧ op.branch ∈ ({0} : Finset Nat) := by
  obtain ⟨node, hrun, hinv⟩ := invariant_run plainEnvironment injective_id 0 0 () none (fun _ => some ()) plainFork
  have hb1 : Stored node.chain ⟨1, plainHeader 1 0 1 [[⟨0, []⟩]]⟩ := Option.some.inj hrun ▸ rfl
  have hb2 : Stored node.chain ⟨2, plainHeader 1 0 2 [[⟨0, [1]⟩]]⟩ := Option.some.inj hrun ▸ rfl
  have hkey : Keyed plainEnvironment.hashes plainMempool := by
    intro h op hop
    rw [plainMempool] at hop
    split at hop
    · exact (Option.some.inj hop).symm
    · cases hop
  refine ⟨node, hrun, _, _, hb1, hb2, ?_,
    listPendings_exact injective_id hinv.recorded hinv.tree hb1 hb2 {0} plainMempool hkey⟩
  obtain rfl := Option.some.inj hrun
  exact ⟨_, rfl, by decide, by decide, by decide⟩

end Tezos.ListPendings
