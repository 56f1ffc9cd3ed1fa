import Tezos.Theorems.Shell.BlockValidator.Requests
import Tezos.Theorems.Shell.Chain.MainBranch

/-! No operation is included twice in a chain. -/

namespace Tezos.BlockValidator
open Lib State ChainTraversal Chain BlockValidation List
variable {B O L C ε : Type} [DecidableEq B] {H : Hashes B O L C} {s s' : ChainState B O L C ε}
  {g a b p x nb : Block B L C}
  {live : Finset B × Finset O} {ttl : Int}

def operationsIn (s : ChainState B O L C ε) (b : Block B L C) : List (List (Operation B)) :=
  (range b.header.shell.validationPasses).map fun i => (s.operations b.hash i).getD []

def Recorded (H : Hashes B O L C) (s : ChainState B O L C ε) : Prop :=
  ∀ b, Stored s b → ∀ i < b.header.shell.validationPasses,
    ∃ ops, s.operations b.hash i = some ops ∧ s.operationHashes b.hash i = some (ops.map H.operation)

theorem allOperations_spec (h : Recorded H s) (hb : Stored s b) : allOperations s b = .ok (operationsIn s b) := by
  refine mapM_unoptAssert fun i hi => ?_
  obtain ⟨ops, hops, -⟩ := h b hb i (mem_range.mp hi)
  rw [hops]
  rfl

theorem operationsOf_of_mem (h : Recorded H s) (hb : Stored s b) {op : Operation B}
    (hop : op ∈ (operationsIn s b).flatten) : operationsOf s b (H.operation op) := by
  obtain ⟨ops, hops, hop⟩ := mem_flatten.mp hop
  obtain ⟨i, hi, rfl⟩ := mem_map.mp hops
  obtain ⟨ops, hops, hhashes⟩ := h b hb i (mem_range.mp hi)
  rw [hops] at hop
  exact ⟨i, _, mem_range.mp hi, hhashes, mem_map_of_mem hop⟩

structure LiveFor (s : ChainState B O L C ε) (b : Block B L C) (ttl : Int) (live : Finset B × Finset O) : Prop where
  blocks : ∀ hash, hash ∈ live.1 ↔ ∃ x, InWindow s b ttl x ∧ x.hash = hash
  operations : ∀ op, op ∈ live.2 ↔ ∃ x, InWindow s b ttl x ∧ operationsOf s x op

/-- The operations of a block are neither in it twice nor in an ancestor of it, and their branches are its ancestors. -/
structure Unreplayed (H : Hashes B O L C) (s : ChainState B O L C ε) (b : Block B L C) : Prop where
  nodup : ((operationsIn s b).flatten.map H.operation).Nodup
  branch : ∀ op ∈ (operationsIn s b).flatten, ∃ a, Ancestor (predecessor s) a b ∧ a ≠ b ∧ a.hash = op.branch
  fresh : ∀ a, Ancestor (predecessor s) a b → a ≠ b → ∀ op ∈ (operationsIn s b).flatten,
    ∀ op' ∈ (operationsIn s a).flatten, H.operation op ≠ H.operation op'

structure Invariant (H : Hashes B O L C) (s : ChainState B O L C ε) (g : Block B L C) : Prop where
  tree : Tree s g
  main : MainBranch s
  recorded : Recorded H s
  live : ∃ ttl, maxOperationsTtl s s.currentHead = .ok ttl ∧
    LiveFor s s.currentHead ttl (s.liveBlocks, s.liveOperations)
  unreplayed : ∀ b, Stored s b → Unreplayed H s b

theorem invariant_create (H : Hashes B O L C) (genesis : B) (time : Int) (context : C) (expiration : Option Int) :
    Invariant H (create H genesis time context expiration : ChainState B O L C ε)
      ⟨genesis, genesisHeader H genesis time context⟩ := by
  have htree := tree_create (ε := ε) H genesis time context expiration
  refine ⟨htree, mainBranch_create .., fun b hb i hi => ?_, ⟨0, ?_, fun hash => ?_, fun op => ?_⟩,
    fun b hb => ?_⟩
  · rw [(stored_create H).mp hb] at hi
    exact absurd hi (Nat.not_lt_zero i)
  · have hlook : (create (ε := ε) H genesis time context expiration).contents.lookup genesis = some _ :=
      dlookup_cons_eq ..
    exact maxOperationsTtl_of_lookup (b := ⟨genesis, genesisHeader H genesis time context⟩) hlook
  · rw [create, Finset.mem_singleton]
    simp only [inWindow_zero, exists_eq_left]
    exact eq_comm
  · simp only [inWindow_zero, exists_eq_left]
    refine iff_of_false (Finset.notMem_empty op) ?_
    rintro ⟨i, -, hi, -⟩
    exact absurd hi (Nat.not_lt_zero i)
  · rw [(stored_create H).mp hb]
    refine ⟨?_, ?_, ?_⟩
    · exact nodup_nil
    · intro op hop
      cases hop
    · intro a _ _ op hop
      cases hop

/-! ### One more block -/

theorem fresh_of_live (hinv : Invariant H s g) (hinjective : Function.Injective H.operation) (hp : Stored s p)
    (hlive : LiveFor s p ttl live) {op op' : Operation B} (hnew : H.operation op ∉ live.2)
    (hbr : op.branch ∈ live.1) (ha : Precedes s a p) (hop' : op' ∈ (operationsIn s a).flatten) :
    H.operation op ≠ H.operation op' := by
  intro heq
  obtain rfl := hinjective heq
  obtain ⟨k, hk⟩ := ha
  have has := stored_of_ancestor hp ⟨k, hk⟩
  -- the branch is below the block that includes the operation
  obtain ⟨r, ⟨m, hm⟩, hne, hhash⟩ := (hinv.unreplayed a has).branch op hop'
  have hkm : up (predecessor s) (k + m) p = some r := by rw [up_add, hk, Option.bind_some, hm]
  -- and in the window
  obtain ⟨x, ⟨i, hi, hwin⟩, hxhs⟩ := (hlive.blocks _).mp hbr
  obtain rfl : x = r := (stored_of_ancestor hp ⟨i, hi⟩).eq (stored_of_ancestor hp ⟨_, hkm⟩) (hxhs.trans hhash.symm)
  have hik : i = k + m := up_injective hinv.tree.root (hinv.tree.rooted p hp) hi hkm
  have hwin' : ttl < 0 ∨ (k : Int) ≤ ttl := by
    rcases hwin with h | h
    · exact .inl h
    · exact .inr (by omega)
  exact hnew ((hlive.operations _).mpr ⟨a, ⟨k, hk, hwin'⟩, operationsOf_of_mem hinv.recorded has hop'⟩)

section
variable [DecidableEq L] {header : BlockHeader B L C} {operations : List (List (Operation B))}

variable (h : NewBlock H s header operations nb) {n : Int}
include h

theorem operationsIn_addBlock_self (ttl : Int) : operationsIn (addBlock H s nb ttl operations) nb = operations := by
  rw [operationsIn, h.passes]
  refine ext_getElem (by simp) fun i _ hi => ?_
  simp only [getElem_map, getElem_range, addBlock_operations_self, getElem?_eq_getElem hi, Option.some_or,
    Option.getD_some]

theorem operationsIn_addBlock (htree : Tree s g) (ttl : Int) (hb : Stored s b) :
    operationsIn (addBlock H s nb ttl operations) b = operationsIn s b := by
  rw [operationsIn, operationsIn, addBlock_operations_ne (hb.ne_fresh htree.unpruned h.fresh)]

theorem operationsOf_addBlock (htree : Tree s g) (ttl : Int) (hb : Stored s b) (op : O) :
    operationsOf (addBlock H s nb ttl operations) b op ↔ operationsOf s b op := by
  rw [operationsOf, operationsOf, addBlock_operationHashes_ne (hb.ne_fresh htree.unpruned h.fresh)]

theorem inWindow_addBlock (htree : Tree s g) (ttl n : Int) (hb : Stored s b) :
    InWindow (addBlock H s nb ttl operations) b n x ↔ InWindow s b n x := by
  obtain ⟨-, hsame⟩ := h.predecessors htree ttl
  refine exists_congr fun i => ?_
  rw [up_congr (fun _ _ _ hp => stored_of_predecessor hp) hsame i hb]

omit h in
theorem LiveFor.addBlock (hlive : LiveFor s b n live)
    (h : NewBlock H s header operations nb) (htree : Tree s g) (ttl : Int) (hb : Stored s b) :
    LiveFor (addBlock H s nb ttl operations) b n live := by
  refine ⟨fun hash => ?_, fun op => ?_⟩
  · rw [hlive.blocks]
    refine exists_congr fun x => ?_
    rw [inWindow_addBlock h htree ttl n hb]
  · rw [hlive.operations]
    refine exists_congr fun x => ?_
    rw [inWindow_addBlock h htree ttl n hb]
    refine and_congr_right fun hx => ?_
    obtain ⟨i, hi, -⟩ := hx
    rw [operationsOf_addBlock h htree ttl (stored_of_ancestor hb ⟨i, hi⟩)]

theorem maxOperationsTtl_addBlock (htree : Tree s g) (ttl : Int) (hb : Stored s b) :
    maxOperationsTtl (addBlock H s nb ttl operations) b = maxOperationsTtl s b := by
  rw [maxOperationsTtl, maxOperationsTtl, readContents, readContents, addBlock_contents,
    AList.lookup_insert_ne (hb.ne_fresh htree.unpruned h.fresh)]

omit h

theorem recorded_addBlock (hrecorded : Recorded H s) (h : NewBlock H s header operations nb) (htree : Tree s g)
    (ttl : Int) : Recorded H (addBlock H s nb ttl operations) := by
  intro b hb i hi
  rcases (stored_addBlock htree.unpruned h.fresh).mp hb with rfl | hb
  · rw [h.passes] at hi
    refine ⟨operations[i], ?_, addBlock_operationHashes_self hi⟩
    rw [addBlock_operations_self, getElem?_eq_getElem hi, Option.some_or]
  · have hne := hb.ne_fresh htree.unpruned h.fresh
    rw [addBlock_operations_ne hne, addBlock_operationHashes_ne hne]
    exact hrecorded b hb i hi

theorem unreplayed_addBlock (hinv : Invariant H s g) (h : NewBlock H s header operations nb) (ttl : Int) (hb : Stored s b) :
    Unreplayed H (addBlock H s nb ttl operations) b := by
  have hanc (a : Block B L C) := h.ancestor_iff (a := a) hinv.tree ttl hb
  have hold := hinv.unreplayed b hb
  refine ⟨?_, ?_, ?_⟩
  · rw [operationsIn_addBlock h hinv.tree ttl hb]
    exact hold.nodup
  · rw [operationsIn_addBlock h hinv.tree ttl hb]
    intro op hop
    obtain ⟨a, ha, hne, hhash⟩ := hold.branch op hop
    exact ⟨a, (hanc a).mpr ha, hne, hhash⟩
  · intro a ha hne
    rw [hanc] at ha
    rw [operationsIn_addBlock h hinv.tree ttl hb, operationsIn_addBlock h hinv.tree ttl (stored_of_ancestor hb ha)]
    exact hold.fresh a ha hne

theorem Invariant.addBlock (hinv : Invariant H s g) (hinjective : Function.Injective H.operation)
    (h : NewBlock H s header operations nb) (hp : Stored s p) (hpred : p.hash = nb.header.shell.predecessor)
    (htime : p.header.shell.timestamp < nb.header.shell.timestamp)
    (hlive : LiveFor s p n live) (hnew : NotReplayed H live.2 operations.flatten)
    (hbr : ∀ op ∈ operations.flatten, op.branch ∈ live.1) (ttl : Int) :
    Invariant H (addBlock H s nb ttl operations) g := by
  obtain ⟨⟨p', hp', hprd⟩, hsame⟩ := h.predecessors hinv.tree ttl
  obtain rfl : p = p' := hp.eq hp' (hpred.trans (hash_of_predecessor hprd).symm)
  refine ⟨hinv.tree.addBlock h fun q hq hash => ?_, hinv.main.addBlock hinv.tree h ttl,
    recorded_addBlock hinv.recorded h hinv.tree ttl, ?_, fun b hb => ?_⟩
  · rwa [hq.eq hp (hash.trans hpred.symm)]
  · obtain ⟨n, hn, hlive⟩ := hinv.live
    refine ⟨n, ?_, ?_⟩
    · rw [addBlock_currentHead, maxOperationsTtl_addBlock h hinv.tree ttl hinv.main.head, hn]
    · rw [addBlock_currentHead, addBlock_live]
      exact hlive.addBlock h hinv.tree ttl hinv.main.head
  · rcases (stored_addBlock hinv.tree.unpruned h.fresh).mp hb with rfl | hb
    · have hanc (a : Block B L C) := h.ancestor_iff (a := a) hinv.tree ttl hp
      have hself := operationsIn_addBlock_self h ttl
      refine ⟨?_, ?_, ?_⟩
      · rw [hself]
        exact hnew.1
      · rw [hself]
        intro op hop
        obtain ⟨x, ⟨i, hi, -⟩, hhash⟩ := (hlive.blocks _).mp (hbr op hop)
        refine ⟨x, ((hanc x).mpr ⟨i, hi⟩).trans (ancestor_parent hprd), ?_, hhash⟩
        rintro rfl
        exact (stored_of_ancestor hp ⟨i, hi⟩).ne_fresh hinv.tree.unpruned h.fresh rfl
      · intro a ha hne
        replace ha := (hanc a).mp (ha.of_ne hne hprd)
        rw [hself, operationsIn_addBlock h hinv.tree ttl (stored_of_ancestor hp ha)]
        intro op hop op' hop'
        exact fresh_of_live hinv hinjective hp hlive (hnew.2 op hop) (hbr op hop) ha hop'
    · exact unreplayed_addBlock hinv h ttl hb

end

/-! ### Runs -/

section
variable (hinv : Invariant H s g)
include hinv

theorem disjoint_of_ancestor (hb : Stored s b) (ha : Precedes s a b) (hne : a ≠ b) :
    Disjoint ((operationsIn s a).flatten.map H.operation) ((operationsIn s b).flatten.map H.operation) := by
  intro oph hin hin'
  obtain ⟨op', hop', rfl⟩ := mem_map.mp hin
  obtain ⟨op, hop, heq⟩ := mem_map.mp hin'
  exact (hinv.unreplayed b hb).fresh a ha hne op hop op' hop' heq

theorem Invariant.withHead [DecidableEq O] (hb : Stored s b) (h : WithHead s s' b) : Invariant H s' g := by
  have htree := h.tree hinv.tree
  have hmain := h.main hb
  obtain ⟨ttl, blocks, ops, inMainBranch, httl, hlive, -, rfl⟩ := h
  obtain ⟨blocks', ops', hlive', hbloc, hops⟩ := liveBlocks_spec hinv.tree hb ttl
  obtain ⟨rfl, rfl⟩ := Prod.mk.inj (Except.ok.inj (hlive.symm.trans hlive'))
  refine ⟨htree, hmain, hinv.recorded, ⟨ttl, httl, hbloc, hops⟩, fun b hb => ?_⟩
  have hold := hinv.unreplayed b hb
  exact ⟨hold.nodup, hold.branch, hold.fresh⟩

theorem Invariant.reheaded [DecidableEq O] (hhead : Reheaded s s') : Invariant H s' g := by
  rcases hhead with rfl | ⟨b, hb, hhead⟩
  · exact hinv
  · exact hinv.withHead hb hhead

theorem Invariant.storeInvalid (invalidBlock : B → Option (InvalidBlock B C ε)) :
    Invariant H { s with invalidBlock } g where
  tree := ⟨hinv.tree.unpruned, hinv.tree.genesis, hinv.tree.stored, hinv.tree.self, hinv.tree.rooted,
    hinv.tree.timestamps, hinv.tree.operations⟩
  main := ⟨⟨hinv.main.next, hinv.main.only⟩, hinv.main.head⟩
  recorded := hinv.recorded
  live := by
    obtain ⟨ttl, httl, hlive⟩ := hinv.live
    exact ⟨ttl, httl, hlive.blocks, hlive.operations⟩
  unreplayed b hb := by
    have hold := hinv.unreplayed b hb
    exact ⟨hold.nodup, hold.branch, hold.fresh⟩

end

/-- Blocks are one level above their predecessors, and of a greater fitness. -/
def Climbing (s : ChainState B O L C ε) : Prop :=
  ∀ b p, Stored s b → predecessor s b = some p → b.header.shell.level = p.header.shell.level + 1 ∧
    Fitness.compare p.header.shell.fitness b.header.shell.fitness = .lt

theorem Climbing.reheaded [DecidableEq O] (h : Climbing s) (hhead : Reheaded s s') : Climbing s' := by
  rcases hhead with rfl | ⟨_, _, _, _, _, _, -, -, -, rfl⟩
  · exact h
  · exact h

section
variable {M P E I X : Type} [DecidableEq O] (env : Environment B O M L C P E I X)
  {node node' : Node B O L C P E X}

theorem liveData_spec (hinv : Invariant env.hashes node.chain g) (hp : Stored node.chain p)
    (httl : maxOperationsTtl node.chain p = .ok ttl)
    (hlive : liveData node p ttl = .ok live) : LiveFor node.chain p ttl live := by
  rw [liveData] at hlive
  split at hlive
  · rename_i hhash
    obtain rfl := hinv.main.head.eq hp hhash
    obtain ⟨ttl', httl', hhead⟩ := hinv.live
    obtain rfl := Except.ok.inj (httl'.symm.trans httl)
    rwa [← Except.ok.inj hlive]
  · obtain ⟨blocks, ops, heq, hbloc, hops⟩ := liveBlocks_spec hinv.tree hp ttl
    rw [← Except.ok.inj (heq.symm.trans hlive)]
    exact ⟨hbloc, hops⟩

variable [DecidableEq P] [DecidableEq L] [DecidableEq C]

section
variable (hinv : Invariant env.hashes node.chain g) (hinjective : Function.Injective env.hashes.operation)
include hinv hinjective

theorem invariant_onRequest (hash : B) (header : BlockHeader B L C) (operations : List (List (Operation B))) :
    Invariant env.hashes (onRequest env node hash header operations).1.chain g := by
  obtain ⟨node', result, heq, -, hchn | ⟨-, trace, -, -, -, -, hchn⟩ |
    ⟨pred, validated, nb, -, hpred, happ, contextExists, hstr⟩⟩ := onRequest_cases env node hash header operations
  · rw [heq, hchn]
    exact hinv
  · rw [heq, hchn]
    exact hinv.storeInvalid _
  · obtain ⟨_, herr, -⟩ | hnone | ⟨nb', hnb, hsame, hsome⟩ := store_cases hinv.tree.unpruned hstr
    · cases herr
    · cases (Prod.mk.inj (Except.ok.inj hnone)).2
    obtain rfl := hsame rfl
    rw [heq, (Prod.mk.inj (Except.ok.inj hsome)).1]
    have hp := stored_of_readOpt hpred
    obtain ⟨ttl, live, context, httl, hlive, ⟨hnew, hbr⟩, -, happ⟩ := applyBlock_ok happ
    exact hinv.addBlock hinjective hnb hp (hash_of_readOpt hpred) (timestamp_of_apply happ)
      (liveData_spec env hinv hp httl hlive) hnew hbr validated.maxOperationsTtl

theorem perform_invariant {action : Action B L C} :
    ∃ node', perform env node action = some node' ∧ Invariant env.hashes node'.chain g := by
  cases action with
  | request hash header operations => exact ⟨_, rfl, invariant_onRequest env hinv hinjective hash header operations⟩
  | setHead hash =>
    obtain ⟨s', heq, hhead⟩ := perform_setHead env.hashes hash hinv.tree hinv.main
    exact ⟨_, congrArg (Option.map _) heq, hinv.reheaded hhead⟩
  | testAndSetHead old hash =>
    obtain ⟨s', heq, hhead⟩ := perform_testAndSetHead env.hashes old hash hinv.tree hinv.main
    exact ⟨_, congrArg (Option.map _) heq, hinv.reheaded hhead⟩

end

theorem invariant_run (hinjective : Function.Injective env.hashes.operation) (genesis : B) (time : Int)
    (context : C) (expiration : Option Int) (index : C → Option X) (actions : List (Action B L C)) :
    ∃ node : Node B O L C P E X,
      run (step env) (some ⟨create env.hashes genesis time context expiration, index⟩) actions = some node ∧
      Invariant env.hashes node.chain ⟨genesis, genesisHeader env.hashes genesis time context⟩ := by
  refine inv_run (fun state => ∃ node : Node B O L C P E X, state = some node ∧
    Invariant env.hashes node.chain ⟨genesis, genesisHeader env.hashes genesis time context⟩) ?_ ?_ actions
  · exact ⟨_, rfl, invariant_create ..⟩
  · rintro state action ⟨node, rfl, hinv⟩
    exact perform_invariant env hinv hinjective

/-- No operation is included twice in a chain. On the path from the genesis block to a stored block no hash of an operation
    occurs twice, and the branch of an operation is an ancestor of the block that includes it. -/
theorem operations_included_once (hinjective : Function.Injective env.hashes.operation) (genesis : B) (time : Int)
    (context : C) (expiration : Option Int) (index : C → Option X) (actions : List (Action B L C)) :
    ∃ (node : Node B O L C P E X) (g : Block B L C),
      run (step env) (some ⟨create env.hashes genesis time context expiration, index⟩) actions = some node ∧
      g.hash = genesis ∧
      ∀ b, Stored node.chain b →
        ∃ (path : List (Block B L C)) (operations : Block B L C → List (List (Operation B))),
        IsPath (predecessor node.chain) g b path ∧
        (∀ x ∈ g :: path, allOperations node.chain x = .ok (operations x)) ∧
        ((g :: path).flatMap fun x => (operations x).flatten.map env.hashes.operation).Nodup ∧
        ∀ x ∈ g :: path, ∀ op ∈ (operations x).flatten,
          ∃ a, Ancestor (predecessor node.chain) a x ∧ a ≠ x ∧ a.hash = op.branch := by
  obtain ⟨node, hrun, hinv⟩ := invariant_run env hinjective genesis time context expiration index actions
  generalize hg : (⟨genesis, genesisHeader env.hashes genesis time context⟩ : Block B L C) = g at hinv
  refine ⟨node, g, hrun, by rw [← hg], fun b hb => ?_⟩
  obtain ⟨path, hpath⟩ := exists_isPath (hinv.tree.rooted b hb)
  have hanc (x : Block B L C) (hx : x ∈ g :: path) : Ancestor (predecessor node.chain) x b := by
    rcases mem_cons.mp hx with rfl | hx
    · exact hpath.ancestor
    · exact (hpath.mem hx).1
  have hsto (x : Block B L C) (hx : x ∈ g :: path) : Stored node.chain x := stored_of_ancestor hb (hanc x hx)
  refine ⟨path, operationsIn node.chain, hpath, fun x hx => allOperations_spec hinv.recorded (hsto x hx), ?_,
    fun x hx => (hinv.unreplayed x (hsto x hx)).branch⟩
  rw [nodup_flatMap]
  refine ⟨fun x hx => (hinv.unreplayed x (hsto x hx)).nodup, ?_⟩
  refine (hpath.nodup hinv.tree.root (hinv.tree.rooted b hb)).pairwise_of_forall_ne fun x hx y hy hne => ?_
  -- one of two blocks of the path is below the other one
  rcases (hanc x hx).comparable (hanc y hy) with hxy | hyx
  · exact disjoint_of_ancestor hinv (hsto y hy) hxy hne
  · exact (disjoint_of_ancestor hinv (hsto x hx) hyx hne.symm).symm

theorem climbing_perform (hinv : Invariant env.hashes node.chain g) (hclimb : Climbing node.chain) {action : Action B L C}
    (h : perform env node action = some node') : Climbing node'.chain := by
  cases action with
  | setHead hash =>
    obtain ⟨s', heq, hhead⟩ := perform_setHead env.hashes hash hinv.tree hinv.main
    cases h.symm.trans (congrArg (Option.map _) heq)
    exact hclimb.reheaded hhead
  | testAndSetHead old hash =>
    obtain ⟨s', heq, hhead⟩ := perform_testAndSetHead env.hashes old hash hinv.tree hinv.main
    cases h.symm.trans (congrArg (Option.map _) heq)
    exact hclimb.reheaded hhead
  | request hash header operations =>
    obtain rfl := Option.some.inj h
    obtain ⟨node', result, heq, -, hchn | ⟨-, trace, -, -, -, -, hchn⟩ |
      ⟨pred, validated, nb, -, hpred, happ, contextExists, hstr⟩⟩ := onRequest_cases env node hash header operations
    · rw [heq, hchn]
      exact hclimb
    · rw [heq, hchn]
      exact hclimb
    · obtain ⟨_, herr, -⟩ | hnone | ⟨nb', hnb, hsame, hsome⟩ := store_cases hinv.tree.unpruned hstr
      · cases herr
      · cases (Prod.mk.inj (Except.ok.inj hnone)).2
      obtain rfl := hsame rfl
      rw [heq, (Prod.mk.inj (Except.ok.inj hsome)).1]
      obtain ⟨⟨p', hp', hprd⟩, hold⟩ := hnb.predecessors hinv.tree validated.maxOperationsTtl
      intro b p hb hp
      rcases (stored_addBlock hinv.tree.unpruned hnb.fresh).mp hb with rfl | hb
      · -- the header of the new block was checked against the one of its predecessor
        obtain rfl := Option.some.inj (hprd.symm.trans hp)
        obtain rfl := hp'.eq (stored_of_readOpt hpred) ((hash_of_predecessor hp).trans (hash_of_readOpt hpred).symm)
        obtain ⟨_, _, _, -, -, -, -, happ⟩ := applyBlock_ok happ
        obtain ⟨proto, -, happ⟩ := apply_ok happ
        obtain ⟨⟨hlvl, -, hfit, -⟩, -⟩ := Make.apply_ok happ
        exact ⟨hlvl.symm, hfit⟩
      · rw [hold b hb] at hp
        exact hclimb b p hb hp

/-- The blocks of a chain climb. In every run of validations and changes of head, a stored block is one level above its
    predecessor, later, and of a greater fitness. And the blocks and operations that are live are those of the head. -/
theorem chain_climbs (hinjective : Function.Injective env.hashes.operation) (genesis : B) (time : Int)
    (context : C) (expiration : Option Int) (index : C → Option X) (actions : List (Action B L C)) :
    ∃ node : Node B O L C P E X,
      run (step env) (some ⟨create env.hashes genesis time context expiration, index⟩) actions = some node ∧
      (∀ b p, Stored node.chain b → predecessor node.chain b = some p →
        b.header.shell.level = p.header.shell.level + 1 ∧ p.header.shell.timestamp < b.header.shell.timestamp ∧
        Fitness.compare p.header.shell.fitness b.header.shell.fitness = .lt) ∧
      ∃ ttl, maxOperationsTtl node.chain node.chain.currentHead = .ok ttl ∧
        LiveFor node.chain node.chain.currentHead ttl (node.chain.liveBlocks, node.chain.liveOperations) := by
  let start : Node B O L C P E X := ⟨create env.hashes genesis time context expiration, index⟩
  have hstart : Climbing start.chain := by
    intro b p hb hp
    rw [(stored_create _).mp hb, (tree_create ..).root] at hp
    cases hp
  obtain ⟨node, hrun, hinv, hclimb⟩ : ∃ node, run (step env) (some start) actions = some node ∧
      Invariant env.hashes node.chain ⟨genesis, genesisHeader env.hashes genesis time context⟩ ∧
        Climbing node.chain := by
    refine inv_run (fun state => ∃ node, state = some node ∧ Invariant env.hashes node.chain _ ∧ Climbing node.chain)
      ⟨start, rfl, invariant_create .., hstart⟩ ?_ actions
    rintro state action ⟨node, rfl, hinv, hclimb⟩
    obtain ⟨node', heq, hinv'⟩ := perform_invariant env hinv hinjective
    exact ⟨node', heq, hinv', climbing_perform env hinv hclimb heq⟩
  refine ⟨node, hrun, fun b p hb hp => ?_, hinv.live⟩
  obtain ⟨hlvl, hfit⟩ := hclimb b p hb hp
  exact ⟨hlvl, hinv.tree.timestamps b p hb hp, hfit⟩

end

def plainRun : List (Action Nat (MerkleTree.Free PlainList) Unit) :=
  [.request 1 (plainHeader 1 0 1 [[⟨0, []⟩]]) [[⟨0, []⟩]], .setHead 1,
    .request 2 (plainHeader 2 1 2 [[⟨1, []⟩]]) [[⟨1, []⟩]]]

theorem operations_included_once_plain :
    (run (step plainEnvironment) (some plainNode) plainRun).map (fun node => knownValid node.chain 2) = some true ∧
    ∃ (node : PlainNode) (g : PlainBlock),
      run (step plainEnvironment) (some plainNode) plainRun = some node ∧ g.hash = 0 ∧
      ∀ b, Stored node.chain b → ∃ (path : List PlainBlock) (operations : PlainBlock → List (List (Operation Nat))),
        IsPath (predecessor node.chain) g b path ∧
        (∀ x ∈ g :: path, allOperations node.chain x = .ok (operations x)) ∧
        ((g :: path).flatMap fun x => (operations x).flatten.map id).Nodup ∧
        ∀ x ∈ g :: path, ∀ op ∈ (operations x).flatten,
          ∃ a, Ancestor (predecessor node.chain) a x ∧ a ≠ x ∧ a.hash = op.branch :=
  ⟨by decide, operations_included_once plainEnvironment Function.injective_id 0 0 () none (fun _ => some ()) plainRun⟩

theorem chain_climbs_plain : ∃ node : PlainNode, run (step plainEnvironment) (some plainNode) plainRun = some node ∧
    ∀ b p, Stored node.chain b → predecessor node.chain b = some p →
      p.header.shell.timestamp < b.header.shell.timestamp := by
  obtain ⟨node, hrun, hclimb, -⟩ :=
    chain_climbs plainEnvironment Function.injective_id 0 0 () none (fun _ => some ()) plainRun
  exact ⟨node, hrun, fun b p hb hp => (hclimb b p hb hp).2.1⟩

end Tezos.BlockValidator
