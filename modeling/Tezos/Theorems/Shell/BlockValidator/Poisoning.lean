import Tezos.Lib.Runs
import Tezos.Theorems.Shell.BlockValidator.Requests

/-! A valid block is recorded as invalid when a peer sends its operations with one of them twice, under the same root, and
    by no other lists of operations. -/

namespace Tezos.BlockValidator
open Lib State BlockValidation MerkleTree
variable {B O M L C P E I X : Type} {env : Environment B O M L C P E I X} {node node' : Node B O L C P E X}
  {pred : Block B L C} {hash : B} {header : BlockHeader B L C} {operations truth : List (List (Operation B))}
  {validated : Validated C X}

structure CollisionFree (env : Environment B O M L C P E I X) : Prop where
  operation : Function.Injective env.hashes.operation
  list : env.listHash.CollisionFree
  listEmpty : env.listHash.EmptyFree
  listList : env.listListHash.CollisionFree
  listListEmpty : env.listListHash.EmptyFree

def NoDuplicate (env : Environment B O M L C P E I X) (operations : List (List (Operation B))) : Prop :=
  (operations.flatten.map env.hashes.operation).Nodup

theorem NoDuplicate.mem (h : NoDuplicate env operations) {ops : List (Operation B)} (hops : ops ∈ operations) :
    (ops.map env.hashes.operation).Nodup :=
  h.sublist ((List.sublist_flatten_of_mem hops).map _)

def listRoot (env : Environment B O M L C P E I X) (ops : List (Operation B)) : M :=
  (compute env.listHash (ops.map env.hashes.operation)).getD env.listHash.empty

theorem compute_list (ops : List (Operation B)) :
    compute env.listHash (ops.map env.hashes.operation) = some (listRoot env ops) := by
  obtain ⟨root, hroot⟩ := exists_root env.listHash (ops.map env.hashes.operation)
  rw [listRoot, hroot, Option.getD_some]

theorem computeOperationsHash_eq (operations : List (List (Operation B))) :
    computeOperationsHash env operations = compute env.listListHash (operations.map (listRoot env)) := by
  have hmap : operations.mapM (fun ops => compute env.listHash (ops.map env.hashes.operation)) =
      some (operations.map (listRoot env)) := by
    induction operations with
    | nil => rfl
    | cons ops operations ih => rw [List.mapM_cons, compute_list, ih]; rfl
  rw [computeOperationsHash, hmap]
  rfl

/-- Lists of operations with one root, none of which has an operation twice, are the same up to empty lists at the
    end. -/
theorem same_operations (hfree : CollisionFree env) (hnd : NoDuplicate env operations) (htrt : NoDuplicate env truth)
    (hroot : computeOperationsHash env operations = computeOperationsHash env truth) :
    operations = truth ∨ operations.flatten = truth.flatten ∧ operations.length ≠ truth.length := by
  rw [computeOperationsHash_eq, computeOperationsHash_eq,
    compute_eq_iff hfree.listList hfree.listListEmpty] at hroot
  have hinj : ∀ ops ∈ operations, ∀ ops' ∈ truth, listRoot env ops = listRoot env ops' → ops = ops' := by
    intro ops hops ops' hops' heq
    have hcom : compute env.listHash (ops.map env.hashes.operation) =
        compute env.listHash (ops'.map env.hashes.operation) := by
      rw [compute_list, compute_list, heq]
    rw [compute_eq_iff hfree.list hfree.listEmpty] at hcom
    exact List.map_injective_iff.mpr hfree.operation (eq_of_padded_eq hcom (hnd.mem hops) (htrt.mem hops'))
  rcases padded_eq_iff.mp (padded_eq_of_map hinj hroot) with heq | hs | hs
  · exact .inl heq
  · exact .inr ⟨(hs.flatten_eq htrt.of_map).symm, ne_of_lt hs.length_lt⟩
  · exact .inr ⟨hs.flatten_eq hnd.of_map, ne_of_gt hs.length_lt⟩

/-- The chain is the same, and there may be more contexts. -/
structure Continues (node node' : Node B O L C P E X) : Prop where
  chain : node'.chain = node.chain
  index : Extends node.index node'.index

theorem Continues.getContext {context : X} {contextHash : C} (h : Continues node node')
    (hcontext : getContext node contextHash = .ok context) : getContext node' contextHash = .ok context := by
  rw [BlockValidator.getContext] at hcontext ⊢
  rcases hidx : node.index contextHash with _ | context'
  · rw [hidx] at hcontext
    cases hcontext
  · rw [hidx] at hcontext
    rw [h.index contextHash context' hidx, Except.ok.inj hcontext]

variable [DecidableEq B] [DecidableEq O]

theorem Continues.liveData {ttl : Int} (h : Continues node node') : liveData node' pred ttl = liveData node pred ttl := by
  rw [BlockValidator.liveData, BlockValidator.liveData, h.chain]

variable [DecidableEq P]

theorem applyBlock_without_duplicate (hfree : CollisionFree env) (hcont : Continues node node')
    (happly : applyBlock env node pred header truth = .ok validated)
    (hroot : computeOperationsHash env operations = computeOperationsHash env truth)
    (hnd : NoDuplicate env operations) :
    applyBlock env node' pred header operations = .ok validated ∨
      applyBlock env node' pred header operations = .error .raised := by
  obtain ⟨ttl, live, context, httl, hlive, hfits, hcontext, happly⟩ := applyBlock_ok happly
  rw [← hcont.chain] at httl
  rw [← hcont.liveData] at hlive
  rcases same_operations hfree hnd hfits.1.1 hroot with rfl | ⟨hflat, hlen⟩
  · left
    rw [applyBlock_of_live httl hlive (hcont.getContext hcontext) hfits, happly]
  · right
    rw [← hflat] at hfits
    rw [applyBlock_of_live httl hlive (hcont.getContext hcontext) hfits, apply_raised happly hlen]

theorem applyBlock_with_duplicate (hcont : Continues node node')
    (happly : applyBlock env node pred header truth = .ok validated) (hdup : ¬NoDuplicate env operations) :
    ∃ error, applyBlock env node' pred header operations =
      .error (.errors [invalidBlock (env.hashes.blockHeader header) error]) := by
  obtain ⟨ttl, live, context, httl, hlive, -⟩ := applyBlock_ok happly
  rw [← hcont.chain] at httl
  rw [← hcont.liveData] at hlive
  exact applyBlock_of_replayed httl hlive fun hfits => hdup hfits.1

/-! ### Requests -/

section
variable [DecidableEq L] [DecidableEq C]

/-- The node after a request with the operations that a peer sends for a header. -/
def request (env : Environment B O M L C P E I X) (header : BlockHeader B L C) (node : Node B O L C P E X)
    (operations : List (List (Operation B))) : Node B O L C P E X :=
  (validate env node (env.hashes.blockHeader header) header operations).1

def Expired (node : Node B O L C P E X) (header : BlockHeader B L C) : Prop :=
  ∃ eol, node.chain.expiration = some eol ∧ eol ≤ header.shell.timestamp

/-- A request that is not validated, or that has no operation twice. -/
def Harmless (env : Environment B O M L C P E I X) (header : BlockHeader B L C) (node : Node B O L C P E X)
    (operations : List (List (Operation B))) : Prop :=
  (readOpt node.chain (env.hashes.blockHeader header)).isSome ∨
    computeOperationsHash env operations ≠ some header.shell.operationsHash ∨ Expired node header ∨
    header.shell.level < node.chain.savePoint.1 ∨ NoDuplicate env operations

omit [DecidableEq B] [DecidableEq O] [DecidableEq P] [DecidableEq L] [DecidableEq C] in
theorem checkChainLiveness_eq_ok : checkChainLiveness node hash header = .ok () ↔ ¬Expired node header := by
  rw [checkChainLiveness, Expired]
  rcases node.chain.expiration with _ | eol
  · simp
  · by_cases hle : eol ≤ header.shell.timestamp <;> simp [failUnless, hle]

theorem request_cases (env : Environment B O M L C P E I X) (header : BlockHeader B L C) (node : Node B O L C P E X)
    (operations : List (List (Operation B))) :
    request env header node operations = node ∨
      computeOperationsHash env operations = some header.shell.operationsHash ∧ ¬Expired node header ∧
        request env header node operations =
          (onRequest env node (env.hashes.blockHeader header) header operations).1 := by
  rw [request, validate]
  cases readOpt node.chain (env.hashes.blockHeader header) with
  | some _ => exact .inl rfl
  | none =>
    rcases hroot : computeOperationsHash env operations with _ | computedHash
    · exact .inl rfl
    · by_cases hne : computedHash ≠ header.shell.operationsHash
      · simp only [if_pos hne]
        exact .inl trivial
      · simp only [if_neg hne]
        cases hchk : checkChainLiveness node (env.hashes.blockHeader header) header with
        | error _ => exact .inl rfl
        | ok _ => exact .inr ⟨congrArg some (not_not.mp hne), checkChainLiveness_eq_ok.mp hchk, rfl⟩

/-- The header is not recorded as invalid, and its block is stored or the chain has not changed. -/
structure Unharmed (env : Environment B O M L C P E I X) (header : BlockHeader B L C) (start node : Node B O L C P E X) :
    Prop where
  valid : node.chain.invalidBlock (env.hashes.blockHeader header) = none
  continues : (readOpt node.chain (env.hashes.blockHeader header)).isSome ∨ Continues start node

variable {start : Node B O L C P E X}

omit [DecidableEq L] [DecidableEq C] in
theorem not_invalid_of_applied (h : applyBlock env node pred header operations = .ok validated ∨
    applyBlock env node pred header operations = .error .raised)
    {trace : List (Error B C (Error B O L C P E))}
    (htrc : protect (applyBlockOrFetch env node pred header operations) = .error (.errors trace)) :
    trace.any isInvalidBlock = false := by
  rcases h with h | h
  · rw [applyBlockOrFetch, h] at htrc
    cases htrc
  · rw [applyBlockOrFetch, h] at htrc
    cases htrc
    rfl

theorem request_stored (h : (readOpt node.chain (env.hashes.blockHeader header)).isSome) :
    request env header node operations = node := by
  obtain ⟨block, hblc⟩ := Option.isSome_iff_exists.mp h
  rw [request, validate, hblc]

theorem unharmed_request (hfree : CollisionFree env) (hpred : readOpt start.chain header.shell.predecessor = some pred)
    (happly : applyBlock env start pred header truth = .ok validated)
    (hroot : computeOperationsHash env truth = some header.shell.operationsHash) (h : Unharmed env header start node)
    (hhar : Harmless env header node operations) :
    Unharmed env header start (request env header node operations) := by
  by_cases hsto : (readOpt node.chain (env.hashes.blockHeader header)).isSome
  · rw [request_stored hsto]
    exact h
  have hcont := h.continues.resolve_left hsto
  rcases request_cases env header node operations with heq | ⟨hmat, hlive, heq⟩
  · rw [heq]
    exact h
  obtain ⟨node', result, hreq, hext, hchn | ⟨pred', trace, hlvl, hpred', htrc, hany, -⟩ |
    ⟨pred', validated', nb, -, -, -, contextExists, hstr⟩⟩ :=
      onRequest_cases env node (env.hashes.blockHeader header) header operations
  · rw [heq, hreq]
    refine ⟨?_, .inr ⟨hchn.trans hcont.chain, hcont.index.trans hext⟩⟩
    rw [hchn]
    exact h.valid
  · rcases hhar with hsto' | hne | hexp | hlow | hnd
    · exact absurd hsto' hsto
    · exact absurd hmat hne
    · exact absurd hexp hlive
    · exact absurd hlow hlvl
    · rw [hcont.chain, hpred] at hpred'
      obtain rfl := Option.some.inj hpred'
      have happd := applyBlock_without_duplicate hfree hcont happly (hmat.trans hroot.symm) hnd
      rw [not_invalid_of_applied happd htrc] at hany
      cases hany
  · rcases store_outcome hstr with ⟨error, herr, -⟩ | hnone | ⟨chain, nb', hsome, hinv, hread⟩
    · cases herr
    · cases (Prod.mk.inj (Except.ok.inj hnone)).2
    · obtain ⟨hchn, -⟩ := Prod.mk.inj (Except.ok.inj hsome)
      rw [heq, hreq]
      refine ⟨?_, .inl ?_⟩
      · rw [hchn, hinv]
        exact h.valid
      · rw [hchn]
        exact hread

theorem request_poisons (hpred : readOpt start.chain header.shell.predecessor = some pred)
    (happly : applyBlock env start pred header truth = .ok validated) (h : Unharmed env header start node)
    (hharm : ¬Harmless env header node operations) :
    (request env header node operations).chain.invalidBlock (env.hashes.blockHeader header) ≠ none := by
  obtain ⟨hsto, hrest⟩ := not_or.mp hharm
  obtain ⟨hmat, hrest⟩ := not_or.mp hrest
  obtain ⟨hlive, hrest⟩ := not_or.mp hrest
  obtain ⟨hlvl, hdup⟩ := not_or.mp hrest
  have hcont := h.continues.resolve_left hsto
  obtain ⟨error, hfail⟩ := applyBlock_with_duplicate hcont happly hdup
  have hread := Option.not_isSome_iff_eq_none.mp hsto
  have hpred' : readOpt node.chain header.shell.predecessor = some pred := by rw [hcont.chain, hpred]
  have hfet : applyBlockOrFetch env node pred header operations =
      .error (.errors [invalidBlock (env.hashes.blockHeader header) error]) := by
    rw [applyBlockOrFetch, hfail]
    rfl
  have hkn : headerKnown node.chain (env.hashes.blockHeader header) = false := by rw [headerKnown_eq, hread]; rfl
  have hstr := storeInvalid_fresh hkn h.valid [.other (.invalidBlock (env.hashes.blockHeader header) error)]
  simp only [request, validate, hread, not_not.mp hmat, ne_eq, not_true, if_false, checkChainLiveness_eq_ok.mpr hlive,
    onRequest, h.valid, if_neg hlvl, applyAndCommit, State.read, hpred', hfet, protect, List.any, isInvalidBlock,
    invalidBlock, Bool.or_false, if_true, commitInvalidBlock, hstr, Function.update_self]
  exact Option.some_ne_none _

/-- A block that is valid with lists of operations that have the root of its header is never recorded as invalid, by any
    requests for it with the operations of peers, exactly when none of the requests that are validated has an operation
    twice. -/
theorem never_poisoned_iff (hfree : CollisionFree env) (hpred : readOpt node.chain header.shell.predecessor = some pred)
    (hroot : computeOperationsHash env truth = some header.shell.operationsHash)
    (happly : applyBlock env node pred header truth = .ok validated)
    (hvalid : node.chain.invalidBlock (env.hashes.blockHeader header) = none)
    (requests : List (List (List (Operation B)))) :
    Throughout (fun before =>
        (run (request env header) node before).chain.invalidBlock (env.hashes.blockHeader header) = none) requests ↔
      StepsMeet (request env header) node (Harmless env header) requests := by
  refine throughout_iff_stepsMeet (fun _ node' => Unharmed env header node node') ?base ?keep ?good ?break_
  case base => exact ⟨hvalid, .inr ⟨rfl, fun _ _ hcontext => hcontext⟩⟩
  case keep => exact fun _ _ _ h hhar => unharmed_request hfree hpred happly hroot h hhar
  case good => exact fun _ h => h.valid
  case break_ =>
    intro before operations h hgood
    rw [run_append_singleton] at hgood
    by_contra hharm
    exact request_poisons hpred happly h hharm hgood

end

theorem collisionFree_plain : CollisionFree plainEnvironment :=
  ⟨Function.injective_id, collisionFree_freeHash _, emptyFree_freeHash _,
    collisionFree_freeHash _, emptyFree_freeHash _⟩

def plainOperations : List (Operation Nat) :=
  [⟨0, [0]⟩, ⟨0, [1]⟩, ⟨0, [2]⟩]

def stretchedOperations : List (Operation Nat) :=
  [⟨0, [0]⟩, ⟨0, [1]⟩, ⟨0, [2]⟩, ⟨0, [2]⟩]

def plainValid : PlainHeader :=
  plainHeader 1 0 1 [plainOperations]

def plainValidated : Validated Unit Unit :=
  ⟨1, [[[], [], []]], (), ()⟩

/-- The operations with the last one twice come too late when the block is stored. -/
theorem never_poisoned_stored : Throughout (fun before =>
        (run (request plainEnvironment plainValid) plainNode before).chain.invalidBlock 1 = none)
      [[plainOperations], [stretchedOperations]] := by
  have hpred : readOpt plainNode.chain plainValid.shell.predecessor = some plainGenesis := rfl
  have happly : applyBlock plainEnvironment plainNode plainGenesis plainValid [plainOperations] = .ok plainValidated := rfl
  refine (never_poisoned_iff collisionFree_plain hpred rfl happly rfl _).mpr (stepsMeet_cons.mpr ⟨?once, ?stored⟩)
  case once =>
    have hnd : NoDuplicate plainEnvironment [plainOperations] := by unfold NoDuplicate; decide
    exact .inr (.inr (.inr (.inr hnd)))
  case stored => exact stepsMeet_cons.mpr ⟨.inl (by decide), stepsMeet_nil⟩

/-- The last of the three operations of a valid block once more has the same root, and the block recorded as invalid. -/
theorem poisoned_by_stretched : CollisionFree plainEnvironment ∧
    readOpt plainNode.chain plainValid.shell.predecessor = some plainGenesis ∧
    computeOperationsHash plainEnvironment [plainOperations] = some plainValid.shell.operationsHash ∧
    applyBlock plainEnvironment plainNode plainGenesis plainValid [plainOperations] = .ok plainValidated ∧
    plainNode.chain.invalidBlock (plainEnvironment.hashes.blockHeader plainValid) = none ∧
    (request plainEnvironment plainValid plainNode [stretchedOperations]).chain.invalidBlock
      (plainEnvironment.hashes.blockHeader plainValid) ≠ none :=
  ⟨collisionFree_plain, rfl, rfl, rfl, rfl, by decide⟩

end Tezos.BlockValidator
