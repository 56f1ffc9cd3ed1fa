import Tezos.Shell.Preapply
import Tezos.Theorems.Shell.BlockValidator.Requests
import Tezos.Theorems.Shell.Prevalidator

/-! What `preapply` selects is accepted by `check_liveness`, unless the branch of an operation is not live, which
    nothing looks at. -/

namespace Tezos.Prevalidation
open Lib State BlockValidation BlockValidator List
variable {B O M L C P E I X : Type} [DecidableEq O]

section
variable (proto : Constructor B L C E I X) (hash : Operation B → O)

def advance (t : T proto.toProtocol O) (op : Operation B) : Option (T proto.toProtocol O) :=
  match parse proto.toProtocol hash op with
  | .error _ => none
  | .ok op =>
    match applyOperation proto.toProtocol t op with
    | .applied t _ => some t
    | _ => none

/-- The operations that are applied, each one in the state that those before it lead to. -/
def selected (t : T proto.toProtocol O) : List (Operation B) → List (Operation B)
  | [] => []
  | op :: ops =>
    match advance proto hash t op with
    | none => selected t ops
    | some t => op :: selected t ops

def reached (t : T proto.toProtocol O) (ops : List (Operation B)) : T proto.toProtocol O :=
  ops.foldl (fun t op => (advance proto hash t op).getD t) t

variable {proto} {t t' : T proto.toProtocol O} {op : Operation B}

theorem advance_some (h : advance proto hash t op = some t') :
    hash op ∉ t.liveOperations ∧ t'.liveOperations = insert (hash op) t.liveOperations := by
  rw [advance] at h
  split at h
  · cases h
  · rename_i hparse
    split at h
    · rename_i happ
      cases h
      obtain ⟨hlive, hins, -⟩ := Prevalidator.applyOperation_applied happ
      rw [← (Prevalidator.parse_spec hparse).1]
      exact ⟨hlive, hins⟩
    · cases h

theorem selected_append (t : T proto.toProtocol O) (ops ops' : List (Operation B)) :
    selected proto hash t (ops ++ ops') =
      selected proto hash t ops ++ selected proto hash (reached proto hash t ops) ops' := by
  induction ops generalizing t with
  | nil => rfl
  | cons op ops ih =>
    simp only [cons_append, selected, reached, foldl_cons]
    rcases advance proto hash t op with _ | t'
    · exact ih t
    · exact congrArg (op :: ·) (ih t')

theorem preapplyOperation_eq (acc : PreapplyResult B O E × T proto.toProtocol O) (op : Operation B) :
    ((preapplyOperation proto hash acc op).1.applied, (preapplyOperation proto hash acc op).2) =
      match advance proto hash acc.2 op with
      | none => (acc.1.applied, acc.2)
      | some t => ((hash op, op) :: acc.1.applied, t) := by
  simp only [preapplyOperation, advance]
  cases hparse : parse proto.toProtocol hash op with
  | error e => rfl
  | ok op' =>
    simp only [applyOperationWithPreapplyResult, Prevalidator.parse_spec hparse]
    cases applyOperation proto.toProtocol acc.2 op' with
    | applied | branchDelayed | branchRefused | refused | duplicate | outdated => rfl

theorem foldl_preapplyOperation (acc : PreapplyResult B O E × T proto.toProtocol O) (ops : List (Operation B)) :
    (ops.foldl (preapplyOperation proto hash) acc).1.applied =
        ((selected proto hash acc.2 ops).map fun op => (hash op, op)).reverse ++ acc.1.applied ∧
      (ops.foldl (preapplyOperation proto hash) acc).2 = reached proto hash acc.2 ops := by
  induction ops generalizing acc with
  | nil => exact ⟨rfl, rfl⟩
  | cons op ops ih =>
    have hstep := preapplyOperation_eq hash acc op
    simp only [foldl_cons, ih, selected, reached]
    split at hstep
    all_goals
      rename_i hadv
      obtain ⟨happ, ht⟩ := Prod.mk.inj hstep
      rw [happ, ht, hadv]
      simp

theorem foldl_preapplyList (acc : List (PreapplyResult B O E) × T proto.toProtocol O) (lists : List (List (Operation B))) :
    ((lists.foldl (preapplyList proto hash) acc).1.map fun r => r.applied.map Prod.snd).flatten =
      (acc.1.map fun r => r.applied.map Prod.snd).flatten ++ selected proto hash acc.2 lists.flatten := by
  induction lists generalizing acc with
  | nil => simp [selected]
  | cons ops lists ih =>
    obtain ⟨happ, ht⟩ := foldl_preapplyOperation hash (.empty, acc.2) ops
    rw [foldl_cons, ih, flatten_cons, selected_append]
    simp only [preapplyList, happ, ht]
    simp [PreapplyResult.empty, Function.comp_def]

end

theorem notReplayed_selected {proto : Constructor B L C E I X} (H : Hashes B O L C) (t : T proto.toProtocol O)
    (ops : List (Operation B)) : NotReplayed H t.liveOperations (selected proto H.operation t ops) := by
  induction ops generalizing t with
  | nil => exact ⟨nodup_nil, fun op hop => absurd hop not_mem_nil⟩
  | cons op ops ih =>
    rw [selected]
    split
    · exact ih t
    · rename_i t' hadv
      obtain ⟨hlive, hins⟩ := advance_some H.operation hadv
      exact notReplayed_cons.mpr ⟨hlive, hins ▸ ih t'⟩

variable [DecidableEq B]

theorem create_ok {env : Environment B O M L C P E I X} {node : Node B O L C P E X} {proto : Constructor B L C E I X}
    {protocolData : Option DataEncoding.MBytes} {predecessor : Block B L C} {timestamp : Int}
    {t : T proto.toProtocol O} (h : create env node proto protocolData predecessor timestamp = .ok t) :
    ∃ ttl, maxOperationsTtl node.chain predecessor = .ok ttl ∧
      ChainTraversal.liveBlocks node.chain predecessor ttl = .ok (t.liveBlocks, t.liveOperations) := by
  obtain ⟨_, -, h⟩ := bind_eq_ok.mp h
  obtain ⟨ttl, httl, h⟩ := bind_eq_ok.mp h
  obtain ⟨live, hlive, h⟩ := bind_eq_ok.mp h
  obtain ⟨_, -, h⟩ := bind_eq_ok.mp h
  obtain ⟨state, -, h⟩ := bind_eq_ok.mp h
  cases h
  exact ⟨ttl, httl, hlive⟩

variable [DecidableEq P]

/-- What is applied is accepted by `check_liveness`, with the live blocks and operations of the predecessor, if and only if
    the branch of every operation that is applied is live. -/
theorem preapply_accepted_iff (env : Environment B O M L C P E I X) (node : Node B O L C P E X)
    (registered : P → Option (Constructor B L C E I X)) (ppShort : P → String)
    (contextHash : Option String → Int → X → C) (zero : C) (predecessor : Block B L C) (timestamp : Int)
    (protocolData : DataEncoding.MBytes) (operations : List (List (Operation B))) (header : ShellHeader B L C)
    (results : List (PreapplyResult B O E))
    (h : preapply env node registered ppShort contextHash zero predecessor timestamp protocolData operations =
      .ok (header, results)) (hash : B) :
    ∃ context proto t ttl, contextOf node predecessor = .ok context ∧
      registered (env.contexts.getProtocol context) = some proto ∧
      create env node proto (some protocolData) predecessor timestamp = .ok t ∧
      maxOperationsTtl node.chain predecessor = .ok ttl ∧
      ChainTraversal.liveBlocks node.chain predecessor ttl = .ok (t.liveBlocks, t.liveOperations) ∧
      ((checkLiveness env.hashes hash t.liveBlocks t.liveOperations (results.map fun r => r.applied.map Prod.snd) :
          BlockValidation.Result B O L C P E Unit) = .ok () ↔
        ∀ op ∈ selected proto env.hashes.operation t operations.flatten, op.branch ∈ t.liveBlocks) := by
  obtain ⟨context, hcontext, h⟩ := bind_eq_ok.mp h
  dsimp only at h
  split at h
  · cases h
  rename_i proto hproto
  obtain ⟨t, hcreate, h⟩ := bind_eq_ok.mp h
  obtain ⟨_, -, h⟩ := bind_eq_ok.mp h
  obtain ⟨_, -, h⟩ := bind_eq_ok.mp h
  obtain ⟨_, -, h⟩ := bind_eq_ok.mp h
  obtain ⟨_, -, h⟩ := bind_eq_ok.mp h
  obtain rfl : _ = results := congrArg Prod.snd (Except.ok.inj h)
  obtain ⟨ttl, httl, hlive⟩ := create_ok hcreate
  refine ⟨context, proto, t, ttl, hcontext, hproto, hcreate, httl, hlive, ?_⟩
  have hchk := checkLiveness_checks (P := P) (E := E) env.hashes hash t.liveBlocks t.liveOperations
    ((operations.foldl (preapplyList proto env.hashes.operation) ([], t)).1.map fun r => r.applied.map Prod.snd)
  rw [foldl_preapplyList, map_nil, flatten_nil, nil_append] at hchk
  exact ⟨fun hok => (hchk.of_ok hok).2, fun hall => hchk.ok ⟨notReplayed_selected env.hashes t _, hall⟩⟩

/-- A protocol that applies all the operations. -/
def plainConstructor : Constructor Nat (MerkleTree.Free PlainList) Unit Empty Unit Unit where
  ValidationState := Unit
  OperationData := Unit
  Receipt := Unit
  Error := Empty
  maxOperationDataLength := 1024
  decodeOperationData _ := some ()
  applyOperation _ _ _ := .ok ((), ())
  acceptablePasses _ _ := [0]
  classifyError := Empty.elim
  BlockHeaderData := Unit
  decodeBlockHeaderData _ := some ()
  beginConstruction _ _ _ _ _ _ _ _ := .ok ()
  finalizeBlock _ := .ok ⟨(), [], none, 10⟩
  init _ _ := .ok ⟨(), [], none, 10⟩
  toError := id

/-- The construction of a block on the genesis with some operations. -/
def plainPreapply (operations : List (List (Operation Nat))) := preapply plainEnvironment plainNode
  (fun _ => some plainConstructor) (fun _ => "") (fun _ _ _ => ()) () plainGenesis 1 [] operations

/-- Three operations in two passes, one of which is there twice and is applied once. -/
theorem preapply_accepted_genesis : ∃ header results,
      plainPreapply [[⟨0, []⟩, ⟨0, [1]⟩], [⟨0, []⟩]] = .ok (header, results) ∧
      (results.map fun r => r.applied.map Prod.snd) = [[⟨0, []⟩, ⟨0, [1]⟩], []] ∧
      (checkLiveness plainEnvironment.hashes 1 {0} ∅ (results.map fun r => r.applied.map Prod.snd) :
        BlockValidation.Result Nat (Operation Nat) (MerkleTree.Free PlainList) Unit Unit Empty Unit) = .ok () := by
  refine ⟨_, _, rfl, rfl, ?_⟩
  obtain ⟨_, proto, t, ttl, -, hproto, hcreate, -, -, hiff⟩ := preapply_accepted_iff plainEnvironment plainNode
    (fun _ => some plainConstructor) (fun _ => "") (fun _ _ _ => ()) () plainGenesis 1 []
    [[⟨0, []⟩, ⟨0, [1]⟩], [⟨0, []⟩]] _ _ rfl 1
  cases hproto
  cases hcreate
  refine hiff.mpr fun op hop => ?_
  obtain rfl | hop := mem_cons.mp hop
  · exact Finset.mem_singleton_self 0
  · obtain rfl := mem_singleton.mp hop
    exact Finset.mem_singleton_self 0

/-- Nothing is wrong with the operation for `preapply`, but its branch is not live. -/
theorem preapply_outdated : ∃ header results, plainPreapply [[⟨7, []⟩]] = .ok (header, results) ∧
      maxOperationsTtl plainNode.chain plainGenesis = .ok 0 ∧
      ChainTraversal.liveBlocks plainNode.chain plainGenesis 0 = .ok ({0}, ∅) ∧
      (checkLiveness plainEnvironment.hashes 1 {0} ∅ (results.map fun r => r.applied.map Prod.snd) :
        BlockValidation.Result Nat (Operation Nat) (MerkleTree.Free PlainList) Unit Unit Empty Unit) =
          .error (.errors [invalidBlock 1 (.outdatedOperation ⟨7, []⟩ 7)]) :=
  ⟨_, _, rfl, rfl, rfl, rfl⟩

end Tezos.Prevalidation
