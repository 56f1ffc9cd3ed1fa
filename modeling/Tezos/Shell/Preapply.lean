import Tezos.Shell.BlockValidator
import Tezos.Shell.Prevalidation

/-! The construction of a block from lists of operations (`create` and `preapply` in `lib_shell/prevalidation.ml`). -/

namespace Tezos.Prevalidation
open DataEncoding State BlockValidation BlockValidator

def Error.map {E F : Type} (f : E → F) : Error E → Error F
  | .oversizedOperation size max => .oversizedOperation size max
  | .parseError => .parseError
  | .protocol e => .protocol (f e)

/-- What is used of a registered protocol to construct a block. -/
structure Constructor (B L C E I X : Type) extends Protocol B where
  BlockHeaderData : Type
  decodeBlockHeaderData : MBytes → Option BlockHeaderData
  beginConstruction : I → X → Int → Fitness → Int32 → B → Int → Option BlockHeaderData →
    Except (List Error) ValidationState
  finalizeBlock : ValidationState → Except (List Error) (ValidationResult X)
  init : X → ShellHeader B L C → Except (List Error) (ValidationResult X)
  /-- The errors of the protocol are errors of the node. -/
  toError : Error → E

/-- `Preapply_result.t`. -/
structure PreapplyResult (B O E : Type) where
  applied : List (O × Operation B)
  refused : O → Option (Operation B × List (Error E))
  branchRefused : O → Option (Operation B × List (Error E))
  branchDelayed : O → Option (Operation B × List (Error E))

def PreapplyResult.empty {B O E : Type} : PreapplyResult B O E := ⟨[], fun _ => none, fun _ => none, fun _ => none⟩

variable {B O M L C P E I X : Type} [DecidableEq B] [DecidableEq O]

section
variable (proto : Constructor B L C E I X)

def lift {α : Type} : Except (List proto.Error) α → BlockValidation.Result B O L C P E α
  | .ok a => .ok a
  | .error errors => .error (.errors (errors.map fun e => .other (.protocol (proto.toError e))))

def parseProtocolData : Option MBytes → BlockValidation.Result B O L C P E (Option proto.BlockHeaderData)
  | none => .ok none
  | some protocolData =>
    match proto.decodeBlockHeaderData protocolData with
    | none => .error (.errors [.failure "Invalid block header"])
    | some protocolData => .ok (some protocolData)

def applyOperationWithPreapplyResult (preapp : PreapplyResult B O E) (t : T proto.toProtocol O)
    (op : Parsed proto.toProtocol O) : PreapplyResult B O E × T proto.toProtocol O :=
  let rejected errors := some (op.raw, errors.map (·.map proto.toError))
  match applyOperation proto.toProtocol t op with
  | .applied t _ => ({ preapp with applied := (op.hash, op.raw) :: preapp.applied }, t)
  | .branchDelayed errors =>
    ({ preapp with branchDelayed := Function.update preapp.branchDelayed op.hash (rejected errors) }, t)
  | .branchRefused errors =>
    ({ preapp with branchRefused := Function.update preapp.branchRefused op.hash (rejected errors) }, t)
  | .refused errors => ({ preapp with refused := Function.update preapp.refused op.hash (rejected errors) }, t)
  | .duplicate | .outdated => (preapp, t)

def preapplyOperation (hash : Operation B → O) (acc : PreapplyResult B O E × T proto.toProtocol O) (op : Operation B) :
    PreapplyResult B O E × T proto.toProtocol O :=
  match parse proto.toProtocol hash op with
  | .error _ => acc
  | .ok op => applyOperationWithPreapplyResult proto acc.1 acc.2 op

/-- One of the lists. The operations that were applied are put back in their order. -/
def preapplyList (hash : Operation B → O) (acc : List (PreapplyResult B O E) × T proto.toProtocol O)
    (operations : List (Operation B)) : List (PreapplyResult B O E) × T proto.toProtocol O :=
  let (result, t) := operations.foldl (preapplyOperation proto hash) (.empty, acc.2)
  (acc.1 ++ [{ result with applied := result.applied.reverse }], t)

end

variable (env : Environment B O M L C P E I X) (node : Node B O L C P E X)

/-- `State.Block.context`. -/
def contextOf (block : Block B L C) : BlockValidation.Result B O L C P E X := do
  let contents ← unoptAssert (node.chain.contents.lookup block.hash)
  unoptAssert (node.index contents.header.shell.context)

def create (proto : Constructor B L C E I X) (protocolData : Option MBytes) (predecessor : Block B L C) (timestamp : Int) :
    BlockValidation.Result B O L C P E (T proto.toProtocol O) := do
  let shell := predecessor.header.shell
  let predecessorContext ← contextOf node predecessor
  let maxOpTtl ← maxOperationsTtl node.chain predecessor
  let (liveBlocks, liveOperations) ← ChainTraversal.liveBlocks node.chain predecessor maxOpTtl
  let predecessorContext :=
    updateTestchainStatus env.hashes env.contexts predecessorContext predecessor.header timestamp
  let protocolData ← parseProtocolData proto protocolData
  let state ← lift proto (proto.beginConstruction env.chainId predecessorContext shell.timestamp shell.fitness shell.level
    predecessor.hash timestamp protocolData)
  .ok ⟨state, [], liveBlocks, liveOperations⟩

/-- The start of the protocol that the block activates, when it is another one. -/
def initProtocol [DecidableEq P] (registered : P → Option (Constructor B L C E I X)) (predProtocol protocol : P)
    (blockResult : ValidationResult X) (shellHeader : ShellHeader B L C) :
    BlockValidation.Result B O L C P E (ValidationResult X) :=
  if protocol = predProtocol then .ok blockResult
  else
    match registered protocol with
    | none => .error (.errors [.other (.unavailableProtocol shellHeader.predecessor protocol)])
    | some newProto => lift newProto (newProto.init blockResult.context shellHeader)

/-- The header of the block, with `Context.hash` for its context and `zero` before it is known, and what became of the
    operations; `ppShort` prints a protocol. -/
def preapply [DecidableEq P] (registered : P → Option (Constructor B L C E I X)) (ppShort : P → String)
    (contextHash : Option String → Int → X → C) (zero : C) (predecessor : Block B L C) (timestamp : Int)
    (protocolData : MBytes) (operations : List (List (Operation B))) :
    BlockValidation.Result B O L C P E (ShellHeader B L C × List (PreapplyResult B O E)) := do
  let predShellHeader := predecessor.header.shell
  let predecessorContext ← contextOf node predecessor
  let predProtocol := env.contexts.getProtocol predecessorContext
  match registered predProtocol with
  | none =>
    .error (.errors [.failure s!"Prevalidation: missing protocol '{ppShort predProtocol}' for the current block."])
  | some proto =>
    let t ← create env node proto (some protocolData) predecessor timestamp
    let (results, t) := operations.foldl (preapplyList proto env.hashes.operation) ([], t)
    let hashes ← unoptAssert (results.mapM fun r => MerkleTree.compute env.listHash (r.applied.map Prod.fst))
    let operationsHash ← unoptAssert (MerkleTree.compute env.listListHash hashes)
    let blockResult ← lift proto (proto.finalizeBlock t.state)
    let level := predShellHeader.level + 1
    let blockResult := mayPatchProtocol env.contexts level blockResult
    let protocol := env.contexts.getProtocol blockResult.context
    let shellHeader : ShellHeader B L C :=
      { level
        protoLevel :=
          if protocol = predProtocol then predShellHeader.protoLevel else (predShellHeader.protoLevel + 1) % 256
        predecessor := predecessor.hash
        timestamp
        validationPasses := results.length
        operationsHash
        fitness := blockResult.fitness
        context := zero }
    let result ← initProtocol registered predProtocol protocol blockResult shellHeader
    .ok ({ shellHeader with context := contextHash result.message timestamp result.context }, results)

end Tezos.Prevalidation
