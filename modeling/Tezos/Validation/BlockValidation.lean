import Tezos.Shell.State

/-! The validation of a block on top of its predecessor (`lib_validation/block_validation.ml`). -/

namespace Tezos.BlockValidation
open DataEncoding State

inductive BlockError (B O E : Type) where
  | cannotParseOperation (operation : O)
  | invalidFitness (expected found : Fitness)
  | nonIncreasingTimestamp
  | nonIncreasingFitness
  | invalidLevel (expected found : Int32)
  | invalidProtoLevel (expected found : Nat)
  | replayedOperation (operation : O)
  | outdatedOperation (operation : O) (originatingBlock : B)
  | expiredChain (expiration timestamp : Int)
  | unexpectedNumberOfValidationPasses (found : Nat)
  | tooManyOperations (pass found : Nat) (max : Int)
  | oversizedOperation (operation : O) (size : Nat) (max : Int)
  | unallowedPass (operation : O) (pass : Nat) (allowedPass : List Nat)
  | cannotParseBlockHeader
  | economicProtocolError (trace : List E)
  deriving DecidableEq

inductive Error (B O L C P E : Type) where
  | invalidBlock (block : B) (error : BlockError B O E)
  | unavailableProtocol (block : B) (protocol : P)
  | missingTestProtocol (protocol : P)
  | inconsistentOperationsHash (block : B) (expected found : L)
  | failedToCheckoutContext (context : C)
  /-- An error of a protocol. -/
  | protocol (error : E)
  /-- An exception that `protect` catches. -/
  | exn
  deriving DecidableEq

/-- What the validation of a block returns, as the functions of the chain state do. -/
abbrev Result (B O L C P E α : Type) := State.Result B C (Error B O L C P E) α

/-- The status of the test chain, which a context holds. -/
inductive TestChainStatus (B P I : Type) where
  | notRunning
  | forking (protocol : P) (expiration : Int)
  | running (chainId : I) (genesis : B) (protocol : P) (expiration : Int)

/-- What is used of the contexts. -/
structure Contexts (B C P I X : Type) where
  getProtocol : X → P
  setProtocol : X → P → X
  getTestChain : X → TestChainStatus B P I
  setTestChain : X → TestChainStatus B P I → X
  computeTestchainGenesis : B → B
  chainIdOfBlockHash : B → I
  /-- The hash of the commit of a context, and the context that is checked out from it. -/
  commit : Int → Option String → X → C × X

structure ValidationResult (X : Type) where
  context : X
  fitness : Fitness
  message : Option String
  maxOperationsTtl : Int

/-- What is used of a registered protocol. -/
structure Protocol (B L C P E I X : Type) where
  BlockHeaderData : Type
  OperationData : Type
  ValidationState : Type
  Receipt : Type
  hash : P
  /-- The largest number of operations of each pass. -/
  validationPasses : List (Option Int)
  maxOperationDataLength : Int
  decodeBlockHeaderData : MBytes → Option BlockHeaderData
  decodeOperationData : MBytes → Option OperationData
  encodeReceipt : Receipt → MBytes
  acceptablePasses : B → OperationData → List Nat
  beginApplication : I → X → Int → Fitness → ShellHeader B L C → BlockHeaderData →
    Except (List E) ValidationState
  applyOperation : ValidationState → B → OperationData → Except (List E) (ValidationState × Receipt)
  finalizeBlock : ValidationState → Except (List E) (ValidationResult X)
  init : X → ShellHeader B L C → Except (List E) (ValidationResult X)

/-- `result`; the context is that which the commit leaves under its hash. -/
structure Validated (C X : Type) where
  maxOperationsTtl : Int
  opsMetadata : List (List MBytes)
  contextHash : C
  context : X

variable {B O L C P E I X : Type}

def invalidBlock (hash : B) (error : BlockError B O E) : State.Error B C (Error B O L C P E) :=
  .other (.invalidBlock hash error)

/-- The results of two computations that are made in any case. -/
def both : Result B O L C P E Unit → Result B O L C P E Unit → Result B O L C P E Unit
  | .error .raised, _ | _, .error .raised => .error .raised
  | .error .diverged, _ | _, .error .diverged => .error .diverged
  | .error (.errors exn1), .error (.errors exn2) => .error (.errors (exn1 ++ exn2))
  | .ok (), r => r
  | r, .ok () => r

def iterP {α : Type} (f : α → Result B O L C P E Unit) : List α → Result B O L C P E Unit
  | [] => .ok ()
  | x :: l => both (f x) (iterP f l)

/-- `iteri2_p`, from an index on; the exception for two lengths is raised at once. -/
def iteri2P {α β : Type} (f : Nat → α → β → Result B O L C P E Unit) :
    Nat → List α → List β → Result B O L C P E Unit
  | _, [], [] => .ok ()
  | _, [], _ :: _ | _, _ :: _, [] => .error .raised
  | i, x1 :: l1, x2 :: l2 => both (f i x1 x2) (iteri2P f (i + 1) l1 l2)

def mapiS {α β : Type} (f : Nat → α → Result B O L C P E β) : Nat → List α → Result B O L C P E (List β)
  | _, [] => .ok []
  | i, h :: t => do
    let rh ← f i h
    let rt ← mapiS f (i + 1) t
    .ok (rh :: rt)

section
variable [DecidableEq B] [DecidableEq O] (H : Hashes B O L C) (hash : B)

def assertNoDuplicateOperations (liveOperations : Finset O) (operations : List (List (Operation B))) :
    Result B O L C P E Unit := do
  let _ ← operations.foldlM (fun live ops => ops.foldlM (fun live op => do
    let oph := H.operation op
    failUnless (oph ∉ live) (invalidBlock hash (.replayedOperation oph))
    .ok (insert oph live)) live) liveOperations
  .ok ()

def assertOperationLiveness (liveBlocks : Finset B) (operations : List (List (Operation B))) :
    Result B O L C P E Unit :=
  operations.forM fun ops => ops.forM fun op =>
    failUnless (op.branch ∈ liveBlocks) (invalidBlock hash (.outdatedOperation (H.operation op) op.branch))

def checkLiveness (liveBlocks : Finset B) (liveOperations : Finset O) (operations : List (List (Operation B))) :
    Result B O L C P E Unit := do
  assertNoDuplicateOperations H hash liveOperations operations
  assertOperationLiveness H hash liveBlocks operations

end

section
variable (H : Hashes B O L C) (K : Contexts B C P I X)

def updateTestchainStatus (ctxt : X) (predecessorHeader : BlockHeader B L C) (timestamp : Int) : X :=
  match K.getTestChain ctxt with
  | .notRunning => ctxt
  | .running _ _ _ expiration => if expiration ≤ timestamp then K.setTestChain ctxt .notRunning else ctxt
  | .forking protocol expiration =>
    let predecessorHash := H.blockHeader predecessorHeader
    let genesis := K.computeTestchainGenesis predecessorHash
    let chainId := K.chainIdOfBlockHash genesis
    K.setTestChain ctxt (.running chainId genesis protocol expiration)

def forcedProtocolUpgrades : List (Int32 × P) := []

def getForcedProtocolUpgrade (level : Int32) : Option P := forcedProtocolUpgrades.reverse.lookup level

def mayPatchProtocol (level : Int32) (validationResult : ValidationResult X) : ValidationResult X :=
  match getForcedProtocolUpgrade level with
  | none => validationResult
  | some hash => { validationResult with context := K.setProtocol validationResult.context hash }

end

/-! ### The validation of a block with its protocol -/

namespace Make
variable (H : Hashes B O L C) (proto : Protocol B L C P E I X)

def checkBlockHeader (predecessorBlockHeader : BlockHeader B L C) (hash : B) (blockHeader : BlockHeader B L C) :
    Result B O L C P E Unit := do
  let expected := predecessorBlockHeader.shell.level + 1
  failUnless (expected = blockHeader.shell.level) (invalidBlock hash (.invalidLevel expected blockHeader.shell.level))
  failUnless (predecessorBlockHeader.shell.timestamp < blockHeader.shell.timestamp)
    (invalidBlock hash .nonIncreasingTimestamp)
  failUnless (Fitness.compare predecessorBlockHeader.shell.fitness blockHeader.shell.fitness = .lt)
    (invalidBlock hash .nonIncreasingFitness)
  failUnless (blockHeader.shell.validationPasses = proto.validationPasses.length)
    (invalidBlock hash (.unexpectedNumberOfValidationPasses blockHeader.shell.validationPasses))

def parseBlockHeader (hash : B) (blockHeader : BlockHeader B L C) : Result B O L C P E proto.BlockHeaderData :=
  match proto.decodeBlockHeaderData blockHeader.protocolData with
  | none => .error (.errors [invalidBlock hash .cannotParseBlockHeader])
  | some protocolData => .ok protocolData

def checkOperationQuota (hash : B) (operations : List (List (Operation B))) : Result B O L C P E Unit :=
  iteri2P (fun i ops maxOp => do
    failUnless (maxOp.all fun max : Int => ops.length ≤ max)
      (invalidBlock hash (.tooManyOperations (i + 1) ops.length (maxOp.getD (-1))))
    iterP (fun op => failUnless (op.length ≤ proto.maxOperationDataLength)
      (invalidBlock hash (.oversizedOperation (H.operation op) op.length proto.maxOperationDataLength))) ops)
    0 operations proto.validationPasses

/-- An operation of a pass, parsed: its branch and the data of the protocol. -/
def parseOperation (hash : B) (pass : Nat) (op : Operation B) : Result B O L C P E (B × proto.OperationData) :=
  match proto.decodeOperationData op.proto with
  | none => .error (.errors [invalidBlock hash (.cannotParseOperation (H.operation op))])
  | some protocolData => do
    let allowedPass := proto.acceptablePasses op.branch protocolData
    failUnless (pass ∈ allowedPass) (invalidBlock hash (.unallowedPass (H.operation op) pass allowedPass))
    .ok (op.branch, protocolData)

def parseOperations (hash : B) (operations : List (List (Operation B))) :
    Result B O L C P E (List (List (B × proto.OperationData))) :=
  mapiS (fun pass ops => ops.mapM (parseOperation H proto hash pass)) 0 operations

/-- The passes of a block, one operation after the other, with their metadata. -/
def applyOperations (state : proto.ValidationState) (operations : List (List (B × proto.OperationData))) :
    Except (List E) (proto.ValidationState × List (List proto.Receipt)) := do
  let (state, opsMetadata) ← operations.foldlM (fun (state, acc) ops => do
    let (state, opsMetadata) ← ops.foldlM (fun (state, acc) op => do
      let (state, opMetadata) ← proto.applyOperation state op.1 op.2
      .ok (state, opMetadata :: acc)) (state, [])
    .ok (state, opsMetadata.reverse :: acc)) (state, [])
  .ok (state, opsMetadata.reverse)

/-- The part of `apply` that the protocol does. -/
def applyProtocol (chainId : I) (predecessorBlockHeader : BlockHeader B L C) (context : X)
    (blockHeader : BlockHeader B L C) (protocolData : proto.BlockHeaderData)
    (operations : List (List (B × proto.OperationData))) :
    Except (List E) (ValidationResult X × List (List proto.Receipt)) := do
  let state ← proto.beginApplication chainId context predecessorBlockHeader.shell.timestamp
    predecessorBlockHeader.shell.fitness blockHeader.shell protocolData
  let (state, opsMetadata) ← applyOperations proto state operations
  let validationResult ← proto.finalizeBlock state
  .ok (validationResult, opsMetadata)

variable [DecidableEq P] (K : Contexts B C P I X) (registered : P → Option (Protocol B L C P E I X))

/-- The new protocol, when the block activates one, prepares the context. -/
def initProtocol (hash : B) (newProtocol : P) (blockHeader : BlockHeader B L C)
    (validationResult : ValidationResult X) : Result B O L C P E (ValidationResult X) :=
  if newProtocol = proto.hash then .ok validationResult
  else
    match registered newProtocol with
    | none => .error (.errors [.other (.unavailableProtocol hash newProtocol)])
    | some newProto =>
      match newProto.init validationResult.context blockHeader.shell with
      | .error trace => .error (.errors (trace.map fun error => .other (.protocol error)))
      | .ok validationResult => .ok validationResult

def apply (chainId : I) (maxOperationsTtl : Int) (predecessorBlockHeader : BlockHeader B L C) (predecessorContext : X)
    (blockHeader : BlockHeader B L C) (operations : List (List (Operation B))) :
    Result B O L C P E (Validated C X) := do
  let hash := H.blockHeader blockHeader
  checkBlockHeader proto predecessorBlockHeader hash blockHeader
  let protocolData ← parseBlockHeader proto hash blockHeader
  checkOperationQuota H proto hash operations
  let context := updateTestchainStatus H K predecessorContext predecessorBlockHeader blockHeader.shell.timestamp
  let operations ← parseOperations H proto hash operations
  let (validationResult, opsMetadata) ←
    match applyProtocol proto chainId predecessorBlockHeader context blockHeader protocolData operations with
    | .error trace => .error (.errors [invalidBlock hash (.economicProtocolError trace)])
    | .ok o => .ok o
  let validationResult := mayPatchProtocol K blockHeader.shell.level validationResult
  let newProtocol := K.getProtocol validationResult.context
  let protoLevel := predecessorBlockHeader.shell.protoLevel
  let expectedProtoLevel := if newProtocol = proto.hash then protoLevel else (protoLevel + 1) % 256
  failUnless (blockHeader.shell.protoLevel = expectedProtoLevel)
    (invalidBlock hash (.invalidProtoLevel expectedProtoLevel blockHeader.shell.protoLevel))
  failUnless (Fitness.compare validationResult.fitness blockHeader.shell.fitness = .eq)
    (invalidBlock hash (.invalidFitness blockHeader.shell.fitness validationResult.fitness))
  let validationResult ← initProtocol proto registered hash newProtocol blockHeader validationResult
  let maxOperationsTtl := max 0 (min (maxOperationsTtl + 1) validationResult.maxOperationsTtl)
  let opsMetadata := opsMetadata.map (List.map proto.encodeReceipt)
  let (contextHash, context) := K.commit blockHeader.shell.timestamp validationResult.message validationResult.context
  .ok { maxOperationsTtl, opsMetadata, contextHash, context }

end Make

variable [DecidableEq P] (H : Hashes B O L C) (K : Contexts B C P I X)
  (registered : P → Option (Protocol B L C P E I X))

def apply (chainId : I) (maxOperationsTtl : Int) (predecessorBlockHeader : BlockHeader B L C) (predecessorContext : X)
    (blockHeader : BlockHeader B L C) (operations : List (List (Operation B))) :
    Result B O L C P E (Validated C X) :=
  let predProtocolHash := K.getProtocol predecessorContext
  match registered predProtocolHash with
  | none => .error (.errors [.other (.unavailableProtocol (H.blockHeader blockHeader) predProtocolHash)])
  | some proto =>
    Make.apply H proto K registered chainId maxOperationsTtl predecessorBlockHeader predecessorContext blockHeader
      operations

end Tezos.BlockValidation
