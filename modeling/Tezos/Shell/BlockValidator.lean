import Tezos.Crypto.MerkleTree
import Tezos.Shell.Chain
import Tezos.Validation.BlockValidation

/-! The validator of blocks (`lib_shell/block_validator_process.ml`, `lib_shell/block_validator.ml`, and the commits of
    `lib_shell/distributed_db.ml`). -/

namespace Tezos.BlockValidator
open DataEncoding State BlockValidation

structure Environment (B O M L C P E I X : Type) where
  hashes : Hashes B O L C
  /-- `Operation_list_hash`. -/
  listHash : MerkleTree.Hash O M
  /-- `Operation_list_list_hash`. -/
  listListHash : MerkleTree.Hash M L
  contexts : Contexts B C P I X
  /-- `Registered_protocol.get`. -/
  registered : P → Option (Protocol B L C P E I X)
  chainId : I
  fetchAndCompileProtocol : P → Except (List (State.Error B C (BlockValidation.Error B O L C P E))) Unit

/-- The state of the chain and the index of the contexts. -/
structure Node (B O L C P E X : Type) where
  chain : ChainState B O L C (BlockValidation.Error B O L C P E)
  index : C → Option X

variable {B O M L C P E I X : Type} [DecidableEq B] [DecidableEq O] [DecidableEq P]
  (env : Environment B O M L C P E I X) (node : Node B O L C P E X)

def getContext (hash : C) : Result B O L C P E X :=
  match node.index hash with
  | none => .error (.errors [.other (.failedToCheckoutContext hash)])
  | some ctx => .ok ctx

/-- The live blocks and operations for the blocks on top of a predecessor: those that the chain has for its head, or new
    ones. -/
def liveData (predecessor : Block B L C) (maxOperationsTtl : Int) : Result B O L C P E (Finset B × Finset O) :=
  if node.chain.currentHead.hash = predecessor.hash then .ok (node.chain.liveBlocks, node.chain.liveOperations)
  else ChainTraversal.liveBlocks node.chain predecessor maxOperationsTtl

def applyBlock (predecessor : Block B L C) (blockHeader : BlockHeader B L C) (operations : List (List (Operation B))) :
    Result B O L C P E (Validated C X) := do
  let maxOperationsTtl ← maxOperationsTtl node.chain predecessor
  let hash := env.hashes.blockHeader blockHeader
  let live ← liveData node predecessor maxOperationsTtl
  checkLiveness env.hashes hash live.1 live.2 operations
  let predecessorContext ← getContext node predecessor.header.shell.context
  BlockValidation.apply env.hashes env.contexts env.registered env.chainId maxOperationsTtl predecessor.header
    predecessorContext blockHeader operations

/-- `apply_block`, a second time when a protocol had to be fetched for the test chain. -/
def applyBlockOrFetch (predecessor : Block B L C) (blockHeader : BlockHeader B L C)
    (operations : List (List (Operation B))) : Result B O L C P E (Validated C X) :=
  match applyBlock env node predecessor blockHeader operations with
  | .error (.errors (.other (.missingTestProtocol protocol) :: _)) =>
    match env.fetchAndCompileProtocol protocol with
    | .error trace => .error (.errors trace)
    | .ok () => applyBlock env node predecessor blockHeader operations
  | result => result

/-- `Worker.protect`: an exception is one of the errors. -/
def protect {α : Type} : Result B O L C P E α → Result B O L C P E α
  | .error .raised => .error (.errors [.other .exn])
  | result => result

/-- `Context.commit` on the index, which keeps what is under a hash. -/
def commit (index : C → Option X) [DecidableEq C] (hash : C) (context : X) : C → Option X :=
  match index hash with
  | none => Function.update index hash (some context)
  | some _ => index

def commitBlock [DecidableEq L] [DecidableEq C] (hash : B) (header : BlockHeader B L C)
    (operations : List (List (Operation B))) (validated : Validated C X) :
    Result B O L C P E (ChainState B O L C (BlockValidation.Error B O L C P E) × Option (Block B L C)) :=
  if hash = env.hashes.blockHeader header ∧ operations.length = header.shell.validationPasses then
    store env.hashes node.chain false (fun context => (node.index context).isSome) header operations
      validated.opsMetadata ⟨validated.contextHash, validated.maxOperationsTtl⟩
  else .error .raised

def commitInvalidBlock (hash : B) (header : BlockHeader B L C)
    (errors : List (State.Error B C (BlockValidation.Error B O L C P E))) :
    Result B O L C P E (ChainState B O L C (BlockValidation.Error B O L C P E) × Bool) :=
  if hash = env.hashes.blockHeader header then storeInvalid env.hashes node.chain header errors
  else .error .raised

section
variable [DecidableEq L] [DecidableEq C]

/-- The part of `on_request` that applies a block and commits it. -/
def applyAndCommit (hash : B) (header : BlockHeader B L C) (operations : List (List (Operation B))) :
    Node B O L C P E X × Result B O L C P E (Block B L C) :=
  match read node.chain header.shell.predecessor with
  | .error failure => (node, .error failure)
  | .ok pred =>
    match protect (applyBlockOrFetch env node pred header operations) with
    | .error failure => (node, .error failure)
    | .ok validated =>
      let node := { node with index := commit node.index validated.contextHash validated.context }
      match protect (commitBlock env node hash header operations validated) with
      | .error failure => (node, .error failure)
      | .ok (chain, some block) => ({ node with chain }, .ok block)
      | .ok (chain, none) => ({ node with chain }, .error (.errors [.other .exn]))

def isInvalidBlock : State.Error B C (BlockValidation.Error B O L C P E) → Bool
  | .other (.invalidBlock _ _) => true
  | _ => false

def onRequest (hash : B) (header : BlockHeader B L C) (operations : List (List (Operation B))) :
    Node B O L C P E X × Result B O L C P E (Option (Block B L C)) :=
  match readOpt node.chain hash with
  | some _ => (node, .ok none)
  | none =>
    match node.chain.invalidBlock hash with
    | some iblock => (node, .error (.errors iblock.errors))
    | none =>
      if header.shell.level < node.chain.savePoint.1 then (node, .ok none)
      else
        match applyAndCommit env node hash header operations with
        | (node, .ok block) => (node, .ok (some block))
        | (node, .error (.errors err)) =>
          if err.any isInvalidBlock then
            match protect (commitInvalidBlock env node hash header err) with
            | .error failure => (node, .error failure)
            | .ok (chain, true) => ({ node with chain }, .error (.errors err))
            | .ok (chain, false) => ({ node with chain }, .error .raised)
          else (node, .error (.errors err))
        | (node, .error failure) => (node, .error failure)

def checkChainLiveness (hash : B) (header : BlockHeader B L C) : Result B O L C P E Unit :=
  match node.chain.expiration with
  | none => .ok ()
  | some eol =>
    failUnless (!(eol ≤ header.shell.timestamp)) (invalidBlock hash (.expiredChain eol header.shell.timestamp))

def computeOperationsHash (operations : List (List (Operation B))) : Option L := do
  let hashes ← operations.mapM fun ops => MerkleTree.compute env.listHash (ops.map env.hashes.operation)
  MerkleTree.compute env.listListHash hashes

def validate (hash : B) (header : BlockHeader B L C) (operations : List (List (Operation B))) :
    Node B O L C P E X × Result B O L C P E (Option (Block B L C)) :=
  match readOpt node.chain hash with
  | some _ => (node, .ok none)
  | none =>
    match computeOperationsHash env operations with
    | none => (node, .error .raised)
    | some computedHash =>
      if computedHash ≠ header.shell.operationsHash then
        (node, .error (.errors [.other (.inconsistentOperationsHash hash header.shell.operationsHash computedHash)]))
      else
        match checkChainLiveness node hash header with
        | .error failure => (node, .error failure)
        | .ok () => onRequest env node hash header operations

/-- What changes the chain of a node that validates blocks: a request of the worker, or a change of head. -/
inductive Action (B L C : Type) where
  | request (hash : B) (header : BlockHeader B L C) (operations : List (List (Operation B)))
  | setHead (hash : B)
  | testAndSetHead (old : Block B L C) (hash : B)

/-- The node after an action; there is none when a change of head raises an exception or does not return. -/
def perform : Action B L C → Option (Node B O L C P E X)
  | .request hash header operations => some (onRequest env node hash header operations).1
  | .setHead hash => (Chain.perform node.chain env.hashes (.setHead hash)).map fun chain => { node with chain }
  | .testAndSetHead old hash =>
    (Chain.perform node.chain env.hashes (.testAndSetHead old hash)).map fun chain => { node with chain }

def step (node : Option (Node B O L C P E X)) (action : Action B L C) : Option (Node B O L C P E X) :=
  node.bind fun node => perform env node action

end

end Tezos.BlockValidator
