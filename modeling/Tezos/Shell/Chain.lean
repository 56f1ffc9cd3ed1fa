import Tezos.Shell.State

/-! Walks over the blocks of a chain (`lib_shell/chain_traversal.ml`), and the changes of its head
    (`lib_shell/chain.ml`). -/

namespace Tezos.ChainTraversal
open State
variable {B O L C ε : Type} [DecidableEq B] (s : ChainState B O L C ε)

def pathLoop (b1 : Block B L C) : Nat → List (Block B L C) → Block B L C → Result B C ε (Option (List (Block B L C)))
  | 0, _, _ => .error .diverged
  | fuel + 1, acc, current =>
    if b1.hash = current.hash then .ok (some acc)
    else
      match predecessor s current with
      | some pred => pathLoop b1 fuel (current :: acc) pred
      | none => .ok none

def path (b1 b2 : Block B L C) : Result B C ε (Option (List (Block B L C))) := pathLoop s b1 (blockCount s + 1) [] b2

def commonAncestorLoop : Nat → Block B L C → Block B L C → Result B C ε (Block B L C)
  | 0, _, _ => .error .diverged
  | fuel + 1, b1, b2 =>
    if b1.hash = b2.hash then .ok b1
    else if b1.header.shell.timestamp ≤ b2.header.shell.timestamp then
      match predecessor s b2 with
      | none => .error .raised
      | some b2 => commonAncestorLoop fuel b1 b2
    else
      match predecessor s b1 with
      | none => .error .raised
      | some b1 => commonAncestorLoop fuel b1 b2

def commonAncestor (b1 b2 : Block B L C) : Result B C ε (Block B L C) :=
  commonAncestorLoop s (2 * blockCount s + 1) b1 b2

def newBlocks (fromBlock toBlock : Block B L C) : Result B C ε (Block B L C × List (Block B L C)) := do
  let ancestor ← commonAncestor s fromBlock toBlock
  match ← path s ancestor toBlock with
  | none => .error .raised
  | some path => .ok (ancestor, path)

section
variable [DecidableEq O]

/-- The hashes of the operations of a block, added to a set. -/
def addOperations (oacc : Finset O) (hashes : List (List O)) : Finset O :=
  hashes.foldl (fun oacc ops => ops.foldl (fun oacc op => insert op oacc) oacc) oacc

def liveBlocksLoop : Nat → Finset B → Finset O → Block B L C → Int → Result B C ε (Finset B × Finset O)
  | 0, _, _, _, _ => .error .diverged
  | fuel + 1, bacc, oacc, block, n => do
    let hashes ← allOperationHashes s block
    let oacc := addOperations oacc hashes
    let bacc := insert block.hash bacc
    if n = 0 then .ok (bacc, oacc)
    else
      match predecessor s block with
      | none => if s.genesis = block.hash then .ok (bacc, oacc) else .error (.errors [.blockNotFound block.hash])
      | some predecessor => liveBlocksLoop fuel bacc oacc predecessor (n - 1)

/-- The hashes of a block and of its `n` first predecessors, and those of their operations. -/
def liveBlocks (block : Block B L C) (n : Int) : Result B C ε (Finset B × Finset O) :=
  liveBlocksLoop s (blockCount s + 1) ∅ ∅ block n

end

end Tezos.ChainTraversal

namespace Tezos.Chain
open State
variable {B O L C ε : Type} [DecidableEq B] (s : ChainState B O L C ε)

def mem (hash : B) : Bool := s.currentHead.hash = hash || (s.inMainBranch hash).isSome

/-- `pop_blocks`, over the index of the main branch. -/
def popBlocks (ancestor : B) : Nat → (B → Option B) → Block B L C → Result B C ε (B → Option B)
  | 0, _, _ => .error .diverged
  | fuel + 1, inMainBranch, block =>
    if block.hash = ancestor then .ok inMainBranch
    else
      match predecessor s block with
      | some predecessor => popBlocks ancestor fuel (Function.update inMainBranch block.hash none) predecessor
      | none => .error .raised

/-- `push_block`: the index, and the hash of the block that was pushed last. -/
def pushBlock (acc : (B → Option B) × B) (block : Block B L C) : (B → Option B) × B :=
  (Function.update acc.1 acc.2 (some block.hash), block.hash)

def lockedSetHead (block : Block B L C) (liveBlocks : Finset B) (liveOperations : Finset O) :
    Result B C ε (ChainState B O L C ε) := do
  let (ancestor, path) ← ChainTraversal.newBlocks s s.currentHead block
  let popped ← popBlocks s ancestor.hash (blockCount s + 1) s.inMainBranch s.currentHead
  let (inMainBranch, _) := path.foldl pushBlock (popped, ancestor.hash)
  .ok { s with inMainBranch, currentHead := block, liveBlocks, liveOperations }

variable [DecidableEq O]

def setHead (block : Block B L C) : Result B C ε (ChainState B O L C ε × Block B L C) := do
  let maxOpTtl ← maxOperationsTtl s block
  let (liveBlocks, liveOperations) ← ChainTraversal.liveBlocks s block maxOpTtl
  let s' ← lockedSetHead s block liveBlocks liveOperations
  .ok (s', s.currentHead)

def testAndSetHead (old block : Block B L C) : Result B C ε (ChainState B O L C ε × Bool) := do
  let maxOpTtl ← maxOperationsTtl s block
  let (liveBlocks, liveOperations) ← ChainTraversal.liveBlocks s block maxOpTtl
  if s.currentHead.hash ≠ old.hash then .ok (s, false)
  else
    let s' ← lockedSetHead s block liveBlocks liveOperations
    .ok (s', true)

/-- The changes of the chain: a block is stored, the head is set to a stored block, or a checkpoint is set. -/
inductive Action (B L C : Type) where
  | store (dontEnforceContextHash : Bool) (contextExists : C → Bool) (header : BlockHeader B L C)
      (operations : List (List (Operation B))) (operationsMetadata : List (List DataEncoding.MBytes))
      (validation : ValidationStore C)
  | setHead (hash : B)
  | testAndSetHead (old : Block B L C) (hash : B)
  | setCheckpoint (checkpoint : BlockHeader B L C)

/-- The state after a call: a call that returns errors changes nothing. -/
def resulting {α : Type} (state : α → ChainState B O L C ε) : Result B C ε α → Option (ChainState B O L C ε)
  | .ok a => some (state a)
  | .error (.errors _) => some s
  | .error _ => none

section
variable [DecidableEq L] [DecidableEq C] (H : Hashes B O L C)

/-- The state after an action; there is none when the call raises an exception or does not return. -/
def perform : Action B L C → Option (ChainState B O L C ε)
  | .store dontEnforceContextHash contextExists header operations operationsMetadata validation =>
    resulting s Prod.fst
      (State.store H s dontEnforceContextHash contextExists header operations operationsMetadata validation)
  | .setHead hash =>
    match readOpt s hash with
    | none => some s
    | some block => resulting s Prod.fst (setHead s block)
  | .testAndSetHead old hash =>
    match readOpt s hash with
    | none => some s
    | some block => resulting s Prod.fst (testAndSetHead s old block)
  | .setCheckpoint checkpoint => resulting s id (setCheckpoint H s checkpoint)

/-- One step of a run, which stops when there is no state. -/
def step (s : Option (ChainState B O L C ε)) (action : Action B L C) : Option (ChainState B O L C ε) :=
  s.bind fun s => perform s H action

end

end Tezos.Chain
