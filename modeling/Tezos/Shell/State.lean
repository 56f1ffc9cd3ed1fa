import Mathlib.Data.Finset.Insert
import Mathlib.Data.List.AList
import Tezos.Base.BlockHeader

/-! The state of a chain: the blocks that are stored, the head, the checkpoint (`lib_shell/state.ml`). A walk over the
    predecessors of a block takes at most as many steps as there are blocks, unless it has no end. -/

namespace Tezos.State
open DataEncoding
variable {B O L C ε : Type}

structure Hashes (B O L C : Type) where
  /-- `Block_header.hash`. -/
  blockHeader : BlockHeader B L C → B
  /-- `Operation.hash`. -/
  operation : Operation B → O
  /-- `Operation_list_list_hash.empty`. -/
  emptyOperations : L

/-- The errors, to which other modules add theirs. -/
inductive Error (B C ε : Type) where
  | failure (message : String)
  | unknown (block : B)
  | checkpointError (block : B)
  | inconsistentHash (commit context : C)
  | blockNotFound (block : B)
  | blockContentsNotFound (block : B)
  | other (error : ε)
  deriving DecidableEq

/-- The ways not to give a result. -/
inductive Failure (E : Type) where
  /-- An exception: an assertion that fails, `Invalid_argument`. -/
  | raised
  | diverged
  | errors (trace : List E)
  deriving DecidableEq

abbrev Result (B C ε α : Type) := Except (Failure (Error B C ε)) α

def failUnless (condition : Bool) (error : Error B C ε) : Result B C ε Unit :=
  if condition then .ok () else .error (.errors [error])

/-- `Option.unopt_assert`. -/
def unoptAssert {α : Type} : Option α → Result B C ε α
  | none => .error .raised
  | some a => .ok a

structure Contents (B L C : Type) where
  header : BlockHeader B L C
  maxOperationsTtl : Int
  deriving DecidableEq

structure InvalidBlock (B C ε : Type) where
  level : Int32
  errors : List (Error B C ε)

structure Block (B L C : Type) where
  hash : B
  header : BlockHeader B L C
  deriving DecidableEq

structure ChainState (B O L C ε : Type) where
  /-- `genesis.block`, which is not the hash of the header of the genesis block. -/
  genesis : B
  expiration : Option Int
  contents : AList fun _ : B => Contents B L C
  prunedContents : AList fun _ : B => BlockHeader B L C
  operationHashes : B → Nat → Option (List O)
  operations : B → Nat → Option (List (Operation B))
  predecessors : B → Nat → Option B
  invalidBlock : B → Option (InvalidBlock B C ε)
  knownHeads : List B
  inMainBranch : B → Option B
  currentHead : Block B L C
  liveBlocks : Finset B
  liveOperations : Finset O
  savePoint : Int32 × B
  checkpoint : BlockHeader B L C

section
variable [DecidableEq B] (s : ChainState B O L C ε)

/-- `Header.read_opt`. -/
def headerReadOpt (hash : B) : Option (BlockHeader B L C) :=
  match s.contents.lookup hash with
  | some contents => some contents.header
  | none => s.prunedContents.lookup hash

def headerKnown (hash : B) : Bool := (s.prunedContents.lookup hash).isSome || (s.contents.lookup hash).isSome

def blockCount : Nat := s.contents.keys.length + s.prunedContents.keys.length

def storeKnownHead (hash : B) : ChainState B O L C ε := { s with knownHeads := s.knownHeads.insert hash }

def removeKnownHead (hash : B) : ChainState B O L C ε := { s with knownHeads := s.knownHeads.filter (· ≠ hash) }

def storedPredecessorsSize : Nat := 12

def storePredecessor (b : B) (dist : Nat) (p : B) : ChainState B O L C ε :=
  { s with predecessors := Function.update s.predecessors b (Function.update (s.predecessors b) dist (some p)) }

/-- The loop of `store_predecessors`, for the distances that are left. -/
def storePredecessorsLoop (b : B) : Nat → ChainState B O L C ε → B → Nat → ChainState B O L C ε
  | 0, s, _, _ => s
  | left + 1, s, pred, dist =>
    match s.predecessors pred (dist - 1) with
    | none => s
    | some p => storePredecessorsLoop b left (storePredecessor s b dist p) p (dist + 1)

def storePredecessors (b : B) : Result B C ε (ChainState B O L C ε) := do
  let header ← unoptAssert (headerReadOpt s b)
  let pred := header.shell.predecessor
  if b = pred then .ok s
  else .ok (storePredecessorsLoop b (storedPredecessorsSize - 1) (storePredecessor s b 0 pred) pred 1)

end

def powerOf2Loop : Nat → Nat → Nat
  | 0, res => res
  | cnt + 1, res => powerOf2Loop cnt (res * 2)

def powerOf2 (n : Nat) : Nat := powerOf2Loop n 1

/-- The loop of `closest_power_two_and_rest`; the fuel bounds the number of halvings. -/
def closestPowerTwoLoop : Nat → Nat → Nat → Nat → Nat × Nat
  | 0, cnt, _, rest => (cnt, rest)
  | fuel + 1, cnt, n, rest =>
    if n ≤ 1 then (cnt, rest) else closestPowerTwoLoop fuel (cnt + 1) (n / 2) (rest + powerOf2 cnt * (n % 2))

def closestPowerTwoAndRest (n : Nat) : Nat × Nat := closestPowerTwoLoop n 0 n 0

/-- The jump that the loop of `predecessor_n_raw` takes: a power of two that is stored, and the rest. -/
def jump (distance : Nat) : Nat × Nat :=
  let (power, rest) := closestPowerTwoAndRest distance
  if power < storedPredecessorsSize then (power, rest)
  else (storedPredecessorsSize - 1, distance - powerOf2 (storedPredecessorsSize - 1))

section
variable (s : ChainState B O L C ε)

/-- The loop of `predecessor_n_raw`; the fuel bounds the number of jumps. -/
def predecessorNLoop : Nat → B → Nat → Option B
  | 0, _, _ => none
  | fuel + 1, blockHash, distance =>
    if distance = 1 then s.predecessors blockHash 0
    else
      let (power, rest) := jump distance
      match s.predecessors blockHash power with
      | none => none
      | some pred => if rest = 0 then some pred else predecessorNLoop fuel pred rest

def predecessorNRaw (blockHash : B) (distance : Int) : Result B C ε (Option B) :=
  if distance < 0 then .error .raised
  else if distance = 0 then .ok (some blockHash)
  else .ok (predecessorNLoop s distance.toNat blockHash distance.toNat)

end

section
variable [DecidableEq B] (H : Hashes B O L C) (s : ChainState B O L C ε)

def predecessorN (belowSavePoint : Bool) (blockHash : B) (distance : Int) : Result B C ε (Option B) := do
  match ← predecessorNRaw s blockHash distance with
  | none => .ok none
  | some predecessor =>
    let known := if belowSavePoint then headerKnown s predecessor else (s.contents.lookup predecessor).isSome
    .ok (if known then some predecessor else none)

/-- Is the block compatible with the current checkpoint, when its predecessor is? -/
def acceptable [DecidableEq L] (header : BlockHeader B L C) : Bool :=
  let checkpointLevel := s.checkpoint.shell.level
  if checkpointLevel < header.shell.level then true
  else if checkpointLevel = header.shell.level then header.equal s.checkpoint
  else s.currentHead.header.shell.level < checkpointLevel

variable (block : Block B L C) (checkpoint : BlockHeader B L C) (hash : B)

/-- Is a block still valid for a given checkpoint? -/
def isValidForCheckpoint (header checkpoint : BlockHeader B L C) : Result B C ε Bool := do
  if header.shell.level < checkpoint.shell.level then .ok true
  else
    let predecessor ← unoptAssert (← predecessorN s false hash (header.shell.level - checkpoint.shell.level).toInt)
    .ok (predecessor = H.blockHeader checkpoint)

/-- One more head among those that are valid for the checkpoint, or among those that are not. -/
def sortHead
    (acc : List (B × BlockHeader B L C) × List (B × BlockHeader B L C)) (head : B) :
    Result B C ε (List (B × BlockHeader B L C) × List (B × BlockHeader B L C)) := do
  let (validHeads, invalidHeads) := acc
  let header ← unoptAssert (headerReadOpt s head)
  let valid ← isValidForCheckpoint H s head header checkpoint
  if valid then .ok ((head, header) :: validHeads, invalidHeads)
  else .ok (validHeads, (head, header) :: invalidHeads)

def validHeadsForCheckpoint :
    Result B C ε (List (B × BlockHeader B L C) × List (B × BlockHeader B L C)) :=
  s.knownHeads.foldlM (sortHead H s checkpoint) ([], [])

/-- What `tag_invalid_head` does to a block above the level. -/
def tagInvalid (header : BlockHeader B L C) : ChainState B O L C ε :=
  { s with
    invalidBlock := Function.update s.invalidBlock hash (some ⟨header.shell.level, [.checkpointError hash]⟩)
    contents := s.contents.erase hash
    operationHashes := Function.update s.operationHashes hash fun _ => none
    operations := Function.update s.operations hash fun _ => none
    predecessors := Function.update s.predecessors hash fun _ => none }

def tagInvalidHead (level : Int32) : Nat → ChainState B O L C ε → B × BlockHeader B L C →
    Result B C ε (ChainState B O L C ε × Option (B × BlockHeader B L C))
  | 0, _, _ => .error .diverged
  | fuel + 1, s, (hash, header) =>
    if header.shell.level ≤ level then .ok (storeKnownHead s hash, some (hash, header))
    else
      let s := tagInvalid s hash header
      match headerReadOpt s header.shell.predecessor with
      | none => .ok (s, none)
      | some header => tagInvalidHead level fuel s (H.blockHeader header, header)

def tagEach (level : Int32) (fuel : Nat) : ChainState B O L C ε → List (B × BlockHeader B L C) →
    Result B C ε (ChainState B O L C ε × List (B × BlockHeader B L C))
  | s, [] => .ok (s, [])
  | s, head :: heads => do
    let (s, outdated) ← tagInvalidHead H level fuel s head
    let (s, outdatedHeads) ← tagEach level fuel s heads
    .ok (s, outdated.toList ++ outdatedHeads)

/-- `tag_invalid_heads`: the blocks above the level are tagged, the others become heads again. -/
def tagInvalidHeads (fuel : Nat) (heads : List (B × BlockHeader B L C)) (level : Int32) :
    Result B C ε (ChainState B O L C ε × List (B × BlockHeader B L C)) :=
  tagEach H level fuel (heads.foldl (fun s head => removeKnownHead s head.1) s) heads

/-- `prune_block` and `delete_block`. -/
def deleteBlock : ChainState B O L C ε :=
  { s with
    contents := s.contents.erase hash
    invalidBlock := Function.update s.invalidBlock hash none
    prunedContents := s.prunedContents.erase hash
    operations := Function.update s.operations hash fun _ => none
    operationHashes := Function.update s.operationHashes hash fun _ => none
    predecessors := Function.update s.predecessors hash fun _ => none }

def cutAlternateHead : Nat → ChainState B O L C ε → B → BlockHeader B L C → Result B C ε (ChainState B O L C ε)
  | 0, _, _, _ => .error .diverged
  | fuel + 1, s, hash, header =>
    if (s.inMainBranch hash).isSome then .ok s
    else
      match headerReadOpt s header.shell.predecessor with
      | none => .ok (deleteBlock s hash)
      | some header => cutAlternateHead fuel (deleteBlock s hash) (H.blockHeader header) header

def cutAlternateHeads (fuel : Nat) (heads : List (B × BlockHeader B L C)) : Result B C ε (ChainState B O L C ε) :=
  heads.foldlM (fun s head => cutAlternateHead H fuel (removeKnownHead s head.1) head.1 head.2) s

def setCheckpoint : Result B C ε (ChainState B O L C ε) := do
  let fuel := blockCount s + 1
  let head := s.currentHead
  let level := checkpoint.shell.level
  if ← isValidForCheckpoint H s head.hash head.header checkpoint then
    let s := { s with invalidBlock := fun hash => (s.invalidBlock hash).filter fun iblock => !(iblock.level ≤ level) }
    let (validHeads, invalidHeads) ← validHeadsForCheckpoint H s checkpoint
    let (s, outdatedInvalidHeads) ← tagInvalidHeads H s fuel invalidHeads level
    if head.header.shell.level < level then .ok { s with checkpoint := checkpoint }
    else
      let outdatedValidHeads := validHeads.filter fun (hash, header) => header.shell.level ≤ level && hash ≠ head.hash
      let s ← cutAlternateHeads H s fuel outdatedValidHeads
      let s ← cutAlternateHeads H s fuel outdatedInvalidHeads
      .ok { s with checkpoint := checkpoint }
  else .error .raised

def findValidPredecessor : Result B C ε (Block B L C) := do
  let header ← unoptAssert (headerReadOpt s hash)
  if header.shell.level < checkpoint.shell.level then .ok ⟨hash, header⟩
  else
    let pred ← unoptAssert
      (← predecessorN s false hash (1 + (header.shell.level - checkpoint.shell.level).toInt))
    let predHeader ← unoptAssert (headerReadOpt s pred)
    .ok ⟨pred, predHeader⟩

def fitter (pred best : Block B L C) : Block B L C :=
  if Fitness.compare pred.header.shell.fitness best.header.shell.fitness = .gt then pred else best

/-- One more known head: its predecessor below the checkpoint is kept when it is better. -/
def betterHead (best : Block B L C) (head : B) : Result B C ε (Block B L C) := do
  let pred ← findValidPredecessor s checkpoint head
  .ok (fitter pred best)

def bestKnownHeadForCheckpoint : Result B C ε (Block B L C) := do
  let head := s.currentHead
  if ← isValidForCheckpoint H s head.hash head.header checkpoint then .ok head
  else
    let genesisHeader ← unoptAssert (headerReadOpt s s.genesis)
    s.knownHeads.foldlM (betterHead s checkpoint) ⟨s.genesis, genesisHeader⟩

def readOpt : Option (Block B L C) := (headerReadOpt s hash).map fun header => ⟨hash, header⟩

def read : Result B C ε (Block B L C) :=
  match readOpt s hash with
  | none => .error (.errors [.unknown hash])
  | some block => .ok block

def knownValid : Bool := headerKnown s hash

def readContents : Result B C ε (Contents B L C) :=
  match s.contents.lookup block.hash with
  | none => .error (.errors [.blockContentsNotFound block.hash])
  | some contents => .ok contents

def maxOperationsTtl : Result B C ε Int := do
  let contents ← readContents s block
  .ok contents.maxOperationsTtl

def predecessor : Option (Block B L C) :=
  if block.hash = block.header.shell.predecessor then none else readOpt s block.header.shell.predecessor

def allOperationHashes : Result B C ε (List (List O)) :=
  (List.range block.header.shell.validationPasses).mapM fun i => unoptAssert (s.operationHashes block.hash i)

def allOperations : Result B C ε (List (List (Operation B))) :=
  (List.range block.header.shell.validationPasses).mapM fun i => unoptAssert (s.operations block.hash i)

structure ValidationStore (C : Type) where
  contextHash : C
  maxOperationsTtl : Int

/-- The tables of the block store, with one more block. -/
def storeContents (contents : Contents B L C) (operations : List (List (Operation B))) :
    ChainState B O L C ε :=
  { s with
    contents := s.contents.insert hash contents
    operationHashes := Function.update s.operationHashes hash fun i =>
      match operations[i]? with
      | some ops => some (ops.map H.operation)
      | none => s.operationHashes hash i
    operations := Function.update s.operations hash fun i =>
      match operations[i]? with
      | some ops => some ops
      | none => s.operations hash i }

/-- `Block.store`; `contextExists` is `Context.exists` on the index of contexts. -/
def store [DecidableEq L] [DecidableEq C] (dontEnforceContextHash : Bool) (contextExists : C → Bool)
    (blockHeader : BlockHeader B L C) (operations : List (List (Operation B))) (operationsMetadata : List (List MBytes))
    (validation : ValidationStore C) : Result B C ε (ChainState B O L C ε × Option (Block B L C)) := do
  let hash := H.blockHeader blockHeader
  let commit := validation.contextHash
  failUnless (blockHeader.shell.validationPasses = operations.length)
    (.failure "State.Block.store: invalid operations length")
  failUnless (blockHeader.shell.validationPasses = operationsMetadata.length)
    (.failure "State.Block.store: invalid operations_data length")
  failUnless (operations.map List.length = operationsMetadata.map List.length)
    (.failure "State.Block.store: inconsistent operations and operations_data")
  failUnless (s.invalidBlock hash).isNone (.failure "Known invalid")
  if (s.contents.lookup hash).isSome then .ok (s, none)
  else
    failUnless (headerKnown s blockHeader.shell.predecessor && acceptable s blockHeader) (.checkpointError hash)
    failUnless (contextExists commit) (.failure "State.Block.store: context hash not found in context")
    failUnless (dontEnforceContextHash || blockHeader.shell.context = commit)
      (.inconsistentHash commit blockHeader.shell.context)
    let header :=
      if dontEnforceContextHash then { blockHeader with shell := { blockHeader.shell with context := commit } }
      else blockHeader
    let s ← storePredecessors (storeContents H s hash ⟨header, validation.maxOperationsTtl⟩ operations) hash
    let s := storeKnownHead (removeKnownHead s blockHeader.shell.predecessor) hash
    .ok (s, some ⟨hash, header⟩)

def storeInvalid (blockHeader : BlockHeader B L C) (errors : List (Error B C ε)) :
    Result B C ε (ChainState B O L C ε × Bool) := do
  let hash := H.blockHeader blockHeader
  failUnless (!headerKnown s hash) (.failure "Known valid")
  if (s.invalidBlock hash).isSome then .ok (s, false)
  else
    let iblock := ⟨blockHeader.shell.level, errors⟩
    .ok ({ s with invalidBlock := Function.update s.invalidBlock hash (some iblock) }, true)

end

/-- The header that `Locked_block.store_genesis` makes. -/
def genesisHeader (H : Hashes B O L C) (genesis : B) (time : Int) (context : C) : BlockHeader B L C where
  shell :=
    { level := 0
      protoLevel := 0
      predecessor := genesis
      timestamp := time
      fitness := []
      validationPasses := 0
      operationsHash := H.emptyOperations
      context }
  protocolData := []

def create [DecidableEq B] (H : Hashes B O L C) (genesis : B) (time : Int) (context : C) (expiration : Option Int) :
    ChainState B O L C ε :=
  let header := genesisHeader H genesis time context
  { genesis
    expiration
    contents := AList.singleton genesis ⟨header, 0⟩
    prunedContents := ∅
    operationHashes := fun _ _ => none
    operations := fun _ _ => none
    predecessors := fun _ _ => none
    invalidBlock := fun _ => none
    knownHeads := [genesis]
    inMainBranch := fun _ => none
    currentHead := ⟨genesis, header⟩
    liveBlocks := {genesis}
    liveOperations := ∅
    savePoint := (0, genesis)
    checkpoint := header }

end Tezos.State
