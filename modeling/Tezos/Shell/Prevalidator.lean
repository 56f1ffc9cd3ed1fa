import Mathlib.Data.Finset.Union
import Tezos.Lib.SortedMap
import Tezos.Shell.Chain
import Tezos.Shell.Prevalidation
import Tezos.Stdlib.Ring

/-! The worker that keeps the mempool (`lib_shell/prevalidator.ml`). The distributed database, the streams of the RPCs
    and the store of the current mempool are left out. -/

namespace Tezos.Prevalidator
open Lib Prevalidation

structure Mempool (O : Type) where
  knownValid : List O
  pending : Finset O

def Mempool.empty {O : Type} : Mempool O := ⟨[], ∅⟩

variable {B O : Type} (P : Protocol B) (hash : Operation B → O)

abbrev Rejected := Operation B × List (Error P.Error)

/-- `types_state`. -/
structure State (O : Type) where
  liveBlocks : Finset B
  liveOperations : Finset O
  refused : Ring.Raw O
  refusals : SortedMap O (Rejected P)
  branchRefused : Ring.Raw O
  branchRefusals : SortedMap O (Rejected P)
  branchDelayed : Ring.Raw O
  branchDelays : SortedMap O (Rejected P)
  fetching : Finset O
  pending : SortedMap O (Operation B)
  mempool : Mempool O
  inMempool : Finset O
  applied : List (O × Operation B)
  appliedCount : Nat
  validationState : Except (List (Error P.Error)) (T P O)
  advertisement : Option (Mempool O)

variable [LinearOrder O]

def alreadyHandled (pv : State P O) (oph : O) : Bool :=
  pv.refusals.mem oph || pv.pending.mem oph || decide (oph ∈ pv.fetching) || decide (oph ∈ pv.liveOperations) ||
    decide (oph ∈ pv.inMempool)

/-- `advertise`, without the request `Advertise` that comes later. -/
def advertise (pv : State P O) (mempool : Mempool O) : State P O :=
  match pv.advertisement with
  | some pending =>
    { pv with advertisement := some ⟨pending.knownValid ++ mempool.knownValid, pending.pending ∪ mempool.pending⟩ }
  | none => { pv with advertisement := some mempool }

def isEndorsement (op : Parsed P O) : Bool := P.acceptablePasses op.raw.branch op.protocolData = [0]

def isEndorsementRaw (op : Operation B) : Bool :=
  match parse P hash op with
  | .ok op => isEndorsement P op
  | .error _ => false

/-- A rejected operation enters a bounded map; what the ring erases leaves it. -/
def remember (ring : Ring.Raw O) (rejected : SortedMap O (Rejected P)) (h : O) (op : Rejected P) :
    Ring.Raw O × SortedMap O (Rejected P) × Option O :=
  let (ring, erased) := Ring.addAndReturnErased ring h
  let rejected := match erased with
    | none => rejected
    | some e => rejected.remove e
  (ring, rejected.add h op, erased)

/-- `pv.in_mempool` when an operation enters and another one may leave. -/
def enterMempool (inMempool : Finset O) (erased : Option O) (h : O) : Finset O :=
  match erased with
  | none => insert h inMempool
  | some e => insert h (inMempool.erase e)

def addRefused (pv : State P O) (h : O) (op : Rejected P) : State P O :=
  let (refused, refusals, _) := remember P pv.refused pv.refusals h op
  { pv with refused := refused, refusals := refusals }

def addBranchDelayed (pv : State P O) (h : O) (op : Rejected P) : State P O :=
  let (branchDelayed, branchDelays, erased) := remember P pv.branchDelayed pv.branchDelays h op
  { pv with
    branchDelayed := branchDelayed
    branchDelays := branchDelays
    inMempool := enterMempool pv.inMempool erased h }

def addBranchRefused (pv : State P O) (h : O) (op : Rejected P) : State P O :=
  let (branchRefused, branchRefusals, erased) := remember P pv.branchRefused pv.branchRefusals h op
  { pv with
    branchRefused := branchRefused
    branchRefusals := branchRefusals
    inMempool := enterMempool pv.inMempool erased h }

/-- What the fold over a batch accumulates, beside the state of the worker that it changes. -/
structure Acc (O : Type) where
  pv : State P O
  validationState : T P O
  mempool : Mempool O

def Acc.addPending {P : Protocol B} (acc : Acc P O) (pv : State P O) (h : O) : Acc P O :=
  { acc with pv := pv, mempool := { acc.mempool with pending := insert h acc.mempool.pending } }

/-- One operation of a batch. It is applied on the state `state` of the beginning of the batch. -/
def process (state : T P O) (acc : Acc P O) (op : Operation B) : Acc P O :=
  match parse P hash op with
  | .error errors => acc.addPending (addRefused P acc.pv (hash op) (op, errors)) (hash op)
  | .ok op =>
    match applyOperation P state op with
    | .applied newValidationState _ =>
      if acc.pv.appliedCount ≤ 2000 || isEndorsement P op then
        { pv := { acc.pv with
            applied := (op.hash, op.raw) :: acc.pv.applied
            inMempool := insert op.hash acc.pv.inMempool }
          validationState := newValidationState
          mempool := { acc.mempool with knownValid := op.hash :: acc.mempool.knownValid } }
      else acc
    | .branchDelayed errors => acc.addPending (addBranchDelayed P acc.pv op.hash (op.raw, errors)) op.hash
    | .branchRefused errors => acc.addPending (addBranchRefused P acc.pv op.hash (op.raw, errors)) op.hash
    | .refused errors => acc.addPending (addRefused P acc.pv op.hash (op.raw, errors)) op.hash
    | .duplicate | .outdated => acc

def processPending (pv : State P O) : State P O :=
  match pv.validationState with
  | .error err =>
    let pv := pv.pending.foldl (fun pv binding => addBranchDelayed P pv binding.1 (binding.2, err)) pv
    { pv with pending := [] }
  | .ok state =>
    if pv.pending.length = 0 then pv
    else
      let operations := pv.pending.map Prod.snd
      let acc := operations.foldl (process P hash state) ⟨pv, state, .empty⟩
      let pv := { acc.pv with validationState := .ok acc.validationState, pending := [] }
      advertise P pv { acc.mempool with knownValid := acc.mempool.knownValid.reverse }

def endorsements (rejected : SortedMap O (Rejected P)) (s : Finset O) : Finset O :=
  rejected.foldl (fun s binding => if isEndorsementRaw P hash binding.2.1 then insert binding.1 s else s) s

def handleUnprocessed (pv : State P O) : State P O :=
  let pv := processPending P hash pv
  { pv with mempool :=
      ⟨(pv.applied.map Prod.fst).reverse,
        endorsements P hash pv.branchDelays (endorsements P hash pv.branchRefusals ∅)⟩ }

variable [DecidableEq B]

def onOperationArrived (pv : State P O) (oph : O) (op : Operation B) : State P O :=
  let pv := { pv with fetching := pv.fetching.erase oph }
  if op.branch ∉ pv.liveBlocks then pv
  else if !alreadyHandled P pv oph then { pv with pending := pv.pending.add oph op }
  else pv

/-- `on_inject`; `none` is an error. -/
def onInject (pv : State P O) (op : Operation B) : Option (State P O) :=
  if alreadyHandled P pv (hash op) then some pv
  else
    match pv.validationState with
    | .error _ => none
    | .ok validationState =>
      match parse P hash op with
      | .error _ => none
      | .ok parsedOp =>
        match applyOperation P validationState parsedOp with
        | .applied _ _ => some { pv with pending := pv.pending.add parsedOp.hash op }
        | _ => none

def onNotify (pv : State P O) (mempool : Mempool O) : State P O :=
  let allOphs := mempool.knownValid.foldl (fun s oph => insert oph s) mempool.pending
  let toFetch := allOphs.filter fun oph => !alreadyHandled P pv oph
  { pv with fetching := toFetch ∪ pv.fetching }

def onAdvertise (pv : State P O) : State P O := { pv with advertisement := none }

/-- What `on_flush` reads of the chain for its new head: the live blocks and operations, the operations of the blocks
    that leave the chain, those of the blocks that enter it, and the result of `Prevalidation.create`. -/
structure Flush (O : Type) where
  liveBlocks : Finset B
  liveOperations : Finset O
  popped : List (Operation B)
  pushed : List O
  validationState : Except (List (Error P.Error)) (T P O)

def mempoolOperations (pv : State P O) : SortedMap O (Operation B) :=
  let ops := pv.applied.reverse.foldl (fun acc binding => SortedMap.add binding.1 binding.2 acc) []
  let ops := pv.branchDelays.foldl (fun acc binding => SortedMap.add binding.1 binding.2.1 acc) ops
  pv.branchRefusals.foldl (fun acc binding => SortedMap.add binding.1 binding.2.1 acc) ops

def listPendings (flush : Flush P O) (oldMempool : SortedMap O (Operation B)) : SortedMap O (Operation B) :=
  let mempool := flush.popped.foldl (fun mempool op => SortedMap.add (hash op) op mempool) oldMempool
  let mempool := flush.pushed.foldl (fun mempool h => mempool.remove h) mempool
  mempool.filter fun binding => binding.2.branch ∈ flush.liveBlocks

def onFlush (pv : State P O) (flush : Flush P O) : State P O :=
  { pv with
    liveBlocks := flush.liveBlocks
    liveOperations := flush.liveOperations
    mempool := .empty
    pending := listPendings P hash flush (mempoolOperations P pv)
    inMempool := ∅
    branchDelayed := Ring.clear pv.branchDelayed
    branchDelays := []
    branchRefused := Ring.clear pv.branchRefused
    branchRefusals := []
    applied := []
    appliedCount := 0
    validationState := flush.validationState }

inductive Request (O : Type) where
  | flush (flush : Flush P O)
  | notify (mempool : Mempool O)
  | inject (op : Operation B)
  | arrived (oph : O) (op : Operation B)
  | advertise

/-- How the fetch of an operation ends. -/
inductive Fetched (B : Type) where
  | ok (op : Operation B)
  | canceled
  /-- Any other error, such as a timeout. -/
  | error

/-- The end of `fetch_operation`: the request that is pushed to the queue of the worker. The state is left as it is. -/
def fetchOperation (oph : O) : Fetched B → Option (Request P O)
  | .ok op => some (.arrived oph op)
  | .canceled => none
  | .error => none

/-- `on_request`. An error of `on_inject` is answered to the client, and the batch is not looked at. -/
def onRequest (pv : State P O) : Request P O → State P O
  | .flush flush => handleUnprocessed P hash (onFlush P hash (onAdvertise P pv) flush)
  | .notify mempool => handleUnprocessed P hash (onNotify P pv mempool)
  | .inject op =>
    match onInject P hash pv op with
    | none => pv
    | some pv => handleUnprocessed P hash pv
  | .arrived oph op => handleUnprocessed P hash (onOperationArrived P pv oph op)
  | .advertise => handleUnprocessed P hash (onAdvertise P pv)

/-- `on_launch`: the data of the head of the chain, and the result of `Prevalidation.create` for it. -/
def onLaunch (maxRefusedOperations : Nat) (size_pos : 0 < maxRefusedOperations) (liveBlocks : Finset B)
    (liveOperations : Finset O) (knownValid : List O)
    (validationState : Except (List (Error P.Error)) (T P O)) : State P O where
  liveBlocks := liveBlocks
  liveOperations := liveOperations
  refused := .empty maxRefusedOperations size_pos
  refusals := []
  branchRefused := .empty maxRefusedOperations size_pos
  branchRefusals := []
  branchDelayed := .empty maxRefusedOperations size_pos
  branchDelays := []
  fetching := knownValid.foldl (fun s h => insert h s) ∅
  pending := []
  mempool := .empty
  inMempool := ∅
  applied := []
  appliedCount := 0
  validationState := validationState
  advertisement := none

end Tezos.Prevalidator

/-! `list_pendings` on the blocks of a chain: the flush above is given what it pops and pushes. -/

namespace Tezos.ListPendings
open State ChainTraversal
variable {B O L C ε : Type} [DecidableEq B] [DecidableEq O] (hash : Operation B → O) (s : ChainState B O L C ε)

abbrev Mempool (B O : Type) := O → Option (Operation B)

def popBlocks (ancestor : B) : Nat → Block B L C → Mempool B O → Result B C ε (Mempool B O)
  | 0, _, _ => .error .diverged
  | fuel + 1, block, mempool =>
    if block.hash = ancestor then .ok mempool
    else do
      let operations ← allOperations s block
      let mempool := operations.foldl (List.foldl fun mempool op => Function.update mempool (hash op) (some op)) mempool
      match predecessor s block with
      | none => .error .raised
      | some predecessor => popBlocks ancestor fuel predecessor mempool

def pushBlock (mempool : Mempool B O) (block : Block B L C) : Result B C ε (Mempool B O) := do
  let operations ← allOperationHashes s block
  .ok (operations.foldl (List.foldl fun mempool h => Function.update mempool h none) mempool)

def listPendings (fromBlock toBlock : Block B L C) (liveBlocks : Finset B) (oldMempool : Mempool B O) :
    Result B C ε (Mempool B O) := do
  let (ancestor, path) ← newBlocks s fromBlock toBlock
  let mempool ← popBlocks hash s ancestor.hash (blockCount s + 1) fromBlock oldMempool
  let newMempool ← path.foldlM (pushBlock s) mempool
  .ok fun h => (newMempool h).filter fun op => op.branch ∈ liveBlocks

end Tezos.ListPendings
