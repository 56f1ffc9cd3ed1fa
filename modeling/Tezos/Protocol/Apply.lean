import Tezos.Lib.Runs
import Tezos.Protocol.Accounting
import Tezos.Protocol.Baking

/-! The endorsements of a block. The checks that the contents of a manager operation pass before they are
    applied, and the history of a chain: what is accepted and what it does to the accounts. -/

namespace Tezos.Protocol
open Lib

variable {p : Primitives} {α : Type}

/-- An error is added to those of a computation that failed; what it spent stays spent. -/
def traceGassed (error : Error p) (x : Gassed p α) : Gassed p α := ⟨trace error x.outcome, x.spent⟩

def FeesStorage.checkStorageLimit (ctxt : Context p) (storageLimit : Int) : Result p Unit :=
  if storageLimit > ctxt.constants.hardStorageLimitPerOperation ∨ storageLimit < 0 then fail .storageLimitTooHigh
  else .ok ()

def precheckOperation (ctxt : Context p) (source : Contract p) : ManagerOperation p → Gassed p (Context p)
  | .reveal pk => liftM (ContractStorage.revealManagerKey ctxt source pk)
  | .transaction _ (some arg) _ => do
    (trace .gasQuotaExceededInitDeserialize (ctxt.checkEnoughGas arg.minimalDeserializeCost) : Result p Unit)
    let (_, ctxt) ← traceGassed .gasQuotaExceededInitDeserialize (Carbonated.forceDecode ctxt arg)
    return ctxt
  | .origination _ _ (some script) _ _ _ _ => do
    -- The gas for the minimal costs has to be there; it is not taken.
    (trace .gasQuotaExceededInitDeserialize do
      let ctxt ← (ctxt.consumeGas script.code.minimalDeserializeCost).outcome
      ctxt.checkEnoughGas script.storage.minimalDeserializeCost : Result p Unit)
    let (_, ctxt) ← traceGassed .gasQuotaExceededInitDeserialize (Carbonated.forceDecode ctxt script.code)
    let (_, ctxt) ← traceGassed .gasQuotaExceededInitDeserialize (Carbonated.forceDecode ctxt script.storage)
    return ctxt
  | _ => return ctxt

variable (check : SignatureCheck p) (chainId : p.ChainId)

/-- An endorsement, in `apply_contents_list`. Of its receipt, the delegate and the slots are kept. -/
def applyEndorsement (isPartial : Bool) (predBlock : p.BlockHash) (ctxt : Context p) (op : EndorsementOperation p) :
    Result p (Context p × p.PublicKeyHash × List Nat) := do
  failUnless (op.branch = predBlock) (.wrongEndorsementPredecessor predBlock op.branch)
  failUnless (op.level + 1 = ctxt.level.level) .invalidEndorsementLevel
  let (delegate, slots, used) ← Baking.checkEndorsementRights ctxt check chainId op
  if used then fail (.duplicateEndorsement delegate)
  else
    let ctxt ← ctxt.recordEndorsement delegate
    let gap := slots.length
    let ctxt := { ctxt with fitness := int64 (gap + ctxt.fitness) }
    let deposit ← ctxt.constants.endorsementSecurityDeposit.mul? gap
    let ctxt ←
      (if isPartial then DelegateStorage.freezeDeposit ctxt delegate deposit
      else ctxt.addDeposit delegate deposit : Result p (Context p))
    let reward ← Baking.endorsementReward ctxt ctxt.context.lastBlockPriority gap
    let ctxt ← DelegateStorage.freezeRewards ctxt delegate reward
    return (ctxt, delegate, slots)

variable (rawOperation : Operation p)

def precheckManagerContents (ctxt : Context p) (op : ManagerContents p) : Gassed p (Context p) := do
  ctxt.checkGasLimit op.gasLimit
  let ctxt := ctxt.setGasLimit op.gasLimit
  FeesStorage.checkStorageLimit ctxt op.storageLimit
  ContractStorage.mustBeAllocated ctxt op.source
  ContractStorage.checkCounterIncrement ctxt op.source op.counter
  let ctxt ← precheckOperation ctxt op.source op.operation
  let publicKey ← ContractStorage.getManagerKey ctxt op.source
  rawOperation.checkSignature check publicKey chainId
  let ctxt ← ContractStorage.incrementCounter ctxt op.source
  let ctxt ← ContractStorage.spend ctxt op.source op.fee
  ctxt.addFees op.fee

def precheckManagerContentsList (ctxt : Context p) (contents : List (ManagerContents p)) : Gassed p (Context p) :=
  contents.foldlM (precheckManagerContents check chainId rawOperation) ctxt

/-- What a block does: operations on the accounts and on the storage of scripts, and batches of manager operations.
    A batch that is accepted has effects on the accounts, which are undone when one of its contents fails. -/
inductive BlockAction (p : Primitives)
  | account (action : Action p)
  | updateScriptStorage (contract : Contract p) (storage : p.Expr) (diff : Option (BigMapDiff p))
  | batch (chainId : p.ChainId) (rawOperation : Operation p) (contents : List (ManagerContents p))
      (effects : List (Action p)) (failed : Bool)

/-- The context of a chain, and the sources and counters of the contents accepted so far. -/
structure History (p : Primitives) where
  ctxt : Context p
  accepted : List (Contract p × Nat)

def History.step (s : History p) : BlockAction p → History p
  | .account action => { s with ctxt := accountingStep s.ctxt action }
  | .updateScriptStorage contract storage diff =>
    match (ContractStorage.updateScriptStorage s.ctxt contract storage diff).outcome with
    | .error _ => s
    | .ok ctxt => { s with ctxt }
  | .batch chainId rawOperation contents effects failed =>
    match (precheckManagerContentsList check chainId rawOperation s.ctxt contents).outcome with
    | .error _ => s
    | .ok ctxt =>
      { ctxt := if failed then ctxt else run accountingStep ctxt effects
        accepted := s.accepted ++ contents.map fun op => (op.source, op.counter) }

end Tezos.Protocol
