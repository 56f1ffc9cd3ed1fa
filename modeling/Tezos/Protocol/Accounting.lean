import Tezos.Protocol.ContractStorage

/-! The operations that blocks do on the contracts and the delegates, one after the other. The bootstrap accounts and
    contracts are made by the same operations, from an empty storage. -/

namespace Tezos.Protocol

inductive Action (p : Primitives)
  | credit (contract : Contract p) (amount : Tez)
  | spend (contract : Contract p) (amount : Tez)
  | spendFromScript (contract : Contract p) (amount : Tez)
  | originate (prepaidBootstrapStorage : Bool) (hash : p.ContractHash) (balance : Tez) (manager : p.PublicKeyHash)
      (delegate : Option p.PublicKeyHash) (script : Option (Script p × Option (BigMapDiff p)))
      (spendable delegatable : Bool)
  | setDelegate (contract : Contract p) (delegate : Option p.PublicKeyHash)
  | setDelegateFromScript (hash : p.ContractHash) (delegate : Option p.PublicKeyHash)
  | reveal (contract : Contract p) (publicKey : p.PublicKey)
  | freezeDeposit (delegate : p.PublicKeyHash) (amount : Tez)
  | freezeFees (delegate : p.PublicKeyHash) (amount : Tez)
  | freezeRewards (delegate : p.PublicKeyHash) (amount : Tez)
  | burnFees (delegate : p.PublicKeyHash) (cycle : Nat) (amount : Tez)
  | burnRewards (delegate : p.PublicKeyHash) (cycle : Nat) (amount : Tez)
  | unfreeze (delegate : p.PublicKeyHash) (cycle : Nat)
  | punish (delegate : p.PublicKeyHash) (cycle : Nat)
  | setActive (delegate : p.PublicKeyHash)
  | setInactive (delegate : p.PublicKeyHash)
  | snapshotRolls
  | rollCycleEnd (lastCycle : Nat)
  /-- The last block of a cycle ends it, and the next block has the given level. -/
  | cycleEnd (unrevealed : List (UnrevealedNonce p)) (level : Level)
  | nextLevel (level : Level)
  | setGas (gas : Gas)

variable {p : Primitives}

def perform (ctxt : Context p) : Action p → Result p (Context p)
  | .credit contract amount => (ContractStorage.credit ctxt contract amount).outcome
  | .spend contract amount => (ContractStorage.spend ctxt contract amount).outcome
  | .spendFromScript contract amount => (ContractStorage.spendFromScript ctxt contract amount).outcome
  | .originate prepaid hash balance manager delegate script spendable delegatable =>
    (ContractStorage.createBase ctxt prepaid (.originated hash) balance manager delegate script spendable
      delegatable).outcome
  | .setDelegate contract delegate => DelegateStorage.set ctxt contract delegate
  | .setDelegateFromScript hash delegate => DelegateStorage.setFromScript ctxt (.originated hash) delegate
  | .reveal contract publicKey => ContractStorage.revealManagerKey ctxt contract publicKey
  | .freezeDeposit delegate amount => DelegateStorage.freezeDeposit ctxt delegate amount
  | .freezeFees delegate amount => DelegateStorage.freezeFees ctxt delegate amount
  | .freezeRewards delegate amount => DelegateStorage.freezeRewards ctxt delegate amount
  | .burnFees delegate cycle amount => DelegateStorage.burnFees ctxt delegate cycle amount
  | .burnRewards delegate cycle amount => .ok (DelegateStorage.burnRewards ctxt delegate cycle amount)
  | .unfreeze delegate cycle => do
    let (ctxt, _) ← DelegateStorage.unfreeze ctxt delegate cycle
    return ctxt
  | .punish delegate cycle => do
    let (ctxt, _) ← DelegateStorage.punish ctxt delegate cycle
    return ctxt
  | .setActive delegate => RollStorage.setActive ctxt delegate
  | .setInactive delegate => RollStorage.setInactive ctxt delegate
  | .snapshotRolls => RollStorage.snapshotRolls ctxt
  | .rollCycleEnd lastCycle => RollStorage.cycleEnd ctxt lastCycle
  | .cycleEnd unrevealed level => do
    let (ctxt, _, _) ← DelegateStorage.cycleEnd ctxt ctxt.level.cycle unrevealed
    return { ctxt with level := level }
  | .nextLevel level => .ok { ctxt with level := level }
  | .setGas gas => .ok { ctxt with operationGas := gas }

/-- An operation that fails changes nothing. -/
def accountingStep (ctxt : Context p) (action : Action p) : Context p :=
  match perform ctxt action with
  | .ok ctxt => ctxt
  | .error _ => ctxt

/-- Deposits, fees and rewards are frozen for a registered delegate, or for the owner of a roll in a snapshot. -/
def Entitled (ctxt : Context p) (d : p.PublicKeyHash) : Prop :=
  DelegateStorage.registered ctxt d = true ∨ ∃ snapshot owners roll pk,
    ctxt.context.rolls.ownerSnapshot.find? snapshot = some owners ∧ owners.find? roll = some pk ∧ p.hash pk = d

/-- What the blocks promise: who bakes or endorses has the right to, and a cycle ends before the next one begins. -/
def Action.Promised (ctxt : Context p) : Action p → Prop
  | freezeDeposit delegate _ | freezeFees delegate _ | freezeRewards delegate _ => Entitled ctxt delegate
  | cycleEnd _ level => level.cycle = ctxt.level.cycle + 1
  | nextLevel level => level.cycle = ctxt.level.cycle
  | _ => True

end Tezos.Protocol
