import Tezos.Protocol.Context

/-! The rolls: each delegate has a list of them, one for each `tokensPerRoll` of its stake, and the rolls of nobody
    are in a list of their own, the limbo. All the lists are linked through the table of successors. -/

namespace Tezos.Protocol
open Lib (Store Keys)

variable {p : Primitives}

/-- What the operations on the rolls read of the context. -/
structure RollEnv (p : Primitives) where
  tokensPerRoll : Tez
  preservedCycles : Nat
  currentCycle : Nat
  manager : Store (Contract p) (Manager p)

def Context.rollEnv (ctxt : Context p) : RollEnv p :=
  ⟨ctxt.constants.tokensPerRoll, ctxt.constants.preservedCycles, ctxt.level.cycle, ctxt.context.contracts.manager⟩

def delegatePubkey (env : RollEnv p) (delegate : p.PublicKeyHash) : Result p p.PublicKey :=
  match env.manager.find? (.implicit delegate) with
  | some (.publicKey pk) => .ok pk
  | _ => fail (.unregisteredDelegate delegate)

namespace Rolls

variable {α : Type}

/-- The loop of `fold`, with `count` rolls left. -/
def foldFrom (r : Rolls p) (f : Nat → p.PublicKey → α → Result p α) : Nat → Nat → α → Result p α
  | 0, _, acc => .ok acc
  | count + 1, roll, acc =>
    match r.owner.find? roll with
    | none => foldFrom r f count (roll + 1) acc
    | some delegate => do
      let acc ← f roll delegate acc
      foldFrom r f count (roll + 1) acc

variable (env : RollEnv p) (r : Rolls p) (delegate : p.PublicKeyHash)

def fold (f : Nat → p.PublicKey → α → Result p α) (init : α) : Result p α := foldFrom r f r.next 0 init

/-- The loop of `traverseRolls`. A walk that meets no roll twice makes at most one step for each successor. -/
def traverseFrom (r : Rolls p) : Nat → List Nat → Nat → Result p (List Nat)
  | 0, _, _ => .error .divergence
  | fuel + 1, acc, roll =>
    match r.successor.find? roll with
    | none => .ok acc.reverse
    | some next => traverseFrom r fuel (next :: acc) next

def traverseRolls (head : Nat) : Result p (List Nat) :=
  r.traverseFrom (r.successor.keys.length + 1) [head] head

def getRolls : Result p (List Nat) :=
  match r.delegateRollList.find? delegate with
  | none => .ok []
  | some head => r.traverseRolls head

def countFrom (r : Rolls p) : Nat → Nat → Nat → Result p Nat
  | 0, _, _ => .error .divergence
  | fuel + 1, acc, roll =>
    match r.successor.find? roll with
    | none => .ok acc
    | some next => countFrom r fuel (acc + 1) next

def countRolls : Result p Nat :=
  match r.delegateRollList.find? delegate with
  | none => .ok 0
  | some head => r.countFrom (r.successor.keys.length + 1) 1 head

def getChange : Tez := (r.delegateChange.find? delegate).getD .zero

/-! ### The rolls of a delegate -/

def freshRoll : Nat × Rolls p := (r.next, { r with next := r.next + 1 })

def getLimboRoll : Nat × Rolls p :=
  match r.limbo with
  | none =>
    let (roll, r) := r.freshRoll
    (roll, { r with limbo := some roll })
  | some roll => (roll, r)

def consumeRollChange (env : RollEnv p) (r : Rolls p) (delegate : p.PublicKeyHash) : Result p (Rolls p) := do
  let change ← getKey r.delegateChange delegate
  let newChange ← trace .consumeRollChange (ofTez (change.sub? env.tokensPerRoll))
  let delegateChange ← setKey r.delegateChange delegate newChange
  return { r with delegateChange }

def recoverRollChange : Result p (Rolls p) := do
  let change ← getKey r.delegateChange delegate
  let newChange ← change.add? env.tokensPerRoll
  let delegateChange ← setKey r.delegateChange delegate newChange
  return { r with delegateChange }

def popRollFromDelegate : Result p (Nat × Rolls p) := do
  let r ← recoverRollChange env r delegate
  let limboHead := r.limbo
  match r.delegateRollList.find? delegate with
  | none => fail .noRollForDelegate
  | some roll =>
    let owner ← deleteKey r.owner roll
    let successorRoll := r.successor.find? roll
    return (roll, { r with
      owner
      delegateRollList := r.delegateRollList.put delegate successorRoll
      successor := r.successor.put roll limboHead
      limbo := some roll })

def createRollInDelegate (delegatePk : p.PublicKey) :
    Result p (Rolls p) := do
  let r ← consumeRollChange env r delegate
  let delegateHead := r.delegateRollList.find? delegate
  let (roll, r) := r.getLimboRoll
  let owner ← initKey r.owner roll delegatePk
  let limboSuccessor := r.successor.find? roll
  return { r with
    owner
    limbo := limboSuccessor
    successor := r.successor.put roll delegateHead
    delegateRollList := r.delegateRollList.add delegate roll }

def ensureInited : Rolls p :=
  if r.delegateChange.mem delegate then r else { r with delegateChange := r.delegateChange.add delegate .zero }

def isInactive : Bool :=
  if r.inactiveDelegate.mem delegate then true
  else
    match r.delegateDesactivation.find? delegate with
    | some lastActiveCycle => lastActiveCycle < env.currentCycle
    | none => false

/-- The loop of `addAmount` and `setActive`. It ends within as many steps as there is change, if a roll is worth
    something. -/
def createRolls (env : RollEnv p) (delegate : p.PublicKeyHash) (delegatePk : p.PublicKey) :
    Nat → Rolls p → Tez → Result p (Rolls p)
  | 0, _, _ => .error .divergence
  | fuel + 1, r, change =>
    if change.mutez < env.tokensPerRoll.mutez then .ok r
    else do
      let change ← change.sub? env.tokensPerRoll
      let r ← createRollInDelegate env r delegate delegatePk
      createRolls env delegate delegatePk fuel r change

def listActive : Rolls p :=
  match r.delegateRollList.find? delegate with
  | none => r
  | some _ => { r with activeDelegatesWithRolls := r.activeDelegatesWithRolls.add delegate () }

def addAmount (amount : Tez) : Result p (Rolls p) := do
  let r := r.ensureInited delegate
  let change ← getKey r.delegateChange delegate
  let change ← amount.add? change
  let delegateChange ← setKey r.delegateChange delegate change
  let r := { r with delegateChange }
  let delegatePk ← delegatePubkey env delegate
  if r.isInactive env delegate then return r
  else
    let r ← createRolls env delegate delegatePk (change.mutez + 1) r change
    return r.listActive delegate

/-- The loop of `removeAmount`. Each step takes a roll from its owner. -/
def popRolls (env : RollEnv p) (delegate : p.PublicKeyHash) (amount : Tez) :
    Nat → Rolls p → Tez → Result p (Rolls p × Tez)
  | 0, _, _ => .error .divergence
  | fuel + 1, r, change =>
    if amount.mutez ≤ change.mutez then .ok (r, change)
    else do
      let (_, r) ← popRollFromDelegate env r delegate
      let change ← change.add? env.tokensPerRoll
      popRolls env delegate amount fuel r change

def unlistActive : Rolls p :=
  match r.delegateRollList.find? delegate with
  | none => { r with activeDelegatesWithRolls := r.activeDelegatesWithRolls.remove delegate }
  | some _ => r

/-- The rolls that have to be broken up to remove an amount. -/
def removeRolls (amount change : Tez) :
    Result p (Rolls p × Tez) :=
  if r.isInactive env delegate then .ok (r, change)
  else do
    let (r, change) ← popRolls env delegate amount (r.owner.keys.length + 1) r change
    return (r.unlistActive delegate, change)

def removeAmount (amount : Tez) : Result p (Rolls p) := do
  let change ← getKey r.delegateChange delegate
  let (r, change) ← removeRolls env r delegate amount change
  let change ← change.sub? amount
  let delegateChange ← setKey r.delegateChange delegate change
  return { r with delegateChange }

/-- The loop of `setInactive`. Each step takes a roll from its owner. -/
def popAllRolls (env : RollEnv p) (delegate : p.PublicKeyHash) : Nat → Rolls p → Tez → Result p (Rolls p × Tez)
  | 0, _, _ => .error .divergence
  | fuel + 1, r, change =>
    match r.delegateRollList.find? delegate with
    | none => .ok (r, change)
    | some _ => do
      let (_, r) ← popRollFromDelegate env r delegate
      let change ← change.add? env.tokensPerRoll
      popAllRolls env delegate fuel r change

def setInactive : Result p (Rolls p) := do
  let r := r.ensureInited delegate
  let change ← getKey r.delegateChange delegate
  let r := { r with
    inactiveDelegate := r.inactiveDelegate.add delegate ()
    activeDelegatesWithRolls := r.activeDelegatesWithRolls.remove delegate }
  let (r, change) ← popAllRolls env delegate (r.owner.keys.length + 1) r change
  let delegateChange ← setKey r.delegateChange delegate change
  return { r with delegateChange }

/-- The cycle after which a delegate that shows activity now is considered inactive. -/
def expiration : Nat :=
  match r.delegateDesactivation.find? delegate with
  | none => env.currentCycle + (1 + 2 * env.preservedCycles)
  | some currentExpiration =>
    let delay := if r.isInactive env delegate then 1 + 2 * env.preservedCycles else 1 + env.preservedCycles
    max currentExpiration (env.currentCycle + delay)

def setActive : Result p (Rolls p) := do
  let inactive := r.isInactive env delegate
  let r := { r with delegateDesactivation := r.delegateDesactivation.add delegate (r.expiration env delegate) }
  if !inactive then return r
  else
    let r := r.ensureInited delegate
    let change ← getKey r.delegateChange delegate
    let r := { r with inactiveDelegate := r.inactiveDelegate.remove delegate }
    let delegatePk ← delegatePubkey env delegate
    let r ← createRolls env delegate delegatePk (change.mutez + 1) r change
    return r.listActive delegate

def clearCycle (cycle : Nat) : Result p (Rolls p) := do
  let index ← getKey r.snapshotForCycle cycle
  let snapshotForCycle ← deleteKey r.snapshotForCycle cycle
  let lastForSnapshot ← deleteKey r.lastForSnapshot (toLex (cycle, index))
  return { r with
    snapshotForCycle, lastForSnapshot
    ownerSnapshot := r.ownerSnapshot.remove (toLex (cycle, index)) }

def snapshotRollsForCycle (cycle : Nat) : Result p (Rolls p) := do
  let index ← getKey r.snapshotForCycle cycle
  let snapshotForCycle ← setKey r.snapshotForCycle cycle (index + 1)
  -- A directory without keys does not exist, and cannot be copied.
  if r.owner.bindings.isEmpty then fail (.storage (.missingKey .copy))
  else
    let lastForSnapshot ← initKey r.lastForSnapshot (toLex (cycle, index)) r.next
    return { r with
      snapshotForCycle, lastForSnapshot
      ownerSnapshot := r.ownerSnapshot.add (toLex (cycle, index)) r.owner }

/-- The snapshots of a cycle, without the one that was selected, are dropped. -/
def dropSnapshots (cycle selectedIndex : Nat) (r : Rolls p) (index : Nat) : Result p (Rolls p) :=
  if index = selectedIndex then .ok r
  else do
    let lastForSnapshot ← deleteKey r.lastForSnapshot (toLex (cycle, index))
    return { r with lastForSnapshot, ownerSnapshot := r.ownerSnapshot.remove (toLex (cycle, index)) }

def freezeRollsForCycle (seeds : Seeds p) (cycle : Nat) : Result p (Rolls p) := do
  let maxIndex ← getKey r.snapshotForCycle cycle
  let seed ← getKey seeds.forCycle cycle
  if maxIndex = 0 then .error .exception
  else
    let selectedIndex := (p.takeInt32 (p.snapshotSequence seed) maxIndex).1
    let snapshotForCycle ← setKey r.snapshotForCycle cycle selectedIndex
    (List.range maxIndex).foldlM (dropSnapshots cycle selectedIndex) { r with snapshotForCycle }

end Rolls

def getContractDelegate (ctxt : Context p) (contract : Contract p) : Option p.PublicKeyHash :=
  ctxt.context.contracts.delegate.find? contract

namespace RollStorage
variable (ctxt : Context p)

def addAmount (delegate : p.PublicKeyHash) (amount : Tez) : Result p (Context p) := do
  let rolls ← Rolls.addAmount ctxt.rollEnv ctxt.context.rolls delegate amount
  return { ctxt with context.rolls := rolls }

def removeAmount (delegate : p.PublicKeyHash) (amount : Tez) : Result p (Context p) := do
  let rolls ← Rolls.removeAmount ctxt.rollEnv ctxt.context.rolls delegate amount
  return { ctxt with context.rolls := rolls }

def setInactive (delegate : p.PublicKeyHash) : Result p (Context p) := do
  let rolls ← Rolls.setInactive ctxt.rollEnv ctxt.context.rolls delegate
  return { ctxt with context.rolls := rolls }

def setActive (delegate : p.PublicKeyHash) : Result p (Context p) := do
  let rolls ← Rolls.setActive ctxt.rollEnv ctxt.context.rolls delegate
  return { ctxt with context.rolls := rolls }

def isInactive (delegate : p.PublicKeyHash) : Bool := ctxt.context.rolls.isInactive ctxt.rollEnv delegate

namespace Contract

def addAmount (contract : Contract p) (amount : Tez) : Result p (Context p) :=
  match getContractDelegate ctxt contract with
  | none => .ok ctxt
  | some delegate => RollStorage.addAmount ctxt delegate amount

def removeAmount (contract : Contract p) (amount : Tez) : Result p (Context p) :=
  match getContractDelegate ctxt contract with
  | none => .ok ctxt
  | some delegate => RollStorage.removeAmount ctxt delegate amount

end Contract

def snapshotRolls : Result p (Context p) := do
  let rolls ← ctxt.context.rolls.snapshotRollsForCycle (ctxt.level.cycle + (ctxt.constants.preservedCycles + 2))
  return { ctxt with context.rolls := rolls }

def cycleEnd (lastCycle : Nat) : Result p (Context p) := do
  let preserved := ctxt.constants.preservedCycles
  let rolls ←
    (match cycleSub lastCycle preserved with
    | none => .ok ctxt.context.rolls
    | some clearedCycle => ctxt.context.rolls.clearCycle clearedCycle : Result p (Rolls p))
  let frozenRollCycle := lastCycle + (preserved + 1)
  let rolls ← rolls.freezeRollsForCycle ctxt.context.seeds frozenRollCycle
  let snapshotForCycle ← initKey rolls.snapshotForCycle (frozenRollCycle + 2) 0
  return { ctxt with context.rolls := { rolls with snapshotForCycle } }

end RollStorage

end Tezos.Protocol
