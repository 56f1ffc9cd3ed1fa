import Tezos.Protocol.RollStorage

/-! The delegates: who delegates to whom, and the deposits, fees and rewards that are frozen for some cycles. -/

namespace Tezos.Protocol
open Lib (Store Keys)

variable {p : Primitives}

inductive Balance (p : Primitives)
  | contract (contract : Contract p)
  | rewards (delegate : p.PublicKeyHash) (cycle : Nat)
  | fees (delegate : p.PublicKeyHash) (cycle : Nat)
  | deposits (delegate : p.PublicKeyHash) (cycle : Nat)

inductive BalanceUpdate
  | debited (amount : Tez)
  | credited (amount : Tez)
deriving DecidableEq

def BalanceUpdate.amount : BalanceUpdate → Tez
  | debited amount => amount
  | credited amount => amount

abbrev BalanceUpdates (p : Primitives) := List (Balance p × BalanceUpdate)

def cleanupBalanceUpdates (updates : BalanceUpdates p) : BalanceUpdates p :=
  updates.filter fun update => update.2.amount ≠ .zero

structure FrozenBalance where
  deposit : Tez
  fees : Tez
  rewards : Tez

namespace DelegateStorage
variable (ctxt : Context p) (contract : Contract p) (delegate : p.PublicKeyHash) (cycle : Nat) (amount : Tez)

def isDelegatable : Bool :=
  match contract.isImplicit with
  | some _ => false
  | none => ctxt.context.contracts.delegatable.mem contract

def link (balance : Tez) : Result p (Context p) := do
  let ctxt ← RollStorage.addAmount ctxt delegate balance
  match contract.isOriginated with
  | none => return ctxt
  | some hash =>
    return { ctxt with
      context.contracts.delegated := ctxt.context.contracts.delegated.add (toLex (delegate, hash)) () }

def unlink (balance : Tez) : Result p (Context p) :=
  match ctxt.context.contracts.delegate.find? contract with
  | none => .ok ctxt
  | some delegate => do
    let ctxt ← RollStorage.removeAmount ctxt delegate balance
    match contract.isOriginated with
    | none => return ctxt
    | some hash =>
      return { ctxt with
        context.contracts.delegated := ctxt.context.contracts.delegated.remove (toLex (delegate, hash)) }

def known : Bool :=
  match ctxt.context.contracts.manager.find? (.implicit delegate) with
  | some (.publicKey _) => true
  | _ => false

/-- A delegate is registered if its implicit account delegates to itself. -/
def registered : Bool := ctxt.context.contracts.delegate.mem (.implicit delegate)

def init : Result p (Context p) := do
  failUnless (known ctxt delegate) (.unregisteredDelegate delegate)
  failUnless (registered ctxt delegate) (.unregisteredDelegate delegate)
  let delegates ← initKey ctxt.context.contracts.delegate contract delegate
  let ctxt := { ctxt with context.contracts.delegate := delegates }
  let balance ← getKey ctxt.context.contracts.balance contract
  link ctxt contract delegate balance

def isSelfDelegation : Bool :=
  contract.isImplicit = some delegate

/-- A contract may not take the delegate it has, unless it is a delegate that became inactive. -/
def checkDelegateChange : Result p Unit :=
  if ctxt.context.contracts.delegate.find? contract = some delegate then
    if isSelfDelegation contract delegate then
      if RollStorage.isInactive ctxt delegate then .ok () else fail .activeDelegate
    else fail .currentDelegate
  else .ok ()

def setBase (delegatable : Context p → Contract p → Bool) (contract : Contract p)
    (delegate : Option p.PublicKeyHash) : Result p (Context p) :=
  match delegate with
  | none =>
    match contract.isImplicit with
    | some pkh => fail (.noDeletion pkh)
    | none =>
      if delegatable ctxt contract then do
        let balance ← getKey ctxt.context.contracts.balance contract
        let ctxt ← unlink ctxt contract balance
        return { ctxt with context.contracts.delegate := ctxt.context.contracts.delegate.remove contract }
      else fail (.nonDelegatableContract contract)
  | some delegate =>
    let selfDelegation := isSelfDelegation contract delegate
    if !known ctxt delegate || !(registered ctxt delegate || selfDelegation) then
      fail (.unregisteredDelegate delegate)
    else if !(delegatable ctxt contract || selfDelegation) then fail (.nonDelegatableContract contract)
    else do
      checkDelegateChange ctxt contract delegate
      failUnless (!(selfDelegation && !ctxt.context.contracts.balance.mem contract)) (.emptyDelegateAccount delegate)
      let balance ← getKey ctxt.context.contracts.balance contract
      let ctxt ← unlink ctxt contract balance
      let ctxt := { ctxt with context.contracts.delegate := ctxt.context.contracts.delegate.add contract delegate }
      let ctxt ← link ctxt contract delegate balance
      if selfDelegation then
        let ctxt := { ctxt with context.delegates := ctxt.context.delegates.add delegate () }
        RollStorage.setActive ctxt delegate
      else return ctxt

def set (delegate : Option p.PublicKeyHash) : Result p (Context p) :=
  setBase ctxt isDelegatable contract delegate

def setFromScript (delegate : Option p.PublicKeyHash) : Result p (Context p) :=
  setBase ctxt (fun _ _ => true) contract delegate

def remove : Result p (Context p) := do
  let balance ← getKey ctxt.context.contracts.balance contract
  unlink ctxt contract balance

/-! ### Frozen amounts -/

def getFrozen (amounts : Store (p.PublicKeyHash ×ₗ Nat) Tez) (delegate : p.PublicKeyHash) (cycle : Nat) : Tez :=
  (amounts.find? (toLex (delegate, cycle))).getD .zero

def getFrozenDeposit : Tez :=
  getFrozen ctxt.context.frozen.deposits delegate cycle

def getFrozenFees : Tez := getFrozen ctxt.context.frozen.fees delegate cycle

def getFrozenRewards : Tez :=
  getFrozen ctxt.context.frozen.rewards delegate cycle

def creditFrozen (amounts : Store (p.PublicKeyHash ×ₗ Nat) Tez) (delegate : p.PublicKeyHash) (cycle : Nat)
    (amount : Tez) : Result p (Store (p.PublicKeyHash ×ₗ Nat) Tez) := do
  let newAmount ← (getFrozen amounts delegate cycle).add? amount
  return amounts.add (toLex (delegate, cycle)) newAmount

def noteFrozen : Keys (Nat ×ₗ p.PublicKeyHash) :=
  ctxt.context.frozen.delegatesWithFrozenBalance.add (toLex (cycle, delegate)) ()

def creditFrozenDeposit : Result p (Context p) := do
  let deposits ← creditFrozen ctxt.context.frozen.deposits delegate cycle amount
  return { ctxt with
    context.frozen.deposits := deposits
    context.frozen.delegatesWithFrozenBalance := noteFrozen ctxt delegate cycle }

def creditFrozenFees : Result p (Context p) := do
  let fees ← creditFrozen ctxt.context.frozen.fees delegate cycle amount
  return { ctxt with
    context.frozen.fees := fees
    context.frozen.delegatesWithFrozenBalance := noteFrozen ctxt delegate cycle }

def creditFrozenRewards : Result p (Context p) := do
  let rewards ← creditFrozen ctxt.context.frozen.rewards delegate cycle amount
  return { ctxt with
    context.frozen.rewards := rewards
    context.frozen.delegatesWithFrozenBalance := noteFrozen ctxt delegate cycle }

def freezeDeposit : Result p (Context p) := do
  let cycle := ctxt.level.cycle
  let ctxt ← RollStorage.setActive ctxt delegate
  let balance ← getKey ctxt.context.contracts.balance (.implicit delegate)
  let newBalance ← trace (.balanceTooLowForDeposit delegate amount balance) (ofTez (balance.sub? amount))
  let balances ← setKey ctxt.context.contracts.balance (.implicit delegate) newBalance
  creditFrozenDeposit { ctxt with context.contracts.balance := balances } delegate cycle amount

def freezeFees : Result p (Context p) := do
  let cycle := ctxt.level.cycle
  let ctxt ← RollStorage.addAmount ctxt delegate amount
  creditFrozenFees ctxt delegate cycle amount

/-- What is left of an amount when another one, or all there is, is taken from it. -/
def burn (oldAmount amount : Tez) : Tez :=
  match oldAmount.sub? amount with
  | .ok newAmount => newAmount
  | .error _ => .zero

def burnFees : Result p (Context p) := do
  let oldAmount := getFrozenFees ctxt delegate cycle
  let newAmount := burn oldAmount amount
  let removed :=
    match oldAmount.sub? amount with
    | .ok _ => amount
    | .error _ => oldAmount
  let ctxt ← RollStorage.removeAmount ctxt delegate removed
  return { ctxt with context.frozen.fees := ctxt.context.frozen.fees.add (toLex (delegate, cycle)) newAmount }

def freezeRewards : Result p (Context p) :=
  creditFrozenRewards ctxt delegate ctxt.level.cycle amount

def burnRewards : Context p :=
  let newAmount := burn (getFrozenRewards ctxt delegate cycle) amount
  { ctxt with context.frozen.rewards := ctxt.context.frozen.rewards.add (toLex (delegate, cycle)) newAmount }

/-- The amounts that a delegate has frozen for a cycle are forgotten. -/
def clearFrozen : Context p :=
  { ctxt with
    context.frozen.deposits := ctxt.context.frozen.deposits.remove (toLex (delegate, cycle))
    context.frozen.fees := ctxt.context.frozen.fees.remove (toLex (delegate, cycle))
    context.frozen.rewards := ctxt.context.frozen.rewards.remove (toLex (delegate, cycle)) }

def unfreeze : Result p (Context p × BalanceUpdates p) := do
  let deposit := getFrozenDeposit ctxt delegate cycle
  let fees := getFrozenFees ctxt delegate cycle
  let rewards := getFrozenRewards ctxt delegate cycle
  let balance ← getKey ctxt.context.contracts.balance (.implicit delegate)
  let unfrozenAmount ← deposit.add? fees
  let unfrozenAmount ← unfrozenAmount.add? rewards
  let balance ← balance.add? unfrozenAmount
  let balances ← setKey ctxt.context.contracts.balance (.implicit delegate) balance
  let ctxt := { ctxt with context.contracts.balance := balances }
  let ctxt ← RollStorage.addAmount ctxt delegate rewards
  return (clearFrozen ctxt delegate cycle, cleanupBalanceUpdates
    [(.deposits delegate cycle, .debited deposit),
      (.fees delegate cycle, .debited fees),
      (.rewards delegate cycle, .debited rewards),
      (.contract (.implicit delegate), .credited unfrozenAmount)])

/-- The fees and the rewards of a block whose nonce was not revealed are burned. -/
def burnUnrevealed (revealedCycle : Nat) (acc : Context p × BalanceUpdates p) (u : UnrevealedNonce p) :
    Result p (Context p × BalanceUpdates p) := do
  let ctxt ← burnFees acc.1 u.delegate revealedCycle u.fees
  return (burnRewards ctxt u.delegate revealedCycle u.rewards,
    [(.fees u.delegate revealedCycle, .debited u.fees),
      (.rewards u.delegate revealedCycle, .debited u.rewards)] ++ acc.2)

def unfreezeOne (unfrozenCycle : Nat) (acc : Context p × BalanceUpdates p) (delegate : p.PublicKeyHash) :
    Result p (Context p × BalanceUpdates p) := do
  let (ctxt, updates) ← unfreeze acc.1 delegate unfrozenCycle
  return (ctxt, updates ++ acc.2)

def deactivateOne (lastCycle : Nat) (acc : Context p × List p.PublicKeyHash) (delegate : p.PublicKeyHash) :
    Result p (Context p × List p.PublicKeyHash) := do
  let cycle ← getKey acc.1.context.rolls.delegateDesactivation delegate
  if cycle ≤ lastCycle then
    let ctxt ← RollStorage.setInactive acc.1 delegate
    return (ctxt, delegate :: acc.2)
  else return acc

def frozenDelegates : List p.PublicKeyHash :=
  (ctxt.context.frozen.delegatesWithFrozenBalance.keys.filter fun key => (ofLex key).1 = cycle).map
    fun key => (ofLex key).2

def clearFrozenDelegates : Context p :=
  { ctxt with
    context.frozen.delegatesWithFrozenBalance :=
      ctxt.context.frozen.delegatesWithFrozenBalance.filter fun key => (ofLex key).1 ≠ cycle }

def cycleEnd (lastCycle : Nat) (unrevealed : List (UnrevealedNonce p)) :
    Result p (Context p × BalanceUpdates p × List p.PublicKeyHash) := do
  let (ctxt, updates) ←
    (match cyclePred lastCycle with
    | none => .ok (ctxt, [])
    | some revealedCycle => unrevealed.foldlM (burnUnrevealed revealedCycle) (ctxt, []) :
      Result p (Context p × BalanceUpdates p))
  match cycleSub lastCycle ctxt.constants.preservedCycles with
  | none => return (ctxt, updates, [])
  | some unfrozenCycle =>
    let (ctxt, updates) ← (frozenDelegates ctxt unfrozenCycle).foldlM (unfreezeOne unfrozenCycle) (ctxt, updates)
    let ctxt := clearFrozenDelegates ctxt unfrozenCycle
    let (ctxt, deactivated) ←
      ctxt.context.rolls.activeDelegatesWithRolls.keys.foldlM (deactivateOne lastCycle) (ctxt, [])
    return (ctxt, updates, deactivated)

def punish : Result p (Context p × FrozenBalance) := do
  let deposit := getFrozenDeposit ctxt delegate cycle
  let fees := getFrozenFees ctxt delegate cycle
  let rewards := getFrozenRewards ctxt delegate cycle
  let ctxt ← RollStorage.removeAmount ctxt delegate deposit
  let ctxt ← RollStorage.removeAmount ctxt delegate fees
  return (clearFrozen ctxt delegate cycle, ⟨deposit, fees, rewards⟩)

def stakingBalance : Result p Tez := do
  let rolls ← ctxt.context.rolls.getRolls delegate
  let change := ctxt.context.rolls.getChange delegate
  let balance ← ctxt.constants.tokensPerRoll.mul? rolls.length
  balance.add? change

/-- The amounts that a delegate has frozen for all cycles are added up. -/
def addFrozen (amounts : Store (p.PublicKeyHash ×ₗ Nat) Tez) (delegate : p.PublicKeyHash) (init : Tez) : Result p Tez :=
  (amounts.bindings.filter fun binding => (ofLex binding.1).1 = delegate).foldlM
    (fun acc binding => ofTez (acc.add? binding.2)) init

def delegatedBalance : Result p Tez := do
  let stakingBalance ← stakingBalance ctxt delegate
  let selfStakingBalance ← getKey ctxt.context.contracts.balance (.implicit delegate)
  let selfStakingBalance ← addFrozen ctxt.context.frozen.deposits delegate selfStakingBalance
  let selfStakingBalance ← addFrozen ctxt.context.frozen.fees delegate selfStakingBalance
  stakingBalance.sub? selfStakingBalance

end DelegateStorage

end Tezos.Protocol
