import Tezos.Protocol.DelegateStorage

/-! The contracts: their creation and deletion, their balances, counters, keys and scripts. -/

namespace Tezos.Protocol
open Lib (Store Keys Metered)

variable {p : Primitives}

structure BigMapDiffItem (p : Primitives) where
  diffKey : p.Expr
  diffKeyHash : p.ExprHash
  diffValue : Option p.Expr

abbrev BigMapDiff (p : Primitives) := List (BigMapDiffItem p)

namespace Carbonated
variable (ctxt : Context p)

def consumeMemGas : Gassed p (Context p) := ctxt.consumeGas (Cost.readBytes 0)

def consumeWriteGas (length : Nat) : Gassed p (Context p) := do
  let ctxt ← ctxt.consumeGas (Cost.allocMbytes length)
  ctxt.consumeGas (Cost.writeBytes length)

def consumeRemoveGas : Gassed p (Context p) := ctxt.consumeGas (Cost.writeBytes 0)

/-- The size of what the store keeps: an encoded expression, after the length of it. -/
def storedLength (encoded : List UInt8) : Nat := 4 + encoded.length

def existingSize (s : Store (Contract p) (List UInt8)) (contract : Contract p) : Nat :=
  ((s.find? contract).map storedLength).getD 0

def forceDecode (lexpr : LazyExpr p) : Gassed p (p.Expr × Context p) :=
  match lexpr.forceDecode with
  | none => liftM (fail .lazyScriptDecode : Result p _)
  | some (expr, cost) => do
    let ctxt ← ctxt.consumeGas cost
    return (expr, ctxt)

def consumeSerializeGas (lexpr : LazyExpr p) : Gassed p (Context p) := ctxt.consumeGas lexpr.forceBytes.2

def mem (s : Store (Contract p) (List UInt8)) (contract : Contract p) : Gassed p (Context p × Bool) := do
  let ctxt ← consumeMemGas ctxt
  return (ctxt, s.mem contract)

end Carbonated

namespace ContractStorage
variable (ctxt : Context p) (contract : Contract p)

def initCode (code : LazyExpr p) : Gassed p (Context p × Nat) := do
  let ctxt ← Carbonated.consumeSerializeGas ctxt code
  let ctxt ← Carbonated.consumeWriteGas ctxt code.length
  let codes ← (initKey ctxt.context.contracts.code contract code.forceBytes.1 : Result p _)
  return ({ ctxt with context.contracts.code := codes }, code.length)

def initStorage (storage : LazyExpr p) : Gassed p (Context p × Nat) := do
  let ctxt ← Carbonated.consumeSerializeGas ctxt storage
  let ctxt ← Carbonated.consumeWriteGas ctxt storage.length
  let storages ← (initKey ctxt.context.contracts.storage contract storage.forceBytes.1 : Result p _)
  return ({ ctxt with context.contracts.storage := storages }, storage.length)

def setStorage (storage : LazyExpr p) : Gassed p (Context p × Int) := do
  let ctxt ← Carbonated.consumeSerializeGas ctxt storage
  let previous := Carbonated.existingSize ctxt.context.contracts.storage contract
  let ctxt ← Carbonated.consumeWriteGas ctxt storage.length
  let storages ← (setKey ctxt.context.contracts.storage contract storage.forceBytes.1 : Result p _)
  return ({ ctxt with context.contracts.storage := storages }, storage.length - previous)

def removeCode : Gassed p (Context p) := do
  let ctxt ← Carbonated.consumeRemoveGas ctxt
  return { ctxt with context.contracts.code := ctxt.context.contracts.code.remove contract }

def removeStorage : Gassed p (Context p) := do
  let ctxt ← Carbonated.consumeRemoveGas ctxt
  return { ctxt with context.contracts.storage := ctxt.context.contracts.storage.remove contract }

def bigMapSize (key : p.ExprHash) : Nat :=
  ((ctxt.context.contracts.bigMap.find? (toLex (contract, key))).map fun value => (p.encode value).length).getD 0

/-- One item of a diff is applied; the sizes freed and taken are added up. -/
def updateBigMapItem (acc : Context p × Int) (item : BigMapDiffItem p) :
    Gassed p (Context p × Int) := do
  let (ctxt, total) := acc
  let previous := bigMapSize ctxt contract item.diffKeyHash
  let key := toLex (contract, item.diffKeyHash)
  match item.diffValue with
  | none =>
    let ctxt ← Carbonated.consumeRemoveGas ctxt
    return ({ ctxt with context.contracts.bigMap := ctxt.context.contracts.bigMap.remove key }, total - previous)
  | some value =>
    let length := (p.encode value).length
    let ctxt ← Carbonated.consumeWriteGas ctxt length
    return ({ ctxt with context.contracts.bigMap := ctxt.context.contracts.bigMap.add key value },
      total + (length - previous))

def updateScriptBigMap : Option (BigMapDiff p) → Gassed p (Context p × Int)
  | none => return (ctxt, 0)
  | some diff => diff.foldlM (updateBigMapItem contract) (ctxt, 0)

/-- The last part of `createBase`: the script, and the space it takes. -/
def createScript (prepaidBootstrapStorage : Bool) (contract : Contract p)
    (script : Option (Script p × Option (BigMapDiff p))) : Gassed p (Context p) := do
  match script with
  | some (script, bigMapDiff) =>
    let (ctxt, codeSize) ← initCode ctxt contract script.code
    let (ctxt, storageSize) ← initStorage ctxt contract script.storage
    let (ctxt, bigMapSize) ← updateScriptBigMap ctxt contract bigMapDiff
    let totalSize := (codeSize + storageSize : Int) + bigMapSize
    if totalSize < 0 then liftM (.error .exception : Result p (Context p))
    else
      let prepaid := if prepaidBootstrapStorage then totalSize else 0
      let paid ← (initKey ctxt.context.contracts.paidStorageSpace contract prepaid : Result p _)
      let used ← (initKey ctxt.context.contracts.usedStorageSpace contract totalSize : Result p _)
      return { ctxt with context.contracts.paidStorageSpace := paid, context.contracts.usedStorageSpace := used }
  | none =>
    match contract.isImplicit with
    | some _ => return ctxt
    | none =>
      let paid ← (initKey ctxt.context.contracts.paidStorageSpace contract 0 : Result p _)
      let used ← (initKey ctxt.context.contracts.usedStorageSpace contract 0 : Result p _)
      return { ctxt with context.contracts.paidStorageSpace := paid, context.contracts.usedStorageSpace := used }

def initDelegate : Option p.PublicKeyHash → Result p (Context p)
  | none => .ok ctxt
  | some delegate => DelegateStorage.init ctxt contract delegate

def initialCounter : Nat :=
  match contract.isImplicit with
  | none => 0
  | some _ => ctxt.context.contracts.globalCounter

def createBase (prepaidBootstrapStorage : Bool) (contract : Contract p) (balance : Tez) (manager : p.PublicKeyHash)
    (delegate : Option p.PublicKeyHash) (script : Option (Script p × Option (BigMapDiff p)))
    (spendable delegatable : Bool) : Gassed p (Context p) := do
  let counter := initialCounter ctxt contract
  let balances ← (initKey ctxt.context.contracts.balance contract balance : Result p _)
  let managers ← (initKey ctxt.context.contracts.manager contract (.hash manager) : Result p _)
  let ctxt := { ctxt with context.contracts.balance := balances, context.contracts.manager := managers }
  let ctxt ← initDelegate ctxt contract delegate
  let counters ← (initKey ctxt.context.contracts.counter contract counter : Result p _)
  let ctxt := { ctxt with
    context.contracts.spendable := switchKey ctxt.context.contracts.spendable contract spendable
    context.contracts.delegatable := switchKey ctxt.context.contracts.delegatable contract delegatable
    context.contracts.counter := counters }
  createScript ctxt prepaidBootstrapStorage contract script

def createImplicit (manager : p.PublicKeyHash) (balance : Tez) : Gassed p (Context p) :=
  createBase ctxt false (.implicit manager) balance manager none none true false

def delete : Gassed p (Context p) := do
  match contract.isImplicit with
  | none => liftM (fail (.failure "Non implicit contracts cannot be removed") : Result p (Context p))
  | some _ =>
    let ctxt ← DelegateStorage.remove ctxt contract
    let balances ← (deleteKey ctxt.context.contracts.balance contract : Result p _)
    let managers ← (deleteKey ctxt.context.contracts.manager contract : Result p _)
    let counters ← (deleteKey ctxt.context.contracts.counter contract : Result p _)
    let ctxt := { ctxt with
      context.contracts.balance := balances
      context.contracts.manager := managers
      context.contracts.spendable := ctxt.context.contracts.spendable.remove contract
      context.contracts.delegatable := ctxt.context.contracts.delegatable.remove contract
      context.contracts.counter := counters }
    let ctxt ← removeCode ctxt contract
    let ctxt ← removeStorage ctxt contract
    return { ctxt with
      context.contracts.paidStorageSpace := ctxt.context.contracts.paidStorageSpace.remove contract
      context.contracts.usedStorageSpace := ctxt.context.contracts.usedStorageSpace.remove contract }

def allocated : Bool := ctxt.context.contracts.counter.mem contract

def mustBeAllocated : Result p Unit :=
  if allocated ctxt contract then .ok ()
  else
    match contract.isImplicit with
    | some pkh => fail (.emptyImplicitContract pkh)
    | none => fail (.nonExistingContract contract)

def checkCounterIncrement (counter : Nat) : Result p Unit := do
  let contractCounter ← getKey ctxt.context.contracts.counter contract
  let expected := contractCounter + 1
  if expected = counter then return ()
  else if expected > counter then fail (.counterInThePast contract expected counter)
  else fail (.counterInTheFuture contract expected counter)

def incrementCounter : Result p (Context p) := do
  let contractCounter ← getKey ctxt.context.contracts.counter contract
  let counters ← setKey ctxt.context.contracts.counter contract (contractCounter + 1)
  return { ctxt with
    context.contracts.globalCounter := ctxt.context.contracts.globalCounter + 1
    context.contracts.counter := counters }

def getManagerKey : Result p p.PublicKey :=
  match ctxt.context.contracts.manager.find? contract with
  | none => fail (.failure "get_manager_key")
  | some (.hash _) => fail (.unrevealedManagerKey contract)
  | some (.publicKey key) => .ok key

def revealManagerKey (publicKey : p.PublicKey) : Result p (Context p) := do
  match ← getKey ctxt.context.contracts.manager contract with
  | .publicKey _ => fail (.previouslyRevealedKey contract)
  | .hash expected =>
    let actual := p.hash publicKey
    if actual = expected then
      let managers ← setKey ctxt.context.contracts.manager contract (.publicKey publicKey)
      return { ctxt with context.contracts.manager := managers }
    else fail (.inconsistentHash publicKey expected actual)

def updateScriptStorage (storage : p.Expr) (bigMapDiff : Option (BigMapDiff p)) :
    Gassed p (Context p) := do
  let (ctxt, bigMapSizeDiff) ← updateScriptBigMap ctxt contract bigMapDiff
  let (ctxt, sizeDiff) ← setStorage ctxt contract (.value storage)
  let previousSize ← (getKey ctxt.context.contracts.usedStorageSpace contract : Result p _)
  let newSize := previousSize + (bigMapSizeDiff + sizeDiff)
  let used ← (setKey ctxt.context.contracts.usedStorageSpace contract newSize : Result p _)
  return { ctxt with context.contracts.usedStorageSpace := used }

def isSpendable : Bool :=
  match contract.isImplicit with
  | some _ => true
  | none => ctxt.context.contracts.spendable.mem contract

/-- The last part of `spendFromScript`: an implicit contract that was emptied is deleted, unless it is a delegate. -/
def deleteIfEmpty (newBalance : Tez) : Gassed p (Context p) := do
  if 0 < newBalance.mutez then return ctxt
  else
    match contract.isImplicit with
    | none => return ctxt
    | some pkh =>
      match getContractDelegate ctxt contract with
      | some pkh' => if pkh = pkh' then return ctxt else liftM (.error .exception : Result p (Context p))
      | none => delete ctxt contract

def spendFromScript (amount : Tez) : Gassed p (Context p) := do
  let balance ← (getKey ctxt.context.contracts.balance contract : Result p _)
  match balance.sub? amount with
  | .error _ => liftM (fail (.balanceTooLow contract balance amount) : Result p (Context p))
  | .ok newBalance =>
    let balances ← (setKey ctxt.context.contracts.balance contract newBalance : Result p _)
    let ctxt := { ctxt with context.contracts.balance := balances }
    let ctxt ← RollStorage.Contract.removeAmount ctxt contract amount
    deleteIfEmpty ctxt contract newBalance

/-- A transaction of nothing is only for contracts with a script. -/
def checkEmptyTransaction (amount : Tez) : Gassed p (Context p) := do
  if amount ≠ .zero then return ctxt
  else
    let (ctxt, targetHasCode) ← Carbonated.mem ctxt ctxt.context.contracts.code contract
    failUnless targetHasCode (.emptyTransaction contract)
    return ctxt

def credit (amount : Tez) : Gassed p (Context p) := do
  let ctxt ← checkEmptyTransaction ctxt contract amount
  match ctxt.context.contracts.balance.find? contract with
  | none =>
    match contract.isImplicit with
    | none => liftM (fail (.nonExistingContract contract) : Result p (Context p))
    | some manager => createImplicit ctxt manager amount
  | some balance =>
    let balance ← (liftM (amount.add? balance) : Result p _)
    let balances ← (setKey ctxt.context.contracts.balance contract balance : Result p _)
    RollStorage.Contract.addAmount { ctxt with context.contracts.balance := balances } contract amount

def spend (amount : Tez) : Gassed p (Context p) :=
  if isSpendable ctxt contract then spendFromScript ctxt contract amount
  else liftM (fail (.unspendableContract contract) : Result p (Context p))

end ContractStorage

end Tezos.Protocol
