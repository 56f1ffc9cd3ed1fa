import Mathlib.Data.Sum.Order
import Tezos.Protocol.Tez

/-! Gas: the cost of an elementary action, and what the operation and the block have left. What the protocol takes from
    its environment: identifiers, hashes, keys, random draws and the syntax of scripts. -/

namespace Tezos.Protocol

structure Cost where
  allocations : Nat
  steps : Nat
  reads : Nat
  writes : Nat
  bytesRead : Nat
  bytesWritten : Nat
deriving DecidableEq

namespace Cost

def allocationWeight : Nat := 2

def stepWeight : Nat := 1

def readBaseWeight : Nat := 100

def writeBaseWeight : Nat := 160

def byteReadWeight : Nat := 10

def byteWrittenWeight : Nat := 15

def weighted (cost : Cost) : Nat :=
  (allocationWeight * cost.allocations + stepWeight * cost.steps) +
    ((readBaseWeight * cost.reads + writeBaseWeight * cost.writes) +
      (byteReadWeight * cost.bytesRead + byteWrittenWeight * cost.bytesWritten))

def free : Cost := ⟨0, 0, 0, 0, 0, 0⟩

variable (n : Nat)

def alloc : Cost := { free with allocations := n + 1 }

def allocBytes : Cost := alloc ((n + 7) / 8)

def step : Cost := { free with steps := n }

def readBytes : Cost := { free with reads := 1, bytesRead := n }

def writeBytes : Cost := { free with writes := 1, bytesWritten := n }

def add (x y : Cost) : Cost :=
  ⟨x.allocations + y.allocations, x.steps + y.steps, x.reads + y.reads, x.writes + y.writes,
    x.bytesRead + y.bytesRead, x.bytesWritten + y.bytesWritten⟩

def mul (y : Cost) : Cost :=
  ⟨n * y.allocations, n * y.steps, n * y.reads, n * y.writes, n * y.bytesRead, n * y.bytesWritten⟩

def allocMbytes : Cost := (alloc 12).add (allocBytes n)

end Cost

inductive Gas
  | unaccounted
  | limited (remaining : Int)
deriving DecidableEq

inductive Gas.Error
  | operationQuotaExceeded
  | blockQuotaExceeded
deriving DecidableEq

/-- The gas left to the block and to the operation once a cost is paid. -/
def Gas.consume (blockGas : Int) (operationGas : Gas) (cost : Cost) : Except Gas.Error (Int × Gas) :=
  match operationGas with
  | .unaccounted => .ok (blockGas, .unaccounted)
  | .limited remaining =>
    let remaining := remaining - cost.weighted
    let blockRemaining := blockGas - cost.weighted
    if remaining < 0 then .error .operationQuotaExceeded
    else if blockRemaining < 0 then .error .blockQuotaExceeded
    else .ok (blockRemaining, .limited remaining)

/-- What a payment takes: nothing when the gas is not accounted for. -/
def Gas.charge (operationGas : Gas) (cost : Cost) : Nat :=
  match operationGas with
  | .unaccounted => 0
  | .limited _ => cost.weighted

inductive Use
  | baking
  | endorsement
deriving DecidableEq

structure Primitives where
  PublicKeyHash : Type
  PublicKey : Type
  Signature : Type
  ContractHash : Type
  BlockHash : Type
  ChainId : Type
  ProtocolHash : Type
  Ed25519Hash : Type
  ActivationCode : Type
  Nonce : Type
  Seed : Type
  Sequence : Type
  Header : Type
  Expr : Type
  ExprHash : Type
  [publicKeyHashOrder : LinearOrder PublicKeyHash]
  [contractHashOrder : LinearOrder ContractHash]
  [protocolHashOrder : LinearOrder ProtocolHash]
  [exprHashOrder : LinearOrder ExprHash]
  [blockHashEq : DecidableEq BlockHash]
  hash : PublicKey → PublicKeyHash
  /-- The draws made from a seed to select a snapshot of the rolls. -/
  snapshotSequence : Seed → Sequence
  /-- The draws made from a seed at a position of the cycle, from a priority or a slot on. -/
  levelSequence : Seed → Use → Nat → Nat → Sequence
  /-- A draw below a positive bound, and the draws after it. -/
  takeInt32 : Sequence → Nat → Nat × Sequence
  /-- How many draws the search for an owned roll makes at most. -/
  draws : Nat
  encode : Expr → List UInt8
  decode : List UInt8 → Option Expr
  /-- The number of blocks and of words that an expression takes in memory. -/
  exprSize : Expr → Nat × Nat

attribute [instance] Primitives.publicKeyHashOrder Primitives.contractHashOrder Primitives.protocolHashOrder
  Primitives.exprHashOrder Primitives.blockHashEq

/-- Primitives whose keys and hashes are numbers, each key its own hash, and whose draws and scripts are trivial. -/
def Primitives.numbers : Primitives where
  PublicKeyHash := Nat
  PublicKey := Nat
  Signature := Nat
  ContractHash := Nat
  BlockHash := Nat
  ChainId := Nat
  ProtocolHash := Nat
  Ed25519Hash := Nat
  ActivationCode := Nat
  Nonce := Nat
  Seed := Nat
  Sequence := Nat
  Header := Nat
  Expr := Nat
  ExprHash := Nat
  hash key := key
  snapshotSequence seed := seed
  levelSequence seed _ _ _ := seed
  takeInt32 sequence _ := (0, sequence)
  draws := 1
  encode _ := []
  decode _ := some 0
  exprSize _ := (1, 1)

variable (p : Primitives)

inductive Contract
  | implicit (pkh : p.PublicKeyHash)
  | originated (hash : p.ContractHash)
deriving DecidableEq

variable {p}

namespace Contract

def isImplicit : Contract p → Option p.PublicKeyHash
  | implicit pkh => some pkh
  | originated _ => none

def isOriginated : Contract p → Option p.ContractHash
  | implicit _ => none
  | originated hash => some hash

/-- The contracts in order: implicit ones first. -/
def toLex : Contract p → p.PublicKeyHash ⊕ₗ p.ContractHash
  | implicit pkh => Sum.inlₗ pkh
  | originated hash => Sum.inrₗ hash

theorem toLex_injective : Function.Injective (toLex : Contract p → _) := by
  intro c c' h
  cases c <;> cases c' <;> cases h <;> rfl

instance : LinearOrder (Contract p) := LinearOrder.lift' toLex toLex_injective

end Contract

/-- An expression that is decoded, or encoded, when it is needed. -/
inductive LazyExpr (p : Primitives)
  | value (expr : p.Expr)
  | bytes (encoded : List UInt8)
  | both (encoded : List UInt8) (expr : p.Expr)

structure Script (p : Primitives) where
  code : LazyExpr p
  storage : LazyExpr p

namespace LazyExpr

def costOfSize (size : Nat × Nat) : Cost :=
  ((Cost.mul (size.1 - 1) (Cost.alloc 0)).add (Cost.alloc size.2)).add (Cost.step size.1)

def deserializedCost (expr : p.Expr) : Cost := costOfSize (p.exprSize expr)

def traversalCost (expr : p.Expr) : Cost := Cost.step (p.exprSize expr).1

def serializedCost (encoded : List UInt8) : Cost := Cost.allocMbytes encoded.length

/-- The decoded expression, with the cost of decoding it when that was not done before. -/
def forceDecode : LazyExpr p → Option (p.Expr × Cost)
  | value expr => some (expr, .free)
  | bytes encoded => (p.decode encoded).map fun expr => (expr, deserializedCost expr)
  | both _ expr => some (expr, .free)

/-- The encoded expression, with the cost of encoding it when that was not done before. -/
def forceBytes : LazyExpr p → List UInt8 × Cost
  | value expr => (p.encode expr, (traversalCost expr).add (serializedCost (p.encode expr)))
  | bytes encoded | both encoded _ => (encoded, .free)

def minimalDeserializeCost : LazyExpr p → Cost
  | value _ => .free
  | bytes encoded => serializedCost encoded
  | both _ _ => .free

def length (lexpr : LazyExpr p) : Nat := 4 + lexpr.forceBytes.1.length

end LazyExpr

end Tezos.Protocol
