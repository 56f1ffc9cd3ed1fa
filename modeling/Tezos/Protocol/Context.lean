import Mathlib.Data.Prod.Lex
import Tezos.Lib.Metered
import Tezos.Lib.Store
import Tezos.Protocol.Operation

/-! The context of a block: the storage of the protocol, and what is kept while the operations of the block are
    applied. -/

namespace Tezos.Protocol
open Lib (Store Keys Metered)

structure Constants where
  preservedCycles : Nat
  blocksPerCycle : Nat
  blocksPerCommitment : Nat
  blocksPerVotingPeriod : Nat
  endorsersPerBlock : Nat
  hardGasLimitPerOperation : Int
  hardGasLimitPerBlock : Int
  tokensPerRoll : Tez
  endorsementSecurityDeposit : Tez
  endorsementReward : Tez
  hardStorageLimitPerOperation : Int
  testChainDuration : Int

structure Level where
  level : Nat
  levelPosition : Nat
  cycle : Nat
  cyclePosition : Nat
  votingPeriod : Nat
  votingPeriodPosition : Nat
  expectedCommitment : Bool
deriving DecidableEq

/-! ### The storage -/

variable (p : Primitives)

inductive Manager
  | hash (pkh : p.PublicKeyHash)
  | publicKey (key : p.PublicKey)

structure Contracts where
  globalCounter : Nat
  balance : Store (Contract p) Tez
  manager : Store (Contract p) (Manager p)
  delegate : Store (Contract p) p.PublicKeyHash
  delegated : Keys (p.PublicKeyHash ×ₗ p.ContractHash)
  spendable : Keys (Contract p)
  delegatable : Keys (Contract p)
  counter : Store (Contract p) Nat
  code : Store (Contract p) (List UInt8)
  storage : Store (Contract p) (List UInt8)
  bigMap : Store (Contract p ×ₗ p.ExprHash) p.Expr
  paidStorageSpace : Store (Contract p) Int
  usedStorageSpace : Store (Contract p) Int

/-- The frozen amounts, by delegate and cycle, and the delegates that have some, by cycle. -/
structure Frozen where
  deposits : Store (p.PublicKeyHash ×ₗ Nat) Tez
  fees : Store (p.PublicKeyHash ×ₗ Nat) Tez
  rewards : Store (p.PublicKeyHash ×ₗ Nat) Tez
  delegatesWithFrozenBalance : Keys (Nat ×ₗ p.PublicKeyHash)

structure Rolls where
  next : Nat
  limbo : Option Nat
  delegateRollList : Store p.PublicKeyHash Nat
  successor : Store Nat Nat
  delegateChange : Store p.PublicKeyHash Tez
  owner : Store Nat p.PublicKey
  ownerSnapshot : Store (Nat ×ₗ Nat) (Store Nat p.PublicKey)
  snapshotForCycle : Store Nat Nat
  lastForSnapshot : Store (Nat ×ₗ Nat) Nat
  activeDelegatesWithRolls : Keys p.PublicKeyHash
  inactiveDelegate : Keys p.PublicKeyHash
  delegateDesactivation : Store p.PublicKeyHash Nat

structure UnrevealedNonce where
  delegate : p.PublicKeyHash
  rewards : Tez
  fees : Tez

structure Seeds where
  forCycle : Store Nat p.Seed

inductive PeriodKind
  | proposal
  | testingVote
  | testing
  | promotionVote
deriving DecidableEq

structure Votes where
  currentPeriodKind : PeriodKind
  currentQuorum : Int
  currentProposal : Option p.ProtocolHash
  listingsSize : Option Int
  listings : Store p.PublicKeyHash Int
  proposals : Keys (p.ProtocolHash ×ₗ p.PublicKeyHash)
  proposalsCount : Store p.PublicKeyHash Nat
  ballots : Store p.PublicKeyHash Ballot

structure Storage where
  contracts : Contracts p
  frozen : Frozen p
  delegates : Keys p.PublicKeyHash
  rolls : Rolls p
  seeds : Seeds p
  votes : Votes p
  lastBlockPriority : Nat
  /-- The protocol and the expiration of the test chain to fork. -/
  testChain : Option (p.ProtocolHash × Int)
  /-- The protocol to activate. -/
  activated : Option p.ProtocolHash

/-- The storage before the bootstrap accounts are created. -/
def Storage.empty : Storage p where
  contracts :=
    { globalCounter := 0, balance := .empty, manager := .empty, delegate := .empty, delegated := .empty
      spendable := .empty, delegatable := .empty, counter := .empty, code := .empty, storage := .empty
      bigMap := .empty, paidStorageSpace := .empty, usedStorageSpace := .empty }
  frozen := { deposits := .empty, fees := .empty, rewards := .empty, delegatesWithFrozenBalance := .empty }
  delegates := .empty
  rolls :=
    { next := 0, limbo := none, delegateRollList := .empty, successor := .empty, delegateChange := .empty
      owner := .empty, ownerSnapshot := .empty, snapshotForCycle := .empty, lastForSnapshot := .empty
      activeDelegatesWithRolls := .empty, inactiveDelegate := .empty, delegateDesactivation := .empty }
  seeds := { forCycle := .empty }
  votes :=
    { currentPeriodKind := .proposal, currentQuorum := 8000, currentProposal := none, listingsSize := none
      listings := .empty, proposals := .empty, proposalsCount := .empty, ballots := .empty }
  lastBlockPriority := 0
  testChain := none
  activated := none

structure EndorsementRight where
  key : p.PublicKey
  slots : List Nat
  used : Bool

structure Context where
  context : Storage p
  constants : Constants
  firstLevel : Nat
  level : Level
  timestamp : Int
  fitness : Int
  deposits : Store p.PublicKeyHash Tez
  allowedEndorsements : Store p.PublicKeyHash (EndorsementRight p)
  fees : Tez
  blockGas : Int
  operationGas : Gas

abbrev Gassed := Metered (Stop p)

variable {p}

section Access
variable {K V : Type} [LinearOrder K]

def getKey (s : Store K V) (k : K) : Result p V :=
  match s.find? k with
  | some v => .ok v
  | none => fail (.storage (.missingKey .get))

def setKey (s : Store K V) (k : K) (v : V) : Result p (Store K V) :=
  if s.mem k then .ok (s.add k v) else fail (.storage (.missingKey .set))

def initKey (s : Store K V) (k : K) (v : V) : Result p (Store K V) :=
  if s.mem k then fail (.storage .existingKey) else .ok (s.add k v)

def deleteKey (s : Store K V) (k : K) : Result p (Store K V) :=
  if s.mem k then .ok (s.remove k) else fail (.storage (.missingKey .del))

def switchKey (s : Keys K) (k : K) (on : Bool) : Keys K := if on then s.add k () else s.remove k

variable {s : Store K V} {k : K} {v : V}

@[simp] theorem getKey_eq_ok : (getKey s k : Result p V) = .ok v ↔ s.find? k = some v := by
  unfold getKey
  split
  · simp_all
  · simp_all

variable {α : Type} {a : α}

theorem getKey_bind_ok {f : V → Result p α} : (getKey s k >>= f) = .ok a ↔ ∃ v, s.find? k = some v ∧
    f v = .ok a := by
  simp only [Lib.bind_eq_ok, getKey_eq_ok]

variable {f : Store K V → Result p α}

theorem setKey_bind_ok : (setKey s k v >>= f) = .ok a ↔ s.mem k = true ∧ f (s.add k v) = .ok a := by
  unfold setKey
  split <;> simp_all [fail]

theorem initKey_bind_ok : (initKey s k v >>= f) = .ok a ↔ s.mem k = false ∧ f (s.add k v) = .ok a := by
  unfold initKey
  split <;> simp_all [fail]

theorem deleteKey_bind_ok : (deleteKey s k >>= f) = .ok a ↔ s.mem k = true ∧ f (s.remove k) = .ok a := by
  unfold deleteKey
  split <;> simp_all [fail]

end Access

namespace Context
variable (ctxt : Context p)

def recordEndorsement (k : p.PublicKeyHash) : Result p (Context p) :=
  match ctxt.allowedEndorsements.find? k with
  | none => .error .exception
  | some right =>
    if right.used then .error .exception
    else .ok { ctxt with allowedEndorsements := ctxt.allowedEndorsements.add k { right with used := true } }

def addFees (fees : Tez) : Result p (Context p) := do
  let fees ← ctxt.fees.add? fees
  return { ctxt with fees }

def addDeposit (delegate : p.PublicKeyHash) (deposit : Tez) : Result p (Context p) := do
  let previous := (ctxt.deposits.find? delegate).getD .zero
  let deposit ← previous.add? deposit
  return { ctxt with deposits := ctxt.deposits.add delegate deposit }

def checkGasLimit (remaining : Int) : Result p Unit :=
  if remaining > ctxt.constants.hardGasLimitPerOperation ∨ remaining < 0 then fail .gasLimitTooHigh else .ok ()

def setGasLimit (remaining : Int) : Context p := { ctxt with operationGas := .limited remaining }

/-- The cost is paid by the operation and by the block; what is paid counts as spent. -/
def consumeGas (cost : Cost) : Gassed p (Context p) :=
  match Gas.consume ctxt.blockGas ctxt.operationGas cost with
  | .error error => ⟨fail (.gas error), 0⟩
  | .ok (blockGas, operationGas) => ⟨.ok { ctxt with blockGas, operationGas }, ctxt.operationGas.charge cost⟩

def checkEnoughGas (cost : Cost) : Result p Unit :=
  match Gas.consume ctxt.blockGas ctxt.operationGas cost with
  | .error error => fail (.gas error)
  | .ok _ => .ok ()

end Context

def Level.fromRaw (constants : Constants) (firstLevel level : Nat) : Level :=
  let levelPosition := level - firstLevel
  let cyclePosition := levelPosition % constants.blocksPerCycle
  { level, levelPosition
    cycle := levelPosition / constants.blocksPerCycle
    cyclePosition
    votingPeriod := levelPosition / constants.blocksPerVotingPeriod
    votingPeriodPosition := levelPosition % constants.blocksPerVotingPeriod
    expectedCommitment := cyclePosition % constants.blocksPerCommitment + 1 = constants.blocksPerCommitment }

def cycleSub (cycle n : Nat) : Option Nat := if n ≤ cycle then some (cycle - n) else none

def cyclePred (cycle : Nat) : Option Nat := cycleSub cycle 1

namespace Context
variable (ctxt : Context p)

def fromRaw (level : Nat) : Level := Level.fromRaw ctxt.constants ctxt.firstLevel level

end Context

def Constants.small : Constants where
  preservedCycles := 1
  blocksPerCycle := 4
  blocksPerCommitment := 2
  blocksPerVotingPeriod := 8
  endorsersPerBlock := 2
  hardGasLimitPerOperation := 100
  hardGasLimitPerBlock := 1000
  tokensPerRoll := .ofMutez 10
  endorsementSecurityDeposit := .ofMutez 2
  endorsementReward := .ofMutez 2
  hardStorageLimitPerOperation := 100
  testChainDuration := 10

def Context.small (context : Storage p) : Context p where
  context
  constants := .small
  firstLevel := 1
  level := .fromRaw .small 1 1
  timestamp := 0
  fitness := 0
  deposits := .empty
  allowedEndorsements := .empty
  fees := .zero
  blockGas := Constants.small.hardGasLimitPerBlock
  operationGas := .unaccounted

end Tezos.Protocol
