import Tezos.Protocol.Primitives

/-! The operations of the protocol and the errors they can end with. -/

namespace Tezos.Protocol
variable (p : Primitives)

inductive ManagerOperation
  | reveal (publicKey : p.PublicKey)
  | transaction (amount : Tez) (parameters : Option (LazyExpr p)) (destination : Contract p)
  | origination (manager : p.PublicKeyHash) (delegate : Option p.PublicKeyHash) (script : Option (Script p))
    (spendable delegatable : Bool) (credit : Tez) (preorigination : Option (Contract p))
  | delegation (delegate : Option p.PublicKeyHash)

structure ManagerContents where
  source : Contract p
  fee : Tez
  counter : Nat
  operation : ManagerOperation p
  gasLimit : Int
  storageLimit : Int

structure EndorsementOperation where
  branch : p.BlockHash
  level : Nat
  signature : Option p.Signature

inductive Ballot
  | yay
  | nay
  | pass
deriving DecidableEq

inductive Contents
  | endorsement (level : Nat)
  | seedNonceRevelation (level : Nat) (nonce : p.Nonce)
  | doubleEndorsementEvidence (op₁ op₂ : EndorsementOperation p)
  | doubleBakingEvidence (bh₁ bh₂ : p.Header)
  | activateAccount (id : p.Ed25519Hash) (activationCode : p.ActivationCode)
  | proposals (source : p.PublicKeyHash) (period : Nat) (proposals : List p.ProtocolHash)
  | ballot (source : p.PublicKeyHash) (period : Nat) (proposal : p.ProtocolHash) (ballot : Ballot)

inductive ContentsList
  | single (contents : Contents p)
  | manager (first : ManagerContents p) (rest : List (ManagerContents p))

structure Operation where
  branch : p.BlockHash
  contents : ContentsList p
  signature : Option p.Signature

variable {p}

def EndorsementOperation.toOperation (op : EndorsementOperation p) : Operation p :=
  ⟨op.branch, .single (.endorsement op.level), op.signature⟩

inductive Access
  | get
  | set
  | del
  | copy
deriving DecidableEq

inductive StorageError
  | missingKey (access : Access)
  | existingKey
deriving DecidableEq

variable (p)

inductive Error
  | tez (error : Tez.Error)
  | gas (error : Gas.Error)
  | storage (error : StorageError)
  -- Raw_context
  | gasLimitTooHigh
  -- Roll_storage
  | consumeRollChange
  | noRollForDelegate
  | noRollSnapshotForCycle (cycle : Nat)
  | unregisteredDelegate (delegate : p.PublicKeyHash)
  -- Delegate_storage
  | nonDelegatableContract (contract : Contract p)
  | noDeletion (delegate : p.PublicKeyHash)
  | activeDelegate
  | currentDelegate
  | emptyDelegateAccount (delegate : p.PublicKeyHash)
  | balanceTooLowForDeposit (delegate : p.PublicKeyHash) (deposit balance : Tez)
  -- Contract_storage
  | balanceTooLow (contract : Contract p) (balance amount : Tez)
  | counterInThePast (contract : Contract p) (expected found : Nat)
  | counterInTheFuture (contract : Contract p) (expected found : Nat)
  | unspendableContract (contract : Contract p)
  | nonExistingContract (contract : Contract p)
  | emptyImplicitContract (pkh : p.PublicKeyHash)
  | emptyTransaction (contract : Contract p)
  | inconsistentHash (publicKey : p.PublicKey) (expected actual : p.PublicKeyHash)
  | failure (message : String)
  | previouslyRevealedKey (contract : Contract p)
  | unrevealedManagerKey (contract : Contract p)
  -- Fees_storage
  | storageLimitTooHigh
  -- Seed_storage
  | unknownSeed (oldest cycle latest : Nat)
  -- Amendment
  | invalidProposal
  | unexpectedProposal
  | unauthorizedProposal
  | tooManyProposals
  | emptyProposal
  | unexpectedBallot
  | unauthorizedBallot
  -- Operation_repr and Baking
  | invalidSignature
  | missingSignature
  | unexpectedEndorsement
  -- Script_repr
  | lazyScriptDecode
  -- Apply
  | wrongEndorsementPredecessor (expected provided : p.BlockHash)
  | duplicateEndorsement (delegate : p.PublicKeyHash)
  | invalidEndorsementLevel
  | gasQuotaExceededInitDeserialize

/-- Why a computation gives no result: its errors, the last one first, an exception that nothing catches, or a loop
    that does not end. -/
inductive Stop
  | errors (trace : List (Error p))
  | exception
  | divergence

abbrev Result := Except (Stop p)

variable {p} {α : Type}

def fail (error : Error p) : Result p α := .error (.errors [error])

def failUnless (condition : Bool) (error : Error p) : Result p Unit := if condition then .ok () else fail error

/-- An error is added to those of a computation that failed. -/
def trace (error : Error p) : Result p α → Result p α
  | .ok a => .ok a
  | .error (.errors errors) => .error (.errors (error :: errors))
  | .error stop => .error stop

def ofTez : Except (List Tez.Error) α → Result p α
  | .ok a => .ok a
  | .error errors => .error (.errors (errors.map .tez))

instance : MonadLift (Except (List Tez.Error)) (Result p) where
  monadLift x := ofTez x

variable {a : α} {error : Error p} {x : Except (List Tez.Error) α} {stop : Stop p}

@[simp] theorem fail_ne_ok : fail error ≠ (.ok a : Result p α) := by
  intro h
  cases h

@[simp] theorem failUnless_eq_ok {condition : Bool} {u : Unit} :
    failUnless condition error = .ok u ↔ condition = true := by
  cases condition <;> simp [failUnless]

@[simp] theorem trace_eq_ok {x : Result p α} : trace error x = .ok a ↔ x = .ok a := by
  unfold trace
  split <;> simp

@[simp] theorem liftM_tez_eq_ok : (liftM x : Result p α) = .ok a ↔ x = .ok a := by
  change ofTez x = .ok a ↔ _
  cases x <;> simp [ofTez]

@[simp] theorem ofTez_eq_error :
    (ofTez x : Result p α) = .error stop ↔ ∃ errors, x = .error errors ∧ stop = .errors (errors.map .tez) := by
  cases x <;> simp [ofTez, eq_comm]

@[simp] theorem liftM_tez_eq_error :
    (liftM x : Result p α) = .error stop ↔ ∃ errors, x = .error errors ∧ stop = .errors (errors.map .tez) :=
  ofTez_eq_error

end Tezos.Protocol
