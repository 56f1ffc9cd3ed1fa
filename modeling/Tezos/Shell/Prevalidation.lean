import Mathlib.Data.Finset.Insert
import Tezos.Base.BlockHeader

/-! The prevalidation of operations on top of a block (`lib_shell/prevalidation.ml`). -/

namespace Tezos.Prevalidation
open DataEncoding

inductive Category where
  | permanent
  | temporary
  | branch
  deriving DecidableEq

/-- What is used of a registered protocol, and of the registered errors. -/
structure Protocol (B : Type) where
  ValidationState : Type
  OperationData : Type
  Receipt : Type
  Error : Type
  maxOperationDataLength : Int
  /-- `Data_encoding.Binary.of_bytes operation_data_encoding`. -/
  decodeOperationData : MBytes → Option OperationData
  applyOperation : ValidationState → B → OperationData → Except (List Error) (ValidationState × Receipt)
  acceptablePasses : B → OperationData → List Int
  classifyError : Error → Category

inductive Error (E : Type) where
  | oversizedOperation (size max : Int)
  | parseError
  | protocol (error : E)
  deriving DecidableEq

/-- `Error_monad.classify_errors`, of the errors of the protocol. -/
def classifyErrors {E : Type} (classify : E → Category) (errors : List E) : Category :=
  errors.foldl (fun r e =>
    match r, classify e with
    | .permanent, _ | _, .permanent => .permanent
    | .branch, _ | _, .branch => .branch
    | .temporary, .temporary => .temporary) .temporary

variable {B O : Type} (P : Protocol B) (hash : Operation B → O)

structure Parsed (O : Type) where
  hash : O
  raw : Operation B
  protocolData : P.OperationData

structure T (O : Type) where
  state : P.ValidationState
  applied : List (Parsed P O × P.Receipt)
  liveBlocks : Finset B
  liveOperations : Finset O

inductive Result (O : Type) where
  | applied (t : T P O) (receipt : P.Receipt)
  | branchDelayed (errors : List (Error P.Error))
  | branchRefused (errors : List (Error P.Error))
  | refused (errors : List (Error P.Error))
  | duplicate
  | outdated

def parse (raw : Operation B) : Except (List (Error P.Error)) (Parsed P O) :=
  let size : Int := raw.length
  if size > P.maxOperationDataLength then .error [.oversizedOperation size P.maxOperationDataLength]
  else
    match P.decodeOperationData raw.proto with
    | none => .error [.parseError]
    | some protocolData => .ok ⟨hash raw, raw, protocolData⟩

def applyOperation [DecidableEq O] (pv : T P O) (op : Parsed P O) : Result P O :=
  if op.hash ∈ pv.liveOperations then .outdated
  else
    match P.applyOperation pv.state op.raw.branch op.protocolData with
    | .ok (state, receipt) =>
      .applied ⟨state, (op, receipt) :: pv.applied, pv.liveBlocks, insert op.hash pv.liveOperations⟩ receipt
    | .error errors =>
      match classifyErrors P.classifyError errors with
      | .branch => .branchRefused (errors.map .protocol)
      | .permanent => .refused (errors.map .protocol)
      | .temporary => .branchDelayed (errors.map .protocol)

end Tezos.Prevalidation
