import Tezos.Base.BlockHeader
import Tezos.Lib.Bytes

/-! The fitness of a block of the protocol (`fitness_repr.ml`). -/

namespace Tezos.Protocol.FitnessRepr
open Lib DataEncoding

inductive Error where
  | invalidFitness

/-- `Constants_repr.version_number`. -/
def versionNumber : MBytes := [0]

def int64ToBytes (i : BitVec 64) : MBytes := toBE 8 i.toNat

def int64OfBytes (b : MBytes) : Except Error (BitVec 64) :=
  if b.length ≠ 8 then .error .invalidFitness else .ok (.ofNat 64 (ofBE b))

def fromInt64 (fitness : BitVec 64) : Fitness := [versionNumber, int64ToBytes fitness]

def toInt64 : Fitness → Except Error (BitVec 64)
  | [version, fitness] => if version = versionNumber then int64OfBytes fitness else .error .invalidFitness
  | [] => .ok 0
  | _ => .error .invalidFitness

end Tezos.Protocol.FitnessRepr
