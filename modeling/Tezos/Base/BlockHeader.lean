import Tezos.DataEncoding.BinarySize

/-! Block headers (`lib_base/block_header.ml`), the fitness of blocks (`lib_base/fitness.ml`), and operations as the shell
    sees them (`lib_base/operation.ml`). -/

namespace Tezos
open DataEncoding

abbrev Fitness := List MBytes

def Fitness.compareByte : MBytes → MBytes → Ordering
  | c1 :: b1, c2 :: b2 => (compare c1 c2).then (compareByte b1 b2)
  | _, _ => .eq

def Fitness.compareBytes (b1 b2 : MBytes) : Ordering :=
  (compare b1.length b2.length).then (Fitness.compareByte b1 b2)

def Fitness.compareRec : Fitness → Fitness → Ordering
  | i1 :: f1, i2 :: f2 => (Fitness.compareBytes i1 i2).then (compareRec f1 f2)
  | _, _ => .eq

def Fitness.compare (f1 f2 : Fitness) : Ordering := (Ord.compare f1.length f2.length).then (Fitness.compareRec f1 f2)

/-- The header that the shell sees, of the hashes of blocks, of the lists of operations and of contexts. -/
structure ShellHeader (B L C : Type) where
  level : Int32
  protoLevel : Nat
  predecessor : B
  timestamp : Int
  validationPasses : Nat
  operationsHash : L
  fitness : Fitness
  context : C
  deriving DecidableEq

structure BlockHeader (B L C : Type) where
  shell : ShellHeader B L C
  protocolData : MBytes
  deriving DecidableEq

/-- `Block_header.equal`: the comparison of two headers gives 0. It does not read the levels, the numbers of validation
    passes and the contexts. -/
def BlockHeader.equal {B L C : Type} [DecidableEq B] [DecidableEq L] (b1 b2 : BlockHeader B L C) : Bool :=
  b1.shell.predecessor = b2.shell.predecessor && b1.protocolData = b2.protocolData &&
    b1.shell.operationsHash = b2.shell.operationsHash && b1.shell.timestamp = b2.shell.timestamp &&
    b1.shell.fitness = b2.shell.fitness

/-- An operation: the shell header, which is the block it is meant to be applied on top of, and the bytes of the
    protocol. -/
structure Operation (B : Type) where
  branch : B
  proto : MBytes
  deriving DecidableEq

/-- `Data_encoding.Binary.length Operation.encoding`: the hash of the branch and the bytes. -/
def Operation.length {B : Type} (op : Operation B) : Nat := 32 + op.proto.length

end Tezos
