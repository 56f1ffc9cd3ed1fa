import Tezos.Base.BlockLocator

/-! The draws made from a seed (`seed_repr.ml`), and the choice of a snapshot of the rolls by one of them. -/

namespace Tezos.Protocol.SeedRepr
open DataEncoding BlockLocator
variable (hashBytes : MBytes → Digest)

def initializeNew (state : Digest) (append : MBytes) : Digest :=
  hashBytes (state.bytes ++ List.replicate 32 0 ++ append)

def xorHigherBits (i : BitVec 32) (b : Digest) : MBytes := Lib.toBE 4 (getInt32 b ^^^ i).toNat ++ b.bytes.drop 4

def sequence (state : Digest) (n : BitVec 32) : Digest := hashBytes (xorHigherBits n state)

def take (state : Digest) : Digest × Digest :=
  let h := hashBytes state.bytes
  (h, h)

/-- The word is in the last part of the range, which has not all remainders. -/
def dropped (bound r : BitVec 32) : Bool :=
  let dropIfOver := BitVec.intMax 32 - (BitVec.intMax 32).srem bound
  dropIfOver.sle r

def loop (bound : BitVec 32) : Nat → Digest → Option (BitVec 32 × Digest)
  | 0, _ => none
  | fuel + 1, s =>
    let (bytes, s) := take hashBytes s
    let r := (getInt32 bytes).abs
    if dropped bound r then loop bound fuel s else some (r.srem bound, s)

/-- A draw that raises `Invalid_argument`, or goes on for longer than the fuel, has no result. -/
def takeInt32 (fuel : Nat) (s : Digest) (bound : BitVec 32) : Option (BitVec 32 × Digest) :=
  if bound.sle 0 then none else loop hashBytes bound fuel s

/-- The sequence that `freeze_rolls_for_cycle` draws the selected snapshot from. -/
def snapshotSequence (seed : Digest) : Digest :=
  sequence hashBytes (initializeNew hashBytes seed "roll_snapshot".toUTF8.toList) 0

def selectedIndex (fuel : Nat) (seed : Digest) (maxIndex : Int) : Option Int :=
  (takeInt32 hashBytes fuel (snapshotSequence hashBytes seed) (BitVec.ofInt 32 maxIndex)).map fun draw => draw.1.toInt

end Tezos.Protocol.SeedRepr
