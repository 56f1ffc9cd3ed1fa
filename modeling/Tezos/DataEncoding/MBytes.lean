import Tezos.DataEncoding.BinarySize
import Tezos.Lib.Bytes

/-! Reading and writing in a buffer (`lib_stdlib/mBytes.ml`: bigarrays with big-endian accessors). An
    access outside the buffer raises `Invalid_argument`. -/

namespace Tezos.DataEncoding.MBytes
open Lib

/-- An uninitialised buffer: `junk` is what the memory held. -/
def create (junk : Nat → UInt8) (n : Nat) : MBytes := (List.range n).map junk

@[simp] theorem length_create (junk : Nat → UInt8) (n : Nat) : (create junk n).length = n := by
  simp [create]

variable (buffer : MBytes) (ofs : Nat)

def sub (ofs len : Nat) : Except Exn MBytes :=
  if ofs + len ≤ buffer.length then .ok ((buffer.drop ofs).take len) else .error .invalidArgument

/-- `blit src 0 dst ofs (length src)`. -/
def blit (src dst : MBytes) (ofs : Nat) : Except Exn MBytes :=
  if ofs + src.length ≤ dst.length then .ok (dst.take ofs ++ src ++ dst.drop (ofs + src.length))
  else .error .invalidArgument

def getUint8 : Except Exn Int := do
  let w ← sub buffer ofs 1
  pure (ofBE w)

def getUint16 : Except Exn Int := do
  let w ← sub buffer ofs 2
  pure (ofBE w)

def getInt8 : Except Exn Int := do
  let w ← sub buffer ofs 1
  pure (signed 8 (ofBE w))

def getInt16 : Except Exn Int := do
  let w ← sub buffer ofs 2
  pure (signed 16 (ofBE w))

def getInt32 : Except Exn (BitVec 32) := do
  let w ← sub buffer ofs 4
  pure (BitVec.ofNat 32 (ofBE w))

def getInt64 : Except Exn (BitVec 64) := do
  let w ← sub buffer ofs 8
  pure (BitVec.ofNat 64 (ofBE w))

def getDouble : Except Exn Float := do
  let w ← sub buffer ofs 8
  pure (Float.ofBits (UInt64.ofNat (ofBE w)))

def setInt8 (v : Int) : Except Exn MBytes := blit (toBE 1 (wrap 8 v)) buffer ofs

def setInt16 (v : Int) : Except Exn MBytes := blit (toBE 2 (wrap 16 v)) buffer ofs

def setInt32 (v : BitVec 32) : Except Exn MBytes := blit (toBE 4 v.toNat) buffer ofs

def setInt64 (v : BitVec 64) : Except Exn MBytes := blit (toBE 8 v.toNat) buffer ofs

def setDouble (v : Float) : Except Exn MBytes := blit (toBE 8 v.toBits.toNat) buffer ofs

/-- `split_full_blocks`, from the limit `k * sz` down. -/
def splitFullBlocks (sz : Nat) (bytes : MBytes) : Nat → List MBytes → List MBytes
  | 0, acc => acc
  | k + 1, acc => splitFullBlocks sz bytes k ((bytes.drop (k * sz)).take sz :: acc)

def cut (sz : Nat) (bytes : MBytes) : List MBytes :=
  if bytes.length ≤ sz then [bytes]
  else
    let nbFull := bytes.length / sz
    let szFull := nbFull * sz
    let acc := if szFull = bytes.length then [] else [(bytes.drop szFull).take (bytes.length - szFull)]
    splitFullBlocks sz bytes nbFull acc

end Tezos.DataEncoding.MBytes
