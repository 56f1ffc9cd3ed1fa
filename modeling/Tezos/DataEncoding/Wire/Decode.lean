import Tezos.DataEncoding.Reader
import Tezos.Lib.Parser

/-! The binary format as a parser: what the readers are for, without their buffers and states. -/

namespace Tezos.DataEncoding.Wire
open Lib

abbrev Decoder (α : Type) := Parser UInt8 Exn α

def needs (input : MBytes) (size : Nat) : Except Exn Unit :=
  if input.length < size then .error (.readError .notEnoughData) else .ok ()

def allows (a : Option Int) (size : Nat) : Except Exn Unit :=
  match a with
  | some len => if len < size then .error (.readError .sizeLimitExceeded) else .ok ()
  | none => .ok ()

/-- The first `size` bytes, converted. -/
def word {α : Type} (size : Nat) (conv : MBytes → Except Exn α) : Decoder α := fun input a => do
  needs input size
  allows a size
  let v ← conv (input.take size)
  pure (v, size)

def intOfBytes (kind : Integer) (w : MBytes) : Except Exn Int :=
  match kind with
  | .int31 => .ok (signed 32 (ofBE w))
  | .int16 => .ok (signed 16 (ofBE w))
  | .int8 => .ok (signed 8 (ofBE w))
  | .uint30 =>
    if signed 32 (ofBE w) < 0 then .error (.readError (.invalidInt 0 (signed 32 (ofBE w)) (2 ^ 30 - 1)))
    else .ok (signed 32 (ofBE w))
  | .uint16 | .uint8 => .ok (ofBE w)

def decodeInt (kind : Integer) : Decoder Int := word (BinarySize.integerToSize kind) (intOfBytes kind)

def decodeBool : Decoder Bool := (decodeInt .int8).map fun v => decide (v ≠ 0)

def decodeByte : Decoder Nat := word 1 fun w => .ok (ofBE w)

def decodeBytes (size : Nat) : Decoder MBytes := word size .ok

/-- The septets that follow a byte with a continuation bit, for at most the given number of bytes; the last
    one is not zero. -/
def decodeSeptets : Nat → Decoder Nat
  | 0 => .fail .diverges
  | rounds + 1 =>
    decodeByte.bind fun byte =>
      if 128 ≤ byte then (decodeSeptets rounds).map fun v => byte - 128 + 128 * v
      else if byte = 0 then .fail (.readError .trailingZero)
      else .ret byte

/-- As many rounds as there are bytes, and one. -/
def decodeTail : Decoder Nat := fun input a => decodeSeptets (input.length + 1) input a

def decodeN : Decoder Int :=
  decodeByte.bind fun byte =>
    if 128 ≤ byte then decodeTail.map fun v => ((byte - 128 + 128 * v : Nat) : Int)
    else .ret byte

def decodeZ : Decoder Int :=
  decodeByte.bind fun byte =>
    let sign (v : Nat) : Int := if byte / 64 % 2 = 1 then -(v : Int) else v
    if 128 ≤ byte then decodeTail.map fun v => sign (byte % 64 + 64 * v)
    else .ret (sign (byte % 64))

def inRange (minimum maximum : Int) (v : Int) : Except Exn Int :=
  let v := if minimum > 0 then v + minimum else v
  if minimum ≤ v ∧ v ≤ maximum then .ok v else .error (.readError (.invalidInt minimum v maximum))

def inFloatRange (minimum maximum v : Float) : Except Exn Float :=
  if minimum ≤ v ∧ v ≤ maximum then .ok v else .error (.readError (.invalidFloat minimum v maximum))

def floatOfBytes (w : MBytes) : Float := Float.ofBits (UInt64.ofNat (ofBE w))

def caseAt {α : Type} (arr : List α) (index : Int) : Except Exn α :=
  match arr[index.toNat]? with
  | none => .error (.readError .noCaseMatched)
  | some v => .ok v

def decodeAtom : {α : Type} → Atom α → Decoder α
  | _, .bool => decodeBool
  | _, .int8 => decodeInt .int8
  | _, .uint8 => decodeInt .uint8
  | _, .int16 => decodeInt .int16
  | _, .uint16 => decodeInt .uint16
  | _, .int31 => decodeInt .int31
  | _, .int32 => word 4 fun w => .ok (BitVec.ofNat 32 (ofBE w))
  | _, .int64 => word 8 fun w => .ok (BitVec.ofNat 64 (ofBE w))
  | _, .n => decodeN
  | _, .z => decodeZ
  | _, .rangedInt r => (decodeInt (BinarySize.rangeToSize r.minimum r.maximum)).check (inRange r.minimum r.maximum)
  | _, .rangedFloat minimum maximum => (word 8 fun w => .ok (floatOfBytes w)).check (inFloatRange minimum maximum)
  | _, .float => word 8 fun w => .ok (floatOfBytes w)
  | _, .bytes (.fixed n _) | _, .string (.fixed n _) => decodeBytes n
  | _, .bytes .variable | _, .string .variable => fun input a => decodeBytes input.length input a
  | _, .stringEnum cases => (decodeInt (BinarySize.enumSize cases.arr.length).toInteger).check (caseAt cases.arr)

section Parts
variable {α β : Type}

def decodeSeq (left : Decoder α) (right : Decoder β) : Decoder (α × β) := left.bind fun v => right.map fun w => (v, w)

def decodeList (error : ReadError) (p : Decoder α) : Nat → Option Int → Decoder (List α)
  | 0, _ => .fail .diverges
  | rounds + 1, maxLength =>
    .ifEmpty (.ret [])
      (if maxLength = some 0 then .fail (.readError error)
      else p.bind fun v => (decodeList error p rounds (maxLength.map (· - 1))).map (v :: ·))

/-- A list that takes the whole window. -/
def decodeAll (error : ReadError) (p : Decoder α) (maxLength : Option Int) : Decoder (List α) := fun input a =>
  decodeList error p (input.length + (maxLength.getD 0).toNat + 1) maxLength input a

/-- A pair whose right part takes the last `n` bytes of the window. -/
def decodeEnds (n : Nat) (left : Decoder α) (right : Decoder β) : Decoder (α × β) := fun input a => do
  needs input n
  let (v, k) ← left (input.take (input.length - n)) a
  if k ≠ input.length - n then .error .assertFailure
  else
    let (w, k') ← right (input.drop (input.length - n)) (spend a k)
    if k' ≠ n then .error .assertFailure else pure ((v, w), k + k')

def decodePair (kind leftKind rightKind : Kind) (left : Decoder α) (right : Decoder β) : Decoder (α × β) :=
  match kind with
  | .fixed sz =>
    .guard (fun input a => do
      needs input sz
      allows a sz) (decodeSeq left right)
  | .dynamic => decodeSeq left right
  | .variable =>
    match leftKind, rightKind with
    | .dynamic, .variable | .fixed _, .variable => decodeSeq left right
    | .variable, .fixed n => decodeEnds n left right
    | _, _ => .fail .assertFailure

/-- A window of its own, of `sz` bytes. -/
def decodeWindow (p : Decoder α) (sz : Nat) : Decoder α := fun input a => do
  needs input sz
  allows a sz
  let (v, k) ← p (input.take sz) a
  if k ≠ sz then .error (.readError .extraBytes) else pure (v, k)

end Parts

variable {ι : Type → Type}

def decodeDesc (rec : {β : Type} → ι β → Decoder β) : {α : Type} → Encoding ι α → Decoder α
  | _, .null | _, .empty | _, .constant | _, .ignore => .ret ()
  | _, .atom a => decodeAtom a
  | _, .padded e n => (decodeDesc rec e).bind fun v => (decodeBytes n).map fun _ => v
  | _, .array maxLength e => (decodeAll .listTooLong (decodeDesc rec e) maxLength).map List.toArray
  | _, .list maxLength e => decodeAll .arrayTooLong (decodeDesc rec e) maxLength
  | _, .req e | _, .dft e | _, .tup e | _, .describe e | _, .splitted e => decodeDesc rec e
  | _, .opt .dynamic e =>
    decodeBool.bind fun present => if present then (decodeDesc rec e).map some else .ret none
  | _, .opt .variable e => .ifEmpty (.ret none) ((decodeDesc rec e).map some)
  | _, .objs kind left right | _, .tups kind left right =>
    decodePair kind left.classify right.classify (decodeDesc rec left) (decodeDesc rec right)
  | _, .union _ tagSize cases encoding =>
    (decodeInt tagSize.toInteger).bind fun ctag =>
      match findTag cases ctag with
      | none => .fail (.readError (.unexpectedTag ctag))
      | some i => (decodeDesc rec (encoding i)).map (cases i).inj
  | _, .mu _ x => rec x
  | _, .conv _ inj e => (decodeDesc rec e).map inj
  | _, .dynamicSize kind e => (decodeInt kind.toInteger).bind fun sz => decodeWindow (decodeDesc rec e) sz.toNat
  | _, .checkSize limit e => (decodeDesc rec e).limit limit
  | _, .delayed f => decodeDesc rec (f ())

def decode (D : Defs ι) : Nat → {α : Type} → Encoding ι α → Decoder α
  | 0, _, e => decodeDesc (fun _ => .fail .diverges) e
  | fuel + 1, _, e => decodeDesc (fun x => decode D fuel (D.unfold x)) e

end Tezos.DataEncoding.Wire
