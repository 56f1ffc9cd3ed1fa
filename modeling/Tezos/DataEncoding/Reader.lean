import Tezos.DataEncoding.Encoding
import Tezos.DataEncoding.MBytes

/-! The binary reader (`lib_data_encoding/binary_reader.ml`): the whole input is in one buffer. The mutable
    fields of its state are those of a state monad; an exception leaves it. -/

namespace Tezos.DataEncoding

/-- The first case with a tag, `Json_only` ones left out. -/
def findTag {α : Type} {n : Nat} {β : Fin n → Type} (cases : (i : Fin n) → Case α (β i)) (ctag : Int) :
    Option (Fin n) :=
  (List.finRange n).find? fun i => decide ((cases i).tag = .tag ctag)

namespace Reader
open Lib

structure State where
  buffer : MBytes
  offset : Nat
  remainingBytes : Nat
  allowedBytes : Option Int

/-- Computations on the state of the reader, which may raise an exception. -/
abbrev M := StateT State (Except Exn)

def checkAllowedBytes (size : Nat) : M (Option Int) := do
  match (← get).allowedBytes with
  | some len => if len < size then throw (.readError .sizeLimitExceeded) else pure (some (len - size))
  | none => pure none

def checkRemainingBytes (size : Nat) : M Nat := do
  let remainingBytes := (← get).remainingBytes
  if remainingBytes < size then throw (.readError .notEnoughData) else pure (remainingBytes - size)

def setRemainingBytes (remainingBytes : Nat) : M Unit := modify fun st => { st with remainingBytes }

def setAllowedBytes (allowedBytes : Option Int) : M Unit := modify fun st => { st with allowedBytes }

def readAtom {α : Type} (size : Nat) (conv : MBytes → Nat → Except Exn α) : M α := do
  let offset := (← get).offset
  setRemainingBytes (← checkRemainingBytes size)
  setAllowedBytes (← checkAllowedBytes size)
  modify fun st => { st with offset := st.offset + size }
  conv (← get).buffer offset

def uint8 : M Int := readAtom BinarySize.uint8 MBytes.getUint8
def uint16 : M Int := readAtom BinarySize.int16 MBytes.getUint16
def int8 : M Int := readAtom BinarySize.int8 MBytes.getInt8
def int16 : M Int := readAtom BinarySize.int16 MBytes.getInt16
def int32 : M (BitVec 32) := readAtom BinarySize.int32 MBytes.getInt32
def int64 : M (BitVec 64) := readAtom BinarySize.int64 MBytes.getInt64
def float : M Float := readAtom BinarySize.float MBytes.getDouble

def bool : M Bool := do
  let v ← int8
  pure (decide (v ≠ 0))

def uint30 : M Int :=
  readAtom BinarySize.uint30 fun buffer ofs => do
    let v := (← MBytes.getInt32 buffer ofs).toInt
    if v < 0 then .error (.readError (.invalidInt 0 v (2 ^ 30 - 1))) else pure v

def int31 : M Int :=
  readAtom BinarySize.int31 fun buffer ofs => do
    let v ← MBytes.getInt32 buffer ofs
    pure v.toInt

def int : Integer → M Int
  | .int31 => int31
  | .int16 => int16
  | .int8 => int8
  | .uint30 => uint30
  | .uint16 => uint16
  | .uint8 => uint8

def rangedInt (minimum maximum : Int) : M Int := do
  let ranged ← int (BinarySize.rangeToSize minimum maximum)
  let ranged := if minimum > 0 then ranged + minimum else ranged
  if ¬(minimum ≤ ranged ∧ ranged ≤ maximum) then throw (.readError (.invalidInt minimum ranged maximum))
  else pure ranged

def rangedFloat (minimum maximum : Float) : M Float := do
  let ranged ← float
  if ¬(minimum ≤ ranged ∧ ranged ≤ maximum) then throw (.readError (.invalidFloat minimum ranged maximum))
  else pure ranged

/-- One byte of `read_z`: what is added to the buffer `res`, and the next `value` and `bit_in_value`. -/
def stepZ (res : MBytes) (value bitInValue byte : Nat) : MBytes × Nat × Nat :=
  let value := value ||| ((byte &&& 0x7F) <<< bitInValue)
  let bitInValue := bitInValue + 7
  if bitInValue < 8 then (res, value, bitInValue)
  else (res ++ [UInt8.ofNat (value &&& 0xFF)], value >>> 8, bitInValue - 8)

/-- The end of `read_z`, at the byte without a continuation bit. -/
def endZ (res : MBytes) (value bitInValue byte : Nat) : Except Exn Int :=
  let res := if bitInValue > 0 then res ++ [UInt8.ofNat value] else res
  if byte = 0x00 then .error (.readError .trailingZero) else .ok (ofLE res)

/-- `read_z`. Each round takes a byte of the input, so `remaining_bytes + 1` rounds are enough. -/
def readZ : Nat → MBytes → Nat → Nat → M Int
  | 0, _, _, _ => throw .diverges
  | rounds + 1, res, value, bitInValue => do
    let byte ← uint8
    let next := stepZ res value bitInValue byte.toNat
    if byte.toNat &&& 0x80 = 0x80 then readZ rounds next.1 next.2.1 next.2.2
    else endZ next.1 next.2.1 next.2.2 byte.toNat

def n : M Int := do
  let first ← uint8
  let firstValue := first.toNat &&& 0x7F
  if first.toNat &&& 0x80 = 0x80 then readZ ((← get).remainingBytes + 1) [] firstValue 7
  else pure firstValue

def z : M Int := do
  let first ← uint8
  let firstValue := first.toNat &&& 0x3F
  let sign := decide (first.toNat &&& 0x40 ≠ 0)
  if first.toNat &&& 0x80 = 0x80 then
    let v ← readZ ((← get).remainingBytes + 1) [] firstValue 6
    pure (if sign then -v else v)
  else pure (if sign then -(firstValue : Int) else firstValue)

def stringEnum {α : Type} (arr : List α) : M α := do
  let index ← int (BinarySize.enumSize arr.length).toInteger
  match arr[index.toNat]? with
  | none => throw (.readError .noCaseMatched)
  | some v => pure v

def fixedLengthBytes (length : Nat) : M MBytes := readAtom length fun buf ofs => MBytes.sub buf ofs length

def fixedLengthString (length : Nat) : M MBytes := readAtom length fun buf ofs => MBytes.sub buf ofs length

def tag : TagSize → M Int
  | .uint8 => uint8
  | .uint16 => uint16

def atom : {α : Type} → Atom α → M α
  | _, .bool => bool
  | _, .int8 => int8
  | _, .uint8 => uint8
  | _, .int16 => int16
  | _, .uint16 => uint16
  | _, .int31 => int31
  | _, .int32 => int32
  | _, .int64 => int64
  | _, .n => n
  | _, .z => z
  | _, .float => float
  | _, .bytes (.fixed n _) => fixedLengthBytes n
  | _, .bytes .variable => do fixedLengthBytes (← get).remainingBytes
  | _, .string (.fixed n _) => fixedLengthString n
  | _, .string .variable => do fixedLengthString (← get).remainingBytes
  | _, .rangedInt r => rangedInt r.minimum r.maximum
  | _, .rangedFloat minimum maximum => rangedFloat minimum maximum
  | _, .stringEnum cases => stringEnum cases.arr

/-! ### Encodings -/

section Parts
variable {α β : Type}

/-- `read_list` over the reader `read` of an element, for at most the given number of rounds; `none` is
    `max_int`. A negative `maxLength` never comes down to zero and sets no limit either. -/
def readList (error : ReadError) (read : M α) : Nat → Option Int → M (List α)
  | 0, _ => throw .diverges
  | rounds + 1, maxLength => do
    if (← get).remainingBytes = 0 then pure []
    else if maxLength = some 0 then throw (.readError error)
    else
      let v ← read
      let l ← readList error read rounds (maxLength.map (· - 1))
      pure (v :: l)

/-- The rounds of `read_list`: as long as each element takes a byte, or there is a limit, it ends within
    them; an element that takes none, without a limit, is read again and again. -/
def listRounds (maxLength : Option Int) (remainingBytes : Nat) : Nat := remainingBytes + (maxLength.getD 0).toNat + 1

def readVariablePair (leftKind rightKind : Kind) (left : M α) (right : M β) : M (α × β) :=
  match leftKind, rightKind with
  | .dynamic, .variable | .fixed _, .variable => do
    let v ← left
    let w ← right
    pure (v, w)
  | .variable, .fixed n => do
    let remainingBytes := (← get).remainingBytes
    if n > remainingBytes then throw (.readError .notEnoughData)
    else
      setRemainingBytes (remainingBytes - n)
      let v ← left
      if (← get).remainingBytes ≠ 0 then throw .assertFailure
      else
        setRemainingBytes n
        let w ← right
        if (← get).remainingBytes ≠ 0 then throw .assertFailure
        else pure (v, w)
  | _, _ => throw .assertFailure

def readPair (kind leftKind rightKind : Kind) (left : M α) (right : M β) : M (α × β) :=
  match kind with
  | .fixed sz => do
    let _ ← checkRemainingBytes sz
    let _ ← checkAllowedBytes sz
    let v ← left
    let w ← right
    pure (v, w)
  | .dynamic => do
    let v ← left
    let w ← right
    pure (v, w)
  | .variable => readVariablePair leftKind rightKind left right

def readDynamicSize (kind : UnsignedInteger) (read : M α) : M α := do
  let sz ← int kind.toInteger
  let remaining ← checkRemainingBytes sz.toNat
  setRemainingBytes sz.toNat
  let _ ← checkAllowedBytes sz.toNat
  let v ← read
  if (← get).remainingBytes ≠ 0 then throw (.readError .extraBytes)
  else
    setRemainingBytes remaining
    pure v

def readCheckSize (limit : Int) (read : M α) : M α := do
  let oldAllowedBytes := (← get).allowedBytes
  let limit := match oldAllowedBytes with
    | none => limit
    | some currentLimit => min currentLimit limit
  setAllowedBytes (some limit)
  let v ← read
  match oldAllowedBytes with
  | none =>
    setAllowedBytes none
    pure v
  | some oldLimit =>
    match (← get).allowedBytes with
    | none => throw .assertFailure
    | some remaining =>
      let read := limit - remaining
      setAllowedBytes (some (oldLimit - read))
      pure v

end Parts

section ReadRec
variable {ι : Type → Type}

/-- The body of `read_rec`, where `rec` reads the unfolding of a recursive encoding. -/
def readDesc (rec : {β : Type} → ι β → M β) : {α : Type} → Encoding ι α → M α
  | _, .null => pure ()
  | _, .empty => pure ()
  | _, .constant => pure ()
  | _, .ignore => pure ()
  | _, .atom a => atom a
  | _, .padded e n => do
    let v ← readDesc rec e
    let _ ← fixedLengthString n
    pure v
  | _, .array maxLength e => do
    let l ← readList .listTooLong (readDesc rec e) (listRounds maxLength (← get).remainingBytes) maxLength
    pure l.toArray
  | _, .list maxLength e => do
    readList .arrayTooLong (readDesc rec e) (listRounds maxLength (← get).remainingBytes) maxLength
  | _, .req e | _, .dft e | _, .tup e | _, .describe e | _, .splitted e => readDesc rec e
  | _, .opt .dynamic e => do
    let present ← bool
    if ¬present then pure none
    else
      let v ← readDesc rec e
      pure (some v)
  | _, .opt .variable e => do
    if (← get).remainingBytes = 0 then pure none
    else
      let v ← readDesc rec e
      pure (some v)
  | _, .objs kind left right
  | _, .tups kind left right => readPair kind left.classify right.classify (readDesc rec left) (readDesc rec right)
  | _, .conv _ inj e => do
    let v ← readDesc rec e
    pure (inj v)
  | _, .union _ tagSize cases encoding => do
    let ctag ← tag tagSize
    match findTag cases ctag with
    | none => throw (.readError (.unexpectedTag ctag))
    | some i =>
      let v ← readDesc rec (encoding i)
      pure ((cases i).inj v)
  | _, .dynamicSize kind e => readDynamicSize kind (readDesc rec e)
  | _, .checkSize limit e => readCheckSize limit (readDesc rec e)
  | _, .mu _ x => rec x
  | _, .delayed f => readDesc rec (f ())

def readRec (D : Defs ι) : Nat → {α : Type} → Encoding ι α → M α
  | 0, _, e => readDesc (fun _ => throw .diverges) e
  | fuel + 1, _, e => readDesc (fun x => readRec D fuel (D.unfold x)) e

/-- The handlers of `read` and `of_bytes`: a `Read_error` is `None`, any other exception goes through. -/
def catchReadError {ρ : Type} (x : Except Exn ρ) : Except Exn (Option ρ) :=
  match x with
  | .ok v => .ok (some v)
  | .error (.readError _) => .ok none
  | .error x => .error x

variable {α : Type} (D : Defs ι) (fuel : Nat)

def read (e : Encoding ι α) (buffer : MBytes) (ofs len : Nat) : Except Exn (Option (Nat × α)) :=
  catchReadError do
    let (v, st) ← readRec D fuel e { buffer, offset := ofs, remainingBytes := len, allowedBytes := none }
    pure (st.offset, v)

def ofBytesExn (e : Encoding ι α) (buffer : MBytes) : Except Exn α := do
  let len := buffer.length
  let (v, st) ← readRec D fuel e { buffer, offset := 0, remainingBytes := len, allowedBytes := none }
  if st.offset ≠ len then .error (.readError .extraBytes) else pure v

def ofBytes (e : Encoding ι α) (buffer : MBytes) : Except Exn (Option α) := catchReadError (ofBytesExn D fuel e buffer)

end ReadRec
end Reader
end Tezos.DataEncoding
