import Tezos.DataEncoding.Encoding
import Tezos.DataEncoding.MBytes

/-! The binary writer (`lib_data_encoding/binary_writer.ml`) and the lengths of numbers it shares with
    `binary_length.ml`. The state of the writer is passed along; `junk` is what an uninitialised buffer
    holds. -/

namespace Tezos.DataEncoding

def numbits (v : Int) : Nat := v.natAbs.size

/-- `Z.to_int (Z.extract v pos len)`. -/
def getChunk (v : Nat) (pos len : Nat) : Nat := v / 2 ^ pos % 2 ^ len

def nLength (v : Int) : Nat :=
  let bits := numbits v
  if bits = 0 then 1 else (bits + 6) / 7

def zLength (v : Int) : Nat := (numbits v + 1 + 6) / 7

/-- A list or an array longer than the maximum of its encoding. -/
def tooLong (maxLength : Option Int) (length : Nat) : Bool :=
  match maxLength with
  | some maxLength => decide ((length : Int) > maxLength)
  | none => false

/-- The first case, `Json_only` ones left out, that projects a value: its index, its tag, its payload. -/
def selectCase {α : Type} {n : Nat} {β : Fin n → Type} (cases : (i : Fin n) → Case α (β i)) (v : α) :
    Option ((i : Fin n) × Int × β i) :=
  (List.finRange n).findSome? fun i =>
    match (cases i).tag with
    | .jsonOnly => none
    | .tag tag => ((cases i).proj v).map fun x => ⟨i, tag, x⟩

namespace Writer

structure State where
  buffer : MBytes
  offset : Nat
  allowedBytes : Option Int

def checkAllowedBytes (st : State) (size : Nat) : Except Exn State :=
  match st.allowedBytes with
  | some len =>
    if len < size then .error (.writeError .sizeLimitExceeded)
    else .ok { st with allowedBytes := some (len - size) }
  | none => .ok st

def mayResize (junk : Nat → UInt8) (st : State) (size : Nat) : Except Exn State := do
  let st ← checkAllowedBytes st size
  let bufferLen := st.buffer.length
  if bufferLen < st.offset + size then
    let old ← MBytes.sub st.buffer 0 st.offset
    let newBuffer ← MBytes.blit old (MBytes.create junk (max (2 * bufferLen) (bufferLen + size))) 0
    pure { st with buffer := newBuffer, offset := st.offset + size }
  else
    pure { st with offset := st.offset + size }

/-! ### Atoms -/

def checkIntRange (min v max : Int) : Except Exn Unit :=
  if v < min ∨ max < v then .error (.writeError (.invalidInt min v max)) else .ok ()

def checkFloatRange (min v max : Float) : Except Exn Unit :=
  if v < min ∨ max < v then .error (.writeError (.invalidFloat min v max)) else .ok ()

def setInt (kind : Integer) (buffer : MBytes) (ofs : Nat) (v : Int) : Except Exn MBytes :=
  match kind with
  | .int31 | .uint30 => MBytes.setInt32 buffer ofs (BitVec.ofInt 32 v)
  | .int16 | .uint16 => MBytes.setInt16 buffer ofs v
  | .int8 | .uint8 => MBytes.setInt8 buffer ofs v

section Atoms
variable (junk : Nat → UInt8)

def int (kind : Integer) (st : State) (v : Int) : Except Exn State := do
  checkIntRange (BinarySize.minInt kind) v (BinarySize.maxInt kind)
  let ofs := st.offset
  let st ← mayResize junk st (BinarySize.integerToSize kind)
  let buffer ← setInt kind st.buffer ofs v
  pure { st with buffer }

variable (st : State)

def bool (v : Bool) : Except Exn State := int junk .uint8 st (if v then 255 else 0)

def int32 (v : BitVec 32) : Except Exn State := do
  let ofs := st.offset
  let st ← mayResize junk st BinarySize.int32
  let buffer ← MBytes.setInt32 st.buffer ofs v
  pure { st with buffer }

def int64 (v : BitVec 64) : Except Exn State := do
  let ofs := st.offset
  let st ← mayResize junk st BinarySize.int64
  let buffer ← MBytes.setInt64 st.buffer ofs v
  pure { st with buffer }

def rangedInt (minimum maximum : Int) (st : State) (v : Int) : Except Exn State := do
  checkIntRange minimum v maximum
  let v := if minimum ≥ 0 then v - minimum else v
  int junk (BinarySize.rangeToSize minimum maximum) st v

def n (v : Int) : Except Exn State :=
  if v < 0 then .error (.writeError .invalidNatural)
  else if v = 0 then int junk .uint8 st 0
  else do
    let bits := numbits v
    let length := nLength v
    let offset := st.offset
    let st ← mayResize junk st length
    let buffer ← (List.range length).foldlM (fun buffer i => do
      let pos := i * 7
      let chunkLen := if i = length - 1 then bits - pos else 7
      MBytes.setInt8 buffer (offset + i)
        (((if i = length - 1 then 0x00 else 0x80) ||| getChunk v.natAbs pos chunkLen : Nat) : Int)) st.buffer
    pure { st with buffer }

def z (v : Int) : Except Exn State :=
  let sign := decide (v < 0)
  let bits := numbits v
  if v = 0 then int junk .uint8 st 0
  else do
    let v := v.natAbs
    let length := zLength v
    let offset := st.offset
    let st ← mayResize junk st length
    let buffer ← MBytes.setInt8 st.buffer offset
      (((if sign then 0x40 else 0x00) ||| (if bits > 6 then 0x80 else 0x00) ||| getChunk v 0 6 : Nat) : Int)
    let buffer ← (List.range (length - 1)).foldlM (fun buffer j => do
      let i := j + 1
      let pos := 6 + (i - 1) * 7
      let chunkLen := if i = length - 1 then bits - pos else 7
      MBytes.setInt8 buffer (offset + i)
        (((if i = length - 1 then 0x00 else 0x80) ||| getChunk v pos chunkLen : Nat) : Int)) buffer
    pure { st with buffer }

def float (v : Float) : Except Exn State := do
  let ofs := st.offset
  let st ← mayResize junk st BinarySize.float
  let buffer ← MBytes.setDouble st.buffer ofs v
  pure { st with buffer }

def rangedFloat (minimum maximum : Float) (st : State) (v : Float) : Except Exn State := do
  checkFloatRange minimum v maximum
  float junk st v

def stringEnum {α : Type} (cases : StringEnum α) (st : State) (v : α) : Except Exn State :=
  match cases.find v with
  | none => .error (.writeError .noCaseMatched)
  | some (_, value) => int junk (BinarySize.enumSize cases.arr.length).toInteger st value

def fixedKindBytes (length : Nat) (st : State) (s : MBytes) : Except Exn State :=
  if s.length ≠ length then .error (.writeError (.invalidBytesLength length s.length))
  else do
    let ofs := st.offset
    let st ← mayResize junk st length
    let buffer ← MBytes.blit s st.buffer ofs
    pure { st with buffer }

def fixedKindString (length : Nat) (st : State) (s : MBytes) : Except Exn State :=
  if s.length ≠ length then .error (.writeError (.invalidStringLength length s.length))
  else do
    let ofs := st.offset
    let st ← mayResize junk st length
    let buffer ← MBytes.blit s st.buffer ofs
    pure { st with buffer }

def atom : {α : Type} → Atom α → State → α → Except Exn State
  | _, .bool => bool junk
  | _, .int8 => int junk .int8
  | _, .uint8 => int junk .uint8
  | _, .int16 => int junk .int16
  | _, .uint16 => int junk .uint16
  | _, .int31 => int junk .int31
  | _, .int32 => int32 junk
  | _, .int64 => int64 junk
  | _, .n => n junk
  | _, .z => z junk
  | _, .rangedInt r => rangedInt junk r.minimum r.maximum
  | _, .rangedFloat minimum maximum => rangedFloat junk minimum maximum
  | _, .float => float junk
  | _, .bytes (.fixed n _) => fixedKindBytes junk n
  | _, .bytes .variable => fun st v => fixedKindBytes junk v.length st v
  | _, .string (.fixed n _) => fixedKindString junk n
  | _, .string .variable => fun st v => fixedKindString junk v.length st v
  | _, .stringEnum cases => stringEnum junk cases

end Atoms

/-- Run `write` under a limit, and restore the previous one less the bytes written. -/
def writeWithLimit (limit : Int) (write : State → Except Exn State) (st : State) : Except Exn State := do
  let oldLimit := st.allowedBytes
  let limit := match oldLimit with
    | none => limit
    | some oldLimit => min oldLimit limit
  let st ← write { st with allowedBytes := some limit }
  match oldLimit with
  | none => pure { st with allowedBytes := none }
  | some oldLimit =>
    match st.allowedBytes with
    | none => .error .assertFailure
    | some remaining =>
      let read := limit - remaining
      pure { st with allowedBytes := some (oldLimit - read) }

section WriteRec
variable {ι : Type → Type} (junk : Nat → UInt8)

def writeDesc (rec : {β : Type} → ι β → State → β → Except Exn State) :
    {α : Type} → Encoding ι α → State → α → Except Exn State
  | _, .null, st, _ => .ok st
  | _, .empty, st, _ => .ok st
  | _, .constant, st, _ => .ok st
  | _, .ignore, st, _ => .ok st
  | _, .atom a, st, v => atom junk a st v
  | _, .padded e n, st, v => do
    let st ← writeDesc rec e st v
    fixedKindString junk n st (List.replicate n 0)
  | _, .array maxLength e, st, v =>
    if tooLong maxLength v.size then .error (.writeError .arrayTooLong)
    else v.toList.foldlM (writeDesc rec e) st
  | _, .list maxLength e, st, v =>
    if tooLong maxLength v.length then .error (.writeError .listTooLong)
    else v.foldlM (writeDesc rec e) st
  | _, .req e, st, v | _, .dft e, st, v | _, .tup e, st, v
  | _, .describe e, st, v | _, .splitted e, st, v => writeDesc rec e st v
  | _, .opt .dynamic e, st, v =>
    match v with
    | none => bool junk st false
    | some v => do
      let st ← bool junk st true
      writeDesc rec e st v
  | _, .opt .variable e, st, v =>
    match v with
    | none => .ok st
    | some v => writeDesc rec e st v
  | _, .objs _ left right, st, (v1, v2) | _, .tups _ left right, st, (v1, v2) => do
    let st ← writeDesc rec left st v1
    writeDesc rec right st v2
  | _, .conv proj _ e, st, v => writeDesc rec e st (proj v)
  | _, .union _ tagSize cases encoding, st, v =>
    match selectCase cases v with
    | none => .error (.writeError .noCaseMatched)
    | some ⟨i, tag, v⟩ => do
      let st ← int junk tagSize.toInteger st tag
      writeDesc rec (encoding i) st v
  | _, .dynamicSize kind e, st, v => do
    let initialOffset := st.offset
    let st ← int junk kind.toInteger st 0
    let st ← writeWithLimit (BinarySize.maxInt kind.toInteger) (fun st => writeDesc rec e st v) st
    let buffer ← setInt kind.toInteger st.buffer initialOffset
      (st.offset - initialOffset - BinarySize.integerToSize kind.toInteger)
    pure { st with buffer }
  | _, .checkSize limit e, st, v => writeWithLimit limit (fun st => writeDesc rec e st v) st
  | _, .mu _ x, st, v => rec x st v
  | _, .delayed f, st, v => writeDesc rec (f ()) st v

def writeRec (D : Defs ι) : Nat → {α : Type} → Encoding ι α → State → α → Except Exn State
  | 0, _, e => writeDesc junk (fun _ _ _ => .error .diverges) e
  | fuel + 1, _, e => writeDesc junk (fun x => writeRec D fuel (D.unfold x)) e

/-- `write`: the offset after the value, and the buffer; what the buffer holds after a failure is left out. -/
def write {α : Type} (D : Defs ι) (fuel : Nat) (e : Encoding ι α) (v : α) (buffer : MBytes) (offset len : Nat) :
    Except Exn (Option (Nat × MBytes)) :=
  match writeRec junk D fuel e { buffer, offset, allowedBytes := some len } v with
  | .ok st => .ok (some (st.offset, st.buffer))
  | .error (.writeError _) => .ok none
  | .error x => .error x

def toBytesExn {α : Type} (D : Defs ι) (fuel : Nat) (e : Encoding ι α) (v : α) : Except Exn MBytes :=
  match e.classify with
  | .fixed n => do
    let st ← writeRec junk D fuel e { buffer := MBytes.create junk n, offset := 0, allowedBytes := some n } v
    pure st.buffer
  | .dynamic | .variable => do
    let st ← writeRec junk D fuel e { buffer := MBytes.create junk 4096, offset := 0, allowedBytes := none } v
    MBytes.sub st.buffer 0 st.offset

def toBytes {α : Type} (D : Defs ι) (fuel : Nat) (e : Encoding ι α) (v : α) : Except Exn (Option MBytes) :=
  match toBytesExn junk D fuel e v with
  | .ok b => .ok (some b)
  | .error (.writeError _) => .ok none
  | .error x => .error x

end WriteRec
end Writer
end Tezos.DataEncoding
