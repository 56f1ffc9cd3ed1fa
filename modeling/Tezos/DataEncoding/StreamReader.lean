import Tezos.DataEncoding.Reader
import Tezos.Stdlib.BinaryStream

/-! The incremental reader (`lib_data_encoding/binary_stream_reader.ml`), in continuation passing style: a
    function ends by calling its continuation, or with a status. -/

namespace Tezos.DataEncoding.StreamReader
open Lib

structure State where
  stream : BinaryStream
  remainingBytes : Option Nat
  allowedBytes : Option Int
  totalRead : Nat

def State.push (buffer : MBytes) (state : State) : State := { state with stream := state.stream.push buffer }

/-- What an evaluation ends with: a status, or an exception that goes through. There are three closures under
    `Await`, those of `read_rec`, `skip` and `read_z`; each is here the data it closes over, and `resume` below
    is their bodies. The buffer `res` of `read_z` is mutable: a closure that is called once finds it as it was
    when it was built. `fuel` is the number of nested unfoldings left. -/
inductive Status (ι : Type → Type) (ρ : Type) : Type 1
  | success (result : ρ) (size : Nat) (stream : BinaryStream)
  | awaitRec (fuel : Nat) (whole : Bool) {α : Type} (e : Encoding ι α) (state : State) (k : α × State → Status ι ρ)
  | awaitSkip (n : Nat) (state : State) (k : State → Status ι ρ)
  | awaitZ (res : MBytes) (value bitInValue : Nat) (state : State) (k : Int × State → Status ι ρ)
  | error (err : ReadError)
  | raised (x : Exn)

variable {ι : Type → Type} {ρ : Type}

def Status.handle : Status ι ρ → Status ι ρ
  | .raised (.readError err) => .error err
  | s => s

def checkRemainingBytes (state : State) (size : Nat) : Except Exn (Option Nat) :=
  match state.remainingBytes with
  | some len => if len < size then .error (.readError .notEnoughData) else .ok (some (len - size))
  | none => .ok none

def checkAllowedBytes (state : State) (size : Nat) : Except Exn (Option Int) :=
  match state.allowedBytes with
  | some len => if len < size then .error (.readError .sizeLimitExceeded) else .ok (some (len - size))
  | none => .ok none

/-- The protected part of `read_atom`; `none` is the exception `Need_more_data`. -/
def tryAtom {α : Type} (size : Nat) (conv : MBytes → Nat → Except Exn α) (state : State) :
    Except Exn (Option (α × State)) := do
  let remainingBytes ← checkRemainingBytes state size
  let allowedBytes ← checkAllowedBytes state size
  match ← state.stream.read size with
  | none => pure none
  | some (res, stream) =>
    let v ← conv res.buffer res.ofs
    pure (some (v, { remainingBytes, allowedBytes, stream, totalRead := state.totalRead + size }))

def readAtom {α : Type} (resume : Status ι ρ) (size : Nat) (conv : MBytes → Nat → Except Exn α) (state : State)
    (k : α × State → Status ι ρ) : Status ι ρ :=
  match tryAtom size conv state with
  | .error (.readError err) => .error err
  | .error x => .raised x
  | .ok none => resume
  | .ok (some v) => k v

/-! ### Atoms -/

section Atoms
variable (r : Status ι ρ) (state : State) (k : Int × State → Status ι ρ)

def uint8 : Status ι ρ := readAtom r BinarySize.uint8 MBytes.getUint8 state k
def uint16 : Status ι ρ := readAtom r BinarySize.int16 MBytes.getUint16 state k
def int8 : Status ι ρ := readAtom r BinarySize.int8 MBytes.getInt8 state k
def int16 : Status ι ρ := readAtom r BinarySize.int16 MBytes.getInt16 state k
def int32 (k : BitVec 32 × State → Status ι ρ) : Status ι ρ := readAtom r BinarySize.int32 MBytes.getInt32 state k
def int64 (k : BitVec 64 × State → Status ι ρ) : Status ι ρ := readAtom r BinarySize.int64 MBytes.getInt64 state k
def float (k : Float × State → Status ι ρ) : Status ι ρ := readAtom r BinarySize.float MBytes.getDouble state k

def bool (k : Bool × State → Status ι ρ) : Status ι ρ :=
  int8 r state fun (v, state) => k (decide (v ≠ 0), state)

def uint30 : Status ι ρ :=
  readAtom r BinarySize.uint30 (fun buffer ofs => do
    let v := (← MBytes.getInt32 buffer ofs).toInt
    if v < 0 then .error (.readError (.invalidInt 0 v (2 ^ 30 - 1))) else pure v) state k

def int31 : Status ι ρ :=
  readAtom r BinarySize.int31 (fun buffer ofs => do
    let v ← MBytes.getInt32 buffer ofs
    pure v.toInt) state k

def int (kind : Integer) (k : Int × State → Status ι ρ) : Status ι ρ :=
  match kind with
  | .int31 => int31 r state k
  | .int16 => int16 r state k
  | .int8 => int8 r state k
  | .uint30 => uint30 r state k
  | .uint16 => uint16 r state k
  | .uint8 => uint8 r state k

def rangedInt (minimum maximum : Int) (k : Int × State → Status ι ρ) : Status ι ρ :=
  int r state (BinarySize.rangeToSize minimum maximum) fun (ranged, state) =>
    let ranged := if minimum > 0 then ranged + minimum else ranged
    if ¬(minimum ≤ ranged ∧ ranged ≤ maximum) then .error (.invalidInt minimum ranged maximum)
    else k (ranged, state)

def rangedFloat (minimum maximum : Float) (k : Float × State → Status ι ρ) : Status ι ρ :=
  float r state fun (ranged, state) =>
    if ¬(minimum ≤ ranged ∧ ranged ≤ maximum) then .error (.invalidFloat minimum ranged maximum)
    else k (ranged, state)

end Atoms

/-- The loop of `read_z` until the stream is exhausted, one byte a round. -/
def readZRounds (k : Int × State → Status ι ρ) : Nat → MBytes → Nat → Nat → State → Status ι ρ
  | 0, _, _, _, _ => .raised .diverges
  | rounds + 1, res, value, bitInValue, state =>
    uint8 (.awaitZ res value bitInValue state k) state fun (byte, state) =>
      let next := Reader.stepZ res value bitInValue byte.toNat
      if byte.toNat &&& 0x80 = 0x80 then readZRounds k rounds next.1 next.2.1 next.2.2 state
      else match Reader.endZ next.1 next.2.1 next.2.2 byte.toNat with
        | .error x => .raised x
        | .ok v => k (v, state)

/-- `read_z`: each round takes a byte of the stream or waits for one, so `unread + 1` rounds are enough. -/
def readZ (res : MBytes) (value bitInValue : Nat) (state : State) (k : Int × State → Status ι ρ) : Status ι ρ :=
  readZRounds k (state.stream.unread + 1) res value bitInValue state

section Atoms
variable (r : Status ι ρ) (state : State)

def n (k : Int × State → Status ι ρ) : Status ι ρ :=
  uint8 r state fun (first, state) =>
    let firstValue := first.toNat &&& 0x7F
    if first.toNat &&& 0x80 = 0x80 then readZ [] firstValue 7 state k
    else k (firstValue, state)

def z (k : Int × State → Status ι ρ) : Status ι ρ :=
  uint8 r state fun (first, state) =>
    let firstValue := first.toNat &&& 0x3F
    let sign := decide (first.toNat &&& 0x40 ≠ 0)
    if first.toNat &&& 0x80 = 0x80 then
      readZ [] firstValue 6 state fun (v, state) => k (if sign then -v else v, state)
    else k (if sign then -(firstValue : Int) else firstValue, state)

def stringEnum {α : Type} (arr : List α) (k : α × State → Status ι ρ) : Status ι ρ :=
  int r state (BinarySize.enumSize arr.length).toInteger fun (index, state) =>
    match arr[index.toNat]? with
    | none => .error .noCaseMatched
    | some v => k (v, state)

def fixedLengthBytes (length : Nat) (k : MBytes × State → Status ι ρ) : Status ι ρ :=
  readAtom r length (fun buf ofs => MBytes.sub buf ofs length) state k

def fixedLengthString (length : Nat) (k : MBytes × State → Status ι ρ) : Status ι ρ :=
  readAtom r length (fun buf ofs => MBytes.sub buf ofs length) state k

def tag (size : TagSize) (k : Int × State → Status ι ρ) : Status ι ρ :=
  match size with
  | .uint8 => uint8 r state k
  | .uint16 => uint16 r state k

/-- `remaining_bytes`, which is only called where there are some. -/
def withRemainingBytes (k : Nat → Status ι ρ) : Status ι ρ :=
  match state.remainingBytes with
  | none => .raised .assertFailure
  | some len => k len

def atom : {α : Type} → Atom α → (α × State → Status ι ρ) → Status ι ρ
  | _, .bool, k => bool r state k
  | _, .int8, k => int8 r state k
  | _, .uint8, k => uint8 r state k
  | _, .int16, k => int16 r state k
  | _, .uint16, k => uint16 r state k
  | _, .int31, k => int31 r state k
  | _, .int32, k => int32 r state k
  | _, .int64, k => int64 r state k
  | _, .n, k => n r state k
  | _, .z, k => z r state k
  | _, .float, k => float r state k
  | _, .bytes (.fixed n _), k => fixedLengthBytes r state n k
  | _, .bytes .variable, k => withRemainingBytes state fun size => fixedLengthBytes r state size k
  | _, .string (.fixed n _), k => fixedLengthString r state n k
  | _, .string .variable, k => withRemainingBytes state fun size => fixedLengthString r state size k
  | _, .rangedInt range, k => rangedInt r state range.minimum range.maximum k
  | _, .rangedFloat minimum maximum, k => rangedFloat r state minimum maximum k
  | _, .stringEnum cases, k => stringEnum r state cases.arr k

end Atoms

def skip (n : Nat) (state : State) (k : State → Status ι ρ) : Status ι ρ :=
  fixedLengthString (.awaitSkip n state k) state n fun (_, state) => k state

/-! ### Encodings -/

section Parts
variable {α β : Type}

/-- A reader of values: what it does in a state, before a continuation. -/
abbrev Step (ι : Type → Type) (ρ α : Type) := State → (α × State → Status ι ρ) → Status ι ρ

/-- The first thing that `read_rec` does with an encoding. -/
def assertRemaining (e : Encoding ι α) (read : Step ι ρ α) : Step ι ρ α := fun state k =>
  if e.classify = .variable ∧ state.remainingBytes = none then .raised .assertFailure else read state k

/-- The loop of `read_list`, for at most the given number of rounds; `none` is `max_int`. -/
def readList (error : ReadError) (read : Step ι ρ α) (k : List α × State → Status ι ρ) :
    Nat → State → List α → Option Int → Status ι ρ
  | 0, _, _, _ => .raised .diverges
  | rounds + 1, state, acc, maxLength =>
    withRemainingBytes state fun size =>
      if size = 0 then k (acc.reverse, state)
      else if maxLength = some 0 then .raised (.readError error)
      else read state fun (v, state) => readList error read k rounds state (v :: acc) (maxLength.map (· - 1))

/-- `read_list`, with the rounds of the reader of buffers. -/
def readAll (error : ReadError) (read : Step ι ρ α) (maxLength : Option Int) : Step ι ρ (List α) := fun state k =>
  withRemainingBytes state fun size => readList error read k (Reader.listRounds maxLength size) state [] maxLength

/-- Two parts, one after the other. -/
def readSeq (left : Step ι ρ α) (right : Step ι ρ β) : Step ι ρ (α × β) := fun state k =>
  left state fun (v, state) => right state fun (w, state) => k ((v, w), state)

def readVariablePair (leftKind rightKind : Kind) (left : Bool → Step ι ρ α) (right : Bool → Step ι ρ β) :
    Step ι ρ (α × β) := fun state k =>
  withRemainingBytes state fun size =>
    match leftKind, rightKind with
    | .dynamic, .variable | .fixed _, .variable => readSeq (left false) (right true) state k
    | .variable, .fixed n =>
      if n > size then .error .notEnoughData
      else left true { state with remainingBytes := some (size - n) } fun (v, state) =>
        if state.remainingBytes ≠ some 0 then .raised .assertFailure
        else right true { state with remainingBytes := some n } fun (w, state) =>
          if state.remainingBytes ≠ some 0 then .raised .assertFailure else k ((v, w), state)
    | _, _ => .raised .assertFailure

def readPair (kind leftKind rightKind : Kind) (whole : Bool) (left : Bool → Step ι ρ α)
    (right : Bool → Step ι ρ β) :
    Step ι ρ (α × β) := fun state k =>
  match kind with
  | .fixed sz =>
    match checkRemainingBytes state sz, checkAllowedBytes state sz with
    | .error x, _ => .raised x
    | .ok _, .error x => .raised x
    | .ok _, .ok _ => readSeq (left false) (right whole) state k
  | .dynamic => readSeq (left false) (right whole) state k
  | .variable => readVariablePair leftKind rightKind left right state k

/-- What follows the size in `Dynamic_size`. -/
def readWindow (sz : Nat) (read : Bool → Step ι ρ α) : Step ι ρ α := fun state k =>
  match checkRemainingBytes state sz with
  | .error x => .raised x
  | .ok remaining =>
    let state := { state with remainingBytes := some sz }
    match checkAllowedBytes state sz with
    | .error x => .raised x
    | .ok _ => read true state fun (v, state) =>
      if state.remainingBytes ≠ some 0 then .error .extraBytes else k (v, { state with remainingBytes := remaining })

def readCheckSize (limit : Int) (whole : Bool) (read : Step ι ρ α) : Step ι ρ α := fun state k =>
  let oldAllowedBytes := state.allowedBytes
  let limit := match state.allowedBytes with
    | none => limit
    | some currentLimit => min currentLimit limit
  let tooLarge := match state.remainingBytes with
    | some remaining => whole && decide (limit < remaining)
    | none => false
  if tooLarge then .raised (.readError .sizeLimitExceeded)
  else read { state with allowedBytes := some limit } fun (v, state) =>
    match oldAllowedBytes with
    | none => k (v, { state with allowedBytes := none })
    | some oldLimit =>
      match state.allowedBytes with
      | none => .raised .assertFailure
      | some remaining =>
        let read := limit - remaining
        k (v, { state with allowedBytes := some (oldLimit - read) })

end Parts

def readDesc (fuel : Nat) (rec : {β : Type} → ι β → Bool → Step ι ρ β) :
    {α : Type} → Encoding ι α → Bool → Step ι ρ α
  | _, .null, _, state, k | _, .empty, _, state, k | _, .constant, _, state, k | _, .ignore, _, state, k => k ((), state)
  | _, .atom a, whole, state, k => atom (.awaitRec fuel whole (.atom a) state k) state a k
  | _, .padded e n, _, state, k =>
    assertRemaining e (readDesc fuel rec e false) state fun (v, state) => skip n state fun state => k (v, state)
  | _, .array maxLength e, _, state, k =>
    readAll .arrayTooLong (assertRemaining e (readDesc fuel rec e false)) maxLength state fun (l, state) =>
      k (l.toArray, state)
  | _, .list maxLength e, _, state, k =>
    readAll .listTooLong (assertRemaining e (readDesc fuel rec e false)) maxLength state k
  | _, .req e, whole, state, k | _, .dft e, whole, state, k | _, .tup e, whole, state, k
  | _, .describe e, whole, state, k | _, .splitted e, whole, state, k =>
    assertRemaining e (readDesc fuel rec e whole) state k
  | _, .opt .dynamic e, whole, state, k =>
    bool (.awaitRec fuel whole (.opt .dynamic e) state k) state fun (present, state) =>
      if ¬present then k (none, state)
      else assertRemaining e (readDesc fuel rec e whole) state fun (v, state) => k (some v, state)
  | _, .opt .variable e, whole, state, k =>
    withRemainingBytes state fun size =>
      if size = 0 then k (none, state)
      else assertRemaining e (readDesc fuel rec e whole) state fun (v, state) => k (some v, state)
  | _, .objs kind left right, whole, state, k | _, .tups kind left right, whole, state, k =>
    readPair kind left.classify right.classify whole (fun whole => assertRemaining left (readDesc fuel rec left whole))
      (fun whole => assertRemaining right (readDesc fuel rec right whole)) state k
  | _, .conv _ inj e, whole, state, k =>
    assertRemaining e (readDesc fuel rec e whole) state fun (v, state) => k (inj v, state)
  | _, .union kind tagSize cases encoding, whole, state, k =>
    tag (.awaitRec fuel whole (.union kind tagSize cases encoding) state k) state tagSize fun (ctag, state) =>
      match findTag cases ctag with
      | none => .error (.unexpectedTag ctag)
      | some i =>
        assertRemaining (encoding i) (readDesc fuel rec (encoding i) whole) state fun (v, state) =>
          k ((cases i).inj v, state)
  | _, .dynamicSize kind e, whole, state, k =>
    int (.awaitRec fuel whole (.dynamicSize kind e) state k) state kind.toInteger fun (sz, state) =>
      readWindow sz.toNat (fun whole => assertRemaining e (readDesc fuel rec e whole)) state k
  | _, .checkSize limit e, whole, state, k =>
    readCheckSize limit whole (assertRemaining e (readDesc fuel rec e whole)) state k
  | _, .mu _ x, whole, state, k => rec x whole state k
  | _, .delayed f, whole, state, k => assertRemaining (f ()) (readDesc fuel rec (f ()) whole) state k

def readRec (D : Defs ι) : Nat → {α : Type} → Encoding ι α → Bool → Step ι ρ α
  | 0, _, e, whole => assertRemaining e (readDesc 0 (fun _ _ _ _ => .raised .diverges) e whole)
  | fuel + 1, _, e, whole => assertRemaining e (readDesc (fuel + 1) (fun x => readRec D fuel (D.unfold x)) e whole)

/-- The continuation under an `Await`, given a chunk. That of `read_z` has no handler. -/
def resume (D : Defs ι) (status : Status ι ρ) (buffer : MBytes) : Status ι ρ :=
  match status with
  | .awaitRec fuel whole e state k => (readRec D fuel e whole (state.push buffer) k).handle
  | .awaitSkip n state k => (skip n (state.push buffer) k).handle
  | .awaitZ res value bitInValue state k => readZ res value bitInValue (state.push buffer) k
  | status => status

def Status.awaits : Status ι ρ → Bool
  | .awaitRec _ _ _ _ _ | .awaitSkip _ _ _ | .awaitZ _ _ _ _ _ => true
  | _ => false

/-- A run: the chunks are given one by one to the successive `Await`. It ends with a status, and the chunks that
    were not given. -/
def feed (D : Defs ι) : List MBytes → Status ι ρ → Status ι ρ × List MBytes
  | [], status => (status, [])
  | chunk :: chunks, status =>
    if status.awaits then feed D chunks (resume D status chunk) else (status, chunk :: chunks)

def success (r : ρ × State) : Status ι ρ := .success r.1 r.2.totalRead r.2.stream

def readStream (D : Defs ι) (fuel : Nat) (init : BinaryStream) (e : Encoding ι ρ) : Status ι ρ :=
  match e.classify with
  | .variable => .raised .invalidArgument
  | .dynamic | .fixed _ =>
    (readRec D fuel e false { remainingBytes := none, allowedBytes := none, stream := init, totalRead := 0 } success).handle

end Tezos.DataEncoding.StreamReader
