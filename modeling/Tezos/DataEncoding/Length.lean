import Tezos.DataEncoding.Writer

/-! The number of bytes a value is written as (`lib_data_encoding/binary_length.ml`), computed without
    writing it. -/

namespace Tezos.DataEncoding.BinaryLength

def atomLength : {α : Type} → Atom α → α → Nat
  | _, .bool, _ => BinarySize.bool
  | _, .int8, _ => BinarySize.int8
  | _, .uint8, _ => BinarySize.uint8
  | _, .int16, _ => BinarySize.int16
  | _, .uint16, _ => BinarySize.uint16
  | _, .int31, _ => BinarySize.int31
  | _, .int32, _ => BinarySize.int32
  | _, .int64, _ => BinarySize.int64
  | _, .n, value => nLength value
  | _, .z, value => zLength value
  | _, .rangedInt r, _ => BinarySize.integerToSize (BinarySize.rangeToSize r.minimum r.maximum)
  | _, .float, _ | _, .rangedFloat _ _, _ => BinarySize.float
  | _, .bytes (.fixed n _), _ => n
  | _, .string (.fixed n _), _ => n
  | _, .bytes .variable, value | _, .string .variable, value => value.length
  | _, .stringEnum c, _ => BinarySize.integerToSize (BinarySize.enumSize c.arr.length).toInteger

variable {ι : Type → Type}

/-- The body of `length`, where `rec` gives the length of the unfolding of a recursive encoding. -/
def lengthDesc (rec : {β : Type} → ι β → β → Except Exn Nat) :
    {α : Type} → Encoding ι α → α → Except Exn Nat
  | _, .null, _ | _, .empty, _ | _, .constant, _ | _, .ignore, _ => .ok 0
  | _, .atom a, value => .ok (atomLength a value)
  | _, .padded e n, value => do
    let length ← lengthDesc rec e value
    pure (length + n)
  | _, .objs kind left right, (v1, v2) | _, .tups kind left right, (v1, v2) =>
    match kind with
    | .fixed n => .ok n
    | .dynamic | .variable => do
      let l ← lengthDesc rec left v1
      let r ← lengthDesc rec right v2
      pure (l + r)
  | _, .union kind tagSize cases encoding, value =>
    match kind with
    | .fixed n => .ok n
    | .dynamic | .variable =>
      match selectCase cases value with
      | none => .error (.writeError .noCaseMatched)
      | some ⟨i, _, value⟩ => do
        let length ← lengthDesc rec (encoding i) value
        pure (BinarySize.tagSize tagSize + length)
  | _, .mu _ x, value => rec x value
  | _, .opt .dynamic e, value =>
    match value with
    | none => .ok 1
    | some value => do
      let length ← lengthDesc rec e value
      pure (1 + length)
  | _, .opt .variable e, value =>
    match value with
    | none => .ok 0
    | some value => lengthDesc rec e value
  | _, .array maxLength e, value =>
    if tooLong maxLength value.size then .error (.writeError .arrayTooLong)
    else value.toList.foldlM (fun acc v => do
      let length ← lengthDesc rec e v
      pure (length + acc)) 0
  | _, .list maxLength e, value =>
    if tooLong maxLength value.length then .error (.writeError .listTooLong)
    else value.foldlM (fun acc v => do
      let length ← lengthDesc rec e v
      pure (length + acc)) 0
  | _, .req e, value | _, .dft e, value | _, .tup e, value
  | _, .describe e, value | _, .splitted e, value => lengthDesc rec e value
  | _, .conv proj _ e, value => lengthDesc rec e (proj value)
  | _, .dynamicSize kind e, value => do
    let length ← lengthDesc rec e value
    pure (BinarySize.integerToSize kind.toInteger + length)
  | _, .checkSize limit e, value => do
    let length ← lengthDesc rec e value
    if (length : Int) > limit then .error (.writeError .sizeLimitExceeded) else pure length
  | _, .delayed f, value => lengthDesc rec (f ()) value

/-- `length`, for at most `fuel` nested unfoldings of recursive encodings. -/
def length (D : Defs ι) : Nat → {α : Type} → Encoding ι α → α → Except Exn Nat
  | 0, _, e => lengthDesc (fun _ _ => .error .diverges) e
  | fuel + 1, _, e => lengthDesc (fun x => length D fuel (D.unfold x)) e

end Tezos.DataEncoding.BinaryLength
