import Mathlib.Algebra.Ring.Int.Defs
import Mathlib.Data.Nat.Size

/-! Sizes and ranges of the integers of the binary format, and the errors of its readers and writers
    (`lib_data_encoding/binary_size.ml`, `binary_error.ml`). -/

namespace Tezos.DataEncoding

abbrev MBytes := List UInt8

inductive TagSize where
  | uint8
  | uint16
  deriving DecidableEq, Repr

inductive UnsignedInteger where
  | uint30
  | uint16
  | uint8
  deriving DecidableEq, Repr

inductive Integer where
  | int31
  | int16
  | int8
  | uint30
  | uint16
  | uint8
  deriving DecidableEq, Repr

def UnsignedInteger.toInteger : UnsignedInteger → Integer
  | .uint30 => .uint30
  | .uint16 => .uint16
  | .uint8 => .uint8

def TagSize.toInteger : TagSize → Integer
  | .uint8 => .uint8
  | .uint16 => .uint16

namespace BinarySize

def bool : Nat := 1
def int8 : Nat := 1
def uint8 : Nat := 1
def int16 : Nat := 2
def uint16 : Nat := 2
def uint30 : Nat := 4
def int31 : Nat := 4
def int32 : Nat := 4
def int64 : Nat := 8
def float : Nat := 8

def tagSize : TagSize → Nat
  | .uint8 => uint8
  | .uint16 => uint16

def signedRangeToSize (min max : Int) : Integer :=
  if min ≥ -128 ∧ max ≤ 127 then .int8
  else if min ≥ -32768 ∧ max ≤ 32767 then .int16
  else .int31

/-- The source asserts `max ≥ 0`; the ranges and enumerations it is called on are never negative. -/
def unsignedRangeToSize (max : Int) : UnsignedInteger :=
  if max ≤ 255 then .uint8
  else if max ≤ 65535 then .uint16
  else .uint30

def integerToSize : Integer → Nat
  | .int31 => int31
  | .int16 => int16
  | .int8 => int8
  | .uint30 => uint30
  | .uint16 => uint16
  | .uint8 => uint8

def maxInt : Integer → Int
  | .uint30 | .int31 => 2 ^ 30 - 1
  | .int16 => 2 ^ 15 - 1
  | .int8 => 2 ^ 7 - 1
  | .uint16 => 2 ^ 16 - 1
  | .uint8 => 2 ^ 8 - 1

def minInt : Integer → Int
  | .uint8 | .uint16 | .uint30 => 0
  | .int31 => -2 ^ 30
  | .int16 => -2 ^ 15
  | .int8 => -2 ^ 7

def rangeToSize (minimum maximum : Int) : Integer :=
  if minimum < 0 then signedRangeToSize minimum maximum
  else (unsignedRangeToSize (maximum - minimum)).toInteger

/-- The index of an enumeration of `length` cases (`enum_size`). -/
def enumSize (length : Nat) : UnsignedInteger := unsignedRangeToSize length

theorem integerToSize_pos (k : Integer) : 0 < integerToSize k := by
  cases k <;> decide

theorem integerToSize_tag (sz : TagSize) : integerToSize sz.toInteger = tagSize sz := by
  cases sz <;> rfl

end BinarySize

inductive ReadError where
  | notEnoughData
  | extraBytes
  | noCaseMatched
  | unexpectedTag (tag : Int)
  | invalidSize (size : Int)
  | invalidInt (min v max : Int)
  | invalidFloat (min v max : Float)
  | trailingZero
  | sizeLimitExceeded
  | listTooLong
  | arrayTooLong

inductive WriteError where
  | sizeLimitExceeded
  | noCaseMatched
  | invalidInt (min v max : Int)
  | invalidFloat (min v max : Float)
  | invalidBytesLength (expected found : Int)
  | invalidStringLength (expected found : Int)
  | invalidNatural
  | listTooLong
  | arrayTooLong

/-- How an evaluation ends without a value: one of the two exceptions of the library, a failed
    assertion, an out-of-bounds access of a buffer, or not at all (the recursion of an encoding or a
    loop goes on for ever). -/
inductive Exn where
  | readError (e : ReadError)
  | writeError (e : WriteError)
  | assertFailure
  | invalidArgument
  | diverges

end Tezos.DataEncoding
