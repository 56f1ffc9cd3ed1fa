import Tezos.DataEncoding.Wire.Decode
import Tezos.Lib.Lengths

/-! How many bytes the parts of an encoding may take, whatever these bytes are: an atom takes its size, a number one
    byte or more, a string of variable length its window, and a header may announce whatever it can hold. The reading
    breaks down where a part is not left the window it has to take, and where it goes on without end. -/

namespace Tezos.DataEncoding.Wire
open Lib Lengths

/-- Some bytes are a value of the atom. -/
def Readable : {α : Type} → Atom α → Prop
  | _, .rangedFloat minimum maximum => ∃ bits : UInt64, minimum ≤ Float.ofBits bits ∧ Float.ofBits bits ≤ maximum
  | _, .stringEnum cases => cases.arr ≠ []
  | _, _ => True

def lengthsNumber : Lengths := fun n a o => ∃ k, exactly (k + 1) n a o

def lengthsAtom {α : Type} (at' : Atom α) : Lengths :=
  match at'.classify with
  | .fixed size => fun n a o => Readable at' ∧ exactly size n a o
  | .dynamic => lengthsNumber
  | .variable => fun n a o => exactly n n a o

/-- A header, and what may follow each of the integers it can hold. -/
def lengthsHeader (kind : Integer) (M : Int → Lengths) : Lengths := fun n a o =>
  ∃ w v, w.length = BinarySize.integerToSize kind ∧ intOfBytes kind w = .ok v ∧
    (exactly (BinarySize.integerToSize kind)).seq (M v) n a o

def lengthsList (L : Lengths) : Nat → Option Int → Lengths
  | 0, _ => broken
  | rounds + 1, maxLength =>
    .ifEmpty .empty (if maxLength = some 0 then never else L.seq (lengthsList L rounds (maxLength.map (· - 1))))

def lengthsAll (L : Lengths) (maxLength : Option Int) : Lengths := fun n =>
  lengthsList L (n + (maxLength.getD 0).toNat + 1) maxLength n

/-- The right part is given the last `m` bytes of the window, and the left part those before them: neither may leave a
    byte of them. -/
def lengthsEnds (m : Nat) (L M : Lengths) : Lengths := fun n a o =>
  m ≤ n ∧ ∃ o₁, L (n - m) a o₁ ∧
    if o₁ = some (n - m) then ∃ o₂, M m (spend a (n - m)) o₂ ∧ o = if o₂ = some m then some n else none
    else o = none

def lengthsPair (kind leftKind rightKind : Kind) (L M : Lengths) : Lengths :=
  match kind with
  | .fixed size => fun n a o => Fits size n a ∧ L.seq M n a o
  | .dynamic => L.seq M
  | .variable =>
    match leftKind, rightKind with
    | .dynamic, .variable | .fixed _, .variable => L.seq M
    | .variable, .fixed m => lengthsEnds m L M
    | _, _ => broken

def lengthsWindow (L : Lengths) (size : Nat) : Lengths := fun n a o =>
  Fits size n a ∧ L size a o ∧ (o = none ∨ o = some size)

variable {ι : Type → Type}

def lengthsDesc (rec : {β : Type} → ι β → Lengths) : {α : Type} → Encoding ι α → Lengths
  | _, .null | _, .empty | _, .constant | _, .ignore => .empty
  | _, .atom a => lengthsAtom a
  | _, .padded e n => (lengthsDesc rec e).seq (exactly n)
  | _, .array maxLength e | _, .list maxLength e => lengthsAll (lengthsDesc rec e) maxLength
  | _, .req e | _, .dft e | _, .tup e | _, .conv _ _ e | _, .describe e | _, .splitted e => lengthsDesc rec e
  | _, .opt .dynamic e => lengthsHeader .int8 fun flag => if flag ≠ 0 then lengthsDesc rec e else .empty
  | _, .opt .variable e => .ifEmpty .empty (lengthsDesc rec e)
  | _, .objs kind left right | _, .tups kind left right =>
    lengthsPair kind left.classify right.classify (lengthsDesc rec left) (lengthsDesc rec right)
  | _, .union _ tagSize cases encoding =>
    lengthsHeader tagSize.toInteger fun ctag =>
      match findTag cases ctag with
      | none => never
      | some i => lengthsDesc rec (encoding i)
  | _, .mu _ x => rec x
  | _, .dynamicSize kind e => lengthsHeader kind.toInteger fun size => lengthsWindow (lengthsDesc rec e) size.toNat
  | _, .checkSize limit e => (lengthsDesc rec e).limit limit
  | _, .delayed f => lengthsDesc rec (f ())

/-- The ways to read an encoding, with a breakdown where its recursive encodings are unfolded more than `fuel` times. -/
def lengths (D : Defs ι) : Nat → {α : Type} → Encoding ι α → Lengths
  | 0, _, e => lengthsDesc (fun _ => broken) e
  | fuel + 1, _, e => lengthsDesc (fun x => lengths D fuel (D.unfold x)) e

end Tezos.DataEncoding.Wire
