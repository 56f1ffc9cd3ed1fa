import Tezos.DataEncoding.Writer
import Tezos.Lib.Parser

/-! The binary format as a function: the bytes a value is written as, under a budget of bytes (`none` when there is no
    limit). Sizes are prefixed and not patched. -/

namespace Tezos.DataEncoding.Wire
open Lib

def emit (a : Option Int) (w : MBytes) : Except Exn MBytes :=
  match a with
  | some len => if len < w.length then .error (.writeError .sizeLimitExceeded) else .ok w
  | none => .ok w

theorem emit_eq_ok {a : Option Int} {w w' : MBytes} (h : emit a w = .ok w') : w = w' := by
  cases a with
  | none =>
    cases h
    rfl
  | some len =>
    simp only [emit] at h
    split at h <;> cases h
    rfl

def intBytes (kind : Integer) (v : Int) : MBytes :=
  toBE (BinarySize.integerToSize kind) (wrap (8 * BinarySize.integerToSize kind) v)

@[simp] theorem length_intBytes (kind : Integer) (v : Int) :
    (intBytes kind v).length = BinarySize.integerToSize kind := by
  simp [intBytes]

/-- The `k` low septets of a number, the least significant first; all but the last have the
    continuation bit. -/
def septets : Nat → Nat → MBytes
  | 0, _ => []
  | 1, m => [UInt8.ofNat m]
  | k + 2, m => UInt8.ofNat (128 + m % 128) :: septets (k + 1) (m / 128)

theorem septets_eq_map (k m : Nat) :
    septets k m = (List.range k).map fun i => UInt8.ofNat (if i = k - 1 then m / 128 ^ i else 128 + m / 128 ^ i % 128) := by
  induction k, m using septets.induct with
  | case1 m => rfl
  | case2 m => simp [septets]
  | case3 k m ih =>
    have hrng : List.range (k + 2) = 0 :: (List.range (k + 1)).map Nat.succ := List.range_succ_eq_map
    rw [septets, ih, hrng, List.map_cons, List.map_map]
    congr 1
    · simp
    · apply List.map_congr_left
      intro i _
      have hi : (i + 1 = k + 2 - 1) = (i = k + 1 - 1) := by
        apply propext
        omega
      simp only [Function.comp_apply, Nat.succ_eq_add_one, hi, pow_succ', Nat.div_div_eq_div_mul]

@[simp] theorem length_septets (k m : Nat) : (septets k m).length = k := by
  simp [septets_eq_map]

def nBytes (v : Int) : MBytes := septets (nLength v) v.natAbs

/-- The first byte holds the sign and six bits. -/
def zBytes (v : Int) : MBytes :=
  UInt8.ofNat ((if v < 0 then 64 else 0) + (if zLength v = 1 then 0 else 128) + v.natAbs % 64) ::
    septets (zLength v - 1) (v.natAbs / 64)

/-- An integer that its kind can hold. -/
def intWord (kind : Integer) (v : Int) : Except Exn MBytes := do
  Writer.checkIntRange (BinarySize.minInt kind) v (BinarySize.maxInt kind)
  pure (intBytes kind v)

def encodeInt (kind : Integer) (a : Option Int) (v : Int) : Except Exn MBytes := do
  let w ← intWord kind v
  emit a w

def atomBytes : {α : Type} → Atom α → α → Except Exn MBytes
  | _, .bool, v => .ok [if v then 255 else 0]
  | _, .int8, v => intWord .int8 v
  | _, .uint8, v => intWord .uint8 v
  | _, .int16, v => intWord .int16 v
  | _, .uint16, v => intWord .uint16 v
  | _, .int31, v => intWord .int31 v
  | _, .int32, v => .ok (toBE 4 v.toNat)
  | _, .int64, v => .ok (toBE 8 v.toNat)
  | _, .n, v => if v < 0 then .error (.writeError .invalidNatural) else .ok (nBytes v)
  | _, .z, v => .ok (zBytes v)
  | _, .rangedInt r, v => do
    Writer.checkIntRange r.minimum v r.maximum
    intWord (BinarySize.rangeToSize r.minimum r.maximum) (if r.minimum ≥ 0 then v - r.minimum else v)
  | _, .rangedFloat minimum maximum, v => do
    Writer.checkFloatRange minimum v maximum
    pure (toBE 8 v.toBits.toNat)
  | _, .float, v => .ok (toBE 8 v.toBits.toNat)
  | _, .bytes (.fixed n _), v =>
    if v.length ≠ n then .error (.writeError (.invalidBytesLength n v.length)) else .ok v
  | _, .bytes .variable, v => .ok v
  | _, .string (.fixed n _), v =>
    if v.length ≠ n then .error (.writeError (.invalidStringLength n v.length)) else .ok v
  | _, .string .variable, v => .ok v
  | _, .stringEnum cases, v =>
    match cases.find v with
    | none => .error (.writeError .noCaseMatched)
    | some (_, i) => intWord (BinarySize.enumSize cases.arr.length).toInteger i

def encodeAtom {α : Type} (at' : Atom α) (a : Option Int) (v : α) : Except Exn MBytes := do
  let w ← atomBytes at' v
  emit a w

/-- One after the other, each under what the previous ones left. -/
def encodeSeq (f g : Option Int → Except Exn MBytes) (a : Option Int) : Except Exn MBytes := do
  let w ← f a
  let w' ← g (spend a w.length)
  pure (w ++ w')

def encodeList {α : Type} (f : Option Int → α → Except Exn MBytes) : Option Int → List α → Except Exn MBytes
  | _, [] => .ok []
  | a, v :: vs => encodeSeq (fun a => f a v) (fun a => encodeList f a vs) a

variable {ι : Type → Type}

def encodeDesc (rec : {β : Type} → ι β → Option Int → β → Except Exn MBytes) :
    {α : Type} → Encoding ι α → Option Int → α → Except Exn MBytes
  | _, .null, _, _ | _, .empty, _, _ | _, .constant, _, _ | _, .ignore, _, _ => .ok []
  | _, .atom at', a, v => encodeAtom at' a v
  | _, .padded e n, a, v => encodeSeq (fun a => encodeDesc rec e a v) (fun a => emit a (List.replicate n 0)) a
  | _, .array maxLength e, a, v =>
    if tooLong maxLength v.size then .error (.writeError .arrayTooLong) else encodeList (encodeDesc rec e) a v.toList
  | _, .list maxLength e, a, v =>
    if tooLong maxLength v.length then .error (.writeError .listTooLong) else encodeList (encodeDesc rec e) a v
  | _, .req e, a, v | _, .dft e, a, v | _, .tup e, a, v
  | _, .describe e, a, v | _, .splitted e, a, v => encodeDesc rec e a v
  | _, .opt .dynamic _, a, none => emit a [0]
  | _, .opt .dynamic e, a, some v => encodeSeq (fun a => emit a [255]) (fun a => encodeDesc rec e a v) a
  | _, .opt .variable _, _, none => .ok []
  | _, .opt .variable e, a, some v => encodeDesc rec e a v
  | _, .objs _ left right, a, (v1, v2) | _, .tups _ left right, a, (v1, v2) =>
    encodeSeq (fun a => encodeDesc rec left a v1) (fun a => encodeDesc rec right a v2) a
  | _, .union _ tagSize cases encoding, a, v =>
    match selectCase cases v with
    | none => .error (.writeError .noCaseMatched)
    | some ⟨i, tag, v⟩ =>
      encodeSeq (fun a => encodeInt tagSize.toInteger a tag) (fun a => encodeDesc rec (encoding i) a v) a
  | _, .mu _ x, a, v => rec x a v
  | _, .conv proj _ e, a, v => encodeDesc rec e a (proj v)
  | _, .dynamicSize kind e, a, v => do
    let size := BinarySize.integerToSize kind.toInteger
    let _ ← emit a (intBytes kind.toInteger 0)
    let w ← encodeDesc rec e (limitTo (spend a size) (BinarySize.maxInt kind.toInteger)) v
    pure (intBytes kind.toInteger w.length ++ w)
  | _, .checkSize limit e, a, v => encodeDesc rec e (limitTo a limit) v
  | _, .delayed f, a, v => encodeDesc rec (f ()) a v

def encode (D : Defs ι) : Nat → {α : Type} → Encoding ι α → Option Int → α → Except Exn MBytes
  | 0, _, e => encodeDesc (fun _ _ _ => .error .diverges) e
  | fuel + 1, _, e => encodeDesc (fun x => encode D fuel (D.unfold x)) e

end Tezos.DataEncoding.Wire
