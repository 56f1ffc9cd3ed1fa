import Mathlib.Algebra.Group.Nat.Defs
import Tezos.DataEncoding.Encoding

/-! Merkle trees (`Generic_Merkle_tree` of `lib_crypto/blake2B.ml`). The levels of a tree are computed in one array,
    each over the one below it. -/

namespace Tezos.MerkleTree
open DataEncoding

structure Hash (elt τ : Type) where
  empty : τ
  leaf : elt → τ
  node : τ → τ → τ

variable {elt τ : Type}

/-- `a.(i)`; `none` is the exception for an index out of bounds. -/
def get (a : List τ) (i : Nat) : Option τ := a[i]?

def set (a : List τ) (i : Nat) (x : τ) : Option (List τ) := if i < a.length then some (a.set i x) else none

variable (H : Hash elt τ)

/-- One turn of the loop over the pairs of a level. -/
def pair (a : List τ) (i : Nat) : Option (List τ) := do
  let l ← get a (2 * i)
  let r ← get a (2 * i + 1)
  set a i (H.node l r)

/-- The part that `step` and `step_path` share: the level above the first `n` slots of the array, and the padding of
    that level after it. -/
def reduce (a : List τ) (n : Nat) : Option (List τ) := do
  let m := (n + 1) / 2
  let a ← (List.range m).foldlM (pair H) a
  let x ← get a n
  set a m (H.node x x)

/-- A level of odd size takes its padding in. -/
def extend (a : List τ) (m : Nat) : Option (List τ) := do
  let x ← get a m
  set a (m + 1) x

/-- `List.iteri (fun i x -> a.(i) <- H.leaf x) xs`, from the index `i` on. -/
def fill (a : List τ) (i : Nat) : List elt → Option (List τ)
  | [] => some a
  | x :: xs => do
    let a ← set a i (H.leaf x)
    fill a (i + 1) xs

/-- `step a n`; the fuel bounds the number of levels. -/
def step : Nat → List τ → Nat → Option τ
  | 0, _, _ => none
  | fuel + 1, a, n => do
    let m := (n + 1) / 2
    let a ← reduce H a n
    if m = 1 then get a 0
    else if m % 2 = 0 then step fuel a m
    else
      let a ← extend a m
      step fuel a (m + 1)

/-- The array of the leaves: `n + 1` slots with the last leaf, filled with the leaves in order. -/
def level (xs : List elt) : Option (List τ) := do
  let last ← xs.getLast?
  fill H (List.replicate (xs.length + 1) (H.leaf last)) 0 xs

def compute : List elt → Option τ
  | [] => some H.empty
  | [x] => some (H.leaf x)
  | x :: y :: xs => do
    let n := (x :: y :: xs).length
    let a ← level H (x :: y :: xs)
    step H n a n

inductive Path (τ : Type) where
  | left (p : Path τ) (r : τ)
  | right (l : τ) (p : Path τ)
  | op
  deriving DecidableEq

/-- The path to the index `j` of a level, one level up. -/
def extendPath (a : List τ) (p : Path τ) (j : Nat) : Option (Path τ) := do
  if j % 2 = 0 then
    let r ← get a (j + 1)
    return .left p r
  else
    let l ← get a (j - 1)
    return .right l p

def stepPath : Nat → List τ → Nat → Path τ → Nat → Option (Path τ)
  | 0, _, _, _, _ => none
  | fuel + 1, a, n, p, j => do
    let m := (n + 1) / 2
    let p ← extendPath a p j
    let a ← reduce H a n
    if m = 1 then return p
    else if m % 2 = 0 then stepPath fuel a m p (j / 2)
    else
      let a ← extend a m
      stepPath fuel a (m + 1) p (j / 2)

/-- `compute_path xs i`; `none` is also `Invalid_argument`. -/
def computePath (xs : List elt) (i : Int) : Option (Path τ) :=
  match xs with
  | [] => none
  | [_] => some .op
  | x :: y :: xs => do
    let n := (x :: y :: xs).length
    if i < 0 ∨ n ≤ i then none
    else
      let a ← level H (x :: y :: xs)
      stepPath H n a n .op i.toNat

/-- The local `check_path`: the root, the number of leaves and the position. -/
def checkSizedPath : Path τ → elt → τ × Nat × Nat
  | .op, h => (H.leaf h, 1, 0)
  | .left p r, h =>
    let (l, s, pos) := checkSizedPath p h
    (H.node l r, s * 2, pos)
  | .right l p, h =>
    let (r, s, pos) := checkSizedPath p h
    (H.node l r, s * 2, pos + s)

def checkPath (p : Path τ) (h : elt) : τ × Nat :=
  let (h, _, pos) := checkSizedPath H p h
  (h, pos)

/-! ### The encoding of paths -/

/-- On integers of 63 bits: the successor of the greatest one is negative. -/
def log2 (x : Int) : Int :=
  if x ≤ 1 then 0 else 1 + log2 ((x + 1).bmod (2 ^ 63) / 2)
termination_by x.toNat
decreasing_by
  rw [Int.bmod_def]
  split <;> omega

/-- The hashes as bytes. -/
structure HashBytes (τ : Type) where
  size : Nat
  pos : 0 < size
  toBytes : τ → MBytes
  ofBytesExn : MBytes → τ
  length_toBytes : ∀ h, (toBytes h).length = size

inductive PathName (τ : Type) : Type → Type
  | path : PathName τ (Path τ)

namespace HashBytes
variable (B : HashBytes τ)

def encoding : Encoding (PathName τ) τ :=
  .splitted (.req (.conv B.toBytes B.ofBytesExn (.atom (.bytes (.fixed B.size B.pos)))))

def PathCase (τ : Type) : Fin 3 → Type
  | 0 => Path τ × τ
  | 1 => τ × Path τ
  | 2 => Unit

def pathCases : (i : Fin 3) → Case (Path τ) (PathCase τ i)
  | 0 => ⟨.tag 240, fun | .left p r => some (p, r) | _ => none, fun (p, r) => .left p r⟩
  | 1 => ⟨.tag 15, fun | .right r p => some (r, p) | _ => none, fun (r, p) => .right r p⟩
  | 2 => ⟨.tag 0, fun | .op => some () | _ => none, fun () => .op⟩

def pathEncoding : Encoding (PathName τ) (Path τ) := .mu .dynamic .path

def pathParts : (i : Fin 3) → Encoding (PathName τ) (PathCase τ i)
  | 0 => .objs .dynamic (.req pathEncoding) (.req B.encoding)
  | 1 => .objs .dynamic (.req B.encoding) (.req pathEncoding)
  | 2 => .ignore

def pathDefs : Defs (PathName τ) where
  unfold | .path => .union .dynamic .uint8 pathCases B.pathParts
  checked | .path => ⟨⟨rfl, rfl⟩, fun
    | 0 => ⟨rfl, ⟨trivial, fun _ => Kind.noConfusion⟩, trivial, trivial, trivial, trivial, trivial⟩
    | 1 => ⟨rfl, ⟨trivial, trivial, trivial, trivial, trivial⟩, trivial, fun _ => Kind.noConfusion⟩
    | 2 => trivial⟩

def boundedPathEncoding : Option Int → Encoding (PathName τ) (Path τ)
  | none => pathEncoding
  | some maxLength => .checkSize (log2 maxLength * (B.size + 1) + 1) pathEncoding

end HashBytes
end Tezos.MerkleTree
