import Tezos.DataEncoding.BinarySize

/-! Encodings, their kinds, and what the combinators that build them check (`lib_data_encoding/encoding.ml`).

An encoding is a tree of descriptions. A recursive encoding `Mu { fix }` is only ever used through
`fix e`, where `e` is that `Mu` itself: here the node holds a name `x : ι α`, and a table of
definitions gives for each name the encoding `fix e` it unfolds to, in which the recursive occurrences
are again `Mu` nodes. JSON parts, titles, names of fields and default values are not read by the binary
functions and are left out. -/

namespace Tezos.DataEncoding
open List

inductive Kind where
  | fixed (n : Nat)
  | dynamic
  | «variable»
  deriving DecidableEq, Repr

namespace Kind

inductive Enum where
  | dynamic
  | «variable»
  deriving DecidableEq, Repr

/-- The kinds of bytes and strings (`Kind.length`); `Fixed.string` and `Fixed.bytes` reject `n <= 0`. -/
inductive Length where
  | fixed (n : Nat) (pos : 0 < n)
  | «variable»
  deriving DecidableEq

def Enum.toKind : Enum → Kind
  | .dynamic => .dynamic
  | .variable => .variable

def Length.toKind : Length → Kind
  | .fixed n _ => .fixed n
  | .variable => .variable

def combine (name : String) (k1 k2 : Kind) : Except String Kind :=
  match k1, k2 with
  | .fixed n1, .fixed n2 => .ok (.fixed (n1 + n2))
  | .dynamic, .dynamic | .fixed _, .dynamic | .dynamic, .fixed _ => .ok .dynamic
  | .variable, .fixed _ | .dynamic, .variable | .fixed _, .variable => .ok .variable
  | .variable, .dynamic =>
    .error ("Cannot merge two " ++ name ++ " when the left element is of variable length and the right one " ++
      "of dynamic length. You should use the reverse order, or wrap the second one with Data_encoding.dynamic_size.")
  | .variable, .variable =>
    .error ("Cannot merge two " ++ name ++ " with variable length. " ++
      "You should wrap one of them with Data_encoding.dynamic_size.")

def merge (k1 k2 : Kind) : Kind :=
  match k1, k2 with
  | .fixed n1, .fixed n2 => if n1 = n2 then .fixed n1 else .dynamic
  | .dynamic, .dynamic | .fixed _, .dynamic | .dynamic, .fixed _ => .dynamic
  | .variable, .dynamic | .variable, .fixed _ | .dynamic, .variable | .fixed _, .variable
  | .variable, .variable => .variable

/-- `none` is the failed assertion on the empty list, which `union` rejects before. -/
def mergeList (sz : TagSize) : List Kind → Option Kind
  | [] => none
  | k :: ks =>
    match ks.foldl merge k with
    | .fixed n => some (.fixed (n + BinarySize.tagSize sz))
    | k => some k

end Kind

/-! ### Descriptions -/

/-- The bounds of a ranged integer, as `ranged_int` accepts them. -/
structure IntRange where
  minimum : Int
  maximum : Int
  le : minimum ≤ maximum
  lower : -2 ^ 30 ≤ minimum
  upper : maximum ≤ 2 ^ 30 - 1

/-- The table and the array of `String_enum`: `find` is `Hashtbl.find_opt` on the table, whose bindings
    come from the cases of the array. -/
structure StringEnum (α : Type) where
  find : α → Option (String × Nat)
  arr : List α
  getElem?_find : ∀ {v : α} {s : String} {i : Nat}, find v = some (s, i) → arr[i]? = some v
  find_isSome : ∀ {v : α}, v ∈ arr → (find v).isSome

/-- The atomic descriptions: those that the module `Atom` of each reader and writer handles. -/
inductive Atom : Type → Type 1
  | bool : Atom Bool
  | int8 : Atom Int
  | uint8 : Atom Int
  | int16 : Atom Int
  | uint16 : Atom Int
  | int31 : Atom Int
  | int32 : Atom (BitVec 32)
  | int64 : Atom (BitVec 64)
  | n : Atom Int
  | z : Atom Int
  | rangedInt (r : IntRange) : Atom Int
  | rangedFloat (minimum maximum : Float) : Atom Float
  | float : Atom Float
  | bytes (kind : Kind.Length) : Atom MBytes
  | string (kind : Kind.Length) : Atom MBytes
  | stringEnum {α : Type} (cases : StringEnum α) : Atom α

inductive CaseTag where
  | tag (tag : Int)
  | jsonOnly
  deriving DecidableEq, Repr

/-- A case of a union of type `α`, less its encoding of type `β`. -/
structure Case (α β : Type) where
  tag : CaseTag
  proj : α → Option β
  inj : β → α

/-- Encodings of values of a type, over the names `ι` of the recursive ones. `req`, `opt` and `dft` are
    `Obj (Req _)`, `Obj (Opt _)` and `Obj (Dft _)`. -/
inductive Encoding (ι : Type → Type) : Type → Type 1
  | null : Encoding ι Unit
  | empty : Encoding ι Unit
  | ignore : Encoding ι Unit
  | constant : Encoding ι Unit
  | atom {α : Type} (a : Atom α) : Encoding ι α
  | padded {α : Type} (e : Encoding ι α) (n : Nat) : Encoding ι α
  | array {α : Type} (maxLength : Option Int) (e : Encoding ι α) : Encoding ι (Array α)
  | list {α : Type} (maxLength : Option Int) (e : Encoding ι α) : Encoding ι (List α)
  | req {α : Type} (e : Encoding ι α) : Encoding ι α
  | opt {α : Type} (kind : Kind.Enum) (e : Encoding ι α) : Encoding ι (Option α)
  | dft {α : Type} (e : Encoding ι α) : Encoding ι α
  | objs {α β : Type} (kind : Kind) (left : Encoding ι α) (right : Encoding ι β) : Encoding ι (α × β)
  | tup {α : Type} (e : Encoding ι α) : Encoding ι α
  | tups {α β : Type} (kind : Kind) (left : Encoding ι α) (right : Encoding ι β) : Encoding ι (α × β)
  | union {α : Type} {n : Nat} {β : Fin n → Type} (kind : Kind) (tagSize : TagSize)
      (cases : (i : Fin n) → Case α (β i)) (encoding : (i : Fin n) → Encoding ι (β i)) : Encoding ι α
  | mu {α : Type} (kind : Kind.Enum) (name : ι α) : Encoding ι α
  | conv {α β : Type} (proj : α → β) (inj : β → α) (e : Encoding ι β) : Encoding ι α
  | describe {α : Type} (e : Encoding ι α) : Encoding ι α
  | splitted {α : Type} (e : Encoding ι α) : Encoding ι α
  | dynamicSize {α : Type} (kind : UnsignedInteger) (e : Encoding ι α) : Encoding ι α
  | checkSize {α : Type} (limit : Int) (e : Encoding ι α) : Encoding ι α
  | delayed {α : Type} (f : Unit → Encoding ι α) : Encoding ι α

variable {ι : Type → Type} {α : Type}

def Atom.classify : Atom α → Kind
  | .bool => .fixed BinarySize.bool
  | .int8 => .fixed BinarySize.int8
  | .uint8 => .fixed BinarySize.uint8
  | .int16 => .fixed BinarySize.int16
  | .uint16 => .fixed BinarySize.uint16
  | .int31 => .fixed BinarySize.int31
  | .int32 => .fixed BinarySize.int32
  | .int64 => .fixed BinarySize.int64
  | .n => .dynamic
  | .z => .dynamic
  | .rangedInt r => .fixed (BinarySize.integerToSize (BinarySize.rangeToSize r.minimum r.maximum))
  | .rangedFloat _ _ | .float => .fixed BinarySize.float
  | .bytes kind | .string kind => kind.toKind
  | .stringEnum c => .fixed (BinarySize.integerToSize (BinarySize.enumSize c.arr.length).toInteger)

namespace Encoding

/-- The kind of an encoding. A `Padded` over an encoding that is not `Fixed` fails an assertion in the
    source; `add_padding` builds none. -/
def classify : {α : Type} → Encoding ι α → Kind
  | _, .null => .fixed 0
  | _, .empty => .fixed 0
  | _, .ignore => .fixed 0
  | _, .constant => .fixed 0
  | _, .atom a => a.classify
  | _, .padded e n =>
    match classify e with
    | .fixed m => .fixed (n + m)
    | k => k
  | _, .array _ _ => .variable
  | _, .list _ _ => .variable
  | _, .req e => classify e
  | _, .opt kind _ => kind.toKind
  | _, .dft e => classify e
  | _, .objs kind _ _ => kind
  | _, .tup e => classify e
  | _, .tups kind _ _ => kind
  | _, .union kind _ _ _ => kind
  | _, .mu kind _ => kind.toKind
  | _, .conv _ _ e => classify e
  | _, .describe e => classify e
  | _, .splitted e => classify e
  | _, .dynamicSize _ _ => .dynamic
  | _, .checkSize _ e => classify e
  | _, .delayed f => classify (f ())

/-- One pass of `is_zeroable`, where `rec` answers for the unfolding of a `Variable` recursive encoding. -/
def isZeroableDesc (rec : {β : Type} → ι β → Option Bool) : {α : Type} → Encoding ι α → Option Bool
  | _, .null | _, .empty | _, .ignore | _, .constant => some true
  | _, .atom _ => some false
  | _, .padded _ _ => some false
  | _, .array _ _ => some true
  | _, .list _ _ => some true
  | _, .req e | _, .dft e | _, .tup e
  | _, .conv _ _ e | _, .describe e | _, .splitted e | _, .checkSize _ e => isZeroableDesc rec e
  | _, .opt .variable _ => some true
  | _, .opt .dynamic _ => some false
  | _, .objs _ l r | _, .tups _ l r => do
    if ← isZeroableDesc rec l then isZeroableDesc rec r else pure false
  | _, .union _ _ _ _ => some false
  | _, .mu .dynamic _ => some false
  | _, .mu .variable x => rec x
  | _, .delayed f => isZeroableDesc rec (f ())
  | _, .dynamicSize _ _ => some false

/-- Whether an encoding can produce zero bytes, as the source computes it; `none` when `fuel` unfoldings
    do not answer. -/
def isZeroable (unfold : {β : Type} → ι β → Encoding ι β) : Nat → {α : Type} → Encoding ι α → Option Bool
  | 0, _, e => isZeroableDesc (fun _ => none) e
  | fuel + 1, _, e => isZeroableDesc (fun x => isZeroable unfold fuel (unfold x)) e

/-- `P` holds at every node of an encoding. -/
def Everywhere (P : {β : Type} → Encoding ι β → Prop) : {α : Type} → Encoding ι α → Prop
  | _, .null => P .null
  | _, .empty => P .empty
  | _, .ignore => P .ignore
  | _, .constant => P .constant
  | _, .atom a => P (.atom a)
  | _, .padded e n => P (.padded e n) ∧ Everywhere P e
  | _, .array m e => P (.array m e) ∧ Everywhere P e
  | _, .list m e => P (.list m e) ∧ Everywhere P e
  | _, .req e => P (.req e) ∧ Everywhere P e
  | _, .opt k e => P (.opt k e) ∧ Everywhere P e
  | _, .dft e => P (.dft e) ∧ Everywhere P e
  | _, .objs k l r => P (.objs k l r) ∧ Everywhere P l ∧ Everywhere P r
  | _, .tup e => P (.tup e) ∧ Everywhere P e
  | _, .tups k l r => P (.tups k l r) ∧ Everywhere P l ∧ Everywhere P r
  | _, .union k sz cs es => P (.union k sz cs es) ∧ ∀ i, Everywhere P (es i)
  | _, .mu k x => P (.mu k x)
  | _, .conv p i e => P (.conv p i e) ∧ Everywhere P e
  | _, .describe e => P (.describe e) ∧ Everywhere P e
  | _, .splitted e => P (.splitted e) ∧ Everywhere P e
  | _, .dynamicSize k e => P (.dynamicSize k e) ∧ Everywhere P e
  | _, .checkSize l e => P (.checkSize l e) ∧ Everywhere P e
  | _, .delayed f => P (.delayed f) ∧ Everywhere P (f ())

def maxTag : TagSize → Int
  | .uint8 => 256
  | .uint16 => 256 * 256

/-- The fold of `check_cases` over the tags of the cases, from the tags met so far. -/
def checkTags (sz : TagSize) : List CaseTag → List Int → Except String Unit
  | [], _ => .ok ()
  | .jsonOnly :: tags, others => checkTags sz tags others
  | .tag tag :: tags, others =>
    if tag ∈ others then .error ("The tag " ++ toString tag ++ " appears twice in an union.")
    else if tag < 0 ∨ maxTag sz ≤ tag then .error ("The tag " ++ toString tag ++ " is invalid.")
    else checkTags sz tags (tag :: others)

def checkCases (sz : TagSize) (tags : List CaseTag) : Except String Unit :=
  if tags = [] then .error "Data_encoding.union: empty list of cases."
  else checkTags sz tags []

/-- What the combinator that builds a node checks: `add_padding`, `array`, `list`, `opt`, `varopt`,
    `raw_merge_objs`, `raw_merge_tups`, `union` and `mu`. A recursive encoding is `Dynamic` only if its
    unfolding is not `Variable`. -/
def Checked (unfold : {β : Type} → ι β → Encoding ι β) : {α : Type} → Encoding ι α → Prop
  | _, .padded e n => 0 < n ∧ ∃ m, e.classify = .fixed m
  | _, .array _ e | _, .list _ e => e.classify ≠ .variable ∧ ∃ fuel, isZeroable unfold fuel e = some false
  | _, .opt kind e => kind = .dynamic → e.classify ≠ .variable
  | _, .objs kind l r => Kind.combine "objects" l.classify r.classify = .ok kind
  | _, .tups kind l r => Kind.combine "tuples" l.classify r.classify = .ok kind
  | _, .union kind sz cases es =>
    checkCases sz (List.ofFn fun i => (cases i).tag) = .ok () ∧
      Kind.mergeList sz (List.ofFn fun i => (es i).classify) = some kind
  | _, .mu kind x => kind = .dynamic → (unfold x).classify ≠ .variable
  | _, _ => True

end Encoding

/-- The definitions of the recursive encodings: `unfold x` is `fix e` for the `Mu` named `x`. -/
structure Defs (ι : Type → Type) where
  unfold : {α : Type} → ι α → Encoding ι α
  checked : ∀ {α : Type} (x : ι α), (unfold x).Everywhere (Encoding.Checked unfold)

abbrev Defs.Everywhere (D : Defs ι) (P : {β : Type} → Encoding ι β → Prop) : Prop :=
  ∀ {β : Type} (x : ι β), (D.unfold x).Everywhere P

def Defs.none : Defs (fun _ => Empty) where
  unfold x := nomatch x
  checked x := nomatch x

def Encoding.WellFormed (D : Defs ι) (e : Encoding ι α) : Prop := e.Everywhere (Encoding.Checked D.unfold)

end Tezos.DataEncoding
