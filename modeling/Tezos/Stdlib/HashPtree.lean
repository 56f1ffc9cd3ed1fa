import Mathlib.Data.BitVec

/-! Patricia trees (`lib_stdlib/hashPtree.ml`). Trees are hash-consed, so that two of them are the same one if
    and only if they are equal; their identifiers are left out. -/

namespace Tezos.HashPtree

/-- `Bits(S).t`: the bits of a sequence below a marker bit, at the position `size`. The source has them in
    integers of any size; the only ones with bits above the marker are the results of `lnot`, which only
    meet a `land`. -/
abbrev Bits (size : Nat) := BitVec (size + 1)

namespace Bits
variable {size : Nat}

def higherBit : Bits size := 1#_ <<< size

variable (n : Bits size)

def mark : Bits size := higherBit ||| n
def unmark : Bits size := higherBit ^^^ n

def one : Bits size := mark 1#_
def zero : Bits size := higherBit
def lessThan (a b : Bits size) : Bool := decide (a < b)

/-- The number of bits of an integer that is not zero, less one, is its logarithm. -/
def highestBitUnmarked : Bits size := if n = 0#_ then 0#_ else 1#_ <<< n.toNat.log2

def highestBit : Bits size := mark (highestBitUnmarked (unmark n))

def lnot (x : Bits size) : Bits size := ~~~x ||| higherBit
def lxor (a b : Bits size) : Bits size := (a ^^^ b) ||| higherBit
def pred (x : Bits size) : Bits size := x - 1#_

def ofZ (n : Int) : Bits size := mark (BitVec.ofInt _ n)

end Bits

/-- What `Make` uses of the signature `Ptree_sig.Prefix`; keys, prefixes and masks are compared with `=`. -/
structure Prefix (κ π μ : Type) where
  fullLengthMask : μ
  strictlyShorterMask : μ → μ → Bool
  keyPrefix : κ → π
  matchPrefix : κ → π → μ → Bool
  selectBit : π → μ → Bool
  commonMask : π → π → μ
  applyMask : π → μ → π

namespace BEGenPrefix
variable {size : Nat}

def applyMask (prefix_ mask : Bits size) : Bits size := prefix_ &&& Bits.lnot (Bits.pred mask)

def selectBit (prefix_ mask : Bits size) : Bool := !decide (prefix_ &&& mask = Bits.zero)

def matchPrefix (key prefix_ mask : Bits size) : Bool := decide (applyMask key mask = prefix_)

def commonMask (p0 p1 : Bits size) : Bits size := Bits.highestBit (Bits.lxor p0 p1)

def strictlyShorterMask (m1 m2 : Bits size) : Bool := Bits.lessThan m2 m1

end BEGenPrefix

/-- `BE_gen_prefix(Bits(Size))`: a mask has one bit, under which a prefix is cut. -/
def beGenPrefix (size : Nat) : Prefix (Bits size) (Bits size) (Bits size) where
  fullLengthMask := Bits.one
  strictlyShorterMask := BEGenPrefix.strictlyShorterMask
  keyPrefix x := x
  matchPrefix := BEGenPrefix.matchPrefix
  selectBit := BEGenPrefix.selectBit
  commonMask := BEGenPrefix.commonMask
  applyMask := BEGenPrefix.applyMask

/-- The trees that are not empty. -/
inductive Tree (κ π μ ν : Type) where
  | leaf (key : κ) (mask : μ) (value : ν)
  | node (prefix_ : π) (mask : μ) (true_ false_ : Tree κ π μ ν)

/-- `Make(P)(V).t`; `none` is `Empty`. -/
abbrev T (κ π μ ν : Type) := Option (Tree κ π μ ν)

section Make
variable {κ π μ ν : Type} [DecidableEq κ] [DecidableEq π] [DecidableEq μ] (P : Prefix κ π μ)

def selectKeyBit (k : κ) (m : μ) : Bool := P.selectBit (P.keyPrefix k) m

def matchingKey (k1 k2 : κ) (mask : μ) : Bool :=
  decide (P.applyMask (P.keyPrefix k1) mask = P.applyMask (P.keyPrefix k2) mask)

def memNe (k : κ) : Tree κ π μ ν → Bool
  | .leaf key mask _ => matchingKey P key k mask
  | .node _ mask true_ false_ => if selectKeyBit P k mask then memNe k true_ else memNe k false_

def mem (k : κ) : T κ π μ ν → Bool
  | none => false
  | some t => memNe P k t

/-- The branching mask of `join`. -/
def joinMask (mask : μ) (p0 p1 : π) : μ :=
  let cMask := P.commonMask p0 p1
  if P.strictlyShorterMask cMask mask then cMask else mask

def join (mask : μ) (p0 : π) (t0 : Tree κ π μ ν) (p1 : π) (t1 : Tree κ π μ ν) : Tree κ π μ ν :=
  let mask := joinMask P mask p0 p1
  let prefix_ := P.applyMask p1 mask
  if P.selectBit p0 mask then .node prefix_ mask t0 t1 else .node prefix_ mask t1 t0

/-- `add_ne`. `same` is the physical equality of values. A branch is rebuilt, or is the node itself if nothing
    has changed below: the same tree. -/
def addNe (combine : ν → ν → ν) (same : ν → ν → Bool) (key : κ) (value : ν) (mask : μ) :
    Tree κ π μ ν → Tree κ π μ ν
  | .leaf leafKey leafMask leafValue =>
    if key = leafKey ∧ leafMask = P.fullLengthMask then
      if same value leafValue then .leaf leafKey leafMask leafValue
      else .leaf key mask (combine value leafValue)
    else if P.strictlyShorterMask leafMask mask && P.matchPrefix key (P.keyPrefix leafKey) leafMask then
      -- the previous leaf shadows the new one: no modification
      .leaf leafKey leafMask leafValue
    else if P.strictlyShorterMask mask leafMask && P.matchPrefix leafKey (P.keyPrefix key) mask then
      -- the new leaf shadows the previous one: replace
      .leaf key mask (combine value leafValue)
    else join P mask (P.keyPrefix key) (.leaf key mask value) (P.keyPrefix leafKey) (.leaf leafKey leafMask leafValue)
  | .node nodePrefix nodeMask true_ false_ =>
    if P.matchPrefix key nodePrefix nodeMask then
      if selectKeyBit P key nodeMask then .node nodePrefix nodeMask (addNe combine same key value mask true_) false_
      else .node nodePrefix nodeMask true_ (addNe combine same key value mask false_)
    else join P mask (P.keyPrefix key) (.leaf key mask value) nodePrefix (.node nodePrefix nodeMask true_ false_)

def add (combine : ν → ν → ν) (same : ν → ν → Bool) (key : κ) (value : ν) (mask : μ) :
    T κ π μ ν → T κ π μ ν
  | none => some (.leaf key mask value)
  | some t => some (addNe P combine same key value mask t)

def rebuildBranch (prefix_ : π) (mask : μ) : T κ π μ ν → T κ π μ ν → T κ π μ ν
  | none, none => none
  | none, some t => some t
  | some t, none => some t
  | some true_, some false_ => some (.node prefix_ mask true_ false_)

def removeNe (key : κ) : Tree κ π μ ν → T κ π μ ν
  | .leaf leafKey leafMask leafValue =>
    if matchingKey P leafKey key leafMask then none else some (.leaf leafKey leafMask leafValue)
  | .node nodePrefix nodeMask true_ false_ =>
    if P.matchPrefix key nodePrefix nodeMask then
      if selectKeyBit P key nodeMask then rebuildBranch nodePrefix nodeMask (removeNe key true_) (some false_)
      else rebuildBranch nodePrefix nodeMask (some true_) (removeNe key false_)
    else some (.node nodePrefix nodeMask true_ false_)

def remove (key : κ) : T κ π μ ν → T κ π μ ν
  | none => none
  | some t => removeNe P key t

end Make

section Fold
variable {κ π μ ν ρ : Type}

def foldNe (f : κ → μ → ν → ρ → ρ) : Tree κ π μ ν → ρ → ρ
  | .leaf key mask value, acc => f key mask value acc
  | .node _ _ true_ false_, acc => foldNe f true_ (foldNe f false_ acc)

def fold (f : κ → μ → ν → ρ → ρ) : T κ π μ ν → ρ → ρ
  | none, acc => acc
  | some t, acc => foldNe f t acc

end Fold

-- `Map_Reduce(M)`: its cache only spares calls of `map` and `reduce`
section MapReduce
variable {κ π μ ν ρ : Type} (map : T κ π μ ν → κ → ν → ρ) (reduce : T κ π μ ν → ρ → ρ → ρ)

def mapReduceNe : Tree κ π μ ν → ρ
  | .leaf key mask value => map (some (.leaf key mask value)) key value
  | .node nodePrefix nodeMask true_ false_ =>
    reduce (some (.node nodePrefix nodeMask true_ false_)) (mapReduceNe true_) (mapReduceNe false_)

def filterNe (f : ρ → Bool) : Tree κ π μ ν → T κ π μ ν
  | .leaf key mask value =>
    if f (mapReduceNe map reduce (.leaf key mask value)) then some (.leaf key mask value) else none
  | .node nodePrefix nodeMask true_ false_ =>
    if f (mapReduceNe map reduce (.node nodePrefix nodeMask true_ false_)) then
      some (.node nodePrefix nodeMask true_ false_)
    else rebuildBranch nodePrefix nodeMask (filterNe f true_) (filterNe f false_)

def filter (f : ρ → Bool) : T κ π μ ν → T κ π μ ν
  | none => none
  | some t => filterNe map reduce f t

end MapReduce

end Tezos.HashPtree
