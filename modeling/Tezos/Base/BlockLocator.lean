import Tezos.DataEncoding.MBytes

/-! Sparse lists of the ancestors of a block (`lib_base/block_locator.ml`). Sender and receiver draw the lengths of
    the steps between two entries from a generator that is seeded with their identities and with the head. -/

namespace Tezos.BlockLocator
open DataEncoding Lib

structure Digest where
  bytes : MBytes
  length_eq : bytes.length = 32

structure Seed where
  senderId : MBytes
  receiverId : MBytes

structure State where
  step : BitVec 32
  counter : Nat
  seed : Digest

def getInt32 (seed : Digest) : BitVec 32 := BitVec.ofNat 32 (ofBE (seed.bytes.take 4))

section
variable (sha256 : MBytes → Digest)

/-- `Step.init`: the three updates of the hash are one of their concatenation. -/
def init (seed : Seed) (head : MBytes) : State := ⟨1#32, 9, sha256 (seed.senderId ++ seed.receiverId ++ head)⟩

def draw (seed : Digest) (n : BitVec 32) : BitVec 32 × Digest := ((getInt32 seed).srem n, sha256 seed.bytes)

def next (s : State) : Int × State :=
  let (randomGap, seed) := if s.step.sle 1#32 then (0#32, s.seed) else draw sha256 s.seed (s.step.sdiv 2#32 + 1#32)
  let state := if s.counter = 0 then ⟨s.step * 2#32, 9, seed⟩ else ⟨s.step, s.counter - 1, seed⟩
  ((s.step - randomGap).toInt, state)

end

structure Hashes (hash header : Type) where
  sha256 : MBytes → Digest
  toBytes : hash → MBytes
  /-- `Block_header.hash`. -/
  headerHash : header → hash

variable {hash header : Type} (H : Hashes hash header)

abbrev Locator (hash header : Type) := header × List hash

/-- The loop of `fold`, over the entries of a locator. -/
def foldLoop {α : Type} (f : α → hash → hash → Int → Bool → α) : State → α → List hash → α
  | _, acc, [] => acc
  | _, acc, [_] => acc
  | state, acc, block :: pred :: rem =>
    let (step, state) := next H.sha256 state
    foldLoop f state (f acc block pred step (!rem.isEmpty)) (pred :: rem)

def fold {α : Type} (f : α → hash → hash → Int → Bool → α) (start : α) (locator : Locator hash header)
    (seed : Seed) : α :=
  let head := H.headerHash locator.1
  foldLoop H f (init H.sha256 seed (H.toBytes head)) start (head :: locator.2)

structure Step (hash : Type) where
  block : hash
  predecessor : hash
  step : Int
  strictStep : Bool
  deriving DecidableEq

def toSteps (seed : Seed) (locator : Locator hash header) : List (Step hash) :=
  fold H (fun acc block pred step strictStep => ⟨block, pred, step, strictStep⟩ :: acc) [] locator seed

section
variable [DecidableEq hash] (getPredecessor : hash → Int → Option hash) (caboose : hash)

def computeLoop : List hash → Nat → State → hash → List hash
  | acc, 0, _, _ => acc
  | acc, size + 1, state, currentBlockHash =>
    let (step, state) := next H.sha256 state
    match getPredecessor currentBlockHash step with
    | none => if caboose = currentBlockHash then acc else caboose :: acc
    | some predecessor => computeLoop (predecessor :: acc) size state predecessor

def compute (size : Int) (blockHash : hash) (blockHeader : header) (seed : Seed) : Locator hash header :=
  if size ≤ 0 then (blockHeader, [])
  else
    let state := init H.sha256 seed (H.toBytes blockHash)
    (blockHeader, (computeLoop H getPredecessor caboose [] size.toNat state blockHash).reverse)

end

end Tezos.BlockLocator
