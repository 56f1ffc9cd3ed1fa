import Mathlib.Data.List.Rotate

/-! Ring buffers, and the bounded sets made of one and a hash table (`lib_stdlib/ring.ml`). -/

namespace Tezos.Ring

/-- The buffer of a ring: `pos` is below its length until it is full for the first time, and turns in the second
    half of `2 * length` after it. -/
structure Inited (α : Type) where
  data : List α
  pos : Nat
  pos_lt : pos < 2 * data.length

namespace Inited
variable {α : Type} (s : Inited α)

theorem length_pos : 0 < s.data.length := by
  have := s.pos_lt
  omega

def slot (i : Nat) : α := s.data.get ⟨i % s.data.length, Nat.mod_lt i s.length_pos⟩

end Inited

inductive Raw (α : Type) where
  | empty (size : Nat) (size_pos : 0 < size)
  | inited (s : Inited α)

variable {α ρ : Type}

theorem toNat_pos (size : Int) (h : ¬size ≤ 0) : 0 < size.toNat := Int.lt_toNat.mpr (Int.not_le.mp h)

/-- `create size`; `none` is the `Invalid_argument`. -/
def create (size : Int) : Option (Raw α) := if h : size ≤ 0 then none else some (.empty size.toNat (toNat_pos size h))

def nextPos (s : Inited α) : Nat := if s.pos = 2 * s.data.length - 1 then s.data.length else s.pos + 1

theorem nextPos_lt (s : Inited α) : nextPos s < 2 * s.data.length := by
  have := s.pos_lt
  unfold nextPos
  split <;> omega

def add : Raw α → α → Raw α
  | .empty size size_pos, v => .inited ⟨List.replicate size v, 0, by rw [List.length_replicate]; omega⟩
  | .inited s, v =>
    .inited ⟨s.data.set (nextPos s % s.data.length) v, nextPos s, by rw [List.length_set]; exact nextPos_lt s⟩

/-- The slot that the next `add` erases, if the ring is full. -/
def replaced : Raw α → Option α
  | .empty _ _ => none
  | .inited s => if s.pos ≥ s.data.length - 1 then some (s.slot (s.pos + 1)) else none

def addAndReturnErased (r : Raw α) (v : α) : Raw α × Option α := (add r v, replaced r)

def clear : Raw α → Raw α
  | .empty size size_pos => .empty size size_pos
  | .inited s => .empty s.data.length s.length_pos

def last : Raw α → Option α
  | .empty _ _ => none
  | .inited s => some (s.slot s.pos)

def fold : Raw α → ρ → (ρ → α → ρ) → ρ
  | .empty _ _, init, _ => init
  | .inited s, init, f =>
    (List.range (min s.pos (s.data.length - 1) + 1)).foldl (fun acc i => f acc (s.slot (s.pos - i))) init

def elements (r : Raw α) : List α := fold r [] fun acc elt => elt :: acc

/-- `MakeTable(V).raw`. The hash table is the list of its keys: an `add` hides the binding a key has already, and a
    `remove` takes the last one away. -/
structure Table (α : Type) where
  size : Nat
  size_pos : 0 < size
  ring : Raw α
  table : List α

namespace Table
variable [DecidableEq α]

/-- `create size`; `none` is the `Invalid_argument` of `Ring.create`. -/
def create (size : Int) : Option (Table α) :=
  if h : size ≤ 0 then none
  else
    have size_pos := toNat_pos size h
    some ⟨size.toNat, size_pos, .empty size.toNat size_pos, []⟩

variable (t : Table α)

def add (v : α) : Table α :=
  let (ring, erased) := addAndReturnErased t.ring v
  let table := match erased with
    | none => t.table
    | some erased => t.table.erase erased
  { t with ring := ring, table := v :: table }

def mem (v : α) : Bool := decide (v ∈ t.table)

def remove (v : α) : Table α := { t with table := t.table.erase v }

def clear : Table α := { t with ring := .empty t.size t.size_pos, table := [] }

/-- `elements`, up to the order of the buckets of the hash table. -/
def elements : List α := t.table

end Table

end Tezos.Ring
