import Tezos.DataEncoding.MBytes

/-! The keys of a carbonated storage (`storage_functors.ml`, `Make_indexed_carbonated_data_storage`), in a subcontext that
    is a tree. -/

namespace Tezos.Protocol.IndexedCarbonated
open DataEncoding

inductive Tree where
  | contents (bytes : MBytes)
  | node (children : List (String × Tree))

namespace Tree

def isContents : Tree → Bool
  | contents _ => true
  | node _ => false

def find : List String → Tree → Option Tree
  | [], t => some t
  | name :: path, node children => (children.lookup name).bind (find path)
  | _ :: _, contents _ => none

def mem (t : Tree) (path : List String) : Bool := (find path t).any isContents

def list (t : Tree) (path : List String) : List (String × Tree) :=
  match find path t with
  | some (node children) => children
  | _ => []

inductive Entry where
  | dir (key : List String)
  | key (file : List String)

def fold {α : Type} (t : Tree) (path : List String) (init : α) (f : Entry → α → Except Exn α) : Except Exn α :=
  (t.list path).foldlM (fun acc child =>
    let key := path ++ [child.1]
    f (if child.2.isContents then .key key else .dir key) acc) init

end Tree

def dataName : String := "data"

/-- The paths of the keys. No path of a key starts with the name of the data. -/
structure Index (K : Type) where
  pathLength : Nat
  toPath : K → List String → List String
  ofPath : List String → Option K
  ofPath_data (path : List String) : path.head? = some dataName → ofPath path = none

variable {K α : Type} (I : Index K) (s : Tree)

def name (k : K) : List String := I.toPath k [dataName]

/-- `mem`, but for the gas that it takes. -/
def mem (k : K) : Bool := s.mem (name I k)

def dig (f : K → α → Except Exn α) : Nat → List String → α → Except Exn α
  | 0, path, acc | 1, path, acc =>
    s.fold path acc fun k acc =>
      match k with
      | .dir _ => .ok acc
      | .key file =>
        match I.ofPath file with
        | none => .error .assertFailure
        | some path => f path acc
  | i + 2, path, acc =>
    s.fold path acc fun k acc =>
      match k with
      | .dir k => dig f (i + 1) k acc
      | .key _ => .ok acc

def foldKeysUnaccounted (init : α) (f : K → α → Except Exn α) : Except Exn α :=
  dig I s f I.pathLength [dataName] init

def keysUnaccounted : Except Exn (List K) := foldKeysUnaccounted I s [] fun p acc => .ok (p :: acc)

end Tezos.Protocol.IndexedCarbonated
