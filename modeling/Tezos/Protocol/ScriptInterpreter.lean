import Tezos.Protocol.Context

/-! The Michelson interpreter: the instructions that handle the stack, the data structures and the control of a
script. What the other instructions compute, and which of the comparable values is true, are parameters. -/

namespace Tezos.Protocol.ScriptInterpreter
open Lib

mutual

/-- Values: `K` has those of the comparable types, `A` those of the other types without components. -/
inductive Value (K A O : Type)
  | comparable (key : K)
  | atom (atom : A)
  | pair (first second : Value K A O)
  | none
  | some (value : Value K A O)
  | left (value : Value K A O)
  | right (value : Value K A O)
  | list (elements : List (Value K A O))
  | set (elements : List K)
  | map (bindings : List (K × Value K A O))
  | lambda (code : Descr K A O)

inductive Descr (K A O : Type)
  | drop | dup | swap
  | const (value : Value K A O)
  | consSome | consNone
  | ifNone (bt bf : Descr K A O)
  | consPair | car | cdr | left | right
  | ifLeft (bt bf : Descr K A O)
  | consList | nil
  | ifCons (bt bf : Descr K A O)
  | listMap (body : Descr K A O)
  | listIter (body : Descr K A O)
  | setIter (body : Descr K A O)
  | mapMap (body : Descr K A O)
  | mapIter (body : Descr K A O)
  | seq (hd tl : Descr K A O)
  | ite (bt bf : Descr K A O)
  | loop (body : Descr K A O)
  | loopLeft (body : Descr K A O)
  | dip (body : Descr K A O)
  | exec
  | lambda (code : Descr K A O)
  | nop
  | other (instr : O)

end

namespace CostOf

def cycle : Cost := .step 1

def stackOp : Cost := .step 1

def push : Cost := .step 1

def exec : Cost := .step 1

def pair : Cost := .alloc 2

def pairAccess : Cost := .step 1

def cons : Cost := .alloc 2

def variantNoData : Cost := .alloc 1

def wrap : Cost := .alloc 1

def branch : Cost := .step 2

def loopCycle : Cost := .step 2

def mapToList (size : Nat) : Cost := .mul 3 (.alloc size)

def setToList (size : Nat) : Cost := .alloc (size * 2)

end CostOf

abbrev Stack (K A O : Type) := List (Value K A O)

/-- How an instruction runs on a context and a stack. -/
abbrev Run (p : Primitives) (K A O : Type) := Context p → Stack K A O → Result p (Stack K A O × Context p)

structure Others (p : Primitives) (K A O : Type) where
  isTrue : K → Bool
  run : O → Run p K A O

variable {p : Primitives} {K A O : Type}

def consume (ctxt : Context p) (cost : Cost) : Result p (Context p) := (ctxt.consumeGas cost).outcome

/-- The cost and the stack of an instruction that only moves values or builds and opens data. -/
def stackOp : Descr K A O → Stack K A O → Option (Cost × Stack K A O)
  | .drop, _ :: rest => some (CostOf.stackOp, rest)
  | .dup, v :: rest => some (CostOf.stackOp, v :: v :: rest)
  | .swap, vi :: vo :: rest => some (CostOf.stackOp, vo :: vi :: rest)
  | .const v, rest => some (CostOf.push, v :: rest)
  | .consSome, v :: rest => some (CostOf.wrap, .some v :: rest)
  | .consNone, rest => some (CostOf.variantNoData, .none :: rest)
  | .consPair, a :: b :: rest => some (CostOf.pair, .pair a b :: rest)
  | .car, .pair a _ :: rest => some (CostOf.pairAccess, a :: rest)
  | .cdr, .pair _ b :: rest => some (CostOf.pairAccess, b :: rest)
  | .left, v :: rest => some (CostOf.wrap, .left v :: rest)
  | .right, v :: rest => some (CostOf.wrap, .right v :: rest)
  | .consList, hd :: .list tl :: rest => some (CostOf.cons, .list (hd :: tl) :: rest)
  | .nil, rest => some (CostOf.variantNoData, .list [] :: rest)
  | .lambda code, rest => some (CostOf.push, .lambda code :: rest)
  | _, _ => none

/-- The branch that a conditional takes, and the stack it starts from. -/
def branch (isTrue : K → Bool) : Descr K A O → Stack K A O → Option (Descr K A O × Stack K A O)
  | .ifNone bt _, .none :: rest => some (bt, rest)
  | .ifNone _ bf, .some v :: rest => some (bf, v :: rest)
  | .ifLeft bt _, .left v :: rest => some (bt, v :: rest)
  | .ifLeft _ bf, .right v :: rest => some (bf, v :: rest)
  | .ifCons _ bf, .list [] :: rest => some (bf, rest)
  | .ifCons bt _, .list (hd :: tl) :: rest => some (bt, hd :: .list tl :: rest)
  | .ite bt bf, .comparable k :: rest => some (if isTrue k then bt else bf, rest)
  | _, _ => none

def listMapLoop (body : Run p K A O) (rest : Stack K A O) (ctxt : Context p) (l acc : List (Value K A O)) :
    Result p (Stack K A O × Context p) := do
  let ctxt ← consume ctxt CostOf.loopCycle
  match l with
  | [] => .ok (.list acc.reverse :: rest, ctxt)
  | hd :: tl =>
    match ← body ctxt (hd :: rest) with
    | (hd :: rest, ctxt) => listMapLoop body rest ctxt tl (hd :: acc)
    | ([], _) => .error .exception

def iterLoop (body : Run p K A O) (ctxt : Context p) (l : List (Value K A O)) (stack : Stack K A O) :
    Result p (Stack K A O × Context p) := do
  let ctxt ← consume ctxt CostOf.loopCycle
  match l with
  | [] => .ok (stack, ctxt)
  | hd :: tl =>
    let (stack, ctxt) ← body ctxt (hd :: stack)
    iterLoop body ctxt tl stack

/-- The element of a map that its iteration gives to the body. -/
def binding (b : K × Value K A O) : Value K A O := .pair (.comparable b.1) b.2

variable [LinearOrder K]

/-- The loop hands the rest of the stack from one element to the next, and gives back the map only. -/
def mapMapLoop (body : Run p K A O) (rest : Stack K A O) (ctxt : Context p) (l : List (K × Value K A O))
    (acc : SortedMap K (Value K A O)) : Result p (SortedMap K (Value K A O) × Context p) := do
  let ctxt ← consume ctxt CostOf.loopCycle
  match l with
  | [] => .ok (acc, ctxt)
  | hd :: tl =>
    match ← body ctxt (binding hd :: rest) with
    | (v :: rest, ctxt) => mapMapLoop body rest ctxt tl (acc.add hd.1 v)
    | ([], _) => .error .exception

/-- A run that still goes on after `fuel` nested calls is a divergence; no typed stack meets the exception. -/
def step (others : Others p K A O) : Nat → Descr K A O → Run p K A O
  | 0, _, _, _ => .error .divergence
  | fuel + 1, descr, ctxt, stack => do
    let ctxt ← consume ctxt CostOf.cycle
    match descr, stack with
    | .listMap body, .list l :: rest => listMapLoop (step others fuel body) rest ctxt l []
    | .listIter body, .list l :: init => iterLoop (step others fuel body) ctxt l init
    | .setIter body, .set l :: init =>
      let ctxt ← consume ctxt (CostOf.setToList l.length)
      iterLoop (step others fuel body) ctxt (l.map .comparable) init
    | .mapMap body, .map l :: rest =>
      let ctxt ← consume ctxt (CostOf.mapToList l.length)
      let (res, ctxt) ← mapMapLoop (step others fuel body) rest ctxt l []
      .ok (.map res :: rest, ctxt)
    | .mapIter body, .map l :: init =>
      let ctxt ← consume ctxt (CostOf.mapToList l.length)
      iterLoop (step others fuel body) ctxt (l.map binding) init
    | .seq hd tl, stack =>
      let (middle, ctxt) ← step others fuel hd ctxt stack
      step others fuel tl ctxt middle
    | .loop body, .comparable k :: rest =>
      if others.isTrue k then
        let ctxt ← consume ctxt CostOf.loopCycle
        let (middle, ctxt) ← step others fuel body ctxt rest
        step others fuel (.loop body) ctxt middle
      else .ok (rest, ctxt)
    | .loopLeft body, .left v :: rest =>
      let ctxt ← consume ctxt CostOf.loopCycle
      let (middle, ctxt) ← step others fuel body ctxt (v :: rest)
      step others fuel (.loopLeft body) ctxt middle
    | .loopLeft _, .right v :: rest =>
      let ctxt ← consume ctxt CostOf.loopCycle
      .ok (v :: rest, ctxt)
    | .dip body, ign :: rest =>
      let ctxt ← consume ctxt CostOf.stackOp
      let (res, ctxt) ← step others fuel body ctxt rest
      .ok (ign :: res, ctxt)
    | .exec, arg :: .lambda code :: rest =>
      let ctxt ← consume ctxt CostOf.exec
      match ← step others fuel code ctxt [arg] with
      | ([res], ctxt) => .ok (res :: rest, ctxt)
      | _ => .error .exception
    | .nop, stack => .ok (stack, ctxt)
    | .other instr, stack => others.run instr ctxt stack
    | descr, stack =>
      match branch others.isTrue descr stack, stackOp descr stack with
      | some (taken, stack), _ =>
        let ctxt ← consume ctxt CostOf.branch
        step others fuel taken ctxt stack
      | none, some (cost, stack) =>
        let ctxt ← consume ctxt cost
        .ok (stack, ctxt)
      | none, none => .error .exception

end Tezos.Protocol.ScriptInterpreter
