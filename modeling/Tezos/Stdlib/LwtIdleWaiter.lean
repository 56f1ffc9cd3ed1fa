import Mathlib.Data.List.Basic

/-! Tasks and idle functions that exclude each other (`lib_stdlib/lwt_idle_waiter.ml`), as a machine. What runs inside
    a wake-up in the source is a step of its own: every order of the pieces of code is a run. -/

namespace Tezos.LwtIdleWaiter

/-- The list of idle functions that `Lwt_list.iter_s` goes through. -/
structure Phase where
  /-- The function that runs, unless it is done and the next one has not started. -/
  current : Option Nat
  rest : List Nat

structure State where
  /-- The tasks that wait, the last one first. -/
  pendingTasks : List Nat
  /-- The idle functions that wait, the last one first. -/
  pendingIdle : List Nat
  runningTasks : Int
  runningIdle : Bool
  preventTasks : Bool
  /-- The number of the next call. -/
  next : Nat
  /-- The calls whose promise was canceled while it was pending. -/
  canceled : List Nat
  /-- The tasks whose function was called and has not returned. -/
  tasks : List Nat
  phase : Option Phase
  /-- The idle functions that were called so far. -/
  started : List Nat
  /-- The tasks that the ends of idle phases are still to wake up, in the order of `List.iter`. -/
  wakeups : List (List Nat)

def create : State where
  pendingTasks := []
  pendingIdle := []
  runningTasks := 0
  runningIdle := false
  preventTasks := false
  next := 0
  canceled := []
  tasks := []
  phase := none
  started := []
  wakeups := []

/-- `Lwt_list.iter_s` goes on with the idle functions that are left, and skips those that were canceled; after the
    last one, the tasks that wait are to be woken up. -/
def iterIdle (w : State) : List Nat → State
  | f :: rest =>
    if f ∈ w.canceled then iterIdle w rest
    else { w with phase := some ⟨some f, rest⟩, started := f :: w.started }
  | [] =>
    { w with phase := none, runningIdle := false, pendingTasks := [], wakeups := w.wakeups ++ [w.pendingTasks.reverse] }

def mayRunIdleTasks (w : State) : State :=
  if w.runningTasks = 0 ∧ w.runningIdle = false then
    match w.pendingIdle with
    | [] => w
    | pendingIdle =>
      iterIdle { w with runningIdle := true, preventTasks := false, pendingIdle := [] } pendingIdle.reverse
  else w

def task (f : Nat) (w : State) : State :=
  if w.runningIdle || w.preventTasks then { w with pendingTasks := f :: w.pendingTasks }
  else { w with runningTasks := w.runningTasks + 1, tasks := f :: w.tasks }

def whenIdle (f : Nat) (w : State) : State := mayRunIdleTasks { w with pendingIdle := f :: w.pendingIdle }

def forceIdle (f : Nat) (w : State) : State := whenIdle f { w with preventTasks := true }

inductive Action where
  | task
  | whenIdle
  | forceIdle
  /-- The promise of a call is canceled. -/
  | cancel (f : Nat)
  /-- The function of a task returns or fails. -/
  | taskDone (f : Nat)
  /-- The idle function that runs returns or fails. -/
  | idleDone
  /-- `Lwt_list.iter_s` goes on after an idle function. -/
  | nextIdle
  /-- The end of an idle phase wakes up a task, or runs the idle functions that wait by now. -/
  | wakeup (i : Nat)

def step (w : State) : Action → State
  | .task => task w.next { w with next := w.next + 1 }
  | .whenIdle => whenIdle w.next { w with next := w.next + 1 }
  | .forceIdle => forceIdle w.next { w with next := w.next + 1 }
  | .cancel f => if f < w.next then { w with canceled := f :: w.canceled } else w
  | .taskDone f =>
    if f ∈ w.tasks then
      mayRunIdleTasks { w with runningTasks := w.runningTasks - 1, tasks := w.tasks.erase f }
    else w
  | .idleDone =>
    match w.phase with
    | some ⟨some _, rest⟩ => { w with phase := some ⟨none, rest⟩ }
    | _ => w
  | .nextIdle =>
    match w.phase with
    | some ⟨none, rest⟩ => iterIdle w rest
    | _ => w
  | .wakeup i =>
    match w.wakeups[i]? with
    | none => w
    | some [] => mayRunIdleTasks { w with wakeups := w.wakeups.eraseIdx i }
    | some (f :: rest) =>
      let w : State := { w with wakeups := w.wakeups.set i rest }
      if f ∈ w.canceled then w else task f w

end Tezos.LwtIdleWaiter
