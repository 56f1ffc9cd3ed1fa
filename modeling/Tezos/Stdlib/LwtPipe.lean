import Mathlib.Algebra.Group.Nat.Defs

/-! Pipes between threads (`lib_stdlib/lwt_pipe.ml`), as a machine: an operation runs until it waits or ends, and the
    threads that it releases run inside its wake-up or later. The condition `empty` is left out. -/

namespace Tezos.LwtPipe

/-- The sum or the difference of sizes, as a native integer of 63 bits. -/
def int63 (x : Int) : Int := x.bmod (2 ^ 63)

/-- The operations that can wait; a thread that is released starts its operation again. -/
inductive Thread (α : Type) where
  | push (elt : α)
  | pop
  | popWithTimeout
  | peek
  | valuesAvailable

structure Pipe (α : Type) where
  queue : List (Int × α)
  currentSize : Int
  maxSize : Int
  closed : Bool
  /-- The promise of `push_waiter`, with the threads that wait for it. -/
  pushWaiter : Option (List (Thread α))
  popWaiter : Option (List (Thread α))

/-- A piece of code that runs without being interrupted, up to a wake-up. -/
inductive Task (α : Type) where
  /-- An operation that can wait; `sleeping` is whether the timeout of `pop_with_timeout` is. -/
  | thread (thread : Thread α) (sleeping : Bool)
  | pushNow (elt : α)
  | popNow
  | popAllNow
  | close
  /-- The rest of `pop` after `notify_pop`: `q.current_size <- current_size - elt_size`. -/
  | setSize (currentSize eltSize : Int)
  /-- The rest of `pop_all_loop` after `notify_pop`, with the elements that it popped, the last one first. -/
  | popAllLoop (acc : List (Int × α))
  /-- The rest of `close` after `notify_push`. -/
  | notifyPop

structure State (α : Type) where
  pipe : Pipe α
  /-- The threads that were released and have not run yet. -/
  ready : List (Thread α)
  /-- What is left of the operations whose wake-up is running, the innermost first. -/
  stack : List (Task α)
  /-- The elements that were pushed so far, and those that were taken out of the queue. -/
  pushed : List (Int × α)
  popped : List (Int × α)
  /-- The elements among these that were not returned to the one who popped them. -/
  lost : List (Int × α)

variable {α : Type}

def create (maxSize : Int) : State α where
  pipe := ⟨[], 0, maxSize, false, none, none⟩
  ready := []
  stack := []
  pushed := []
  popped := []
  lost := []

def notifyPush (s : State α) : State α :=
  match s.pipe.pushWaiter with
  | none => s
  | some threads => { s with pipe := { s.pipe with pushWaiter := none }, ready := s.ready ++ threads }

def notifyPop (s : State α) : State α :=
  match s.pipe.popWaiter with
  | none => s
  | some threads => { s with pipe := { s.pipe with popWaiter := none }, ready := s.ready ++ threads }

/-- `notify_pop`, and then the rest of an operation: it goes on at once if nobody is released. -/
def notifyPopThen (rest : Task α) (go : State α → State α) (s : State α) : State α :=
  match s.pipe.popWaiter with
  | none => go s
  | some _ => { notifyPop s with stack := rest :: s.stack }

def waitPush (t : Thread α) (s : State α) : State α :=
  { s with pipe := { s.pipe with pushWaiter := some (s.pipe.pushWaiter.getD [] ++ [t]) } }

def waitPop (t : Thread α) (s : State α) : State α :=
  { s with pipe := { s.pipe with popWaiter := some (s.pipe.popWaiter.getD [] ++ [t]) } }

def admits (q : Pipe α) (eltSize : Int) : Bool := decide (int63 (q.currentSize + eltSize) < q.maxSize) || q.queue.isEmpty

def enqueue (x : Int × α) (s : State α) : State α :=
  notifyPush
    { s with
      pipe := { s.pipe with queue := s.pipe.queue ++ [x], currentSize := int63 (s.pipe.currentSize + x.1) }
      pushed := s.pushed ++ [x] }

def dequeue (x : Int × α) (rest : List (Int × α)) (s : State α) : State α :=
  { s with pipe := { s.pipe with queue := rest }, popped := s.popped ++ [x] }

def setSize (currentSize eltSize : Int) (s : State α) : State α :=
  { s with pipe := { s.pipe with currentSize := int63 (currentSize - eltSize) } }

variable (computeSize : α → Int)

def push (elt : α) (s : State α) : State α :=
  if s.pipe.closed then s
  else if admits s.pipe (computeSize elt) then enqueue (computeSize elt, elt) s
  else waitPop (.push elt) s

def pushNow (elt : α) (s : State α) : State α :=
  if s.pipe.closed then s
  else if admits s.pipe (computeSize elt) then enqueue (computeSize elt, elt) s
  else s

/-- `pop`: the size that it subtracts from was read before `notify_pop`. -/
def pop (s : State α) : State α :=
  match s.pipe.queue with
  | x :: rest =>
    notifyPopThen (.setSize s.pipe.currentSize x.1) (setSize s.pipe.currentSize x.1) (dequeue x rest s)
  | [] => if s.pipe.closed then s else waitPush .pop s

def popWithTimeout (sleeping : Bool) (s : State α) : State α :=
  if s.pipe.queue.isEmpty then
    if sleeping then
      if s.pipe.closed then s else waitPush .popWithTimeout s
    else s
  else pop s

/-- `peek` and `values_available` wait for an element, and leave it in the pipe. -/
def awaitElement (t : Thread α) (s : State α) : State α :=
  if s.pipe.queue.isEmpty then
    if s.pipe.closed then s else waitPush t s
  else s

/-- The part of `pop_now_exn` before `notify_pop`. -/
def takeNow (x : Int × α) (rest : List (Int × α)) (s : State α) : State α :=
  setSize s.pipe.currentSize x.1 (dequeue x rest s)

def popNow (s : State α) : State α :=
  match s.pipe.queue with
  | x :: rest => notifyPop (takeNow x rest s)
  | [] => s

/-- `pop_all_loop`, on the elements of the queue. It stops at the exception `Empty`; at the end of a closed pipe it meets
    `Closed`, which goes through, and what was popped is lost. -/
def popAllLoop : List (Int × α) → List (Int × α) → State α → State α
  | acc, [], s => if s.pipe.closed then { s with lost := s.lost ++ acc.reverse } else s
  | acc, x :: rest, s =>
    notifyPopThen (.popAllLoop (x :: acc)) (fun s => popAllLoop (x :: acc) rest s) (takeNow x rest s)

/-- `close`: the rest after `notify_push` goes on at once if nobody is released. -/
def close (s : State α) : State α :=
  if s.pipe.closed then s
  else
    let closing : State α := { s with pipe := { s.pipe with closed := true } }
    match s.pipe.pushWaiter with
    | none => notifyPop closing
    | some _ => { notifyPush closing with stack := .notifyPop :: s.stack }

def exec (s : State α) : Task α → State α
  | .thread (.push elt) _ => push computeSize elt s
  | .thread .pop _ => pop s
  | .thread .popWithTimeout sleeping => popWithTimeout sleeping s
  | .thread .peek _ => awaitElement .peek s
  | .thread .valuesAvailable _ => awaitElement .valuesAvailable s
  | .pushNow elt => pushNow computeSize elt s
  | .popNow => popNow s
  | .popAllNow => popAllLoop [] s.pipe.queue s
  | .close => close s
  | .setSize currentSize eltSize => setSize currentSize eltSize s
  | .popAllLoop acc => popAllLoop acc s.pipe.queue s
  | .notifyPop => notifyPop s

inductive Action (α : Type) where
  /-- A thread calls an operation. -/
  | call (task : Task α)
  /-- A thread that was released runs. -/
  | run (i : Nat) (sleeping : Bool)
  /-- The timeout of a `pop_with_timeout` that waits is over, which releases it. -/
  | timeout (i : Nat)
  /-- The threads that ran in a wake-up are done, and the operation that called it goes on. -/
  | return_

/-- The operations of the module. -/
def Task.isCall : Task α → Bool
  | .setSize _ _ => false
  | .popAllLoop _ => false
  | .notifyPop => false
  | _ => true

/-- The state without the thread or the rest that an action chooses, and the code that it runs. -/
def start (s : State α) : Action α → State α × Option (Task α)
  | .call task => (s, if task.isCall then some task else none)
  | .run i sleeping =>
    match s.ready[i]? with
    | some t => ({ s with ready := s.ready.eraseIdx i }, some (.thread t sleeping))
    | none => (s, none)
  | .timeout i =>
    match s.pipe.pushWaiter with
    | none => (s, none)
    | some threads =>
      match threads[i]? with
      | some .popWithTimeout =>
        ({ s with
           pipe := { s.pipe with pushWaiter := some (threads.eraseIdx i) }
           ready := s.ready ++ [.popWithTimeout] }, none)
      | _ => (s, none)
  | .return_ =>
    match s.stack with
    | rest :: stack => ({ s with stack := stack }, some rest)
    | [] => (s, none)

def step (s : State α) (a : Action α) : State α :=
  match start s a with
  | (s, some task) => exec computeSize s task
  | (s, none) => s

end Tezos.LwtPipe
