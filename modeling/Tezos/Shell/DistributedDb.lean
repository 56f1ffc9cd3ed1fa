import Tezos.Lib.Table
import Tezos.Lib.Runs

/-! The tables of the distributed database (`lib_shell/distributed_db_functors.ml`, `Make_table`). The operations are
    cut where they wait for the disk, and the calls that wait are part of the state. -/

namespace Tezos.DistributedDb

inductive Event (K P : Type) where
  | request (peer : Option P) (key : K)
  | notify (peer : P) (key : K)
  | notifyCancelation (key : K)
  | notifyInvalid (peer : P) (key : K)
  | notifyDuplicate (peer : P) (key : K)
  | notifyUnrequested (peer : P) (key : K)
  deriving DecidableEq, Repr

inductive Error (K : Type) where
  | canceled (key : K)
  | timeout (key : K)
  deriving DecidableEq, Repr

abbrev Result (K V : Type) := Except (Error K) V

/-- A value of the memory table. A waiter is the number of a promise: the waiters are numbered as they are made, and the
    wakener has the number of its waiter. -/
inductive Status (V A : Type) where
  | pending (waiter : Nat) (waiters : Int) (param : A)
  | found (value : V)
  deriving DecidableEq, Repr

inductive Promise (K V : Type) where
  /-- The disk is being read. -/
  | reading
  /-- The promise made by `wrap`, on top of a waiter. -/
  | waiting (waiter : Nat)
  | resolved (result : Result K V)
  | cancelled

structure Fetch (K V A P : Type) where
  peer : Option P
  timeout : Bool
  key : K
  param : A
  promise : Promise K V

/-- A call of `inject`, which looks the key up on the disk before it returns. -/
inductive Inject (K V : Type) where
  | looking (key : K) (value : V)
  | returned (injected : Bool)

structure State (K V A P : Type) where
  memory : Lib.Table K (Status V A)
  /-- The results of the waiters that were woken up. -/
  waiters : List (Option (Result K V))
  fetches : List (Fetch K V A P)
  injects : List (Inject K V)
  /-- The calls of `notify` that look the key up on the disk, until they end. -/
  notifies : List (Option (P × K))
  scheduler : List (Event K P)
  /-- What the watchers of the table were given. -/
  input : List (K × V)

/-- One turn of a caller, of the disk, of a clock or of Lwt. The calls are known by their place. -/
inductive Action (K V A N P : Type) where
  /-- A call of `fetch`, or of `prefetch`, which ignores its promise. -/
  | fetch (peer : Option P) (timeout : Bool) (key : K) (param : A)
  | fetchRead (fetch : Nat) (value : Option V)
  | cancel (fetch : Nat)
  | timeout (fetch : Nat)
  /-- Lwt runs the callback of a waiter that was woken up, by which the promise of the fetch is resolved. -/
  | deliver (fetch : Nat)
  | notify (peer : P) (key : K) (value : N)
  | notifyKnown (notify : Nat) (known : Bool)
  | inject (key : K) (value : V)
  | injectKnown (inject : Nat) (known : Bool)
  | resolvePending (key : K) (value : V)
  | clearOrCancel (key : K)

variable {K V A N P : Type}

def create : State K V A P := ⟨[], [], [], [], [], [], []⟩

namespace State
variable (s : State K V A P)

def push (event : Event K P) : State K V A P := { s with scheduler := s.scheduler ++ [event] }

/-- `Lwt.wakeup_later`. A waiter is woken up when its entry leaves the table, hence once. -/
def wakeupLater (waiter : Nat) (result : Result K V) : State K V A P :=
  { s with waiters := s.waiters.set waiter (some result) }

def setPromise (i : Nat) (f : Fetch K V A P) (promise : Promise K V) : State K V A P :=
  { s with fetches := s.fetches.set i { f with promise := promise } }

variable [DecidableEq K]

/-- The callback of `wrap` for a promise that is cancelled. It finds whatever is bound to the key by now. -/
def onCancel (k : K) : State K V A P :=
  match s.memory.find? k with
  | none => s
  | some (.found _) => s
  | some (.pending waiter waiters param) =>
    let waiters := waiters - 1
    if waiters = 0 then { s with memory := s.memory.remove k }.push (.notifyCancelation k)
    else { s with memory := s.memory.replace k (.pending waiter waiters param) }

/-- The part of `fetch` that does not read the disk, with the promise it returns. -/
def await (peer : Option P) (k : K) (param : A) : State K V A P × Promise K V :=
  match s.memory.find? k with
  | none =>
    let waiter := s.waiters.length
    ({ s with waiters := s.waiters ++ [none], memory := s.memory.add k (.pending waiter 1 param) }.push (.request peer k),
      .waiting waiter)
  | some (.pending waiter waiters param') =>
    ({ s with memory := s.memory.replace k (.pending waiter (waiters + 1) param') }.push (.request peer k),
      .waiting waiter)
  | some (.found v) => (s, .resolved (.ok v))

def fetch (peer : Option P) (timeout : Bool) (k : K) (param : A) : State K V A P :=
  match s.memory.find? k with
  | none => { s with fetches := s.fetches ++ [⟨peer, timeout, k, param, .reading⟩] }
  | some _ =>
    let (s, promise) := s.await peer k param
    { s with fetches := s.fetches ++ [⟨peer, timeout, k, param, promise⟩] }

def fetchRead (i : Nat) (value : Option V) : State K V A P :=
  match s.fetches[i]? with
  | some f =>
    match f.promise with
    | .reading =>
      match value with
      | some v => s.setPromise i f (.resolved (.ok v))
      | none =>
        let (s, promise) := s.await f.peer f.key f.param
        s.setPromise i f promise
    | _ => s
  | none => s

def cancel (i : Nat) : State K V A P :=
  match s.fetches[i]? with
  | some f =>
    match f.promise with
    | .reading => s.setPromise i f .cancelled
    | .waiting _ => (s.onCancel f.key).setPromise i f .cancelled
    | _ => s
  | none => s

/-- The delay of a fetch is over, and `Lwt.pick` cancels the other promise. -/
def timeout (i : Nat) : State K V A P :=
  match s.fetches[i]? with
  | some f =>
    match f.promise with
    | .waiting _ => if f.timeout then (s.onCancel f.key).setPromise i f (.resolved (.error (.timeout f.key))) else s
    | _ => s
  | none => s

def deliver (i : Nat) : State K V A P :=
  match s.fetches[i]? with
  | some f =>
    match f.promise with
    | .waiting waiter =>
      match s.waiters[waiter]? with
      | some (some result) => s.setPromise i f (.resolved result)
      | _ => s
    | _ => s
  | none => s

def wake (k : K) (waiter : Nat) (v : V) : State K V A P :=
  let s := { s with memory := s.memory.replace k (.found v) }.wakeupLater waiter (.ok v)
  { s with input := s.input ++ [(k, v)] }

def notify (precheck : K → A → N → Option V) (p : P) (k : K) (v : N) : State K V A P :=
  match s.memory.find? k with
  | none => { s with notifies := s.notifies ++ [some (p, k)] }
  | some (.pending waiter _ param) =>
    match precheck k param v with
    | none => s.push (.notifyInvalid p k)
    | some v => (s.push (.notify p k)).wake k waiter v
  | some (.found _) => s.push (.notifyDuplicate p k)

omit [DecidableEq K] in
def notifyKnown (j : Nat) (known : Bool) : State K V A P :=
  match s.notifies[j]? with
  | some (some (p, k)) =>
    let s := s.push (if known then .notifyDuplicate p k else .notifyUnrequested p k)
    { s with notifies := s.notifies.set j none }
  | _ => s

def inject (k : K) (v : V) : State K V A P :=
  match s.memory.find? k with
  | none => { s with injects := s.injects ++ [.looking k v] }
  | some _ => { s with injects := s.injects ++ [.returned false] }

omit [DecidableEq K] in
/-- The disk was asked for the key of an injection. The memory is not looked at again. -/
def injectKnown (j : Nat) (known : Bool) : State K V A P :=
  match s.injects[j]? with
  | some (.looking k v) =>
    if known then { s with injects := s.injects.set j (.returned false) }
    else { s with memory := s.memory.add k (.found v), injects := s.injects.set j (.returned true) }
  | _ => s

def resolvePending (k : K) (v : V) : State K V A P :=
  match s.memory.find? k with
  | some (.pending waiter _ _) => (s.push (.notifyCancelation k)).wake k waiter v
  | _ => s

def clearOrCancel (k : K) : State K V A P :=
  match s.memory.find? k with
  | none => s
  | some (.pending waiter _ _) =>
    { s.push (.notifyCancelation k) with memory := s.memory.remove k }.wakeupLater waiter (.error (.canceled k))
  | some (.found _) => { s with memory := s.memory.remove k }

end State

def step [DecidableEq K] (precheck : K → A → N → Option V) (s : State K V A P) : Action K V A N P → State K V A P
  | .fetch peer timeout k param => s.fetch peer timeout k param
  | .fetchRead i value => s.fetchRead i value
  | .cancel i => s.cancel i
  | .timeout i => s.timeout i
  | .deliver i => s.deliver i
  | .notify p k v => s.notify precheck p k v
  | .notifyKnown j known => s.notifyKnown j known
  | .inject k v => s.inject k v
  | .injectKnown j known => s.injectKnown j known
  | .resolvePending k v => s.resolvePending k v
  | .clearOrCancel k => s.clearOrCancel k

end Tezos.DistributedDb
