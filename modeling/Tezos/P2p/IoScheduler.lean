import Mathlib.Data.List.Basic

/-! The scheduler of reads and writes (`Scheduler` in `lib_p2p/p2p_io_scheduler.ml`), as a machine: the worker, the
    threads of `waiter` and the promises of `IO.pop` and `IO.push` take their steps in any order. -/

namespace Tezos.IoScheduler

inductive IoError where
  /-- `Canceled`, which ends the service of a connection without closing it. -/
  | canceled
  /-- `Connection_closed`, `Lwt_pipe.Closed` and the errors of a closed socket. -/
  | connectionClosed
  | unexpected
deriving DecidableEq

abbrev Res := Except IoError (List UInt8)

/-- The state of a promise of `IO.pop`. -/
inductive Pop where
  /-- `Lwt.fail Not_found`, that a connection is created with. -/
  | dummy
  | sleep
  | done (res : Res)

structure Connection where
  closed : Bool
  currentPop : Pop
  /-- The push whose promise `current_push` is, 0 for `return_unit`. -/
  currentPush : Nat
  quota : Int
  /-- The pushes whose promises are pending. -/
  pushing : List Nat
  /-- What `IO.pop` returned so far. -/
  popped : List (List UInt8)
  /-- What `IO.push` was called with so far. -/
  pushed : List (List UInt8)

/-- Where a thread of `waiter` is. -/
inductive Waiter where
  | pop
  | push (res : Res) (push : Nat)

/-- Where the worker is in its loop. -/
inductive Worker where
  | checkQuota
  /-- The quota was negative; the worker does not wait for it to be updated yet. -/
  | lowQuota
  | waitQuota
  | waitData
  /-- In `cancel`. -/
  | close (conn : Nat)
  /-- The push of a message has started. -/
  | handle (conn : Nat) (len : Nat) (prio : Bool)
  | stopped

structure State where
  canceled : Bool
  maxSpeed : Option Int
  quota : Int
  readysHigh : List (Nat × Res)
  readysLow : List (Nat × Res)
  conns : List Connection
  waiters : List (Nat × Waiter)
  worker : Worker
  /-- The assertion of `waiter` failed. -/
  failed : Bool
  /-- The lengths of the messages that the worker handled. -/
  handled : List Nat
  /-- The calls of `update_quota`. -/
  updates : Nat

def create (maxSpeed : Option Int) : State where
  canceled := false
  maxSpeed
  quota := maxSpeed.getD 0
  readysHigh := []
  readysLow := []
  conns := []
  waiters := []
  worker := .checkQuota
  failed := false
  handled := []
  updates := 0

/-- `waiter`, for a connection that is in the state `conn`. -/
def waiter (c : Nat) (conn : Connection) (st : State) : State :=
  match conn.currentPop with
  | .sleep => { st with failed := true, worker := .stopped }
  | _ =>
    { st with
      conns := st.conns.set c { conn with currentPop := .sleep }
      waiters := st.waiters ++ [(c, .pop)] }

def createConnection (st : State) : State :=
  let conn : Connection :=
    { closed := false, currentPop := .dummy, currentPush := 0, quota := 0, pushing := [], popped := [], pushed := [] }
  waiter st.conns.length conn { st with conns := st.conns ++ [conn] }

/-- The thread at place `i` among those of `waiter` goes on, for a connection that is in the state `conn`. -/
def resume (i c : Nat) (conn : Connection) (st : State) : Waiter → State
  | .pop =>
    match conn.currentPop with
    | .done res => { st with waiters := st.waiters.set i (c, .push res conn.currentPush) }
    | _ => st
  | .push res push =>
    if push ∈ conn.pushing then st
    else
      let st := { st with waiters := st.waiters.eraseIdx i }
      if conn.quota > 0 then { st with readysHigh := st.readysHigh ++ [(c, res)] }
      else { st with readysLow := st.readysLow ++ [(c, res)] }

def handle (prio : Bool) (c : Nat) (st : State) : Res → State
  | .error .canceled => { st with worker := .checkQuota }
  | .error _ => { st with worker := .close c }
  | .ok msg =>
    match st.conns[c]? with
    | none => st
    | some conn =>
      let push := conn.currentPush + 1
      { st with
        conns := st.conns.set c
          { conn with currentPush := push, pushing := push :: conn.pushing, pushed := conn.pushed ++ [msg] }
        worker := .handle c msg.length prio
        handled := msg.length :: st.handled }

def work (st : State) : State :=
  match st.worker with
  | .checkQuota =>
    if st.maxSpeed.isSome ∧ st.quota < 0 then { st with worker := .lowQuota } else { st with worker := .waitData }
  | .lowQuota => { st with worker := .waitQuota }
  | .waitQuota => st
  | .waitData =>
    if st.canceled then { st with worker := .stopped }
    else
      match st.readysHigh, st.readysLow with
      | (c, msg) :: rest, _ => handle true c { st with readysHigh := rest } msg
      | [], (c, msg) :: rest => handle false c { st with readysLow := rest } msg
      | [], [] => st
  | .close c =>
    match st.conns[c]? with
    | none => st
    | some conn => { st with conns := st.conns.set c { conn with closed := true }, worker := .checkQuota }
  | .handle c len prio =>
    match st.conns[c]? with
    | none => st
    | some conn =>
      let conn := if prio then { conn with quota := conn.quota - len } else conn
      waiter c conn { st with quota := st.quota - len, conns := st.conns.set c conn, worker := .checkQuota }
  | .stopped => st

/-- The broadcast of `quota_updated` wakes up a worker that waits for it. -/
def Worker.wake : Worker → Worker
  | .waitQuota => .waitData
  | worker => worker

def updateQuota (st : State) : State :=
  let st := { st with updates := st.updates + 1 }
  let st :=
    match st.maxSpeed with
    | none => st
    | some quota => { st with quota := min st.quota 0 + quota, worker := st.worker.wake }
  let high (entry : Nat × Res) : Bool := st.conns[entry.1]?.any (·.quota > 0)
  { st with
    readysHigh := st.readysHigh ++ st.readysLow.filter high
    readysLow := st.readysLow.filter (!high ·) }

inductive Action where
  | createConnection
  /-- The promise of the current pop of a connection is resolved. -/
  | popDone (c : Nat) (res : Res)
  /-- A push failed, and the connection is closed. -/
  | pushFailed (c : Nat)
  /-- The promise of a push is resolved. -/
  | pushDone (c push : Nat)
  | resume (i : Nat)
  | work
  /-- `reset_quota` gives its share to a connection. -/
  | resetQuota (c : Nat) (fair : Int)
  | updateQuota
  | shutdown

def step (st : State) : Action → State
  | .createConnection => createConnection st
  | .popDone c res =>
    match st.conns[c]? with
    | some conn =>
      match conn.currentPop with
      | .sleep =>
        { st with
          conns := st.conns.set c
            { conn with currentPop := .done res, popped := conn.popped ++ (res.toOption.toList) } }
      | _ => st
    | none => st
  | .pushFailed c =>
    match st.conns[c]? with
    | some conn =>
      if conn.pushing = [] then st else { st with conns := st.conns.set c { conn with closed := true } }
    | none => st
  | .pushDone c push =>
    match st.conns[c]? with
    | some conn => { st with conns := st.conns.set c { conn with pushing := conn.pushing.erase push } }
    | none => st
  | .resume i =>
    match st.waiters[i]? with
    | some (c, thread) =>
      match st.conns[c]? with
      | some conn => resume i c conn st thread
      | none => st
    | none => st
  | .work => work st
  | .resetQuota c fair =>
    match st.conns[c]? with
    | some conn => { st with conns := st.conns.set c { conn with quota := min conn.quota 0 + fair } }
    | none => st
  | .updateQuota => updateQuota st
  | .shutdown => { st with canceled := true }

end Tezos.IoScheduler
