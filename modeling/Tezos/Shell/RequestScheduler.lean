import Mathlib.Data.Finset.Sort
import Tezos.Lib.SortedMap
import Tezos.Shell.DistributedDb

/-! The scheduler of the requests (`lib_shell/distributed_db_functors.ml`, `Make_request_scheduler`). The clock, the
    active peers, the random numbers and the order of the table come with each turn of the worker. -/

namespace Tezos.RequestScheduler
open DistributedDb (Event)

/-- What the worker uses of `Ptime` and `Time.System.Span`. -/
structure Clock (T S : Type) where
  max : T
  addSpan : T → S → Option T
  /-- `Time.System.Span.multiply_exn 1.5`, which raises when the span is too large. -/
  multiplyExn : S → Option S
  /-- The 0.2 seconds within which a request is sent ahead of its time. -/
  ahead : S
  /-- `Request.initial_delay`. -/
  initialDelay : S

structure Status (P T S : Type) where
  peers : Finset P
  nextRequest : T
  delay : S

inductive Exn where
  /-- `Invalid_argument "Random.int"`. -/
  | randomInt
  /-- `Failure "Time.System.Span.multiply_exn"`. -/
  | multiplyExn
  | assertFalse
  deriving DecidableEq, Repr

/-- The order in which `Table.fold` visits the bindings: each of them once. -/
structure Order (α : Type) where
  visited : List α → List α
  perm : ∀ l, (visited l).Perm l

/-- One turn of the worker: it takes events in, or its timeout is over. -/
inductive Turn (K P T S : Type) where
  | events (now : T) (events : List (Event K P))
  | timeout (now : T) (active : Finset P) (order : Order (K × Status P T S)) (random : K → Nat)

variable {K P T S : Type}

/-- `Ptime.add_span`, or the last time there is. -/
def Clock.after (clock : Clock T S) (now : T) (span : S) : T := (clock.addSpan now span).getD clock.max

section
variable [LinearOrder P]

/-- `Random.int` is a number below its argument, which it asks to be positive. -/
def randomElt (random : Nat) (s : Finset P) : Except Exn P :=
  if s.card = 0 then .error .randomInt
  else
    match s.sort[random % s.card]? with
    | some peer => .ok peer
    | none => .error .assertFalse

variable [DecidableEq K] (clock : Clock T S)

def processEvent (now : T) (pending : Lib.Table K (Status P T S)) : Event K P → Lib.Table K (Status P T S)
  | .request peer key =>
    match pending.find? key with
    | some data =>
      let peers := match peer with
        | none => data.peers
        | some peer => insert peer data.peers
      pending.replace key ⟨peers, clock.after now clock.initialDelay, clock.initialDelay⟩
    | none =>
      let peers := match peer with
        | none => ∅
        | some peer => {peer}
      pending.add key ⟨peers, now, clock.initialDelay⟩
  | .notify _ key | .notifyCancelation key => pending.remove key
  | .notifyInvalid _ _ => pending
  | .notifyUnrequested _ _ => pending
  | .notifyDuplicate _ _ => pending

abbrev Requests (K P : Type) := Lib.SortedMap P (List K)

variable [LinearOrder T]

/-- The body of the fold over the pending keys. -/
def visit (now : T) (active : Finset P) (random : K → Nat) (acc : Lib.Table K (Status P T S) × Requests K P) :
    K × Status P T S → Except Exn (Lib.Table K (Status P T S) × Requests K P)
  | (key, ⟨peers, nextRequest, delay⟩) =>
    let later := clock.after now clock.ahead
    if later < nextRequest then .ok acc
    else
      let remainingPeers := peers ∩ active
      if remainingPeers = ∅ ∧ peers ≠ ∅ then .ok (acc.1.remove key, acc.2)
      else
        match randomElt (random key) (if remainingPeers = ∅ then active else remainingPeers) with
        | .error exn => .error exn
        | .ok requestedPeer =>
          match clock.multiplyExn delay with
          | none => .error .multiplyExn
          | some delay' =>
            let next : Status P T S := ⟨remainingPeers, clock.after now delay, delay'⟩
            let requests := key :: (acc.2.find? requestedPeer).getD []
            .ok (acc.1.replace key next, acc.2.add requestedPeer requests)

/-- A turn of `worker_loop`, with the requests that are sent. -/
def turn (pending : Lib.Table K (Status P T S)) : Turn K P T S → Except Exn (Lib.Table K (Status P T S) × Requests K P)
  | .events now events => .ok (events.foldl (processEvent clock now) pending, [])
  | .timeout now active order random => (order.visited pending).foldlM (visit clock now active random) (pending, [])

/-- The worker ends with the first exception. -/
def step (worker : Except Exn (Lib.Table K (Status P T S))) (t : Turn K P T S) :
    Except Exn (Lib.Table K (Status P T S)) :=
  match worker with
  | .error exn => .error exn
  | .ok pending => (turn clock pending t).map Prod.fst

end

/-- What `Request.send` is called with, key by key. -/
def Requests.sent (requests : Requests K P) : List (P × K) := requests.flatMap fun request => request.2.map (request.1, ·)

def create : Except Exn (Lib.Table K (Status P T S)) := .ok []

end Tezos.RequestScheduler
