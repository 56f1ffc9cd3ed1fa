import Tezos.Lib.Registry
import Tezos.P2p.PoolStates
import Tezos.Stdlib.TzList
import Mathlib.Data.Prod.Lex

/-! The pool of connections (`lib_p2p/p2p_pool.ml`), as a machine of the attempts to connect that are under way. An
    action is what a thread does between two points where it may be suspended; those that collect garbage say which
    entries go first. -/

namespace Tezos.P2pPool
open Lib

/-- The fields of `config` that are read, with the peer id of `identity`. -/
structure Config where
  peerId : P2pPeer.Id
  privateMode : Bool
  maxConnections : Nat
  maxIncomingConnections : Nat
  maxKnownPoints : Option (Nat × Nat)
  maxKnownPeerIds : Option (Nat × Nat)

/-- What `P2p_acl` answers. -/
structure Acl where
  bannedAddr : P2pAddr → Bool
  bannedPeer : P2pPeer.Id → Bool

def Acl.create : Acl where
  bannedAddr _ := false
  bannedPeer _ := false

/-- The errors of `P2p_socket.authenticate`, but for `Myself`. -/
inductive AuthenticationError where
  | canceled
  | connectionClosed
  | exn
  | notEnoughProofOfWork
  | invalidAuth
  | decipherError
  | invalidMessageSize
  | encodingError
  | decodingError
  | invalidChunksSize
  deriving DecidableEq

inductive Error where
  | authentication (err : AuthenticationError)
  | myself (idPoint : P2pConnection.Id)
  | peerBanned (peerId : P2pPeer.Id)
  | rejectedNoCommonProtocol
  | rejected (peerId : P2pPeer.Id)
  /-- An error of `P2p_socket.accept`, or a `Nack`. -/
  | rejectedSocketConnection
  deriving DecidableEq

/-- The fields of `P2p_connection.Info` that are read. -/
structure Info where
  peerId : P2pPeer.Id
  idPoint : P2pConnection.Id
  deriving DecidableEq

/-- What the thread of an attempt waits for. -/
inductive Stage where
  /-- `P2p_fd.connect`. -/
  | connecting
  /-- `P2p_socket.authenticate`. -/
  | authenticating
  /-- `P2p_socket.accept`. -/
  | accepting (connectionPointInfo : Option Nat) (peerInfo : Nat) (info : Info)
  /-- `P2p_socket.kick`. -/
  | rejecting (err : Error)
  /-- The connection was created. -/
  | running (connectionPointInfo : Option Nat) (peerInfo : Nat) (info : Info)
  /-- `raw_authenticate` returned an error, and `authenticate` closes the socket. -/
  | failed (err : Error)
  /-- The connection was canceled, and `P2p_socket.close` closes the socket. -/
  | closing
  | closed
  deriving DecidableEq

/-- A call of `authenticate` with `point` and `?point_info`, or a call of `connect` that comes to it. -/
structure Attempt where
  point : P2pPoint.Id
  pointInfo : Option Nat
  stage : Stage
  deriving DecidableEq

def Attempt.incoming (a : Attempt) : Bool := a.pointInfo.isNone

structure State where
  acl : Acl
  myIdPoints : Table P2pPoint.Id Unit
  points : Registry P2pPoint.Id P2pPointState.Info
  peers : Registry P2pPeer.Id P2pPeerState.Info
  /-- The points of the connections that are being authenticated, with their cancelers. -/
  incoming : Table P2pPoint.Id Nat
  attempts : List Attempt
  assertFailed : Bool

def State.setStage (st : State) (i : Nat) (a : Attempt) (stage : Stage) : State :=
  { st with attempts := st.attempts.set i { a with stage } }

def create (acl : Acl) : State where
  acl := acl
  myIdPoints := []
  points := .empty
  peers := .empty
  incoming := []
  attempts := []
  assertFailed := false

section
variable (config : Config)

def gcPoints (victims : List P2pPoint.Id) (points : Registry P2pPoint.Id P2pPointState.Info) :
    Registry P2pPoint.Id P2pPointState.Info :=
  points.gc (config.maxKnownPoints.map Prod.snd) P2pPointState.isDisconnected victims

def registerPoint (trusted : Option Bool) (victims : List P2pPoint.Id) (point : P2pPoint.Id)
    (points : Registry P2pPoint.Id P2pPointState.Info) : Registry P2pPoint.Id P2pPointState.Info × Nat :=
  let (points, pointInfo) := points.register (config.maxKnownPoints.map Prod.fst) (gcPoints config victims) point
    (.create (trusted.getD false) point)
  match trusted with
  | none => (points, pointInfo)
  | some trusted => (points.alter pointInfo fun info => { info with trusted }, pointInfo)

def gcPeerIds (victims : List P2pPeer.Id) (peers : Registry P2pPeer.Id P2pPeerState.Info) :
    Registry P2pPeer.Id P2pPeerState.Info :=
  peers.gc (config.maxKnownPeerIds.map Prod.snd) P2pPeerState.isDisconnected victims

def registerPeer (victims : List P2pPeer.Id) (peerId : P2pPeer.Id) (peers : Registry P2pPeer.Id P2pPeerState.Info) :
    Registry P2pPeer.Id P2pPeerState.Info × Nat :=
  peers.register (config.maxKnownPeerIds.map Prod.fst) (gcPeerIds config victims) peerId (.create peerId)

end

section
variable {K R κ : Type} [LinearOrder κ]

/-- What `Gc_point_set` or `Gc_peer_set` has after the iteration over a table. -/
def gcSet (idle : R → Bool) (key : K → κ) (target : Nat) (reg : Registry K R) : List K :=
  let entries := reg.known.filter (reg.isIdle idle)
  let table := (TzList.Bounded.ofList (fun entry => key entry.1) (reg.known.length - target : Nat) entries).getD []
  table.map Prod.fst

/-- The points that `gc_points` removes, of those that had a last miss at the given times. -/
def gcPointSet (lastMiss : P2pPoint.Id → Option κ) (now : κ) (target : Nat) :
    Registry P2pPoint.Id P2pPointState.Info → List P2pPoint.Id :=
  gcSet P2pPointState.isDisconnected (fun p => OrderDual.toDual ((lastMiss p).getD now)) target

def gcPeerSet {σ : Type} [LinearOrder σ] (score : P2pPeer.Id → σ) (created : P2pPeer.Id → κ) (target : Nat) :
    Registry P2pPeer.Id P2pPeerState.Info → List P2pPeer.Id :=
  gcSet P2pPeerState.isDisconnected (fun p => toLex (OrderDual.toDual (score p), created p)) target

end

/-- One point of the iteration in `sample`. -/
def pick {α : Type} : Nat × List Nat × List α → α → Nat × List Nat × List α
  | (_, [], acc), _ => (0, [], acc)
  | (i, index :: indexes, acc), point =>
    if i ≥ index then (i + 1, indexes, point :: acc) else (i + 1, index :: indexes, acc)

/-- `random` has the draws of `Random.int`. -/
def sample {α : Type} (best other : Nat) (random : Fin other → Nat) (points : List α) : List α :=
  if points.length ≤ best + other then points
  else
    let bestIndexes := List.range best
    let otherIndexes := (List.ofFn fun i => best + random i).mergeSort (· ≤ ·)
    (points.foldl pick (0, bestIndexes ++ otherIndexes, [])).2.2

def mayRegisterMyIdPoint (st : State) : Error → State
  | .myself (addr, some port) =>
    { st with myIdPoints := st.myIdPoints.add (addr, port) (), points := st.points.forget (addr, port) }
  | _ => st

/-! ### Attempts -/

def activeConnections (st : State) : Nat := st.peers.active.length

variable (config : Config)

/-- The state of a point is changed, where there is one. -/
def updatePoint (pointInfo : Option Nat) (f : P2pPointState.Info → Option P2pPointState.Info)
    (points : Registry P2pPoint.Id P2pPointState.Info) : Option (Registry P2pPoint.Id P2pPointState.Info) :=
  match pointInfo with
  | none => some points
  | some pointInfo => points.update pointInfo f

def pointOf (points : Registry P2pPoint.Id P2pPointState.Info) (pointInfo : Option Nat) : Option P2pPoint.Id :=
  (pointInfo.bind (points.records[·]?)).map (·.point)

/-- `connect`, up to `P2p_fd.connect`. -/
def connect (victims : List P2pPoint.Id) (point : P2pPoint.Id) (st : State) : Option State :=
  if st.acl.bannedAddr point.1 then some st
  else if ¬activeConnections st ≤ config.maxConnections then some st
  else
    let (points, pointInfo) := registerPoint config none victims point st.points
    let st := { st with points }
    match points.records[pointInfo]? with
    | none => none
    | some info =>
      if config.privateMode && !info.trusted then some st
      else
        match info.state with
        | .disconnected => do
          let points ← points.update pointInfo (P2pPointState.setRequested st.attempts.length)
          let attempt := { point := info.point, pointInfo := some pointInfo, stage := .connecting }
          some { st with points, attempts := st.attempts ++ [attempt] }
        | .requested _ | .accepted _ _ | .running _ _ => some st

/-- The rest of `connect`, up to `authenticate`. -/
def connected (i : Nat) (a : Attempt) (ok : Bool) (st : State) : Option State :=
  if ok then some (st.setStage i a .authenticating)
  else do
    let points ← updatePoint a.pointInfo P2pPointState.setDisconnected st.points
    some ({ st with points }.setStage i a .closed)

/-- `extra` allows one more connection, at random. -/
def accept (extra : Bool) (point : P2pPoint.Id) (st : State) : State :=
  let maxActiveConns := if extra then config.maxConnections + 1 else config.maxConnections
  if config.maxIncomingConnections ≤ st.incoming.length ∨ maxActiveConns ≤ activeConnections st ∨
      st.acl.bannedAddr point.1 then st
  else
    { st with incoming := st.incoming.add point st.attempts.length,
              attempts := st.attempts ++ [{ point, pointInfo := none, stage := .authenticating }] }

def greylists : Error → Bool
  | .authentication .canceled | .authentication .connectionClosed | .authentication .exn => false
  | .authentication _ => true
  | _ => false

def greylistAddr (addr : P2pAddr) (st : State) : State :=
  { st with acl := { st.acl with bannedAddr := fun other => other == addr || st.acl.bannedAddr other } }

/-- The handler of errors of `P2p_socket.authenticate`. -/
def authenticationFailed (i : Nat) (a : Attempt) (err : Error) (st : State) : Option State :=
  let st := if greylists err then greylistAddr a.point.1 st else st
  let st := mayRegisterMyIdPoint st err
  match a.pointInfo with
  | none => some ({ st with incoming := st.incoming.remove a.point }.setStage i a (.failed err))
  | some pointInfo => do
    let points ← st.points.update pointInfo P2pPointState.setDisconnected
    some ({ st with points }.setStage i a (.failed err))

def acceptablePoint (incoming : Bool) (points : Registry P2pPoint.Id P2pPointState.Info)
    (connectionPointInfo : Option Nat) : Bool :=
  match connectionPointInfo.bind (points.records[·]?) with
  | none => !config.privateMode
  | some info =>
    match info.state with
    | .requested _ => !incoming
    | .disconnected => !(config.privateMode && !info.trusted)
    | .accepted _ _ | .running _ _ => false

def acceptablePeerId (peers : Registry P2pPeer.Id P2pPeerState.Info) (peerInfo : Nat) : Bool :=
  (peers.records[peerInfo]?).any P2pPeerState.isDisconnected

/-- The point that the remote node says that it listens on, unless it is one of ours. -/
def remotePointInfo (victims : List P2pPoint.Id) (idPoint : P2pConnection.Id) (st : State) :
    Registry P2pPoint.Id P2pPointState.Info × Option Nat :=
  match idPoint with
  | (addr, some port) =>
    if st.myIdPoints.mem (addr, port) then (st.points, none)
    else
      let (points, pointInfo) := registerPoint config none victims (addr, port) st.points
      (points, some pointInfo)
  | (_, none) => (st.points, none)

/-- What follows `P2p_socket.authenticate`, up to `P2p_socket.accept` or `P2p_socket.kick`; `commonVersion` says whether
    `Network_version.select` finds a version. -/
def authenticated (i : Nat) (a : Attempt) (info : Info) (commonVersion : Bool) (pointVictims : List P2pPoint.Id)
    (peerVictims : List P2pPeer.Id) (st : State) : Option State :=
  if st.acl.bannedPeer info.peerId then some (st.setStage i a (.failed (.peerBanned info.peerId)))
  else
    let (points, remotePointInfo) := remotePointInfo config pointVictims info.idPoint st
    let connectionPointInfo := a.pointInfo.or remotePointInfo
    let (peers, peerInfo) := registerPeer config peerVictims info.peerId st.peers
    let st := { st with points, peers, incoming := if a.incoming then st.incoming.remove a.point else st.incoming }
    if commonVersion && acceptablePeerId peers peerInfo && acceptablePoint config a.incoming points
      connectionPointInfo then do
      let points ← updatePoint connectionPointInfo (P2pPointState.setAccepted info.peerId i) points
      let peers ← peers.update peerInfo (P2pPeerState.setAccepted info.idPoint i)
      some ({ st with points, peers }.setStage i a (.accepting connectionPointInfo peerInfo info))
    else some (st.setStage i a (.rejecting (if commonVersion then .rejected info.peerId else .rejectedNoCommonProtocol)))

/-- The handler of errors of `P2p_socket.accept`. -/
def acceptFailed (i : Nat) (a : Attempt) (connectionPointInfo : Option Nat) (peerInfo : Nat) (st : State) :
    Option State := do
  let points ← updatePoint connectionPointInfo P2pPointState.setDisconnected st.points
  let peers ← st.peers.update peerInfo P2pPeerState.setDisconnected
  some ({ st with points, peers }.setStage i a (.failed .rejectedSocketConnection))

/-- The connection id of a new connection, with the port of the point that it was asked for. -/
def connectionIdPoint (points : Registry P2pPoint.Id P2pPointState.Info) (pointInfo : Option Nat)
    (idPoint : P2pConnection.Id) : P2pConnection.Id :=
  match pointOf points pointInfo with
  | some (_, port) => (idPoint.1, some port)
  | none => idPoint

def addConnectedPoint (connectionPointInfo : Option Nat) (points : Registry P2pPoint.Id P2pPointState.Info) :
    Registry P2pPoint.Id P2pPointState.Info :=
  match connectionPointInfo, pointOf points connectionPointInfo with
  | some pointInfo, some point => points.activate point pointInfo
  | _, _ => points

def removeConnectedPoint (connectionPointInfo : Option Nat) (points : Registry P2pPoint.Id P2pPointState.Info) :
    Registry P2pPoint.Id P2pPointState.Info :=
  match pointOf points connectionPointInfo with
  | some point => points.deactivate point
  | none => points

def createConnection (i : Nat) (a : Attempt) (connectionPointInfo : Option Nat) (peerInfo : Nat) (info : Info)
    (st : State) :
    Option State := do
  let idPoint := connectionIdPoint st.points a.pointInfo info.idPoint
  let points ← updatePoint connectionPointInfo (P2pPointState.setRunning info.peerId i) st.points
  let points := addConnectedPoint connectionPointInfo points
  let peers ← st.peers.update peerInfo (P2pPeerState.setRunning idPoint i)
  let peers := peers.activate info.peerId peerInfo
  some ({ st with points, peers }.setStage i a (.running connectionPointInfo peerInfo info))

def kicked (i : Nat) (a : Attempt) (err : Error) (st : State) : Option State := do
  let points ← updatePoint a.pointInfo P2pPointState.setDisconnected st.points
  some ({ st with points }.setStage i a (.failed err))

/-- What the canceler of a connection runs, up to `P2p_socket.close`. -/
def disconnected (i : Nat) (a : Attempt) (connectionPointInfo : Option Nat) (peerInfo : Nat) (info : Info) (st : State) :
    Option State := do
  let points ← updatePoint connectionPointInfo P2pPointState.setDisconnected st.points
  let peers ← st.peers.update peerInfo P2pPeerState.setDisconnected
  let points := removeConnectedPoint connectionPointInfo points
  let peers := peers.deactivate info.peerId
  some ({ st with points, peers }.setStage i a .closing)

/-- What comes of `P2p_socket.authenticate`: an error, or a connection message and nothing wrong after it. -/
inductive Reply where
  | error (err : AuthenticationError)
  | message (peerId : P2pPeer.Id) (port : Option Nat) (commonVersion : Bool)

/-- What an attempt waits for. -/
inductive Event where
  | connected (ok : Bool)
  | authenticated (reply : Reply) (pointVictims : List P2pPoint.Id) (peerVictims : List P2pPeer.Id)
  | accepted (ok : Bool)
  | kicked
  | canceled
  | closed

inductive Action where
  | registerPoint (trusted : Option Bool) (victims : List P2pPoint.Id) (point : P2pPoint.Id)
  | registerPeer (victims : List P2pPeer.Id) (peerId : P2pPeer.Id)
  | untrust (point : P2pPoint.Id)
  /-- Points or peers are banned, greylisted, or no more so. -/
  | setAcl (acl : Acl)
  | connect (victims : List P2pPoint.Id) (point : P2pPoint.Id)
  | accept (extra : Bool) (point : P2pPoint.Id)
  | attempt (i : Nat) (event : Event)

/-- The connection id of the remote node: an outgoing connection is to the port of its socket. -/
def Attempt.idPoint (a : Attempt) (port : Option Nat) : P2pConnection.Id :=
  (a.point.1, if a.incoming then port else some a.point.2)

/-- What an attempt does when what it waits for has come; `none` is a failed assertion. -/
def attemptStep (st : State) (i : Nat) (a : Attempt) (event : Event) : Option State :=
  match a.stage, event with
  | .connecting, .connected ok => connected i a ok st
  | .authenticating, .authenticated (.error err) _ _ => authenticationFailed i a (.authentication err) st
  | .authenticating, .authenticated (.message peerId port commonVersion) pointVictims peerVictims =>
    let idPoint := a.idPoint port
    if peerId = config.peerId then authenticationFailed i a (.myself idPoint) st
    else authenticated config i a { peerId, idPoint } commonVersion pointVictims peerVictims st
  | .accepting connectionPointInfo peerInfo info, .accepted ok =>
    if ok then createConnection i a connectionPointInfo peerInfo info st
    else acceptFailed i a connectionPointInfo peerInfo st
  | .rejecting err, .kicked => kicked i a err st
  | .running connectionPointInfo peerInfo info, .canceled => disconnected i a connectionPointInfo peerInfo info st
  | .failed _, .closed | .closing, .closed => some (st.setStage i a .closed)
  | _, _ => some st

def tryStep (st : State) : Action → Option State
  | .registerPoint trusted victims point =>
    some { st with points := (registerPoint config trusted victims point st.points).1 }
  | .registerPeer victims peerId => some { st with peers := (registerPeer config victims peerId st.peers).1 }
  | .untrust point =>
    match st.points.known.find? point with
    | none => some st
    | some pointInfo => some { st with points := st.points.alter pointInfo fun info => { info with trusted := false } }
  | .setAcl acl => some { st with acl }
  | .connect victims point => connect config victims point st
  | .accept extra point => some (accept config extra point st)
  | .attempt i event =>
    match st.attempts[i]? with
    | none => some st
    | some a => attemptStep config st i a event

def step (st : State) (action : Action) : State := (tryStep config st action).getD { st with assertFailed := true }

end Tezos.P2pPool
