import Tezos.Lib.Runs
import Tezos.Theorems.P2p.Pool.Steps

/-! What a step of the pool does to the attempts and to `pool.incoming`, and that it keeps the invariant. -/

namespace Tezos.P2pPool
open Lib List P2pPool P2pPoint Attempt

variable {strict : Prop} {config : Config} {st : State} {i : Nat} {a : Attempt} {point : Id}
  {pointInfo : Option Nat}

theorem Inv.join (h : Inv strict st) {points : Registry Id P2pPointState.Info} {incoming : Table Id Nat}
    (hpts : PointsKept strict points (st.attempts ++ [a])) (hshap : a.Shaped) (hpeer : a.peerHeld st.attempts.length = none)
    (hwait : ((st.attempts ++ [a]).filterMap Attempt.waiting).Subperm incoming.keys) (hdown : a.isRunning = false) :
    Inv strict { st with points, incoming, attempts := st.attempts ++ [a] } :=
  { h with
    points := hpts.custody
    peers := h.peers.concat hpeer
    shaped := forall_mem_append.mpr ⟨h.shaped, forall_mem_singleton.mpr hshap⟩
    keyed := hpts.keyed
    pointsAgree := hpts.agree
    waiting := hwait
    active := by
      rw [countP_append, countP_singleton, hdown]
      exact h.active }

theorem Inv.connect (h : Inv strict st) (config : Config) (victims : List Id) (point : Id) :
    ∃ points attempts, connect config victims point st = some { st with points, attempts } ∧
      Inv strict { st with points, attempts } ∧
      (attempts = st.attempts ∨ ∃ r, attempts = st.attempts ++ [⟨point, some r, .connecting⟩]) := by
  have hinv := h.registerPoint config none victims point
  have hmem : (point, (P2pPool.registerPoint config none victims point st.points).2) ∈
      (P2pPool.registerPoint config none victims point st.points).1.known := Registry.Keyed.mem_register ..
  unfold P2pPool.connect
  split
  · exact ⟨_, _, rfl, h, .inl rfl⟩
  split
  · exact ⟨_, _, rfl, h, .inl rfl⟩
  generalize P2pPool.registerPoint config none victims point st.points = registered at *
  obtain ⟨points, r⟩ := registered
  obtain ⟨info, hget, rfl⟩ := hinv.keyed.known_key point r hmem
  simp only at hget hmem hinv ⊢
  rw [hget]
  simp only
  split
  · exact ⟨_, _, rfl, hinv, .inl rfl⟩
  cases hst : info.state with
  | requested | accepted | running => exact ⟨_, _, rfl, hinv, .inl rfl⟩
  | disconnected =>
    have hset : P2pPointState.setRequested st.attempts.length info =
        some { info with state := .requested st.attempts.length } := by rw [P2pPointState.setRequested, hst]
    simp only [Registry.update_eq hget hset]
    refine ⟨_, _, rfl, ?_, .inr ⟨r, rfl⟩⟩
    refine h.join ⟨hinv.points.acquire hget (congrArg pointOwner hst) rfl, hinv.keyed.set hget rfl, fun hstr => ?_⟩ rfl
      rfl
      ?_ rfl
    · exact (hinv.pointsAgree hstr).set hget rfl (fun _ => hmem) (by simp only [pointRunning, hst])
    · simp only [filterMap_append]
      exact (append_nil _).symm ▸ h.waiting

theorem accept_cases (config : Config) (extra : Bool) (point : Id) (st : State) : accept config extra point st = st ∨
      st.incoming.length < config.maxIncomingConnections ∧ activeConnections st < config.maxConnections + 1 ∧
        accept config extra point st =
          { st with incoming := st.incoming.add point st.attempts.length,
                    attempts := st.attempts ++ [⟨point, none, .authenticating⟩] } := by
  have hmax : (if extra then config.maxConnections + 1 else config.maxConnections) ≤ config.maxConnections + 1 := by
    split
    · exact le_rfl
    · exact Nat.le_succ _
  unfold accept
  generalize (if extra then config.maxConnections + 1 else config.maxConnections) = maxActiveConns at *
  by_cases hfull : config.maxIncomingConnections ≤ st.incoming.length ∨ maxActiveConns ≤ activeConnections st ∨
      st.acl.bannedAddr point.1
  · exact .inl (if_pos hfull)
  · obtain ⟨hinc, hact⟩ := not_or.mp hfull
    exact .inr ⟨Nat.lt_of_not_le hinc, Nat.lt_of_lt_of_le (Nat.lt_of_not_le (not_or.mp hact).1) hmax, if_neg hfull⟩

theorem Inv.accept (h : Inv strict st) (config : Config) (extra : Bool) (point : Id) :
    Inv strict (accept config extra point st) := by
  rcases accept_cases config extra point st with heq | ⟨-, -, heq⟩
  · rw [heq]
    exact h
  · rw [heq]
    refine h.join ⟨h.points.concat rfl, h.keyed, h.pointsAgree⟩ trivial rfl ?_ rfl
    rw [filterMap_append]
    exact perm_append_comm.subperm.trans (subperm_cons point |>.mpr h.waiting)

/-! ### What an attempt does -/

def Reply.banned (config : Config) (acl : Acl) : Reply → Bool
  | .error _ => false
  | .message peerId _ _ => peerId != config.peerId && acl.bannedPeer peerId

/-- An attempt ends its handshake with a banned peer. -/
def Attempt.meetsBanned (config : Config) (acl : Acl) (a : Attempt) : Event → Bool
  | .authenticated reply _ _ => a.stage == .authenticating && reply.banned config acl
  | _ => false

def Attempt.leaves (config : Config) (acl : Acl) (a : Attempt) : Event → Bool
  | .authenticated reply _ _ => a.stage == .authenticating && a.incoming && !reply.banned config acl
  | _ => false

/-- The stages that an attempt goes through. -/
inductive Moves : Stage → Event → Stage → Prop where
  | connected : Moves .connecting (.connected true) .authenticating
  | notConnected : Moves .connecting (.connected false) .closed
  | unauthenticated (reply : Reply) (pointVictims : List Id) (peerVictims : List P2pPeer.Id) (err : Error) :
    Moves .authenticating (.authenticated reply pointVictims peerVictims) (.failed err)
  | accepting (reply : Reply) (pointVictims : List Id) (peerVictims : List P2pPeer.Id)
    (connectionPointInfo : Option Nat) (peerInfo : Nat) (info : Info) :
    Moves .authenticating (.authenticated reply pointVictims peerVictims) (.accepting connectionPointInfo peerInfo info)
  | rejecting (reply : Reply) (pointVictims : List Id) (peerVictims : List P2pPeer.Id) (err : Error) :
    Moves .authenticating (.authenticated reply pointVictims peerVictims) (.rejecting err)
  | created (connectionPointInfo : Option Nat) (peerInfo : Nat) (info : Info) :
    Moves (.accepting connectionPointInfo peerInfo info) (.accepted true) (.running connectionPointInfo peerInfo info)
  | notAccepted (connectionPointInfo : Option Nat) (peerInfo : Nat) (info : Info) :
    Moves (.accepting connectionPointInfo peerInfo info) (.accepted false) (.failed .rejectedSocketConnection)
  | kicked (err : Error) : Moves (.rejecting err) .kicked (.failed err)
  | canceled (connectionPointInfo : Option Nat) (peerInfo : Nat) (info : Info) :
    Moves (.running connectionPointInfo peerInfo info) .canceled .closing
  | failedClosed (err : Error) : Moves (.failed err) .closed .closed
  | closed : Moves .closing .closed .closed

/-- What an attempt that moves does to the pool. -/
structure Moved (config : Config) (st : State) (i : Nat) (a : Attempt) (event : Event) (st' : State) (stage : Stage) :
    Prop where
  moves : Moves a.stage event stage
  attempts : st'.attempts = st.attempts.set i { a with stage }
  incoming : st'.incoming = if a.leaves config st.acl event then st.incoming.remove a.point else st.incoming
  /-- The point of an outgoing attempt that fails is free, unless the peer is banned. -/
  freed : ∀ err r, stage = .failed err → a.pointInfo = some r →
    if a.meetsBanned config st.acl event then st'.points = st.points
    else ∃ info, st'.points.records[r]? = some info ∧ info.state = .disconnected

/-- The known point that a step forgets is idle. -/
def forgetsIdle (config : Config) (st : State) : Action → Bool
  | .attempt i (.authenticated (.message peerId (some port) _) _ _) =>
    match st.attempts[i]? with
    | none => true
    | some a =>
      !(a.stage == .authenticating && a.incoming && peerId == config.peerId) ||
        (st.points.lookup (a.point.1, port)).all P2pPointState.isDisconnected
  | _ => true

theorem forgetsIdle_myself {port : Option Nat} {commonVersion : Bool} {pointVictims : List Id}
    {peerVictims : List P2pPeer.Id} (ha : st.attempts[i]? = some ⟨point, pointInfo, .authenticating⟩)
    (hidle : forgetsIdle config st
      (.attempt i (.authenticated (.message config.peerId port commonVersion) pointVictims peerVictims)) = true) :
    ForgetsIdle st ⟨point, pointInfo, .authenticating⟩
      (.myself (idPoint ⟨point, pointInfo, .authenticating⟩ port)) := by
  rintro addr port' heq
  obtain ⟨rfl, hport⟩ := Prod.mk.inj (Error.myself.inj heq)
  cases pointInfo with
  | some r =>
    obtain rfl := Option.some_inj.mp hport
    rfl
  | none =>
    obtain rfl : port = some port' := hport
    rw [forgetsIdle, ha] at hidle
    have hself : (config.peerId == config.peerId) = true := beq_self_eq_true _
    rw [hself] at hidle
    exact hidle

section
variable {reply : Reply} {pointVictims : List Id} {peerVictims : List P2pPeer.Id}

theorem leaves_authenticating (hrep : reply.banned config st.acl = false) :
    leaves config st.acl ⟨point, pointInfo, .authenticating⟩ (.authenticated reply pointVictims peerVictims) =
      pointInfo.isNone := by
  rw [leaves, hrep]
  exact Bool.and_true _

theorem meetsBanned_authenticating :
    meetsBanned config st.acl ⟨point, pointInfo, .authenticating⟩ (.authenticated reply pointVictims peerVictims) =
      reply.banned config st.acl :=
  rfl

section
variable (h : Inv strict st) (ha : st.attempts[i]? = some ⟨point, pointInfo, .authenticating⟩)
include h ha

theorem Inv.authenticationFailed
    (err : Error) (hidle : strict → ForgetsIdle st ⟨point, pointInfo, .authenticating⟩ err) (reply : Reply)
    (hrep : reply.banned config st.acl = false) :
    ∃ st', authenticationFailed i ⟨point, pointInfo, .authenticating⟩ err st = some st' ∧ Inv strict st' ∧
      Moved config st i ⟨point, pointInfo, .authenticating⟩ (.authenticated reply pointVictims peerVictims) st'
        (.failed err) := by
  rcases pointInfo with _ | r
  · obtain ⟨acl, myIdPoints, points, heq, hinv, -⟩ := h.authenticationFailed_incoming ha err hidle
    refine ⟨_, heq, hinv, .unauthenticated .., rfl, ?_, fun _ _ _ hsome => absurd hsome nofun⟩
    rw [leaves_authenticating hrep]
    rfl
  · obtain ⟨acl, myIdPoints, points, heq, hinv, hfree⟩ := h.authenticationFailed_outgoing ha err hidle
    refine ⟨_, heq, hinv, .unauthenticated .., rfl, ?_, fun _ r' _ hsome => ?_⟩
    · rfl
    · obtain rfl := Option.some_inj.mp hsome
      rw [meetsBanned_authenticating, hrep]
      exact hfree

theorem Inv.message {peerId : P2pPeer.Id} {port : Option Nat} {commonVersion : Bool} (hself : peerId ≠ config.peerId) :
    ∃ st', P2pPool.authenticated config i ⟨point, pointInfo, .authenticating⟩
        { peerId, idPoint := idPoint ⟨point, pointInfo, .authenticating⟩ port } commonVersion pointVictims peerVictims
          st =
          some st' ∧ Inv strict st' ∧
      ∃ stage, Moved config st i ⟨point, pointInfo, .authenticating⟩
        (.authenticated (.message peerId port commonVersion) pointVictims peerVictims) st' stage := by
  have hrep : Reply.banned config st.acl (.message peerId port commonVersion) = st.acl.bannedPeer peerId := by
    rw [Reply.banned, bne_iff_ne.mpr hself, Bool.true_and]
  cases hban : st.acl.bannedPeer peerId with
  | true =>
    refine ⟨_, ?_, h.peerBanned ha (.peerBanned peerId), _, .unauthenticated .., rfl, ?_, fun _ _ _ _ => ?_⟩
    · simp only [P2pPool.authenticated, hban, if_true]
    · rw [leaves, hrep, hban, Bool.not_true, Bool.and_false]
      rfl
    · rw [meetsBanned_authenticating, hrep, hban]
      rfl
  | false =>
    rw [hban] at hrep
    have hid : ∀ r, pointInfo = some r →
        idPoint ⟨point, pointInfo, .authenticating⟩ port = (point.1, some point.2) := by
      rintro r rfl
      rfl
    obtain ⟨points, peers, incoming, stage, heq, hinv, hinc, hstg⟩ :=
      h.authenticated ha ⟨peerId, _⟩ hid hban commonVersion pointVictims peerVictims
    refine ⟨_, heq, hinv, stage, ?_, rfl, ?_, ?_⟩
    · rcases hstg with ⟨connectionPointInfo, peerInfo, rfl⟩ | ⟨err, rfl⟩
      · exact .accepting ..
      · exact .rejecting ..
    · rw [leaves_authenticating hrep]
      exact hinc
    · rintro err r rfl
      rcases hstg with ⟨connectionPointInfo, peerInfo, hfail⟩ | ⟨err, hfail⟩
      all_goals cases hfail

end

end

theorem Inv.attemptStep (h : Inv strict st) (ha : st.attempts[i]? = some a) (event : Event)
    (hidle : strict → forgetsIdle config st (.attempt i event) = true) :
    ∃ st', attemptStep config st i a event = some st' ∧ Inv strict st' ∧
      (st' = st ∧ (∀ stage, ¬Moves a.stage event stage) ∨ ∃ stage, Moved config st i a event st' stage) := by
  obtain ⟨point, pointInfo, stage⟩ := a
  unfold attemptStep
  simp only
  split
  · rename_i ok
    obtain ⟨points, stage, heq, hinv, rfl⟩ := h.connected ha ok
    refine ⟨_, heq, hinv, .inr ⟨_, ?_, rfl, rfl, fun err r hfail => ?_⟩⟩
    · cases ok with
      | true => exact .connected
      | false => exact .notConnected
    · cases ok <;> cases hfail
  · rename_i err pointVictims peerVictims
    obtain ⟨st', heq, hinv, hmov⟩ := h.authenticationFailed ha (.authentication err)
      (fun _ _ _ herr => absurd herr nofun) (.error err) rfl
    exact ⟨st', heq, hinv, .inr ⟨_, hmov⟩⟩
  · rename_i peerId port commonVersion pointVictims peerVictims
    by_cases hself : peerId = config.peerId
    · subst hself
      rw [if_pos rfl]
      obtain ⟨st', heq, hinv, hmov⟩ := h.authenticationFailed ha _
        (fun hstr => forgetsIdle_myself ha (hidle hstr)) (.message config.peerId port commonVersion)
        (by rw [Reply.banned, bne_self_eq_false, Bool.false_and])
      exact ⟨st', heq, hinv, .inr ⟨_, hmov⟩⟩
    · rw [if_neg hself]
      obtain ⟨st', heq, hinv, hmov⟩ := h.message ha hself
      exact ⟨st', heq, hinv, .inr hmov⟩
  · rename_i connectionPointInfo peerInfo info ok
    cases ok with
    | true =>
      obtain ⟨points, peers, heq, hinv, -⟩ := h.createConnection ha
      exact ⟨_, heq, hinv, .inr ⟨_, .created .., rfl, rfl, fun _ _ hfail => absurd hfail nofun⟩⟩
    | false =>
      obtain ⟨points, peers, heq, hinv, hfree⟩ := h.acceptFailed ha
      refine ⟨_, heq, hinv, .inr ⟨_, .notAccepted .., rfl, rfl, fun _ r _ hsome => ?_⟩⟩
      exact hfree r (h.shaped _ (mem_of_getElem? ha) r hsome).1
  · obtain ⟨points, heq, hinv, hfree⟩ := h.kicked ha
    exact ⟨_, heq, hinv, .inr ⟨_, .kicked _, rfl, rfl, fun _ r _ hsome => hfree r hsome⟩⟩
  · obtain ⟨points, peers, heq, hinv, -⟩ := h.disconnected ha
    exact ⟨_, heq, hinv, .inr ⟨_, .canceled .., rfl, rfl, fun _ _ hfail => absurd hfail nofun⟩⟩
  · refine ⟨_, rfl, h.closed ha rfl rfl rfl,
      .inr ⟨_, .failedClosed _, rfl, rfl, fun _ _ hfail => absurd hfail nofun⟩⟩
  · refine ⟨_, rfl, h.closed ha rfl rfl rfl, .inr ⟨_, .closed, rfl, rfl, fun _ _ hfail => absurd hfail nofun⟩⟩
  · rename_i hconn herror hmes hacc hrej hrun hfail hclos
    refine ⟨_, rfl, h, .inl ⟨rfl, fun stage' hmoves => ?_⟩⟩
    cases hmoves with
    | connected | notConnected => exact hconn _ rfl rfl
    | unauthenticated reply | accepting reply | rejecting reply =>
      cases reply with
      | error err => exact herror err _ _ rfl rfl
      | message peerId port commonVersion => exact hmes peerId port commonVersion _ _ rfl rfl
    | created | notAccepted => exact hacc _ _ _ _ rfl rfl
    | kicked err => exact hrej err rfl rfl
    | canceled => exact hrun _ _ _ rfl rfl
    | failedClosed err => exact hfail err rfl rfl
    | closed => exact hclos rfl rfl

/-- What a step does to the attempts and to `pool.incoming`. -/
inductive Stepped (config : Config) (st : State) : Action → State → Prop where
  | stays {action : Action} {st' : State} (attempts : st'.attempts = st.attempts) (incoming : st'.incoming = st.incoming)
    (quiet : ∀ i event a stage, action = .attempt i event → st.attempts[i]? = some a → ¬Moves a.stage event stage) :
    Stepped config st action st'
  | connects {victims : List Id} {point : Id} {st' : State} (r : Nat)
    (attempts : st'.attempts = st.attempts ++ [⟨point, some r, .connecting⟩]) (incoming : st'.incoming = st.incoming) :
    Stepped config st (.connect victims point) st'
  | accepts {extra : Bool} {point : Id} {st' : State} (incomingRoom : st.incoming.length < config.maxIncomingConnections)
    (activeRoom : activeConnections st < config.maxConnections + 1)
    (attempts : st'.attempts = st.attempts ++ [⟨point, none, .authenticating⟩])
    (incoming : st'.incoming = st.incoming.add point st.attempts.length) (active : st'.peers.active = st.peers.active) :
    Stepped config st (.accept extra point) st'
  | moves {i : Nat} {event : Event} {st' : State} (a : Attempt) (stage : Stage) (ha : st.attempts[i]? = some a)
    (moved : Moved config st i a event st' stage) : Stepped config st (.attempt i event) st'

theorem Inv.tryStep (h : Inv strict st) (action : Action) (hidle : strict → forgetsIdle config st action = true) :
    ∃ st', tryStep config st action = some st' ∧ Inv strict st' ∧ Stepped config st action st' := by
  cases action with
  | registerPoint trusted victims point =>
    exact ⟨_, rfl, h.registerPoint config trusted victims point, .stays rfl rfl fun _ _ _ _ heq => by cases heq⟩
  | registerPeer victims peerId =>
    exact ⟨_, rfl, h.registerPeer config victims peerId, .stays rfl rfl fun _ _ _ _ heq => by cases heq⟩
  | untrust point =>
    unfold P2pPool.tryStep
    simp only
    split
    · exact ⟨_, rfl, h, .stays rfl rfl fun _ _ _ _ heq => by cases heq⟩
    · refine ⟨_, rfl, ?_, .stays rfl rfl fun _ _ _ _ heq => by cases heq⟩
      exact { h with
        points := h.points.alter fun _ => rfl
        keyed := h.keyed.alter fun _ => rfl
        pointsAgree := fun hstr => (h.pointsAgree hstr).alter (fun _ => rfl) (fun _ => rfl) fun _ => rfl }
  | setAcl acl => exact ⟨_, rfl, { h with }, .stays rfl rfl fun _ _ _ _ heq => by cases heq⟩
  | connect victims point =>
    obtain ⟨points, attempts, heq, hinv, hatt⟩ := h.connect config victims point
    refine ⟨_, heq, hinv, ?_⟩
    rcases hatt with rfl | ⟨r, rfl⟩
    · exact .stays rfl rfl fun _ _ _ _ heq => by cases heq
    · exact .connects r rfl rfl
  | accept extra point =>
    refine ⟨_, rfl, h.accept config extra point, ?_⟩
    rcases accept_cases config extra point st with heq | ⟨hinc, hact, heq⟩
    · rw [heq]
      exact .stays rfl rfl fun _ _ _ _ heq => by cases heq
    · rw [heq]
      exact .accepts hinc hact rfl rfl rfl
  | attempt i event =>
    unfold P2pPool.tryStep
    simp only
    split
    · rename_i hnone
      refine ⟨_, rfl, h, .stays rfl rfl ?_⟩
      rintro i' event' a stage heq ha
      obtain ⟨rfl, rfl⟩ := Action.attempt.inj heq
      rw [hnone] at ha
      cases ha
    · rename_i a ha
      obtain ⟨st', heq, hinv, hmov⟩ := h.attemptStep ha event hidle
      refine ⟨st', heq, hinv, ?_⟩
      rcases hmov with ⟨rfl, hquiet⟩ | ⟨stage, hmov⟩
      · refine .stays rfl rfl ?_
        rintro i' event' a' stage heq' ha'
        obtain ⟨rfl, rfl⟩ := Action.attempt.inj heq'
        obtain rfl := Option.some_inj.mp (ha.symm.trans ha')
        exact hquiet stage
      · exact .moves a stage ha hmov

theorem Inv.step (h : Inv strict st) (config : Config) (action : Action)
    (hidle : strict → forgetsIdle config st action = true) :
    Inv strict (step config st action) ∧ Stepped config st action (step config st action) := by
  obtain ⟨st', heq, hinv⟩ := h.tryStep action hidle
  rw [P2pPool.step, heq]
  exact hinv

theorem inv_reached (config : Config) (acl : Acl) (actions : List Action) :
    Inv False (run (step config) (create acl) actions) :=
  inv_run (Inv False) (inv_create acl) (fun _ action h => (h.step config action False.elim).1) actions

def sampleConfig : Config where
  peerId := 0
  privateMode := false
  maxConnections := 2
  maxIncomingConnections := 2
  maxKnownPoints := none
  maxKnownPeerIds := none

/-! ### The tables agree with the states of the records -/

/-- The connected peers are the known ones that are running, and so are the connected points. -/
structure Consistent (st : State) : Prop where
  peers : ∀ (peerId : P2pPeer.Id) (peerInfo : Nat), st.peers.active.find? peerId = some peerInfo ↔
    st.peers.known.find? peerId = some peerInfo ∧ ∃ info, st.peers.records[peerInfo]? = some info ∧
      peerRunning info = true
  points : ∀ (point : Id) (pointInfo : Nat), st.points.active.find? point = some pointInfo ↔
    st.points.known.find? point = some pointInfo ∧
      ∃ info, st.points.records[pointInfo]? = some info ∧ pointRunning info = true
  asserts : st.assertFailed = false

theorem Inv.consistent {st : State} (h : Inv True st) : Consistent st where
  peers _ _ := h.peersAgree.find?_active peer_up_not_idle
  points _ _ := (h.pointsAgree trivial).find?_active up_not_idle
  asserts := h.asserts

section
variable (config : Config) (acl : Acl)

theorem consistent_throughout {actions : List Action}
    (h : StepsMeet (step config) (create acl) (fun st action => forgetsIdle config st action = true) actions) :
    Throughout (fun before => Consistent (run (step config) (create acl) before)) actions :=
  throughout_of_stepsMeet (fun _ st => Inv True st) (inv_create acl)
    (fun _ _ action hinv hidle => (hinv.step config action fun _ => hidle).1) (fun _ hinv => hinv.consistent) h

end

/-- An outgoing connection to a point is created. -/
def outgoingRun : List Action :=
  [.connect [] (1, 9732), .attempt 0 (.connected true), .attempt 0 (.authenticated (.message 7 (some 9732) true) [] []),
    .attempt 0 (.accepted true)]

theorem consistent_outgoingRun :
    StepsMeet (step sampleConfig) (create .create) (fun st action => forgetsIdle sampleConfig st action = true)
      outgoingRun ∧
      Throughout (fun before => Consistent (run (step sampleConfig) (create .create) before)) outgoingRun := by
  have hmeet : StepsMeet (step sampleConfig) (create .create)
      (fun st action => forgetsIdle sampleConfig st action = true) outgoingRun := by
    simp only [outgoingRun, stepsMeet_cons]
    exact ⟨rfl, rfl, rfl, rfl, stepsMeet_nil⟩
  exact ⟨hmeet, consistent_throughout sampleConfig .create hmeet⟩

/-- A node at the address of the connected point answers with our own public key, and announces the port of the point: the
    point is known no more, and still connected. -/
theorem not_consistent_replayed :
    ¬Consistent (run (step sampleConfig) (create .create) (outgoingRun ++ [.accept true (1, 50000),
      .attempt 1 (.authenticated (.message 0 (some 9732) true) [] [])])) := by
  intro h
  have hact : (run (step sampleConfig) (create .create) (outgoingRun ++ [.accept true (1, 50000),
      .attempt 1 (.authenticated (.message 0 (some 9732) true) [] [])])).points.active.find? (1, 9732) = some 0 := by
    decide +kernel
  exact absurd ((h.points (1, 9732) 0).mp hact).1 (by decide +kernel)

/-- A connection is running, of the record of a peer. -/
def RunsWith (st : State) (i peerInfo : Nat) (info : Info) : Prop :=
  ∃ a pointInfo, st.attempts[i]? = some a ∧ a.stage = .running pointInfo peerInfo info

theorem RunsWith.connected {strict : Prop} {st : State} {i peerInfo : Nat} {info : Info}
    (h : RunsWith st i peerInfo info) (hinv : Inv strict st) :
    st.peers.records[peerInfo]? = some ⟨info.peerId, .running i info.idPoint⟩ ∧
      st.peers.active.find? info.peerId = some peerInfo := by
  obtain ⟨a, pointInfo, hget, hstage⟩ := h
  obtain ⟨record, hrec, rfl⟩ := hinv.peers.holds i a peerInfo ⟨info.peerId, .running i info.idPoint⟩ hget (by
    simp only [peerHolding, peerHeld, hstage])
  exact ⟨hrec, (Table.find?_eq_some hinv.peersAgree.active_nodup).mpr
    ((hinv.peersAgree.active_iff _ _).mpr ⟨_, hrec, rfl, rfl⟩)⟩

/-- A peer has one running connection at most, the one it is connected with; and `active_connections` counts them all.
    This holds in every run, whatever the pool forgets about its points. -/
theorem one_connection_per_peer (config : Config) (acl : Acl) (actions : List Action) :
    let st := run (step config) (create acl) actions
    (∀ i peerInfo info, RunsWith st i peerInfo info → st.peers.active.find? info.peerId = some peerInfo ∧
      ∀ j peerInfo' info', RunsWith st j peerInfo' info' → info'.peerId = info.peerId → j = i) ∧
    activeConnections st = st.attempts.countP isRunning := by
  intro st
  have hinv : Inv False st := inv_reached config acl actions
  refine ⟨fun i peerInfo info hrun => ?_, hinv.active⟩
  obtain ⟨hrec, hact⟩ := hrun.connected hinv
  refine ⟨hact, fun j peerInfo' info' hrun' heq => ?_⟩
  obtain ⟨hrec', hact'⟩ := hrun'.connected hinv
  rw [heq, hact] at hact'
  cases hact'
  obtain ⟨-, hst⟩ := P2pPeerState.Info.mk.inj (Option.some.inj (hrec.symm.trans hrec'))
  exact (P2pPeerState.State.running.inj hst).1.symm

end Tezos.P2pPool
