import Tezos.Lib.Custody
import Tezos.P2p.Pool

/-! What holds of a pool in every state that it reaches: nobody but the attempt that holds a record changes its state.
    What an attempt does keeps the invariant, and none of its assertions fails. -/

namespace Tezos.P2pPool
open Lib P2pPoint Attempt

def Info.listeningPoint (info : Info) : Id := (info.idPoint.1, info.idPoint.2.getD 0)

/-- The record of its point that the attempt of a number holds, and its point and its state. -/
def Attempt.pointHeld (i : Nat) (a : Attempt) : Option (Nat × Id × P2pPointState.State) :=
  match a.stage with
  | .connecting | .authenticating | .rejecting _ => a.pointInfo.map fun r => (r, a.point, .requested i)
  | .accepting connectionPointInfo _ info =>
    connectionPointInfo.map fun r => (r, info.listeningPoint, .accepted info.peerId i)
  | .running connectionPointInfo _ info =>
    connectionPointInfo.map fun r => (r, info.listeningPoint, .running i info.peerId)
  | .failed _ | .closing | .closed => none

/-- The record of its peer that the attempt of a number holds, and what is in it. -/
def Attempt.peerHeld (i : Nat) (a : Attempt) : Option (Nat × P2pPeerState.Info) :=
  match a.stage with
  | .accepting _ peerInfo info => some (peerInfo, { peerId := info.peerId, state := .accepted info.idPoint i })
  | .running _ peerInfo info => some (peerInfo, { peerId := info.peerId, state := .running i info.idPoint })
  | .connecting | .authenticating | .rejecting _ | .failed _ | .closing | .closed => none

def pointOwner : P2pPointState.State → Option Nat
  | .requested i | .accepted _ i | .running i _ => some i
  | .disconnected => none

def peerOwner : P2pPeerState.State → Option Nat
  | .accepted _ i | .running i _ => some i
  | .disconnected => none

def pointHolding : Holding Attempt P2pPointState.Info (Id × P2pPointState.State) where
  state info := (info.point, info.state)
  owner s := pointOwner s.2
  held := pointHeld
  owner_held i a r s h := by
    unfold pointHeld at h
    split at h
    all_goals first
      | obtain ⟨_, -, heq⟩ := Option.map_eq_some_iff.mp h
        rw [← (Prod.mk.inj heq).2]
        rfl
      | cases h
  kept s := match s.2 with
    | .accepted _ _ => true
    | .requested _ | .running _ _ | .disconnected => false

def peerHolding : Holding Attempt P2pPeerState.Info P2pPeerState.Info where
  state := id
  owner info := peerOwner info.state
  held := peerHeld
  owner_held i a r s h := by
    unfold peerHeld at h
    split at h
    all_goals first
      | rw [← (Prod.mk.inj (Option.some_inj.mp h)).2]
        rfl
      | cases h
  kept info := match info.state with
    | .accepted _ _ => true
    | .running _ _ | .disconnected => false

def pointRunning (info : P2pPointState.Info) : Bool :=
  match info.state with
  | .running _ _ => true
  | .requested _ | .accepted _ _ | .disconnected => false

def peerRunning (info : P2pPeerState.Info) : Bool :=
  match info.state with
  | .running _ _ => true
  | .accepted _ _ | .disconnected => false

abbrev PointsKeyed (points : Registry Id P2pPointState.Info) : Prop := points.Keyed (·.point)

abbrev PointsAgree (points : Registry Id P2pPointState.Info) : Prop :=
  points.Agrees (·.point) P2pPointState.isDisconnected pointRunning

abbrev PeersAgree (peers : Registry P2pPeer.Id P2pPeerState.Info) : Prop :=
  peers.Agrees (·.peerId) P2pPeerState.isDisconnected peerRunning

/-- An outgoing attempt goes on with the point that it began with. -/
def Attempt.Shaped (a : Attempt) : Prop :=
  match a.stage with
  | .connecting => a.incoming = false
  | .accepting connectionPointInfo _ info | .running connectionPointInfo _ info =>
    ∀ r, a.pointInfo = some r → connectionPointInfo = some r ∧ info.idPoint = (a.point.1, some a.point.2)
  | .authenticating | .rejecting _ | .failed _ | .closing | .closed => True

/-- The point under which an attempt is in `pool.incoming`. -/
def Attempt.waiting (a : Attempt) : Option Id :=
  match a.stage, a.pointInfo with
  | .authenticating, none => some a.point
  | _, _ => none

def Attempt.isRunning (a : Attempt) : Bool :=
  match a.stage with
  | .running _ _ _ => true
  | _ => false

/-- The known points agree with their states in strict pools. -/
structure Inv (strict : Prop) (st : State) : Prop where
  points : Custody pointHolding st.points.records st.attempts
  peers : Custody peerHolding st.peers.records st.attempts
  shaped : ∀ a ∈ st.attempts, a.Shaped
  keyed : PointsKeyed st.points
  pointsAgree : strict → PointsAgree st.points
  peersAgree : PeersAgree st.peers
  waiting : (st.attempts.filterMap waiting).Subperm st.incoming.keys
  active : st.peers.active.length = st.attempts.countP isRunning
  asserts : st.assertFailed = false

variable {strict : Prop} {config : Config} {st : State} {i : Nat} {a a' : Attempt} {s : P2pPointState.State}

theorem inv_create (acl : Acl) : Inv strict (create acl) where
  points := .nil
  peers := .nil
  shaped _ h := absurd h List.not_mem_nil
  keyed := .empty
  pointsAgree _ := .empty
  peersAgree := .empty
  waiting := List.Subperm.refl _
  active := rfl
  asserts := rfl

theorem forgets_gcPoints (victims : List Id) (points : Registry Id P2pPointState.Info) :
    points.Forgets (gcPoints config victims points) :=
  Registry.forgets_gc ..

theorem forgets_gcPeerIds (victims : List P2pPeer.Id) (peers : Registry P2pPeer.Id P2pPeerState.Info) :
    peers.Forgets (gcPeerIds config victims peers) :=
  Registry.forgets_gc ..

structure PointsKept (strict : Prop) (points : Registry Id P2pPointState.Info) (attempts : List Attempt) : Prop where
  custody : Custody pointHolding points.records attempts
  keyed : PointsKeyed points
  agree : strict → PointsAgree points

theorem PointsKept.registerPoint {points : Registry Id P2pPointState.Info} {attempts : List Attempt}
    (h : PointsKept strict points attempts) (config : Config) (trusted : Option Bool) (victims : List Id) (point : Id) :
    PointsKept strict (registerPoint config trusted victims point points).1 attempts := by
  have hgc := @forgets_gcPoints config victims points
  have hreg : PointsKept strict (points.register (config.maxKnownPoints.map Prod.fst) (gcPoints config victims) point
      (.create (trusted.getD false) point)).1 attempts :=
    ⟨h.custody.register _ _ hgc rfl, h.keyed.register (.create (trusted.getD false) point) hgc, fun hstr =>
      (h.agree hstr).register (.create (trusted.getD false) point) hgc ((h.agree hstr).gc ..) rfl rfl⟩
  rcases trusted with _ | trusted
  · exact hreg
  · exact ⟨hreg.custody.alter fun _ => rfl, hreg.keyed.alter fun _ => rfl,
      fun hstr => (hreg.agree hstr).alter (fun _ => rfl) (fun _ => rfl) fun _ => rfl⟩

section
variable (config : Config) (victims : List P2pPeer.Id) (peerId : P2pPeer.Id)
  (peers : Registry P2pPeer.Id P2pPeerState.Info)

theorem mem_registerPeer :
    (peerId, (registerPeer config victims peerId peers).2) ∈ (registerPeer config victims peerId peers).1.known :=
  Registry.Keyed.mem_register ..

theorem active_registerPeer : (registerPeer config victims peerId peers).1.active = peers.active :=
  Registry.active_register (forgets_gcPeerIds ..)

end

theorem Inv.registerPoint (h : Inv strict st) (config : Config) (trusted : Option Bool) (victims : List Id)
    (point : Id) :
    Inv strict { st with points := (registerPoint config trusted victims point st.points).1 } :=
  have hreg := PointsKept.registerPoint ⟨h.points, h.keyed, h.pointsAgree⟩ config trusted victims point
  { h with points := hreg.custody, keyed := hreg.keyed, pointsAgree := hreg.agree }

theorem Inv.registerPeer (h : Inv strict st) (config : Config) (victims : List P2pPeer.Id) (peerId : P2pPeer.Id) :
    Inv strict { st with peers := (registerPeer config victims peerId st.peers).1 } :=
  { h with
    peers := h.peers.register _ _ (forgets_gcPeerIds ..) rfl
    peersAgree := h.peersAgree.register (.create peerId) (forgets_gcPeerIds ..) (h.peersAgree.gc ..) rfl rfl
    active := (congrArg List.length (active_registerPeer ..)).trans h.active }

theorem Inv.point_held (h : Inv strict st) (ha : st.attempts[i]? = some a) {r : Nat} {point : Id}
    (hheld : a.pointHeld i = some (r, point, s)) :
    ∃ info, st.points.records[r]? = some info ∧ info.point = point ∧ info.state = s := by
  obtain ⟨info, hget, hst⟩ := h.points.holds i a r (point, s) ha hheld
  exact ⟨info, hget, (Prod.mk.inj hst).1, (Prod.mk.inj hst).2⟩

section
variable {attempts : List Attempt} {incoming : Table Id Nat}

theorem shaped_set (h : ∀ a ∈ attempts, a.Shaped) (ha' : a'.Shaped) : ∀ a ∈ attempts.set i a', a.Shaped := by
  intro b hb
  rcases List.mem_or_eq_of_mem_set hb with hb | rfl
  · exact h b hb
  · exact ha'

section
variable (h : (attempts.filterMap waiting).Subperm incoming.keys) (ha : attempts[i]? = some a)
include h ha

theorem waiting_set (ha' : a'.waiting = none) : ((attempts.set i a').filterMap waiting).Subperm incoming.keys := by
  have haft := (perm_set ha a').2.filterMap waiting
  rw [List.filterMap_cons_none ha'] at haft
  exact haft.subperm.trans (((List.eraseIdx_sublist attempts i).filterMap _).subperm.trans h)

theorem waiting_remove (hwait : a.waiting = some a.point) (ha' : a'.waiting = none) :
    ((attempts.set i a').filterMap waiting).Subperm (incoming.remove a.point).keys := by
  obtain ⟨hbef, haft⟩ := perm_set ha a'
  rw [(haft.filterMap waiting).subperm_right, List.filterMap_cons_none ha']
  rw [(hbef.filterMap waiting).subperm_right, List.filterMap_cons_some hwait] at h
  exact Table.subperm_remove h

end

end

/-! ### The steps of an attempt -/

open Option Registry

variable {point : Id} {pointInfo connectionPointInfo : Option Nat} {peerInfo : Nat} {info : Info}
  {points : Registry Id P2pPointState.Info}

theorem PointsKept.forget {attempts : List Attempt} (h : PointsKept strict points attempts)
    (hidle : strict → (points.lookup point).all P2pPointState.isDisconnected = true) :
    PointsKept strict (points.forget point) attempts :=
  ⟨h.custody, h.keyed.forgets (forgets_forget ..), fun hstr => (h.agree hstr).forget_lookup (hidle hstr)⟩

abbrev Yields (strict : Prop) (next : Option State) (st' : State) (P : Prop) : Prop :=
  next = some st' ∧ Inv strict st' ∧ P

variable (h : Inv strict st) {myIdPoints : Table Id Unit} {acl : Acl}
include h

theorem Inv.move (ha : st.attempts[i]? = some a) {peers : Registry P2pPeer.Id P2pPeerState.Info}
    {incoming : Table Id Nat} (hpts : PointsKept strict points (st.attempts.set i a'))
    (hpeers : Custody peerHolding peers.records (st.attempts.set i a')) (hprs : PeersAgree peers)
    (hshap : a'.Shaped) (hwait : ((st.attempts.set i a').filterMap Attempt.waiting).Subperm incoming.keys)
    (hact : peers.active.length + a.isRunning.toNat = st.peers.active.length + a'.isRunning.toNat) :
    Inv strict { st with acl, myIdPoints, points, peers, incoming, attempts := st.attempts.set i a' } where
  points := hpts.custody
  peers := hpeers
  shaped := shaped_set h.shaped hshap
  keyed := hpts.keyed
  pointsAgree := hpts.agree
  peersAgree := hprs
  waiting := hwait
  active := by
    have hcnt := countP_set (a := a') ha Attempt.isRunning
    rw [h.active, ← hcnt] at hact
    exact Nat.add_right_cancel hact
  asserts := h.asserts

theorem Inv.movePoints (ha : st.attempts[i]? = some a) (hpts : PointsKept strict points (st.attempts.set i a'))
    (hpeer : a'.peerHeld i = a.peerHeld i) (hshap : a'.Shaped) (hwait : a'.waiting = none)
    (hrun : a.isRunning = a'.isRunning) :
    Inv strict { st with acl, myIdPoints, points, attempts := st.attempts.set i a' } :=
  h.move ha hpts (h.peers.move ha (.inl hpeer)) h.peersAgree hshap (waiting_set h.waiting ha hwait)
    (congrArg (_ + Bool.toNat ·) hrun)

theorem Inv.points_move (ha : st.attempts[i]? = some a) (hheld : a'.pointHeld i = a.pointHeld i) :
    PointsKept strict st.points (st.attempts.set i a') :=
  ⟨h.points.move ha (.inl hheld), h.keyed, h.pointsAgree⟩

omit h in
theorem setDisconnected_eq {info : P2pPointState.Info} (h : pointOwner info.state ≠ none) :
    P2pPointState.setDisconnected info = some { info with state := .disconnected } := by
  unfold P2pPointState.setDisconnected
  split
  all_goals first
    | rfl
    | rename_i hst
      rw [hst] at h
      exact absurd rfl h

theorem Inv.giveBack (ha : st.attempts[i]? = some a) {r : Nat} {info : P2pPointState.Info}
    {s : Id × P2pPointState.State} (hget : st.points.records[r]? = some info) (hheld : a.pointHeld i = some (r, s))
    (hdown : pointRunning info = false) (hnone : a'.pointHeld i = none) :
    PointsKept strict (st.points.set r { info with state := .disconnected }) (st.attempts.set i a') :=
  ⟨h.points.exchange_own ha hget hheld (.inr ⟨hnone, rfl⟩), h.keyed.set hget rfl,
    fun hstr => (h.pointsAgree hstr).set hget rfl nofun hdown.symm⟩

theorem Inv.release (ha : st.attempts[i]? = some a) (pointInfo : Option Nat) (a' : Attempt)
    (hheld : a.pointHeld i = pointInfo.map fun r => (r, point, s)) (hdown : ∀ data peerId, s ≠ .running data peerId)
    (hnone : a'.pointHeld i = none) :
    ∃ points, updatePoint pointInfo P2pPointState.setDisconnected st.points = some points ∧
      PointsKept strict points (st.attempts.set i a') ∧
      ∀ r, pointInfo = some r → ∃ info, points.records[r]? = some info ∧ info.state = .disconnected := by
  rcases pointInfo with _ | r
  · exact ⟨st.points, rfl, h.points_move ha (hnone.trans hheld.symm), nofun⟩
  · obtain ⟨info, hget, rfl, rfl⟩ := h.point_held ha hheld
    have hown := pointHolding.owner_held i a r _ hheld
    have hrun : pointRunning info = false := by
      unfold pointRunning
      split
      · rename_i hst
        exact absurd hst (hdown _ _)
      all_goals rfl
    refine ⟨_, update_eq hget (setDisconnected_eq fun hno => ?_), h.giveBack ha hget hheld hrun hnone, ?_⟩
    · exact absurd (hno.symm.trans hown) nofun
    · intro r' heq
      obtain rfl := some_inj.mp heq
      exact ⟨_, getElem?_set_same hget, rfl⟩

theorem Inv.connected (ha : st.attempts[i]? = some ⟨point, pointInfo, .connecting⟩) (ok : Bool) :
    ∃ points stage, Yields strict (P2pPool.connected i ⟨point, pointInfo, .connecting⟩ ok st)
      ({ st with points }.setStage i ⟨point, pointInfo, .connecting⟩ stage)
      (stage = if ok then .authenticating else .closed) := by
  have hshap := h.shaped _ (List.mem_of_getElem? ha)
  obtain ⟨r, rfl⟩ : ∃ r, pointInfo = some r := isSome_iff_exists.mp (isNone_eq_false_iff.mp hshap)
  cases ok with
  | true =>
    refine ⟨st.points, .authenticating, rfl, ?_, rfl⟩
    exact h.movePoints ha (h.points_move ha rfl) rfl trivial rfl rfl
  | false =>
    obtain ⟨points, hupd, hpts, -⟩ := h.release ha (some r) ⟨point, some r, .closed⟩ rfl nofun rfl
    refine ⟨points, .closed, ?_, h.movePoints ha hpts rfl trivial rfl rfl, rfl⟩
    simp only [P2pPool.connected, hupd]
    rfl

omit h in
theorem registered_eq (st : State) (addr : P2pAddr) (err : Error) : ∃ acl myIdPoints points,
      mayRegisterMyIdPoint (if greylists err then greylistAddr addr st else st) err =
        { st with acl, myIdPoints, points } ∧
      (points = st.points ∨ ∃ addr port, err = .myself (addr, some port) ∧
        points = st.points.forget (addr, port)) := by
  unfold mayRegisterMyIdPoint
  split
  · exact ⟨_, _, _, rfl, .inr ⟨_, _, rfl, rfl⟩⟩
  · split
    · exact ⟨_, _, _, rfl, .inl rfl⟩
    · exact ⟨_, _, _, rfl, .inl rfl⟩

/-- The known point that is forgotten is idle: it is the point of the attempt, if that is outgoing. -/
def ForgetsIdle (st : State) (a : Attempt) (err : Error) : Prop :=
  ∀ addr port, err = .myself (addr, some port) →
    if a.incoming then (st.points.lookup (addr, port)).all P2pPointState.isDisconnected = true else (addr, port) = a.point

theorem Inv.authenticationFailed_incoming (ha : st.attempts[i]? = some ⟨point, none, .authenticating⟩) (err : Error)
    (hidle : strict → ForgetsIdle st ⟨point, none, .authenticating⟩ err) :
    ∃ acl myIdPoints points, Yields strict (P2pPool.authenticationFailed i ⟨point, none, .authenticating⟩ err st)
      ({ st with acl, myIdPoints, points, incoming := st.incoming.remove point }.setStage i
        ⟨point, none, .authenticating⟩ (.failed err)) True := by
  obtain ⟨acl, myIdPoints, points, hreg, hpts⟩ := registered_eq st point.1 err
  simp only [P2pPool.authenticationFailed, hreg]
  have hkept : PointsKept strict st.points (st.attempts.set i ⟨point, none, .failed err⟩) := h.points_move ha rfl
  refine ⟨acl, myIdPoints, points, rfl, ?_, trivial⟩
  refine h.move ha ?_ (h.peers.move ha (.inl rfl)) h.peersAgree trivial (waiting_remove h.waiting ha rfl rfl) rfl
  rcases hpts with rfl | ⟨addr, port, herr, rfl⟩
  · exact hkept
  · exact hkept.forget fun hstr => hidle hstr addr port herr

theorem Inv.authenticationFailed_outgoing {r : Nat} (ha : st.attempts[i]? = some ⟨point, some r, .authenticating⟩)
    (err : Error) (hidle : strict → ForgetsIdle st ⟨point, some r, .authenticating⟩ err) :
    ∃ acl myIdPoints points, Yields strict (P2pPool.authenticationFailed i ⟨point, some r, .authenticating⟩ err st)
      ({ st with acl, myIdPoints, points }.setStage i ⟨point, some r, .authenticating⟩ (.failed err))
      (∃ info, points.records[r]? = some info ∧ info.state = .disconnected) := by
  obtain ⟨acl, myIdPoints, points, hreg, hpts⟩ := registered_eq st point.1 err
  obtain ⟨info, hget, rfl, hst⟩ := h.point_held (r := r) ha rfl
  have hfree : P2pPointState.setDisconnected info = some { info with state := .disconnected } := by
    rw [P2pPointState.setDisconnected, hst]
  have hnone : Attempt.pointHeld i ⟨info.point, some r, .failed err⟩ = none := rfl
  have hkept := h.giveBack ha hget rfl (by rw [pointRunning, hst]) hnone
  have hgiv : (st.points.set r { info with state := .disconnected }).records[r]? =
      some { info with state := .disconnected } := getElem?_set_same hget
  simp only [P2pPool.authenticationFailed, hreg]
  rcases hpts with rfl | ⟨addr, port, herr, rfl⟩
  · simp only [update_eq hget hfree]
    exact ⟨acl, myIdPoints, _, rfl, h.movePoints ha hkept rfl trivial rfl rfl, _, hgiv, rfl⟩
  · have hupd : (st.points.forget (addr, port)).update r P2pPointState.setDisconnected =
        some ((st.points.set r { info with state := .disconnected }).forget (addr, port)) := update_eq hget hfree
    simp only [hupd]
    refine ⟨acl, myIdPoints, _, rfl, ?_, _, hgiv, rfl⟩
    refine h.movePoints ha (hkept.forget fun hstr => ?_) rfl trivial rfl rfl
    -- The known point is that of the attempt, which is free by now.
    have hkn := (h.pointsAgree hstr).busy_known r info hget (by rw [P2pPointState.isDisconnected, hst])
    rw [show (addr, port) = info.point from hidle hstr addr port herr, lookup]
    have hfind : (st.points.set r { info with state := .disconnected }).known.find? info.point = some r :=
      (Table.find?_eq_some h.keyed.known_nodup).mpr hkn
    rw [hfind, bind_some, hgiv]
    rfl

/-! ### The handshake succeeds -/

theorem Inv.peerBanned (ha : st.attempts[i]? = some ⟨point, pointInfo, .authenticating⟩) (err : Error) :
    Inv strict (st.setStage i ⟨point, pointInfo, .authenticating⟩ (.failed err)) := by
  refine h.movePoints ha ⟨h.points.move ha (.inr ⟨rfl, fun r s hheld => ?_⟩), h.keyed, h.pointsAgree⟩ rfl trivial
    rfl rfl
  obtain ⟨r', -, heq⟩ := map_eq_some_iff.mp hheld
  rw [← (Prod.mk.inj heq).2]
  rfl

theorem Inv.remotePointInfo (config : Config) (victims : List Id) (idPoint : P2pConnection.Id) :
    Inv strict { st with points := (remotePointInfo config victims idPoint st).1 } := by
  unfold P2pPool.remotePointInfo
  split
  · split
    · exact h
    · exact h.registerPoint config none victims _
  · exact h

omit h in
theorem mem_remotePointInfo {victims : List Id} {r : Nat}
    (hrem : (remotePointInfo config victims info.idPoint st).2 = some r) :
    (info.listeningPoint, r) ∈ (remotePointInfo config victims info.idPoint st).1.known := by
  unfold remotePointInfo at hrem ⊢
  split at hrem
  · rename_i addr port heq
    split at hrem
    · cases hrem
    · rename_i hmine
      obtain rfl := some_inj.mp hrem
      simp only [Info.listeningPoint, heq, hmine]
      exact Keyed.mem_register ..
  · cases hrem

section
variable (ha : st.attempts[i]? = some ⟨point, pointInfo, .authenticating⟩)
include ha

theorem Inv.acceptable {remote : Option Nat} {r : Nat}
    (hor : pointInfo.or remote = some r) (hrem : ∀ r, remote = some r → (info.listeningPoint, r) ∈ st.points.known)
    (hid : ∀ r, pointInfo = some r → info.idPoint = (point.1, some point.2))
    (hacc : acceptablePoint config pointInfo.isNone st.points (some r) = true) :
    ∃ record, st.points.records[r]? = some record ∧ record.point = info.listeningPoint ∧
      (record.state = .requested i ∨ record.state = .disconnected) ∧
        (strict → (record.point, r) ∈ st.points.known) ∧
      ∀ r' s, Attempt.pointHeld i ⟨point, pointInfo, .authenticating⟩ = some (r', s) → r' = r := by
  rcases or_eq_some_iff.mp hor with rfl | ⟨rfl, hsome⟩
  · obtain ⟨record, hget, hpt, hst⟩ := h.point_held (r := r) ha rfl
    refine ⟨record, hget, ?_, .inl hst, fun hstr => ?_, fun r' s hheld => ?_⟩
    · rw [hpt, Info.listeningPoint, hid r rfl]
      rfl
    · exact (h.pointsAgree hstr).busy_known r record hget (by rw [P2pPointState.isDisconnected, hst])
    · exact (Prod.mk.inj (some_inj.mp hheld)).1.symm
  · obtain ⟨record, hget, hpt⟩ := h.keyed.known_key _ r (hrem r hsome)
    refine ⟨record, hget, hpt, ?_, fun _ => hpt.symm ▸ hrem r hsome, fun _ _ hheld => absurd hheld nofun⟩
    rw [acceptablePoint, bind_some, hget] at hacc
    cases hst : record.state with
    | disconnected => exact .inr rfl
    | requested | accepted | running =>
      simp only [hst] at hacc
      cases hacc

theorem Inv.acceptPoint {remote : Option Nat}
    (hrem : ∀ r, remote = some r → (info.listeningPoint, r) ∈ st.points.known)
    (hid : ∀ r, pointInfo = some r → info.idPoint = (point.1, some point.2)) (peerInfo : Nat)
    (hacc : acceptablePoint config pointInfo.isNone st.points (pointInfo.or remote) = true) :
    ∃ points, updatePoint (pointInfo.or remote) (P2pPointState.setAccepted info.peerId i) st.points = some points ∧
      PointsKept strict points
        (st.attempts.set i ⟨point, pointInfo, .accepting (pointInfo.or remote) peerInfo info⟩) := by
  rcases hor : pointInfo.or remote with _ | r
  · obtain ⟨rfl, -⟩ := or_eq_none_iff.mp hor
    exact ⟨st.points, rfl, h.points_move ha rfl⟩
  · rw [hor] at hacc
    obtain ⟨record, hget, hpt, hst, hkn, hbef⟩ := h.acceptable ha hor hrem hid hacc
    have hset : P2pPointState.setAccepted info.peerId i record =
        some { record with state := .accepted info.peerId i } := by
      rcases hst with hst | hst
      all_goals rw [P2pPointState.setAccepted, hst]
    refine ⟨_, update_eq hget hset, ?_, h.keyed.set hget rfl, fun hstr => ?_⟩
    · refine h.points.exchange ha hget (fun j hown => ?_) hbef (.inl ?_)
      · rcases hst with hst | hst
        · rw [show pointHolding.owner (pointHolding.state record) = pointOwner record.state from rfl, hst] at hown
          exact (some_inj.mp hown).symm
        · rw [show pointHolding.owner (pointHolding.state record) = pointOwner record.state from rfl, hst] at hown
          cases hown
      · rw [hpt]
        rfl
    · refine (h.pointsAgree hstr).set hget rfl (fun _ => hkn hstr) ?_
      rcases hst with hst | hst
      all_goals simp only [pointRunning, hst]

theorem Inv.acceptPeer
    (hkn : (info.peerId, peerInfo) ∈ st.peers.known) (hacc : acceptablePeerId st.peers peerInfo = true)
    (connectionPointInfo : Option Nat) :
    ∃ peers, st.peers.update peerInfo (P2pPeerState.setAccepted info.idPoint i) = some peers ∧
      Custody peerHolding peers.records
        (st.attempts.set i ⟨point, pointInfo, .accepting connectionPointInfo peerInfo info⟩) ∧
      PeersAgree peers ∧ peers.active = st.peers.active := by
  obtain ⟨record, hget, hkey⟩ := h.peersAgree.known_key _ peerInfo hkn
  have hst : record.state = .disconnected := by
    rw [acceptablePeerId, hget] at hacc
    cases hst : record.state with
    | disconnected => rfl
    | accepted idPoint cancel | running data idPoint =>
      rw [any_some, P2pPeerState.isDisconnected, hst] at hacc
      cases hacc
  have hset : P2pPeerState.setAccepted info.idPoint i record =
      some { record with state := .accepted info.idPoint i } := by rw [P2pPeerState.setAccepted, hst]
  refine ⟨_, update_eq hget hset, ?_, ?_, rfl⟩
  · refine h.peers.exchange ha hget (fun j hown => ?_) (fun _ _ hheld => absurd hheld nofun) (.inl ?_)
    · rw [show peerHolding.owner (peerHolding.state record) = peerOwner record.state from rfl, hst] at hown
      cases hown
    · rw [hkey]
      rfl
  · refine h.peersAgree.set hget rfl (fun _ => hkey.symm ▸ hkn) ?_
    simp only [peerRunning, hst]

theorem Inv.authenticated (info : Info) (hid : ∀ r, pointInfo = some r → info.idPoint = (point.1, some point.2))
    (hban : st.acl.bannedPeer info.peerId = false) (commonVersion : Bool) (pointVictims : List Id)
    (peerVictims : List P2pPeer.Id) :
    ∃ points peers incoming stage,
      Yields strict
        (P2pPool.authenticated config i ⟨point, pointInfo, .authenticating⟩ info commonVersion pointVictims peerVictims
          st)
        ({ st with points, peers, incoming }.setStage i ⟨point, pointInfo, .authenticating⟩ stage)
        (incoming = (if pointInfo.isNone then st.incoming.remove point else st.incoming) ∧
          ((∃ connectionPointInfo peerInfo, stage = .accepting connectionPointInfo peerInfo info) ∨
            ∃ err, stage = .rejecting err)) := by
  have hinv := (h.remotePointInfo config pointVictims info.idPoint).registerPeer config peerVictims info.peerId
  have hrem := fun r => @mem_remotePointInfo config st info pointVictims r
  have hkn := mem_registerPeer config peerVictims info.peerId st.peers
  have hact := active_registerPeer config peerVictims info.peerId st.peers
  simp only [P2pPool.authenticated, hban, Bool.false_eq_true, if_false]
  generalize P2pPool.remotePointInfo config pointVictims info.idPoint st = points at *
  generalize P2pPool.registerPeer config peerVictims info.peerId st.peers = peers at *
  obtain ⟨points, remote⟩ := points
  obtain ⟨peers, peerInfo⟩ := peers
  have hwait : ∀ a' : Attempt, a'.waiting = none → ((st.attempts.set i a').filterMap Attempt.waiting).Subperm
      (if pointInfo.isNone then st.incoming.remove point else st.incoming).keys := by
    intro a' ha'
    rcases pointInfo with _ | r
    · exact waiting_remove h.waiting ha rfl ha'
    · exact waiting_set h.waiting ha ha'
  by_cases hacc : (commonVersion && acceptablePeerId peers peerInfo &&
      acceptablePoint config pointInfo.isNone points (pointInfo.or remote)) = true
  · obtain ⟨hpeer, hpt⟩ := Bool.and_eq_true_iff.mp hacc
    obtain ⟨points', hpts, hkept⟩ := hinv.acceptPoint ha hrem hid peerInfo hpt
    obtain ⟨peers', hpeers, hpcus, hpag, hpac⟩ := hinv.acceptPeer ha hkn (Bool.and_eq_true_iff.mp hpeer).2
      (pointInfo.or remote)
    simp only [Attempt.incoming, if_pos hacc, hpts, hpeers]
    refine ⟨points', peers', _, _, rfl, ?_, rfl, .inl ⟨_, _, rfl⟩⟩
    refine h.move ha hkept hpcus hpag (fun r hr => ?_) (hwait _ rfl)
      (congrArg List.length (hpac.trans hact))
    obtain rfl : pointInfo = some r := hr
    exact ⟨rfl, hid r rfl⟩
  · refine ⟨points, peers, _, _, if_neg hacc, ?_, rfl, .inr ⟨_, rfl⟩⟩
    exact h.move ha (hinv.points_move ha rfl) (hinv.peers.move ha (.inl rfl)) hinv.peersAgree trivial (hwait _ rfl)
      (congrArg List.length hact)

end

theorem Inv.peer_held (ha : st.attempts[i]? = some a) {r : Nat} {record : P2pPeerState.Info}
    (hheld : a.peerHeld i = some (r, record)) : st.peers.records[r]? = some record := by
  obtain ⟨record', hget, hst⟩ := h.peers.holds i a r record ha hheld
  obtain rfl : record' = record := hst
  exact hget

section
variable (ha : st.attempts[i]? = some ⟨point, pointInfo, .accepting connectionPointInfo peerInfo info⟩)
include ha

theorem Inv.acceptFailed : ∃ points peers, Yields strict (P2pPool.acceptFailed i
        ⟨point, pointInfo, .accepting connectionPointInfo peerInfo info⟩ connectionPointInfo peerInfo st)
      ({ st with points, peers }.setStage i
        ⟨point, pointInfo, .accepting connectionPointInfo peerInfo info⟩ (.failed .rejectedSocketConnection))
      (∀ r, connectionPointInfo = some r → ∃ info, points.records[r]? = some info ∧
        info.state = .disconnected) := by
  obtain ⟨points, hupd, hpts, hfree⟩ := h.release ha connectionPointInfo
    ⟨point, pointInfo, .failed .rejectedSocketConnection⟩ rfl nofun rfl
  have hget := h.peer_held ha rfl
  have hset : st.peers.update peerInfo P2pPeerState.setDisconnected =
      some (st.peers.set peerInfo { peerId := info.peerId, state := .disconnected }) := update_eq hget rfl
  simp only [P2pPool.acceptFailed, hupd, hset]
  refine ⟨points, _, rfl, ?_, hfree⟩
  exact h.move ha hpts (h.peers.exchange_own ha hget rfl (.inr ⟨rfl, rfl⟩)) (h.peersAgree.set hget rfl nofun rfl)
    trivial (waiting_set h.waiting ha rfl) rfl

omit ha in
theorem Inv.kicked {err : Error} (ha : st.attempts[i]? = some ⟨point, pointInfo, .rejecting err⟩) :
    ∃ points, Yields strict (P2pPool.kicked i ⟨point, pointInfo, .rejecting err⟩ err st)
      ({ st with points }.setStage i ⟨point, pointInfo, .rejecting err⟩ (.failed err))
      (∀ r, pointInfo = some r → ∃ info, points.records[r]? = some info ∧ info.state = .disconnected) := by
  obtain ⟨points, hupd, hpts, hfree⟩ := h.release ha pointInfo ⟨point, pointInfo, .failed err⟩ rfl nofun rfl
  simp only [P2pPool.kicked, hupd]
  exact ⟨points, rfl, h.movePoints ha hpts rfl trivial rfl rfl, hfree⟩

/-! ### The connection is created, and canceled -/

omit ha in
omit h in
theorem up_not_idle (info : P2pPointState.Info) (h : pointRunning info = true) :
    P2pPointState.isDisconnected info = false := by
  unfold pointRunning at h
  unfold P2pPointState.isDisconnected
  split at h
  · rename_i hst
    rw [hst]
  all_goals cases h

omit ha in
omit h in
theorem peer_up_not_idle (info : P2pPeerState.Info) (h : peerRunning info = true) :
    P2pPeerState.isDisconnected info = false := by
  unfold peerRunning at h
  unfold P2pPeerState.isDisconnected
  split at h
  · rename_i hst
    rw [hst]
  all_goals cases h

theorem Inv.runPoint :
    ∃ points, updatePoint connectionPointInfo (P2pPointState.setRunning info.peerId i) st.points = some points ∧
      PointsKept strict (addConnectedPoint connectionPointInfo points)
        (st.attempts.set i ⟨point, pointInfo, .running connectionPointInfo peerInfo info⟩) := by
  rcases connectionPointInfo with _ | r
  · exact ⟨st.points, rfl, h.points_move ha rfl⟩
  · obtain ⟨record, hget, hpt, hst⟩ := h.point_held (r := r) ha rfl
    have hset : P2pPointState.setRunning info.peerId i record =
        some { record with state := .running i info.peerId } := by
      rw [P2pPointState.setRunning, hst]
      exact if_pos rfl
    have hnew : (st.points.set r { record with state := .running i info.peerId }).records[r]? =
        some { record with state := .running i info.peerId } := getElem?_set_same hget
    refine ⟨_, update_eq hget hset, ?_⟩
    simp only [addConnectedPoint, pointOf, bind_some, hnew, map_some]
    refine ⟨h.points.exchange_own ha hget rfl (.inl ?_), Keyed.activate (h.keyed.set hget rfl), fun hstr => ?_⟩
    · rw [hpt]
      rfl
    · refine (h.pointsAgree hstr).activate up_not_idle hget rfl ?_ ?_ rfl
      · exact (h.pointsAgree hstr).busy_known r record hget (by rw [P2pPointState.isDisconnected, hst])
      · rw [pointRunning, hst]

theorem Inv.idPoint_eq : connectionIdPoint st.points pointInfo info.idPoint = info.idPoint := by
  rcases pointInfo with _ | r
  · rfl
  · obtain ⟨rfl, hid⟩ := h.shaped _ (List.mem_of_getElem? ha) r rfl
    obtain ⟨record, hget, hpt, -⟩ := h.point_held (r := r) ha rfl
    rw [connectionIdPoint, pointOf, bind_some, hget, map_some, hpt, Info.listeningPoint, hid]
    rfl

theorem Inv.createConnection : ∃ points peers, Yields strict (P2pPool.createConnection i
        ⟨point, pointInfo, .accepting connectionPointInfo peerInfo info⟩ connectionPointInfo peerInfo info st)
      ({ st with points, peers }.setStage i
        ⟨point, pointInfo, .accepting connectionPointInfo peerInfo info⟩ (.running connectionPointInfo peerInfo info))
      True := by
  obtain ⟨points, hupd, hpts⟩ := h.runPoint ha
  have hshap := h.shaped _ (List.mem_of_getElem? ha)
  have hget := h.peer_held ha rfl
  have hset : st.peers.update peerInfo (P2pPeerState.setRunning info.idPoint i) =
      some (st.peers.set peerInfo { peerId := info.peerId, state := .running i info.idPoint }) :=
    update_eq hget (if_pos rfl)
  simp only [P2pPool.createConnection, hupd, h.idPoint_eq ha, hset, bind, bind_some]
  refine ⟨_, _, rfl, ?_, trivial⟩
  refine h.move ha hpts (h.peers.exchange_own ha hget rfl (.inl rfl))
    (h.peersAgree.activate peer_up_not_idle hget rfl ?_ rfl rfl) hshap (waiting_set h.waiting ha rfl) rfl
  exact h.peersAgree.busy_known peerInfo _ hget rfl

end

section
variable (ha : st.attempts[i]? = some ⟨point, pointInfo, .running connectionPointInfo peerInfo info⟩)
include ha

theorem Inv.cancelPoint :
    ∃ points, updatePoint connectionPointInfo P2pPointState.setDisconnected st.points = some points ∧
      PointsKept strict (removeConnectedPoint connectionPointInfo points)
        (st.attempts.set i ⟨point, pointInfo, .closing⟩) := by
  rcases connectionPointInfo with _ | r
  · exact ⟨st.points, rfl, h.points_move ha rfl⟩
  · obtain ⟨record, hget, hpt, hst⟩ := h.point_held (r := r) ha rfl
    have hset : P2pPointState.setDisconnected record = some { record with state := .disconnected } := by
      rw [P2pPointState.setDisconnected, hst]
    have hnew : (st.points.set r { record with state := .disconnected }).records[r]? =
        some { record with state := .disconnected } := getElem?_set_same hget
    refine ⟨_, update_eq hget hset, ?_⟩
    simp only [removeConnectedPoint, pointOf, bind_some, hnew, map_some]
    exact ⟨h.points.exchange_own ha hget rfl (.inr ⟨rfl, rfl⟩), Keyed.deactivate (h.keyed.set hget rfl),
      fun hstr => (h.pointsAgree hstr).deactivate hget rfl rfl (by rw [pointRunning, hst]) rfl⟩

theorem Inv.disconnected : ∃ points peers, Yields strict (P2pPool.disconnected i
        ⟨point, pointInfo, .running connectionPointInfo peerInfo info⟩ connectionPointInfo peerInfo info st)
      ({ st with points, peers }.setStage i
        ⟨point, pointInfo, .running connectionPointInfo peerInfo info⟩ .closing) True := by
  obtain ⟨points, hupd, hpts⟩ := h.cancelPoint ha
  have hget := h.peer_held ha rfl
  have hset : st.peers.update peerInfo P2pPeerState.setDisconnected =
      some (st.peers.set peerInfo { peerId := info.peerId, state := .disconnected }) := update_eq hget rfl
  have hmem : (info.peerId, peerInfo) ∈ st.peers.active := (h.peersAgree.mem_active_place hget).mpr ⟨rfl, rfl⟩
  simp only [P2pPool.disconnected, hupd, hset, bind, bind_some]
  refine ⟨_, _, rfl, ?_, trivial⟩
  exact h.move ha hpts (h.peers.exchange_own ha hget rfl (.inr ⟨rfl, rfl⟩))
    (h.peersAgree.deactivate hget rfl rfl rfl rfl) trivial (waiting_set h.waiting ha rfl)
    (Table.length_remove (Table.mem_keys.mpr ⟨peerInfo, hmem⟩))

end

theorem Inv.closed (ha : st.attempts[i]? = some a) (hpt : a.pointHeld i = none) (hpeer : a.peerHeld i = none)
    (hdown : a.isRunning = false) : Inv strict (st.setStage i a .closed) :=
  h.movePoints ha (h.points_move ha hpt.symm) hpeer.symm trivial rfl hdown

end Tezos.P2pPool
