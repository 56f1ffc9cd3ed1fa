import Mathlib.Data.BitVec

/-! The states of the points and of the peers of a pool (`lib_p2p/p2p_point_state.ml`, `lib_p2p/p2p_peer_state.ml`). A
    canceler and a connection are known by the number of the attempt they belong to; `none` is a failed assertion. -/

namespace Tezos

abbrev P2pAddr := BitVec 128

abbrev P2pPoint.Id := P2pAddr × Nat

abbrev P2pConnection.Id := P2pAddr × Option Nat

abbrev P2pPeer.Id := BitVec 128

namespace P2pPointState

inductive State where
  | requested (cancel : Nat)
  | accepted (currentPeerId : P2pPeer.Id) (cancel : Nat)
  | running (data : Nat) (currentPeerId : P2pPeer.Id)
  | disconnected
  deriving DecidableEq

structure Info where
  point : P2pPoint.Id
  trusted : Bool
  state : State
  deriving DecidableEq

def Info.create (trusted : Bool) (point : P2pPoint.Id) : Info := { point, trusted, state := .disconnected }

def isDisconnected (pointInfo : Info) : Bool :=
  match pointInfo.state with
  | .disconnected => true
  | .requested _ | .accepted _ _ | .running _ _ => false

def setRequested (cancel : Nat) (pointInfo : Info) : Option Info :=
  match pointInfo.state with
  | .requested _ | .disconnected => some { pointInfo with state := .requested cancel }
  | .accepted _ _ | .running _ _ => none

def setAccepted (currentPeerId : P2pPeer.Id) (cancel : Nat) (pointInfo : Info) : Option Info :=
  match pointInfo.state with
  | .requested _ | .disconnected => some { pointInfo with state := .accepted currentPeerId cancel }
  | .accepted _ _ | .running _ _ => none

def setRunning (peerId : P2pPeer.Id) (data : Nat) (pointInfo : Info) : Option Info :=
  match pointInfo.state with
  | .disconnected | .requested _ => some { pointInfo with state := .running data peerId }
  | .accepted currentPeerId _ =>
    if peerId = currentPeerId then some { pointInfo with state := .running data peerId } else none
  | .running _ _ => none

def setDisconnected (pointInfo : Info) : Option Info :=
  match pointInfo.state with
  | .requested _ | .accepted _ _ | .running _ _ => some { pointInfo with state := .disconnected }
  | .disconnected => none

end P2pPointState

namespace P2pPeerState

inductive State where
  | accepted (currentPoint : P2pConnection.Id) (cancel : Nat)
  | running (data : Nat) (currentPoint : P2pConnection.Id)
  | disconnected
  deriving DecidableEq

structure Info where
  peerId : P2pPeer.Id
  state : State
  deriving DecidableEq

def Info.create (peerId : P2pPeer.Id) : Info := { peerId, state := .disconnected }

def isDisconnected (peerInfo : Info) : Bool :=
  match peerInfo.state with
  | .disconnected => true
  | .accepted _ _ | .running _ _ => false

def setAccepted (currentPoint : P2pConnection.Id) (cancel : Nat) (peerInfo : Info) : Option Info :=
  match peerInfo.state with
  | .disconnected => some { peerInfo with state := .accepted currentPoint cancel }
  | .accepted _ _ | .running _ _ => none

def setRunning (point : P2pConnection.Id) (data : Nat) (peerInfo : Info) : Option Info :=
  match peerInfo.state with
  | .disconnected => some { peerInfo with state := .running data point }
  | .running _ _ => none
  | .accepted currentPoint _ =>
    if point = currentPoint then some { peerInfo with state := .running data point } else none

def setDisconnected (peerInfo : Info) : Option Info :=
  match peerInfo.state with
  | .accepted _ _ | .running _ _ => some { peerInfo with state := .disconnected }
  | .disconnected => none

end P2pPeerState

end Tezos
