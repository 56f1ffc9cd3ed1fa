import Tezos.Lib.Format
import Tezos.P2p.PoolStates
import Tezos.Stdlib.Ring

/-! What is saved of the peers (`Info.encoding` in `lib_p2p/p2p_peer_state.ml`). A time is in picoseconds since the
    epoch. -/

namespace Tezos.P2pPeerState
open Lib (Format)

inductive EventKind where
  | acceptingRequest
  | rejectingRequest
  | requestRejected
  | connectionEstablished
  | disconnection
  | externalDisconnection
  deriving DecidableEq

structure PoolEvent where
  kind : EventKind
  timestamp : Int
  point : P2pConnection.Id
  deriving DecidableEq

/-- A peer that is disconnected, with its metadata. -/
structure Saved (M : Type) where
  peerId : P2pPeer.Id
  created : Int
  peerMetadata : M
  trusted : Bool
  lastFailedConnection : Option (P2pConnection.Id × Int)
  lastRejectedConnection : Option (P2pConnection.Id × Int)
  lastEstablishedConnection : Option (P2pConnection.Id × Int)
  lastDisconnection : Option (P2pConnection.Id × Int)
  events : Ring.Raw PoolEvent

/-- `Ring.create log_size`. -/
def noEvents : Ring.Raw PoolEvent := .empty 100 (by decide)

/-- A time without its fraction of a second, which the RFC 3339 notation of `Time.System.encoding` does not have. -/
def seconds (time : Int) : Int := time / 10 ^ 12 * 10 ^ 12

/-- The formats of the parts, which are read back; of a time, the whole seconds are. -/
structure Formats (M : Type) where
  time : Format Int
  peerId : Format P2pPeer.Id
  connection : Format P2pConnection.Id
  peerMetadata : Format M
  time_reads : time.Reads seconds
  peerId_reads : peerId.Reads id
  connection_reads : connection.Reads id
  peerMetadata_reads : peerMetadata.Reads id

namespace Formats
variable {M : Type} (f : Formats M)

def event : Format PoolEvent :=
  .conv (fun event => (event.kind, event.timestamp, event.point))
    (fun (kind, timestamp, point) => ⟨kind, timestamp, point⟩)
    (Format.plain.pair (f.time.pair f.connection))

def stamped : Format (Option (P2pConnection.Id × Int)) := (f.connection.pair f.time).opt

def encoding : Format (Saved M) :=
  .conv
    (fun info => (info.peerId, info.created, info.trusted, info.peerMetadata, Ring.elements info.events,
      info.lastFailedConnection, info.lastRejectedConnection, info.lastEstablishedConnection, info.lastDisconnection))
    -- The events are added to those of another record, which is then dropped.
    (fun (peerId, created, trusted, peerMetadata, _, lastFailedConnection, lastRejectedConnection,
      lastEstablishedConnection, lastDisconnection) =>
        { peerId, created, peerMetadata, trusted, lastFailedConnection, lastRejectedConnection,
          lastEstablishedConnection, lastDisconnection, events := noEvents })
    (f.peerId.pair (f.time.pair ((Format.plain.dft false).pair (f.peerMetadata.pair ((f.event.list.dft []).pair
      (f.stamped.pair (f.stamped.pair (f.stamped.pair f.stamped))))))))

end Formats

end Tezos.P2pPeerState
