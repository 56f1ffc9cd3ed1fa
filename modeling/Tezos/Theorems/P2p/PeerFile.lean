import Tezos.P2p.PeerFile

/-! What is read back of a peer that was saved. -/

namespace Tezos.P2pPeerState
open Lib Format

namespace Saved
variable {M : Type}

def Whole (info : Saved M) : Prop :=
  info.created % 10 ^ 12 = 0 ∧
    ∀ stamped ∈ [info.lastFailedConnection, info.lastRejectedConnection, info.lastEstablishedConnection,
      info.lastDisconnection], ∀ entry ∈ stamped, entry.2 % 10 ^ 12 = 0

/-- All but the buffers of the events. -/
def contents (info : Saved M) : Saved M × List PoolEvent := ({ info with events := noEvents }, Ring.elements info.events)

def readBack (info : Saved M) : Saved M :=
  let stamped := Option.map (Prod.map id seconds)
  { info with
    created := seconds info.created
    lastFailedConnection := stamped info.lastFailedConnection
    lastRejectedConnection := stamped info.lastRejectedConnection
    lastEstablishedConnection := stamped info.lastEstablishedConnection
    lastDisconnection := stamped info.lastDisconnection
    events := noEvents }

end Saved

namespace Formats
variable {M : Type} (f : Formats M)

theorem event_reads : f.event.Reads fun event => { event with timestamp := seconds event.timestamp } :=
  (plain_reads.pair (f.time_reads.pair f.connection_reads)).conv

theorem encoding_reads : f.encoding.Reads Saved.readBack := by
  have hstam := (f.connection_reads.pair f.time_reads).opt
  have heven : (f.event.list.dft []).Reads _ := f.event_reads.list.dft rfl
  have htrus : (plain.dft false).Reads id := plain_reads.dft rfl
  exact (f.peerId_reads.pair (f.time_reads.pair (htrus.pair (f.peerMetadata_reads.pair
    (heven.pair (hstam.pair (hstam.pair (hstam.pair hstam)))))))).conv

end Formats

theorem seconds_eq_self {time : Int} : seconds time = time ↔ time % 10 ^ 12 = 0 := by
  unfold seconds
  omega

theorem stamped_eq_self {stamped : Option (P2pConnection.Id × Int)} :
    stamped.map (Prod.map id seconds) = stamped ↔ ∀ entry ∈ stamped, entry.2 % 10 ^ 12 = 0 := by
  cases stamped <;> simp [Prod.ext_iff, seconds_eq_self]

/-- A peer is read back as it was when it had no events, and its times no fractions. -/
theorem survives_iff {M : Type} (f : Formats M) (info : Saved M) :
    (∃ info', f.encoding.destruct (f.encoding.construct info) = some info' ∧ info'.contents = info.contents) ↔
      Ring.elements info.events = [] ∧ info.Whole := by
  have hcont : info.readBack.contents = info.contents ↔ Ring.elements info.events = [] ∧ info.Whole := by
    simp only [Saved.contents, Saved.readBack, Saved.Whole, Prod.mk.injEq, Saved.mk.injEq, seconds_eq_self, stamped_eq_self,
      List.forall_mem_cons, List.not_mem_nil, false_imp_iff, implies_true, and_true, true_and]
    rw [and_comm, eq_comm]
    rfl
  rw [f.encoding_reads info, ← hcont]
  simp

def noticed : Saved Unit where
  peerId := 0
  created := 0
  peerMetadata := ()
  trusted := false
  lastFailedConnection := none
  lastRejectedConnection := none
  lastEstablishedConnection := none
  lastDisconnection := none
  events := Ring.add noEvents ⟨.disconnection, 0, (0, none)⟩

/-- Times are saved as numbers of seconds. -/
def plainFormats : Formats Unit :=
  ⟨⟨Int, (· / 10 ^ 12), fun time => some (time * 10 ^ 12)⟩, .plain, .plain, .plain, fun _ => rfl, plain_reads,
    plain_reads,
    plain_reads⟩

/-- The event is lost. -/
theorem noticed_lost : ¬∃ info, plainFormats.encoding.destruct (plainFormats.encoding.construct noticed) = some info ∧
      info.contents = noticed.contents := by
  rintro ⟨info, hinfo, hsame⟩
  rw [plainFormats.encoding_reads noticed] at hinfo
  cases hinfo
  cases congrArg Prod.snd hsame

end Tezos.P2pPeerState
