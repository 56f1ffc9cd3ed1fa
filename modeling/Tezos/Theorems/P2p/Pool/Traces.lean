import Tezos.Theorems.P2p.Pool.Machine

/-! What an attempt that fails leaves behind: the handshake with a banned peer ends before any handler is reached. -/

namespace Tezos.P2pPool
open Lib Option

/-- An attempt leaves no trace: its point is not in `pool.incoming`, the point it was called with is disconnected, and it
    has accepted no point and no peer. -/
structure Traceless (st : State) (i : Nat) (a : Attempt) : Prop where
  incoming : a.incoming = true → a.point ∉ st.incoming.keys
  point : ∀ r, a.pointInfo = some r → ∃ info, st.points.records[r]? = some info ∧ info.state = .disconnected
  acceptedPoint : ∀ (r : Nat) (info : P2pPointState.Info) (peerId : P2pPeer.Id), st.points.records[r]? = some info →
    info.state ≠ .accepted peerId i
  acceptedPeer : ∀ (r : Nat) (info : P2pPeerState.Info) (idPoint : P2pConnection.Id), st.peers.records[r]? = some info →
    info.state ≠ .accepted idPoint i

/-- An action ends the handshake of an attempt with a banned peer. -/
def endsBanned (config : Config) (st : State) (a : Attempt) : Action → Bool
  | .attempt _ event => a.meetsBanned config st.acl event
  | _ => false

/-- No entry of `pool.incoming` but that of the attempt is that of its point. -/
def Attempt.alone (st : State) (a : Attempt) : Prop :=
  a.incoming = true → st.incoming.count a.point = (a.stage == .authenticating).toNat

variable {strict : Prop} {config : Config} {st st' : State} {i : Nat} {a : Attempt} {event : Event} {action : Action}
  {err : Error}

theorem Stepped.moved (h : Stepped config st action st') (ha : st.attempts[i]? = some a) (hbefore : a.stage ≠ .failed err)
    (hafter : st'.attempts[i]? = some { a with stage := .failed err }) :
    ∃ event, action = .attempt i event ∧ Moved config st i a event st' (.failed err) := by
  have hsame : st'.attempts[i]? ≠ some a := by
    intro hsame
    have heq := some_inj.mp (hsame.symm.trans hafter)
    exact hbefore (congrArg Attempt.stage heq)
  cases h with
  | stays attempts => exact absurd (attempts ▸ ha) hsame
  | connects r attempts | accepts _ _ attempts => exact absurd (attempts ▸ getElem?_concat_iff.mpr (.inl ha)) hsame
  | @moves j event _ b stage hb moved =>
    by_cases hj : i = j
    · subst hj
      obtain rfl := some_inj.mp (ha.symm.trans hb)
      rw [moved.attempts] at hafter
      rcases (getElem?_set_iff ha).mp hafter with ⟨-, heq⟩ | ⟨hne, -⟩
      · obtain rfl : Stage.failed err = stage := congrArg Attempt.stage heq
        exact ⟨event, rfl, moved⟩
      · exact absurd rfl hne
    · rw [moved.attempts] at hsame
      exact absurd ((getElem?_set_iff hb).mpr (.inr ⟨hj, ha⟩)) hsame

section
variable (h : Inv strict st) (ha : st.attempts[i]? = some { a with stage := .failed err })
include h ha

theorem Inv.accepted_point {r : Nat}
    {info : P2pPointState.Info} (hget : st.points.records[r]? = some info) (peerId : P2pPeer.Id) :
    info.state ≠ .accepted peerId i := by
  intro hst
  obtain ⟨b, hb, hheld⟩ := h.points.kept r info i hget (by simp only [pointHolding, hst])
    (by simp only [pointHolding, hst, pointOwner])
  obtain rfl := some_inj.mp (ha.symm.trans hb)
  cases hheld

theorem Inv.accepted_peer {r : Nat}
    {info : P2pPeerState.Info} (hget : st.peers.records[r]? = some info) (idPoint : P2pConnection.Id) :
    info.state ≠ .accepted idPoint i := by
  intro hst
  obtain ⟨b, hb, hheld⟩ := h.peers.kept r info i hget (by simp only [peerHolding, hst, id])
    (by simp only [peerHolding, hst, peerOwner, id])
  obtain rfl := some_inj.mp (ha.symm.trans hb)
  cases hheld

end

/-- The attempt was authenticating, and left `pool.incoming` unless the peer is banned, or it was later. -/
theorem Moves.fails (h : Moves a.stage event (.failed err)) (config : Config) (acl : Acl) :
    a.stage = .authenticating ∧ a.leaves config acl event = (a.incoming && !a.meetsBanned config acl event) ∨
      (a.stage == .authenticating) = false ∧ a.leaves config acl event = false ∧
        a.meetsBanned config acl event = false := by
  obtain ⟨point, pointInfo, stage⟩ := a
  cases h with
  | unauthenticated reply => exact .inl ⟨rfl, rfl⟩
  | notAccepted | kicked => exact .inr ⟨rfl, rfl, rfl⟩

theorem Inv.mem_incoming (h : Inv strict st) (ha : st.attempts[i]? = some a) (hstg : a.stage = .authenticating)
    (hinc : a.incoming = true) : a.point ∈ st.incoming.keys := by
  refine h.waiting.subset (List.mem_filterMap.mpr ⟨a, List.mem_of_getElem? ha, ?_⟩)
  rw [Attempt.waiting, hstg, isNone_iff_eq_none.mp hinc]

section
variable (h : Moved config st i a event st' (.failed err)) (hinv : Inv strict st) (ha : st.attempts[i]? = some a)
include h hinv ha

theorem Moved.not_mem_incoming_iff (hinc : a.incoming = true) (hban : a.meetsBanned config st.acl event = false) :
    a.point ∉ st'.incoming.keys ↔ st.incoming.count a.point = (a.stage == .authenticating).toNat := by
  rw [← Table.count_eq_zero, h.incoming]
  rcases h.moves.fails config st.acl with ⟨hstg, hleav⟩ | ⟨hstg, hleav, -⟩
  · rw [hleav, hinc, hban, hstg]
    have hcnt : st.incoming.count a.point ≠ 0 := fun hzero =>
      Table.count_eq_zero.mp hzero (hinv.mem_incoming ha hstg hinc)
    have hrem := Table.count_remove st.incoming a.point
    simp only [Bool.not_false, Bool.and_true, if_true, hrem, beq_self_eq_true, Bool.toNat_true]
    omega
  · rw [hleav, hstg]
    exact Iff.rfl

/-- A handshake with a banned peer leaves the entry of an inbound attempt, or the state of the point of an outgoing one. -/
theorem Moved.traced (hban : a.meetsBanned config st.acl event = true) : ¬Traceless st' i a := by
  intro htrac
  rcases h.moves.fails config st.acl with ⟨hstg, hleav⟩ | ⟨-, -, hfal⟩
  · rcases hpt : a.pointInfo with _ | r
    · have hinc : a.incoming = true := by rw [Attempt.incoming, hpt]; rfl
      refine htrac.incoming hinc ?_
      rw [h.incoming, hleav, hban, Bool.not_true, Bool.and_false]
      exact hinv.mem_incoming ha hstg hinc
    · obtain ⟨info, hget, hst⟩ := htrac.point r hpt
      have hsame := h.freed err r rfl hpt
      rw [hban] at hsame
      have hheld : a.pointHeld i = some (r, a.point, .requested i) := by
        rw [Attempt.pointHeld, hstg, hpt]
        rfl
      obtain ⟨old, hold, -, hreq⟩ := hinv.point_held ha hheld
      rw [hsame] at hget
      obtain rfl := some_inj.mp (hget.symm.trans hold)
      cases hst.symm.trans hreq
  · cases hfal.symm.trans hban

end

/-- An attempt that fails leaves no trace if, and only if, it did not meet a banned peer and no other entry of
    `pool.incoming` is that of its point. -/
theorem traceless_iff (config : Config) (acl : Acl) (actions : List Action) (action : Action)
    (ha : (run (step config) (create acl) actions).attempts[i]? = some a) (hbefore : a.stage ≠ .failed err)
    (hafter : (step config (run (step config) (create acl) actions) action).attempts[i]? =
      some { a with stage := .failed err }) :
    Traceless (step config (run (step config) (create acl) actions) action) i a ↔
      endsBanned config (run (step config) (create acl) actions) a action = false ∧
        a.alone (run (step config) (create acl) actions) := by
  have hinv := inv_reached config acl actions
  obtain ⟨hinv', hstep⟩ := hinv.step config action False.elim
  obtain ⟨event, rfl, hmov⟩ := hstep.moved ha hbefore hafter
  rw [endsBanned]
  constructor
  · intro htrac
    have hban := Bool.eq_false_iff.mpr fun hban => hmov.traced hinv ha hban htrac
    exact ⟨hban, fun hinc => (hmov.not_mem_incoming_iff hinv ha hinc hban).mp
      (htrac.incoming hinc)⟩
  · rintro ⟨hban, haln⟩
    refine ⟨fun hinc => ?_, fun r hpt => ?_, fun _ _ peerId hget => hinv'.accepted_point hafter hget peerId,
      fun _ _ idPoint hget => hinv'.accepted_peer hafter hget idPoint⟩
    · exact (hmov.not_mem_incoming_iff hinv ha hinc hban).mpr (haln hinc)
    · have hfrd := hmov.freed err r rfl hpt
      rwa [hban] at hfrd

theorem traceless_canceled :
    Traceless (step sampleConfig (run (step sampleConfig) (create .create) [.accept true (1, 50000)])
      (.attempt 0 (.authenticated (.error .canceled) [] []))) 0 ⟨(1, 50000), none, .authenticating⟩ := by
  have hbefore : (run (step sampleConfig) (create .create) [.accept true (1, 50000)]).attempts[0]? =
      some ⟨(1, 50000), none, .authenticating⟩ := by decide +kernel
  have hafter : (step sampleConfig (run (step sampleConfig) (create .create) [.accept true (1, 50000)])
      (.attempt 0 (.authenticated (.error .canceled) [] []))).attempts[0]? =
        some ⟨(1, 50000), none, .failed (.authentication .canceled)⟩ := by decide +kernel
  have hfr : Stage.authenticating ≠ .failed (.authentication .canceled) := nofun
  exact (traceless_iff sampleConfig .create _ _ hbefore hfr hafter).mpr ⟨rfl, fun _ => by decide +kernel⟩

def bansSeven : Acl := { Acl.create with bannedPeer := fun peerId => peerId == 7 }

/-- An inbound attempt and an outgoing one, that both meet the banned peer. -/
def inboundBanned : List Action := [.accept true (1, 50000), .attempt 0 (.authenticated (.message 7 none true) [] [])]

def outgoingBanned : List Action :=
  [.connect [] (1, 9732), .attempt 0 (.connected true), .attempt 0 (.authenticated (.message 7 none true) [] [])]

/-- The inbound attempt is left in `pool.incoming`, and the point of the outgoing one stays requested. -/
theorem traced_banned : ((run (step sampleConfig) (create bansSeven) inboundBanned).attempts =
        [⟨(1, 50000), none, .failed (.peerBanned 7)⟩] ∧
      (run (step sampleConfig) (create bansSeven) inboundBanned).incoming.keys = [(1, 50000)] ∧
      ¬Traceless (run (step sampleConfig) (create bansSeven) inboundBanned) 0 ⟨(1, 50000), none, .authenticating⟩) ∧
    (run (step sampleConfig) (create bansSeven) outgoingBanned).attempts =
    [⟨(1, 9732), some 0, .failed (.peerBanned 7)⟩] ∧
      (run (step sampleConfig) (create bansSeven) outgoingBanned).points.records =
        [{ point := (1, 9732), trusted := false, state := .requested 0 }] ∧
      ¬Traceless (run (step sampleConfig) (create bansSeven) outgoingBanned) 0
        ⟨(1, 9732), some 0, .authenticating⟩ := by
  have hkeys : (run (step sampleConfig) (create bansSeven) inboundBanned).incoming.keys = [(1, 50000)] := by decide +kernel
  have hrecords : (run (step sampleConfig) (create bansSeven) outgoingBanned).points.records =
      [{ point := (1, 9732), trusted := false, state := .requested 0 }] := by decide +kernel
  refine ⟨⟨by decide +kernel, hkeys, fun h => ?_⟩, by decide +kernel, hrecords, fun h => ?_⟩
  · exact h.incoming rfl (hkeys ▸ List.mem_singleton_self _)
  · obtain ⟨info, hget, hst⟩ := h.point 0 rfl
    obtain rfl := some_inj.mp hget
    cases hst

end Tezos.P2pPool
