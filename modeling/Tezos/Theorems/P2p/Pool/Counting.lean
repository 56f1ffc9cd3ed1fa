import Tezos.Theorems.P2p.Pool.Machine

/-! Counting the inbound sockets. One whose `Ack` is awaited, or that is being closed, is counted by nothing that
    `accept` tests. -/

namespace Tezos.P2pPool
open Lib List Attempt

def Attempt.isOpen (a : Attempt) : Bool := a.incoming && a.stage != .closed

def openInbound (st : State) : Nat := st.attempts.countP isOpen

/-- The inbound sockets are counted by what `accept` tests, and so bounded. -/
structure Counted (config : Config) (st : State) : Prop where
  counted : openInbound st ≤ st.incoming.length + activeConnections st
  bounded : openInbound st ≤ config.maxIncomingConnections + config.maxConnections + 1

/-- An inbound socket that is in none of the tables. -/
def Attempt.uncounted (a : Attempt) : Bool :=
  match a.stage with
  | .accepting _ _ _ | .rejecting _ | .failed _ | .closing => a.incoming
  | .connecting | .authenticating | .running _ _ _ | .closed => false

def Attempt.outgoingRunning (a : Attempt) : Bool := !a.incoming && a.isRunning

def uncounted (st : State) : Nat := st.attempts.countP Attempt.uncounted

/-- The entries that are not those of inbound sockets: outgoing connections, and what is left in `pool.incoming`. -/
def spare (st : State) : Nat :=
  st.attempts.countP outgoingRunning + (st.incoming.length - st.attempts.countP (·.waiting.isSome))

/-- An attempt leaves `pool.incoming`, or its connection is canceled. -/
def Attempt.uncovers (config : Config) (acl : Acl) (a : Attempt) (event : Event) : Bool :=
  a.leaves config acl event ||
    match event with
    | .canceled => a.isRunning
    | _ => false

def uncovers (config : Config) (st : State) : Action → Bool
  | .attempt i event => (st.attempts[i]?).any fun a => a.uncovers config st.acl event
  | _ => false

variable {config : Config} {st st' : State} {i : Nat} {a : Attempt} {event : Event} {stage : Stage} {action : Action}

theorem Attempt.Shaped.balance (h : a.Shaped) :
    a.isOpen.toNat + a.outgoingRunning.toNat = a.waiting.isSome.toNat + a.uncounted.toNat + a.isRunning.toNat := by
  obtain ⟨point, pointInfo, stage⟩ := a
  cases pointInfo with
  | some r => cases stage <;> rfl
  | none =>
    cases stage with
    | connecting => cases h
    | _ => rfl

theorem balance {attempts : List Attempt} (h : ∀ a ∈ attempts, a.Shaped) :
    attempts.countP isOpen + attempts.countP outgoingRunning =
      attempts.countP (·.waiting.isSome) + attempts.countP Attempt.uncounted + attempts.countP Attempt.isRunning := by
  induction attempts with
  | nil => rfl
  | cons a attempts ih =>
    have hrest := ih fun b hb => h b (mem_cons_of_mem a hb)
    have hfst := (h a mem_cons_self).balance
    simp only [countP_cons_toNat]
    omega

variable {strict : Prop}

theorem Inv.uncounted_lt_spare (h : Inv strict st) :
    uncounted st < spare st ↔ openInbound st < st.incoming.length + activeConnections st := by
  have hbal := balance h.shaped
  have hwait := h.waiting.length_le
  rw [length_filterMap_eq_countP, Table.keys, length_map] at hwait
  rw [uncounted, spare, openInbound, activeConnections, h.active]
  omega

/-! ### Steps -/

theorem Moves.counts (h : Moves a.stage event stage) (hshap : a.Shaped) (config : Config) (acl : Acl) :
    a.uncovers config acl event = false ∧ ({ a with stage } : Attempt).isOpen.toNat ≤ a.isOpen.toNat ∧
        (a.leaves config acl event).toNat + a.isRunning.toNat ≤ ({ a with stage } : Attempt).isRunning.toNat ∨
      a.uncovers config acl event = true ∧ ({ a with stage } : Attempt).isOpen.toNat = a.isOpen.toNat ∧
        (a.leaves config acl event).toNat + a.isRunning.toNat = 1 + ({ a with stage } : Attempt).isRunning.toNat := by
  obtain ⟨point, pointInfo, before⟩ := a
  cases h with
  | connected | notConnected =>
    obtain ⟨r, rfl⟩ := Option.isSome_iff_exists.mp (Option.isNone_eq_false_iff.mp hshap)
    exact .inl ⟨rfl, le_rfl, le_rfl⟩
  | unauthenticated reply pointVictims peerVictims | accepting reply pointVictims peerVictims
  | rejecting reply pointVictims peerVictims =>
    have hsame : Attempt.uncovers config acl ⟨point, pointInfo, .authenticating⟩
        (.authenticated reply pointVictims peerVictims) = _ := Bool.or_false _
    rw [hsame]
    cases leaves config acl ⟨point, pointInfo, .authenticating⟩ (.authenticated reply pointVictims peerVictims) with
    | false => exact .inl ⟨rfl, le_rfl, le_rfl⟩
    | true => exact .inr ⟨rfl, rfl, rfl⟩
  | created => exact .inl ⟨rfl, le_rfl, Nat.zero_le _⟩
  | notAccepted | kicked => exact .inl ⟨rfl, le_rfl, le_rfl⟩
  | canceled => exact .inr ⟨rfl, rfl, rfl⟩
  | failedClosed | closed =>
    refine .inl ⟨rfl, ?_, le_rfl⟩
    cases pointInfo <;> exact Nat.zero_le _

theorem Inv.length_leaves (h : Inv strict st) (ha : st.attempts[i]? = some a)
    (hinc : st'.incoming = if a.leaves config st.acl event then st.incoming.remove a.point else st.incoming) :
    st'.incoming.length + (a.leaves config st.acl event).toNat = st.incoming.length := by
  rw [hinc]
  cases hleav : a.leaves config st.acl event with
  | false => rfl
  | true =>
    refine Table.length_remove (h.waiting.subset (mem_filterMap.mpr ⟨a, mem_of_getElem? ha, ?_⟩))
    unfold leaves at hleav
    split at hleav
    · obtain ⟨hstg, -⟩ := Bool.and_eq_true_iff.mp hleav
      obtain ⟨hauth, hinb⟩ := Bool.and_eq_true_iff.mp hstg
      obtain ⟨point, pointInfo, stage⟩ := a
      obtain rfl : stage = .authenticating := beq_iff_eq.mp hauth
      obtain rfl : pointInfo = none := Option.isNone_iff_eq_none.mp hinb
      rfl
    · cases hleav

theorem Attempt.moves_of_uncovers (h : a.uncovers config st.acl event = true) : ∃ stage, Moves a.stage event stage := by
  obtain ⟨point, pointInfo, stage⟩ := a
  cases event with
  | authenticated reply pointVictims peerVictims =>
    obtain ⟨hstg, -⟩ := Bool.and_eq_true_iff.mp ((Bool.or_false _).symm.trans h)
    obtain rfl : stage = .authenticating := beq_iff_eq.mp (Bool.and_eq_true_iff.mp hstg).1
    exact ⟨_, .rejecting _ _ _ .rejectedNoCommonProtocol⟩
  | canceled =>
    cases stage with
    | running connectionPointInfo peerInfo info => exact ⟨_, .canceled ..⟩
    | _ => cases h
  | connected | accepted | kicked | closed => cases h

section
variable (h : Inv strict st) (h' : Inv strict st') (hstep : Stepped config st action st')
include h h' hstep

theorem Inv.step_counted (hcoun : openInbound st ≤ st.incoming.length + activeConnections st)
    (hcov : uncovers config st action = false) : openInbound st' ≤ st'.incoming.length + activeConnections st' := by
  rw [openInbound, activeConnections, h.active] at hcoun
  rw [openInbound, activeConnections, h'.active]
  cases hstep with
  | stays attempts incoming => rwa [attempts, incoming]
  | connects r attempts incoming =>
    rw [attempts, incoming, countP_append, countP_append]
    exact hcoun
  | accepts _ _ attempts incoming =>
    rw [attempts, incoming, countP_append, countP_append]
    exact Nat.le_trans (Nat.succ_le_succ hcoun) (Nat.le_of_eq (Nat.add_right_comm _ (st.attempts.countP isRunning) 1))
  | @moves i event _ a stage ha moved =>
    rw [uncovers, ha] at hcov
    have hopen := countP_set (a := { a with stage }) ha isOpen
    have hrun := countP_set (a := { a with stage }) ha isRunning
    have hlen := h.length_leaves ha moved.incoming
    rw [moved.attempts]
    rcases moved.moves.counts (h.shaped a (mem_of_getElem? ha)) config st.acl with ⟨-, hle, hsum⟩ | ⟨htrue, -⟩
    · omega
    · exact absurd (hcov.symm.trans htrue) nofun

theorem Inv.step_uncovers (huncovers : uncovers config st action = true) :
    openInbound st' ≤ st'.incoming.length + activeConnections st' ↔
      openInbound st < st.incoming.length + activeConnections st := by
  rw [openInbound, openInbound, activeConnections, activeConnections, h.active, h'.active]
  cases hstep with
  | connects | accepts => cases huncovers
  | stays attempts incoming quiet =>
    cases action with
    | attempt i event =>
      obtain ⟨a, ha, huncovers⟩ := (Option.any_eq_true _ _).mp huncovers
      obtain ⟨stage, hmov⟩ := a.moves_of_uncovers huncovers
      exact absurd hmov (quiet i event a stage rfl ha)
    | _ => cases huncovers
  | @moves i event _ a stage ha moved =>
    rw [uncovers, ha] at huncovers
    have hopen := countP_set (a := { a with stage }) ha isOpen
    have hrun := countP_set (a := { a with stage }) ha isRunning
    have hlen := h.length_leaves ha moved.incoming
    rw [moved.attempts]
    rcases moved.moves.counts (h.shaped a (mem_of_getElem? ha)) config st.acl with ⟨hfal, -⟩ | ⟨-, heq, hsum⟩
    · exact absurd (hfal.symm.trans huncovers) nofun
    · omega

end

theorem Inv.step_bounded (h : Inv strict st) (hstep : Stepped config st action st')
    (hboun : openInbound st ≤ config.maxIncomingConnections + config.maxConnections + 1)
    (hcoun : openInbound st' ≤ st'.incoming.length + activeConnections st') :
    openInbound st' ≤ config.maxIncomingConnections + config.maxConnections + 1 := by
  cases hstep with
  | stays attempts => rwa [openInbound, attempts]
  | connects r attempts =>
    rw [openInbound, attempts, countP_append]
    exact hboun
  | accepts incomingRoom activeRoom attempts incoming active =>
    have hlen : st'.incoming.length = st.incoming.length + 1 := by rw [incoming]; rfl
    have hact : activeConnections st' = activeConnections st := congrArg List.length active
    omega
  | @moves i event _ a stage ha moved =>
    have hopen := countP_set (a := { a with stage }) ha isOpen
    rw [← moved.attempts] at hopen
    have hle : ({ a with stage } : Attempt).isOpen.toNat ≤ a.isOpen.toNat := by
      rcases moved.moves.counts (h.shaped a (mem_of_getElem? ha)) config st.acl with ⟨-, hle, -⟩ | ⟨-, heq, -⟩
      · exact hle
      · exact Nat.le_of_eq heq
    rw [openInbound] at hboun ⊢
    omega

/-- The inbound sockets stay counted as long as, whenever one of the counted connections leaves the tables, the sockets in
    none of them are fewer than the entries of the tables that are not those of inbound sockets. -/
theorem counted_throughout_iff (config : Config) (acl : Acl) (actions : List Action) :
    Throughout (fun before => Counted config (run (step config) (create acl) before)) actions ↔
      StepsMeet (step config) (create acl) (fun st action => uncovers config st action = true → uncounted st < spare st)
        actions := by
  refine throughout_iff_stepsMeet (fun _ st => Inv False st ∧ Counted config st)
    ⟨inv_create acl, Nat.zero_le _, Nat.zero_le _⟩
    ?_ (fun _ h => h.2) ?_
  · rintro _ st action ⟨hinv, hcoun, hboun⟩ hroom
    obtain ⟨hinv', hstep⟩ := hinv.step config action False.elim
    have hcoun' : openInbound (step config st action) ≤
        (step config st action).incoming.length + activeConnections (step config st action) := by
      cases huncovers : uncovers config st action with
      | false => exact hinv.step_counted hinv' hstep hcoun huncovers
      | true => exact (hinv.step_uncovers hinv' hstep huncovers).mpr (hinv.uncounted_lt_spare.mp (hroom huncovers))
    exact ⟨hinv', hcoun', hinv.step_bounded hstep hboun hcoun'⟩
  · rintro before action ⟨hinv, -⟩ hgood huncovers
    obtain ⟨hinv', hstep⟩ := hinv.step config action False.elim
    rw [run_append_singleton] at hgood
    exact hinv.uncounted_lt_spare.mpr ((hinv.step_uncovers hinv' hstep huncovers).mp hgood.counted)

def narrowConfig : Config where
  peerId := 0
  privateMode := false
  maxConnections := 0
  maxIncomingConnections := 1
  maxKnownPoints := none
  maxKnownPeerIds := none

/-- Three nodes, one after the other, end the handshake and keep their `Ack` back. -/
def heldBack : List Action :=
  [.accept true (1, 50000), .attempt 0 (.authenticated (.message 5 none true) [] []),
    .accept true (2, 50000), .attempt 1 (.authenticated (.message 6 none true) [] []),
    .accept true (3, 50000), .attempt 2 (.authenticated (.message 7 none true) [] [])]

/-- Three sockets are open, none of them is counted, and there should be two of them at most. -/
theorem not_counted_heldBack : openInbound (run (step narrowConfig) (create .create) heldBack) = 3 ∧
      (run (step narrowConfig) (create .create) heldBack).incoming.length +
        activeConnections (run (step narrowConfig) (create .create) heldBack) = 0 ∧
      narrowConfig.maxIncomingConnections + narrowConfig.maxConnections + 1 = 2 ∧
      ¬Counted narrowConfig (run (step narrowConfig) (create .create) heldBack) := by
  have hopen : openInbound (run (step narrowConfig) (create .create) heldBack) = 3 := by decide +kernel
  refine ⟨hopen, by decide +kernel, rfl, fun h => ?_⟩
  exact absurd h.bounded (by decide)

end Tezos.P2pPool
