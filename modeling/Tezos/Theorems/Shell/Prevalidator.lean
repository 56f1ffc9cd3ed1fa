import Tezos.Lib.Runs
import Tezos.Shell.Prevalidator

/-! The mempool as a block in the making: its operations lead from the state of the last flush to the one that is held,
    when a batch applies at most one operation, and only then. -/

namespace Tezos.Prevalidator
open Lib Prevalidation List Prod

variable {B O : Type} (P : Protocol B) (hash : Operation B → O) [LinearOrder O]

/-- An operation that a state applies, as the mempool lists it, and the state after it. -/
def appliedOn (state : T P O) (op : Operation B) : Option ((O × Operation B) × T P O) :=
  match parse P hash op with
  | .error _ => none
  | .ok op =>
    match applyOperation P state op with
    | .applied next _ => some ((op.hash, op.raw), next)
    | _ => none

def replay (state : T P O) : List (O × Operation B) → Option (T P O)
  | [] => some state
  | op :: ops =>
    match appliedOn P hash state op.2 with
    | none => none
    | some (_, next) => replay next ops

variable {P hash} {state next : T P O} {op : Operation B} {listed : O × Operation B}

variable {parsed : Parsed P O} {acc : Acc P O} {pv : State P O}

omit [LinearOrder O] in
theorem parse_spec (h : parse P hash op = .ok parsed) : parsed.hash = hash op ∧ parsed.raw = op := by
  rw [parse] at h
  split at h
  · cases h
  · split at h
    · cases h
    · cases h
      exact ⟨rfl, rfl⟩

omit [LinearOrder O] in
theorem applyOperation_applied [DecidableEq O] {receipt : P.Receipt}
    (h : applyOperation P state parsed = .applied next receipt) :
    parsed.hash ∉ state.liveOperations ∧ next.liveOperations = insert parsed.hash state.liveOperations ∧
      next.applied.length = state.applied.length + 1 := by
  rw [applyOperation] at h
  split at h
  · cases h
  · rename_i hlive
    split at h
    · cases h
      exact ⟨hlive, rfl, rfl⟩
    · split at h <;> cases h

theorem appliedOn_spec (h : appliedOn P hash state op = some (listed, next)) :
    listed.2 = op ∧ next.applied.length = state.applied.length + 1 := by
  rw [appliedOn] at h
  split at h
  · cases h
  · next parsed hpar =>
    split at h
    · next hres =>
      cases h
      exact ⟨(parse_spec hpar).2, (applyOperation_applied hres).2.2⟩
    · cases h

theorem replay_append (ops ops' : List (O × Operation B)) :
    replay P hash state (ops ++ ops') = (replay P hash state ops).bind fun next => replay P hash next ops' := by
  induction ops generalizing state with
  | nil => rfl
  | cons op ops ih =>
    rw [cons_append, replay, replay]
    rcases appliedOn P hash state op.2 with _ | result
    · rfl
    · exact ih

theorem length_applied_replay {ops : List (O × Operation B)} (h : replay P hash state ops = some next) :
    next.applied.length = state.applied.length + ops.length := by
  induction ops generalizing state with
  | nil =>
    cases h
    rfl
  | cons op ops ih =>
    rw [replay] at h
    rcases hop : appliedOn P hash state op.2 with _ | result
    · rw [hop] at h
      cases h
    · rw [hop] at h
      rw [ih h, (appliedOn_spec hop).2, length_cons, Nat.add_assoc, Nat.add_comm 1]

variable (P hash) in
def batch (state : T P O) (ops : List (Operation B)) : List ((O × Operation B) × T P O) :=
  ops.filterMap (appliedOn P hash state)

def lastState (state : T P O) (applied : List ((O × Operation B) × T P O)) : T P O :=
  (applied.getLast?.map snd).getD state

theorem process_spec (state : T P O) (hcnt : acc.pv.appliedCount = 0) (op : Operation B) :
    (process P hash state acc op).pv.appliedCount = 0 ∧
      ((appliedOn P hash state op = none ∧ (process P hash state acc op).pv.applied = acc.pv.applied ∧
        (process P hash state acc op).validationState = acc.validationState) ∨
      ∃ listed next, appliedOn P hash state op = some (listed, next) ∧
        (process P hash state acc op).pv.applied = listed :: acc.pv.applied ∧
        (process P hash state acc op).validationState = next) := by
  simp only [process, appliedOn]
  cases parse P hash op with
  | error errors => exact ⟨hcnt, .inl ⟨rfl, rfl, rfl⟩⟩
  | ok parsed =>
    dsimp only
    cases applyOperation P state parsed with
    | applied next receipt =>
      dsimp only
      rw [if_pos (by rw [hcnt]; rfl)]
      exact ⟨hcnt, .inr ⟨_, _, rfl, rfl, rfl⟩⟩
    | branchDelayed | branchRefused | refused | duplicate | outdated => exact ⟨hcnt, .inl ⟨rfl, rfl, rfl⟩⟩

theorem foldl_process (hash : Operation B → O) (state : T P O) (ops : List (Operation B))
    (hcnt : acc.pv.appliedCount = 0) :
    (ops.foldl (process P hash state) acc).pv.appliedCount = 0 ∧
      (ops.foldl (process P hash state) acc).pv.applied =
        ((batch P hash state ops).map fst).reverse ++ acc.pv.applied ∧
      (ops.foldl (process P hash state) acc).validationState =
        lastState acc.validationState (batch P hash state ops) := by
  induction ops generalizing acc with
  | nil => exact ⟨hcnt, rfl, rfl⟩
  | cons op ops ih =>
    obtain ⟨hcnt', hop⟩ := process_spec state hcnt op
    obtain ⟨hcnt'', happd, hst⟩ := ih hcnt'
    rw [foldl_cons]
    refine ⟨hcnt'', ?_⟩
    rw [happd, hst, batch, batch, filterMap_cons]
    rcases hop with ⟨hnone, hpv, hacc⟩ | ⟨listed, next, hsome, hpv, hacc⟩
    · rw [hnone, hpv, hacc]
      exact ⟨rfl, rfl⟩
    · rw [hsome, hpv, hacc]
      refine ⟨?_, ?_⟩
      · rw [map_cons, reverse_cons, append_assoc, singleton_append]
      · rw [lastState, lastState, getLast?_cons]
        cases (ops.filterMap (appliedOn P hash state)).getLast? <;> rfl

/-- The operations that a batch applies are a replay from its beginning just when they are at most one. -/
theorem replay_batch_iff (state : T P O) (ops : List (Operation B)) :
    replay P hash state ((batch P hash state ops).map fst) = some (lastState state (batch P hash state ops)) ↔
      (batch P hash state ops).length ≤ 1 := by
  have hmem : ∀ applied ∈ batch P hash state ops, ∃ op, appliedOn P hash state op = some applied := by
    intro applied h
    obtain ⟨op, -, hop⟩ := mem_filterMap.mp h
    exact ⟨op, hop⟩
  generalize batch P hash state ops = applied at *
  rcases applied with _ | ⟨⟨listed, next⟩, _ | ⟨second, rest⟩⟩
  · exact ⟨fun _ => Nat.zero_le 1, fun _ => rfl⟩
  · obtain ⟨op, hop⟩ := hmem _ mem_cons_self
    obtain ⟨rfl, -⟩ := appliedOn_spec hop
    refine ⟨fun _ => Nat.le_refl 1, fun _ => ?_⟩
    rw [map_singleton, replay, hop]
    rfl
  · refine ⟨fun h => ?_, fun h => absurd h (by rw [length_cons, length_cons]; omega)⟩
    -- the state at the end counts one operation, the replay all of them
    have hlast : ∃ last ∈ (listed, next) :: second :: rest,
        lastState state ((listed, next) :: second :: rest) = last.2 := by
      refine ⟨_, getLast_mem (cons_ne_nil _ _), ?_⟩
      rfl
    obtain ⟨⟨listed', next'⟩, hin, hlast⟩ := hlast
    obtain ⟨op, hop⟩ := hmem _ hin
    have hlen := length_applied_replay h
    rw [hlast, (appliedOn_spec hop).2, map_cons, map_cons, length_cons, length_cons] at hlen
    omega

theorem handleUnprocessed_ok (hash : Operation B → O) (hcnt : pv.appliedCount = 0)
    (hst : pv.validationState = .ok state) :
    (handleUnprocessed P hash pv).appliedCount = 0 ∧ (handleUnprocessed P hash pv).pending = [] ∧
      (handleUnprocessed P hash pv).applied =
        ((batch P hash state (pv.pending.map snd)).map fst).reverse ++ pv.applied ∧
      (handleUnprocessed P hash pv).validationState =
        .ok (lastState state (batch P hash state (pv.pending.map snd))) := by
  have hfold : (⟨pv, state, .empty⟩ : Acc P O).pv.appliedCount = 0 := hcnt
  obtain ⟨hcnt', happd, hlast⟩ := foldl_process hash state (pv.pending.map snd) hfold
  simp only [handleUnprocessed, processPending, hst]
  by_cases hemp : pv.pending.length = 0
  · have hnil := eq_nil_of_length_eq_zero hemp
    rw [if_pos hemp]
    refine ⟨hcnt, hnil, ?_, ?_⟩
    · rw [hnil]
      rfl
    · rw [hnil]
      exact hst
  · rw [if_neg hemp, advertise]
    split <;> exact ⟨hcnt', rfl, happd, congrArg Except.ok hlast⟩

theorem foldl_addBranchDelayed (err : List (Error P.Error)) (pending : SortedMap O (Operation B)) (pv : State P O) :
    let pv' := pending.foldl (fun pv binding => addBranchDelayed P pv binding.1 (binding.2, err)) pv
    pv'.appliedCount = pv.appliedCount ∧ pv'.applied = pv.applied ∧ pv'.validationState = pv.validationState := by
  induction pending generalizing pv with
  | nil => exact ⟨rfl, rfl, rfl⟩
  | cons binding pending ih => exact ih (addBranchDelayed P pv binding.1 (binding.2, err))

theorem handleUnprocessed_error (hash : Operation B → O) {err : List (Error P.Error)}
    (hst : pv.validationState = .error err) :
    (handleUnprocessed P hash pv).appliedCount = pv.appliedCount ∧ (handleUnprocessed P hash pv).pending = [] ∧
      (handleUnprocessed P hash pv).applied = pv.applied ∧
      (handleUnprocessed P hash pv).validationState = .error err := by
  obtain ⟨hcnt, happd, hst'⟩ := foldl_addBranchDelayed err pv.pending pv
  simp only [handleUnprocessed, processPending, hst]
  exact ⟨hcnt, trivial, happd, hst'.trans hst⟩

/-! ### Runs -/

/-- The prevalidator and the validation state that its launch or its last flush created. -/
structure Tracked (P : Protocol B) (O : Type) where
  pv : State P O
  created : Except (List (Error P.Error)) (T P O)

/-- The mempool is a block in the making: applying its operations one after the other, from the state that was
    created, gives the state that is held. -/
def InTheMaking (hash : Operation B → O) (s : Tracked P O) : Prop :=
  match s.created with
  | .error err => s.pv.applied = [] ∧ s.pv.validationState = .error err
  | .ok start => ∃ state, replay P hash start s.pv.applied.reverse = some state ∧ s.pv.validationState = .ok state

/-- Between two requests nothing waits. -/
structure Settled (hash : Operation B → O) (s : Tracked P O) : Prop where
  making : InTheMaking hash s
  count : s.pv.appliedCount = 0
  pending : s.pv.pending = []

variable {created : Except (List (Error P.Error)) (T P O)} {s : Tracked P O}

theorem making_handleUnprocessed_iff (hmak : InTheMaking hash ⟨pv, created⟩) (hcnt : pv.appliedCount = 0) :
    InTheMaking hash ⟨handleUnprocessed P hash pv, created⟩ ↔
      ∀ state, pv.validationState = .ok state → (batch P hash state (pv.pending.map snd)).length ≤ 1 := by
  cases created with
  | error err =>
    obtain ⟨happd, hst⟩ := hmak
    obtain ⟨-, -, happd', hst'⟩ := handleUnprocessed_error hash hst
    refine ⟨fun _ state h => ?_, fun _ => ⟨happd'.trans happd, hst'⟩⟩
    rw [hst] at h
    cases h
  | ok start =>
    obtain ⟨state, hrep, hst⟩ := hmak
    obtain ⟨-, -, happd, hst'⟩ := handleUnprocessed_ok hash hcnt hst
    have hrep' : replay P hash start (handleUnprocessed P hash pv).applied.reverse =
        replay P hash state ((batch P hash state (pv.pending.map snd)).map fst) := by
      rw [happd, reverse_append, reverse_reverse, replay_append, hrep, Option.bind_some]
    constructor
    · rintro ⟨final, hfin, hheld⟩ state' h
      obtain rfl := Except.ok.inj (hst.symm.trans h)
      obtain rfl := Except.ok.inj (hst'.symm.trans hheld)
      exact (replay_batch_iff state _).mp (hrep'.symm.trans hfin)
    · intro h
      exact ⟨_, hrep'.trans ((replay_batch_iff state _).mpr (h state hst)), hst'⟩

theorem settled_handleUnprocessed (hmak : InTheMaking hash ⟨pv, created⟩) (hcnt : pv.appliedCount = 0)
    (hbat : ∀ state, pv.validationState = .ok state → (batch P hash state (pv.pending.map snd)).length ≤ 1) :
    Settled hash ⟨handleUnprocessed P hash pv, created⟩ := by
  refine ⟨(making_handleUnprocessed_iff hmak hcnt).mpr hbat, ?_, ?_⟩
  · cases hst : pv.validationState with
    | error err => exact (handleUnprocessed_error hash hst).1.trans hcnt
    | ok state => exact (handleUnprocessed_ok hash hcnt hst).1
  · cases hst : pv.validationState with
    | error err => exact (handleUnprocessed_error hash hst).2.1
    | ok state => exact (handleUnprocessed_ok hash hcnt hst).2.1

/-- The requests other than a flush leave at most one operation pending, and what the mempool is made of as it was. -/
structure Offered (pv pv' : State P O) : Prop where
  applied : pv'.applied = pv.applied
  validationState : pv'.validationState = pv.validationState
  count : pv'.appliedCount = pv.appliedCount
  pending : pv'.pending.length ≤ 1

theorem Settled.of_offered (h : Settled hash s) (hoff : Offered s.pv pv) :
    Settled hash ⟨handleUnprocessed P hash pv, s.created⟩ := by
  refine settled_handleUnprocessed ?_ (hoff.count.trans h.count) fun state _ => ?_
  · have hmak := h.making
    rw [InTheMaking] at hmak ⊢
    rw [hoff.applied, hoff.validationState]
    exact hmak
  · refine Nat.le_trans (length_filterMap_le _ _) ?_
    rw [length_map]
    exact hoff.pending

theorem offered_inject {pv' : State P O} (hpen : pv.pending = []) {op : Operation B}
    (h : onInject P hash pv op = some pv') : Offered pv pv' := by
  rw [onInject] at h
  split at h
  · cases h
    exact ⟨rfl, rfl, rfl, by rw [hpen]; exact Nat.zero_le 1⟩
  · split at h
    · cases h
    · split at h
      · cases h
      · split at h
        · cases h
          exact ⟨rfl, rfl, rfl, by rw [hpen]; exact Nat.le_refl 1⟩
        · cases h

section
variable [DecidableEq B]

variable (hash) in
def trackRequest (s : Tracked P O) (request : Request P O) : Tracked P O where
  pv := onRequest P hash s.pv request
  created := match request with
    | .flush flush => flush.validationState
    | _ => s.created

/-- At most one of the operations that a flush leaves pending is applied by the state it creates. -/
def SingleBatch (hash : Operation B → O) (s : Tracked P O) : Request P O → Prop
  | .flush flush => ∀ state, flush.validationState = .ok state →
      (batch P hash state ((listPendings P hash flush (mempoolOperations P s.pv)).map snd)).length ≤ 1
  | _ => True

theorem offered_arrived (pv : State P O) (hpen : pv.pending = []) (oph : O) (op : Operation B) :
    Offered pv (onOperationArrived P pv oph op) := by
  rw [onOperationArrived]
  split
  · exact ⟨rfl, rfl, rfl, by rw [hpen]; exact Nat.zero_le 1⟩
  · split
    · exact ⟨rfl, rfl, rfl, by rw [hpen]; exact Nat.le_refl 1⟩
    · exact ⟨rfl, rfl, rfl, by rw [hpen]; exact Nat.zero_le 1⟩

theorem making_onFlush (pv : State P O) (flush : Flush P O) :
    InTheMaking hash ⟨onFlush P hash pv flush, flush.validationState⟩ := by
  rw [InTheMaking]
  split
  · next err hst => exact ⟨rfl, hst⟩
  · next start hst => exact ⟨start, rfl, hst⟩

theorem Settled.step (h : Settled hash s) (request : Request P O) (hbat : SingleBatch hash s request) :
    Settled hash (trackRequest hash s request) := by
  have hnone : s.pv.pending.length ≤ 1 := by rw [h.pending]; exact Nat.zero_le 1
  cases request with
  | flush flush => exact settled_handleUnprocessed (making_onFlush _ flush) rfl hbat
  | notify | advertise => exact h.of_offered ⟨rfl, rfl, rfl, hnone⟩
  | inject op =>
    simp only [trackRequest, onRequest]
    split
    · exact h
    · next pv hpv => exact h.of_offered (offered_inject h.pending hpv)
  | arrived oph op => exact h.of_offered (offered_arrived s.pv h.pending oph op)

theorem singleBatch_of_making (request : Request P O) (hmak : InTheMaking hash (trackRequest hash s request)) :
    SingleBatch hash s request := by
  cases request with
  | flush flush => exact (making_handleUnprocessed_iff (making_onFlush (onAdvertise P s.pv) flush) rfl).mp hmak
  | notify mempool => trivial
  | inject op => trivial
  | arrived oph op => trivial
  | advertise => trivial

/-- For every protocol, launch and run of requests: the mempool is a block in the making after every request if, and
    only if, each flush leaves at most one operation that the state it creates applies. -/
theorem inTheMaking_throughout_iff (P : Protocol B) (hash : Operation B → O) (maxRefusedOperations : Nat)
    (size_pos : 0 < maxRefusedOperations) (liveBlocks : Finset B) (liveOperations : Finset O) (knownValid : List O)
    (created : Except (List (Error P.Error)) (T P O)) (requests : List (Request P O)) :
    let launched : Tracked P O :=
      ⟨onLaunch P maxRefusedOperations size_pos liveBlocks liveOperations knownValid created, created⟩
    Throughout (fun before => InTheMaking hash (run (trackRequest hash) launched before)) requests ↔
      StepsMeet (trackRequest hash) launched (SingleBatch hash) requests := by
  intro launched
  have hlaun : Settled hash launched := by
    refine ⟨?_, rfl, rfl⟩
    rw [InTheMaking]
    dsimp only [launched]
    split
    · exact ⟨rfl, rfl⟩
    · exact ⟨_, rfl, rfl⟩
  refine throughout_iff_stepsMeet (fun _ s => Settled hash s) hlaun ?_ ?_ ?_
  · exact fun _ s request h hbat => h.step request hbat
  · exact fun _ h => h.making
  · intro before request _ hmak
    rw [run_append_singleton] at hmak
    exact singleBatch_of_making request hmak

end

/-- A protocol that applies one operation, whichever it is. -/
def onceProtocol : Protocol Unit where
  ValidationState := Bool
  OperationData := Unit
  Receipt := Unit
  Error := Unit
  maxOperationDataLength := 100
  decodeOperationData _ := some ()
  applyOperation spent _ _ := if spent then .error [()] else .ok (true, ())
  acceptablePasses _ _ := [3]
  classifyError _ := .branch

def lengthHash (op : Operation Unit) : Nat := op.proto.length

def freshState : T onceProtocol Nat := ⟨false, [], {()}, ∅⟩

theorem ten_pos : 0 < 10 := Nat.succ_pos 9

def onceLaunched : Tracked onceProtocol Nat :=
  ⟨onLaunch onceProtocol 10 ten_pos {()} ∅ [] (.ok freshState), .ok freshState⟩

/-- A flush that takes a block with these operations off the chain. -/
def reorganisation (popped : List (Operation Unit)) : Request onceProtocol Nat :=
  .flush ⟨{()}, ∅, popped, [], .ok freshState⟩

theorem inTheMaking_throughout_once :
    Throughout (fun before => InTheMaking lengthHash (run (trackRequest lengthHash) onceLaunched before))
        [reorganisation [⟨(), [1]⟩], .inject ⟨(), [1, 2]⟩] ↔
      StepsMeet (trackRequest lengthHash) onceLaunched (SingleBatch lengthHash)
        [reorganisation [⟨(), [1]⟩], .inject ⟨(), [1, 2]⟩] :=
  inTheMaking_throughout_iff onceProtocol lengthHash 10 (Nat.succ_pos 9) {()} ∅ [] (.ok freshState)
    [reorganisation [⟨(), [1]⟩], .inject ⟨(), [1, 2]⟩]

/-- A flush that leaves two operations of which only one can be applied: both are listed as applied. -/
theorem not_inTheMaking_reorganisation : ¬InTheMaking lengthHash
      (run (trackRequest lengthHash) onceLaunched [reorganisation [⟨(), [1]⟩, ⟨(), [1, 2]⟩]]) := by
  rintro ⟨state, hrep, -⟩
  exact absurd hrep (by rintro ⟨⟩)

end Tezos.Prevalidator
