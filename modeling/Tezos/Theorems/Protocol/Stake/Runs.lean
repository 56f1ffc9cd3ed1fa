import Tezos.Lib.Runs
import Tezos.Theorems.Protocol.Stake.Cycles

/-! In every context that is reached, the rolls are partitioned, and with the change of a delegate they are worth its
    stake. -/

namespace Tezos.Protocol
open Lib DelegateStorage ContractStorage List

variable {p : Primitives} {ctxt ctxt' : Context p} {action : Action p}

theorem perform_sound (h : Sound ctxt) (hprom : action.Promised ctxt) (hper : perform ctxt action = .ok ctxt') :
    Sound ctxt' := by
  cases action with
  | credit => exact credit_sound h hper
  | spend => exact spendFromScript_sound h (spend_eq_ok hper)
  | spendFromScript => exact spendFromScript_sound h hper
  | originate =>
    refine createBase_sound h (fun d heq => ?_) hper
    cases heq
  | setDelegate => exact set_sound h hper
  | setDelegateFromScript => exact setFromScript_sound h hper
  | reveal => exact revealManagerKey_sound h hper
  | freezeDeposit => exact freezeDeposit_sound h hprom hper
  | freezeFees => exact freezeFees_sound h hprom hper
  | freezeRewards => exact freezeRewards_sound h hprom hper
  | burnFees => exact burnFees_sound h hper
  | burnRewards =>
    cases hper
    exact burnRewards_sound h
  | unfreeze =>
    obtain ⟨⟨ctxt₁, updates⟩, hunf, hper⟩ := bind_eq_ok.mp hper
    cases hper
    exact unfreeze_sound h hunf
  | punish =>
    obtain ⟨⟨ctxt₁, balance⟩, hpun, hper⟩ := bind_eq_ok.mp hper
    cases hper
    exact punish_sound h hpun
  | setActive => exact setActive_sound h hper
  | setInactive => exact setInactive_sound h hper
  | snapshotRolls => exact snapshotRolls_sound h hper
  | rollCycleEnd => exact rollCycleEnd_sound h hper
  | cycleEnd unrevealed level =>
    obtain ⟨⟨ctxt₁, updates, deactivated⟩, hend, hper⟩ := bind_eq_ok.mp hper
    have hset := cycleEnd_settled h hend
    have hlvl : ctxt₁.level = ctxt.level := congrArg Prod.fst (cycleEnd_standing hend)
    have hnext : level.cycle = ctxt₁.level.cycle + 1 := by
      rw [hlvl]
      exact hprom
    cases hper
    rw [← hlvl] at hset
    exact hset.next_cycle hnext
  | nextLevel level =>
    cases hper
    exact h.next_level hprom
  | setGas gas =>
    cases hper
    exact h

theorem perform_safe (h : Sound ctxt) : Safe (perform ctxt action) := by
  cases action with
  | credit => exact credit_safe
  | spend => exact spend_safe h
  | spendFromScript => exact spendFromScript_safe h
  | originate => exact createBase_safe
  | setDelegate => exact setBase_safe h
  | setDelegateFromScript hash delegate =>
    change Safe (setFromScript ctxt (.originated hash) delegate)
    exact setBase_safe h
  | reveal => exact revealManagerKey_safe
  | freezeDeposit => exact freezeDeposit_safe
  | freezeFees => exact freezeFees_safe
  | freezeRewards => exact freezeRewards_safe
  | burnFees => exact burnFees_safe h
  | burnRewards => exact .ok
  | unfreeze => exact .bind unfreeze_safe fun _ _ => .ok
  | punish => exact .bind (punish_safe h) fun _ _ => .ok
  | setActive => exact .bind Rolls.setActive_safe fun _ _ => .ok
  | setInactive => exact .bind h.balanced.setInactive_safe fun _ _ => .ok
  | snapshotRolls => exact snapshotRolls_safe
  | rollCycleEnd => exact rollCycleEnd_safe
  | cycleEnd => exact .bind (cycleEnd_safe h) fun _ _ => .ok
  | nextLevel => exact .ok
  | setGas => exact .ok

variable (base : Context p)

def beforeBootstrap : Context p := { base with context := .empty p }

theorem beforeBootstrap_sound : Sound (beforeBootstrap base) := by
  have hlis : Rolls.Kept (beforeBootstrap base).rollEnv (beforeBootstrap base).context.rolls fun _ => [] := by
    refine ⟨⟨⟨fun i => ?_, fun _ => nodup_nil, fun _ _ x hx => by simp at hx⟩, fun x => ?_, fun _ _ => rfl,
      fun x pk => ?_,
      fun d hne => absurd rfl hne⟩, fun d => ⟨fun hne => absurd rfl hne, fun _ => rfl, fun hne => absurd rfl hne,
      fun cycle hfind => ?_⟩, fun d => ⟨fun hmem => ?_, fun _ hpos => hpos⟩⟩
    · cases i <;> exact .nil
    · exact ⟨fun hlt => absurd hlt (Nat.not_lt_zero x), by simp⟩
    · simp [beforeBootstrap, Storage.empty]
    · cases hfind
    · cases hmem
  refine ⟨⟨?_, ?_, ?_, ?_, ?_, ?_, ?_⟩, fun _ _ => rfl, fun _ _ => rfl, fun _ _ => rfl, fun _ => [], hlis,
    fun _ => Rolls.worthOf_nil⟩
  all_goals
    simp_all [Context.accounts, beforeBootstrap, Storage.empty, Store.mem]

theorem run_sound {actions : List (Action p)}
    (h : StepsMeet accountingStep (beforeBootstrap base) (fun ctxt action => action.Promised ctxt) actions) :
    Sound (run accountingStep (beforeBootstrap base) actions) := by
  refine inv_of_stepsMeet (fun _ ctxt => Sound ctxt) (beforeBootstrap_sound base) (fun _ ctxt action hsnd hprom => ?_) h
  unfold accountingStep
  split
  · rename_i ctxt' hper
    exact perform_sound hsnd hprom hper
  · exact hsnd

/-- Rolls, levels and cycles are 32-bit integers in the code and natural numbers here. The roll to be created, the level and
    the cycles that are counted from the current one are in the bounds of both. -/
structure Context.Bounded (ctxt : Context p) : Prop where
  roll : ctxt.context.rolls.next + 1 < 2 ^ 31
  level : ctxt.level.level + 1 < 2 ^ 31
  cycle : ctxt.level.cycle + (2 * ctxt.constants.preservedCycles + 3) < 2 ^ 31

/-- Within the bounds, the successors of a roll and of a level, and the sums of the cycle and the delays that the code adds
    to it, are the same in 32 bits. -/
theorem Context.Bounded.agrees (h : ctxt.Bounded) :
    int32 (ctxt.context.rolls.next + 1) = ctxt.context.rolls.freshRoll.2.next ∧
      int32 (ctxt.level.level + 1) = (ctxt.level.level + 1 : Nat) ∧
      ∀ delay ≤ 2 * ctxt.constants.preservedCycles + 3,
        int32 (ctxt.level.cycle + delay) = (ctxt.level.cycle + delay : Nat) := by
  obtain ⟨hroll, hlvl, hcyc⟩ := h
  refine ⟨int32_eq_self ?_ ?_, int32_eq_self ?_ ?_, fun delay hle => int32_eq_self ?_ ?_⟩
  all_goals omega

/-- The lists of rolls that start from the limbo and from each delegate, along the successors, have no roll in common
    and contain the rolls given out so far. The owner of a roll is the revealed key of the delegate whose list it is
    in. So the walks over the rolls of a delegate end, and `fold` visits each owned roll once. -/
theorem rolls_partitioned (actions : List (Action p))
    (h : StepsMeet accountingStep (beforeBootstrap base) (fun ctxt action => action.Promised ctxt) actions) :
    let ctxt := run accountingStep (beforeBootstrap base) actions
    let rolls := ctxt.context.rolls
    ∃ lists : Option p.PublicKeyHash → List Nat,
      Follows rolls.successor.find? rolls.limbo (lists none) ∧
      (∀ d, Follows rolls.successor.find? (rolls.delegateRollList.find? d) (lists (some d))) ∧
      (∀ i, (lists i).Nodup) ∧ (∀ i j roll, roll ∈ lists i → roll ∈ lists j → i = j) ∧
      (∀ roll, roll < rolls.next ↔ ∃ i, roll ∈ lists i) ∧
      (∀ roll, rolls.owner.mem roll = true ↔ ∃ d, roll ∈ lists (some d)) ∧
      (∀ roll d, roll ∈ lists (some d) → ∃ pk, rolls.owner.find? roll = some pk ∧
        ctxt.context.contracts.manager.find? (.implicit d) = some (.publicKey pk)) ∧
      (∀ d, rolls.getRolls d = .ok (lists (some d)) ∧ rolls.countRolls d = .ok (lists (some d)).length) ∧
      ∃ visited : List (Nat × p.PublicKey), (visited.map Prod.fst).Nodup ∧
        (∀ roll pk, (roll, pk) ∈ visited ↔ rolls.owner.find? roll = some pk) ∧
        ∀ (α : Type) (f : Nat → p.PublicKey → α → Result p α) (init : α),
          rolls.fold f init = visited.foldlM (fun acc owned => f owned.1 owned.2 acc) init := by
  intro ctxt rolls
  obtain ⟨lists, hkept, -⟩ := (run_sound base h).balanced
  have hheld := hkept.held
  have hown : ∀ roll d, roll ∈ lists (some d) → ∃ pk, rolls.owner.find? roll = some pk ∧
      ctxt.context.contracts.manager.find? (.implicit d) = some (.publicKey pk) := by
    intro roll d hroll
    have hsome := hheld.known d (ne_nil_of_mem hroll)
    obtain ⟨pk, hfind⟩ := key_isSome hsome
    refine ⟨pk, (hheld.owner roll pk).mpr ⟨d, hroll, ?_⟩, hfind⟩
    simp only [RollEnv.key, rollEnvOf, hfind]
  refine ⟨lists, hheld.threaded.follows none, fun d => hheld.threaded.follows (some d), hheld.threaded.nodup,
    hheld.threaded.disjoint, hheld.below, fun roll => ⟨fun hmem => ?_, fun hroll => ?_⟩, hown,
    fun d => ⟨hheld.getRolls_eq d, hheld.countRolls_eq d⟩, rolls.ownedFrom 0 rolls.next, ?_, fun roll pk => ?_,
    fun α f init => rolls.foldFrom_eq f rolls.next 0 init⟩
  · obtain ⟨pk, hfind⟩ := Option.isSome_iff_exists.mp hmem
    obtain ⟨d, hroll, -⟩ := (hheld.owner roll pk).mp hfind
    exact ⟨d, hroll⟩
  · obtain ⟨d, hroll⟩ := hroll
    exact hheld.owned hroll
  · refine Nodup.map_on (fun owned hmem owned' hmem' heq => ?_) (Rolls.nodup_ownedFrom rolls 0 rolls.next)
    obtain ⟨roll, pk⟩ := owned
    obtain ⟨roll', pk'⟩ := owned'
    obtain rfl : roll = roll' := heq
    have hfind := (Rolls.mem_ownedFrom.mp hmem).2.symm.trans (Rolls.mem_ownedFrom.mp hmem').2
    rw [Option.some_inj.mp hfind]
  · rw [Rolls.mem_ownedFrom]
    refine ⟨fun hmem => hmem.2, fun hfind => ⟨⟨Nat.zero_le roll, ?_⟩, hfind⟩⟩
    obtain ⟨d, hroll, -⟩ := (hheld.owner roll pk).mp hfind
    rw [zero_add]
    exact (hheld.below roll).mpr ⟨some d, hroll⟩

/-- A baker's account is created, its key revealed, and it registers as a delegate. -/
def bootstrapAccount (baker : Nat) (amount : Tez) : List (Action .numbers) :=
  [.credit (.implicit baker) amount, .reveal (.implicit baker) baker, .setDelegate (.implicit baker) (some baker)]

/-- Two bakers register. A deposit of the first one is frozen before the cycle ends. -/
def firstCycle : List (Action .numbers) :=
  bootstrapAccount 1 (.ofMutez 25) ++ bootstrapAccount 2 (.ofMutez 12) ++
    [.freezeDeposit (1 : Nat) (.ofMutez 5), .cycleEnd [] (.fromRaw .small 1 5)]

theorem firstCycle_promised : StepsMeet accountingStep (beforeBootstrap (.small (.empty .numbers)))
    (fun ctxt action => action.Promised ctxt) firstCycle := by
  simp only [firstCycle, bootstrapAccount, cons_append, nil_append, stepsMeet_cons, stepsMeet_nil, Action.Promised,
    true_and,
    and_true]
  exact ⟨.inl (by decide +kernel), by decide +kernel⟩

theorem rolls_partitioned_bootstrap :
    let ctxt := run accountingStep (beforeBootstrap (.small (.empty .numbers))) firstCycle
    ctxt.level.cycle = 1 ∧ ctxt.context.rolls.next = 3 ∧
      ∃ lists : Option Nat → List Nat, (∀ roll, roll < ctxt.context.rolls.next ↔ ∃ i, roll ∈ lists i) ∧
        ctxt.context.rolls.countRolls (1 : Nat) = .ok (lists (some 1)).length := by
  refine ⟨by decide +kernel, by decide +kernel, ?_⟩
  obtain ⟨lists, -, -, -, -, hbel, -, -, hcnt, -⟩ := rolls_partitioned _ _ firstCycle_promised
  exact ⟨lists, hbel, (hcnt (1 : Nat)).2⟩

/-- A delegate has rolls if, and only if, it is listed as active, and then it is not inactive. The change of one that is
    not inactive is less than a roll. -/
theorem activity_consistent (actions : List (Action p))
    (h : StepsMeet accountingStep (beforeBootstrap base) (fun ctxt action => action.Promised ctxt) actions) :
    let ctxt := run accountingStep (beforeBootstrap base) actions
    0 < ctxt.constants.tokensPerRoll.mutez → ∀ d, ∃ rolls, ctxt.context.rolls.countRolls d = .ok rolls ∧
      (RollStorage.isInactive ctxt d = false →
        (ctxt.context.rolls.getChange d).mutez < ctxt.constants.tokensPerRoll.mutez) ∧
      (RollStorage.isInactive ctxt d = true → rolls = 0) ∧
      (ctxt.context.rolls.activeDelegatesWithRolls.mem d = true ↔ 1 ≤ rolls) := by
  intro ctxt hpos d
  obtain ⟨lists, hkept, -⟩ := (run_sound base h).balanced
  refine ⟨_, hkept.held.countRolls_eq d, fun hact => (hkept.tidy d).below hact hpos,
    fun hinact => length_eq_zero_iff.mpr ((hkept.sound d).inactive hinact), ?_⟩
  rw [Nat.one_le_iff_ne_zero, ne_eq, length_eq_zero_iff]
  exact ⟨(hkept.tidy d).unlisted, (hkept.sound d).listed⟩

theorem activity_consistent_bootstrap :
    let ctxt := run accountingStep (beforeBootstrap (.small (.empty .numbers))) firstCycle
    ctxt.context.rolls.activeDelegatesWithRolls.mem (1 : Nat) = true ∧
      (ctxt.context.rolls.getChange (1 : Nat)).mutez < ctxt.constants.tokensPerRoll.mutez := by
  obtain ⟨rolls, -, hchg, -⟩ := activity_consistent _ _ firstCycle_promised (by decide +kernel) (1 : Nat)
  exact ⟨by decide +kernel, hchg (by decide +kernel)⟩

/-! ### The stake -/

/-- The balances of the contracts whose delegate is the given one, with the deposits and the fees it has frozen. -/
def stakeOf (ctxt : Context p) (d : p.PublicKeyHash) : Nat :=
  (ctxt.context.contracts.balance.sum fun contract balance =>
      if ctxt.context.contracts.delegate.find? contract = some d then balance.mutez else 0) +
    frozenOf ctxt.context.frozen.deposits d + frozenOf ctxt.context.frozen.fees d

section Stake
variable {d : p.PublicKeyHash} {t : Tez}

theorem Sound.counted (h : Sound ctxt) (d : p.PublicKeyHash) :
    ∃ rolls, ctxt.context.rolls.getRolls d = .ok rolls ∧ ctxt.context.rolls.countRolls d = .ok rolls.length ∧
      ((rolls.length : Int) < 2 ^ 64 ∨ 0 < ctxt.constants.tokensPerRoll.mutez) ∧
      rolls.length * ctxt.constants.tokensPerRoll.mutez + (ctxt.context.rolls.getChange d).mutez = stakeOf ctxt d := by
  obtain ⟨lists, hkept, hwth⟩ := h.balanced
  refine ⟨lists (some d), hkept.held.getRolls_eq d, hkept.held.countRolls_eq d, ?_, hwth d⟩
  by_cases hemp : lists (some d) = []
  · simp [hemp]
  · exact .inr ((hkept.sound d).priced hemp)

theorem Sound.stakingBalance_eq (h : Sound ctxt) (hstak : stakingBalance ctxt d = .ok t) :
    t.mutez = stakeOf ctxt d := by
  obtain ⟨rolls, hrl, -, hpric, hwth⟩ := h.counted d
  rw [stakingBalance, hrl, ok_bind] at hstak
  obtain ⟨balance, hmul, hstak⟩ := bind_eq_ok.mp hstak
  have hadd := Tez.add?_eq_ok.mp (liftM_tez_eq_ok.mp hstak)
  rw [hadd, Tez.mul?_ok hpric (liftM_tez_eq_ok.mp hmul), Int.toNat_natCast, mul_comm]
  exact hwth

theorem Sound.exists_stakingBalance (h : Sound ctxt) (hstk : 2 * stakeOf ctxt d < 2 ^ 63) :
    ∃ t, stakingBalance ctxt d = .ok t := by
  obtain ⟨rolls, hrl, -, hpric, hwth⟩ := h.counted d
  rw [mul_comm] at hwth
  obtain ⟨balance, hmul⟩ :=
    Tez.exists_mul? (t := ctxt.constants.tokensPerRoll) (n := rolls.length) (by omega) (by omega)
  have hprod := Tez.mul?_ok hpric hmul
  rw [Int.toNat_natCast] at hprod
  obtain ⟨t, hadd, -⟩ := Tez.exists_add? balance (ctxt.context.rolls.getChange d) (by omega)
  refine ⟨t, ?_⟩
  rw [stakingBalance, hrl, ok_bind, liftM_tez_eq_ok.mpr hmul, ok_bind]
  exact liftM_tez_eq_ok.mpr hadd

variable {init : Tez} {amounts : Store (p.PublicKeyHash ×ₗ Nat) Tez}

theorem addFrozen_list (l : List ((p.PublicKeyHash ×ₗ Nat) × Tez))
    (h : (l.filter fun binding => (ofLex binding.1).1 = d).foldlM (fun acc binding => ofTez (acc.add? binding.2)) init =
      (.ok t : Result p Tez)) :
    t.mutez = init.mutez + (l.map fun binding => if (ofLex binding.1).1 = d then binding.2.mutez else 0).sum := by
  induction l generalizing init with
  | nil =>
    cases h
    rfl
  | cons binding l ih =>
    rw [map_cons, sum_cons]
    by_cases heq : (ofLex binding.1).1 = d
    · rw [filter_cons_of_pos (by simpa using heq), foldlM_cons] at h
      obtain ⟨acc, hadd, h⟩ := bind_eq_ok.mp h
      have hsum := Tez.add?_eq_ok.mp (liftM_tez_eq_ok.mp hadd)
      rw [ih h, hsum, if_pos heq, add_assoc]
    · rw [filter_cons_of_neg (by simpa using heq)] at h
      rw [ih h, if_neg heq, zero_add]

theorem addFrozen_eq_ok (h : addFrozen amounts d init = .ok t) :
    t.mutez = init.mutez + frozenOf amounts d := addFrozen_list amounts.bindings h

theorem addFrozen_safe : Safe (addFrozen amounts d init) :=
  .foldlM (fun _ => True) (fun _ _ _ _ _ => trivial) (fun _ _ _ => .add) trivial

theorem Sound.stakingBalance_safe (h : Sound ctxt) : Safe (stakingBalance ctxt d) := by
  obtain ⟨rolls, hrl, -⟩ := h.counted d
  rw [stakingBalance, hrl, ok_bind]
  refine .bind (fun stop hmul => ?_) fun _ _ => .add
  obtain ⟨errors, herrs, rfl⟩ := liftM_tez_eq_error.mp hmul
  obtain ⟨t₁, t₂, rfl⟩ := Tez.mul?_error herrs
  rintro ⟨error, heq, -⟩
  cases heq

theorem delegatedBalance_safe (h : Sound ctxt) (hreg : registered ctxt d = true) : Safe (delegatedBalance ctxt d) := by
  refine .bind h.stakingBalance_safe fun staking hstak => .bind .getKey fun balance hbal => ?_
  refine .bind addFrozen_safe fun deposits hdep => .bind addFrozen_safe fun fees hfees => fun stop hsub => ?_
  have hself : ctxt.context.contracts.delegate.find? (.implicit d) = some d := h.registry.find?_self hreg
  obtain ⟨errors, hsub, -⟩ := liftM_tez_eq_error.mp hsub
  have hlt := (Tez.sub?_eq_error.mp hsub).1
  have hle := Store.le_sum
    (f := fun contract balance => if ctxt.context.contracts.delegate.find? contract = some d then balance.mutez else 0)
    (getKey_eq_ok.mp hbal)
  rw [if_pos hself] at hle
  rw [h.stakingBalance_eq hstak, stakeOf, addFrozen_eq_ok hfees, addFrozen_eq_ok hdep] at hlt
  omega

/-- The rolls of a registered delegate, each counted for what a roll is worth, and its change add up to its stake.
    What is removed from a stake is always there, and what a delegate owns itself is part of its stake. -/
theorem stake_accounted (base : Context p) (actions : List (Action p))
    (h : StepsMeet accountingStep (beforeBootstrap base) (fun ctxt action => action.Promised ctxt) actions) :
    let ctxt := run accountingStep (beforeBootstrap base) actions
    (∀ d, registered ctxt d = true →
      (∃ rolls, ctxt.context.rolls.countRolls d = .ok rolls ∧
        rolls * ctxt.constants.tokensPerRoll.mutez + (ctxt.context.rolls.getChange d).mutez = stakeOf ctxt d) ∧
      (∀ t, stakingBalance ctxt d = .ok t → t.mutez = stakeOf ctxt d) ∧
      (2 * stakeOf ctxt d < 2 ^ 63 → ∃ t, stakingBalance ctxt d = .ok t) ∧
      ∀ stop, delegatedBalance ctxt d = .error stop → ¬Underflow stop) ∧
    ∀ action stop, perform ctxt action = .error stop → ¬Underflow stop := by
  intro ctxt
  have hsnd : Sound ctxt := run_sound base h
  refine ⟨fun d hreg => ⟨?_, fun t => hsnd.stakingBalance_eq, hsnd.exists_stakingBalance,
    delegatedBalance_safe hsnd hreg⟩, fun action => perform_safe hsnd⟩
  obtain ⟨rolls, -, hcnt, -, hwth⟩ := hsnd.counted d
  exact ⟨rolls.length, hcnt, hwth⟩

theorem stake_accounted_bootstrap :
    let ctxt := run accountingStep (beforeBootstrap (.small (.empty .numbers))) firstCycle
    registered ctxt (1 : Nat) = true ∧ stakeOf ctxt (1 : Nat) = 25 ∧
      frozenOf ctxt.context.frozen.deposits (1 : Nat) = 5 ∧
      ∃ rolls, ctxt.context.rolls.countRolls (1 : Nat) = .ok rolls ∧
        rolls * 10 + (ctxt.context.rolls.getChange (1 : Nat)).mutez = stakeOf ctxt (1 : Nat) := by
  have hreg : registered (run accountingStep (beforeBootstrap (.small (.empty .numbers))) firstCycle)
      (1 : Nat) = true := by decide +kernel
  exact ⟨hreg, by decide +kernel, by decide +kernel, ((stake_accounted _ _ firstCycle_promised).1 _ hreg).1⟩

end Stake

end Tezos.Protocol
