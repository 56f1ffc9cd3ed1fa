import Tezos.Protocol.ContractStorage

/-! What the operations on contracts and delegates do to the accounts: the balances, the managers, the delegates and
    the rolls. -/

namespace Tezos.Protocol
open Lib RollStorage Metered.Meets Metered Rolls Protocol

variable {p : Primitives}

structure Accounts (p : Primitives) where
  balance : Store (Contract p) Tez
  manager : Store (Contract p) (Manager p)
  delegate : Store (Contract p) p.PublicKeyHash
  rolls : Rolls p

structure Counters (p : Primitives) where
  globalCounter : Nat
  counter : Store (Contract p) Nat

/-- What the operations on contracts leave as it is, save the counters of those they create and delete. -/
structure Rest (p : Primitives) where
  frozen : Frozen p
  constants : Constants
  level : Level
  deposits : Store p.PublicKeyHash Tez
  fees : Tez
  counters : Counters p

def Context.accounts (ctxt : Context p) : Accounts p :=
  ⟨ctxt.context.contracts.balance, ctxt.context.contracts.manager, ctxt.context.contracts.delegate,
    ctxt.context.rolls⟩

def Context.rest (ctxt : Context p) : Rest p :=
  ⟨ctxt.context.frozen, ctxt.constants, ctxt.level, ctxt.deposits, ctxt.fees,
    ⟨ctxt.context.contracts.globalCounter, ctxt.context.contracts.counter⟩⟩

/-- What is left when the counter of a contract is deleted. -/
def Context.restWithout (ctxt : Context p) (contract : Contract p) : Rest p :=
  { ctxt.rest with counters.counter := ctxt.context.contracts.counter.remove contract }

def Same (ctxt ctxt' : Context p) : Prop := ctxt'.accounts = ctxt.accounts ∧ ctxt'.rest = ctxt.rest

namespace Same
variable {ctxt ctxt' : Context p}

theorem refl (ctxt : Context p) : Same ctxt ctxt := ⟨rfl, rfl⟩

variable (h : Same ctxt ctxt')
include h

theorem balance : ctxt'.context.contracts.balance = ctxt.context.contracts.balance :=
  congrArg Accounts.balance h.1

theorem manager : ctxt'.context.contracts.manager = ctxt.context.contracts.manager :=
  congrArg Accounts.manager h.1

theorem delegate : ctxt'.context.contracts.delegate = ctxt.context.contracts.delegate :=
  congrArg Accounts.delegate h.1

theorem rolls : ctxt'.context.rolls = ctxt.context.rolls := congrArg Accounts.rolls h.1

end Same

variable {ctxt ctxt' : Context p}

theorem rollEnv_congr (hman : ctxt'.context.contracts.manager = ctxt.context.contracts.manager)
    (hrest : ctxt'.rest = ctxt.rest) : ctxt'.rollEnv = ctxt.rollEnv := by
  have hcons : ctxt'.constants = ctxt.constants := congrArg Rest.constants hrest
  have hlvl : ctxt'.level = ctxt.level := congrArg Rest.level hrest
  rw [Context.rollEnv, Context.rollEnv, hman, hcons, hlvl]

/-! ### Errors -/

/-- There is no roll left to break up, or the change is less than the amount. -/
def Error.isUnderflow : Error p → Bool
  | .noRollForDelegate => true
  | .tez (.subtractionUnderflow _ _) => true
  | _ => false

/-- How `removeAmount` fails when there is less than the amount. -/
def Underflow (stop : Stop p) : Prop := ∃ error, stop = .errors [error] ∧ error.isUnderflow = true

def Safe (x : Result p α) : Prop := ∀ stop, x = .error stop → ¬Underflow stop

namespace Safe
variable {α : Type} {a : α} {error : Error p}

theorem ok : Safe (.ok a : Result p α) := by
  intro stop h
  cases h

theorem fail (h : error.isUnderflow = false) : Safe (fail error : Result p α) := by
  intro stop hfail
  cases hfail
  rintro ⟨error', heq, hunderflow⟩
  cases heq
  rw [h] at hunderflow
  cases hunderflow

theorem failUnless {condition : Bool} (h : error.isUnderflow = false) : Safe (failUnless condition error) := by
  unfold Protocol.failUnless
  split
  · exact ok
  · exact fail h

theorem exception : Safe (.error .exception : Result p α) := by
  intro stop h
  cases h
  rintro ⟨error, heq, -⟩
  cases heq

section Access
variable {K V : Type} [LinearOrder K] {s : Store K V} {k : K} {v : V}

theorem getKey : Safe (getKey s k : Result p V) := by
  unfold Protocol.getKey
  split
  · exact ok
  · exact fail rfl

theorem setKey : Safe (setKey s k v : Result p _) := by
  unfold Protocol.setKey
  split
  · exact ok
  · exact fail rfl

theorem initKey : Safe (initKey s k v : Result p _) := by
  unfold Protocol.initKey
  split
  · exact fail rfl
  · exact ok

theorem deleteKey : Safe (deleteKey s k : Result p _) := by
  unfold Protocol.deleteKey
  split
  · exact ok
  · exact fail rfl

end Access

end Safe

/-- A computation does not fail for want of stake, and what it gives has a property. -/
abbrev Clean {α : Type} (x : Gassed p α) (Q : α → Prop) : Prop := x.Meets (fun stop => ¬Underflow stop) Q

/-! ### Gas and scripts -/

variable {base : Context p} {script : Option (Script p × Option (BigMapDiff p))}

theorem consumeGas_clean {cost : Cost} (h : Same base ctxt) : Clean (ctxt.consumeGas cost) (Same base) := by
  unfold Context.consumeGas
  split
  · exact ⟨Safe.fail rfl, fun _ hgas => absurd hgas fail_ne_ok⟩
  · refine ⟨Safe.ok, fun _ hgas => ?_⟩
    cases hgas
    exact h

namespace Carbonated

theorem consumeWriteGas_clean {length : Nat} (h : Same base ctxt) : Clean (consumeWriteGas ctxt length) (Same base) :=
  (consumeGas_clean h).bind fun _ h => consumeGas_clean h

theorem forceDecode_clean {lexpr : LazyExpr p} (h : Same base ctxt) :
    Clean (forceDecode ctxt lexpr) fun r => Same base r.2 := by
  unfold forceDecode
  split
  · exact ⟨Safe.fail rfl, fun _ hfail => absurd hfail fail_ne_ok⟩
  · exact (consumeGas_clean h).bind fun _ h => .pure h

end Carbonated

namespace ContractStorage
variable {contract : Contract p} {storage : LazyExpr p} {diff : Option (BigMapDiff p)}

section
variable (h : Same base ctxt)
include h

theorem initCode_clean {code : LazyExpr p} : Clean (initCode ctxt contract code) fun r => Same base r.1 :=
  (consumeGas_clean h).bind fun _ h => (Carbonated.consumeWriteGas_clean h).bind fun _ h =>
    (lift Safe.initKey).bind fun _ _ => .pure h

theorem initStorage_clean : Clean (initStorage ctxt contract storage) fun r => Same base r.1 :=
  (consumeGas_clean h).bind fun _ h => (Carbonated.consumeWriteGas_clean h).bind fun _ h =>
    (lift Safe.initKey).bind fun _ _ => .pure h

theorem setStorage_clean : Clean (setStorage ctxt contract storage) fun r => Same base r.1 :=
  (consumeGas_clean h).bind fun _ h => (Carbonated.consumeWriteGas_clean h).bind fun _ h =>
    (lift Safe.setKey).bind fun _ _ => .pure h

theorem removeCode_clean : Clean (removeCode ctxt contract) (Same base) :=
  (consumeGas_clean h).bind fun _ h => .pure h

theorem removeStorage_clean : Clean (removeStorage ctxt contract) (Same base) :=
  (consumeGas_clean h).bind fun _ h => .pure h

theorem updateScriptBigMap_clean : Clean (updateScriptBigMap ctxt contract diff) fun r => Same base r.1 := by
  rcases diff with _ | diff
  · exact .pure h
  · refine .foldlM (fun acc item h => ?_) h
    unfold updateBigMapItem
    simp only
    split
    · exact (consumeGas_clean h).bind fun _ h => .pure h
    · exact (Carbonated.consumeWriteGas_clean h).bind fun _ h => .pure h

theorem createScript_clean {prepaid : Bool} : Clean (createScript ctxt prepaid contract script) (Same base) := by
  have hspac : ∀ (ctxt : Context p) (paid used : Int), Same base ctxt → Clean (do
      let paid ← (initKey ctxt.context.contracts.paidStorageSpace contract paid : Result p _)
      let used ← (initKey ctxt.context.contracts.usedStorageSpace contract used : Result p _)
      return { ctxt with
        context.contracts.paidStorageSpace := paid, context.contracts.usedStorageSpace := used } :
      Gassed p (Context p)) (Same base) :=
    fun ctxt paid used h => (lift Safe.initKey).bind fun _ _ =>
      (lift Safe.initKey).bind fun _ _ => .pure h
  unfold createScript
  split
  · refine (initCode_clean h).bind fun _ h => (initStorage_clean h).bind fun _ h =>
      (updateScriptBigMap_clean h).bind fun _ h => ?_
    simp only
    split
    · exact ⟨Safe.exception, fun _ hrais => by cases hrais⟩
    · exact hspac _ _ _ h
  · split
    · exact .pure h
    · exact hspac _ _ _ h

theorem updateScriptStorage_clean {storage : p.Expr} :
    Clean (updateScriptStorage ctxt contract storage diff) (Same base) :=
  (updateScriptBigMap_clean h).bind fun _ h => (setStorage_clean h).bind fun _ h =>
    (lift Safe.getKey).bind fun _ _ => (lift Safe.setKey).bind fun _ _ => .pure h

theorem checkEmptyTransaction_clean {amount : Tez} :
    Clean (checkEmptyTransaction ctxt contract amount) (Same base) := by
  unfold checkEmptyTransaction
  split
  · exact .pure h
  · refine bind ((consumeGas_clean h).bind fun _ h => .pure h) fun r (h : Same base r.1) => ?_
    exact (lift (Safe.failUnless rfl)).bind fun _ _ => .pure h

end

end ContractStorage

/-! ### Delegation -/

def Rolls.addFor (env : RollEnv p) (r : Rolls p) (delegate : Option p.PublicKeyHash) (amount : Tez) :
    Result p (Rolls p) :=
  match delegate with
  | none => .ok r
  | some d => r.addAmount env d amount

def Rolls.removeFor (env : RollEnv p) (r : Rolls p) (delegate : Option p.PublicKeyHash) (amount : Tez) :
    Result p (Rolls p) :=
  match delegate with
  | none => .ok r
  | some d => r.removeAmount env d amount

/-- The delegate of a contract, if it has one, loses an amount. -/
abbrev Unstakes (ctxt : Context p) (contract : Contract p) (amount : Tez) (rolls : Rolls p) : Prop :=
  removeFor ctxt.rollEnv ctxt.context.rolls (ctxt.context.contracts.delegate.find? contract) amount = .ok rolls

variable {contract : Contract p} {amount balance : Tez} {d : p.PublicKeyHash}

theorem withRolls_eq_ok {x : Result p (Rolls p)}
    (h : (do let rolls ← x; return { ctxt with context.rolls := rolls } : Result p (Context p)) = .ok ctxt') :
    ∃ rolls, x = .ok rolls ∧ ctxt' = { ctxt with context.rolls := rolls } := by
  obtain ⟨rolls, hrl, h⟩ := bind_eq_ok.mp h
  cases h
  exact ⟨rolls, hrl, rfl⟩

theorem RollStorage.addAmount_eq_ok (h : addAmount ctxt d amount = .ok ctxt') :
    ∃ rolls, Rolls.addAmount ctxt.rollEnv ctxt.context.rolls d amount = .ok rolls ∧
      ctxt' = { ctxt with context.rolls := rolls } := withRolls_eq_ok h

theorem RollStorage.removeAmount_eq_ok (h : removeAmount ctxt d amount = .ok ctxt') :
    ∃ rolls, Rolls.removeAmount ctxt.rollEnv ctxt.context.rolls d amount = .ok rolls ∧
      ctxt' = { ctxt with context.rolls := rolls } := withRolls_eq_ok h

theorem RollStorage.setActive_eq_ok (h : setActive ctxt d = .ok ctxt') :
    ∃ rolls, Rolls.setActive ctxt.rollEnv ctxt.context.rolls d = .ok rolls ∧
      ctxt' = { ctxt with context.rolls := rolls } := withRolls_eq_ok h

theorem RollStorage.setInactive_eq_ok (h : setInactive ctxt d = .ok ctxt') :
    ∃ rolls, Rolls.setInactive ctxt.rollEnv ctxt.context.rolls d = .ok rolls ∧
      ctxt' = { ctxt with context.rolls := rolls } := withRolls_eq_ok h

theorem RollStorage.Contract.addAmount_eq_ok (h : Contract.addAmount ctxt contract amount = .ok ctxt') :
    ∃ rolls, addFor ctxt.rollEnv ctxt.context.rolls (ctxt.context.contracts.delegate.find? contract) amount =
      .ok rolls ∧ ctxt' = { ctxt with context.rolls := rolls } := by
  unfold Contract.addAmount getContractDelegate at h
  split at h
  · rename_i hnone
    cases h
    exact ⟨ctxt.context.rolls, by rw [hnone, addFor], rfl⟩
  · rename_i d hsome
    rw [hsome]
    exact RollStorage.addAmount_eq_ok h

theorem RollStorage.Contract.removeAmount_eq_ok (h : Contract.removeAmount ctxt contract amount = .ok ctxt') :
    ∃ rolls, Unstakes ctxt contract amount rolls ∧ ctxt' = { ctxt with context.rolls := rolls } := by
  unfold Contract.removeAmount getContractDelegate at h
  split at h
  · rename_i hnone
    cases h
    exact ⟨ctxt.context.rolls, by rw [Unstakes, hnone, removeFor], rfl⟩
  · rename_i d hsome
    simp only [Unstakes, hsome]
    exact RollStorage.removeAmount_eq_ok h

namespace DelegateStorage

theorem link_eq_ok (h : link ctxt contract d balance = .ok ctxt') :
    ∃ rolls delegated, addAmount ctxt.rollEnv ctxt.context.rolls d balance = .ok rolls ∧
      ctxt' = { ctxt with context.rolls := rolls, context.contracts.delegated := delegated } := by
  obtain ⟨ctxt₁, hadd, h⟩ := bind_eq_ok.mp h
  obtain ⟨rolls, hrl, rfl⟩ := addAmount_eq_ok hadd
  split at h <;> cases h <;> exact ⟨rolls, _, hrl, rfl⟩

theorem unlink_eq_ok (h : unlink ctxt contract balance = .ok ctxt') :
    ∃ rolls delegated, Unstakes ctxt contract balance rolls ∧
      ctxt' = { ctxt with context.rolls := rolls, context.contracts.delegated := delegated } := by
  unfold unlink at h
  split at h
  · rename_i hnone
    cases h
    exact ⟨ctxt.context.rolls, _, by rw [Unstakes, hnone, removeFor], rfl⟩
  · rename_i d hsome
    obtain ⟨ctxt₁, hrem, h⟩ := bind_eq_ok.mp h
    obtain ⟨rolls, hrl, rfl⟩ := removeAmount_eq_ok hrem
    simp only [Unstakes, hsome]
    split at h <;> cases h <;> exact ⟨rolls, _, hrl, rfl⟩

theorem init_eq_ok (h : init ctxt contract d = .ok ctxt') :
    ∃ balance rolls, known ctxt d = true ∧ registered ctxt d = true ∧
      ctxt.context.contracts.delegate.mem contract = false ∧
      ctxt.context.contracts.balance.find? contract = some balance ∧
      addAmount ctxt.rollEnv ctxt.context.rolls d balance = .ok rolls ∧
      ctxt'.accounts = { ctxt.accounts with
        delegate := ctxt.context.contracts.delegate.add contract d, rolls := rolls } ∧
      ctxt'.rest = ctxt.rest := by
  obtain ⟨_, hkn, h⟩ := bind_eq_ok.mp h
  obtain ⟨_, hreg, h⟩ := bind_eq_ok.mp h
  obtain ⟨hnew, h⟩ := initKey_bind_ok.mp h
  obtain ⟨balance, hbal, h⟩ := getKey_bind_ok.mp h
  obtain ⟨rolls, delegated, hrl, rfl⟩ := link_eq_ok h
  exact ⟨balance, rolls, failUnless_eq_ok.mp hkn, failUnless_eq_ok.mp hreg, hnew, hbal,
    hrl, rfl, rfl⟩

variable {delegatable : Context p → Contract p → Bool}

theorem setBase_none_eq_ok (h : setBase ctxt delegatable contract none = .ok ctxt') :
    ∃ hash balance rolls, contract = .originated hash ∧
      ctxt.context.contracts.balance.find? contract = some balance ∧
      Unstakes ctxt contract balance rolls ∧
      ctxt'.accounts = { ctxt.accounts with
        delegate := ctxt.context.contracts.delegate.remove contract, rolls := rolls } ∧
      ctxt'.rest = ctxt.rest := by
  unfold setBase at h
  cases contract with
  | implicit pkh => cases h
  | originated hash =>
    simp only [Contract.isImplicit] at h
    split at h
    · obtain ⟨balance, hbal, h⟩ := getKey_bind_ok.mp h
      obtain ⟨ctxt₁, hunl, h⟩ := bind_eq_ok.mp h
      obtain ⟨rolls, delegated, hrl, rfl⟩ := unlink_eq_ok hunl
      cases h
      exact ⟨hash, balance, rolls, rfl, hbal, hrl, rfl, rfl⟩
    · cases h

/-- The delegate is known and registered, unless it registers itself now; who it was delegated to before loses the
    balance, and then it gains it. -/
theorem setBase_some_eq_ok (h : setBase ctxt delegatable contract (some d) = .ok ctxt') :
    ∃ balance r₁ r₂ rolls, known ctxt d = true ∧
      (registered ctxt d = true ∨ contract = .implicit d) ∧
      (delegatable ctxt contract = true ∨ contract = .implicit d) ∧
      ctxt.context.contracts.balance.find? contract = some balance ∧
      Unstakes ctxt contract balance r₁ ∧
      addAmount ctxt.rollEnv r₁ d balance = .ok r₂ ∧
      (rolls = r₂ ∨ setActive ctxt.rollEnv r₂ d = .ok rolls) ∧
      ctxt'.accounts = { ctxt.accounts with
        delegate := ctxt.context.contracts.delegate.add contract d, rolls := rolls } ∧
      ctxt'.rest = ctxt.rest := by
  have hself : isSelfDelegation contract d = true ↔ contract = .implicit d := by
    cases contract <;> simp [isSelfDelegation, Contract.isImplicit]
  unfold setBase at h
  simp only at h
  split at h
  · cases h
  · rename_i hreg
    split at h
    · cases h
    · rename_i hdelegatable
      simp only [Bool.or_eq_true, Bool.not_eq_true', not_or, Bool.not_eq_false, hself] at hreg hdelegatable
      obtain ⟨-, -, h⟩ := bind_eq_ok.mp h
      obtain ⟨-, -, h⟩ := bind_eq_ok.mp h
      obtain ⟨balance, hbal, h⟩ := getKey_bind_ok.mp h
      obtain ⟨ctxt₁, hunl, h⟩ := bind_eq_ok.mp h
      obtain ⟨r₁, delegated₁, hrem, rfl⟩ := unlink_eq_ok hunl
      obtain ⟨ctxt₂, hlink, h⟩ := bind_eq_ok.mp h
      obtain ⟨r₂, delegated₂, hadd, rfl⟩ := link_eq_ok hlink
      split at h
      · obtain ⟨rolls, hact, rfl⟩ := setActive_eq_ok h
        exact ⟨balance, r₁, r₂, rolls, hreg.1, hreg.2, hdelegatable, hbal, hrem,
          hadd, .inr hact, rfl, rfl⟩
      · cases h
        exact ⟨balance, r₁, r₂, r₂, hreg.1, hreg.2, hdelegatable, hbal, hrem,
          hadd, .inl rfl, rfl, rfl⟩

end DelegateStorage

/-! ### Contracts -/

namespace ContractStorage

theorem createBase_eq_ok {prepaid spendable delegatable : Bool} {manager : p.PublicKeyHash}
    {delegate : Option p.PublicKeyHash}
    (h : (createBase ctxt prepaid contract balance manager delegate script spendable delegatable).outcome =
      .ok ctxt') :
    ctxt.context.contracts.balance.mem contract = false ∧ ctxt.context.contracts.manager.mem contract = false ∧
      ∃ ctxt₁, initDelegate { ctxt with
        context.contracts.balance := ctxt.context.contracts.balance.add contract balance
        context.contracts.manager := ctxt.context.contracts.manager.add contract (.hash manager) } contract delegate =
          .ok ctxt₁ ∧ ctxt₁.context.contracts.counter.mem contract = false ∧
        Same { ctxt₁ with
          context.contracts.counter :=
            ctxt₁.context.contracts.counter.add contract (initialCounter ctxt contract) } ctxt' := by
  simp only [createBase, outcome_bind] at h
  obtain ⟨hbal, h⟩ := initKey_bind_ok.mp h
  obtain ⟨hman, h⟩ := initKey_bind_ok.mp h
  obtain ⟨ctxt₁, hdel, h⟩ := bind_eq_ok.mp h
  obtain ⟨hcnt, h⟩ := initKey_bind_ok.mp h
  have hsame := (createScript_clean (.refl _)).gives _ h
  exact ⟨hbal, hman, ctxt₁, hdel, hcnt, hsame⟩

/-- An implicit contract is deleted: its balance, its key and its counter go. -/
abbrev Deleted (ctxt : Context p) (contract : Contract p) (ctxt' : Context p) : Prop :=
  (∃ pkh, contract = .implicit pkh) ∧ ctxt'.accounts = { ctxt.accounts with
    balance := ctxt.context.contracts.balance.remove contract
    manager := ctxt.context.contracts.manager.remove contract } ∧ ctxt'.rest = ctxt.restWithout contract

theorem delete_eq_ok (hdel : ctxt.context.contracts.delegate.find? contract = none)
    (h : (delete ctxt contract).outcome = .ok ctxt') : Deleted ctxt contract ctxt' := by
  cases contract with
  | originated hash => cases h
  | implicit pkh =>
    simp only [delete, Contract.isImplicit, outcome_bind] at h
    obtain ⟨ctxt₁, hrem, hdelete⟩ := bind_eq_ok.mp h
    obtain ⟨balance, -, hunl⟩ := bind_eq_ok.mp hrem
    have hsame : ctxt₁ = ctxt := by
      rw [DelegateStorage.unlink, hdel] at hunl
      exact (Except.ok.inj hunl).symm
    subst hsame
    obtain ⟨-, h⟩ := deleteKey_bind_ok.mp hdelete
    obtain ⟨-, h⟩ := deleteKey_bind_ok.mp h
    obtain ⟨-, h⟩ := deleteKey_bind_ok.mp h
    obtain ⟨ctxt₂, hcode, h⟩ := bind_eq_ok.mp h
    obtain ⟨ctxt₃, hstor, h⟩ := bind_eq_ok.mp h
    have hsame := (removeStorage_clean ((removeCode_clean (.refl _)).gives _ hcode)).gives _ hstor
    cases h
    exact ⟨⟨pkh, rfl⟩, hsame⟩

theorem deleteIfEmpty_eq_ok {newBalance : Tez} (h : (deleteIfEmpty ctxt contract newBalance).outcome = .ok ctxt') :
    ctxt' = ctxt ∨
      (newBalance.mutez = 0 ∧ ctxt.context.contracts.delegate.find? contract = none ∧ Deleted ctxt contract ctxt') := by
  unfold deleteIfEmpty at h
  split at h
  · cases h
    exact .inl rfl
  · rename_i hemp
    split at h
    · cases h
      exact .inl rfl
    · split at h
      · split at h
        · cases h
          exact .inl rfl
        · cases h
      · rename_i hdel
        exact .inr ⟨Nat.eq_zero_of_not_pos hemp, hdel, delete_eq_ok hdel h⟩

/-- The amount leaves the balance and the stake of the delegate; a contract that is emptied may be deleted. -/
theorem spendFromScript_eq_ok (h : (spendFromScript ctxt contract amount).outcome = .ok ctxt') :
    ∃ balance newBalance rolls, ctxt.context.contracts.balance.find? contract = some balance ∧
      newBalance.mutez + amount.mutez = balance.mutez ∧
      Unstakes ctxt contract amount rolls ∧
      (ctxt'.accounts = { ctxt.accounts with
          balance := ctxt.context.contracts.balance.add contract newBalance, rolls := rolls } ∧ ctxt'.rest = ctxt.rest ∨
        (newBalance.mutez = 0 ∧ ctxt.context.contracts.delegate.find? contract = none ∧
          Deleted { ctxt with context.contracts.balance := ctxt.context.contracts.balance.add contract newBalance
                              context.rolls := rolls } contract ctxt')) := by
  simp only [spendFromScript, outcome_bind] at h
  obtain ⟨balance, hbal, h⟩ := getKey_bind_ok.mp h
  split at h
  · cases h
  · rename_i newBalance hsub
    simp only [outcome_bind] at h
    obtain ⟨-, h⟩ := setKey_bind_ok.mp h
    obtain ⟨ctxt₁, hrem, h⟩ := bind_eq_ok.mp h
    obtain ⟨rolls, hrl, rfl⟩ := Contract.removeAmount_eq_ok hrem
    refine ⟨balance, newBalance, rolls, hbal, Tez.sub?_eq_ok.mp hsub, hrl, ?_⟩
    rcases deleteIfEmpty_eq_ok h with rfl | hdeleted
    · exact .inl ⟨rfl, rfl⟩
    · exact .inr hdeleted

theorem spend_eq_ok (h : (spend ctxt contract amount).outcome = .ok ctxt') :
    (spendFromScript ctxt contract amount).outcome = .ok ctxt' := by
  unfold spend at h
  split at h
  · exact h
  · cases h

/-- The amount joins the balance and the stake of the delegate; an implicit contract is created when there is none. -/
theorem credit_eq_ok (h : (credit ctxt contract amount).outcome = .ok ctxt') :
    (ctxt.context.contracts.balance.find? contract = none ∧
      ∃ manager ctxt₁, contract = .implicit manager ∧ Same ctxt ctxt₁ ∧
        (createImplicit ctxt₁ manager amount).outcome = .ok ctxt') ∨
    ∃ balance newBalance rolls, ctxt.context.contracts.balance.find? contract = some balance ∧
      newBalance.mutez = amount.mutez + balance.mutez ∧
      addFor ctxt.rollEnv ctxt.context.rolls (ctxt.context.contracts.delegate.find? contract) amount =
        .ok rolls ∧
      ctxt'.accounts = { ctxt.accounts with
        balance := ctxt.context.contracts.balance.add contract newBalance, rolls := rolls } ∧
      ctxt'.rest = ctxt.rest := by
  obtain ⟨ctxt₁, hchk, h⟩ := bind_ok h
  have hsame := (checkEmptyTransaction_clean (.refl _)).gives _ hchk
  rw [hsame.balance] at h
  split at h
  · rename_i hnone
    cases contract with
    | originated hash => cases h
    | implicit manager => exact .inl ⟨hnone, manager, ctxt₁, rfl, hsame, h⟩
  · rename_i balance hsome
    simp only [outcome_bind] at h
    obtain ⟨newBalance, hadd, h⟩ := bind_eq_ok.mp h
    have hadd : (liftM (amount.add? balance) : Result p Tez) = .ok newBalance := hadd
    obtain ⟨-, h⟩ := setKey_bind_ok.mp h
    obtain ⟨rolls, hrl, rfl⟩ := Contract.addAmount_eq_ok h
    refine .inr ⟨balance, newBalance, rolls, hsome, Tez.add?_eq_ok.mp (liftM_tez_eq_ok.mp hadd), ?_, ?_, hsame.2⟩
    · rw [← rollEnv_congr hsame.manager hsame.2, ← hsame.rolls, ← hsame.delegate]
      exact hrl
    · exact congrArg (fun accounts : Accounts p => { accounts with
        balance := ctxt.context.contracts.balance.add contract newBalance, rolls := rolls }) hsame.1

theorem revealManagerKey_eq_ok {publicKey : p.PublicKey} (h : revealManagerKey ctxt contract publicKey = .ok ctxt') :
    ctxt.context.contracts.manager.find? contract = some (.hash (p.hash publicKey)) ∧
      ctxt'.accounts = { ctxt.accounts with
        manager := ctxt.context.contracts.manager.add contract (.publicKey publicKey) } ∧
      ctxt'.rest = ctxt.rest := by
  obtain ⟨manager, hman, h⟩ := getKey_bind_ok.mp h
  split at h
  · cases h
  · simp only at h
    split at h
    · rename_i hhash
      obtain ⟨-, h⟩ := setKey_bind_ok.mp h
      cases h
      exact ⟨hhash ▸ hman, rfl, rfl⟩
    · cases h

end ContractStorage

end Tezos.Protocol
