import Tezos.Protocol.Accounting
import Tezos.Theorems.Protocol.Stake.Ledger

/-! The operations on contracts keep the ledger sound, and so do freezing, burning, unfreezing, punishing and the end of a
    cycle. -/

namespace Tezos.Protocol
open Lib ContractStorage RollStorage DelegateStorage
open DelegateStorage (init init_eq_ok known set setBase)

variable {p : Primitives} {ctxt ctxt' : Context p} {contract : Contract p} {d : p.PublicKeyHash} {amount : Tez}
  {cycle : Nat}
  {a : Accounts p}

theorem Sound.of_same (h : Sound ctxt) (hsame : Same ctxt ctxt') : Sound ctxt' := by
  rw [Sound, hsame.1, hsame.2]
  exact h

theorem Ledger.with_counters {rest : Rest p} (counters : Counters p) (h : Ledger a rest) :
    Ledger a { rest with counters := counters } := ⟨h.registry, h.deposits, h.fees, h.rewards, h.balanced⟩

theorem Sound.with_counter (counter : Store (Contract p) Nat) (h : Sound ctxt) :
    Sound { ctxt with context.contracts.counter := counter } := Ledger.with_counters _ h

theorem known_eq_true (h : known ctxt d = true) :
    ∃ pk, ctxt.accounts.manager.find? (.implicit d) = some (.publicKey pk) := by
  unfold known at h
  split at h
  · rename_i pk hfind
    exact ⟨pk, hfind⟩
  · cases h

variable {hash : p.ContractHash} {delegatable : Context p → Contract p → Bool} {delegate : Option p.PublicKeyHash}

variable (h : Sound ctxt) {updates : BalanceUpdates p} {balance : FrozenBalance}
include h

theorem init_sound (hinit : init ctxt (.originated hash) d = .ok ctxt') : Sound ctxt' := by
  obtain ⟨balance, rolls, hkn, hreg, hnew, hbal, hadd, hacc, hrest⟩ :=
    init_eq_ok hinit
  have hnone : ctxt.context.contracts.delegate.find? (.originated hash) = none := by simpa [Store.mem] using hnew
  rw [Sound, hacc, hrest]
  exact h.link hnone hbal hreg (known_eq_true hkn) hadd

theorem setBase_none_sound (hset : setBase ctxt delegatable contract none = .ok ctxt') :
    Sound ctxt' := by
  obtain ⟨hash, balance, rolls, rfl, hbal, hrem, hacc, hrest⟩ := setBase_none_eq_ok hset
  rw [Sound, hacc, hrest]
  exact h.unlink hbal hrem

/-- The rolls of the contract's balance move from its old delegate to `d`. -/
theorem setBase_some_sound (hdelegatable : ∀ pkh, contract = .implicit pkh → delegatable ctxt contract = false)
    (hset : setBase ctxt delegatable contract (some d) = .ok ctxt') : Sound ctxt' := by
  obtain ⟨balance, r₁, r₂, rolls, hkn, hreg, hall, hbal, hrem, hadd, hact, hacc, hrest⟩ :=
    setBase_some_eq_ok hset
  have hkind : contract = .implicit d ∨
      (ctxt.accounts.delegate.mem (.implicit d) = true ∧ ∃ hash, contract = .originated hash) := by
    rcases hall with hall | hself
    · cases contract with
      | implicit pkh =>
        rw [hdelegatable pkh rfl] at hall
        cases hall
      | originated hash =>
        rcases hreg with hreg | hself
        · exact .inr ⟨hreg, hash, rfl⟩
        · cases hself
    · exact .inl hself
  rw [Sound, hacc, hrest]
  exact h.relink hbal hrem hadd hact hkind (known_eq_true hkn)

theorem set_sound (hset : set ctxt contract delegate = .ok ctxt') : Sound ctxt' := by
  rcases delegate with _ | d
  · exact setBase_none_sound h hset
  · refine setBase_some_sound h ?_ hset
    rintro pkh rfl
    rfl

theorem setFromScript_sound (hset : setFromScript ctxt (.originated hash) delegate = .ok ctxt') :
    Sound ctxt' := by
  rcases delegate with _ | d
  · exact setBase_none_sound h hset
  · refine setBase_some_sound h ?_ hset
    intro pkh heq
    cases heq

/-- An implicit contract is created with itself as manager and no delegate. -/
theorem createBase_sound {prepaid spendable delegatable : Bool} {manager : p.PublicKeyHash} {balance : Tez}
    {script : Option (Script p × Option (BigMapDiff p))}
    (hown : ∀ d, contract = .implicit d → manager = d ∧ delegate = none)
    (hcrt : (createBase ctxt prepaid contract balance manager delegate script spendable
      delegatable).outcome = .ok ctxt') : Sound ctxt' := by
  obtain ⟨hbal, hman, ctxt₁, hdel, -, hsame⟩ := createBase_eq_ok hcrt
  have hcreated : Sound { ctxt with
      context.contracts.balance := ctxt.context.contracts.balance.add contract balance
      context.contracts.manager := ctxt.context.contracts.manager.add contract (.hash manager) } :=
    h.create hbal hman fun d heq => (hown d heq).1
  refine Sound.of_same (Sound.with_counter _ ?_) hsame
  rcases delegate with _ | d
  · cases hdel
    exact hcreated
  · cases contract with
    | implicit pkh => cases (hown pkh rfl).2
    | originated hash => exact init_sound hcreated hdel

theorem spendFromScript_sound (hspn : (spendFromScript ctxt contract amount).outcome = .ok ctxt') : Sound ctxt' := by
  obtain ⟨balance, newBalance, rolls, hbal, hnew, hrem, haft⟩ := spendFromScript_eq_ok hspn
  have hled := h.withdraw hbal hnew hrem
  rcases haft with ⟨hacc, hrest⟩ | ⟨-, hdel, -, hacc, hrest⟩
  · rw [Sound, hacc, hrest]
    exact hled
  · rw [Sound, hacc, hrest]
    exact (hled.delete hdel).with_counters _

theorem credit_sound (hcred : (credit ctxt contract amount).outcome = .ok ctxt') : Sound ctxt' := by
  rcases credit_eq_ok hcred with
    ⟨-, manager, ctxt₁, rfl, hsame, hcrt⟩ | ⟨balance, newBalance, rolls, hbal, hnew, hadd, hacc, hrest⟩
  · refine createBase_sound (h.of_same hsame) (fun d heq => ⟨?_, rfl⟩) hcrt
    exact Contract.implicit.inj heq
  · rw [Sound, hacc, hrest]
    exact h.deposit hbal hnew hadd

theorem revealManagerKey_sound {pk : p.PublicKey}
    (hrev : revealManagerKey ctxt contract pk = .ok ctxt') : Sound ctxt' := by
  obtain ⟨hman, hacc, hrest⟩ := revealManagerKey_eq_ok hrev
  rw [Sound, hacc, hrest]
  exact h.reveal hman

omit h

namespace DelegateStorage
variable {amounts amounts' : Store (p.PublicKeyHash ×ₗ Nat) Tez}

/-! ### Effects -/

theorem creditFrozen_eq_ok (h : creditFrozen amounts d cycle amount = .ok amounts') :
    ∃ newAmount, newAmount.mutez = (getFrozen amounts d cycle).mutez + amount.mutez ∧
      amounts' = amounts.add (toLex (d, cycle)) newAmount := by
  obtain ⟨newAmount, hadd, h⟩ := bind_eq_ok.mp h
  cases h
  exact ⟨newAmount, Tez.add?_eq_ok.mp (liftM_tez_eq_ok.mp hadd), rfl⟩

/-- Only the frozen amount of the delegate `d` changes. -/
theorem frozenOf_change {newAmount : Tez} {x y : Nat} (h : newAmount.mutez + x = (getFrozen amounts d cycle).mutez + y)
    (d' : p.PublicKeyHash) : frozenOf (amounts.add (toLex (d, cycle)) newAmount) d' + (if d = d' then x else 0) =
      frozenOf amounts d' + if d = d' then y else 0 := by
  have hsum : frozenOf (amounts.add (toLex (d, cycle)) newAmount) d' +
      (if d = d' then (getFrozen amounts d cycle).mutez else 0) =
      frozenOf amounts d' + if d = d' then newAmount.mutez else 0 := frozenOf_add
  by_cases heq : d = d'
  · rw [if_pos heq, if_pos heq] at hsum ⊢
    omega
  · rw [if_neg heq, if_neg heq] at hsum ⊢
    exact hsum

theorem creditFrozen_frozenOf (h : creditFrozen amounts d cycle amount = .ok amounts') (d' : p.PublicKeyHash) :
    frozenOf amounts' d' = frozenOf amounts d' + if d = d' then amount.mutez else 0 := by
  obtain ⟨newAmount, hnew, rfl⟩ := creditFrozen_eq_ok h
  simpa using frozenOf_change (x := 0) hnew d'

/-- A deposit leaves the balance of the delegate, so its stake is the same. -/
theorem freezeDeposit_eq_ok (h : freezeDeposit ctxt d amount = .ok ctxt') :
    ∃ balance newBalance rolls deposits, Rolls.setActive ctxt.rollEnv ctxt.context.rolls d = .ok rolls ∧
      ctxt.context.contracts.balance.find? (.implicit d) = some balance ∧
      newBalance.mutez + amount.mutez = balance.mutez ∧
      creditFrozen ctxt.context.frozen.deposits d ctxt.level.cycle amount = .ok deposits ∧
      ctxt' = { ctxt with
        context.contracts.balance := ctxt.context.contracts.balance.add (.implicit d) newBalance
        context.rolls := rolls
        context.frozen.deposits := deposits
        context.frozen.delegatesWithFrozenBalance := noteFrozen ctxt d ctxt.level.cycle } := by
  obtain ⟨ctxt₁, hact, h⟩ := bind_eq_ok.mp h
  obtain ⟨rolls, hrl, rfl⟩ := setActive_eq_ok hact
  obtain ⟨balance, hbalance, h⟩ := getKey_bind_ok.mp h
  obtain ⟨newBalance, hsub, h⟩ := bind_eq_ok.mp h
  obtain ⟨-, h⟩ := setKey_bind_ok.mp h
  obtain ⟨deposits, hdep, h⟩ := bind_eq_ok.mp h
  have hnew := Tez.sub?_eq_ok.mp (liftM_tez_eq_ok.mp (trace_eq_ok.mp hsub))
  cases h
  exact ⟨balance, newBalance, rolls, deposits, hrl, hbalance, hnew, hdep, rfl⟩

theorem freezeFees_eq_ok (h : freezeFees ctxt d amount = .ok ctxt') :
    ∃ rolls fees, Rolls.addAmount ctxt.rollEnv ctxt.context.rolls d amount = .ok rolls ∧
      creditFrozen ctxt.context.frozen.fees d ctxt.level.cycle amount = .ok fees ∧
      ctxt' = { ctxt with
        context.rolls := rolls
        context.frozen.fees := fees
        context.frozen.delegatesWithFrozenBalance := noteFrozen ctxt d ctxt.level.cycle } := by
  obtain ⟨ctxt₁, hadd, h⟩ := bind_eq_ok.mp h
  obtain ⟨rolls, hrl, rfl⟩ := addAmount_eq_ok hadd
  obtain ⟨fees, hfees, h⟩ := bind_eq_ok.mp h
  cases h
  exact ⟨rolls, fees, hrl, hfees, rfl⟩

theorem freezeRewards_eq_ok (h : freezeRewards ctxt d amount = .ok ctxt') :
    ∃ rewards, creditFrozen ctxt.context.frozen.rewards d ctxt.level.cycle amount = .ok rewards ∧
      ctxt' = { ctxt with
        context.frozen.rewards := rewards
        context.frozen.delegatesWithFrozenBalance := noteFrozen ctxt d ctxt.level.cycle } := by
  obtain ⟨rewards, hrew, h⟩ := bind_eq_ok.mp h
  cases h
  exact ⟨rewards, hrew, rfl⟩

theorem burn_le (oldAmount amount : Tez) : (burn oldAmount amount).mutez ≤ oldAmount.mutez := by
  unfold burn
  split
  · rename_i newAmount hsub
    have := Tez.sub?_eq_ok.mp hsub
    omega
  · exact Nat.zero_le _

/-- The rolls are taken away for the amount that was removed, not for `amount`. -/
theorem burnFees_eq_ok (h : burnFees ctxt d cycle amount = .ok ctxt') : ∃ removed rolls,
      (burn (getFrozenFees ctxt d cycle) amount).mutez + removed.mutez = (getFrozenFees ctxt d cycle).mutez ∧
      removed.mutez = min amount.mutez (getFrozenFees ctxt d cycle).mutez ∧
      Rolls.removeAmount ctxt.rollEnv ctxt.context.rolls d removed = .ok rolls ∧
      ctxt' = { ctxt with
        context.rolls := rolls
        context.frozen.fees :=
          ctxt.context.frozen.fees.add (toLex (d, cycle)) (burn (getFrozenFees ctxt d cycle) amount) } := by
  obtain ⟨ctxt₁, hrem, h⟩ := bind_eq_ok.mp h
  obtain ⟨rolls, hrl, rfl⟩ := removeAmount_eq_ok hrem
  cases h
  refine ⟨_, rolls, ?_, ?_, hrl, rfl⟩
  · unfold burn
    split
    · rename_i newAmount hsub
      exact Tez.sub?_eq_ok.mp hsub
    · simp [Tez.zero]
  · split
    · rename_i newAmount hsub
      have := Tez.sub?_eq_ok.mp hsub
      omega
    · rename_i hsub
      have := (Tez.sub?_eq_error.mp hsub).1
      omega

theorem unfreeze_eq_ok (h : unfreeze ctxt d cycle = .ok (ctxt', updates)) :
    ∃ balance newBalance rolls, ctxt.context.contracts.balance.find? (.implicit d) = some balance ∧
      newBalance.mutez = balance.mutez + ((getFrozenDeposit ctxt d cycle).mutez + (getFrozenFees ctxt d cycle).mutez +
        (getFrozenRewards ctxt d cycle).mutez) ∧
      Rolls.addAmount ctxt.rollEnv ctxt.context.rolls d (getFrozenRewards ctxt d cycle) = .ok rolls ∧
      ctxt' = clearFrozen { ctxt with
        context.contracts.balance := ctxt.context.contracts.balance.add (.implicit d) newBalance
        context.rolls := rolls } d cycle := by
  obtain ⟨balance, hbalance, h⟩ := getKey_bind_ok.mp h
  obtain ⟨first, hfst, h⟩ := bind_eq_ok.mp h
  obtain ⟨total, htot, h⟩ := bind_eq_ok.mp h
  obtain ⟨newBalance, hnew, h⟩ := bind_eq_ok.mp h
  obtain ⟨-, h⟩ := setKey_bind_ok.mp h
  obtain ⟨ctxt₁, hadd, h⟩ := bind_eq_ok.mp h
  obtain ⟨rolls, hrl, rfl⟩ := addAmount_eq_ok hadd
  have hfst := Tez.add?_eq_ok.mp (liftM_tez_eq_ok.mp hfst)
  have htot := Tez.add?_eq_ok.mp (liftM_tez_eq_ok.mp htot)
  have hnew := Tez.add?_eq_ok.mp (liftM_tez_eq_ok.mp hnew)
  rw [htot, hfst] at hnew
  cases h
  exact ⟨balance, newBalance, rolls, hbalance, hnew, hrl, rfl⟩

theorem punish_eq_ok (h : punish ctxt d cycle = .ok (ctxt', balance)) : ∃ r₁ rolls,
      Rolls.removeAmount ctxt.rollEnv ctxt.context.rolls d (getFrozenDeposit ctxt d cycle) = .ok r₁ ∧
      Rolls.removeAmount ctxt.rollEnv r₁ d (getFrozenFees ctxt d cycle) = .ok rolls ∧
      balance = ⟨getFrozenDeposit ctxt d cycle, getFrozenFees ctxt d cycle, getFrozenRewards ctxt d cycle⟩ ∧
      ctxt' = clearFrozen { ctxt with context.rolls := rolls } d cycle := by
  obtain ⟨ctxt₁, hdeposit, h⟩ := bind_eq_ok.mp h
  obtain ⟨r₁, hr₁, rfl⟩ := removeAmount_eq_ok hdeposit
  obtain ⟨ctxt₂, hfees, h⟩ := bind_eq_ok.mp h
  obtain ⟨rolls, hrl, rfl⟩ := removeAmount_eq_ok hfees
  cases h
  exact ⟨r₁, rolls, hr₁, hrl, rfl, rfl⟩

end DelegateStorage

/-! ### Soundness -/

open DelegateStorage

/-- An owner of a roll in a snapshot is still registered. -/
theorem Entitled.registered (h : Entitled ctxt d) (hsnd : Sound ctxt) :
    ctxt.context.contracts.delegate.mem (.implicit d) = true := by
  rcases h with hreg | ⟨snapshot, owners, roll, pk, hown, hroll, rfl⟩
  · exact hreg
  · exact hsnd.registry.owners snapshot owners roll pk hown hroll

theorem delegatedTo_rolls {rolls : Rolls p} : Accounts.delegatedTo { a with rolls := rolls } d = a.delegatedTo d := rfl

theorem frozenOf_zero {amounts amounts' : Store (p.PublicKeyHash ×ₗ Nat) Tez}
    (hzero : ∀ d', a.delegate.mem (.implicit d') = false → frozenOf amounts d' = 0)
    (hreg : a.delegate.mem (.implicit d) = true)
    (hfroz : ∀ d', frozenOf amounts' d' = frozenOf amounts d' + if d = d' then amount.mutez else 0)
    (d' : p.PublicKeyHash) (hnot : a.delegate.mem (.implicit d') = false) : frozenOf amounts' d' = 0 := by
  rw [hfroz, hzero d' hnot, if_neg]
  rintro rfl
  rw [hreg] at hnot
  cases hnot

theorem clearFrozen_zero {amounts : Store (p.PublicKeyHash ×ₗ Nat) Tez}
    (hzero : ∀ d', a.delegate.mem (.implicit d') = false → frozenOf amounts d' = 0) (d' : p.PublicKeyHash)
    (hnot : a.delegate.mem (.implicit d') = false) : frozenOf (amounts.remove (toLex (d, cycle))) d' = 0 := by
  have hsum : frozenOf (amounts.remove (toLex (d, cycle))) d' +
    (if d = d' then (getFrozen amounts d cycle).mutez else 0) = frozenOf amounts d' := frozenOf_remove
  rw [hzero d' hnot] at hsum
  exact Nat.eq_zero_of_add_eq_zero_right hsum

theorem clearFrozen_deposits (ctxt : Context p) (d : p.PublicKeyHash) (cycle : Nat) (d' : p.PublicKeyHash) :
    frozenOf (clearFrozen ctxt d cycle).rest.frozen.deposits d' +
    (if d = d' then (getFrozenDeposit ctxt d cycle).mutez else 0) = frozenOf ctxt.rest.frozen.deposits d' := frozenOf_remove

theorem clearFrozen_fees (ctxt : Context p) (d : p.PublicKeyHash) (cycle : Nat) (d' : p.PublicKeyHash) :
    frozenOf (clearFrozen ctxt d cycle).rest.frozen.fees d' +
    (if d = d' then (getFrozenFees ctxt d cycle).mutez else 0) = frozenOf ctxt.rest.frozen.fees d' := frozenOf_remove

variable (h : Sound ctxt)
include h

theorem setActive_sound (hact : setActive ctxt d = .ok ctxt') : Sound ctxt' := by
  obtain ⟨rolls, hrl, rfl⟩ := setActive_eq_ok hact
  obtain ⟨hbal, hcar⟩ := h.balanced.setActive hrl
  exact h.refreeze rfl rfl (fun _ => id) hcar rfl rfl h.deposits h.fees h.rewards hbal

theorem setInactive_sound (hinact : setInactive ctxt d = .ok ctxt') : Sound ctxt' := by
  obtain ⟨rolls, hrl, rfl⟩ := setInactive_eq_ok hinact
  obtain ⟨hbal, hcar⟩ := h.balanced.setInactive hrl
  exact h.refreeze rfl rfl (fun _ => id) hcar rfl rfl h.deposits h.fees h.rewards hbal

section
variable (hent : Entitled ctxt d)
include hent

theorem freezeDeposit_sound (hfrz : freezeDeposit ctxt d amount = .ok ctxt') : Sound ctxt' := by
  have hreg := hent.registered h
  obtain ⟨balance, newBalance, rolls, deposits, hact, hbalance, hnew, hcred, rfl⟩ := freezeDeposit_eq_ok hfrz
  have hself : ctxt.accounts.delegate.find? (.implicit d) = some d := h.registry.find?_self hreg
  have hfroz := creditFrozen_frozenOf hcred
  obtain ⟨hbal, hcar⟩ := h.balanced.setActive hact
  refine h.refreeze rfl rfl (fun contract hmem => Store.mem_add.mpr (.inr hmem)) hcar rfl rfl
    (frozenOf_zero h.deposits hreg hfroz) h.fees h.rewards (hbal.congr fun d' => ?_)
  let accounts : Accounts p := { ctxt.accounts with
    balance := ctxt.context.contracts.balance.add (.implicit d) newBalance, rolls := rolls }
  have hsum := delegatedTo_add (a := ctxt.accounts) accounts d' hbalance rfl rfl
  have hdep : frozenOf deposits d' = frozenOf ctxt.rest.frozen.deposits d' + _ := hfroz d'
  rw [hself] at hsum
  simp only [Option.some_inj] at hsum
  change accounts.delegatedTo d' + frozenOf deposits d' + frozenOf ctxt.rest.frozen.fees d' = _
  rw [hdep, stake]
  by_cases heq : d = d'
  · rw [if_pos heq, if_pos heq] at hsum
    rw [if_pos heq]
    omega
  · rw [if_neg heq, if_neg heq] at hsum
    rw [if_neg heq]
    omega

theorem freezeFees_sound (hfrz : freezeFees ctxt d amount = .ok ctxt') : Sound ctxt' := by
  have hreg := hent.registered h
  obtain ⟨rolls, fees, hadd, hcred, rfl⟩ := freezeFees_eq_ok hfrz
  have hfroz := creditFrozen_frozenOf hcred
  obtain ⟨hbal, hcar, -⟩ := h.balanced.addAmount
    (stake { ctxt.accounts with rolls := rolls } { ctxt.rest.frozen with fees := fees }) hadd fun d' => by
      have hfees : frozenOf fees d' = frozenOf ctxt.rest.frozen.fees d' + _ := hfroz d'
      rw [stake, delegatedTo_rolls, hfees, stake]
      simp only [eq_comm (a := d), add_assoc]
  exact h.refreeze rfl rfl (fun _ => id) hcar rfl rfl h.deposits (frozenOf_zero h.fees hreg hfroz) h.rewards
    hbal

theorem freezeRewards_sound (hfrz : freezeRewards ctxt d amount = .ok ctxt') : Sound ctxt' := by
  have hreg := hent.registered h
  obtain ⟨rewards, hcred, rfl⟩ := freezeRewards_eq_ok hfrz
  exact h.refreeze rfl rfl (fun _ => id) (.refl _) rfl rfl h.deposits h.fees
    (frozenOf_zero h.rewards hreg (creditFrozen_frozenOf hcred)) h.balanced

end

theorem burnFees_sound (hburn : burnFees ctxt d cycle amount = .ok ctxt') : Sound ctxt' := by
  obtain ⟨removed, rolls, hnew, -, hrem, rfl⟩ := burnFees_eq_ok hburn
  have hfees : ∀ d', frozenOf _ d' + _ = frozenOf ctxt.rest.frozen.fees d' + _ := frozenOf_change (y := 0) hnew
  simp only [ite_self, add_zero] at hfees
  obtain ⟨hbal, hcar⟩ := h.balanced.removeAmount
    (stake { ctxt.accounts with rolls := rolls } { ctxt.rest.frozen with
      fees := ctxt.rest.frozen.fees.add (toLex (d, cycle)) (burn (getFrozenFees ctxt d cycle) amount) }) hrem
    fun d' => by
      simp only [stake, delegatedTo_rolls, ← hfees, eq_comm (a := d)]
      omega
  refine h.refreeze rfl rfl (fun _ => id) hcar rfl rfl h.deposits (fun d' hnot => ?_) h.rewards hbal
  have hzero := hfees d'
  rw [h.fees d' hnot] at hzero
  exact Nat.eq_zero_of_add_eq_zero_right hzero

theorem burnRewards_sound : Sound (burnRewards ctxt d cycle amount) := by
  refine h.refreeze rfl rfl (fun _ => id) (.refl _) rfl rfl h.deposits h.fees (fun d' hnot => ?_) h.balanced
  have hsum : _ + _ = frozenOf ctxt.rest.frozen.rewards d' + _ :=
    frozenOf_change (y := 0) (Nat.add_sub_of_le (burn_le (getFrozenRewards ctxt d cycle) amount)) d'
  rw [h.rewards d' hnot, ite_self] at hsum
  exact Nat.eq_zero_of_add_eq_zero_right hsum

theorem unfreeze_sound (hunf : unfreeze ctxt d cycle = .ok (ctxt', updates)) : Sound ctxt' := by
  obtain ⟨balance, newBalance, rolls, hbalance, hnew, hadd, rfl⟩ := unfreeze_eq_ok hunf
  have hbalances := fun d' => delegatedTo_add (a := ctxt.accounts) { ctxt.accounts with
    balance := ctxt.context.contracts.balance.add (.implicit d) newBalance, rolls := rolls } d' hbalance rfl rfl
  obtain ⟨hbal, hcar, -⟩ := h.balanced.addAmount (stake { ctxt.accounts with
      balance := ctxt.context.contracts.balance.add (.implicit d) newBalance, rolls := rolls }
      (clearFrozen ctxt d cycle).rest.frozen) hadd fun d' => by
    have hb := hbalances d'
    have hd := clearFrozen_deposits ctxt d cycle d'
    have hf := clearFrozen_fees ctxt d cycle d'
    simp only [stake]
    by_cases hreg : ctxt.accounts.delegate.mem (.implicit d) = true
    · rw [h.registry.find?_self hreg] at hb
      simp only [Option.some_inj] at hb
      by_cases heq : d = d'
      · rw [if_pos heq] at hb hd hf
        rw [if_pos heq] at hb
        rw [if_pos heq.symm]
        omega
      · rw [if_neg heq] at hb hd hf
        rw [if_neg heq] at hb
        rw [if_neg (Ne.symm heq)]
        omega
    · have hnot : ctxt.accounts.delegate.mem (.implicit d) = false := by simpa using hreg
      have hnone : ctxt.accounts.delegate.find? (.implicit d) = none := by simpa [Store.mem] using hnot
      have hdeposit : (getFrozenDeposit ctxt d cycle).mutez ≤ 0 := (h.deposits d hnot) ▸ getFrozen_le
      have hfee : (getFrozenFees ctxt d cycle).mutez ≤ 0 := (h.fees d hnot) ▸ getFrozen_le
      have hreward : (getFrozenRewards ctxt d cycle).mutez ≤ 0 := (h.rewards d hnot) ▸ getFrozen_le
      rw [Nat.eq_zero_of_le_zero hdeposit] at hd
      rw [Nat.eq_zero_of_le_zero hfee] at hf
      rw [Nat.eq_zero_of_le_zero hreward]
      simp only [hnone, reduceCtorEq, if_false, ite_self, add_zero] at hb hd hf ⊢
      omega
  exact h.refreeze rfl rfl (fun contract hmem => Store.mem_add.mpr (.inr hmem)) hcar rfl rfl
    (clearFrozen_zero h.deposits) (clearFrozen_zero h.fees) (clearFrozen_zero h.rewards) hbal

/-- Between the two amounts that are removed the stake has lost only the deposit. -/
theorem punish_deposit_balanced {r₁ : Rolls p} (rolls : Rolls p)
    (hdeposit : Rolls.removeAmount ctxt.rollEnv ctxt.context.rolls d (getFrozenDeposit ctxt d cycle) = .ok r₁) :
    Balanced ctxt.rollEnv r₁ (stake { ctxt.accounts with rolls := rolls }
        { ctxt.rest.frozen with deposits := (clearFrozen ctxt d cycle).rest.frozen.deposits }) ∧
      Carried ctxt.context.rolls r₁ := by
  refine h.balanced.removeAmount _ hdeposit fun d' => ?_
  simp only [stake, delegatedTo_rolls, ← clearFrozen_deposits ctxt d cycle, eq_comm (a := d)]
  omega

theorem punish_sound (hpun : punish ctxt d cycle = .ok (ctxt', balance)) : Sound ctxt' := by
  obtain ⟨r₁, rolls, hdeposit, hfees, -, rfl⟩ := punish_eq_ok hpun
  obtain ⟨hbal₁, hcar₁⟩ := punish_deposit_balanced h rolls hdeposit
  obtain ⟨hbal, hcar⟩ := hbal₁.removeAmount (stake { ctxt.accounts with rolls := rolls }
      (clearFrozen ctxt d cycle).rest.frozen) hfees fun d' => by
    simp only [stake, ← clearFrozen_fees ctxt d cycle, eq_comm (a := d)]
    omega
  exact h.refreeze rfl rfl (fun _ => id) (hcar₁.trans hcar) rfl rfl (clearFrozen_zero h.deposits)
    (clearFrozen_zero h.fees) (clearFrozen_zero h.rewards) hbal

end Tezos.Protocol
