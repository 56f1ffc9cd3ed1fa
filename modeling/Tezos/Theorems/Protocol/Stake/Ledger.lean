import Tezos.Theorems.Protocol.Effects
import Tezos.Theorems.Protocol.RollAmounts

/-! The stake of a delegate: the balances of the contracts that delegate to it, with the deposits and the fees it has
    frozen. The rolls are kept worth it. -/

namespace Tezos.Protocol
open Lib Option Store Rolls DelegateStorage

variable {p : Primitives} {a : Accounts p} {contract : Contract p} {balance newBalance amount : Tez} {d : p.PublicKeyHash}

/-- What a contract adds to the stake of a delegate. -/
abbrev Accounts.share (a : Accounts p) (d : p.PublicKeyHash) (contract : Contract p) (balance : Tez) : Nat :=
  if a.delegate.find? contract = some d then balance.mutez else 0

def Accounts.delegatedTo (a : Accounts p) (d : p.PublicKeyHash) : Nat :=
  a.balance.sum fun contract balance => if a.delegate.find? contract = some d then balance.mutez else 0

def frozenOf (amounts : Store (p.PublicKeyHash ×ₗ Nat) Tez) (d : p.PublicKeyHash) : Nat :=
  amounts.sum fun key amount => if (ofLex key).1 = d then amount.mutez else 0

/-- Frozen rewards are not part of the stake. -/
def stake (a : Accounts p) (frozen : Frozen p) (d : p.PublicKeyHash) : Nat :=
  a.delegatedTo d + frozenOf frozen.deposits d + frozenOf frozen.fees d

section Sums

theorem delegatedTo_add (a' : Accounts p) (d : p.PublicKeyHash) (hbal : a.balance.find? contract = some balance)
    (hbalances : a'.balance = a.balance.add contract newBalance) (hdel : a'.delegate = a.delegate) :
    a'.delegatedTo d + (if a.delegate.find? contract = some d then balance.mutez else 0) =
      a.delegatedTo d + if a.delegate.find? contract = some d then newBalance.mutez else 0 := by
  have hsum := sum_add (s := a.balance) (k := contract) (v := newBalance) (f := a.share d)
  rw [part_of_some hbal] at hsum
  rw [Accounts.delegatedTo, hbalances, hdel]
  exact hsum

theorem delegatedTo_create (a' : Accounts p) (d : p.PublicKeyHash) (hbal : a.balance.mem contract = false)
    (hbalances : a'.balance = a.balance.add contract newBalance) (hdel : a'.delegate = a.delegate) :
    a'.delegatedTo d = a.delegatedTo d + if a.delegate.find? contract = some d then newBalance.mutez else 0 := by
  have hsum := sum_add (s := a.balance) (k := contract) (v := newBalance) (f := a.share d)
  have hnone : a.balance.find? contract = none := by simpa [mem] using hbal
  rw [part_of_none hnone] at hsum
  rw [Accounts.delegatedTo, hbalances, hdel]
  exact hsum

theorem delegatedTo_remove (a' : Accounts p) (d : p.PublicKeyHash) (hdelegated : a.delegate.find? contract = none)
    (hbalances : a'.balance = a.balance.remove contract) (hdel : a'.delegate = a.delegate) :
    a'.delegatedTo d = a.delegatedTo d := by
  have hsum := sum_remove (s := a.balance) (k := contract) (f := a.share d)
  have hpart : a.balance.part (a.share d) contract = 0 := by
    rcases hfind : a.balance.find? contract with _ | balance
    · exact part_of_none hfind
    · simp [part_of_some hfind, Accounts.share, hdelegated]
  rw [hpart] at hsum
  rw [Accounts.delegatedTo, hbalances, hdel]
  exact hsum

theorem delegatedTo_switch (a' : Accounts p) (d : p.PublicKeyHash) (hbal : a.balance.find? contract = some balance)
    (hbalances : a'.balance = a.balance)
    (hoths : ∀ contract', contract' ≠ contract → a'.delegate.find? contract' = a.delegate.find? contract') :
    a'.delegatedTo d + (if a.delegate.find? contract = some d then balance.mutez else 0) =
      a.delegatedTo d + if a'.delegate.find? contract = some d then balance.mutez else 0 := by
  have hsum := sum_update (s := a.balance) (k := contract) (f := a'.share d) (g := a.share d)
    (fun contract' _ hne => by rw [Accounts.share, hoths contract' hne])
  rw [part_of_some hbal, part_of_some hbal] at hsum
  rw [Accounts.delegatedTo, hbalances]
  exact hsum

variable {amounts : Store (p.PublicKeyHash ×ₗ Nat) Tez} {d' : p.PublicKeyHash} {cycle : Nat}

theorem frozen_part (amounts : Store (p.PublicKeyHash ×ₗ Nat) Tez) (d d' : p.PublicKeyHash) (cycle : Nat) :
    amounts.part (fun key amount => if (ofLex key).1 = d' then amount.mutez else 0)
    (toLex (d, cycle)) = if d = d' then (getFrozen amounts d cycle).mutez else 0 := by
  unfold part getFrozen
  rcases amounts.find? (toLex (d, cycle)) with _ | amount
  · simp [Tez.zero]
  · by_cases h : d = d' <;> simp [h]

theorem frozenOf_add : frozenOf (amounts.add (toLex (d, cycle)) amount) d' +
        (if d = d' then (getFrozen amounts d cycle).mutez else 0) =
      frozenOf amounts d' + if d = d' then amount.mutez else 0 := by
  rw [← frozen_part]
  exact sum_add

theorem frozenOf_remove : frozenOf (amounts.remove (toLex (d, cycle))) d' +
        (if d = d' then (getFrozen amounts d cycle).mutez else 0) = frozenOf amounts d' := by
  rw [← frozen_part]
  exact sum_remove

theorem getFrozen_le : (getFrozen amounts d cycle).mutez ≤ frozenOf amounts d := by
  have hpart := frozen_part amounts d d cycle
  rw [if_pos rfl] at hpart
  rw [← hpart]
  exact part_le_sum

end Sums

/-- The rolls and the change of each delegate are worth its stake. -/
def Balanced (env : RollEnv p) (r : Rolls p) (stake : p.PublicKeyHash → Nat) : Prop :=
  ∃ lists, Kept env r lists ∧ ∀ d, worth env r lists d = stake d

/-- What the operations on the stake keep of the rolls. -/
structure Carried (r r' : Rolls p) : Prop where
  inited : ∀ d, r.delegateChange.mem d = true → r'.delegateChange.mem d = true
  snapshots : r'.ownerSnapshot = r.ownerSnapshot

theorem Carried.refl (r : Rolls p) : Carried r r := ⟨fun _ => id, rfl⟩

theorem Carried.trans {r r' r'' : Rolls p} (h : Carried r r') (h' : Carried r' r'') : Carried r r'' :=
  ⟨fun d hmem => h'.inited d (h.inited d hmem), h'.snapshots.trans h.snapshots⟩

namespace Balanced
variable {env : RollEnv p} {r r' : Rolls p} {stake stake' : p.PublicKeyHash → Nat}
  {delegate : Option p.PublicKeyHash} (h : Balanced env r stake)
include h

theorem congr (hstk : ∀ d, stake' d = stake d) : Balanced env r stake' := by
  obtain ⟨lists, hkept, hwth⟩ := h
  exact ⟨lists, hkept, fun d => (hwth d).trans (hstk d).symm⟩

theorem addAmount (stake' : p.PublicKeyHash → Nat) (hadd : addAmount env r d amount = .ok r')
    (hstk : ∀ d', stake' d' = stake d' + if d' = d then amount.mutez else 0) :
    Balanced env r' stake' ∧ Carried r r' ∧ r'.delegateChange.mem d = true := by
  obtain ⟨lists, hkept, hwth⟩ := h
  obtain ⟨lists', hkept', hwth', hinit, hsnap⟩ := addAmount_eq_ok hkept hadd
  refine ⟨⟨lists', hkept', fun d' => ?_⟩, ⟨fun d' hmem => (hinit d').mpr (.inl hmem), hsnap⟩,
    (hinit d).mpr (.inr rfl)⟩
  rw [hwth', hwth, hstk]

theorem removeAmount (stake' : p.PublicKeyHash → Nat) (hrem : removeAmount env r d amount = .ok r')
    (hstk : ∀ d', stake' d' + (if d' = d then amount.mutez else 0) = stake d') :
    Balanced env r' stake' ∧ Carried r r' := by
  obtain ⟨lists, hkept, hwth⟩ := h
  obtain ⟨lists', hkept', hwth', hinit, hsnap⟩ := removeAmount_eq_ok hkept hrem
  refine ⟨⟨lists', hkept', fun d' => ?_⟩, ⟨fun d' => (hinit d').mpr, hsnap⟩⟩
  have hsum := hwth' d'
  rw [hwth, ← hstk] at hsum
  exact add_right_cancel hsum

theorem addFor (stake' : p.PublicKeyHash → Nat) (hadd : addFor env r delegate amount = .ok r')
    (hstk : ∀ d, stake' d = stake d + if delegate = some d then amount.mutez else 0) :
    Balanced env r' stake' ∧ Carried r r' := by
  rcases delegate with _ | d
  · cases hadd
    exact ⟨h.congr fun d => (hstk d).trans (by simp), .refl r⟩
  · have hstk' : ∀ d', stake' d' = stake d' + if d' = d then amount.mutez else 0 := by
      intro d'
      rw [hstk d']
      simp [eq_comm]
    obtain ⟨hbalanced, hcar, -⟩ := h.addAmount stake' hadd hstk'
    exact ⟨hbalanced, hcar⟩

theorem removeFor (stake' : p.PublicKeyHash → Nat) (hrem : removeFor env r delegate amount = .ok r')
    (hstk : ∀ d, stake' d + (if delegate = some d then amount.mutez else 0) = stake d) :
    Balanced env r' stake' ∧ Carried r r' := by
  rcases delegate with _ | d
  · cases hrem
    exact ⟨h.congr fun d => by simpa using hstk d, .refl r⟩
  · refine h.removeAmount stake' hrem fun d' => ?_
    rw [← hstk d']
    simp [eq_comm]

theorem setActive (hact : setActive env r d = .ok r') : Balanced env r' stake ∧ Carried r r' := by
  obtain ⟨lists, hkept, hwth⟩ := h
  obtain ⟨lists', hkept', hwth', hinit, hsnap⟩ := setActive_eq_ok hkept hact
  exact ⟨⟨lists', hkept', fun d' => (hwth' d').trans (hwth d')⟩, ⟨hinit, hsnap⟩⟩

theorem setInactive (hinact : setInactive env r d = .ok r') : Balanced env r' stake ∧ Carried r r' := by
  obtain ⟨lists, hkept, hwth⟩ := h
  obtain ⟨lists', hkept', hwth', hinit, -, -, -, -, hsnap⟩ := setInactive_eq_ok hkept hinact
  exact ⟨⟨lists', hkept', fun d' => (hwth' d').trans (hwth d')⟩,
    ⟨fun d' hmem => (hinit d').mpr (.inl hmem), hsnap⟩⟩

/-- Only the keys of the delegates with a stake matter to the rolls, and they were revealed. -/
theorem congr_key (env' : RollEnv p) (htok : env'.tokensPerRoll = env.tokensPerRoll)
    (hpres : env'.preservedCycles = env.preservedCycles) (hcyc : env'.currentCycle = env.currentCycle)
    (hkey : ∀ d, stake d ≠ 0 → (env.key d).isSome = true → env'.key d = env.key d) : Balanced env' r stake := by
  obtain ⟨lists, hkept, hwth⟩ := h
  have hsame : ∀ d, lists (some d) ≠ [] → env'.key d = env.key d := by
    intro d hne
    refine hkey d (fun hzero => hne ?_) (hkept.held.known d hne)
    exact hkept.empty_of_worth_zero ((hwth d).trans hzero)
  have hin : ∀ d, (standing r lists d).isInactive env' = (standing r lists d).isInactive env := fun d => by
    simp only [Standing.isInactive, hcyc]
  refine ⟨lists,
    ⟨⟨hkept.held.threaded, hkept.held.below, hkept.held.fresh, fun x pk => ?_, fun d hne => ?_⟩, fun d => ?_,
    fun d => ?_⟩, fun d => ?_⟩
  · rw [hkept.held.owner]
    refine exists_congr fun d => and_congr_right fun hmem => ?_
    rw [hsame d (List.ne_nil_of_mem hmem)]
  · rw [hsame d hne]
    exact hkept.held.known d hne
  · obtain ⟨hpric, hinact, hlis, hlate⟩ := hkept.sound d
    exact ⟨htok ▸ hpric, hin d ▸ hinact, hlis, hpres ▸ hlate⟩
  · exact ⟨(hkept.tidy d).unlisted, hin d ▸ htok ▸ (hkept.tidy d).below⟩
  · rw [← hwth d]
    simp only [worth, worthOf, htok]

end Balanced

/-- Delegates are registered contracts that delegate to themselves, with a revealed key and a balance. -/
structure Registry (a : Accounts p) : Prop where
  self : ∀ d d', a.delegate.find? (.implicit d) = some d' → d' = d
  registered : ∀ contract d, a.delegate.find? contract = some d → a.delegate.mem (.implicit d) = true
  funded : ∀ contract, a.delegate.mem contract = true → a.balance.mem contract = true
  known : ∀ d, a.delegate.mem (.implicit d) = true → ∃ pk, a.manager.find? (.implicit d) = some (.publicKey pk)
  keys : ∀ d manager, a.manager.find? (.implicit d) = some manager →
    manager = .hash d ∨ ∃ pk, manager = .publicKey pk ∧ p.hash pk = d
  inited : ∀ d, a.delegate.mem (.implicit d) = true → a.rolls.delegateChange.mem d = true
  owners : ∀ snapshot owners roll pk, a.rolls.ownerSnapshot.find? snapshot = some owners →
    owners.find? roll = some pk → a.delegate.mem (.implicit (p.hash pk)) = true

def rollEnvOf (a : Accounts p) (rest : Rest p) : RollEnv p :=
  ⟨rest.constants.tokensPerRoll, rest.constants.preservedCycles, rest.level.cycle, a.manager⟩

/-- The ledger of a context: delegates are registered, what is frozen belongs to one of them, and the rolls are worth
    the stake. -/
structure Ledger (a : Accounts p) (rest : Rest p) : Prop where
  registry : Registry a
  deposits : ∀ d, a.delegate.mem (.implicit d) = false → frozenOf rest.frozen.deposits d = 0
  fees : ∀ d, a.delegate.mem (.implicit d) = false → frozenOf rest.frozen.fees d = 0
  rewards : ∀ d, a.delegate.mem (.implicit d) = false → frozenOf rest.frozen.rewards d = 0
  balanced : Balanced (rollEnvOf a rest) a.rolls (stake a rest.frozen)

def Sound (ctxt : Context p) : Prop := Ledger ctxt.accounts ctxt.rest

section
variable {rest : Rest p} {a' : Accounts p}

theorem Registry.find?_self (h : Registry a) (hmem : a.delegate.mem (.implicit d) = true) :
    a.delegate.find? (.implicit d) = some d := by
  obtain ⟨d', hfind⟩ := isSome_iff_exists.mp hmem
  rw [hfind, h.self d d' hfind]

theorem Registry.not_delegated (h : Registry a) (hbal : a.balance.mem contract = false) :
    a.delegate.find? contract = none := by
  by_contra hne
  have hmem := h.funded contract (isSome_iff_ne_none.mpr hne)
  rw [hbal] at hmem
  cases hmem

theorem Ledger.stake_zero (h : Ledger a rest) (hnot : a.delegate.mem (.implicit d) = false) :
    stake a rest.frozen d = 0 := by
  have hdelegated : a.delegatedTo d = 0 := by
    refine sum_eq_zero fun contract balance _ => if_neg fun hfind => ?_
    have hmem := h.registry.registered contract d hfind
    rw [hnot] at hmem
    cases hmem
  rw [stake, hdelegated, h.deposits d hnot, h.fees d hnot]

theorem key_congr (h : a'.manager.find? (.implicit d) = a.manager.find? (.implicit d)) :
    (rollEnvOf a' rest).key d = (rollEnvOf a rest).key d := by
  simp only [RollEnv.key, rollEnvOf, h]

theorem key_isSome (h : ((rollEnvOf a rest).key d).isSome = true) :
    ∃ pk, a.manager.find? (.implicit d) = some (.publicKey pk) := by
  simp only [RollEnv.key, rollEnvOf] at h
  split at h
  · rename_i pk hfind
    exact ⟨pk, hfind⟩
  · cases h

theorem Ledger.remanage {balance : Store (Contract p) Tez} {manager : Store (Contract p) (Manager p)} (h : Ledger a rest)
    (hfun : ∀ contract, a.delegate.mem contract = true → a.balance.mem contract = true → balance.mem contract = true)
    (hsame : ∀ d pk, a.delegate.mem (.implicit d) = true → a.manager.find? (.implicit d) = some (.publicKey pk) →
      manager.find? (.implicit d) = a.manager.find? (.implicit d))
    (hkeys : ∀ d m, manager.find? (.implicit d) = some m → m = .hash d ∨ ∃ pk, m = .publicKey pk ∧ p.hash pk = d)
    (hsum : ∀ d, Accounts.delegatedTo { a with balance, manager } d = a.delegatedTo d) :
    Ledger { a with balance, manager } rest := by
  refine ⟨⟨h.registry.self, h.registry.registered,
    fun contract hmem => hfun contract hmem (h.registry.funded contract hmem),
    fun d hmem => ?_, hkeys, h.registry.inited, h.registry.owners⟩, h.deposits, h.fees, h.rewards, ?_⟩
  · obtain ⟨pk, hfind⟩ := h.registry.known d hmem
    exact ⟨pk, (hsame d pk hmem hfind).trans hfind⟩
  · refine (h.balanced.congr_key (rollEnvOf { a with balance, manager } rest) rfl rfl rfl fun d hstk hkey => ?_).congr
      fun d => ?_
    · obtain ⟨pk, hfind⟩ := key_isSome hkey
      have hmem : a.delegate.mem (.implicit d) = true := by
        by_contra hnot
        exact hstk (h.stake_zero (Bool.not_eq_true _ ▸ hnot))
      exact key_congr (hsame d pk hmem hfind)
    · rw [stake, hsum d, stake]

theorem Ledger.create (h : Ledger a rest) {balance : Tez} {manager : p.PublicKeyHash}
    (hbal : a.balance.mem contract = false) (hman : a.manager.mem contract = false)
    (hown : ∀ d, contract = .implicit d → manager = d) :
    Ledger { a with
      balance := a.balance.add contract balance, manager := a.manager.add contract (.hash manager) } rest := by
  refine h.remanage (fun _ _ hmem => mem_add.mpr (.inr hmem)) (fun d pk _ hfind => ?_) (fun d m hfind => ?_) fun d => ?_
  · rw [find?_add, if_neg]
    rintro rfl
    rw [mem_of_find? hfind] at hman
    cases hman
  · rw [find?_add] at hfind
    split at hfind
    · rename_i hcont
      obtain rfl := hown d hcont.symm
      exact .inl (some_inj.mp hfind).symm
    · exact h.registry.keys d m hfind
  · have hsum := delegatedTo_create { a with
      balance := a.balance.add contract balance, manager := a.manager.add contract (.hash manager) } d hbal rfl rfl
    rw [h.registry.not_delegated hbal] at hsum
    simpa using hsum

theorem Ledger.delete (h : Ledger a rest) (hnone : a.delegate.find? contract = none) :
    Ledger { a with balance := a.balance.remove contract, manager := a.manager.remove contract } rest := by
  have hoth : ∀ contract', a.delegate.mem contract' = true → contract' ≠ contract := by
    rintro contract' hmem rfl
    rw [mem, hnone] at hmem
    cases hmem
  refine h.remanage (fun contract' hmem hfun => mem_remove.mpr ⟨hoth contract' hmem, hfun⟩)
    (fun d pk hmem _ => ?_) (fun d m hfind => ?_) fun d => delegatedTo_remove _ d hnone rfl rfl
  · rw [find?_remove, if_neg (hoth _ hmem)]
  · rw [find?_remove] at hfind
    split at hfind
    · cases hfind
    · exact h.registry.keys d m hfind

theorem Ledger.reveal (h : Ledger a rest) {pk : p.PublicKey}
    (hman : a.manager.find? contract = some (.hash (p.hash pk))) :
    Ledger { a with manager := a.manager.add contract (.publicKey pk) } rest := by
  refine h.remanage (fun _ _ => id) (fun d pk' _ hfind => ?_) (fun d m hfind => ?_) fun d => rfl
  · rw [find?_add, if_neg]
    rintro rfl
    rw [hman] at hfind
    cases hfind
  · rw [find?_add] at hfind
    split at hfind
    · rename_i hcont
      obtain rfl := hcont
      rcases h.registry.keys d _ hman with hhash | ⟨pk', hhash, -⟩
      · exact .inr ⟨pk, (some_inj.mp hfind).symm, Manager.hash.inj hhash⟩
      · cases hhash
    · exact h.registry.keys d m hfind

/-! ### Changing a balance or a delegate -/

variable {rolls : Rolls p} (h : Ledger a rest) {hash : p.ContractHash}
include h

theorem Ledger.refreeze {rest' : Rest p} (hdel : a'.delegate = a.delegate) (hman : a'.manager = a.manager)
    (hbal : ∀ contract, a.balance.mem contract = true → a'.balance.mem contract = true)
    (hcar : Carried a.rolls a'.rolls) (hcons : rest'.constants = rest.constants)
    (hlvl : rest'.level = rest.level)
    (hdep : ∀ d, a.delegate.mem (.implicit d) = false → frozenOf rest'.frozen.deposits d = 0)
    (hfees : ∀ d, a.delegate.mem (.implicit d) = false → frozenOf rest'.frozen.fees d = 0)
    (hrew : ∀ d, a.delegate.mem (.implicit d) = false → frozenOf rest'.frozen.rewards d = 0)
    (hbalanced : Balanced (rollEnvOf a rest) a'.rolls (stake a' rest'.frozen)) : Ledger a' rest' := by
  obtain ⟨balance, manager, delegate, rolls⟩ := a'
  obtain rfl : delegate = a.delegate := hdel
  obtain rfl : manager = a.manager := hman
  have henv : rollEnvOf ⟨balance, a.manager, a.delegate, rolls⟩ rest' = rollEnvOf a rest := by
    rw [rollEnvOf, hcons, hlvl, rollEnvOf]
  refine ⟨⟨h.registry.self, h.registry.registered, fun contract hmem => hbal contract (h.registry.funded contract hmem),
    h.registry.known, h.registry.keys, fun d hmem => hcar.inited d (h.registry.inited d hmem), ?_⟩, hdep, hfees,
    hrew, henv ▸ hbalanced⟩
  rw [hcar.snapshots]
  exact h.registry.owners

theorem Ledger.rebalance (hbalanced : Balanced (rollEnvOf a rest) rolls
      (stake { a with balance := a.balance.add contract newBalance, rolls := rolls } rest.frozen) ∧
        Carried a.rolls rolls) :
    Ledger { a with balance := a.balance.add contract newBalance, rolls := rolls } rest :=
  h.refreeze rfl rfl (fun _ hmem => mem_add.mpr (.inr hmem)) hbalanced.2 rfl rfl h.deposits h.fees h.rewards hbalanced.1

theorem Ledger.withdraw (hbal : a.balance.find? contract = some balance)
    (hnew : newBalance.mutez + amount.mutez = balance.mutez)
    (hrem : removeFor (rollEnvOf a rest) a.rolls (a.delegate.find? contract) amount = .ok rolls) :
    Ledger { a with balance := a.balance.add contract newBalance, rolls := rolls } rest := by
  refine h.rebalance (h.balanced.removeFor _ hrem fun d => ?_)
  have hsum := delegatedTo_add { a with balance := a.balance.add contract newBalance, rolls := rolls } d hbal rfl rfl
  simp only [stake]
  split at hsum <;> rename_i hdel <;> simp only [hdel, if_true, if_false] <;> omega

theorem Ledger.deposit (hbal : a.balance.find? contract = some balance)
    (hnew : newBalance.mutez = amount.mutez + balance.mutez)
    (hadd : addFor (rollEnvOf a rest) a.rolls (a.delegate.find? contract) amount = .ok rolls) :
    Ledger { a with balance := a.balance.add contract newBalance, rolls := rolls } rest := by
  refine h.rebalance (h.balanced.addFor _ hadd fun d => ?_)
  have hsum := delegatedTo_add { a with balance := a.balance.add contract newBalance, rolls := rolls } d hbal rfl rfl
  simp only [stake]
  split at hsum <;> rename_i hdel <;> simp only [hdel, if_true, if_false] <;> omega

/-- A contract changes its delegate: an originated one takes a registered delegate, or none; an implicit one can only
    delegate to itself. -/
theorem Ledger.switch {delegate : Store (Contract p) p.PublicKeyHash} (hbal : a.balance.mem contract = true)
    (hoths : ∀ contract', contract' ≠ contract → delegate.find? contract' = a.delegate.find? contract')
    (hnew : ∀ d, delegate.find? contract = some d →
      (contract = .implicit d ∨ (a.delegate.mem (.implicit d) = true ∧ ∃ hash, contract = .originated hash)) ∧
        (∃ pk, a.manager.find? (.implicit d) = some (.publicKey pk)) ∧ rolls.delegateChange.mem d = true)
    (hkeep : ∀ d, contract = .implicit d → delegate.mem contract = true)
    (hbalanced : Balanced (rollEnvOf a rest) rolls (stake { a with delegate := delegate, rolls := rolls } rest.frozen))
    (hcar : Carried a.rolls rolls) : Ledger { a with delegate := delegate, rolls := rolls } rest := by
  have hper : ∀ d, a.delegate.mem (.implicit d) = true → delegate.mem (.implicit d) = true := by
    intro d hmem
    by_cases hd : .implicit d = contract
    · exact hd ▸ hkeep d hd.symm
    · rw [mem, hoths _ hd]
      exact hmem
  have hself : ∀ d d', delegate.find? (.implicit d) = some d' → d' = d := by
    intro d d' hfind
    by_cases hd : .implicit d = contract
    · subst hd
      rcases (hnew d' hfind).1 with hsame | ⟨-, hash, horig⟩
      · exact (Contract.implicit.inj hsame).symm
      · cases horig
    · exact h.registry.self d d' ((hoths _ hd).symm.trans hfind)
  -- What a new delegate has to meet holds of the contract's new one, and of all the others as before.
  have hboth : ∀ d, delegate.mem (.implicit d) = true →
      (∃ pk, a.manager.find? (.implicit d) = some (.publicKey pk)) ∧ rolls.delegateChange.mem d = true := by
    intro d hmem
    by_cases hd : .implicit d = contract
    · obtain ⟨d', hfind⟩ := isSome_iff_exists.mp hmem
      obtain rfl := hself d d' hfind
      exact (hnew d' (hd ▸ hfind)).2
    · rw [mem, hoths _ hd] at hmem
      exact ⟨h.registry.known d hmem, hcar.inited d (h.registry.inited d hmem)⟩
  have hold : ∀ d, delegate.mem (.implicit d) = false → a.delegate.mem (.implicit d) = false := by
    intro d hnot
    by_contra hmem
    rw [hper d (Bool.not_eq_false _ ▸ hmem)] at hnot
    cases hnot
  refine ⟨⟨hself, fun contract' d hfind => ?_, fun contract' hmem => ?_, fun d hmem => (hboth d hmem).1,
    h.registry.keys,
    fun d hmem => (hboth d hmem).2, fun snapshot owners roll pk howners hroll => ?_⟩,
      fun d hnot => h.deposits d (hold d hnot),
    fun d hnot => h.fees d (hold d hnot), fun d hnot => h.rewards d (hold d hnot), hbalanced⟩
  · by_cases hcont : contract' = contract
    · subst hcont
      rcases (hnew d hfind).1 with rfl | ⟨hmem, -⟩
      · exact mem_of_find? hfind
      · exact hper d hmem
    · exact hper d (h.registry.registered contract' d ((hoths _ hcont).symm.trans hfind))
  · by_cases hcont : contract' = contract
    · subst hcont
      exact hbal
    · rw [mem, hoths _ hcont] at hmem
      exact h.registry.funded contract' hmem
  · rw [hcar.snapshots] at howners
    exact hper _ (h.registry.owners snapshot owners roll pk howners hroll)

theorem Ledger.undelegate {r₁ : Rolls p} (rolls : Rolls p) (hbal : a.balance.find? contract = some balance)
    (hrem : removeFor (rollEnvOf a rest) a.rolls (a.delegate.find? contract) balance = .ok r₁) :
    Balanced (rollEnvOf a rest) r₁
      (stake { a with delegate := a.delegate.remove contract, rolls := rolls } rest.frozen) ∧
      Carried a.rolls r₁ := by
  refine h.balanced.removeFor _ hrem fun d' => ?_
  have hsum := delegatedTo_switch (a := a) { a with delegate := a.delegate.remove contract, rolls := rolls } d'
    hbal rfl fun contract' hne => by rw [find?_remove, if_neg hne]
  simp only [find?_remove_self, reduceCtorEq, if_false, add_zero] at hsum
  simp only [stake]
  omega

theorem Ledger.unlink (hbal : a.balance.find? (.originated hash) = some balance)
    (hrem : removeFor (rollEnvOf a rest) a.rolls (a.delegate.find? (.originated hash)) balance = .ok rolls) :
    Ledger { a with delegate := a.delegate.remove (.originated hash), rolls := rolls } rest := by
  obtain ⟨hbalanced, hcar⟩ := h.undelegate rolls hbal hrem
  refine h.switch (mem_of_find? hbal) (fun contract' hne => ?_) (fun d' hfind => ?_) (fun d' heq => ?_) hbalanced hcar
  · rw [find?_remove, if_neg hne]
  · rw [find?_remove_self] at hfind
    cases hfind
  · cases heq

/-- A contract goes from its delegate, if it has one, to another: the balance is taken from the stake of the first, then
    it joins that of the second. An implicit contract only ever delegates to itself. -/
theorem Ledger.relink {d : p.PublicKeyHash} {r₁ r₂ : Rolls p} (hbal : a.balance.find? contract = some balance)
    (hrem : removeFor (rollEnvOf a rest) a.rolls (a.delegate.find? contract) balance = .ok r₁)
    (hadd : addAmount (rollEnvOf a rest) r₁ d balance = .ok r₂)
    (hact : rolls = r₂ ∨ setActive (rollEnvOf a rest) r₂ d = .ok rolls)
    (hkind : contract = .implicit d ∨ (a.delegate.mem (.implicit d) = true ∧ ∃ hash, contract = .originated hash))
    (hkn : ∃ pk, a.manager.find? (.implicit d) = some (.publicKey pk)) :
    Ledger { a with delegate := a.delegate.add contract d, rolls := rolls } rest := by
  obtain ⟨hbalanced₁, hcar₁⟩ := h.undelegate rolls hbal hrem
  obtain ⟨hbalanced₂, hcar₂, hinit₂⟩ := hbalanced₁.addAmount
    (stake { a with delegate := a.delegate.add contract d, rolls := rolls } rest.frozen) hadd fun d' => by
      have hsum := delegatedTo_switch (a := { a with delegate := a.delegate.remove contract, rolls := rolls })
        { a with delegate := a.delegate.add contract d, rolls := rolls } d' hbal rfl
        fun contract' hne => by rw [find?_add, find?_remove, if_neg hne, if_neg hne]
      simp only [find?_remove_self, find?_add_self, some_inj, reduceCtorEq, if_false, add_zero,
        eq_comm (a := d)] at hsum
      simp only [stake, hsum]
      omega
  have haft : Balanced (rollEnvOf a rest) rolls
      (stake { a with delegate := a.delegate.add contract d, rolls := rolls } rest.frozen) ∧ Carried r₂ rolls := by
    rcases hact with rfl | hact
    · exact ⟨hbalanced₂, .refl rolls⟩
    · exact hbalanced₂.setActive hact
  refine h.switch (mem_of_find? hbal) (fun contract' hne => ?_) (fun d' hfind => ?_) (fun d' heq => ?_)
    haft.1 ((hcar₁.trans hcar₂).trans haft.2)
  · rw [find?_add, if_neg hne]
  · rw [find?_add_self, some_inj] at hfind
    subst hfind
    exact ⟨hkind, hkn, haft.2.inited d hinit₂⟩
  · exact mem_add.mpr (.inl rfl)

theorem Ledger.link {d : p.PublicKeyHash} (hnone : a.delegate.find? (.originated hash) = none)
    (hbal : a.balance.find? (.originated hash) = some balance) (hreg : a.delegate.mem (.implicit d) = true)
    (hkn : ∃ pk, a.manager.find? (.implicit d) = some (.publicKey pk))
    (hadd : addAmount (rollEnvOf a rest) a.rolls d balance = .ok rolls) :
    Ledger { a with delegate := a.delegate.add (.originated hash) d, rolls := rolls } rest := by
  refine h.relink hbal ?_ hadd (.inl rfl) (.inr ⟨hreg, hash, rfl⟩) hkn
  rw [hnone]
  rfl

end

end Tezos.Protocol
