import Tezos.Protocol.Apply
import Tezos.Theorems.Protocol.Stake.Runs

/-! No manager operation is accepted twice: an account that is allocated again starts from the global counter, which
    no counter is ahead of. -/

namespace Tezos.Protocol
open Lib DelegateStorage ContractStorage List Store

variable {p : Primitives} {ctxt ctxt' : Context p} {contract : Contract p} {delegate : Option p.PublicKeyHash}

/-! ### What happens to the counters -/

/-- How the counters change when a contract is created or deleted. -/
inductive Recounted (k : Counters p) : Counters p → Prop
  | same : Recounted k k
  | created (contract : Contract p) (n : Nat) (hnew : k.counter.mem contract = false) (hle : n ≤ k.globalCounter)
    (himplicit : ∀ pkh, contract = .implicit pkh → n = k.globalCounter) :
    Recounted k { k with counter := k.counter.add contract n }
  | deleted (pkh : p.PublicKeyHash) : Recounted k { k with counter := k.counter.remove (.implicit pkh) }

theorem Recounted.of_rest {rest : Rest p} (h : ctxt'.rest = rest) (hsame : rest.counters = ctxt.rest.counters) :
    Recounted ctxt.rest.counters ctxt'.rest.counters := by
  rw [h, hsame]
  exact .same

theorem initialCounter_le : initialCounter ctxt contract ≤ ctxt.context.contracts.globalCounter := by
  unfold initialCounter
  split
  · exact Nat.zero_le _
  · exact le_refl _

theorem initDelegate_rest (h : initDelegate ctxt contract delegate = .ok ctxt') : ctxt'.rest = ctxt.rest := by
  rcases delegate with _ | d
  · cases h
    rfl
  · obtain ⟨balance, rolls, -, -, -, -, -, -, hrest⟩ := init_eq_ok h
    exact hrest

theorem createBase_recounted {prepaid spendable delegatable : Bool} {balance : Tez} {manager : p.PublicKeyHash}
    {script : Option (Script p × Option (BigMapDiff p))}
    (h : (createBase ctxt prepaid contract balance manager delegate script spendable delegatable).outcome =
      .ok ctxt') : Recounted ctxt.rest.counters ctxt'.rest.counters := by
  obtain ⟨-, -, ctxt₁, hdel, hnew, hsame⟩ := createBase_eq_ok h
  have hrest : ctxt₁.rest.counters = ctxt.rest.counters :=
    (congrArg Rest.counters (initDelegate_rest hdel)).trans rfl
  have hcnt : ctxt'.rest.counters =
      { ctxt₁.rest.counters with
        counter := ctxt₁.rest.counters.counter.add contract (initialCounter ctxt contract) } :=
    congrArg Rest.counters hsame.2
  have hnew : ctxt₁.rest.counters.counter.mem contract = false := hnew
  rw [hrest] at hcnt hnew
  rw [hcnt]
  refine .created contract _ hnew initialCounter_le fun pkh heq => ?_
  rw [heq]
  rfl

theorem spendFromScript_recounted {amount : Tez} (h : (spendFromScript ctxt contract amount).outcome = .ok ctxt') :
    Recounted ctxt.rest.counters ctxt'.rest.counters := by
  obtain ⟨_, _, _, -, -, -, ⟨-, hrest⟩ | ⟨-, -, ⟨pkh, rfl⟩, -, hrest⟩⟩ := spendFromScript_eq_ok h
  · exact .of_rest hrest rfl
  · rw [hrest]
    exact .deleted pkh

theorem setBase_rest {delegatable : Context p → Contract p → Bool}
    (h : setBase ctxt delegatable contract delegate = .ok ctxt') : ctxt'.rest = ctxt.rest := by
  rcases delegate with _ | d
  · obtain ⟨_, _, _, -, -, -, -, hrest⟩ := setBase_none_eq_ok h
    exact hrest
  · obtain ⟨_, _, _, _, -, -, -, -, -, -, -, -, hrest⟩ := setBase_some_eq_ok h
    exact hrest

theorem perform_recounted {action : Action p} (h : perform ctxt action = .ok ctxt') :
    Recounted ctxt.rest.counters ctxt'.rest.counters := by
  cases action with
  | credit =>
    rcases credit_eq_ok h with ⟨-, manager, ctxt₁, -, hsame, hcrt⟩ | ⟨_, _, _, -, -, -, -, hrest⟩
    · rw [← congrArg Rest.counters hsame.2]
      exact createBase_recounted hcrt
    · exact .of_rest hrest rfl
  | spend => exact spendFromScript_recounted (spend_eq_ok h)
  | spendFromScript => exact spendFromScript_recounted h
  | originate => exact createBase_recounted h
  | setDelegate => exact .of_rest (setBase_rest h) rfl
  | setDelegateFromScript hash delegate =>
    have h : setBase ctxt (fun _ _ => true) (.originated hash) delegate = .ok ctxt' := h
    exact .of_rest (setBase_rest h) rfl
  | reveal => exact .of_rest (revealManagerKey_eq_ok h).2.2 rfl
  | freezeDeposit =>
    obtain ⟨_, _, _, _, -, -, -, -, rfl⟩ := freezeDeposit_eq_ok h
    exact .same
  | freezeFees =>
    obtain ⟨_, _, -, -, rfl⟩ := freezeFees_eq_ok h
    exact .same
  | freezeRewards =>
    obtain ⟨_, -, rfl⟩ := freezeRewards_eq_ok h
    exact .same
  | burnFees =>
    obtain ⟨_, _, -, -, -, rfl⟩ := burnFees_eq_ok h
    exact .same
  | burnRewards | nextLevel | setGas =>
    cases h
    exact .same
  | unfreeze =>
    obtain ⟨⟨ctxt₁, updates⟩, hunf, h⟩ := bind_eq_ok.mp h
    obtain ⟨_, _, _, -, -, -, rfl⟩ := unfreeze_eq_ok hunf
    cases h
    exact .same
  | punish =>
    obtain ⟨⟨ctxt₁, balance⟩, hpun, h⟩ := bind_eq_ok.mp h
    obtain ⟨_, _, -, -, -, rfl⟩ := punish_eq_ok hpun
    cases h
    exact .same
  | setActive =>
    obtain ⟨rolls, -, rfl⟩ := RollStorage.setActive_eq_ok h
    exact .same
  | setInactive =>
    obtain ⟨rolls, -, rfl⟩ := RollStorage.setInactive_eq_ok h
    exact .same
  | snapshotRolls =>
    obtain ⟨rolls, -, h⟩ := bind_eq_ok.mp h
    cases h
    exact .same
  | rollCycleEnd =>
    obtain ⟨_, -, h⟩ := bind_eq_ok.mp h
    obtain ⟨_, -, h⟩ := bind_eq_ok.mp h
    obtain ⟨_, -, h⟩ := bind_eq_ok.mp h
    cases h
    exact .same
  | cycleEnd =>
    obtain ⟨⟨ctxt₁, updates, deactivated⟩, hend, h⟩ := bind_eq_ok.mp h
    have hcnt : ctxt₁.rest.counters = ctxt.rest.counters := congrArg Prod.snd (cycleEnd_standing hend)
    cases h
    exact .of_rest rfl hcnt

theorem traceGassed_eq_ok {α : Type} {error : Error p} {x : Gassed p α} {a : α} :
    (traceGassed error x).outcome = .ok a ↔ x.outcome = .ok a := trace_eq_ok

theorem precheckOperation_counters {operation : ManagerOperation p}
    (h : (precheckOperation ctxt contract operation).outcome = .ok ctxt') :
    ctxt'.rest.counters = ctxt.rest.counters := by
  unfold precheckOperation at h
  split at h
  · exact congrArg Rest.counters (revealManagerKey_eq_ok h).2.2
  · simp only [Metered.outcome_bind] at h
    obtain ⟨-, -, h⟩ := bind_eq_ok.mp h
    obtain ⟨⟨_, ctxt₁⟩, hdec, h⟩ := bind_eq_ok.mp h
    cases h
    exact congrArg Rest.counters ((Carbonated.forceDecode_clean (.refl _)).gives _ (traceGassed_eq_ok.mp hdec)).2
  · simp only [Metered.outcome_bind] at h
    obtain ⟨-, -, h⟩ := bind_eq_ok.mp h
    obtain ⟨⟨_, ctxt₁⟩, hcode, h⟩ := bind_eq_ok.mp h
    obtain ⟨⟨_, ctxt₂⟩, hstor, h⟩ := bind_eq_ok.mp h
    have hsame := (Carbonated.forceDecode_clean (.refl _)).gives _ (traceGassed_eq_ok.mp hcode)
    have hsame := (Carbonated.forceDecode_clean hsame).gives _ (traceGassed_eq_ok.mp hstor)
    cases h
    exact congrArg Rest.counters hsame.2
  · cases h
    rfl

theorem checkCounterIncrement_eq_ok {counter : Nat} {u : Unit}
    (h : checkCounterIncrement ctxt contract counter = .ok u) :
    ∃ n, ctxt.rest.counters.counter.find? contract = some n ∧ n + 1 = counter := by
  obtain ⟨n, hfind, h⟩ := getKey_bind_ok.mp h
  simp only at h
  split at h
  · exact ⟨n, hfind, by assumption⟩
  · split at h <;> cases h

theorem incrementCounter_eq_ok (h : incrementCounter ctxt contract = .ok ctxt') :
    ∃ n, ctxt.rest.counters.counter.find? contract = some n ∧ ctxt'.rest.counters =
      ⟨ctxt.rest.counters.globalCounter + 1, ctxt.rest.counters.counter.add contract (n + 1)⟩ := by
  obtain ⟨n, hfind, h⟩ := getKey_bind_ok.mp h
  obtain ⟨-, h⟩ := setKey_bind_ok.mp h
  cases h
  exact ⟨n, hfind, rfl⟩

variable {check : SignatureCheck p} {chainId : p.ChainId} {rawOperation : Operation p}

theorem precheckManagerContents_counters {op : ManagerContents p}
    (h : (precheckManagerContents check chainId rawOperation ctxt op).outcome = .ok ctxt') :
    ∃ n, ctxt.rest.counters.counter.find? op.source = some n ∧ op.counter = n + 1 ∧
      Recounted ⟨ctxt.rest.counters.globalCounter + 1, ctxt.rest.counters.counter.add op.source (n + 1)⟩
        ctxt'.rest.counters := by
  simp only [precheckManagerContents, Metered.outcome_bind] at h
  obtain ⟨-, -, h⟩ := bind_eq_ok.mp h
  obtain ⟨-, -, h⟩ := bind_eq_ok.mp h
  obtain ⟨-, -, h⟩ := bind_eq_ok.mp h
  obtain ⟨_, hchk, h⟩ := bind_eq_ok.mp h
  obtain ⟨ctxt₁, hoper, h⟩ := bind_eq_ok.mp h
  have hcnt := precheckOperation_counters hoper
  obtain ⟨_, -, h⟩ := bind_eq_ok.mp h
  obtain ⟨-, -, h⟩ := bind_eq_ok.mp h
  obtain ⟨ctxt₂, hincr, h⟩ := bind_eq_ok.mp h
  obtain ⟨ctxt₃, hspend, h⟩ := bind_eq_ok.mp h
  have hfees : ctxt₃.addFees op.fee = .ok ctxt' := h
  obtain ⟨fees, -, hfees⟩ := bind_eq_ok.mp hfees
  cases hfees
  obtain ⟨n, hfind, hcoun⟩ := checkCounterIncrement_eq_ok hchk
  obtain ⟨m, hsto, hinc⟩ := incrementCounter_eq_ok hincr
  rw [hcnt] at hsto hinc
  obtain rfl := Option.some_inj.mp (hfind.symm.trans hsto)
  refine ⟨n, hfind, hcoun.symm, ?_⟩
  have hspn := spendFromScript_recounted (spend_eq_ok hspend)
  rw [hinc] at hspn
  exact hspn

/-- What was accepted from a source is not ahead of the global counter, nor of the counter of the source, which only
    an implicit source may have lost. -/
def Past (k : Counters p) (a : Contract p × Nat) : Prop :=
  a.2 ≤ k.globalCounter ∧
    ((k.counter.find? a.1 = none ∧ ∃ pkh, a.1 = .implicit pkh) ∨ ∃ n, k.counter.find? a.1 = some n ∧ a.2 ≤ n)

/-- No counter is ahead of the global one, and each source was accepted with greater and greater counters. -/
structure Unreplayed (k : Counters p) (accepted : List (Contract p × Nat)) : Prop where
  bounded : ∀ contract n, k.counter.find? contract = some n → n ≤ k.globalCounter
  past : ∀ a ∈ accepted, Past k a
  increasing : accepted.Pairwise fun a b => a.1 = b.1 → a.2 < b.2

variable {k k' : Counters p} {accepted : List (Contract p × Nat)} {a : Contract p × Nat} {n : Nat}

theorem Past.recounted (h : Past k a) (hrecounted : Recounted k k') : Past k' a := by
  obtain ⟨hglob, hcoun⟩ := h
  cases hrecounted with
  | same => exact ⟨hglob, hcoun⟩
  | created contract n hnew hle himplicit =>
    refine ⟨hglob, ?_⟩
    simp only [find?_add]
    split
    · rename_i heq
      rcases hcoun with ⟨-, pkh, hpkh⟩ | ⟨m, hm, -⟩
      · exact .inr ⟨n, rfl, (himplicit pkh (heq.symm.trans hpkh)).symm ▸ hglob⟩
      · simp [Store.mem, ← heq, hm] at hnew
    · exact hcoun
  | deleted pkh =>
    refine ⟨hglob, ?_⟩
    simp only [find?_remove]
    split
    · rename_i heq
      exact .inl ⟨rfl, pkh, heq⟩
    · exact hcoun

theorem Unreplayed.recounted (h : Unreplayed k accepted) (hrecounted : Recounted k k') : Unreplayed k' accepted := by
  refine ⟨?_, fun a ha => (h.past a ha).recounted hrecounted, h.increasing⟩
  intro contract' m hm
  cases hrecounted with
  | same => exact h.bounded contract' m hm
  | created contract n hnew hle himplicit =>
    simp only [find?_add] at hm
    split at hm
    · cases hm
      exact hle
    · exact h.bounded contract' m hm
  | deleted pkh =>
    simp only [find?_remove] at hm
    split at hm
    · cases hm
    · exact h.bounded contract' m hm

theorem Past.accept (h : Past k a) (hfind : k.counter.find? contract = some n) :
    Past ⟨k.globalCounter + 1, k.counter.add contract (n + 1)⟩ a ∧ (a.1 = contract → a.2 < n + 1) := by
  have hle : a.1 = contract → a.2 ≤ n := by
    rintro rfl
    rcases h.2 with ⟨hnone, -⟩ | ⟨m, hm, hle⟩
    · rw [hfind] at hnone
      cases hnone
    · obtain rfl := Option.some_inj.mp (hfind.symm.trans hm)
      exact hle
  refine ⟨⟨Nat.le_succ_of_le h.1, ?_⟩, fun heq => Nat.lt_succ_of_le (hle heq)⟩
  simp only [find?_add]
  split
  · rename_i heq
    exact .inr ⟨n + 1, rfl, Nat.le_succ_of_le (hle heq)⟩
  · exact h.2

theorem Unreplayed.accept (h : Unreplayed k accepted) (hfind : k.counter.find? contract = some n) :
    Unreplayed ⟨k.globalCounter + 1, k.counter.add contract (n + 1)⟩ (accepted ++ [(contract, n + 1)]) := by
  have hn := Nat.succ_le_succ (h.bounded contract n hfind)
  refine ⟨fun contract' m hm => ?_, fun a ha => ?_, pairwise_append.mpr
    ⟨h.increasing, pairwise_singleton _ _, fun a ha b hb heq => ?_⟩⟩
  · simp only [find?_add] at hm
    split at hm
    · cases hm
      exact hn
    · exact Nat.le_succ_of_le (h.bounded contract' m hm)
  · rcases mem_append.mp ha with ha | ha
    · exact ((h.past a ha).accept hfind).1
    · obtain rfl := mem_singleton.mp ha
      exact ⟨hn, .inr ⟨n + 1, find?_add_self, le_refl _⟩⟩
  · obtain rfl := mem_singleton.mp hb
    exact ((h.past a ha).accept hfind).2 heq

theorem Unreplayed.accountingStep (h : Unreplayed ctxt.rest.counters accepted) (action : Action p) :
    Unreplayed (accountingStep ctxt action).rest.counters accepted := by
  unfold Protocol.accountingStep
  split
  · rename_i ctxt₁ hper
    exact h.recounted (perform_recounted hper)
  · exact h

theorem Unreplayed.precheck {contents : List (ManagerContents p)} (h : Unreplayed ctxt.rest.counters accepted)
    (hchk : (precheckManagerContentsList check chainId rawOperation ctxt contents).outcome = .ok ctxt') :
    Unreplayed ctxt'.rest.counters (accepted ++ contents.map fun op => (op.source, op.counter)) := by
  induction contents generalizing ctxt accepted with
  | nil =>
    cases hchk
    rwa [map_nil, append_nil]
  | cons op contents ih =>
    rw [precheckManagerContentsList, foldlM_cons, Metered.outcome_bind] at hchk
    obtain ⟨ctxt₁, hop, hchk⟩ := bind_eq_ok.mp hchk
    obtain ⟨n, hfind, hcoun, hrecounted⟩ := precheckManagerContents_counters hop
    have hrest := ih ((h.accept hfind).recounted hrecounted) hchk
    rwa [append_assoc, ← hcoun] at hrest

theorem Unreplayed.step {s : History p} (h : Unreplayed s.ctxt.rest.counters s.accepted) (action : BlockAction p) :
    Unreplayed (s.step check action).ctxt.rest.counters (s.step check action).accepted := by
  cases action with
  | account action => exact h.accountingStep action
  | updateScriptStorage contract storage diff =>
    simp only [History.step]
    split
    · exact h
    · rename_i ctxt hupd
      have hsame := (updateScriptStorage_clean (.refl _)).gives _ hupd
      exact h.recounted (.of_rest hsame.2 rfl)
  | batch chainId rawOperation contents effects failed =>
    simp only [History.step]
    split
    · exact h
    · rename_i ctxt hchk
      have hacc := h.precheck hchk
      cases failed with
      | true => exact hacc
      | false =>
        exact inv_run (fun ctxt : Context p => Unreplayed ctxt.rest.counters _) hacc
          (fun ctxt action hctxt => hctxt.accountingStep action) effects

/-- On every chain, no counter is ahead of the global counter, and the counters accepted from a source, whether or not
    it was deleted and allocated again in between, are strictly increasing. -/
theorem no_replay (check : SignatureCheck p) (base : Context p) (actions : List (BlockAction p)) :
    let s := run (History.step check) ⟨beforeBootstrap base, []⟩ actions
    (∀ contract n, s.ctxt.context.contracts.counter.find? contract = some n →
        n ≤ s.ctxt.context.contracts.globalCounter) ∧
      ∀ source, ((s.accepted.filter fun a => a.1 = source).map Prod.snd).Pairwise (· < ·) := by
  intro s
  have h : Unreplayed s.ctxt.rest.counters s.accepted := by
    refine inv_run (fun s : History p => Unreplayed s.ctxt.rest.counters s.accepted) ?_
      (fun s action hs => hs.step action) actions
    refine ⟨fun contract n hn => ?_, fun a ha => ?_, List.Pairwise.nil⟩
    · cases hn
    · cases ha
  refine ⟨h.bounded, fun source => pairwise_map.mpr ?_⟩
  refine (h.increasing.filter _).imp_of_mem fun ha hb hlt => hlt ?_
  simp only [mem_filter, decide_eq_true_eq] at ha hb
  exact ha.2.trans hb.2.symm

end Tezos.Protocol
