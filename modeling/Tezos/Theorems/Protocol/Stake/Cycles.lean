import Tezos.Theorems.Protocol.Stake.Frozen

/-! The end of a cycle keeps the ledger sound, and leaves no rolls to the delegates that are inactive in the next one.
    On a sound ledger no operation fails because a delegate has less than what is to be removed from its stake. -/

namespace Tezos.Protocol
open Lib DelegateStorage Rolls

variable {p : Primitives} {ctxt ctxt' : Context p} {d : p.PublicKeyHash} {lastCycle : Nat}

/-! ### Snapshots -/

variable {a : Accounts p} {rest : Rest p} {r r' : Rolls p} {cycle : Nat} {acc acc' : Context p × BalanceUpdates p}
  {nonce : UnrevealedNonce p} {deactivated deactivated' : List p.PublicKeyHash}
  {lists : Option p.PublicKeyHash → List Nat} {unrevealed : List (UnrevealedNonce p)} {updates : BalanceUpdates p}
  {env env' : RollEnv p} {level : Level} {pk : p.PublicKey}

theorem Ledger.owner_registered {roll : Nat} (h : Ledger a rest)
    (howner : a.rolls.owner.find? roll = some pk) : a.delegate.mem (.implicit (p.hash pk)) = true := by
  obtain ⟨lists, hkept, hwth⟩ := h.balanced
  obtain ⟨d, hroll, hkey⟩ := (hkept.held.owner roll pk).mp howner
  have hsome : ((rollEnvOf a rest).key d).isSome = true := by
    rw [hkey]
    rfl
  obtain ⟨pk', hfind⟩ := key_isSome hsome
  have hsame : pk' = pk := by
    simp only [RollEnv.key, rollEnvOf, hfind] at hkey
    exact Option.some_inj.mp hkey
  subst hsame
  rcases h.registry.keys d _ hfind with hhash | ⟨pk, heq, hhash⟩
  · cases hhash
  · obtain rfl := Manager.publicKey.inj heq
    rw [hhash]
    by_contra hnot
    have hzero := h.stake_zero (d := d) (by simpa using hnot)
    have hemp := hkept.empty_of_worth_zero ((hwth d).trans hzero)
    rw [hemp] at hroll
    cases hroll

/-- Only the snapshots changed, and the new ones are of the owners of now. -/
structure Snapshotted (r r' : Rolls p) : Prop where
  same : ∃ snapshotForCycle lastForSnapshot ownerSnapshot, r' = { r with
    snapshotForCycle := snapshotForCycle, lastForSnapshot := lastForSnapshot, ownerSnapshot := ownerSnapshot }
  owners : ∀ snapshot owners, r'.ownerSnapshot.find? snapshot = some owners →
    r.ownerSnapshot.find? snapshot = some owners ∨ owners = r.owner

theorem Snapshotted.refl (r : Rolls p) : Snapshotted r r := ⟨⟨_, _, _, rfl⟩, fun _ _ => .inl⟩

theorem Snapshotted.trans {r'' : Rolls p} (h : Snapshotted r r') (h' : Snapshotted r' r'') : Snapshotted r r'' := by
  obtain ⟨s, l, o, rfl⟩ := h.same
  obtain ⟨s', l', o', rfl⟩ := h'.same
  refine ⟨⟨s', l', o', rfl⟩, fun snapshot owners hfind => ?_⟩
  rcases h'.owners snapshot owners hfind with hfind | rfl
  · exact h.owners snapshot owners hfind
  · exact .inr rfl

theorem snapshotRollsForCycle_snapshotted (h : r.snapshotRollsForCycle cycle = .ok r') : Snapshotted r r' := by
  obtain ⟨index, -, h⟩ := bind_eq_ok.mp h
  obtain ⟨snapshotForCycle, -, h⟩ := bind_eq_ok.mp h
  split at h
  · cases h
  · obtain ⟨lastForSnapshot, -, h⟩ := bind_eq_ok.mp h
    cases h
    refine ⟨⟨_, _, _, rfl⟩, fun snapshot owners hfind => ?_⟩
    rw [Store.find?_add] at hfind
    split at hfind
    · exact .inr (Option.some_inj.mp hfind).symm
    · exact .inl hfind

theorem find?_of_remove {K V : Type} [LinearOrder K] {s : Store K V} {k k' : K} {v : V}
    (h : (s.remove k).find? k' = some v) : s.find? k' = some v := by
  rw [Store.find?_remove] at h
  split at h
  · cases h
  · exact h

theorem clearCycle_snapshotted (h : r.clearCycle cycle = .ok r') : Snapshotted r r' := by
  obtain ⟨index, -, h⟩ := bind_eq_ok.mp h
  obtain ⟨snapshotForCycle, -, h⟩ := bind_eq_ok.mp h
  obtain ⟨lastForSnapshot, -, h⟩ := bind_eq_ok.mp h
  cases h
  exact ⟨⟨_, _, _, rfl⟩, fun snapshot owners hfind => .inl (find?_of_remove hfind)⟩

theorem dropSnapshots_snapshotted {selectedIndex index : Nat}
    (h : dropSnapshots cycle selectedIndex r index = .ok r') : Snapshotted r r' := by
  unfold dropSnapshots at h
  split at h
  · cases h
    exact .refl _
  · obtain ⟨lastForSnapshot, -, h⟩ := bind_eq_ok.mp h
    cases h
    exact ⟨⟨_, _, _, rfl⟩, fun snapshot owners hfind => .inl (find?_of_remove hfind)⟩

theorem freezeRollsForCycle_snapshotted {seeds : Seeds p} (h : r.freezeRollsForCycle seeds cycle = .ok r') :
    Snapshotted r r' := by
  obtain ⟨maxIndex, -, h⟩ := bind_eq_ok.mp h
  obtain ⟨seed, -, h⟩ := bind_eq_ok.mp h
  split at h
  · cases h
  · obtain ⟨snapshotForCycle, -, h⟩ := bind_eq_ok.mp h
    have hstr : Snapshotted r { r with snapshotForCycle } := ⟨⟨_, _, _, rfl⟩, fun _ _ => .inl⟩
    exact foldlM_inv (Snapshotted r) (fun r₁ index r₂ hr₁ hdrop => hr₁.trans (dropSnapshots_snapshotted hdrop)) hstr
      h

theorem Ledger.of_snapshotted {rolls : Rolls p} (h : Ledger a rest) (hrl : Snapshotted a.rolls rolls) :
    Ledger { a with rolls } rest := by
  obtain ⟨lists, hkept, hwth⟩ := h.balanced
  have hown := hrl.owners
  obtain ⟨s, l, o, rfl⟩ := hrl.same
  refine ⟨⟨h.registry.self, h.registry.registered, h.registry.funded, h.registry.known, h.registry.keys,
    h.registry.inited,
    fun snapshot owners roll pk hfind hroll => ?_⟩, h.deposits, h.fees, h.rewards, lists, ?_, hwth⟩
  · rcases hown snapshot owners hfind with hfind | rfl
    · exact h.registry.owners snapshot owners roll pk hfind hroll
    · exact h.owner_registered hroll
  · exact ⟨hkept.held.congr rfl rfl rfl rfl rfl, hkept.sound, hkept.tidy⟩

theorem snapshotRolls_sound (h : Sound ctxt) (hsnap : RollStorage.snapshotRolls ctxt = .ok ctxt') : Sound ctxt' := by
  obtain ⟨rolls, hrl, hsnap⟩ := bind_eq_ok.mp hsnap
  cases hsnap
  exact h.of_snapshotted (snapshotRollsForCycle_snapshotted hrl)

theorem rollCycleEnd_sound (h : Sound ctxt) (hend : RollStorage.cycleEnd ctxt lastCycle = .ok ctxt') : Sound ctxt' := by
  obtain ⟨cleared, hclr, hend⟩ := bind_eq_ok.mp hend
  obtain ⟨frozen, hfroz, hend⟩ := bind_eq_ok.mp hend
  obtain ⟨snapshotForCycle, -, hend⟩ := bind_eq_ok.mp hend
  cases hend
  have hfst : Snapshotted ctxt.context.rolls cleared := by
    split at hclr
    · cases hclr
      exact .refl _
    · exact clearCycle_snapshotted hclr
  have hlast : Snapshotted frozen { frozen with snapshotForCycle } := ⟨⟨_, _, _, rfl⟩, fun _ _ => .inl⟩
  exact h.of_snapshotted ((hfst.trans (freezeRollsForCycle_snapshotted hfroz)).trans hlast)

/-! ### The end of a cycle -/

theorem burnUnrevealed_sound (h : Sound acc.1) (hburn : burnUnrevealed cycle acc nonce = .ok acc') : Sound acc'.1 := by
  obtain ⟨ctxt₁, hfees, hburn⟩ := bind_eq_ok.mp hburn
  have hsnd : Sound (burnRewards ctxt₁ nonce.delegate cycle nonce.rewards) :=
    burnRewards_sound (burnFees_sound h hfees)
  cases hburn
  exact hsnd

theorem unfreezeOne_sound (h : Sound acc.1) (hunf : unfreezeOne cycle acc d = .ok acc') : Sound acc'.1 := by
  obtain ⟨⟨ctxt₁, updates⟩, hone, hunf⟩ := bind_eq_ok.mp hunf
  have hsnd := unfreeze_sound h hone
  cases hunf
  exact hsnd

theorem clearFrozenDelegates_sound (h : Sound ctxt) : Sound (clearFrozenDelegates ctxt cycle) :=
  h.refreeze rfl rfl (fun _ => id) (.refl _) rfl rfl h.deposits h.fees h.rewards h.balanced

/-- A delegate with rolls is not due to be deactivated at the end of the cycle. -/
def Lasting (lastCycle : Nat) (r : Rolls p) (lists : Option p.PublicKeyHash → List Nat) (d : p.PublicKeyHash) : Prop :=
  lists (some d) ≠ [] → ∀ cycle, r.delegateDesactivation.find? d = some cycle → lastCycle < cycle

/-- Delegates lose their rolls, and no one gets any; what they are worth stays. -/
structure Retired (env : RollEnv p) (r : Rolls p) (lists : Option p.PublicKeyHash → List Nat) (r' : Rolls p)
    (lists' : Option p.PublicKeyHash → List Nat) : Prop where
  kept : Kept env r' lists'
  worth : ∀ d, worth env r' lists' d = worth env r lists d
  carried : Carried r r'
  desactivation : r'.delegateDesactivation = r.delegateDesactivation
  none : ∀ d, lists' (some d) ≠ [] → lists (some d) ≠ []

/-- A delegate that is visited loses its rolls, unless it stays active. -/
theorem deactivateOne_eq_ok (hkept : Kept ctxt.rollEnv ctxt.context.rolls lists)
    (h : deactivateOne lastCycle (ctxt, deactivated) d = .ok (ctxt', deactivated')) :
    ∃ rolls lists', ctxt' = { ctxt with context.rolls := rolls } ∧
      Retired ctxt.rollEnv ctxt.context.rolls lists rolls lists' ∧ Lasting lastCycle rolls lists' d := by
  obtain ⟨cycle, hcyc, h⟩ := getKey_bind_ok.mp h
  split at h
  · obtain ⟨ctxt₁, hinact, h⟩ := bind_eq_ok.mp h
    obtain ⟨rolls, hrl, rfl⟩ := RollStorage.setInactive_eq_ok hinact
    cases h
    obtain ⟨lists', hkept', hwth, hinit, hemp, hoths, hdes, -, hsnp⟩ :=
      setInactive_eq_ok hkept hrl
    refine ⟨rolls, lists', rfl, ⟨hkept', hwth, ⟨fun d' hmem => (hinit d').mpr (.inl hmem), hsnp⟩, hdes,
      fun d' hne => ?_⟩, fun hne => absurd hemp hne⟩
    have hd : d' ≠ d := by
      rintro rfl
      exact hne hemp
    rw [hoths d' hd] at hne
    exact hne
  · rename_i hlate
    cases h
    refine ⟨_, lists, rfl, ⟨hkept, fun _ => rfl, .refl _, rfl, fun _ => id⟩, fun _ cycle' hfind => ?_⟩
    obtain rfl := Option.some_inj.mp (hcyc.symm.trans hfind)
    exact Nat.lt_of_not_le hlate

theorem deactivate_eq_ok {delegates : List p.PublicKeyHash} (hkept : Kept ctxt.rollEnv ctxt.context.rolls lists)
    (h : delegates.foldlM (deactivateOne lastCycle) (ctxt, deactivated) = .ok (ctxt', deactivated')) :
    ∃ rolls lists', ctxt' = { ctxt with context.rolls := rolls } ∧
      Retired ctxt.rollEnv ctxt.context.rolls lists rolls lists' ∧
        ∀ d ∈ delegates, Lasting lastCycle rolls lists' d := by
  induction delegates generalizing ctxt deactivated lists with
  | nil =>
    cases h
    exact ⟨_, lists, rfl, ⟨hkept, fun _ => rfl, .refl _, rfl, fun _ => id⟩, by simp⟩
  | cons d delegates ih =>
    obtain ⟨⟨ctxt₁, deactivated₁⟩, hone, h⟩ := bind_eq_ok.mp h
    obtain ⟨r₁, lists₁, rfl, hret₁, hlas₁⟩ := deactivateOne_eq_ok hkept hone
    obtain ⟨rolls, lists', rfl, hret, hlas⟩ := ih hret₁.kept h
    refine ⟨rolls, lists', rfl, ⟨hret.kept, fun d' => (hret.worth d').trans (hret₁.worth d'),
      hret₁.carried.trans hret.carried, hret.desactivation.trans hret₁.desactivation,
      fun d' hne => hret₁.none d' (hret.none d' hne)⟩, fun d' hmem => ?_⟩
    rcases List.mem_cons.mp hmem with rfl | hmem
    · intro hne cycle hfind
      rw [hret.desactivation] at hfind
      exact hlas₁ (hret.none d' hne) cycle hfind
    · exact hlas d' hmem

/-- The ledger is sound, and the delegates with rolls stay active after a cycle. -/
def Settled (lastCycle : Nat) (ctxt : Context p) : Prop :=
  Sound ctxt ∧ ∃ lists, Kept ctxt.rollEnv ctxt.context.rolls lists ∧
    ∀ d, Lasting lastCycle ctxt.context.rolls lists d

/-- What its two first folds keep holds before delegates are deactivated; early cycles only burn. -/
theorem cycleEnd_cases (P : Context p → Prop)
    (hburn : ∀ cycle acc nonce acc', P acc.1 → burnUnrevealed cycle acc nonce = .ok acc' → P acc'.1)
    (hunf : ∀ cycle acc d acc', P acc.1 → unfreezeOne cycle acc d = .ok acc' → P acc'.1) (hctxt : P ctxt)
    (h : cycleEnd ctxt lastCycle unrevealed = .ok (ctxt', updates, deactivated)) :
    P ctxt' ∧ lastCycle < ctxt'.constants.preservedCycles ∨ ∃ ctxt₂ cycle, P ctxt₂ ∧
      (clearFrozenDelegates ctxt₂ cycle).context.rolls.activeDelegatesWithRolls.keys.foldlM (deactivateOne lastCycle)
        (clearFrozenDelegates ctxt₂ cycle, []) = .ok (ctxt', deactivated) := by
  obtain ⟨⟨ctxt₁, updates₁⟩, hone, h⟩ := bind_eq_ok.mp h
  have hfst : P ctxt₁ := by
    split at hone
    · cases hone
      exact hctxt
    · exact foldlM_inv (fun acc : Context p × BalanceUpdates p => P acc.1) (hburn _) hctxt hone
  simp only at h
  split at h
  · rename_i hearly
    cases h
    refine .inl ⟨hfst, ?_⟩
    simp only [cycleSub] at hearly
    split at hearly
    · cases hearly
    · omega
  · rename_i cycle hcyc
    obtain ⟨⟨ctxt₂, updates₂⟩, hall, h⟩ := bind_eq_ok.mp h
    obtain ⟨⟨ctxt₃, deactivated₃⟩, hdeac, h⟩ := bind_eq_ok.mp h
    cases h
    exact .inr ⟨ctxt₂, cycle, foldlM_inv (fun acc : Context p × BalanceUpdates p => P acc.1) (hunf _) hfst hall,
      hdeac⟩

theorem cycleEnd_settled (h : Sound ctxt)
    (hend : cycleEnd ctxt lastCycle unrevealed = .ok (ctxt', updates, deactivated)) :
    Settled lastCycle ctxt' := by
  rcases cycleEnd_cases Sound (fun _ _ _ _ => burnUnrevealed_sound) (fun _ _ _ _ => unfreezeOne_sound) h hend with
    ⟨hsnd, hfew⟩ | ⟨ctxt₂, cycle, hsnd₂, hdeac⟩
  · obtain ⟨lists, hkept, -⟩ := hsnd.balanced
    refine ⟨hsnd, lists, hkept, fun d _ cycle hfind => lt_of_lt_of_le hfew ?_⟩
    exact le_trans (Nat.le_add_left _ _) ((hkept.sound d).late cycle hfind)
  · have hsnd : Sound (clearFrozenDelegates ctxt₂ cycle) := clearFrozenDelegates_sound hsnd₂
    obtain ⟨lists, hkept, hwth⟩ := hsnd.balanced
    obtain ⟨rolls, lists', rfl, hret, hlas⟩ := deactivate_eq_ok hkept hdeac
    refine ⟨?_, lists', hret.kept, fun d hne => ?_⟩
    · exact hsnd.refreeze rfl rfl (fun _ => id) hret.carried rfl rfl hsnd.deposits hsnd.fees hsnd.rewards
        ⟨lists', hret.kept, fun d => (hret.worth d).trans (hwth d)⟩
    · -- Who has rolls had some before, so it was listed and visited.
      have hlis := (hkept.sound d).listed (hret.none d hne)
      exact hlas d (Store.mem_keys.mpr hlis) hne

def Context.standing (ctxt : Context p) : Level × Counters p := (ctxt.level, ctxt.rest.counters)

theorem burnUnrevealed_standing (h : burnUnrevealed cycle acc nonce = .ok acc') : acc'.1.standing = acc.1.standing := by
  obtain ⟨ctxt₁, hfees, h⟩ := bind_eq_ok.mp h
  obtain ⟨removed, rolls, -, -, -, rfl⟩ := burnFees_eq_ok hfees
  cases h
  rfl

theorem unfreezeOne_standing (h : unfreezeOne cycle acc d = .ok acc') : acc'.1.standing = acc.1.standing := by
  obtain ⟨⟨ctxt₁, updates⟩, hunf, h⟩ := bind_eq_ok.mp h
  obtain ⟨balance, newBalance, rolls, -, -, -, rfl⟩ := unfreeze_eq_ok hunf
  cases h
  rfl

theorem deactivateOne_standing {acc acc' : Context p × List p.PublicKeyHash}
    (h : deactivateOne lastCycle acc d = .ok acc') : acc'.1.standing = acc.1.standing := by
  obtain ⟨cycle, -, h⟩ := bind_eq_ok.mp h
  split at h
  · obtain ⟨ctxt₁, hinact, h⟩ := bind_eq_ok.mp h
    obtain ⟨rolls, -, rfl⟩ := RollStorage.setInactive_eq_ok hinact
    cases h
    rfl
  · cases h
    rfl

theorem cycleEnd_standing (h : cycleEnd ctxt lastCycle unrevealed = .ok (ctxt', updates, deactivated)) :
    ctxt'.standing = ctxt.standing := by
  rcases cycleEnd_cases (fun ctxt₁ => ctxt₁.standing = ctxt.standing)
    (fun _ _ _ _ hacc hone => (burnUnrevealed_standing hone).trans hacc)
    (fun _ _ _ _ hacc hone => (unfreezeOne_standing hone).trans hacc) rfl h with ⟨hstan, -⟩ |
    ⟨ctxt₂, cycle, hstan, hdeac⟩
  · exact hstan
  · exact foldlM_inv (fun acc : Context p × List p.PublicKeyHash => acc.1.standing = ctxt.standing)
      (fun acc delegate acc' hacc hone => (deactivateOne_standing hone).trans hacc) hstan hdeac

theorem Rolls.isInactive_mono (hcyc : env.currentCycle ≤ env'.currentCycle) (hact : r.isInactive env' d = false) :
    r.isInactive env d = false := by
  unfold isInactive at hact ⊢
  split
  · simp_all
  · rename_i hmem
    rw [if_neg hmem] at hact
    split
    · rename_i cycle hfind
      simp only [hfind, decide_eq_false_iff_not] at hact ⊢
      omega
    · rfl

theorem Rolls.Kept.of_cycle (h : Kept env r lists) (htok : env'.tokensPerRoll = env.tokensPerRoll)
    (hcyc : env.currentCycle ≤ env'.currentCycle) (hpres : env'.preservedCycles = env.preservedCycles)
    (hman : env'.manager = env.manager)
    (hinact : ∀ d, r.isInactive env' d = true → lists (some d) = []) : Kept env' r lists := by
  have hkey : env'.key = env.key := by
    funext d
    rw [RollEnv.key, hman, RollEnv.key]
  refine ⟨hkey ▸ h.held,
    fun d => ⟨htok ▸ (h.sound d).priced, hinact d, (h.sound d).listed, hpres ▸ (h.sound d).late⟩,
    fun d => ⟨(h.tidy d).unlisted, fun hact => ?_⟩⟩
  rw [htok]
  exact (h.tidy d).below (isInactive_mono hcyc hact)

/-- Only the delegates due in this cycle become inactive with the next one. -/
theorem Rolls.isInactive_next (hcyc : env'.currentCycle = env.currentCycle + 1) (hin : r.isInactive env' d = true)
    (hact : r.isInactive env d = false) : r.delegateDesactivation.find? d = some env.currentCycle := by
  unfold isInactive at hin hact
  split at hin
  · rename_i hmem
    rw [if_pos hmem] at hact
    cases hact
  · rename_i hmem
    rw [if_neg hmem] at hact
    split at hin
    · rename_i cycle hfind
      rw [hfind] at hact ⊢
      simp only [hcyc, decide_eq_true_eq, decide_eq_false_iff_not] at hin hact
      exact congrArg some (by omega)
    · cases hin

theorem Sound.next_level (h : Sound ctxt) (hcyc : level.cycle = ctxt.level.cycle) :
    Sound { ctxt with level := level } := by
  obtain ⟨lists, hkept, hwth⟩ := h.balanced
  refine ⟨h.registry, h.deposits, h.fees, h.rewards, lists, hkept.of_cycle rfl hcyc.ge rfl rfl fun d hin => ?_, hwth⟩
  refine (hkept.sound d).inactive ?_
  simp only [isInactive, rollEnvOf, Context.rest, hcyc] at hin ⊢
  exact hin

theorem Settled.next_cycle (h : Settled ctxt.level.cycle ctxt) (hcyc : level.cycle = ctxt.level.cycle + 1) :
    Sound { ctxt with level := level } := by
  obtain ⟨hsnd, lists, hkept, hlas⟩ := h
  obtain ⟨lists₀, hkept₀, hwth⟩ := hsnd.balanced
  have hsame : ∀ d, lists₀ (some d) = lists (some d) := by
    intro d
    have hrl := (hkept₀.held.getRolls_eq d).symm.trans (hkept.held.getRolls_eq d)
    exact Except.ok.inj hrl
  refine ⟨hsnd.registry, hsnd.deposits, hsnd.fees, hsnd.rewards, lists₀, ?_, hwth⟩
  refine hkept₀.of_cycle rfl (Nat.le.intro hcyc.symm) rfl rfl fun d hin => ?_
  rw [hsame]
  by_contra hne
  have hact : isInactive ctxt.rollEnv ctxt.context.rolls d = false :=
    Bool.eq_false_iff.mpr fun hinact => hne ((hkept.sound d).inactive hinact)
  have hfind : ctxt.context.rolls.delegateDesactivation.find? d = some ctxt.level.cycle :=
    isInactive_next hcyc hin hact
  exact absurd (hlas d hne ctxt.level.cycle hfind) (lt_irrefl _)

/-! ### Safety -/

open RollStorage

variable {α β ι : Type}

namespace Safe

variable {a : α} {error : Error p} {x : Result p α} {l : List ι}

theorem divergence : Safe (.error .divergence : Result p α) := by
  intro stop h
  cases h
  rintro ⟨error, heq, -⟩
  cases heq

theorem trace (h : error.isUnderflow = false) : Safe (Protocol.trace error x) := by
  unfold Protocol.trace
  split
  · exact ok
  · intro stop heq
    cases heq
    rintro ⟨error', heq, hunderflow⟩
    cases heq
    rw [h] at hunderflow
    cases hunderflow
  · rename_i stop hnot
    intro stop' heq
    cases heq
    rintro ⟨error', rfl, -⟩
    exact hnot _ rfl

theorem of_overflow (h : ∀ stop, x = .error stop → Overflow stop) : Safe x := by
  intro stop hx
  obtain ⟨t₁, t₂, rfl⟩ := h stop hx
  rintro ⟨error, heq, hunderflow⟩
  cases heq
  cases hunderflow

theorem add {t₁ t₂ : Tez} : Safe (liftM (t₁.add? t₂) : Result p Tez) := of_overflow fun _ => overflow_of_add

theorem bind {f : α → Result p β} (hx : Safe x) (hf : ∀ a, x = .ok a → Safe (f a)) : Safe (x >>= f) := by
  intro stop h
  rcases bind_eq_error.mp h with h | ⟨a, ha, h⟩
  · exact hx stop h
  · exact hf a ha stop h

theorem bind_outcome {x : Gassed p α} {f : α → Gassed p β} (hx : Safe x.outcome)
    (hf : ∀ a, x.outcome = .ok a → Safe (f a).outcome) : Safe (x >>= f).outcome := by
  rw [Metered.outcome_bind]
  exact bind hx hf

theorem foldlM {g : α → ι → Result p α} (Inv : α → Prop) (keep : ∀ a i a', Inv a → g a i = .ok a' → Inv a')
    (safe : ∀ a i, Inv a → Safe (g a i)) (ha : Inv a) : Safe (l.foldlM g a) := by
  induction l generalizing a with
  | nil => exact ok
  | cons i l ih =>
    exact bind (safe a i ha) fun a' hstep => ih (keep a i a' ha hstep)

end Safe

variable {env : RollEnv p} {amount : Tez}

namespace Rolls

theorem delegatePubkey_safe : Safe (delegatePubkey env d) := by
  unfold delegatePubkey
  split
  · exact .ok
  · exact .fail rfl

theorem createRollInDelegate_safe : Safe (createRollInDelegate env r d pk) := by
  refine .bind (.bind .getKey fun _ _ => .bind (.trace rfl) fun _ _ => .bind .setKey fun _ _ => .ok) fun _ _ => ?_
  exact .bind .initKey fun _ _ => .ok

theorem createRolls_safe {fuel : Nat} {change : Tez} : Safe (createRolls env d pk fuel r change) := by
  induction fuel generalizing r change with
  | zero => exact .divergence
  | succ fuel ih =>
    unfold createRolls
    split
    · exact .ok
    · rename_i heng
      refine .bind (fun stop h => ?_) fun _ _ => .bind createRollInDelegate_safe fun _ _ => ih
      obtain ⟨errors, hsub, -⟩ := liftM_tez_eq_error.mp h
      exact absurd (Tez.sub?_eq_error.mp hsub).1 heng

theorem addAmount_safe : Safe (addAmount env r d amount) := by
  refine .bind .getKey fun _ _ => .bind .add fun _ _ => .bind .setKey fun _ _ => .bind delegatePubkey_safe fun _ _ => ?_
  split
  · exact .ok
  · exact .bind createRolls_safe fun _ _ => .ok

theorem setActive_safe : Safe (setActive env r d) := by
  unfold setActive
  simp only
  split
  · exact .ok
  · exact .bind .getKey fun _ _ => .bind delegatePubkey_safe fun _ _ => .bind createRolls_safe fun _ _ => .ok

end Rolls

namespace Balanced
variable {stake : p.PublicKeyHash → Nat}

theorem removeAmount_safe (h : Balanced env r stake) (hamt : amount.mutez ≤ stake d) :
    Safe (Rolls.removeAmount env r d amount) := by
  obtain ⟨lists, hkept, hwth⟩ := h
  by_cases hinit : r.delegateChange.mem d = true
  · exact .of_overflow fun stop => removeAmount_eq_error hkept hinit ((hwth d).symm ▸ hamt)
  · have hmis : (getKey r.delegateChange d : Result p Tez) = Protocol.fail (.storage (.missingKey .get)) := by
      simp only [Store.mem, Option.not_isSome_iff_eq_none] at hinit
      rw [getKey, hinit]
    rw [Rolls.removeAmount, hmis]
    exact .bind (.fail rfl) fun _ h => absurd h fail_ne_ok

theorem setInactive_safe (h : Balanced env r stake) : Safe (Rolls.setInactive env r d) := by
  obtain ⟨lists, hkept, -⟩ := h
  exact .of_overflow fun stop => setInactive_eq_error hkept

end Balanced

variable {contract : Contract p} {balance : Tez} {delegate : Option p.PublicKeyHash}

/-- Why no removal underflows: a balance is a part of the stake. -/
theorem Ledger.balance_le_stake {a : Accounts p} {rest : Rest p} (hbal : a.balance.find? contract = some balance)
    (hdel : a.delegate.find? contract = some d) : balance.mutez ≤ stake a rest.frozen d := by
  have hle := Store.le_sum (f := a.share d) hbal
  rw [Accounts.share, if_pos hdel] at hle
  exact le_trans hle (Nat.le_trans (Nat.le_add_right _ _) (Nat.le_add_right _ _))

theorem RollStorage.addAmount_safe : Safe (addAmount ctxt d amount) :=
  .bind Rolls.addAmount_safe fun _ _ => .ok

namespace DelegateStorage

theorem link_safe : Safe (link ctxt contract d balance) := by
  refine .bind addAmount_safe fun _ _ => ?_
  split <;> exact .ok

theorem unlink_safe (h : Sound ctxt) (hbal : ctxt.context.contracts.balance.find? contract = some balance) :
    Safe (unlink ctxt contract balance) := by
  unfold unlink
  split
  · exact .ok
  · rename_i d hdel
    have hle : balance.mutez ≤ stake ctxt.accounts ctxt.rest.frozen d := Ledger.balance_le_stake hbal hdel
    refine .bind (.bind (h.balanced.removeAmount_safe hle) fun _ _ => .ok) fun _ _ => ?_
    split <;> exact .ok

theorem init_safe : Safe (init ctxt contract d) := by
  refine .bind (.failUnless rfl) fun _ _ => .bind (.failUnless rfl) fun _ _ => ?_
  exact .bind .initKey fun _ _ => .bind .getKey fun _ _ => link_safe

theorem checkDelegateChange_safe : Safe (checkDelegateChange ctxt contract d) := by
  unfold checkDelegateChange
  split
  · split
    · split
      · exact .ok
      · exact .fail rfl
    · exact .fail rfl
  · exact .ok

theorem setBase_safe (h : Sound ctxt) {delegatable : Context p → Contract p → Bool} :
    Safe (setBase ctxt delegatable contract delegate) := by
  unfold setBase
  split
  · split
    · exact .fail rfl
    · split
      · exact .bind .getKey fun balance hbal =>
          .bind (unlink_safe h (getKey_eq_ok.mp hbal)) fun _ _ => .ok
      · exact .fail rfl
  · simp only
    split
    · exact .fail rfl
    · split
      · exact .fail rfl
      · refine .bind checkDelegateChange_safe fun _ _ => .bind (.failUnless rfl) fun _ _ => ?_
        refine .bind .getKey fun balance hbal => .bind (unlink_safe h (getKey_eq_ok.mp hbal)) fun _ _ => ?_
        refine .bind link_safe fun _ _ => ?_
        split
        · exact .bind setActive_safe fun _ _ => .ok
        · exact .ok

end DelegateStorage

/-! ### Contracts -/

namespace ContractStorage

theorem createBase_safe {prepaid spendable delegatable : Bool} {manager : p.PublicKeyHash}
    {script : Option (Script p × Option (BigMapDiff p))} :
    Safe (createBase ctxt prepaid contract balance manager delegate script spendable delegatable).outcome := by
  refine .bind_outcome .initKey fun _ _ => .bind_outcome .initKey fun _ _ => .bind_outcome ?_ fun _ _ =>
    .bind_outcome .initKey fun _ _ => (createScript_clean (.refl _)).fails
  rcases delegate with _ | d
  · exact .ok
  · exact init_safe

theorem delete_safe (hdel : ctxt.context.contracts.delegate.find? contract = none) :
    Safe (delete ctxt contract).outcome := by
  unfold delete
  split
  · exact .fail rfl
  · have hrem : Safe (remove ctxt contract) := by
      refine .bind .getKey fun _ _ => ?_
      rw [unlink, hdel]
      exact .ok
    exact .bind_outcome hrem fun _ _ => .bind_outcome .deleteKey fun _ _ => .bind_outcome .deleteKey fun _ _ =>
      .bind_outcome .deleteKey fun _ _ => .bind_outcome (removeCode_clean (.refl _)).fails fun _ _ =>
      .bind_outcome (removeStorage_clean (.refl _)).fails fun _ _ => .ok

theorem deleteIfEmpty_safe {newBalance : Tez} : Safe (deleteIfEmpty ctxt contract newBalance).outcome := by
  unfold deleteIfEmpty
  split
  · exact .ok
  · split
    · exact .ok
    · split
      · split
        · exact .ok
        · exact .exception
      · rename_i hdel
        exact delete_safe hdel

theorem spendFromScript_safe (h : Sound ctxt) : Safe (spendFromScript ctxt contract amount).outcome := by
  refine .bind_outcome .getKey fun balance hbal => ?_
  have hbal : ctxt.context.contracts.balance.find? contract = some balance := getKey_eq_ok.mp hbal
  split
  · exact .fail rfl
  · rename_i newBalance hsub
    have hamt : amount.mutez ≤ balance.mutez := by
      have := Tez.sub?_eq_ok.mp hsub
      omega
    refine .bind_outcome .setKey fun _ _ => .bind_outcome ?_ fun _ _ => deleteIfEmpty_safe
    unfold Contract.removeAmount getContractDelegate
    split
    · exact .ok
    · rename_i d hdel
      have hle : balance.mutez ≤ stake ctxt.accounts ctxt.rest.frozen d := Ledger.balance_le_stake hbal hdel
      exact .bind (h.balanced.removeAmount_safe (le_trans hamt hle)) fun _ _ => .ok

theorem spend_safe (h : Sound ctxt) : Safe (spend ctxt contract amount).outcome := by
  unfold spend
  split
  · exact spendFromScript_safe h
  · exact .fail rfl

theorem credit_safe : Safe (credit ctxt contract amount).outcome := by
  refine .bind_outcome (checkEmptyTransaction_clean (.refl _)).fails fun _ _ => ?_
  split
  · split
    · exact .fail rfl
    · exact createBase_safe
  · refine .bind_outcome ?_ fun _ _ => .bind_outcome .setKey fun _ _ => ?_
    · rw [Metered.outcome_liftM]
      exact .add
    unfold Contract.addAmount
    split
    · exact .ok
    · exact addAmount_safe

theorem revealManagerKey_safe {publicKey : p.PublicKey} : Safe (revealManagerKey ctxt contract publicKey) := by
  refine .bind .getKey fun _ _ => ?_
  split
  · exact .fail rfl
  · simp only
    split
    · exact .bind .setKey fun _ _ => .ok
    · exact .fail rfl

end ContractStorage

namespace DelegateStorage

theorem creditFrozen_safe {amounts : Store (p.PublicKeyHash ×ₗ Nat) Tez} : Safe (creditFrozen amounts d cycle amount) :=
  .bind .add fun _ _ => .ok

theorem freezeDeposit_safe : Safe (freezeDeposit ctxt d amount) :=
  .bind (.bind setActive_safe fun _ _ => .ok) fun _ _ => .bind .getKey fun _ _ => .bind (.trace rfl) fun _ _ =>
    .bind .setKey fun _ _ => .bind creditFrozen_safe fun _ _ => .ok

theorem freezeFees_safe : Safe (freezeFees ctxt d amount) :=
  .bind addAmount_safe fun _ _ => .bind creditFrozen_safe fun _ _ => .ok

theorem freezeRewards_safe : Safe (freezeRewards ctxt d amount) := .bind creditFrozen_safe fun _ _ => .ok

theorem frozenFees_le_stake (cycle : Nat) : (getFrozenFees ctxt d cycle).mutez ≤ stake ctxt.accounts ctxt.rest.frozen d :=
  le_trans getFrozen_le (Nat.le_add_left _ _)

theorem frozenDeposit_le_stake : (getFrozenDeposit ctxt d cycle).mutez ≤ stake ctxt.accounts ctxt.rest.frozen d :=
  le_trans getFrozen_le (le_trans (Nat.le_add_left _ _) (Nat.le_add_right _ _))

theorem burnFees_safe (h : Sound ctxt) : Safe (burnFees ctxt d cycle amount) := by
  refine .bind (.bind (h.balanced.removeAmount_safe ?_) fun _ _ => .ok) fun _ _ => .ok
  refine le_trans ?_ (frozenFees_le_stake cycle)
  split
  · rename_i newAmount hsub
    have := Tez.sub?_eq_ok.mp hsub
    omega
  · exact le_refl _

theorem unfreeze_safe : Safe (unfreeze ctxt d cycle) :=
  .bind .getKey fun _ _ => .bind .add fun _ _ => .bind .add fun _ _ => .bind .add fun _ _ => .bind .setKey fun _ _ =>
    .bind addAmount_safe fun _ _ => .ok

theorem punish_safe (h : Sound ctxt) : Safe (punish ctxt d cycle) := by
  refine .bind (.bind (h.balanced.removeAmount_safe frozenDeposit_le_stake) fun _ _ => .ok) fun ctxt₁ hdep => ?_
  obtain ⟨r₁, hr₁, rfl⟩ := removeAmount_eq_ok hdep
  obtain ⟨hbalanced, -⟩ := punish_deposit_balanced h r₁ hr₁
  refine .bind (.bind (hbalanced.removeAmount_safe ?_) fun _ _ => .ok) fun _ _ => .ok
  exact le_trans getFrozen_le (Nat.le_add_left _ _)

theorem burnUnrevealed_safe {acc : Context p × BalanceUpdates p} {nonce : UnrevealedNonce p} (h : Sound acc.1) :
    Safe (burnUnrevealed cycle acc nonce) := .bind (burnFees_safe h) fun _ _ => .ok

theorem deactivateOne_safe {acc : Context p × List p.PublicKeyHash} (h : Sound acc.1) :
    Safe (deactivateOne cycle acc d) := by
  refine .bind .getKey fun _ _ => ?_
  split
  · exact .bind (.bind h.balanced.setInactive_safe fun _ _ => .ok) fun _ _ => .ok
  · exact .ok

theorem deactivateOne_sound {acc acc' : Context p × List p.PublicKeyHash} (h : Sound acc.1)
    (hone : deactivateOne cycle acc d = .ok acc') : Sound acc'.1 := by
  obtain ⟨lastCycle, -, hone⟩ := bind_eq_ok.mp hone
  split at hone
  · obtain ⟨ctxt₁, hinact, hone⟩ := bind_eq_ok.mp hone
    have hsnd := setInactive_sound h hinact
    cases hone
    exact hsnd
  · cases hone
    exact h

theorem cycleEnd_safe (h : Sound ctxt) {unrevealed : List (UnrevealedNonce p)} :
    Safe (cycleEnd ctxt cycle unrevealed) := by
  refine .bind ?_ fun acc hburn => ?_
  · split
    · exact .ok
    · exact .foldlM (fun acc => Sound acc.1) (fun _ _ _ => burnUnrevealed_sound)
        (fun _ _ => burnUnrevealed_safe) h
  obtain ⟨ctxt₁, updates₁⟩ := acc
  have hsnd₁ : Sound ctxt₁ := by
    split at hburn
    · cases hburn
      exact h
    · exact foldlM_inv (fun acc : Context p × BalanceUpdates p => Sound acc.1)
        (fun _ _ _ => burnUnrevealed_sound) h hburn
  simp only
  split
  · exact .ok
  · refine .bind ?_ fun acc hunf => ?_
    · exact .foldlM (fun acc => Sound acc.1) (fun _ _ _ => unfreezeOne_sound)
        (fun acc delegate hacc => .bind unfreeze_safe fun _ _ => .ok) hsnd₁
    obtain ⟨ctxt₂, updates₂⟩ := acc
    have hsnd₂ : Sound ctxt₂ := foldlM_inv (fun acc : Context p × BalanceUpdates p => Sound acc.1)
      (fun _ _ _ => unfreezeOne_sound) hsnd₁ hunf
    refine .bind ?_ fun _ _ => .ok
    exact .foldlM (fun acc => Sound acc.1) (fun _ _ _ => deactivateOne_sound)
      (fun _ _ => deactivateOne_safe) (clearFrozenDelegates_sound hsnd₂)

end DelegateStorage

theorem snapshotRolls_safe : Safe (snapshotRolls ctxt) := by
  refine .bind (.bind .getKey fun _ _ => .bind .setKey fun _ _ => ?_) fun _ _ => .ok
  split
  · exact .fail rfl
  · exact .bind .initKey fun _ _ => .ok

theorem rollCycleEnd_safe {lastCycle : Nat} : Safe (cycleEnd ctxt lastCycle) := by
  refine .bind ?_ fun _ _ => .bind ?_ fun _ _ => .bind .initKey fun _ _ => .ok
  · split
    · exact .ok
    · exact .bind .getKey fun _ _ => .bind .deleteKey fun _ _ => .bind .deleteKey fun _ _ => .ok
  · refine .bind .getKey fun _ _ => .bind .getKey fun _ _ => ?_
    split
    · exact .exception
    · refine .bind .setKey fun _ _ => .foldlM (fun _ => True) (fun _ _ _ _ _ => trivial) (fun r index _ => ?_) trivial
      unfold dropSnapshots
      split
      · exact .ok
      · exact .bind .deleteKey fun _ _ => .ok

end Tezos.Protocol
