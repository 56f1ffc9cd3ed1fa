import Tezos.Theorems.Protocol.Rolls

/-! What the rolls and the change of a delegate are worth: adding and removing an amount change it by that amount. -/

namespace Tezos.Protocol
open Lib Option Store

variable {p : Primitives} {env : RollEnv p}

namespace Rolls
variable {r r' r'' : Rolls p} {d d' : p.PublicKeyHash} {key : p.PublicKeyHash → Option p.PublicKey}
  {lists lists' lists'' : Option p.PublicKeyHash → List Nat} {amount change change' : Tez} {fuel : Nat}
  {stop : Stop p} {pk : p.PublicKey} {roll : Nat}

/-- Rolls moved between one delegate and the limbo. -/
structure Shifted (key : p.PublicKeyHash → Option p.PublicKey) (d : p.PublicKeyHash) (r : Rolls p)
    (lists : Option p.PublicKeyHash → List Nat) (r' : Rolls p) (lists' : Option p.PublicKeyHash → List Nat) :
    Prop where
  held : Held key r' lists'
  status : SameStatus r r'
  others : ∀ d', d' ≠ d → lists' (some d') = lists (some d')
  changes : ∀ d', d' ≠ d → r'.delegateChange.find? d' = r.delegateChange.find? d'

theorem Shifted.refl (h : Held key r lists) : Shifted key d r lists r lists :=
  ⟨h, .refl r, fun _ _ => rfl, fun _ _ => rfl⟩

theorem Shifted.trans (h : Shifted key d r lists r' lists') (h' : Shifted key d r' lists' r'' lists'') :
    Shifted key d r lists r'' lists'' :=
  ⟨h'.held, h.status.trans h'.status, fun d' hne => (h'.others d' hne).trans (h.others d' hne),
    fun d' hne => (h'.changes d' hne).trans (h.changes d' hne)⟩

def worthOf (env : RollEnv p) (rolls : List Nat) (change : Tez) : Nat :=
  rolls.length * env.tokensPerRoll.mutez + change.mutez

theorem worthOf_nil : worthOf env [] change = change.mutez := by
  rw [worthOf, List.length_nil, Nat.zero_mul, Nat.zero_add]

section
variable (hheld : Held key r lists) (hchg : r.delegateChange.find? d = some change)
include hheld hchg

theorem pop_shifted {newChange : Tez} (h : popRollFromDelegate env r d = .ok (roll, r'))
    (hnew : (liftM (change.add? env.tokensPerRoll) : Result p Tez) = .ok newChange) :
    ∃ lists', Shifted key d r lists r' lists' ∧ lists (some d) = roll :: lists' (some d) ∧
      r'.delegateChange.find? d = some newChange ∧
      worthOf env (lists' (some d)) newChange = worthOf env (lists (some d)) change := by
  obtain ⟨change₀, stored, rest, hchg₀, hsum, hlist, hheld', hstat, hchan, -⟩ :=
    popRollFromDelegate_eq_ok hheld h
  obtain rfl := some_inj.mp (hchg₀.symm.trans hchg)
  obtain rfl : stored = newChange := Tez.ext (hsum.trans (Tez.add?_eq_ok.mp (liftM_tez_eq_ok.mp hnew)).symm)
  have hrest : moved lists (some d) none roll rest (some d) = rest := moved_from (by simp)
  refine ⟨moved lists (some d) none roll rest, ⟨hheld', hstat, fun d' hne => ?_, fun d' hne => ?_⟩, ?_, ?_, ?_⟩
  · exact moved_other (by simpa using hne) (by simp)
  · rw [hchan, find?_add, if_neg hne]
  · rw [hrest, hlist]
  · rw [hchan, find?_add_self]
  · rw [worthOf, worthOf, hrest, hlist, List.length_cons, Nat.succ_mul]
    omega

theorem popRolls_eq_ok (h : popRolls env d amount fuel r change = .ok (r', change')) :
    ∃ lists', Shifted key d r lists r' lists' ∧ lists' (some d) <:+ lists (some d) ∧
      r'.delegateChange.find? d = some change' ∧ amount.mutez ≤ change'.mutez ∧
      worthOf env (lists' (some d)) change' = worthOf env (lists (some d)) change ∧
      (change.mutez < amount.mutez + env.tokensPerRoll.mutez →
        change'.mutez < amount.mutez + env.tokensPerRoll.mutez) := by
  induction fuel generalizing r lists change with
  | zero => cases h
  | succ fuel ih =>
    simp only [popRolls] at h
    split at h
    · rename_i hle
      cases h
      exact ⟨lists, .refl hheld, List.suffix_refl _, hchg, hle, rfl, id⟩
    · rename_i hlt
      obtain ⟨⟨roll, r₁⟩, hpop, h⟩ := bind_eq_ok.mp h
      obtain ⟨newChange, hnew, h⟩ := bind_eq_ok.mp h
      obtain ⟨lists₁, hshf, hlist, hsto, hsame⟩ := pop_shifted hheld hchg hpop hnew
      obtain ⟨lists', hrest, hsuf, hfnd, hle, hwth, hbnd⟩ := ih hshf.held hsto h
      refine ⟨lists', hshf.trans hrest, hsuf.trans ⟨[roll], hlist.symm⟩, hfnd, hle, hwth.trans hsame,
        fun _ => hbnd ?_⟩
      rw [Tez.add?_eq_ok.mp (liftM_tez_eq_ok.mp hnew)]
      omega

theorem popAllRolls_eq_ok (h : popAllRolls env d fuel r change = .ok (r', change')) :
    ∃ lists', Shifted key d r lists r' lists' ∧ lists' (some d) = [] ∧
      r'.delegateChange.find? d = some change' ∧ change'.mutez = worthOf env (lists (some d)) change := by
  induction fuel generalizing r lists change with
  | zero => cases h
  | succ fuel ih =>
    simp only [popAllRolls] at h
    split at h
    · rename_i hnone
      cases h
      have hemp : lists (some d) = [] := (hheld.head_iff (some d)).mp hnone
      refine ⟨lists, .refl hheld, hemp, hchg, ?_⟩
      rw [hemp, worthOf_nil]
    · obtain ⟨⟨roll, r₁⟩, hpop, h⟩ := bind_eq_ok.mp h
      obtain ⟨newChange, hnew, h⟩ := bind_eq_ok.mp h
      obtain ⟨lists₁, hshf, hlist, hsto, hsame⟩ := pop_shifted hheld hchg hpop hnew
      obtain ⟨lists', hrest, hemp, hfnd, hwth⟩ := ih hshf.held hsto h
      exact ⟨lists', hshf.trans hrest, hemp, hfnd, hwth.trans hsame⟩

end

theorem createRolls_eq_ok (hheld : Held key r lists) (hkey : key d = some pk)
    (hchg : r.delegateChange.find? d = some change) (h : createRolls env d pk fuel r change = .ok r') :
    ∃ change' lists', Shifted key d r lists r' lists' ∧ r'.delegateChange.find? d = some change' ∧
      change'.mutez < env.tokensPerRoll.mutez ∧
      worthOf env (lists' (some d)) change' = worthOf env (lists (some d)) change := by
  induction fuel generalizing r lists change with
  | zero => cases h
  | succ fuel ih =>
    simp only [createRolls] at h
    split at h
    · rename_i hlt
      cases h
      exact ⟨change, lists, .refl hheld, hchg, hlt, rfl⟩
    · obtain ⟨newChange, hnew, h⟩ := bind_eq_ok.mp h
      obtain ⟨r₁, hcrt, h⟩ := bind_eq_ok.mp h
      obtain ⟨change₀, stored, roll, lists₁, hchg₀, hsum, hheld₁, hlist, hoths, hstat, hchan⟩ :=
        createRollInDelegate_eq_ok hheld hkey hcrt
      obtain rfl := some_inj.mp (hchg₀.symm.trans hchg)
      have hdiff := Tez.sub?_eq_ok.mp (liftM_tez_eq_ok.mp hnew)
      have hsame : stored = newChange := Tez.ext (by omega)
      subst hsame
      have hsto : r₁.delegateChange.find? d = some stored := by rw [hchan, find?_add_self]
      have hshf : Shifted key d r lists r₁ lists₁ :=
        ⟨hheld₁, hstat, hoths, fun d' hne => by rw [hchan, find?_add, if_neg hne]⟩
      obtain ⟨change', lists', hrest, hfnd, hlt, hwth⟩ := ih hheld₁ hsto h
      refine ⟨change', lists', hshf.trans hrest, hfnd, hlt, hwth.trans ?_⟩
      rw [worthOf, worthOf, hlist, List.length_cons, Nat.succ_mul]
      omega

/-! ### The invariant of the rolls -/

/-- What is recorded of one delegate. -/
structure Standing where
  rolls : List Nat
  change : Option Tez
  inactive : Bool
  listed : Bool
  desactivation : Option Nat

def standing (r : Rolls p) (lists : Option p.PublicKeyHash → List Nat) (d : p.PublicKeyHash) : Standing :=
  ⟨lists (some d), r.delegateChange.find? d, r.inactiveDelegate.mem d, r.activeDelegatesWithRolls.mem d,
    r.delegateDesactivation.find? d⟩

namespace Standing

def isInactive (env : RollEnv p) (s : Standing) : Bool :=
  if s.inactive then true
  else
    match s.desactivation with
    | some lastActiveCycle => lastActiveCycle < env.currentCycle
    | none => false

/-- What the invariant asks of one delegate: an inactive one has no rolls, and one that has some is listed as active. -/
structure Sound (env : RollEnv p) (s : Standing) : Prop where
  priced : s.rolls ≠ [] → 0 < env.tokensPerRoll.mutez
  inactive : s.isInactive env = true → s.rolls = []
  listed : s.rolls ≠ [] → s.listed = true
  late : ∀ cycle, s.desactivation = some cycle → 1 + env.preservedCycles ≤ cycle

/-- What it asks when no amount is being removed: who is listed has rolls, and the change of a delegate that is not inactive
    is not enough for one. -/
structure Tidy (env : RollEnv p) (s : Standing) : Prop where
  unlisted : s.listed = true → s.rolls ≠ []
  below : s.isInactive env = false → 0 < env.tokensPerRoll.mutez → (s.change.getD .zero).mutez < env.tokensPerRoll.mutez

end Standing

/-- The rolls are in lists of their owners, which all stand well. -/
structure Kept (env : RollEnv p) (r : Rolls p) (lists : Option p.PublicKeyHash → List Nat) : Prop where
  held : Held env.key r lists
  sound : ∀ d, (standing r lists d).Sound env
  tidy : ∀ d, (standing r lists d).Tidy env

def worth (env : RollEnv p) (r : Rolls p) (lists : Option p.PublicKeyHash → List Nat) (d : p.PublicKeyHash) : Nat :=
  worthOf env (lists (some d)) (r.getChange d)

theorem worth_of_change (h : r.delegateChange.find? d = some change) :
    worth env r lists d = worthOf env (lists (some d)) change := by
  rw [worth, getChange, h]
  rfl

theorem Kept.empty_of_worth_zero (h : Kept env r lists) (hwth : worth env r lists d = 0) : lists (some d) = [] := by
  by_contra hne
  have hpos := (h.sound d).priced hne
  have hlen : 0 < (lists (some d)).length := List.length_pos_of_ne_nil hne
  have := Nat.mul_pos hlen hpos
  simp only [worth, worthOf] at hwth
  omega

theorem ensureInited_same : SameStatus r (r.ensureInited d) := by
  unfold ensureInited
  split <;> exact ⟨rfl, rfl, rfl, rfl⟩

theorem ensureInited_held (h : Held key r lists) : Held key (r.ensureInited d) lists := by
  unfold ensureInited
  split
  · exact h
  · exact h.congr rfl rfl rfl rfl rfl

theorem ensureInited_change (d' : p.PublicKeyHash) : (r.ensureInited d).delegateChange.find? d' =
      if d' = d then some (r.getChange d) else r.delegateChange.find? d' := by
  unfold ensureInited getChange
  by_cases hmem : r.delegateChange.mem d = true
  · obtain ⟨change, hchg⟩ := isSome_iff_exists.mp hmem
    rw [if_pos hmem]
    split
    · rename_i heq
      subst heq
      rw [hchg]
      rfl
    · rfl
  · rw [if_neg hmem, find?_add]
    have hnone : r.delegateChange.find? d = none := by simpa [mem] using hmem
    rw [hnone]
    rfl

/-- An update that concerns one delegate only. -/
structure About (env : RollEnv p) (d : p.PublicKeyHash) (r : Rolls p) (lists : Option p.PublicKeyHash → List Nat)
    (r' : Rolls p) (lists' : Option p.PublicKeyHash → List Nat) : Prop where
  held : Held env.key r' lists'
  others : ∀ d', d' ≠ d → standing r' lists' d' = standing r lists d'
  snapshots : r'.ownerSnapshot = r.ownerSnapshot

namespace About

section
variable (h : About env d r lists r' lists')
include h

theorem trans (h' : About env d r' lists' r'' lists'') : About env d r lists r'' lists'' :=
  ⟨h'.held, fun d' hd => (h'.others d' hd).trans (h.others d' hd), h'.snapshots.trans h.snapshots⟩

theorem worth_eq (hd : d' ≠ d) : worth env r' lists' d' = worth env r lists d' :=
  congrArg (fun s : Standing => worthOf env s.rolls (s.change.getD .zero)) (h.others d' hd)

theorem inited_eq (hd : d' ≠ d) : r'.delegateChange.mem d' = r.delegateChange.mem d' :=
  congrArg (fun s => s.change.isSome) (h.others d' hd)

theorem kept (hkept : Kept env r lists) (hd : (standing r' lists' d).Sound env)
    (htidy : (standing r' lists' d).Tidy env) : Kept env r' lists' := by
  have hsnd : ∀ d', (standing r' lists' d').Sound env ∧ (standing r' lists' d').Tidy env := by
    intro d'
    by_cases heq : d' = d
    · exact heq ▸ ⟨hd, htidy⟩
    · rw [h.others d' heq]
      exact ⟨hkept.sound d', hkept.tidy d'⟩
  exact ⟨h.held, fun d' => (hsnd d').1, fun d' => (hsnd d').2⟩

end

end About

theorem Shifted.about (h : Shifted env.key d r lists r' lists') : About env d r lists r' lists' := by
  refine ⟨h.held, fun d' hd => ?_, h.status.snapshots⟩
  simp only [standing, h.others d' hd, h.changes d' hd, h.status.inactive, h.status.active, h.status.desactivation]

theorem SameStatus.sound (h : SameStatus r r') (hsnd : (standing r lists d).Sound env)
    (hsub : lists (some d) = [] → lists' (some d) = []) : (standing r' lists' d).Sound env := by
  have hown : standing r' lists' d =
      { standing r lists d with rolls := lists' (some d), change := r'.delegateChange.find? d } := by
    simp only [standing, h.inactive, h.active, h.desactivation]
  rw [hown]
  exact ⟨fun hne => hsnd.priced (mt hsub hne), fun hin => hsub (hsnd.inactive hin),
    fun hne => hsnd.listed (mt hsub hne), hsnd.late⟩

theorem about_ensureInited (h : Held env.key r lists) : About env d r lists (r.ensureInited d) lists := by
  have hsame : SameStatus r (r.ensureInited d) := ensureInited_same
  refine ⟨ensureInited_held h, fun d' hd => ?_, hsame.snapshots⟩
  simp only [standing, ensureInited_change, if_neg hd, hsame.inactive, hsame.active, hsame.desactivation]

theorem about_change (change : Tez) (h : Held env.key r lists) :
    About env d r lists { r with delegateChange := r.delegateChange.add d change } lists := by
  refine ⟨h.congr rfl rfl rfl rfl rfl, fun d' hd => ?_, rfl⟩
  simp only [standing, find?_add, if_neg hd]

theorem about_active {active : Keys p.PublicKeyHash} (h : Held env.key r lists)
    (hoths : ∀ d', d' ≠ d → active.mem d' = r.activeDelegatesWithRolls.mem d') :
    About env d r lists { r with activeDelegatesWithRolls := active } lists := by
  refine ⟨h.congr rfl rfl rfl rfl rfl, fun d' hd => ?_, rfl⟩
  simp only [standing, hoths d' hd]

theorem Held.ne_nil (hheld : Held key r lists) (h : r.delegateRollList.find? d = some roll) : lists (some d) ≠ [] := by
  obtain ⟨rest, hlist⟩ := hheld.of_head (i := some d) h
  simp [hlist]

theorem listActive_eq (h : Held key r lists) :
    ∃ active, r.listActive d = { r with activeDelegatesWithRolls := active } ∧
      (∀ d', d' ≠ d → active.mem d' = r.activeDelegatesWithRolls.mem d') ∧
      (lists (some d) ≠ [] → active.mem d = true) ∧
      (active.mem d = true → r.activeDelegatesWithRolls.mem d = true ∨ lists (some d) ≠ []) := by
  unfold listActive
  rcases hhead : r.delegateRollList.find? d with _ | roll
  · exact ⟨_, rfl, fun _ _ => rfl, fun hne => absurd ((h.head_iff (some d)).mp hhead) hne, .inl⟩
  · exact ⟨_, rfl, fun d' hd => by simp [mem, find?_add, hd], fun _ => by simp [mem],
      fun _ => .inr (h.ne_nil hhead)⟩

theorem unlistActive_eq (h : Held key r lists) :
    ∃ active, r.unlistActive d = { r with activeDelegatesWithRolls := active } ∧
      (∀ d', d' ≠ d → active.mem d' = r.activeDelegatesWithRolls.mem d') ∧
      (lists (some d) ≠ [] → active.mem d = r.activeDelegatesWithRolls.mem d) ∧
      (active.mem d = true → lists (some d) ≠ []) := by
  unfold unlistActive
  rcases hhead : r.delegateRollList.find? d with _ | roll
  · exact ⟨_, rfl, fun d' hd => by simp [mem, find?_remove, hd],
      fun hne => absurd ((h.head_iff (some d)).mp hhead) hne, fun hmem => by simp [mem] at hmem⟩
  · exact ⟨_, rfl, fun _ _ => rfl, fun _ => rfl, fun _ => h.ne_nil hhead⟩

/-! ### Adding and removing an amount -/

theorem createRolls_listActive (hheld : Held env.key r lists) (hkey : env.key d = some pk)
    (hchg : r.delegateChange.find? d = some change) (hact : r.isInactive env d = false)
    (hlate : ∀ cycle, r.delegateDesactivation.find? d = some cycle → 1 + env.preservedCycles ≤ cycle)
    (hunl : r.activeDelegatesWithRolls.mem d = true → lists (some d) ≠ [])
    (h : createRolls env d pk fuel r change = .ok r') :
    ∃ lists', About env d r lists (r'.listActive d) lists' ∧ (standing (r'.listActive d) lists' d).Sound env ∧
      (standing (r'.listActive d) lists' d).Tidy env ∧ (r'.listActive d).delegateChange.mem d = true ∧
      worth env (r'.listActive d) lists' d = worthOf env (lists (some d)) change := by
  obtain ⟨change', lists', hshf, hfnd, hlt, hwth⟩ := createRolls_eq_ok hheld hkey hchg h
  obtain ⟨active, heq, hoths, hlis, hnew⟩ := listActive_eq (d := d) hshf.held
  rw [heq]
  refine ⟨lists', hshf.about.trans (about_active hshf.held hoths), ⟨fun _ => Nat.zero_lt_of_lt hlt,
    fun hin => ?_, hlis, hshf.status.desactivation ▸ hlate⟩, ⟨fun hmem => (hnew hmem).elim (fun hold hemp => ?_) id,
    fun _ _ => ?_⟩, mem_of_find? hfnd, (worth_of_change hfnd).trans hwth⟩
  · have hsame : r'.isInactive env d = false := hshf.status.isInactive.trans hact
    cases hsame.symm.trans hin
  · -- The change that is left is less than a roll, so the rolls that were there still are.
    rw [hshf.status.active] at hold
    have hpos := Nat.le_mul_of_pos_left env.tokensPerRoll.mutez (List.length_pos_of_ne_nil (hunl hold))
    rw [show lists' (some d) = [] from hemp, worthOf_nil, worthOf] at hwth
    omega
  · rw [standing, hfnd]
    exact hlt

theorem addAmount_eq_ok (hkept : Kept env r lists) (h : addAmount env r d amount = .ok r') :
    ∃ lists', Kept env r' lists' ∧
      (∀ d', worth env r' lists' d' = worth env r lists d' + if d' = d then amount.mutez else 0) ∧
      (∀ d', r'.delegateChange.mem d' = true ↔ r.delegateChange.mem d' = true ∨ d' = d) ∧
      r'.ownerSnapshot = r.ownerSnapshot := by
  obtain ⟨change₀, hchg₀, h⟩ := getKey_bind_ok.mp h
  rw [ensureInited_change, if_pos rfl] at hchg₀
  obtain rfl := some_inj.mp hchg₀
  obtain ⟨change, hchg, h⟩ := bind_eq_ok.mp h
  have hsum := Tez.add?_eq_ok.mp (liftM_tez_eq_ok.mp hchg)
  obtain ⟨-, h⟩ := setKey_bind_ok.mp h
  obtain ⟨pk, hpk, h⟩ := bind_eq_ok.mp h
  have hinit := about_ensureInited (d := d) hkept.held
  have hsto := hinit.trans (about_change (d := d) change hinit.held)
  have hsame : SameStatus r (r.ensureInited d) := ensureInited_same
  have hsnd : (standing (r.ensureInited d) lists d).Sound env := hsame.sound (hkept.sound d) id
  have hunl : (r.ensureInited d).activeDelegatesWithRolls.mem d = true → lists (some d) ≠ [] :=
    hsame.active ▸ (hkept.tidy d).unlisted
  have hwth : worthOf env (lists (some d)) change = worth env r lists d + amount.mutez := by
    simp only [worth, worthOf, hsum]
    omega
  have hmain : ∃ lists', About env d r lists r' lists' ∧ (standing r' lists' d).Sound env ∧
      (standing r' lists' d).Tidy env ∧ r'.delegateChange.mem d = true ∧
      worth env r' lists' d = worth env r lists d + amount.mutez := by
    split at h
    · rename_i hinact
      cases h
      refine ⟨lists, hsto, ⟨hsnd.priced, hsnd.inactive, hsnd.listed, hsnd.late⟩, ⟨hunl, fun hact => ?_⟩,
        by simp [mem], (worth_of_change find?_add_self).trans hwth⟩
      cases hinact.symm.trans hact
    · rename_i hact
      obtain ⟨r₂, hcrt, h⟩ := bind_eq_ok.mp h
      cases h
      obtain ⟨lists', habt, hkep, htidy, hmem, hwth'⟩ := createRolls_listActive hsto.held
        (delegatePubkey_eq_ok.mp hpk) find?_add_self (by simpa using hact) hsnd.late hunl hcrt
      exact ⟨lists', hsto.trans habt, hkep, htidy, hmem, hwth'.trans hwth⟩
  obtain ⟨lists', habt, hsnd, htidy, hmem, hwth⟩ := hmain
  refine ⟨lists', habt.kept hkept hsnd htidy, fun d' => ?_, fun d' => ?_, habt.snapshots⟩
  · by_cases hd : d' = d
    · subst hd
      rw [if_pos rfl, hwth]
    · rw [if_neg hd, habt.worth_eq hd, Nat.add_zero]
  · by_cases hd : d' = d
    · simp [hd, hmem]
    · simp [hd, habt.inited_eq hd]

/-- Rolls are broken up until the change covers the amount, as far as there are any. -/
theorem removeRolls_eq_ok (hkept : Kept env r lists) (hchg : r.delegateChange.find? d = some change)
    (h : removeRolls env r d amount change = .ok (r', change')) :
    ∃ lists', About env d r lists r' lists' ∧ (standing r' lists' d).Sound env ∧
      r'.delegateChange.find? d = some change' ∧ worthOf env (lists' (some d)) change' = worth env r lists d ∧
      (amount.mutez ≤ worth env r lists d → amount.mutez ≤ change'.mutez) ∧
      (r'.activeDelegatesWithRolls.mem d = true → lists' (some d) ≠ []) ∧
      (r'.isInactive env d = false → 0 < env.tokensPerRoll.mutez →
        change'.mutez < amount.mutez + env.tokensPerRoll.mutez) := by
  simp only [removeRolls] at h
  split at h
  · rename_i hinact
    cases h
    have hwth : worth env r lists d = worthOf env (lists (some d)) change := worth_of_change hchg
    refine ⟨lists, (Shifted.refl hkept.held).about, hkept.sound d, hchg, hwth.symm, fun hle => ?_,
      (hkept.tidy d).unlisted, fun hact => ?_⟩
    · rwa [hwth, show lists (some d) = [] from (hkept.sound d).inactive hinact, worthOf_nil] at hle
    · cases hinact.symm.trans hact
  · rename_i hact
    obtain ⟨⟨r₂, change₂⟩, hloop, h⟩ := bind_eq_ok.mp h
    cases h
    obtain ⟨lists', hshf, hsuf, hfnd, hle, hwth, hbnd⟩ := popRolls_eq_ok hkept.held hchg hloop
    obtain ⟨active, heq, hoths, hlis, hunl⟩ := unlistActive_eq (d := d) hshf.held
    have hsnd : (standing r₂ lists' d).Sound env :=
      hshf.status.sound (hkept.sound d) fun hemp => List.suffix_nil.mp (hemp ▸ hsuf)
    rw [heq]
    refine ⟨lists', hshf.about.trans (about_active hshf.held hoths), ⟨hsnd.priced, hsnd.inactive,
      fun hne => (hlis hne).trans (hsnd.listed hne), hsnd.late⟩, hfnd,
      hwth.trans (worth_of_change hchg).symm, fun _ => hle, hunl, fun _ hpos => hbnd ?_⟩
    have hlt := (hkept.tidy d).below (Bool.eq_false_iff.mpr hact) hpos
    rw [standing, hchg] at hlt
    exact Nat.lt_of_lt_of_le hlt (Nat.le_add_left _ _)

theorem removeAmount_eq_ok (hkept : Kept env r lists) (h : removeAmount env r d amount = .ok r') :
    ∃ lists', Kept env r' lists' ∧
      (∀ d', worth env r' lists' d' + (if d' = d then amount.mutez else 0) = worth env r lists d') ∧
      (∀ d', r'.delegateChange.mem d' = true ↔ r.delegateChange.mem d' = true) ∧
      r'.ownerSnapshot = r.ownerSnapshot := by
  obtain ⟨change, hchg, h⟩ := getKey_bind_ok.mp h
  obtain ⟨⟨r₁, change₁⟩, hpop, h⟩ := bind_eq_ok.mp h
  obtain ⟨newChange, hnew, h⟩ := bind_eq_ok.mp h
  have hdiff := Tez.sub?_eq_ok.mp (liftM_tez_eq_ok.mp hnew)
  obtain ⟨-, h⟩ := setKey_bind_ok.mp h
  cases h
  obtain ⟨lists', habt, hsnd, -, hwth, -, hunl, hbnd⟩ := removeRolls_eq_ok hkept hchg hpop
  have hall := habt.trans (about_change (d := d) newChange habt.held)
  refine ⟨lists', hall.kept hkept ⟨hsnd.priced, hsnd.inactive, hsnd.listed, hsnd.late⟩
    ⟨hunl, fun hact hpos => ?_⟩, fun d' => ?_, fun d' => ?_, hall.snapshots⟩
  · have hlt := hbnd hact hpos
    simp only [standing, find?_add_self, getD_some]
    omega
  · by_cases hd : d' = d
    · subst hd
      rw [if_pos rfl, worth_of_change find?_add_self, ← hwth]
      simp only [worthOf]
      omega
    · rw [if_neg hd, Nat.add_zero, hall.worth_eq hd]
  · by_cases hd : d' = d
    · subst hd
      simp [mem, hchg]
    · rw [hall.inited_eq hd]

def Overflow (stop : Stop p) : Prop := ∃ t₁ t₂, stop = .errors [.tez (.additionOverflow t₁ t₂)]

theorem overflow_of_add {t₁ t₂ : Tez} (h : (liftM (t₁.add? t₂) : Result p Tez) = .error stop) : Overflow stop := by
  obtain ⟨errors, hadd, rfl⟩ := liftM_tez_eq_error.mp h
  obtain ⟨-, rfl⟩ := Tez.add?_eq_error.mp hadd
  exact ⟨t₁, t₂, rfl⟩

theorem getKey_of_find? {K V : Type} [LinearOrder K] {s : Store K V} {k : K} {v : V} (h : s.find? k = some v) :
    (getKey s k : Result p V) = .ok v := getKey_eq_ok.mpr h

theorem setKey_of_mem {K V : Type} [LinearOrder K] {s : Store K V} {k : K} (v : V) (h : s.mem k = true) :
    (setKey s k v : Result p (Store K V)) = .ok (s.add k v) := if_pos h

theorem popRollFromDelegate_eq_error (hheld : Held key r lists)
    (hchg : r.delegateChange.find? d = some change) (hne : lists (some d) ≠ [])
    (h : popRollFromDelegate env r d = .error stop) : Overflow stop := by
  rcases bind_eq_error.mp h with hrecover | ⟨r₁, hrecover, h⟩
  · rw [recoverRollChange, getKey_of_find? hchg, ok_bind] at hrecover
    rcases bind_eq_error.mp hrecover with hadd | ⟨newChange, -, hset⟩
    · exact overflow_of_add hadd
    · rw [setKey_of_mem newChange (mem_of_find? hchg)] at hset
      cases hset
  · obtain ⟨-, newChange, -, -, rfl⟩ := recoverRollChange_eq_ok hrecover
    have hhead : r.delegateRollList.find? d ≠ none := fun hnone => hne ((hheld.head_iff (some d)).mp hnone)
    obtain ⟨roll, hroll⟩ := ne_none_iff_exists'.mp hhead
    obtain ⟨rest, hlist⟩ := hheld.of_head (i := some d) hroll
    have howned : r.owner.mem roll = true := hheld.owned (d := d) (by simp [hlist])
    simp only [hroll] at h
    rw [deleteKey, if_pos howned] at h
    cases h

theorem popRolls_eq_error (hheld : Held key r lists)
    (hchg : r.delegateChange.find? d = some change) (hfuel : (lists (some d)).length < fuel)
    (hamt : amount.mutez ≤ worthOf env (lists (some d)) change)
    (h : popRolls env d amount fuel r change = .error stop) : Overflow stop := by
  induction fuel generalizing r lists change with
  | zero => omega
  | succ fuel ih =>
    simp only [popRolls] at h
    split at h
    · cases h
    · rename_i hlt
      have hne : lists (some d) ≠ [] := by
        intro hemp
        rw [hemp, worthOf_nil] at hamt
        exact hlt hamt
      rcases bind_eq_error.mp h with hpop | ⟨⟨roll, r₁⟩, hpop, h⟩
      · exact popRollFromDelegate_eq_error hheld hchg hne hpop
      · rcases bind_eq_error.mp h with hadd | ⟨newChange, hnew, h⟩
        · exact overflow_of_add hadd
        · obtain ⟨lists₁, hshf, hlist, hsto, hsame⟩ := pop_shifted hheld hchg hpop hnew
          rw [hlist] at hfuel
          exact ih hshf.held hsto (by simpa using hfuel) (hsame.symm ▸ hamt) h

theorem popAllRolls_eq_error (hheld : Held key r lists)
    (hchg : r.delegateChange.find? d = some change) (hfuel : (lists (some d)).length < fuel)
    (h : popAllRolls env d fuel r change = .error stop) : Overflow stop := by
  induction fuel generalizing r lists change with
  | zero => omega
  | succ fuel ih =>
    simp only [popAllRolls] at h
    split at h
    · cases h
    · rename_i roll hroll
      rcases bind_eq_error.mp h with hpop | ⟨⟨roll', r₁⟩, hpop, h⟩
      · exact popRollFromDelegate_eq_error hheld hchg (hheld.ne_nil hroll) hpop
      · rcases bind_eq_error.mp h with hadd | ⟨newChange, hnew, h⟩
        · exact overflow_of_add hadd
        · obtain ⟨lists₁, hshf, hlist, hsto, hsame⟩ := pop_shifted hheld hchg hpop hnew
          rw [hlist] at hfuel
          exact ih hshf.held hsto (by simpa using hfuel) h

theorem Held.length_le (hheld : Held key r lists) : (lists (some d)).length ≤ r.owner.keys.length := by
  have hsub : lists (some d) ⊆ r.owner.keys := fun x hx => mem_keys.mpr (hheld.owned hx)
  exact (List.subperm_of_subset (hheld.threaded.nodup (some d)) hsub).length_le

theorem removeAmount_eq_error (hkept : Kept env r lists) (hint : r.delegateChange.mem d = true)
    (hamt : amount.mutez ≤ worth env r lists d) (h : removeAmount env r d amount = .error stop) :
    Overflow stop := by
  obtain ⟨change, hchg⟩ := isSome_iff_exists.mp hint
  rw [removeAmount, getKey_of_find? hchg, ok_bind] at h
  rcases bind_eq_error.mp h with hrem | ⟨⟨r₁, change₁⟩, hrem, h⟩
  · simp only [removeRolls] at hrem
    split at hrem
    · cases hrem
    · rcases bind_eq_error.mp hrem with hloop | ⟨_, -, hrem⟩
      · rw [worth_of_change hchg] at hamt
        exact popRolls_eq_error hkept.held hchg (Nat.lt_succ_of_le hkept.held.length_le) hamt hloop
      · cases hrem
  · obtain ⟨lists', -, -, hfnd, -, hle, -⟩ := removeRolls_eq_ok hkept hchg hrem
    rcases bind_eq_error.mp h with hsub | ⟨newChange, -, h⟩
    · obtain ⟨errors, hunder, rfl⟩ := liftM_tez_eq_error.mp hsub
      exact absurd (Tez.sub?_eq_error.mp hunder).1 (Nat.not_lt.mpr (hle hamt))
    · rw [setKey_of_mem newChange (mem_of_find? hfnd)] at h
      cases h

/-! ### Becoming active and inactive -/

theorem about_inactive (h : Held env.key r lists) : About env d r lists { r.ensureInited d with
      inactiveDelegate := (r.ensureInited d).inactiveDelegate.add d ()
      activeDelegatesWithRolls := (r.ensureInited d).activeDelegatesWithRolls.remove d } lists := by
  have hinit := about_ensureInited (d := d) h
  refine hinit.trans ⟨hinit.held.congr rfl rfl rfl rfl rfl, fun d' hd => ?_, rfl⟩
  simp only [standing, mem, find?_add, find?_remove, if_neg hd]

theorem setInactive_eq_ok (hkept : Kept env r lists) (h : setInactive env r d = .ok r') :
    ∃ lists', Kept env r' lists' ∧ (∀ d', worth env r' lists' d' = worth env r lists d') ∧
      (∀ d', r'.delegateChange.mem d' = true ↔ r.delegateChange.mem d' = true ∨ d' = d) ∧
      lists' (some d) = [] ∧ (∀ d', d' ≠ d → lists' (some d') = lists (some d')) ∧
      r'.delegateDesactivation = r.delegateDesactivation ∧
      (∀ d', d' ≠ d → r'.inactiveDelegate.mem d' = r.inactiveDelegate.mem d') ∧
      r'.ownerSnapshot = r.ownerSnapshot := by
  obtain ⟨change, hchg, h⟩ := getKey_bind_ok.mp h
  obtain ⟨⟨r₂, change'⟩, hloop, h⟩ := bind_eq_ok.mp h
  obtain ⟨-, h⟩ := setKey_bind_ok.mp h
  cases h
  have hinact := about_inactive (d := d) hkept.held
  obtain ⟨lists', hshf, hemp, hfnd, hwth⟩ := popAllRolls_eq_ok hinact.held hchg hloop
  have habt := (hinact.trans hshf.about).trans (about_change (d := d) change' hshf.held)
  have hdes : r₂.delegateDesactivation = r.delegateDesactivation :=
    hshf.status.desactivation.trans ensureInited_same.desactivation
  rw [ensureInited_change, if_pos rfl] at hchg
  obtain rfl := some_inj.mp hchg
  refine ⟨lists', habt.kept hkept ⟨fun hne => absurd hemp hne, fun _ => hemp, fun hne => absurd hemp hne,
    fun cycle hcyc => (hkept.sound d).late cycle ?_⟩ ⟨fun hmem => ?_, fun hact => ?_⟩, fun d' => ?_, fun d' => ?_,
      hemp,
    hshf.others, hdes, fun d' hd => congrArg Standing.inactive (habt.others d' hd), habt.snapshots⟩
  · rw [standing, ← hdes]
    exact hcyc
  · simp [standing, hshf.status.active, mem] at hmem
  · simp [standing, Standing.isInactive, hshf.status.inactive, mem] at hact
  · by_cases hd : d' = d
    · subst hd
      rw [worth_of_change find?_add_self, hemp, worthOf_nil, hwth, worth]
    · exact habt.worth_eq hd
  · by_cases hd : d' = d
    · simp [hd, mem]
    · simp [hd, habt.inited_eq hd]

theorem setInactive_eq_error (hkept : Kept env r lists) (h : setInactive env r d = .error stop) : Overflow stop := by
  have hchg : (r.ensureInited d).delegateChange.find? d = some (r.getChange d) := by
    rw [ensureInited_change, if_pos rfl]
  rw [setInactive, getKey_of_find? hchg, ok_bind] at h
  have hheld₁ := (about_inactive (d := d) hkept.held).held
  rcases bind_eq_error.mp h with hloop | ⟨⟨r₂, change⟩, hloop, h⟩
  · exact popAllRolls_eq_error hheld₁ hchg (Nat.lt_succ_of_le hheld₁.length_le) hloop
  · obtain ⟨lists', -, -, hfnd, -⟩ := popAllRolls_eq_ok hheld₁ hchg hloop
    simp only at h
    rw [setKey_of_mem change (mem_of_find? hfnd)] at h
    cases h

theorem le_expiration (env : RollEnv p) (r : Rolls p) (d : p.PublicKeyHash) :
    env.currentCycle + (1 + env.preservedCycles) ≤ r.expiration env d := by
  unfold expiration
  split
  · omega
  · refine le_trans ?_ (le_max_right _ _)
    split <;> omega

theorem isInactive_setActive {s : Rolls p} (hinact : s.inactiveDelegate.mem d = false)
    (hdes : s.delegateDesactivation.find? d = some (r.expiration env d)) :
    s.isInactive env d = false := by
  have hle := le_expiration env r d
  unfold isInactive
  rw [hinact, hdes]
  simp only [Bool.false_eq_true, if_false, decide_eq_false_iff_not, not_lt]
  omega

theorem setActive_eq_ok (hkept : Kept env r lists) (h : setActive env r d = .ok r') :
    ∃ lists', Kept env r' lists' ∧ (∀ d', worth env r' lists' d' = worth env r lists d') ∧
      (∀ d', r.delegateChange.mem d' = true → r'.delegateChange.mem d' = true) ∧
      r'.ownerSnapshot = r.ownerSnapshot := by
  simp only [setActive] at h
  generalize hr₀ : { r with delegateDesactivation := r.delegateDesactivation.add d (r.expiration env d) } = r₀ at h
  have hle := le_expiration env r d
  have hexp : r₀.delegateDesactivation.find? d = some (r.expiration env d) := by rw [← hr₀, find?_add_self]
  have hlate : ∀ cycle, r₀.delegateDesactivation.find? d = some cycle → 1 + env.preservedCycles ≤ cycle := by
    intro cycle hcyc
    rw [hexp] at hcyc
    cases hcyc
    omega
  have habt₀ : About env d r lists r₀ lists := by
    subst hr₀
    refine ⟨hkept.held.congr rfl rfl rfl rfl rfl, fun d' hd => ?_, rfl⟩
    simp only [standing, find?_add, if_neg hd]
  split at h
  · rename_i hact
    cases h
    simp only [Bool.not_eq_true'] at hact
    have hnot : r.inactiveDelegate.mem d = false := by
      by_contra hmem
      simp [isInactive, hmem] at hact
    have hnow : r'.isInactive env d = false := isInactive_setActive (hr₀ ▸ hnot) hexp
    subst hr₀
    refine ⟨lists, habt₀.kept hkept ⟨(hkept.sound d).priced, fun hin => ?_, (hkept.sound d).listed, hlate⟩
      ⟨(hkept.tidy d).unlisted, fun _ => (hkept.tidy d).below hact⟩, fun _ => rfl, fun _ => id, rfl⟩
    cases hnow.symm.trans hin
  · obtain ⟨change, hchg, h⟩ := getKey_bind_ok.mp h
    obtain ⟨pk, hpk, h⟩ := bind_eq_ok.mp h
    obtain ⟨r₂, hcrt, h⟩ := bind_eq_ok.mp h
    cases h
    have hinit := about_ensureInited (d := d) habt₀.held
    have hsame : SameStatus r₀ (r₀.ensureInited d) := ensureInited_same
    have habt₁ : About env d r lists
        { r₀.ensureInited d with inactiveDelegate := (r₀.ensureInited d).inactiveDelegate.remove d } lists := by
      refine (habt₀.trans hinit).trans ⟨hinit.held.congr rfl rfl rfl rfl rfl, fun d' hd => ?_, rfl⟩
      simp only [standing, mem, find?_remove, if_neg hd]
    rw [← hsame.desactivation] at hexp hlate
    have hunl : (r₀.ensureInited d).activeDelegatesWithRolls.mem d = true → lists (some d) ≠ [] := by
      rw [hsame.active, ← hr₀]
      exact (hkept.tidy d).unlisted
    obtain ⟨lists', habt, hsnd, htidy, hmem, hwth⟩ := createRolls_listActive habt₁.held
      (delegatePubkey_eq_ok.mp hpk) hchg (isInactive_setActive (by simp [mem]) hexp) hlate hunl hcrt
    have hall := habt₁.trans habt
    rw [ensureInited_change, if_pos rfl] at hchg
    obtain rfl := some_inj.mp hchg
    refine ⟨lists', hall.kept hkept hsnd htidy, fun d' => ?_, fun d' hint => ?_, hall.snapshots⟩
    · by_cases hd : d' = d
      · subst hd hr₀
        exact hwth
      · exact hall.worth_eq hd
    · by_cases hd : d' = d
      · exact hd ▸ hmem
      · rw [hall.inited_eq hd, hint]

end Rolls

end Tezos.Protocol
