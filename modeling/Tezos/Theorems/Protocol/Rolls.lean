import Tezos.Lib.Threads
import Tezos.Protocol.RollStorage

/-! The lists of rolls of the delegates and of the limbo. A roll that is taken or given moves from the front of a list
    to the front of another. -/

namespace Tezos.Protocol
open Lib List Store Function

variable {p : Primitives} {env : RollEnv p}

def RollEnv.key (env : RollEnv p) (delegate : p.PublicKeyHash) : Option p.PublicKey :=
  match env.manager.find? (.implicit delegate) with
  | some (.publicKey pk) => some pk
  | _ => none

theorem delegatePubkey_eq_ok {delegate : p.PublicKeyHash} {pk : p.PublicKey} :
    delegatePubkey env delegate = .ok pk ↔ env.key delegate = some pk := by
  unfold delegatePubkey RollEnv.key
  split <;> simp_all

namespace Rolls
variable {r r' : Rolls p} {d : p.PublicKeyHash} {key : p.PublicKeyHash → Option p.PublicKey}
  {lists : Option p.PublicKeyHash → List Nat} {roll : Nat}

/-- The first roll of the limbo, and of each delegate. -/
def heads (r : Rolls p) : Option p.PublicKeyHash → Option Nat
  | none => r.limbo
  | some d => r.delegateRollList.find? d

/-- The rolls given out so far are in these lists: the limbo's, and one for each delegate. -/
structure Held (key : p.PublicKeyHash → Option p.PublicKey) (r : Rolls p)
    (lists : Option p.PublicKeyHash → List Nat) : Prop where
  threaded : Threaded r.successor.find? r.heads lists
  below : ∀ x, x < r.next ↔ ∃ i, x ∈ lists i
  fresh : ∀ x, r.next ≤ x → r.successor.find? x = none
  owner : ∀ x pk, r.owner.find? x = some pk ↔ ∃ d, x ∈ lists (some d) ∧ key d = some pk
  known : ∀ d, lists (some d) ≠ [] → (key d).isSome = true

/-- What no move of a roll changes: who is active, and the snapshots. -/
structure SameStatus (r r' : Rolls p) : Prop where
  active : r'.activeDelegatesWithRolls = r.activeDelegatesWithRolls
  inactive : r'.inactiveDelegate = r.inactiveDelegate
  desactivation : r'.delegateDesactivation = r.delegateDesactivation
  snapshots : r'.ownerSnapshot = r.ownerSnapshot

theorem SameStatus.refl (r : Rolls p) : SameStatus r r := ⟨rfl, rfl, rfl, rfl⟩

theorem SameStatus.trans {r'' : Rolls p} (h : SameStatus r r') (h' : SameStatus r' r'') : SameStatus r r'' :=
  ⟨h'.active.trans h.active, h'.inactive.trans h.inactive, h'.desactivation.trans h.desactivation,
    h'.snapshots.trans h.snapshots⟩

theorem SameStatus.isInactive (h : SameStatus r r') : r'.isInactive env d = r.isInactive env d := by
  unfold Rolls.isInactive
  rw [h.inactive, h.desactivation]

namespace Held

theorem head_iff (h : Held key r lists) (i : Option p.PublicKeyHash) : r.heads i = none ↔ lists i = [] :=
  (h.threaded.follows i).eq_nil_iff

theorem of_head (h : Held key r lists) {i : Option p.PublicKeyHash} (hhead : r.heads i = some roll) :
    ∃ rest, lists i = roll :: rest := by
  have hfol := h.threaded.follows i
  rw [hhead] at hfol
  obtain ⟨rest, heq, -⟩ := hfol.of_head
  exact ⟨rest, heq⟩

theorem owned (h : Held key r lists) {x : Nat} (hx : x ∈ lists (some d)) : r.owner.mem x = true := by
  have hne : lists (some d) ≠ [] := ne_nil_of_mem hx
  obtain ⟨pk, hpk⟩ := Option.isSome_iff_exists.mp (h.known d hne)
  rw [Store.mem, (h.owner x pk).mpr ⟨d, hx, hpk⟩]
  rfl

/-- The lists of rolls do not depend on the change of the delegates, on who is active, or on the snapshots. -/
theorem congr (h : Held key r lists) (hnext : r'.next = r.next) (hlim : r'.limbo = r.limbo)
    (hlist : r'.delegateRollList = r.delegateRollList) (hsuc : r'.successor = r.successor)
    (hown : r'.owner = r.owner) : Held key r' lists := by
  have hhds : r'.heads = r.heads := by
    funext i
    cases i <;> simp only [heads, hlim, hlist]
  exact ⟨hhds ▸ hsuc ▸ h.threaded, hnext ▸ h.below, hnext ▸ hsuc ▸ h.fresh, hown ▸ h.owner, h.known⟩

end Held

/-! ### Moving one roll -/

theorem recoverRollChange_eq_ok (h : recoverRollChange env r d = .ok r') :
    ∃ change newChange, r.delegateChange.find? d = some change ∧
      newChange.mutez = change.mutez + env.tokensPerRoll.mutez ∧
      r' = { r with delegateChange := r.delegateChange.add d newChange } := by
  obtain ⟨change, hchg, h⟩ := getKey_bind_ok.mp h
  obtain ⟨newChange, hnew, h⟩ := bind_eq_ok.mp h
  obtain ⟨-, h⟩ := setKey_bind_ok.mp h
  cases h
  exact ⟨change, newChange, hchg, Tez.add?_eq_ok.mp (liftM_tez_eq_ok.mp hnew), rfl⟩

theorem consumeRollChange_eq_ok (h : consumeRollChange env r d = .ok r') :
    ∃ change newChange, r.delegateChange.find? d = some change ∧
      newChange.mutez + env.tokensPerRoll.mutez = change.mutez ∧
      r' = { r with delegateChange := r.delegateChange.add d newChange } := by
  obtain ⟨change, hchg, h⟩ := getKey_bind_ok.mp h
  obtain ⟨newChange, hnew, h⟩ := bind_eq_ok.mp h
  obtain ⟨-, h⟩ := setKey_bind_ok.mp h
  cases h
  exact ⟨change, newChange, hchg, Tez.sub?_eq_ok.mp (liftM_tez_eq_ok.mp (trace_eq_ok.mp hnew)), rfl⟩

variable {rest : List Nat} {pk : p.PublicKey} {fuel : Nat}

theorem Held.move {i j : Option p.PublicKeyHash} (h : Held key r lists) (hij : i ≠ j) (hlist : lists i = roll :: rest)
    (hnext : r'.next = r.next) (hsuc : r'.successor = r.successor.put roll (r.heads j))
    (hhds : ∀ k, r'.heads k = if k = j then some roll else if k = i then r.successor.find? roll else r.heads k)
    (hown : ∀ x, r'.owner.find? x = if x = roll then j.bind key else r.owner.find? x)
    (hkn : ∀ d, j = some d → (key d).isSome = true) : Held key r' (moved lists i j roll rest) := by
  have hroll : roll ∈ lists i := by simp [hlist]
  refine ⟨h.threaded.move hij hlist (fun y => by rw [hsuc, find?_put]) hhds, fun x => ?_, fun x hx => ?_,
    fun x pk => ?_, fun d hne => ?_⟩
  · rw [hnext, h.below x]
    simp only [h.threaded.mem_moved hij hlist]
    by_cases hx : x = roll
    · subst hx
      simpa using ⟨i, hroll⟩
    · simp [hx]
  · rw [hnext] at hx
    have hne : x ≠ roll := ne_of_gt (lt_of_lt_of_le ((h.below roll).mpr ⟨i, hroll⟩) hx)
    rw [hsuc, find?_put, if_neg hne]
    exact h.fresh x hx
  · simp only [h.threaded.mem_moved hij hlist, hown]
    split
    · cases j <;> simp
    · exact h.owner x pk
  · obtain ⟨x, hx⟩ := exists_mem_of_ne_nil _ hne
    rw [h.threaded.mem_moved hij hlist] at hx
    split at hx
    · exact hkn d hx.symm
    · exact h.known d (ne_nil_of_mem hx)

theorem popRollFromDelegate_eq_ok (hheld : Held key r lists) (h : popRollFromDelegate env r d = .ok (roll, r')) :
    ∃ change newChange rest, r.delegateChange.find? d = some change ∧
      newChange.mutez = change.mutez + env.tokensPerRoll.mutez ∧ lists (some d) = roll :: rest ∧
      Held key r' (moved lists (some d) none roll rest) ∧ SameStatus r r' ∧
      r'.delegateChange = r.delegateChange.add d newChange ∧ r'.owner = r.owner.remove roll := by
  obtain ⟨r₁, hrecover, h⟩ := bind_eq_ok.mp h
  obtain ⟨change, newChange, hchg, hnew, rfl⟩ := recoverRollChange_eq_ok hrecover
  split at h
  · cases h
  · rename_i head hhead
    obtain ⟨-, h⟩ := deleteKey_bind_ok.mp h
    cases h
    obtain ⟨rest, hlist⟩ := hheld.of_head (i := some d) hhead
    refine ⟨change, newChange, rest, hchg, hnew, hlist, ?_, ⟨rfl, rfl, rfl, rfl⟩, rfl, rfl⟩
    refine hheld.move (by simp) hlist rfl rfl (fun k => ?_) (fun x => find?_remove) (by simp)
    rcases k with _ | d'
    · simp [heads]
    · simp [heads, find?_put]

theorem getLimboRoll_held (hheld : Held key r lists) :
    ∃ rest, Held key r.getLimboRoll.2 (update lists none (r.getLimboRoll.1 :: rest)) := by
  cases hlim : r.limbo with
  | some roll =>
    have hget : r.getLimboRoll = (roll, r) := by simp only [getLimboRoll, hlim]
    obtain ⟨rest, hlist⟩ := hheld.of_head (i := none) hlim
    refine ⟨rest, ?_⟩
    rw [hget, ← hlist, update_eq_self]
    exact hheld
  | none =>
    have hget : r.getLimboRoll = (r.next, { r with next := r.next + 1, limbo := some r.next }) := by
      simp only [getLimboRoll, hlim, freshRoll]
    rw [hget]
    have hemp : lists none = [] := (hheld.head_iff none).mp hlim
    have hfr : ∀ i, r.next ∉ lists i := fun i hi =>
      absurd ((hheld.below r.next).mpr ⟨i, hi⟩) (lt_irrefl _)
    refine ⟨lists none, hheld.threaded.push hfr (fun y => ?_) (fun i => ?_), fun x => ?_, fun x hx => ?_,
      fun x pk => ?_, fun d hne => ?_⟩
    · by_cases hy : y = r.next
      · subst hy
        simpa [heads, hlim] using hheld.fresh _ (le_rfl)
      · rw [if_neg hy]
    · cases i <;> simp [heads]
    · have hcas : x < r.next + 1 ↔ x = r.next ∨ x < r.next := by omega
      refine hcas.trans ?_
      rw [hheld.below x]
      constructor
      · rintro (rfl | ⟨i, hi⟩)
        · exact ⟨none, by simp⟩
        · have hne : i ≠ none := by
            rintro rfl
            simp [hemp] at hi
          exact ⟨i, by rwa [update_of_ne hne]⟩
      · rintro ⟨i, hi⟩
        by_cases hne : i = none
        · subst hne
          simp only [update_self, hemp, mem_singleton] at hi
          exact .inl hi
        · rw [update_of_ne hne] at hi
          exact .inr ⟨i, hi⟩
    · exact hheld.fresh x (Nat.le_of_succ_le hx)
    · exact hheld.owner x pk
    · exact hheld.known d hne

theorem createRollInDelegate_eq_ok (hheld : Held key r lists) (hkey : key d = some pk)
    (h : createRollInDelegate env r d pk = .ok r') :
    ∃ change newChange roll lists', r.delegateChange.find? d = some change ∧
      newChange.mutez + env.tokensPerRoll.mutez = change.mutez ∧
      Held key r' lists' ∧ lists' (some d) = roll :: lists (some d) ∧
      (∀ d', d' ≠ d → lists' (some d') = lists (some d')) ∧ SameStatus r r' ∧
      r'.delegateChange = r.delegateChange.add d newChange := by
  obtain ⟨r₁, hcons, h⟩ := bind_eq_ok.mp h
  obtain ⟨change, newChange, hchg, hnew, rfl⟩ := consumeRollChange_eq_ok hcons
  have hheld₁ : Held key { r with delegateChange := r.delegateChange.add d newChange } lists :=
    hheld.congr rfl rfl rfl rfl rfl
  generalize hr₁ : { r with delegateChange := r.delegateChange.add d newChange } = r₁ at h hheld₁
  have hstat₁ :
      SameStatus r r₁.getLimboRoll.2 ∧ r₁.getLimboRoll.2.delegateChange = r.delegateChange.add d newChange ∧
      r₁.getLimboRoll.2.delegateRollList = r₁.delegateRollList := by
    subst hr₁
    cases r.limbo <;> exact ⟨⟨rfl, rfl, rfl, rfl⟩, rfl, rfl⟩
  obtain ⟨rest, hheld₂⟩ := getLimboRoll_held hheld₁
  obtain ⟨hstat, hchan, hrl⟩ := hstat₁
  rcases hlim : r₁.getLimboRoll with ⟨roll, r₂⟩
  rw [hlim] at h hheld₂ hstat hchan hrl
  obtain ⟨-, h⟩ := initKey_bind_ok.mp h
  cases h
  set lists₂ := update lists none (roll :: rest) with hlis₂
  have hlist : lists₂ none = roll :: rest := by simp [hlis₂]
  have hsame : ∀ d', lists₂ (some d') = lists (some d') := fun d' => by simp [hlis₂]
  refine ⟨change, newChange, roll, moved lists₂ none (some d) roll rest, hchg, hnew, ?_, ?_, fun d' hne => ?_,
    ⟨hstat.active, hstat.inactive, hstat.desactivation, hstat.snapshots⟩, hchan⟩
  · refine hheld₂.move (by simp) hlist rfl (by rw [← hrl]; rfl) (fun k => ?_) (fun x => ?_) (fun d' heq => ?_)
    · rcases k with _ | d'
      · simp [heads]
      · simp [heads, find?_add]
    · rw [find?_add, Option.bind_some, hkey]
    · cases heq
      rw [hkey]
      rfl
  · rw [moved_to, hsame]
  · rw [moved_other (by simp) (by simpa using hne), hsame]

theorem traverseFrom_eq {acc : List Nat} (h : Follows r.successor.find? (r.successor.find? roll) rest)
    (hfuel : rest.length < fuel) : r.traverseFrom fuel acc roll = .ok (acc.reverse ++ rest) := by
  induction rest generalizing fuel acc roll with
  | nil =>
    obtain ⟨fuel, rfl⟩ := Nat.exists_eq_add_of_lt hfuel
    simp [traverseFrom, h.eq_nil_iff.mpr rfl]
  | cons next rest ih =>
    obtain ⟨fuel, rfl⟩ := Nat.exists_eq_add_of_lt hfuel
    obtain ⟨hnext, hrest⟩ := h.of_cons
    simp only [traverseFrom, hnext]
    rw [ih hrest (Nat.lt_of_succ_lt_succ hfuel)]
    simp

theorem countFrom_eq (acc : List Nat) :
    r.countFrom fuel acc.length roll = (r.traverseFrom fuel acc roll).map length := by
  induction fuel generalizing acc roll with
  | zero => rfl
  | succ fuel ih =>
    simp only [countFrom, traverseFrom]
    rcases r.successor.find? roll with _ | next
    · simp [Except.map]
    · exact ih (next :: acc)

theorem Held.length_le_successors (h : Held key r lists) (hlist : lists (some d) = roll :: rest) :
    rest.length ≤ r.successor.keys.length := by
  have hfol := h.threaded.follows (some d)
  have hnd := h.threaded.nodup (some d)
  rw [hlist] at hfol hnd
  have hsub : (roll :: rest).dropLast ⊆ r.successor.keys := by
    intro x hx
    exact mem_keys.mpr (hfol.isSome_of_mem_dropLast hx)
  have hle := (subperm_of_subset (hnd.sublist (dropLast_sublist _)) hsub).length_le
  simpa using hle

theorem Held.getRolls_eq (h : Held key r lists) (d : p.PublicKeyHash) : r.getRolls d = .ok (lists (some d)) := by
  unfold getRolls
  rcases hhead : r.delegateRollList.find? d with _ | roll
  · simp only [(h.head_iff (some d)).mp hhead]
  · obtain ⟨rest, hlist⟩ := h.of_head (i := some d) hhead
    have hfol := h.threaded.follows (some d)
    rw [hlist] at hfol
    simp only [traverseRolls]
    rw [traverseFrom_eq hfol.of_cons.2 (Nat.lt_succ_of_le (h.length_le_successors hlist)), hlist]
    rfl

theorem Held.countRolls_eq (h : Held key r lists) (d : p.PublicKeyHash) :
    r.countRolls d = .ok (lists (some d)).length := by
  have hcnt : r.countRolls d = (r.getRolls d).map length := by
    unfold countRolls getRolls
    rcases r.delegateRollList.find? d with _ | roll
    · rfl
    · exact countFrom_eq [roll]
  rw [hcnt, h.getRolls_eq]
  rfl

/-- The rolls with an owner, from a roll on. -/
def ownedFrom (r : Rolls p) (roll count : Nat) : List (Nat × p.PublicKey) :=
  (range' roll count).filterMap fun x => (r.owner.find? x).map fun pk => (x, pk)

theorem foldFrom_eq {α : Type} (f : Nat → p.PublicKey → α → Result p α) (count roll : Nat) (acc : α) :
    r.foldFrom f count roll acc = (r.ownedFrom roll count).foldlM (fun acc owned => f owned.1 owned.2 acc) acc := by
  induction count generalizing roll acc with
  | zero => rfl
  | succ count ih =>
    simp only [foldFrom, ownedFrom, range'_succ]
    rcases hown : r.owner.find? roll with _ | pk
    · rw [filterMap_cons_none (by simp [hown])]
      exact ih (roll + 1) acc
    · rw [filterMap_cons_some (b := (roll, pk)) (by simp [hown])]
      exact bind_congr_ok fun acc _ => ih (roll + 1) acc

theorem mem_ownedFrom {count x : Nat} :
    (x, pk) ∈ r.ownedFrom roll count ↔ (roll ≤ x ∧ x < roll + count) ∧ r.owner.find? x = some pk := by
  simp only [ownedFrom, mem_filterMap, mem_range'_1, Option.map_eq_some_iff, Prod.mk.injEq]
  constructor
  · rintro ⟨x', hrng, pk', hpk, rfl, rfl⟩
    exact ⟨hrng, hpk⟩
  · rintro ⟨hrng, hpk⟩
    exact ⟨x, hrng, pk, hpk, rfl, rfl⟩

theorem nodup_ownedFrom (r : Rolls p) (roll count : Nat) : (r.ownedFrom roll count).Nodup := by
  refine Nodup.filterMap ?_ nodup_range'
  intro x x' owned hx hx'
  simp only [Option.mem_def, Option.map_eq_some_iff] at hx hx'
  obtain ⟨pk, -, rfl⟩ := hx
  obtain ⟨pk', -, heq⟩ := hx'
  exact (Prod.mk.injEq _ _ _ _ ▸ heq).1.symm

end Rolls

end Tezos.Protocol
