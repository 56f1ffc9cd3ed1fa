import Tezos.Lib.Runs
import Tezos.Stdlib.LwtIdleWaiter

/-! An idle waiter is a lock: idle functions run while no task does, and the other way round, in every order of the
    calls and of their ends. -/

namespace Tezos.LwtIdleWaiter
open Lib List Option

variable {w : State}

/-- The idle function that runs. -/
def State.idle (w : State) : Option Nat := w.phase.bind (·.current)

def State.rest (w : State) : List Nat := (w.phase.map (·.rest)).getD []

/-- What holds between two steps, and while idle functions and tasks are picked. In a phase the idle functions that
    are left to be run are `rest`. -/
structure Sound (rest : List Nat) (w : State) : Prop where
  count : w.runningTasks = w.tasks.length
  alone : w.runningIdle = true → w.tasks = []
  forced : w.preventTasks = true → w.pendingIdle ≠ []
  /-- Tasks wait only for idle functions. -/
  blocked : w.pendingTasks ≠ [] → w.runningIdle = true ∨ w.preventTasks = true
  nodup : (w.started ++ rest ++ w.pendingIdle).Nodup
  called : ∀ f ∈ w.started ++ rest ++ w.pendingIdle, f < w.next

/-- What every step keeps. -/
structure Inv (w : State) : Prop where
  sound : Sound w.rest w
  phase : w.runningIdle = w.phase.isSome
  /-- Idle functions wait only for what ends with a look at them. -/
  watched : w.pendingIdle ≠ [] → w.runningTasks ≠ 0 ∨ w.runningIdle = true ∨ w.wakeups ≠ []

variable {f : Nat} {rest : List Nat}

theorem Sound.tail (h : Sound (f :: rest) w) : Sound rest w := by
  have hsub : Sublist (w.started ++ rest ++ w.pendingIdle) (w.started ++ (f :: rest) ++ w.pendingIdle) :=
    ((sublist_cons_self f rest).append_left w.started).append_right w.pendingIdle
  exact { h with
    nodup := h.nodup.sublist hsub
    called := fun g hg => h.called g (hsub.subset hg) }

theorem Sound.setPhase (h : Sound rest w) (p : Option Phase) : Sound rest { w with phase := p } :=
  ⟨h.count, h.alone, h.forced, h.blocked, h.nodup, h.called⟩

theorem Sound.start (h : Sound (f :: rest) w) :
    Sound rest { w with phase := some ⟨some f, rest⟩, started := f :: w.started } := by
  have hperm : (f :: w.started ++ rest ++ w.pendingIdle).Perm (w.started ++ (f :: rest) ++ w.pendingIdle) :=
    (perm_middle.symm).append_right w.pendingIdle
  exact { h with
    nodup := hperm.nodup_iff.mpr h.nodup
    called := fun g hg => h.called g (hperm.subset hg) }

theorem Sound.iterIdle (h : Sound rest w) (hidle : w.runningIdle = true) : Inv (iterIdle w rest) := by
  induction rest with
  | nil =>
    exact
      { sound :=
          { h with
            alone := fun hne => absurd hne Bool.false_ne_true
            blocked := fun hne => absurd rfl hne }
        phase := rfl
        watched := fun _ => .inr (.inr (append_ne_nil_of_right_ne_nil _ (cons_ne_nil _ []))) }
  | cons f rest ih =>
    rw [LwtIdleWaiter.iterIdle]
    split
    · exact ih h.tail
    · exact ⟨h.start, hidle, fun _ => .inr (.inl hidle)⟩

theorem Sound.mayRunIdleTasks (h : Sound w.rest w) (hph : w.runningIdle = w.phase.isSome) :
    Inv (mayRunIdleTasks w) := by
  unfold LwtIdleWaiter.mayRunIdleTasks
  split
  · rename_i hfree
    rcases hp : w.pendingIdle with _ | ⟨f, rest⟩
    · exact ⟨h, hph, fun hne => absurd hp hne⟩
    · have hrest : w.rest = [] := by
        have hnone : w.phase = none :=
          isNone_iff_eq_none.mp (isSome_eq_false_iff.mp (hph.symm.trans hfree.2))
        unfold State.rest
        rw [hnone]
        rfl
      have hperm : (w.started ++ (f :: rest).reverse ++ []).Perm (w.started ++ w.rest ++ w.pendingIdle) := by
        rw [hrest, hp, append_nil, append_nil]
        exact (reverse_perm _).append_left w.started
      have htas : w.tasks = [] := by
        have hcnt := h.count
        rw [hfree.1] at hcnt
        exact length_eq_zero_iff.mp (Int.ofNat_eq_zero.mp hcnt.symm)
      refine Sound.iterIdle ?_ rfl
      exact
        { h with
          alone := fun _ => htas
          forced := fun hne => absurd hne Bool.false_ne_true
          blocked := fun _ => .inl rfl
          nodup := hperm.nodup_iff.mpr h.nodup
          called := fun g hg => h.called g (hperm.subset hg) }
  · rename_i hfree
    refine ⟨h, hph, fun _ => ?_⟩
    by_cases hzero : w.runningTasks = 0
    · exact .inr (.inl (eq_true_of_ne_false fun hidle => hfree ⟨hzero, hidle⟩))
    · exact .inl hzero

/-! ### One lemma for each call -/

variable (h : Inv w)
include h

theorem Inv.task (f : Nat) : Inv (task f w) := by
  unfold LwtIdleWaiter.task
  cases hbloc : w.runningIdle || w.preventTasks with
  | true =>
    rw [Bool.or_eq_true] at hbloc
    exact ⟨{ h.sound with blocked := fun _ => hbloc }, h.phase, h.watched⟩
  | false =>
    obtain ⟨hidle, hprev⟩ := Bool.or_eq_false_iff.mp hbloc
    rw [if_neg Bool.false_ne_true]
    refine ⟨{ h.sound with count := ?_, alone := ?_ }, h.phase, fun _ => .inl ?_⟩
    · rw [h.sound.count, length_cons, Int.natCast_succ]
    · intro hne
      exact absurd (hidle.symm.trans hne) Bool.false_ne_true
    · show w.runningTasks + 1 ≠ 0
      have hcnt := h.sound.count
      omega

theorem Inv.call : Inv { w with next := w.next + 1 } :=
  ⟨{ h.sound with called := fun f hf => Nat.lt_succ_of_lt (h.sound.called f hf) }, h.phase, h.watched⟩

theorem Inv.whenIdle (prevent : Bool) :
    Inv (whenIdle w.next { w with next := w.next + 1, preventTasks := w.preventTasks || prevent }) := by
  have hperm : (w.started ++ w.rest ++ w.next :: w.pendingIdle).Perm (w.next :: (w.started ++ w.rest ++ w.pendingIdle)) :=
    perm_middle
  refine Sound.mayRunIdleTasks ?_ h.phase
  exact
    { count := h.sound.count
      alone := h.sound.alone
      forced := fun _ => cons_ne_nil _ _
      blocked := fun hne => (h.sound.blocked hne).imp_right fun hprev => by rw [hprev, Bool.true_or]
      nodup := hperm.nodup_iff.mpr
        (nodup_cons.mpr ⟨fun hmem => absurd (h.sound.called _ hmem) (lt_irrefl _), h.sound.nodup⟩)
      called := fun f hf => by
        rcases mem_cons.mp (hperm.subset hf) with rfl | hf
        · exact Nat.lt_succ_self _
        · exact Nat.lt_succ_of_lt (h.sound.called f hf) }

theorem Inv.taskDone (hf : f ∈ w.tasks) :
    Inv (mayRunIdleTasks { w with runningTasks := w.runningTasks - 1, tasks := w.tasks.erase f }) := by
  refine Sound.mayRunIdleTasks ?_ h.phase
  refine { h.sound with count := ?_, alone := ?_ }
  · rw [h.sound.count, length_erase_of_mem hf, Int.natCast_sub (length_pos_of_mem hf)]
    rfl
  · intro hidle
    exact absurd hf (by rw [h.sound.alone hidle]; exact not_mem_nil)

omit h in
theorem rest_of_phase {p : Phase} (hp : w.phase = some p) : w.rest = p.rest := by
  unfold State.rest
  rw [hp]
  rfl

theorem Inv.idleDone (hp : w.phase = some ⟨some f, rest⟩) : Inv { w with phase := some ⟨none, rest⟩ } := by
  refine ⟨?_, ?_, h.watched⟩
  · have hsnd := h.sound
    rw [rest_of_phase hp] at hsnd
    exact hsnd.setPhase _
  · rw [h.phase, hp]
    rfl

theorem Inv.nextIdle (hp : w.phase = some ⟨none, rest⟩) : Inv (iterIdle w rest) := by
  have hsnd := h.sound
  rw [rest_of_phase hp] at hsnd
  refine hsnd.iterIdle ?_
  rw [h.phase, hp]
  rfl

theorem Inv.setWakeups {wakeups : List (List Nat)} (hne : wakeups ≠ []) : Inv { w with wakeups := wakeups } :=
  ⟨{ h.sound with }, h.phase, fun _ => .inr (.inr hne)⟩

theorem Inv.wakeup (i : Nat) : Inv (step w (.wakeup i)) := by
  rw [step]
  rcases hi : w.wakeups[i]? with _ | us
  · exact h
  · rcases us with _ | ⟨f, rest⟩
    · exact Sound.mayRunIdleTasks { h.sound with } h.phase
    · have hne : w.wakeups.set i rest ≠ [] := by
        obtain ⟨hlt, -⟩ := List.getElem?_eq_some_iff.mp hi
        rw [Ne, set_eq_nil_iff]
        exact ne_nil_of_length_pos (Nat.zero_lt_of_lt hlt)
      have hset := h.setWakeups hne
      show Inv (if f ∈ w.canceled then _ else LwtIdleWaiter.task f _)
      split
      · exact hset
      · exact hset.task f

theorem Inv.step (a : Action) : Inv (step w a) := by
  cases a with
  | task => exact h.call.task w.next
  | whenIdle =>
    have hkeep := h.whenIdle false
    rw [Bool.or_false] at hkeep
    exact hkeep
  | forceIdle =>
    have hprev := h.whenIdle true
    rw [Bool.or_true] at hprev
    exact hprev
  | cancel f =>
    rw [LwtIdleWaiter.step]
    split
    · exact ⟨{ h.sound with }, h.phase, h.watched⟩
    · exact h
  | taskDone f =>
    rw [LwtIdleWaiter.step]
    split
    · rename_i hf
      exact h.taskDone hf
    · exact h
  | idleDone =>
    rw [LwtIdleWaiter.step]
    split
    · rename_i hp
      exact h.idleDone hp
    · exact h
  | nextIdle =>
    rw [LwtIdleWaiter.step]
    split
    · rename_i hp
      exact h.nextIdle hp
    · exact h
  | wakeup i => exact h.wakeup i

omit h

theorem inv_create : Inv create where
  sound :=
    { count := rfl
      alone := fun _ => rfl
      forced := fun hne => absurd hne Bool.false_ne_true
      blocked := fun hne => absurd rfl hne
      nodup := nodup_nil
      called := fun _ hf => absurd hf not_mem_nil }
  phase := rfl
  watched := fun hne => absurd rfl hne

@[simp] theorem tasks_iterIdle (rest : List Nat) : (iterIdle w rest).tasks = w.tasks := by
  induction rest with
  | nil => rfl
  | cons f rest ih =>
    rw [iterIdle]
    split
    · exact ih
    · rfl

@[simp] theorem tasks_mayRunIdleTasks : (mayRunIdleTasks w).tasks = w.tasks := by
  unfold mayRunIdleTasks
  split
  · split
    · rfl
    · exact tasks_iterIdle _
  · rfl

/-- A call of `task` starts its function only when no idle function runs, and none runs then. -/
theorem idle_task (hph : w.runningIdle = w.phase.isSome) (hstr : w.tasks.length < (task f w).tasks.length) :
    w.idle = none ∧ (task f w).idle = none := by
  unfold task at hstr ⊢
  cases hbloc : w.runningIdle || w.preventTasks with
  | true =>
    rw [hbloc] at hstr
    exact absurd hstr (lt_irrefl _)
  | false =>
    have hnone : w.idle = none := by
      obtain ⟨hidle, -⟩ := Bool.or_eq_false_iff.mp hbloc
      rw [hph, isSome_eq_false_iff, isNone_iff_eq_none] at hidle
      rw [State.idle, hidle]
      rfl
    exact ⟨hnone, hnone⟩

theorem idle_of_start (h : Inv w) (a : Action) (hstr : w.tasks.length < (step w a).tasks.length) :
    w.idle = none ∧ (step w a).idle = none := by
  cases a with
  | task => exact idle_task h.call.phase hstr
  | whenIdle =>
    rw [step, whenIdle, tasks_mayRunIdleTasks] at hstr
    exact absurd hstr (lt_irrefl _)
  | forceIdle =>
    rw [step, forceIdle, whenIdle, tasks_mayRunIdleTasks] at hstr
    exact absurd hstr (lt_irrefl _)
  | cancel | idleDone =>
    rw [step] at hstr
    split at hstr <;> exact absurd hstr (lt_irrefl _)
  | taskDone f =>
    rw [step] at hstr
    split at hstr
    · rw [tasks_mayRunIdleTasks] at hstr
      exact absurd (erase_sublist.length_le) (Nat.not_le_of_lt hstr)
    · exact absurd hstr (lt_irrefl _)
  | nextIdle =>
    rw [step] at hstr
    split at hstr
    · rw [tasks_iterIdle] at hstr
      exact absurd hstr (lt_irrefl _)
    · exact absurd hstr (lt_irrefl _)
  | wakeup i =>
    rw [step] at hstr ⊢
    rcases hi : w.wakeups[i]? with _ | us
    · rw [hi] at hstr
      exact absurd hstr (lt_irrefl _)
    · rw [hi] at hstr
      rcases us with _ | ⟨f, rest⟩
      · rw [tasks_mayRunIdleTasks] at hstr
        exact absurd hstr (lt_irrefl _)
      · by_cases hf : f ∈ w.canceled
        · simp only [if_pos hf] at hstr
          exact absurd hstr (lt_irrefl _)
        · simp only [if_neg hf] at hstr ⊢
          exact idle_task (w := { w with wakeups := w.wakeups.set i rest }) h.phase hstr

/-- What a caller can rely on. -/
structure Exclusive (w : State) : Prop where
  idle : w.idle ≠ none → w.runningTasks = 0 ∧ w.tasks = []
  /-- A step that starts a task finds no idle function running, and starts none. -/
  starts : ∀ a, w.tasks.length < (step w a).tasks.length → w.idle = none ∧ (step w a).idle = none
  once : w.started.Nodup
  count : w.runningTasks = w.tasks.length
  forced : w.preventTasks = true → w.pendingIdle ≠ []
  /-- Tasks that wait do so for an idle phase, or for idle functions that were forced. -/
  blocked : w.pendingTasks ≠ [] → w.runningIdle = true ∨ w.preventTasks = true
  /-- Idle functions that wait do so for a task, for an idle phase, or for the end of one to have woken up tasks. -/
  watched : w.pendingIdle ≠ [] → w.tasks ≠ [] ∨ w.phase ≠ none ∨ w.wakeups ≠ []

theorem Inv.exclusive (h : Inv w) : Exclusive w where
  idle hne := by
    have hidle : w.runningIdle = true := by
      rw [h.phase, isSome_iff_ne_none]
      intro hnone
      rw [State.idle, hnone] at hne
      exact hne rfl
    have htas := h.sound.alone hidle
    exact ⟨by rw [h.sound.count, htas]; rfl, htas⟩
  starts a := idle_of_start h a
  once := (sublist_append_left _ _).nodup ((sublist_append_left _ _).nodup h.sound.nodup)
  count := h.sound.count
  forced := h.sound.forced
  blocked := h.sound.blocked
  watched hne := by
    rcases h.watched hne with hcnt | hidle | hwak
    · refine .inl fun htas => hcnt ?_
      rw [h.sound.count, htas]
      rfl
    · rw [h.phase, isSome_iff_ne_none] at hidle
      exact .inr (.inl hidle)
    · exact .inr (.inr hwak)

/-- In every run of calls, ends and cancellations, idle functions and tasks exclude each other. -/
theorem exclusive_run (actions : List Action) : Exclusive (run step create actions) :=
  (inv_run Inv inv_create (fun _ a h => h.step a) actions).exclusive

end Tezos.LwtIdleWaiter
