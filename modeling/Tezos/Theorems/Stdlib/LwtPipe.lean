import Mathlib.Algebra.BigOperators.Group.List.Basic
import Mathlib.Algebra.Ring.Int.Defs
import Tezos.Lib.Runs
import Tezos.Stdlib.LwtPipe

/-! No wake-up of a pipe is lost: consumers wait only while it is empty, producers only while it is not, and nobody once
    it is closed. The accounts of a pipe: what is pushed and popped while `pop` is between its read and its write of the
    size is not counted, and what `pop_all_now` pops from a closed pipe is lost. -/

namespace Tezos.LwtPipe
open Lib LwtPipe

variable {α : Type} {s : State α} {computeSize : α → Int} {x : Int × α} {rest : List (Int × α)}
  {ws : List (Int × Int)}
  {task : Task α} {a : Action α}

@[simp] theorem pipe_notifyPush (s : State α) : (notifyPush s).pipe = { s.pipe with pushWaiter := none } := by
  rcases s with ⟨⟨queue, currentSize, maxSize, closed, pushWaiter, popWaiter⟩, ready, stack, pushed, popped⟩
  cases pushWaiter <;> rfl

@[simp] theorem pipe_notifyPop (s : State α) : (notifyPop s).pipe = { s.pipe with popWaiter := none } := by
  rcases s with ⟨⟨queue, currentSize, maxSize, closed, pushWaiter, popWaiter⟩, ready, stack, pushed, popped⟩
  cases popWaiter <;> rfl

@[simp] theorem notifyPush_keeps (s : State α) : (notifyPush s).stack = s.stack ∧ (notifyPush s).pushed = s.pushed ∧
    (notifyPush s).popped = s.popped ∧ (notifyPush s).lost = s.lost := by
  unfold notifyPush
  split <;> exact ⟨rfl, rfl, rfl, rfl⟩

@[simp] theorem notifyPop_keeps (s : State α) : (notifyPop s).stack = s.stack ∧ (notifyPop s).pushed = s.pushed ∧
    (notifyPop s).popped = s.popped ∧ (notifyPop s).lost = s.lost := by
  unfold notifyPop
  split <;> exact ⟨rfl, rfl, rfl, rfl⟩

/-- After `notify_pop`, either nobody waited and the rest goes on, or it is left on the stack. -/
theorem notifyPopThen_cases (task : Task α) (go : State α → State α) (s : State α) :
    (s.pipe.popWaiter = none ∧ notifyPopThen task go s = go s) ∨
      (s.pipe.popWaiter ≠ none ∧ notifyPopThen task go s = { notifyPop s with stack := task :: s.stack }) := by
  unfold notifyPopThen
  rcases s.pipe.popWaiter with _ | threads
  · exact .inl ⟨rfl, rfl⟩
  · exact .inr ⟨Option.some_ne_none threads, rfl⟩

theorem admits_of_nil {q : Pipe α} (h : q.queue = []) (eltSize : Int) : admits q eltSize = true := by
  rw [admits, h, List.isEmpty_nil, Bool.or_true]

theorem pop_nil (h : s.pipe.queue = []) : pop s = if s.pipe.closed then s else waitPush .pop s := by
  unfold pop
  rw [h]

theorem pop_cons (h : s.pipe.queue = x :: rest) : pop s =
    notifyPopThen (.setSize s.pipe.currentSize x.1) (setSize s.pipe.currentSize x.1) (dequeue x rest s) := by
  unfold pop
  rw [h]

theorem popWithTimeout_nil (h : s.pipe.queue = []) (sleeping : Bool) : popWithTimeout sleeping s =
    if sleeping then if s.pipe.closed then s else waitPush .popWithTimeout s else s := by
  unfold popWithTimeout
  rw [h]
  rfl

theorem popWithTimeout_cons (h : s.pipe.queue = x :: rest) (sleeping : Bool) : popWithTimeout sleeping s = pop s := by
  unfold popWithTimeout
  rw [h]
  rfl

theorem awaitElement_nil (h : s.pipe.queue = []) (t : Thread α) :
    awaitElement t s = if s.pipe.closed then s else waitPush t s := by
  unfold awaitElement
  rw [h]
  rfl

theorem awaitElement_cons (h : s.pipe.queue = x :: rest) (t : Thread α) : awaitElement t s = s := by
  unfold awaitElement
  rw [h]
  rfl

theorem popNow_nil (h : s.pipe.queue = []) : popNow s = s := by
  unfold popNow
  rw [h]

theorem popNow_cons (h : s.pipe.queue = x :: rest) : popNow s = notifyPop (takeNow x rest s) := by
  unfold popNow
  rw [h]

/-- An action leaves the queue and the sizes as they are before it runs some code: either it calls an operation, or
    runs a thread that was released, or it takes the rest of an operation from the stack. -/
theorem start_cases (s : State α) (a : Action α) :
    (∃ pushWaiter ready, (start s a).1 = { s with pipe := { s.pipe with pushWaiter := pushWaiter }, ready := ready } ∧
      (pushWaiter = none ↔ s.pipe.pushWaiter = none) ∧ ∀ task, (start s a).2 = some task → task.isCall = true) ∨
    ∃ task stack, s.stack = task :: stack ∧ start s a = ({ s with stack := stack }, some task) := by
  cases a with
  | call task =>
    refine .inl ⟨s.pipe.pushWaiter, s.ready, rfl, Iff.rfl, fun task' h => ?_⟩
    by_cases hcall : task.isCall = true
    · simp only [start, hcall, if_true, Option.some.injEq] at h
      rw [← h]
      exact hcall
    · simp [start, hcall] at h
  | run i sleeping =>
    rw [start]
    rcases s.ready[i]? with _ | t
    · exact .inl ⟨s.pipe.pushWaiter, s.ready, rfl, Iff.rfl, nofun⟩
    · refine .inl ⟨s.pipe.pushWaiter, s.ready.eraseIdx i, rfl, Iff.rfl, fun task h => ?_⟩
      rw [← Option.some.inj h]
      rfl
  | timeout i =>
    rw [start]
    rcases hw : s.pipe.pushWaiter with _ | threads
    · exact .inl ⟨s.pipe.pushWaiter, s.ready, rfl, by rw [hw], nofun⟩
    · dsimp only
      split
      · exact .inl ⟨some (threads.eraseIdx i), _, rfl, by simp, nofun⟩
      · exact .inl ⟨s.pipe.pushWaiter, s.ready, rfl, by rw [hw], nofun⟩
  | return_ =>
    by_cases hs : s.stack = []
    · have heq : start s .return_ = (s, none) := by rw [start, hs]
      rw [heq]
      exact .inl ⟨s.pipe.pushWaiter, s.ready, rfl, Iff.rfl, nofun⟩
    · obtain ⟨task, stack, hs⟩ := List.exists_cons_of_ne_nil hs
      exact .inr ⟨task, stack, hs, by rw [start, hs]⟩

theorem start_keeps (s : State α) (a : Action α) :
    (start s a).1.pipe.queue = s.pipe.queue ∧ (start s a).1.pipe.maxSize = s.pipe.maxSize ∧
      (start s a).1.pushed = s.pushed := by
  rcases start_cases s a with ⟨pushWaiter, ready, heq, -, -⟩ | ⟨task, stack, -, heq⟩
  · rw [heq]
    exact ⟨rfl, rfl, rfl⟩
  · rw [heq]
    exact ⟨rfl, rfl, rfl⟩

/-! ### Waiters -/

/-- Consumers wait only if the pipe is empty, producers only if it is not, and both only if it is not closed. -/
structure Waiters (q : Pipe α) : Prop where
  consumer : q.pushWaiter ≠ none → q.queue = [] ∧ q.closed = false
  producer : q.popWaiter ≠ none → q.queue ≠ [] ∧ q.closed = false

namespace Waiters

variable {q : Pipe α} {t : Thread α} {elt : α}

theorem pushWaiter_eq_none (h : Waiters q) (hq : q.queue = x :: rest) : q.pushWaiter = none := by
  by_contra hne
  cases hq.symm.trans (h.consumer hne).1

theorem popWaiter_eq_none (h : Waiters q) (hq : q.queue = []) : q.popWaiter = none := by
  by_contra hne
  exact (h.producer hne).1 hq

theorem of_none (hpush : q.pushWaiter = none) (hpop : q.popWaiter = none) : Waiters q :=
  ⟨fun hne => absurd hpush hne, fun hne => absurd hpop hne⟩

theorem notifyPopThen {go : State α → State α} (hpush : s.pipe.pushWaiter = none)
    (hgo : s.pipe.popWaiter = none → Waiters (go s).pipe) : Waiters (notifyPopThen task go s).pipe := by
  rcases notifyPopThen_cases task go s with ⟨hpop, heq⟩ | ⟨-, heq⟩
  · rw [heq]
    exact hgo hpop
  · rw [heq]
    exact of_none (by rw [pipe_notifyPop]; exact hpush) (by rw [pipe_notifyPop])

variable (h : Waiters s.pipe)
include h

theorem waitPush (hq : s.pipe.queue = []) (hc : s.pipe.closed = false) : Waiters (waitPush t s).pipe :=
  ⟨fun _ => ⟨hq, hc⟩, h.producer⟩

theorem enqueue {x : Int × α} : Waiters (enqueue x s).pipe := by
  rw [LwtPipe.enqueue, pipe_notifyPush]
  refine ⟨fun hne => absurd rfl hne, fun hne => ⟨?_, (h.producer hne).2⟩⟩
  exact List.append_ne_nil_of_right_ne_nil _ (List.cons_ne_nil x [])

theorem push : Waiters (push computeSize elt s).pipe := by
  unfold LwtPipe.push
  cases hc : s.pipe.closed with
  | true => exact h
  | false =>
    rw [if_neg Bool.false_ne_true]
    split
    · exact h.enqueue
    · rename_i hadm
      exact ⟨h.consumer, fun _ => ⟨fun hnil => hadm (admits_of_nil hnil _), hc⟩⟩

theorem pushNow : Waiters (pushNow computeSize elt s).pipe := by
  unfold LwtPipe.pushNow
  split
  · exact h
  · split
    · exact h.enqueue
    · exact h

theorem ite_closed (hq : s.pipe.queue = []) : Waiters (if s.pipe.closed then s else LwtPipe.waitPush t s).pipe := by
  cases hc : s.pipe.closed with
  | true => exact h
  | false => exact h.waitPush hq hc

theorem pop : Waiters (pop s).pipe := by
  rcases hq : s.pipe.queue with _ | ⟨x, rest⟩
  · rw [pop_nil hq]
    exact h.ite_closed hq
  · have hpush := h.pushWaiter_eq_none hq
    rw [pop_cons hq]
    exact notifyPopThen hpush fun hpop => of_none hpush hpop

theorem popWithTimeout {sleeping : Bool} : Waiters (popWithTimeout sleeping s).pipe := by
  rcases hq : s.pipe.queue with _ | ⟨x, rest⟩
  · rw [popWithTimeout_nil hq]
    split
    · exact h.ite_closed hq
    · exact h
  · rw [popWithTimeout_cons hq]
    exact h.pop

theorem awaitElement : Waiters (awaitElement t s).pipe := by
  rcases hq : s.pipe.queue with _ | ⟨x, rest⟩
  · rw [awaitElement_nil hq]
    exact h.ite_closed hq
  · rw [awaitElement_cons hq]
    exact h

theorem popNow : Waiters (popNow s).pipe := by
  rcases hq : s.pipe.queue with _ | ⟨x, rest⟩
  · rw [popNow_nil hq]
    exact h
  · have hpush := h.pushWaiter_eq_none hq
    rw [popNow_cons hq, pipe_notifyPop]
    exact of_none hpush rfl

omit h in
theorem popAllLoop (acc l : List (Int × α)) (h : Waiters s.pipe) (hl : s.pipe.queue = l) :
    Waiters (popAllLoop acc l s).pipe := by
  induction l generalizing s acc with
  | nil =>
    rw [LwtPipe.popAllLoop]
    split <;> exact h
  | cons x rest ih =>
    have hpush := h.pushWaiter_eq_none hl
    exact notifyPopThen hpush fun hpop => ih _ (of_none hpush hpop) rfl

theorem close : Waiters (close s).pipe := by
  unfold LwtPipe.close
  cases hc : s.pipe.closed with
  | true => exact h
  | false =>
    rcases hw : s.pipe.pushWaiter with _ | threads
    · exact of_none (by simpa using hw) (by simp)
    · have hq := (h.consumer (by rw [hw]; exact Option.some_ne_none threads)).1
      exact of_none (by simp) (by simpa using h.popWaiter_eq_none hq)

theorem exec (task : Task α) : Waiters (exec computeSize s task).pipe := by
  cases task with
  | thread t sleeping =>
    cases t with
    | push elt => exact h.push
    | pop => exact h.pop
    | popWithTimeout => exact h.popWithTimeout
    | peek | valuesAvailable => exact h.awaitElement
  | pushNow elt => exact h.pushNow
  | popNow => exact h.popNow
  | popAllNow | popAllLoop acc => exact h.popAllLoop _ _ rfl
  | close => exact h.close
  | setSize currentSize eltSize => exact ⟨h.consumer, h.producer⟩
  | notifyPop =>
    rw [LwtPipe.exec, pipe_notifyPop]
    exact ⟨h.consumer, fun hne => absurd rfl hne⟩

omit h

theorem step (s : State α) (a : Action α) (h : Waiters s.pipe) : Waiters (step computeSize s a).pipe := by
  have hstr : Waiters (start s a).1.pipe := by
    rcases start_cases s a with ⟨pushWaiter, ready, heq, hw, -⟩ | ⟨task, stack, -, heq⟩
    · rw [heq]
      exact ⟨fun hne => h.consumer fun hnone => hne (hw.mpr hnone), h.producer⟩
    · rw [heq]
      exact h
  unfold LwtPipe.step
  rcases hs : start s a with ⟨s', _ | task⟩ <;> rw [hs] at hstr
  · exact hstr
  · exact hstr.exec task

end Waiters

/-- In every state that is reached by an interleaving of the operations, consumers wait only if the pipe is empty and
    not closed, and producers only if it is neither. -/
theorem waiters_run (computeSize : α → Int) (maxSize : Int) (actions : List (Action α)) :
    Waiters (run (step computeSize) (create maxSize) actions).pipe :=
  inv_run (fun s : State α => Waiters s.pipe) (Waiters.of_none rfl rfl) Waiters.step actions

open List

def total (queue : List (Int × α)) : Int := (queue.map Prod.fst).sum

theorem total_concat (queue : List (Int × α)) (x : Int × α) : total (queue ++ [x]) = total queue + x.1 := by
  simp [total]

theorem total_cons (x : Int × α) (rest : List (Int × α)) : total (x :: rest) = x.1 + total rest := by
  simp [total]

/-- The sizes that the pops under way read and are to subtract, the innermost first. -/
def windows : List (Task α) → List (Int × Int)
  | [] => []
  | .setSize currentSize eltSize :: stack => (currentSize, eltSize) :: windows stack
  | _ :: stack => windows stack

/-- Every pop under way read the size that it finds, and the last one leaves the total. -/
def Owes (total : Int) : Int → List (Int × Int) → Prop
  | currentSize, [] => currentSize = total
  | currentSize, (read, eltSize) :: ws => currentSize = read ∧ Owes total (read - eltSize) ws

theorem Owes.shift {t c d : Int} (h : Owes t c ws) (hd : ws ≠ [] → d = 0) : Owes (t + d) (c + d) ws := by
  rcases ws with _ | ⟨w, ws⟩
  · exact congrArg (· + d) h
  · rw [hd (cons_ne_nil w ws), add_zero, add_zero]
    exact h

theorem Owes.total_le {t c : Int} (h : Owes t c ws) (hpos : ∀ w ∈ ws, 0 ≤ w.2) : t ≤ c := by
  induction ws generalizing c with
  | nil => exact Int.le_of_eq h.symm
  | cons w ws ih =>
    obtain ⟨rfl, h⟩ := h
    have := ih h fun w hw => hpos w (mem_cons_of_mem _ hw)
    have := hpos w mem_cons_self
    omega

/-- A native integer of 63 bits. -/
def Fits (x : Int) : Prop := -2 ^ 62 ≤ x ∧ x < 2 ^ 62

instance (x : Int) : Decidable (Fits x) := inferInstanceAs (Decidable (_ ∧ _))

theorem fits_total_nil : Fits (total ([] : List (Int × α))) := show Fits 0 by decide

theorem int63_of_fits {x : Int} (h : Fits x) : int63 x = x := Int.bmod_eq_of_le h.1 h.2

theorem Owes.fits {t c : Int} (h : Owes t c ws) (ht : Fits t) (hw : ∀ w ∈ ws, Fits w.1) : Fits c := by
  rcases ws with _ | ⟨w, ws⟩
  · exact (show c = t from h) ▸ ht
  · exact h.1 ▸ hw w mem_cons_self

/-- The sizes add up, also after elements are popped, the elements come out in the order in which they went in, and none
    of them is lost. -/
structure Accounted (s : State α) : Prop where
  owes : Owes (total s.pipe.queue) s.pipe.currentSize (windows s.stack)
  fits : ∀ rest, rest <:+ s.pipe.queue → Fits (total rest)
  reads : ∀ w ∈ windows s.stack, Fits w.1
  fifo : s.pushed = s.popped ++ s.pipe.queue
  lost : s.lost = []

/-- The element that a piece of code is about to push. -/
def admitted (computeSize : α → Int) (q : Pipe α) : Task α → Option (Int × α)
  | .thread (.push elt) _ | .pushNow elt =>
    if !q.closed && admits q (computeSize elt) then some (computeSize elt, elt) else none
  | _ => none

/-- The elements that a piece of code is about to pop, up to its first wake-up. -/
def taken (q : Pipe α) : Task α → List (Int × α)
  | .thread .pop _ | .thread .popWithTimeout _ | .popNow => q.queue.take 1
  | .popAllNow | .popAllLoop _ => if q.popWaiter.isSome then q.queue.take 1 else q.queue
  | _ => []

/-- The elements that `pop_all_now` has popped when it starts or goes on. -/
def drained : Task α → Option (List (Int × α))
  | .popAllNow => some []
  | .popAllLoop acc => some acc
  | _ => none

/-- While a pop is between its `notify_pop` and the update of the size, only elements of size zero are popped and pushed,
    and none is pushed if the element of that pop has a negative size. The size of an element that is pushed and those of
    the queue from any element on add up to a native integer. On a closed pipe, `pop_all_now` has popped no element and
    finds none. -/
structure Calm (computeSize : α → Int) (s : State α) (task : Task α) : Prop where
  pops : windows s.stack ≠ [] → ∀ x ∈ taken s.pipe task, x.1 = 0
  pushes : ∀ x, admitted computeSize s.pipe task = some x → windows s.stack ≠ [] → x.1 = 0 ∧
    ∀ w ∈ windows s.stack, 0 ≤ w.2
  sums : ∀ x, admitted computeSize s.pipe task = some x → ∀ rest, rest <:+ s.pipe.queue → Fits (total rest + x.1)
  drains : s.pipe.closed = true → ∀ acc, drained task = some acc → acc = [] ∧ s.pipe.queue = []

/-- The code that an action runs is calm in the state before it. -/
def CalmAction (computeSize : α → Int) (s : State α) (a : Action α) : Prop :=
  ∀ s' task, start s a = (s', some task) → Calm computeSize s' task

/-! ### Steps -/

namespace Accounted

variable (h : Accounted s)
include h

theorem congr {s' : State α} (hqueue : s'.pipe.queue = s.pipe.queue) (hsize : s'.pipe.currentSize = s.pipe.currentSize)
    (hstc : windows s'.stack = windows s.stack) (hpus : s'.pushed = s.pushed) (hpopp : s'.popped = s.popped)
    (hlost : s'.lost = s.lost) : Accounted s' := by
  refine ⟨?_, by rw [hqueue]; exact h.fits, by rw [hstc]; exact h.reads, ?_, hlost.trans h.lost⟩
  · rw [hqueue, hsize, hstc]
    exact h.owes
  · rw [hpus, hpopp, hqueue]
    exact h.fifo

theorem notifyPop : Accounted (notifyPop s) :=
  h.congr (by simp) (by simp) (by simp) (by simp) (by simp) (by simp)

theorem ite_closed {t : Thread α} : Accounted (if s.pipe.closed then s else waitPush t s) := by
  split
  · exact h
  · exact h.congr rfl rfl rfl rfl rfl rfl

theorem currentSize_fits : Fits s.pipe.currentSize := h.owes.fits (h.fits _ (suffix_refl _)) h.reads

theorem enqueue (hx : windows s.stack ≠ [] → x.1 = 0)
    (hsums : ∀ rest, rest <:+ s.pipe.queue → Fits (total rest + x.1)) :
    Accounted (enqueue x s) := by
  have howes := h.owes.shift hx
  have hsize : int63 (s.pipe.currentSize + x.1) = s.pipe.currentSize + x.1 :=
    int63_of_fits (howes.fits (hsums _ (suffix_refl _)) h.reads)
  refine ⟨?_, fun rest hrest => ?_, ?_, ?_, ?_⟩
  · simp only [LwtPipe.enqueue, pipe_notifyPush, notifyPush_keeps, total_concat, hsize]
    exact howes
  · simp only [LwtPipe.enqueue, pipe_notifyPush] at hrest
    rcases suffix_concat_iff.mp hrest with rfl | ⟨front, rfl, hfront⟩
    · exact fits_total_nil
    · rw [total_concat]
      exact hsums front hfront
  · rw [LwtPipe.enqueue, (notifyPush_keeps _).1]
    exact h.reads
  · simp only [LwtPipe.enqueue, pipe_notifyPush, notifyPush_keeps]
    rw [h.fifo, append_assoc]
  · exact (notifyPush_keeps _).2.2.2.trans h.lost

theorem fits_rest (hq : s.pipe.queue = x :: rest) : ∀ rest', rest' <:+ rest → Fits (total rest') := fun rest' hrest =>
  h.fits rest' (hq ▸ hrest.trans (suffix_cons x rest))

theorem owes_rest (hq : s.pipe.queue = x :: rest) (hx : windows s.stack ≠ [] → x.1 = 0) :
    Owes (total rest) (s.pipe.currentSize - x.1) (windows s.stack) := by
  have howes := h.owes
  rw [hq, total_cons] at howes
  have := howes.shift (d := -x.1) fun hw => by rw [hx hw]; rfl
  rwa [show x.1 + total rest + -x.1 = total rest by omega] at this

theorem fifo_dequeue (hq : s.pipe.queue = x :: rest) : s.pushed = s.popped ++ [x] ++ rest := by
  rw [h.fifo, hq, append_assoc, singleton_append]

theorem takeNow (hq : s.pipe.queue = x :: rest) (hx : windows s.stack ≠ [] → x.1 = 0) :
    Accounted (takeNow x rest s) := by
  have howes := h.owes_rest hq hx
  have hfits := h.fits_rest hq
  refine ⟨?_, hfits, h.reads, h.fifo_dequeue hq, h.lost⟩
  simp only [LwtPipe.takeNow, LwtPipe.setSize, int63_of_fits (howes.fits (hfits _ (suffix_refl _)) h.reads)]
  exact howes

section
variable (hx : windows s.stack ≠ [] → ∀ x ∈ s.pipe.queue.take 1, x.1 = 0)
include hx

theorem pop : Accounted (pop s) := by
  rcases hq : s.pipe.queue with _ | ⟨x, rest⟩
  · rw [pop_nil hq]
    exact h.ite_closed
  · rw [hq] at hx
    have hx (hw : windows s.stack ≠ []) : x.1 = 0 := hx hw x mem_cons_self
    rw [pop_cons hq]
    rcases notifyPopThen_cases (.setSize s.pipe.currentSize x.1) (setSize s.pipe.currentSize x.1) (dequeue x rest s) with
      ⟨-, heq⟩ | ⟨-, heq⟩
    · rw [heq]
      exact h.takeNow hq hx
    · rw [heq]
      refine ⟨?_, ?_, ?_, ?_, ?_⟩
      · rw [pipe_notifyPop]
        exact ⟨rfl, h.owes_rest hq hx⟩
      · rw [pipe_notifyPop]
        exact h.fits_rest hq
      · exact forall_mem_cons.mpr ⟨h.currentSize_fits, h.reads⟩
      · simp only [pipe_notifyPop, notifyPop_keeps]
        exact h.fifo_dequeue hq
      · exact (notifyPop_keeps _).2.2.2.trans h.lost

theorem popNow : Accounted (popNow s) := by
  rcases hq : s.pipe.queue with _ | ⟨x, rest⟩
  · rw [popNow_nil hq]
    exact h
  · rw [popNow_cons hq]
    rw [hq] at hx
    exact (h.takeNow hq fun hw => hx hw x mem_cons_self).notifyPop

end

omit h in
theorem popAllLoop (acc l : List (Int × α)) (h : Accounted s) (hl : s.pipe.queue = l)
    (hx : windows s.stack ≠ [] → ∀ x ∈ (if s.pipe.popWaiter.isSome then l.take 1 else l), x.1 = 0)
    (hclosed : s.pipe.closed = true → acc = [] ∧ l = []) : Accounted (popAllLoop acc l s) := by
  induction l generalizing s acc with
  | nil =>
    rw [LwtPipe.popAllLoop]
    split
    · obtain ⟨rfl, -⟩ := hclosed ‹_›
      exact h.congr rfl rfl rfl rfl rfl (append_nil _)
    · exact h
  | cons x rest ih =>
    have hx0 (hw : windows s.stack ≠ []) : x.1 = 0 := by
      refine hx hw x ?_
      split
      · exact mem_cons_self
      · exact mem_cons_self
    have htake := h.takeNow hl hx0
    rw [popAllLoop]
    rcases notifyPopThen_cases (.popAllLoop (x :: acc)) (LwtPipe.popAllLoop (x :: acc) rest) (LwtPipe.takeNow x rest s) with
      ⟨hnone, heq⟩ | ⟨-, heq⟩
    · have hpop : s.pipe.popWaiter = none := hnone
      rw [heq]
      refine ih _ htake rfl (fun hw y hy => hx hw y ?_) fun hc => by cases (hclosed hc).2
      rw [hnone] at hy
      rw [hpop]
      exact mem_cons_of_mem x hy
    · rw [heq]
      exact htake.congr (by simp) (by simp) (by simp [windows]) (by simp) (by simp) (by simp)

theorem close : Accounted (close s) := by
  unfold LwtPipe.close
  split
  · exact h
  · split
    · refine notifyPop ?_
      exact h.congr rfl rfl rfl rfl rfl rfl
    · exact h.congr (by simp) (by simp) (by simp [windows]) (by simp) (by simp) (by simp)

theorem exec (hne : ∀ c e, task ≠ .setSize c e) (hcalm : Calm computeSize s task) :
    Accounted (LwtPipe.exec computeSize s task) := by
  obtain ⟨htak, hpus, hsums, hdrn⟩ := hcalm
  have hpush (elt : α) (hc : ¬s.pipe.closed = true) (ha : admits s.pipe (computeSize elt) = true)
      (hadm : ∀ x, (if !s.pipe.closed && admits s.pipe (computeSize elt) then some (computeSize elt, elt) else none) =
        some x →
        (windows s.stack ≠ [] → x.1 = 0) ∧ ∀ rest, rest <:+ s.pipe.queue → Fits (total rest + x.1)) :
      Accounted (LwtPipe.enqueue (computeSize elt, elt) s) := by
    obtain ⟨hzero, hsums⟩ := hadm _ (if_pos (by rw [Bool.eq_false_iff.mpr hc, ha]; rfl))
    exact h.enqueue hzero hsums
  cases task with
  | thread t sleeping =>
    cases t with
    | push elt =>
      simp only [LwtPipe.exec, push]
      split
      · exact h
      · split
        · exact hpush elt ‹_› ‹_› fun x hx => ⟨fun hw => (hpus x hx hw).1, hsums x hx⟩
        · exact h.congr rfl rfl rfl rfl rfl rfl
    | pop => exact h.pop htak
    | popWithTimeout =>
      simp only [LwtPipe.exec, popWithTimeout]
      split
      · split
        · exact h.ite_closed
        · exact h
      · exact h.pop htak
    | peek | valuesAvailable =>
      simp only [LwtPipe.exec, awaitElement]
      split
      · exact h.ite_closed
      · exact h
  | pushNow elt =>
    simp only [LwtPipe.exec, pushNow]
    split
    · exact h
    · split
      · exact hpush elt ‹_› ‹_› fun x hx => ⟨fun hw => (hpus x hx hw).1, hsums x hx⟩
      · exact h
  | popNow => exact h.popNow htak
  | popAllNow | popAllLoop acc => exact h.popAllLoop _ _ rfl htak fun hc => hdrn hc _ rfl
  | close => exact h.close
  | setSize currentSize eltSize => exact absurd rfl (hne currentSize eltSize)
  | notifyPop => exact h.notifyPop

theorem start (a : Action α) : (Accounted (start s a).1 ∧ ∀ c e, (start s a).2 ≠ some (.setSize c e)) ∨
      ∃ c e stack, s.stack = .setSize c e :: stack ∧ start s a = ({ s with stack := stack }, some (.setSize c e)) := by
  rcases start_cases s a with ⟨pushWaiter, ready, heq, -, hcall⟩ | ⟨task, stack, hstc, heq⟩
  · refine .inl ⟨?_, fun c e htask => Bool.false_ne_true (hcall _ htask)⟩
    rw [heq]
    exact h.congr rfl rfl rfl rfl rfl rfl
  · cases task with
    | setSize c e => exact .inr ⟨c, e, stack, hstc, heq⟩
    | _ =>
      rw [heq]
      exact .inl ⟨h.congr rfl rfl (by rw [hstc]; rfl) rfl rfl rfl, fun c e => nofun⟩

theorem step (hcalm : CalmAction computeSize s a) : Accounted (step computeSize s a) := by
  unfold LwtPipe.step
  rcases h.start a with ⟨hstr, hne⟩ | ⟨c, e, stack, hstc, heq⟩
  · rcases hs : LwtPipe.start s a with ⟨s', _ | task⟩ <;> rw [hs] at hstr hne
    · exact hstr
    · exact hstr.exec (fun c e heq => hne c e (congrArg some heq)) (hcalm s' task hs)
  · obtain ⟨howes, hfits, hreads, hfifo, hlost⟩ := h
    rw [hstc] at howes hreads
    obtain ⟨-, hreads⟩ := forall_mem_cons.mp hreads
    rw [heq]
    refine ⟨?_, hfits, hreads, hfifo, hlost⟩
    change Owes (total s.pipe.queue) (int63 (c - e)) (windows stack)
    rw [int63_of_fits (howes.2.fits (hfits _ (suffix_refl _)) hreads)]
    exact howes.2

omit h in
theorem create {maxSize : Int} : Accounted (create maxSize : State α) := by
  refine ⟨rfl, fun rest hrest => ?_, fun w hw => absurd hw not_mem_nil, rfl, rfl⟩
  rw [suffix_nil.mp hrest]
  exact fits_total_nil

end Accounted

/-! ### Admission -/

theorem pushed_notifyPopThen (task : Task α) (go : State α → State α) (s : State α) (hgo : (go s).pushed = s.pushed) :
    (notifyPopThen task go s).pushed = s.pushed := by
  rcases notifyPopThen_cases task go s with ⟨-, heq⟩ | ⟨-, heq⟩
  · rw [heq, hgo]
  · rw [heq]
    exact (notifyPop_keeps s).2.1

theorem pushed_pop (s : State α) : (pop s).pushed = s.pushed := by
  unfold pop
  split
  · exact pushed_notifyPopThen _ _ _ rfl
  · split <;> rfl

theorem pushed_popAllLoop (acc l : List (Int × α)) (s : State α) : (popAllLoop acc l s).pushed = s.pushed := by
  induction l generalizing s acc with
  | nil =>
    rw [popAllLoop]
    split <;> rfl
  | cons x rest ih => exact pushed_notifyPopThen _ _ _ (ih _ _)

theorem pushed_exec (s : State α) (task : Task α) :
    (exec computeSize s task).pushed = s.pushed ++ (admitted computeSize s.pipe task).toList := by
  have hpush (elt : α) (wait : State α) (hwait : wait.pushed = s.pushed) :
      (if s.pipe.closed then s
        else if admits s.pipe (computeSize elt) then enqueue (computeSize elt, elt) s else wait).pushed =
        s.pushed ++ (if !s.pipe.closed && admits s.pipe (computeSize elt) then some (computeSize elt, elt)
          else none).toList := by
    cases s.pipe.closed with
    | true => exact (append_nil _).symm
    | false =>
      cases admits s.pipe (computeSize elt) with
      | true => simp [enqueue]
      | false => simp [hwait]
  have hnone {s' : State α} (h : s'.pushed = s.pushed) : s'.pushed = s.pushed ++ (none : Option (Int × α)).toList := by
    rw [h, Option.toList_none, append_nil]
  cases task with
  | thread t sleeping =>
    cases t with
    | push elt => exact hpush elt _ rfl
    | pop => exact hnone (pushed_pop s)
    | popWithTimeout =>
      refine hnone ?_
      simp only [exec, popWithTimeout]
      split
      · split
        · split <;> rfl
        · rfl
      · exact pushed_pop s
    | peek | valuesAvailable =>
      refine hnone ?_
      simp only [exec, awaitElement]
      split
      · split <;> rfl
      · rfl
  | pushNow elt => exact hpush elt _ rfl
  | popNow =>
    refine hnone ?_
    simp only [exec, popNow]
    split
    · exact (notifyPop_keeps _).2.1
    · rfl
  | popAllNow | popAllLoop acc => exact hnone (pushed_popAllLoop _ _ s)
  | close =>
    refine hnone ?_
    simp only [exec, close]
    split
    · rfl
    · split
      · exact (notifyPop_keeps _).2.1
      · exact (notifyPush_keeps _).2.1
  | setSize currentSize eltSize => exact hnone rfl
  | notifyPop => exact hnone (notifyPop_keeps s).2.1

theorem admitted_cases {q : Pipe α} (h : admitted computeSize q task = some x) :
    (∃ elt, x = (computeSize elt, elt)) ∧ (q.queue = [] ∨ int63 (q.currentSize + x.1) < q.maxSize) := by
  have hite {elt : α}
      (h : (if !q.closed && admits q (computeSize elt) then some (computeSize elt, elt) else none) = some x) :
      (∃ elt, x = (computeSize elt, elt)) ∧ (q.queue = [] ∨ int63 (q.currentSize + x.1) < q.maxSize) := by
    split at h
    · rename_i ha
      obtain rfl := Option.some.inj h
      refine ⟨⟨elt, rfl⟩, ?_⟩
      obtain ⟨-, ha⟩ := Bool.and_eq_true_iff.mp ha
      rcases Bool.or_eq_true_iff.mp ha with hlt | hnil
      · exact .inr (of_decide_eq_true hlt)
      · exact .inl (isEmpty_iff.mp hnil)
    · cases h
  cases task with
  | thread t sleeping =>
    cases t with
    | push elt => exact hite h
    | _ => cases h
  | pushNow elt => exact hite h
  | _ => cases h

/-- An element is admitted by the action only if the queue was empty, or the true total of the sizes with its own is
    below the limit. -/
def AdmitsByTotal (computeSize : α → Int) (s : State α) (a : Action α) : Prop :=
  ∀ x, (step computeSize s a).pushed = s.pushed ++ [x] →
    s.pipe.queue = [] ∨ total s.pipe.queue + x.1 < s.pipe.maxSize

theorem Accounted.admitsByTotal (h : Accounted s) (hcalm : CalmAction computeSize s a) : AdmitsByTotal computeSize s a := by
  intro x hx
  obtain ⟨hqueue, hmax, hpus⟩ := start_keeps s a
  unfold LwtPipe.step at hx
  rcases hs : LwtPipe.start s a with ⟨s', _ | task⟩ <;> rw [hs] at hx hqueue hmax hpus <;>
    dsimp only at hx hqueue hmax hpus
  · rw [hpus] at hx
    exact absurd hx (by simp)
  · rw [pushed_exec, hpus, append_cancel_left_eq] at hx
    have hadm : admitted computeSize s'.pipe task = some x := by
      rcases ha : admitted computeSize s'.pipe task with _ | y
      · rw [ha] at hx
        cases hx
      · rw [ha] at hx
        rw [singleton_inj.mp hx]
    rcases h.start a with ⟨hstr, -⟩ | ⟨c, e, stack, -, heq⟩
    · rw [hs] at hstr
      rcases (admitted_cases hadm).2 with hnil | hlt
      · exact .inl (hqueue ▸ hnil)
      · refine .inr ?_
        rw [← hqueue, ← hmax]
        have hcalm := hcalm s' task hs
        -- outside of the windows the size is the total; inside, it is at least the total
        by_cases hw : windows s'.stack = []
        · have howes := hstr.owes
          rw [hw] at howes
          rw [show s'.pipe.currentSize = total s'.pipe.queue from howes,
            int63_of_fits (hcalm.sums x hadm _ (suffix_refl _))] at hlt
          exact hlt
        · obtain ⟨hx0, hpos⟩ := hcalm.pushes x hadm hw
          have hle := hstr.owes.total_le hpos
          rw [hx0, add_zero] at hlt ⊢
          rw [int63_of_fits hstr.currentSize_fits] at hlt
          exact Int.lt_of_le_of_lt hle hlt
    · rw [hs] at heq
      cases heq
      cases hadm

/-- What a pipe promises after a run: the sizes add up when no operation is under way, the elements are popped in the
    order in which they were pushed, each once, and none is lost, and an element is admitted by the true total of the
    sizes. -/
structure Faithful (computeSize : α → Int) (maxSize : Int) (actions : List (Action α)) : Prop where
  sizes : (run (step computeSize) (create maxSize) actions).stack = [] →
    (run (step computeSize) (create maxSize) actions).pipe.currentSize =
      total (run (step computeSize) (create maxSize) actions).pipe.queue
  fifo : (run (step computeSize) (create maxSize) actions).pushed =
    (run (step computeSize) (create maxSize) actions).popped ++
      (run (step computeSize) (create maxSize) actions).pipe.queue
  lost : (run (step computeSize) (create maxSize) actions).lost = []
  admission : ∀ before a, actions = before ++ [a] →
    AdmitsByTotal computeSize (run (step computeSize) (create maxSize) before) a

/-- In every run whose actions are calm, the pipe keeps its promises throughout. -/
theorem faithful_of_calm (computeSize : α → Int) (maxSize : Int) (actions : List (Action α))
    (h : StepsMeet (step computeSize) (create maxSize) (CalmAction computeSize) actions) :
    Throughout (Faithful computeSize maxSize) actions := by
  intro before hbef
  have hcalm := h.mono hbef
  have hinv (acts : List (Action α))
      (hacts : StepsMeet (step computeSize) (create maxSize) (CalmAction computeSize) acts) :
      Accounted (run (step computeSize) (create maxSize) acts) :=
    inv_of_stepsMeet (fun _ s => Accounted s) Accounted.create (fun _ _ _ h hcalm => h.step hcalm) hacts
  refine ⟨fun hstc => ?_, (hinv before hcalm).fifo, (hinv before hcalm).lost, ?_⟩
  · have howes := (hinv before hcalm).owes
    rw [hstc] at howes
    exact howes
  · rintro before' a rfl
    refine (hinv before' (hcalm.mono (prefix_append before' [a]))).admitsByTotal ?_
    exact hcalm before' a (prefix_refl _)

theorem faithful_of_calm_later :
    Throughout (Faithful (fun _ : Nat => 10) 10) [.call (.thread (.push 0) false), .call (.thread (.push 1) false),
      .call (.thread .pop false), .return_, .run 0 false, .call .popAllNow, .call .close] := by
  refine faithful_of_calm _ _ _ ?_
  -- no action of this run takes place between the wake-up of the pop and the update of the size
  have hcalm {s : State Nat} {a : Action Nat} (hw : windows (start s a).1.stack = [])
      (hopen : (start s a).1.pipe.closed = false)
      (hsums : ∀ rest ∈ (start s a).1.pipe.queue.tails, Fits (total rest + 10)) : CalmAction (fun _ => 10) s a := by
    intro s' task hs
    rw [hs] at hw hopen hsums
    refine ⟨fun h => absurd hw h, fun _ _ h => absurd hw h, fun x hx rest hrest => ?_,
      fun h => by rw [hopen] at h; cases h⟩
    obtain ⟨_, rfl⟩ := (admitted_cases hx).1
    exact hsums rest ((mem_tails rest _).mpr hrest)
  simp only [stepsMeet_cons, stepsMeet_nil, and_true]
  exact ⟨hcalm rfl rfl (by decide), hcalm rfl rfl (by decide), hcalm rfl rfl (by decide), hcalm rfl rfl (by decide),
    hcalm rfl rfl (by decide), hcalm rfl rfl (by decide), hcalm rfl rfl (by decide)⟩

/-- A push that waits is admitted inside the wake-up of a pop, and the pop then writes the size without it. -/
theorem currentSize_lost :
    let s := run (step fun _ : Nat => 10) (create 10) [.call (.thread (.push 0) false), .call (.thread (.push 1) false),
      .call (.thread .pop false), .run 0 false, .return_]
    s.stack = [] ∧ s.ready = [] ∧ s.pipe.currentSize = 0 ∧ total s.pipe.queue = 10 := by
  exact ⟨rfl, rfl, rfl, rfl⟩

/-- `pop_all_now` on a closed pipe: the exception `Closed` takes the place of the elements. -/
example : (run (step fun _ : Nat => 10) (create 30) [.call (.pushNow 0), .call (.pushNow 1), .call .close,
    .call .popAllNow]).lost = [(10, 0), (10, 1)] := rfl

/-- The sizes of two elements wrap to a size below the limit. -/
example : (run (step fun _ : Nat => 2 ^ 62 - 1) (create 10) [.call (.pushNow 0), .call (.pushNow 1)]).pipe.currentSize =
    -2 := by
  decide

end Tezos.LwtPipe
