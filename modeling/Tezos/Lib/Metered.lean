import Tezos.Lib.Bytes

/-! Computations that fail and are metered: what they spend is counted also when they fail. -/

namespace Tezos.Lib

/-- The outcome of a computation, and what it spent up to its end or its failure. -/
structure Metered (ε α : Type) where
  outcome : Except ε α
  spent : Nat

namespace Metered
variable {ε α β : Type}

def bind (x : Metered ε α) (f : α → Metered ε β) : Metered ε β :=
  match x.outcome with
  | .error e => ⟨.error e, x.spent⟩
  | .ok a => ⟨(f a).outcome, x.spent + (f a).spent⟩

instance : Monad (Metered ε) where
  pure a := ⟨.ok a, 0⟩
  bind := bind

instance : MonadLift (Except ε) (Metered ε) where
  monadLift x := ⟨x, 0⟩

variable (x : Metered ε α) (f : α → Metered ε β)

@[simp] theorem outcome_liftM (e : Except ε α) : (liftM e : Metered ε α).outcome = e := rfl

@[simp] theorem outcome_bind : (x >>= f).outcome = x.outcome >>= fun a => (f a).outcome := by
  change (bind x f).outcome = _
  unfold bind
  cases x.outcome <;> rfl

variable {x f} in
theorem bind_ok {b : β} (h : (x >>= f).outcome = .ok b) : ∃ a, x.outcome = .ok a ∧ (f a).outcome = .ok b := by
  rw [outcome_bind] at h
  exact bind_eq_ok.mp h

/-- A postcondition: what a computation gives has the property `Q`, and what it fails with has `E`. -/
structure Meets (x : Metered ε α) (E : ε → Prop) (Q : α → Prop) : Prop where
  fails : ∀ e, x.outcome = .error e → E e
  gives : ∀ a, x.outcome = .ok a → Q a

namespace Meets
variable {x f} {E : ε → Prop} {P : α → Prop} {Q : β → Prop} {ι : Type} {g : α → ι → Metered ε α}

theorem pure {b : β} (h : Q b) : (pure b : Metered ε β).Meets E Q :=
  ⟨fun e he => (by cases he), fun b' hb => (by cases hb; exact h)⟩

theorem lift {y : Except ε α} (h : ∀ e, y = .error e → E e) : (liftM y : Metered ε α).Meets E fun _ => True :=
  ⟨h, fun _ _ => trivial⟩

theorem bind (hx : x.Meets E P) (hf : ∀ a, P a → (f a).Meets E Q) : (x >>= f).Meets E Q := by
  constructor
  · intro e he
    rw [outcome_bind] at he
    rcases bind_eq_error.mp he with he | ⟨a, ha, he⟩
    · exact hx.fails e he
    · exact (hf a (hx.gives a ha)).fails e he
  · intro b hb
    obtain ⟨a, ha, hb⟩ := bind_ok hb
    exact (hf a (hx.gives a ha)).gives b hb

theorem foldlM (keep : ∀ a i, P a → (g a i).Meets E P) {l : List ι} {a : α} (ha : P a) :
    (l.foldlM g a).Meets E P := by
  induction l generalizing a with
  | nil => exact .pure ha
  | cons i l ih =>
    rw [List.foldlM_cons]
    exact (keep a i ha).bind fun a' ha' => ih ha'

end Meets

end Metered

variable {α ι ε : Type} {g : α → ι → Except ε α} {l : List ι}

theorem foldlM_inv (Inv : α → Prop) (keep : ∀ a i a', Inv a → g a i = .ok a' → Inv a') {a a' : α} (ha : Inv a)
    (h : l.foldlM g a = .ok a') : Inv a' := by
  induction l generalizing a with
  | nil =>
    cases h
    exact ha
  | cons i l ih =>
    obtain ⟨a₁, hstep, h⟩ := bind_eq_ok.mp h
    exact ih (keep a i a₁ ha hstep) h

theorem foldlM_ok (h : ∀ i ∈ l, ∀ a, ∃ a', g a i = .ok a') (a : α) : ∃ a', l.foldlM g a = .ok a' := by
  induction l generalizing a with
  | nil => exact ⟨a, rfl⟩
  | cons i l ih =>
    obtain ⟨a₁, hstep⟩ := h i List.mem_cons_self a
    obtain ⟨a', hrest⟩ := ih (fun j hj => h j (List.mem_cons_of_mem i hj)) a₁
    exact ⟨a', by rw [List.foldlM_cons, hstep, ok_bind, hrest]⟩

end Tezos.Lib
