import Tezos.Lib.Bytes

/-! Parsers of a window of input under a budget: the window says where the input ends, the budget only when to fail. A
    parser answers with a value and the number of symbols it took. -/

namespace Tezos.Lib

/-- What is left of a budget after `size` symbols. -/
def spend (a : Option Int) (size : Nat) : Option Int := a.map (· - (size : Int))

def limitTo (a : Option Int) (limit : Int) : Option Int :=
  some (match a with
    | none => limit
    | some old => min old limit)

@[simp] theorem spend_zero (a : Option Int) : spend a 0 = a := by
  cases a <;> simp [spend]

@[simp] theorem spend_spend (a : Option Int) (m n : Nat) : spend (spend a m) n = spend a (m + n) := by
  cases a <;> simp [spend]
  omega

@[simp] theorem spend_none (n : Nat) : spend none n = none := rfl

@[simp] theorem spend_some (x : Int) (n : Nat) : spend (some x) n = some (x - n) := rfl

@[simp] theorem limitTo_none (l : Int) : limitTo none l = some l := rfl

@[simp] theorem limitTo_some (x l : Int) : limitTo (some x) l = some (min x l) := rfl

def Looser (a a' : Option Int) : Prop := ∀ y, a' = some y → ∃ x, a = some x ∧ x ≤ y

theorem Looser.spend {a a' : Option Int} (h : Looser a a') (n : Nat) : Looser (spend a n) (spend a' n) := fun y hy => by
  rcases a' with _ | y'
  · cases hy
  · rw [spend_some] at hy
    cases hy
    obtain ⟨x, rfl, hxy⟩ := h y' rfl
    exact ⟨x - n, rfl, by omega⟩

theorem Looser.limit {a a' : Option Int} (h : Looser a a') (l : Int) : Looser (limitTo a l) (limitTo a' l) := fun y hy => by
  rcases a' with _ | y'
  · cases hy
    rcases a with _ | x
    · exact ⟨l, rfl, le_refl l⟩
    · exact ⟨min x l, rfl, min_le_right x l⟩
  · rw [limitTo_some] at hy
    cases hy
    obtain ⟨x, rfl, hxy⟩ := h y' rfl
    exact ⟨min x l, rfl, by omega⟩

section Below
variable {ε α β : Type} {div : ε}

def Below (div : ε) (x y : Except ε α) : Prop := x = .error div ∨ x = y

theorem Below.refl (x : Except ε α) : Below div x x := .inr rfl

variable {x y : Except ε α}

theorem Below.trans {z : Except ε α} (h : Below div x y) (h' : Below div y z) : Below div x z := by
  rcases h with h | h
  · exact .inl h
  · rw [h]
    exact h'

theorem Below.bind {f g : α → Except ε β} (h : Below div x y) (hf : ∀ a, Below div (f a) (g a)) :
    Below div (x >>= f) (y >>= g) := by
  rcases h with h | h
  · rw [h]
    exact .inl rfl
  · rw [h]
    cases y with
    | error e => exact .inr rfl
    | ok a => exact hf a

theorem Below.eq_of_ok {a : α} (h : Below div x y) (hx : x = .ok a) : y = .ok a := by
  rcases h with h | h
  · rw [h] at hx
    cases hx
  · rw [← h]
    exact hx

theorem Below.eq_of_error {e : ε} (h : Below div x y) (hx : x = .error e) (he : e ≠ div) : y = .error e := by
  rcases h with h | h
  · rw [h] at hx
    cases hx
    exact absurd rfl he
  · rw [← h]
    exact hx

end Below

/-! ### Parsers -/

/-- A parser of symbols `σ` into values `α` that may fail with `ε`. -/
def Parser (σ ε α : Type) : Type := List σ → Option Int → Except ε (α × Nat)

namespace Parser
variable {σ ε α β : Type}

def ret (v : α) : Parser σ ε α := fun _ _ => .ok (v, 0)

def fail (x : ε) : Parser σ ε α := fun _ _ => .error x

def bind (p : Parser σ ε α) (f : α → Parser σ ε β) : Parser σ ε β := fun input a => do
  let (v, k) ← p input a
  let (w, k') ← f v (input.drop k) (spend a k)
  pure (w, k + k')

def map (f : α → β) (p : Parser σ ε α) : Parser σ ε β := fun input a => do
  let (v, k) ← p input a
  pure (f v, k)

def check (f : α → Except ε β) (p : Parser σ ε α) : Parser σ ε β := fun input a => do
  let (v, k) ← p input a
  let w ← f v
  pure (w, k)

def guard (u : List σ → Option Int → Except ε Unit) (p : Parser σ ε α) : Parser σ ε α := fun input a => do
  u input a
  p input a

def limit (l : Int) (p : Parser σ ε α) : Parser σ ε α := fun input a => p input (limitTo a l)

def ifEmpty (p q : Parser σ ε α) : Parser σ ε α := fun input a => if input = [] then p input a else q input a

variable {a : Option Int} {f : α → Parser σ ε β} {input : List σ} {p q : Parser σ ε α} {w : β} {k : Nat}
  {γ : Type}

theorem bind_ok {m : Nat} : bind p f input a = .ok (w, m) ↔
      ∃ v k k', p input a = .ok (v, k) ∧ f v (input.drop k) (spend a k) = .ok (w, k') ∧ m = k + k' := by
  simp only [bind, bind_eq_ok, pure_eq_ok, Except.ok.injEq, Prod.mk.injEq, Prod.exists]
  constructor
  · rintro ⟨v, k, hp, w', k', hf, rfl, rfl⟩
    exact ⟨v, k, k', hp, hf, rfl⟩
  · rintro ⟨v, k, k', hp, hf, rfl⟩
    exact ⟨v, k, hp, w, k', hf, rfl, rfl⟩

theorem map_ok {f : α → β} : map f p input a = .ok (w, k) ↔ ∃ v, p input a = .ok (v, k) ∧ f v = w := by
  simp only [map, bind_eq_ok, pure_eq_ok, Except.ok.injEq, Prod.mk.injEq, Prod.exists]
  constructor
  · rintro ⟨v, k', hp, rfl, rfl⟩
    exact ⟨v, hp, rfl⟩
  · rintro ⟨v, hp, rfl⟩
    exact ⟨v, k, hp, rfl, rfl⟩

theorem check_ok {f : α → Except ε β} : check f p input a = .ok (w, k) ↔ ∃ v, p input a = .ok (v, k) ∧
    f v = .ok w := by
  simp only [check, bind_eq_ok, pure_eq_ok, Except.ok.injEq, Prod.mk.injEq, Prod.exists]
  constructor
  · rintro ⟨v, k', hp, w', hf, rfl, rfl⟩
    exact ⟨v, hp, hf⟩
  · rintro ⟨v, hp, hf⟩
    exact ⟨v, k, hp, w, hf, rfl, rfl⟩

theorem map_bind (p : Parser σ ε α) (f : α → Parser σ ε β) (g : β → γ) :
    map g (bind p f) = bind p fun v => map g (f v) := by
  funext input a
  simp only [map, bind, bind_assoc, pure_eq_ok, ok_bind]

theorem bind_map (p : Parser σ ε α) (f : α → β) (g : β → Parser σ ε γ) :
    bind (map f p) g = bind p fun v => g (f v) := by
  funext input a
  simp only [map, bind, bind_assoc, pure_eq_ok, ok_bind]

theorem map_map (p : Parser σ ε α) (f : α → β) (g : β → γ) : map g (map f p) = map (fun v => g (f v)) p := by
  funext input a
  simp only [map, bind_assoc, pure_eq_ok, ok_bind]

theorem map_ret (v : α) (f : α → β) : map f (ret v : Parser σ ε α) = ret (f v) := rfl

theorem map_fail (x : ε) (f : α → β) : map f (fail x : Parser σ ε α) = fail x := rfl

def Yields (p : Parser σ ε α) (P : α → Prop) : Prop :=
  ∀ ⦃input : List σ⦄ ⦃a : Option Int⦄ ⦃v : α⦄ ⦃k : Nat⦄, p input a = .ok (v, k) → P v

/-! The order of partial computations, at every window and budget. -/

def Below (div : ε) (p q : Parser σ ε α) : Prop := ∀ input a, Lib.Below div (p input a) (q input a)

section Below
variable {div : ε}

theorem Below.refl (p : Parser σ ε α) : Below div p p := fun _ _ => Lib.Below.refl _

theorem Below.bind {f g : α → Parser σ ε β} (h : Below div p q) (hf : ∀ v, Below div (f v) (g v)) :
    Below div (bind p f) (bind q g) := fun input a =>
  (h input a).bind fun vk => (hf vk.1 _ _).bind fun _ => Lib.Below.refl _

theorem Below.guard {u : List σ → Option Int → Except ε Unit} (h : Below div p q) :
    Below div (guard u p) (guard u q) := fun input a => (Lib.Below.refl (u input a)).bind fun _ => h input a

theorem Below.limit {l : Int} (h : Below div p q) : Below div (limit l p) (limit l q) :=
  fun input _ => h input _

theorem Below.ifEmpty {p' q' : Parser σ ε α} (h : Below div p p') (h' : Below div q q') :
    Below div (ifEmpty p q) (ifEmpty p' q') := fun input a => by
  simp only [Parser.ifEmpty]
  split
  · exact h input a
  · exact h' input a

end Below
end Parser
end Tezos.Lib
