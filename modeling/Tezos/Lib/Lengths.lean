import Tezos.Lib.Parser

/-! What a parser may do, counted in symbols. The symbols of a window are left open: a way to read it is the number of
    symbols that are taken, or a breakdown, which is a failure that is not one of the input. -/

namespace Tezos.Lib
open List

/-- The ways to read a window of a length under a budget: `some k` takes `k` symbols, `none` breaks down. -/
abbrev Lengths := Nat → Option Int → Option Nat → Prop

namespace Lengths
variable (L M : Lengths)

def never : Lengths := fun _ _ _ => False

def broken : Lengths := fun _ _ o => o = none

/-- A number of symbols is within the window and the budget. -/
def Fits (size n : Nat) (a : Option Int) : Prop := size ≤ n ∧ ∀ x, a = some x → (size : Int) ≤ x

def exactly (size : Nat) : Lengths := fun n a o => Fits size n a ∧ o = some size

def empty : Lengths := fun _ _ o => o = some 0

def seq : Lengths := fun n a o =>
  (L n a none ∧ o = none) ∨ ∃ k, L n a (some k) ∧ ∃ o', M (n - k) (spend a k) o' ∧ o = o'.map (k + ·)

def ifEmpty : Lengths := fun n a o => if n = 0 then L n a o else M n a o

def limit (l : Int) : Lengths := fun n a o => L n (limitTo a l) o

variable {L M}

theorem seq_exactly {size n : Nat} {a : Option Int} {o : Option Nat} : (exactly size).seq M n a o ↔
      Fits size n a ∧ ∃ o', M (n - size) (spend a size) o' ∧ o = o'.map (size + ·) := by
  constructor
  · rintro (⟨⟨-, h⟩, -⟩ | ⟨k, ⟨hfit, h⟩, o', ho'⟩)
    · cases h
    · cases h
      exact ⟨hfit, o', ho'⟩
  · rintro ⟨hfit, o', ho'⟩
    exact .inr ⟨size, ⟨hfit, rfl⟩, o', ho'⟩

theorem seq_eq {j k n : Nat} {a : Option Int} {o : Option Nat} (hL : ∀ {n a o}, L n a o → o = some j)
    (hM : ∀ {n a o}, M n a o → o = some k) (h : L.seq M n a o) : o = some (j + k) := by
  rcases h with ⟨hnone, -⟩ | ⟨j', hj', o', ho', rfl⟩
  · cases hL hnone
  · cases hL hj'
    rw [hM ho', Option.map_some]

end Lengths

namespace Parser
variable {σ ε α β : Type} (bad : ε → Prop)

/-- The way a window was read, if it was. -/
def Gives : Except ε (α × Nat) → Option Nat → Prop
  | .ok r, some k => r.2 = k
  | .error x, none => bad x
  | _, _ => False

/-- A parser that looks no further than what it takes and the length of its window, and takes no more symbols than its
    budget allows, if it takes any. -/
structure Local (p : Parser σ ε α) : Prop where
  le : ∀ {input a v k}, p input a = .ok (v, k) → k ≤ input.length
  within : ∀ {input x v k}, p input (some x) = .ok (v, k) → k = 0 ∨ (k : Int) ≤ x
  front : ∀ {input input' a v k}, p input a = .ok (v, k) → input'.length = input.length →
    input'.take k = input.take k → p input' a = .ok (v, k)

/-- The lengths are all those of the parser. -/
structure Measures (p : Parser σ ε α) (L : Lengths) : Prop extends Local p where
  iff : ∀ {n a o}, L n a o ↔ ∃ input, input.length = n ∧ Gives bad (p input a) o

variable {bad} {p q : Parser σ ε α} {L M : Lengths}

theorem gives_some {x : Except ε (α × Nat)} {k : Nat} : Gives bad x (some k) ↔ ∃ v, x = .ok (v, k) := by
  rcases x with x | ⟨v, k'⟩
  · refine iff_of_false id ?_
    rintro ⟨_, h⟩
    cases h
  · refine ⟨fun h => ⟨v, by rw [show k' = k from h]⟩, ?_⟩
    rintro ⟨w, h⟩
    cases h
    rfl

theorem gives_none {x : Except ε (α × Nat)} : Gives bad x none ↔ ∃ y, x = .error y ∧ bad y := by
  rcases x with y | r
  · refine ⟨fun h => ⟨y, rfl, h⟩, ?_⟩
    rintro ⟨_, h, hy⟩
    cases h
    exact hy
  · refine iff_of_false id ?_
    rintro ⟨_, h, -⟩
    cases h

namespace Measures

theorem takes (h : Measures bad p L) {input : List σ} {a : Option Int} {v : α} {k : Nat} (hp : p input a = .ok (v, k)) :
    L input.length a (some k) := h.iff.mpr ⟨input, rfl, gives_some.mpr ⟨v, hp⟩⟩

theorem breaks (h : Measures bad p L) {input : List σ} {a : Option Int} {x : ε} (hp : p input a = .error x) (hx : bad x) :
    L input.length a none := h.iff.mpr ⟨input, rfl, gives_none.mpr ⟨x, hp, hx⟩⟩

theorem congr (h : Measures bad p L) (hiff : ∀ {n a o}, L n a o ↔ M n a o) : Measures bad p M :=
  ⟨h.toLocal, hiff.symm.trans h.iff⟩

theorem fail {x : ε} (hx : ¬bad x) : Measures bad (fail x : Parser σ ε α) .never := by
  refine ⟨⟨fun h => (by cases h), fun h => (by cases h), fun h => (by cases h)⟩,
    fun {n a o} => ⟨False.elim, ?_⟩⟩
  rintro ⟨input, -, h⟩
  cases o
  · exact hx h
  · exact h

/-- The symbols of the two parts are put together, as the first one looks at its own only. -/
theorem bind_values {f : α → Parser σ ε β} {M : α → Lengths} (hp : Local p)
    (hf : ∀ v, Measures bad (f v) (M v)) :
    Measures bad (p.bind f) fun n a o => ∃ input, input.length = n ∧
      ((∃ x, p input a = .error x ∧ bad x ∧ o = none) ∨
      ∃ v k o', p input a = .ok (v, k) ∧ M v (n - k) (spend a k) o' ∧ o = o'.map (k + ·)) := by
  refine ⟨⟨fun h => ?_, fun h => ?_, fun {input input' a w m} h hlen htake => ?_⟩, fun {n a o} => ⟨?_, ?_⟩⟩
  · obtain ⟨v, k, k', hv, hw, rfl⟩ := bind_ok.mp h
    have hk := hp.le hv
    have hk' := (hf v).le hw
    rw [length_drop] at hk'
    omega
  · obtain ⟨v, k, k', hv, hw, rfl⟩ := bind_ok.mp h
    rw [spend_some] at hw
    have hk := hp.within hv
    have hk' := (hf v).within hw
    omega
  · obtain ⟨v, k, k', hv, hw, rfl⟩ := bind_ok.mp h
    have hfst : input'.take k = input.take k := by
      have := congrArg (take k) htake
      rwa [take_take, take_take, Nat.min_eq_left (Nat.le_add_right k k')] at this
    have hsnd : (input'.drop k).take k' = (input.drop k).take k' := by
      have := congrArg (drop k) htake
      rwa [drop_take, drop_take, Nat.add_sub_cancel_left] at this
    exact bind_ok.mpr ⟨v, k, k', hp.front hv hlen hfst, (hf v).front hw (by simp [hlen]) hsnd, rfl⟩
  · rintro ⟨input, rfl, ⟨x, hx, hbad, rfl⟩ | ⟨v, k, o', hv, ho', rfl⟩⟩
    · exact ⟨input, rfl, gives_none.mpr ⟨x, by rw [Parser.bind, hx]; rfl, hbad⟩⟩
    · obtain ⟨rest, hrest, hw⟩ := (hf v).iff.mp ho'
      have hlen : (input.take k).length = k := by rw [length_take, Nat.min_eq_left (hp.le hv)]
      have hwhole : (input.take k ++ rest).length = input.length := by
        have := hp.le hv
        rw [length_append, hlen, hrest]
        omega
      have hv' := hp.front hv hwhole (take_left' hlen)
      have hdrop : (input.take k ++ rest).drop k = rest := drop_left' hlen
      refine ⟨_, hwhole, ?_⟩
      cases o' with
      | none =>
        obtain ⟨x, hx, hbad⟩ := gives_none.mp hw
        refine gives_none.mpr ⟨x, ?_, hbad⟩
        rw [Parser.bind, hv', ok_bind]
        dsimp only
        rw [hdrop, hx]
        rfl
      | some k' =>
        obtain ⟨w, hw⟩ := gives_some.mp hw
        exact gives_some.mpr ⟨w, bind_ok.mpr ⟨v, k, k', hv', by rwa [hdrop], rfl⟩⟩
  · rintro ⟨input, rfl, h⟩
    refine ⟨input, rfl, ?_⟩
    cases o with
    | some m =>
      obtain ⟨w, hw⟩ := gives_some.mp h
      obtain ⟨v, k, k', hv, hw', rfl⟩ := bind_ok.mp hw
      exact .inr ⟨v, k, some k', hv, length_drop (l := input) ▸ (hf v).takes hw', rfl⟩
    | none =>
      obtain ⟨x, hx, hbad⟩ := gives_none.mp h
      rcases bind_eq_error.mp hx with hx | ⟨⟨v, k⟩, hv, hx⟩
      · exact .inl ⟨x, hx, hbad, rfl⟩
      · rcases bind_eq_error.mp hx with hx | ⟨_, -, hx⟩
        · exact .inr ⟨v, k, none, hv, length_drop (l := input) ▸ (hf v).breaks hx hbad, rfl⟩
        · cases hx

theorem bind {f : α → Parser σ ε β} (hp : Measures bad p L) (hf : ∀ v, Measures bad (f v) M) :
    Measures bad (p.bind f) (L.seq M) := by
  refine (bind_values hp.toLocal hf).congr ⟨?_, ?_⟩
  · rintro ⟨input, rfl, ⟨x, hx, hbad, rfl⟩ | ⟨v, k, o', hv, ho', rfl⟩⟩
    · exact .inl ⟨hp.breaks hx hbad, rfl⟩
    · exact .inr ⟨k, hp.takes hv, o', ho', rfl⟩
  · rintro (⟨hnone, rfl⟩ | ⟨k, hk, o', ho', rfl⟩)
    · obtain ⟨input, hlen, h⟩ := hp.iff.mp hnone
      obtain ⟨x, hx, hbad⟩ := gives_none.mp h
      exact ⟨input, hlen, .inl ⟨x, hx, hbad, rfl⟩⟩
    · obtain ⟨input, hlen, h⟩ := hp.iff.mp hk
      obtain ⟨v, hv⟩ := gives_some.mp h
      exact ⟨input, hlen, .inr ⟨v, k, o', hv, ho', rfl⟩⟩

theorem map (f : α → β) (hp : Measures bad p L) : Measures bad (p.map f) L := by
  refine ⟨⟨fun h => ?_, fun h => ?_, fun h hlen htake => ?_⟩, fun {n a o} => hp.iff.trans ?_⟩
  · obtain ⟨v, hv, -⟩ := map_ok.mp h
    exact hp.le hv
  · obtain ⟨v, hv, -⟩ := map_ok.mp h
    exact hp.within hv
  · obtain ⟨v, hv, rfl⟩ := map_ok.mp h
    exact map_ok.mpr ⟨v, hp.front hv hlen htake, rfl⟩
  · refine exists_congr fun input => and_congr_right fun _ => ?_
    rw [Parser.map]
    cases p input a <;> cases o <;> rfl

theorem ifEmpty (hp : Measures bad p L) (hq : Measures bad q M) : Measures bad (p.ifEmpty q) (L.ifEmpty M) := by
  refine ⟨⟨fun {input a v k} h => ?_, fun {input x v k} h => ?_, fun {input input' a v k} h hlen htake => ?_⟩,
    fun {n a o} => ?_⟩
  · rw [Parser.ifEmpty] at h
    split at h
    · exact hp.le h
    · exact hq.le h
  · rw [Parser.ifEmpty] at h
    split at h
    · exact hp.within h
    · exact hq.within h
  · have hnil : input' = [] ↔ input = [] := by rw [← length_eq_zero_iff, hlen, length_eq_zero_iff]
    simp only [Parser.ifEmpty, hnil] at h ⊢
    split at h
    · rw [if_pos ‹_›]
      exact hp.front h hlen htake
    · rw [if_neg ‹_›]
      exact hq.front h hlen htake
  · rw [Lengths.ifEmpty]
    split
    · refine hp.iff.trans (exists_congr fun input => and_congr_right fun hlen => ?_)
      rw [Parser.ifEmpty, if_pos (length_eq_zero_iff.mp (hlen.trans ‹_›))]
    · refine hq.iff.trans (exists_congr fun input => and_congr_right fun hlen => ?_)
      rw [Parser.ifEmpty, if_neg fun hnil => ‹n ≠ 0› (by rw [← hlen, hnil, length_nil])]

theorem limit (l : Int) (hp : Measures bad p L) : Measures bad (p.limit l) (L.limit l) := by
  refine ⟨⟨fun h => hp.le h, fun {input x v k} h => ?_, fun h hlen htake => hp.front h hlen htake⟩, hp.iff⟩
  have hk := hp.within (show p input (some (min x l)) = .ok (v, k) from h)
  omega

/-- A parser that is chosen by the length of the window. -/
theorem ofLength {p : Nat → Parser σ ε α} {L : Nat → Lengths} (h : ∀ n, Measures bad (p n) (L n)) :
    Measures bad (fun input a => p input.length input a) fun n a o => L n n a o := by
  refine ⟨⟨fun hp => (h _).le hp, fun hp => (h _).within hp, fun hp hlen htake => ?_⟩,
    fun {n a o} => (h n).iff.trans ?_⟩
  · rw [hlen]
    exact (h _).front hp hlen htake
  · refine exists_congr fun input => and_congr_right fun hlen => ?_
    rw [hlen]

variable [Inhabited σ]

theorem ret (v : α) : Measures bad (ret v : Parser σ ε α) .empty := by
  refine ⟨⟨fun h => ?_, fun h => ?_, fun h _ _ => h⟩, fun {n a o} => ⟨?_, ?_⟩⟩
  · cases h
    exact Nat.zero_le _
  · cases h
    exact .inl rfl
  · rintro rfl
    exact ⟨replicate n default, length_replicate, rfl⟩
  · rintro ⟨input, -, h⟩
    cases o with
    | none => exact h.elim
    | some k => exact congrArg some (show 0 = k from h).symm

theorem breakdown {x : ε} (hx : bad x) : Measures bad (Parser.fail x : Parser σ ε α) .broken := by
  refine ⟨⟨fun h => (by cases h), fun h => (by cases h), fun h => (by cases h)⟩, fun {n a o} => ⟨?_, ?_⟩⟩
  · rintro rfl
    exact ⟨replicate n default, length_replicate, hx⟩
  · rintro ⟨input, -, h⟩
    cases o
    · rfl
    · exact h.elim

end Measures
end Parser
end Tezos.Lib
