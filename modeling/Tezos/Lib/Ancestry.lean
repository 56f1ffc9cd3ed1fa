import Mathlib.Data.List.Nodup
import Mathlib.Order.Basic

/-! Ancestors along a parent function: the ancestor at a distance, paths, greatest common ancestors. -/

namespace Tezos.Lib
open List Option
variable {α : Type} (parent : α → Option α)

def up : Nat → α → Option α
  | 0, x => some x
  | n + 1, x => (parent x).bind (up n)

def Ancestor (a x : α) : Prop := ∃ n, up parent n x = some a

def IsPath : α → α → List α → Prop
  | a, b, [] => a = b
  | a, b, c :: l => parent c = some a ∧ IsPath c b l

structure GreatestCommonAncestor (a x y : α) : Prop where
  left : Ancestor parent a x
  right : Ancestor parent a y
  greatest : ∀ c, Ancestor parent c x → Ancestor parent c y → Ancestor parent c a

variable {parent} {a b c p x y root : α} {m n : Nat} {l : List α}

@[simp] theorem up_zero : up parent 0 x = some x := rfl

theorem up_succ (h : parent x = some p) : up parent (n + 1) x = up parent n p := by
  rw [up, h]
  rfl

theorem up_one : up parent 1 x = parent x := by
  rw [up]
  cases parent x <;> rfl

theorem up_add (m n : Nat) (x : α) : up parent (m + n) x = (up parent m x).bind (up parent n) := by
  induction m generalizing x with
  | zero => rw [Nat.zero_add]; rfl
  | succ m ih =>
    rw [Nat.succ_add, up, up]
    rcases parent x with _ | p
    · rfl
    · exact ih p

theorem up_none_of_le (h : up parent m x = none) (hle : m ≤ n) : up parent n x = none := by
  obtain ⟨k, rfl⟩ := Nat.exists_eq_add_of_le hle
  rw [up_add, h]
  rfl

variable {S : α → Prop} {other : α → Option α}

section
variable (hcl : ∀ x p, S x → parent x = some p → S p) (h : ∀ x, S x → other x = parent x)
include hcl h

theorem up_congr (n : Nat) (hx : S x) : up other n x = up parent n x := by
  induction n generalizing x with
  | zero => rfl
  | succ n ih =>
    rw [up, up, h x hx]
    rcases hp : parent x with _ | p
    · rfl
    · exact ih (hcl x p hx hp)

theorem ancestor_congr (hx : S x) : Ancestor other a x ↔ Ancestor parent a x :=
  exists_congr fun n => by rw [up_congr hcl h n hx]

end

theorem Ancestor.refl (x : α) : Ancestor parent x x := ⟨0, rfl⟩

theorem Ancestor.trans (hab : Ancestor parent a b) (hbx : Ancestor parent b x) : Ancestor parent a x := by
  obtain ⟨m, hm⟩ := hbx
  obtain ⟨n, hn⟩ := hab
  exact ⟨m + n, by rw [up_add, hm]; exact hn⟩

theorem ancestor_parent (h : parent x = some p) : Ancestor parent p x := ⟨1, by rw [up_one, h]⟩

theorem ancestor_cases (h : Ancestor parent a x) : a = x ∨ ∃ p, parent x = some p ∧ Ancestor parent a p := by
  obtain ⟨n, hn⟩ := h
  rcases n with _ | n
  · exact .inl (some.inj hn).symm
  · obtain ⟨p, hp, hn⟩ := bind_eq_some_iff.mp hn
    exact .inr ⟨p, hp, n, hn⟩

theorem exists_parent (hx : Ancestor parent root x) (hne : x ≠ root) :
    ∃ p, parent x = some p ∧ Ancestor parent root p :=
  (ancestor_cases hx).resolve_left (Ne.symm hne)

theorem exists_child (h : Ancestor parent a x) (hne : a ≠ x) : ∃ c, Ancestor parent c x ∧ parent c = some a := by
  obtain ⟨n, hn⟩ := h
  rcases n with _ | n
  · exact absurd (some.inj hn).symm hne
  · rw [up_add] at hn
    obtain ⟨c, hc, hca⟩ := bind_eq_some_iff.mp hn
    rw [up_one] at hca
    exact ⟨c, ⟨n, hc⟩, hca⟩

theorem Ancestor.of_ne (h : Ancestor parent a x) (hne : a ≠ x) (hp : parent x = some p) : Ancestor parent a p := by
  rcases ancestor_cases h with rfl | ⟨p', hp', ha⟩
  · exact absurd rfl hne
  · rwa [some.inj (hp.symm.trans hp')]

theorem Ancestor.closed (hcl : ∀ x p, S x → parent x = some p → S p) (h : Ancestor parent a x) (hx : S x) : S a := by
  obtain ⟨n, hn⟩ := h
  induction n generalizing x with
  | zero => rwa [← some.inj hn]
  | succ n ih =>
    obtain ⟨p, hp, hn⟩ := bind_eq_some_iff.mp hn
    exact ih (hcl x p hx hp) hn

theorem Ancestor.comparable (ha : Ancestor parent a x) (hb : Ancestor parent b x) :
    Ancestor parent a b ∨ Ancestor parent b a := by
  obtain ⟨m, hm⟩ := ha
  obtain ⟨n, hn⟩ := hb
  rcases Nat.le_total n m with hle | hle
  · obtain ⟨k, rfl⟩ := Nat.exists_eq_add_of_le hle
    rw [up_add, hn] at hm
    exact .inl ⟨k, hm⟩
  · obtain ⟨k, rfl⟩ := Nat.exists_eq_add_of_le hle
    rw [up_add, hm] at hn
    exact .inr ⟨k, hn⟩

theorem Ancestor.eq_or_lt {R : Type} [Preorder R] (rank : α → R) (hcl : ∀ x p, S x → parent x = some p → S p)
    (hlt : ∀ x p, S x → parent x = some p → rank p < rank x) (h : Ancestor parent a x) (hx : S x) :
    a = x ∨ rank a < rank x := by
  obtain ⟨n, hn⟩ := h
  induction n generalizing x with
  | zero => exact .inl (some.inj hn).symm
  | succ n ih =>
    obtain ⟨p, hp, hn⟩ := bind_eq_some_iff.mp hn
    have hpx := hlt x p hx hp
    rcases ih (hcl x p hx hp) hn with rfl | hap
    · exact .inr hpx
    · exact .inr (lt_trans hap hpx)

section
variable (hroot : parent root = none)
include hroot

theorem up_of_root (h : up parent n root = some a) : n = 0 ∧ a = root := by
  rcases n with _ | n
  · exact ⟨rfl, (some.inj h).symm⟩
  · rw [up, hroot] at h
    cases h

theorem eq_of_ancestor_root (h : Ancestor parent a root) : a = root := by
  obtain ⟨n, hn⟩ := h
  exact (up_of_root hroot hn).2

theorem up_injective (hx : Ancestor parent root x) (hm : up parent m x = some a) (hn : up parent n x = some a) :
    m = n := by
  have key : ∀ m n, m ≤ n → up parent m x = some a → up parent n x = some a → m = n := by
    intro m n hle hm hn
    obtain ⟨k, rfl⟩ := Nat.exists_eq_add_of_le hle
    rw [up_add, hm] at hn
    -- the root is reached from `a`, at a distance that going around would not change
    have hra : ∃ j, up parent j a = some root := by
      obtain ⟨d, hd⟩ := hx
      rcases Nat.le_total m d with hle | hle
      · obtain ⟨j, rfl⟩ := Nat.exists_eq_add_of_le hle
        rw [up_add, hm] at hd
        exact ⟨j, hd⟩
      · obtain ⟨j, rfl⟩ := Nat.exists_eq_add_of_le hle
        rw [up_add, hd] at hm
        obtain ⟨-, rfl⟩ := up_of_root hroot hm
        exact ⟨0, rfl⟩
    obtain ⟨j, hj⟩ := hra
    replace hn : up parent k a = some a := hn
    have hsum : up parent (j + k) a = some root := by rw [Nat.add_comm, up_add, hn]; exact hj
    rw [up_add, hj] at hsum
    rw [(up_of_root hroot hsum).1, Nat.add_zero]
  rcases Nat.le_total m n with hle | hle
  · exact key m n hle hm hn
  · exact (key n m hle hn hm).symm

theorem not_ancestor_parent (hx : Ancestor parent root x) (hp : parent x = some p) : ¬Ancestor parent x p := by
  rintro ⟨n, hn⟩
  have hloop : up parent (n + 1) x = some x := (up_succ hp).trans hn
  exact absurd (up_injective hroot hx hloop up_zero) (Nat.succ_ne_zero n)

theorem root_ancestor_of_ancestor (hx : Ancestor parent root x) (hax : Ancestor parent a x) :
    Ancestor parent root a := by
  rcases hx.comparable hax with h | h
  · exact h
  · rw [eq_of_ancestor_root hroot h]
    exact .refl root

end

theorem IsPath.ancestor (h : IsPath parent a b l) : Ancestor parent a b := by
  induction l generalizing a with
  | nil =>
    obtain rfl : a = b := h
    exact .refl a
  | cons c l ih => exact (ancestor_parent h.1).trans (ih h.2)

theorem IsPath.concat (h : IsPath parent a p l) (hp : parent b = some p) : IsPath parent a b (l ++ [b]) := by
  induction l generalizing a with
  | nil =>
    obtain rfl : a = p := h
    exact ⟨hp, rfl⟩
  | cons c l ih => exact ⟨h.1, ih h.2⟩

theorem IsPath.of_concat (h : IsPath parent a b (l ++ [c])) :
    c = b ∧ ∃ p, parent b = some p ∧ IsPath parent a p l := by
  induction l generalizing a with
  | nil =>
    obtain ⟨hp, rfl⟩ : parent c = some a ∧ c = b := h
    exact ⟨rfl, a, hp, rfl⟩
  | cons d l ih =>
    obtain ⟨rfl, p, hp, hl⟩ := ih h.2
    exact ⟨rfl, p, hp, h.1, hl⟩

theorem exists_isPath (h : Ancestor parent a b) : ∃ l, IsPath parent a b l := by
  obtain ⟨n, hn⟩ := h
  induction n generalizing b with
  | zero => exact ⟨[], (some.inj hn).symm⟩
  | succ n ih =>
    obtain ⟨p, hp, hn⟩ := bind_eq_some_iff.mp hn
    obtain ⟨l, hl⟩ := ih hn
    exact ⟨l ++ [b], hl.concat hp⟩

theorem IsPath.up_length (h : IsPath parent a b l) : up parent l.length b = some a := by
  induction l generalizing a with
  | nil =>
    obtain rfl : a = b := h
    rfl
  | cons c l ih =>
    have hc : up parent 1 c = some a := by rw [up_one]; exact h.1
    rw [length_cons, up_add, ih h.2]
    exact hc

theorem IsPath.mem (h : IsPath parent a b l) (hc : c ∈ l) : Ancestor parent c b ∧ Ancestor parent a c := by
  induction l generalizing a with
  | nil => exact absurd hc (not_mem_nil)
  | cons d l ih =>
    rcases mem_cons.mp hc with rfl | hc
    · exact ⟨h.2.ancestor, ancestor_parent h.1⟩
    · obtain ⟨hcb, hdc⟩ := ih h.2 hc
      exact ⟨hcb, (ancestor_parent h.1).trans hdc⟩

theorem IsPath.mem_of_ancestor (h : IsPath parent a b l) (hcb : Ancestor parent c b) (hca : ¬Ancestor parent c a) :
    c ∈ l := by
  induction l generalizing a with
  | nil =>
    obtain rfl : a = b := h
    exact absurd hcb hca
  | cons d l ih =>
    by_cases hcd : Ancestor parent c d
    · rcases ancestor_cases hcd with rfl | ⟨p, hp, hcp⟩
      · exact mem_cons_self
      · rw [some.inj (h.1.symm.trans hp)] at hca
        exact absurd hcp hca
    · exact mem_cons_of_mem d (ih h.2 hcd)

section
variable (hroot : parent root = none)
include hroot

theorem IsPath.not_ancestor (hb : Ancestor parent root b) (h : IsPath parent a b l) (hc : c ∈ l) :
    ¬Ancestor parent c a := by
  induction l generalizing a with
  | nil => exact absurd hc (not_mem_nil)
  | cons d l ih =>
    have hd : Ancestor parent root d := root_ancestor_of_ancestor hroot hb h.2.ancestor
    rcases mem_cons.mp hc with rfl | hc
    · exact not_ancestor_parent hroot hd h.1
    · exact fun hca => ih h.2 hc (hca.trans (ancestor_parent h.1))

theorem IsPath.nodup (hb : Ancestor parent root b) (h : IsPath parent a b l) : (a :: l).Nodup := by
  induction l generalizing a with
  | nil => exact nodup_singleton a
  | cons d l ih =>
    refine nodup_cons.mpr ⟨fun ha => ?_, ih h.2⟩
    exact h.not_ancestor hroot hb ha (.refl a)

end

theorem GreatestCommonAncestor.symm (h : GreatestCommonAncestor parent a x y) : GreatestCommonAncestor parent a y x :=
  ⟨h.right, h.left, fun c hy hx => h.greatest c hx hy⟩

theorem greatestCommonAncestor_self (x : α) : GreatestCommonAncestor parent x x x :=
  ⟨.refl x, .refl x, fun _ h _ => h⟩

theorem GreatestCommonAncestor.of_parent (h : GreatestCommonAncestor parent a x p) (hp : parent y = some p)
    (hy : ¬Ancestor parent y x) : GreatestCommonAncestor parent a x y := by
  refine ⟨h.left, h.right.trans (ancestor_parent hp), fun c hcx hcy => h.greatest c hcx ?_⟩
  exact hcy.of_ne (fun heq => hy (heq ▸ hcx)) hp

end Tezos.Lib
