import Mathlib.Data.ZMod.Basic
import Mathlib.LinearAlgebra.Lagrange

/-! Powers with exponents modulo `m`, in a group whose elements have orders that divide it; and the value at zero of a
    polynomial from its values at distinct points. -/

namespace Tezos.Lib
open List

variable {G : Type} [CommGroup G] {m : Nat}

def modPow (g : G) (x : ZMod m) : G := g ^ x.val

theorem modPow_add [NeZero m] (hpow : ∀ g : G, g ^ m = 1) (g : G) (x y : ZMod m) :
    modPow g (x + y) = modPow g x * modPow g y := by
  rw [modPow, modPow, modPow, ZMod.val_add, ← pow_eq_pow_mod _ (hpow g), pow_add]

theorem modPow_mul (hpow : ∀ g : G, g ^ m = 1) (g : G) (x y : ZMod m) : modPow g (x * y) = modPow (modPow g x) y := by
  rw [modPow, modPow, modPow, ZMod.val_mul, ← pow_eq_pow_mod _ (hpow g), pow_mul]

@[simp] theorem modPow_zero (g : G) : modPow g (0 : ZMod m) = 1 := by rw [modPow, ZMod.val_zero, pow_zero]

theorem modPow_sum [NeZero m] (hpow : ∀ g : G, g ^ m = 1) (g : G) (xs : List (ZMod m)) :
    modPow g xs.sum = (xs.map (modPow g)).prod := by
  induction xs with
  | nil => rw [sum_nil, modPow_zero, map_nil, prod_nil]
  | cons x xs ih => rw [sum_cons, modPow_add hpow, ih, map_cons, prod_cons]

variable {F : Type}

def horner [Semiring F] (p : List F) (x : F) : F := p.foldr (fun c y => y * x + c) 0

@[simp] theorem horner_nil [Semiring F] (x : F) : horner [] x = 0 := rfl

@[simp] theorem horner_cons [Semiring F] (c : F) (p : List F) (x : F) : horner (c :: p) x = horner p x * x + c := rfl

variable [Field F]

open Polynomial in
theorem exists_polynomial (p : List F) : ∃ q : F[X], q.degree < p.length ∧ ∀ x, q.eval x = horner p x := by
  induction p with
  | nil => exact ⟨0, by rw [degree_zero]; exact WithBot.bot_lt_coe _, fun x => eval_zero⟩
  | cons c p ih =>
    obtain ⟨q, hdeg, heval⟩ := ih
    refine ⟨q * X + C c, ?_, fun x => by rw [eval_add, eval_mul, eval_X, eval_C, heval, horner_cons]⟩
    refine lt_of_le_of_lt (degree_add_le _ _) (max_lt ?_ ?_)
    · rw [degree_mul, degree_X, length_cons, Nat.cast_add, Nat.cast_one]
      exact WithBot.add_lt_add_right (by decide) hdeg
    · exact lt_of_le_of_lt degree_C_le (by exact_mod_cast Nat.succ_pos _)

variable [DecidableEq F]

def weight (xs : List F) (i : F) : F := (xs.map fun j => if j = i then 1 else j * (j - i)⁻¹).prod

theorem weight_eq (xs : List F) (hnd : xs.Nodup) (i : F) : weight xs i = (Lagrange.basis xs.toFinset id i).eval 0 := by
  have hfac : ∀ j, (if j = i then 1 else j * (j - i)⁻¹) =
      if j = i then 1 else (Lagrange.basisDivisor i j).eval 0 := by
    intro j
    split
    · rfl
    · rw [Lagrange.basisDivisor, Polynomial.eval_mul, Polynomial.eval_C, Polynomial.eval_sub, Polynomial.eval_X,
        Polynomial.eval_C, zero_sub, mul_neg, mul_comm, ← neg_sub i j, inv_neg, neg_mul]
  rw [weight, Lagrange.basis, Polynomial.eval_prod, ← prod_toFinset _ hnd,
    Finset.prod_congr rfl fun j _ => hfac j, ← Finset.prod_erase (f := fun j => if j = i then (1 : F) else _) xs.toFinset
      (if_pos rfl)]
  exact Finset.prod_congr rfl fun j hj => if_neg (Finset.ne_of_mem_erase hj)

theorem sum_horner_mul_weight (p xs : List F) (hnd : xs.Nodup) (hlen : p.length ≤ xs.length) :
    (xs.map fun x => horner p x * weight xs x).sum = horner p 0 := by
  obtain ⟨q, hdeg, heval⟩ := exists_polynomial p
  have hcard : q.degree < xs.toFinset.card := by
    rw [toFinset_card_of_nodup hnd]
    exact lt_of_lt_of_le hdeg (by exact_mod_cast hlen)
  have hq := Lagrange.eq_interpolate (v := id) (Function.injective_id.injOn) hcard
  rw [← sum_toFinset _ hnd, ← heval 0]
  conv_rhs => rw [hq, Lagrange.interpolate_apply, Polynomial.eval_finsetSum]
  refine Finset.sum_congr rfl fun x _ => ?_
  rw [Polynomial.eval_mul, Polynomial.eval_C, weight_eq xs hnd, id_eq, heval]

end Tezos.Lib
