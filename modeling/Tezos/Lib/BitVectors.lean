import Mathlib.Data.BitVec
import Mathlib.Data.Nat.Bitwise

/-! Bit vectors that agree from a position on, and the highest position at which two of them differ. -/

namespace Tezos.Lib
open BitVec
variable {w : Nat} {x y z : BitVec w} {k c : Nat}

def AgreeFrom (k : Nat) (x y : BitVec w) : Prop := ∀ i, k ≤ i → x.getLsbD i = y.getLsbD i

namespace AgreeFrom

theorem refl (k : Nat) (x : BitVec w) : AgreeFrom k x x := fun _ _ => rfl

theorem symm (h : AgreeFrom k x y) : AgreeFrom k y x := fun i hi => (h i hi).symm

theorem trans (h : AgreeFrom k x y) (h' : AgreeFrom k y z) : AgreeFrom k x z :=
  fun i hi => (h i hi).trans (h' i hi)

theorem mono (h : AgreeFrom k x y) (hk : k ≤ c) : AgreeFrom c x y := fun i hi => h i (hk.trans hi)

end AgreeFrom

theorem agreeFrom_zero : AgreeFrom 0 x y ↔ x = y := by
  refine ⟨fun h => eq_of_getLsbD_eq fun i _ => h i (Nat.zero_le i), fun h => ?_⟩
  rw [h]
  exact AgreeFrom.refl 0 y

theorem agreeFrom_iff_succ : AgreeFrom k x y ↔ x.getLsbD k = y.getLsbD k ∧ AgreeFrom (k + 1) x y := by
  refine ⟨fun h => ⟨h k le_rfl, h.mono (Nat.le_succ k)⟩, fun ⟨hk, h⟩ i hi => ?_⟩
  rcases Nat.eq_or_lt_of_le hi with rfl | hlt
  · exact hk
  · exact h i hlt

structure DifferAt (c : Nat) (x y : BitVec w) : Prop where
  differ : x.getLsbD c ≠ y.getLsbD c
  agree : AgreeFrom (c + 1) x y

namespace DifferAt

section
variable (h : DifferAt c x y)
include h

theorem not_agree (hk : k ≤ c) : ¬AgreeFrom k x y := fun h' => h.differ (h' c hk)

theorem lt_of_agree (h' : AgreeFrom k x y) : c < k :=
  Nat.lt_of_not_le fun hk => h.not_agree hk h'

theorem le_of_not_agree (h' : ¬AgreeFrom k x y) : k ≤ c :=
  Nat.le_of_not_lt fun hlt => h' (h.agree.mono hlt)

theorem lt_width : c < w := by
  refine Nat.lt_of_not_le fun hw => h.differ ?_
  rw [getLsbD_of_ge x c hw, getLsbD_of_ge y c hw]

theorem unique {d : Nat} (h' : DifferAt d x y) : c = d :=
  Nat.le_antisymm (Nat.le_of_lt_succ (h.lt_of_agree h'.agree)) (Nat.le_of_lt_succ (h'.lt_of_agree h.agree))

end

end DifferAt

theorem differAt_log2 (h : x ≠ y) : DifferAt (x ^^^ y).toNat.log2 x y := by
  have hne : (x ^^^ y).toNat ≠ 0 := by
    intro h0
    apply h
    have : x ^^^ y = 0#w := eq_of_toNat_eq (by rw [h0]; rfl)
    exact BitVec.xor_eq_zero_iff.mp this
  have bit (i : Nat) : (x ^^^ y).toNat.testBit i = (x.getLsbD i ^^ y.getLsbD i) := getLsbD_xor
  constructor
  · have := Nat.testBit_log2 hne
    rw [bit] at this
    exact bne_iff_ne.mp this
  · intro i hi
    have := Nat.testBit_lt_two_pow (Nat.lt_log2_self.trans_le (Nat.pow_le_pow_right Nat.two_pos hi))
    rw [bit] at this
    exact bne_eq_false_iff_eq.mp this

end Tezos.Lib
