import Mathlib.Data.Nat.Digits.Lemmas

/-! Numbers as bytes: big-endian words of a fixed width, their signed reading, and little-endian byte
    strings. Computations that fail are in `Except`. -/

namespace Tezos.Lib

section Except
variable {ε α β : Type}

@[simp] theorem ok_bind (a : α) (f : α → Except ε β) : (Except.ok a >>= f) = f a := rfl

@[simp] theorem error_bind (e : ε) (f : α → Except ε β) : (Except.error e >>= f) = .error e := rfl

@[simp] theorem pure_eq_ok (a : α) : (pure a : Except ε α) = .ok a := rfl

variable {f : α → Except ε β} {x : Except ε α}

theorem bind_eq_ok {b : β} : (x >>= f) = .ok b ↔ ∃ a, x = .ok a ∧ f a = .ok b := by
  cases x <;> simp

theorem bind_eq_error {e : ε} : (x >>= f) = .error e ↔ x = .error e ∨ ∃ a, x = .ok a ∧ f a = .error e := by
  cases x <;> simp

theorem bind_congr_ok {g : α → Except ε β} (h : ∀ a, x = .ok a → f a = g a) : (x >>= f) = (x >>= g) := by
  cases x with
  | error e => rfl
  | ok a => exact h a rfl

end Except

def toBE : Nat → Nat → List UInt8
  | 0, _ => []
  | n + 1, v => UInt8.ofNat (v / 256 ^ n) :: toBE n v

def ofBE : List UInt8 → Nat
  | [] => 0
  | b :: l => b.toNat * 256 ^ l.length + ofBE l

@[simp] theorem length_toBE (n v : Nat) : (toBE n v).length = n := by
  induction n with
  | zero => rfl
  | succ n ih => simp [toBE, ih]

theorem ofBE_toBE (n v : Nat) : ofBE (toBE n v) = v % 256 ^ n := by
  induction n with
  | zero => simp [toBE, ofBE, Nat.mod_one]
  | succ n ih =>
    have hbyte : (UInt8.ofNat (v / 256 ^ n)).toNat = v / 256 ^ n % 256 := by simp
    simp only [toBE, ofBE, length_toBE, ih, hbyte]
    rw [pow_succ, Nat.mod_mul]
    ring

theorem ofBE_lt (l : List UInt8) : ofBE l < 256 ^ l.length := by
  induction l with
  | nil => simp [ofBE]
  | cons b l ih =>
    have hb : b.toNat + 1 ≤ 256 := b.toNat_lt
    calc ofBE (b :: l) < b.toNat * 256 ^ l.length + 256 ^ l.length := by simp only [ofBE]; omega
      _ = (b.toNat + 1) * 256 ^ l.length := by ring
      _ ≤ 256 * 256 ^ l.length := Nat.mul_le_mul_right _ hb
      _ = 256 ^ (b :: l).length := by rw [List.length_cons]; ring

def wrap (bits : Nat) (v : Int) : Nat := (v % 2 ^ bits).toNat

def signed (bits v : Nat) : Int := Int.bmod v (2 ^ bits)

theorem wrap_of_nonneg {bits : Nat} {v : Int} (h0 : 0 ≤ v) (h : v < 2 ^ bits) : (wrap bits v : Int) = v := by
  rw [wrap, Int.emod_eq_of_lt h0 h, Int.toNat_of_nonneg h0]

theorem wrap_lt (bits : Nat) (v : Int) : wrap bits v < 2 ^ bits := by
  have h : (0 : Int) < 2 ^ bits := by positivity
  have hlt : v % 2 ^ bits < 2 ^ bits := Int.emod_lt_of_pos v h
  have h0 : 0 ≤ v % 2 ^ bits := Int.emod_nonneg v h.ne'
  unfold wrap
  zify
  rw [Int.toNat_of_nonneg h0]
  exact hlt

theorem signed_wrap {bits : Nat} {v : Int} (lo : -2 ^ bits ≤ v) (hi : v < 2 ^ bits) :
    signed (bits + 1) (wrap (bits + 1) v) = v := by
  have hpos : (0 : Int) < 2 ^ (bits + 1) := by positivity
  have h0 : 0 ≤ v % 2 ^ (bits + 1) := Int.emod_nonneg v hpos.ne'
  have hcast : ((2 ^ (bits + 1) : Nat) : Int) = 2 ^ (bits + 1) := by rfl
  have hhalf : (2 : Int) ^ (bits + 1) = 2 * 2 ^ bits := by ring
  unfold signed wrap
  rw [Int.toNat_of_nonneg h0, ← hcast, Int.emod_bmod]
  apply Int.bmod_eq_of_le <;> push_cast <;> rw [hhalf] <;> omega

theorem signed_range (bits v : Nat) : -2 ^ bits ≤ signed (bits + 1) v ∧ signed (bits + 1) v < 2 ^ bits := by
  have hpos : 0 < 2 ^ (bits + 1) := by positivity
  have lo := Int.le_bmod (x := v) hpos
  have hi := Int.bmod_lt (x := v) hpos
  push_cast at lo hi
  unfold signed
  constructor <;> omega

def ofLE : List UInt8 → Nat
  | [] => 0
  | b :: l => b.toNat + 256 * ofLE l

theorem ofLE_append (l m : List UInt8) : ofLE (l ++ m) = ofLE l + 256 ^ l.length * ofLE m := by
  induction l with
  | nil => simp [ofLE]
  | cons b l ih =>
    simp only [List.cons_append, ofLE, ih, List.length_cons, pow_succ]
    ring

end Tezos.Lib
