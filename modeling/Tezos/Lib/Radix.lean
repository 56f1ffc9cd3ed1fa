import Mathlib.Data.List.DropRight
import Mathlib.Data.Nat.Digits.Lemmas

/-! Numerals in two bases: zeros at the beginning are carried over one by one, so that the conversion is a bijection. -/

namespace Tezos.Lib.Radix
open List

def value (b : ℕ) (l : List ℕ) : ℕ := Nat.ofDigits b l.reverse

def numeral (b n : ℕ) : List ℕ := (Nat.digits b n).reverse

def leadingZeros (l : List ℕ) : ℕ := (l.takeWhile (· == 0)).length

def convert (b c : ℕ) (l : List ℕ) : List ℕ := replicate (leadingZeros l) 0 ++ numeral c (value b l)

variable {b c : ℕ} {l : List ℕ} {n : ℕ}

theorem takeWhile_eq_replicate (l : List ℕ) : l.takeWhile (· == 0) = replicate (leadingZeros l) 0 := by
  refine eq_replicate_iff.mpr ⟨rfl, fun d hd => ?_⟩
  exact eq_of_beq (mem_takeWhile_imp (p := (· == 0)) hd)

theorem eq_replicate_append (l : List ℕ) : l = replicate (leadingZeros l) 0 ++ l.dropWhile (· == 0) := by
  rw [← takeWhile_eq_replicate, takeWhile_append_dropWhile]

theorem leadingZeros_append {k : ℕ} (h : ∀ d ∈ l.head?, d ≠ 0) : leadingZeros (replicate k 0 ++ l) = k := by
  have htail : l.takeWhile (· == 0) = [] := by
    rcases l with _ | ⟨d, l⟩
    · rfl
    · exact takeWhile_cons_of_neg fun heq => h d rfl (eq_of_beq heq)
  rw [leadingZeros, takeWhile_append_of_pos fun d hd => beq_of_eq (eq_of_mem_replicate hd), htail,
    append_nil, length_replicate]

theorem value_append (k : ℕ) (l : List ℕ) : value b (replicate k 0 ++ l) = value b l := by
  rw [value, reverse_append, reverse_replicate, Nat.ofDigits_append_replicate_zero]
  rfl

theorem value_numeral (n : ℕ) : value b (numeral b n) = n := by
  rw [value, numeral, reverse_reverse, Nat.ofDigits_digits]

theorem head?_numeral_ne_zero : ∀ d ∈ (numeral b n).head?, d ≠ 0 := by
  intro d hd
  rw [numeral, head?_reverse] at hd
  obtain ⟨hne, rfl⟩ := mem_getLast?_eq_getLast hd
  exact Nat.getLast_digit_ne_zero b (Nat.digits_ne_nil_iff_ne_zero.mp hne)

/-- A numeral of the base that starts with no zero is the numeral of its number. -/
theorem numeral_value (hb : 1 < b) (hl : ∀ d ∈ l, d < b) (hhead : ∀ d ∈ l.head?, d ≠ 0) :
    numeral b (value b l) = l := by
  rw [numeral, value, Nat.digits_ofDigits b hb l.reverse, reverse_reverse]
  · exact fun d hd => hl d (mem_reverse.mp hd)
  · intro hne
    rw [getLast_reverse]
    exact hhead _ (head_mem_head? _)

theorem head?_dropWhile_ne_zero : ∀ d ∈ (l.dropWhile (· == 0)).head?, d ≠ 0 := by
  intro d hd
  have hnot := head?_dropWhile_not (· == 0) l
  rw [hd] at hnot
  exact fun heq => absurd (beq_of_eq heq) (by rw [Bool.not_eq_true]; exact hnot)

theorem convert_lt (hc : 1 < c) : ∀ d ∈ convert b c l, d < c := by
  intro d hd
  rcases mem_append.mp hd with hzero | hdigit
  · rw [eq_of_mem_replicate hzero]
    exact Nat.zero_lt_of_lt hc
  · exact Nat.digits_lt_base hc (mem_reverse.mp hdigit)

theorem convert_convert (hb : 1 < b) (hl : ∀ d ∈ l, d < b) : convert c b (convert b c l) = l := by
  have hval : value c (convert b c l) = value b (l.dropWhile (· == 0)) := by
    rw [convert, value_append, value_numeral]
    conv_lhs => rw [eq_replicate_append l, value_append]
  have hzer : leadingZeros (convert b c l) = leadingZeros l := leadingZeros_append head?_numeral_ne_zero
  have hdig : ∀ d ∈ l.dropWhile (· == 0), d < b := fun d hd => hl d ((dropWhile_sublist _).subset hd)
  calc convert c b (convert b c l)
      = replicate (leadingZeros l) 0 ++ numeral b (value b (l.dropWhile (· == 0))) := by
        rw [convert, hzer, hval]
    _ = replicate (leadingZeros l) 0 ++ l.dropWhile (· == 0) := by
        rw [numeral_value hb hdig head?_dropWhile_ne_zero]
    _ = l := (eq_replicate_append l).symm

theorem value_lt (hb : 1 < b) (hl : ∀ d ∈ l, d < b) : value b l < b ^ l.length := by
  rw [← length_reverse]
  exact Nat.ofDigits_lt_base_pow_length hb fun d hd => hl d (mem_reverse.mp hd)

theorem length_numeral_le (hb : 1 < b) {n k : ℕ} (h : n < b ^ k) : (numeral b n).length ≤ k := by
  rw [numeral, length_reverse]
  exact (Nat.digits_length_le_iff hb n).mpr h

theorem value_concat (l m : List ℕ) : value b (l ++ m) = value b l * b ^ m.length + value b m := by
  rw [value, reverse_append, Nat.ofDigits_append, length_reverse, Nat.add_comm, Nat.mul_comm]
  rfl

theorem numeral_of_ne_zero (hb : 1 < b) (h : n ≠ 0) : numeral b n = numeral b (n / b) ++ [n % b] := by
  rw [numeral, Nat.digits_eq_cons_digits_div hb h, reverse_cons]
  rfl

theorem exists_numeral_eq_append (hb : 1 < b) {n k : ℕ} (h : n / b ^ k ≠ 0) :
    ∃ low : List ℕ, low.length = k ∧ numeral b n = numeral b (n / b ^ k) ++ low := by
  induction k generalizing n with
  | zero => exact ⟨[], rfl, by rw [Nat.pow_zero, Nat.div_one, append_nil]⟩
  | succ k ih =>
    rw [Nat.pow_succ', ← Nat.div_div_eq_div_mul] at h ⊢
    have hn : n ≠ 0 := by
      rintro rfl
      exact h (by rw [Nat.zero_div, Nat.zero_div])
    obtain ⟨low, rfl, heq⟩ := ih h
    refine ⟨low ++ [n % b], length_append, ?_⟩
    rw [numeral_of_ne_zero hb hn, heq, append_assoc]

end Tezos.Lib.Radix
