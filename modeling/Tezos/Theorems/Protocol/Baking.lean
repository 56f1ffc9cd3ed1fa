import Mathlib.Algebra.Order.BigOperators.Group.Finset
import Tezos.Protocol.Baking

/-! The earliest time of a block. No addition of a period fails: a sum that has more than 64 bits wraps. -/

namespace Tezos.Protocol
open Finset

variable {durations : List Int} {n : Nat} {acc t : Int}

theorem int64_add_int64 (x y : Int) : int64 (x + int64 y) = int64 (x + y) := Int.add_bmod_bmod

theorem int64_int64_add (x y : Int) : int64 (int64 x + y) = int64 (x + y) := Int.bmod_add_bmod

/-- A number of 64 bits. -/
def Fits (x : Int) : Prop := -2 ^ 63 ≤ x ∧ x < 2 ^ 63

theorem int64_eq_self_iff (x : Int) : int64 x = x ↔ Fits x := by
  rw [int64, Int.bmod_def, Fits]
  split <;> omega

namespace Baking

/-- The time of the predecessor and the durations up to a priority, the last of them repeated. -/
def exactTime (durations : List Int) (priority : Nat) (predTimestamp : Int) : Int :=
  predTimestamp + ∑ i ∈ Finset.range (priority + 1), durations.getD (min i (durations.length - 1)) 0

theorem exactTime_cons (first : Int) (hne : durations ≠ []) (n : Nat) :
    exactTime (first :: durations) (n + 1) acc = exactTime durations n (acc + first) := by
  have hlen := List.length_pos_iff.mpr hne
  unfold exactTime
  rw [sum_range_succ', List.length_cons, add_assoc, add_comm first, Nat.zero_min]
  refine congrArg (acc + · ) (congrArg (· + first) (sum_congr rfl fun i _ => ?_))
  rw [show min (i + 1) (durations.length + 1 - 1) = min i (durations.length - 1) + 1 by omega, List.getD_cons_succ]

theorem exactTime_singleton (last : Int) (n : Nat) : exactTime [last] n acc = acc + (n + 1) * last := by
  unfold exactTime
  simp

theorem cumsumTimeBetweenBlocks_zero (acc : Int) (durations : List Int) :
    cumsumTimeBetweenBlocks acc durations 0 = .ok acc := by
  unfold cumsumTimeBetweenBlocks
  exact if_pos (le_refl 0)

/-- The sum wraps once, however often the sums on the way did. -/
theorem cumsumTimeBetweenBlocks_eq (hne : durations ≠ []) (hn : n + 1 < 2 ^ 31) (acc : Int) :
    cumsumTimeBetweenBlocks acc durations (n + 1 : Nat) = .ok (int64 (exactTime durations n acc)) := by
  induction durations generalizing n acc with
  | nil => exact absurd rfl hne
  | cons first durations ih =>
    have hpos : ¬((n + 1 : Nat) : Int) ≤ 0 := by omega
    rcases durations with _ | ⟨second, durations⟩
    · have hmult : Period.mult (n + 1 : Nat) first = .ok (int64 ((n + 1 : Nat) * first)) := if_neg (by omega)
      rw [exactTime_singleton, ← Nat.cast_succ, ← int64_add_int64, cumsumTimeBetweenBlocks, if_neg hpos, repeatLast,
        hmult]
      rfl
    · have hpred : int32 ((n + 1 : Nat) - 1) = n := by
        rw [Nat.cast_succ, add_sub_cancel_right]
        exact int32_eq_self (by omega) (by omega)
      rw [cumsumTimeBetweenBlocks, if_neg hpos, hpred]
      · rcases n with _ | n
        · have hfirst : exactTime (first :: second :: durations) 0 acc = acc + first := by simp [exactTime]
          rw [hfirst]
          exact cumsumTimeBetweenBlocks_zero _ _
        · rw [exactTime_cons first (List.cons_ne_nil _ _)]
          have hrest := ih (List.cons_ne_nil _ _) (Nat.lt_of_succ_lt hn) (int64 (acc + first))
          rw [exactTime, int64_int64_add] at hrest
          exact hrest
      · exact List.cons_ne_nil _ _

/-- No priority makes `minimal_time` fail. -/
theorem minimalTime_eq (hne : durations ≠ []) {p : Nat} (hp : p < 65536) (t : Int) :
    minimalTime durations p t = .ok (int64 (exactTime durations p t)) := by
  rw [minimalTime, int32_eq_self (x := p) (by omega) (by omega), ← Nat.cast_succ, int32_eq_self (by omega) (by omega)]
  exact cumsumTimeBetweenBlocks_eq hne (by omega) t

theorem exactTime_mono (hds : ∀ d ∈ durations, 0 ≤ d) {q p : Nat} (hle : q ≤ p) :
    t ≤ exactTime durations q t ∧ exactTime durations q t ≤ exactTime durations p t := by
  have hterm (i : Nat) : 0 ≤ durations.getD i 0 := by
    rw [List.getD_eq_getElem?_getD]
    rcases hget : durations[i]? with _ | d
    · exact le_refl 0
    · exact hds d (List.mem_of_getElem? hget)
  have hsub := range_subset_range.mpr (Nat.succ_le_succ hle)
  exact ⟨le_add_of_nonneg_right (sum_nonneg fun i _ => hterm _),
    add_le_add_right (sum_le_sum_of_subset_of_nonneg hsub fun i _ _ => hterm _) t⟩

/-- The result is the exact time, or an error if that does not fit, and grows with the priority, if, and only if, the
    exact time has 64 bits. -/
theorem minimalTime_exact_iff (durations : List Int) (hne : durations ≠ [])
    (hds : ∀ d ∈ durations, 0 ≤ d ∧ Fits d)
    (t : Int) (ht : Fits t) (p : Nat) (hp : p < 65536) :
    ((Fits (exactTime durations p t) → minimalTime durations p t = .ok (exactTime durations p t)) ∧
      (¬Fits (exactTime durations p t) → minimalTime durations p t = .error .timestampAdd) ∧
      ∀ q ≤ p, ∀ a b, minimalTime durations q t = .ok a → minimalTime durations p t = .ok b → a ≤ b) ↔
    Fits (exactTime durations p t) := by
  rw [minimalTime_eq hne hp t]
  constructor
  · rintro ⟨-, herr, -⟩
    by_contra hfit
    cases herr hfit
  · intro hfit
    rw [(int64_eq_self_iff _).mpr hfit]
    refine ⟨fun _ => rfl, fun h => absurd hfit h, fun q hq a b ha hb => ?_⟩
    obtain ⟨hlow, hmono⟩ := exactTime_mono (t := t) (fun d hd => (hds d hd).1) hq
    have hfitq : Fits (exactTime durations q t) := ⟨le_trans ht.1 hlow, lt_of_le_of_lt hmono hfit.2⟩
    rw [minimalTime_eq hne (by omega), (int64_eq_self_iff _).mpr hfitq] at ha
    cases ha
    cases hb
    exact hmono

theorem minimalTime_exact_iff_two : minimalTime [60, 40] 2 0 = .ok 140 := by
  have hds : ∀ d ∈ [60, 40], 0 ≤ d ∧ Fits d := by
    unfold Fits
    decide
  have hfit : Fits (exactTime [60, 40] 2 0) := by
    unfold Fits
    decide
  exact ((minimalTime_exact_iff [60, 40] (by decide) hds 0 (by unfold Fits; decide) 2 (by decide)).mpr hfit).1 hfit

/-- One minute after the last second of the 64 bits is the beginning of the range. -/
theorem minimalTime_wraps : minimalTime [60] 0 (2 ^ 63 - 1) = .ok (-2 ^ 63 + 59) := by
  decide

end Baking

end Tezos.Protocol
