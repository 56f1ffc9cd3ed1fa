import Tezos.Protocol.SeedRepr

/-! The range of the draws. The lowest word has no absolute value, and is not dropped, so that a draw may be negative. -/

namespace Tezos.Protocol.SeedRepr
open DataEncoding BlockLocator BitVec
open BitVec (intMax intMin toInt_srem)

/-- The words of a sequence, which are drawn until one is not dropped. -/
def word (hashBytes : MBytes → Digest) : Nat → Digest → BitVec 32
  | 0, s => getInt32 (take hashBytes s).1
  | k + 1, s => word hashBytes k (take hashBytes s).2

variable {hashBytes : MBytes → Digest} {bound v : BitVec 32} {s s' : Digest} {fuel : Nat}

theorem loop_succ : loop hashBytes bound (fuel + 1) s =
    if dropped bound (word hashBytes 0 s).abs then loop hashBytes bound fuel (take hashBytes s).2
    else some ((word hashBytes 0 s).abs.srem bound, (take hashBytes s).2) := rfl

theorem loop_eq_some (h : loop hashBytes bound fuel s = some (v, s')) :
    ∃ k, (∀ j < k, dropped bound (word hashBytes j s).abs) ∧ v = (word hashBytes k s).abs.srem bound := by
  induction fuel generalizing s with
  | zero => cases h
  | succ fuel ih =>
    rw [loop_succ] at h
    split at h
    · rename_i hdrop
      obtain ⟨k, hk, hv⟩ := ih h
      refine ⟨k + 1, fun j hj => ?_, hv⟩
      rcases j with _ | j
      · exact hdrop
      · exact hk j (Nat.lt_of_succ_lt_succ hj)
    · cases h
      exact ⟨0, fun j hj => absurd hj (Nat.not_lt_zero j), rfl⟩

theorem loop_of_dropped {k : Nat} (hk : ∀ j < k, dropped bound (word hashBytes j s).abs)
    (hlast : ¬dropped bound (word hashBytes k s).abs) :
    ∃ s', loop hashBytes bound (k + 1) s = some ((word hashBytes k s).abs.srem bound, s') := by
  induction k generalizing s with
  | zero => exact ⟨_, if_neg hlast⟩
  | succ k ih =>
    rw [loop_succ, if_pos (hk 0 (Nat.succ_pos k))]
    exact ih (fun j hj => hk (j + 1) (Nat.succ_lt_succ hj)) hlast

/-- The lowest word is its own absolute value, so that its remainder is negative. It is drawn first among those that
    are not dropped only if the bound divides it. -/
def Regular (hashBytes : MBytes → Digest) (bound : BitVec 32) (s : Digest) : Prop :=
  bound.toInt ∣ 2 ^ 31 ∨
    ∀ k, (∀ j < k, dropped bound (word hashBytes j s).abs) → word hashBytes k s ≠ intMin 32

theorem abs_intMin : (intMin 32).abs.toInt = -2 ^ 31 := by decide

theorem toInt_srem_abs (hb : 0 < bound.toInt) {w : BitVec 32} (h : bound.toInt ∣ 2 ^ 31 ∨ w ≠ intMin 32) :
    0 ≤ (w.abs.srem bound).toInt ∧ (w.abs.srem bound).toInt < bound.toInt := by
  rw [toInt_srem]
  refine ⟨?_, Int.tmod_lt_of_pos _ hb⟩
  by_cases hw : w = intMin 32
  · rw [hw, abs_intMin, Int.neg_tmod, Int.tmod_eq_zero_of_dvd (h.resolve_right (not_not.mpr hw))]
    exact le_refl 0
  · rw [toInt_abs_eq_natAbs_of_ne_intMin hw]
    exact Int.tmod_nonneg _ (Int.natCast_nonneg _)

theorem not_dropped_intMin (hb : 0 < bound.toInt) : ¬dropped bound (intMin 32).abs := by
  have hmax : (intMax 32).toInt = 2 ^ 31 - 1 := by decide
  have hnn := Int.tmod_nonneg bound.toInt (show 0 ≤ (intMax 32).toInt by decide)
  have hlt := Int.tmod_lt_of_pos (intMax 32).toInt hb
  have hle : bound.toInt < 2 ^ 31 := toInt_lt
  rw [dropped, sle_eq_decide, toInt_sub, toInt_srem, abs_intMin, hmax, Int.bmod_def,
    decide_eq_true_eq]
  rw [hmax] at hnn hlt
  split <;> omega

/-- A draw is in range, and selects a snapshot, if, and only if, the words are regular for the bound. -/
theorem takeInt32_within_iff (hashBytes : MBytes → Digest) (s : Digest) (bound : BitVec 32) (hb : 0 < bound.toInt) :
    ((∀ fuel v s', takeInt32 hashBytes fuel s bound = some (v, s') → 0 ≤ v.toInt ∧ v.toInt < bound.toInt) ∧
      ∀ fuel seed maxIndex index, snapshotSequence hashBytes seed = s → BitVec.ofInt 32 maxIndex = bound →
        0 ≤ maxIndex →
        selectedIndex hashBytes fuel seed maxIndex = some index → 0 ≤ index ∧ index < maxIndex) ↔
      Regular hashBytes bound s := by
  have htake (fuel : Nat) : takeInt32 hashBytes fuel s bound = loop hashBytes bound fuel s := by
    refine if_neg ?_
    rw [BitVec.sle_eq_decide]
    simpa using hb
  constructor
  · rintro ⟨hdraw, -⟩
    refine or_iff_not_imp_left.mpr fun hdvd k hk hword => ?_
    obtain ⟨s', hloop⟩ := loop_of_dropped hk (hword ▸ not_dropped_intMin hb)
    have hnn := (hdraw _ _ _ ((htake _).trans hloop)).1
    rw [hword, toInt_srem, abs_intMin, Int.neg_tmod, Int.tmod_eq_emod_of_nonneg (by decide)] at hnn
    exact hdvd (Int.dvd_of_emod_eq_zero (by omega))
  · intro hreg
    have hdraw (fuel v s') (h : takeInt32 hashBytes fuel s bound = some (v, s')) :
        0 ≤ v.toInt ∧ v.toInt < bound.toInt := by
      obtain ⟨k, hk, rfl⟩ := loop_eq_some ((htake fuel).symm.trans h)
      exact toInt_srem_abs hb (hreg.imp id fun hword => hword k hk)
    refine ⟨hdraw, ?_⟩
    rintro fuel seed maxIndex index rfl rfl hmax h
    obtain ⟨⟨v, s'⟩, hv, rfl⟩ := Option.map_eq_some_iff.mp h
    obtain ⟨hnn, hlt⟩ := hdraw fuel v s' hv
    refine ⟨hnn, lt_of_lt_of_le hlt ?_⟩
    rw [BitVec.toInt_ofInt, Int.bmod_def]
    split <;> omega

theorem takeInt32_within_two :
    let hashBytes : MBytes → Digest := fun _ => ⟨128 :: List.replicate 31 0, rfl⟩
    ∀ fuel v s', takeInt32 hashBytes fuel (hashBytes []) 2 = some (v, s') → 0 ≤ v.toInt ∧ v.toInt < 2 :=
  ((takeInt32_within_iff _ _ 2 (by decide)).mpr (.inl ⟨2 ^ 30, by decide⟩)).1

/-- All hashes begin with the lowest word: a draw below three is minus two. -/
theorem takeInt32_negative :
    let hashBytes : MBytes → Digest := fun _ => ⟨128 :: List.replicate 31 0, rfl⟩
    (takeInt32 hashBytes 1 (hashBytes []) 3).map (fun draw => draw.1.toInt) = some (-2) ∧
      selectedIndex hashBytes 1 (hashBytes []) 3 = some (-2) := by
  decide

end Tezos.Protocol.SeedRepr
