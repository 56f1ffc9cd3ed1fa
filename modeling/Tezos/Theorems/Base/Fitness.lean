import Tezos.Protocol.FitnessRepr

/-! The order of fitnesses, and the numbers of the protocol in it. -/

namespace Tezos.Fitness
open List Lib DataEncoding Protocol.FitnessRepr

theorem eq_compareLex {α : Type} {cmp : α → α → Ordering} {f : List α → List α → Ordering}
    (hnil : f [] [] = .eq)
    (hcons : ∀ x xs y ys, f (x :: xs) (y :: ys) = (cmp x y).then (f xs ys)) :
    (fun l l' => (Ord.compare l.length l'.length).then (f l l')) =
      compareLex (compareOn List.length) (List.compareLex cmp) := by
  have hsame (l l' : List α) (hlen : l.length = l'.length) : f l l' = List.compareLex cmp l l' := by
    induction l generalizing l' with
    | nil =>
      obtain rfl := eq_nil_of_length_eq_zero hlen.symm
      rw [hnil, List.compareLex_nil_nil]
    | cons x xs ih =>
      rcases l' with _ | ⟨y, ys⟩
      · cases hlen
      · rw [hcons, List.compareLex_cons_cons, ih ys (Nat.succ.inj hlen)]
  funext l l'
  change _ = (Ord.compare l.length l'.length).then (List.compareLex cmp l l')
  cases hlen : Ord.compare l.length l'.length with
  | eq => exact hsame l l' (Nat.compare_eq_eq.mp hlen)
  | lt | gt => rfl

instance : Std.TransCmp compareBytes := by
  have heq : compareBytes = _ := eq_compareLex (f := compareByte) rfl fun _ _ _ _ => rfl
  rw [heq]
  infer_instance

instance : Std.TransCmp Fitness.compare := by
  have heq : Fitness.compare = _ := eq_compareLex (f := compareRec) rfl fun _ _ _ _ => rfl
  rw [heq]
  infer_instance

theorem eq_of_compareBytes {b b' : MBytes} (h : compareBytes b b' = .eq) : b = b' := by
  have heq : compareBytes = _ := eq_compareLex (f := compareByte) rfl fun _ _ _ _ => rfl
  rw [heq, compareLex_eq_eq] at h
  exact Std.LawfulEqCmp.eq_of_compare h.2

instance : Std.LawfulEqCmp compareBytes := ⟨eq_of_compareBytes⟩

theorem eq_of_compare {f g : Fitness} (h : Fitness.compare f g = .eq) : f = g := by
  have heq : Fitness.compare = _ := eq_compareLex (f := compareRec) rfl fun _ _ _ _ => rfl
  rw [heq, compareLex_eq_eq] at h
  exact Std.LawfulEqCmp.eq_of_compare h.2

/-- Of two numbers in a base, the leading digits are compared first. -/
theorem compare_digits {m r s : Nat} (x y : Nat) (hr : r < m) (hs : s < m) :
    Ord.compare (x * m + r) (y * m + s) = (Ord.compare x y).then (Ord.compare r s) := by
  have hlead {x y r : Nat} (s : Nat) (hlt : x < y) (hr : r < m) : x * m + r < y * m + s := by
    have hle := Nat.mul_le_mul_right m (Nat.succ_le_of_lt hlt)
    rw [Nat.succ_mul] at hle
    omega
  rcases lt_trichotomy x y with hlt | rfl | hgt
  · rw [Nat.compare_eq_lt.mpr hlt, Nat.compare_eq_lt.mpr (hlead s hlt hr)]
    rfl
  · simp only [Nat.compare_eq_ite_lt, add_lt_add_iff_left, lt_self_iff_false]
    rfl
  · rw [Nat.compare_eq_gt.mpr hgt, Nat.compare_eq_gt.mpr (hlead r hgt hs)]
    rfl

theorem compareByte_eq (b b' : MBytes) (hlen : b.length = b'.length) :
    compareByte b b' = Ord.compare (ofBE b) (ofBE b') := by
  induction b generalizing b' with
  | nil =>
    obtain rfl := eq_nil_of_length_eq_zero hlen.symm
    rfl
  | cons c b ih =>
    rcases b' with _ | ⟨c', b'⟩
    · cases hlen
    · have hlen' : b.length = b'.length := Nat.succ.inj hlen
      have hbyte : Ord.compare c c' = Ord.compare c.toNat c'.toNat := by
        simp only [Ord.compare, compareOfLessAndEq, UInt8.lt_iff_toNat_lt, ← UInt8.toNat_inj]
      rw [compareByte, ih b' hlen', ofBE, ofBE, hlen', compare_digits _ _ (hlen' ▸ ofBE_lt b) (ofBE_lt b'), hbyte]

theorem compare_fromInt64 {a b : Nat} (ha : a < 2 ^ 63) (hb : b < 2 ^ 63) :
    Fitness.compare (fromInt64 (.ofNat 64 a)) (fromInt64 (.ofNat 64 b)) = Ord.compare a b := by
  have hread (n : Nat) (hn : n < 2 ^ 63) : ofBE (int64ToBytes (.ofNat 64 n)) = n := by
    rw [int64ToBytes, ofBE_toBE, BitVec.toNat_ofNat, Nat.mod_mod_of_dvd _ (by decide), Nat.mod_eq_of_lt (by omega)]
  have hbytes := compareByte_eq (int64ToBytes (.ofNat 64 a)) (int64ToBytes (.ofNat 64 b)) rfl
  rw [hread a ha, hread b hb] at hbytes
  rw [← hbytes]
  exact Ordering.then_eq

theorem toInt64_fromInt64 (a : BitVec 64) : toInt64 (fromInt64 a) = .ok a := by
  have hread : BitVec.ofNat 64 (ofBE (toBE 8 a.toNat)) = a := by
    rw [ofBE_toBE, Nat.mod_eq_of_lt (b := 256 ^ 8) a.isLt, BitVec.ofNat_toNat, BitVec.setWidth_eq]
  rw [fromInt64, toInt64, if_pos rfl, int64OfBytes, int64ToBytes, length_toBE, if_neg (not_not.mpr rfl), hread]

/-- The comparison of fitnesses is a total order, and the protocol's fitnesses are in it as their numbers are. -/
theorem compare_order :
    (∀ f, Fitness.compare f f = .eq) ∧ (∀ f g, Fitness.compare f g = (Fitness.compare g f).swap) ∧
      (∀ f g, (Fitness.compare f g).isLE → (Fitness.compare g f).isLE → f = g) ∧
      (∀ f g h, (Fitness.compare f g).isLE → (Fitness.compare g h).isLE → (Fitness.compare f h).isLE) ∧
      ∀ a b : Nat, a < 2 ^ 63 → b < 2 ^ 63 →
        Fitness.compare (fromInt64 (.ofNat 64 a)) (fromInt64 (.ofNat 64 b)) = Ord.compare a b ∧
          toInt64 (fromInt64 (.ofNat 64 a)) = .ok (.ofNat 64 a) :=
  ⟨fun _ => Std.ReflCmp.compare_self, fun _ _ => Std.OrientedCmp.eq_swap,
    fun _ _ h h' => eq_of_compare (Std.OrientedCmp.isLE_antisymm h h'), fun _ _ _ => Std.TransCmp.isLE_trans,
    fun _ _ ha hb => ⟨compare_fromInt64 ha hb, toInt64_fromInt64 _⟩⟩

/-- Numbers that differ in the second byte from the end. -/
theorem compare_order_two :
    Fitness.compare (fromInt64 255) (fromInt64 256) = .lt ∧ toInt64 (fromInt64 255) = .ok 255 :=
  compare_order.2.2.2.2 255 256 (by decide) (by decide)

end Tezos.Fitness
