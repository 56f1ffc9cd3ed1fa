import Tezos.Theorems.DataEncoding.Sizes

/-! Atoms are read as they were written. -/

namespace Tezos.DataEncoding.Wire
open Lib Parser BinarySize UInt8

/-- The limit leaves room for `k` bytes. -/
def Allowed (a : Option Int) (k : Nat) : Prop := ∀ y, a = some y → (k : Int) ≤ y

variable {a : Option Int} {k k' size : Nat} {u : Unit} {input rest w : MBytes} {α : Type}
  {conv : MBytes → Except Exn α} {kind : Integer} {v : Int} {n : Nat}

theorem allows_ok : allows a k = .ok u ↔ Allowed a k := by
  rcases a with _ | y
  · simp [allows, Allowed]
  · simp only [allows, Allowed, Option.some.injEq, forall_eq']
    by_cases h : y < k
    · rw [if_pos h]
      simp only [reduceCtorEq, false_iff]
      omega
    · rw [if_neg h]
      simp only [true_iff]
      omega

theorem needs_ok : needs input k = .ok u ↔ k ≤ input.length := by
  simp only [needs]
  by_cases h : input.length < k
  · rw [if_pos h]
    simp only [reduceCtorEq, false_iff]
    omega
  · rw [if_neg h]
    simp only [true_iff]
    omega

theorem Allowed.left (h : Allowed a (k + k')) : Allowed a k := fun y hy => by
  have := h y hy
  omega

theorem Allowed.right (h : Allowed a (k + k')) : Allowed (spend a k) k' := fun y hy => by
  rcases a with _ | x
  · cases hy
  · have := h x rfl
    rw [spend_some] at hy
    cases hy
    omega

theorem word_ok {v : α} : word size conv input a = .ok (v, k) ↔
      size ≤ input.length ∧ Allowed a size ∧ conv (input.take size) = .ok v ∧ k = size := by
  simp only [word, bind_eq_ok, needs_ok, allows_ok, exists_const, pure_eq_ok, Except.ok.injEq, Prod.mk.injEq]
  constructor
  · rintro ⟨hlen, ha, _, hv, rfl, rfl⟩
    exact ⟨hlen, ha, hv, rfl⟩
  · rintro ⟨hlen, ha, hv, rfl⟩
    exact ⟨hlen, ha, v, hv, rfl, rfl⟩

theorem word_append {v : α} (hlen : w.length = size) (ha : Allowed a size) (hv : conv w = .ok v) :
    word size conv (w ++ rest) a = .ok (v, size) := by
  subst hlen
  exact word_ok.mpr ⟨by simp, ha, by simpa using hv, rfl⟩

theorem intOfBytes_intBytes (lo : minInt kind ≤ v) (hi : v ≤ maxInt kind) :
    intOfBytes kind (intBytes kind v) = .ok v := by
  have hof : ofBE (intBytes kind v) = wrap (8 * integerToSize kind) v := by
    rw [intBytes, ofBE_toBE, Nat.mod_eq_of_lt]
    have hlt := wrap_lt (8 * integerToSize kind) v
    rwa [pow_mul] at hlt
  cases kind with
  | int31 =>
    norm_num [minInt, maxInt] at lo hi
    simp only [intOfBytes, hof]
    exact congrArg Except.ok (@signed_wrap 31 v (by omega) (by omega))
  | int16 =>
    norm_num [minInt, maxInt] at lo hi
    simp only [intOfBytes, hof]
    exact congrArg Except.ok (@signed_wrap 15 v (by omega) (by omega))
  | int8 =>
    norm_num [minInt, maxInt] at lo hi
    simp only [intOfBytes, hof]
    exact congrArg Except.ok (@signed_wrap 7 v (by omega) (by omega))
  | uint30 =>
    norm_num [minInt, maxInt] at lo hi
    have h : signed 32 (wrap (8 * integerToSize .uint30) v) = v := @signed_wrap 31 v (by omega) (by omega)
    simp only [intOfBytes, hof, h, if_neg (not_lt.mpr lo)]
  | uint16 =>
    norm_num [minInt, maxInt] at lo hi
    simp only [intOfBytes, hof]
    exact congrArg Except.ok (wrap_of_nonneg lo (show v < 2 ^ 16 by omega))
  | uint8 =>
    norm_num [minInt, maxInt] at lo hi
    simp only [intOfBytes, hof]
    exact congrArg Except.ok (wrap_of_nonneg lo (show v < 2 ^ 8 by omega))

theorem decodeInt_append (hv : minInt kind ≤ v ∧ v ≤ maxInt kind) (ha : Allowed a (integerToSize kind)) :
    decodeInt kind (intBytes kind v ++ rest) a = .ok (v, integerToSize kind) :=
  word_append (length_intBytes kind v) ha (intOfBytes_intBytes hv.1 hv.2)

/-! ### Numbers of any size -/

theorem decodeByte_cons {b : UInt8} (hb : b.toNat = n) (ha : Allowed a 1) : decodeByte (b :: rest) a = .ok (n, 1) :=
  word_ok.mpr ⟨by simp, ha, by simp [ofBE, hb], rfl⟩

/-- By induction on the septets: only the last one is below 128, and it is not zero. -/
theorem decodeSeptets_append : ∀ {m rounds : Nat} {rest : MBytes} {a : Option Int},
    128 ^ k ≤ m → m < 128 ^ (k + 1) → k < rounds → Allowed a (k + 1) →
      decodeSeptets rounds (septets (k + 1) m ++ rest) a = .ok (m, k + 1) := by
  induction k with
  | zero =>
    intro m rounds rest a hlo hhi hroun ha
    obtain ⟨rounds, rfl⟩ : ∃ r, rounds = r + 1 := ⟨rounds - 1, by omega⟩
    have hbyte : (ofNat m).toNat = m := by
      rw [toNat_ofNat', Nat.mod_eq_of_lt (by omega)]
    refine bind_ok.mpr ⟨m, 1, 0, ?_, ?_, rfl⟩
    · exact decodeByte_cons hbyte ha
    · simp only [if_neg (show ¬128 ≤ m by omega), if_neg (show ¬m = 0 by omega)]
      rfl
  | succ k ih =>
    intro m rounds rest a hlo hhi hroun ha
    obtain ⟨rounds, rfl⟩ : ∃ r, rounds = r + 1 := ⟨rounds - 1, by omega⟩
    have hbyte : (ofNat (128 + m % 128)).toNat = 128 + m % 128 := by
      rw [toNat_ofNat', Nat.mod_eq_of_lt (by omega)]
    have hlo' : 128 ^ k ≤ m / 128 := by
      rw [Nat.le_div_iff_mul_le (by norm_num)]
      exact hlo
    have hhi' : m / 128 < 128 ^ (k + 1) := by
      rw [Nat.div_lt_iff_lt_mul (by norm_num)]
      exact hhi
    have ha' : Allowed a (1 + (k + 1)) := by rwa [Nat.add_comm]
    refine bind_ok.mpr ⟨128 + m % 128, 1, k + 1, ?_, ?_, by omega⟩
    · exact decodeByte_cons hbyte ha'.left
    · simp only [if_pos (show 128 ≤ 128 + m % 128 by omega)]
      refine map_ok.mpr ⟨m / 128, ?_, by omega⟩
      exact ih hlo' hhi' (by omega) ha'.right

theorem decodeTail_append {m : Nat} (hlo : 128 ^ k ≤ m) (hhi : m < 128 ^ (k + 1)) (ha : Allowed a (k + 1)) :
    decodeTail (septets (k + 1) m ++ rest) a = .ok (m, k + 1) :=
  decodeSeptets_append hlo hhi (by simp; omega) ha

theorem nLength_bounds (h : nLength v = k + 2) : 128 ^ (k + 1) ≤ v.natAbs ∧ v.natAbs < 128 ^ (k + 2) := by
  have hpow : ∀ m, 128 ^ m = 2 ^ (7 * m) := fun m => by rw [pow_mul]; norm_num
  have hbits : numbits v ≤ 7 * (k + 2) ∧ 7 * (k + 1) < numbits v := by
    simp only [nLength] at h
    split at h <;> omega
  rw [hpow, hpow]
  exact ⟨Nat.lt_size.mp hbits.2, Nat.size_le.mp hbits.1⟩

theorem zLength_bounds (h : zLength v = k + 2) : 128 ^ k ≤ v.natAbs / 64 ∧ v.natAbs / 64 < 128 ^ (k + 1) := by
  have hpow : ∀ m, 128 ^ m * 64 = 2 ^ (7 * m + 6) := fun m => by rw [pow_add, pow_mul]; norm_num
  have hbits : numbits v ≤ 7 * (k + 1) + 6 ∧ 7 * k + 6 < numbits v := by
    unfold zLength at h
    omega
  rw [Nat.le_div_iff_mul_le (by norm_num), Nat.div_lt_iff_lt_mul (by norm_num), hpow, hpow]
  exact ⟨Nat.lt_size.mp hbits.2, Nat.size_le.mp hbits.1⟩

theorem decodeN_append (hv : 0 ≤ v) (ha : Allowed a (nLength v)) :
    decodeN (nBytes v ++ rest) a = .ok (v, nLength v) := by
  have habs : (v.natAbs : Int) = v := Int.natAbs_of_nonneg hv
  unfold nBytes
  obtain hone | ⟨k, hk⟩ : nLength v = 1 ∨ ∃ k, nLength v = k + 2 := by
    have hpos : 0 < nLength v := by
      simp only [nLength]
      split <;> omega
    rcases Nat.lt_or_ge (nLength v) 2 with h | h
    · exact .inl (by omega)
    · exact .inr ⟨nLength v - 2, by omega⟩
  · have hlt : v.natAbs < 128 := by
      have hbits : numbits v ≤ 7 := by
        simp only [nLength] at hone
        split at hone <;> omega
      exact Nat.size_le.mp hbits
    have hbyte : (ofNat v.natAbs).toNat = v.natAbs := by
      rw [toNat_ofNat', Nat.mod_eq_of_lt (by omega)]
    rw [hone] at ha ⊢
    refine bind_ok.mpr ⟨v.natAbs, 1, 0, ?_, ?_, rfl⟩
    · exact decodeByte_cons hbyte ha
    · simp only [if_neg (show ¬128 ≤ v.natAbs by omega), habs]
      rfl
  · obtain ⟨hlo, hhi⟩ := nLength_bounds hk
    have hbyte : (ofNat (128 + v.natAbs % 128)).toNat = 128 + v.natAbs % 128 := by
      rw [toNat_ofNat', Nat.mod_eq_of_lt (by omega)]
    rw [hk] at ha ⊢
    have ha' : Allowed a (1 + (k + 1)) := by
      rw [Nat.add_comm]
      exact ha
    refine bind_ok.mpr ⟨128 + v.natAbs % 128, 1, k + 1, ?_, ?_, by omega⟩
    · exact decodeByte_cons hbyte ha'.left
    · simp only [if_pos (show 128 ≤ 128 + v.natAbs % 128 by omega)]
      refine map_ok.mpr ⟨v.natAbs / 128, decodeTail_append ?_ ?_ ha'.right, by omega⟩
      · rw [Nat.le_div_iff_mul_le (by norm_num)]
        exact hlo
      · rw [Nat.div_lt_iff_lt_mul (by norm_num)]
        exact hhi

theorem decodeZ_append (ha : Allowed a (zLength v)) : decodeZ (zBytes v ++ rest) a = .ok (v, zLength v) := by
  obtain ⟨k, hk⟩ : ∃ k, zLength v = k + 1 := ⟨zLength v - 1, by unfold zLength; omega⟩
  let byte := (if v < 0 then 64 else 0) + (if zLength v = 1 then 0 else 128) + v.natAbs % 64
  have hlt : byte < 256 := by
    simp only [byte]
    split <;> split <;> omega
  have hlow : byte % 64 = v.natAbs % 64 := by
    simp only [byte]
    split <;> split <;> omega
  have hsign : byte / 64 % 2 = 1 ↔ v < 0 := by
    simp only [byte]
    split <;> split <;> simp_all <;> omega
  have hcont : 128 ≤ byte ↔ zLength v ≠ 1 := by
    simp only [byte]
    split <;> split <;> simp_all <;> omega
  have hbyte : (ofNat byte).toNat = byte := by
    rw [toNat_ofNat', Nat.mod_eq_of_lt (by omega)]
  have hval : ∀ m : Nat, m = v.natAbs → (if byte / 64 % 2 = 1 then -(m : Int) else m) = v := fun m hm => by
    split <;> omega
  rw [hk] at ha
  have ha' : Allowed a (1 + k) := by rwa [Nat.add_comm]
  refine bind_ok.mpr ⟨byte, 1, k, ?_, ?_, by omega⟩
  · exact decodeByte_cons hbyte ha'.left
  · simp only [hcont, hlow]
    rcases k with _ | k
    · have hone : zLength v = 1 := hk
      have hsm : v.natAbs < 64 := by
        have hbits : numbits v ≤ 6 := by
          unfold zLength at hone
          omega
        exact Nat.size_le.mp hbits
      rw [if_neg (by simp [hone]), hval _ (Nat.mod_eq_of_lt hsm)]
      rfl
    · obtain ⟨hlo, hhi⟩ := zLength_bounds hk
      rw [if_pos (by omega)]
      refine map_ok.mpr ⟨v.natAbs / 64, ?_, hval _ (by omega)⟩
      have hrest : (zBytes v ++ rest).drop 1 = septets (k + 1) (v.natAbs / 64) ++ rest := by
        simp [zBytes, hk]
      rw [hrest]
      exact decodeTail_append hlo hhi ha'.right

def NoFloat : {α : Type} → Atom α → Prop
  | _, .float => False
  | _, .rangedFloat _ _ => False
  | _, _ => True

theorem intWord_append (h : intWord kind v = .ok w) (ha : Allowed a w.length) :
    decodeInt kind (w ++ rest) a = .ok (v, w.length) := by
  obtain ⟨hv, rfl⟩ := intWord_ok.mp h
  rw [length_intBytes] at ha ⊢
  exact decodeInt_append hv ha

theorem decodeBytes_append (ha : Allowed a w.length) : decodeBytes w.length (w ++ rest) a = .ok (w, w.length) :=
  word_append rfl ha rfl

/-- An atom is read as it was written; what follows it is left, and there is nothing after an atom of
    variable length. -/
theorem decodeAtom_atomBytes {at' : Atom α} {v : α} (hflt : NoFloat at') (h : atomBytes at' v = .ok w)
    (ha : Allowed a w.length) (hrest : at'.classify = .variable → rest = []) :
    decodeAtom at' (w ++ rest) a = .ok (v, w.length) := by
  cases at' with
  | bool =>
    cases h
    have hsig : ∀ b : Bool, signed 8 (ofBE [if b then 255 else 0]) = if b then -1 else 0 := by decide
    have hint : decodeInt .int8 ([if v then 255 else 0] ++ rest) a = .ok (if v then -1 else 0, 1) :=
      word_append rfl ha (congrArg Except.ok (hsig v))
    have hbool : decodeBool ([if v then 255 else 0] ++ rest) a = .ok (v, 1) :=
      map_ok.mpr ⟨_, hint, by cases v <;> rfl⟩
    exact hbool
  | int8 | uint8 | int16 | uint16 | int31 => exact intWord_append h ha
  | int32 =>
    cases h
    simp only [decodeAtom]
    refine word_append (length_toBE 4 _) ha ?_
    rw [ofBE_toBE, Nat.mod_eq_of_lt (lt_of_lt_of_eq v.isLt (by norm_num)), BitVec.ofNat_toNat, BitVec.setWidth_eq]
  | int64 =>
    cases h
    simp only [decodeAtom]
    refine word_append (length_toBE 8 _) ha ?_
    rw [ofBE_toBE, Nat.mod_eq_of_lt (lt_of_lt_of_eq v.isLt (by norm_num)), BitVec.ofNat_toNat, BitVec.setWidth_eq]
  | n =>
    simp only [atomBytes] at h
    split at h <;> cases h
    rw [length_nBytes] at ha ⊢
    exact decodeN_append (by omega) ha
  | z =>
    cases h
    rw [length_zBytes] at ha ⊢
    exact decodeZ_append ha
  | rangedInt r =>
    obtain ⟨_, hv, h⟩ := bind_eq_ok.mp h
    rw [checkIntRange_ok] at hv
    refine check_ok.mpr ⟨_, intWord_append h ha, ?_⟩
    have hback : (if r.minimum > 0 then (if r.minimum ≥ 0 then v - r.minimum else v) + r.minimum
        else if r.minimum ≥ 0 then v - r.minimum else v) = v := by
      split <;> split <;> omega
    simp only [inRange, hback, if_pos hv]
  | rangedFloat | float => exact absurd hflt not_false
  | bytes kind | string kind =>
    cases kind with
    | fixed n pos =>
      simp only [atomBytes] at h
      split at h <;> cases h
      rename_i hlen
      obtain rfl := not_not.mp hlen
      exact decodeBytes_append ha
    | «variable» =>
      cases h
      obtain rfl := hrest rfl
      have hlen : (w ++ []).length = w.length := by simp
      simp only [decodeAtom, hlen]
      exact decodeBytes_append ha
  | stringEnum cases =>
    simp only [atomBytes] at h
    split at h
    · cases h
    · rename_i s i hfind
      refine check_ok.mpr ⟨_, intWord_append h ha, ?_⟩
      simp only [caseAt, Int.toNat_natCast, cases.getElem?_find hfind]

/-! ### Windows -/

variable {j : Nat} {p : Decoder α}

theorem decodeWindow_ok {sz : Nat} {v : α} :
    decodeWindow p sz input a = .ok (v, j) ↔ sz ≤ input.length ∧ Allowed a sz ∧
      p (input.take sz) a = .ok (v, sz) ∧ j = sz := by
  simp only [decodeWindow, bind_eq_ok, needs_ok, allows_ok, exists_const, Prod.exists, pure_eq_ok]
  constructor
  · rintro ⟨hlen, ha, v', j', hv, h⟩
    split at h
    · cases h
    · rename_i hj
      obtain rfl := not_not.mp hj
      cases h
      exact ⟨hlen, ha, hv, rfl⟩
  · rintro ⟨hlen, ha, hv, rfl⟩
    exact ⟨hlen, ha, v, j, hv, if_neg (not_not.mpr rfl)⟩

theorem decodeEnds_ok {β : Type} {q : Decoder β} {v : α × β} :
    decodeEnds n p q input a = .ok (v, j) ↔ n ≤ input.length ∧
      p (input.take (input.length - n)) a = .ok (v.1, input.length - n) ∧
      q (input.drop (input.length - n)) (spend a (input.length - n)) = .ok (v.2, n) ∧ j = input.length := by
  simp only [decodeEnds, bind_eq_ok, needs_ok, exists_const, Prod.exists]
  constructor
  · rintro ⟨hlen, v₁, k, hv₁, h⟩
    split at h
    · cases h
    · rename_i hk
      obtain rfl := not_not.mp hk
      obtain ⟨⟨v₂, k'⟩, hv₂, h⟩ := bind_eq_ok.mp h
      split at h
      · cases h
      · rename_i hk'
        obtain rfl := not_not.mp hk'
        cases h
        exact ⟨hlen, hv₁, hv₂, by omega⟩
  · rintro ⟨hlen, hv₁, hv₂, rfl⟩
    refine ⟨hlen, v.1, _, hv₁, ?_⟩
    rw [if_neg (not_not.mpr rfl)]
    refine bind_eq_ok.mpr ⟨(v.2, n), hv₂, ?_⟩
    simp only [ne_eq, not_true_eq_false, if_false, pure_eq_ok, Nat.sub_add_cancel hlen]

end Tezos.DataEncoding.Wire
