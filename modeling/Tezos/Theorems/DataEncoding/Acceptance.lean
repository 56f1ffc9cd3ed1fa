import Tezos.Theorems.DataEncoding.ReaderRefines
import Tezos.Theorems.DataEncoding.Atoms

/-! What is written from what was read. The reader takes 32-bit words where the writer has 30 or 31 bits, and lets a
    negative maximal length pass. -/

namespace Tezos.DataEncoding.Wire
open Lib List Option Parser BinarySize Writer Bool
open Reader (ofBytes ofBytes_eq_some)

variable {ι : Type → Type}

section Bounds

def sizeDesc (rec : {β : Type} → ι β → β → Nat) : {α : Type} → Encoding ι α → α → Nat
  | _, .null, _ | _, .empty, _ | _, .constant, _ | _, .ignore, _ => 0
  | _, .atom at', v => BinaryLength.atomLength at' v
  | _, .padded e n, v => sizeDesc rec e v + n
  | _, .array _ e, v => (v.toList.map (sizeDesc rec e)).sum
  | _, .list _ e, v => (v.map (sizeDesc rec e)).sum
  | _, .opt kind e, v =>
    match kind, v with
    | .dynamic, none => 1
    | .dynamic, some v => 1 + sizeDesc rec e v
    | .variable, none => 0
    | .variable, some v => sizeDesc rec e v
  | _, .objs _ l r, (v, w) | _, .tups _ l r, (v, w) => sizeDesc rec l v + sizeDesc rec r w
  | _, .union _ tagSize cases encoding, v =>
    match selectCase cases v with
    | none => 0
    | some ⟨i, _, x⟩ => BinarySize.tagSize tagSize + sizeDesc rec (encoding i) x
  | _, .conv proj _ e, v => sizeDesc rec e (proj v)
  | _, .mu _ x, v => rec x v
  | _, .dynamicSize kind e, v => integerToSize kind.toInteger + sizeDesc rec e v
  | _, .checkSize _ e, v | _, .req e, v | _, .dft e, v | _, .tup e, v | _, .describe e, v | _, .splitted e, v =>
    sizeDesc rec e v
  | _, .delayed f, v => sizeDesc rec (f ()) v

def atomInBounds : {α : Type} → Atom α → α → Bool
  | _, .int31, v => decide (-2 ^ 30 ≤ v ∧ v ≤ 2 ^ 30 - 1)
  | _, .stringEnum cases, v => (cases.find v).all fun c => decide (c.2 < 2 ^ 30)
  | _, _, _ => true

/-- The integers of a value have 31 bits, its indices and the sizes of its parts 30, and no maximal length
    is negative. -/
def inBoundsDesc (size : {β : Type} → ι β → β → Nat) (rec : {β : Type} → ι β → β → Bool) :
    {α : Type} → Encoding ι α → α → Bool
  | _, .null, _ | _, .empty, _ | _, .constant, _ | _, .ignore, _ => true
  | _, .atom at', v => atomInBounds at' v
  | _, .array maxLength e, v => maxLength.all (0 ≤ ·) && v.toList.all (inBoundsDesc size rec e)
  | _, .list maxLength e, v => maxLength.all (0 ≤ ·) && v.all (inBoundsDesc size rec e)
  | _, .opt _ e, v => v.all (inBoundsDesc size rec e)
  | _, .objs _ l r, (v, w) | _, .tups _ l r, (v, w) => inBoundsDesc size rec l v && inBoundsDesc size rec r w
  | _, .union _ _ cases encoding, v =>
    match selectCase cases v with
    | none => true
    | some ⟨i, _, x⟩ => inBoundsDesc size rec (encoding i) x
  | _, .conv proj _ e, v => inBoundsDesc size rec e (proj v)
  | _, .mu _ x, v => rec x v
  | _, .dynamicSize kind e, v =>
    decide ((sizeDesc size e v : Int) ≤ maxInt kind.toInteger) && inBoundsDesc size rec e v
  | _, .padded e _, v | _, .checkSize _ e, v | _, .req e, v | _, .dft e, v | _, .tup e, v | _, .describe e, v
  | _, .splitted e, v => inBoundsDesc size rec e v
  | _, .delayed f, v => inBoundsDesc size rec (f ()) v

variable (D : Defs ι)

def size : Nat → {α : Type} → Encoding ι α → α → Nat
  | 0, _, e => sizeDesc (fun _ _ => 0) e
  | fuel + 1, _, e => sizeDesc (fun x => size fuel (D.unfold x)) e

def inBounds : Nat → {α : Type} → Encoding ι α → α → Bool
  | 0, _, e => inBoundsDesc (fun _ _ => 0) (fun _ _ => false) e
  | fuel + 1, _, e => inBoundsDesc (fun x => size D fuel (D.unfold x)) (fun x => inBounds fuel (D.unfold x)) e

end Bounds

/-! ### What was written is in bounds -/

variable {bytes : {β : Type} → ι β → Option Int → β → Except Exn MBytes}
  {rec : {β : Type} → ι β → β → Bool} {α : Type}
  {e : Encoding ι α} {w : MBytes} {at' : Atom α}

section Written
variable {size : {β : Type} → ι β → β → Nat} {f : Option Int → α → Except Exn MBytes} {vs : List α}

theorem atomInBounds_of_atomBytes {v : α} (h : atomBytes at' v = .ok w) : atomInBounds at' v = true := by
  cases at' with
  | int31 => exact decide_eq_true (intWord_ok.mp h).1
  | stringEnum cases =>
    simp only [atomBytes] at h
    split at h
    · cases h
    · rename_i s i hfind
      have hi := (intWord_ok.mp h).1.2
      have hmax : maxInt (enumSize cases.arr.length).toInteger < 2 ^ 30 := by
        cases enumSize cases.arr.length <;> decide
      simp only [atomInBounds, hfind, all_some, decide_eq_true_eq]
      omega
  | _ => rfl

theorem nonneg_of_not_tooLong {maxLength : Option Int} {n : Nat} (h : ¬tooLong maxLength n = true) :
    maxLength.all (0 ≤ ·) = true := by
  rcases maxLength with _ | m
  · rfl
  · simp only [tooLong, decide_eq_true_eq] at h
    simp only [all_some, decide_eq_true_eq]
    omega

def Measured (f : Option Int → α → Except Exn MBytes) (len : α → Nat) (p : α → Bool) : Prop :=
  ∀ ⦃a v w⦄, f a v = .ok w → w.length = len v ∧ p v = true

theorem Measured.list {len : α → Nat} {p : α → Bool} (hf : Measured f len p) :
    Measured (encodeList f) (fun vs => (vs.map len).sum) (·.all p) := by
  intro a vs
  induction vs generalizing a with
  | nil =>
    intro w h
    cases h
    exact ⟨rfl, rfl⟩
  | cons v vs ih =>
    intro w h
    obtain ⟨w₁, w₂, hw₁, hw₂, rfl⟩ := encodeSeq_ok.mp h
    obtain ⟨hlen₁, hp₁⟩ := hf hw₁
    obtain ⟨hlen₂, hp₂⟩ := ih hw₂
    rw [length_append, hlen₁, hlen₂]
    exact ⟨rfl, (and_eq_true _ _).mpr ⟨hp₁, hp₂⟩⟩

theorem measured_desc (hwit : ∀ {β : Type} (x : ι β) (v : β), Within fun a => bytes x a v)
    (hrec : ∀ {β : Type} (x : ι β), Measured (bytes x) (size x) (rec x)) :
    Measured (encodeDesc bytes e) (sizeDesc size e) (inBoundsDesc size rec e) := by
  induction e with
  | null | empty | ignore | constant =>
    intro a v w h
    cases h
    exact ⟨rfl, rfl⟩
  | atom at' =>
    intro a v w h
    obtain ⟨hw, -⟩ := encodeAtom_ok.mp h
    exact ⟨length_atomBytes hw, atomInBounds_of_atomBytes hw⟩
  | padded e n ih =>
    intro a v w h
    obtain ⟨w₁, w₂, hw₁, hw₂, rfl⟩ := encodeSeq_ok.mp h
    obtain ⟨hlen, hboun⟩ := ih hw₁
    rw [length_append, hlen, ← emit_eq_ok hw₂, length_replicate]
    exact ⟨rfl, hboun⟩
  | array maxLength e ih | list maxLength e ih =>
    intro a v w h
    simp only [encodeDesc] at h
    split at h
    · cases h
    · rename_i hlong
      obtain ⟨hlen, hboun⟩ := ih.list h
      simp only [inBoundsDesc, nonneg_of_not_tooLong hlong, Bool.true_and]
      exact ⟨hlen, hboun⟩
  | req e ih | dft e ih | tup e ih | describe e ih | splitted e ih => exact ih
  | opt kind e ih =>
    intro a v w h
    cases kind with
    | dynamic =>
      rcases v with _ | v
      · rw [← emit_eq_ok h]
        exact ⟨rfl, rfl⟩
      · obtain ⟨w₁, w₂, hw₁, hw₂, rfl⟩ := encodeSeq_ok.mp h
        obtain ⟨hlen, hboun⟩ := ih hw₂
        rw [length_append, hlen, ← emit_eq_ok hw₁]
        exact ⟨rfl, hboun⟩
    | «variable» =>
      rcases v with _ | v
      · cases h
        exact ⟨rfl, rfl⟩
      · exact ih h
  | mu kind x => exact hrec x
  | objs kind left right ihl ihr | tups kind left right ihl ihr =>
    intro a v w h
    obtain ⟨w₁, w₂, hw₁, hw₂, rfl⟩ := encodeSeq_ok.mp h
    obtain ⟨hlen₁, hboun₁⟩ := ihl hw₁
    obtain ⟨hlen₂, hboun₂⟩ := ihr hw₂
    rw [length_append, hlen₁, hlen₂]
    exact ⟨rfl, (and_eq_true _ _).mpr ⟨hboun₁, hboun₂⟩⟩
  | union kind tagSize cases encoding ih =>
    intro a v w h
    simp only [encodeDesc] at h
    split at h
    · cases h
    · rename_i i tag x hsel
      obtain ⟨w₁, w₂, hw₁, hw₂, rfl⟩ := encodeSeq_ok.mp h
      obtain ⟨hlen, hboun⟩ := ih i hw₂
      simp only [sizeDesc, inBoundsDesc, hsel]
      rw [length_append, hlen, ← emit_eq_ok (encodeInt_ok.mp hw₁).2, length_intBytes, integerToSize_tag]
      exact ⟨rfl, hboun⟩
  | conv proj inj e ih | checkSize limit e ih =>
    intro a v w h
    exact ih h
  | dynamicSize kind e ih =>
    intro a v w h
    simp only [encodeDesc, bind_eq_ok, pure_eq_ok, Except.ok.injEq] at h
    obtain ⟨_, -, w₁, hw₁, rfl⟩ := h
    have hmax : 0 ≤ maxInt kind.toInteger := by cases kind <;> decide
    have hle := (within_desc hwit e v).le_limit hmax hw₁
    obtain ⟨hlen, hboun⟩ := ih hw₁
    rw [hlen] at hle
    rw [length_append, length_intBytes, hlen]
    simp only [inBoundsDesc, hboun, Bool.and_true]
    exact ⟨rfl, decide_eq_true hle⟩
  | delayed f ih => exact ih ()

end Written

variable {a : Option Int} {input : MBytes} {k n : Nat} {v : Int}
  {kind : Integer} {c : UInt8}

theorem measured_encode (D : Defs ι) (fuel : Nat) (e : Encoding ι α) :
    Measured (encode D fuel e) (size D fuel e) (inBounds D fuel e) := by
  induction fuel generalizing α with
  | zero => exact measured_desc (fun _ _ _ _ h => by cases h) fun _ _ _ _ h => by cases h
  | succ fuel ih => exact measured_desc (fun x v => within_encode D fuel (D.unfold x) v) fun x => ih (D.unfold x)

/-! ### Atoms that were read -/

theorem Allowed.add {k' : Nat} (h : Allowed a k) (h' : Allowed (spend a k) k') : Allowed a (k + k') :=
  fun y hy => by
    subst hy
    have := h' (y - k) rfl
    omega

theorem decodeByte_ok (h : decodeByte input a = .ok (n, k)) :
    (∃ c rest, input = c :: rest ∧ n = c.toNat) ∧ k = 1 ∧ Allowed a 1 := by
  obtain ⟨hlen, ha, hn, rfl⟩ := word_ok.mp h
  rcases input with _ | ⟨c, rest⟩
  · exact absurd hlen (Nat.not_succ_le_zero 0)
  · cases hn
    exact ⟨⟨c, rest, rfl, by simp [ofBE]⟩, rfl, ha⟩

theorem septets_cons (hc : 128 ≤ c.toNat) (k m : Nat) :
    septets (k + 2) (c.toNat - 128 + 128 * m) = c :: septets (k + 1) m := by
  have hlt := c.toNat_lt
  rw [septets, show 128 + (c.toNat - 128 + 128 * m) % 128 = c.toNat by omega,
    show (c.toNat - 128 + 128 * m) / 128 = m by omega, UInt8.ofNat_toNat]

theorem decodeSeptets_ok {rounds : Nat} : ∀ {input : MBytes} {a : Option Int} {m k : Nat},
    decodeSeptets rounds input a = .ok (m, k) →
      ∃ j, k = j + 1 ∧ 128 ^ j ≤ m ∧ m < 128 ^ (j + 1) ∧ Allowed a k ∧ input.take k = septets k m := by
  induction rounds with
  | zero =>
    intro input a m k h
    cases h
  | succ rounds ih =>
    intro input a m k h
    obtain ⟨byte, k₁, k₂, hbyte, hrest, rfl⟩ := bind_ok.mp h
    obtain ⟨⟨c, rest, rfl, rfl⟩, rfl, ha⟩ := decodeByte_ok hbyte
    have hlt := c.toNat_lt
    split at hrest
    · rename_i hcont
      obtain ⟨m', hm', rfl⟩ := map_ok.mp hrest
      obtain ⟨j, rfl, hlo, hhi, ha', htake⟩ := ih hm'
      refine ⟨j + 1, by omega, ?_, ?_, ha.add ha', ?_⟩
      · omega
      · omega
      · rw [Nat.add_comm 1, septets_cons hcont, ← htake]
        rfl
    · split at hrest
      · cases hrest
      · cases hrest
        exact ⟨0, rfl, by omega, by omega, ha, by simp [septets]⟩

theorem nLength_eq (hlo : 128 ^ (k + 1) ≤ v.natAbs) (hhi : v.natAbs < 128 ^ (k + 2)) : nLength v = k + 2 := by
  have hpow : ∀ m, 128 ^ m = 2 ^ (7 * m) := fun m => by rw [pow_mul]; norm_num
  rw [hpow] at hlo hhi
  have hbits : numbits v ≤ 7 * (k + 2) ∧ 7 * (k + 1) < numbits v := ⟨Nat.size_le.mpr hhi, Nat.lt_size.mpr hlo⟩
  simp only [nLength]
  split <;> omega

theorem nLength_small (h : v.natAbs < 128) : nLength v = 1 := by
  have hbits : numbits v ≤ 7 := Nat.size_le.mpr h
  simp only [nLength]
  split <;> omega

theorem zLength_eq (hlo : 128 ^ k ≤ v.natAbs / 64) (hhi : v.natAbs / 64 < 128 ^ (k + 1)) : zLength v = k + 2 := by
  have hpow : ∀ m, 128 ^ m * 64 = 2 ^ (7 * m + 6) := fun m => by rw [pow_add, pow_mul]; norm_num
  rw [Nat.le_div_iff_mul_le (by norm_num), hpow] at hlo
  rw [Nat.div_lt_iff_lt_mul (by norm_num), hpow] at hhi
  have hbits : numbits v ≤ 7 * (k + 1) + 6 ∧ 7 * k + 6 < numbits v := ⟨Nat.size_le.mpr hhi, Nat.lt_size.mpr hlo⟩
  unfold zLength
  omega

theorem zLength_small (h : v.natAbs < 64) : zLength v = 1 := by
  have hbits : numbits v ≤ 6 := Nat.size_le.mpr h
  unfold zLength
  omega

theorem decodeN_ok (h : decodeN input a = .ok (v, k)) :
    0 ≤ v ∧ nLength v = k ∧ Allowed a k ∧ input.take k = nBytes v := by
  obtain ⟨byte, k₁, k₂, hbyte, hrest, rfl⟩ := bind_ok.mp h
  obtain ⟨⟨c, rest, rfl, rfl⟩, rfl, ha⟩ := decodeByte_ok hbyte
  have hlt := c.toNat_lt
  split at hrest
  · rename_i hcont
    obtain ⟨m, hm, rfl⟩ := map_ok.mp hrest
    obtain ⟨j, rfl, hlo, hhi, ha', htake⟩ := decodeSeptets_ok hm
    have hlen : nLength ((c.toNat - 128 + 128 * m : Nat) : Int) = j + 2 := by
      refine nLength_eq ?_ ?_
      · omega
      · rw [pow_succ]
        omega
    refine ⟨Int.natCast_nonneg _, by rw [hlen, Nat.add_comm 1], ha.add ha', ?_⟩
    rw [nBytes, hlen, Int.natAbs_natCast, septets_cons hcont, ← htake, Nat.add_comm 1]
    rfl
  · cases hrest
    have hlen : nLength (c.toNat : Int) = 1 := nLength_small (by omega)
    exact ⟨Int.natCast_nonneg _, hlen, ha, by simp [nBytes, hlen, septets]⟩

theorem zBytes_eq (hlen : zLength v = k + 1) (hlow : v.natAbs % 64 = c.toNat % 64)
    (hcont : 128 ≤ c.toNat ↔ k ≠ 0) (hneg : v < 0 ↔ c.toNat / 64 % 2 = 1) :
    zBytes v = c :: septets k (v.natAbs / 64) := by
  have hlt := c.toNat_lt
  have hfst : (if v < 0 then 64 else 0) + (if zLength v = 1 then 0 else 128) + v.natAbs % 64 = c.toNat := by
    split <;> split <;> omega
  rw [zBytes, hfst, UInt8.ofNat_toNat, hlen, Nat.add_sub_cancel]

/-- A number that was read is written as what it was read from, unless that is the byte of the negative zero. -/
theorem decodeZ_ok (h : decodeZ input a = .ok (v, k)) :
    zLength v = k ∧ Allowed a k ∧ (input.take k ≠ [64] → input.take k = zBytes v) := by
  obtain ⟨byte, k₁, k₂, hbyte, hrest, rfl⟩ := bind_ok.mp h
  obtain ⟨⟨c, rest, rfl, rfl⟩, rfl, ha⟩ := decodeByte_ok hbyte
  have hsign : ∀ n : Nat, (if c.toNat / 64 % 2 = 1 then -(n : Int) else n).natAbs = n := fun n => by
    split
    · rw [Int.natAbs_neg, Int.natAbs_natCast]
    · exact Int.natAbs_natCast n
  have hneg : ∀ n : Nat, 0 < n → ((if c.toNat / 64 % 2 = 1 then -(n : Int) else n) < 0 ↔ c.toNat / 64 % 2 = 1) :=
    fun n hn => by split <;> omega
  have hmod : c.toNat % 64 < 64 := Nat.mod_lt _ (by norm_num)
  split at hrest
  · rename_i hcont
    obtain ⟨m, hm, rfl⟩ := map_ok.mp hrest
    obtain ⟨j, rfl, hlo, hhi, ha', htake⟩ := decodeSeptets_ok hm
    have hdiv : (c.toNat % 64 + 64 * m) / 64 = m := by omega
    have hlen := zLength_eq (k := j) (by rwa [hsign, hdiv]) (by rwa [hsign, hdiv])
    have hbyt := zBytes_eq hlen (by omega) (iff_of_true hcont (Nat.succ_ne_zero j)) (hneg _ (by omega))
    rw [hsign, hdiv, ← htake] at hbyt
    refine ⟨by rw [hlen, Nat.add_comm 1], ha.add ha', fun _ => ?_⟩
    rw [Nat.add_comm 1]
    exact hbyt.symm
  · rename_i hcont
    cases hrest
    have hlen := zLength_small (by rwa [hsign])
    refine ⟨hlen, ha, fun hne => ?_⟩
    have hc : c.toNat ≠ 64 := fun hc => hne (by rw [← UInt8.ofNat_toNat (x := c), hc]; rfl)
    refine (zBytes_eq hlen (by omega) (iff_of_false hcont (not_not.mpr rfl)) ?_).symm
    by_cases hzero : c.toNat % 64 = 0
    · omega
    · exact hneg _ (Nat.pos_of_ne_zero hzero)

theorem decodeInt_ok (h : decodeInt kind input a = .ok (v, k)) :
    k = integerToSize kind ∧ Allowed a k ∧ ∃ w, w.length = k ∧ intOfBytes kind w = .ok v := by
  obtain ⟨hlen, ha, hv, rfl⟩ := word_ok.mp h
  exact ⟨rfl, ha, _, length_take_of_le hlen, hv⟩

theorem intOfBytes_range (hlen : w.length = integerToSize kind) (h : intOfBytes kind w = .ok v)
    (h31 : kind ≠ .int31) (h30 : kind ≠ .uint30) : minInt kind ≤ v ∧ v ≤ maxInt kind := by
  have hlt := ofBE_lt w
  rw [hlen] at hlt
  cases kind with
  | int31 => exact absurd rfl h31
  | uint30 => exact absurd rfl h30
  | int8 =>
    obtain rfl := Except.ok.inj h
    exact ⟨(signed_range 7 _).1, Int.le_sub_one_of_lt (signed_range 7 _).2⟩
  | int16 =>
    obtain rfl := Except.ok.inj h
    exact ⟨(signed_range 15 _).1, Int.le_sub_one_of_lt (signed_range 15 _).2⟩
  | uint8 | uint16 =>
    obtain rfl := Except.ok.inj h
    simp only [integerToSize, uint8, uint16, minInt, maxInt] at hlt ⊢
    omega

theorem intWord_of_range (h : minInt kind ≤ v ∧ v ≤ maxInt kind) :
    ∃ w, intWord kind v = .ok w ∧ w.length = integerToSize kind :=
  ⟨_, intWord_ok.mpr ⟨h, rfl⟩, length_intBytes kind v⟩

theorem inRange_ok {minimum maximum n : Int} (h : inRange minimum maximum n = .ok v) : minimum ≤ v ∧ v ≤ maximum := by
  simp only [inRange] at h
  generalize (if minimum > 0 then n + minimum else n) = m at h
  by_cases hm : minimum ≤ m ∧ m ≤ maximum
  · rw [if_pos hm] at h
    cases h
    exact hm
  · rw [if_neg hm] at h
    cases h

theorem rangeToSize_holds {r : IntRange} (h : r.minimum ≤ v ∧ v ≤ r.maximum) :
    minInt (rangeToSize r.minimum r.maximum) ≤ (if r.minimum ≥ 0 then v - r.minimum else v) ∧
      (if r.minimum ≥ 0 then v - r.minimum else v) ≤ maxInt (rangeToSize r.minimum r.maximum) := by
  have hlower := r.lower
  have hupp := r.upper
  simp only [rangeToSize]
  split
  · simp only [signedRangeToSize]
    split
    · simp only [minInt, maxInt]
      omega
    · split <;> simp only [minInt, maxInt] <;> omega
  · simp only [unsignedRangeToSize]
    split
    · simp only [UnsignedInteger.toInteger, minInt, maxInt]
      omega
    · split <;> simp only [UnsignedInteger.toInteger, minInt, maxInt] <;> omega

theorem enumSize_holds {i : Nat} (hi : i < n) (hbnd : i < 2 ^ 30) :
    minInt (enumSize n).toInteger ≤ i ∧ (i : Int) ≤ maxInt (enumSize n).toInteger := by
  simp only [enumSize, unsignedRangeToSize]
  split
  · simp only [UnsignedInteger.toInteger, minInt, maxInt]
    omega
  · split <;> simp only [UnsignedInteger.toInteger, minInt, maxInt] <;> omega

theorem atomBytes_of_decodeAtom (hflt : NoFloat at') {v : α} (h : decodeAtom at' input a = .ok (v, k))
    (hboun : atomInBounds at' v = true) : ∃ w, atomBytes at' v = .ok w ∧ w.length = k ∧ Allowed a k := by
  have hint : ∀ {kind : Integer} {v : Int}, decodeInt kind input a = .ok (v, k) →
      (∀ {w}, w.length = integerToSize kind → intOfBytes kind w = .ok v →
        minInt kind ≤ v ∧ v ≤ maxInt kind) →
      ∃ w, intWord kind v = .ok w ∧ w.length = k ∧ Allowed a k := fun h hrng => by
    obtain ⟨rfl, ha, w₀, hw₀, hv⟩ := decodeInt_ok h
    obtain ⟨w, hw, hlen⟩ := intWord_of_range (hrng hw₀ hv)
    exact ⟨w, hw, hlen, ha⟩
  cases at' with
  | bool =>
    simp only [decodeAtom, decodeBool] at h
    obtain ⟨n, hn, rfl⟩ := map_ok.mp h
    obtain ⟨rfl, ha, -⟩ := decodeInt_ok hn
    exact ⟨_, rfl, rfl, ha⟩
  | int8 | uint8 | int16 | uint16 => exact hint h fun hlen hv => intOfBytes_range hlen hv (by simp) (by simp)
  | int31 => exact hint h fun _ _ => of_decide_eq_true hboun
  | int32 | int64 =>
    simp only [decodeAtom] at h
    obtain ⟨-, ha, -, rfl⟩ := word_ok.mp h
    exact ⟨_, rfl, length_toBE _ _, ha⟩
  | n =>
    obtain ⟨hv, hlen, ha, -⟩ := decodeN_ok h
    exact ⟨nBytes v, if_neg (by omega), hlen ▸ length_nBytes v, ha⟩
  | z =>
    obtain ⟨hlen, ha, -⟩ := decodeZ_ok h
    exact ⟨zBytes v, rfl, hlen ▸ length_zBytes v, ha⟩
  | rangedInt r =>
    obtain ⟨n, hn, hv⟩ := check_ok.mp h
    obtain ⟨rfl, ha, -⟩ := decodeInt_ok hn
    have hrng := inRange_ok hv
    obtain ⟨w, hw, hlen⟩ := intWord_of_range (rangeToSize_holds hrng)
    exact ⟨w, bind_eq_ok.mpr ⟨(), checkIntRange_ok.mpr hrng, hw⟩, hlen, ha⟩
  | rangedFloat | float => exact absurd hflt not_false
  | bytes kind | string kind =>
    cases kind with
    | fixed n pos =>
      obtain ⟨hlen, ha, hv, rfl⟩ := word_ok.mp h
      cases hv
      have hlen := length_take_of_le hlen
      exact ⟨_, if_neg (not_not.mpr hlen), hlen, ha⟩
    | «variable» =>
      obtain ⟨hlen, ha, hv, rfl⟩ := word_ok.mp h
      cases hv
      exact ⟨_, rfl, length_take_of_le hlen, ha⟩
  | stringEnum cases =>
    obtain ⟨n, hn, hv⟩ := check_ok.mp h
    obtain ⟨rfl, ha, -⟩ := decodeInt_ok hn
    have hmem : v ∈ cases.arr := by
      simp only [caseAt] at hv
      split at hv <;> cases hv
      exact mem_of_getElem? (by assumption)
    obtain ⟨⟨s, i⟩, hfind⟩ := isSome_iff_exists.mp (cases.find_isSome hmem)
    obtain ⟨hi, -⟩ := List.getElem?_eq_some_iff.mp (cases.getElem?_find hfind)
    have hbnd : i < 2 ^ 30 := by
      simp only [atomInBounds, hfind, all_some, decide_eq_true_eq] at hboun
      exact hboun
    obtain ⟨w, hw, hlen⟩ := intWord_of_range (enumSize_holds hi hbnd)
    exact ⟨w, by simp only [atomBytes, hfind, hw], hlen, ha⟩

/-! ### What was read is written -/

/-- What a decoder reads and is in bounds is written, under the same budget, as the same number of bytes. -/
def Rewrites {α : Type} (dec : Decoder α) (enc : Option Int → α → Except Exn MBytes) (bounds : α → Bool) : Prop :=
  ∀ ⦃input : MBytes⦄ ⦃a : Option Int⦄ ⦃v : α⦄ ⦃k : Nat⦄, dec input a = .ok (v, k) → bounds v = true →
    ∃ w, enc a v = .ok w ∧ w.length = k

section Parts
variable {β : Type} {dec : Decoder α} {enc : Option Int → α → Except Exn MBytes} {bounds : α → Bool}

variable {bounds' : β → Bool} {dec' : Decoder β} {enc' : Option Int → β → Except Exn MBytes}

theorem emit_of_allowed {w : MBytes} (h : Allowed a w.length) : emit a w = .ok w :=
  emit_ok.mpr ⟨rfl, h⟩

theorem Rewrites.seq (h : Rewrites dec enc bounds) (h' : Rewrites dec' enc' bounds') :
    Rewrites (decodeSeq dec dec') (fun a v => encodeSeq (fun a => enc a v.1) (fun a => enc' a v.2) a)
      (fun v => bounds v.1 && bounds' v.2) := by
  intro input a v k hread hboun
  obtain ⟨v₁, k₁, k₂, hv₁, hrest, rfl⟩ := bind_ok.mp hread
  obtain ⟨v₂, hv₂, rfl⟩ := map_ok.mp hrest
  obtain ⟨hb₁, hb₂⟩ := (and_eq_true _ _).mp hboun
  obtain ⟨w₁, hw₁, rfl⟩ := h hv₁ hb₁
  obtain ⟨w₂, hw₂, rfl⟩ := h' hv₂ hb₂
  exact ⟨w₁ ++ w₂, encodeSeq_ok.mpr ⟨w₁, w₂, hw₁, hw₂, rfl⟩, length_append⟩

theorem Rewrites.ends {n : Nat} (h : Rewrites dec enc bounds) (h' : Rewrites dec' enc' bounds') :
    Rewrites (decodeEnds n dec dec') (fun a v => encodeSeq (fun a => enc a v.1) (fun a => enc' a v.2) a)
      (fun v => bounds v.1 && bounds' v.2) := by
  intro input a v k hread hboun
  obtain ⟨hlen, hv₁, hv₂, rfl⟩ := decodeEnds_ok.mp hread
  obtain ⟨hb₁, hb₂⟩ := (and_eq_true _ _).mp hboun
  obtain ⟨w₁, hw₁, hlen₁⟩ := h hv₁ hb₁
  obtain ⟨w₂, hw₂, hlen₂⟩ := h' hv₂ hb₂
  rw [← hlen₁] at hw₂
  refine ⟨w₁ ++ w₂, encodeSeq_ok.mpr ⟨w₁, w₂, hw₁, hw₂, rfl⟩, ?_⟩
  rw [length_append, hlen₁, hlen₂, Nat.sub_add_cancel hlen]

theorem Rewrites.pair (kind leftKind rightKind : Kind) (h : Rewrites dec enc bounds) (h' : Rewrites dec' enc' bounds') :
    Rewrites (decodePair kind leftKind rightKind dec dec')
      (fun a v => encodeSeq (fun a => enc a v.1) (fun a => enc' a v.2) a) (fun v => bounds v.1 && bounds' v.2) := by
  unfold decodePair
  split
  · intro input a v k hread hboun
    obtain ⟨_, -, hread⟩ := bind_eq_ok.mp hread
    exact h.seq h' hread hboun
  · exact h.seq h'
  · split
    · exact h.seq h'
    · exact h.seq h'
    · exact h.ends h'
    · intro input a v k hread
      cases hread

theorem Allowed.covers_limit {k : Nat} {l : Int} (h : Allowed a k) (hl : (k : Int) ≤ l) :
    Covers a (limitTo a l) k := fun y hy => by
  refine .inl ?_
  rcases a with _ | x
  · cases hy
    exact hl
  · cases hy
    exact le_min (h x rfl) hl

theorem Rewrites.list (h : Rewrites dec enc bounds) {error : ReadError} {rounds : Nat} :
    ∀ {maxLength : Option Int} {input : MBytes} {a : Option Int} {vs : List α} {k : Nat},
      decodeList error dec rounds maxLength input a = .ok (vs, k) → maxLength.all (0 ≤ ·) = true →
        vs.all bounds = true →
        tooLong maxLength vs.length = false ∧ ∃ w, encodeList enc a vs = .ok w ∧ w.length = k := by
  induction rounds with
  | zero =>
    intro maxLength input a vs k hread
    cases hread
  | succ rounds ih =>
    intro maxLength input a vs k hread hmax hboun
    simp only [decodeList, ifEmpty] at hread
    split at hread
    · cases hread
      refine ⟨?_, [], rfl, rfl⟩
      rcases maxLength with _ | m
      · rfl
      · simpa [tooLong] using hmax
    · split at hread
      · cases hread
      · rename_i hzero
        obtain ⟨v, k₁, k₂, hv, hrest, rfl⟩ := bind_ok.mp hread
        obtain ⟨vs, hvs, rfl⟩ := map_ok.mp hrest
        rw [all_cons, and_eq_true] at hboun
        obtain ⟨w₁, hw₁, rfl⟩ := h hv hboun.1
        have hmax' : (maxLength.map (· - 1)).all (0 ≤ ·) = true := by
          rcases maxLength with _ | m
          · rfl
          · have hm : 0 ≤ m := by simpa using hmax
            have hne : m ≠ 0 := fun hm => hzero (congrArg some hm)
            simp only [map_some, all_some, decide_eq_true_eq]
            omega
        obtain ⟨hlong, w₂, hw₂, rfl⟩ := ih hvs hmax' hboun.2
        refine ⟨?_, w₁ ++ w₂, encodeSeq_ok.mpr ⟨w₁, w₂, hw₁, hw₂, rfl⟩, length_append⟩
        rcases maxLength with _ | m
        · rfl
        · simp only [tooLong, map_some, length_cons, decide_eq_false_iff_not] at hlong ⊢
          omega

end Parts

/-- The functions of a conversion are inverse, and so are those of a union: the case selected for an injected
    value is the one it was injected by. There are no floats. -/
def Invertible {ι : Type → Type} : {α : Type} → Encoding ι α → Prop
  | _, .atom at' => NoFloat at'
  | _, .conv proj inj _ => ∀ x, proj (inj x) = x
  | _, .union _ _ cases _ => ∀ i tag x, (cases i).tag = .tag tag →
    selectCase cases ((cases i).inj x) = some ⟨i, tag, x⟩
  | _, _ => True

section Desc
variable {dec : {β : Type} → ι β → Decoder β} {size : {β : Type} → ι β → β → Nat}

theorem rewrites_desc (hext : ∀ {β : Type} (x : ι β) (v : β), Extends fun a => bytes x a v)
    (hwit : ∀ {β : Type} (x : ι β) (v : β), Within fun a => bytes x a v)
    (hmeas : ∀ {β : Type} (x : ι β), Measured (bytes x) (size x) (rec x))
    (hrec : ∀ {β : Type} (x : ι β), Rewrites (dec x) (bytes x) (rec x)) {α : Type} {e : Encoding ι α}
    (he : e.Everywhere Invertible) : Rewrites (decodeDesc dec e) (encodeDesc bytes e) (inBoundsDesc size rec e) := by
  induction e with
  | null | empty | ignore | constant =>
    intro input a v k hread _
    cases hread
    exact ⟨[], rfl, rfl⟩
  | atom at' =>
    intro input a v k hread hboun
    obtain ⟨w, hw, rfl, ha⟩ := atomBytes_of_decodeAtom he hread hboun
    exact ⟨w, encodeAtom_ok.mpr ⟨hw, emit_of_allowed ha⟩, rfl⟩
  | padded e n ih =>
    intro input a v k hread hboun
    obtain ⟨v₁, k₁, k₂, hv₁, hrest, rfl⟩ := bind_ok.mp hread
    obtain ⟨_, hpad, rfl⟩ := map_ok.mp hrest
    obtain ⟨-, ha, -, rfl⟩ := word_ok.mp hpad
    obtain ⟨w₁, hw₁, rfl⟩ := ih he.2 hv₁ hboun
    have hemit : emit (spend a w₁.length) (replicate k₂ 0) = .ok (replicate k₂ 0) :=
      emit_of_allowed (by rwa [length_replicate])
    refine ⟨w₁ ++ replicate k₂ 0, encodeSeq_ok.mpr ⟨w₁, _, hw₁, hemit, rfl⟩, ?_⟩
    rw [length_append, length_replicate]
  | array maxLength e ih =>
    intro input a v k hread hboun
    obtain ⟨vs, hvs, rfl⟩ := map_ok.mp hread
    simp only [inBoundsDesc, and_eq_true] at hboun
    obtain ⟨hlong, w, hw, rfl⟩ := (ih he.2).list hvs hboun.1 hboun.2
    refine ⟨w, ?_, rfl⟩
    simp only [encodeDesc, List.size_toArray, hlong, false_eq_true, if_false]
    exact hw
  | list maxLength e ih =>
    intro input a v k hread hboun
    simp only [inBoundsDesc, and_eq_true] at hboun
    obtain ⟨hlong, w, hw, rfl⟩ := (ih he.2).list hread hboun.1 hboun.2
    refine ⟨w, ?_, rfl⟩
    simp only [encodeDesc, hlong, false_eq_true, if_false]
    exact hw
  | req e ih | dft e ih | tup e ih | describe e ih | splitted e ih => exact ih he.2
  | opt kind e ih =>
    intro input a v k hread hboun
    cases kind with
    | dynamic =>
      obtain ⟨present, k₁, k₂, hflag, hrest, rfl⟩ := bind_ok.mp hread
      obtain ⟨n, hn, rfl⟩ := map_ok.mp hflag
      obtain ⟨rfl, ha, -⟩ := decodeInt_ok hn
      split at hrest
      · obtain ⟨x, hx, rfl⟩ := map_ok.mp hrest
        obtain ⟨w₂, hw₂, rfl⟩ := ih he.2 hx hboun
        have hemit : emit a [255] = .ok [255] := emit_of_allowed ha
        exact ⟨[255] ++ w₂, encodeSeq_ok.mpr ⟨[255], w₂, hemit, hw₂, rfl⟩, length_append⟩
      · cases hrest
        exact ⟨[0], emit_of_allowed ha, rfl⟩
    | «variable» =>
      simp only [decodeDesc, ifEmpty] at hread
      split at hread
      · cases hread
        exact ⟨[], rfl, rfl⟩
      · obtain ⟨x, hx, rfl⟩ := map_ok.mp hread
        exact ih he.2 hx hboun
  | mu kind x => exact hrec x
  | objs kind left right ihl ihr | tups kind left right ihl ihr =>
    intro input a v k hread hboun
    exact Rewrites.pair kind left.classify right.classify (ihl he.2.1) (ihr he.2.2) hread hboun
  | union kind tagSize cases encoding ih =>
    intro input a v k hread hboun
    simp only [decodeDesc] at hread
    obtain ⟨tag, k₁, k₂, htag, hrest, rfl⟩ := bind_ok.mp hread
    obtain ⟨rfl, ha, w₀, hw₀, hint⟩ := decodeInt_ok htag
    rcases hfind : findTag cases tag with _ | i
    · simp only [hfind] at hrest
      cases hrest
    · simp only [hfind] at hrest
      obtain ⟨x, hx, rfl⟩ := map_ok.mp hrest
      have hsel := he.1 i tag x (findTag_some hfind)
      simp only [inBoundsDesc, hsel] at hboun
      obtain ⟨w₂, hw₂, rfl⟩ := ih i (he.2 i) hx hboun
      have hrng := intOfBytes_range hw₀ hint (by cases tagSize <;> simp [TagSize.toInteger])
        (by cases tagSize <;> simp [TagSize.toInteger])
      rw [← length_intBytes _ tag] at ha hw₂ ⊢
      have hw₁ := encodeInt_ok.mpr ⟨hrng, emit_of_allowed ha⟩
      simp only [encodeDesc, hsel]
      exact ⟨_, encodeSeq_ok.mpr ⟨_, w₂, hw₁, hw₂, rfl⟩, length_append⟩
  | conv proj inj e ih =>
    intro input a v k hread hboun
    obtain ⟨x, hx, rfl⟩ := map_ok.mp hread
    simp only [inBoundsDesc, encodeDesc, he.1 x] at hboun ⊢
    exact ih he.2 hx hboun
  | dynamicSize kind e ih =>
    intro input a v k hread hboun
    obtain ⟨sz, k₁, k₂, hsz, hrest, rfl⟩ := bind_ok.mp hread
    obtain ⟨rfl, ha, -⟩ := decodeInt_ok hsz
    obtain ⟨-, hall, hv, hk₂⟩ := decodeWindow_ok.mp hrest
    rw [← hk₂] at hall hv
    simp only [inBoundsDesc, and_eq_true, decide_eq_true_eq] at hboun
    obtain ⟨w₁, hw₁, rfl⟩ := ih he.2 hv hboun.2
    rw [← (measured_desc hwit hmeas hw₁).1] at hboun
    have hlim := extends_desc hext e v hw₁ (hall.covers_limit hboun.1)
    have hemit : emit a (intBytes kind.toInteger 0) = .ok (intBytes kind.toInteger 0) :=
      emit_of_allowed (by rwa [length_intBytes])
    refine ⟨intBytes kind.toInteger w₁.length ++ w₁, ?_, by rw [length_append, length_intBytes]⟩
    simp only [encodeDesc, hemit, ok_bind]
    exact bind_eq_ok.mpr ⟨w₁, hlim, rfl⟩
  | checkSize limit e ih => exact fun input a v k hread hboun => ih he.2 hread hboun
  | delayed f ih => exact ih () he.2

end Desc

section Encode
variable {D : Defs ι}

theorem rewrites_decode (hD : D.Everywhere Invertible) (fuel : Nat) {α : Type}
    {e : Encoding ι α} (he : e.Everywhere Invertible) :
    Rewrites (decode D fuel e) (encode D fuel e) (inBounds D fuel e) := by
  induction fuel generalizing α with
  | zero =>
    exact rewrites_desc (fun _ _ _ _ _ h => by cases h) (fun _ _ _ _ h => by cases h) (fun _ _ _ _ h => by cases h)
      (fun _ _ _ _ _ h => by cases h) he
  | succ fuel ih =>
    exact rewrites_desc (fun x v => extends_encode D fuel (D.unfold x) v)
      (fun x v => within_encode D fuel (D.unfold x) v) (fun x => measured_encode D fuel (D.unfold x))
      (fun x => ih (hD x)) he

/-- What was read can be written if and only if its integers, indices and sizes are in the bounds of the
    writer, which the reader does not check. -/
theorem toBytes_of_ofBytes_iff (hD : ∀ {β : Type} (x : ι β), (D.unfold x).Everywhere Invertible) {α : Type}
    {e : Encoding ι α} (he : e.WellFormed D) (hinv : e.Everywhere Invertible) {fuel : Nat} {b : MBytes} {v : α}
    (h : ofBytes D fuel e b = .ok (some v)) (junk : Nat → UInt8) :
    (∃ fuel' b', toBytes junk D fuel' e v = .ok (some b')) ↔
      ∃ fuel', fuel ≤ fuel' ∧ inBounds D fuel' e v = true := by
  have hread := ofBytes_eq_some.mp h
  constructor
  · rintro ⟨fuel', b', hwrt⟩
    refine ⟨max fuel fuel', le_max_left _ _, ?_⟩
    have hw := (toBytes_eq_some he).mp hwrt
    exact (measured_encode D _ e ((below_encode D (le_max_right fuel fuel') e _ v).eq_of_ok hw)).2
  · rintro ⟨fuel', hle, hboun⟩
    obtain ⟨w, hw, -⟩ := rewrites_decode hD fuel' hinv ((below_decode D hle e b none).eq_of_ok hread) hboun
    exact ⟨fuel', w, toBytes_of_encode he hw junk⟩

end Encode

theorem toBytes_of_ofBytes_iff_int31 :
    let e : Encoding (fun _ => Empty) Int := .dynamicSize .uint30 (.atom .int31)
    ofBytes .none 0 e [0, 0, 0, 4, 0, 0, 1, 2] = .ok (some 258) ∧
      ∃ fuel b, toBytes (fun _ => 0) .none fuel e 258 = .ok (some b) := by
  intro e
  have he : e.WellFormed .none := ⟨trivial, trivial⟩
  have hinv : e.Everywhere Invertible := ⟨trivial, trivial⟩
  have hread : ofBytes .none 0 e [0, 0, 0, 4, 0, 0, 1, 2] = .ok (some 258) := rfl
  exact ⟨hread, (toBytes_of_ofBytes_iff (fun x => x.elim) he hinv hread _).mpr ⟨0, le_refl 0, rfl⟩⟩

/-- The reader takes any signed 32-bit word for an integer of 31 bits. -/
theorem toBytes_of_ofBytes_overflow :
    let e : Encoding (fun _ => Empty) Int := .atom .int31
    e.WellFormed .none ∧ e.Everywhere Invertible ∧
      ofBytes .none 0 e [127, 255, 255, 255] = .ok (some 2147483647) ∧
      ∀ junk fuel, toBytes junk .none fuel e 2147483647 = .ok none := by
  refine ⟨trivial, trivial, rfl, fun junk fuel => ?_⟩
  cases fuel <;> rfl

section Canonical
variable (D : Defs ι) (fuel : Nat) (junk : Nat → UInt8)

/-- What is read from the whole of a byte string is written as this string. -/
def Canonical (at' : Atom Int) (b : MBytes) : Prop :=
  ∀ v, ofBytes D fuel (.atom at') b = .ok (some v) → toBytes junk D fuel (.atom at') v = .ok (some b)

theorem decode_atom (at' : Atom α) : decode D fuel (.atom at') = decodeAtom at' := by
  cases fuel <;> rfl

theorem toBytes_number {at' : Atom Int} {v : Int} {w b : MBytes} (hk : at'.classify = .dynamic)
    (hw : atomBytes at' v = .ok w) : toBytes junk D fuel (.atom at') v = .ok (some b) ↔ w = b := by
  have henc : encode D fuel (.atom at') none v = .ok w := by
    cases fuel <;> exact bind_eq_ok.mpr ⟨w, hw, rfl⟩
  have hbud : startBudget (.atom at' : Encoding ι Int) = none := by
    simp only [startBudget, Encoding.classify, hk]
  have he : (.atom at' : Encoding ι Int).WellFormed D := trivial
  rw [toBytes_eq_some he, hbud, henc, Except.ok.injEq]

theorem canonical_n (b : MBytes) : Canonical D fuel junk .n b := fun v h => by
  rw [ofBytes_eq_some, decode_atom] at h
  obtain ⟨hv, -, -, htake⟩ := decodeN_ok h
  rw [take_length] at htake
  have hw : atomBytes .n v = .ok (nBytes v) := if_neg (by omega)
  exact (toBytes_number D fuel junk rfl hw).mpr htake.symm

theorem canonical_z {b : MBytes} (hb : b ≠ [0x40]) : Canonical D fuel junk .z b := fun v h => by
  rw [ofBytes_eq_some, decode_atom] at h
  obtain ⟨-, -, htake⟩ := decodeZ_ok h
  rw [take_length] at htake
  exact (toBytes_number D fuel junk rfl rfl).mpr (htake hb).symm

/-- The reader takes two bytes for the zero of the signed numbers; otherwise a number has one representation. -/
theorem canonical_iff_not_negative_zero :
    (∀ b, Canonical D fuel junk .n b) ∧ (∀ b, Canonical D fuel junk .z b ↔ b ≠ [0x40]) ∧
      (∀ b b' v, ofBytes D fuel (.atom .n) b = .ok (some v) → ofBytes D fuel (.atom .n) b' = .ok (some v) →
        b = b') ∧
      ∀ b b' v, ofBytes D fuel (.atom .z) b = .ok (some v) → ofBytes D fuel (.atom .z) b' = .ok (some v) →
        (b = b' ↔ (b = [0x40] ↔ b' = [0x40])) := by
  have huniq : ∀ {at' : Atom Int} {b b' v}, Canonical D fuel junk at' b → Canonical D fuel junk at' b' →
      ofBytes D fuel (.atom at') b = .ok (some v) → ofBytes D fuel (.atom at') b' = .ok (some v) →
        b = b' := by
    intro at' b b' v hb hb' hread hread'
    exact some.inj (Except.ok.inj ((hb v hread).symm.trans (hb' v hread')))
  refine ⟨canonical_n D fuel junk, fun b => ⟨?_, canonical_z D fuel junk⟩, ?_, fun b b' v hread hread' => ?_⟩
  · rintro h rfl
    have hread : ofBytes D fuel (.atom .z) [0x40] = .ok (some 0) := by
      rw [ofBytes_eq_some, decode_atom]
      rfl
    exact absurd ((toBytes_number D fuel junk rfl rfl).mp (h 0 hread)) (by decide)
  · exact fun b b' v => huniq (canonical_n D fuel junk b) (canonical_n D fuel junk b')
  · refine ⟨fun heq => by rw [heq], fun hiff => ?_⟩
    by_cases hb : b = [0x40]
    · rw [hb, hiff.mp hb]
    · exact huniq (canonical_z D fuel junk hb) (canonical_z D fuel junk fun hb' => hb (hiff.mpr hb')) hread hread'

end Canonical

theorem not_canonical_negative_zero :
    ofBytes .none 0 (.atom .z) [0x40] = .ok (some 0) ∧ ofBytes .none 0 (.atom .z) [0x00] = .ok (some 0) ∧
      ¬Canonical .none 0 (fun _ => 0) .z [0x40] :=
  ⟨rfl, rfl, fun h => absurd ((toBytes_number .none 0 _ rfl rfl).mp (h 0 rfl)) (by decide)⟩

end Tezos.DataEncoding.Wire
