import Tezos.DataEncoding.Wire.Lengths
import Tezos.Theorems.DataEncoding.Acceptance
import Tezos.Theorems.DataEncoding.Errors

/-! The lengths of an encoding are all those that its decoder takes, and the decoder breaks down on some bytes where
    they do. -/

namespace Tezos.DataEncoding.Wire
open Lib List Parser Lengths

/-- An exception that the reader does not turn into an answer. -/
def Escapes (x : Exn) : Prop := ∀ err, x ≠ .readError err

abbrev Takes {α : Type} (p : Decoder α) (L : Lengths) : Prop := Measures Escapes p L

section Words
variable {α β : Type} {a : Option Int} {conv : MBytes → Except Exn α} {f : α → Decoder β} {j k n size : Nat}
  {o : Option Nat} {M : α → Lengths}

theorem OnlyReadErrors.not_gives {x : Except Exn (α × Nat)} (h : OnlyReadErrors x) :
    ¬Gives Escapes x none := fun hgiv => by
  obtain ⟨y, rfl, hesc⟩ := gives_none.mp hgiv
  obtain ⟨err, rfl⟩ := h y rfl
  exact hesc err rfl

theorem fits_add : Fits (j + k) n a ↔ Fits j n a ∧ Fits k (n - j) (spend a j) := by
  constructor
  · rintro ⟨hlen, ha⟩
    exact ⟨⟨by omega, Allowed.left ha⟩, by omega, Allowed.right ha⟩
  · rintro ⟨⟨hlen, ha⟩, hlen', ha'⟩
    refine ⟨by omega, fun x hx => ?_⟩
    subst hx
    have := ha x rfl
    have := ha' _ (spend_some x j)
    omega

theorem exactly_add : exactly (j + k) n a o ↔ (exactly j).seq (exactly k) n a o := by
  rw [seq_exactly, exactly, fits_add]
  constructor
  · rintro ⟨⟨hj, hk⟩, rfl⟩
    exact ⟨hj, some k, ⟨hk, rfl⟩, rfl⟩
  · rintro ⟨hj, _, ⟨hk, rfl⟩, rfl⟩
    exact ⟨⟨hj, hk⟩, rfl⟩

theorem local_word : Local (word size conv) where
  le h := (word_ok.mp h).2.2.2 ▸ (word_ok.mp h).1
  within h := (word_ok.mp h).2.2.2 ▸ .inr ((word_ok.mp h).2.1 _ rfl)
  front h hlen htake := by
    obtain ⟨hle, ha, hv, rfl⟩ := word_ok.mp h
    exact word_ok.mpr ⟨hlen ▸ hle, ha, by rwa [htake], rfl⟩

section
variable (h : ∀ w, OnlyReadErrors (conv w))
include h

theorem takes_word {P : Prop} (hP : (∃ w v, w.length = size ∧ conv w = .ok v) ↔ P) :
    Takes (word size conv) fun n a o => P ∧ exactly size n a o := by
  refine ⟨local_word, fun {n a o} => ⟨?_, ?_⟩⟩
  · rintro ⟨hp, ⟨hle, ha⟩, rfl⟩
    obtain ⟨w, v, hlen, hv⟩ := hP.mpr hp
    exact ⟨w ++ replicate (n - size) 0, by simp [hlen, hle], gives_some.mpr ⟨v, word_append hlen ha hv⟩⟩
  · rintro ⟨input, rfl, hgiv⟩
    cases o with
    | none => exact absurd hgiv (word_errors h input a).not_gives
    | some k =>
      obtain ⟨v, hv⟩ := gives_some.mp hgiv
      obtain ⟨hle, ha, hconv, rfl⟩ := word_ok.mp hv
      exact ⟨hP.mp ⟨_, v, length_take_of_le hle, hconv⟩, ⟨hle, ha⟩, rfl⟩

/-- What follows a word depends on its value. -/
theorem takes_word_bind (hf : ∀ v, Takes (f v) (M v)) : Takes ((word size conv).bind f) fun n a o =>
      ∃ w v, w.length = size ∧ conv w = .ok v ∧ (exactly size).seq (M v) n a o := by
  refine (Measures.bind_values local_word hf).congr fun {n a o} => ⟨?_, ?_⟩
  · rintro ⟨input, rfl, ⟨x, hx, hesc, -⟩ | ⟨v, k, o', hv, ho', rfl⟩⟩
    · exact absurd (gives_none.mpr ⟨x, hx, hesc⟩) (word_errors h input a).not_gives
    · obtain ⟨hle, ha, hconv, rfl⟩ := word_ok.mp hv
      exact ⟨_, v, length_take_of_le hle, hconv, seq_exactly.mpr ⟨⟨hle, ha⟩, o', ho', rfl⟩⟩
  · rintro ⟨w, v, hlen, hconv, hseq⟩
    obtain ⟨⟨hle, ha⟩, o', ho', rfl⟩ := seq_exactly.mp hseq
    exact ⟨w ++ replicate (n - size) 0, by simp [hlen, hle],
      .inr ⟨v, size, o', word_append hlen ha hconv, ho', rfl⟩⟩

end

theorem intOfBytes_zero (kind : Integer) : intOfBytes kind (intBytes kind 0) = .ok 0 :=
  intOfBytes_intBytes (by cases kind <;> decide) (by cases kind <;> decide)

theorem takes_int (kind : Integer) : Takes (decodeInt kind) fun n a o =>
      True ∧ exactly (BinarySize.integerToSize kind) n a o :=
  takes_word (intOfBytes_errors kind) (iff_of_true ⟨_, 0, length_intBytes kind 0, intOfBytes_zero kind⟩ trivial)

theorem takes_header {kind : Integer} {f : Int → Decoder β} {M : Int → Lengths} (hf : ∀ v, Takes (f v) (M v)) :
    Takes ((decodeInt kind).bind f) (lengthsHeader kind M) := takes_word_bind (intOfBytes_errors kind) hf

theorem check_word (g : α → Except Exn β) : (word size conv).check g = word size fun w => conv w >>= g := by
  funext input a
  simp only [Parser.check, word, bind_assoc, pure_eq_ok, ok_bind]

end Words

/-! ### Numbers -/

section Numbers
variable {α : Type} {f : Nat → Decoder α} {M : Nat → Lengths}

theorem takes_byte (hf : ∀ byte, Takes (f byte) (M byte)) : Takes (decodeByte.bind f) fun n a o =>
      ∃ byte < 256, (exactly 1).seq (M byte) n a o := by
  refine (takes_word_bind (fun _ => .ok _) hf).congr ⟨?_, ?_⟩
  · rintro ⟨w, byte, hlen, hbyte, hseq⟩
    cases hbyte
    have hlt := ofBE_lt w
    rw [hlen] at hlt
    exact ⟨_, hlt, hseq⟩
  · rintro ⟨byte, hlt, hseq⟩
    refine ⟨toBE 1 byte, byte, length_toBE 1 byte, ?_, hseq⟩
    rw [ofBE_toBE, pow_one, Nat.mod_eq_of_lt hlt]

/-- The septets end after one byte or more; they break down if there are as many bytes as rounds. -/
theorem takes_septets (rounds : Nat) : Takes (decodeSeptets rounds) fun n a o =>
      (∃ k < rounds, exactly (k + 1) n a o) ∨ (∀ k < rounds, Fits (k + 1) n a) ∧ o = none := by
  induction rounds with
  | zero =>
    refine (Measures.breakdown fun err h => by cases h).congr ⟨fun h => .inr ⟨fun k hk => by omega, h⟩, ?_⟩
    rintro (⟨k, hk, -⟩ | ⟨-, h⟩)
    · omega
    · exact h
  | succ rounds ih =>
    have hstep : ∀ byte, Takes (if 128 ≤ byte then (decodeSeptets rounds).map fun v => byte - 128 + 128 * v
        else if byte = 0 then .fail (.readError .trailingZero) else .ret byte)
          (if 128 ≤ byte then _ else if byte = 0 then never else .empty) := fun byte => by
      split
      · exact ih.map _
      · split
        · exact .fail fun h => h _ rfl
        · exact .ret byte
    refine (takes_byte hstep).congr ⟨?_, ?_⟩
    · rintro ⟨byte, -, hseq⟩
      obtain ⟨hone, o', ho', rfl⟩ := seq_exactly.mp hseq
      split at ho'
      · rcases ho' with ⟨k, hk, hfit⟩ | ⟨hfit, rfl⟩
        · refine .inl ⟨k + 1, by omega, ?_⟩
          rw [show k + 1 + 1 = 1 + (k + 1) by omega]
          exact exactly_add.mpr (seq_exactly.mpr ⟨hone, o', hfit, rfl⟩)
        · refine .inr ⟨fun k hk => ?_, rfl⟩
          cases k with
          | zero => exact hone
          | succ k =>
            rw [show k + 1 + 1 = 1 + (k + 1) by omega]
            exact fits_add.mpr ⟨hone, hfit k (by omega)⟩
      · split at ho'
        · exact ho'.elim
        · rw [show o' = some 0 from ho']
          exact .inl ⟨0, by omega, hone, rfl⟩
    · rintro (⟨k, hk, hfit⟩ | ⟨hfit, rfl⟩)
      · cases k with
        | zero => exact ⟨1, by decide, seq_exactly.mpr ⟨hfit.1, some 0, rfl, hfit.2⟩⟩
        | succ k =>
          rw [show k + 1 + 1 = 1 + (k + 1) by omega] at hfit
          obtain ⟨hone, o', ho', rfl⟩ := seq_exactly.mp (exactly_add.mp hfit)
          exact ⟨128, by decide, seq_exactly.mpr ⟨hone, o', .inl ⟨k, by omega, ho'⟩, rfl⟩⟩
      · refine ⟨128, by decide, seq_exactly.mpr ⟨hfit 0 (by omega), none, .inr ⟨fun k hk => ?_, rfl⟩, rfl⟩⟩
        have := hfit (k + 1) (by omega)
        rw [show k + 1 + 1 = 1 + (k + 1) by omega] at this
        exact (fits_add.mp this).2

theorem takes_tail : Takes decodeTail lengthsNumber := by
  refine (Measures.ofLength fun n => takes_septets (n + 1)).congr ⟨?_, ?_⟩
  · rintro (⟨k, -, hfit⟩ | ⟨hfit, -⟩)
    · exact ⟨k, hfit⟩
    · have := (hfit _ (Nat.lt_succ_self _)).1
      omega
  · rintro ⟨k, hfit⟩
    have := hfit.1.1
    exact .inl ⟨k, by omega, hfit⟩

/-- A first byte without a continuation bit is a number. -/
theorem takes_number (hf : ∀ byte, Takes (f byte) (if 128 ≤ byte then lengthsNumber else .empty)) :
    Takes (decodeByte.bind f) lengthsNumber := by
  refine (takes_byte hf).congr ⟨?_, ?_⟩
  · rintro ⟨byte, -, hseq⟩
    obtain ⟨hone, o', ho', rfl⟩ := seq_exactly.mp hseq
    split at ho'
    · obtain ⟨k, hk⟩ := ho'
      refine ⟨k + 1, ?_⟩
      rw [show k + 1 + 1 = 1 + (k + 1) by omega]
      exact exactly_add.mpr (seq_exactly.mpr ⟨hone, o', hk, rfl⟩)
    · rw [show o' = some 0 from ho']
      exact ⟨0, hone, rfl⟩
  · rintro ⟨k, hfit⟩
    cases k with
    | zero => exact ⟨0, by decide, seq_exactly.mpr ⟨hfit.1, some 0, rfl, hfit.2⟩⟩
    | succ k =>
      rw [show k + 1 + 1 = 1 + (k + 1) by omega] at hfit
      obtain ⟨hone, o', ho', rfl⟩ := seq_exactly.mp (exactly_add.mp hfit)
      exact ⟨128, by decide, seq_exactly.mpr ⟨hone, o', ⟨k, ho'⟩, rfl⟩⟩

theorem takes_n : Takes decodeN lengthsNumber := by
  refine takes_number fun byte => ?_
  split
  · exact takes_tail.map _
  · exact .ret _

theorem takes_z : Takes decodeZ lengthsNumber := by
  refine takes_number fun byte => ?_
  by_cases hbyte : 128 ≤ byte
  all_goals simp only [hbyte, if_true, if_false]
  · exact takes_tail.map _
  · exact .ret _

end Numbers

/-! ### Atoms -/

section Atoms
variable {α : Type} {at' : Atom α} {size : Nat}

theorem inRange_minimum (r : IntRange) :
    inRange r.minimum r.maximum (if r.minimum ≥ 0 then r.minimum - r.minimum else r.minimum) = .ok r.minimum := by
  have hv : (if r.minimum > 0 then (if r.minimum ≥ 0 then r.minimum - r.minimum else r.minimum) + r.minimum
      else if r.minimum ≥ 0 then r.minimum - r.minimum else r.minimum) = r.minimum := by
    split_ifs <;> omega
  simp only [inRange, hv]
  exact if_pos ⟨le_refl _, r.le⟩

theorem takes_rangedInt (r : IntRange) : Takes (decodeAtom (.rangedInt r)) fun n a o =>
      True ∧ exactly (BinarySize.integerToSize (BinarySize.rangeToSize r.minimum r.maximum)) n a o := by
  simp only [decodeAtom, decodeInt, check_word]
  refine takes_word (fun w => (intOfBytes_errors _ w).bind fun v _ => ?_) (iff_of_true ?_ trivial)
  · simp only [inRange]
    generalize (if r.minimum > 0 then _ else _) = m
    split
    · exact .ok _
    · exact .error _
  · obtain ⟨hlo, hhi⟩ := rangeToSize_holds ⟨le_refl r.minimum, r.le⟩
    exact ⟨intBytes _ _, r.minimum, length_intBytes _ _, by rw [intOfBytes_intBytes hlo hhi, ok_bind, inRange_minimum]⟩

theorem takes_rangedFloat (minimum maximum : Float) : Takes (decodeAtom (.rangedFloat minimum maximum)) fun n a o =>
      Readable (.rangedFloat minimum maximum) ∧ exactly 8 n a o := by
  simp only [decodeAtom, check_word, ok_bind]
  refine takes_word (fun w => ?_) ⟨?_, ?_⟩
  · simp only [inFloatRange]
    split
    · exact .ok _
    · exact .error _
  · rintro ⟨w, v, -, h⟩
    simp only [inFloatRange] at h
    split at h
    · exact ⟨_, ‹_›⟩
    · cases h
  · rintro ⟨bits, hbits⟩
    refine ⟨toBE 8 bits.toNat, Float.ofBits bits, length_toBE 8 _, ?_⟩
    have hread : floatOfBytes (toBE 8 bits.toNat) = Float.ofBits bits := by
      rw [floatOfBytes, ofBE_toBE, show 256 ^ 8 = 2 ^ 64 from rfl, Nat.mod_eq_of_lt bits.toNat_lt, UInt64.ofNat_toNat]
    rw [hread]
    exact if_pos hbits

theorem takes_stringEnum (cases : StringEnum α) : Takes (decodeAtom (.stringEnum cases)) fun n a o =>
      cases.arr ≠ [] ∧ exactly (BinarySize.integerToSize (BinarySize.enumSize cases.arr.length).toInteger) n a o := by
  simp only [decodeAtom, decodeInt, check_word]
  refine takes_word (fun w => (intOfBytes_errors _ w).bind fun v _ => ?_) ⟨?_, fun hne => ?_⟩
  · simp only [caseAt]
    split
    · exact .error _
    · exact .ok _
  · rintro ⟨w, v, -, h⟩ hnil
    obtain ⟨index, -, h⟩ := bind_eq_ok.mp h
    simp only [caseAt, hnil, getElem?_nil] at h
    cases h
  · obtain ⟨v, arr, harr⟩ := exists_cons_of_ne_nil hne
    refine ⟨_, v, length_intBytes _ 0, ?_⟩
    rw [intOfBytes_zero, ok_bind, harr]
    rfl

/-- An atom whose conversion never fails. -/
theorem takes_total (size : Nat) (conv : MBytes → α) :
    Takes (word size fun w => .ok (conv w)) fun n a o => True ∧ exactly size n a o :=
  takes_word (fun _ => .ok _) (iff_of_true ⟨replicate size 0, _, length_replicate, rfl⟩ trivial)

theorem takes_bytes : Takes (fun input a => decodeBytes input.length input a) fun n a o => exactly n n a o :=
  (Measures.ofLength fun n => takes_total n id).congr ⟨And.right, fun h => ⟨trivial, h⟩⟩

theorem takes_atom (at' : Atom α) : Takes (decodeAtom at') (lengthsAtom at') := by
  cases at' with
  | bool => exact (takes_int .int8).map fun v => decide (v ≠ 0)
  | int8 | uint8 | int16 | uint16 | int31 => exact takes_int _
  | int32 => exact takes_total 4 fun w => BitVec.ofNat 32 (ofBE w)
  | int64 => exact takes_total 8 fun w => BitVec.ofNat 64 (ofBE w)
  | float => exact takes_total 8 floatOfBytes
  | n => exact takes_n
  | z => exact takes_z
  | rangedInt r => exact takes_rangedInt r
  | rangedFloat minimum maximum => exact takes_rangedFloat minimum maximum
  | bytes kind | string kind =>
    cases kind with
    | fixed n pos => exact takes_total n id
    | «variable» => exact takes_bytes
  | stringEnum cases => exact takes_stringEnum cases

end Atoms

/-! ### Parts -/

section Parts
variable {α β : Type} {p : Decoder α} {q : Decoder β} {L M : Lengths} {a : Option Int} {input l r : MBytes}
  {m : Nat} {o : Option Nat}

theorem takes_list (hp : Takes p L) (error : ReadError) (rounds : Nat) :
    ∀ maxLength, Takes (decodeList error p rounds maxLength) (lengthsList L rounds maxLength) := by
  induction rounds with
  | zero => exact fun _ => .breakdown fun err h => by cases h
  | succ rounds ih =>
    intro maxLength
    simp only [decodeList, lengthsList]
    refine .ifEmpty (.ret []) ?_
    split
    · exact .fail fun h => h _ rfl
    · exact .bind hp fun v => (ih _).map _

theorem takes_all (hp : Takes p L) (error : ReadError) (maxLength : Option Int) :
    Takes (decodeAll error p maxLength) (lengthsAll L maxLength) :=
  .ofLength fun n => takes_list hp error (n + (maxLength.getD 0).toNat + 1) maxLength

theorem takes_seq (hp : Takes p L) (hq : Takes q M) : Takes (decodeSeq p q) (L.seq M) := .bind hp fun _ => hq.map _

theorem gives_guard {u : Except Exn Unit} {x : Unit → Except Exn (α × Nat)} (hu : OnlyReadErrors u) :
    Gives Escapes (u >>= x) o ↔ u = .ok () ∧ Gives Escapes (x ()) o := by
  cases u with
  | error y =>
    obtain ⟨err, rfl⟩ := hu y rfl
    refine ⟨fun h => ?_, fun h => by cases h.1⟩
    cases o with
    | none => exact absurd rfl (h err)
    | some k => exact h.elim
  | ok _ => exact ⟨fun h => ⟨rfl, h⟩, And.right⟩

theorem takes_guard (hp : Takes p L) (size : Nat) :
    Takes (p.guard fun input a => do needs input size; allows a size) fun n a o => Fits size n a ∧ L n a o := by
  have hok : ∀ {input a u}, (do needs input size; allows a size) = .ok u ↔
      Fits size input.length a := fun {input a u} => by
    simp only [bind_eq_ok, needs_ok, allows_ok, exists_const]
    rfl
  refine ⟨⟨fun h => ?_, fun h => ?_, fun h hlen htake => ?_⟩, fun {n a o} => ?_⟩
  · obtain ⟨_, -, h⟩ := bind_eq_ok.mp h
    exact hp.le h
  · obtain ⟨_, -, h⟩ := bind_eq_ok.mp h
    exact hp.within h
  · obtain ⟨u, hu, h⟩ := bind_eq_ok.mp h
    exact bind_eq_ok.mpr ⟨u, hok.mpr (hlen ▸ hok.mp hu), hp.front h hlen htake⟩
  · have hgiv : ∀ input, Gives Escapes (p.guard (fun input a => do needs input size; allows a size) input a) o ↔
        Fits size input.length a ∧ Gives Escapes (p input a) o := fun input =>
      (gives_guard ((needs_errors _ _).bind fun _ _ => allows_errors _ _)).trans (and_congr_left' hok)
    constructor
    · rintro ⟨hfit, hL⟩
      obtain ⟨input, rfl, h⟩ := hp.iff.mp hL
      exact ⟨input, rfl, (hgiv input).mpr ⟨hfit, h⟩⟩
    · rintro ⟨input, rfl, h⟩
      obtain ⟨hfit, h⟩ := (hgiv input).mp h
      exact ⟨hfit, hp.iff.mpr ⟨input, rfl, h⟩⟩

theorem takes_window (hp : Takes p L) (size : Nat) : Takes (decodeWindow p size) (lengthsWindow L size) := by
  refine ⟨⟨fun h => ?_, fun h => ?_, fun h hlen htake => ?_⟩, fun {n a o} => ?_⟩
  · obtain ⟨hle, -, -, rfl⟩ := decodeWindow_ok.mp h
    exact hle
  · obtain ⟨-, ha, -, rfl⟩ := decodeWindow_ok.mp h
    exact .inr (ha _ rfl)
  · obtain ⟨hle, ha, hv, rfl⟩ := decodeWindow_ok.mp h
    exact decodeWindow_ok.mpr ⟨hlen ▸ hle, ha, by rwa [htake], rfl⟩
  · have hgiv : ∀ input, Gives Escapes (decodeWindow p size input a) o ↔ size ≤ input.length ∧ Allowed a size ∧
        Gives Escapes (p (input.take size) a) o ∧ (o = none ∨ o = some size) := fun input => by
      rw [decodeWindow, gives_guard (needs_errors _ _), needs_ok, gives_guard (allows_errors _ _), allows_ok]
      refine and_congr_right fun _ => and_congr_right fun _ => ?_
      rcases p (input.take size) a with y | ⟨v, k⟩
      · cases o <;> simp [Gives]
      · by_cases hk : k = size
        · subst hk
          cases o <;> simp [Gives, eq_comm]
        · cases o <;> simp [Gives, Escapes, hk]
          omega
    constructor
    · rintro ⟨⟨hle, ha⟩, hL, ho⟩
      obtain ⟨w, rfl, h⟩ := hp.iff.mp hL
      exact ⟨w ++ replicate (n - w.length) 0, by simp [hle], (hgiv _).mpr ⟨by simp, ha, by rwa [take_left], ho⟩⟩
    · rintro ⟨input, rfl, h⟩
      obtain ⟨hle, ha, h, ho⟩ := (hgiv input).mp h
      exact ⟨⟨hle, ha⟩, hp.iff.mpr ⟨_, length_take_of_le hle, h⟩, ho⟩

/-- A part that has to take all of its window, and what follows it. -/
theorem gives_assert {x : Except Exn (α × Nat)} {f : α × Nat → Except Exn (β × Nat)} {size : Nat} :
    Gives Escapes (x >>= fun vk => if vk.2 ≠ size then .error .assertFailure else f vk) o ↔
      (∃ o₁, Gives Escapes x o₁ ∧ o₁ ≠ some size ∧ o = none) ∨ ∃ v, x = .ok (v, size) ∧
        Gives Escapes (f (v, size)) o := by
  rcases x with y | ⟨v, k⟩
  · constructor
    · intro h
      cases o with
      | none => exact .inl ⟨none, h, by simp, rfl⟩
      | some j => exact h.elim
    · rintro (⟨o₁, h, -, rfl⟩ | ⟨_, h, -⟩)
      · cases o₁ with
        | none => exact h
        | some j => exact h.elim
      · cases h
  · by_cases hk : k = size
    · subst hk
      simp only [ok_bind, ne_eq, not_true_eq_false, if_false]
      refine ⟨fun h => .inr ⟨v, rfl, h⟩, ?_⟩
      rintro (⟨o₁, h, hne, -⟩ | ⟨_, heq, h⟩)
      · obtain ⟨_, heq⟩ | hnone : (∃ j, o₁ = some j) ∨ o₁ = none := by cases o₁ <;> simp
        · subst heq
          exact absurd (congrArg some (show k = _ from h).symm) hne
        · subst hnone
          exact h.elim
      · cases heq
        exact h
    · simp only [ok_bind, ne_eq, hk, not_false_eq_true, if_true]
      constructor
      · intro h
        cases o with
        | none => exact .inl ⟨some k, rfl, fun h => hk (Option.some.inj h), rfl⟩
        | some j => exact h.elim
      · rintro (⟨_, -, -, rfl⟩ | ⟨_, h, -⟩)
        · exact fun err h => by cases h
        · cases h
          exact absurd rfl hk

/-- A window that is cut before its last bytes. -/
theorem gives_ends : Gives Escapes (decodeEnds r.length p q (l ++ r) a) o ↔ ∃ o₁, Gives Escapes (p l a) o₁ ∧
      if o₁ = some l.length then ∃ o₂, Gives Escapes (q r (spend a l.length)) o₂ ∧
        o = if o₂ = some r.length then some (l ++ r).length else none
      else o = none := by
  have hlen : (l ++ r).length - r.length = l.length := by simp
  simp only [decodeEnds, hlen, take_left, drop_left]
  refine (gives_guard (needs_errors _ _)).trans ?_
  rw [needs_ok]
  refine (and_congr_right fun _ => gives_assert).trans ⟨?_, ?_⟩
  · rintro ⟨-, ⟨o₁, h₁, hne, rfl⟩ | ⟨v, hv, h⟩⟩
    · exact ⟨o₁, h₁, by rw [if_neg hne]⟩
    · refine ⟨some l.length, gives_some.mpr ⟨v, hv⟩, ?_⟩
      rw [if_pos rfl]
      rcases gives_assert.mp h with ⟨o₂, h₂, hne, rfl⟩ | ⟨w, hw, h⟩
      · exact ⟨o₂, h₂, by rw [if_neg hne]⟩
      · refine ⟨some r.length, gives_some.mpr ⟨w, hw⟩, ?_⟩
        rw [if_pos rfl, length_append]
        cases o with
        | none => exact h.elim
        | some j => exact congrArg some (show _ = j from h).symm
  · rintro ⟨o₁, h₁, h⟩
    refine ⟨by simp, ?_⟩
    split at h
    · subst o₁
      obtain ⟨v, hv⟩ := gives_some.mp h₁
      obtain ⟨o₂, h₂, rfl⟩ := h
      refine .inr ⟨v, hv, gives_assert.mpr ?_⟩
      split
      · subst o₂
        obtain ⟨w, hw⟩ := gives_some.mp h₂
        exact .inr ⟨w, hw, length_append.symm⟩
      · exact .inl ⟨o₂, h₂, ‹_›, rfl⟩
    · exact .inl ⟨o₁, h₁, ‹_›, h⟩

theorem takes_ends (hp : Takes p L) (hq : Takes q M) (m : Nat) : Takes (decodeEnds m p q) (lengthsEnds m L M) := by
  refine ⟨⟨fun h => ?_, fun h => ?_, fun {input input' a v k} h hlen htake => ?_⟩, fun {n a o} => ⟨?_, ?_⟩⟩
  · obtain ⟨-, -, -, rfl⟩ := decodeEnds_ok.mp h
    exact le_refl _
  · obtain ⟨hlen, hv₁, hv₂, rfl⟩ := decodeEnds_ok.mp h
    rw [spend_some] at hv₂
    have hk := hp.within hv₁
    have hk' := hq.within hv₂
    omega
  · obtain ⟨-, -, -, rfl⟩ := decodeEnds_ok.mp h
    rw [take_length, ← hlen, take_length] at htake
    rwa [htake]
  · rintro ⟨hle, o₁, ho₁, h⟩
    obtain ⟨l, hl, hgivl⟩ := hp.iff.mp ho₁
    -- The right part is only read, and its bytes are only chosen, after the left one took its window.
    obtain ⟨r, rfl, hgivr⟩ : ∃ r : MBytes, r.length = m ∧ if o₁ = some l.length then
        ∃ o₂, Gives Escapes (q r (spend a l.length)) o₂ ∧ o = if o₂ = some r.length then some n else none
        else o = none := by
      rw [hl]
      split at h
      · obtain ⟨o₂, ho₂, ho⟩ := h
        obtain ⟨r, hr, hgivr⟩ := hq.iff.mp ho₂
        exact ⟨r, hr, by rw [if_pos ‹_›, hr]; exact ⟨o₂, hgivr, ho⟩⟩
      · exact ⟨replicate m 0, length_replicate, by rw [if_neg ‹_›]; exact h⟩
    have hlen : (l ++ r).length = n := by
      rw [length_append, hl]
      omega
    exact ⟨l ++ r, hlen, gives_ends.mpr ⟨o₁, hgivl, by rwa [hlen]⟩⟩
  · rintro ⟨input, rfl, h⟩
    have hle : m ≤ input.length := by
      rw [decodeEnds, gives_guard (needs_errors _ _), needs_ok] at h
      exact h.1
    obtain ⟨l, r, rfl, hr⟩ : ∃ l r, input = l ++ r ∧ r.length = m :=
      ⟨_, _, (take_append_drop (input.length - m) input).symm, by rw [length_drop, Nat.sub_sub_self hle]⟩
    subst hr
    have hlen : (l ++ r).length - r.length = l.length := by simp
    obtain ⟨o₁, h₁, h⟩ := gives_ends.mp h
    refine ⟨hle, o₁, ?_⟩
    rw [hlen]
    refine ⟨hp.iff.mpr ⟨l, rfl, h₁⟩, ?_⟩
    split at h
    · obtain ⟨o₂, h₂, ho⟩ := h
      rw [if_pos ‹_›]
      exact ⟨o₂, hq.iff.mpr ⟨r, rfl, h₂⟩, ho⟩
    · rw [if_neg ‹_›]
      exact h

theorem takes_pair (hp : Takes p L) (hq : Takes q M) (kind leftKind rightKind : Kind) :
    Takes (decodePair kind leftKind rightKind p q) (lengthsPair kind leftKind rightKind L M) := by
  cases kind with
  | fixed size => exact takes_guard (takes_seq hp hq) size
  | dynamic => exact takes_seq hp hq
  | «variable» =>
    cases leftKind <;> cases rightKind
    case «variable».fixed m => exact takes_ends hp hq m
    case dynamic.variable | fixed.variable => exact takes_seq hp hq
    all_goals exact .breakdown fun err h => by cases h

end Parts

variable {ι : Type → Type} {α : Type}

theorem takes_desc {dec : {β : Type} → ι β → Decoder β} {rec : {β : Type} → ι β → Lengths}
    (hrec : ∀ {β : Type} (x : ι β), Takes (dec x) (rec x)) (e : Encoding ι α) :
    Takes (decodeDesc dec e) (lengthsDesc rec e) := by
  induction e with
  | null | empty | ignore | constant => exact .ret _
  | atom at' => exact takes_atom at'
  | padded e n ih => exact .bind ih fun v => ((takes_total n id).congr ⟨And.right, fun h => ⟨trivial, h⟩⟩).map _
  | array maxLength e ih => exact (takes_all ih _ _).map _
  | list maxLength e ih => exact takes_all ih _ _
  | req e ih | dft e ih | tup e ih | describe e ih | splitted e ih => exact ih
  | opt kind e ih =>
    cases kind with
    | dynamic =>
      simp only [decodeDesc, lengthsDesc, decodeBool, bind_map]
      refine takes_header fun flag => ?_
      by_cases hflag : flag = 0
      · simp only [hflag, ne_eq, not_true_eq_false, decide_false, if_false]
        exact .ret none
      · simp only [hflag, ne_eq, not_false_eq_true, decide_true, if_true]
        exact ih.map some
    | «variable» => exact .ifEmpty (.ret none) (ih.map some)
  | mu kind x => exact hrec x
  | objs kind left right ihl ihr | tups kind left right ihl ihr => exact takes_pair ihl ihr _ _ _
  | union kind tagSize cases encoding ih =>
    simp only [decodeDesc, lengthsDesc]
    refine takes_header fun ctag => ?_
    rcases findTag cases ctag with _ | i
    · exact .fail fun h => h _ rfl
    · exact (ih i).map _
  | conv proj inj e ih => exact ih.map inj
  | dynamicSize kind e ih => exact takes_header fun size => takes_window ih _
  | checkSize limit e ih => exact ih.limit limit
  | delayed f ih => exact ih ()

theorem takes_decode (D : Defs ι) (fuel : Nat) (e : Encoding ι α) : Takes (decode D fuel e) (lengths D fuel e) := by
  induction fuel generalizing α with
  | zero => exact takes_desc (fun x => .breakdown fun err h => by cases h) e
  | succ fuel ih => exact takes_desc (fun x => ih (D.unfold x)) e

/-! ### Fixed sizes -/

open Encoding

/-- An encoding of a fixed size has no window and no recursive encoding: it takes its size, and never breaks down. -/
theorem lengths_fixed {rec : {β : Type} → ι β → Lengths} {unfold : {β : Type} → ι β → Encoding ι β}
    {e : Encoding ι α}
    (he : e.Everywhere (Checked unfold)) :
    ∀ {size n : Nat} {a : Option Int} {o : Option Nat}, e.classify = .fixed size → lengthsDesc rec e n a o →
      o = some size := by
  induction e with
  | null | empty | ignore | constant =>
    intro size n a o hk h
    cases hk
    exact h
  | atom at' =>
    intro size n a o hk h
    have hk : at'.classify = .fixed size := hk
    simp only [lengthsDesc, lengthsAtom, hk] at h
    exact h.2.2
  | padded e m ih =>
    intro size n a o hk h
    obtain ⟨m', hm', hpadd⟩ := classify_padded he.1
    rw [hpadd] at hk
    cases hk
    rw [add_comm]
    exact seq_eq (fun h => ih he.2 hm' h) (fun h => h.2) h
  | array | list | dynamicSize =>
    intro size n a o hk
    cases hk
  | req e ih | dft e ih | tup e ih | describe e ih | splitted e ih | conv proj inj e ih => exact ih he.2
  | opt kind | mu kind =>
    intro size n a o hk
    cases kind <;> cases hk
  | objs kind left right ihl ihr | tups kind left right ihl ihr =>
    intro size n a o hk h
    obtain rfl : kind = .fixed size := hk
    obtain ⟨n₁, n₂, hk₁, hk₂, rfl⟩ := Kind.combine_fixed he.1
    exact seq_eq (fun h => ihl he.2.1 hk₁ h) (fun h => ihr he.2.2 hk₂ h) h.2
  | union kind tagSize cases encoding ih =>
    intro size n a o hk h
    obtain rfl : kind = .fixed size := hk
    simp only [lengthsDesc] at h
    obtain ⟨w, ctag, -, -, hseq⟩ := h
    obtain ⟨-, o', ho', rfl⟩ := seq_exactly.mp hseq
    rcases hfind : findTag cases ctag with _ | i
    · simp only [hfind] at ho'
      exact ho'.elim
    · simp only [hfind] at ho'
      obtain ⟨m, rfl, hm⟩ := classify_case_fixed he.1 i
      rw [ih i (he.2 i) hm ho', Option.map_some, BinarySize.integerToSize_tag, add_comm]
  | checkSize limit e ih => exact fun hk h => ih he.2 hk h
  | delayed f ih => exact ih () he.2

/-- A decoder of one size fails only with errors of its input. -/
theorem errors_of_takes {p : Decoder α} {L : Lengths} {size : Nat} (hp : Takes p L)
    (hL : ∀ {n a o}, L n a o → o = some size)
    (input : MBytes) (a : Option Int) : OnlyReadErrors (p input a) := fun y hy => by
  by_contra herr
  cases hL (hp.breaks hy fun err h => herr ⟨err, h⟩)

end Tezos.DataEncoding.Wire
