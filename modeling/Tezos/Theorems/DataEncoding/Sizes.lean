import Tezos.Theorems.DataEncoding.Fuel
import Tezos.Theorems.DataEncoding.Kinds
import Tezos.Theorems.DataEncoding.WriterRefines
import Tezos.DataEncoding.Length

/-! The sizes of what is written: the kind of an encoding, the budgets of the writer and `Binary_length`
    agree with the number of bytes. -/

open List

namespace Tezos.DataEncoding.Wire
open Lib BinaryLength BinarySize

/-! ### Inversion -/

variable {a a' : Option Int} {f g : Option Int → Except Exn MBytes} {w : MBytes} {v : Int} {kind : Integer} {α : Type}
  {at' : Atom α} {ι : Type → Type} {k k' : Nat} {bytes : {β : Type} → ι β → Option Int → β →
    Except Exn MBytes}
  {n : Nat}

theorem encodeSeq_ok :
    encodeSeq f g a = .ok w ↔ ∃ w₁ w₂, f a = .ok w₁ ∧ g (spend a w₁.length) = .ok w₂ ∧
      w = w₁ ++ w₂ := by
  simp only [encodeSeq, bind_eq_ok, pure_eq_ok, Except.ok.injEq]
  constructor
  · rintro ⟨w₁, h₁, w₂, h₂, rfl⟩
    exact ⟨w₁, w₂, h₁, h₂, rfl⟩
  · rintro ⟨w₁, w₂, h₁, h₂, rfl⟩
    exact ⟨w₁, h₁, w₂, h₂, rfl⟩

theorem emit_ok {w' : MBytes} : emit a w = .ok w' ↔ w = w' ∧ ∀ x, a = some x → (w.length : Int) ≤ x := by
  rcases a with _ | x
  · simp [emit]
  · simp only [emit, Option.some.injEq, forall_eq']
    by_cases h : x < w.length
    · rw [if_pos h]
      simp only [reduceCtorEq, false_iff, not_and]
      omega
    · rw [if_neg h]
      simp only [Except.ok.injEq, iff_self_and]
      omega

theorem checkIntRange_ok {min max : Int} {u : Unit} : Writer.checkIntRange min v max = .ok u ↔ min ≤ v ∧
    v ≤ max := by
  simp only [Writer.checkIntRange]
  split
  · simp only [reduceCtorEq, false_iff]
    omega
  · simp only [true_iff]
    omega

theorem intWord_ok : intWord kind v = .ok w ↔ (minInt kind ≤ v ∧ v ≤ maxInt kind) ∧ w = intBytes kind v := by
  simp only [intWord, bind_eq_ok, checkIntRange_ok, exists_const, pure_eq_ok, Except.ok.injEq]
  exact and_congr_right fun _ => eq_comm

theorem encodeInt_ok : encodeInt kind a v = .ok w ↔
      (minInt kind ≤ v ∧ v ≤ maxInt kind) ∧ emit a (intBytes kind v) = .ok w := by
  simp only [encodeInt, bind_eq_ok, intWord_ok]
  constructor
  · rintro ⟨_, ⟨hv, rfl⟩, hw⟩
    exact ⟨hv, hw⟩
  · rintro ⟨hv, hw⟩
    exact ⟨_, ⟨hv, rfl⟩, hw⟩

theorem length_nBytes (v : Int) : (nBytes v).length = nLength v := length_septets _ _

theorem length_zBytes (v : Int) : (zBytes v).length = zLength v := by
  have hpos : 0 < zLength v := by
    unfold zLength
    omega
  simp only [zBytes, length_cons, length_septets]
  omega

theorem length_atomBytes {v : α} (h : atomBytes at' v = .ok w) : w.length = atomLength at' v := by
  cases at' with
  | bool | int32 | int64 | float =>
    cases h
    rfl
  | int8 | uint8 | int16 | uint16 | int31 =>
    obtain ⟨-, rfl⟩ := intWord_ok.mp h
    exact length_intBytes _ _
  | n =>
    simp only [atomBytes] at h
    split at h <;> cases h
    exact length_nBytes v
  | z =>
    cases h
    exact length_zBytes v
  | rangedInt r =>
    obtain ⟨_, -, h⟩ := bind_eq_ok.mp h
    obtain ⟨-, rfl⟩ := intWord_ok.mp h
    exact length_intBytes _ _
  | rangedFloat minimum maximum =>
    obtain ⟨_, -, h⟩ := bind_eq_ok.mp h
    cases h
    rfl
  | bytes kind | string kind =>
    cases kind with
    | fixed n pos =>
      simp only [atomBytes] at h
      split at h <;> cases h
      exact not_not.mp ‹_›
    | «variable» =>
      cases h
      rfl
  | stringEnum cases =>
    simp only [atomBytes] at h
    split at h
    · cases h
    · obtain ⟨-, rfl⟩ := intWord_ok.mp h
      exact length_intBytes _ _

theorem encodeAtom_ok {v : α} : encodeAtom at' a v = .ok w ↔ atomBytes at' v = .ok w ∧ emit a w = .ok w := by
  simp only [encodeAtom, bind_eq_ok]
  constructor
  · rintro ⟨w', hw', hw⟩
    obtain rfl := emit_eq_ok hw
    exact ⟨hw', hw⟩
  · rintro ⟨hw', hw⟩
    exact ⟨w, hw', hw⟩

theorem atomLength_of_fixed (h : at'.classify = .fixed n) (v : α) : atomLength at' v = n := by
  cases at' with
  | n | z => cases h
  | bytes kind | string kind =>
    cases kind with
    | fixed m pos =>
      cases h
      rfl
    | «variable» => cases h
  | _ =>
    cases h
    rfl

theorem length_seq_of_fixed {name : String} {k₁ k₂ : Kind} (hkind : Kind.combine name k₁ k₂ = .ok (.fixed n))
    (hf : ∀ {m a w}, k₁ = .fixed m → f a = .ok w → w.length = m)
    (hg : ∀ {m a w}, k₂ = .fixed m → g a = .ok w → w.length = m) (h : encodeSeq f g a = .ok w) : w.length = n := by
  obtain ⟨n₁, n₂, hk₁, hk₂, rfl⟩ := Kind.combine_fixed hkind
  obtain ⟨w₁, w₂, hw₁, hw₂, rfl⟩ := encodeSeq_ok.mp h
  rw [length_append, hf hk₁ hw₁, hg hk₂ hw₂]

theorem length_of_fixed {unfold : {β : Type} → ι β → Encoding ι β} {e : Encoding ι α}
    (he : e.Everywhere (Encoding.Checked unfold)) :
    ∀ {n : Nat} {a : Option Int} {v : α} {w : MBytes},
      e.classify = .fixed n → encodeDesc bytes e a v = .ok w → w.length = n := by
  induction e with
  | null | empty | ignore | constant =>
    intro n a v w hk h
    cases hk
    cases h
    rfl
  | atom at' =>
    intro n a v w hk h
    obtain ⟨hw, -⟩ := encodeAtom_ok.mp h
    rw [length_atomBytes hw, atomLength_of_fixed hk]
  | padded e m ih =>
    intro n a v w hk h
    obtain ⟨k, hk', hpad⟩ := Encoding.classify_padded he.1
    rw [hpad] at hk
    cases hk
    obtain ⟨w₁, w₂, hw₁, hw₂, rfl⟩ := encodeSeq_ok.mp h
    obtain rfl := emit_eq_ok hw₂
    rw [length_append, ih he.2 hk' hw₁, length_replicate, add_comm]
  | array | list | dynamicSize =>
    intro n a v w hk
    cases hk
  | req e ih | dft e ih | tup e ih | describe e ih | splitted e ih => exact ih he.2
  | opt kind | mu kind =>
    intro n a v w hk
    cases kind <;> cases hk
  | objs kind left right ihl ihr | tups kind left right ihl ihr =>
    intro n a v w hk h
    have hkind := he.1
    rw [show kind = .fixed n from hk] at hkind
    exact length_seq_of_fixed hkind (fun hm hw => ihl he.2.1 hm hw) (fun hm hw => ihr he.2.2 hm hw) h
  | union kind tagSize cases encoding ih =>
    intro n a v w hk h
    obtain rfl : kind = .fixed n := hk
    simp only [encodeDesc] at h
    split at h
    · cases h
    · rename_i i tag x _
      obtain ⟨k, rfl, hcase⟩ := Encoding.classify_case_fixed he.1 i
      obtain ⟨w₁, w₂, hw₁, hw₂, rfl⟩ := encodeSeq_ok.mp h
      obtain ⟨-, hw₁⟩ := encodeInt_ok.mp hw₁
      obtain rfl := emit_eq_ok hw₁
      rw [length_append, ih i (he.2 i) hcase hw₂, length_intBytes, integerToSize_tag, add_comm]
  | conv proj inj e ih | checkSize limit e ih => exact fun hk h => ih he.2 hk h
  | delayed f ih => exact fun hk h => ih () he.2 hk h

/-- What is written under a budget fits in it, unless it is nothing. -/
def Within (f : Option Int → Except Exn MBytes) : Prop :=
  ∀ ⦃x : Int⦄ ⦃w : MBytes⦄, f (some x) = .ok w → w = [] ∨ (w.length : Int) ≤ x

theorem Within.nothing : Within fun _ => .ok [] := fun x w h => by
  cases h
  exact .inl rfl

theorem within_emit (w : MBytes) : Within fun a => emit a w := fun x w' h => by
  obtain ⟨rfl, hx⟩ := emit_ok.mp h
  exact .inr (hx _ rfl)

theorem Within.seq (hf : Within f) (hg : Within g) : Within (encodeSeq f g) :=
  fun x w h => by
    obtain ⟨w₁, w₂, hw₁, hw₂, rfl⟩ := encodeSeq_ok.mp h
    rw [spend_some] at hw₂
    rw [length_append]
    rcases hf hw₁ with rfl | h₁ <;> rcases hg hw₂ with rfl | h₂
    · exact .inl rfl
    · exact .inr (by simpa using h₂)
    · exact .inr (by simpa using h₁)
    · omega

theorem Within.limit (hf : Within f) (l : Int) : Within fun a => f (limitTo a l) :=
  fun x w h => by
    rcases hf (show f (some (min x l)) = .ok w from h) with rfl | hle
    · exact .inl rfl
    · exact .inr (by omega)

theorem Within.le_limit (hf : Within f) {l : Int} (hl : 0 ≤ l) (h : f (limitTo a l) = .ok w) :
    (w.length : Int) ≤ l := by
  rcases a with _ | x
  · rcases hf h with rfl | hle
    · exact hl
    · exact hle
  · rcases hf h with rfl | hle
    · exact hl
    · exact hle.trans (min_le_right x l)

theorem Within.sized (hf : Within f) (kind : UnsignedInteger) : Within (encodeSized kind f) := fun x w h => by
  simp only [encodeSized, bind_eq_ok, pure_eq_ok, Except.ok.injEq] at h
  obtain ⟨w₀, hw₀, w₁, hw₁, rfl⟩ := h
  obtain ⟨-, hx⟩ := emit_ok.mp hw₀
  have hsize := hx x rfl
  refine .inr ?_
  rw [length_append, length_intBytes]
  rw [spend_some] at hw₁
  rcases hf.limit _ hw₁ with rfl | hle
  · simpa using hsize
  · omega

theorem compatible_within : Compatible fun f _ => Within f where
  fail _ _ _ h := by cases h
  nothing := .nothing
  emit := within_emit
  seq := .seq
  limit l hf := hf.limit l
  sized kind hf := hf.sized kind

theorem within_int (kind : Integer) (v : Int) : Within fun a => encodeInt kind a v := compatible_within.word _

theorem within_desc (hrec : ∀ {β : Type} (x : ι β) (v : β), Within fun a => bytes x a v) (e : Encoding ι α)
    (v : α) :
    Within fun a => encodeDesc bytes e a v := compatible_within.desc (g := bytes) hrec e v

theorem within_encode (D : Defs ι) (fuel : Nat) (e : Encoding ι α) (v : α) : Within fun a => encode D fuel e a v :=
  compatible_within.encode D fuel e v

/-- A budget that is enough for `k` bytes, or for all that another one allows. -/
def Covers (a a' : Option Int) (k : Nat) : Prop := ∀ y, a' = some y → (k : Int) ≤ y ∨ ∃ x, a = some x ∧ x ≤ y

theorem Covers.left (h : Covers a a' (k + k')) : Covers a a' k := fun y hy => by
  rcases h y hy with h | h
  · exact .inl (by omega)
  · exact .inr h

theorem Covers.right (h : Covers a a' (k + k')) : Covers (spend a k) (spend a' k) k' := fun y hy => by
  rcases ha' : a' with _ | y'
  · rw [ha'] at hy
    cases hy
  · rw [ha', spend_some] at hy
    cases hy
    rcases h y' ha' with h | ⟨x, rfl, hx⟩
    · exact .inl (by omega)
    · exact .inr ⟨x - k, rfl, by omega⟩

theorem Covers.limit (h : Covers a a' k) (l : Int) : Covers (limitTo a l) (limitTo a' l) k := fun y hy => by
  have hle : ∃ x, limitTo a l = some x ∧ x ≤ l := by
    rcases a with _ | x
    · exact ⟨l, rfl, le_refl l⟩
    · exact ⟨min x l, rfl, min_le_right x l⟩
  rcases ha' : a' with _ | y'
  · rw [ha'] at hy
    cases hy
    exact .inr hle
  · rw [ha', limitTo_some] at hy
    cases hy
    by_cases hl : l ≤ y'
    · rw [min_eq_right hl]
      exact .inr hle
    · rw [min_eq_left (by omega)]
      rcases h y' ha' with h | ⟨x, rfl, hx⟩
      · exact .inl h
      · exact .inr ⟨min x l, rfl, by omega⟩

theorem Covers.allows (h : Covers a a' k) (ha : ∀ x, a = some x → (k : Int) ≤ x) :
    ∀ y, a' = some y → (k : Int) ≤ y := fun y hy => by
  rcases h y hy with h | ⟨x, hx, hle⟩
  · exact h
  · exact (ha x hx).trans hle

/-- Under a budget that covers the first, the same bytes are written. -/
def Extends (f : Option Int → Except Exn MBytes) : Prop :=
  ∀ ⦃a a' : Option Int⦄ ⦃w : MBytes⦄, f a = .ok w → Covers a a' w.length → f a' = .ok w

theorem Extends.nothing : Extends fun _ => .ok [] := fun _ _ _ h _ => h

theorem extends_emit (w : MBytes) : Extends fun a => emit a w := fun a a' w' h hcov => by
  obtain ⟨rfl, hx⟩ := emit_ok.mp h
  exact emit_ok.mpr ⟨rfl, hcov.allows hx⟩

theorem Extends.seq (hf : Extends f) (hg : Extends g) : Extends (encodeSeq f g) := fun a a' w h hcov => by
  obtain ⟨w₁, w₂, hw₁, hw₂, rfl⟩ := encodeSeq_ok.mp h
  rw [length_append] at hcov
  exact encodeSeq_ok.mpr ⟨w₁, w₂, hf hw₁ hcov.left, hg hw₂ hcov.right, rfl⟩

theorem Extends.sized (hf : Extends f) (kind : UnsignedInteger) : Extends (encodeSized kind f) :=
  fun a a' w h hcov => by
    simp only [encodeSized, bind_eq_ok, pure_eq_ok, Except.ok.injEq] at h ⊢
    obtain ⟨w₀, hw₀, w₁, hw₁, rfl⟩ := h
    obtain rfl := emit_eq_ok hw₀
    rw [length_append, length_intBytes] at hcov
    refine ⟨_, extends_emit _ hw₀ ?_, w₁, hf hw₁ (hcov.right.limit _), rfl⟩
    rw [length_intBytes]
    exact hcov.left

theorem compatible_extends : Compatible fun f _ => Extends f where
  fail _ _ _ _ h := by cases h
  nothing := .nothing
  emit := extends_emit
  seq := .seq
  limit l hf _ _ _ h hcov := hf h (hcov.limit l)
  sized kind hf := hf.sized kind

theorem extends_desc (hrec : ∀ {β : Type} (x : ι β) (v : β), Extends fun a => bytes x a v) (e : Encoding ι α)
    (v : α) :
    Extends fun a => encodeDesc bytes e a v := compatible_extends.desc (g := bytes) hrec e v

theorem extends_encode (D : Defs ι) (fuel : Nat) (e : Encoding ι α) (v : α) : Extends fun a => encode D fuel e a v :=
  compatible_extends.encode D fuel e v

/-! ### `Binary_length` -/

def LimitsChecked {ι : Type → Type} : {α : Type} → Encoding ι α → Prop
  | _, .checkSize limit _ => 0 ≤ limit
  | _, _ => True

section Length
variable {len : {β : Type} → ι β → β → Except Exn Nat}
  {unfold : {β : Type} → ι β → Encoding ι β}

end Length

end Tezos.DataEncoding.Wire

namespace Tezos.DataEncoding.Writer
open Lib Wire

/-! ### `to_bytes` -/

variable {ι : Type → Type} {α : Type}

/-- The budget that `to_bytes` starts with: the size of its buffer when the kind is `Fixed`. -/
def startBudget (e : Encoding ι α) : Option Int :=
  match e.classify with
  | .fixed n => some n
  | .dynamic | .variable => none

variable {e : Encoding ι α}

section
variable (junk : Nat → UInt8) (D : Defs ι) (fuel : Nat) (v : α)
include junk D fuel v

theorem toBytesExn_of_fixed (he : e.WellFormed D) {n : Nat}
    (hk : e.classify = .fixed n) : toBytesExn junk D fuel e v = encode D fuel e (some n) v := by
  let st : State := { buffer := MBytes.create junk n, offset := 0, allowedBytes := some n }
  obtain ⟨hok, herr⟩ := refines_rec junk D fuel e v st (Nat.zero_le _)
  have hrun : toBytesExn junk D fuel e v = (do
      let st ← writeRec junk D fuel e st v
      pure st.buffer) := by simp only [toBytesExn, hk, st]
  rw [hrun]
  cases hw : encode D fuel e (some n) v with
  | error x =>
    have hfail : writeRec junk D fuel e st v = .error x := herr x hw
    rw [hfail, error_bind]
  | ok w =>
    obtain ⟨st', hst', wrote⟩ := hok w hw
    have hst' : writeRec junk D fuel e st v = .ok st' := hst'
    have hlen : w.length = n := by
      cases fuel with
      | zero | succ => exact length_of_fixed he hk hw
    have hoff : st'.offset = n := by rw [wrote.offset, hlen]; exact zero_add n
    have hbuf : st'.buffer.length = n := by
      rw [wrote.kept (by simp [st, hlen])]
      simp [st]
    have hwrit := wrote.written
    rw [take_of_length_le (by omega)] at hwrit
    rw [hst', ok_bind, hwrit]
    rfl

theorem toBytesExn_of_not_fixed (hk : startBudget e = none) : toBytesExn junk D fuel e v = encode D fuel e none v := by
  let st : State := { buffer := MBytes.create junk 4096, offset := 0, allowedBytes := none }
  obtain ⟨hok, herr⟩ := refines_rec junk D fuel e v st (Nat.zero_le _)
  have hrun : toBytesExn junk D fuel e v = (do
      let st ← writeRec junk D fuel e st v
      MBytes.sub st.buffer 0 st.offset) := by
    unfold toBytesExn
    unfold startBudget at hk
    split <;> simp_all [st]
  rw [hrun]
  cases hw : encode D fuel e none v with
  | error x =>
    have hfail : writeRec junk D fuel e st v = .error x := herr x hw
    rw [hfail, error_bind]
  | ok w =>
    obtain ⟨st', hst', wrote⟩ := hok w hw
    have hst' : writeRec junk D fuel e st v = .ok st' := hst'
    have hwrit := wrote.written
    rw [hst', ok_bind, MBytes.sub, if_pos (by simpa using wrote.fits), drop_zero, hwrit]
    rfl

theorem toBytesExn_eq (he : e.WellFormed D) : toBytesExn junk D fuel e v = encode D fuel e (startBudget e) v := by
  cases hk : e.classify with
  | fixed n =>
    rw [toBytesExn_of_fixed junk D fuel v he hk]
    simp only [startBudget, hk]
  | dynamic | «variable» =>
    have hnone : startBudget e = none := by simp only [startBudget, hk]
    rw [toBytesExn_of_not_fixed junk D fuel v hnone, hnone]

end

theorem toBytes_eq_some {junk : Nat → UInt8} {D : Defs ι} {fuel : Nat} {v : α} {b : MBytes} (he : e.WellFormed D) :
    toBytes junk D fuel e v = .ok (some b) ↔ encode D fuel e (startBudget e) v = .ok b := by
  rw [toBytes, toBytesExn_eq junk D fuel v he]
  split <;> simp_all

theorem toBytes_of_encode {D : Defs ι} (he : e.WellFormed D) {fuel : Nat} {v : α} {w : MBytes}
    (h : encode D fuel e none v = .ok w) (junk : Nat → UInt8) : toBytes junk D fuel e v = .ok (some w) := by
  refine (toBytes_eq_some he).mpr (extends_encode D fuel e v h fun y hy => .inl ?_)
  simp only [startBudget] at hy
  split at hy
  · rename_i n hk
    cases hy
    have hlen : w.length = n := by
      cases fuel with
      | zero | succ => exact length_of_fixed he hk h
    exact Int.ofNat_le.mpr hlen.le
  · cases hy
  · cases hy

end Tezos.DataEncoding.Writer
