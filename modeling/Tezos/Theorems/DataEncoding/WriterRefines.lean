import Tezos.DataEncoding.Wire.Encode

/-! The writer refines the format: `writeRec` appends the bytes of `Wire.encode` and spends their number, or fails with
    the same error. -/

namespace Tezos.DataEncoding.Writer
open Lib Wire List MBytes BinarySize

/-- `st'` is `st` after the bytes `w`: they follow what was written before, and the buffer is replaced
    only when they do not fit. -/
structure Wrote (st : State) (w : MBytes) (st' : State) : Prop where
  offset : st'.offset = st.offset + w.length
  fits : st'.offset ≤ st'.buffer.length
  written : st'.buffer.take st'.offset = st.buffer.take st.offset ++ w
  allowed : st'.allowedBytes = spend st.allowedBytes w.length
  rest : st.offset + w.length ≤ st.buffer.length → st'.buffer.drop st'.offset = st.buffer.drop st'.offset

/-- From every state, `f` writes the bytes that `g` gives under its budget, or fails as `g` does. -/
def Refines (f : State → Except Exn State) (g : Option Int → Except Exn MBytes) : Prop :=
  ∀ st : State, st.offset ≤ st.buffer.length →
    (∀ w, g st.allowedBytes = .ok w → ∃ st', f st = .ok st' ∧ Wrote st w st') ∧
    (∀ x, g st.allowedBytes = .error x → f st = .error x)

variable {st st' : State} {w : MBytes} {v : Int}

theorem Wrote.kept (h : Wrote st w st') (hroom : st.offset + w.length ≤ st.buffer.length) :
    st'.buffer.length = st.buffer.length := by
  have hlen := congrArg length (h.rest hroom)
  have hoff := h.offset
  have hfits := h.fits
  rw [length_drop, length_drop] at hlen
  omega

theorem Wrote.refl (h : st.offset ≤ st.buffer.length) : Wrote st [] st where
  offset := rfl
  fits := h
  written := by simp
  allowed := by simp
  rest _ := rfl

theorem Wrote.trans {st₁ st₂ : State} {w' : MBytes} (h₁ : Wrote st w st₁) (h₂ : Wrote st₁ w' st₂) :
    Wrote st (w ++ w') st₂ where
  offset := by rw [h₂.offset, h₁.offset, length_append, Nat.add_assoc]
  fits := h₂.fits
  written := by rw [h₂.written, h₁.written, append_assoc]
  allowed := by rw [h₂.allowed, h₁.allowed, spend_spend, length_append]
  rest h := by
    rw [length_append] at h
    have hlen := h₁.kept (by omega)
    rw [h₂.rest (by rw [h₁.offset]; omega), h₂.offset, ← drop_drop, h₁.rest (by omega), drop_drop]

namespace Refines

theorem nothing : Refines (fun st => .ok st) (fun _ => .ok []) := fun st hst => by
  refine ⟨fun w hw => ?_, fun x hx => by cases hx⟩
  cases hw
  exact ⟨st, rfl, Wrote.refl hst⟩

theorem fail (x : Exn) : Refines (fun _ => .error x) (fun _ => .error x) := fun st _ =>
  ⟨fun w hw => (by cases hw), fun y hy => (by cases hy; rfl)⟩

variable {f f' : State → Except Exn State} {g g' : Option Int → Except Exn MBytes}

theorem seq (h : Refines f g) (h' : Refines f' g') :
    Refines (fun st => f st >>= f') (encodeSeq g g') := fun st hst => by
  constructor
  · intro w hw
    simp only [encodeSeq, bind_eq_ok, pure_eq_ok, Except.ok.injEq] at hw
    obtain ⟨w₁, hw₁, w₂, hw₂, rfl⟩ := hw
    obtain ⟨st₁, hf, wrote₁⟩ := (h st hst).1 w₁ hw₁
    obtain ⟨st₂, hf', wrote₂⟩ := (h' st₁ wrote₁.fits).1 w₂ (wrote₁.allowed ▸ hw₂)
    exact ⟨st₂, bind_eq_ok.mpr ⟨st₁, hf, hf'⟩, wrote₁.trans wrote₂⟩
  · intro x hx
    simp only [encodeSeq, bind_eq_error, pure_eq_ok, reduceCtorEq, and_false, exists_false, or_false] at hx
    rcases hx with hx | ⟨w₁, hw₁, hx⟩
    · exact bind_eq_error.mpr (.inl ((h st hst).2 x hx))
    · obtain ⟨st₁, hf, wrote₁⟩ := (h st hst).1 w₁ hw₁
      exact bind_eq_error.mpr (.inr ⟨st₁, hf, (h' st₁ wrote₁.fits).2 x (wrote₁.allowed ▸ hx)⟩)

theorem check (u : Except Exn Unit) (h : Refines f g) :
    Refines (fun st => u >>= fun _ => f st) (fun a => u >>= fun _ => g a) := fun st hst => by
  cases u with
  | error x => exact fail x st hst
  | ok _ => exact h st hst

theorem ite {c : Prop} [Decidable c] (h : c → Refines f g) (h' : ¬c → Refines f' g') :
    Refines (fun st => if c then f st else f' st) (fun a => if c then g a else g' a) := by
  by_cases hc : c
  · simpa [hc] using h hc
  · simpa [hc] using h' hc

theorem congr (h : Refines f g) (hf : ∀ st, st.offset ≤ st.buffer.length → f' st = f st) :
    Refines f' g := fun st hst => by
  rw [hf st hst]
  exact h st hst

theorem limit (h : Refines f g) (limit : Int) :
    Refines (writeWithLimit limit f) (fun a => g (limitTo a limit)) := fun st hst => by
  have key := h { st with allowedBytes := limitTo st.allowedBytes limit } hst
  constructor
  · intro w hw
    obtain ⟨st', hf, wrote⟩ := key.1 w hw
    have hall := wrote.allowed
    refine ⟨{ st' with allowedBytes := spend st.allowedBytes w.length }, ?_,
      ⟨wrote.offset, wrote.fits, wrote.written, rfl, wrote.rest⟩⟩
    rcases ha : st.allowedBytes with _ | old
    · simp only [limitTo, ha] at hf
      simp [writeWithLimit, ha, hf]
    · simp only [limitTo, ha, spend, Option.map_some] at hf hall
      simp only [writeWithLimit, ha, hf, ok_bind, hall, pure_eq_ok, spend, Option.map_some, Except.ok.injEq,
        State.mk.injEq, Option.some.injEq, true_and]
      omega
  · intro x hx
    have hf := key.2 x hx
    cases ha : st.allowedBytes with
    | none | some => simp only [limitTo, ha] at hf; simp [writeWithLimit, ha, hf]

theorem list {α : Type} {f : State → α → Except Exn State} {g : Option Int → α → Except Exn MBytes}
    (h : ∀ v, Refines (fun st => f st v) (fun a => g a v)) (vs : List α) :
    Refines (fun st => vs.foldlM f st) (fun a => encodeList g a vs) := by
  induction vs with
  | nil => exact nothing
  | cons v vs ih => exact (h v).seq ih

end Refines

theorem blit_ok {src dst : MBytes} {ofs : Nat} (h : ofs + src.length ≤ dst.length) :
    blit src dst ofs = .ok (dst.take ofs ++ src ++ dst.drop (ofs + src.length)) := by
  rw [blit, if_pos h]

theorem checkAllowedBytes_ok (h : emit st.allowedBytes w = .ok w) :
    checkAllowedBytes st w.length = .ok { st with allowedBytes := spend st.allowedBytes w.length } := by
  rcases ha : st.allowedBytes with _ | len
  · simp only [checkAllowedBytes, ha, spend_none]
    rw [← ha]
  · simp only [emit, ha] at h
    split at h
    · cases h
    · simp [checkAllowedBytes, spend, *]

theorem checkAllowedBytes_error {x : Exn} (h : emit st.allowedBytes w = .error x) :
    checkAllowedBytes st w.length = .error x := by
  rcases ha : st.allowedBytes with _ | len
  · simp [emit, ha] at h
  · simp only [emit, ha] at h
    split at h
    · cases h
      simp only [checkAllowedBytes, ha, if_pos ‹len < (w.length : Int)›]
    · cases h

/-- Make room for the bytes `w` and set them: the shape of the writers of all atoms. -/
def put (junk : Nat → UInt8) (w : MBytes) (st : State) : Except Exn State := do
  let ofs := st.offset
  let st ← mayResize junk st w.length
  let buffer ← blit w st.buffer ofs
  pure { st with buffer }

variable (junk : Nat → UInt8)

theorem mayResize_ok (hst : st.offset ≤ st.buffer.length) (h : emit st.allowedBytes w = .ok w) :
    ∃ buffer, mayResize junk st w.length =
        .ok { buffer, offset := st.offset + w.length, allowedBytes := spend st.allowedBytes w.length } ∧
      st.offset + w.length ≤ buffer.length ∧ buffer.take st.offset = st.buffer.take st.offset ∧
      (st.offset + w.length ≤ st.buffer.length → buffer = st.buffer) := by
  rw [mayResize, checkAllowedBytes_ok h]
  simp only [ok_bind]
  by_cases hroom : st.buffer.length < st.offset + w.length
  · have hsub : sub st.buffer 0 st.offset = .ok (st.buffer.take st.offset) := by simp [sub, hst]
    rw [if_pos hroom, hsub, ok_bind, blit_ok (by simp)]
    refine ⟨_, rfl, by simp; omega, ?_, fun h => by omega⟩
    simp [hst]
  · rw [if_neg hroom]
    exact ⟨st.buffer, rfl, by omega, rfl, fun _ => rfl⟩

theorem refines_put (w : MBytes) : Refines (put junk w) (fun a => emit a w) := fun st hst => by
  constructor
  · intro w' hw'
    obtain rfl := emit_eq_ok hw'
    obtain ⟨buffer, hres, hlen, htake, hkept⟩ := mayResize_ok junk hst hw'
    refine ⟨{ buffer := buffer.take st.offset ++ w ++ buffer.drop (st.offset + w.length),
              offset := st.offset + w.length, allowedBytes := spend st.allowedBytes w.length }, ?_, ?_⟩
    · simp only [put, hres, ok_bind]
      rw [blit_ok hlen]
      rfl
    · have hofs : (buffer.take st.offset).length = st.offset := by simp; omega
      refine ⟨rfl, by simp; omega, ?_, rfl, fun h => ?_⟩
      · rw [take_append_of_le_length (by simp [hofs]), take_of_length_le (by simp), htake]
      · rw [hkept h, drop_left' (by simp; omega)]
  · intro x hx
    simp [put, mayResize, checkAllowedBytes_error hx]

theorem setInt_eq (kind : Integer) (buffer : MBytes) (ofs : Nat) (v : Int) :
    setInt kind buffer ofs v = blit (intBytes kind v) buffer ofs := by
  have h32 : (BitVec.ofInt 32 v).toNat = wrap 32 v := BitVec.toNat_ofInt v
  cases kind <;> simp only [setInt, setInt32, setInt16, setInt8, h32] <;> rfl

theorem refines_word (u : Except Exn MBytes) :
    Refines (fun st => u >>= fun w => put junk w st) (fun a => u >>= fun w => emit a w) := by
  cases u with
  | error x => exact Refines.fail x
  | ok w => exact refines_put junk w

theorem refines_int (kind : Integer) (v : Int) :
    Refines (fun st => int junk kind st v) (fun a => encodeInt kind a v) :=
  (refines_word junk (intWord kind v)).congr fun st _ => by
    simp only [int, intWord, put, setInt_eq, length_intBytes, bind_assoc, pure_eq_ok, ok_bind]

theorem refines_bool (v : Bool) :
    Refines (fun st => bool junk st v) (fun a => emit a [if v then 255 else 0]) := by
  have h := refines_int junk .uint8 (if v then 255 else 0)
  cases v
  · exact h
  · exact h

/-! ### Numbers of any size -/

theorem map_chunks {m bits len : Nat} (hm : m < 2 ^ bits) :
    (range len).map (fun i => UInt8.ofNat
      ((if i = len - 1 then 0x00 else 0x80) ||| getChunk m (i * 7) (if i = len - 1 then bits - i * 7 else 7))) =
      septets len m := by
  rw [septets_eq_map]
  apply map_congr_left
  intro i hi
  have hpow : (128 : Nat) ^ i = 2 ^ (i * 7) := by rw [Nat.mul_comm, pow_mul]; norm_num
  rw [hpow]
  by_cases hlast : i = len - 1
  · have hlt : m / 2 ^ (i * 7) < 2 ^ (bits - i * 7) := by
      rw [Nat.div_lt_iff_lt_mul (by positivity), ← pow_add]
      exact lt_of_lt_of_le hm (Nat.pow_le_pow_right (by norm_num) (by omega))
    simp [hlast, getChunk, Nat.mod_eq_of_lt (hlast ▸ hlt)]
  · have hor : 128 + m / 2 ^ (i * 7) % 128 = 128 ||| m / 2 ^ (i * 7) % 128 :=
      Nat.two_pow_add_eq_or_of_lt (i := 7) (Nat.mod_lt _ (by norm_num)) 1
    simp only [if_neg hlast, getChunk]
    rw [hor]
    norm_num

theorem foldlM_setInt8 (c : Nat → Nat) (buffer : MBytes) (ofs k : Nat) (h : ofs + k ≤ buffer.length) :
    (range k).foldlM (fun buffer i => setInt8 buffer (ofs + i) (c i : Int)) buffer =
      .ok (buffer.take ofs ++ (range k).map (fun i => UInt8.ofNat (c i)) ++ buffer.drop (ofs + k)) := by
  have hbyte : ∀ i, toBE 1 (wrap 8 (c i : Int)) = [UInt8.ofNat (c i)] := fun i => by
    have hw : wrap 8 (c i : Int) = c i % 256 := by
      unfold wrap
      omega
    rw [hw]
    simp [toBE, UInt8.ofNat_mod_size']
  induction k with
  | zero => simp
  | succ k ih =>
    rw [range_succ, foldlM_append, ih (by omega)]
    simp only [ok_bind, foldlM_cons, foldlM_nil, setInt8, hbyte]
    rw [blit_ok (by simp; omega)]
    have hlen : ((buffer.take ofs) ++ (range k).map (fun i => UInt8.ofNat (c i))).length = ofs + k := by
      simp; omega
    simp only [pure_eq_ok, ok_bind, length_singleton]
    rw [take_append_of_le_length (by omega), take_of_length_le (by omega), drop_append, drop_of_length_le (by omega),
      nil_append, drop_drop]
    simp only [map_append, map_cons, map_nil, append_assoc]
    congr 5
    omega

theorem natAbs_lt_numbits (v : Int) : v.natAbs < 2 ^ numbits v := Nat.lt_size_self v.natAbs

theorem numbits_pos (h : v ≠ 0) : 0 < numbits v := Nat.size_pos.mpr (Int.natAbs_pos.mpr h)

theorem mayResize_room {junk : Nat → UInt8} {size : Nat} (h : mayResize junk st size = .ok st') :
    st.offset + size ≤ st'.buffer.length := by
  simp only [mayResize, bind_eq_ok] at h
  obtain ⟨st₁, hst₁, h⟩ := h
  have hkeep : st₁.offset = st.offset := by
    simp only [checkAllowedBytes] at hst₁
    split at hst₁
    · split at hst₁ <;> cases hst₁
      rfl
    · cases hst₁
      rfl
  split at h
  · obtain ⟨old, hold, h⟩ := bind_eq_ok.mp h
    obtain ⟨buffer, hblit, h⟩ := bind_eq_ok.mp h
    cases h
    simp only [sub] at hold
    split at hold <;> cases hold
    simp only [blit] at hblit
    split at hblit <;> cases hblit
    simp
    omega
  · cases h
    simp only
    omega

/-- Setting the bytes one by one writes the same as one word. -/
theorem put_eq_loop (c : Nat → Nat) (k : Nat) (st : State) :
    (do let st' ← mayResize junk st k
        let buffer ← (range k).foldlM (fun buffer i => setInt8 buffer (st.offset + i) (c i : Int)) st'.buffer
        pure { st' with buffer }) = put junk ((range k).map fun i => UInt8.ofNat (c i)) st := by
  simp only [put, length_map, length_range]
  refine bind_congr_ok fun st' hst' => ?_
  have hroom := mayResize_room hst'
  rw [foldlM_setInt8 c _ _ _ hroom, blit_ok (by simpa using hroom)]
  simp

theorem refines_n (v : Int) : Refines (fun st => n junk st v) (fun a => encodeAtom .n a v) := by
  by_cases hneg : v < 0
  · simp only [encodeAtom, atomBytes, n, if_pos hneg]
    exact Refines.fail _
  simp only [encodeAtom, atomBytes, n, if_neg hneg]
  by_cases hzero : v = 0
  · subst hzero
    exact (refines_int junk .uint8 0).congr fun _ _ => rfl
  have hlen : nLength v = (numbits v + 6) / 7 := by
    have hbits := numbits_pos hzero
    simp only [nLength, if_neg (show numbits v ≠ 0 by omega)]
  refine (refines_put junk (nBytes v)).congr fun st _ => ?_
  rw [if_neg hzero, nBytes, ← map_chunks (natAbs_lt_numbits v), ← put_eq_loop]

/-- The bytes that `z` sets: the first one, then chunks of seven bits. -/
def zChunk (v : Int) (i : Nat) : Nat :=
  if i = 0 then (if v < 0 then 0x40 else 0x00) ||| (if numbits v > 6 then 0x80 else 0x00) ||| getChunk v.natAbs 0 6
  else
    (if i = zLength v - 1 then 0x00 else 0x80) |||
      getChunk v.natAbs (6 + (i - 1) * 7) (if i = zLength v - 1 then numbits v - (6 + (i - 1) * 7) else 7)

theorem range_zLength (v : Int) : range (zLength v) = 0 :: (range (zLength v - 1)).map (· + 1) := by
  have hpos : zLength v = zLength v - 1 + 1 := by
    unfold zLength
    omega
  rw [hpos]
  exact range_succ_eq_map

theorem zChunk_zero : zChunk v 0 = (if v < 0 then 64 else 0) + (if zLength v = 1 then 0 else 128) + v.natAbs % 64 := by
  have hcont : numbits v > 6 ↔ ¬zLength v = 1 := by
    unfold zLength
    omega
  have hchn : v.natAbs % 64 < 64 := Nat.mod_lt _ (by norm_num)
  have hor6 : ∀ x < 64, 64 ||| x = 64 + x := fun x hx => (Nat.two_pow_add_eq_or_of_lt (i := 6) hx 1).symm
  have hor7 : ∀ x < 128, 128 ||| x = 128 + x := fun x hx => (Nat.two_pow_add_eq_or_of_lt (i := 7) hx 1).symm
  simp only [zChunk, hcont, getChunk, pow_zero, Nat.div_one, show 2 ^ 6 = 64 by norm_num]
  by_cases hneg : v < 0 <;> by_cases hone : zLength v = 1 <;>
    simp only [hneg, hone, if_true, if_false, not_true, not_false_iff, Nat.zero_or, Nat.or_zero, Nat.add_zero, Nat.zero_add]
  · exact hor6 _ hchn
  · rw [Nat.or_comm 64 128, Nat.or_assoc, hor6 _ hchn, hor7 _ (by omega)]
    omega
  · exact hor7 _ (by omega)

theorem map_zChunk : ((range (zLength v)).map fun i => UInt8.ofNat (zChunk v i)) = zBytes v := by
  rw [range_zLength, map_cons, map_map, zChunk_zero, zBytes]
  have hrest : v.natAbs / 64 < 2 ^ (numbits v - 6) := by
    rw [Nat.div_lt_iff_lt_mul (by norm_num)]
    calc v.natAbs < 2 ^ numbits v := natAbs_lt_numbits v
      _ ≤ 2 ^ (numbits v - 6 + 6) := Nat.pow_le_pow_right (by norm_num) (by omega)
      _ = 2 ^ (numbits v - 6) * 64 := by rw [pow_add]; norm_num
  have hlen : zLength v - 1 = (numbits v - 6 + 6) / 7 := by
    unfold zLength
    omega
  rw [← map_chunks hrest]
  congr 1
  apply map_congr_left
  intro j hj
  rw [mem_range] at hj
  have hlast : (j + 1 = zLength v - 1) = (j = zLength v - 1 - 1) := propext (by omega)
  have hchn : ∀ len, getChunk v.natAbs (6 + j * 7) len = getChunk (v.natAbs / 64) (j * 7) len := fun len => by
    rw [getChunk, getChunk, pow_add, ← Nat.div_div_eq_div_mul]
    norm_num
  simp only [Function.comp_apply, zChunk, Nat.add_one_ne_zero, if_false, Nat.add_sub_cancel, hlast, hchn,
    Nat.sub_add_eq]

theorem refines_z (v : Int) : Refines (fun st => z junk st v) (fun a => encodeAtom .z a v) := by
  by_cases hzero : v = 0
  · subst hzero
    exact (refines_int junk .uint8 0).congr fun _ _ => rfl
  refine (refines_put junk (zBytes v)).congr fun st _ => ?_
  rw [← map_zChunk, ← put_eq_loop]
  have habs : zLength (v.natAbs : Int) = zLength v := by rfl
  simp only [z, if_neg hzero, habs]
  refine bind_congr_ok fun st' _ => ?_
  rw [range_zLength, foldlM_cons]
  simp [zChunk, foldlM_map]

theorem refines_fixedKindBytes (length : Nat) (v : MBytes) :
    Refines (fun st => fixedKindBytes junk length st v) (fun a =>
      (if v.length ≠ length then .error (.writeError (.invalidBytesLength length v.length)) else .ok v) >>= emit a) :=
  (refines_word junk _).congr fun st _ => by
    by_cases h : v.length = length
    · subst h
      simp [fixedKindBytes, put]
    · simp [fixedKindBytes, h]

theorem refines_fixedKindString (length : Nat) (v : MBytes) :
    Refines (fun st => fixedKindString junk length st v) (fun a =>
      (if v.length ≠ length then .error (.writeError (.invalidStringLength length v.length)) else .ok v) >>= emit a) :=
  (refines_word junk _).congr fun st _ => by
    by_cases h : v.length = length
    · subst h
      simp [fixedKindString, put]
    · simp [fixedKindString, h]

theorem refines_atom {α : Type} (at' : Atom α) (v : α) :
    Refines (fun st => atom junk at' st v) (fun a => encodeAtom at' a v) := by
  cases at' with
  | bool => exact refines_bool junk v
  | int8 => exact refines_int junk .int8 v
  | uint8 => exact refines_int junk .uint8 v
  | int16 => exact refines_int junk .int16 v
  | uint16 => exact refines_int junk .uint16 v
  | int31 => exact refines_int junk .int31 v
  | int32 =>
    exact (refines_put junk (toBE 4 v.toNat)).congr fun _ _ => by
      simp [atom, int32, put, BinarySize.int32, setInt32]
  | int64 =>
    exact (refines_put junk (toBE 8 v.toNat)).congr fun _ _ => by
      simp [atom, int64, put, BinarySize.int64, setInt64]
  | n => exact refines_n junk v
  | z => exact refines_z junk v
  | rangedInt r =>
    simp only [encodeAtom, atomBytes, bind_assoc]
    exact (refines_int junk _ _).check _
  | rangedFloat minimum maximum =>
    simp only [encodeAtom, atomBytes, bind_assoc]
    exact ((refines_put junk (toBE 8 v.toBits.toNat)).check _).congr fun _ _ => by
      simp [atom, rangedFloat, float, put, BinarySize.float, setDouble]
  | float =>
    exact (refines_put junk (toBE 8 v.toBits.toNat)).congr fun _ _ => by
      simp [atom, float, put, BinarySize.float, setDouble]
  | bytes kind =>
    cases kind with
    | fixed n pos => exact refines_fixedKindBytes junk n v
    | «variable» => simpa [atom, encodeAtom, atomBytes] using refines_fixedKindBytes junk v.length v
  | string kind =>
    cases kind with
    | fixed n pos => exact refines_fixedKindString junk n v
    | «variable» => simpa [atom, encodeAtom, atomBytes] using refines_fixedKindString junk v.length v
  | stringEnum cases =>
    simp only [atom, stringEnum, encodeAtom, atomBytes]
    rcases cases.find v with _ | c
    · exact Refines.fail _
    · exact refines_int junk _ c.2

/-- The size in front is overwritten when what follows is known. -/
theorem Wrote.patch {w₀ : MBytes} (h : Wrote st (w₀ ++ w) st') (w₁ : MBytes) (hlen : w₁.length = w₀.length)
    (hst : st.offset ≤ st.buffer.length) :
    ∃ buffer, blit w₁ st'.buffer st.offset = .ok buffer ∧ Wrote st (w₁ ++ w) { st' with buffer } := by
  have hofs : st'.offset = st.offset + w₁.length + w.length := by
    rw [h.offset, length_append, hlen, Nat.add_assoc]
  have hfits : st.offset + w₁.length + w.length ≤ st'.buffer.length := hofs ▸ h.fits
  have hbef : st'.buffer.take st.offset = st.buffer.take st.offset := by
    have htake := congrArg (take st.offset) h.written
    rw [take_take, Nat.min_eq_left (by omega), take_append_of_le_length (by simp [hst]),
      take_take, Nat.min_self] at htake
    exact htake
  have haft : (st'.buffer.drop (st.offset + w₁.length)).take w.length = w := by
    have hdrop := congrArg (drop (st.offset + w₁.length)) h.written
    rw [drop_take, hofs, Nat.add_sub_cancel_left] at hdrop
    rw [hdrop, hlen, ← append_assoc, drop_left' (by simp [hst])]
  have hpre : (st'.buffer.take st.offset ++ w₁).length = st.offset + w₁.length := by
    rw [length_append, length_take]
    omega
  refine ⟨_, blit_ok (by omega), ⟨by simp [hofs, Nat.add_assoc], by simp; omega, ?_, ?_, fun hroom => ?_⟩⟩
  · rw [hofs, take_append, hpre, take_of_length_le (by omega), Nat.add_sub_cancel_left, haft, hbef,
      append_assoc]
  · rw [h.allowed]
    simp [hlen]
  · rw [← h.rest (by simpa [hlen] using hroom), hofs, ← hpre, ← drop_drop, drop_left, drop_drop]

theorem Refines.sized {f : State → Except Exn State} {g : Option Int → Except Exn MBytes}
    (h : Refines f g) (kind : Integer) (hmin : minInt kind ≤ 0) (limit : Int) :
    Refines
      (fun st => do
        let initialOffset := st.offset
        let st ← int junk kind st 0
        let st ← writeWithLimit limit f st
        let buffer ← setInt kind st.buffer initialOffset
          (st.offset - initialOffset - integerToSize kind)
        pure { st with buffer })
      (fun a => do
        let _ ← emit a (intBytes kind 0)
        let w ← g (limitTo (spend a (integerToSize kind)) limit)
        pure (intBytes kind w.length ++ w)) := fun st hst => by
  have hint : ∀ a, encodeInt kind a 0 = emit a (intBytes kind 0) := fun a => by
    have hmax : 0 ≤ maxInt kind := by cases kind <;> decide
    simp [encodeInt, intWord, checkIntRange, not_lt.mpr hmin, not_lt.mpr hmax]
  have hsize := refines_int junk kind 0 st hst
  simp only [hint] at hsize
  constructor
  · intro w hw
    obtain ⟨w₀, hw₀, hw⟩ := bind_eq_ok.mp hw
    obtain ⟨w', hw', hw⟩ := bind_eq_ok.mp hw
    cases hw
    obtain ⟨st₁, hst₁, wrote₁⟩ := hsize.1 w₀ hw₀
    obtain rfl := emit_eq_ok hw₀
    obtain ⟨st₂, hst₂, wrote₂⟩ := (h.limit limit st₁ wrote₁.fits).1 w' (by
      rw [wrote₁.allowed, length_intBytes]
      exact hw')
    obtain ⟨buffer, hblit, wrote⟩ := (wrote₁.trans wrote₂).patch (intBytes kind w'.length) (by simp) hst
    refine ⟨_, ?_, wrote⟩
    have hval : (st₂.offset : Int) - st.offset - integerToSize kind = w'.length := by
      rw [wrote₂.offset, wrote₁.offset, length_intBytes]
      push_cast
      ring
    simp only [hst₁, ok_bind, hst₂, hval, setInt_eq, hblit, pure_eq_ok]
  · intro x hx
    rcases bind_eq_error.mp hx with hx | ⟨w₀, hw₀, hx⟩
    · simp [hsize.2 x hx]
    · obtain ⟨st₁, hst₁, wrote₁⟩ := hsize.1 w₀ hw₀
      obtain rfl := emit_eq_ok hw₀
      rcases bind_eq_error.mp hx with hx | ⟨w', _, hx⟩
      · have herr := (h.limit limit st₁ wrote₁.fits).2 x (by
          rw [wrote₁.allowed, length_intBytes]
          exact hx)
        simp [hst₁, herr]
      · cases hx

section WriteRec
variable {ι : Type → Type}

theorem refines_desc {write : {β : Type} → ι β → State → β → Except Exn State}
    {bytes : {β : Type} → ι β → Option Int → β → Except Exn MBytes}
    (hrec : ∀ {β : Type} (x : ι β) (v : β), Refines (fun st => write x st v) (fun a => bytes x a v))
    {α : Type} (e : Encoding ι α) (v : α) :
    Refines (fun st => writeDesc junk write e st v) (fun a => encodeDesc bytes e a v) := by
  induction e with
  | null | empty | ignore | constant => exact .nothing
  | atom at' => exact refines_atom junk at' v
  | padded e n ih => exact (ih v).seq (by simpa using refines_fixedKindString junk n (replicate n 0))
  | array maxLength e ih => exact .ite (fun _ => .fail _) fun _ => .list ih v.toList
  | list maxLength e ih => exact .ite (fun _ => .fail _) fun _ => .list ih v
  | req e ih | dft e ih | tup e ih | describe e ih | splitted e ih => exact ih v
  | opt kind e ih =>
    cases kind <;> cases v with
    | none => first | exact refines_bool junk false | exact .nothing
    | some v => first | exact (refines_bool junk true).seq (ih v) | exact ih v
  | objs kind left right ihl ihr | tups kind left right ihl ihr => exact (ihl v.1).seq (ihr v.2)
  | union kind tagSize cases encoding ih =>
    simp only [writeDesc, encodeDesc]
    cases selectCase cases v with
    | none => exact .fail _
    | some c => exact (refines_int junk _ c.2.1).seq (ih c.1 c.2.2)
  | mu kind x => exact hrec x v
  | conv proj inj e ih => exact ih (proj v)
  | dynamicSize kind e ih =>
    exact (ih v).sized junk kind.toInteger (by cases kind <;> decide) _
  | checkSize limit e ih => exact (ih v).limit limit
  | delayed f ih => exact ih () v

/-- The writer refines the format, at every level of unfolding. -/
theorem refines_rec (D : Defs ι) (fuel : Nat) {α : Type} (e : Encoding ι α) (v : α) :
    Refines (fun st => writeRec junk D fuel e st v) (fun a => encode D fuel e a v) := by
  induction fuel generalizing α with
  | zero => exact refines_desc junk (fun _ _ => .fail _) e v
  | succ fuel ih => exact refines_desc junk (fun x v => ih (D.unfold x) v) e v

end WriteRec

end Tezos.DataEncoding.Writer
