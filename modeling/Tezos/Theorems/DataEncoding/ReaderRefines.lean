import Tezos.DataEncoding.Wire.Decode

/-! The reader refines the format: `readRec` reads what `Wire.decode` reads in its window, and advances by as many
    bytes, or fails with the same error. -/

namespace Tezos.DataEncoding.Reader
open Lib Wire List Parser Reader.State MBytes

variable {α β : Type} (st : State)

@[simp] theorem run_bind (x : M α) (f : α → M β) : (x >>= f) st = (x st >>= fun r => f r.1 r.2) := rfl

@[simp] theorem run_pure (v : α) : (pure v : M α) st = .ok (v, st) := rfl

@[simp] theorem run_throw (x : Exn) : (throw x : M α) st = .error x := rfl

@[simp] theorem run_get : (get : M State) st = .ok (st, st) := rfl

@[simp] theorem run_lift (x : Except Exn α) : (liftM x : M α) st = (x >>= fun v => .ok (v, st)) := rfl

@[simp] theorem run_setRemainingBytes (remainingBytes : Nat) :
    setRemainingBytes remainingBytes st = .ok ((), { st with remainingBytes }) := rfl

@[simp] theorem run_setAllowedBytes (allowedBytes : Option Int) :
    setAllowedBytes allowedBytes st = .ok ((), { st with allowedBytes }) := rfl

/-- The bytes left to read. -/
def State.window : MBytes := (st.buffer.drop st.offset).take st.remainingBytes

def State.Valid : Prop := st.offset + st.remainingBytes ≤ st.buffer.length

/-- The state after `k` bytes, which also count against the limit. -/
def State.advance (k : Nat) : State :=
  { st with offset := st.offset + k, remainingBytes := st.remainingBytes - k,
            allowedBytes := spend st.allowedBytes k }

variable {st} {size bit value byte : Nat} {k : Nat}

theorem State.Valid.length_window (h : st.Valid) : st.window.length = st.remainingBytes := by
  unfold Valid at h
  simp [window]
  omega

theorem State.window_advance (k : Nat) : (st.advance k).window = st.window.drop k := by
  simp [window, advance, drop_take, drop_drop]

theorem State.Valid.advance (h : st.Valid) (hk : k ≤ st.remainingBytes) : (st.advance k).Valid := by
  unfold Valid at h ⊢
  simp only [State.advance]
  omega

theorem State.advance_advance (k k' : Nat) : (st.advance k).advance k' = st.advance (k + k') := by
  simp [advance, Nat.add_assoc, Nat.sub_sub]

@[simp] theorem State.advance_zero : st.advance 0 = st := by
  simp [advance]

/-- From every valid state, `read` reads what `p` reads in its window, or fails as `p` does. -/
def Reads {α : Type} (read : M α) (p : Decoder α) : Prop :=
  ∀ st : State, st.Valid →
    (∀ v k, p st.window st.allowedBytes = .ok (v, k) → k ≤ st.remainingBytes ∧ read st = .ok (v, st.advance k)) ∧
    (∀ x, p st.window st.allowedBytes = .error x → read st = .error x)

namespace Reads

theorem ret (v : α) : Reads (pure v) (.ret v) := fun st _ => by
  refine ⟨fun v k h => ?_, fun x h => by cases h⟩
  cases h
  exact ⟨Nat.zero_le _, by simp⟩

theorem fail (x : Exn) : Reads (throw x : M α) (.fail x) := fun st _ =>
  ⟨fun v k h => (by cases h), fun y h => (by cases h; rfl)⟩

variable {f : α → Decoder β} {next : α → M β} {p : Decoder α} {read : M α}

section
variable (h : Reads read p)
include h

/-- The next reader only has to agree with `f` on the values that `p` yields. -/
theorem bindYields {P : α → Prop} (hP : p.Yields P) (hf : ∀ v, P v → Reads (next v) (f v)) :
    Reads (read >>= next) (p.bind f) := fun st hst => by
  constructor
  · intro w m hw
    obtain ⟨v, k, k', hv, hv', rfl⟩ := bind_ok.mp hw
    obtain ⟨hk, hread⟩ := (h st hst).1 v k hv
    have hnext := (hf v (hP hv) (st.advance k) (hst.advance hk)).1 w k'
    rw [window_advance] at hnext
    obtain ⟨hk', hread'⟩ := hnext hv'
    simp only [advance] at hk'
    refine ⟨by omega, ?_⟩
    rw [run_bind, hread, ok_bind, hread', advance_advance]
  · intro x hx
    rcases bind_eq_error.mp hx with hx | ⟨⟨v, k⟩, hv, hx⟩
    · rw [run_bind, (h st hst).2 x hx, error_bind]
    · obtain ⟨hk, hread⟩ := (h st hst).1 v k hv
      have hnext := (hf v (hP hv) (st.advance k) (hst.advance hk)).2 x
      rw [window_advance] at hnext
      rcases bind_eq_error.mp hx with hx | ⟨_, _, hx⟩
      · rw [run_bind, hread, ok_bind, hnext hx]
      · cases hx

theorem bind (hf : ∀ v, Reads (next v) (f v)) : Reads (read >>= next) (p.bind f) :=
  h.bindYields (P := fun _ => True) (fun _ _ _ _ _ => trivial) fun v _ => hf v

theorem check {f : α → Except Exn β} (hf : ∀ v st, next v st = (f v >>= fun w => .ok (w, st))) :
    Reads (read >>= next) (p.check f) := fun st hst => by
  constructor
  · intro w k hw
    obtain ⟨v, hv, hw⟩ := check_ok.mp hw
    obtain ⟨hk, hread⟩ := (h st hst).1 v k hv
    exact ⟨hk, by rw [run_bind, hread, ok_bind, hf, hw, ok_bind]⟩
  · intro x hx
    rcases bind_eq_error.mp hx with hx | ⟨⟨v, k⟩, hv, hx⟩
    · rw [run_bind, (h st hst).2 x hx, error_bind]
    · obtain ⟨hk, hread⟩ := (h st hst).1 v k hv
      rcases bind_eq_error.mp hx with hx | ⟨_, _, hx⟩
      · rw [run_bind, hread, ok_bind, hf, hx, error_bind]
      · cases hx

theorem map (f : α → β) : Reads (do let v ← read; pure (f v)) (p.map f) :=
  h.check (f := fun v => .ok (f v)) fun _ _ => rfl

theorem ifEmpty {read' : M α} {q : Decoder α} (h' : Reads read' q) :
    Reads (do if (← get).remainingBytes = 0 then read else read') (.ifEmpty p q) := fun st hst => by
  have hemp : st.window = [] ↔ st.remainingBytes = 0 := by
    rw [← length_eq_zero_iff, hst.length_window]
  by_cases hz : st.remainingBytes = 0
  · simpa only [Parser.ifEmpty, hemp, run_bind, run_get, ok_bind, if_pos hz] using h st hst
  · simpa only [Parser.ifEmpty, hemp, run_bind, run_get, ok_bind, if_neg hz] using h' st hst

end

theorem rounds {read : Nat → M α} {p : Nat → Decoder α} (h : ∀ r, Reads (read r) (p r)) (f : Nat → Nat) :
    Reads (do read (f (← get).remainingBytes)) (fun input a => p (f input.length) input a) := fun st hst => by
  simpa only [hst.length_window, run_bind, run_get, ok_bind] using h (f st.remainingBytes) st hst

end Reads

theorem run_checkRemainingBytes (hst : st.Valid) (size : Nat) :
    checkRemainingBytes size st = (needs st.window size >>= fun _ => .ok (st.remainingBytes - size, st)) := by
  simp only [checkRemainingBytes, needs, hst.length_window, run_bind, run_get, ok_bind]
  split <;> rfl

theorem run_checkAllowedBytes (size : Nat) :
    checkAllowedBytes size st = (allows st.allowedBytes size >>= fun _ => .ok (spend st.allowedBytes size, st)) := by
  simp only [checkAllowedBytes, allows, run_bind, run_get, ok_bind]
  rcases st.allowedBytes with _ | len
  · rfl
  · simp only
    split <;> rfl

theorem needs_eq_ok {input : MBytes} {u : Unit} (h : needs input size = .ok u) : size ≤ input.length := by
  simp only [needs] at h
  split at h
  · cases h
  · omega

theorem sub_eq_take (hst : st.Valid) (h : size ≤ st.remainingBytes) :
    sub st.buffer st.offset size = .ok (st.window.take size) := by
  unfold Valid at hst
  rw [sub, if_pos (by omega), window, take_take, Nat.min_eq_left h]

/-- What is common to all reads of a fixed size. -/
theorem reads_word {get : MBytes → Nat → Except Exn α} {conv : MBytes → Except Exn α}
    (hget : ∀ buffer ofs w, sub buffer ofs size = .ok w → get buffer ofs = conv w) :
    Reads (readAtom size get) (word size conv) := fun st hst => by
  have hrun : readAtom size get st = (do
      needs st.window size
      allows st.allowedBytes size
      let v ← get st.buffer st.offset
      pure (v, st.advance size)) := by
    simp only [readAtom, run_bind, run_get, ok_bind, run_checkRemainingBytes hst, bind_assoc, run_setRemainingBytes,
      run_checkAllowedBytes, run_setAllowedBytes]
    rfl
  rw [hrun]
  unfold word
  cases hnds : needs st.window size with
  | error x =>
    refine ⟨fun v k h => (by cases h), fun y h => ?_⟩
    cases h
    rfl
  | ok _ =>
    have hsize := needs_eq_ok hnds
    rw [hst.length_window] at hsize
    rw [hget _ _ _ (sub_eq_take hst hsize)]
    constructor
    · intro v k h
      simp only [ok_bind, bind_eq_ok, pure_eq_ok, Except.ok.injEq, Prod.mk.injEq] at h
      obtain ⟨_, hallows, v, hv, rfl, rfl⟩ := h
      exact ⟨hsize, by simp [hallows, hv]⟩
    · intro x h
      simp only [ok_bind, bind_eq_error, pure_eq_ok, reduceCtorEq, and_false, exists_false, or_false] at h
      rcases h with h | ⟨_, hallows, h⟩
      · simp [h]
      · simp [hallows, h]

theorem toInt_ofNat (v : Nat) : (BitVec.ofNat 32 v).toInt = signed 32 v := BitVec.toInt_ofNat' ..

/-- How `read_int` gets each kind of integer. -/
def getInt : Integer → MBytes → Nat → Except Exn Int
  | .int31 => fun buffer ofs => do
    let v ← getInt32 buffer ofs
    pure v.toInt
  | .uint30 => fun buffer ofs => do
    let v := (← getInt32 buffer ofs).toInt
    if v < 0 then .error (.readError (.invalidInt 0 v (2 ^ 30 - 1))) else pure v
  | .int16 => getInt16
  | .int8 => getInt8
  | .uint16 => getUint16
  | .uint8 => getUint8

theorem getInt_eq {kind : Integer} {buffer : MBytes} {ofs : Nat} {w : MBytes}
    (hw : sub buffer ofs (BinarySize.integerToSize kind) = .ok w) : getInt kind buffer ofs = intOfBytes kind w := by
  cases kind with
  | int31 | uint30 =>
    have hw : sub buffer ofs 4 = .ok w := hw
    simp [getInt, getInt32, hw, toInt_ofNat, intOfBytes]
  | int16 | uint16 =>
    have hw : sub buffer ofs 2 = .ok w := hw
    simp [getInt, getInt16, getUint16, hw, intOfBytes]
  | int8 | uint8 =>
    have hw : sub buffer ofs 1 = .ok w := hw
    simp [getInt, getInt8, getUint8, hw, intOfBytes]

theorem reads_int (kind : Integer) : Reads (int kind) (decodeInt kind) := by
  have hint : int kind = readAtom (BinarySize.integerToSize kind) (getInt kind) := by cases kind <;> rfl
  rw [hint]
  exact reads_word fun _ _ _ hw => getInt_eq hw

theorem reads_bool : Reads bool decodeBool := (reads_int .int8).map _

theorem reads_tag (sz : TagSize) : Reads (tag sz) (decodeInt sz.toInteger) := by
  cases sz
  · exact reads_int .uint8
  · exact reads_int .uint16

theorem reads_bytes (length : Nat) : Reads (fixedLengthBytes length) (decodeBytes length) :=
  reads_word fun _ _ _ hw => hw

theorem reads_string (length : Nat) : Reads (fixedLengthString length) (decodeBytes length) :=
  reads_word fun _ _ _ hw => hw

/-! ### Numbers of any size -/

/-- The number that `read_z` has read, and the number of its bits. -/
def readSoFar (res : MBytes) (value : Nat) : Nat := ofLE res + 256 ^ res.length * value

def bitsSoFar (res : MBytes) (bitInValue : Nat) : Nat := 8 * res.length + bitInValue

/-- A step of `read_z` appends the low seven bits of the byte. -/
theorem stepZ_spec (res : MBytes) (byte : Nat) (hbit : bit < 8) (hval : value < 2 ^ bit) :
    (stepZ res value bit byte).2.2 < 8 ∧
      (stepZ res value bit byte).2.1 < 2 ^ (stepZ res value bit byte).2.2 ∧
      readSoFar (stepZ res value bit byte).1 (stepZ res value bit byte).2.1 =
        readSoFar res value + 2 ^ bitsSoFar res bit * (byte % 128) ∧
      bitsSoFar (stepZ res value bit byte).1 (stepZ res value bit byte).2.2 = bitsSoFar res bit + 7 := by
  have hmask : byte &&& 0x7F = byte % 128 := Nat.and_two_pow_sub_one_eq_mod byte 7
  have hor : value ||| ((byte % 128) <<< bit) = value + 2 ^ bit * (byte % 128) := by
    rw [Nat.shiftLeft_eq, Nat.mul_comm, Nat.or_comm, ← Nat.two_pow_add_eq_or_of_lt hval, Nat.add_comm]
  have hlt : value + 2 ^ bit * (byte % 128) < 2 ^ (bit + 7) := by
    have hbyte : byte % 128 + 1 ≤ 128 := Nat.mod_lt _ (by norm_num)
    calc value + 2 ^ bit * (byte % 128) < 2 ^ bit + 2 ^ bit * (byte % 128) := by omega
      _ = 2 ^ bit * (byte % 128 + 1) := by ring
      _ ≤ 2 ^ bit * 128 := Nat.mul_le_mul_left _ hbyte
      _ = 2 ^ (bit + 7) := by rw [pow_add]; norm_num
  have hpow : ∀ m, 256 ^ m = 2 ^ (8 * m) := fun m => by rw [pow_mul]; norm_num
  unfold stepZ
  simp only [hmask, hor]
  split
  · refine ⟨by assumption, hlt, ?_, by simp only [bitsSoFar]; omega⟩
    simp only [readSoFar, bitsSoFar, hpow, pow_add]
    ring
  · obtain ⟨d, rfl⟩ : ∃ d, bit = d + 1 := ⟨bit - 1, by omega⟩
    have hand : ∀ m, m &&& 0xFF = m % 256 := fun m => Nat.and_two_pow_sub_one_eq_mod m 8
    have hshf : ∀ m, m >>> 8 = m / 256 := fun m => Nat.shiftRight_eq_div_pow m 8
    simp only [hand, hshf]
    refine ⟨by omega, ?_, ?_, by simp [bitsSoFar]; omega⟩
    · rw [Nat.div_lt_iff_lt_mul (by norm_num)]
      calc _ < 2 ^ (d + 1 + 7) := hlt
        _ = 2 ^ (d + 1 + 7 - 8) * 256 := by rw [show d + 1 + 7 = d + 8 by omega, pow_add]; norm_num
    · have hbyte : ∀ m, (UInt8.ofNat (m % 256)).toNat = m % 256 := fun m => by simp
      simp only [readSoFar, bitsSoFar, ofLE_append, ofLE, hbyte, length_append, length_singleton, hpow]
      generalize hm : value + 2 ^ (d + 1) * (byte % 128) = m
      have hdiv : 2 ^ (8 * res.length) * m = 2 ^ (8 * res.length) * (m % 256 + 256 * (m / 256)) := by
        rw [Nat.mod_add_div]
      calc ofLE res + 2 ^ (8 * res.length) * (m % 256 + 256 * 0) + 2 ^ (8 * (res.length + 1)) * (m / 256)
          = ofLE res + 2 ^ (8 * res.length) * (m % 256 + 256 * (m / 256)) := by
            ring
        _ = ofLE res + 2 ^ (8 * res.length) * m := by rw [hdiv]
        _ = _ := by
            rw [← hm]
            ring

theorem endZ_spec {res : MBytes} (hbit : bit < 8) (hval : value < 2 ^ bit) : endZ res value bit byte =
      if byte = 0 then .error (.readError .trailingZero) else .ok ((readSoFar res value : Nat) : Int) := by
  unfold endZ readSoFar
  by_cases hzero : bit = 0
  · subst hzero
    have hv : value = 0 := by simpa using hval
    simp [hv]
  · have hlt : value < 256 := lt_of_lt_of_le hval (Nat.pow_le_pow_right (by norm_num) (by omega : bit ≤ 8))
    have hbyte : (UInt8.ofNat value).toNat = value := by simp [Nat.mod_eq_of_lt hlt]
    simp [Nat.pos_of_ne_zero hzero, ofLE_append, ofLE, hbyte]

theorem decodeInt_uint8 : decodeInt .uint8 = decodeByte.map fun byte : Nat => (byte : Int) := by
  funext input a
  simp only [decodeInt, decodeByte, word, Parser.map, intOfBytes, bind_assoc, ok_bind, pure_eq_ok]
  rfl

theorem decodeByte_yields : decodeByte.Yields (· < 256) := fun input a v k h => by
  simp only [decodeByte, word, bind_eq_ok, pure_eq_ok, Except.ok.injEq, Prod.mk.injEq] at h
  obtain ⟨_, _, _, _, _, rfl, rfl, _⟩ := h
  refine lt_of_lt_of_le (ofBE_lt _) ?_
  exact Nat.pow_le_pow_right (n := 256) (by norm_num) (length_take_le _ _)

theorem reads_byte {next : Int → M α} {f : Nat → Decoder α}
    (h : ∀ byte : Nat, byte < 256 → Reads (next byte) (f byte))
    : Reads (uint8 >>= next) (decodeByte.bind f) := by
  have hbyte : Reads uint8 (decodeByte.map fun byte : Nat => (byte : Int)) := decodeInt_uint8 ▸ reads_int .uint8
  have hyiel : (decodeByte.map fun byte : Nat => (byte : Int)).Yields fun v => 0 ≤ v ∧
      v < 256 := fun input a v k hv => by
    obtain ⟨byte, hb, rfl⟩ := map_ok.mp hv
    have := decodeByte_yields hb
    omega
  have hbind := hbyte.bindYields (f := fun v => f v.toNat) hyiel fun v hv => by
    have := h v.toNat (by omega)
    rwa [Int.toNat_of_nonneg hv.1] at this
  rw [bind_map] at hbind
  exact hbind

theorem and_0x80 (h : byte < 256) : byte &&& 0x80 = 0x80 ↔ 128 ≤ byte := by
  have hall : ∀ byte : Fin 256, byte.val &&& 0x80 = 0x80 ↔ 128 ≤ byte.val := by decide +kernel
  exact hall ⟨byte, h⟩

theorem and_0x40 (h : byte < 256) : byte &&& 0x40 ≠ 0 ↔ byte / 64 % 2 = 1 := by
  have hall : ∀ byte : Fin 256, byte.val &&& 0x40 ≠ 0 ↔ byte.val / 64 % 2 = 1 := by decide +kernel
  exact hall ⟨byte, h⟩

theorem reads_z (rounds : Nat) : ∀ (res : MBytes) {value bit : Nat}, bit < 8 → value < 2 ^ bit →
    Reads (readZ rounds res value bit)
      ((decodeSeptets rounds).map fun v => ((readSoFar res value + 2 ^ bitsSoFar res bit * v : Nat) : Int)) := by
  induction rounds with
  | zero => exact fun _ _ _ _ _ => Reads.fail _
  | succ rounds ih =>
    intro res value bit hbit hval
    rw [decodeSeptets, map_bind]
    refine reads_byte fun byte hbyte => ?_
    obtain ⟨hbit', hval', hread, hbits⟩ := stepZ_spec res byte hbit hval
    simp only [Int.toNat_natCast, and_0x80 hbyte]
    by_cases hcont : 128 ≤ byte
    · simp only [if_pos hcont, Parser.map_map]
      have hih := ih (stepZ res value bit byte).1 hbit' hval'
      rw [hread, hbits] at hih
      convert hih using 4 with v
      have hmod : byte % 128 = byte - 128 := by omega
      rw [hmod]
      ring
    · simp only [if_neg hcont]
      rw [endZ_spec hbit' hval', hread, Nat.mod_eq_of_lt (by omega)]
      by_cases hzero : byte = 0
      · simp only [if_pos hzero, map_fail]
        exact Reads.fail _
      · simp only [if_neg hzero, map_ret]
        exact Reads.ret _

theorem reads_tail (value bit : Nat) (hbit : bit < 8) (hval : value < 2 ^ bit) :
    Reads (do readZ ((← get).remainingBytes + 1) [] value bit)
      (decodeTail.map fun v => ((value + 2 ^ bit * v : Nat) : Int)) := by
  have h := Reads.rounds (fun r => reads_z r [] hbit hval) (· + 1)
  simp only [readSoFar, bitsSoFar, ofLE, length_nil, pow_zero, Nat.one_mul, Nat.zero_add, Nat.mul_zero] at h
  exact h

theorem reads_n : Reads n decodeN := by
  refine reads_byte fun byte hbyte => ?_
  have hmask : byte &&& 0x7F = byte % 128 := Nat.and_two_pow_sub_one_eq_mod byte 7
  simp only [Int.toNat_natCast, and_0x80 hbyte, hmask]
  by_cases hcont : 128 ≤ byte
  · have hmod : byte - 128 = byte % 128 := by omega
    simp only [if_pos hcont, hmod]
    exact reads_tail _ _ (by norm_num) (Nat.mod_lt _ (by norm_num))
  · simp only [if_neg hcont, Nat.mod_eq_of_lt (show byte < 128 by omega)]
    exact Reads.ret _

theorem reads_zNumber : Reads z decodeZ := by
  refine reads_byte fun byte hbyte => ?_
  have hmask : byte &&& 0x3F = byte % 64 := Nat.and_two_pow_sub_one_eq_mod byte 6
  simp only [Int.toNat_natCast, and_0x80 hbyte, and_0x40 hbyte, hmask, decide_eq_true_eq]
  by_cases hcont : 128 ≤ byte
  · simp only [if_pos hcont]
    have h := (reads_tail (byte % 64) 6 (by norm_num) (Nat.mod_lt _ (by norm_num))).map
      fun v => if byte / 64 % 2 = 1 then -v else v
    rw [Parser.map_map] at h
    exact h
  · simp only [if_neg hcont]
    exact Reads.ret _

theorem reads_rangedInt (minimum maximum : Int) : Reads (rangedInt minimum maximum)
      ((decodeInt (BinarySize.rangeToSize minimum maximum)).check (inRange minimum maximum)) :=
  (reads_int _).check fun v st => by
    simp only [inRange]
    generalize (if minimum > 0 then v + minimum else v) = v
    by_cases h : minimum ≤ v ∧ v ≤ maximum
    · simp [h]
    · simp [h]

theorem reads_float : Reads float (word 8 fun w => .ok (floatOfBytes w)) :=
  reads_word fun buffer ofs w hw => by
    have hw : sub buffer ofs 8 = .ok w := hw
    simp [getDouble, hw, floatOfBytes]

theorem reads_rangedFloat (minimum maximum : Float) :
    Reads (rangedFloat minimum maximum) ((word 8 fun w => .ok (floatOfBytes w)).check (inFloatRange minimum maximum)) :=
  reads_float.check fun v st => by
    simp only [inFloatRange]
    by_cases h : minimum ≤ v ∧ v ≤ maximum
    · simp [h]
    · simp [h]

theorem reads_stringEnum (arr : List α) :
    Reads (stringEnum arr) ((decodeInt (BinarySize.enumSize arr.length).toInteger).check (caseAt arr)) :=
  (reads_int _).check fun v st => by
    simp only [caseAt]
    cases arr[v.toNat]? <;> rfl

theorem reads_atom (a : Atom α) : Reads (atom a) (decodeAtom a) := by
  cases a with
  | bool => exact reads_bool
  | int8 => exact reads_int .int8
  | uint8 => exact reads_int .uint8
  | int16 => exact reads_int .int16
  | uint16 => exact reads_int .uint16
  | int31 => exact reads_int .int31
  | int32 =>
    unfold atom int32 decodeAtom
    refine reads_word fun buffer ofs w hw => ?_
    have hw : sub buffer ofs 4 = .ok w := hw
    simp [getInt32, hw]
  | int64 =>
    unfold atom int64 decodeAtom
    refine reads_word fun buffer ofs w hw => ?_
    have hw : sub buffer ofs 8 = .ok w := hw
    simp [getInt64, hw]
  | n => exact reads_n
  | z => exact reads_zNumber
  | rangedInt r => exact reads_rangedInt r.minimum r.maximum
  | rangedFloat minimum maximum => exact reads_rangedFloat minimum maximum
  | float => exact reads_float
  | bytes kind =>
    cases kind with
    | fixed n pos => exact reads_bytes n
    | «variable» => exact Reads.rounds reads_bytes id
  | string kind =>
    cases kind with
    | fixed n pos => exact reads_string n
    | «variable» => exact Reads.rounds reads_string id
  | stringEnum cases => exact reads_stringEnum cases.arr

/-! ### Parts of encodings -/

section Parts
variable {p : Decoder α} {read left : M α} {q : Decoder β} {right : M β} {m : Nat}

theorem Reads.list (h : Reads read p) (error : ReadError) (rounds : Nat) :
    ∀ maxLength, Reads (readList error read rounds maxLength) (decodeList error p rounds maxLength) := by
  induction rounds with
  | zero => exact fun _ => Reads.fail _
  | succ rounds ih =>
    intro maxLength
    refine (Reads.ret []).ifEmpty ?_
    by_cases hmax : maxLength = some 0
    · simp only [if_pos hmax]
      exact Reads.fail _
    · simp only [if_neg hmax]
      exact h.bind fun v => (ih _).map (v :: ·)

theorem Reads.all (h : Reads read p) (error : ReadError) (maxLength : Option Int) :
    Reads (do readList error read (listRounds maxLength (← get).remainingBytes) maxLength)
      (decodeAll error p maxLength) :=
  Reads.rounds (fun r => h.list error r maxLength) (listRounds maxLength)

theorem Reads.seq (hl : Reads left p) (hr : Reads right q) :
    Reads (do let v ← left; let w ← right; pure (v, w)) (decodeSeq p q) :=
  hl.bind fun v => hr.map fun w => (v, w)

theorem Reads.guard (h : Reads read p) (sz : Nat) :
    Reads (do let _ ← checkRemainingBytes sz; let _ ← checkAllowedBytes sz; read)
      (.guard (fun input a => do needs input sz; allows a sz) p) := fun st hst => by
  simp only [Parser.guard, run_bind, run_checkRemainingBytes hst, run_checkAllowedBytes, bind_assoc, ok_bind]
  cases needs st.window sz with
  | error x => exact Reads.fail x st hst
  | ok _ =>
    cases allows st.allowedBytes sz with
    | error x => exact Reads.fail x st hst
    | ok _ => exact h st hst

theorem State.Valid.shrink (h : st.Valid) (hm : m ≤ st.remainingBytes) : Valid { st with remainingBytes := m } := by
  unfold Valid at h ⊢
  simp only
  omega

theorem State.window_shrink (hm : m ≤ st.remainingBytes) :
    window { st with remainingBytes := m } = st.window.take m := by
  rw [window, window, take_take, Nat.min_eq_left hm]

/-- A reader that is given only the first `m` bytes of the window. -/
theorem Reads.shrink (h : Reads read p) (hst : st.Valid) (hm : m ≤ st.remainingBytes) :
    (∀ v k, p (st.window.take m) st.allowedBytes = .ok (v, k) →
      k ≤ m ∧ read { st with remainingBytes := m } = .ok (v, { st.advance k with remainingBytes := m - k })) ∧
    (∀ x, p (st.window.take m) st.allowedBytes = .error x → read { st with remainingBytes := m } = .error x) := by
  have hshr := h _ (hst.shrink hm)
  rw [window_shrink hm] at hshr
  exact hshr

/-- The left part leaves the last `n` bytes to the right one. -/
theorem Reads.ends (hl : Reads left p) (hr : Reads right q) (n : Nat) :
    Reads (readVariablePair .variable (.fixed n) left right) (decodeEnds n p q) := fun st hst => by
  have hlen := hst.length_window
  simp only [readVariablePair, decodeEnds, needs, hlen, run_bind, run_get, ok_bind]
  by_cases hn : st.remainingBytes < n
  · rw [if_pos (show n > st.remainingBytes from hn), if_pos hn]
    exact Reads.fail _ st hst
  · rw [if_neg (show ¬n > st.remainingBytes from hn), if_neg hn]
    obtain ⟨hok, herr⟩ := hl.shrink hst (Nat.sub_le st.remainingBytes n)
    simp only [ok_bind, run_bind, run_setRemainingBytes]
    cases hp : p (st.window.take (st.remainingBytes - n)) st.allowedBytes with
    | error x =>
      rw [herr x hp]
      exact Reads.fail x st hst
    | ok r =>
      obtain ⟨v, k⟩ := r
      obtain ⟨hk, hleft⟩ := hok v k hp
      simp only [hleft, ok_bind, run_get]
      by_cases hall : k = st.remainingBytes - n
      · have hnext : { st.advance k with remainingBytes := n } = st.advance k := by
          simp only [advance, mk.injEq, true_and, and_true]
          omega
        obtain ⟨hok', herr'⟩ := hr (st.advance k) (hst.advance (by omega))
        rw [window_advance] at hok' herr'
        have hdone : ¬st.remainingBytes - n - k ≠ 0 := by omega
        rw [if_neg hdone, if_neg (not_not.mpr hall)]
        simp only [run_bind, run_setRemainingBytes, ok_bind, hnext, ← hall]
        cases hq : q (st.window.drop k) (spend st.allowedBytes k) with
        | error x =>
          rw [herr' x hq]
          exact Reads.fail x st hst
        | ok r =>
          obtain ⟨w, k'⟩ := r
          obtain ⟨hk', hrgt⟩ := hok' w k' hq
          have hrem : (st.advance k).remainingBytes = n := by
            simp only [advance]
            omega
          simp only [hrgt, ok_bind, run_get, advance_advance]
          have hleft' : (st.advance (k + k')).remainingBytes = n - k' := by
            simp only [advance]
            omega
          rw [hleft']
          by_cases hall' : k' = n
          · have hdone' : ¬n - k' ≠ 0 := by omega
            rw [if_neg hdone', if_neg (not_not.mpr hall')]
            refine ⟨fun u m hu => ?_, fun x hx => by cases hx⟩
            cases hu
            exact ⟨by omega, rfl⟩
          · have hdone' : n - k' ≠ 0 := by omega
            rw [if_pos hdone', if_pos hall']
            exact Reads.fail _ st hst
      · have hdone : st.remainingBytes - n - k ≠ 0 := by omega
        rw [if_pos hdone, if_pos hall]
        exact Reads.fail _ st hst

theorem Reads.pair (hl : Reads left p) (hr : Reads right q) (kind leftKind rightKind : Kind) :
    Reads (readPair kind leftKind rightKind left right) (decodePair kind leftKind rightKind p q) := by
  cases kind with
  | fixed sz => exact (hl.seq hr).guard sz
  | dynamic => exact hl.seq hr
  | «variable» =>
    cases leftKind <;> cases rightKind
    case dynamic.variable => exact hl.seq hr
    case fixed.variable => exact hl.seq hr
    case variable.fixed n => exact hl.ends hr n
    all_goals exact Reads.fail _

/-- The reader of `Dynamic_size`. -/
theorem Reads.window (h : Reads read p) (sz : Nat) : Reads (do
        let remaining ← checkRemainingBytes sz
        setRemainingBytes sz
        let _ ← checkAllowedBytes sz
        let v ← read
        if (← get).remainingBytes ≠ 0 then throw (.readError .extraBytes)
        else
          setRemainingBytes remaining
          pure v) (decodeWindow p sz) := fun st hst => by
  simp only [decodeWindow, run_bind, run_checkRemainingBytes hst, bind_assoc, ok_bind, run_setRemainingBytes,
    run_checkAllowedBytes]
  cases hnds : needs st.window sz with
  | error x => exact Reads.fail x st hst
  | ok _ =>
    have hsz := needs_eq_ok hnds
    rw [hst.length_window] at hsz
    cases allows st.allowedBytes sz with
    | error x => exact Reads.fail x st hst
    | ok _ =>
      obtain ⟨hok, herr⟩ := h.shrink hst hsz
      cases hp : p (st.window.take sz) st.allowedBytes with
      | error x =>
        rw [herr x hp]
        exact Reads.fail x st hst
      | ok r =>
        obtain ⟨v, k⟩ := r
        obtain ⟨hk, hread⟩ := hok v k hp
        simp only [hread, ok_bind, run_get]
        by_cases hall : k = sz
        · rw [if_neg (not_not.mpr hall)]
          refine ⟨fun u m hu => ?_, fun x hx => by cases hx⟩
          cases hu
          exact ⟨by omega, by simp [hall, advance]⟩
        · have hdone : sz - k ≠ 0 := by omega
          rw [if_pos hdone, if_pos hall]
          exact Reads.fail _ st hst

theorem Reads.limit (h : Reads read p) (limit : Int) :
    Reads (readCheckSize limit read) (p.limit limit) := fun st hst => by
  obtain ⟨hok, herr⟩ := h { st with allowedBytes := limitTo st.allowedBytes limit } hst
  constructor
  · intro v k hv
    obtain ⟨hk, hread⟩ := hok v k hv
    refine ⟨hk, ?_⟩
    rcases ha : st.allowedBytes with _ | old
    · simp only [limitTo, ha, advance] at hread
      simp only [readCheckSize, run_bind, run_get, ok_bind, ha, run_setAllowedBytes, hread, run_pure, advance,
        spend_none]
    · simp only [limitTo, ha, advance, spend_some] at hread
      simp only [readCheckSize, run_bind, run_get, ok_bind, ha, run_setAllowedBytes, hread, run_pure, advance,
        spend_some, Except.ok.injEq, Prod.mk.injEq, mk.injEq, Option.some.injEq, true_and]
      omega
  · intro x hx
    have hread := herr x hx
    cases ha : st.allowedBytes with
    | none | some =>
      simp only [limitTo, ha] at hread
      simp [readCheckSize, ha, hread]

end Parts

section ReadRec
variable {ι : Type → Type}

/-- By induction on the encoding: one of the rules above for each constructor. -/
theorem reads_desc {read : {β : Type} → ι β → M β} {p : {β : Type} → ι β → Decoder β}
    (hrec : ∀ {β : Type} (x : ι β), Reads (read x) (p x)) {α : Type} (e : Encoding ι α) :
    Reads (readDesc read e) (decodeDesc p e) := by
  induction e with
  | null | empty | ignore | constant => exact Reads.ret ()
  | atom a => exact reads_atom a
  | padded e n ih => exact ih.bind fun v => (reads_string n).map fun _ => v
  | array maxLength e ih =>
    have h := (ih.all .listTooLong maxLength).map List.toArray
    exact h
  | list maxLength e ih => exact ih.all .arrayTooLong maxLength
  | req e ih | dft e ih | tup e ih | describe e ih | splitted e ih => exact ih
  | opt kind e ih =>
    cases kind with
    | dynamic =>
      refine reads_bool.bind fun present => ?_
      cases present
      · exact Reads.ret none
      · exact ih.map some
    | «variable» => exact (Reads.ret none).ifEmpty (ih.map some)
  | objs kind left right ihl ihr | tups kind left right ihl ihr => exact ihl.pair ihr _ _ _
  | union kind tagSize cases encoding ih =>
    simp only [readDesc, decodeDesc]
    refine (reads_tag tagSize).bind fun ctag => ?_
    rcases findTag cases ctag with _ | i
    · exact Reads.fail _
    · exact (ih i).map _
  | mu kind x => exact hrec x
  | conv proj inj e ih => exact ih.map inj
  | dynamicSize kind e ih => exact (reads_int _).bind fun sz => ih.window sz.toNat
  | checkSize limit e ih => exact ih.limit limit
  | delayed f ih => exact ih ()

theorem reads_rec (D : Defs ι) (fuel : Nat) {α : Type} (e : Encoding ι α) :
    Reads (readRec D fuel e) (decode D fuel e) := by
  induction fuel generalizing α with
  | zero => exact reads_desc (fun _ => Reads.fail _) e
  | succ fuel ih => exact reads_desc (fun x => ih (D.unfold x)) e

variable {D : Defs ι} {fuel : Nat} {e : Encoding ι α} {b : MBytes} {v : α}

theorem run_readRec : readRec D fuel e ⟨b, 0, b.length, none⟩ =
      (decode D fuel e b none >>= fun r => .ok (r.1, ⟨b, r.2, b.length - r.2, none⟩)) := by
  have hst : Valid ⟨b, 0, b.length, none⟩ := by simp [Valid]
  have hwin : window ⟨b, 0, b.length, none⟩ = b := by simp [window]
  obtain ⟨hok, herr⟩ := reads_rec D fuel e _ hst
  rw [hwin] at hok herr
  cases hdec : decode D fuel e b none with
  | error x => exact herr x hdec
  | ok r =>
    obtain ⟨-, hread⟩ := hok r.1 r.2 hdec
    have hadv : advance ⟨b, 0, b.length, none⟩ r.2 = ⟨b, r.2, b.length - r.2, none⟩ := by simp [advance]
    rw [ok_bind, ← hadv]
    exact hread

theorem ofBytesExn_eq : ofBytesExn D fuel e b =
      (decode D fuel e b none >>= fun r => if r.2 ≠ b.length then .error (.readError .extraBytes) else .ok r.1) := by
  simp only [ofBytesExn, run_readRec, bind_assoc]
  rfl

theorem read_eq : read D fuel e b 0 b.length = catchReadError (decode D fuel e b none >>= fun r => .ok (r.2, r.1)) := by
  simp only [read, run_readRec, bind_assoc]
  rfl

theorem catchReadError_eq_some {ρ : Type} {x : Except Exn ρ} {v : ρ} :
    catchReadError x = .ok (some v) ↔ x = .ok v := by
  unfold catchReadError
  split <;> simp_all

/-- `of_bytes` accepts exactly the buffers that the format decodes to their end. -/
theorem ofBytes_eq_some : ofBytes D fuel e b = .ok (some v) ↔ decode D fuel e b none = .ok (v, b.length) := by
  rw [ofBytes, catchReadError_eq_some, ofBytesExn_eq, bind_eq_ok]
  constructor
  · rintro ⟨⟨v', k⟩, hdec, h⟩
    by_cases hk : k = b.length
    · simp only [hk, ne_eq, not_true_eq_false, if_false, Except.ok.injEq] at h
      rw [hdec, hk, h]
    · simp only [ne_eq, hk, not_false_eq_true, if_true] at h
      cases h
  · intro hdec
    exact ⟨_, hdec, by simp⟩

theorem read_eq_some : read D fuel e b 0 b.length = .ok (some (k, v)) ↔ decode D fuel e b none = .ok (v, k) := by
  rw [read_eq, catchReadError_eq_some, bind_eq_ok]
  constructor
  · rintro ⟨⟨v', k'⟩, hdec, h⟩
    cases h
    exact hdec
  · intro hdec
    exact ⟨_, hdec, rfl⟩

end ReadRec

end Tezos.DataEncoding.Reader
