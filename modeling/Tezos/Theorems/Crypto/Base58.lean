import Tezos.Crypto.Base58
import Tezos.Lib.Radix

/-! Base58 is a bijection between byte strings and the strings over the alphabet: both directions convert numerals
    between the bases 256 and 58. A string of a registered encoding is decoded to its datum unless an encoding that was
    registered later claims it: `register_encoding` lets the same prefix be registered twice. -/

namespace Tezos.Base58
open Lib List Radix UInt8

variable {alphabet : Alphabet}

def char (alphabet : Alphabet) (d : ℕ) : UInt8 := (alphabet.encode[d]?).getD 0

variable {d i s : ℕ} {c : UInt8} {t res : List UInt8} {ds : List ℕ}

theorem encode_getElem? (alphabet : Alphabet) (h : d < base) : alphabet.encode[d]? = some (char alphabet d) := by
  have hlt : d < alphabet.encode.length := by rwa [alphabet.length_encode]
  rw [char, getElem?_eq_getElem hlt]
  rfl

theorem toChar_eq (h : d < base) : toChar alphabet d = .ok (char alphabet d) := by
  rw [toChar, encode_getElem? alphabet h]

theorem ofChar_eq (c : UInt8) : ofChar alphabet c = alphabet.encode.idxOf? c := by
  rw [ofChar, alphabet.decode_eq, Alphabet.positions_getElem?]
  rcases hidx : alphabet.encode.idxOf? c with _ | i
  · rfl
  · obtain ⟨hlt, -⟩ := findIdx?_eq_some_iff_getElem.mp hidx
    rw [alphabet.length_encode] at hlt
    show (if ofNat i = 255 then none else some (ofNat i).toNat) = some i
    rw [if_neg (Alphabet.ofNat_ne_255 hlt), toNat_ofNat_of_lt' (Nat.lt_trans hlt (by decide))]

theorem ofChar_char (h : d < base) : ofChar alphabet (char alphabet d) = some d := by
  obtain ⟨hlt, hd⟩ := List.getElem?_eq_some_iff.mp (encode_getElem? alphabet h)
  rw [ofChar_eq, ← hd, idxOf?, findIdx?_eq_some_iff_getElem]
  refine ⟨hlt, beq_self_eq_true _, fun j hj heq => ?_⟩
  exact absurd ((alphabet.nodup_encode.getElem_inj_iff).mp (eq_of_beq heq)) (Nat.ne_of_lt hj)

theorem exists_digit (h : c ∈ alphabet.encode) : ∃ d < base, char alphabet d = c := by
  obtain ⟨d, hlt, rfl⟩ := getElem_of_mem h
  refine ⟨d, alphabet.length_encode ▸ hlt, ?_⟩
  rw [char, getElem?_eq_getElem hlt]
  rfl

theorem zero_eq : alphabet.zero = char alphabet 0 := by
  rw [char, getElem?_eq_getElem alphabet.encode_pos]
  rfl

theorem char_eq_zero_iff (h : d < base) : char alphabet d = alphabet.zero ↔ d = 0 := by
  rw [zero_eq]
  refine ⟨fun heq => ?_, fun heq => heq ▸ rfl⟩
  have hsome : ofChar alphabet (char alphabet d) = some d := ofChar_char h
  rw [heq, ofChar_char (by decide)] at hsome
  exact (Option.some_inj.mp hsome).symm

theorem exists_digits (h : ∀ c ∈ t, c ∈ alphabet.encode) :
    ∃ ds : List ℕ, (∀ d ∈ ds, d < base) ∧ ds.map (char alphabet) = t := by
  induction t with
  | nil => exact ⟨[], fun _ hd => absurd hd not_mem_nil, rfl⟩
  | cons c t ih =>
    obtain ⟨d, hd, rfl⟩ := exists_digit (h c mem_cons_self)
    obtain ⟨ds, hds, rfl⟩ := ih fun c hc => h c (mem_cons_of_mem _ hc)
    exact ⟨d :: ds, forall_mem_cons.mpr ⟨hd, hds⟩, rfl⟩

def bytes (s : List UInt8) : List ℕ := s.map toNat

theorem bytes_lt (s : List UInt8) : ∀ d ∈ bytes s, d < 256 := by
  intro d hd
  obtain ⟨c, -, rfl⟩ := mem_map.mp hd
  exact c.toNat_lt

theorem bytes_ofNat (h : ∀ d ∈ ds, d < 256) : bytes (ds.map ofNat) = ds := by
  have hmap : ∀ d ∈ ds, (toNat ∘ ofNat) d = id d := fun d hd => toNat_ofNat_of_lt' (h d hd)
  rw [bytes, map_map, map_congr_left hmap, map_id]

theorem ofNat_bytes (s : List UInt8) : (bytes s).map ofNat = s := by
  rw [bytes, map_map]
  exact map_id'' (fun c => UInt8.ofNat_toNat) s

theorem countLeadingChar_map {f : ℕ → UInt8} (h : ∀ d ∈ ds, f d = c ↔ d = 0) :
    countLeadingChar (ds.map f) c = leadingZeros ds := by
  induction ds with
  | nil => rfl
  | cons d ds ih =>
    obtain ⟨hd, hds⟩ := forall_mem_cons.mp h
    rw [countLeadingChar, leadingZeros, map_cons, takeWhile_cons, takeWhile_cons]
    by_cases hzero : d = 0
    · rw [if_pos (beq_of_eq hzero), if_pos (beq_of_eq (hd.mpr hzero)), length_cons]
      exact congrArg Nat.succ (ih hds)
    · rw [if_neg fun heq => hzero (eq_of_beq heq), if_neg fun heq => hzero (hd.mp (eq_of_beq heq))]
      rfl

theorem countTrailingChar_reverse (s : List UInt8) : countTrailingChar s.reverse 0 = leadingZeros (bytes s) := by
  have hzero : ∀ d ∈ bytes s, ofNat d = 0 ↔ d = 0 := by
    intro d hd
    refine ⟨fun heq => ?_, fun heq => heq ▸ rfl⟩
    rw [← toNat_ofNat_of_lt' (bytes_lt s d hd), heq]
    rfl
  rw [← countLeadingChar_map hzero, ofNat_bytes, countTrailingChar, reverse_reverse]
  rfl

theorem encodeLoop_zero (free : ℕ) (res : List UInt8) : encodeLoop alphabet free 0 res = .ok (free, res) := by
  cases free <;> rw [encodeLoop, if_pos rfl]

theorem encodeLoop_succ (hs : s ≠ 0) (hi : i < res.length) :
    encodeLoop alphabet (i + 1) s res = encodeLoop alphabet i (s / base) (res.set i (char alphabet (s % base))) := by
  rw [encodeLoop, if_neg hs, toChar_eq (Nat.mod_lt s (by decide))]
  exact if_pos hi

theorem drop_set_self (hi : i < res.length) (c : UInt8) : (res.set i c).drop i = c :: res.drop (i + 1) := by
  rw [drop_eq_getElem_cons (by rwa [length_set]), getElem_set_self, drop_set_of_lt (Nat.lt_succ_self i)]

theorem encodeLoop_ok (alphabet : Alphabet) {free : ℕ} (res : List UInt8) (hfree : free ≤ res.length)
    (hlen : (numeral base s).length ≤ free) :
    ∃ res', encodeLoop alphabet free s res = .ok (free - (numeral base s).length, res') ∧
      res'.drop (free - (numeral base s).length) =
        (numeral base s).map (char alphabet) ++ res.drop free := by
  induction free generalizing s res with
  | zero =>
    have hs : s = 0 := by
      by_contra hs
      rw [numeral_of_ne_zero (by decide) hs, length_append] at hlen
      exact Nat.not_succ_le_zero _ hlen
    rw [hs]
    exact ⟨res, encodeLoop_zero 0 res, rfl⟩
  | succ i ih =>
    by_cases hs : s = 0
    · rw [hs]
      exact ⟨res, encodeLoop_zero (i + 1) res, rfl⟩
    · rw [numeral_of_ne_zero (by decide) hs, length_append] at hlen ⊢
      obtain ⟨res', hok, hdrop⟩ :=
        ih (res.set i (char alphabet (s % base)))
          (by rw [length_set]; exact Nat.le_of_succ_le hfree) (Nat.le_of_succ_le_succ hlen)
      rw [length_singleton, Nat.add_sub_add_right, encodeLoop_succ hs hfree, map_append, append_assoc]
      refine ⟨res', hok, ?_⟩
      rw [hdrop, drop_set_self hfree]
      rfl

theorem length_numeral_le_buffer (s : List UInt8) :
    (numeral base (value 256 (bytes s))).length ≤ (s.length * 8 + 4) / 5 := by
  refine length_numeral_le (by decide) ?_
  have hbyt : value 256 (bytes s) < 256 ^ s.length := by
    have hlt := value_lt (by decide) (bytes_lt s)
    rwa [bytes, length_map] at hlt
  calc value 256 (bytes s) < 256 ^ s.length := hbyt
    _ = 2 ^ (8 * s.length) := by rw [Nat.pow_mul]
    _ ≤ 2 ^ (5 * ((s.length * 8 + 4) / 5)) := Nat.pow_le_pow_right (by decide) (by omega)
    _ = 32 ^ ((s.length * 8 + 4) / 5) := by rw [Nat.pow_mul]
    _ ≤ base ^ ((s.length * 8 + 4) / 5) := Nat.pow_le_pow_left (by decide) _

theorem rawEncode_eq (s : List UInt8) :
    rawEncode alphabet s = .ok ((convert 256 base (bytes s)).map (char alphabet)) := by
  have hval : ofBits s.reverse = value 256 (bytes s) := by
    rw [ofBits, value, bytes, map_reverse]
  obtain ⟨res, hok, hdrop⟩ :=
    encodeLoop_ok alphabet (replicate ((s.length * 8 + 4) / 5) 0)
      (Nat.le_of_eq length_replicate.symm) (length_numeral_le_buffer s)
  rw [drop_replicate, Nat.sub_self, replicate_zero, append_nil] at hdrop
  unfold rawEncode
  simp only [hval, hok, bind, Except.bind, pure, Except.pure, countTrailingChar_reverse]
  rw [hdrop, convert, map_append, map_replicate, zero_eq]

theorem decodeDigit_some (h : d < base) (a : ℕ) :
    decodeDigit alphabet (some a) (char alphabet d) = some (d + base * a) := by
  unfold decodeDigit
  rw [ofChar_char h, Nat.mul_comm]

theorem foldl_decodeDigit (h : ∀ d ∈ ds, d < base) (a : ℕ) :
    (ds.map (char alphabet)).foldl (decodeDigit alphabet) (some a) = some (ds.foldl (fun a d => d + base * a) a) := by
  induction ds generalizing a with
  | nil => rfl
  | cons d ds ih =>
    obtain ⟨hd, hds⟩ := forall_mem_cons.mp h
    rw [map_cons, foldl_cons, decodeDigit_some hd, ih hds]
    rfl

theorem foldl_decodeDigit_none (t : List UInt8) : t.foldl (decodeDigit alphabet) none = none := by
  induction t with
  | nil => rfl
  | cons c t ih => exact ih

theorem foldl_decodeDigit_of_not_mem (hmem : c ∈ t) (hc : c ∉ alphabet.encode) (a : Option ℕ) :
    t.foldl (decodeDigit alphabet) a = none := by
  obtain ⟨before, after, rfl⟩ := append_of_mem hmem
  have hnone : ofChar alphabet c = none := by
    rw [ofChar_eq]
    exact idxOf?_eq_none_iff.mpr hc
  have hstep : ∀ a, decodeDigit alphabet a c = none := by
    intro a
    unfold decodeDigit
    rw [hnone]
    cases a <;> rfl
  rw [foldl_append, foldl_cons, hstep, foldl_decodeDigit_none]

theorem value_eq_foldl (ds : List ℕ) : value base ds = ds.foldl (fun a d => d + base * a) 0 := by
  rw [value, Nat.ofDigits_eq_foldr, foldr_reverse]
  rfl

theorem take_toBits (n : ℕ) : ((toBits n).take ((toBits n).length - countTrailingChar (toBits n) 0)).reverse =
      (numeral 256 n).map ofNat := by
  obtain ⟨k, hk⟩ : ∃ k, toBits n = (Nat.digits 256 n).map ofNat ++ replicate k 0 := ⟨_, rfl⟩
  have hcnt : countTrailingChar (toBits n) 0 = k := by
    have hrev : (toBits n).reverse = (replicate k 0 ++ numeral 256 n).map ofNat := by
      rw [hk, reverse_append, reverse_replicate, ← map_reverse, map_append, map_replicate]
      rfl
    have hlt : ∀ d ∈ replicate k 0 ++ numeral 256 n, d < 256 := by
      intro d hd
      rcases mem_append.mp hd with hzero | hdig
      · rw [eq_of_mem_replicate hzero]
        decide
      · exact Nat.digits_lt_base (by decide) (mem_reverse.mp hdig)
    rw [← reverse_reverse (toBits n), countTrailingChar_reverse, hrev, bytes_ofNat hlt,
      leadingZeros_append head?_numeral_ne_zero]
  rw [hcnt, hk, length_append, length_replicate, Nat.add_sub_cancel, take_left, ← map_reverse]
  rfl

theorem rawDecode_eq (h : ∀ d ∈ ds, d < base) :
    rawDecode alphabet (ds.map (char alphabet)) = some ((convert base 256 ds).map ofNat) := by
  rw [rawDecode, foldl_decodeDigit h, ← value_eq_foldl]
  simp only [take_toBits, countLeadingChar_map fun d hd => char_eq_zero_iff (h d hd)]
  rw [convert, map_append, map_replicate]
  rfl

theorem rawDecode_eq_none (hmem : c ∈ t) (hc : c ∉ alphabet.encode) : rawDecode alphabet t = none := by
  rw [rawDecode, foldl_decodeDigit_of_not_mem hmem hc]
  rfl

theorem rawDecode_of_rawEncode {s : List UInt8} (h : rawEncode alphabet s = .ok t) : rawDecode alphabet t = some s := by
  rw [rawEncode_eq] at h
  rw [← Except.ok.inj h, rawDecode_eq (convert_lt (by decide)), convert_convert (by decide) (bytes_lt s),
    ofNat_bytes]

theorem rawEncode_of_rawDecode {s : List UInt8} (h : rawDecode alphabet t = some s) : rawEncode alphabet s = .ok t := by
  have hall : ∀ c ∈ t, c ∈ alphabet.encode := by
    intro c hmem
    by_contra hc
    rw [rawDecode_eq_none hmem hc] at h
    cases h
  obtain ⟨ds, hds, rfl⟩ := exists_digits hall
  rw [rawDecode_eq hds] at h
  rw [← Option.some_inj.mp h, rawEncode_eq, bytes_ofNat (convert_lt (by decide)),
    convert_convert (by decide) hds]

theorem isSome_rawDecode (t : List UInt8) : (rawDecode alphabet t).isSome = alphabet.allInAlphabet t := by
  rw [Bool.eq_iff_iff, Alphabet.allInAlphabet, all_eq_true]
  constructor
  · intro hsome c hmem
    by_contra hc
    rw [contains_iff_mem] at hc
    rw [rawDecode_eq_none hmem hc] at hsome
    exact absurd hsome Bool.false_ne_true
  · intro hall
    obtain ⟨ds, hds, rfl⟩ := exists_digits fun c hc => contains_iff_mem.mp (hall c hc)
    rw [rawDecode_eq hds]
    rfl

/-- Every byte string is encoded without leaving the buffer, to the one string that is decoded to it, and the strings
    that are decoded to something are those over the alphabet. -/
theorem raw_bijective (alphabet : Alphabet) : (∀ s, ∃ t, rawEncode alphabet s = .ok t) ∧
      (∀ s t, rawEncode alphabet s = .ok t ↔ rawDecode alphabet t = some s) ∧
      ∀ t, (rawDecode alphabet t).isSome = alphabet.allInAlphabet t :=
  ⟨fun s => ⟨_, rawEncode_eq s⟩, fun _ _ => ⟨rawDecode_of_rawEncode, rawEncode_of_rawDecode⟩, isSome_rawDecode⟩

/-! ### Encodings -/

variable {δ : Type} {hash : Sha256}

theorem length_checksum (s : List UInt8) : (checksum hash s).length = 4 := by
  rw [checksum, length_take, hash.length_digest]
  rfl

theorem safeEncode_ok (hash : Sha256) (alphabet : Alphabet) (s : List UInt8) :
    ∃ t, safeEncode hash alphabet s = .ok t ∧ safeDecode hash alphabet t = some s := by
  refine ⟨_, rawEncode_eq _, ?_⟩
  have hlen : (s ++ checksum hash s).length = s.length + 4 := by rw [length_append, length_checksum]
  rw [safeDecode, rawDecode_of_rawEncode (rawEncode_eq _), Option.bind_some]
  simp only [hlen, Nat.add_sub_cancel, take_left, drop_left]
  rw [if_neg (Nat.not_lt.mpr (Nat.le_add_left 4 s.length)), if_neg fun hne => hne rfl]

theorem removePrefix_append (prefix_ s : List UInt8) : removePrefix prefix_ (prefix_ ++ s) = some s := by
  rw [removePrefix, if_pos, drop_left]
  exact ⟨by rw [length_append]; exact Nat.le_add_right _ _, take_left⟩

/-- What a registered encoding reads after its prefix. -/
def Registration.read (reg : Registration δ) (msg : List UInt8) : Except Failure (Option δ) :=
  if msg.length = reg.length then .ok ((reg.ofRaw msg).map reg.wrap) else .error .assertFailure

variable {reg : Registration δ} {enc : Encoding δ reg.α} {encodings registered : List (RegisteredEncoding δ)}

theorem registerEncoding_ok (h : registerEncoding hash reg encodings = .ok (enc, registered)) :
    enc.prefix_ = reg.prefix_ ∧ enc.length = reg.length ∧ enc.wrap = reg.wrap ∧
      registered = .encoding enc :: encodings ∧
      (∀ x, enc.toRaw x = if (reg.toRaw x).length = reg.length then .ok (reg.toRaw x) else .error .assertFailure) ∧
      ∀ s, enc.ofRaw s = if s.length = reg.length then .ok (reg.ofRaw s) else .error .assertFailure := by
  unfold registerEncoding at h
  split at h
  · cases h
  · split at h
    · cases h
    · obtain ⟨rfl, rfl⟩ := Prod.mk.inj (Except.ok.inj h)
      exact ⟨rfl, rfl, rfl, rfl, fun _ => rfl, fun _ => rfl⟩

theorem find_registerEncoding (h : registerEncoding hash reg encodings = .ok (enc, registered)) (s : List UInt8) :
    find s registered = match removePrefix reg.prefix_ s with
      | none => find s encodings
      | some msg => reg.read msg := by
  obtain ⟨hpre, -, hwrap, rfl, -, hofRaw⟩ := registerEncoding_ok h
  rw [find, hpre]
  rcases removePrefix reg.prefix_ s with _ | msg
  · rfl
  · simp only [hofRaw, hwrap, Registration.read]
    split <;> rfl

/-- The last of the registrations whose prefix the string begins with, and what follows the prefix. -/
def claimant (s : List UInt8) : List (Registration δ) → Option (Registration δ × List UInt8)
  | [] => none
  | reg :: regs => (claimant s regs).or ((removePrefix reg.prefix_ s).map fun msg => (reg, msg))

theorem find_registerAll {regs : List (Registration δ)} (h : registerAll hash regs encodings = .ok registered)
    (s : List UInt8) :
    find s registered = match claimant s regs with
      | none => find s encodings
      | some (reg, msg) => reg.read msg := by
  induction regs generalizing encodings with
  | nil =>
    rw [← Except.ok.inj h]
    rfl
  | cons reg regs ih =>
    rw [registerAll] at h
    split at h
    · cases h
    · rename_i hreg
      rw [ih h, claimant, find_registerEncoding hreg]
      cases claimant s regs with
      | some _ => rfl
      | none =>
        rcases removePrefix reg.prefix_ s with _ | _
        · rfl
        · rfl

/-- No other encoding claims the string: the last of the registrations whose prefix it begins with, if there is one,
    reads what follows as the same datum. -/
def Unclaimed (regs : List (Registration δ)) (s : List UInt8) (d : δ) : Prop :=
  ∀ reg msg, claimant s regs = some (reg, msg) → msg.length = reg.length ∧ (reg.ofRaw msg).map reg.wrap = some d

theorem Registration.read_eq_iff {msg : List UInt8} {d : δ} :
    reg.read msg = .ok (some d) ↔ msg.length = reg.length ∧ (reg.ofRaw msg).map reg.wrap = some d := by
  unfold Registration.read
  split
  · rename_i hlen
    exact ⟨fun h => ⟨hlen, Except.ok.inj h⟩, fun h => congrArg Except.ok h.2⟩
  · rename_i hlen
    exact ⟨fun h => absurd h nofun, fun h => absurd h.1 hlen⟩

theorem decode_simpleEncode {earlier : List (RegisteredEncoding δ)}
    (hreg : registerEncoding hash reg earlier = .ok (enc, registered)) {v : reg.α}
    (hlen : (reg.toRaw v).length = reg.length) (encodings : List (RegisteredEncoding δ)) :
    (simpleEncode hash alphabet enc v).bind (decode hash alphabet encodings) =
      find (reg.prefix_ ++ reg.toRaw v) encodings := by
  obtain ⟨hpre, -, -, -, htoRaw, -⟩ := registerEncoding_ok hreg
  obtain ⟨t, henc, hdec⟩ := safeEncode_ok hash alphabet (reg.prefix_ ++ reg.toRaw v)
  have hstr : simpleEncode hash alphabet enc v = .ok t := by
    rw [simpleEncode, htoRaw, if_pos hlen, hpre]
    exact henc
  rw [hstr, Except.bind, decode, hdec]

/-- The string of a datum is decoded to the datum if, and only if, no encoding that was registered later claims it. -/
theorem decode_simpleEncode_iff (alphabet : Alphabet) {reg : Registration δ} (after : List (Registration δ))
    {earlier registered encodings : List (RegisteredEncoding δ)} {enc : Encoding δ reg.α} {v : reg.α}
    (hreg : registerEncoding hash reg earlier = .ok (enc, registered))
    (hafter : registerAll hash after registered = .ok encodings) (hv : (enc.toRaw v).bind enc.ofRaw = .ok (some v)) :
    (simpleEncode hash alphabet enc v).bind (decode hash alphabet encodings) = .ok (some (enc.wrap v)) ↔
      Unclaimed after (reg.prefix_ ++ reg.toRaw v) (reg.wrap v) := by
  obtain ⟨-, -, hwrap, -, htoRaw, hofRaw⟩ := registerEncoding_ok hreg
  have hlen : (reg.toRaw v).length = reg.length := by
    by_contra hne
    rw [htoRaw, if_neg hne] at hv
    cases hv
  have hread : reg.read (reg.toRaw v) = .ok (some (reg.wrap v)) := by
    rw [htoRaw, if_pos hlen, Except.bind, hofRaw, if_pos hlen] at hv
    rw [Registration.read, if_pos hlen, Except.ok.inj hv]
    rfl
  rw [decode_simpleEncode hreg hlen, hwrap, find_registerAll hafter, find_registerEncoding hreg, removePrefix_append]
  unfold Unclaimed
  rcases claimant (reg.prefix_ ++ reg.toRaw v) after with _ | claim
  · exact ⟨fun _ _ _ h => absurd h nofun, fun _ => hread⟩
  · obtain ⟨other, msg⟩ := claim
    rw [Registration.read_eq_iff]
    exact ⟨fun h _ _ heq => by cases heq; exact h, fun h => h other msg rfl⟩

def blockHashes (constructor_ : Bool) : Registration Bool where
  α := { s : List UInt8 // s.length = 32 }
  prefix_ := blockHashPrefix
  length := 32
  toRaw := Subtype.val
  ofRaw s := if h : s.length = 32 then some ⟨s, h⟩ else none
  wrap _ := constructor_

theorem rawEncode_blockHash {s : List UInt8} (h : s.length = 36) :
    ∃ t, t.length = 50 ∧ rawEncode .bitcoin (blockHashPrefix ++ s) = .ok (char .bitcoin 10 :: t) := by
  have hbyt : bytes (blockHashPrefix ++ s) = [1, 52] ++ bytes s := map_append
  have hlow : Radix.value 256 (bytes s) < 256 ^ 36 := by
    have hlt := Radix.value_lt (by decide) (bytes_lt s)
    rwa [bytes, length_map, h] at hlt
  have hval : Radix.value 256 (bytes (blockHashPrefix ++ s)) = 308 * 256 ^ 36 + Radix.value 256 (bytes s) := by
    rw [hbyt, Radix.value_concat, bytes, length_map, h]
    rfl
  have hquot : Radix.value 256 (bytes (blockHashPrefix ++ s)) / base ^ 50 = 10 := by
    have hbel : 10 * base ^ 50 ≤ 308 * 256 ^ 36 := by decide
    have habv : 309 * 256 ^ 36 ≤ 11 * base ^ 50 := by decide
    rw [hval]
    refine Nat.div_eq_of_lt_le (Nat.le_trans hbel (Nat.le_add_right _ _)) (Nat.lt_of_lt_of_le ?_ habv)
    omega
  obtain ⟨low, hlen, hnum⟩ := Radix.exists_numeral_eq_append (b := base) (by decide) (by rw [hquot]; decide)
  rw [hquot] at hnum
  refine ⟨low.map (char .bitcoin), by rw [length_map, hlen], ?_⟩
  rw [rawEncode_eq, Radix.convert, hnum]
  rfl

theorem makeEncodedPrefix_blockHash (hash : Sha256) :
    ∃ prefix_, makeEncodedPrefix hash blockHashPrefix 32 = .ok (prefix_, 51) := by
  have henc : ∀ c : UInt8, ∃ t, t.length = 50 ∧
      safeEncode hash .bitcoin (blockHashPrefix ++ replicate 32 c) = .ok (char .bitcoin 10 :: t) := by
    intro c
    rw [safeEncode, append_assoc]
    exact rawEncode_blockHash (by rw [length_append, length_replicate, length_checksum])
  obtain ⟨zeros, hzer, hz⟩ := henc 0
  obtain ⟨ones, hones, ho⟩ := henc 255
  refine ⟨(char .bitcoin 10 :: zeros).take (commonLength zeros ones + 1), ?_⟩
  simp only [makeEncodedPrefix, hz, ho, bind, Except.bind, length_cons, hzer, hones, ne_eq, not_true_eq_false,
    if_false, commonLength, if_true]
  rfl

/-- The test for ambiguous prefixes lets every registration of block hashes pass, as no encoding registered so far is
    for raw strings of 51 bytes. -/
theorem registerEncoding_blockHashes (hash : Sha256) (constructor_ : Bool) (encodings : List (RegisteredEncoding Bool))
    (h : ∀ p, checkAmbiguousPrefix p 51 encodings = .ok ()) :
    ∃ enc registered, registerEncoding hash (blockHashes constructor_) encodings = .ok (enc, registered) := by
  obtain ⟨p, hp⟩ := makeEncodedPrefix_blockHash hash
  have hmake : makeEncodedPrefix hash (blockHashes constructor_).prefix_ (blockHashes constructor_).length = .ok (p, 51) :=
    hp
  unfold registerEncoding
  simp only [hmake, h]
  exact ⟨_, _, rfl⟩

theorem length_zeros : (replicate 32 (0 : UInt8)).length = 32 := rfl

def zeroHash (constructor_ : Bool) : (blockHashes constructor_).α := ⟨replicate 32 0, length_zeros⟩

/-- Two registrations of block hashes succeed, and a hash encoded by the first one is decoded as one of the second,
    whatever the digests are. -/
theorem decode_registered_twice (hash : Sha256) (constructor_ : Bool) : ∃ enc registered other encodings,
    registerEncoding hash (blockHashes true) [] = .ok (enc, registered) ∧
      registerEncoding hash (blockHashes constructor_) registered = .ok (other, encodings) ∧
      (enc.toRaw (zeroHash true)).bind enc.ofRaw = .ok (some (zeroHash true)) ∧
      (simpleEncode hash .bitcoin enc (zeroHash true)).bind (decode hash .bitcoin encodings) = .ok (some constructor_) := by
  obtain ⟨enc, registered, hfst⟩ := registerEncoding_blockHashes hash true [] fun _ => rfl
  obtain ⟨-, hlen, -, rfl, htoRaw, hofRaw⟩ := registerEncoding_ok hfst
  obtain ⟨other, encodings, hsec⟩ := registerEncoding_blockHashes hash constructor_ [.encoding enc] fun p => by
    rw [checkAmbiguousPrefix, hlen]
    exact if_neg fun h => absurd h.1 (by decide)
  refine ⟨enc, _, other, encodings, hfst, hsec, ?_, ?_⟩
  · rw [htoRaw]
    exact hofRaw _
  · rw [decode_simpleEncode hfst rfl, find_registerEncoding hsec]
    rfl

def constantHash : Sha256 where
  digest _ := replicate 32 0
  length_digest _ := rfl

theorem decode_blockHash_twice : ∃ enc registered other encodings,
    registerEncoding constantHash (blockHashes true) [] = .ok (enc, registered) ∧
      registerEncoding constantHash (blockHashes false) registered = .ok (other, encodings) ∧
      (enc.toRaw (zeroHash true)).bind enc.ofRaw = .ok (some (zeroHash true)) ∧
      (simpleEncode constantHash .bitcoin enc (zeroHash true)).bind (decode constantHash .bitcoin encodings) =
        .ok (some false) :=
  decode_registered_twice constantHash false

/-- The second registration claims the string, and makes the same datum of it. -/
theorem decode_simpleEncode_again : ∃ enc registered other encodings,
    registerEncoding constantHash (blockHashes true) [] = .ok (enc, registered) ∧
      registerEncoding constantHash (blockHashes true) registered = .ok (other, encodings) ∧
      (enc.toRaw (zeroHash true)).bind enc.ofRaw = .ok (some (zeroHash true)) ∧
      (simpleEncode constantHash .bitcoin enc (zeroHash true)).bind (decode constantHash .bitcoin encodings) =
        .ok (some true) := by
  obtain ⟨enc, registered, other, encodings, hreg, hother, hv, -⟩ := decode_registered_twice constantHash true
  obtain ⟨-, -, hwrap, -⟩ := registerEncoding_ok hreg
  have hafter : registerAll constantHash [blockHashes true] registered = .ok encodings := by
    rw [registerAll, hother]
    rfl
  have hdec := (decode_simpleEncode_iff .bitcoin [blockHashes true] hreg hafter hv).mpr fun reg msg hclaim => by
    cases hclaim
    exact ⟨rfl, rfl⟩
  rw [hwrap] at hdec
  exact ⟨enc, registered, other, encodings, hreg, hother, hv, hdec⟩

end Tezos.Base58
