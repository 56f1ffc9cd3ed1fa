import Mathlib.Data.List.Nodup
import Mathlib.Data.Nat.Digits.Defs

/-! Base58 of byte strings, with and without a checksum, and the registered encodings, told apart by a prefix of the
    bytes they encode (`lib_crypto/base58.ml`). A string is the list of its bytes; the extensible type `data` is the
    parameter `δ`. -/

namespace Tezos.Base58

def base : Nat := 58

inductive Failure where
  /-- `Invalid_argument`, with the format of its message and the bytes that are printed in it. -/
  | invalidArg (format : String) (args : List (List UInt8))
  | assertFailure
deriving DecidableEq

/-- What `decode` holds for an alphabet: for each byte its position, and 255 for a byte outside. -/
def positions (alphabet : List UInt8) : List UInt8 :=
  (List.range 256).map fun c => ((alphabet.idxOf? (UInt8.ofNat c)).map UInt8.ofNat).getD 255

structure Alphabet where
  encode : List UInt8
  decode : List UInt8
  length_encode : encode.length = base
  nodup_encode : encode.Nodup
  decode_eq : decode = positions encode

namespace Alphabet
open List

def fill (str : List UInt8) (i : Nat) : List UInt8 → Except Failure (List UInt8)
  | [] => .ok str
  | char :: rest =>
    if str[char.toNat]? ≠ some 255 then
      .error (.invalidArg "Base58: invalid alphabet (dup '%c' %d %d)"
        [[char], [(str[char.toNat]?).getD 255], [UInt8.ofNat i]])
    else fill (str.set char.toNat (UInt8.ofNat i)) (i + 1) rest

theorem length_positions (alphabet : List UInt8) : (positions alphabet).length = 256 := by
  rw [positions, length_map, length_range]

theorem positions_getElem? (alphabet : List UInt8) (char : UInt8) :
    (positions alphabet)[char.toNat]? = some (((alphabet.idxOf? char).map UInt8.ofNat).getD 255) := by
  have hlt : char.toNat < 256 := char.toNat_lt
  rw [positions, getElem?_map, getElem?_range hlt, Option.map_some, UInt8.ofNat_toNat]

theorem ofNat_ne_255 {i : Nat} (h : i < base) : UInt8.ofNat i ≠ 255 := by
  intro heq
  have hmod : i % 256 = 255 := congrArg UInt8.toNat heq
  have hlt : i < 58 := h
  omega

theorem positions_eq_255_iff {alphabet : List UInt8} (h : alphabet.length ≤ base) (char : UInt8) :
    (positions alphabet)[char.toNat]? = some 255 ↔ char ∉ alphabet := by
  rw [positions_getElem?, Option.some_inj]
  cases hidx : alphabet.idxOf? char with
  | none => exact ⟨fun _ => idxOf?_eq_none_iff.mp hidx, fun _ => rfl⟩
  | some i =>
    obtain ⟨hlt, heq, -⟩ := findIdx?_eq_some_iff_getElem.mp hidx
    have hmem : char ∈ alphabet := (eq_of_beq heq) ▸ getElem_mem hlt
    exact ⟨fun h255 => absurd h255 (ofNat_ne_255 (Nat.lt_of_lt_of_le hlt h)), fun hnot => absurd hmem hnot⟩

theorem positions_concat {alphabet : List UInt8} {char : UInt8} (h : char ∉ alphabet) :
    positions (alphabet ++ [char]) = (positions alphabet).set char.toNat (UInt8.ofNat alphabet.length) := by
  refine ext_getElem? fun n => ?_
  by_cases hn : n < 256
  · obtain ⟨c, rfl⟩ : ∃ c : UInt8, c.toNat = n := ⟨UInt8.ofNat n, UInt8.toNat_ofNat_of_lt hn⟩
    rw [positions_getElem?, getElem?_set, positions_getElem?, length_positions, List.idxOf?, findIdx?_append]
    by_cases hc : char = c
    · subst hc
      have hnone : alphabet.findIdx? (· == char) = none := idxOf?_eq_none_iff.mpr h
      rw [hnone, if_pos rfl, if_pos hn, findIdx?_singleton, if_pos (beq_self_eq_true char), Option.map_some,
        Nat.zero_add]
      rfl
    · have hne : ([char].findIdx? (· == c)) = none := by simp [hc]
      rw [hne, Option.map_none, Option.or_none, if_neg fun heq => hc (UInt8.toNat_inj.mp heq)]
  · rw [getElem?_eq_none, getElem?_eq_none]
    · rw [length_set, length_positions]
      exact Nat.le_of_not_lt hn
    · rw [length_positions]
      exact Nat.le_of_not_lt hn

theorem fill_ok {str rest : List UInt8} (done_ : List UInt8) (hlen : (done_ ++ rest).length ≤ base) (hnd : done_.Nodup)
    (h : fill (positions done_) done_.length rest = .ok str) :
    (done_ ++ rest).Nodup ∧ str = positions (done_ ++ rest) := by
  induction rest generalizing done_ with
  | nil =>
    rw [append_nil]
    exact ⟨hnd, (Except.ok.inj h).symm⟩
  | cons char rest ih =>
    have hdone : done_.length ≤ base := by
      rw [length_append] at hlen
      exact Nat.le_of_add_right_le hlen
    rw [fill] at h
    split at h
    · exact absurd h nofun
    · rename_i hfree
      have hchar : char ∉ done_ := (positions_eq_255_iff hdone char).mp (not_not.mp hfree)
      rw [← positions_concat hchar] at h
      rw [append_cons] at hlen ⊢
      refine ih (done_ ++ [char]) hlen (nodup_append.mpr ⟨hnd, nodup_singleton char, ?_⟩) ?_
      · intro a ha b hb heq
        exact hchar (mem_singleton.mp hb ▸ heq ▸ ha)
      · rw [length_append]
        exact h

theorem positions_nil : positions [] = List.replicate 256 255 := by
  refine eq_replicate_iff.mpr ⟨length_positions [], fun c hc => ?_⟩
  obtain ⟨n, -, rfl⟩ := mem_map.mp hc
  rfl

def make (alphabet : List UInt8) : Except Failure Alphabet :=
  if hlen : alphabet.length ≠ base then .error (.invalidArg "Base58: invalid alphabet (length)" [])
  else
    match hfill : fill (List.replicate 256 255) 0 alphabet with
    | .error e => .error e
    | .ok str =>
      have hpos := fill_ok [] (Nat.le_of_eq (not_not.mp hlen)) List.nodup_nil (positions_nil ▸ hfill)
      .ok ⟨alphabet, str, not_not.mp hlen, hpos.1, hpos.2⟩

def ofText (s : String) : List UInt8 := s.toList.map fun c => UInt8.ofNat c.toNat

def bitcoin : Alphabet :=
  (make (ofText "123456789ABCDEFGHJKLMNPQRSTUVWXYZabcdefghijkmnopqrstuvwxyz")).toOption.get (by decide +kernel)

def allInAlphabet (alphabet : Alphabet) (string : List UInt8) : Bool := string.all fun c => alphabet.encode.contains c

theorem encode_pos (alphabet : Alphabet) : 0 < alphabet.encode.length := by
  rw [alphabet.length_encode]
  exact Nat.succ_pos 57

def zero (alphabet : Alphabet) : UInt8 := alphabet.encode.get ⟨0, alphabet.encode_pos⟩

end Alphabet

variable (alphabet : Alphabet) (s : List UInt8)

def countTrailingChar (c : UInt8) : Nat := (s.reverse.takeWhile (· == c)).length

def countLeadingChar (c : UInt8) : Nat := (s.takeWhile (· == c)).length

def outOfBounds : Failure := .invalidArg "index out of bounds" []

def ofChar (x : UInt8) : Option Nat :=
  (alphabet.decode[x.toNat]?).bind fun pos => if pos = 255 then none else some pos.toNat

def toChar (x : Nat) : Except Failure UInt8 :=
  match alphabet.encode[x]? with
  | some c => .ok c
  | none => .error outOfBounds

/-- `Z.of_bits`: the first byte has the lowest weight. -/
def ofBits : Nat := Nat.ofDigits 256 (s.map UInt8.toNat)

/-- `Z.to_bits`: as many words of 8 bytes as the number takes. -/
def toBits (n : Nat) : List UInt8 :=
  let bytes := (Nat.digits 256 n).map UInt8.ofNat
  bytes ++ List.replicate ((8 - bytes.length % 8) % 8) 0

/-- The loop of `raw_encode`. The source's `i` is `free - 1`: the characters before position `free` of the buffer are
    still to be written, and there is none left when the loop writes at -1. -/
def encodeLoop (alphabet : Alphabet) : Nat → Nat → List UInt8 → Except Failure (Nat × List UInt8)
  | free, s, res =>
    if s = 0 then .ok (free, res)
    else
      match free with
      | 0 => .error outOfBounds
      | i + 1 => do
        let c ← toChar alphabet (s % base)
        if i < res.length then encodeLoop alphabet i (s / base) (res.set i c) else .error outOfBounds

def rawEncode : Except Failure (List UInt8) := do
  let len := s.length
  let s := s.reverse
  let zeros := countTrailingChar s 0
  let resLen := (len * 8 + 4) / 5
  let (free, res) ← encodeLoop alphabet resLen (ofBits s) (List.replicate resLen 0)
  return List.replicate zeros alphabet.zero ++ res.drop free

def decodeDigit (a : Option Nat) (c : UInt8) : Option Nat :=
  match a, ofChar alphabet c with
  | some a, some i => some (i + a * base)
  | _, _ => none

def rawDecode : Option (List UInt8) :=
  (s.foldl (decodeDigit alphabet) (some 0)).map fun res =>
    let res := toBits res
    let len := res.length - countTrailingChar res 0
    let zeros := countLeadingChar s alphabet.zero
    List.replicate zeros 0 ++ (res.take len).reverse

/-- SHA-256 as `Hacl` has it: all that is used of it is the length of a digest. -/
structure Sha256 where
  digest : List UInt8 → List UInt8
  length_digest : ∀ s, (digest s).length = 32

def checksum (hash : Sha256) (s : List UInt8) : List UInt8 := (hash.digest (hash.digest s)).take 4

def safeEncode (hash : Sha256) (alphabet : Alphabet) (s : List UInt8) : Except Failure (List UInt8) :=
  rawEncode alphabet (s ++ checksum hash s)

def safeDecode (hash : Sha256) (alphabet : Alphabet) (s : List UInt8) : Option (List UInt8) :=
  (rawDecode alphabet s).bind fun s =>
    let len := s.length
    if len < 4 then none
    else
      let msg := s.take (len - 4)
      let msgHash := s.drop (len - 4)
      if msgHash ≠ checksum hash msg then none else some msg

def removePrefix (prefix_ s : List UInt8) : Option (List UInt8) :=
  if prefix_.length ≤ s.length ∧ s.take prefix_.length = prefix_ then some (s.drop prefix_.length) else none

structure Encoding (δ α : Type) where
  prefix_ : List UInt8
  length : Nat
  encodedPrefix : List UInt8
  encodedLength : Nat
  toRaw : α → Except Failure (List UInt8)
  ofRaw : List UInt8 → Except Failure (Option α)
  wrap : α → δ

inductive RegisteredEncoding (δ : Type) where
  | encoding {α : Type} (e : Encoding δ α)

structure Registration (δ : Type) where
  α : Type
  prefix_ : List UInt8
  length : Nat
  toRaw : α → List UInt8
  ofRaw : List UInt8 → Option α
  wrap : α → δ

section
variable {δ α : Type} (hash : Sha256) (alphabet : Alphabet)

def simpleEncode (enc : Encoding δ α) (d : α) : Except Failure (List UInt8) := do
  safeEncode hash alphabet (enc.prefix_ ++ (← enc.toRaw d))

def checkAmbiguousPrefix (prefix_ : List UInt8) (length : Nat) : List (RegisteredEncoding δ) → Except Failure Unit
  | [] => .ok ()
  | .encoding e :: encodings =>
    -- `length` is the length of an encoded string in the only call, `e.length` that of a raw one.
    if length = e.length ∧
        ((removePrefix e.encodedPrefix prefix_).isSome ∨ (removePrefix prefix_ e.encodedPrefix).isSome) then
      .error (.invalidArg "Base58.register_encoding: duplicate prefix: %S, %S." [e.encodedPrefix, prefix_])
    else checkAmbiguousPrefix prefix_ length encodings

/-- The number of characters that two strings of the same length begin with. -/
def commonLength : List UInt8 → List UInt8 → Nat
  | c :: zeros, d :: ones => if c = d then commonLength zeros ones + 1 else 0
  | _, _ => 0

def makeEncodedPrefix (prefix_ : List UInt8) (len : Nat) : Except Failure (List UInt8 × Nat) := do
  let zeros ← safeEncode hash .bitcoin (prefix_ ++ List.replicate len 0)
  let ones ← safeEncode hash .bitcoin (prefix_ ++ List.replicate len 255)
  if ones.length ≠ zeros.length then
    throw (.invalidArg "Base58.registered_encoding: variable length encoding." [])
  let len := commonLength zeros ones
  if len = 0 then
    throw (.invalidArg "Base58.register_encoding: not a unique prefix." [])
  return (zeros.take len, zeros.length)

def registerEncoding (reg : Registration δ) (encodings : List (RegisteredEncoding δ)) :
    Except Failure (Encoding δ reg.α × List (RegisteredEncoding δ)) :=
  let toRaw (x : reg.α) : Except Failure (List UInt8) :=
    let s := reg.toRaw x
    if s.length = reg.length then .ok s else .error .assertFailure
  let ofRaw (s : List UInt8) : Except Failure (Option reg.α) :=
    if s.length = reg.length then .ok (reg.ofRaw s) else .error .assertFailure
  match makeEncodedPrefix hash reg.prefix_ reg.length with
  | .error e => .error e
  | .ok (encodedPrefix, encodedLength) =>
    match checkAmbiguousPrefix encodedPrefix encodedLength encodings with
    | .error e => .error e
    | .ok () =>
      let encoding := { prefix_ := reg.prefix_, length := reg.length, encodedPrefix, encodedLength, toRaw, ofRaw,
                        wrap := reg.wrap }
      .ok (encoding, .encoding encoding :: encodings)

/-- Calls of `register_encoding` one after the other, that all succeed. -/
def registerAll : List (Registration δ) → List (RegisteredEncoding δ) → Except Failure (List (RegisteredEncoding δ))
  | [], encodings => .ok encodings
  | reg :: regs, encodings =>
    match registerEncoding hash reg encodings with
    | .error e => .error e
    | .ok (_, encodings) => registerAll regs encodings

def find (s : List UInt8) : List (RegisteredEncoding δ) → Except Failure (Option δ)
  | [] => .ok none
  | .encoding e :: encodings =>
    match removePrefix e.prefix_ s with
    | none => find s encodings
    | some msg => do return (← e.ofRaw msg).map e.wrap

def decode (encodings : List (RegisteredEncoding δ)) (s : List UInt8) : Except Failure (Option δ) :=
  match safeDecode hash alphabet s with
  | none => .ok none
  | some s => find s encodings

end

def blockHashPrefix : List UInt8 := [1, 52]

end Tezos.Base58
