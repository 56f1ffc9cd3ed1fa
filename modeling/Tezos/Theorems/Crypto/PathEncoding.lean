import Tezos.Theorems.Crypto.MerkleTree
import Tezos.Theorems.DataEncoding.Sizes

/-! The limit on the size of an encoded path against the paths of the lists that it is for. -/

namespace Tezos.MerkleTree
open DataEncoding Wire Writer HashBytes List

variable {elt τ : Type} {B : HashBytes τ}

def HashBytes.pathBytes (B : HashBytes τ) : Path τ → MBytes
  | .left p r => 240 :: (pathBytes B p ++ B.toBytes r)
  | .right l p => 15 :: (B.toBytes l ++ pathBytes B p)
  | .op => [0]

theorem length_pathBytes (p : Path τ) : (B.pathBytes p).length = p.depth * (B.size + 1) + 1 := by
  induction p with
  | op => rw [Path.depth, zero_mul]; rfl
  | left p h ih | right h p ih =>
    rw [pathBytes, length_cons, length_append, B.length_toBytes, ih, Path.depth]
    ring

theorem encode_hash (fuel : Nat) (h : τ) : encode B.pathDefs fuel B.encoding none h = .ok (B.toBytes h) := by
  have hlen := B.length_toBytes h
  cases fuel with
  | zero | succ =>
    simp [encode, HashBytes.encoding, encodeDesc, encodeAtom, atomBytes, hlen, emit]

theorem encode_path (p : Path τ) {fuel : Nat} (hfuel : p.depth < fuel) :
    encode B.pathDefs fuel pathEncoding none p = .ok (B.pathBytes p) := by
  induction p generalizing fuel with
  | op =>
    obtain ⟨_ | k, rfl⟩ := Nat.exists_eq_add_of_lt hfuel
    · rfl
    · rfl
  | left p r ih =>
    obtain ⟨k, rfl⟩ : ∃ k, fuel = k + 2 := ⟨fuel - 2, by rw [Path.depth] at hfuel; omega⟩
    have hp := ih (Nat.lt_of_succ_lt_succ hfuel)
    change encodeSeq (encodeInt .uint8 · 240) (encodeSeq (encode B.pathDefs (k + 1) pathEncoding · p)
      (encode B.pathDefs (k + 1) B.encoding · r)) none = _
    exact encodeSeq_ok.mpr ⟨[240], _, rfl, encodeSeq_ok.mpr ⟨_, _, hp, encode_hash (k + 1) r, rfl⟩, rfl⟩
  | right l p ih =>
    obtain ⟨k, rfl⟩ : ∃ k, fuel = k + 2 := ⟨fuel - 2, by rw [Path.depth] at hfuel; omega⟩
    have hp := ih (Nat.lt_of_succ_lt_succ hfuel)
    change encodeSeq (encodeInt .uint8 · 15) (encodeSeq (encode B.pathDefs (k + 1) B.encoding · l)
      (encode B.pathDefs (k + 1) pathEncoding · p)) none = _
    exact encodeSeq_ok.mpr ⟨[15], _, rfl, encodeSeq_ok.mpr ⟨_, _, encode_hash (k + 1) l, hp, rfl⟩, rfl⟩

theorem log2_eq_clog {n : Nat} (hn : n < 2 ^ 62 - 1) : log2 n = Nat.clog 2 n := by
  induction n using Nat.strong_induction_on with
  | _ n ih =>
    rw [log2]
    split
    · rw [Nat.clog_of_right_le_one (by omega)]; rfl
    · have hhalf : ((n : Int) + 1).bmod (2 ^ 63) / 2 = ((n + 1) / 2 : Nat) := by
        rw [Int.bmod_eq_of_le (by omega) (by omega)]
        omega
      rw [hhalf, ih _ (by omega) (by omega), clog_of_two_le (n := n) (by omega)]
      omega

theorem log2_max : log2 (2 ^ 62 - 1) = 1 := by
  rw [log2, log2]
  decide

theorem wellFormed_bounded (maxLength : Option Int) : (B.boundedPathEncoding maxLength).WellFormed B.pathDefs := by
  cases maxLength with
  | none => exact fun _ => Kind.noConfusion
  | some maxLength => exact ⟨trivial, fun _ => Kind.noConfusion⟩

theorem length_pathBytes_le {p : Path τ} {d : Int} (h : p.depth ≤ d) :
    ((B.pathBytes p).length : Int) ≤ d * (B.size + 1) + 1 := by
  rw [length_pathBytes]
  push_cast
  gcongr

theorem toBytes_bounded {p : Path τ} {maxLength : Int} (hdep : p.depth ≤ log2 maxLength) {fuel : Nat}
    (hfuel : p.depth < fuel) (junk : Nat → UInt8) :
    toBytes junk B.pathDefs fuel (B.boundedPathEncoding (some maxLength)) p = .ok (some (B.pathBytes p)) := by
  refine toBytes_of_encode (wellFormed_bounded _) ?_ junk
  obtain ⟨k, rfl⟩ := Nat.exists_eq_add_of_lt hfuel
  refine extends_encode _ _ pathEncoding p (encode_path p hfuel) fun y hy => .inl ?_
  cases hy
  exact length_pathBytes_le hdep

/-- The path to each element of a list is within the limit for its greatest length, and is written. -/
def PathsAccepted (B : HashBytes τ) (H : Hash elt τ) (xs : List elt) (maxLength : Int) : Prop :=
  ∀ i : Nat, i < xs.length → ∃ p, computePath H xs i = some p ∧ p.depth ≤ log2 maxLength ∧
    ∀ fuel, p.depth < fuel → ∃ w, w.length ≤ log2 maxLength * (B.size + 1) + 1 ∧
      ∀ junk, toBytes junk B.pathDefs fuel (B.boundedPathEncoding (some maxLength)) p = .ok (some w)

/-- The logarithm of the greatest integer overflows: its limit is that of two elements. -/
theorem pathsAccepted_iff (B : HashBytes τ) (H : Hash elt τ) (xs : List elt) (maxLength : Int)
    (hne : 1 ≤ xs.length) (hle : xs.length ≤ maxLength) (hmax : maxLength < 2 ^ 62) :
    PathsAccepted B H xs maxLength ↔ (maxLength = 2 ^ 62 - 1 → xs.length ≤ 2) := by
  have hlast := getLast?_eq_some_getLast (ne_nil_of_length_pos hne)
  constructor
  · rintro h rfl
    obtain ⟨p, hp, hle, -⟩ := h 0 hne
    obtain ⟨p', hp', hdep, -⟩ := computePath_spec (H := H) hlast hne
    obtain rfl : p = p' := Option.some.inj (hp.symm.trans hp')
    rw [log2_max, hdep] at hle
    exact (Nat.clog_le_iff_le_pow Nat.one_lt_two).mp (Int.ofNat_le.mp hle)
  · intro h i hi
    obtain ⟨p, hp, hdep, -⟩ := computePath_spec (H := H) hlast hi
    have hlog : p.depth ≤ log2 maxLength := by
      rw [hdep]
      by_cases heq : maxLength = 2 ^ 62 - 1
      · rw [heq, log2_max]
        exact Int.ofNat_le.mpr ((Nat.clog_le_iff_le_pow Nat.one_lt_two).mpr (h heq))
      · obtain ⟨n, rfl⟩ := Int.eq_ofNat_of_zero_le (a := maxLength) (by omega)
        rw [log2_eq_clog (by omega)]
        exact Int.ofNat_le.mpr (Nat.clog_mono_right 2 (Int.ofNat_le.mp hle))
    refine ⟨p, hp, hlog, fun fuel hfuel => ⟨B.pathBytes p, ?_, toBytes_bounded hlog hfuel⟩⟩
    exact length_pathBytes_le hlog

def byteHash : HashBytes UInt8 := ⟨1, Nat.one_pos, fun b => [b], fun w => w.headD 0, fun _ => rfl⟩

def firstHash : Hash UInt8 UInt8 := ⟨0, id, fun l _ => l⟩

theorem pathsAccepted_five : PathsAccepted byteHash firstHash [1, 2, 3, 4, 5] 8 :=
  (pathsAccepted_iff byteHash firstHash [1, 2, 3, 4, 5] 8 (by decide) (by decide) (by decide)).mpr
    fun h => absurd h (by decide)

/-- Under the limit for the greatest integer the path to the first of three elements is refused. -/
theorem toBytes_refused : computePath firstHash [1, 2, 3] 0 = some (.left (.left .op 2) 3) ∧
    ∀ junk, toBytes junk byteHash.pathDefs 3 (byteHash.boundedPathEncoding (some (2 ^ 62 - 1)))
      (.left (.left .op 2) 3) = .ok none := by
  refine ⟨by decide, fun junk => ?_⟩
  rw [Writer.toBytes, toBytesExn_eq _ _ _ _ (wellFormed_bounded _), boundedPathEncoding, log2_max]
  rfl

end Tezos.MerkleTree
