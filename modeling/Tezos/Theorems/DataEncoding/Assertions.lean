import Mathlib.Data.FinEnum
import Mathlib.Data.Set.Finite.List
import Tezos.Theorems.DataEncoding.Lengths

/-! When the reader fails otherwise than with a read error: at a pair whose right part has a fixed size, and where it
    reads without end. -/

namespace Tezos.DataEncoding.Wire
open Lib Parser Encoding Reader

section Returns
variable {ι : Type → Type} {α : Type} {D : Defs ι} {e : Encoding ι α} {b : MBytes}

/-- The reader returns on every byte string: a value, or nothing. -/
def Returns (D : Defs ι) {α : Type} (e : Encoding ι α) : Prop := ∀ b, ∃ fuel r, Reader.ofBytes D fuel e b = .ok r

theorem ofBytes_ok {fuel : Nat} :
    (∃ r, ofBytes D fuel e b = .ok r) ↔ ¬Gives Escapes (decode D fuel e b none) none := by
  rw [ofBytes, ofBytesExn_eq]
  rcases decode D fuel e b none with x | ⟨v, k⟩
  · cases x with
    | readError err => exact iff_of_true ⟨none, rfl⟩ fun h => h err rfl
    | _ => exact iff_of_false (fun h => by cases h.choose_spec) (not_not.mpr fun err h => by cases h)
  · refine iff_of_true ?_ id
    rw [ok_bind]
    split
    · exact ⟨none, rfl⟩
    · exact ⟨some v, rfl⟩

/-- A decoder that did not break down does not with more unfoldings. -/
theorem gives_none_mono {m n : Nat} (hle : m ≤ n) (h : Gives Escapes (decode D n e b none) none) :
    Gives Escapes (decode D m e b none) none := by
  rcases below_decode D hle e b none with hdiv | heq
  · rw [hdiv]
    exact fun err h => by cases h
  · rwa [heq]

/-- At a length there are finitely many byte strings, and so a number of unfoldings that is enough for all of them. -/
theorem exists_lengths (h : Returns D e) (n : Nat) : ∃ fuel, ¬lengths D fuel e n none none := by
  choose enough hen using fun b => (h b).imp fun fuel => ofBytes_ok.mp
  obtain ⟨fuel, hfuel⟩ := ((List.finite_length_eq UInt8 n).image enough).bddAbove
  refine ⟨fuel, fun hbreak => ?_⟩
  obtain ⟨b, hlen, hgiv⟩ := (takes_decode D fuel e).iff.mp hbreak
  exact hen b (gives_none_mono (hfuel ⟨b, hlen, rfl⟩) hgiv)

/-- The reader returns on every byte string if and only if, whatever the length of the string, the lengths that the parts of
    the encoding may take break down at no window that has to be taken whole, and do not go on without end. -/
theorem returns_iff {ι : Type → Type} (D : Defs ι) {α : Type} (e : Encoding ι α) :
    Returns D e ↔ ∀ n, ∃ fuel, ¬lengths D fuel e n none none := by
  refine ⟨exists_lengths, fun h b => ?_⟩
  obtain ⟨fuel, hfuel⟩ := h b.length
  exact ⟨fuel, ofBytes_ok.mpr fun hgiv => hfuel ((takes_decode D fuel e).iff.mpr ⟨b, rfl, hgiv⟩)⟩

end Returns

/-- An optional field of variable length over a fixed-size payload reads its payload and leaves the rest of
    its window. -/
theorem returns_varopt :
    let e : Encoding (fun _ => Empty) (Option Bool × Int) :=
      .objs .variable (.opt .variable (.atom .bool)) (.req (.atom .int8))
    e.WellFormed .none ∧ ∀ fuel, Reader.ofBytes .none fuel e [255, 7, 9] = .error .assertFailure := by
  refine ⟨⟨rfl, ⟨fun h => (by cases h), trivial⟩, trivial, trivial⟩, fun fuel => ?_⟩
  cases fuel <;> rfl

end Tezos.DataEncoding.Wire
