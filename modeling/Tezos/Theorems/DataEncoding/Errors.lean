import Tezos.DataEncoding.Wire.Decode

/-! Decoders that fail only with errors of their input: the reader turns these into an answer. -/

namespace Tezos.DataEncoding.Wire
open Lib

variable {α : Type} {x : Except Exn α}

/-- No exception of the host language is raised. -/
def OnlyReadErrors {α : Type} (x : Except Exn α) : Prop := ∀ y, x = .error y → ∃ err, y = .readError err

theorem OnlyReadErrors.ok (v : α) : OnlyReadErrors (.ok v : Except Exn α) := fun _ h => by cases h

theorem OnlyReadErrors.error (err : ReadError) : OnlyReadErrors (.error (.readError err) : Except Exn α) :=
  fun _ h => by
    cases h
    exact ⟨err, rfl⟩

theorem OnlyReadErrors.bind {β : Type} {f : α → Except Exn β} (hx : OnlyReadErrors x)
    (hf : ∀ v, x = .ok v → OnlyReadErrors (f v)) : OnlyReadErrors (x >>= f) := fun y hy => by
  rcases bind_eq_error.mp hy with hy | ⟨v, hv, hy⟩
  · exact hx y hy
  · exact hf v hv y hy

theorem needs_errors (input : MBytes) (size : Nat) : OnlyReadErrors (needs input size) := by
  unfold needs
  split
  · exact .error _
  · exact .ok _

theorem allows_errors (a : Option Int) (size : Nat) : OnlyReadErrors (allows a size) := by
  unfold allows
  split
  · split
    · exact .error _
    · exact .ok _
  · exact .ok _

theorem word_errors {size : Nat} {conv : MBytes → Except Exn α} (h : ∀ w, OnlyReadErrors (conv w)) (input : MBytes)
    (a : Option Int) : OnlyReadErrors (word size conv input a) :=
  (needs_errors input size).bind fun _ _ => (allows_errors a size).bind fun _ _ => (h _).bind fun _ _ => .ok _

theorem intOfBytes_errors (kind : Integer) (w : MBytes) : OnlyReadErrors (intOfBytes kind w) := by
  cases kind with
  | uint30 =>
    simp only [intOfBytes]
    split
    · exact .error _
    · exact .ok _
  | _ => exact .ok _

end Tezos.DataEncoding.Wire
