import Mathlib.Logic.Function.Basic

/-! Formats that may lose part of what is written: `Reads norm` says what is read back. -/

namespace Tezos.Lib

structure Format (α : Type) where
  Json : Type
  construct : α → Json
  destruct : Json → Option α

namespace Format
variable {α β : Type}

def plain : Format α := ⟨α, id, some⟩

def conv (proj : α → β) (inj : β → α) (f : Format β) : Format α :=
  ⟨f.Json, fun a => f.construct (proj a), fun json => (f.destruct json).map inj⟩

def pair (f : Format α) (g : Format β) : Format (α × β) where
  Json := f.Json × g.Json
  construct v := (f.construct v.1, g.construct v.2)
  destruct json := do return (← f.destruct json.1, ← g.destruct json.2)

def opt (f : Format α) : Format (Option α) where
  Json := Option f.Json
  construct := Option.map f.construct
  destruct
    | none => some none
    | some json => (f.destruct json).map some

def dft [DecidableEq α] (f : Format α) (default : α) : Format α where
  Json := Option f.Json
  construct v := if v = default then none else some (f.construct v)
  destruct
    | none => some default
    | some json => f.destruct json

def list (f : Format α) : Format (List α) := ⟨List f.Json, List.map f.construct, List.mapM f.destruct⟩

def Reads (f : Format α) (norm : α → α) : Prop := ∀ v, f.destruct (f.construct v) = some (norm v)

variable {f : Format α} {g : Format β} {norm : α → α} {norm' : β → β}

theorem plain_reads : (plain : Format α).Reads id := fun _ => rfl

section
variable (h : f.Reads norm)
include h

theorem Reads.conv {proj : β → α} {inj : α → β} :
    (f.conv proj inj).Reads fun v => inj (norm (proj v)) := fun v => congrArg (Option.map inj) (h (proj v))

theorem Reads.pair (h' : g.Reads norm') : (f.pair g).Reads (Prod.map norm norm') := fun v => by
  simp [Format.pair, h v.1, h' v.2, Prod.map]

theorem Reads.opt : f.opt.Reads (Option.map norm) := fun v => by
  cases v <;> simp [Format.opt, h _]

theorem Reads.dft [DecidableEq α] {default : α} (hdef : norm default = default) :
    (f.dft default).Reads norm := fun v => by
  by_cases hv : v = default <;> simp [Format.dft, hv, hdef, h v]

theorem Reads.list : f.list.Reads (List.map norm) := fun l => by
  induction l with
  | nil => rfl
  | cons v l ih =>
    simp only [Format.list, List.map_cons, List.mapM_cons, h v] at ih ⊢
    simp [ih]

end

end Format

end Tezos.Lib
