import Mathlib.Data.List.Infix

/-! Runs of a machine, and what holds throughout those whose operations all meet a condition, and no other one. -/

namespace Tezos.Lib
open List
variable {σ ω : Type} (step : σ → ω → σ) (init : σ)

def run (ops : List ω) : σ := ops.foldl step init

@[simp] theorem run_append_singleton (ops : List ω) (op : ω) :
    run step init (ops ++ [op]) = step (run step init ops) op := by
  rw [run, foldl_append]
  rfl

/-- Every operation of a run meets the condition in the state before it. -/
def StepsMeet (Ok : σ → ω → Prop) (ops : List ω) : Prop :=
  ∀ before op, before ++ [op] <+: ops → Ok (run step init before) op

/-- A property of runs holds for a run and all its beginnings. -/
def Throughout (Good : List ω → Prop) (ops : List ω) : Prop := ∀ before, before <+: ops → Good before

variable {step init} {Ok : σ → ω → Prop} (Inv : List ω → σ → Prop) {Good : List ω → Prop}
  {ops before : List ω}
  {P : List ω → Prop} {op : ω}

theorem StepsMeet.mono (h : StepsMeet step init Ok ops) (hb : before <+: ops) : StepsMeet step init Ok before :=
  fun before' op h' => h before' op (h'.trans hb)

theorem stepsMeet_nil : StepsMeet step init Ok [] := fun before op h => absurd (prefix_nil.mp h) (by simp)

theorem stepsMeet_cons : StepsMeet step init Ok (op :: ops) ↔ Ok init op ∧ StepsMeet step (step init op) Ok ops := by
  constructor
  · intro h
    refine ⟨h [] op (prefix_append [op] ops), fun before op' hb => h (op :: before) op' ?_⟩
    exact cons_prefix_cons.mpr ⟨rfl, hb⟩
  · rintro ⟨hop, h⟩ before op' hb
    rcases before with _ | ⟨first, before⟩
    · obtain ⟨rfl, -⟩ := cons_prefix_cons.mp hb
      exact hop
    · obtain ⟨rfl, htail⟩ := cons_prefix_cons.mp hb
      exact h before op' htail

theorem Throughout.mono (h : Throughout Good ops) (hb : before <+: ops) : Throughout Good before :=
  fun before' h' => h before' (h'.trans hb)

theorem inv_run (Inv : σ → Prop) (base : Inv init) (keep : ∀ s op, Inv s → Inv (step s op)) (ops : List ω) :
    Inv (run step init ops) := by
  induction ops using reverseRecOn with
  | nil => exact base
  | append_singleton ops op ih =>
    rw [run_append_singleton]
    exact keep _ op ih

section
variable (base : Inv [] init) (keep : ∀ ops s op, Inv ops s → Ok s op → Inv (ops ++ [op]) (step s op))
include base keep

theorem inv_of_stepsMeet (h : StepsMeet step init Ok ops) : Inv ops (run step init ops) := by
  induction ops using reverseRecOn with
  | nil => exact base
  | append_singleton ops op ih =>
    rw [run_append_singleton]
    exact keep ops _ op (ih (h.mono (prefix_append ops [op]))) (h ops op (prefix_refl _))

theorem throughout_of_stepsMeet
    (good : ∀ ops, Inv ops (run step init ops) → Good ops) (h : StepsMeet step init Ok ops) : Throughout Good ops :=
  fun before hb => good before (inv_of_stepsMeet Inv base keep (h.mono hb))

theorem throughout_iff_stepsMeet (good : ∀ ops, Inv ops (run step init ops) → Good ops)
    (break_ : ∀ ops op, Inv ops (run step init ops) → Good (ops ++ [op]) → Ok (run step init ops) op) :
    Throughout Good ops ↔ StepsMeet step init Ok ops := by
  refine ⟨fun h => ?_, throughout_of_stepsMeet Inv base keep good⟩
  induction ops using reverseRecOn with
  | nil => exact stepsMeet_nil
  | append_singleton ops op ih =>
    have hops := ih (h.mono (prefix_append ops [op]))
    intro before op' hb
    rcases prefix_concat_iff.mp hb with heq | hb
    · obtain ⟨rfl, hop⟩ := append_inj' heq rfl
      obtain rfl := singleton_inj.mp hop
      exact break_ before op' (inv_of_stepsMeet Inv base keep hops) (h _ (prefix_refl _))
    · exact hops before op' hb

end

/-- The operation was done, and what came after it has the property. -/
def Since (op : ω) (P : List ω → Prop) (ops : List ω) : Prop :=
  ∃ before after, ops = before ++ op :: after ∧ P after

theorem not_since_nil : ¬Since op P [] := by
  rintro ⟨before, after, heq, -⟩
  exact absurd heq.symm (by simp)

theorem since_concat {op last : ω} :
    Since op P (ops ++ [last]) ↔ (last = op ∧ P []) ∨ Since op (fun after => P (after ++ [last])) ops := by
  constructor
  · rintro ⟨before, after, heq, hP⟩
    rcases eq_nil_or_concat after with rfl | ⟨after, last', rfl⟩
    · obtain ⟨-, hop⟩ := append_inj' heq rfl
      exact .inl ⟨singleton_inj.mp hop, hP⟩
    · rw [concat_eq_append] at heq hP
      rw [← cons_append, ← append_assoc] at heq
      obtain ⟨rfl, hop⟩ := append_inj' heq rfl
      rw [← singleton_inj.mp hop] at hP
      exact .inr ⟨before, after, rfl, hP⟩
  · rintro (⟨rfl, hP⟩ | ⟨before, after, rfl, hP⟩)
    · exact ⟨ops, [], rfl, hP⟩
    · exact ⟨before, after ++ [last], by rw [append_assoc, cons_append], hP⟩

theorem Since.imp {P Q : List ω → Prop} (h : Since op P ops) (hPQ : ∀ after, P after → Q after) :
    Since op Q ops := by
  obtain ⟨before, after, heq, hP⟩ := h
  exact ⟨before, after, heq, hPQ after hP⟩

end Tezos.Lib
