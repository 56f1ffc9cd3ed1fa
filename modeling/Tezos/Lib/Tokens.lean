import Mathlib.Data.List.Nodup
import Mathlib.Data.List.Perm.Basic

/-! Agents that hold at most one token each: what holds of an agent depends on it, and a step moves one agent. -/

namespace Tezos.Lib
open List Option
variable {σ τ : Type} {Ok : σ → Option τ → Prop}

structure Held (Ok : σ → Option τ → Prop) (agents : List σ) (tokens : List (ℕ × τ)) : Prop where
  nodup : (tokens.map Prod.fst).Nodup
  lt : ∀ i t, (i, t) ∈ tokens → i < agents.length
  some : ∀ i t a, (i, t) ∈ tokens → agents[i]? = some a → Ok a (some t)
  none : ∀ i a, i ∉ tokens.map Prod.fst → agents[i]? = Option.some a → Ok a Option.none

namespace Held
variable {agents : List σ} {tokens tokens' others : List (ℕ × τ)} {i : ℕ} {t t' : τ} {a a' : σ}

theorem nil : Held Ok [] [] where
  nodup := nodup_nil
  lt _ _ hmem := absurd hmem not_mem_nil
  some _ _ _ hmem := absurd hmem not_mem_nil
  none _ _ _ hget := absurd hget nofun

theorem perm (h : Held Ok agents tokens) (hp : tokens.Perm tokens') : Held Ok agents tokens' where
  nodup := (hp.map Prod.fst).nodup_iff.mp h.nodup
  lt j u hmem := h.lt j u (hp.mem_iff.mpr hmem)
  some j u b hmem := h.some j u b (hp.mem_iff.mpr hmem)
  none j b hmem := h.none j b fun hj => hmem ((hp.map Prod.fst).mem_iff.mp hj)

theorem exists_ok (h : Held Ok agents tokens) (hget : agents[i]? = Option.some a) : ∃ t, Ok a t := by
  by_cases hmem : i ∈ tokens.map Prod.fst
  · obtain ⟨⟨j, t⟩, htok, rfl⟩ := mem_map.mp hmem
    exact ⟨Option.some t, h.some j t a htok hget⟩
  · exact ⟨Option.none, h.none i a hmem hget⟩

variable (h : Held Ok agents ((i, t) :: others))
include h

theorem ne_head {j : ℕ} {u : τ} (hmem : (j, u) ∈ others) : j ≠ i := by
  rintro rfl
  exact (nodup_cons.mp h.nodup).1 (mem_map.mpr ⟨(j, u), hmem, rfl⟩)

theorem move (hok : Ok a' (Option.some t')) : Held Ok (agents.set i a') ((i, t') :: others) where
  nodup := h.nodup
  lt j u hmem := by
    rw [length_set]
    rcases mem_cons.mp hmem with heq | hmem
    · cases heq
      exact h.lt i t mem_cons_self
    · exact h.lt j u (mem_cons_of_mem _ hmem)
  some j u b hmem hget := by
    rcases mem_cons.mp hmem with heq | hmem
    · cases heq
      rw [getElem?_set_self (h.lt i t mem_cons_self), some_inj] at hget
      exact hget ▸ hok
    · rw [getElem?_set_ne (h.ne_head hmem).symm] at hget
      exact h.some j u b (mem_cons_of_mem _ hmem) hget
  none j b hmem hget := by
    have hne : i ≠ j := fun heq => hmem (heq ▸ mem_cons_self)
    rw [getElem?_set_ne hne] at hget
    exact h.none j b hmem hget

theorem drop (hok : Ok a' Option.none) : Held Ok (agents.set i a') others where
  nodup := (nodup_cons.mp h.nodup).2
  lt j u hmem := by
    rw [length_set]
    exact h.lt j u (mem_cons_of_mem _ hmem)
  some j u b hmem hget := by
    rw [getElem?_set_ne (h.ne_head hmem).symm] at hget
    exact h.some j u b (mem_cons_of_mem _ hmem) hget
  none j b hmem hget := by
    by_cases hij : i = j
    · subst hij
      rw [getElem?_set_self (h.lt i t mem_cons_self), some_inj] at hget
      exact hget ▸ hok
    · rw [getElem?_set_ne hij] at hget
      refine h.none j b (fun hj => ?_) hget
      rcases mem_cons.mp hj with heq | hj
      · exact hij heq.symm
      · exact hmem hj

omit h in
theorem set_eq_self (hget : agents[i]? = Option.some a) : agents.set i a = agents := by
  obtain ⟨hlt, rfl⟩ := List.getElem?_eq_some_iff.mp hget
  exact set_getElem_self hlt

theorem exchange (hget : agents[i]? = Option.some a) (hok : Ok a (Option.some t')) :
    Held Ok agents ((i, t') :: others) := by
  have hmove := h.move hok
  rwa [set_eq_self hget] at hmove

theorem discard (hget : agents[i]? = Option.some a) (hok : Ok a Option.none) : Held Ok agents others := by
  have hdrop := h.drop hok
  rwa [set_eq_self hget] at hdrop

omit h

theorem update (h : Held Ok agents tokens) (hget : agents[i]? = Option.some a) (hok : ∀ t, Ok a t → Ok a' t) :
    Held Ok (agents.set i a') tokens where
  nodup := h.nodup
  lt j u hmem := by
    rw [length_set]
    exact h.lt j u hmem
  some j u b hmem hb := by
    by_cases hij : i = j
    · subst hij
      rw [getElem?_set_self (h.lt i u hmem), some_inj] at hb
      exact hb ▸ hok _ (h.some i u a hmem hget)
    · rw [getElem?_set_ne hij] at hb
      exact h.some j u b hmem hb
  none j b hmem hb := by
    by_cases hij : i = j
    · subst hij
      obtain ⟨hlt, -⟩ := List.getElem?_eq_some_iff.mp hget
      rw [getElem?_set_self hlt, some_inj] at hb
      exact hb ▸ hok _ (h.none i a hmem hget)
    · rw [getElem?_set_ne hij] at hb
      exact h.none j b hmem hb

theorem concat (h : Held Ok agents tokens) (hok : Ok a (Option.some t)) :
    Held Ok (agents ++ [a]) ((agents.length, t) :: tokens) := by
  have hnew : agents.length ∉ tokens.map Prod.fst := by
    intro hmem
    obtain ⟨⟨j, u⟩, hmem, rfl⟩ := mem_map.mp hmem
    exact absurd (h.lt _ _ hmem) (Nat.lt_irrefl _)
  have hold : ∀ {j b}, j ≠ agents.length → (agents ++ [a])[j]? = Option.some b → agents[j]? = Option.some b := by
    intro j b hne hget
    obtain ⟨hlt, -⟩ := List.getElem?_eq_some_iff.mp hget
    rw [length_append] at hlt
    rwa [getElem?_append_left (Nat.lt_of_le_of_ne (Nat.le_of_lt_succ hlt) hne)] at hget
  refine ⟨nodup_cons.mpr ⟨hnew, h.nodup⟩, fun j u hmem => ?_, fun j u b hmem hget => ?_, fun j b hmem hget => ?_⟩
  · rw [length_append]
    rcases mem_cons.mp hmem with heq | hmem
    · cases heq
      exact Nat.lt_succ_self _
    · exact Nat.lt_succ_of_lt (h.lt j u hmem)
  · rcases mem_cons.mp hmem with heq | hmem
    · cases heq
      rw [getElem?_concat_length, some_inj] at hget
      exact hget ▸ hok
    · exact h.some j u b hmem (hold (Nat.ne_of_lt (h.lt j u hmem)) hget)
  · refine h.none j b (fun hj => hmem (mem_cons_of_mem _ hj)) (hold ?_ hget)
    exact fun heq => hmem (heq ▸ mem_cons_self)

end Held

end Tezos.Lib
