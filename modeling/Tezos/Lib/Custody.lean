import Tezos.Lib.Registry

/-! Agents that hold records: the state of a record that is held says by whom. -/

namespace Tezos.Lib
open Option
variable {A R S : Type}

/-- What an agent holds, and what the state of a record says. -/
structure Holding (A R S : Type) where
  state : R → S
  owner : S → Option Nat
  /-- The record that the agent of a place holds, and its state. -/
  held : Nat → A → Option (Nat × S)
  owner_held : ∀ i a r s, held i a = some (r, s) → owner s = some i
  /-- The states that a record is never left in. -/
  kept : S → Bool

structure Custody (H : Holding A R S) (records : List R) (agents : List A) : Prop where
  holds : ∀ (i : Nat) (a : A) (r : Nat) (s : S), agents[i]? = some a → H.held i a = some (r, s) →
    ∃ record, records[r]? = some record ∧ H.state record = s
  kept : ∀ (r : Nat) (record : R) (i : Nat), records[r]? = some record → H.kept (H.state record) = true →
    H.owner (H.state record) = some i → ∃ a, agents[i]? = some a ∧ H.held i a = some (r, H.state record)

namespace Custody
variable {H : Holding A R S} {records : List R} {agents : List A} {i r : Nat} {a a' : A} {record record' : R}

theorem nil : Custody H [] [] where
  holds _ _ _ _ h := absurd h nofun
  kept _ _ _ h := absurd h nofun

variable (h : Custody H records agents) {K : Type} {s : S}
include h

theorem create (hkept : H.kept (H.state record) = false) : Custody H (records ++ [record]) agents where
  holds i a r s hget hheld := by
    obtain ⟨old, hold, hst⟩ := h.holds i a r s hget hheld
    exact ⟨old, getElem?_concat_iff.mpr (.inl hold), hst⟩
  kept r old i hold hk hown := by
    rcases getElem?_concat_iff.mp hold with hold | ⟨-, rfl⟩
    · exact h.kept r old i hold hk hown
    · exact absurd (hkept.symm.trans hk) nofun

omit h in
theorem register [DecidableEq K] {reg : Registry K R} {gc : Registry K R → Registry K R} (max : Option Nat) (k : K)
    (h : Custody H reg.records agents) (hgc : reg.Forgets (gc reg)) (hkept : H.kept (H.state record) = false) :
    Custody H (reg.register max gc k record).1.records agents :=
  Registry.register_induction (P := fun reg => Custody H reg.records agents) hgc h (hgc.records.symm ▸ h) fun _ h _ =>
    h.create hkept

theorem set (hget : records[r]? = some record) (hst : H.state record' = H.state record) :
    Custody H (records.set r record') agents where
  holds i a r' s hag hheld := by
    obtain ⟨old, hold, hs⟩ := h.holds i a r' s hag hheld
    by_cases hr : r' = r
    · subst hr
      obtain rfl := some_inj.mp (hget.symm.trans hold)
      exact ⟨record', getElem?_set_same hget, hst.trans hs⟩
    · exact ⟨old, (getElem?_set_iff hget).mpr (.inr ⟨hr, hold⟩), hs⟩
  kept r' old i hold hk hown := by
    rcases (getElem?_set_iff hget).mp hold with ⟨rfl, rfl⟩ | ⟨-, hold⟩
    · rw [hst] at hk hown ⊢
      exact h.kept r' record i hget hk hown
    · exact h.kept r' old i hold hk hown

omit h in
theorem alter {reg : Registry K R} {f : R → R} {r : Nat} (h : Custody H reg.records agents)
    (hst : ∀ record, H.state (f record) = H.state record) : Custody H (reg.alter r f).records agents := by
  unfold Registry.alter
  split
  · exact h
  · rename_i record hget
    exact h.set hget (hst record)

theorem concat (hnone : H.held agents.length a = none) : Custody H records (agents ++ [a]) where
  holds i b r s hget hheld := by
    rcases getElem?_concat_iff.mp hget with hget | ⟨rfl, rfl⟩
    · exact h.holds i b r s hget hheld
    · exact absurd (hnone.symm.trans hheld) nofun
  kept r record i hget hk hown := by
    obtain ⟨b, hb, hheld⟩ := h.kept r record i hget hk hown
    exact ⟨b, getElem?_concat_iff.mpr (.inl hb), hheld⟩

theorem move (hag : agents[i]? = some a)
    (hheld : H.held i a' = H.held i a ∨ H.held i a' = none ∧ ∀ r s, H.held i a = some (r, s) → H.kept s = false) :
    Custody H records (agents.set i a') where
  holds j b r s hget hb := by
    rcases (getElem?_set_iff hag).mp hget with ⟨rfl, rfl⟩ | ⟨-, hget⟩
    · rcases hheld with hsame | ⟨hnone, -⟩
      · exact h.holds j a r s hag (hsame ▸ hb)
      · exact absurd (hnone.symm.trans hb) nofun
    · exact h.holds j b r s hget hb
  kept r record j hget hk hown := by
    obtain ⟨b, hb, hbhl⟩ := h.kept r record j hget hk hown
    by_cases hj : j = i
    · subst hj
      obtain rfl := some_inj.mp (hag.symm.trans hb)
      refine ⟨a', getElem?_set_same hag, ?_⟩
      rcases hheld with hsame | ⟨-, hleft⟩
      · exact hsame.trans hbhl
      · exact absurd (hk.symm.trans (hleft r _ hbhl)) nofun
    · exact ⟨b, (getElem?_set_iff hag).mpr (.inr ⟨hj, hb⟩), hbhl⟩

theorem ne_of_owner {j r' : Nat} {b : A} (hget : records[r]? = some record)
    (hown : H.owner (H.state record) ≠ some j) (hb : agents[j]? = some b) (hheld : H.held j b = some (r', s)) :
    r' ≠ r := by
  rintro rfl
  obtain ⟨old, hold, rfl⟩ := h.holds j b r' s hb hheld
  obtain rfl := some_inj.mp (hget.symm.trans hold)
  exact hown (H.owner_held j b r' _ hheld)

/-- An agent changes the record that it holds, or takes one that nobody holds, or gives back the one that it held. -/
theorem exchange (hag : agents[i]? = some a) (hget : records[r]? = some record)
    (hown : ∀ j, H.owner (H.state record) = some j → j = i) (hbef : ∀ r' s, H.held i a = some (r', s) → r' = r)
    (haft : H.held i a' = some (r, H.state record') ∨ H.held i a' = none ∧ H.kept (H.state record') = false) :
    Custody H (records.set r record') (agents.set i a') where
  holds j b r' s hb hheld := by
    rcases (getElem?_set_iff hag).mp hb with ⟨rfl, rfl⟩ | ⟨hj, hb⟩
    · rcases haft with hsome | ⟨hnone, -⟩
      · obtain ⟨rfl, rfl⟩ := Prod.mk.inj (some_inj.mp (hsome.symm.trans hheld))
        exact ⟨record', getElem?_set_same hget, rfl⟩
      · exact absurd (hnone.symm.trans hheld) nofun
    · obtain ⟨old, hold, hs⟩ := h.holds j b r' s hb hheld
      have hr := h.ne_of_owner hget (fun heq => hj (hown j heq)) hb hheld
      exact ⟨old, (getElem?_set_iff hget).mpr (.inr ⟨hr, hold⟩), hs⟩
  kept r' new j hnew hk howns := by
    rcases (getElem?_set_iff hget).mp hnew with ⟨rfl, rfl⟩ | ⟨hr, hold⟩
    · rcases haft with hsome | ⟨-, hleft⟩
      · obtain rfl := some_inj.mp ((H.owner_held i a' r' _ hsome).symm.trans howns)
        exact ⟨a', getElem?_set_same hag, hsome⟩
      · exact absurd (hk.symm.trans hleft) nofun
    · obtain ⟨b, hb, hheld⟩ := h.kept r' new j hold hk howns
      by_cases hj : j = i
      · subst hj
        obtain rfl := some_inj.mp (hag.symm.trans hb)
        exact absurd (hbef r' _ hheld) hr
      · exact ⟨b, (getElem?_set_iff hag).mpr (.inr ⟨hj, hb⟩), hheld⟩

theorem exchange_own (hag : agents[i]? = some a) (hget : records[r]? = some record) (hheld : H.held i a = some (r, s))
    (haft : H.held i a' = some (r, H.state record') ∨ H.held i a' = none ∧ H.kept (H.state record') = false) :
    Custody H (records.set r record') (agents.set i a') := by
  obtain ⟨held, hrecord, rfl⟩ := h.holds i a r s hag hheld
  obtain rfl := some_inj.mp (hget.symm.trans hrecord)
  refine h.exchange hag hget (fun j hown => ?_) (fun r' s hs => ?_) haft
  · exact some_inj.mp (hown.symm.trans (H.owner_held i a r _ hheld))
  · exact (Prod.mk.inj (some_inj.mp (hs.symm.trans hheld))).1

theorem acquire (hget : records[r]? = some record) (hown : H.owner (H.state record) = none)
    (hheld : H.held agents.length a = some (r, H.state record')) :
    Custody H (records.set r record') (agents ++ [a]) where
  holds j b r' s hb hbhl := by
    rcases getElem?_concat_iff.mp hb with hb | ⟨rfl, rfl⟩
    · obtain ⟨old, hold, hs⟩ := h.holds j b r' s hb hbhl
      have hr := h.ne_of_owner hget (fun heq => absurd (hown.symm.trans heq) nofun) hb hbhl
      exact ⟨old, (getElem?_set_iff hget).mpr (.inr ⟨hr, hold⟩), hs⟩
    · obtain ⟨rfl, rfl⟩ := Prod.mk.inj (some_inj.mp (hheld.symm.trans hbhl))
      exact ⟨record', getElem?_set_same hget, rfl⟩
  kept r' new j hnew hk howns := by
    rcases (getElem?_set_iff hget).mp hnew with ⟨rfl, rfl⟩ | ⟨hr, hold⟩
    · obtain rfl := some_inj.mp ((H.owner_held _ a r' _ hheld).symm.trans howns)
      exact ⟨a, getElem?_concat_iff.mpr (.inr ⟨rfl, rfl⟩), hheld⟩
    · obtain ⟨b, hb, hbhl⟩ := h.kept r' new j hold hk howns
      exact ⟨b, getElem?_concat_iff.mpr (.inl hb), hbhl⟩

end Custody

end Tezos.Lib
