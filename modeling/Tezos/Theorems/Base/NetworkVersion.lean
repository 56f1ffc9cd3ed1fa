import Tezos.Base.NetworkVersion

/-! Two nodes that both choose a version choose the same one. -/

namespace Tezos.NetworkVersion
open Option
variable {xs ys : List Int} {v w : Int}

theorem greatest_mem (hx : xs ≠ []) : greatest xs hx ∈ xs := by
  rcases xs with _ | ⟨h, t⟩
  · exact absurd rfl hx
  · exact (List.max?_eq_some_iff.mp rfl).1

/-- The node with the smaller greatest version takes its own, and the other one takes it when it is in its list. -/
theorem maySelectVersion_agree (hx : xs ≠ []) (hy : ys ≠ []) (hv : maySelectVersion xs hx (greatest ys hy) = some v)
    (hw : maySelectVersion ys hy (greatest xs hx) = some w) :
    v = w ∧ v ∈ xs ∧ v ∈ ys ∧ v = min (greatest xs hx) (greatest ys hy) := by
  have hmx := greatest_mem hx
  have hmy := greatest_mem hy
  simp only [maySelectVersion] at hv hw
  rcases lt_trichotomy (greatest xs hx) (greatest ys hy) with hlt | heq | hgt
  · simp only [le_of_lt hlt, not_le_of_gt hlt, if_true, if_false, ite_none_right_eq_some, some.injEq] at hv hw
    obtain ⟨hin, rfl⟩ := hw
    subst hv
    exact ⟨rfl, hmx, hin, (min_eq_left (le_of_lt hlt)).symm⟩
  · simp only [heq, le_refl, if_true, some.injEq] at hv hw
    subst hv hw
    exact ⟨rfl, heq ▸ hmx, hmy, by rw [heq, min_self]⟩
  · simp only [le_of_lt hgt, not_le_of_gt hgt, if_true, if_false, ite_none_right_eq_some, some.injEq] at hv hw
    obtain ⟨hin, rfl⟩ := hv
    subst hw
    exact ⟨rfl, hin, hmy, (min_eq_right (le_of_lt hgt)).symm⟩

theorem select_eq_some {node : Local} {remote version : NetworkVersion} (h : select node remote = some version) :
    node.chainName = remote.chainName ∧ version.chainName = node.chainName ∧
      maySelectVersion node.distributedDbVersions node.distributedDbVersions_ne remote.distributedDbVersion =
        some version.distributedDbVersion ∧
      maySelectVersion node.p2pVersions node.p2pVersions_ne remote.p2pVersion = some version.p2pVersion := by
  rw [select, ite_none_left_eq_some, not_not] at h
  obtain ⟨hname, h⟩ := h
  obtain ⟨distributedDbVersion, hdb, h⟩ := bind_eq_some_iff.mp h
  obtain ⟨p2pVersion, hp2p, h⟩ := bind_eq_some_iff.mp h
  obtain rfl := some.inj h
  exact ⟨hname, rfl, hdb, hp2p⟩

/-- A version that two nodes agree on is in the lists of both and is the smaller of their greatest ones. -/
theorem negotiation_agrees (a b : Local) (va vb : NetworkVersion) (ha : select a (announced b) = some va)
    (hb : select b (announced a) = some vb) :
    va = vb ∧
      (va.distributedDbVersion ∈ a.distributedDbVersions ∧ va.distributedDbVersion ∈ b.distributedDbVersions ∧
        va.distributedDbVersion = min (announced a).distributedDbVersion (announced b).distributedDbVersion) ∧
      va.p2pVersion ∈ a.p2pVersions ∧ va.p2pVersion ∈ b.p2pVersions ∧
        va.p2pVersion = min (announced a).p2pVersion (announced b).p2pVersion := by
  obtain ⟨hname, hva, hdba, hp2pa⟩ := select_eq_some ha
  obtain ⟨-, hvb, hdbb, hp2pb⟩ := select_eq_some hb
  obtain ⟨hdb, hdbMem⟩ := maySelectVersion_agree _ _ hdba hdbb
  obtain ⟨hp2p, hp2pMem⟩ := maySelectVersion_agree _ _ hp2pa hp2pb
  refine ⟨?_, hdbMem, hp2pMem⟩
  rw [NetworkVersion.mk.injEq]
  exact ⟨hva.trans (hname.trans hvb.symm), hdb, hp2p⟩

theorem negotiation_agrees_sample : (NetworkVersion.mk "TEZOS" 0 1).distributedDbVersion ∈ [1, 0] :=
  (negotiation_agrees ⟨"TEZOS", [1, 0], [1], by decide, by decide⟩ ⟨"TEZOS", [0], [1, 2], by decide, by decide⟩
    ⟨"TEZOS", 0, 1⟩ ⟨"TEZOS", 0, 1⟩ (by decide) (by decide)).2.1.1

end Tezos.NetworkVersion
