import Tezos.DataEncoding.Reader
import Tezos.DataEncoding.Writer

/-! The kinds of the parts of an encoding and its own, and the cases of a union. -/

namespace Tezos.DataEncoding
open List Encoding

namespace Kind

variable {k1 k2 kind k : Kind} {n : Nat} {name : String} {ks : List Kind} {sz : TagSize}

theorem combine_fixed (h : combine name k1 k2 = .ok (.fixed n)) :
    ∃ n1 n2, k1 = .fixed n1 ∧ k2 = .fixed n2 ∧ n = n1 + n2 := by
  cases k1 <;> cases k2 <;> simp_all [combine]

theorem combine_dynamic (h : combine name k1 k2 = .ok .dynamic) : k1 ≠ .variable ∧ k2 ≠ .variable := by
  cases k1 <;> cases k2 <;> simp_all [combine]

/-- The two shapes of a pair of variable length: the variable part is first, before one of a fixed length,
    or it is last. -/
theorem combine_variable (h : combine name k1 k2 = .ok .variable) :
    (k1 = .variable ∧ ∃ n, k2 = .fixed n) ∨ (k1 ≠ .variable ∧ k2 = .variable) := by
  cases k1 <;> cases k2 <;> simp_all [combine]

theorem combine_ne_variable (h : combine name k1 k2 = .ok kind) (hk : kind ≠ .variable) :
    k1 ≠ .variable ∧ k2 ≠ .variable := by
  cases kind with
  | fixed n =>
    obtain ⟨n1, n2, rfl, rfl, -⟩ := combine_fixed h
    exact ⟨by simp, by simp⟩
  | dynamic => exact combine_dynamic h
  | «variable» => exact absurd rfl hk

theorem foldl_merge_fixed (h : ks.foldl merge k = .fixed n) : ∀ k' ∈ k :: ks, k' = .fixed n := by
  induction ks generalizing k with
  | nil => simpa using h
  | cons k₁ ks ih =>
    have hall := ih h
    have hmer := hall _ mem_cons_self
    have hboth : k = .fixed n ∧ k₁ = .fixed n := by
      cases k <;> cases k₁ <;> simp only [merge] at hmer
      · split at hmer <;> simp_all
      all_goals cases hmer
    intro k' hk'
    rcases mem_cons.mp hk' with rfl | hk'
    · exact hboth.1
    · rcases mem_cons.mp hk' with rfl | hk'
      · exact hboth.2
      · exact hall k' (mem_cons_of_mem _ hk')

theorem foldl_merge_ne_variable (h : ks.foldl merge k ≠ .variable) : ∀ k' ∈ k :: ks, k' ≠ .variable := by
  induction ks generalizing k with
  | nil => simpa using h
  | cons k₁ ks ih =>
    have hall := ih h
    have hboth : k ≠ .variable ∧ k₁ ≠ .variable := by
      cases k <;> cases k₁ <;> simp_all [merge]
    intro k' hk'
    rcases mem_cons.mp hk' with rfl | hk'
    · exact hboth.1
    · rcases mem_cons.mp hk' with rfl | hk'
      · exact hboth.2
      · exact hall k' (mem_cons_of_mem _ hk')

theorem mergeList_fixed (h : mergeList sz ks = some (.fixed n)) :
    ∃ m, n = m + BinarySize.tagSize sz ∧ ∀ k ∈ ks, k = .fixed m := by
  rcases ks with _ | ⟨k, ks⟩
  · cases h
  · simp only [mergeList] at h
    cases hfold : ks.foldl merge k with
    | fixed m =>
      rw [hfold] at h
      cases h
      exact ⟨m, rfl, foldl_merge_fixed hfold⟩
    | dynamic | «variable» =>
      rw [hfold] at h
      cases h

theorem mergeList_ne_variable (h : mergeList sz ks = some kind) (hk : kind ≠ .variable) :
    ∀ k ∈ ks, k ≠ .variable := by
  rcases ks with _ | ⟨k, ks⟩
  · cases h
  · simp only [mergeList] at h
    refine foldl_merge_ne_variable fun hvar => ?_
    rw [hvar] at h
    cases h
    exact hk rfl

end Kind

namespace Encoding
variable {ι : Type → Type} {α : Type}

variable {n : Nat} {sz : TagSize} {β : Fin n → Type} {unfold : {β : Type} → ι β → Encoding ι β}
  {e : Encoding ι α}
  {es : (i : Fin n) → Encoding ι (β i)} {cases : (i : Fin n) → Case α (β i)}

theorem classify_case {kind : Kind}
    (h : Checked unfold (.union kind sz cases es)) (hk : kind ≠ .variable) (i : Fin n) : (es i).classify ≠ .variable :=
  Kind.mergeList_ne_variable h.2 hk _ (mem_ofFn.mpr ⟨i, rfl⟩)

/-- All cases of a union of a fixed size have one size. -/
theorem classify_case_fixed {m : Nat} (h : Checked unfold (.union (.fixed m) sz cases es)) (i : Fin n) :
    ∃ k, m = k + BinarySize.tagSize sz ∧ (es i).classify = .fixed k := by
  obtain ⟨k, hm, hall⟩ := Kind.mergeList_fixed h.2
  exact ⟨k, hm, hall _ (mem_ofFn.mpr ⟨i, rfl⟩)⟩

theorem classify_padded (h : Checked unfold (.padded e n)) :
    ∃ m, e.classify = .fixed m ∧ (padded e n).classify = .fixed (n + m) := by
  obtain ⟨-, m, hm⟩ := h
  exact ⟨m, hm, by simp only [classify, hm]⟩

end Encoding

variable {α : Type} {n : Nat} {β : Fin n → Type} {cases : (i : Fin n) → Case α (β i)}

variable {i : Fin n} {sz : TagSize} {t : Int}

theorem selectCase_some {v : α} {tag : Int} {x : β i} (h : selectCase cases v = some ⟨i, tag, x⟩) :
    (cases i).tag = .tag tag ∧ (cases i).proj v = some x := by
  obtain ⟨j, -, hj⟩ := exists_of_findSome?_eq_some h
  split at hj
  · cases hj
  · rename_i t ht
    obtain ⟨y, hy, heq⟩ := Option.map_eq_some_iff.mp hj
    cases heq
    exact ⟨ht, hy⟩

theorem checkTags_pairwise {tags : List CaseTag} {others : List Int} (h : checkTags sz tags others = .ok ()) :
    tags.Pairwise (fun a b => ∀ t, a = .tag t → b ≠ .tag t) ∧ ∀ t ∈ others, CaseTag.tag t ∉ tags := by
  induction tags generalizing others with
  | nil => exact ⟨Pairwise.nil, fun t _ ht => by cases ht⟩
  | cons tag tags ih =>
    cases tag with
    | jsonOnly =>
      obtain ⟨hpair, hoths⟩ := ih h
      exact ⟨pairwise_cons.mpr ⟨fun _ _ _ ht => (by cases ht), hpair⟩, fun t ht => by simpa using hoths t ht⟩
    | tag t =>
      simp only [checkTags] at h
      split at h
      · cases h
      · split at h
        · cases h
        · rename_i hnot _
          obtain ⟨hpair, hoths⟩ := ih h
          refine ⟨pairwise_cons.mpr ⟨fun b hb t' ht' hb' => ?_, hpair⟩, fun t' ht' hmem => ?_⟩
          · cases ht'
            subst hb'
            exact hoths t mem_cons_self hb
          · rcases mem_cons.mp hmem with heq | hmem
            · cases heq
              exact hnot ht'
            · exact hoths t' (mem_cons_of_mem _ ht') hmem

section
variable (h : checkCases sz (ofFn fun i => (cases i).tag) = .ok ()) (hi : (cases i).tag = .tag t)
include h hi

/-- No two cases have one tag. -/
theorem tag_injective {j : Fin n} (hj : (cases j).tag = .tag t) : i = j := by
  have hchk : checkTags sz (ofFn fun i => (cases i).tag) [] = .ok () := by
    simp only [checkCases] at h
    split at h
    · cases h
    · exact h
  have hpair := pairwise_ofFn.mp (checkTags_pairwise hchk).1
  rcases lt_trichotomy i j with hlt | heq | hlt
  · exact absurd hj (hpair hlt t hi)
  · exact heq
  · exact absurd hi (hpair hlt t hj)

theorem findTag_of_tag : findTag cases t = some i := by
  unfold findTag
  rcases hfind : (finRange n).find? fun i => decide ((cases i).tag = .tag t) with _ | j
  · exact absurd hi (by simpa using find?_eq_none.mp hfind i (mem_finRange i))
  · have hj : (cases j).tag = .tag t := by simpa using find?_some hfind
    rw [tag_injective h hi hj]

end

theorem findTag_some (h : findTag cases t = some i) : (cases i).tag = .tag t := by
  simpa using find?_some h

end Tezos.DataEncoding
