import Tezos.Protocol.StorageFunctors

/-! The keys are looked for below the name of the data, which comes after them in the paths. -/

namespace Tezos.Protocol.IndexedCarbonated
open DataEncoding

/-- A file is that many levels below a directory, and one at least. -/
def Tree.hasFile (t : Tree) : Nat → List String → Bool
  | 0, path | 1, path => (t.list path).any (·.2.isContents)
  | n + 2, path => (t.list path).any fun child => !child.2.isContents && t.hasFile (n + 1) (path ++ [child.1])

/-- A loop whose steps fail or change nothing. -/
theorem foldlM_fails {α β ε : Type} {f : α → β → Except ε α} {e : ε} {acc : α} {p : β → Bool} {l : List β}
    (h : ∀ x, f acc x = if p x then .error e else .ok acc) : l.foldlM f acc = if l.any p then .error e else .ok acc := by
  induction l with
  | nil => rfl
  | cons x l ih =>
    rw [List.foldlM_cons, h, List.any_cons]
    cases p x
    · exact ih
    · rfl

variable {K α : Type} (I : Index K) (s : Tree)

/-- No path below the name of the data is that of a key: a file that is found fails the assertion. -/
theorem dig_eq (f : K → α → Except Exn α) (i : Nat) (path : List String) (acc : α)
    (hpath : path.head? = some dataName) :
    dig I s f i path acc = if s.hasFile i path then .error .assertFailure else .ok acc := by
  have hhead {path : List String} (name : String) (hpath : path.head? = some dataName) :
      (path ++ [name]).head? = some dataName := by
    rw [List.head?_append, hpath]
    rfl
  fun_induction dig I s f i path acc with
  | case1 path acc | case2 path acc =>
    refine foldlM_fails fun child => ?_
    cases child.2.isContents <;> simp [I.ofPath_data _ (hhead child.1 hpath)]
  | case3 path acc i ih =>
    refine foldlM_fails fun child => ?_
    cases child.2.isContents
    · exact ih _ _ (hhead child.1 hpath)
    · rfl

/-- The keys that are enumerated are those of the storage, each of them once. -/
def Enumerates : Prop := ∃ keys, keysUnaccounted I s = .ok keys ∧ keys.Nodup ∧ ∀ k, k ∈ keys ↔ mem I s k

/-- The keys are enumerated if, and only if, there are none, and no file is where they are looked for. -/
theorem enumerates_iff : Enumerates I s ↔ (∀ k, ¬mem I s k) ∧ ¬s.hasFile I.pathLength [dataName] := by
  unfold Enumerates keysUnaccounted foldKeysUnaccounted
  rw [dig_eq I s _ _ [dataName] _ rfl]
  split
  · rename_i hfile
    refine iff_of_false ?_ fun h => h.2 hfile
    rintro ⟨keys, hok, -⟩
    cases hok
  · rename_i hfile
    constructor
    · rintro ⟨keys, hok, -, hkeys⟩
      cases hok
      exact ⟨fun k hk => absurd ((hkeys k).mpr hk) List.not_mem_nil, hfile⟩
    · rintro ⟨hnone, -⟩
      exact ⟨[], rfl, List.nodup_nil, fun k => iff_of_false List.not_mem_nil (hnone k)⟩

/-- One value is stored, and not enumerated. -/
theorem not_enumerates_one :
    let I : Index Unit := ⟨1, fun _ path => "00" :: path, fun path => if path = ["00"] then some () else none, by
      intro path h
      rw [if_neg]
      rintro rfl
      exact absurd h (by decide)⟩
    let s : Tree := .node [("00", .node [("data", .contents []), ("len", .contents [])])]
    mem I s () = true ∧ keysUnaccounted I s = .ok [] :=
  ⟨rfl, rfl⟩

end Tezos.Protocol.IndexedCarbonated
