import Tezos.Lib.Bytes
import Tezos.Theorems.Shell.State.Tree
import Tezos.Validation.BlockValidation

/-! What the validation of a block checks. -/

namespace Tezos.BlockValidation
open Lib State List
variable {B O L C P E I X : Type} {H : Hashes B O L C} {hash : B}

/-- A check of a property: the block is invalid when it does not hold. -/
def Checks (hash : B) (result : Result B O L C P E Unit) (holds : Prop) : Prop :=
  (holds ∧ result = .ok ()) ∨ (¬holds ∧ ∃ error, result = .error (.errors [invalidBlock hash error]))

section
variable {result next : Result B O L C P E Unit} {p q : Prop}

theorem checks_ok : Checks hash (.ok () : Result B O L C P E Unit) True := .inl ⟨trivial, rfl⟩

theorem checks_failUnless [Decidable p] (error : BlockError B O E) :
    Checks hash (failUnless (decide p) (invalidBlock hash error) : Result B O L C P E Unit) p := by
  by_cases hp : p
  · exact .inl ⟨hp, if_pos (decide_eq_true hp)⟩
  · exact .inr ⟨hp, error, if_neg fun h => hp (of_decide_eq_true h)⟩

section
variable (h : Checks hash result p)
include h

theorem Checks.congr (hiff : p ↔ q) : Checks hash result q := by
  rwa [← propext hiff]

theorem Checks.bind (hnext : p → Checks hash next q) : Checks hash (result >>= fun _ => next) (p ∧ q) := by
  rcases h with ⟨hp, rfl⟩ | ⟨hp, error, rfl⟩
  · rcases hnext hp with ⟨hq, rfl⟩ | ⟨hq, error, rfl⟩
    · exact .inl ⟨⟨hp, hq⟩, rfl⟩
    · exact .inr ⟨fun h => hq h.2, error, rfl⟩
  · exact .inr ⟨fun h => hp h.1, error, rfl⟩

theorem Checks.of_ok (hok : result = .ok ()) : p := by
  rcases h with ⟨hp, -⟩ | ⟨-, error, herr⟩
  · exact hp
  · rw [hok] at herr
    cases herr

theorem Checks.ok (hp : p) : result = .ok () := by
  rcases h with ⟨-, hok⟩ | ⟨hnot, -⟩
  · exact hok
  · exact absurd hp hnot

end

theorem forM_checks {α : Type} {f : α → Result B O L C P E Unit} {p : α → Prop} (l : List α)
    (h : ∀ a ∈ l, Checks hash (f a) (p a)) : Checks hash (l.forM f) (∀ a ∈ l, p a) := by
  induction l with
  | nil => exact checks_ok.congr ⟨fun _ a ha => absurd ha not_mem_nil, fun _ => trivial⟩
  | cons a l ih =>
    obtain ⟨hfst, hrest⟩ := forall_mem_cons.mp h
    exact (hfst.bind fun _ => ih hrest).congr forall_mem_cons.symm

theorem foldlM_flatten {α β ε : Type} (f : β → α → Except ε β) (ls : List (List α)) (b : β) :
    ls.foldlM (fun b l => l.foldlM f b) b = ls.flatten.foldlM f b := by
  induction ls generalizing b with
  | nil => rfl
  | cons l ls ih =>
    rw [flatten_cons, foldlM_append]
    exact congrArg (Except.bind (l.foldlM f b)) (funext ih)

end

section
variable [DecidableEq B] [DecidableEq O]

/-- The operations of a block that are neither in the block twice nor live. -/
def NotReplayed (H : Hashes B O L C) (liveOperations : Finset O) (operations : List (Operation B)) : Prop :=
  (operations.map H.operation).Nodup ∧ ∀ op ∈ operations, H.operation op ∉ liveOperations

omit [DecidableEq B] in
theorem notReplayed_cons {liveOperations : Finset O} {op : Operation B} {operations : List (Operation B)} :
    NotReplayed H liveOperations (op :: operations) ↔
      H.operation op ∉ liveOperations ∧ NotReplayed H (insert (H.operation op) liveOperations) operations := by
  simp only [NotReplayed, map_cons, nodup_cons, mem_map, forall_mem_cons, Finset.mem_insert, not_or]
  constructor
  · rintro ⟨⟨hfst, hnd⟩, hlive, hrest⟩
    exact ⟨hlive, hnd, fun op' hop' => ⟨fun heq => hfst ⟨op', hop', heq⟩, hrest op' hop'⟩⟩
  · rintro ⟨hlive, hnd, hrest⟩
    refine ⟨⟨?_, hnd⟩, hlive, fun op' hop' => (hrest op' hop').2⟩
    rintro ⟨op', hop', heq⟩
    exact (hrest op' hop').1 heq

omit [DecidableEq B] in
theorem assertNoDuplicateOperations_checks (H : Hashes B O L C) (hash : B) (liveOperations : Finset O)
    (operations : List (List (Operation B))) :
    Checks hash (assertNoDuplicateOperations H hash liveOperations operations : Result B O L C P E Unit)
      (NotReplayed H liveOperations operations.flatten) := by
  rw [assertNoDuplicateOperations, foldlM_flatten]
  induction operations.flatten generalizing liveOperations with
  | nil => exact .inl ⟨⟨nodup_nil, fun op hop => absurd hop not_mem_nil⟩, rfl⟩
  | cons op ops ih =>
    rw [notReplayed_cons, foldlM_cons]
    by_cases hmem : H.operation op ∈ liveOperations
    · refine .inr ⟨fun h => h.1 hmem, .replayedOperation (H.operation op), ?_⟩
      simp only [failUnless, hmem, not_true, decide_false, Bool.false_eq_true, if_false, bind, Except.bind]
    · simp only [failUnless, hmem, not_false_eq_true, decide_true, if_true, true_and, bind, Except.bind] at ih ⊢
      exact ih (insert (H.operation op) liveOperations)

omit [DecidableEq O] in
theorem assertOperationLiveness_checks (H : Hashes B O L C) (hash : B) (liveBlocks : Finset B)
    (operations : List (List (Operation B))) :
    Checks hash (assertOperationLiveness H hash liveBlocks operations : Result B O L C P E Unit)
      (∀ op ∈ operations.flatten, op.branch ∈ liveBlocks) := by
  refine (forM_checks operations fun ops _ => forM_checks ops fun op _ => checks_failUnless _).congr ?_
  simp only [mem_flatten]
  constructor
  · rintro h op ⟨ops, hops, hop⟩
    exact h ops hops op hop
  · intro h ops hops op hop
    exact h op ⟨ops, hops, hop⟩

theorem checkLiveness_checks (H : Hashes B O L C) (hash : B) (liveBlocks : Finset B) (liveOperations : Finset O)
    (operations : List (List (Operation B))) :
    Checks hash (checkLiveness H hash liveBlocks liveOperations operations : Result B O L C P E Unit)
      (NotReplayed H liveOperations operations.flatten ∧ ∀ op ∈ operations.flatten, op.branch ∈ liveBlocks) :=
  (assertNoDuplicateOperations_checks H hash liveOperations operations).bind fun _ =>
    assertOperationLiveness_checks H hash liveBlocks operations

end

variable {K : Contexts B C P I X} {registered : P → Option (Protocol B L C P E I X)} {chainId : I}
  {ttl : Int} {predecessor header : BlockHeader B L C} {context : X} {operations other : List (List (Operation B))}
  {validated : Validated C X}

namespace Make
variable (proto : Protocol B L C P E I X)

/-- What is checked of a header on top of another one. -/
def HeaderFits (predecessor header : BlockHeader B L C) : Prop :=
  predecessor.shell.level + 1 = header.shell.level ∧ predecessor.shell.timestamp < header.shell.timestamp ∧
    Fitness.compare predecessor.shell.fitness header.shell.fitness = .lt ∧
    header.shell.validationPasses = proto.validationPasses.length

theorem checkBlockHeader_checks :
    Checks hash (checkBlockHeader proto predecessor hash header : Result B O L C P E Unit)
      (HeaderFits proto predecessor header) :=
  (checks_failUnless _).bind fun _ => (checks_failUnless _).bind fun _ => (checks_failUnless _).bind fun _ =>
    checks_failUnless _

theorem both_raised (result : Result B O L C P E Unit) : both result (.error .raised) = .error .raised := by
  rcases result with (_ | _ | _) | ⟨⟩ <;> rfl

theorem iteri2P_raised {α β : Type} (f : Nat → α → β → Result B O L C P E Unit) (i : Nat) {l1 : List α}
    {l2 : List β}
    (hlen : l1.length ≠ l2.length) : iteri2P f i l1 l2 = .error .raised := by
  induction l1 generalizing i l2 with
  | nil =>
    cases l2 with
    | nil => exact absurd rfl hlen
    | cons => rfl
  | cons x1 l1 ih =>
    rcases l2 with _ | ⟨x2, l2⟩
    · rfl
    · rw [iteri2P, ih (i + 1) fun h => hlen (congrArg Nat.succ h), both_raised]

section
variable [DecidableEq P] {proto}
  (h : apply H proto K registered chainId ttl predecessor context header operations = .ok validated)
include h

theorem apply_ok :
    HeaderFits proto predecessor header ∧ (∃ data, proto.decodeBlockHeaderData header.protocolData = some data) ∧
      operations.length = proto.validationPasses.length := by
  obtain ⟨_, hhdr, h⟩ := bind_eq_ok.mp h
  obtain ⟨data, hdata, h⟩ := bind_eq_ok.mp h
  obtain ⟨_, hquota, -⟩ := bind_eq_ok.mp h
  refine ⟨(checkBlockHeader_checks proto).of_ok hhdr, ?_, ?_⟩
  · rw [parseBlockHeader] at hdata
    rcases hdec : proto.decodeBlockHeaderData header.protocolData with _ | data
    · rw [hdec] at hdata
      cases hdata
    · exact ⟨data, rfl⟩
  · by_contra hlen
    rw [checkOperationQuota, iteri2P_raised _ _ hlen] at hquota
    cases hquota

theorem apply_raised (hlen : other.length ≠ operations.length) :
    apply H proto K registered chainId ttl predecessor context header other = .error .raised := by
  obtain ⟨hhdr, ⟨data, hdata⟩, hpas⟩ := apply_ok h
  rw [apply, (checkBlockHeader_checks proto).ok hhdr, parseBlockHeader, hdata, checkOperationQuota,
    iteri2P_raised _ _ (hpas ▸ hlen)]
  rfl

end

end Make

section
variable [DecidableEq P] (h : apply H K registered chainId ttl predecessor context header operations = .ok validated)
include h

theorem apply_ok : ∃ proto, registered (K.getProtocol context) = some proto ∧
      Make.apply H proto K registered chainId ttl predecessor context header operations = .ok validated := by
  rw [apply] at h
  rcases hprt : registered (K.getProtocol context) with _ | proto
  · rw [hprt] at h
    cases h
  · rw [hprt] at h
    exact ⟨proto, rfl, h⟩

theorem timestamp_of_apply : predecessor.shell.timestamp < header.shell.timestamp := by
  obtain ⟨proto, -, h⟩ := apply_ok h
  obtain ⟨⟨-, htime, -⟩, -⟩ := Make.apply_ok h
  exact htime

theorem apply_raised (hlen : other.length ≠ operations.length) :
    apply H K registered chainId ttl predecessor context header other = .error .raised := by
  obtain ⟨proto, hprt, h⟩ := apply_ok h
  simp only [apply, hprt]
  exact Make.apply_raised h hlen

end

end Tezos.BlockValidation
