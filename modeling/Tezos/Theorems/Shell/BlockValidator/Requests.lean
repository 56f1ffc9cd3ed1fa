import Tezos.Shell.BlockValidator
import Tezos.Theorems.Crypto.MerkleTree
import Tezos.Theorems.Validation.BlockValidation

/-! What a request does to a node. -/

namespace Tezos.BlockValidator
open Lib State BlockValidation MerkleTree
variable {B O M L C P E I X : Type} [DecidableEq B] [DecidableEq O] [DecidableEq P]
  {env : Environment B O M L C P E I X} {node node' : Node B O L C P E X} {pred : Block B L C} {hash : B}
  {header : BlockHeader B L C} {operations : List (List (Operation B))} {validated : Validated C X}
  {live : Finset B × Finset O} {ttl : Int}

theorem applyBlockOrFetch_ok (h : applyBlockOrFetch env node pred header operations = .ok validated) :
    applyBlock env node pred header operations = .ok validated := by
  rw [applyBlockOrFetch] at h
  split at h
  · split at h
    · cases h
    · exact h
  · exact h

theorem applyBlock_ok (h : applyBlock env node pred header operations = .ok validated) :
    ∃ ttl live context, maxOperationsTtl node.chain pred = .ok ttl ∧ liveData node pred ttl = .ok live ∧
      (NotReplayed env.hashes live.2 operations.flatten ∧ ∀ op ∈ operations.flatten, op.branch ∈ live.1) ∧
      getContext node pred.header.shell.context = .ok context ∧
      apply env.hashes env.contexts env.registered env.chainId ttl pred.header context header
        operations = .ok validated := by
  obtain ⟨ttl, httl, h⟩ := bind_eq_ok.mp h
  obtain ⟨live, hlive, h⟩ := bind_eq_ok.mp h
  obtain ⟨_, hchk, h⟩ := bind_eq_ok.mp h
  obtain ⟨context, hcont, h⟩ := bind_eq_ok.mp h
  exact ⟨ttl, live, context, httl, hlive, (checkLiveness_checks _ _ _ _ _).of_ok hchk, hcont, h⟩

theorem applyBlock_of_live {context : X}
    (httl : maxOperationsTtl node.chain pred = .ok ttl) (hlive : liveData node pred ttl = .ok live)
    (hcont : getContext node pred.header.shell.context = .ok context)
    (hfits : NotReplayed env.hashes live.2 operations.flatten ∧ ∀ op ∈ operations.flatten, op.branch ∈ live.1) :
    applyBlock env node pred header operations =
      apply env.hashes env.contexts env.registered env.chainId ttl pred.header context header
        operations := by
  have hchk := (checkLiveness_checks (P := P) (E := E) env.hashes (env.hashes.blockHeader header) live.1 live.2
    operations).ok hfits
  simp only [applyBlock, httl, hlive, hchk, hcont, bind, Except.bind]

theorem applyBlock_of_replayed
    (httl : maxOperationsTtl node.chain pred = .ok ttl) (hlive : liveData node pred ttl = .ok live)
    (hrep : ¬NotReplayed env.hashes live.2 operations.flatten) :
    ∃ error, applyBlock env node pred header operations =
      .error (.errors [invalidBlock (env.hashes.blockHeader header) error]) := by
  rcases checkLiveness_checks (P := P) (E := E) env.hashes (env.hashes.blockHeader header) live.1 live.2 operations with
    ⟨⟨hfits, -⟩, -⟩ | ⟨-, error, hchk⟩
  · exact absurd hfits hrep
  · refine ⟨error, ?_⟩
    simp only [applyBlock, httl, hlive, hchk, bind, Except.bind]

/-! ### Commits -/

omit [DecidableEq B] [DecidableEq O] [DecidableEq P] in
theorem ok_of_protect {α : Type} {result : Result B O L C P E α} {a : α} (h : protect result = .ok a) :
    result = .ok a := by
  rcases result with (_ | _ | _) | _
  · cases h
  · cases h
  · cases h
  · exact h

def Extends (index index' : C → Option X) : Prop :=
  ∀ hash context, index hash = some context → index' hash = some context

theorem Extends.trans {index index' index'' : C → Option X} (h : Extends index index') (h' : Extends index' index'') :
    Extends index index'' :=
  fun hash context hidx => h' hash context (h hash context hidx)

section
variable [DecidableEq C]

theorem extends_commit (index : C → Option X) (hash : C) (context : X) : Extends index (commit index hash context) := by
  intro hash' context' hidx
  rw [commit]
  cases hold : index hash with
  | some _ => exact hidx
  | none =>
    have hne : hash' ≠ hash := by
      rintro rfl
      rw [hold] at hidx
      cases hidx
    exact (Function.update_of_ne hne _ _).trans hidx

variable [DecidableEq L] (env) (node) (hash) (header) (operations)

def StoredAs (validated : Validated C X) (chain : ChainState B O L C (Error B O L C P E)) (nb : Block B L C) : Prop :=
  ∃ contextExists, store env.hashes node.chain false contextExists header operations validated.opsMetadata
    ⟨validated.contextHash, validated.maxOperationsTtl⟩ = .ok (chain, some nb)

omit [DecidableEq O] [DecidableEq P] in
theorem commitBlock_cases (validated : Validated C X) :
    (∃ trace, protect (commitBlock env node hash header operations validated) = .error (.errors trace) ∧
        trace.any isInvalidBlock = false) ∨
      protect (commitBlock env node hash header operations validated) = .ok (node.chain, none) ∨
      ∃ chain nb, hash = env.hashes.blockHeader header ∧ StoredAs env node header operations validated chain nb ∧
        protect (commitBlock env node hash header operations validated) = .ok (chain, some nb) := by
  rw [commitBlock]
  split
  · rename_i hasserts
    generalize hstr : store env.hashes node.chain _ _ _ _ _ _ = result
    rcases store_outcome hstr with ⟨error, rfl, hoth⟩ | rfl | ⟨chain, nb, rfl, -⟩
    · refine .inl ⟨[error], rfl, ?_⟩
      cases error with
      | other e => exact absurd rfl (hoth e)
      | _ => rfl
    · exact .inr (.inl rfl)
    · exact .inr (.inr ⟨chain, nb, hasserts.1, ⟨_, hstr⟩, rfl⟩)
  · exact .inl ⟨_, rfl, rfl⟩

omit [DecidableEq O] [DecidableEq P] [DecidableEq L] [DecidableEq C] in
theorem commitInvalidBlock_cases (errors : List (Error B C (Error B O L C P E))) :
    (∃ failure, protect (commitInvalidBlock env node hash header errors) = .error failure) ∨
      protect (commitInvalidBlock env node hash header errors) = .ok (node.chain, false) ∨
      protect (commitInvalidBlock env node hash header errors) = .ok ({ node.chain with
        invalidBlock := Function.update node.chain.invalidBlock hash (some ⟨header.shell.level, errors⟩) }, true) := by
  rw [commitInvalidBlock]
  by_cases hhash : hash = env.hashes.blockHeader header
  · rw [if_pos hhash, storeInvalid]
    rcases failUnless_cases rfl with heq | ⟨-, heq⟩
    · rw [heq]
      exact .inl ⟨_, rfl⟩
    · rw [← heq]
      by_cases hkn : (node.chain.invalidBlock (env.hashes.blockHeader header)).isSome
      · rw [if_pos hkn]
        exact .inr (.inl rfl)
      · rw [if_neg hkn, hhash]
        exact .inr (.inr rfl)
  · rw [if_neg hhash]
    exact .inl ⟨_, rfl⟩

theorem applyAndCommit_cases : ∃ node' result, applyAndCommit env node hash header operations = (node', result) ∧
      Extends node.index node'.index ∧
      ((node'.chain = node.chain ∧ ∃ failure, result = .error failure ∧
          ∀ trace, failure = .errors trace → trace.any isInvalidBlock = true →
            ∃ pred, readOpt node.chain header.shell.predecessor = some pred ∧
              protect (applyBlockOrFetch env node pred header operations) = .error (.errors trace)) ∨
        ∃ pred validated nb, hash = env.hashes.blockHeader header ∧
          readOpt node.chain header.shell.predecessor = some pred ∧
          applyBlock env node pred header operations = .ok validated ∧
          StoredAs env node header operations validated node'.chain nb ∧ result = .ok nb) := by
  rw [applyAndCommit, State.read]
  rcases hread : readOpt node.chain header.shell.predecessor with _ | pred
  · refine ⟨node, _, rfl, fun _ _ h => h, .inl ⟨rfl, _, rfl, ?_⟩⟩
    rintro trace ⟨⟩ hany
    cases hany
  · simp only
    cases happ : protect (applyBlockOrFetch env node pred header operations) with
    | error failure =>
      refine ⟨node, _, rfl, fun _ _ h => h, .inl ⟨rfl, failure, rfl, ?_⟩⟩
      rintro trace rfl -
      exact ⟨pred, rfl, happ⟩
    | ok validated =>
      have hext := extends_commit node.index validated.contextHash validated.context
      have hcom := commitBlock_cases env ⟨node.chain, commit node.index validated.contextHash validated.context⟩ hash
        header operations validated
      rcases hcom with ⟨trace, heq, hno⟩ | heq | ⟨chain, nb, hhash, hsto, heq⟩
      · simp only [heq]
        refine ⟨_, _, rfl, hext, .inl ⟨rfl, _, rfl, ?_⟩⟩
        rintro trace' ⟨⟩ hany
        rw [hno] at hany
        cases hany
      · simp only [heq]
        refine ⟨_, _, rfl, hext, .inl ⟨rfl, _, rfl, ?_⟩⟩
        rintro trace' ⟨⟩ hany
        cases hany
      · simp only [heq]
        refine ⟨_, _, rfl, hext, .inr ⟨pred, validated, nb, hhash, rfl, applyBlockOrFetch_ok ?_, hsto, rfl⟩⟩
        exact ok_of_protect happ

theorem onRequest_cases :
    ∃ node' result, onRequest env node hash header operations = (node', result) ∧ Extends node.index node'.index ∧
      (node'.chain = node.chain ∨
        (∃ pred trace, ¬header.shell.level < node.chain.savePoint.1 ∧
          readOpt node.chain header.shell.predecessor = some pred ∧
          protect (applyBlockOrFetch env node pred header operations) = .error (.errors trace) ∧
          trace.any isInvalidBlock = true ∧
          node'.chain = { node.chain with
            invalidBlock := Function.update node.chain.invalidBlock hash (some ⟨header.shell.level, trace⟩) }) ∨
        ∃ pred validated nb, hash = env.hashes.blockHeader header ∧
          readOpt node.chain header.shell.predecessor = some pred ∧
          applyBlock env node pred header operations = .ok validated ∧
          StoredAs env node header operations validated node'.chain nb) := by
  have hsame : Extends node.index node.index := fun _ _ h => h
  rw [onRequest]
  cases hread : readOpt node.chain hash with
  | some _ => exact ⟨node, _, rfl, hsame, .inl rfl⟩
  | none =>
    cases hinv : node.chain.invalidBlock hash with
    | some _ => exact ⟨node, _, rfl, hsame, .inl rfl⟩
    | none =>
      by_cases hlvl : header.shell.level < node.chain.savePoint.1
      · simp only [if_pos hlvl]
        exact ⟨node, _, rfl, hsame, .inl rfl⟩
      · simp only [if_neg hlvl]
        obtain ⟨node', result, heq, hext, ⟨hchn, failure, rfl, htrc⟩ |
          ⟨pred, validated, nb, hhash, hpred, happ, hsto, rfl⟩⟩ :=
            applyAndCommit_cases env node hash header operations
        · simp only [heq]
          cases failure with
          | raised | diverged => exact ⟨node', _, rfl, hext, .inl hchn⟩
          | errors trace =>
            by_cases hany : trace.any isInvalidBlock = true
            · obtain ⟨pred, hpred, happ⟩ := htrc trace rfl hany
              simp only [if_pos hany]
              rcases commitInvalidBlock_cases env node' hash header trace with ⟨failure, heq⟩ | heq | heq
              · simp only [heq]
                exact ⟨node', _, rfl, hext, .inl hchn⟩
              · simp only [heq]
                exact ⟨_, _, rfl, hext, .inl hchn⟩
              · simp only [heq]
                exact ⟨_, _, rfl, hext, .inr (.inl ⟨pred, trace, hlvl, hpred, happ, hany, by rw [hchn]⟩)⟩
            · simp only [if_neg hany]
              exact ⟨node', _, rfl, hext, .inl hchn⟩
        · simp only [heq]
          exact ⟨node', _, rfl, hext, .inr (.inr ⟨pred, validated, nb, hhash, hpred, happ, hsto⟩)⟩

end

abbrev PlainList := Free (Operation Nat)

abbrev PlainHeader := BlockHeader Nat (Free PlainList) Unit

abbrev PlainBlock := Block Nat (Free PlainList) Unit

abbrev PlainNode := Node Nat (Operation Nat) (Free PlainList) Unit Unit Empty Unit

/-- A protocol with one pass that takes all the operations. -/
def plainProtocol : Protocol Nat (Free PlainList) Unit Unit Empty Unit Unit where
  BlockHeaderData := Unit
  OperationData := Unit
  ValidationState := Fitness
  Receipt := Unit
  hash := ()
  validationPasses := [none]
  maxOperationDataLength := 1024
  decodeBlockHeaderData _ := some ()
  decodeOperationData _ := some ()
  encodeReceipt _ := []
  acceptablePasses _ _ := [0]
  beginApplication _ _ _ _ shell _ := .ok shell.fitness
  applyOperation state _ _ := .ok (state, ())
  finalizeBlock fitness := .ok ⟨(), fitness, none, 10⟩
  init _ shell := .ok ⟨(), shell.fitness, none, 10⟩

/-- The hash of a block is its time, and that of an operation is the operation. -/
def plainEnvironment : Environment Nat (Operation Nat) PlainList (Free PlainList) Unit Unit Empty Unit Unit where
  hashes := ⟨fun header => header.shell.timestamp.toNat, id, .empty⟩
  listHash := freeHash (Operation Nat)
  listListHash := freeHash PlainList
  contexts := ⟨fun _ => (), fun _ _ => (), fun _ => .notRunning, fun _ _ => (), id, fun _ => (), fun _ _ _ => ((), ())⟩
  registered _ := some plainProtocol
  chainId := ()
  fetchAndCompileProtocol _ := .ok ()

def plainNode : PlainNode :=
  ⟨create plainEnvironment.hashes 0 0 () none, fun _ => some ()⟩

def plainGenesis : PlainBlock :=
  ⟨0, genesisHeader plainEnvironment.hashes 0 0 ()⟩

/-- A header at the time of its number, with the root of its operations. -/
def plainHeader (level : Int32) (predecessor number : Nat) (operations : List (List (Operation Nat))) : PlainHeader :=
  ⟨⟨level, 0, predecessor, number, 1, (computeOperationsHash plainEnvironment operations).getD .empty,
    List.replicate number [], ()⟩, []⟩

end Tezos.BlockValidator
