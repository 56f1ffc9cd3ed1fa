import Tezos.Theorems.Shell.Prevalidator
import Tezos.Theorems.Stdlib.Ring

/-! The sets of the prevalidator. A hash is in one of them at most, until a fetch fails, or a flush brings hashes that
    are in the sets it leaves as they are. -/

namespace Tezos.Prevalidator
open Lib Prevalidation SortedMap Finset Tezos.Ring

variable {B O : Type} {P : Protocol B} {hash : Operation B → O} {ops : List (O × Operation B)} {pv pv' : State P O}
  {binding : O × Operation B} {pending : SortedMap O (Operation B)}

def nonEndorsements (P : Protocol B) (hash : Operation B → O) (ops : List (O × Operation B)) : Nat :=
  ops.countP fun op => !isEndorsementRaw P hash op.2

/-- A batch leaves the fetched hashes as they are, and applies its own operations at most. -/
structure Batched (hash : Operation B → O) (ops : List (O × Operation B)) (pv pv' : State P O) : Prop where
  fetching : pv'.fetching = pv.fetching
  bounded : nonEndorsements P hash pv'.applied ≤ nonEndorsements P hash pv.applied + nonEndorsements P hash ops

theorem Batched.of_applied (hfet : pv'.fetching = pv.fetching) (happd : pv'.applied = pv.applied) :
    Batched hash ops pv pv' :=
  ⟨hfet, by rw [happd]; exact Nat.le_add_right _ _⟩

theorem Batched.cons {pv₁ pv₂ : State P O} {op : O × Operation B} (h : Batched hash [op] pv pv₁)
    (h' : Batched hash ops pv₁ pv₂) : Batched hash (op :: ops) pv pv₂ := by
  refine ⟨h'.fetching.trans h.fetching, ?_⟩
  have hspl : nonEndorsements P hash (op :: ops) = nonEndorsements P hash [op] + nonEndorsements P hash ops := by
    rw [← List.singleton_append, nonEndorsements, List.countP_append]
    rfl
  have hhead := h.bounded
  have hrest := h'.bounded
  omega

/-- The pending operations, in the order of their hashes. -/
structure Batch (hash : Operation B → O) (pending : SortedMap O (Operation B)) : Prop where
  nodup : (pending.map Prod.fst).Nodup
  key : ∀ oph op, (oph, op) ∈ pending → hash op = oph

theorem Batch.tail (h : Batch hash (binding :: pending)) : Batch hash pending :=
  ⟨(List.nodup_cons.mp h.nodup).2, fun oph op hin => h.key oph op (List.mem_cons_of_mem _ hin)⟩

/-! ### Places -/

inductive Place where
  | refused
  | pending
  | fetching
  | live
  | applied
  | branchDelayed
  | branchRefused

def Unique (sets : Place → Finset O) : Prop := ∀ p q oph, oph ∈ sets p → oph ∈ sets q → p = q

variable {sets : Place → Finset O}

theorem Unique.enter {sets' : Place → Finset O} (target : Place) (h : Unique sets)
    (hrest : ∀ p, p ≠ target → sets' p ⊆ sets p)
    (hnew : ∀ x, x ∈ sets' target → x ∈ sets target ∨ ∀ p, x ∉ sets p) : Unique sets' := by
  have hold : ∀ p x, x ∈ sets' p → x ∈ sets p ∨ p = target ∧ ∀ q, x ∉ sets q := by
    intro p x hp
    by_cases htar : p = target
    · subst htar
      exact (hnew x hp).imp id fun hnow => ⟨rfl, hnow⟩
    · exact .inl (hrest p htar hp)
  intro p q x hp hq
  rcases hold p x hp with hp | ⟨rfl, hnow⟩
  · rcases hold q x hq with hq | ⟨rfl, hnow⟩
    · exact h p q x hp hq
    · exact absurd hp (hnow p)
  · rcases hold q x hq with hq | ⟨rfl, -⟩
    · exact absurd hq (hnow q)
    · rfl

theorem unique_of_disjoint (h : [sets .refused, sets .pending, sets .fetching, sets .live].Pairwise Disjoint)
    (hemp : ∀ p, p ∉ [Place.refused, .pending, .fetching, .live] → sets p = ∅) : Unique sets := by
  intro p q oph hp hq
  have hmem : ∀ p, oph ∈ sets p → p ∈ [Place.refused, .pending, .fetching, .live] := fun p hp =>
    by_contra fun hnot => notMem_empty oph (hemp p hnot ▸ hp)
  have hprs : [Place.refused, .pending, .fetching, .live].Pairwise fun p q => Disjoint (sets p) (sets q) :=
    List.pairwise_map.mp h
  by_contra hne
  exact disjoint_left.mp (hprs.forall (hmem p hp) (hmem q hq) hne) hp hq

variable [LinearOrder O]

/-- The ring has the keys of the map, each of them once. -/
def Listed (ring : Raw O) (rejected : SortedMap O (Rejected P)) : Prop :=
  (elements ring).Nodup ∧ ∀ oph, oph ∈ elements ring ↔ oph ∈ domain rejected

variable {oph : O} {erased : Option O} {inMempool todo failed : Finset O} {acc : Acc P O} {state : T P O}

variable (hash) in
/-- What a rejected operation changes of its map: it enters, and the one that the ring erases leaves. -/
theorem remember_spec {ring : Raw O} {rejected : SortedMap O (Rejected P)} (op : Rejected P)
    (h : Listed ring rejected) (hnew : oph ∉ domain rejected) :
    ∃ ring' rejected' erased, remember P ring rejected oph op = (ring', rejected', erased) ∧ Listed ring' rejected' ∧
      (∀ x, x ∈ domain rejected' ↔ x = oph ∨ x ∈ domain rejected ∧ erased ≠ some x) ∧
      (∀ x, erased = some x → x ∈ domain rejected) ∧
      ((∀ x op', (x, op') ∈ rejected → hash op'.1 = x) → hash op.1 = oph →
        ∀ x op', (x, op') ∈ rejected' → hash op'.1 = x) := by
  obtain ⟨hnd, hmem⟩ := h
  rw [elements_eq_kept] at hnd
  simp only [elements_eq_kept, List.mem_append, Option.mem_toList] at hmem
  obtain ⟨-, hnd, happ⟩ := List.nodup_append.mp hnd
  have hkept : ∀ x, x ∈ kept ring ↔ x ∈ domain rejected ∧ replaced ring ≠ some x := by
    intro x
    rw [← hmem]
    constructor
    · exact fun hin => ⟨.inr hin, fun heq => happ x (Option.mem_toList.mpr heq) x hin rfl⟩
    · rintro ⟨heq | hin, hne⟩
      · exact absurd heq hne
      · exact hin
  have hdom : ∀ x, x ∈ domain (remember P ring rejected oph op).2.1 ↔
      x = oph ∨ x ∈ domain rejected ∧ replaced ring ≠ some x := by
    intro x
    simp only [remember, addAndReturnErased, mem_domain_add]
    rcases replaced ring with _ | e
    · simp
    · rw [mem_domain_remove, Ne, Ne, Option.some_inj, eq_comm (a := e)]
  refine ⟨_, _, _, rfl, ⟨?_, fun x => ?_⟩, hdom, fun x heq => (hmem x).mp (.inl heq), fun hold hkey x op' hin => ?_⟩
  · rw [elements_add, ← List.concat_eq_append]
    exact hnd.concat fun hin => hnew ((hkept oph).mp hin).1
  · rw [elements_add, List.mem_append, List.mem_singleton, hkept, or_comm]
    exact (hdom x).symm
  · rcases mem_add hin with heq | hin
    · cases heq
      exact hkey
    · refine hold x op' ?_
      split at hin
      · exact hin
      · exact List.mem_of_mem_filter hin

theorem listed_clear (ring : Raw O) : Listed (P := P) (clear ring) [] := by
  rw [Listed, elements_clear]
  exact ⟨List.nodup_nil, fun oph => by simp [domain]⟩

/-- The hashes of a place, with those of `todo` as the pending ones. -/
def Place.holds (pv : State P O) (todo : Finset O) : Place → Finset O
  | .refused => domain pv.refusals
  | .pending => todo
  | .fetching => pv.fetching
  | .live => pv.liveOperations
  | .applied => domain pv.applied
  | .branchDelayed => domain pv.branchDelays
  | .branchRefused => domain pv.branchRefusals

/-- The sets of the prevalidator while it goes through a batch, of which `todo` is left. -/
structure Kept (hash : Operation B → O) (pv : State P O) (todo : Finset O) : Prop where
  unique : Unique (Place.holds pv todo)
  refused : Listed pv.refused pv.refusals
  branchDelayed : Listed pv.branchDelayed pv.branchDelays
  branchRefused : Listed pv.branchRefused pv.branchRefusals
  mempool : pv.inMempool = domain pv.applied ∪ domain pv.branchDelays ∪ domain pv.branchRefusals
  applied_key : ∀ oph op, (oph, op) ∈ pv.applied → hash op = oph
  delayed_key : ∀ oph op, (oph, op) ∈ pv.branchDelays → hash op.1 = oph
  refused_key : ∀ oph op, (oph, op) ∈ pv.branchRefusals → hash op.1 = oph

variable {op : Rejected P}

variable (h : Kept hash pv todo)
include h

omit h in
theorem holds_of_ne {p : Place} (hp : p ≠ .pending) (todo' : Finset O) : p.holds pv todo = p.holds pv todo' := by
  cases p <;> first | rfl | exact absurd rfl hp

theorem Kept.drop (oph : O) : Kept hash pv (todo.erase oph) := by
  refine { h with unique := h.unique.enter .pending (fun p hp => ?_) fun x hin => ?_ }
  · rw [holds_of_ne hp todo]
  · exact .inl (mem_of_mem_erase hin)

theorem Kept.nowhere (hmem : oph ∈ todo) (p : Place) : oph ∉ p.holds pv (todo.erase oph) := by
  by_cases hp : p = .pending
  · subst hp
    exact notMem_erase oph todo
  · rw [holds_of_ne hp todo]
    exact fun hin => hp (h.unique p .pending oph hin hmem)

/-- A pending hash enters one of the other places, and the places of the others stay as they are. -/
theorem Kept.enter (target : Place) (hmem : oph ∈ todo)
    (hrest : ∀ p, p ≠ target → p.holds pv' (todo.erase oph) = p.holds pv (todo.erase oph))
    (hnew : ∀ x, x ∈ target.holds pv' (todo.erase oph) → x = oph ∨ x ∈ target.holds pv (todo.erase oph)) :
    Unique (Place.holds pv' (todo.erase oph)) := by
  refine (h.drop oph).unique.enter target (fun p hp => (hrest p hp).subset) fun x hin => ?_
  rcases hnew x hin with rfl | hin
  · exact .inr (h.nowhere hmem)
  · exact .inl hin

theorem Kept.addRefused (hmem : oph ∈ todo) : Kept hash (addRefused P pv oph op) (todo.erase oph) := by
  obtain ⟨ring, rejected, erased, heq, hlis, hdom, -, -⟩ :=
    remember_spec hash op h.refused (h.nowhere hmem .refused)
  have hpv : Prevalidator.addRefused P pv oph op = { pv with refused := ring, refusals := rejected } := by
    simp only [Prevalidator.addRefused, heq]
  rw [hpv]
  refine { h with
    refused := hlis
    unique := h.enter .refused hmem (fun p hp => ?_) fun x hin => ((hdom x).mp hin).imp_right And.left }
  cases p <;> first | rfl | exact absurd rfl hp

omit h in
theorem mem_enterMempool {x : O} :
    x ∈ enterMempool inMempool erased oph ↔ x = oph ∨ x ∈ inMempool ∧ erased ≠ some x := by
  rcases erased with _ | e
  · simp [enterMempool]
  · simp only [enterMempool, mem_insert, mem_erase, ne_eq, Option.some_inj, and_comm, eq_comm]

omit h in
theorem enterMempool_eq {rest old new : Finset O} (hold : inMempool = rest ∪ old)
    (hnew : ∀ x, x ∈ new ↔ x = oph ∨ x ∈ old ∧ erased ≠ some x) (heras : ∀ x, erased = some x → x ∈ old)
    (hdisj : ∀ x, x ∈ old → x ∉ rest) : enterMempool inMempool erased oph = rest ∪ new := by
  refine ext fun x => ?_
  rw [mem_enterMempool, hold, mem_union, mem_union, hnew]
  constructor
  · rintro (heq | ⟨hrest | hin, hne⟩)
    · exact .inr (.inl heq)
    · exact .inl hrest
    · exact .inr (.inr ⟨hin, hne⟩)
  · rintro (hrest | heq | ⟨hin, hne⟩)
    · exact .inr ⟨.inl hrest, fun heq => hdisj x (heras x heq) hrest⟩
    · exact .inl heq
    · exact .inr ⟨.inr hin, hne⟩

theorem Kept.addBranchDelayed (hmem : oph ∈ todo) (hkey : hash op.1 = oph) :
    Kept hash (addBranchDelayed P pv oph op) (todo.erase oph) := by
  obtain ⟨ring, rejected, erased, heq, hlis, hdom, heras, hkeys⟩ :=
    remember_spec hash op h.branchDelayed (h.nowhere hmem .branchDelayed)
  have hpv : Prevalidator.addBranchDelayed P pv oph op = { pv with
      branchDelayed := ring
      branchDelays := rejected
      inMempool := enterMempool pv.inMempool erased oph } := by
    simp only [Prevalidator.addBranchDelayed, heq]
  rw [hpv]
  refine { h with
    branchDelayed := hlis
    unique := h.enter .branchDelayed hmem (fun p hp => ?_) fun x hin => ((hdom x).mp hin).imp_right And.left
    mempool := ?_
    delayed_key := hkeys h.delayed_key hkey }
  · cases p <;> first | rfl | exact absurd rfl hp
  · have hold : pv.inMempool = domain pv.applied ∪ domain pv.branchRefusals ∪ domain pv.branchDelays := by
      rw [h.mempool, union_right_comm]
    refine (enterMempool_eq hold hdom heras fun x hin hrest => ?_).trans (union_right_comm _ _ _)
    rcases mem_union.mp hrest with hrest | hrest
    · cases h.unique .branchDelayed .applied x hin hrest
    · cases h.unique .branchDelayed .branchRefused x hin hrest

theorem Kept.addBranchRefused (hmem : oph ∈ todo) (hkey : hash op.1 = oph) :
    Kept hash (addBranchRefused P pv oph op) (todo.erase oph) := by
  obtain ⟨ring, rejected, erased, heq, hlis, hdom, heras, hkeys⟩ :=
    remember_spec hash op h.branchRefused (h.nowhere hmem .branchRefused)
  have hpv : Prevalidator.addBranchRefused P pv oph op = { pv with
      branchRefused := ring
      branchRefusals := rejected
      inMempool := enterMempool pv.inMempool erased oph } := by
    simp only [Prevalidator.addBranchRefused, heq]
  rw [hpv]
  refine { h with
    branchRefused := hlis
    unique := h.enter .branchRefused hmem (fun p hp => ?_) fun x hin => ((hdom x).mp hin).imp_right And.left
    mempool := enterMempool_eq h.mempool hdom heras fun x hin hrest => ?_
    refused_key := hkeys h.refused_key hkey }
  · cases p <;> first | rfl | exact absurd rfl hp
  · rcases mem_union.mp hrest with hrest | hrest
    · cases h.unique .branchRefused .applied x hin hrest
    · cases h.unique .branchRefused .branchDelayed x hin hrest

variable {op : Operation B}

theorem Kept.apply (hmem : oph ∈ todo) (hkey : hash op = oph) :
    Kept hash { pv with applied := (oph, op) :: pv.applied, inMempool := insert oph pv.inMempool } (todo.erase oph) := by
  have hdom : domain ((oph, op) :: pv.applied) = insert oph (domain pv.applied) := List.toFinset_cons
  refine { h with
    unique := h.enter .applied hmem (fun p hp => ?_) fun x hin => mem_insert.mp (hdom ▸ hin)
    mempool := ?_
    applied_key := fun x op' hin => ?_ }
  · cases p <;> first | rfl | exact absurd rfl hp
  · rw [hdom, h.mempool, insert_union, insert_union]
  · rcases List.mem_cons.mp hin with heq | hin
    · cases heq
      exact hkey
    · exact h.applied_key x op' hin

omit h

/-! ### Batches -/

theorem Kept.process (h : Kept hash acc.pv todo) (hmem : hash op ∈ todo) :
    Kept hash (process P hash state acc op).pv (todo.erase (hash op)) ∧
      Batched hash [(hash op, op)] acc.pv (process P hash state acc op).pv := by
  unfold Prevalidator.process
  cases hpar : parse P hash op with
  | error errors => exact ⟨h.addRefused hmem, .of_applied rfl rfl⟩
  | ok parsed =>
    simp only [parse_spec hpar]
    cases applyOperation P state parsed with
    | applied next receipt =>
      simp only
      split
      · refine ⟨h.apply hmem rfl, rfl, ?_⟩
        simp only [nonEndorsements, List.countP_cons, List.countP_nil]
        exact le_of_eq (by rw [zero_add])
      · exact ⟨h.drop _, .of_applied rfl rfl⟩
    | branchDelayed errors => exact ⟨h.addBranchDelayed hmem rfl, .of_applied rfl rfl⟩
    | branchRefused errors => exact ⟨h.addBranchRefused hmem rfl, .of_applied rfl rfl⟩
    | refused errors => exact ⟨h.addRefused hmem, .of_applied rfl rfl⟩
    | duplicate | outdated => exact ⟨h.drop _, .of_applied rfl rfl⟩

theorem Batch.erase_head (h : Batch hash (binding :: pending)) :
    (domain (binding :: pending)).erase binding.1 = domain pending := by
  have hnotin : binding.1 ∉ domain pending := fun hin => (List.nodup_cons.mp h.nodup).1 (List.mem_toFinset.mp hin)
  rw [domain, List.map_cons, List.toFinset_cons]
  exact erase_insert hnotin

theorem mem_domain_head : binding.1 ∈ domain (binding :: pending) := mem_domain.mpr ⟨binding.2, List.mem_cons_self⟩

theorem Kept.foldl {σ : Type} (pvOf : σ → State P O) (step : σ → O × Operation B → σ)
    (hstep : ∀ s binding todo, Kept hash (pvOf s) todo → binding.1 ∈ todo → hash binding.2 = binding.1 →
      Kept hash (pvOf (step s binding)) (todo.erase binding.1) ∧ Batched hash [binding] (pvOf s) (pvOf (step s binding)))
    (hbatch : Batch hash pending) {s : σ} (h : Kept hash (pvOf s) (domain pending)) :
    Kept hash (pvOf (pending.foldl step s)) ∅ ∧ Batched hash pending (pvOf s) (pvOf (pending.foldl step s)) := by
  induction pending generalizing s with
  | nil => exact ⟨h, .of_applied rfl rfl⟩
  | cons binding pending ih =>
    have hkey : hash binding.2 = binding.1 := hbatch.key binding.1 binding.2 List.mem_cons_self
    obtain ⟨hkept, hhead⟩ := hstep s binding _ h mem_domain_head hkey
    rw [hbatch.erase_head] at hkept
    obtain ⟨hkept, hrest⟩ := ih hbatch.tail hkept
    exact ⟨hkept, hhead.cons hrest⟩

theorem Kept.processPending (h : Kept hash pv (domain pv.pending)) (hbatch : Batch hash pv.pending) :
    Kept hash (processPending P hash pv) ∅ ∧ (processPending P hash pv).pending = [] ∧
      Batched hash pv.pending pv (processPending P hash pv) := by
  unfold Prevalidator.processPending
  cases pv.validationState with
  | error err =>
    obtain ⟨hkept, hbat⟩ := Kept.foldl id
      (fun pv binding => Prevalidator.addBranchDelayed P pv binding.1 (binding.2, err))
      (fun pv binding todo h hmem hkey => ⟨h.addBranchDelayed hmem hkey, .of_applied rfl rfl⟩) hbatch h
    exact ⟨{ hkept with }, rfl, hbat.fetching, hbat.bounded⟩
  | ok state =>
    simp only
    split
    · rename_i hemp
      have hnil : pv.pending = [] := List.length_eq_zero_iff.mp hemp
      rw [hnil] at h
      exact ⟨h, hnil, .of_applied rfl rfl⟩
    · obtain ⟨hkept, hbat⟩ := Kept.foldl Acc.pv
        (fun acc binding => Prevalidator.process P hash state acc binding.2)
        (fun acc binding todo h hmem hkey => by
          obtain ⟨oph, op⟩ := binding
          obtain rfl : hash op = oph := hkey
          exact h.process hmem) hbatch (s := ⟨pv, state, .empty⟩) h
      rw [← List.foldl_map] at hkept hbat
      unfold Prevalidator.advertise
      split
      · exact ⟨{ hkept with }, rfl, hbat.fetching, hbat.bounded⟩
      · exact ⟨{ hkept with }, rfl, hbat.fetching, hbat.bounded⟩

theorem Kept.handleUnprocessed (h : Kept hash pv (domain pv.pending)) (hbatch : Batch hash pv.pending) :
    Kept hash (handleUnprocessed P hash pv) ∅ ∧ (handleUnprocessed P hash pv).pending = [] ∧
      Batched hash pv.pending pv (handleUnprocessed P hash pv) := by
  obtain ⟨hkept, hpen, hbat⟩ := h.processPending hbatch
  exact ⟨{ hkept with }, hpen, hbat.fetching, hbat.bounded⟩

theorem foldl_add_spec {α : Type} (key : α → O) (value : α → Operation B) (l : List α)
    {m : SortedMap O (Operation B)}
    (hsrt : Sorted m) :
    Sorted (l.foldl (fun acc a => add (key a) (value a) acc) m) ∧
      ∀ binding ∈ l.foldl (fun acc a => add (key a) (value a) acc) m,
        binding ∈ m ∨ binding ∈ l.map fun a => (key a, value a) := by
  induction l generalizing m with
  | nil => exact ⟨hsrt, fun binding => .inl⟩
  | cons a l ih =>
    obtain ⟨hsrt', hmem⟩ := ih hsrt.add
    refine ⟨hsrt', fun binding hin => ?_⟩
    rcases hmem binding hin with hin | hin
    · exact (mem_add hin).symm.imp id fun heq => List.mem_cons.mpr (.inl heq)
    · exact .inr (List.mem_cons_of_mem _ hin)

theorem foldl_remove_spec (hashes : List O) (m : SortedMap O (Operation B)) :
    (hashes.foldl (fun mempool h => remove h mempool) m).Sublist m ∧
      ∀ binding ∈ hashes.foldl (fun mempool h => remove h mempool) m, binding.1 ∉ hashes := by
  induction hashes generalizing m with
  | nil => exact ⟨List.Sublist.refl m, fun binding _ => List.not_mem_nil⟩
  | cons h hashes ih =>
    obtain ⟨hsub, hmem⟩ := ih (m.remove h)
    refine ⟨hsub.trans List.filter_sublist, fun binding hin hcons => ?_⟩
    rcases List.mem_cons.mp hcons with heq | hcons
    · exact of_decide_eq_true (List.mem_filter.mp (hsub.subset hin)).2 heq
    · exact hmem binding hin hcons

def toFetch (pv : State P O) (mempool : Mempool O) : Finset O :=
  (mempool.knownValid.foldl (fun s oph => insert oph s) mempool.pending).filter fun oph => !alreadyHandled P pv oph

inductive Event (P : Protocol B) (O : Type) where
  | request (request : Request P O)
  | fetched (oph : O) (result : Fetched B)

/-- The prevalidator, and the hashes whose last fetch ended with an error. -/
structure Watched (P : Protocol B) (O : Type) where
  pv : State P O
  failed : Finset O

/-- The invariants of `Types`, and what is meant to follow from them. -/
structure Bookkept (hash : Operation B → O) (s : Watched P O) : Prop where
  apart : [domain s.pv.refusals, domain s.pv.pending, s.pv.fetching, s.pv.liveOperations, s.pv.inMempool].Pairwise Disjoint
  mempool : s.pv.inMempool = domain s.pv.applied ∪ domain s.pv.branchDelays ∪ domain s.pv.branchRefusals
  disjoint : [domain s.pv.applied, domain s.pv.branchDelays, domain s.pv.branchRefusals].Pairwise Disjoint
  refetched : Disjoint s.failed s.pv.fetching
  bounded : nonEndorsements P hash s.pv.applied ≤ 2001

structure Tidy (hash : Operation B → O) (s : Watched P O) : Prop where
  kept : Kept hash s.pv ∅
  pending : s.pv.pending = []
  refetched : Disjoint s.failed s.pv.fetching
  bounded : nonEndorsements P hash s.pv.applied ≤ 2001

variable {s : Watched P O}

theorem Tidy.bookkept (h : Tidy hash s) : Bookkept hash s := by
  have hdisj : ∀ p q : Place, p ≠ q → Disjoint (p.holds s.pv ∅) (q.holds s.pv ∅) := fun p q hne =>
    disjoint_left.mpr fun oph hp hq => hne (h.kept.unique p q oph hp hq)
  have hplac : ∀ places : List Place, places.Nodup → (places.map (Place.holds s.pv ∅)).Pairwise Disjoint :=
    fun places hnd => List.pairwise_map.mpr (hnd.imp (hdisj _ _))
  refine ⟨?_, h.kept.mempool, hplac [.applied, .branchDelayed, .branchRefused] (by simp), h.refetched, h.bounded⟩
  rw [h.pending]
  change (List.map (Place.holds s.pv ∅) [.refused, .pending, .fetching, .live] ++ [s.pv.inMempool]).Pairwise Disjoint
  refine List.pairwise_append.mpr ⟨hplac _ (by simp), List.pairwise_singleton _ _, ?_⟩
  simp only [List.mem_map, List.mem_singleton, forall_eq, forall_exists_index, and_imp, forall_apply_eq_imp_iff₂]
  intro p hp
  rw [h.kept.mempool, disjoint_union_right, disjoint_union_right]
  refine ⟨⟨hdisj p .applied ?_, hdisj p .branchDelayed ?_⟩, hdisj p .branchRefused ?_⟩ <;>
    rintro rfl <;> simp at hp

theorem Kept.notMem_of_not_handled (h : Kept hash pv ∅) (hnew : alreadyHandled P pv oph = false) (p : Place) :
    oph ∉ p.holds pv ∅ := by
  simp only [alreadyHandled, Bool.or_eq_false_iff, decide_eq_false_iff_not] at hnew
  obtain ⟨⟨⟨⟨href, -⟩, hfet⟩, hlive⟩, hmemp⟩ := hnew
  rw [h.mempool, notMem_union, notMem_union] at hmemp
  cases p with
  | refused => exact fun hin => Bool.eq_false_iff.mp href (mem_iff.mpr hin)
  | pending => exact notMem_empty oph
  | fetching => exact hfet
  | live => exact hlive
  | applied => exact hmemp.1.1
  | branchDelayed => exact hmemp.1.2
  | branchRefused => exact hmemp.2

theorem Kept.offer (h : Kept hash pv ∅) (hnew : alreadyHandled P pv oph = false) : Kept hash pv {oph} := by
  refine { h with unique := h.unique.enter .pending (fun p hp => ?_) fun x hin => ?_ }
  · rw [holds_of_ne hp ∅]
  · obtain rfl := mem_singleton.mp hin
    exact .inr (h.notMem_of_not_handled hnew)

theorem Kept.fetch {fetching : Finset O} (h : Kept hash pv ∅)
    (hnew : ∀ x ∈ fetching, x ∈ pv.fetching ∨ alreadyHandled P pv x = false) :
    Kept hash { pv with fetching := fetching } ∅ := by
  refine { h with unique := h.unique.enter .fetching (fun p hp => ?_) fun x hin => ?_ }
  · cases p <;> first | exact Subset.refl _ | exact absurd rfl hp
  · exact (hnew x hin).imp id h.notMem_of_not_handled

theorem tidy_handleUnprocessed (h : Kept hash pv (domain pv.pending)) (hbatch : Batch hash pv.pending)
    (hfail : Disjoint failed pv.fetching)
    (hboun : nonEndorsements P hash pv.applied + nonEndorsements P hash pv.pending ≤ 2001) :
    Tidy hash ⟨handleUnprocessed P hash pv, failed⟩ := by
  obtain ⟨hkept, hpen, hbat⟩ := h.handleUnprocessed hbatch
  refine ⟨hkept, hpen, ?_, hbat.bounded.trans hboun⟩
  rwa [hbat.fetching]

theorem tidy_of_no_pending (h : Kept hash pv ∅) (hpen : pv.pending = []) (hfail : Disjoint failed pv.fetching)
    (hboun : nonEndorsements P hash pv.applied ≤ 2001) : Tidy hash ⟨handleUnprocessed P hash pv, failed⟩ := by
  refine tidy_handleUnprocessed ?_ ?_ hfail ?_
  · rw [hpen]
    exact h
  · rw [hpen]
    exact ⟨List.nodup_nil, by simp⟩
  · rw [hpen]
    exact hboun

theorem tidy_of_one (h : Kept hash pv ∅) (hpen : pv.pending = []) (hnew : alreadyHandled P pv (hash op) = false)
    (hfail : Disjoint failed pv.fetching)
    (hboun : nonEndorsements P hash pv.applied + nonEndorsements P hash [(hash op, op)] ≤ 2001) :
    Tidy hash ⟨handleUnprocessed P hash { pv with pending := pv.pending.add (hash op) op }, failed⟩ := by
  have hone : pv.pending.add (hash op) op = [(hash op, op)] := by
    rw [hpen]
    rfl
  rw [hone]
  refine tidy_handleUnprocessed { h.offer hnew with } ?_ hfail hboun
  refine ⟨List.nodup_singleton _, fun oph op' hin => ?_⟩
  cases List.mem_singleton.mp hin
  rfl

variable [DecidableEq B]

/-- What a flush leaves to look at: the operations of the mempool and those of the blocks that leave the chain, unless they
    are in the blocks that enter it or their branch is not live any more. -/
def leftOver (hash : Operation B → O) (pv : State P O) (flush : Flush P O) : List (O × Operation B) :=
  (pv.applied ++ pv.branchDelays.map (fun op => (op.1, op.2.1)) ++ pv.branchRefusals.map (fun op => (op.1, op.2.1)) ++
    flush.popped.map fun op => (hash op, op)).filter fun op => op.1 ∉ flush.pushed ∧ op.2.branch ∈ flush.liveBlocks

theorem listPendings_spec (hash : Operation B → O) (pv : State P O) (flush : Flush P O) :
    ((listPendings P hash flush (mempoolOperations P pv)).map Prod.fst).Nodup ∧
      ∀ binding ∈ listPendings P hash flush (mempoolOperations P pv), binding ∈ leftOver hash pv flush := by
  have hnil : Sorted ([] : SortedMap O (Operation B)) := List.Pairwise.nil
  obtain ⟨hsrt, happd⟩ := foldl_add_spec Prod.fst Prod.snd pv.applied.reverse hnil
  obtain ⟨hsrt, hdel⟩ := foldl_add_spec Prod.fst (fun a => a.2.1) pv.branchDelays hsrt
  obtain ⟨hsrt, href⟩ := foldl_add_spec Prod.fst (fun a => a.2.1) pv.branchRefusals hsrt
  obtain ⟨hsrt, hpop⟩ := foldl_add_spec hash id flush.popped hsrt
  obtain ⟨hsub, hpus⟩ := foldl_remove_spec flush.pushed
    (flush.popped.foldl (fun mempool op => add (hash op) op mempool) (mempoolOperations P pv))
  refine ⟨(Sorted.nodup hsrt).sublist ((List.filter_sublist.trans hsub).map Prod.fst), fun binding hin => ?_⟩
  obtain ⟨hin, hlive⟩ := List.mem_filter.mp hin
  refine List.mem_filter.mpr ⟨?_, decide_eq_true ⟨hpus binding hin, of_decide_eq_true hlive⟩⟩
  simp only [List.mem_append]
  refine (hpop binding (hsub.subset hin)).imp (fun hin => ?_) id
  refine (href binding hin).imp (fun hin => ?_) id
  refine (hdel binding hin).imp (fun hin => ?_) id
  rcases happd binding hin with hin | hin
  · exact absurd hin List.not_mem_nil
  · obtain ⟨op, hop, rfl⟩ := List.mem_map.mp hin
    exact List.mem_reverse.mp hop

theorem Kept.leftOver_key (h : Kept hash pv todo) (flush : Flush P O) {op : O × Operation B}
    (hin : op ∈ leftOver hash pv flush) : hash op.2 = op.1 := by
  simp only [leftOver, List.mem_filter, List.mem_append, List.mem_map] at hin
  rcases hin.1 with ((hop | ⟨op', hop, rfl⟩) | ⟨op', hop, rfl⟩) | ⟨op', -, rfl⟩
  · exact h.applied_key op.1 op.2 hop
  · exact h.delayed_key op'.1 op'.2 hop
  · exact h.refused_key op'.1 op'.2 hop
  · rfl

theorem Kept.listPendings (h : Kept hash pv todo) (flush : Flush P O) :
    Batch hash (listPendings P hash flush (mempoolOperations P pv)) :=
  ⟨(listPendings_spec hash pv flush).1,
    fun oph op hin => h.leftOver_key flush ((listPendings_spec hash pv flush).2 (oph, op) hin)⟩

def handle (hash : Operation B → O) (s : Watched P O) : Event P O → Watched P O
  | .request request =>
    ⟨onRequest P hash s.pv request,
      match request with
      | .notify mempool => s.failed \ toFetch s.pv mempool
      | _ => s.failed⟩
  | .fetched oph result =>
    match fetchOperation P oph result with
    | some _ => s
    | none => { s with failed := insert oph s.failed }

/-- What keeps the books: no fetch fails while its hash is among those that are fetched; the live operations of a flush,
    and those it leaves to look at, are apart from each other and from what is refused or fetched; an operation arrives
    under its own hash; and no more than 2001 operations, besides the endorsements, are there to be applied. -/
def Orderly (hash : Operation B → O) (s : Watched P O) : Event P O → Prop
  | .request (.flush flush) =>
    [domain s.pv.refusals, domain (leftOver hash s.pv flush), s.pv.fetching, flush.liveOperations].Pairwise Disjoint ∧
      nonEndorsements P hash (leftOver hash s.pv flush) ≤ 2001
  | .request (.arrived oph op) =>
    hash op = oph ∧ nonEndorsements P hash s.pv.applied + nonEndorsements P hash [(oph, op)] ≤ 2001
  | .request (.inject op) => nonEndorsements P hash s.pv.applied + nonEndorsements P hash [(hash op, op)] ≤ 2001
  | .request (.notify _) => True
  | .request .advertise => True
  | .fetched oph result => fetchOperation P oph result = none → oph ∉ s.pv.fetching

/-! ### Steps -/

theorem Tidy.flush {flush : Flush P O} (h : Tidy hash s) (hok : Orderly hash s (.request (.flush flush))) :
    Tidy hash (handle hash s (.request (.flush flush))) := by
  obtain ⟨hapr, hboun⟩ := hok
  have hbatch := h.kept.listPendings flush
  have hleft := (listPendings_spec hash s.pv flush).2
  have hsub : domain (listPendings P hash flush (mempoolOperations P s.pv)) ⊆ domain (leftOver hash s.pv flush) := by
    intro oph hin
    obtain ⟨op, hin⟩ := mem_domain.mp hin
    exact mem_domain.mpr ⟨op, hleft (oph, op) hin⟩
  have hkept : Kept hash (onFlush P hash (onAdvertise P s.pv) flush)
      (domain (onFlush P hash (onAdvertise P s.pv) flush).pending) := by
    refine ⟨unique_of_disjoint ?_ fun p hp => ?_, h.kept.refused, listed_clear _, listed_clear _, rfl, ?_, ?_, ?_⟩
    · simp only [List.pairwise_cons, List.mem_cons, List.not_mem_nil, or_false, forall_eq_or_imp, forall_eq,
        IsEmpty.forall_iff, implies_true, List.Pairwise.nil, and_true] at hapr ⊢
      obtain ⟨⟨hpen, hrefused⟩, ⟨hfet, hlive⟩, hrest⟩ := hapr
      exact ⟨⟨hpen.mono_right hsub, hrefused⟩, ⟨hfet.mono_left hsub, hlive.mono_left hsub⟩, hrest⟩
    · cases p <;> first | rfl | simp at hp
    · exact fun oph op hin => absurd hin List.not_mem_nil
    · exact fun oph op hin => absurd hin List.not_mem_nil
    · exact fun oph op hin => absurd hin List.not_mem_nil
  refine tidy_handleUnprocessed hkept hbatch h.refetched ?_
  show nonEndorsements P hash [] + nonEndorsements P hash (listPendings P hash flush (mempoolOperations P s.pv)) ≤ 2001
  have hsubp := (List.Nodup.of_map Prod.fst hbatch.nodup).subperm hleft
  rw [nonEndorsements, List.countP_nil, zero_add]
  exact (hsubp.countP_le _).trans hboun

theorem Tidy.notify {mempool : Mempool O} (h : Tidy hash s) :
    Tidy hash (handle hash s (.request (.notify mempool))) := by
  have hfet : (onNotify P s.pv mempool).fetching = toFetch s.pv mempool ∪ s.pv.fetching := rfl
  have hkept : Kept hash (onNotify P s.pv mempool) ∅ := by
    refine h.kept.fetch fun x hin => ?_
    rcases mem_union.mp hin with hin | hin
    · exact .inr ((Bool.not_eq_true' _).mp (mem_filter.mp hin).2)
    · exact .inl hin
  refine tidy_of_no_pending hkept h.pending ?_ h.bounded
  rw [hfet, disjoint_union_right]
  exact ⟨sdiff_disjoint, h.refetched.mono_left sdiff_subset⟩

theorem Tidy.arrived (h : Tidy hash s) (hok : Orderly hash s (.request (.arrived oph op))) :
    Tidy hash (handle hash s (.request (.arrived oph op))) := by
  obtain ⟨rfl, hboun⟩ := hok
  have hkept : Kept hash { s.pv with fetching := s.pv.fetching.erase (hash op) } ∅ :=
    h.kept.fetch fun x hin => .inl (mem_of_mem_erase hin)
  have hfail : Disjoint s.failed (s.pv.fetching.erase (hash op)) := h.refetched.mono_right (erase_subset _ _)
  show Tidy hash ⟨handleUnprocessed P hash (onOperationArrived P s.pv (hash op) op), s.failed⟩
  unfold onOperationArrived
  simp only
  split
  · exact tidy_of_no_pending hkept h.pending hfail h.bounded
  · split
    · rename_i hnew
      exact tidy_of_one hkept h.pending ((Bool.not_eq_true' _).mp hnew) hfail hboun
    · exact tidy_of_no_pending hkept h.pending hfail h.bounded

theorem Tidy.inject (h : Tidy hash s) (hok : Orderly hash s (.request (.inject op))) :
    Tidy hash (handle hash s (.request (.inject op))) := by
  simp only [handle, onRequest]
  unfold onInject
  cases hhan : alreadyHandled P s.pv (hash op) with
  | true => exact tidy_of_no_pending h.kept h.pending h.refetched h.bounded
  | false =>
    simp only [Bool.false_eq_true, if_false]
    split
    · exact h
    · rename_i pv heq
      split at heq
      · cases heq
      · split at heq
        · cases heq
        · rename_i parsed hpar
          split at heq
          · cases heq
            rw [(parse_spec hpar).1]
            exact tidy_of_one h.kept h.pending hhan h.refetched hok
          · cases heq

theorem Tidy.step {event : Event P O} (h : Tidy hash s) (hok : Orderly hash s event) :
    Tidy hash (handle hash s event) := by
  cases event with
  | request request =>
    cases request with
    | flush flush => exact h.flush hok
    | notify mempool => exact h.notify
    | inject op => exact h.inject hok
    | arrived oph op => exact h.arrived hok
    | advertise =>
      have hkept : Kept hash (onAdvertise P s.pv) ∅ := { h.kept with }
      exact tidy_of_no_pending hkept h.pending h.refetched h.bounded
  | fetched oph result =>
    cases hend : fetchOperation P oph result with
    | some request =>
      simp only [handle, hend]
      exact h
    | none =>
      simp only [handle, hend]
      exact { h with refetched := disjoint_insert_left.mpr ⟨hok hend, h.refetched⟩ }

/-- Whatever is launched with known operations that are not live, and whatever comes: as long as the requests and the
    fetches are orderly, the books are kept. -/
theorem bookkept_of_orderly (P : Protocol B) (hash : Operation B → O) (maxRefusedOperations : Nat)
    (size_pos : 0 < maxRefusedOperations) (liveBlocks : Finset B) (liveOperations : Finset O) (knownValid : List O)
    (hknown : ∀ oph ∈ knownValid, oph ∉ liveOperations) (created : Except (List (Error P.Error)) (T P O))
    (events : List (Event P O)) :
    let launched : Watched P O :=
      ⟨onLaunch P maxRefusedOperations size_pos liveBlocks liveOperations knownValid created, ∅⟩
    StepsMeet (handle hash) launched (Orderly hash) events →
      Throughout (fun before => Bookkept hash (run (handle hash) launched before)) events := by
  intro launched hmeet
  have hfet : ∀ (l : List O) (s : Finset O) oph, oph ∈ l.foldl (fun s h => insert h s) s → oph ∈ l ∨
      oph ∈ s := by
    intro l
    induction l with
    | nil => exact fun s oph hin => .inr hin
    | cons h l ih =>
      intro s oph hin
      rcases ih (insert h s) oph hin with hin | hin
      · exact .inl (List.mem_cons_of_mem h hin)
      · exact (mem_insert.mp hin).imp (fun heq => List.mem_cons.mpr (.inl heq)) id
  have hlaun : Tidy hash launched := by
    refine ⟨⟨unique_of_disjoint ?_ fun p hp => ?_, listed_clear (.empty _ size_pos), listed_clear (.empty _ size_pos),
      listed_clear (.empty _ size_pos), rfl, by simp [launched, onLaunch], by simp [launched, onLaunch],
      by simp [launched, onLaunch]⟩, rfl, disjoint_empty_left _, Nat.zero_le _⟩
    swap
    · cases p <;> first | rfl | simp at hp
    refine List.pairwise_cons.mpr ⟨fun s _ => disjoint_empty_left s, List.pairwise_cons.mpr
      ⟨fun s _ => disjoint_empty_left s, List.pairwise_pair.mpr ?_⟩⟩
    refine disjoint_left.mpr fun oph hin => ?_
    rcases hfet knownValid ∅ oph hin with hin | hin
    · exact hknown oph hin
    · exact absurd hin (notMem_empty oph)
  exact throughout_of_stepsMeet (fun _ s => Tidy hash s) hlaun (fun _ _ _ h hok => h.step hok)
    (fun _ h => h.bookkept) hmeet

def watchedLaunch : Watched onceProtocol Nat :=
  ⟨onLaunch onceProtocol 10 ten_pos {()} ∅ [] (.ok freshState), ∅⟩

theorem bookkept_arrival : Throughout (fun before => Bookkept lengthHash (run (handle lengthHash) watchedLaunch before))
      [.request (.notify ⟨[1], ∅⟩), .request (.arrived 1 ⟨(), [1]⟩)] := by
  refine bookkept_of_orderly onceProtocol lengthHash 10 (Nat.succ_pos 9) {()} ∅ [] (by simp) (.ok freshState) _ ?_
  exact stepsMeet_cons.mpr ⟨trivial, stepsMeet_cons.mpr ⟨⟨rfl, by decide⟩, stepsMeet_nil⟩⟩

/-- A hash is notified, the block that includes its operation becomes the head, and the fetch is cancelled. -/
def includedWhileFetched : List (Event onceProtocol Nat) :=
  [.request (.notify ⟨[7], ∅⟩), .request (.flush ⟨{()}, {7}, [], [7], .ok freshState⟩), .fetched 7 .canceled]

/-- The hash is live and among those that are fetched, and no notification fetches it again. -/
theorem not_bookkept_included :
    let s := run (handle lengthHash) watchedLaunch includedWhileFetched
    7 ∈ s.failed ∧ 7 ∈ s.pv.fetching ∧ 7 ∈ s.pv.liveOperations ∧ toFetch s.pv ⟨[7], ∅⟩ = ∅ ∧
      ¬Bookkept lengthHash s := by
  refine ⟨by decide, by decide, by decide, by decide, fun h => ?_⟩
  exact disjoint_left.mp h.refetched (by decide : 7 ∈ _) (by decide)

end Tezos.Prevalidator
