import Tezos.Lib.Ancestry
import Tezos.Shell.Chain

/-! The stored blocks are a tree, whose root is the genesis block. -/

namespace Tezos.State
open Lib Option AList
variable {B O L C ε : Type} [DecidableEq B] {s s' : ChainState B O L C ε} {g b c p : Block B L C} {hash : B}
  {error : Error B C ε} {α : Type} {condition : Bool}

def Stored (s : ChainState B O L C ε) (b : Block B L C) : Prop := readOpt s b.hash = some b

theorem hash_of_readOpt (h : readOpt s hash = some b) : b.hash = hash := by
  obtain ⟨header, -, rfl⟩ := map_eq_some_iff.mp h
  rfl

theorem stored_of_readOpt (h : readOpt s hash = some b) : Stored s b := by
  rw [Stored, hash_of_readOpt h, h]

omit [DecidableEq B] in
theorem Block.eq_of_pair_eq (h : (b.hash, b.header) = (c.hash, c.header)) : b = c := by
  obtain ⟨hhash, hhdr⟩ := Prod.mk.inj h
  cases b
  cases c
  congr

theorem Stored.eq (hb : Stored s b) (hc : Stored s c) (hash : b.hash = c.hash) : b = c := by
  rw [Stored, hash] at hb
  exact some.inj (hb.symm.trans hc)

theorem stored_of_predecessor (h : predecessor s b = some p) : Stored s p := by
  rw [predecessor] at h
  split at h
  · cases h
  · exact stored_of_readOpt h

theorem hash_of_predecessor (h : predecessor s b = some p) : p.hash = b.header.shell.predecessor := by
  rw [predecessor] at h
  split at h
  · cases h
  · exact hash_of_readOpt h

/-- The first block is the second one, or before it on its branch. -/
abbrev Precedes (s : ChainState B O L C ε) (a b : Block B L C) : Prop := Ancestor (predecessor s) a b

theorem stored_of_ancestor (hb : Stored s b) (h : Precedes s c b) : Stored s c :=
  h.closed (fun _ _ _ hp => stored_of_predecessor hp) hb

theorem headerReadOpt_unpruned (h : s.prunedContents = ∅) (hash : B) :
    headerReadOpt s hash = (s.contents.lookup hash).map Contents.header := by
  rw [headerReadOpt, h]
  cases s.contents.lookup hash <;> rfl

theorem readOpt_unpruned (h : s.prunedContents = ∅) (hash : B) :
    readOpt s hash = (s.contents.lookup hash).map fun contents => ⟨hash, contents.header⟩ := by
  rw [readOpt, headerReadOpt_unpruned h, map_map]
  rfl

theorem headerKnown_eq (hash : B) : headerKnown s hash = (readOpt s hash).isSome := by
  rw [headerKnown, readOpt, headerReadOpt, isSome_map]
  rcases s.contents.lookup hash with _ | contents
  · exact Bool.or_false _
  · exact Bool.or_true _

theorem headerKnown_iff (hash : B) : headerKnown s hash = true ↔ ∃ b, Stored s b ∧ b.hash = hash := by
  rw [headerKnown_eq, isSome_iff_exists]
  constructor
  · rintro ⟨b, hread⟩
    exact ⟨b, stored_of_readOpt hread, hash_of_readOpt hread⟩
  · rintro ⟨b, hb, rfl⟩
    exact ⟨b, hb⟩

theorem Stored.contents (h : s.prunedContents = ∅) (hb : Stored s b) :
    ∃ contents, s.contents.lookup b.hash = some contents ∧ contents.header = b.header := by
  rw [Stored, readOpt_unpruned h] at hb
  obtain ⟨contents, hcont, heq⟩ := map_eq_some_iff.mp hb
  exact ⟨contents, hcont, by rw [← heq]⟩

theorem maxOperationsTtl_of_lookup {contents : Contents B L C} (h : s.contents.lookup b.hash = some contents) :
    maxOperationsTtl s b = .ok contents.maxOperationsTtl := by
  simp only [maxOperationsTtl, readContents, h, bind, Except.bind]

theorem Stored.mem_keys (hb : Stored s b) (hs : s.prunedContents = ∅) : b.hash ∈ s.contents.keys := by
  obtain ⟨contents, hcont, -⟩ := hb.contents hs
  exact AList.mem_keys.mp (AList.lookup_isSome.mp (isSome_of_mem hcont))

theorem Stored.ne_fresh (h : s.prunedContents = ∅) (hb : Stored s b) (hfr : s.contents.lookup hash = none) :
    b.hash ≠ hash := by
  rintro rfl
  obtain ⟨contents, hcont, -⟩ := hb.contents h
  rw [hfr] at hcont
  cases hcont

/-- The stored blocks, with the genesis block `g`. -/
structure Tree (s : ChainState B O L C ε) (g : Block B L C) : Prop where
  unpruned : s.prunedContents = ∅
  genesis : g.hash = s.genesis
  stored : Stored s g
  self : g.header.shell.predecessor = g.hash
  rooted : ∀ b, Stored s b → Ancestor (predecessor s) g b
  timestamps : ∀ b p, Stored s b → predecessor s b = some p →
    p.header.shell.timestamp < b.header.shell.timestamp
  operations : ∀ b, Stored s b → ∀ i < b.header.shell.validationPasses, ∃ ops, s.operationHashes b.hash i = some ops

namespace Tree

section
variable (h : Tree s g)
include h

theorem root : predecessor s g = none := if_pos h.self.symm

theorem exists_predecessor (hb : Stored s b) (hne : b ≠ g) : ∃ p, predecessor s b = some p := by
  obtain ⟨p, hp, -⟩ := exists_parent (h.rooted b hb) hne
  exact ⟨p, hp⟩

theorem timestamp_lt (hb : Stored s b) (ha : Precedes s c b) (hne : c ≠ b) :
    c.header.shell.timestamp < b.header.shell.timestamp :=
  (ha.eq_or_lt (fun b : Block B L C => b.header.shell.timestamp) (fun _ _ _ hp => stored_of_predecessor hp) h.timestamps
    hb).resolve_left hne

/-- Blocks of one branch differ, so a branch is not longer than the store is large. -/
theorem length_lt_blockCount (hb : Stored s b) {l : List (Block B L C)}
    (hl : IsPath (predecessor s) c b l) : l.length < blockCount s := by
  have hsto : ∀ x ∈ c :: l, Stored s x := by
    intro x hx
    rcases List.mem_cons.mp hx with rfl | hx
    · exact stored_of_ancestor hb hl.ancestor
    · exact stored_of_ancestor hb (hl.mem hx).1
  have hnd : ((c :: l).map Block.hash).Nodup := by
    refine (List.nodup_map_iff_inj_on (hl.nodup h.root (h.rooted b hb))).mpr fun x hx y hy heq => ?_
    exact (hsto x hx).eq (hsto y hy) heq
  have hsub : (c :: l).map Block.hash ⊆ s.contents.keys := by
    intro hash hmem
    obtain ⟨x, hx, rfl⟩ := List.mem_map.mp hmem
    exact (hsto x hx).mem_keys h.unpruned
  have hle := (hnd.subperm hsub).length_le
  rw [List.length_map] at hle
  exact Nat.lt_of_lt_of_le hle (Nat.le_add_right _ _)

theorem up_lt_blockCount (hb : Stored s b) {n : Nat} (hn : up (predecessor s) n b = some c) : n < blockCount s := by
  obtain ⟨l, hl⟩ := exists_isPath ⟨n, hn⟩
  rw [up_injective h.root (h.rooted b hb) hn hl.up_length]
  exact h.length_lt_blockCount hb hl

theorem predecessor_eq (hb : Stored s b) (hkeep : ∀ p, predecessor s b = some p → Stored s' p) :
    predecessor s' b = predecessor s b := by
  by_cases hself : b.hash = b.header.shell.predecessor
  · rw [predecessor, predecessor, if_pos hself, if_pos hself]
  · have hne : b ≠ g := by
      rintro rfl
      exact hself h.self.symm
    obtain ⟨p, hp⟩ := h.exists_predecessor hb hne
    have hread := hkeep p hp
    rw [Stored, hash_of_predecessor hp] at hread
    rw [hp, predecessor, if_neg hself, hread]

theorem setHead (inMainBranch : B → Option B) (currentHead : Block B L C) (liveBlocks : Finset B)
    (liveOperations : Finset O) : Tree { s with inMainBranch, currentHead, liveBlocks, liveOperations } g :=
  ⟨h.unpruned, h.genesis, h.stored, h.self, h.rooted, h.timestamps, h.operations⟩

end

end Tree

theorem stored_create (H : Hashes B O L C) {genesis : B} {time : Int} {context : C} {expiration : Option Int} :
    Stored (create H genesis time context expiration : ChainState B O L C ε) b ↔
      b = ⟨genesis, genesisHeader H genesis time context⟩ := by
  have hcont : (create H genesis time context expiration : ChainState B O L C ε).contents =
      insert genesis ⟨genesisHeader H genesis time context, 0⟩ ∅ := (insert_empty ..).symm
  rw [Stored, readOpt_unpruned rfl, hcont]
  by_cases hash : b.hash = genesis
  · rw [hash, lookup_insert]
    exact ⟨fun h => (some.inj h).symm, fun h => congrArg some h.symm⟩
  · rw [lookup_insert_ne hash]
    constructor
    · intro h
      cases h
    · rintro rfl
      exact absurd rfl hash

theorem tree_create (H : Hashes B O L C) (genesis : B) (time : Int) (context : C) (expiration : Option Int) :
    Tree (create H genesis time context expiration : ChainState B O L C ε)
      ⟨genesis, genesisHeader H genesis time context⟩ := by
  refine ⟨rfl, rfl, (stored_create H).mpr rfl, rfl, fun b hb => ?_, fun b p hb hp => ?_, fun b hb i hi => ?_⟩
  · rw [(stored_create H).mp hb]
    exact .refl _
  · rw [(stored_create H).mp hb] at hp
    cases hp.symm.trans (if_pos rfl)
  · rw [(stored_create H).mp hb] at hi
    exact absurd hi (Nat.not_lt_zero i)

/-! ### One more block -/

omit [DecidableEq B] in
theorem failUnless_cases {k : Unit → Result B C ε α} {r : Result B C ε α}
    (h : (failUnless condition error >>= k) = r) :
    r = .error (.errors [error]) ∨ condition = true ∧ k () = r := by
  cases condition with
  | false => exact .inl h.symm
  | true => exact .inr ⟨rfl, h⟩

/-- An error of the state itself. -/
def Refused {α : Type} (r : Result B C ε α) : Prop :=
  ∃ error, r = .error (.errors [error]) ∧ ∀ e, error ≠ .other e

omit [DecidableEq B] in
theorem Refused.failUnless {k : Unit → Result B C ε α}
    {r : Result B C ε α} {p : Prop} (herr : ∀ e, error ≠ .other e) (h : (failUnless condition error >>= k) = r)
    (hk : condition = true → k () = r → Refused r ∨ p) : Refused r ∨ p := by
  rcases failUnless_cases h with h | ⟨hcond, h⟩
  · exact .inl ⟨error, h, herr⟩
  · exact hk hcond h

theorem storePredecessorsLoop_frame (b : B) (left : Nat) (s : ChainState B O L C ε) (pred : B) (dist : Nat) :
    storePredecessorsLoop b left s pred dist =
      { s with predecessors := (storePredecessorsLoop b left s pred dist).predecessors } := by
  induction left generalizing s pred dist with
  | zero => rfl
  | succ left ih =>
    rw [storePredecessorsLoop]
    split
    · rfl
    · rw [ih]
      rfl

variable (H : Hashes B O L C)

/-- The state that `Block.store` leaves. -/
def addBlock (s : ChainState B O L C ε) (nb : Block B L C) (maxOperationsTtl : Int)
    (operations : List (List (Operation B))) : ChainState B O L C ε :=
  let pred := nb.header.shell.predecessor
  let s := storePredecessor (storeContents H s nb.hash ⟨nb.header, maxOperationsTtl⟩ operations) nb.hash 0 pred
  let s := storePredecessorsLoop nb.hash (storedPredecessorsSize - 1) s pred 1
  storeKnownHead (removeKnownHead s pred) nb.hash

/-- A new block: what `Block.store` has checked. -/
structure NewBlock [DecidableEq L] (s : ChainState B O L C ε) (header : BlockHeader B L C)
    (operations : List (List (Operation B))) (nb : Block B L C) : Prop where
  hash : nb.hash = H.blockHeader header
  same : ∃ context, nb.header = { header with shell := { header.shell with context := context } }
  passes : nb.header.shell.validationPasses = operations.length
  fresh : s.contents.lookup nb.hash = none
  predecessor : ∃ p, Stored s p ∧ p.hash = nb.header.shell.predecessor
  acceptable : acceptable s header = true

variable {H} {nb : Block B L C} {ttl : Int} {header : BlockHeader B L C} {operations : List (List (Operation B))}

theorem addBlock_frame : addBlock H s nb ttl operations = { storeContents H s nb.hash ⟨nb.header, ttl⟩ operations with
      predecessors := (addBlock H s nb ttl operations).predecessors
      knownHeads := (s.knownHeads.filter (· ≠ nb.header.shell.predecessor)).insert nb.hash } := by
  rw [addBlock, storePredecessorsLoop_frame]
  rfl

theorem addBlock_contents : (addBlock H s nb ttl operations).contents = s.contents.insert nb.hash ⟨nb.header, ttl⟩ := by
  rw [addBlock_frame]
  rfl

theorem addBlock_prunedContents : (addBlock H s nb ttl operations).prunedContents = s.prunedContents := by
  rw [addBlock_frame]
  rfl

theorem addBlock_currentHead : (addBlock H s nb ttl operations).currentHead = s.currentHead := by
  rw [addBlock_frame]
  rfl

theorem addBlock_inMainBranch : (addBlock H s nb ttl operations).inMainBranch = s.inMainBranch := by
  rw [addBlock_frame]
  rfl

theorem addBlock_knownHeads : (addBlock H s nb ttl operations).knownHeads =
    (s.knownHeads.filter (· ≠ nb.header.shell.predecessor)).insert nb.hash := by
  rw [addBlock_frame]

theorem addBlock_checkpoint : (addBlock H s nb ttl operations).checkpoint = s.checkpoint := by
  rw [addBlock_frame]
  rfl

theorem addBlock_live : ((addBlock H s nb ttl operations).liveBlocks, (addBlock H s nb ttl operations).liveOperations) =
    (s.liveBlocks, s.liveOperations) := by
  rw [addBlock_frame]
  rfl

theorem addBlock_operationHashes_self {i : Nat} (hi : i < operations.length) :
    (addBlock H s nb ttl operations).operationHashes nb.hash i = some (operations[i].map H.operation) := by
  rw [addBlock_frame]
  simp only [storeContents, Function.update_self, List.getElem?_eq_getElem hi]

theorem addBlock_operationHashes_ne {hash : B} (hne : hash ≠ nb.hash) :
    (addBlock H s nb ttl operations).operationHashes hash = s.operationHashes hash := by
  rw [addBlock_frame]
  exact Function.update_of_ne hne _ _

theorem addBlock_operations_self (i : Nat) :
    (addBlock H s nb ttl operations).operations nb.hash i = operations[i]?.or (s.operations nb.hash i) := by
  rw [addBlock_frame]
  simp only [storeContents, Function.update_self]
  rcases operations[i]? with _ | ops
  · rfl
  · rfl

theorem addBlock_operations_ne {hash : B} (hne : hash ≠ nb.hash) :
    (addBlock H s nb ttl operations).operations hash = s.operations hash := by
  rw [addBlock_frame]
  exact Function.update_of_ne hne _ _

theorem stored_addBlock (hs : s.prunedContents = ∅) (hfr : s.contents.lookup nb.hash = none) :
    Stored (addBlock H s nb ttl operations) b ↔ b = nb ∨ Stored s b := by
  rw [Stored, Stored, readOpt_unpruned (addBlock_prunedContents.trans hs), readOpt_unpruned hs, addBlock_contents]
  by_cases hash : b.hash = nb.hash
  · rw [hash, lookup_insert, hfr]
    constructor
    · intro h
      exact .inl (some.inj h).symm
    · rintro (rfl | h)
      · rfl
      · cases h
  · rw [lookup_insert_ne hash]
    refine ⟨.inr, fun h => h.resolve_left ?_⟩
    rintro rfl
    exact hash rfl

theorem headerReadOpt_storeContents (hash : B) (contents : Contents B L C) (operations : List (List (Operation B))) :
    headerReadOpt (storeContents H s hash contents operations) hash = some contents.header := by
  rw [headerReadOpt, storeContents, lookup_insert]

theorem storePredecessors_storeContents (hne : nb.hash ≠ nb.header.shell.predecessor) :
    storePredecessors (storeContents H s nb.hash ⟨nb.header, ttl⟩ operations) nb.hash =
      .ok (storePredecessorsLoop nb.hash (storedPredecessorsSize - 1)
        (storePredecessor (storeContents H s nb.hash ⟨nb.header, ttl⟩ operations) nb.hash 0 nb.header.shell.predecessor)
        nb.header.shell.predecessor 1) := by
  rw [storePredecessors, headerReadOpt_storeContents]
  exact if_neg hne

section
variable [DecidableEq L]

section
variable (h : NewBlock H s header operations nb)
include h

theorem NewBlock.ne (hs : s.prunedContents = ∅) : nb.hash ≠ nb.header.shell.predecessor := by
  obtain ⟨p, hp, heq⟩ := h.predecessor
  intro hself
  exact hp.ne_fresh hs h.fresh (heq.trans hself.symm)

theorem NewBlock.predecessors (htree : Tree s g) (ttl : Int) :
    (∃ p, Stored s p ∧ State.predecessor (addBlock H s nb ttl operations) nb = some p) ∧
      ∀ b, Stored s b → State.predecessor (addBlock H s nb ttl operations) b = State.predecessor s b := by
  have hsto (b : Block B L C) : Stored (addBlock H s nb ttl operations) b ↔ b = nb ∨ Stored s b :=
    stored_addBlock htree.unpruned h.fresh
  constructor
  · obtain ⟨p, hp, heq⟩ := h.predecessor
    refine ⟨p, hp, ?_⟩
    have hread : Stored (addBlock H s nb ttl operations) p := (hsto p).mpr (.inr hp)
    rw [Stored, heq] at hread
    rw [State.predecessor, if_neg (h.ne htree.unpruned), hread]
  · intro b hb
    exact htree.predecessor_eq hb fun p hp => (hsto p).mpr (.inr (stored_of_predecessor hp))

theorem NewBlock.ancestor_iff (htree : Tree s g) (ttl : Int) (hb : Stored s b) :
    Ancestor (State.predecessor (addBlock H s nb ttl operations)) a b ↔ Precedes s a b :=
  ancestor_congr (fun _ _ _ hp => stored_of_predecessor hp) (h.predecessors htree ttl).2 hb

end

theorem Tree.addBlock (htree : Tree s g) (h : NewBlock H s header operations nb)
    (htime : ∀ p, Stored s p → p.hash = nb.header.shell.predecessor →
      p.header.shell.timestamp < nb.header.shell.timestamp) :
    Tree (addBlock H s nb ttl operations) g := by
  have hsto (b : Block B L C) : Stored (State.addBlock H s nb ttl operations) b ↔ b = nb ∨ Stored s b :=
    stored_addBlock htree.unpruned h.fresh
  obtain ⟨⟨p, hp, hpred⟩, hsame⟩ := h.predecessors htree ttl
  have hanc (b : Block B L C) (hb : Stored s b) : Ancestor (predecessor (State.addBlock H s nb ttl operations)) g b :=
    (h.ancestor_iff htree ttl hb).mpr (htree.rooted b hb)
  refine ⟨addBlock_prunedContents.trans htree.unpruned, ?_, (hsto g).mpr (.inr htree.stored), htree.self, ?_, ?_, ?_⟩
  · rw [htree.genesis, addBlock_frame]
    rfl
  · intro b hb
    rcases (hsto b).mp hb with rfl | hb
    · exact (hanc p hp).trans (ancestor_parent hpred)
    · exact hanc b hb
  · intro b p' hb hp'
    rcases (hsto b).mp hb with rfl | hb
    · rw [hpred] at hp'
      obtain rfl := some.inj hp'
      exact htime p hp (hash_of_predecessor hpred)
    · rw [hsame b hb] at hp'
      exact htree.timestamps b p' hb hp'
  · intro b hb i hi
    rcases (hsto b).mp hb with rfl | hb
    · rw [h.passes] at hi
      exact ⟨_, addBlock_operationHashes_self hi⟩
    · rw [addBlock_operationHashes_ne (hb.ne_fresh htree.unpruned h.fresh)]
      exact htree.operations b hb i hi

end

section
variable [DecidableEq L] [DecidableEq C] {dontEnforceContextHash : Bool} {contextExists : C → Bool}
  {operationsMetadata : List (List DataEncoding.MBytes)} {validation : ValidationStore C}

omit [DecidableEq L] [DecidableEq C] in
theorem storePredecessors_frame {hash : B} (h : headerReadOpt s hash = some header) :
    ∃ predecessors, storePredecessors s hash = .ok { s with predecessors } := by
  rw [storePredecessors, h]
  by_cases hself : hash = header.shell.predecessor
  · exact ⟨s.predecessors, if_pos hself⟩
  · have hloop := storePredecessorsLoop_frame hash (storedPredecessorsSize - 1)
      (storePredecessor s hash 0 header.shell.predecessor) header.shell.predecessor 1
    exact ⟨_, (if_neg hself).trans (congrArg Except.ok hloop)⟩

variable {r : Result B C ε (ChainState B O L C ε × Option (Block B L C))}

variable (h : store H s dontEnforceContextHash contextExists header operations operationsMetadata validation = r)
include h

/-- How `store` ends. The tables of the block are stored with its predecessors, when all the checks pass. -/
theorem store_inversion : Refused r ∨ r = .ok (s, none) ∨
      ∃ stored : BlockHeader B L C,
        (∃ context, stored = { header with shell := { header.shell with context := context } }) ∧
        (dontEnforceContextHash = false → stored = header) ∧ header.shell.validationPasses = operations.length ∧
        s.contents.lookup (H.blockHeader header) = none ∧ headerKnown s header.shell.predecessor = true ∧
        acceptable s header = true ∧
        r = (storePredecessors
          (storeContents H s (H.blockHeader header) ⟨stored, validation.maxOperationsTtl⟩ operations)
          (H.blockHeader header)).map fun s => (storeKnownHead (removeKnownHead s header.shell.predecessor)
            (H.blockHeader header), some ⟨H.blockHeader header, stored⟩) := by
  refine Refused.failUnless (by simp) h fun hpas h => ?_
  refine Refused.failUnless (by simp) h fun _ h => ?_
  refine Refused.failUnless (by simp) h fun _ h => ?_
  refine Refused.failUnless (by simp) h fun _ h => ?_
  by_cases hfr : (s.contents.lookup (H.blockHeader header)).isSome
  · rw [if_pos hfr] at h
    exact .inr (.inl h.symm)
  rw [if_neg hfr] at h
  refine Refused.failUnless (by simp) h fun hacc h => ?_
  refine Refused.failUnless (by simp) h fun _ h => ?_
  refine Refused.failUnless (by simp) h fun _ h => ?_
  obtain ⟨hkn, hacc⟩ := (Bool.and_eq_true _ _).mp hacc
  -- the header that is stored is the one given, up to the context
  generalize hsto : (if dontEnforceContextHash = true then _ else header) = stored at h
  refine .inr (.inr ⟨stored, ?_, ?_, of_decide_eq_true hpas, not_isSome_iff_eq_none.mp hfr, hkn,
    hacc, h.symm⟩)
  · rw [← hsto]
    split
    · exact ⟨_, rfl⟩
    · exact ⟨header.shell.context, rfl⟩
  · rintro rfl
    exact hsto.symm

omit h in
theorem store_cases (hs : s.prunedContents = ∅)
    (h : store H s dontEnforceContextHash contextExists header operations operationsMetadata validation = r) :
    Refused r ∨ r = .ok (s, none) ∨
      ∃ nb, NewBlock H s header operations nb ∧ (dontEnforceContextHash = false → nb.header = header) ∧
        r = .ok (addBlock H s nb validation.maxOperationsTtl operations, some nb) := by
  rcases store_inversion h with herr | hnone |
    ⟨stored, ⟨context, rfl⟩, hsame, hpas, hfr, hkn, hacc, heq⟩
  · exact .inl herr
  · exact .inr (.inl hnone)
  · have hnb : NewBlock H s header operations ⟨H.blockHeader header, _⟩ :=
      ⟨rfl, ⟨context, rfl⟩, hpas, hfr, (headerKnown_iff _).mp hkn, hacc⟩
    refine .inr (.inr ⟨_, hnb, hsame, ?_⟩)
    rw [heq]
    exact congrArg (Except.map _) (storePredecessors_storeContents (hnb.ne hs))

theorem store_outcome : Refused r ∨ r = .ok (s, none) ∨
      ∃ s' nb, r = .ok (s', some nb) ∧ s'.invalidBlock = s.invalidBlock ∧
        (readOpt s' (H.blockHeader header)).isSome := by
  rcases store_inversion h with herr | hnone | ⟨stored, -, -, -, -, -, -, heq⟩
  · exact .inl herr
  · exact .inr (.inl hnone)
  · have hread := headerReadOpt_storeContents (H := H) (s := s) (H.blockHeader header)
      ⟨stored, validation.maxOperationsTtl⟩ operations
    obtain ⟨predecessors, hprd⟩ := storePredecessors_frame hread
    rw [hprd] at heq
    exact .inr (.inr ⟨_, _, heq, rfl, isSome_map.trans (congrArg isSome hread)⟩)

end

theorem storeInvalid_fresh {header : BlockHeader B L C} (hkn : headerKnown s (H.blockHeader header) = false)
    (hval : s.invalidBlock (H.blockHeader header) = none) (errors : List (Error B C ε)) :
    storeInvalid H s header errors = .ok ({ s with
      invalidBlock := Function.update s.invalidBlock (H.blockHeader header) (some ⟨header.shell.level, errors⟩) },
        true) := by
  rw [storeInvalid, hkn, hval]
  rfl

end Tezos.State
