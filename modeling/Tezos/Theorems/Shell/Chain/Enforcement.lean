import Tezos.Theorems.Shell.Chain.Checkpoint

/-! The checkpoint is enforced from `set_checkpoint` to the next one, in the runs whose checkpoints leave no other block at
    their level. -/

namespace Tezos.Chain
open Lib State ChainTraversal List Option
variable {B O L C ε : Type} [DecidableEq B] {H : Hashes B O L C} {s s' : ChainState B O L C ε}
  {g b c nb : Block B L C} {checkpoint header : BlockHeader B L C}

theorem invariant_create (H : Hashes B O L C) (genesis : B) (time : Int) (context : C) (expiration : Option Int) :
    Invariant H (create H genesis time context expiration : ChainState B O L C ε)
      ⟨genesis, genesisHeader H genesis time context⟩ := by
  have htree := tree_create (ε := ε) H genesis time context expiration
  refine ⟨htree, mainBranch_create .., ⟨rfl, fun b p hb hp => ?_, fun b hb hne => ?_⟩,
    linked_create .., ⟨fun hash hmem => ?_, fun b hb => ?_⟩⟩
  · rw [(stored_create H).mp hb, htree.root] at hp
    cases hp
  · exact absurd ((stored_create H).mp hb) hne
  · exact ⟨_, htree.stored, (mem_singleton.mp hmem).symm⟩
  · rw [(stored_create H).mp hb]
    exact ⟨_, htree.stored, mem_singleton.mpr rfl, .refl _⟩

theorem enforced_create (H : Hashes B O L C) (genesis : B) (time : Int) (context : C) (expiration : Option Int) :
    Enforced (create H genesis time context expiration : ChainState B O L C ε) (genesisHeader H genesis time context) := by
  intro b hb _
  exact ⟨_, (tree_create ..).rooted b hb, rfl⟩

theorem Invariant.withHead [DecidableEq O] (hinv : Invariant H s g) (hb : Stored s b) (h : WithHead s s' b) :
    Invariant H s' g := by
  have htree := h.tree hinv.tree
  have hmain := h.main hb
  obtain ⟨ttl, blocks, ops, inMainBranch, -, -, -, rfl⟩ := h
  exact ⟨htree, hmain, ⟨hinv.numbered.zero, hinv.numbered.next, hinv.numbered.hashes⟩,
    ⟨hinv.linked.entry, hinv.linked.absent⟩, ⟨hinv.headed.stored, hinv.headed.covered⟩⟩

theorem Enforced.withHead [DecidableEq O] (h : Enforced s checkpoint) (hhead : WithHead s s' b) :
    Enforced s' checkpoint := by
  obtain ⟨ttl, blocks, ops, inMainBranch, -, -, -, rfl⟩ := hhead
  exact h

theorem Reheaded.enforced [DecidableEq O] (hhead : Reheaded s s') (hinv : Invariant H s g)
    (henf : Enforced s s.checkpoint) :
    s'.checkpoint = s.checkpoint ∧ Invariant H s' g ∧ Enforced s' s'.checkpoint := by
  rcases hhead with rfl | ⟨b, hb, hhead⟩
  · exact ⟨rfl, hinv, henf⟩
  · exact ⟨hhead.checkpoint, hinv.withHead hb hhead, hhead.checkpoint ▸ henf.withHead hhead⟩

section
variable [DecidableEq L] {operations : List (List (Operation B))}

theorem Headed.addBlock (hhdd : Headed s) (htree : Tree s g) (h : NewBlock H s header operations nb) (ttl : Int) :
    Headed (addBlock H s nb ttl operations) := by
  obtain ⟨⟨p, hp, hpred⟩, hsame⟩ := h.predecessors htree ttl
  have hsto (b : Block B L C) : Stored (State.addBlock H s nb ttl operations) b ↔ b = nb ∨ Stored s b :=
    stored_addBlock htree.unpruned h.fresh
  refine ⟨fun hash hmem => ?_, fun b hb => ?_⟩
  · rw [addBlock_knownHeads, mem_insert_iff, mem_filter] at hmem
    rcases hmem with rfl | ⟨hmem, -⟩
    · exact ⟨nb, (hsto nb).mpr (.inl rfl), rfl⟩
    · obtain ⟨b, hb, rfl⟩ := hhdd.stored hash hmem
      exact ⟨b, (hsto b).mpr (.inr hb), rfl⟩
  · have hnew : nb.hash ∈ (State.addBlock H s nb ttl operations).knownHeads := by
      exact mem_insert_self
    rcases (hsto b).mp hb with rfl | hb
    · exact ⟨b, hb, hnew, .refl b⟩
    · obtain ⟨top, htop, hkn, hbtop⟩ := hhdd.covered b hb
      by_cases hash : top.hash = nb.header.shell.predecessor
      · rw [htop.eq hp (hash.trans (hash_of_predecessor hpred).symm)] at hbtop
        exact ⟨nb, (hsto nb).mpr (.inl rfl), hnew,
          ((h.ancestor_iff htree ttl hp).mpr hbtop).trans (ancestor_parent hpred)⟩
      · refine ⟨top, (hsto top).mpr (.inr htop), ?_, (h.ancestor_iff htree ttl htop).mpr hbtop⟩
        rw [addBlock_knownHeads, mem_insert_iff, mem_filter]
        exact .inr ⟨hkn, decide_eq_true hash⟩

theorem Enforced.addBlock (henf : Enforced s s.checkpoint) (htree : Tree s g)
    (h : NewBlock H s header operations nb) (hhdr : nb.header = header)
    (hlvl : ∀ p, Stored s p → p.hash = header.shell.predecessor → levelOf header = p.level + 1)
    (heql : levelOf header = levelOf s.checkpoint → header.equal s.checkpoint = true → header = s.checkpoint)
    (ttl : Int) : Enforced (addBlock H s nb ttl operations) s.checkpoint := by
  subst hhdr
  obtain ⟨⟨p, hp, hpred⟩, hsame⟩ := h.predecessors htree ttl
  intro b hb hle
  rcases (stored_addBlock htree.unpruned h.fresh).mp hb with rfl | hb
  · have hacc := h.acceptable
    rw [acceptable] at hacc
    by_cases hlt : levelOf s.checkpoint < levelOf b.header
    · have hnext := hlvl p hp (hash_of_predecessor hpred)
      obtain ⟨c, hcp, hc⟩ := henf p hp (Int.lt_add_one_iff.mp (hnext ▸ hlt))
      exact ⟨c, ((h.ancestor_iff htree ttl hp).mpr hcp).trans (ancestor_parent hpred), hc⟩
    · have heq : levelOf s.checkpoint = levelOf b.header := le_antisymm hle (not_lt.mp hlt)
      have hsame : s.checkpoint.shell.level = b.header.shell.level := Int32.toInt_inj.mp heq
      rw [if_neg fun h => hlt (Int32.lt_iff_toInt_lt.mp h), if_pos hsame] at hacc
      exact ⟨b, .refl b, heql heq.symm hacc⟩
  · obtain ⟨c, hcb, hc⟩ := henf b hb hle
    exact ⟨c, (h.ancestor_iff htree ttl hb).mpr hcb, hc⟩

end

/-! ### Runs -/

/-- A checkpoint ahead of the head, where the blocks at its level are the checkpoint; or one at a block of the main branch
    above the genesis block, when no other branch starts at the genesis block. -/
def Clear (s : ChainState B O L C ε) (checkpoint : BlockHeader B L C) : Prop :=
  (s.currentHead.level < levelOf checkpoint ∧
      ∀ b, Stored s b → b.level = levelOf checkpoint → b.header = checkpoint) ∨
    ∃ c, Ancestor (predecessor s) c s.currentHead ∧ c.header = checkpoint ∧ c.hash ≠ s.genesis ∧
      ∀ b p, Stored s b → predecessor s b = some p → p.hash = s.genesis → Ancestor (predecessor s) b s.currentHead

def checkpointAfter (checkpoint : BlockHeader B L C) : Action B L C → BlockHeader B L C
  | .setCheckpoint next => next
  | .store .. | .setHead _ | .testAndSetHead .. => checkpoint

omit [DecidableEq B] in
theorem foldl_checkpointAfter {after : List (Action B L C)}
    (hafter : ∀ action ∈ after, ∀ next, action ≠ .setCheckpoint next) :
    after.foldl checkpointAfter checkpoint = checkpoint := by
  induction after with
  | nil => rfl
  | cons action after ih =>
    obtain ⟨hfst, hrest⟩ := forall_mem_cons.mp hafter
    rw [foldl_cons]
    cases action with
    | setCheckpoint next => exact absurd rfl (hfst next)
    | store | setHead | testAndSetHead => exact ih hrest

theorem perform_setCheckpoint (hinv : Invariant H s g) (hclr : Clear s checkpoint) :
    ∃ s', setCheckpoint H s checkpoint = .ok s' ∧ s'.checkpoint = checkpoint ∧ Invariant H s' g ∧
      Enforced s' checkpoint := by
  rcases hclr with ⟨hahd, hall⟩ | ⟨c, hc, rfl, hgen, hfork⟩
  · obtain ⟨invalidBlock, heq⟩ := setCheckpoint_ahead hinv hahd hall
    have hnonn := hinv.numbered.level_nonneg hinv.tree.rooted hinv.main.head
    have henf := enforced_ahead hinv (le_trans hnonn (le_of_lt hahd)) hall
    exact ⟨_, heq, rfl, hinv.setCheckpoint .., henf⟩
  · have hcg : c ≠ g := by
      rintro rfl
      exact hgen hinv.tree.genesis
    obtain ⟨s', gone, heq, hchec, hrem, hgone, hold, hhds⟩ := setCheckpoint_below hinv hc hcg
      fun b hb hp => hfork b g hb hp hinv.tree.genesis
    exact ⟨s', heq, hchec, invariant_below hinv hc hrem hgone hold hhds⟩

section
variable [DecidableEq L]

/-- The blocks that are stored are later than their predecessors and one level above them, as `check_block_header`
    checks, and they are the checkpoint when they pass for it; the checkpoints leave no other block at their level. -/
def Compatible (s : Option (ChainState B O L C ε)) : Action B L C → Prop
  | .store dontEnforceContextHash _ header _ _ _ => dontEnforceContextHash = false ∧ ∀ s', s = some s' →
    (∀ p, Stored s' p → p.hash = header.shell.predecessor →
      p.header.shell.timestamp < header.shell.timestamp ∧ levelOf header = p.level + 1) ∧
    (levelOf header = levelOf s'.checkpoint → header.equal s'.checkpoint = true → header = s'.checkpoint)
  | .setHead _ | .testAndSetHead _ _ => True
  | .setCheckpoint checkpoint => ∀ s', s = some s' → Clear s' checkpoint

variable [DecidableEq O] [DecidableEq C] (H)

theorem perform_enforced {action : Action B L C} (hinv : Invariant H s g) (henf : Enforced s s.checkpoint)
    (hok : Compatible (some s) action) :
    ∃ s', perform s H action = some s' ∧ s'.checkpoint = checkpointAfter s.checkpoint action ∧ Invariant H s' g ∧
      Enforced s' s'.checkpoint := by
  cases action with
  | store dontEnforceContextHash contextExists header operations operationsMetadata validation =>
    obtain ⟨hcont, hhdr⟩ := hok
    obtain ⟨hprd, heql⟩ := hhdr s rfl
    rw [perform]
    rcases store_cases hinv.tree.unpruned rfl with ⟨error, heq, -⟩ | heq | ⟨nb, hnb, hsame, heq⟩
    · exact ⟨s, by rw [heq]; rfl, rfl, hinv, henf⟩
    · exact ⟨s, by rw [heq]; rfl, rfl, hinv, henf⟩
    · obtain rfl := hsame hcont
      have htime (p : Block B L C) (hp : Stored s p) (hash : p.hash = nb.header.shell.predecessor) :=
        (hprd p hp hash).1
      have hlvl (p : Block B L C) (hp : Stored s p) (hash : p.hash = nb.header.shell.predecessor) :=
        (hprd p hp hash).2
      refine ⟨_, by rw [heq]; rfl, addBlock_checkpoint,
        ⟨hinv.tree.addBlock hnb htime, hinv.main.addBlock hinv.tree hnb _,
        hinv.numbered.addBlock hinv.tree hnb rfl hlvl _, hinv.linked.addBlock hinv.tree hnb _,
        hinv.headed.addBlock hinv.tree hnb _⟩, ?_⟩
      rw [addBlock_checkpoint]
      exact henf.addBlock hinv.tree hnb rfl hlvl heql _
  | setHead hash =>
    obtain ⟨s', heq, hhead⟩ := perform_setHead H hash hinv.tree hinv.main
    exact ⟨s', heq, hhead.enforced hinv henf⟩
  | testAndSetHead old hash =>
    obtain ⟨s', heq, hhead⟩ := perform_testAndSetHead H old hash hinv.tree hinv.main
    exact ⟨s', heq, hhead.enforced hinv henf⟩
  | setCheckpoint checkpoint =>
    obtain ⟨s', heq, rfl, hinv', henf'⟩ := perform_setCheckpoint hinv (hok s rfl)
    exact ⟨s', congrArg (resulting s id) heq, rfl, hinv', henf'⟩

theorem enforced_run {genesis : B} {time : Int} {context : C} {expiration : Option Int} {actions : List (Action B L C)}
    (hactions : StepsMeet (step H) (some (create H genesis time context expiration : ChainState B O L C ε))
      Compatible actions) :
    ∃ s : ChainState B O L C ε, run (step H) (some (create H genesis time context expiration)) actions = some s ∧
      s.checkpoint = actions.foldl checkpointAfter (genesisHeader H genesis time context) ∧
      Invariant H s ⟨genesis, genesisHeader H genesis time context⟩ ∧ Enforced s s.checkpoint := by
  refine inv_of_stepsMeet (fun actions state => ∃ s : ChainState B O L C ε, state = some s ∧
    s.checkpoint = actions.foldl checkpointAfter (genesisHeader H genesis time context) ∧
    Invariant H s ⟨genesis, genesisHeader H genesis time context⟩ ∧ Enforced s s.checkpoint) ?_ ?_ hactions
  · exact ⟨_, rfl, rfl, invariant_create .., enforced_create H _ _ _ expiration⟩
  · rintro before state action ⟨s, rfl, hchec, hinv, henf⟩ hok
    obtain ⟨s', heq, hchec', hinv', henf'⟩ := perform_enforced H hinv henf hok
    refine ⟨s', heq, ?_, hinv', henf'⟩
    rw [hchec', hchec, foldl_append]
    rfl

/-- The checkpoint is enforced. In every run of compatible actions, from the time it is set until the next one, the valid
    blocks at the level of the checkpoint or above it are the checkpoint and its descendants. -/
theorem checkpoint_enforced (genesis : B) (time : Int) (context : C) (expiration : Option Int)
    (before after : List (Action B L C)) (checkpoint : BlockHeader B L C)
    (hafter : ∀ action ∈ after, ∀ next, action ≠ .setCheckpoint next)
    (hactions : StepsMeet (step H) (some (create H genesis time context expiration : ChainState B O L C ε)) Compatible
      (before ++ .setCheckpoint checkpoint :: after)) :
    ∃ s : ChainState B O L C ε,
      run (step H) (some (create H genesis time context expiration)) (before ++ .setCheckpoint checkpoint :: after) =
        some s ∧ s.checkpoint = checkpoint ∧
      ∀ hash, knownValid s hash = true → ∃ b, readOpt s hash = some b ∧
        (levelOf checkpoint ≤ b.level → ∃ c, Ancestor (predecessor s) c b ∧ c.header = checkpoint) := by
  obtain ⟨s, hrun, hchec, hinv, henf⟩ := enforced_run H hactions
  rw [foldl_append, foldl_cons, foldl_checkpointAfter hafter] at hchec
  refine ⟨s, hrun, hchec, fun hash hkn => ?_⟩
  obtain ⟨b, hb, rfl⟩ := (headerKnown_iff hash).mp hkn
  refine ⟨b, hb, fun hle => ?_⟩
  rw [hchec] at henf
  exact henf b hb hle

/-- The jumps over the table of predecessors give what a walk gives. In every run, checkpoints and the blocks they remove
    included, a block has one ancestor at each level below its own, and `predecessor_n` finds it; none is found further. -/
theorem predecessorN_exact (genesis : B) (time : Int) (context : C) (expiration : Option Int)
    (actions : List (Action B L C))
    (hactions : StepsMeet (step H) (some (create H genesis time context expiration : ChainState B O L C ε))
      Compatible actions) :
    ∃ s : ChainState B O L C ε, run (step H) (some (create H genesis time context expiration)) actions = some s ∧
      ∀ b, Stored s b → ∀ n : Nat,
        (n ≤ b.level → ∃ a, Ancestor (predecessor s) a b ∧ a.level = b.level - n ∧
          (∀ a', Ancestor (predecessor s) a' b → a'.level = a.level → a' = a) ∧
          predecessorN s false b.hash n = .ok (some a.hash)) ∧
        (b.level < n → predecessorN s false b.hash n = .ok none) := by
  obtain ⟨s, hrun, -, hinv, -⟩ := enforced_run H hactions
  refine ⟨s, hrun, fun b hb n => ⟨fun hle => ?_, fun hlt => ?_⟩⟩
  · obtain ⟨n', a, hn', hlvl, heq⟩ :=
      hinv.numbered.exists_base hinv.tree.rooted hb (Int.sub_nonneg.mpr hle) (Int.sub_le_self _ (Int.natCast_nonneg n))
    obtain rfl : n' = n := by omega
    refine ⟨a, ⟨n', hn'⟩, hlvl, fun a' ha' => hinv.numbered.eq_base hb ha' ⟨n', hn'⟩, ?_⟩
    obtain ⟨contents, hcont, -⟩ := (stored_of_ancestor hb ⟨n', hn'⟩).contents hinv.tree.unpruned
    rw [predecessorN_spec hinv.linked hb hn', hcont]
    rfl
  · have hnone : up (predecessor s) n b = none := by
      rcases hup : up (predecessor s) n b with _ | a
      · rfl
      · have hlvl := hinv.numbered.up hb hup
        have hpos := hinv.numbered.level_nonneg hinv.tree.rooted (stored_of_ancestor hb ⟨n, hup⟩)
        omega
    simp only [predecessorN, predecessorNRaw_spec hinv.linked hb, ancestorHash, hnone, map_none, bind, Except.bind]

end

theorem compatible_storeNumber {s : ChainState Nat Nat Nat Nat Empty} {level : Int32} {number : Nat}
    (p : Block Nat Nat Nat) (hp : Stored s p) (htime : p.header.shell.timestamp < number)
    (hlvl : level.toInt = p.level + 1) (hne : level.toInt ≠ levelOf s.checkpoint) :
    Compatible (some s) (storeNumber level p.hash number) := by
  refine ⟨rfl, fun s' hs => ?_⟩
  obtain rfl := Option.some.inj hs
  refine ⟨fun p' hp' hash => ?_, fun heq => absurd heq hne⟩
  rw [hp'.eq hp hash]
  exact ⟨htime, hlvl⟩

/-- A block that becomes the head, then a checkpoint at it and a block on top of it. -/
def headRun : List (Action Nat Nat Nat) :=
  [storeNumber 1 0 1, .setHead 1] ++ .setCheckpoint (numberHeader 1 0 1) :: [storeNumber 2 1 2]

theorem headRun_compatible : StepsMeet (step numberHashes) (some numberChain) Compatible headRun := by
  refine stepsMeet_cons.mpr ⟨?_, stepsMeet_cons.mpr ⟨trivial, stepsMeet_cons.mpr ⟨fun s hs => ?_,
    stepsMeet_cons.mpr ⟨?_, stepsMeet_nil⟩⟩⟩⟩
  · exact compatible_storeNumber ⟨0, genesisHeader numberHashes 0 0 0⟩ rfl (by decide) (by decide) (by decide)
  · obtain rfl := some.inj hs
    refine .inr ⟨⟨1, numberHeader 1 0 1⟩, .refl _, rfl, by decide, fun b p hb hp hash => ?_⟩
    have hhash : b.hash ∈ [1, 0] := hb.mem_keys rfl
    simp only [mem_cons, not_mem_nil, or_false] at hhash
    rcases hhash with hone | hzero
    · rw [Stored, hone] at hb
      rw [← some.inj hb]
      exact .refl _
    · rw [Stored, hzero] at hb
      rw [← some.inj hb] at hp
      cases hp
  · exact compatible_storeNumber ⟨1, numberHeader 1 0 1⟩ rfl (by decide) (by decide) (by decide)

theorem checkpoint_enforced_headRun : ∃ s : ChainState Nat Nat Nat Nat Empty,
    run (step numberHashes) (some numberChain) headRun = some s ∧ s.checkpoint = numberHeader 1 0 1 ∧
      ∀ hash, knownValid s hash = true → ∃ b, readOpt s hash = some b ∧
        (levelOf (numberHeader 1 0 1) ≤ b.level →
          ∃ c, Ancestor (predecessor s) c b ∧ c.header = numberHeader 1 0 1) := by
  refine checkpoint_enforced numberHashes 0 0 0 none [storeNumber 1 0 1, .setHead 1] [storeNumber 2 1 2] _ ?_
    headRun_compatible
  intro action hact next
  rw [mem_singleton.mp hact]
  intro heq
  cases heq

theorem predecessorN_exact_headRun : ∃ s : ChainState Nat Nat Nat Nat Empty,
    run (step numberHashes) (some numberChain) headRun = some s ∧
      ∀ b, Stored s b → 1 ≤ b.level → ∃ a, Ancestor (predecessor s) a b ∧
        predecessorN s false b.hash 1 = .ok (some a.hash) := by
  obtain ⟨s, hrun, hexact⟩ := predecessorN_exact numberHashes 0 0 0 none headRun headRun_compatible
  refine ⟨s, hrun, fun b hb hle => ?_⟩
  obtain ⟨a, ha, -, -, hfound⟩ := (hexact b hb 1).1 hle
  exact ⟨a, ha, hfound⟩

/-- A block next to the checkpoint is still valid, and so is one on top of it. -/
theorem sibling_of_checkpoint_valid : ∃ (before s : ChainState Nat Nat Nat Nat Empty) (b : Block Nat Nat Nat),
      run (step numberHashes) (some numberChain) [storeNumber 1 0 1] = some before ∧
      before.currentHead.level < levelOf (numberHeader 1 0 2) ∧
      run (step numberHashes) (some numberChain)
        [storeNumber 1 0 1, .setCheckpoint (numberHeader 1 0 2), storeNumber 2 1 3] = some s ∧
      s.checkpoint = numberHeader 1 0 2 ∧ knownValid s b.hash = true ∧ readOpt s b.hash = some b ∧
      levelOf (numberHeader 1 0 2) ≤ b.level ∧
      ¬∃ c, Ancestor (predecessor s) c b ∧ c.header = numberHeader 1 0 2 := by
  refine ⟨_, _, ⟨3, numberHeader 2 1 3⟩, rfl, by decide, rfl, rfl, by decide, by decide, by decide, ?_⟩
  rintro ⟨c, hc, hhdr⟩
  -- the blocks below it are 1 and the genesis block
  rcases ancestor_cases hc with rfl | ⟨p, hp, hc⟩
  · revert hhdr
    decide
  · obtain rfl := some.inj hp
    rcases ancestor_cases hc with rfl | ⟨p, hp, hc⟩
    · revert hhdr
      decide
    · obtain rfl := some.inj hp
      rcases ancestor_cases hc with rfl | ⟨p, hp, -⟩
      · revert hhdr
        decide
      · cases hp

end Tezos.Chain
