import Tezos.Lib.Runs
import Tezos.Theorems.Shell.Chain.Traversal

/-! The index of the main branch follows the head: it maps every block below the head to the next one. -/

namespace Tezos.Chain
open Lib State ChainTraversal List Function
variable {B O L C ε : Type} [DecidableEq B] {s s' : ChainState B O L C ε} {g a b : Block B L C}
  {l : List (Block B L C)} {fuel : Nat}

/-- A table has the branch of a block, and no other blocks. -/
structure Indexes (s : ChainState B O L C ε) (head : Block B L C) (table : B → Option B) : Prop where
  next : ∀ c b, Ancestor (predecessor s) c head → predecessor s c = some b → table b.hash = some c.hash
  only : ∀ hash, (table hash).isSome → ∃ b, Ancestor (predecessor s) b head ∧ b.hash = hash

structure MainBranch (s : ChainState B O L C ε) : Prop extends Indexes s s.currentHead s.inMainBranch where
  head : Stored s s.currentHead

theorem popBlocks_spec (htree : Tree s g) (table : B → Option B) (hb : Stored s b) (hl : IsPath (predecessor s) a b l)
    (hfuel : l.length < fuel) :
    ∃ table', popBlocks s a.hash fuel table b = .ok table' ∧ (∀ x ∈ l, table' x.hash = none) ∧
      ∀ hash, (∀ x ∈ l, x.hash ≠ hash) → table' hash = table hash := by
  revert table
  apply walk_induction htree hb hl hfuel
  · exact fun _ table => ⟨table, if_pos rfl, fun x hx => absurd hx not_mem_nil, fun _ _ => rfl⟩
  intro fuel c p l _ hne hp ih table
  obtain ⟨table', heq, hnone, hsame⟩ := ih (update table c.hash none)
  rw [popBlocks, if_neg hne, hp]
  refine ⟨table', heq, fun x hx => ?_, fun hash hx => ?_⟩
  · by_cases hmem : ∃ y ∈ l, y.hash = x.hash
    · obtain ⟨y, hy, hash⟩ := hmem
      rw [← hash]
      exact hnone y hy
    · have hlast : x.hash = c.hash := by
        rcases mem_append.mp hx with hx | hx
        · exact absurd ⟨x, hx, rfl⟩ hmem
        · rw [mem_singleton.mp hx]
      rw [hsame x.hash fun y hy hash => hmem ⟨y, hy, hash⟩, hlast, update_self]
  · rw [hsame hash fun y hy => hx y (mem_append_left _ hy)]
    exact update_of_ne (Ne.symm (hx c mem_concat_self)) _ _

theorem foldl_pushBlock_spec (table : B → Option B) (hl : IsPath (predecessor s) a b l)
    (hnd : ((a :: l).map Block.hash).Nodup) :
    (∀ c ∈ l, ∀ p, predecessor s c = some p → (l.foldl pushBlock (table, a.hash)).1 p.hash = some c.hash) ∧
      ∀ hash, (∀ x ∈ a :: l, x.hash ≠ hash) → (l.foldl pushBlock (table, a.hash)).1 hash = table hash := by
  induction l generalizing a table with
  | nil => exact ⟨fun c hc => absurd hc not_mem_nil, fun _ _ => rfl⟩
  | cons d l ih =>
    obtain ⟨hfr, hnd⟩ := nodup_cons.mp hnd
    obtain ⟨hnext, hsame⟩ := ih (update table a.hash (some d.hash)) hl.2 hnd
    refine ⟨fun c hc p hp => ?_, fun hash hx => ?_⟩
    · rcases mem_cons.mp hc with rfl | hc
      · obtain rfl := Option.some.inj (hl.1.symm.trans hp)
        refine (hsame a.hash fun x hx hash => hfr ?_).trans (update_self ..)
        exact mem_map.mpr ⟨x, hx, hash⟩
      · exact hnext c hc p hp
    · refine (hsame hash fun x hmem => hx x (mem_cons_of_mem _ hmem)).trans ?_
      exact update_of_ne (Ne.symm (hx a mem_cons_self)) _ _

/-! ### The head is set -/

theorem nodup_hashes (htree : Tree s g) (hb : Stored s b) (hl : IsPath (predecessor s) a b l) :
    ((a :: l).map Block.hash).Nodup := by
  have hsto : ∀ x ∈ a :: l, Stored s x := by
    intro x hx
    rcases mem_cons.mp hx with rfl | hx
    · exact stored_of_ancestor hb hl.ancestor
    · exact stored_of_ancestor hb (hl.mem hx).1
  refine (nodup_map_iff_inj_on (hl.nodup htree.root (htree.rooted b hb))).mpr fun x hx y hy heq => ?_
  exact (hsto x hx).eq (hsto y hy) heq

section
variable {old : List (Block B L C)} {head : Block B L C} {table popped pushed : B → Option B}

/-- The index of a branch, without the blocks after the greatest common ancestor with another branch, and with those of
    this one. -/
theorem Indexes.switch (htree : Tree s g) (hhead : Stored s head) (hb : Stored s b) (hidx : Indexes s head table)
    (hgst : GreatestCommonAncestor (predecessor s) a head b) (hold : IsPath (predecessor s) a head old)
    (hl : IsPath (predecessor s) a b l) (hnone : ∀ x ∈ old, popped x.hash = none)
    (hsame : ∀ hash, (∀ x ∈ old, x.hash ≠ hash) → popped hash = table hash)
    (hnext : ∀ c ∈ l, ∀ p, predecessor s c = some p → pushed p.hash = some c.hash)
    (hrest : ∀ hash, (∀ x ∈ a :: l, x.hash ≠ hash) → pushed hash = popped hash) : Indexes s b pushed := by
  refine ⟨fun c p hc hp => ?_, fun hash hsome => ?_⟩
  · by_cases hca : Precedes s c a
    · -- the predecessor is below the ancestor: its entry is neither removed nor overwritten
      have hps : Stored s p := stored_of_predecessor hp
      have hpa : Precedes s p a := (ancestor_parent hp).trans hca
      have hpne : ¬Precedes s a p := fun hap =>
        not_ancestor_parent htree.root (htree.rooted c (stored_of_ancestor hb hc)) hp (hca.trans hap)
      rw [hrest p.hash, hsame p.hash]
      · exact hidx.next c p (hca.trans hgst.left) hp
      · intro x hx hash
        rw [(stored_of_ancestor hhead (hold.mem hx).1).eq hps hash] at hx
        exact hold.not_ancestor htree.root (htree.rooted _ hhead) hx hpa
      · intro x hx hash
        rcases mem_cons.mp hx with rfl | hx
        · rw [(stored_of_ancestor hb hgst.right).eq hps hash] at hpne
          exact hpne (.refl p)
        · rw [(stored_of_ancestor hb (hl.mem hx).1).eq hps hash] at hx
          exact hl.not_ancestor htree.root (htree.rooted b hb) hx hpa
    · exact hnext c (hl.mem_of_ancestor hc hca) p hp
  · by_cases hmem : ∃ x ∈ a :: l, x.hash = hash
    · obtain ⟨x, hx, rfl⟩ := hmem
      rcases mem_cons.mp hx with rfl | hx
      · exact ⟨x, hgst.right, rfl⟩
      · exact ⟨x, (hl.mem hx).1, rfl⟩
    · rw [hrest hash fun x hx heq => hmem ⟨x, hx, heq⟩] at hsome
      by_cases hgone : ∃ x ∈ old, x.hash = hash
      · obtain ⟨x, hx, rfl⟩ := hgone
        rw [hnone x hx] at hsome
        cases hsome
      · rw [hsame hash fun x hx heq => hgone ⟨x, hx, heq⟩] at hsome
        obtain ⟨x, hx, rfl⟩ := hidx.only hash hsome
        have hxa : Precedes s x a := by
          by_contra hxa
          exact hgone ⟨x, hold.mem_of_ancestor hx hxa, rfl⟩
        exact ⟨x, hxa.trans hgst.right, rfl⟩

end

theorem lockedSetHead_spec (htree : Tree s g) (hmain : MainBranch s) (hb : Stored s b) (liveBlocks : Finset B)
    (liveOperations : Finset O) :
    ∃ inMainBranch, lockedSetHead s b liveBlocks liveOperations =
        .ok { s with inMainBranch, currentHead := b, liveBlocks, liveOperations } ∧ Indexes s b inMainBranch := by
  obtain ⟨a, l, hnew, hgst, hl⟩ := newBlocks_spec htree hmain.head hb
  obtain ⟨old, hold⟩ := exists_isPath hgst.left
  obtain ⟨popped, hpop, hnone, hsame⟩ := popBlocks_spec htree s.inMainBranch hmain.head hold
    (Nat.lt_succ_of_lt (htree.length_lt_blockCount hmain.head hold))
  obtain ⟨hnext, hrest⟩ := foldl_pushBlock_spec popped hl (nodup_hashes htree hb hl)
  refine ⟨(l.foldl pushBlock (popped, a.hash)).1, ?_, ?_⟩
  · simp only [lockedSetHead, hnew, hpop, bind, Except.bind]
  · exact hmain.toIndexes.switch htree hmain.head hb hgst hold hl hnone hsame hnext hrest

theorem MainBranch.mem_iff (hmain : MainBranch s) (hash : B) :
    mem s hash = true ↔ ∃ b, Precedes s b s.currentHead ∧ b.hash = hash := by
  rw [mem, Bool.or_eq_true, decide_eq_true_eq]
  constructor
  · rintro (rfl | hsome)
    · exact ⟨s.currentHead, .refl _, rfl⟩
    · exact hmain.only hash hsome
  · rintro ⟨b, hb, rfl⟩
    by_cases heq : b = s.currentHead
    · exact .inl (congrArg Block.hash heq).symm
    · obtain ⟨c, hc, hcb⟩ := exists_child hb heq
      rw [hmain.next c b hc hcb]
      exact .inr rfl

section
variable [DecidableEq O]

theorem liveBlocks_of_stored (htree : Tree s g) (hb : Stored s b) :
    ∃ ttl blocks ops, maxOperationsTtl s b = .ok ttl ∧ liveBlocks s b ttl = .ok (blocks, ops) := by
  obtain ⟨contents, hcont, -⟩ := hb.contents htree.unpruned
  obtain ⟨blocks, ops, hlive, -⟩ := liveBlocks_spec htree hb contents.maxOperationsTtl
  exact ⟨contents.maxOperationsTtl, blocks, ops, maxOperationsTtl_of_lookup hcont, hlive⟩

/-- The state with another head: the index is that of its branch, and the live data are its own. -/
def WithHead (s s' : ChainState B O L C ε) (b : Block B L C) : Prop :=
  ∃ ttl blocks ops inMainBranch, maxOperationsTtl s b = .ok ttl ∧ liveBlocks s b ttl = .ok (blocks, ops) ∧
    Indexes s b inMainBranch ∧
    s' = { s with inMainBranch, currentHead := b, liveBlocks := blocks, liveOperations := ops }

theorem WithHead.tree (h : WithHead s s' b) (htree : Tree s g) : Tree s' g := by
  obtain ⟨ttl, blocks, ops, inMainBranch, -, -, -, rfl⟩ := h
  exact htree.setHead ..

theorem WithHead.main (h : WithHead s s' b) (hb : Stored s b) : MainBranch s' := by
  obtain ⟨ttl, blocks, ops, inMainBranch, -, -, hidx, rfl⟩ := h
  exact ⟨⟨hidx.next, hidx.only⟩, hb⟩

theorem WithHead.checkpoint (h : WithHead s s' b) : s'.checkpoint = s.checkpoint := by
  obtain ⟨ttl, blocks, ops, inMainBranch, -, -, -, rfl⟩ := h
  rfl

theorem setHead_spec (htree : Tree s g) (hmain : MainBranch s) (hb : Stored s b) :
    ∃ s', setHead s b = .ok (s', s.currentHead) ∧ WithHead s s' b := by
  obtain ⟨ttl, blocks, ops, httl, hlive⟩ := liveBlocks_of_stored htree hb
  obtain ⟨inMainBranch, hset, hidx⟩ := lockedSetHead_spec htree hmain hb blocks ops
  refine ⟨_, ?_, ttl, blocks, ops, inMainBranch, httl, hlive, hidx, rfl⟩
  simp only [setHead, httl, hlive, hset, bind, Except.bind]

theorem testAndSetHead_spec (htree : Tree s g) (hmain : MainBranch s) (hb : Stored s b) (old : Block B L C) :
    testAndSetHead s old b =
      if s.currentHead.hash = old.hash then (setHead s b).map fun result => (result.1, true) else .ok (s, false) := by
  obtain ⟨ttl, blocks, ops, httl, hlive⟩ := liveBlocks_of_stored htree hb
  obtain ⟨inMainBranch, hset, -⟩ := lockedSetHead_spec htree hmain hb blocks ops
  simp only [testAndSetHead, setHead, httl, hlive, hset, bind, Except.bind, Except.map, ne_eq, ite_not]

end

/-! ### Runs -/

theorem mainBranch_create (H : Hashes B O L C) (genesis : B) (time : Int) (context : C) (expiration : Option Int) :
    MainBranch (create H genesis time context expiration : ChainState B O L C ε) := by
  have htree := tree_create (ε := ε) H genesis time context expiration
  refine ⟨⟨fun c b hc hp => ?_, fun hash hsome => ?_⟩, htree.stored⟩
  · rw [eq_of_ancestor_root htree.root hc, htree.root] at hp
    cases hp
  · cases hsome

theorem MainBranch.addBlock [DecidableEq L] {H : Hashes B O L C} {header : BlockHeader B L C} {nb : Block B L C}
    {operations : List (List (Operation B))} (htree : Tree s g) (hmain : MainBranch s)
    (h : NewBlock H s header operations nb) (ttl : Int) : MainBranch (addBlock H s nb ttl operations) := by
  obtain ⟨-, hsame⟩ := h.predecessors htree ttl
  refine ⟨⟨?_, ?_⟩, ?_⟩
  · rw [addBlock_currentHead, addBlock_inMainBranch]
    intro c b hc hp
    rw [h.ancestor_iff htree ttl hmain.head] at hc
    rw [hsame c (stored_of_ancestor hmain.head hc)] at hp
    exact hmain.next c b hc hp
  · rw [addBlock_currentHead, addBlock_inMainBranch]
    intro hash hsome
    obtain ⟨b, hb, rfl⟩ := hmain.only hash hsome
    exact ⟨b, (h.ancestor_iff htree ttl hmain.head).mpr hb, rfl⟩
  · rw [addBlock_currentHead]
    exact (stored_addBlock htree.unpruned h.fresh).mpr (.inr hmain.head)

/-- The state is the same, or has one of its blocks as the head. -/
def Reheaded [DecidableEq O] (s s' : ChainState B O L C ε) : Prop := s' = s ∨ ∃ b, Stored s b ∧ WithHead s s' b

theorem Reheaded.mainBranch [DecidableEq O] (h : Reheaded s s') (htree : Tree s g) (hmain : MainBranch s) :
    Tree s' g ∧ MainBranch s' := by
  rcases h with rfl | ⟨b, hb, hhead⟩
  · exact ⟨htree, hmain⟩
  · exact ⟨hhead.tree htree, hhead.main hb⟩

/-- The blocks that are stored are later than their predecessors, as `check_block_header` checks, and no checkpoint is
    set. -/
def TimestampsIncrease (s : Option (ChainState B O L C ε)) : Action B L C → Prop
  | .store _ _ header _ _ _ => ∀ s', s = some s' → ∀ p, Stored s' p → p.hash = header.shell.predecessor →
    p.header.shell.timestamp < header.shell.timestamp
  | .setHead _ | .testAndSetHead _ _ => True
  | .setCheckpoint _ => False

section
variable [DecidableEq O] [DecidableEq L] [DecidableEq C] (H : Hashes B O L C)

theorem perform_setHead (hash : B) (htree : Tree s g) (hmain : MainBranch s) :
    ∃ s', perform s H (.setHead hash) = some s' ∧ Reheaded s s' := by
  rw [perform]
  rcases hread : readOpt s hash with _ | b
  · exact ⟨s, rfl, .inl rfl⟩
  · have hb := stored_of_readOpt hread
    obtain ⟨s', hset, hhead⟩ := setHead_spec htree hmain hb
    exact ⟨s', congrArg (resulting s Prod.fst) hset, .inr ⟨b, hb, hhead⟩⟩

theorem perform_testAndSetHead (old : Block B L C) (hash : B) (htree : Tree s g) (hmain : MainBranch s) :
    ∃ s', perform s H (.testAndSetHead old hash) = some s' ∧ Reheaded s s' := by
  rw [perform]
  rcases hread : readOpt s hash with _ | b
  · exact ⟨s, rfl, .inl rfl⟩
  · have hb := stored_of_readOpt hread
    simp only [testAndSetHead_spec htree hmain hb]
    split
    · obtain ⟨s', hset, hhead⟩ := setHead_spec htree hmain hb
      rw [hset]
      exact ⟨s', rfl, .inr ⟨b, hb, hhead⟩⟩
    · exact ⟨s, rfl, .inl rfl⟩

theorem perform_mainBranch {action : Action B L C} (htree : Tree s g) (hmain : MainBranch s)
    (hok : TimestampsIncrease (some s) action) :
    ∃ s', perform s H action = some s' ∧ Tree s' g ∧ MainBranch s' := by
  cases action with
  | store dontEnforceContextHash contextExists header operations operationsMetadata validation =>
    rw [perform]
    rcases store_cases htree.unpruned rfl with ⟨error, heq, -⟩ | heq | ⟨nb, hnb, -, heq⟩
    · exact ⟨s, by rw [heq]; rfl, htree, hmain⟩
    · exact ⟨s, by rw [heq]; rfl, htree, hmain⟩
    · refine ⟨_, by rw [heq]; rfl, htree.addBlock hnb ?_, hmain.addBlock htree hnb _⟩
      obtain ⟨context, hsame⟩ := hnb.same
      intro p hp hash
      rw [hsame] at hash ⊢
      exact hok s rfl p hp hash
  | setHead hash =>
    obtain ⟨s', heq, hhead⟩ := perform_setHead H hash htree hmain
    exact ⟨s', heq, hhead.mainBranch htree hmain⟩
  | testAndSetHead old hash =>
    obtain ⟨s', heq, hhead⟩ := perform_testAndSetHead H old hash htree hmain
    exact ⟨s', heq, hhead.mainBranch htree hmain⟩
  | setCheckpoint checkpoint => exact hok.elim

theorem mainBranch_run {genesis : B} {time : Int} {context : C} {expiration : Option Int} {actions : List (Action B L C)}
    (hactions : StepsMeet (step H) (some (create H genesis time context expiration : ChainState B O L C ε))
      TimestampsIncrease actions) :
    ∃ s, run (step H) (some (create H genesis time context expiration : ChainState B O L C ε)) actions = some s ∧
      Tree s ⟨genesis, genesisHeader H genesis time context⟩ ∧ MainBranch s := by
  refine inv_of_stepsMeet (fun _ state => ∃ s : ChainState B O L C ε, state = some s ∧
    Tree s ⟨genesis, genesisHeader H genesis time context⟩ ∧ MainBranch s) ?_ ?_ hactions
  · exact ⟨_, rfl, tree_create .., mainBranch_create ..⟩
  · rintro before state action ⟨s, rfl, htree, hmain⟩ hok
    exact perform_mainBranch H htree hmain hok

/-- The main branch follows the head. In every run the index is that of the path from the genesis block to the head; the
    blocks between two heads are those from their greatest common ancestor; and setting the head to a stored block always
    returns. -/
theorem mainBranch_follows_head (genesis : B) (time : Int) (context : C) (expiration : Option Int)
    (actions : List (Action B L C))
    (hactions : StepsMeet (step H) (some (create H genesis time context expiration : ChainState B O L C ε))
      TimestampsIncrease actions) :
    ∃ (s : ChainState B O L C ε) (g : Block B L C) (line : List (Block B L C)),
      run (step H) (some (create H genesis time context expiration)) actions = some s ∧ g.hash = genesis ∧
      IsPath (predecessor s) g s.currentHead line ∧
      (∀ hash, mem s hash = true ↔ ∃ b ∈ g :: line, b.hash = hash) ∧
      (∀ b ∈ line, ∀ p, predecessor s b = some p → s.inMainBranch p.hash = some b.hash) ∧
      ∀ b, Stored s b →
        (∃ a path, newBlocks s s.currentHead b = .ok (a, path) ∧
          GreatestCommonAncestor (predecessor s) a s.currentHead b ∧ IsPath (predecessor s) a b path) ∧
        (∃ s', setHead s b = .ok (s', s.currentHead) ∧ s'.currentHead = b) ∧
        ∀ old : Block B L C, ∃ s', testAndSetHead s old b = .ok (s', decide (s.currentHead.hash = old.hash)) ∧
          s'.currentHead = if s.currentHead.hash = old.hash then b else s.currentHead := by
  obtain ⟨s, hrun, htree, hmain⟩ := mainBranch_run H hactions
  obtain ⟨line, hline⟩ := exists_isPath (htree.rooted _ hmain.head)
  refine ⟨s, _, line, hrun, rfl, hline, fun hash => ?_, fun b hb p hp => ?_, fun b hb => ⟨?_, ?_, fun old => ?_⟩⟩
  · rw [hmain.mem_iff]
    constructor
    · rintro ⟨b, hb, rfl⟩
      refine ⟨b, ?_, rfl⟩
      by_cases hroot : Ancestor (predecessor s) b ⟨genesis, genesisHeader H genesis time context⟩
      · rw [eq_of_ancestor_root htree.root hroot]
        exact mem_cons_self
      · exact mem_cons_of_mem _ (hline.mem_of_ancestor hb hroot)
    · rintro ⟨b, hb, rfl⟩
      rcases mem_cons.mp hb with rfl | hb
      · exact ⟨_, hline.ancestor, rfl⟩
      · exact ⟨b, (hline.mem hb).1, rfl⟩
  · exact hmain.next b p (hline.mem hb).1 hp
  · exact newBlocks_spec htree hmain.head hb
  · obtain ⟨s', hset, ttl, blocks, ops, inMainBranch, -, -, -, rfl⟩ := setHead_spec htree hmain hb
    exact ⟨_, hset, rfl⟩
  · obtain ⟨s', hset, ttl, blocks, ops, inMainBranch, -, -, -, rfl⟩ := setHead_spec htree hmain hb
    rw [testAndSetHead_spec htree hmain hb, hset]
    by_cases hash : s.currentHead.hash = old.hash
    · rw [if_pos hash, if_pos hash, decide_eq_true hash]
      exact ⟨_, rfl, rfl⟩
    · rw [if_neg hash, if_neg hash, decide_eq_false hash]
      exact ⟨s, rfl, rfl⟩

end

def numberHashes : Hashes Nat Nat Nat Nat := ⟨fun header => header.shell.context, fun _ => 0, 0⟩

/-- A block of which the number is its fitness, its time and its hash. -/
def numberHeader (level : Int32) (predecessor number : Nat) : BlockHeader Nat Nat Nat :=
  ⟨⟨level, 0, predecessor, number, 0, 0, [[number.toUInt8]], number⟩, []⟩

def storeNumber (level : Int32) (predecessor number : Nat) : Action Nat Nat Nat :=
  .store false (fun _ => true) (numberHeader level predecessor number) [] [] ⟨number, 10⟩

def numberChain : ChainState Nat Nat Nat Nat Empty := create numberHashes 0 0 0 none

/-- Two blocks on top of the genesis block, each of which is the head, then the genesis block again. -/
def forkedRun : List (Action Nat Nat Nat) :=
  [storeNumber 1 0 1, storeNumber 1 0 2, .setHead 1, .setHead 2, .testAndSetHead ⟨2, numberHeader 1 0 2⟩ 0]

theorem forkedRun_increasing : StepsMeet (step numberHashes) (some numberChain) TimestampsIncrease forkedRun := by
  refine stepsMeet_cons.mpr ⟨?_, stepsMeet_cons.mpr ⟨?_, stepsMeet_cons.mpr ⟨trivial, stepsMeet_cons.mpr
    ⟨trivial, stepsMeet_cons.mpr ⟨trivial, stepsMeet_nil⟩⟩⟩⟩⟩
  all_goals
    intro s hs p hp hash
    obtain rfl := Option.some.inj hs
    rw [Stored, hash] at hp
    obtain rfl := Option.some.inj hp
    decide

theorem mainBranch_follows_head_forked :
    ∃ (s : ChainState Nat Nat Nat Nat Empty) (g : Block Nat Nat Nat) (line : List (Block Nat Nat Nat)),
      run (step numberHashes) (some numberChain) forkedRun = some s ∧ g.hash = 0 ∧
      IsPath (predecessor s) g s.currentHead line ∧ ∀ hash, mem s hash = true ↔
        ∃ b ∈ g :: line, b.hash = hash := by
  obtain ⟨s, g, line, hrun, hg, hline, hmem, -⟩ :=
    mainBranch_follows_head numberHashes 0 0 0 none forkedRun forkedRun_increasing
  exact ⟨s, g, line, hrun, hg, hline, hmem⟩

end Tezos.Chain
