import Tezos.Theorems.Base.Fitness
import Tezos.Theorems.Shell.Chain.Enforcement

/-! The best head for a checkpoint: the search below it may miss the blocks through it. -/

namespace Tezos.Chain
open Lib State List
variable {B O L C ε : Type} [DecidableEq B] {H : Hashes B O L C} {s : ChainState B O L C ε}
  {g b best x y z : Block B L C} {checkpoint : BlockHeader B L C}

def AtMost (x y : Block B L C) : Prop := (Fitness.compare x.header.shell.fitness y.header.shell.fitness).isLE

/-- The blocks are numbered from the genesis block on, each one is below a known head, and the fitness increases along
    the chain. Some may be pruned. -/
structure Graded (H : Hashes B O L C) (s : ChainState B O L C ε) (g : Block B L C) : Prop where
  genesis : g.hash = s.genesis
  stored : Stored s g
  rooted : ∀ b, Stored s b → Ancestor (predecessor s) g b
  numbered : Numbered H s g
  linked : Linked s
  headed : Headed s
  head : Stored s s.currentHead
  fitness : ∀ b p, Stored s b → predecessor s b = some p →
    Fitness.compare p.header.shell.fitness b.header.shell.fitness = .lt

/-- The block is stored and valid for the checkpoint, and no such block has a greater fitness. -/
structure BestFor (H : Hashes B O L C) (s : ChainState B O L C ε) (checkpoint : BlockHeader B L C) (b : Block B L C) :
    Prop where
  stored : Stored s b
  valid : ValidFor H s checkpoint b
  greatest : ∀ x, Stored s x → ValidFor H s checkpoint x → AtMost x b

/-- What the search for a block below the checkpoint reads. -/
def Readable (s : ChainState B O L C ε) (checkpoint : BlockHeader B L C) (b : Block B L C) : Prop :=
  levelOf checkpoint ≤ b.level → Kept s (levelOf checkpoint - 1) b

/-- The first block below the checkpoint on a branch. -/
structure Highest (s : ChainState B O L C ε) (checkpoint : BlockHeader B L C) (b z : Block B L C) : Prop where
  ancestor : Ancestor (predecessor s) z b
  below : z.level < levelOf checkpoint
  above : ∀ y, Ancestor (predecessor s) y b → y.level < levelOf checkpoint → Ancestor (predecessor s) y z

omit [DecidableEq B] in
theorem AtMost.refl (x : Block B L C) : AtMost x x := Std.ReflCmp.isLE_rfl

omit [DecidableEq B] in
theorem AtMost.trans (hxy : AtMost x y) (hyz : AtMost y z) : AtMost x z := Std.TransCmp.isLE_trans hxy hyz

omit [DecidableEq B] in
theorem atMost_fitter (z best : Block B L C) : AtMost z (fitter z best) ∧ AtMost best (fitter z best) := by
  rw [fitter]
  split
  · rename_i hgt
    have hswap : Fitness.compare best.header.shell.fitness z.header.shell.fitness = Ordering.gt.swap :=
      hgt ▸ Std.OrientedCmp.eq_swap
    refine ⟨.refl z, ?_⟩
    rw [AtMost, hswap]
    rfl
  · rename_i hle
    exact ⟨Ordering.isLE_iff_ne_gt.mpr hle, .refl best⟩

section
variable (h : Graded H s g)
include h

theorem Graded.atMost (hx : Stored s x) (hy : Precedes s y x) : AtMost y x := by
  refine (hy.closed (S := fun b => Stored s b ∧ AtMost b x) (fun b p hb hp => ?_) ⟨hx, .refl x⟩).2
  have hle : AtMost p b := by rw [AtMost, h.fitness b p hb.1 hp]; rfl
  exact ⟨stored_of_predecessor hp, hle.trans hb.2⟩

variable (hpos : 0 < levelOf checkpoint)
include hpos

theorem Graded.findValidPredecessor (hb : Stored s b) : ∃ z, Highest s checkpoint b z ∧
      (Readable s checkpoint b → findValidPredecessor s checkpoint b.hash = .ok z) ∧
      (¬Readable s checkpoint b → findValidPredecessor s checkpoint b.hash = .error .raised) := by
  simp only [State.findValidPredecessor, headerReadOpt_of_stored hb, unoptAssert, bind, Except.bind]
  by_cases hlt : b.header.shell.level < checkpoint.shell.level
  · have hlow : b.level < levelOf checkpoint := Int32.lt_iff_toInt_lt.mp hlt
    rw [if_pos hlt]
    exact ⟨b, ⟨.refl b, hlow, fun y hy _ => hy⟩, fun _ => rfl,
      fun hn => absurd (fun hle => absurd hlow (not_lt.mpr hle)) hn⟩
  have hle : levelOf checkpoint ≤ b.level := not_lt.mp fun h => hlt (Int32.lt_iff_toInt_lt.mpr h)
  obtain ⟨n, z, hn, hz, hdist⟩ := h.numbered.exists_base h.rooted hb (l := levelOf checkpoint - 1) (by omega) (by omega)
  have hsub : 1 + (b.header.shell.level - checkpoint.shell.level).toInt = (n : Int) := by
    rw [toInt_sub_level (le_of_lt hpos) hle, hdist, Block.level, levelOf]
    omega
  have hkept : Kept s (levelOf checkpoint - 1) b ↔ (s.contents.lookup z.hash).isSome :=
    ⟨fun hk => hk z ⟨n, hn⟩ hz, fun hk z' hz' hl => h.numbered.eq_base hb hz' ⟨n, hn⟩ (hl.trans hz.symm) ▸ hk⟩
  rw [if_neg hlt, hsub, predecessorN_spec h.linked hb hn, Readable, imp_iff_right hle, hkept]
  refine ⟨z, ⟨⟨n, hn⟩, by omega, fun y hy hlow => ?_⟩, fun hcont => ?_, fun hcont => ?_⟩
  · exact h.numbered.ancestor_of_level_le hb hy ⟨n, hn⟩ (by omega)
  · simp only [if_pos hcont, headerReadOpt_of_stored (stored_of_ancestor hb ⟨n, hn⟩)]
  · simp only [if_neg hcont]

theorem Graded.foldlM_betterHead {heads : List B} (hheads : ∀ hash ∈ heads, ∃ b, Stored s b ∧ b.hash = hash)
    (hbest : Stored s best ∧ best.level < levelOf checkpoint) (hread : ∀ top, Stored s top → top.hash ∈ heads →
      Readable s checkpoint top) :
    ∃ b, heads.foldlM (betterHead s checkpoint) best = .ok b ∧ (Stored s b ∧ b.level < levelOf checkpoint) ∧
      AtMost best b ∧ ∀ top, Stored s top → top.hash ∈ heads → ∀ y, Precedes s y top →
        y.level < levelOf checkpoint → AtMost y b := by
  induction heads generalizing best with
  | nil => exact ⟨best, rfl, hbest, .refl best, fun _ _ hmem => absurd hmem not_mem_nil⟩
  | cons hash heads ih =>
    obtain ⟨x, hx, rfl⟩ := hheads hash mem_cons_self
    obtain ⟨z, hz, hok, -⟩ := h.findValidPredecessor hpos hx
    have hzs := stored_of_ancestor hx hz.ancestor
    obtain ⟨hnew, hold⟩ := atMost_fitter z best
    have hlow : Stored s (fitter z best) ∧ (fitter z best).level < levelOf checkpoint := by
      rw [fitter]
      split
      · exact ⟨hzs, hz.below⟩
      · exact hbest
    obtain ⟨b, hfold, hb, hle, hall⟩ := ih (fun hash hmem => hheads hash (mem_cons_of_mem _ hmem)) hlow
      fun top htop hmem => hread top htop (mem_cons_of_mem _ hmem)
    refine ⟨b, ?_, hb, hold.trans hle, fun top htop hmem y hy hlow => ?_⟩
    · rw [foldlM_cons, betterHead, hok (hread x hx mem_cons_self)]
      exact hfold
    · rcases mem_cons.mp hmem with hash | hmem
      · rw [htop.eq hx hash] at hy
        exact ((h.atMost hzs (hz.above y hy hlow)).trans hnew).trans hle
      · exact hall top htop hmem y hy hlow

theorem Graded.readable_of_ok {heads : List B} (hheads : ∀ hash ∈ heads, ∃ b, Stored s b ∧ b.hash = hash)
    (hok : heads.foldlM (betterHead s checkpoint) best = .ok b) (hx : Stored s x) (hmem : x.hash ∈ heads) :
    Readable s checkpoint x := by
  induction heads generalizing best with
  | nil => exact absurd hmem not_mem_nil
  | cons hash heads ih =>
    obtain ⟨y, hy, rfl⟩ := hheads hash mem_cons_self
    obtain ⟨z, -, hyes, hno⟩ := h.findValidPredecessor hpos hy
    by_cases hread : Readable s checkpoint y
    · rw [foldlM_cons, betterHead, hyes hread] at hok
      rcases mem_cons.mp hmem with hash | hmem
      · rwa [hx.eq hy hash]
      · exact ih (fun hash hmem => hheads hash (mem_cons_of_mem _ hmem)) hok hmem
    · rw [foldlM_cons, betterHead, hno hread] at hok
      cases hok

end

/-- The checkpoint is above the genesis block when a block is valid for it and the head is not. -/
theorem Graded.checkpoint_pos (h : Graded H s g) (hb : Stored s b) (hval : ValidFor H s checkpoint b)
    (hhead : ¬ValidFor H s checkpoint s.currentHead) : 0 < levelOf checkpoint := by
  have hnonn := h.numbered.level_nonneg h.rooted hb
  rcases hval with hlow | ⟨z, hz, hl, hash⟩
  · exact lt_of_le_of_lt hnonn hlow
  have hzs := stored_of_ancestor hb hz
  refine lt_of_le_of_ne (hl ▸ h.numbered.level_nonneg h.rooted hzs) fun hzero => hhead (.inr ⟨z, ?_, hl, hash⟩)
  have hzg : g = z := h.numbered.eq_of_level hzs (h.rooted z hzs) (by rw [hl, ← hzero, h.numbered.zero])
  exact hzg ▸ h.rooted _ h.head

theorem Graded.exists_best_iff (h : Graded H s g) (hhead : ¬ValidFor H s checkpoint s.currentHead) :
    (∃ b, s.knownHeads.foldlM (betterHead s checkpoint) g = .ok b ∧ BestFor H s checkpoint b) ↔
      0 < levelOf checkpoint ∧ (∀ top, Stored s top → top.hash ∈ s.knownHeads → Readable s checkpoint top) ∧
        ∀ x, Stored s x → ValidFor H s checkpoint x → ∃ y, Stored s y ∧ y.level < levelOf checkpoint ∧
          AtMost x y := by
  have hlow (hpos : 0 < levelOf checkpoint) : Stored s g ∧ g.level < levelOf checkpoint :=
    ⟨h.stored, by rwa [h.numbered.zero]⟩
  constructor
  · rintro ⟨b, hok, hb⟩
    have hpos := h.checkpoint_pos hb.stored hb.valid hhead
    have hread (top : Block B L C) (htop : Stored s top) (hmem : top.hash ∈ s.knownHeads) :=
      h.readable_of_ok hpos h.headed.stored hok htop hmem
    obtain ⟨b', hok', hb', -⟩ := h.foldlM_betterHead hpos h.headed.stored (hlow hpos) hread
    obtain rfl := Except.ok.inj (hok.symm.trans hok')
    exact ⟨hpos, hread, fun x hx hval => ⟨b, hb'.1, hb'.2, hb.greatest x hx hval⟩⟩
  · rintro ⟨hpos, hread, hall⟩
    obtain ⟨b, hok, hb, -, hmax⟩ := h.foldlM_betterHead hpos h.headed.stored (hlow hpos) hread
    refine ⟨b, hok, hb.1, .inl hb.2, fun x hx hval => ?_⟩
    obtain ⟨y, hy, hylow, hxy⟩ := hall x hx hval
    obtain ⟨top, htop, hmem, hytop⟩ := h.headed.covered y hy
    exact hxy.trans (hmax top htop hmem y hytop hylow)

/-- The block that is returned for a checkpoint is a best one of those valid for it, just when the head is one, or when the
    head is not valid and none of the blocks through the checkpoint is better than all those below it, and the blocks that
    are read are not pruned. -/
theorem best_for_checkpoint_iff (h : Graded H s g) (checkpoint : BlockHeader B L C) :
    (∃ b, bestKnownHeadForCheckpoint H s checkpoint = .ok b ∧ BestFor H s checkpoint b) ↔
      Kept s (levelOf checkpoint) s.currentHead ∧
        (BestFor H s checkpoint s.currentHead ∨
          ¬ValidFor H s checkpoint s.currentHead ∧ 0 < levelOf checkpoint ∧
            (∀ top, Stored s top → top.hash ∈ s.knownHeads → Readable s checkpoint top) ∧
            ∀ x, Stored s x → ValidFor H s checkpoint x →
              ∃ y, Stored s y ∧ y.level < levelOf checkpoint ∧ AtMost x y) := by
  have hgen : headerReadOpt s s.genesis = some g.header := h.genesis ▸ headerReadOpt_of_stored h.stored
  by_cases hlvl : 0 ≤ levelOf checkpoint
  swap
  · -- no block is valid for a checkpoint at a negative level
    have hnone (b : Block B L C) (hb : Stored s b) : ¬ValidFor H s checkpoint b := by
      rintro (hlow | ⟨z, hz, hl, -⟩)
      · exact hlvl (le_of_lt (lt_of_le_of_lt (h.numbered.level_nonneg h.rooted hb) hlow))
      · exact hlvl (hl ▸ h.numbered.level_nonneg h.rooted (stored_of_ancestor hb hz))
    refine iff_of_false (fun ⟨b, _, hb⟩ => hnone b hb.stored hb.valid) ?_
    rintro ⟨-, hb | ⟨-, hpos, -⟩⟩
    · exact hnone _ hb.stored hb.valid
    · exact hlvl (le_of_lt hpos)
  have hvalid := isValidForCheckpoint_eq_ok h.rooted h.numbered h.linked hlvl h.head
  rw [bestKnownHeadForCheckpoint]
  cases heq : isValidForCheckpoint H s s.currentHead.hash s.currentHead.header checkpoint with
  | error e =>
    refine iff_of_false (by rintro ⟨b, ⟨⟩, -⟩) fun ⟨hkept, _⟩ => ?_
    classical
    cases heq.symm.trans ((hvalid _).mpr ⟨hkept, decide_eq_true_iff⟩)
  | ok valid =>
    obtain ⟨hkept, hval⟩ := (hvalid valid).mp heq
    rw [and_iff_right hkept]
    cases valid with
    | true =>
      rw [or_iff_left fun hbad => hbad.1 (hval.mp rfl)]
      exact ⟨fun ⟨b, heq, hb⟩ => Except.ok.inj heq ▸ hb, fun hb => ⟨_, rfl, hb⟩⟩
    | false =>
      have hhead : ¬ValidFor H s checkpoint s.currentHead := fun hv => Bool.false_ne_true (hval.mpr hv)
      rw [or_iff_right fun hb => hhead hb.valid, and_iff_right hhead]
      rw [← h.exists_best_iff hhead, hgen, ← h.genesis]
      rfl

/-- Two branches of two blocks on top of the genesis block; the head is on the first one. -/
def climbingRun : List (Action Nat Nat Nat) :=
  [storeNumber 1 0 1, storeNumber 1 0 2, storeNumber 2 1 3, .setHead 3, storeNumber 2 2 4]

theorem climbingRun_compatible : StepsMeet (step numberHashes) (some numberChain) Compatible climbingRun := by
  refine stepsMeet_cons.mpr ⟨?_, stepsMeet_cons.mpr ⟨?_, stepsMeet_cons.mpr ⟨?_, stepsMeet_cons.mpr ⟨trivial,
    stepsMeet_cons.mpr ⟨?_, stepsMeet_nil⟩⟩⟩⟩⟩
  · exact compatible_storeNumber ⟨0, genesisHeader numberHashes 0 0 0⟩ rfl (by decide) (by decide) (by decide)
  · exact compatible_storeNumber ⟨0, genesisHeader numberHashes 0 0 0⟩ rfl (by decide) (by decide) (by decide)
  · exact compatible_storeNumber ⟨1, numberHeader 1 0 1⟩ rfl (by decide) (by decide) (by decide)
  · exact compatible_storeNumber ⟨2, numberHeader 1 0 2⟩ rfl (by decide) (by decide) (by decide)

/-- Both known heads are at the level of a checkpoint that neither goes through: the better one of the blocks below them is
    returned, which is on the other branch. -/
theorem best_for_checkpoint_climbingRun : ∃ s : ChainState Nat Nat Nat Nat Empty,
    run (step numberHashes) (some numberChain) climbingRun = some s ∧ s.knownHeads = [4, 3] ∧ s.currentHead.hash = 3 ∧
      bestKnownHeadForCheckpoint numberHashes s (numberHeader 2 2 5) = .ok ⟨2, numberHeader 1 0 2⟩ ∧
      BestFor numberHashes s (numberHeader 2 2 5) ⟨2, numberHeader 1 0 2⟩ := by
  obtain ⟨s, hrun, -, hinv, -⟩ := enforced_run numberHashes climbingRun_compatible
  have hkept (level : Int) (b : Block Nat Nat Nat) (hb : Stored s b) : Kept s level b := fun z hz _ => by
    obtain ⟨contents, hcont, -⟩ := (stored_of_ancestor hb hz).contents hinv.tree.unpruned
    rw [hcont]
    rfl
  have hkeys (b : Block Nat Nat Nat) (hb : Stored s b) : b.hash ∈ [4, 3, 2, 1, 0] := by
    obtain rfl := Option.some.inj hrun
    exact hb.mem_keys rfl
  have hlow (x : Block Nat Nat Nat) (hx : Stored s x) (hval : ValidFor numberHashes s (numberHeader 2 2 5) x) :
      x.level < levelOf (numberHeader 2 2 5) := by
    rcases hval with hlow | ⟨z, hz, -, hash⟩
    · exact hlow
    · have hmem := hkeys z (stored_of_ancestor hx hz)
      rw [hash] at hmem
      exact absurd hmem (by decide)
  have hgraded : Graded numberHashes s ⟨0, genesisHeader numberHashes 0 0 0⟩ := by
    refine ⟨Option.some.inj hrun ▸ rfl, hinv.tree.stored, hinv.tree.rooted, hinv.numbered, hinv.linked, hinv.headed,
      hinv.main.head, fun b p hb hp => ?_⟩
    have hash := hkeys b hb
    obtain rfl := Option.some.inj hrun
    simp only [mem_cons, not_mem_nil, or_false] at hash
    rcases hash with hash | hash | hash | hash | hash
    all_goals
      rw [Stored, hash] at hb
      obtain rfl := Option.some.inj hb
    case inr.inr.inr.inr => cases hp
    all_goals
      obtain rfl := Option.some.inj hp
      decide
  obtain ⟨b, hbest, hb⟩ := (best_for_checkpoint_iff hgraded (numberHeader 2 2 5)).mpr
    ⟨hkept _ _ hgraded.head, .inr ⟨fun hval => absurd (hlow _ hgraded.head hval) (Option.some.inj hrun ▸ by decide),
      by decide, fun top htop _ _ => hkept _ top htop, fun x hx hval => ⟨x, hx, hlow x hx hval, .refl x⟩⟩⟩
  obtain rfl := Option.some.inj hrun
  obtain rfl := Except.ok.inj hbest
  exact ⟨_, rfl, rfl, rfl, rfl, hb⟩

/-- The checkpoint is stored, and better than the genesis block, which is returned as the head is next to it. -/
theorem checkpoint_not_returned : ∃ s : ChainState Nat Nat Nat Nat Empty,
    run (step numberHashes) (some numberChain) [storeNumber 1 0 1, .setHead 1, storeNumber 1 0 2] = some s ∧
      bestKnownHeadForCheckpoint numberHashes s (numberHeader 1 0 2) = .ok ⟨0, genesisHeader numberHashes 0 0 0⟩ ∧
      Stored s ⟨2, numberHeader 1 0 2⟩ ∧ ValidFor numberHashes s (numberHeader 1 0 2) ⟨2, numberHeader 1 0 2⟩ ∧
      Fitness.compare (genesisHeader numberHashes 0 0 0).shell.fitness (numberHeader 1 0 2).shell.fitness = .lt :=
  ⟨_, rfl, rfl, rfl, .inr ⟨_, .refl _, rfl, rfl⟩, by decide⟩

end Tezos.Chain
