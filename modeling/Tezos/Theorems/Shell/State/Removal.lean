import Tezos.Theorems.Shell.State.Predecessors

/-! The removal of blocks: the branches that a checkpoint makes invalid are tagged above its level, and cut below it. -/

namespace Tezos.State
open Lib List Function
variable {B O L C ε : Type} [DecidableEq B] {H : Hashes B O L C} {s s' s'' : ChainState B O L C ε}
  {g a b c x y z : Block B L C} {gone gone' : B → Prop} {hash : B} {heads : List (B × BlockHeader B L C)}

def Block.level (b : Block B L C) : Int := b.header.shell.level.toInt

/-- The level of a block is its distance from the genesis block, and its hash is that of its header, unless it is the
    genesis block. -/
structure Numbered (H : Hashes B O L C) (s : ChainState B O L C ε) (g : Block B L C) : Prop where
  zero : g.level = 0
  next : ∀ b p, Stored s b → predecessor s b = some p → b.level = p.level + 1
  hashes : ∀ b, Stored s b → b ≠ g → H.blockHeader b.header = b.hash

namespace Numbered

variable (h : Numbered H s g)
include h

theorem up (hb : Stored s b) {n : Nat} (hn : up (predecessor s) n b = some x) : b.level = x.level + n := by
  induction n generalizing b with
  | zero =>
    obtain rfl := Option.some.inj hn
    exact (add_zero _).symm
  | succ n ih =>
    obtain ⟨p, hp, hn⟩ := Option.bind_eq_some_iff.mp hn
    rw [h.next b p hb hp, ih (stored_of_predecessor hp) hn, add_assoc]
    rfl

theorem level_nonneg (hroot : ∀ b, Stored s b → Precedes s g b) (hb : Stored s b) : 0 ≤ b.level := by
  obtain ⟨n, hn⟩ := hroot b hb
  rw [h.up hb hn, h.zero, zero_add]
  exact Int.natCast_nonneg n

theorem level_le (hb : Stored s b) (ha : Precedes s a b) : a.level ≤ b.level := by
  obtain ⟨n, hn⟩ := ha
  rw [h.up hb hn]
  exact Int.le_add_of_nonneg_right (Int.natCast_nonneg n)

theorem eq_of_level (hb : Stored s b) (ha : Precedes s a b) (hle : b.level ≤ a.level) : a = b := by
  obtain ⟨n, hn⟩ := ha
  rw [h.up hb hn] at hle
  obtain rfl : n = 0 := by omega
  exact (Option.some.inj hn).symm

section
variable (hb : Stored s b) (hx : Precedes s x b) (hy : Precedes s y b)
include hb hx hy

theorem ancestor_of_level_le (hle : x.level ≤ y.level) : Precedes s x y := by
  rcases hx.comparable hy with hxy | hyx
  · exact hxy
  · rw [h.eq_of_level (stored_of_ancestor hb hx) hyx hle]
    exact .refl _

theorem eq_base (hlvl : x.level = y.level) : x = y :=
  h.eq_of_level (stored_of_ancestor hb hy) (h.ancestor_of_level_le hb hx hy (le_of_eq hlvl))
    (le_of_eq hlvl.symm)

end

theorem exists_base (hroot : ∀ b, Stored s b → Precedes s g b) (hb : Stored s b) {l : Int} (hl : 0 ≤ l)
    (hle : l ≤ b.level) : ∃ n z, Lib.up (predecessor s) n b = some z ∧ z.level = l ∧ (n : Int) = b.level - l := by
  obtain ⟨d, hd⟩ := hroot b hb
  have hlvl := h.up hb hd
  rw [h.zero] at hlvl
  have hn : ((b.level - l).toNat : Int) = b.level - l := Int.toNat_of_nonneg (Int.sub_nonneg.mpr hle)
  rcases hup : Lib.up (predecessor s) (b.level - l).toNat b with _ | z
  · have hnone := up_none_of_le hup (n := d) (by omega)
    rw [hd] at hnone
    cases hnone
  · have hz := h.up hb hup
    exact ⟨_, z, hup, by omega, hn⟩

omit h

theorem addBlock [DecidableEq L] {header : BlockHeader B L C} {operations : List (List (Operation B))}
    {nb : Block B L C} (hnum : Numbered H s g) (htree : Tree s g) (h : NewBlock H s header operations nb)
    (hhdr : nb.header = header)
    (hlvl : ∀ p, Stored s p → p.hash = nb.header.shell.predecessor → nb.level = p.level + 1) (ttl : Int) :
    Numbered H (State.addBlock H s nb ttl operations) g := by
  subst hhdr
  obtain ⟨⟨p, hp, hpred⟩, hsame⟩ := h.predecessors htree ttl
  refine ⟨hnum.zero, fun b q hb hq => ?_, fun b hb hne => ?_⟩
  · rcases (stored_addBlock htree.unpruned h.fresh).mp hb with rfl | hb
    · obtain rfl := Option.some.inj (hpred.symm.trans hq)
      exact hlvl p hp (hash_of_predecessor hpred)
    · rw [hsame b hb] at hq
      exact hnum.next b q hb hq
  · rcases (stored_addBlock htree.unpruned h.fresh).mp hb with rfl | hb
    · exact h.hash.symm
    · exact hnum.hashes b hb hne

end Numbered

/-! ### What is removed -/

/-- A state without the blocks of some hashes. -/
structure Removed (s s' : ChainState B O L C ε) (gone : B → Prop) : Prop where
  unpruned : s'.prunedContents = ∅
  genesis : s'.genesis = s.genesis
  head : s'.currentHead = s.currentHead
  inMainBranch : s'.inMainBranch = s.inMainBranch
  contents : ∀ hash, gone hash → s'.contents.lookup hash = none
  predecessors : ∀ hash, gone hash → ∀ d, s'.predecessors hash d = none
  kept : ∀ hash, ¬gone hash → s'.contents.lookup hash = s.contents.lookup hash ∧
    s'.predecessors hash = s.predecessors hash ∧ s'.operationHashes hash = s.operationHashes hash

namespace Removed
variable (h : Removed s s' gone)
include h

theorem congr (hiff : ∀ hash, gone hash ↔ gone' hash) : Removed s s' gone' := by
  obtain rfl : gone = gone' := funext fun hash => propext (hiff hash)
  exact h

theorem readOpt_of_gone (hgone : gone hash) : readOpt s' hash = none := by
  rw [readOpt_unpruned h.unpruned, h.contents hash hgone]
  rfl

theorem readOpt_of_not (hs : s.prunedContents = ∅) (hgone : ¬gone hash) : readOpt s' hash = readOpt s hash := by
  rw [readOpt_unpruned h.unpruned, readOpt_unpruned hs, (h.kept hash hgone).1]

theorem stored_iff (hs : s.prunedContents = ∅) : Stored s' b ↔ Stored s b ∧ ¬gone b.hash := by
  constructor
  · intro hb
    have hgone : ¬gone b.hash := by
      intro hgone
      rw [Stored, h.readOpt_of_gone hgone] at hb
      cases hb
    refine ⟨?_, hgone⟩
    rwa [Stored, ← h.readOpt_of_not hs hgone]
  · rintro ⟨hb, hgone⟩
    rwa [Stored, h.readOpt_of_not hs hgone]

theorem erase (hunp : s''.prunedContents = ∅) (hgen : s''.genesis = s'.genesis)
    (hhead : s''.currentHead = s'.currentHead) (hmain : s''.inMainBranch = s'.inMainBranch)
    (hcont : s''.contents = s'.contents.erase hash)
    (hprd : s''.predecessors = update s'.predecessors hash fun _ => none)
    (hops : s''.operationHashes = update s'.operationHashes hash fun _ => none) :
    Removed s s'' fun h => gone h ∨ h = hash := by
  refine ⟨hunp, hgen.trans h.genesis, hhead.trans h.head, hmain.trans h.inMainBranch, ?_, ?_, ?_⟩
  · intro hash' hgone
    rw [hcont]
    by_cases heq : hash' = hash
    · rw [heq, AList.lookup_erase]
    · rw [AList.lookup_erase_ne heq]
      exact h.contents hash' (hgone.resolve_right heq)
  · intro hash' hgone d
    rw [hprd]
    by_cases heq : hash' = hash
    · rw [heq, update_self]
    · rw [update_of_ne heq]
      exact h.predecessors hash' (hgone.resolve_right heq) d
  · intro hash' hgone
    obtain ⟨hnot, hne⟩ := not_or.mp hgone
    obtain ⟨hc, hp, ho⟩ := h.kept hash' hnot
    rw [hcont, hprd, hops, AList.lookup_erase_ne hne, update_of_ne hne,
      update_of_ne hne]
    exact ⟨hc, hp, ho⟩

theorem tagInvalid (hash : B) (header : BlockHeader B L C) :
    Removed s (State.tagInvalid s' hash header) fun h => gone h ∨ h = hash :=
  h.erase h.unpruned rfl rfl rfl rfl rfl rfl

theorem deleteBlock (hash : B) : Removed s (State.deleteBlock s' hash) fun h => gone h ∨ h = hash := by
  refine h.erase ?_ rfl rfl rfl rfl rfl rfl
  have hers : (State.deleteBlock s' hash).prunedContents = s'.prunedContents.erase hash := rfl
  rw [hers, h.unpruned]
  rfl

theorem knownHeads (heads : List B) : Removed s { s' with knownHeads := heads } gone :=
  ⟨h.unpruned, h.genesis, h.head, h.inMainBranch, h.contents, h.predecessors, h.kept⟩

omit h in
theorem start (hs : s.prunedContents = ∅) (f : B → Option (InvalidBlock B C ε)) :
    Removed s { s with invalidBlock := f } fun _ => False :=
  ⟨hs, rfl, rfl, rfl, fun _ h => h.elim, fun _ h => h.elim, fun _ _ => ⟨rfl, rfl, rfl⟩⟩

theorem finish (checkpoint : BlockHeader B L C) : Removed s { s' with checkpoint := checkpoint } gone :=
  ⟨h.unpruned, h.genesis, h.head, h.inMainBranch, h.contents, h.predecessors, h.kept⟩

theorem readHeader (hs : s.prunedContents = ∅) (hp : predecessor s y = some x) :
    headerReadOpt s' y.header.shell.predecessor = none ∧ gone x.hash ∨
      headerReadOpt s' y.header.shell.predecessor = some x.header ∧ ¬gone x.hash := by
  have hx : Stored s x := stored_of_predecessor hp
  rw [← hash_of_predecessor hp]
  by_cases hgone : gone x.hash
  · refine .inl ⟨?_, hgone⟩
    rw [headerReadOpt_unpruned h.unpruned, h.contents _ hgone]
    rfl
  · obtain ⟨contents, hcont, hhdr⟩ := hx.contents hs
    refine .inr ⟨?_, hgone⟩
    rw [headerReadOpt_unpruned h.unpruned, (h.kept _ hgone).1, hcont]
    exact congrArg some hhdr

omit h

/-! What is left is a tree when the ancestors of a block are left with it. -/

section
variable (h : Removed s s' gone) (htree : Tree s g)
  (hcl : ∀ b p, Stored s b → ¬gone b.hash → predecessor s b = some p → ¬gone p.hash)

include h htree hcl

theorem stored_predecessor (hb : Stored s' b) (hp : predecessor s b = some a) : Stored s' a := by
  obtain ⟨hb, hgone⟩ := (h.stored_iff htree.unpruned).mp hb
  exact (h.stored_iff htree.unpruned).mpr ⟨stored_of_predecessor hp, hcl b a hb hgone hp⟩

theorem predecessor_eq (hb : Stored s' b) : predecessor s' b = predecessor s b :=
  htree.predecessor_eq ((h.stored_iff htree.unpruned).mp hb).1 fun _ hp => h.stored_predecessor htree hcl hb hp

theorem up_eq (n : Nat) (hb : Stored s' b) : up (predecessor s') n b = up (predecessor s) n b :=
  up_congr (S := Stored s') (fun _ _ hx hp => h.stored_predecessor htree hcl hx hp)
    (fun _ hx => h.predecessor_eq htree hcl hx) n hb

theorem ancestor_iff (hb : Stored s' b) : Precedes s' a b ↔ Precedes s a b :=
  exists_congr fun n => by rw [h.up_eq htree hcl n hb]

theorem stored_of_ancestor (hb : Stored s' b) (ha : Precedes s a b) : Stored s' a := by
  rw [← h.ancestor_iff htree hcl hb] at ha
  exact State.stored_of_ancestor hb ha

theorem tree (hb : Stored s' b) : Tree s' g := by
  have hiff (b : Block B L C) : Stored s' b ↔ Stored s b ∧ ¬gone b.hash := h.stored_iff htree.unpruned
  have hg : Stored s' g := h.stored_of_ancestor htree hcl hb (htree.rooted b ((hiff b).mp hb).1)
  refine ⟨h.unpruned, htree.genesis.trans h.genesis.symm, hg, htree.self, fun b hb => ?_, fun b p hb hp => ?_,
    fun b hb i hi => ?_⟩
  · exact (h.ancestor_iff htree hcl hb).mpr (htree.rooted b ((hiff b).mp hb).1)
  · rw [h.predecessor_eq htree hcl hb] at hp
    exact htree.timestamps b p ((hiff b).mp hb).1 hp
  · obtain ⟨hb, hgone⟩ := (hiff b).mp hb
    rw [(h.kept b.hash hgone).2.2]
    exact htree.operations b hb i hi

theorem numbered (hnum : Numbered H s g) : Numbered H s' g := by
  have hsto (b : Block B L C) (hb : Stored s' b) : Stored s b := ((h.stored_iff htree.unpruned).mp hb).1
  refine ⟨hnum.zero, fun b p hb hp => ?_, fun b hb => hnum.hashes b (hsto b hb)⟩
  rw [h.predecessor_eq htree hcl hb] at hp
  exact hnum.next b p (hsto b hb) hp

theorem linked (hlin : Linked s) : Linked s' := by
  refine ⟨fun b hb d hd => ?_, fun hash hnone d => ?_⟩
  · obtain ⟨hsto, hgone⟩ := (h.stored_iff htree.unpruned).mp hb
    rw [(h.kept b.hash hgone).2.1, hlin.entry b hsto d hd, ancestorHash, ancestorHash, h.up_eq htree hcl _ hb]
  · by_cases hgone : gone hash
    · exact h.predecessors hash hgone d
    · rw [h.readOpt_of_not htree.unpruned hgone] at hnone
      rw [(h.kept hash hgone).2.1, hlin.absent hash hnone]

end

end Removed

def Branch (s : ChainState B O L C ε) (P : Block B L C → Prop) (y : Block B L C) (hash : B) : Prop :=
  ∃ a, Ancestor (predecessor s) a y ∧ P a ∧ a.hash = hash

/-- The hashes of the ancestors of the heads of a list that have a property. -/
def Branches (s : ChainState B O L C ε) (P : Block B L C → Prop) (heads : List (B × BlockHeader B L C)) (hash : B) :
    Prop :=
  ∃ y, (y.hash, y.header) ∈ heads ∧ Branch s P y hash

section
variable {P : Block B L C → Prop}

theorem branch_step (hp : predecessor s y = some x) (hy : P y) :
    Branch s P y hash ↔ hash = y.hash ∨ Branch s P x hash := by
  constructor
  · rintro ⟨a, ha, hl, rfl⟩
    rcases ancestor_cases ha with rfl | ⟨p, hp', ha⟩
    · exact .inl rfl
    · rw [Option.some.inj (hp'.symm.trans hp)] at ha
      exact .inr ⟨a, ha, hl, rfl⟩
  · rintro (rfl | ⟨a, ha, hl, rfl⟩)
    · exact ⟨y, .refl y, hy, rfl⟩
    · exact ⟨a, ha.trans (ancestor_parent hp), hl, rfl⟩

theorem not_branch (h : ∀ a, Precedes s a y → ¬P a) : ¬Branch s P y hash := by
  rintro ⟨a, ha, hP, -⟩
  exact h a ha hP

theorem ancestor_of_branch (hx : Stored s x) (hy : Stored s y) (h : Branch s P y x.hash) :
    Precedes s x y := by
  obtain ⟨a, ha, -, hash⟩ := h
  rwa [← (stored_of_ancestor hy ha).eq hx hash]

theorem branch_closed (hx : Stored s x) (hy : Stored s y) (h : Branch s P y x.hash) (ha : Precedes s a x)
    (hP : P a) : Branch s P y a.hash :=
  ⟨a, ha.trans (ancestor_of_branch hx hy h), hP, rfl⟩

/-- With a block that is gone below `y`, the ancestors of it that have the property are gone. -/
def ClosedBelow (s : ChainState B O L C ε) (P : Block B L C → Prop) (gone : B → Prop) (y : Block B L C) : Prop :=
  ∀ x a, Ancestor (predecessor s) x y → x ≠ y → gone x.hash → Ancestor (predecessor s) a x → P a → gone a.hash

section
variable (htree : Tree s g) (hy : Stored s y) (hp : predecessor s y = some x)

include htree hy hp

theorem gone_before (ha : Precedes s a x) (hgone : gone a.hash ∨ a.hash = y.hash) :
    a ≠ y ∧ gone a.hash := by
  have hay : a ≠ y := by
    rintro rfl
    exact not_ancestor_parent htree.root (htree.rooted a hy) hp ha
  have has := stored_of_ancestor (stored_of_predecessor hp) ha
  exact ⟨hay, hgone.resolve_right fun hash => hay (has.eq hy hash)⟩

theorem ClosedBelow.step (h : ClosedBelow s P gone y) : ClosedBelow s P (fun hash => gone hash ∨ hash = y.hash) x := by
  intro z a hz _ hgone ha hP
  obtain ⟨hzy, hgone⟩ := gone_before htree hy hp hz hgone
  exact .inl (h z a (hz.trans (ancestor_parent hp)) hzy hgone ha hP)

theorem ClosedBelow.branch_iff (h : ClosedBelow s P gone y) (hP : P y) (hgone : gone x.hash) :
    (gone hash ∨ hash = y.hash) ↔ gone hash ∨ Branch s P y hash := by
  have hxy := (gone_before htree hy hp (.refl x) (.inl hgone)).1
  rw [branch_step hp hP, ← or_assoc]
  refine (or_iff_left_of_imp ?_).symm
  rintro ⟨a, ha, hPa, rfl⟩
  exact .inl (h x a (ancestor_parent hp) hxy hgone ha hPa)

end

theorem not_branches_nil : ¬Branches s P [] hash := by
  rintro ⟨y, hy, -⟩
  cases hy

theorem branches_cons :
    Branches s P ((y.hash, y.header) :: heads) hash ↔ Branch s P y hash ∨ Branches s P heads hash := by
  constructor
  · rintro ⟨y', hmem, hbr⟩
    rcases mem_cons.mp hmem with heq | hmem
    · obtain rfl := Block.eq_of_pair_eq heq
      exact .inl hbr
    · exact .inr ⟨y', hmem, hbr⟩
  · rintro (hbr | ⟨y', hmem, hbr⟩)
    · exact ⟨y, mem_cons_self, hbr⟩
    · exact ⟨y', mem_cons_of_mem _ hmem, hbr⟩

end

/-! ### Above the level -/

theorem foldl_removeKnownHead (s' : ChainState B O L C ε) (heads : List (B × BlockHeader B L C)) :
    ∃ known, heads.foldl (fun s head => removeKnownHead s head.1) s' = { s' with knownHeads := known } ∧
      ∀ hash, hash ∈ known ↔ hash ∈ s'.knownHeads ∧ ∀ o ∈ heads, o.1 ≠ hash := by
  induction heads generalizing s' with
  | nil => exact ⟨s'.knownHeads, rfl, fun hash => by simp⟩
  | cons head heads ih =>
    obtain ⟨known, heq, hkn⟩ := ih (removeKnownHead s' head.1)
    refine ⟨known, heq, fun hash => ?_⟩
    rw [hkn, removeKnownHead, mem_filter, forall_mem_cons, and_assoc, decide_eq_true_eq, ne_comm]

def Above (l : Int) (b : Block B L C) : Prop := l < b.level

section
variable {fuel n : Nat} (htree : Tree s g) (hnum : Numbered H s g)
include htree hnum

section
variable {level : Int32} (hlvl : 0 < level.toInt)
include hlvl

/-- A walk from a block down to its ancestor `z` at the level. It ends early at a block that is gone. -/
theorem tagInvalidHead_spec (h : Removed s s' gone) (hy : Stored s y) (hn : up (predecessor s) n y = some z)
    (hz : z.level = level.toInt) (hfuel : n < fuel) (hcl : ClosedBelow s (Above level.toInt) gone y) :
    ∃ s'' outdated, tagInvalidHead H level fuel s' (y.hash, y.header) = .ok (s'', outdated) ∧
      Removed s s'' (fun hash => gone hash ∨ Branch s (Above level.toInt) y hash) ∧
      (outdated = some (z.hash, z.header) ∧ s''.knownHeads = s'.knownHeads.insert z.hash ∨
        outdated = none ∧ s''.knownHeads = s'.knownHeads ∧
          ∃ x, Precedes s x y ∧ x ≠ y ∧ gone x.hash ∧ Precedes s z x) := by
  -- by induction on the distance to the level; the blocks of the walk are gone behind it
  induction n generalizing fuel y s' gone with
  | zero =>
    obtain rfl := Option.some.inj hn
    obtain ⟨fuel, rfl⟩ := Nat.exists_eq_add_of_lt hfuel
    have hle : y.header.shell.level ≤ level := Int32.le_iff_toInt_le.mpr (le_of_eq hz)
    refine ⟨_, _, if_pos hle, ?_, .inl ⟨rfl, rfl⟩⟩
    refine (h.knownHeads _).congr fun hash => (or_iff_left ?_).symm
    refine not_branch fun a ha hlt => absurd (lt_of_lt_of_le hlt (hnum.level_le hy ha)) (not_lt.mpr ?_)
    exact le_of_eq hz
  | succ n ih =>
    obtain ⟨fuel, rfl⟩ := Nat.exists_eq_add_of_lt hfuel
    have hylev := hnum.up hy hn
    obtain ⟨p, hp, hn⟩ := Option.bind_eq_some_iff.mp hn
    have hps := stored_of_predecessor hp
    have hplev := hnum.up hps hn
    have hlt : Above level.toInt y := by
      rw [Above]
      omega
    have hnle : ¬y.header.shell.level ≤ level := fun hle => not_le.mpr hlt (Int32.le_iff_toInt_le.mp hle)
    rw [tagInvalidHead, if_neg hnle]
    have h1 := h.tagInvalid y.hash y.header
    rcases h1.readHeader htree.unpruned hp with ⟨hread, hgone⟩ | ⟨hread, hkept⟩
    · obtain ⟨hpy, hgone⟩ := gone_before htree hy hp (.refl p) hgone
      simp only [hread]
      refine ⟨_, _, rfl, h1.congr fun hash => hcl.branch_iff htree hy hp hlt hgone, .inr ⟨rfl, rfl, p, ?_⟩⟩
      exact ⟨ancestor_parent hp, hpy, hgone, n, hn⟩
    · have hpg : p ≠ g := by
        rintro rfl
        rw [hnum.zero] at hplev
        omega
      simp only [hread]
      rw [hnum.hashes p hps hpg]
      obtain ⟨s'', outdated, heq, hrem, hout⟩ := ih h1 hps hn (Nat.lt_of_succ_lt_succ hfuel) (hcl.step htree hy hp)
      refine ⟨s'', outdated, heq, hrem.congr fun hash => ?_, hout.imp id ?_⟩
      · rw [branch_step hp hlt, or_assoc]
      · rintro ⟨rfl, hhds, x, hxp, -, hx, hzx⟩
        obtain ⟨hxy, hx⟩ := gone_before htree hy hp hxp hx
        exact ⟨rfl, hhds, x, hxp.trans (ancestor_parent hp), hxy, hx, hzx⟩

/-- The heads are tagged one after the other: the blocks at the level that are left as heads are those below the heads
    in the list. -/
theorem tagEach_spec (hfuel : blockCount s < fuel)
    (hhds : ∀ y : Block B L C, (y.hash, y.header) ∈ heads → Stored s y ∧ level.toInt ≤ y.level)
    (h : Removed s s' gone)
    (hcl : ∀ x a, Stored s x → gone x.hash → Precedes s a x → level.toInt < a.level → gone a.hash) :
    ∃ s'' outdated, tagEach H level fuel s' heads = .ok (s'', outdated) ∧
      Removed s s'' (fun hash => gone hash ∨ Branches s (Above level.toInt) heads hash) ∧
      (∀ hash, hash ∈ s''.knownHeads ↔ hash ∈ s'.knownHeads ∨ ∃ z ∈ outdated, z.1 = hash) ∧
      (∀ y z : Block B L C, (y.hash, y.header) ∈ heads → Precedes s z y → z.level = level.toInt →
        (z.hash, z.header) ∈ outdated ∨ ∃ x, Stored s x ∧ gone x.hash ∧ Precedes s z x) ∧
      ∀ o ∈ outdated, ∃ y z : Block B L C, (y.hash, y.header) ∈ heads ∧ Precedes s z y ∧
        z.level = level.toInt ∧ o = (z.hash, z.header) := by
  induction heads generalizing s' gone with
  | nil =>
    refine ⟨s', [], rfl, h.congr fun hash => (or_iff_left ?_).symm, fun hash => ?_, ?_, ?_⟩
    · exact not_branches_nil
    · simp
    · intro y z hy
      cases hy
    · intro o ho
      cases ho
  | cons head heads ih =>
    obtain ⟨y, rfl⟩ : ∃ y : Block B L C, head = (y.hash, y.header) := ⟨⟨head.1, head.2⟩, rfl⟩
    obtain ⟨hy, hle⟩ := hhds y mem_cons_self
    obtain ⟨n, z, hn, hz, -⟩ := hnum.exists_base htree.rooted hy (le_of_lt hlvl) hle
    have hzy : Precedes s z y := ⟨n, hn⟩
    obtain ⟨s1, first, htag, h1, hfst⟩ := tagInvalidHead_spec htree hnum hlvl h hy hn hz
      (Nat.lt_trans (htree.up_lt_blockCount hy hn) hfuel)
      fun x a hx _ => hcl x a (stored_of_ancestor hy hx)
    obtain ⟨s2, rest, hrest, h2, hkn, hbase, hout⟩ := ih (fun y' hy' => hhds y' (mem_cons_of_mem _ hy')) h1
      fun x a hx hgone ha hl => hgone.imp (fun hgone => hcl x a hx hgone ha hl)
        fun hgone => ⟨a, ha.trans (ancestor_of_branch hx hy hgone), hl, rfl⟩
    -- the block at the level below the first head is left as a head, by this walk or by an earlier one
    have hleft (z' : Block B L C) (hz' : Precedes s z' y) (hl : z'.level = level.toInt) :
        (z'.hash, z'.header) ∈ first.toList ++ rest ∨
          ∃ x, Stored s x ∧ gone x.hash ∧ Precedes s z' x := by
      obtain rfl := hnum.eq_base hy hz' hzy (hl.trans hz.symm)
      rcases hfst with ⟨rfl, -⟩ | ⟨-, -, x, hx, -, hgone, hzx⟩
      · exact .inl mem_cons_self
      · exact .inr ⟨x, stored_of_ancestor hy hx, hgone, hzx⟩
    refine ⟨s2, first.toList ++ rest, ?_, h2.congr fun hash => ?_, fun hash => ?_, fun y' z' hy' hz' hl => ?_,
      fun o ho => ?_⟩
    · simp only [tagEach, htag, hrest, bind, Except.bind]
    · rw [branches_cons, or_assoc]
    · rw [hkn]
      rcases hfst with ⟨rfl, heq⟩ | ⟨rfl, heq, -⟩
      · rw [heq, mem_insert_iff, Option.toList_some, singleton_append, exists_mem_cons_iff]
        rw [or_comm (a := hash = z.hash), or_assoc, eq_comm (a := hash)]
      · rw [heq]
        rfl
    · rcases mem_cons.mp hy' with heq | hy'
      · obtain rfl := Block.eq_of_pair_eq heq
        exact hleft z' hz' hl
      · rcases hbase y' z' hy' hz' hl with hmem | ⟨x, hx, hgone | hgone, hzx⟩
        · exact .inl (mem_append_right _ hmem)
        · exact .inr ⟨x, hx, hgone, hzx⟩
        · exact hleft z' (hzx.trans (ancestor_of_branch hx hy hgone)) hl
    · rcases mem_append.mp ho with ho | ho
      · rcases hfst with ⟨rfl, -⟩ | ⟨rfl, -⟩
        · exact ⟨y, z, mem_cons_self, hzy, hz, mem_singleton.mp ho⟩
        · cases ho
      · obtain ⟨y', z', hy', hrest⟩ := hout o ho
        exact ⟨y', z', mem_cons_of_mem _ hy', hrest⟩

theorem tagInvalidHeads_spec (hfuel : blockCount s < fuel)
    (hhds : ∀ y : Block B L C, (y.hash, y.header) ∈ heads → Stored s y ∧ level.toInt ≤ y.level)
    (h : Removed s s' fun _ => False) :
    ∃ s'' outdated, tagInvalidHeads H s' fuel heads level = .ok (s'', outdated) ∧
      Removed s s'' (Branches s (Above level.toInt) heads) ∧
      (∀ hash, hash ∈ s''.knownHeads ↔
        (hash ∈ s'.knownHeads ∧ ∀ o ∈ heads, o.1 ≠ hash) ∨ ∃ z ∈ outdated, z.1 = hash) ∧
      (∀ y z : Block B L C, (y.hash, y.header) ∈ heads → Precedes s z y → z.level = level.toInt →
        (z.hash, z.header) ∈ outdated) ∧
      ∀ o ∈ outdated, ∃ y z : Block B L C, (y.hash, y.header) ∈ heads ∧ Precedes s z y ∧
        z.level = level.toInt ∧ o = (z.hash, z.header) := by
  obtain ⟨known, hremove, hkn⟩ := foldl_removeKnownHead s' heads
  obtain ⟨s'', outdated, htag, h', hhds', hbase, hout⟩ := tagEach_spec htree hnum hlvl hfuel hhds
    (h.knownHeads known) fun _ _ _ hgone => hgone.elim
  refine ⟨s'', outdated, ?_, h'.congr fun hash => by rw [false_or], fun hash => ?_, fun y z hy hz hl => ?_, hout⟩
  · rw [tagInvalidHeads, hremove, htag]
  · rw [hhds', hkn]
  · rcases hbase y z hy hz hl with hmem | ⟨x, -, hgone, -⟩
    · exact hmem
    · exact hgone.elim

end

def Off (s : ChainState B O L C ε) (c b : Block B L C) : Prop := ¬Ancestor (predecessor s) b c

/-- A walk from a block down to the line of `c`. It ends early at a block that is gone, and it has no end when it gets
    to the genesis block, whose hash is not that of its header. -/
theorem cutAlternateHead_spec (hc : Stored s c) (h : Removed s s' gone)
    (hy : Stored s y) (hn : up (predecessor s) n y = some g) (hfuel : n < fuel)
    (hidx : ∀ x, Precedes s x y → ((s.inMainBranch x.hash).isSome ↔ Precedes s x c))
    (hfork : ∀ x, Precedes s x y → predecessor s x = some g → Precedes s x c)
    (hcl : ClosedBelow s (Off s c) gone y) :
    ∃ s'', cutAlternateHead H fuel s' y.hash y.header = .ok s'' ∧
      Removed s s'' (fun hash => gone hash ∨ Branch s (Off s c) y hash) ∧ s''.knownHeads = s'.knownHeads := by
  induction n generalizing fuel y s' gone with
  | zero =>
    obtain rfl := Option.some.inj hn
    obtain ⟨fuel, rfl⟩ := Nat.exists_eq_add_of_lt hfuel
    have hyc := htree.rooted c hc
    refine ⟨s', if_pos (h.inMainBranch ▸ (hidx y (.refl y)).mpr hyc), h.congr fun hash => (or_iff_left ?_).symm, rfl⟩
    exact not_branch fun a ha hoff => hoff (ha.trans hyc)
  | succ n ih =>
    obtain ⟨fuel, rfl⟩ := Nat.exists_eq_add_of_lt hfuel
    by_cases hyc : Precedes s y c
    · refine ⟨s', if_pos (h.inMainBranch ▸ (hidx y (.refl y)).mpr hyc), h.congr fun hash => (or_iff_left ?_).symm,
        rfl⟩
      exact not_branch fun a ha hoff => hoff (ha.trans hyc)
    obtain ⟨p, hp, hn⟩ := Option.bind_eq_some_iff.mp hn
    have hps := stored_of_predecessor hp
    have hnone : ¬(s'.inMainBranch y.hash).isSome := by
      rw [h.inMainBranch]
      exact fun hsome => hyc ((hidx y (.refl y)).mp hsome)
    rw [cutAlternateHead, if_neg hnone]
    rcases h.readHeader htree.unpruned hp with ⟨hread, hgone⟩ | ⟨hread, hkept⟩
    · simp only [hread]
      exact ⟨_, rfl, (h.deleteBlock y.hash).congr fun hash => hcl.branch_iff htree hy hp hyc hgone, rfl⟩
    · have hpg : p ≠ g := by
        rintro rfl
        exact hyc (hfork y (.refl y) hp)
      simp only [hread]
      rw [hnum.hashes p hps hpg]
      obtain ⟨s'', heq, hrem, hhds⟩ := ih (h.deleteBlock y.hash) hps hn (Nat.lt_of_succ_lt_succ hfuel)
        (fun x hx => hidx x (hx.trans (ancestor_parent hp))) (fun x hx => hfork x (hx.trans (ancestor_parent hp)))
        (hcl.step htree hy hp)
      refine ⟨s'', heq, hrem.congr fun hash => ?_, hhds⟩
      rw [branch_step hp hyc, or_assoc]

/-- The walk from a block finds the line of `c` in the index of the main branch, and no branch forks from the genesis
    block. -/
structure Cuttable (s : ChainState B O L C ε) (g c : Block B L C) (gone : B → Prop) (y : Block B L C) : Prop where
  stored : Stored s y
  index : ∀ x, Ancestor (predecessor s) x y → ((s.inMainBranch x.hash).isSome ↔ Ancestor (predecessor s) x c)
  fork : ∀ x, Ancestor (predecessor s) x y → predecessor s x = some g → Ancestor (predecessor s) x c
  closed : ∀ x a, Ancestor (predecessor s) x y → gone x.hash → Ancestor (predecessor s) a x → Off s c a →
    gone a.hash

omit htree hnum in
theorem Cuttable.or (h : Cuttable s g c gone y) {more : B → Prop}
    (hmore : ∀ x a, Stored s x → more x.hash → Precedes s a x → Off s c a → more a.hash) :
    Cuttable s g c (fun hash => gone hash ∨ more hash) y := by
  refine ⟨h.stored, h.index, h.fork, fun x a hx hgone ha hoff => ?_⟩
  rcases hgone with hgone | hgone
  · exact .inl (h.closed x a hx hgone ha hoff)
  · exact .inr (hmore x a (stored_of_ancestor h.stored hx) hgone ha hoff)

theorem cutAlternateHeads_spec (hc : Stored s c) (hfuel : blockCount s < fuel)
    (hhds : ∀ y : Block B L C, (y.hash, y.header) ∈ heads → Cuttable s g c gone y) (h : Removed s s' gone) :
    ∃ s'', cutAlternateHeads H s' fuel heads = .ok s'' ∧
      Removed s s'' (fun hash => gone hash ∨ Branches s (Off s c) heads hash) ∧
      ∀ hash, hash ∈ s''.knownHeads ↔ hash ∈ s'.knownHeads ∧ ∀ o ∈ heads, o.1 ≠ hash := by
  induction heads generalizing s' gone with
  | nil =>
    refine ⟨s', rfl, h.congr fun hash => (or_iff_left not_branches_nil).symm, fun hash => ?_⟩
    simp
  | cons head heads ih =>
    obtain ⟨y, rfl⟩ : ∃ y : Block B L C, head = (y.hash, y.header) := ⟨⟨head.1, head.2⟩, rfl⟩
    have hy := hhds y mem_cons_self
    obtain ⟨n, hn⟩ := htree.rooted y hy.stored
    obtain ⟨s1, hcut, h1, hkn1⟩ := cutAlternateHead_spec htree hnum hc
      (h.knownHeads (s'.knownHeads.filter (· ≠ y.hash))) hy.stored hn
      (Nat.lt_trans (htree.up_lt_blockCount hy.stored hn) hfuel) hy.index hy.fork
      fun x a hx _ => hy.closed x a hx
    obtain ⟨s2, hrest, h2, hkn2⟩ := ih
      (fun y' hy' => (hhds y' (mem_cons_of_mem _ hy')).or fun x a hx => branch_closed hx hy.stored) h1
    refine ⟨s2, ?_, h2.congr fun hash => ?_, fun hash => ?_⟩
    · rw [cutAlternateHeads, foldlM_cons]
      exact (congrArg (Except.bind · _) hcut).trans hrest
    · rw [branches_cons, or_assoc]
    · rw [hkn2, hkn1, mem_filter, forall_mem_cons, and_assoc, decide_eq_true_eq, ne_comm]

end

end Tezos.State
