import Tezos.Theorems.Shell.Chain.MainBranch
import Tezos.Theorems.Shell.State.Removal

/-! The checkpoint is enforced, as long as the blocks at its level are those it names when it is set ahead of the head. -/

namespace Tezos.Chain
open Lib State ChainTraversal List
variable {B O L C ε : Type} [DecidableEq B] {H : Hashes B O L C} {s s' : ChainState B O L C ε}
  {g b c x y z : Block B L C} {checkpoint : BlockHeader B L C} {P : Block B L C → Prop} {heads : List B}

def levelOf (header : BlockHeader B L C) : Int := header.shell.level.toInt

/-- The known heads are stored, and every block is below one of them. -/
structure Headed (s : ChainState B O L C ε) : Prop where
  stored : ∀ hash ∈ s.knownHeads, ∃ b, Stored s b ∧ b.hash = hash
  covered : ∀ b, Stored s b → ∃ top, Stored s top ∧ top.hash ∈ s.knownHeads ∧ Ancestor (predecessor s) b top

/-- What every step keeps of a chain state. -/
structure Invariant (H : Hashes B O L C) (s : ChainState B O L C ε) (g : Block B L C) : Prop where
  tree : Tree s g
  main : MainBranch s
  numbered : Numbered H s g
  linked : Linked s
  headed : Headed s

/-- Every block at the level of a header, or above it, has the block of this header below it. -/
def Enforced (s : ChainState B O L C ε) (checkpoint : BlockHeader B L C) : Prop :=
  ∀ b, Stored s b → levelOf checkpoint ≤ b.level → ∃ c, Ancestor (predecessor s) c b ∧ c.header = checkpoint

/-- The block is below the level of the checkpoint, or passes through it. -/
def ValidFor (H : Hashes B O L C) (s : ChainState B O L C ε) (checkpoint : BlockHeader B L C) (x : Block B L C) : Prop :=
  x.level < levelOf checkpoint ∨
    ∃ z, Ancestor (predecessor s) z x ∧ z.level = levelOf checkpoint ∧ z.hash = H.blockHeader checkpoint

theorem toInt_sub_level {a b : Int32} (hb : 0 ≤ b.toInt) (hle : b.toInt ≤ a.toInt) :
    (a - b).toInt = a.toInt - b.toInt := by
  have ha := a.toInt_lt
  rw [Int32.toInt_sub]
  exact Int.bmod_eq_of_le (by omega) (by omega)

/-- The ancestor of the block at the level, if there is one, has its contents. -/
def Kept (s : ChainState B O L C ε) (level : Int) (b : Block B L C) : Prop :=
  ∀ z, Ancestor (predecessor s) z b → z.level = level → (s.contents.lookup z.hash).isSome

theorem isValidForCheckpoint_eq_ok (hroot : ∀ b, Stored s b → Precedes s g b) (hnum : Numbered H s g)
    (hlin : Linked s) (hlvl : 0 ≤ levelOf checkpoint) (hx : Stored s x) (valid : Bool) :
    isValidForCheckpoint H s x.hash x.header checkpoint = .ok valid ↔
      Kept s (levelOf checkpoint) x ∧ (valid = true ↔ ValidFor H s checkpoint x) := by
  rw [isValidForCheckpoint]
  by_cases hlt : x.header.shell.level < checkpoint.shell.level
  · have hlow : x.level < levelOf checkpoint := Int32.lt_iff_toInt_lt.mp hlt
    have hkept : Kept s (levelOf checkpoint) x := by
      intro z hz heq
      exact absurd (heq ▸ hnum.level_le hx hz) (not_le.mpr hlow)
    have hval : ValidFor H s checkpoint x := .inl hlow
    rw [if_pos hlt, Except.ok.injEq, and_iff_right hkept, iff_true_right hval]
    exact eq_comm
  have hle : levelOf checkpoint ≤ x.level := not_lt.mp fun h => hlt (Int32.lt_iff_toInt_lt.mpr h)
  obtain ⟨n, z, hn, hz, hdist⟩ := hnum.exists_base hroot hx hlvl hle
  have hsub : (x.header.shell.level - checkpoint.shell.level).toInt = (n : Int) :=
    (toInt_sub_level hlvl hle).trans hdist.symm
  have heq (z' : Block B L C) (hz' : Precedes s z' x) (hl : z'.level = levelOf checkpoint) : z' = z :=
    hnum.eq_base hx hz' ⟨n, hn⟩ (hl.trans hz.symm)
  have hval : ValidFor H s checkpoint x ↔ z.hash = H.blockHeader checkpoint := by
    constructor
    · rintro (hlow | ⟨z', hz', hl, hash⟩)
      · exact absurd hlow (not_lt.mpr hle)
      · rwa [← heq z' hz' hl]
    · exact fun hash => .inr ⟨z, ⟨n, hn⟩, hz, hash⟩
  have hkept : Kept s (levelOf checkpoint) x ↔ (s.contents.lookup z.hash).isSome :=
    ⟨fun h => h z ⟨n, hn⟩ hz, fun h z' hz' hl => heq z' hz' hl ▸ h⟩
  rw [if_neg hlt, hsub, predecessorN_spec hlin hx hn, hkept, hval]
  by_cases hcont : (s.contents.lookup z.hash).isSome
  · rw [if_pos hcont, and_iff_right hcont]
    change Except.ok _ = Except.ok valid ↔ _
    rw [Except.ok.injEq, Bool.eq_iff_iff, decide_eq_true_iff]
    exact iff_comm
  · rw [if_neg hcont]
    exact iff_of_false (by rintro ⟨⟩) fun h => hcont h.1

theorem isValidForCheckpoint_spec (hinv : Invariant H s g) (hlvl : 0 ≤ levelOf checkpoint) (hx : Stored s x) :
    ∃ valid, isValidForCheckpoint H s x.hash x.header checkpoint = .ok valid ∧
      (valid = true ↔ ValidFor H s checkpoint x) := by
  classical
  have hkept : Kept s (levelOf checkpoint) x := by
    intro z hz _
    obtain ⟨contents, hcont, -⟩ := (stored_of_ancestor hx hz).contents hinv.tree.unpruned
    rw [hcont]
    rfl
  have hok := isValidForCheckpoint_eq_ok hinv.tree.rooted hinv.numbered hinv.linked hlvl hx
  exact ⟨_, (hok _).mpr ⟨hkept, decide_eq_true_iff⟩, decide_eq_true_iff⟩

theorem headerReadOpt_of_stored (hb : Stored s b) : headerReadOpt s b.hash = some b.header := by
  obtain ⟨header, hhdr, heq⟩ := Option.map_eq_some_iff.mp hb
  rw [hhdr, ← heq]

theorem sortHead_spec (hinv : Invariant H s g) (hlvl : 0 ≤ levelOf checkpoint) (hb : Stored s b)
    (acc : List (B × BlockHeader B L C) × List (B × BlockHeader B L C)) :
    (ValidFor H s checkpoint b ∧
        sortHead H s checkpoint acc b.hash = .ok ((b.hash, b.header) :: acc.1, acc.2)) ∨
      (¬ValidFor H s checkpoint b ∧
        sortHead H s checkpoint acc b.hash = .ok (acc.1, (b.hash, b.header) :: acc.2)) := by
  obtain ⟨valid, heq, hval⟩ := isValidForCheckpoint_spec hinv hlvl hb
  simp only [sortHead, headerReadOpt_of_stored hb, unoptAssert, heq, bind, Except.bind]
  cases valid with
  | true => exact .inl ⟨hval.mp rfl, rfl⟩
  | false => exact .inr ⟨fun h => Bool.false_ne_true (hval.mpr h), rfl⟩

theorem mem_heads_cons (hb : Stored s b) : (Stored s y ∧ y.hash ∈ b.hash :: heads ∧ P y) ↔
      ((y.hash, y.header) = (b.hash, b.header) ∧ P b) ∨ (Stored s y ∧ y.hash ∈ heads ∧ P y) := by
  constructor
  · rintro ⟨hy, hmem, hP⟩
    rcases mem_cons.mp hmem with hash | hmem
    · obtain rfl := hy.eq hb hash
      exact .inl ⟨rfl, hP⟩
    · exact .inr ⟨hy, hmem, hP⟩
  · rintro (⟨heq, hP⟩ | ⟨hy, hmem, hP⟩)
    · obtain rfl := Block.eq_of_pair_eq heq
      exact ⟨hb, mem_cons_self, hP⟩
    · exact ⟨hy, mem_cons_of_mem _ hmem, hP⟩

section
variable (hinv : Invariant H s g)
include hinv

theorem foldlM_sortHead (hlvl : 0 ≤ levelOf checkpoint) (hhds : ∀ hash ∈ heads, ∃ b, Stored s b ∧ b.hash = hash)
    (acc : List (B × BlockHeader B L C) × List (B × BlockHeader B L C)) :
    ∃ valid invalid, heads.foldlM (sortHead H s checkpoint) acc = .ok (valid, invalid) ∧
      (∀ y : Block B L C, (y.hash, y.header) ∈ valid ↔
        (y.hash, y.header) ∈ acc.1 ∨ Stored s y ∧ y.hash ∈ heads ∧ ValidFor H s checkpoint y) ∧
      ∀ y : Block B L C, (y.hash, y.header) ∈ invalid ↔
        (y.hash, y.header) ∈ acc.2 ∨ Stored s y ∧ y.hash ∈ heads ∧ ¬ValidFor H s checkpoint y := by
  induction heads generalizing acc with
  | nil => exact ⟨acc.1, acc.2, rfl, fun y => by simp, fun y => by simp⟩
  | cons hash heads ih =>
    obtain ⟨b, hb, rfl⟩ := hhds hash mem_cons_self
    rw [foldlM_cons]
    rcases sortHead_spec hinv hlvl hb acc with ⟨hok, heq⟩ | ⟨hbad, heq⟩
    · obtain ⟨valid, invalid, hfold, hin, hout⟩ := ih (fun hash h => hhds hash (mem_cons_of_mem _ h)) _
      refine ⟨valid, invalid, (congrArg (Except.bind · _) heq).trans hfold, fun y => ?_, fun y => ?_⟩
      · rw [hin, mem_heads_cons hb, mem_cons, and_iff_left hok, or_assoc, or_left_comm]
      · rw [hout, mem_heads_cons hb (P := fun y => ¬ValidFor H s checkpoint y), eq_false (not_not_intro hok), and_false,
          false_or]
    · obtain ⟨valid, invalid, hfold, hin, hout⟩ := ih (fun hash h => hhds hash (mem_cons_of_mem _ h)) _
      refine ⟨valid, invalid, (congrArg (Except.bind · _) heq).trans hfold, fun y => ?_, fun y => ?_⟩
      · rw [hin, mem_heads_cons hb, eq_false hbad, and_false, false_or]
      · rw [hout, mem_heads_cons hb (P := fun y => ¬ValidFor H s checkpoint y), mem_cons, and_iff_left hbad, or_assoc,
          or_left_comm]

theorem Invariant.setCheckpoint (invalidBlock : B → Option (InvalidBlock B C ε))
    (checkpoint : BlockHeader B L C) : Invariant H { s with invalidBlock, checkpoint } g where
  tree := ⟨hinv.tree.unpruned, hinv.tree.genesis, hinv.tree.stored, hinv.tree.self, hinv.tree.rooted,
    hinv.tree.timestamps, hinv.tree.operations⟩
  main := ⟨⟨hinv.main.next, hinv.main.only⟩, hinv.main.head⟩
  numbered := ⟨hinv.numbered.zero, hinv.numbered.next, hinv.numbered.hashes⟩
  linked := ⟨hinv.linked.entry, hinv.linked.absent⟩
  headed := ⟨hinv.headed.stored, hinv.headed.covered⟩

theorem validHeads_spec (hlvl : 0 ≤ levelOf checkpoint) (invalidBlock : B → Option (InvalidBlock B C ε)) :
    ∃ valid invalid, validHeadsForCheckpoint H { s with invalidBlock } checkpoint = .ok (valid, invalid) ∧
      (∀ y : Block B L C, (y.hash, y.header) ∈ valid ↔
        Stored s y ∧ y.hash ∈ s.knownHeads ∧ ValidFor H s checkpoint y) ∧
      ∀ y : Block B L C, (y.hash, y.header) ∈ invalid ↔
        Stored s y ∧ y.hash ∈ s.knownHeads ∧ ¬ValidFor H s checkpoint y := by
  obtain ⟨valid, invalid, heq, hin, hout⟩ :=
    foldlM_sortHead (hinv.setCheckpoint invalidBlock s.checkpoint) hlvl hinv.headed.stored ([], [])
  exact ⟨valid, invalid, heq, fun y => (hin y).trans (or_iff_right not_mem_nil),
    fun y => (hout y).trans (or_iff_right not_mem_nil)⟩

/-- When the blocks at the level of the checkpoint are the checkpoint, all the heads are valid and nothing is removed. -/
theorem setCheckpoint_ahead (hahd : s.currentHead.level < levelOf checkpoint)
    (hall : ∀ b, Stored s b → b.level = levelOf checkpoint → b.header = checkpoint) :
    ∃ invalidBlock, setCheckpoint H s checkpoint = .ok { s with invalidBlock, checkpoint } := by
  have hpos : 0 < levelOf checkpoint :=
    lt_of_le_of_lt (hinv.numbered.level_nonneg hinv.tree.rooted hinv.main.head) hahd
  have hval (x : Block B L C) (hx : Stored s x) : ValidFor H s checkpoint x := by
    by_cases hle : levelOf checkpoint ≤ x.level
    · obtain ⟨n, z, hn, hz, -⟩ := hinv.numbered.exists_base hinv.tree.rooted hx (le_of_lt hpos) hle
      have hzs : Stored s z := stored_of_ancestor hx ⟨n, hn⟩
      have hzg : z ≠ g := by
        rintro rfl
        exact absurd (hz.symm.trans hinv.numbered.zero) (ne_of_gt hpos)
      refine .inr ⟨z, ⟨n, hn⟩, hz, ?_⟩
      rw [← hinv.numbered.hashes z hzs hzg, hall z hzs hz]
    · exact .inl (not_le.mp hle)
  obtain ⟨ok, hok, hiff⟩ := isValidForCheckpoint_spec hinv (le_of_lt hpos) hinv.main.head
  obtain rfl := hiff.mpr (hval _ hinv.main.head)
  obtain ⟨valid, invalid, hhds, -, hinvalid⟩ := validHeads_spec hinv (le_of_lt hpos)
    fun hash => (s.invalidBlock hash).filter fun iblock => !(iblock.level ≤ checkpoint.shell.level)
  obtain rfl : invalid = [] := by
    refine eq_nil_iff_forall_not_mem.mpr fun head hmem => ?_
    obtain ⟨hb, -, hnot⟩ := (hinvalid ⟨head.1, head.2⟩).mp hmem
    exact hnot (hval _ hb)
  have hlt : s.currentHead.header.shell.level < checkpoint.shell.level := Int32.lt_iff_toInt_lt.mpr hahd
  refine ⟨fun hash => (s.invalidBlock hash).filter fun iblock => !(iblock.level ≤ checkpoint.shell.level), ?_⟩
  simp only [setCheckpoint, hok, hhds, tagInvalidHeads, foldl_nil, tagEach, if_pos hlt, if_true, bind, Except.bind]

end

/-! ### A checkpoint below the head -/

def Comparable (s : ChainState B O L C ε) (c b : Block B L C) : Prop :=
  Ancestor (predecessor s) b c ∨ Ancestor (predecessor s) c b

/-- The lists of heads that are tagged and cut when the checkpoint is the block `c` below the head. -/
structure Sorted (s : ChainState B O L C ε) (c : Block B L C)
    (outdatedValid invalid outdatedInvalid : List (B × BlockHeader B L C)) : Prop where
  head : Ancestor (predecessor s) c s.currentHead
  mem_outdatedValid : ∀ y : Block B L C, (y.hash, y.header) ∈ outdatedValid ↔
    Stored s y ∧ y.hash ∈ s.knownHeads ∧ (y.level < c.level ∨ y = c) ∧ y.hash ≠ s.currentHead.hash
  mem_invalid : ∀ y : Block B L C, (y.hash, y.header) ∈ invalid ↔
    Stored s y ∧ y.hash ∈ s.knownHeads ∧ c.level ≤ y.level ∧ ¬Ancestor (predecessor s) c y
  base : ∀ y z : Block B L C, (y.hash, y.header) ∈ invalid → Ancestor (predecessor s) z y → z.level = c.level →
    (z.hash, z.header) ∈ outdatedInvalid
  outdated : ∀ o ∈ outdatedInvalid, ∃ y z : Block B L C, (y.hash, y.header) ∈ invalid ∧
    Ancestor (predecessor s) z y ∧ z.level = c.level ∧ o = (z.hash, z.header)

section
variable {outdatedValid invalid outdatedInvalid : List (B × BlockHeader B L C)}

theorem mem_branch (hb : Stored s b) (hy : Stored s y) (h : Branch s P y b.hash) : Precedes s b y ∧ P b := by
  obtain ⟨a, ha, hP, hash⟩ := h
  obtain rfl := (stored_of_ancestor hy ha).eq hb hash
  exact ⟨ha, hP⟩

variable (h : Sorted s c outdatedValid invalid outdatedInvalid)
include h

theorem Sorted.of_outdated (hz : (z.hash, z.header) ∈ outdatedInvalid) :
    Stored s z ∧ z.level = c.level ∧ ¬Precedes s c z ∧ ∃ y, Stored s y ∧ Precedes s z y := by
  obtain ⟨y, x, hy, hx, hlvl, heq⟩ := h.outdated _ hz
  obtain ⟨hys, -, -, hnot⟩ := (h.mem_invalid y).mp hy
  have hxs := stored_of_ancestor hys hx
  obtain rfl := Block.eq_of_pair_eq heq
  exact ⟨hxs, hlvl, fun hc => hnot (hc.trans hx), y, hys, hx⟩

theorem Sorted.gone_iff (hinv : Invariant H s g) (hb : Stored s b) :
    (Branches s (Above c.level) invalid b.hash ∨ Branches s (Off s c) outdatedValid b.hash) ∨
      Branches s (Off s c) outdatedInvalid b.hash ↔ ¬Comparable s c b := by
  have hc : Stored s c := stored_of_ancestor hinv.main.head h.head
  constructor
  · rintro ((⟨y, hy, hbr⟩ | ⟨y, hy, hbr⟩) | ⟨z, hz, hbr⟩) hcom
    · obtain ⟨hys, -, -, hnot⟩ := (h.mem_invalid y).mp hy
      obtain ⟨hby, habv⟩ := mem_branch hb hys hbr
      rcases hcom with hbc | hcb
      · exact absurd (hinv.numbered.level_le hc hbc) (not_le.mpr habv)
      · exact hnot (hcb.trans hby)
    · obtain ⟨hys, -, hlvl, -⟩ := (h.mem_outdatedValid y).mp hy
      obtain ⟨hby, hoff⟩ := mem_branch hb hys hbr
      have hcb := hcom.resolve_left hoff
      rcases hlvl with hlt | rfl
      · exact absurd (hinv.numbered.level_le hys (hcb.trans hby)) (not_le.mpr hlt)
      · exact hoff hby
    · obtain ⟨hzs, -, hnot, -⟩ := h.of_outdated hz
      obtain ⟨hbz, hoff⟩ := mem_branch hb hzs hbr
      exact hnot ((hcom.resolve_left hoff).trans hbz)
  · intro hnot
    obtain ⟨hbc, hcb⟩ := not_or.mp hnot
    obtain ⟨top, htop, hkn, hbtop⟩ := hinv.headed.covered b hb
    have hctop : ¬Precedes s c top := fun hctop => hnot (hbtop.comparable hctop)
    by_cases hle : c.level ≤ top.level
    · have hinvalid := (h.mem_invalid top).mpr ⟨htop, hkn, hle, hctop⟩
      by_cases habv : c.level < b.level
      · exact .inl (.inl ⟨top, hinvalid, b, hbtop, habv, rfl⟩)
      · obtain ⟨n, z, hn, hz, -⟩ :=
          hinv.numbered.exists_base hinv.tree.rooted htop (hinv.numbered.level_nonneg hinv.tree.rooted hc) hle
        refine .inr ⟨z, h.base top z hinvalid ⟨n, hn⟩ hz, b, ?_, hbc, rfl⟩
        exact hinv.numbered.ancestor_of_level_le htop hbtop ⟨n, hn⟩ (hz.symm ▸ not_lt.mp habv)
    · refine .inl
        (.inr ⟨top, (h.mem_outdatedValid top).mpr ⟨htop, hkn, .inl (not_le.mp hle), ?_⟩, b, hbtop, hbc, rfl⟩)
      intro hash
      rw [htop.eq hinv.main.head hash] at hle
      exact hle (hinv.numbered.level_le hinv.main.head h.head)

theorem Sorted.head_iff (hinv : Invariant H s g) (hb : Stored s b) :
    (b.hash ∈ s.knownHeads ∧ (∀ o ∈ invalid, o.1 ≠ b.hash) ∧ (∀ o ∈ outdatedValid, o.1 ≠ b.hash) ∧
        ∀ o ∈ outdatedInvalid, o.1 ≠ b.hash) ↔
      b.hash ∈ s.knownHeads ∧ Precedes s c b ∧ (b = c → b = s.currentHead) := by
  refine and_congr_right fun hkn => ⟨?_, ?_⟩
  · rintro ⟨hinvalid, hval, -⟩
    have hnot (hlvl : b.level < c.level ∨ b = c) (hne : b.hash ≠ s.currentHead.hash) : False :=
      hval (b.hash, b.header) ((h.mem_outdatedValid b).mpr ⟨hb, hkn, hlvl, hne⟩) rfl
    constructor
    · by_contra hcb
      by_cases hle : c.level ≤ b.level
      · exact hinvalid (b.hash, b.header) ((h.mem_invalid b).mpr ⟨hb, hkn, hle, hcb⟩) rfl
      · refine hnot (.inl (not_le.mp hle)) fun hash => hcb ?_
        rw [hb.eq hinv.main.head hash]
        exact h.head
    · intro heq
      by_contra hne
      exact hnot (.inr heq) fun hash => hne (hb.eq hinv.main.head hash)
  · rintro ⟨hcb, hhead⟩
    refine ⟨?_, ?_, ?_⟩
    · intro o ho hash
      obtain ⟨hys, -, -, hnot⟩ := (h.mem_invalid ⟨o.1, o.2⟩).mp ho
      rw [hys.eq hb hash] at hnot
      exact hnot hcb
    · intro o ho hash
      obtain ⟨hys, -, hlvl, hne⟩ := (h.mem_outdatedValid ⟨o.1, o.2⟩).mp ho
      rw [hys.eq hb hash] at hlvl hne
      rcases hlvl with hlt | heq
      · exact absurd (hinv.numbered.level_le hb hcb) (not_le.mpr hlt)
      · exact hne (congrArg Block.hash (hhead heq))
    · intro o ho hash
      obtain ⟨hys, -, hnot, -⟩ := h.of_outdated (z := ⟨o.1, o.2⟩) ho
      rw [hys.eq hb hash] at hnot
      exact hnot hcb

end

section
variable (hinv : Invariant H s g)
include hinv

theorem inMainBranch_iff (hc : Precedes s c s.currentHead) (hy : Stored s y)
    (hlvl : y.level ≤ c.level) (hne : y ≠ s.currentHead) (hx : Precedes s x y) :
    (s.inMainBranch x.hash).isSome ↔ Precedes s x c := by
  have hxs := stored_of_ancestor hy hx
  have hxlev := le_trans (hinv.numbered.level_le hy hx) hlvl
  constructor
  · intro hsome
    obtain ⟨b, hb, hash⟩ := hinv.main.only x.hash hsome
    obtain rfl := (stored_of_ancestor hinv.main.head hb).eq hxs hash
    exact hinv.numbered.ancestor_of_level_le hinv.main.head hb hc hxlev
  · intro hxc
    have hxhd : x ≠ s.currentHead := by
      rintro rfl
      refine hne (hinv.numbered.eq_of_level hy hx (le_trans hlvl ?_)).symm
      exact hinv.numbered.level_le hinv.main.head hc
    obtain ⟨d, hd, hdx⟩ := exists_child (hxc.trans hc) hxhd
    rw [hinv.main.next d x hd hdx]
    rfl

theorem validFor_iff (hc : Stored s c) (hcg : c ≠ g) (hx : Stored s x) :
    ValidFor H s c.header x ↔ x.level < c.level ∨ Precedes s c x := by
  refine or_congr_right ⟨?_, fun hcx => ⟨c, hcx, rfl, (hinv.numbered.hashes c hc hcg).symm⟩⟩
  rintro ⟨z, hz, -, hash⟩
  rw [hinv.numbered.hashes c hc hcg] at hash
  rwa [← (stored_of_ancestor hx hz).eq hc hash]

section
variable (hc : Precedes s c s.currentHead)
include hc

theorem sorted_of_lists (hcg : c ≠ g) {valid invalid outdatedInvalid : List (B × BlockHeader B L C)}
    (hval : ∀ y : Block B L C, (y.hash, y.header) ∈ valid ↔
      Stored s y ∧ y.hash ∈ s.knownHeads ∧ ValidFor H s c.header y)
    (hinvalid : ∀ y : Block B L C, (y.hash, y.header) ∈ invalid ↔
      Stored s y ∧ y.hash ∈ s.knownHeads ∧ ¬ValidFor H s c.header y)
    (hbase : ∀ y z : Block B L C, (y.hash, y.header) ∈ invalid → Precedes s z y → z.level = c.level →
      (z.hash, z.header) ∈ outdatedInvalid)
    (hout : ∀ o ∈ outdatedInvalid, ∃ y z : Block B L C, (y.hash, y.header) ∈ invalid ∧
      Precedes s z y ∧ z.level = c.level ∧ o = (z.hash, z.header)) :
    Sorted s c (valid.filter fun head => head.2.shell.level ≤ c.header.shell.level && head.1 ≠ s.currentHead.hash)
      invalid outdatedInvalid := by
  have hcs := stored_of_ancestor hinv.main.head hc
  refine ⟨hc, fun y => ?_, fun y => ?_, hbase, hout⟩
  · rw [mem_filter, hval, Bool.and_eq_true, decide_eq_true_eq, decide_eq_true_eq, Int32.le_iff_toInt_le]
    constructor
    · rintro ⟨⟨hy, hkn, hok⟩, hle, hne⟩
      refine ⟨hy, hkn, ?_, hne⟩
      rcases (validFor_iff hinv hcs hcg hy).mp hok with hlt | hcy
      · exact .inl hlt
      · exact .inr (hinv.numbered.eq_of_level hy hcy hle).symm
    · rintro ⟨hy, hkn, hlvl, hne⟩
      refine ⟨⟨hy, hkn, (validFor_iff hinv hcs hcg hy).mpr ?_⟩, ?_, hne⟩
      · rcases hlvl with hlt | rfl
        · exact .inl hlt
        · exact .inr (.refl y)
      · rcases hlvl with hlt | rfl
        · exact le_of_lt hlt
        · exact le_refl _
  · rw [hinvalid]
    refine and_congr_right fun hy => and_congr_right fun _ => ?_
    rw [validFor_iff hinv hcs hcg hy, not_or, not_lt]

/-- What the checkpoint leaves at its level or below it is cut down to the line of the checkpoint. -/
theorem cuttable_of_level_le
    (hfork : ∀ b, Stored s b → predecessor s b = some g → Precedes s b s.currentHead)
    {invalid : List (B × BlockHeader B L C)}
    (hinvalid : ∀ y : Block B L C, (y.hash, y.header) ∈ invalid → Stored s y) (hy : Stored s y)
    (hlvl : y.level ≤ c.level) (hne : y ≠ s.currentHead) :
    Cuttable s g c (Branches s (Above c.level) invalid) y := by
  have hxlev (x : Block B L C) (hx : Precedes s x y) : x.level ≤ c.level :=
    le_trans (hinv.numbered.level_le hy hx) hlvl
  refine ⟨hy, fun x => inMainBranch_iff hinv hc hy hlvl hne, fun x hx hp => ?_, fun x a hx hgone => ?_⟩
  · exact hinv.numbered.ancestor_of_level_le hinv.main.head (hfork x (stored_of_ancestor hy hx) hp) hc (hxlev x hx)
  · obtain ⟨y', hy', hbr⟩ := hgone
    have habv := (mem_branch (stored_of_ancestor hy hx) (hinvalid y' hy') hbr).2
    exact absurd (hxlev x hx) (not_le.mpr habv)

theorem setCheckpoint_below (hcg : c ≠ g)
    (hfork : ∀ b, Stored s b → predecessor s b = some g → Precedes s b s.currentHead) :
    ∃ s' gone, setCheckpoint H s c.header = .ok s' ∧ s'.checkpoint = c.header ∧ Removed s s' gone ∧
      (∀ b, Stored s b → (gone b.hash ↔ ¬Comparable s c b)) ∧
        (∀ hash ∈ s'.knownHeads, hash ∈ s.knownHeads) ∧
      ∀ b, Stored s b → (b.hash ∈ s'.knownHeads ↔
        b.hash ∈ s.knownHeads ∧ Precedes s c b ∧ (b = c → b = s.currentHead)) := by
  have hcs := stored_of_ancestor hinv.main.head hc
  have hpos : 0 < c.level := by
    obtain ⟨p, hp⟩ := hinv.tree.exists_predecessor hcs hcg
    rw [hinv.numbered.next c p hcs hp]
    exact Int.lt_add_one_of_le (hinv.numbered.level_nonneg hinv.tree.rooted (stored_of_predecessor hp))
  obtain ⟨ok, hok, hiff⟩ := isValidForCheckpoint_spec hinv (le_of_lt hpos) hinv.main.head
  obtain rfl := hiff.mpr ((validFor_iff hinv hcs hcg hinv.main.head).mpr (.inr hc))
  -- the heads above the level are tagged
  obtain ⟨valid, invalid, hhds, hval, hinvalid⟩ := validHeads_spec hinv (le_of_lt hpos)
    fun hash => (s.invalidBlock hash).filter fun iblock => !(iblock.level ≤ c.header.shell.level)
  have hstr := Removed.start hinv.tree.unpruned
    fun hash => (s.invalidBlock hash).filter fun iblock => !(iblock.level ≤ c.header.shell.level)
  obtain ⟨s1, outdatedInvalid, htag, h1, hkn1, hbase, hout⟩ :=
    tagInvalidHeads_spec hinv.tree hinv.numbered hpos (lt_add_one _) (fun y hy => by
      obtain ⟨hys, -, hnot⟩ := (hinvalid y).mp hy
      exact ⟨hys, not_lt.mp fun hlt => hnot (.inl hlt)⟩) hstr
  have hsrt := sorted_of_lists hinv hc hcg hval hinvalid hbase hout
  -- the others are cut, then what the tagged ones leave at the level
  have hcut (y : Block B L C) :=
    cuttable_of_level_le (y := y) hinv hc hfork fun y hy => ((hsrt.mem_invalid y).mp hy).1
  obtain ⟨s2, hcut2, h2, hkn2⟩ := cutAlternateHeads_spec hinv.tree hinv.numbered hcs (lt_add_one _) (fun y hy => by
    obtain ⟨hys, -, hlvl, hne⟩ := (hsrt.mem_outdatedValid y).mp hy
    refine hcut y hys ?_ fun heq => hne (congrArg Block.hash heq)
    rcases hlvl with hlt | rfl
    · exact le_of_lt hlt
    · exact le_refl _) h1
  obtain ⟨s3, hcut3, h3, hkn3⟩ := cutAlternateHeads_spec hinv.tree hinv.numbered hcs (lt_add_one _) (fun z hz => by
    obtain ⟨hzs, hlvl, hnot, -⟩ := hsrt.of_outdated hz
    refine (hcut z hzs (le_of_eq hlvl) fun heq => hnot (heq ▸ hc)).or ?_
    rintro x a hx ⟨y, hy, hbr⟩ ha hoff
    exact ⟨y, hy, branch_closed hx ((hsrt.mem_outdatedValid y).mp hy).1 hbr ha hoff⟩) h2
  have hkn (hash : B) : hash ∈ s3.knownHeads ↔ hash ∈ s.knownHeads ∧ (∀ o ∈ invalid, o.1 ≠ hash) ∧
      (∀ o ∈ valid.filter fun head => head.2.shell.level ≤ c.header.shell.level && head.1 ≠ s.currentHead.hash,
        o.1 ≠ hash) ∧ ∀ o ∈ outdatedInvalid, o.1 ≠ hash := by
    rw [hkn3, hkn2, hkn1]
    constructor
    · rintro ⟨⟨⟨hold, hi⟩ | ⟨z, hz, hash⟩, hv⟩, ho⟩
      · exact ⟨hold, hi, hv, ho⟩
      · exact absurd hash (ho z hz)
    · rintro ⟨hold, hi, hv, ho⟩
      exact ⟨⟨.inl ⟨hold, hi⟩, hv⟩, ho⟩
  have hle : ¬s.currentHead.header.shell.level < c.header.shell.level := fun hlt =>
    not_lt.mpr (hinv.numbered.level_le hinv.main.head hc) (Int32.lt_iff_toInt_lt.mp hlt)
  refine ⟨{ s3 with checkpoint := c.header }, _, ?_, rfl, h3.finish c.header, fun b hb => hsrt.gone_iff hinv hb,
    fun hash hmem => ((hkn hash).mp hmem).1, fun b hb => (hkn b.hash).trans (hsrt.head_iff hinv hb)⟩
  simp only [setCheckpoint, hok, hhds, htag, hcut2, hcut3, if_neg hle, if_true, bind, Except.bind]

end

end

theorem comparable_predecessor {p : Block B L C} (h : Comparable s c b) (hp : predecessor s b = some p) :
    Comparable s c p := by
  rcases h with hbc | hcb
  · exact .inl ((ancestor_parent hp).trans hbc)
  · rcases ancestor_cases hcb with rfl | ⟨p', hp', hcp⟩
    · exact .inl (ancestor_parent hp)
    · rw [Option.some.inj (hp'.symm.trans hp)] at hcp
      exact .inr hcp

theorem enforced_ahead (hinv : Invariant H s g) (hlvl : 0 ≤ levelOf checkpoint)
    (hall : ∀ b, Stored s b → b.level = levelOf checkpoint → b.header = checkpoint) : Enforced s checkpoint := by
  intro b hb hle
  obtain ⟨n, z, hn, hz, -⟩ := hinv.numbered.exists_base hinv.tree.rooted hb hlvl hle
  exact ⟨z, ⟨n, hn⟩, hall z (stored_of_ancestor hb ⟨n, hn⟩) hz⟩

theorem invariant_below (hinv : Invariant H s g) (hc : Precedes s c s.currentHead) {gone : B → Prop}
    (h : Removed s s' gone) (hgone : ∀ b, Stored s b → (gone b.hash ↔ ¬Comparable s c b))
    (hold : ∀ hash ∈ s'.knownHeads, hash ∈ s.knownHeads)
    (hhds : ∀ b, Stored s b → (b.hash ∈ s'.knownHeads ↔
      b.hash ∈ s.knownHeads ∧ Precedes s c b ∧ (b = c → b = s.currentHead))) :
    Invariant H s' g ∧ Enforced s' c.header := by
  have hsto (b : Block B L C) : Stored s' b ↔ Stored s b ∧ Comparable s c b := by
    rw [h.stored_iff hinv.tree.unpruned]
    refine and_congr_right fun hb => ?_
    rw [hgone b hb, not_not]
  have hcl (b p : Block B L C) (hb : Stored s b) (hkept : ¬gone b.hash) (hp : predecessor s b = some p) :
      ¬gone p.hash := by
    rw [hgone b hb, not_not] at hkept
    rw [hgone p (stored_of_predecessor hp), not_not]
    exact comparable_predecessor hkept hp
  have hanc (a b : Block B L C) (hb : Stored s' b) : Precedes s' a b ↔ Precedes s a b :=
    h.ancestor_iff hinv.tree hcl hb
  have hhead : Stored s' s.currentHead := (hsto _).mpr ⟨hinv.main.head, .inr hc⟩
  refine ⟨⟨h.tree hinv.tree hcl hhead, ⟨⟨?_, ?_⟩, ?_⟩, h.numbered hinv.tree hcl hinv.numbered,
    h.linked hinv.tree hcl hinv.linked, ⟨?_, ?_⟩⟩, ?_⟩
  · rw [h.head, h.inMainBranch]
    intro x p hx hp
    replace hx := (hanc _ _ hhead).mp hx
    rw [h.predecessor_eq hinv.tree hcl (h.stored_of_ancestor hinv.tree hcl hhead hx)] at hp
    exact hinv.main.next x p hx hp
  · rw [h.head, h.inMainBranch]
    intro hash hsome
    obtain ⟨b, hb, heq⟩ := hinv.main.only hash hsome
    exact ⟨b, (hanc _ _ hhead).mpr hb, heq⟩
  · rw [h.head]
    exact hhead
  · intro hash hmem
    obtain ⟨b, hb, rfl⟩ := hinv.headed.stored hash (hold hash hmem)
    exact ⟨b, (hsto b).mpr ⟨hb, .inr ((hhds b hb).mp hmem).2.1⟩, rfl⟩
  · intro b hb
    obtain ⟨hbs, hcom⟩ := (hsto b).mp hb
    -- the head is above the blocks below the checkpoint
    have habv : ∃ x, Stored s x ∧ Precedes s b x ∧ Precedes s c x ∧
        (x = c → x = s.currentHead) := by
      by_cases hbc : Precedes s b c
      · exact ⟨s.currentHead, hinv.main.head, hbc.trans hc, hc, fun _ => rfl⟩
      · refine ⟨b, hbs, .refl b, hcom.resolve_left hbc, fun heq => absurd ?_ hbc⟩
        rw [heq]
        exact .refl c
    obtain ⟨x, hx, hbx, hcx, hxc⟩ := habv
    obtain ⟨top, htop, hkn, hxtop⟩ := hinv.headed.covered x hx
    have hctop := hcx.trans hxtop
    have htop' : Stored s' top := (hsto top).mpr ⟨htop, .inr hctop⟩
    refine ⟨top, htop', (hhds top htop).mpr ⟨hkn, hctop, ?_⟩, (hanc _ _ htop').mpr (hbx.trans hxtop)⟩
    rintro rfl
    have heq : x = top := hinv.numbered.eq_of_level htop hxtop (hinv.numbered.level_le hx hcx)
    rw [← heq]
    exact hxc heq
  · intro b hb hle
    obtain ⟨hbs, hcom⟩ := (hsto b).mp hb
    refine ⟨c, (hanc _ _ hb).mpr ?_, rfl⟩
    rcases hcom with hbc | hcb
    · rw [hinv.numbered.eq_of_level (stored_of_ancestor hinv.main.head hc) hbc hle]
      exact .refl c
    · exact hcb

end Tezos.Chain
