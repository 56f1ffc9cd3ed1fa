import Tezos.Theorems.Stdlib.HashPtree

/-! Trees of prefixes: they have the keys of all the prefixes that were added, as long as none was misplaced. -/

namespace Tezos.HashPtree
open Lib Bits BEGenPrefix
variable {size : Nat} {ν : Type} {key x p : Bits size} {j k c b : Nat} {t s o : BitTree size ν} {value leafValue : ν}
  {same : ν → ν → Bool}

/-- Adding a prefix goes wrong at a leaf if one of the two is `::/0`, whose mask is taken for the longest of all, and the
    other is not the same; if the leaf is a single key with the same value, which is kept in place of a shorter prefix of
    that key; and if the leaf contains the prefix, which is not seen because its key has bits under its mask. At a node
    that the key matches, it goes wrong if the prefix is shorter than the part of the keys above the branching, as only one
    side gets it; and at one that it does not match, if it crosses the node. -/
def misplaced (same : ν → ν → Bool) (key : Bits size) (value : ν) (mask : Bits size) : BitTree size ν → Bool
  | .leaf leafKey leafMask leafValue =>
    if mask = zero then decide (leafMask ≠ zero ∨ leafKey ≠ key)
    else
      decide (leafMask = zero) ||
        (same value leafValue && decide (leafKey = key ∧ leafMask = one ∧ mask ≠ one)) ||
        (strictlyShorterMask leafMask mask && matchingKey (beGenPrefix size) leafKey key leafMask &&
          !matchPrefix key leafKey leafMask)
  | .node nodePrefix nodeMask true_ false_ =>
    if matchPrefix key nodePrefix nodeMask then
      if mask = zero ∧ nodeMask ≠ zero ∨ strictlyShorterMask mask nodeMask = true then true
      else if selectKeyBit (beGenPrefix size) key nodeMask then misplaced same key value mask true_
      else misplaced same key value mask false_
    else decide (mask = zero ∨ commonMask key nodePrefix = nodeMask)

/-- The key is one of the prefix of a leaf, which the search finds. -/
def Has (x : Bits size) (t : BitTree size ν) : Prop := Marked x ∧ memNe (beGenPrefix size) x t = true

/-- Every key of a subtree agrees with the prefix of its root, above the bit it branches at. -/
inductive Nested : BitTree size ν → Prop
  | leaf {key : Bits size} {k : Nat} {value : ν} (le : k ≤ size) (marked : Marked key) : Nested
    (.leaf key (maskAt size k) value)
  | node {p : Bits size} {k : Nat} {t f : BitTree size ν} (le : k ≤ size) (cut : applyMask p (maskAt size k) = p)
      (marked : Marked p) (nested_true : Nested t) (nested_false : Nested f)
      (within : ∀ x, Has x (.node p (maskAt size k) t f) → AgreeFrom (k + 1) x p) : Nested (.node p (maskAt size k) t f)

/-- The tree is well formed, and has the keys of the prefix and those it had. -/
def Gains (key : Bits size) (k : Nat) (t t' : BitTree size ν) : Prop :=
  Nested t' ∧ ∀ x, Has x t' ↔ Has x t ∨ AgreeFrom k key x

def side (x : Bits size) (c : Nat) : Bool := selectKeyBit (beGenPrefix size) x (maskAt size c)

/-- The node that branches at a position and has a subtree on the side of a key, and another one on the other side. -/
def fork (p : Bits size) (c : Nat) (key : Bits size) (s o : BitTree size ν) : BitTree size ν :=
  branch p (maskAt size c) (side key c) s o

/-! ### Masks and sides -/

theorem matchingKey_maskAt (hk : k ≤ size) :
    matchingKey (beGenPrefix size) key x (maskAt size k) = true ↔ AgreeFrom k key x := by
  rw [matchingKey, decide_eq_true_iff]
  exact applyMask_eq_iff hk

theorem maskAt_eq_zero (hk : k ≤ size) : maskAt size k = zero ↔ k = size := by
  constructor
  · intro h
    by_contra hne
    have := congrArg BitVec.toNat h
    rw [toNat_maskAt (Nat.lt_of_le_of_ne hk hne), toNat_zero] at this
    have := Nat.one_le_two_pow (n := k)
    omega
  · rintro rfl
    exact zero_eq_maskAt.symm

theorem maskAt_eq_one (hk : k < size) : maskAt size k = one ↔ k = 0 := by
  rw [one_eq_maskAt]
  exact ⟨maskAt_inj hk (Nat.zero_lt_of_lt hk), fun h => by rw [h]⟩

theorem agreeFrom_size (hkey : Marked key) (hx : Marked x) : AgreeFrom size key x := fun i hi => by
  rcases Nat.eq_or_lt_of_le hi with rfl | hlt
  · rw [show key.getLsbD size = true from hkey, show x.getLsbD size = true from hx]
  · rw [BitVec.getLsbD_of_ge key i hlt, BitVec.getLsbD_of_ge x i hlt]

/-- Every key is on one side of the marker bit. -/
theorem side_size (hx : Marked x) : side x size = false := by
  have hand : x &&& zero = zero := by
    refine BitVec.eq_of_getLsbD_eq fun i _ => ?_
    rw [BitVec.getLsbD_and, zero, getLsbD_higherBit]
    by_cases hi : i = size
    · rw [hi, show x.getLsbD size = true from hx]
      rfl
    · simp [hi]
  rw [side, ← zero_eq_maskAt]
  exact congrArg not (decide_eq_true hand)

theorem marked_of_agree (hk : k ≤ size) (hkey : Marked key) (h : AgreeFrom k key x) : Marked x :=
  (h size hk).symm.trans hkey

theorem side_of_agree (hc : c ≤ size) (hkey : Marked key) (h : AgreeFrom c key x) : side x c = side key c := by
  have hx := marked_of_agree hc hkey h
  rcases Nat.eq_or_lt_of_le hc with rfl | hlt
  · rw [side_size hx, side_size hkey]
  · rw [side, side, selectKeyBit_maskAt hlt hx, selectKeyBit_maskAt hlt hkey, h c le_rfl]

theorem has_leaf (hk : k ≤ size) (hkey : Marked key) :
    Has x (.leaf key (maskAt size k) value) ↔ AgreeFrom k key x := by
  rw [Has, memNe, matchingKey_maskAt hk]
  exact and_iff_right_of_imp (marked_of_agree hk hkey)

theorem has_fork : Has x (fork p c key s o) ↔ if side x c = side key c then Has x s else Has x o := by
  unfold Has fork side
  cases hkey : selectKeyBit (beGenPrefix size) key (maskAt size c) <;>
    cases hx : selectKeyBit (beGenPrefix size) x (maskAt size c) <;> simp [branch, memNe, hx]

theorem Nested.fork (hc : c ≤ size) (cut : applyMask p (maskAt size c) = p) (hp : Marked p) (hs : Nested s)
    (ho : Nested o)
    (within : ∀ x, Has x (fork p c key s o) → AgreeFrom (c + 1) x p) : Nested (HashPtree.fork p c key s o) := by
  unfold HashPtree.fork at within ⊢
  cases hb : side key c with
  | false =>
    rw [hb] at within
    exact .node hc cut hp ho hs within
  | true =>
    rw [hb] at within
    exact .node hc cut hp hs ho within

theorem Nested.of_branch {m : Bits size} {d : Bool} (h : Nested (branch p m d s o)) :
    ∃ c ≤ size, m = maskAt size c ∧ applyMask p m = p ∧ Marked p ∧ Nested s ∧ Nested o ∧
      ∀ x, Has x (branch p m d s o) → AgreeFrom (c + 1) x p := by
  cases d with
  | false =>
    cases h with
    | node le cut marked ho hs within => exact ⟨_, le, rfl, cut, marked, hs, ho, within⟩
  | true =>
    cases h with
    | node le cut marked hs ho within => exact ⟨_, le, rfl, cut, marked, hs, ho, within⟩

/-! ### Joining a leaf with a tree -/

/-- A node gains the keys of a prefix that its side of the key gains: they are all on this side. -/
theorem gains_fork (hc : c ≤ size) (cut : applyMask p (maskAt size c) = p) (hp : Marked p) (hs : Nested s) (ho : Nested o)
    (hkey : Marked key) (hkc : k ≤ c) (hagr : AgreeFrom (c + 1) key p) (hin : ∀ x, Has x t → AgreeFrom (c + 1) x p)
    (hsame : ∀ x, side x c = side key c → (Has x s ↔ Has x t ∨ AgreeFrom k key x))
    (hother : ∀ x, side x c ≠ side key c → (Has x o ↔ Has x t)) : Gains key k t (fork p c key s o) := by
  have hmem : ∀ x, Has x (fork p c key s o) ↔ Has x t ∨ AgreeFrom k key x := fun x => by
    rw [has_fork]
    split
    · rename_i hb
      exact hsame x hb
    · rename_i hb
      rw [hother x hb]
      exact (or_iff_left fun h => hb (side_of_agree hc hkey (h.mono hkc))).symm
  refine ⟨.fork hc cut hp hs ho fun x hx => ?_, hmem⟩
  rcases (hmem x).mp hx with h | h
  · exact hin x h
  · exact (h.symm.mono (hkc.trans (Nat.le_succ c))).trans hagr

/-- What it takes to join a leaf with a tree whose keys agree with a prefix. -/
structure Joins (key : Bits size) (k : Nat) (p : Bits size) (b : Nat) (t : BitTree size ν) : Prop where
  lt : b < size
  le : k ≤ b
  mask : joinMask (beGenPrefix size) (maskAt size k) key p = maskAt size b
  agree : AgreeFrom (b + 1) key p
  within : ∀ x, Has x t → AgreeFrom (b + 1) x p
  side : ∀ x, Has x t → x.getLsbD b = key.getLsbD b → AgreeFrom k key x

theorem gains_join (hkey : Marked key) (hp : Marked p) (ht : Nested t) (h : Joins key k p b t) :
    Gains key k t (join (beGenPrefix size) (maskAt size k) key (.leaf key (maskAt size k) value) p t) := by
  have hcut := agreeFrom_applyMask (x := p) h.lt.le
  have hup := hcut.symm.mono (Nat.le_succ b)
  have hjoin : join (beGenPrefix size) (maskAt size k) key (.leaf key (maskAt size k) value) p t =
      fork (applyMask p (maskAt size b)) b key (.leaf key (maskAt size k) value) t := by
    rw [join, h.mask]
    rfl
  have hle := h.le.trans h.lt.le
  rw [hjoin]
  refine gains_fork h.lt.le (applyMask_idem h.lt.le) (marked_of_agree h.lt.le hp hcut.symm) (.leaf hle hkey) ht hkey h.le
    (h.agree.trans hup) (fun x hx => (h.within x hx).trans hup) (fun x hb => ?_) fun x _ => Iff.rfl
  rw [has_leaf hle hkey]
  refine (or_iff_right_of_imp fun hx => h.side x hx ?_).symm
  rwa [HashPtree.side, HashPtree.side, selectKeyBit_maskAt h.lt hx.1, selectKeyBit_maskAt h.lt hkey] at hb

theorem commonMask_self (x : Bits size) : commonMask x x = zero := by
  have hxor : unmark (lxor x x) = 0#_ := by
    rw [unmark, lxor, BitVec.xor_self, BitVec.zero_or, BitVec.xor_self]
  rw [commonMask, highestBit, hxor, highestBitUnmarked, if_pos rfl, mark, BitVec.or_zero, zero]

theorem lessThan_zero (hk : k ≤ size) : lessThan (maskAt size k) zero = false := by
  rcases Nat.eq_or_lt_of_le hk with rfl | hlt
  · rw [← zero_eq_maskAt]
    exact decide_eq_false (BitVec.lt_irrefl _)
  · rw [lessThan, decide_eq_false_iff_not, BitVec.lt_def, toNat_maskAt hlt, toNat_zero]
    exact Nat.not_lt.mpr (Nat.le_add_right _ _)

theorem joinMask_self (hk : k ≤ size) : joinMask (beGenPrefix size) (maskAt size k) key key = maskAt size k := by
  have hcom : (beGenPrefix size).commonMask key key = zero := commonMask_self key
  have hshor : (beGenPrefix size).strictlyShorterMask zero (maskAt size k) = false := lessThan_zero hk
  rw [joinMask, hcom, hshor]
  rfl

/-- A leaf joins a tree whose keys agree with a prefix from a position on, if its key does not, or if the leaf does not
    reach above this position. -/
theorem exists_joins (hk : k < size) (hkey : Marked key) (hp : Marked p) (hall : ∀ x, Has x t → AgreeFrom j x p)
    (hj : AgreeFrom j key p → j ≤ k) : ∃ b, Joins key k p b t := by
  by_cases heq : key = p
  · subst heq
    have hjk := hj (AgreeFrom.refl j key)
    exact ⟨k, hk, le_refl k, joinMask_self hk.le, AgreeFrom.refl _ _,
      fun x hx => (hall x hx).mono (hjk.trans (Nat.le_succ k)), fun x hx _ => ((hall x hx).mono hjk).symm⟩
  · have hd := differAt_log2 heq
    generalize (key ^^^ p).toNat.log2 = c at hd
    have hjb : j ≤ max c k := by
      by_cases hagr : AgreeFrom j key p
      · exact (hj hagr).trans (le_max_right c k)
      · exact (hd.le_of_not_agree hagr).trans (le_max_left c k)
    refine ⟨max c k, max_lt (DifferAt.lt_size hkey hp hd) hk, le_max_right c k, joinMask_maskAt hkey hp hd hk,
      hd.agree.mono (Nat.succ_le_succ (le_max_left c k)), fun x hx => (hall x hx).mono (hjb.trans (Nat.le_succ _)),
      fun x hx hb => ?_⟩
    have hxp := (hall x hx).mono hjb
    rcases Nat.lt_or_ge c k with hlt | hge
    · -- the keys differ under the leaf only
      rw [Nat.max_eq_right hlt.le] at hxp
      exact (hd.agree.mono hlt).trans hxp.symm
    · rw [Nat.max_eq_left hge] at hb hxp
      exact absurd (hb.symm.trans (hxp c le_rfl)) hd.differ

/-! ### Adding a prefix -/

variable (combine : ν → ν → ν)

section Leaf
variable {leafKey : Bits size} (hj : j ≤ size) (hleaf : Marked leafKey)
include hj hleaf

theorem gains_self (h : k ≤ j) (hagr : AgreeFrom j key leafKey) :
    Gains key k (.leaf leafKey (maskAt size j) leafValue) (.leaf leafKey (maskAt size j) leafValue) := by
  refine ⟨.leaf hj hleaf, fun x => ?_⟩
  rw [has_leaf hj hleaf]
  exact (or_iff_left_of_imp fun h' => hagr.symm.trans (h'.mono h)).symm

theorem gains_replace (hkey : Marked key) (hk : k ≤ size) (h : j ≤ k) (hagr : AgreeFrom k key leafKey) :
    Gains key k (.leaf leafKey (maskAt size j) leafValue) (.leaf key (maskAt size k) value) := by
  refine ⟨.leaf hk hkey, fun x => ?_⟩
  rw [has_leaf hk hkey, has_leaf hj hleaf]
  exact (or_iff_right_of_imp fun h' => hagr.trans (h'.mono h)).symm

/-- `::/0` is joined with itself under the marker bit, on the side that every key is on. -/
theorem gains_leaf_zero (hmis : misplaced same key value zero (.leaf leafKey (maskAt size j) leafValue) = false) :
    Gains key size (.leaf leafKey (maskAt size j) leafValue)
      (addNe (beGenPrefix size) combine same key value zero (.leaf leafKey (maskAt size j) leafValue)) := by
  rw [misplaced, if_pos rfl, decide_eq_false_iff_not, not_or, not_not, not_not, maskAt_eq_zero hj] at hmis
  obtain ⟨rfl, rfl⟩ := hmis
  rw [addNe]
  split
  · split
    · exact gains_self hj hleaf le_rfl (AgreeFrom.refl _ _)
    · rw [zero_eq_maskAt]
      exact gains_replace hj hleaf hleaf le_rfl le_rfl (AgreeFrom.refl _ _)
  · have hshor : (beGenPrefix j).strictlyShorterMask zero zero = false := decide_eq_false (BitVec.lt_irrefl _)
    have hcut := agreeFrom_applyMask (x := leafKey) (Nat.le_refl j)
    have hmar := marked_of_agree le_rfl hleaf hcut.symm
    have hjoin : join (beGenPrefix j) zero leafKey (.leaf leafKey zero value) leafKey (.leaf leafKey zero leafValue) =
        fork (applyMask leafKey (maskAt j j)) j leafKey (.leaf leafKey (maskAt j j) value)
          (.leaf leafKey (maskAt j j) leafValue) := by
      rw [zero_eq_maskAt, join, joinMask_self le_rfl]
      rfl
    rw [← zero_eq_maskAt, hshor, Bool.false_and, if_neg Bool.false_ne_true, if_neg Bool.false_ne_true]
    rw [show (beGenPrefix j).keyPrefix leafKey = leafKey from rfl, hjoin, zero_eq_maskAt]
    refine gains_fork le_rfl (applyMask_idem le_rfl) hmar (.leaf le_rfl hleaf) (.leaf le_rfl hleaf) hleaf le_rfl
      (hcut.symm.mono (Nat.le_succ j)) (fun x hx => (agreeFrom_size hx.1 hmar).mono (Nat.le_succ j)) (fun x _ => ?_)
      fun x _ => Iff.rfl
    rw [has_leaf le_rfl hleaf, has_leaf le_rfl hleaf, or_self]

theorem gains_leaf (hkey : Marked key) (hk : k < size)
    (hmis : misplaced same key value (maskAt size k) (.leaf leafKey (maskAt size j) leafValue) = false) :
    Gains key k (.leaf leafKey (maskAt size j) leafValue)
      (addNe (beGenPrefix size) combine same key value (maskAt size k) (.leaf leafKey (maskAt size j) leafValue)) := by
  have hzero : ¬maskAt size k = zero := fun h => hk.ne ((maskAt_eq_zero hk.le).mp h)
  rw [misplaced, if_neg hzero, Bool.or_eq_false_iff, Bool.or_eq_false_iff] at hmis
  obtain ⟨⟨hall, hsame⟩, hhid⟩ := hmis
  have hlt : j < size := Nat.lt_of_le_of_ne hj fun h => of_decide_eq_false hall ((maskAt_eq_zero hj).mpr h)
  -- a leaf that contains the prefix is seen to do so
  have hseen : k < j → AgreeFrom j key leafKey → matchPrefix key leafKey (maskAt size j) = true := fun hkj hagr => by
    have hshor : strictlyShorterMask (maskAt size j) (maskAt size k) = true := by
      rw [strictlyShorterMask, lessThan_maskAt hk hlt, decide_eq_true hkj]
    rwa [hshor, (matchingKey_maskAt hj).mpr hagr.symm, Bool.and_self, Bool.true_and, Bool.not_eq_false'] at hhid
  rw [addNe]
  split
  · rename_i heq
    obtain ⟨rfl, hone⟩ := heq
    obtain rfl := (maskAt_eq_one hlt).mp hone
    split
    · rename_i hs
      rw [hs, Bool.true_and, decide_eq_false_iff_not, not_and, not_and, not_not] at hsame
      obtain rfl := (maskAt_eq_one hk).mp (hsame rfl hone)
      exact gains_self hj hleaf le_rfl (AgreeFrom.refl _ _)
    · exact gains_replace hj hleaf hkey hk.le (Nat.zero_le k) (AgreeFrom.refl _ _)
  · split
    · rename_i hkeep
      obtain ⟨hshor, hmat⟩ := Bool.and_eq_true_iff.mp hkeep
      have hkj : k < j := of_decide_eq_true ((lessThan_maskAt hk hlt).symm.trans hshor)
      have heq : applyMask key (maskAt size j) = leafKey := of_decide_eq_true hmat
      exact gains_self hj hleaf hkj.le (heq ▸ (agreeFrom_applyMask hj).symm)
    · split
      · rename_i hrep
        obtain ⟨hshor, hmat⟩ := Bool.and_eq_true_iff.mp hrep
        have hjk : j < k := of_decide_eq_true ((lessThan_maskAt hlt hk).symm.trans hshor)
        have heq : applyMask leafKey (maskAt size k) = key := of_decide_eq_true hmat
        exact gains_replace hj hleaf hkey hk.le hjk.le (heq ▸ agreeFrom_applyMask hk.le)
      · rename_i hkeep _
        have hnested : Nested (.leaf leafKey (maskAt size j) leafValue) := .leaf hj hleaf
        obtain ⟨b, hb⟩ := exists_joins (t := .leaf leafKey (maskAt size j) leafValue) hk hkey hleaf
          (fun x hx => ((has_leaf hj hleaf).mp hx).symm) fun hagr => by
            by_contra hjk
            refine hkeep (Bool.and_eq_true_iff.mpr ⟨?_, hseen (Nat.lt_of_not_le hjk) hagr⟩)
            exact (lessThan_maskAt hk hlt).trans (decide_eq_true (Nat.lt_of_not_le hjk))
        exact gains_join hkey hleaf hnested hb

end Leaf

theorem misplaced_branch {m : Bits size} :
    misplaced same key value (maskAt size k) (branch p m (selectKeyBit (beGenPrefix size) key m) s o) =
      if matchPrefix key p m then
        if maskAt size k = zero ∧ m ≠ zero ∨ strictlyShorterMask (maskAt size k) m = true then true
        else misplaced same key value (maskAt size k) s
      else decide (maskAt size k = zero ∨ commonMask key p = m) := by
  cases hs : selectKeyBit (beGenPrefix size) key m <;> simp [branch, misplaced, hs]

theorem le_of_not_shorter (hk : k ≤ size) (hc : c ≤ size)
    (h : ¬(maskAt size k = zero ∧ maskAt size c ≠ zero ∨
      strictlyShorterMask (maskAt size k) (maskAt size c) = true)) :
    k ≤ c := by
  obtain ⟨hzero, hshor⟩ := not_or.mp h
  by_contra hck
  have hck := Nat.lt_of_not_le hck
  rcases Nat.eq_or_lt_of_le hk with rfl | hlt
  · exact hzero ⟨zero_eq_maskAt.symm, fun h => hck.ne ((maskAt_eq_zero hc).mp h)⟩
  · refine hshor ?_
    rw [strictlyShorterMask, lessThan_maskAt (hck.trans hlt) hlt, decide_eq_true hck]

/-- A prefix that is not misplaced adds its keys to the tree, and no others. -/
theorem gains_addNe (h : Nested t) (hk : k ≤ size) (hkey : Marked key)
    (hmis : misplaced same key value (maskAt size k) t = false) :
    Gains key k t (addNe (beGenPrefix size) combine same key value (maskAt size k) t) := by
  induction t using descend (beGenPrefix size) key with
  | leaf leafKey mask leafValue =>
    cases h with
    | leaf hj hleaf =>
      rcases Nat.eq_or_lt_of_le hk with rfl | hlt
      · rw [← zero_eq_maskAt] at hmis ⊢
        exact gains_leaf_zero combine hj hleaf hmis
      · exact gains_leaf combine hj hleaf hkey hlt hmis
  | node p m s o ih =>
    obtain ⟨c, hc, rfl, cut, hp, hs, ho, within⟩ := h.of_branch
    rw [misplaced_branch] at hmis
    rw [addNe_branch]
    by_cases hmat : matchPrefix key p (maskAt size c) = true
    · rw [if_pos hmat] at hmis
      rw [show (beGenPrefix size).matchPrefix key p (maskAt size c) = true from hmat, if_pos rfl]
      split at hmis
      · cases hmis
      · rename_i hlong
        obtain ⟨hnst, hgain⟩ := ih hs hmis
        have hagr := ((matchPrefix_iff hc cut).mp hmat).mono (Nat.le_succ c)
        refine gains_fork hc cut hp hnst ho hkey (le_of_not_shorter hk hc hlong) hagr within (fun x hb => ?_) fun x hb => ?_
        · exact (hgain x).trans (or_congr_left (has_fork.trans (by rw [if_pos hb])).symm)
        · exact (has_fork.trans (by rw [if_neg hb])).symm
    · rw [if_neg hmat, decide_eq_false_iff_not, not_or, maskAt_eq_zero hk] at hmis
      obtain ⟨hzero, hcross⟩ := hmis
      have hnot := mt (matchPrefix_iff hc cut).mpr hmat
      have hd := differAt_log2 (ne_of_not_agree hnot)
      have hmask : commonMask key p = maskAt size _ := commonMask_eq hkey hp hd
      -- the key differs from the prefix above the branching, where all keys of the node agree with it
      have habove : ¬AgreeFrom (c + 1) key p := hd.not_agree <|
        Nat.lt_of_le_of_ne (hd.le_of_not_agree hnot) fun heq => hcross (hmask.trans (by rw [← heq]))
      rw [show (beGenPrefix size).matchPrefix key p (maskAt size c) = false from Bool.eq_false_iff.mpr hmat,
        if_neg Bool.false_ne_true]
      obtain ⟨b, hb⟩ := exists_joins (Nat.lt_of_le_of_ne hk hzero) hkey hp within fun hagr => absurd hagr habove
      exact gains_join hkey hp h hb

end Tezos.HashPtree
