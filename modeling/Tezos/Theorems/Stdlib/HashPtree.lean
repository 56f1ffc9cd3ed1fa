import Tezos.Lib.BitVectors
import Tezos.Stdlib.HashPtree

/-! Trees whose leaves are single keys: as long as no key crosses a node, they are sets. -/

namespace Tezos.HashPtree
open Lib Bits BEGenPrefix

section
open BitVec

namespace Bits
variable {size : Nat} {x : Bits size} {i j k : Nat}

theorem higherBit_eq : (higherBit : Bits size) = twoPow _ size := (twoPow_eq _ _).symm

@[simp] theorem getLsbD_higherBit : (higherBit : Bits size).getLsbD i = decide (i = size) := by
  rw [higherBit_eq]
  simp [eq_comm]

@[simp] theorem getLsbD_mark : (mark x).getLsbD i = (decide (i = size) || x.getLsbD i) := by
  rw [mark, getLsbD_or, getLsbD_higherBit]

abbrev Marked (x : Bits size) : Prop := x.getLsbD size = true

def maskAt (size k : Nat) : Bits size := mark (twoPow _ k)

theorem one_eq_maskAt : (one : Bits size) = maskAt size 0 := by
  rw [one, maskAt, twoPow_eq, shiftLeft_zero]

theorem zero_eq_maskAt : (zero : Bits size) = maskAt size size := by
  rw [maskAt, mark, ← higherBit_eq, BitVec.or_self, zero]

theorem toNat_maskAt (h : k < size) : (maskAt size k).toNat = 2 ^ size + 2 ^ k := by
  have hk : 2 ^ k < 2 ^ size := Nat.pow_lt_pow_right Nat.one_lt_two h
  have hsize : 2 ^ size < 2 ^ (size + 1) := Nat.pow_lt_pow_right Nat.one_lt_two (Nat.lt_succ_self size)
  rw [maskAt, mark, higherBit_eq, toNat_or, toNat_twoPow, toNat_twoPow,
    Nat.mod_eq_of_lt hsize, Nat.mod_eq_of_lt (hk.trans hsize)]
  have := Nat.two_pow_add_eq_or_of_lt hk 1
  rw [Nat.mul_one] at this
  exact this.symm

theorem toNat_zero : (zero : Bits size).toNat = 2 ^ size := by
  rw [zero, higherBit_eq, toNat_twoPow]
  exact Nat.mod_eq_of_lt (Nat.pow_lt_pow_right Nat.one_lt_two (Nat.lt_succ_self size))

theorem getLsbD_pred_maskAt (h : k ≤ size) (hi : i ≠ size) : (pred (maskAt size k)).getLsbD i = decide (i < k) := by
  have toNat_pred (z : Bits size) (hz : 1 ≤ z.toNat) : (pred z).toNat = z.toNat - 1 := by
    have h1 : (1#(size + 1)).toNat = 1 := toNat_one (Nat.succ_pos size)
    rw [pred, toNat_sub_of_le (by rwa [le_def, h1]), h1]
  rw [getLsbD]
  rcases Nat.eq_or_lt_of_le h with rfl | hk
  · rw [← zero_eq_maskAt, toNat_pred _ (by rw [toNat_zero]; exact Nat.one_le_two_pow), toNat_zero,
      Nat.testBit_two_pow_sub_one]
  · have hlt : 2 ^ k - 1 < 2 ^ size :=
      (Nat.sub_le _ _).trans_lt (Nat.pow_lt_pow_right Nat.one_lt_two hk)
    have hor := Nat.two_pow_add_eq_or_of_lt hlt 1
    rw [Nat.mul_one] at hor
    have hpos : 1 ≤ (maskAt size k).toNat := by
      rw [toNat_maskAt hk]
      exact Nat.one_le_two_pow.trans (Nat.le_add_right _ _)
    rw [toNat_pred _ hpos, toNat_maskAt hk, Nat.add_sub_assoc Nat.one_le_two_pow, hor, Nat.testBit_or, Nat.testBit_two_pow]
    simp [hi.symm]

theorem lessThan_maskAt (hj : j < size) (hk : k < size) :
    lessThan (maskAt size j) (maskAt size k) = decide (j < k) := by
  rw [lessThan, decide_eq_decide, lt_def, toNat_maskAt hj, toNat_maskAt hk, Nat.add_lt_add_iff_left,
    Nat.pow_lt_pow_iff_right Nat.one_lt_two]

theorem maskAt_inj (hj : j < size) (hk : k < size) (h : maskAt size j = maskAt size k) : j = k := by
  have h := congrArg BitVec.toNat h
  rw [toNat_maskAt hj, toNat_maskAt hk] at h
  exact Nat.pow_right_injective le_rfl (Nat.add_left_cancel h)

end Bits

namespace BEGenPrefix
variable {size : Nat} {x y p : Bits size} {i k : Nat}

theorem getLsbD_applyMask (h : k ≤ size) :
    (applyMask x (maskAt size k)).getLsbD i = (x.getLsbD i && decide (k ≤ i)) := by
  by_cases hw : i < size + 1
  · by_cases hi : i = size
    · subst hi
      simp [applyMask, lnot, h]
    · rw [applyMask, lnot, getLsbD_and, getLsbD_or, getLsbD_not, getLsbD_pred_maskAt h hi,
        getLsbD_higherBit]
      simp only [hw, hi, decide_true, decide_false, Bool.true_and, Bool.or_false, ← decide_not, Nat.not_lt]
  · rw [getLsbD_of_ge _ _ (Nat.le_of_not_lt hw), getLsbD_of_ge _ _ (Nat.le_of_not_lt hw)]
    rfl

theorem applyMask_eq_iff (h : k ≤ size) :
    applyMask x (maskAt size k) = applyMask y (maskAt size k) ↔ AgreeFrom k x y := by
  constructor
  · intro heq i hi
    have := congrArg (getLsbD · i) heq
    simpa [getLsbD_applyMask h, hi] using this
  · intro hag
    refine eq_of_getLsbD_eq fun i _ => ?_
    rw [getLsbD_applyMask h, getLsbD_applyMask h]
    by_cases hi : k ≤ i
    · rw [hag i hi]
    · simp [hi]

theorem applyMask_idem (h : k ≤ size) :
    applyMask (applyMask x (maskAt size k)) (maskAt size k) = applyMask x (maskAt size k) := by
  refine eq_of_getLsbD_eq fun i _ => ?_
  rw [getLsbD_applyMask h, getLsbD_applyMask h, Bool.and_assoc, Bool.and_self]

theorem agreeFrom_applyMask (h : k ≤ size) : AgreeFrom k (applyMask x (maskAt size k)) x :=
  (applyMask_eq_iff h).mp (applyMask_idem h)

theorem matchPrefix_iff (h : k ≤ size) (hp : applyMask p (maskAt size k) = p) :
    matchPrefix x p (maskAt size k) = true ↔ AgreeFrom k x p := by
  rw [matchPrefix, decide_eq_true_iff, ← applyMask_eq_iff h, hp]

theorem selectBit_maskAt (h : k < size) (hx : Marked x) : selectBit x (maskAt size k) = x.getLsbD k := by
  have hbit (i : Nat) : (x &&& maskAt size k).getLsbD i = (x.getLsbD i && (decide (i = size) || decide (i = k))) := by
    by_cases hw : i < size + 1
    · have hk : k < size + 1 := h.trans (Nat.lt_succ_self size)
      simp [maskAt, getLsbD_twoPow, hk, eq_comm]
    · rw [getLsbD_of_ge _ _ (Nat.le_of_not_lt hw), getLsbD_of_ge _ _ (Nat.le_of_not_lt hw)]
      rfl
  have hz : (x &&& maskAt size k = zero) ↔ x.getLsbD k = false := by
    constructor
    · intro heq
      have := congrArg (getLsbD · k) heq
      simpa [hbit, zero, h.ne] using this
    · intro hk
      refine eq_of_getLsbD_eq fun i _ => ?_
      rw [hbit, zero, getLsbD_higherBit]
      by_cases hi : i = size
      · simp [hi, hx]
      · by_cases hik : i = k <;> simp [hi, hik, hk, h.ne]
  cases hk : x.getLsbD k with
  | true => rw [selectBit, decide_eq_false (by simp [hz, hk]), Bool.not_false]
  | false => rw [selectBit, decide_eq_true (hz.mpr hk), Bool.not_true]

theorem commonMask_eq (hx : Marked x) (hy : Marked y) (h : DifferAt k x y) :
    commonMask x y = maskAt size k := by
  have hne : x ≠ y := fun heq => h.differ (by rw [heq])
  have hxor : unmark (lxor x y) = x ^^^ y := by
    refine eq_of_getLsbD_eq fun i _ => ?_
    rw [unmark, lxor, getLsbD_xor, getLsbD_or, getLsbD_xor, getLsbD_higherBit]
    by_cases hi : i = size
    · simp only [hi, hx, hy, decide_true, Bool.xor_self, Bool.false_or]
    · simp only [hi, decide_false, Bool.false_xor, Bool.or_false]
  rw [commonMask, highestBit, hxor, highestBitUnmarked, if_neg (by rwa [xor_eq_zero_iff]),
    (differAt_log2 hne).unique h, maskAt, twoPow_eq]

end BEGenPrefix

end

open List

section Keys
variable {κ π μ ν : Type}

def keys : Tree κ π μ ν → List κ
  | .leaf key _ _ => [key]
  | .node _ _ true_ false_ => keys false_ ++ keys true_

theorem exists_mem_keys (t : Tree κ π μ ν) : ∃ x, x ∈ keys t := by
  induction t with
  | leaf key mask value => exact ⟨key, mem_singleton_self key⟩
  | node p m t f iht ihf =>
    obtain ⟨x, hx⟩ := iht
    exact ⟨x, mem_append_right _ hx⟩

/-- The key crosses a node: on its way down it meets a node whose prefix it does not match, although the bit the
    node branches at is the first one at which they differ. -/
def crosses [DecidableEq μ] (P : Prefix κ π μ) (key : κ) : Tree κ π μ ν → Bool
  | .leaf _ _ _ => false
  | .node nodePrefix nodeMask true_ false_ =>
    if P.matchPrefix key nodePrefix nodeMask then
      if selectKeyBit P key nodeMask then crosses P key true_ else crosses P key false_
    else decide (P.commonMask (P.keyPrefix key) nodePrefix = nodeMask)

/-- The node that has a subtree on the side of a bit, and another one on the other side. -/
def branch (p : π) (m : μ) (b : Bool) (s o : Tree κ π μ ν) : Tree κ π μ ν :=
  if b then .node p m s o else .node p m o s

def rebuildSides (p : π) (m : μ) (b : Bool) (s o : T κ π μ ν) : T κ π μ ν :=
  if b then rebuildBranch p m s o else rebuildBranch p m o s

def keysT : T κ π μ ν → List κ
  | none => []
  | some t => keys t

variable {P : Prefix κ π μ} {key x : κ} {p : π} {m : μ} {b : Bool} {s o : Tree κ π μ ν}

theorem descend (P : Prefix κ π μ) (key : κ) {motive : Tree κ π μ ν → Prop}
    (leaf : ∀ leafKey mask value, motive (.leaf leafKey mask value))
    (node : ∀ p m s o, motive s → motive (branch p m (selectKeyBit P key m) s o))
    (t : Tree κ π μ ν) : motive t := by
  induction t with
  | leaf leafKey mask value => exact leaf leafKey mask value
  | node p m t f iht ihf =>
    have ht := node p m t f iht
    have hf := node p m f t ihf
    cases hs : selectKeyBit P key m with
    | true => rwa [hs] at ht
    | false => rwa [hs] at hf

theorem mem_keys_branch : x ∈ keys (branch p m b s o) ↔ x ∈ keys s ∨ x ∈ keys o := by
  cases b <;> simp [branch, keys, or_comm]

theorem nodup_keys_branch :
    (keys (branch p m b s o)).Nodup ↔ (keys s).Nodup ∧ (keys o).Nodup ∧ (keys s).Disjoint (keys o) := by
  cases b with
  | false => exact nodup_append'
  | true => exact nodup_append_comm.trans nodup_append'

theorem mem_keysT_rebuildSides {s o : T κ π μ ν} : x ∈ keysT (rebuildSides p m b s o) ↔ x ∈ keysT s ∨
    x ∈ keysT o := by
  cases b <;> cases s <;> cases o <;> simp [rebuildSides, rebuildBranch, keysT, keys, or_comm]

theorem memNe_branch [DecidableEq π] : memNe P key (branch p m (selectKeyBit P key m) s o) = memNe P key s := by
  cases hs : selectKeyBit P key m <;> simp [branch, memNe, hs]

theorem crosses_branch [DecidableEq μ] : crosses P key (branch p m (selectKeyBit P key m) s o) =
    if P.matchPrefix key p m then crosses P key s else decide (P.commonMask (P.keyPrefix key) p = m) := by
  cases hs : selectKeyBit P key m <;> simp [branch, crosses, hs]

theorem addNe_branch [DecidableEq κ] [DecidableEq μ] (combine : ν → ν → ν) (same : ν → ν → Bool) (value : ν)
    (mask : μ) :
    addNe P combine same key value mask (branch p m (selectKeyBit P key m) s o) =
      if P.matchPrefix key p m then branch p m (selectKeyBit P key m) (addNe P combine same key value mask s) o
      else join P mask (P.keyPrefix key) (.leaf key mask value) p (branch p m (selectKeyBit P key m) s o) := by
  cases hs : selectKeyBit P key m <;> simp [branch, addNe, hs]

theorem removeNe_branch [DecidableEq π] : removeNe P key (branch p m (selectKeyBit P key m) s o) =
    if P.matchPrefix key p m then rebuildSides p m (selectKeyBit P key m) (removeNe P key s) (some o)
    else some (branch p m (selectKeyBit P key m) s o) := by
  cases hs : selectKeyBit P key m <;> simp [branch, rebuildSides, removeNe, hs]

theorem rebuildSides_some : rebuildSides p m b (some s) (some o) = some (branch p m b s o) := by
  cases b <;> rfl

theorem removeNe_crosses [DecidableEq π] [DecidableEq μ] {t : Tree κ π μ ν} (hc : crosses P key t = true) :
    removeNe P key t = some t := by
  induction t using descend P key with
  | leaf leafKey mask value => exact absurd hc Bool.false_ne_true
  | node p m s o ih =>
    rw [crosses_branch] at hc
    rw [removeNe_branch]
    by_cases hm : P.matchPrefix key p m = true
    · rw [if_pos hm] at hc ⊢
      rw [ih hc, rebuildSides_some]
    · rw [if_neg hm]

end Keys

abbrev BitTree (size : Nat) (ν : Type) := Tree (Bits size) (Bits size) (Bits size) ν

variable {size : Nat} {ν : Type} {key x p : Bits size} {k c : Nat} {b : Bool} {t s o : BitTree size ν}

/-- The keys of a tree are on the side `b` of a branching at the position `k` under a prefix. -/
def Side (p : Bits size) (k : Nat) (b : Bool) (t : BitTree size ν) : Prop :=
  ∀ x ∈ keys t, AgreeFrom (k + 1) x p ∧ x.getLsbD k = b

/-- Branches separate their keys at the bit of their mask. -/
inductive Sound : BitTree size ν → Prop
  | leaf {key : Bits size} {value : ν} (marked : key.getLsbD size = true) : Sound (.leaf key one value)
  | node {p : Bits size} {k : Nat} {t f : BitTree size ν} (lt : k < size)
      (cut : applyMask p (maskAt size k) = p) (marked : p.getLsbD size = true) (sound_true : Sound t)
      (sound_false : Sound f) (side_true : Side p k true t) (side_false : Side p k false f) :
      Sound (.node p (maskAt size k) t f)

theorem Sound.marked (h : Sound t) (hx : x ∈ keys t) : Marked x := by
  induction h with
  | leaf marked =>
    rw [mem_singleton.mp hx]
    exact marked
  | node _ _ _ _ _ _ _ iht ihf => exact (mem_append.mp hx).elim ihf iht

theorem selectKeyBit_maskAt (hk : k < size) (hx : Marked x) :
    selectKeyBit (beGenPrefix size) x (maskAt size k) = x.getLsbD k :=
  selectBit_maskAt hk hx

theorem matchingKey_one : matchingKey (beGenPrefix size) key x one = true ↔ x = key := by
  rw [matchingKey, decide_eq_true_iff, one_eq_maskAt]
  exact (applyMask_eq_iff (Nat.zero_le size)).trans (agreeFrom_zero.trans eq_comm)

theorem Side.not_mem (h : Side p k (!x.getLsbD k) t) : x ∉ keys t := fun hx => by
  have := (h x hx).2
  cases hb : x.getLsbD k <;> simp [hb] at this

/-- A node may branch at a position under a prefix. -/
structure Branches (p : Bits size) (k : Nat) : Prop where
  lt : k < size
  cut : applyMask p (maskAt size k) = p
  marked : Marked p

theorem Sound.branch (h : Branches p k) (hs : Sound s) (ho : Sound o) (side : Side p k b s) (other : Side p k (!b) o) :
    Sound (branch p (maskAt size k) b s o) := by
  cases b with
  | false => exact .node h.lt h.cut h.marked ho hs other side
  | true => exact .node h.lt h.cut h.marked hs ho side other

theorem Sound.of_branch {m : Bits size} (hkey : Marked key)
    (h : Sound (HashPtree.branch p m (selectKeyBit (beGenPrefix size) key m) s o)) :
    ∃ k, m = maskAt size k ∧ Branches p k ∧ Sound s ∧ Sound o ∧ Side p k (key.getLsbD k) s ∧
      Side p k (!key.getLsbD k) o := by
  cases hb : selectKeyBit (beGenPrefix size) key m with
  | false =>
    rw [hb] at h
    cases h with
    | node lt cut marked ho hs other side =>
      rw [selectKeyBit_maskAt lt hkey] at hb
      exact ⟨_, rfl, ⟨lt, cut, marked⟩, hs, ho, hb ▸ side, hb ▸ other⟩
  | true =>
    rw [hb] at h
    cases h with
    | node lt cut marked hs ho side other =>
      rw [selectKeyBit_maskAt lt hkey] at hb
      exact ⟨_, rfl, ⟨lt, cut, marked⟩, hs, ho, hb ▸ side, hb ▸ other⟩

theorem memNe_iff (h : Sound t) (hx : Marked x) : memNe (beGenPrefix size) x t = true ↔ x ∈ keys t := by
  induction t using descend (beGenPrefix size) x with
  | leaf leafKey mask value =>
    cases h
    rw [memNe, matchingKey_one, keys, mem_singleton]
  | node p m s o ih =>
    obtain ⟨k, rfl, -, hs, -, -, other⟩ := h.of_branch hx
    rw [memNe_branch, ih hs, mem_keys_branch, or_iff_left other.not_mem]

theorem Sound.nodup (h : Sound t) : (keys t).Nodup := by
  induction h with
  | leaf _ => exact nodup_singleton _
  | node _ _ _ _ _ side_true side_false iht ihf =>
    refine nodup_append.mpr ⟨ihf, iht, fun x hx y hy heq => ?_⟩
    have hfal := (side_false x hx).2
    rw [heq, (side_true y hy).2] at hfal
    exact Bool.false_ne_true hfal.symm

/-! ### Adding a key -/

section
variable (hkey : Marked key) (hp : Marked p) (h : DifferAt c key p)
include hkey hp h

theorem DifferAt.lt_size : c < size := by
  refine Nat.lt_of_le_of_ne (Nat.le_of_lt_succ h.lt_width) fun heq => h.differ ?_
  rw [heq, hkey, hp]

theorem joinMask_maskAt (hk : k < size) : joinMask (beGenPrefix size) (maskAt size k) key p = maskAt size (max c k) := by
  have hc := DifferAt.lt_size hkey hp h
  have hcom : (beGenPrefix size).commonMask key p = maskAt size c := commonMask_eq hkey hp h
  have hshor : (beGenPrefix size).strictlyShorterMask (maskAt size c) (maskAt size k) = decide (k < c) :=
    lessThan_maskAt hk hc
  rw [joinMask, hcom, hshor]
  by_cases hlt : k < c
  · simp [hlt, Nat.max_eq_left hlt.le]
  · simp [hlt, Nat.max_eq_right (Nat.le_of_not_lt hlt)]

theorem joinMask_eq : joinMask (beGenPrefix size) one key p = maskAt size c := by
  rw [one_eq_maskAt, joinMask_maskAt hkey hp h (Nat.zero_lt_of_lt (DifferAt.lt_size hkey hp h)), Nat.max_zero]

theorem join_eq :
    join (beGenPrefix size) one key s p o = branch (applyMask p (maskAt size c)) (maskAt size c) (key.getLsbD c) s o := by
  have hsel : (beGenPrefix size).selectBit key (maskAt size c) = key.getLsbD c :=
    selectBit_maskAt (DifferAt.lt_size hkey hp h) hkey
  rw [join, joinMask_eq hkey hp h, hsel]
  rfl

end

theorem mem_keys_join {κ π μ : Type} {P : Prefix κ π μ} {m : μ} {p0 p1 : π} {t0 t1 : Tree κ π μ ν} {x : κ} :
    x ∈ keys (join P m p0 t0 p1 t1) ↔ x ∈ keys t0 ∨ x ∈ keys t1 :=
  mem_keys_branch

theorem sound_join {value : ν} (h : Sound t) (hkey : Marked key) (hp : Marked p)
    (hd : DifferAt c key p) (hall : ∀ x ∈ keys t, AgreeFrom c x p) :
    Sound (join (beGenPrefix size) one key (.leaf key one value) p t) := by
  have hc := DifferAt.lt_size hkey hp hd
  have hcut := agreeFrom_applyMask (x := p) hc.le
  have hmar : (applyMask p (maskAt size c)).getLsbD size = true := by rw [hcut size hc.le, hp]
  rw [join_eq hkey hp hd]
  refine .branch ⟨hc, applyMask_idem hc.le, hmar⟩ (.leaf hkey) h (fun x hx => ?_) fun x hx => ?_
  · rw [mem_singleton.mp hx]
    exact ⟨hd.agree.trans (hcut.symm.mono (Nat.le_succ c)), rfl⟩
  · refine ⟨((hall x hx).trans hcut.symm).mono (Nat.le_succ c), ?_⟩
    rw [hall x hx c le_rfl, Bool.eq_not]
    exact hd.differ.symm

variable (combine : ν → ν → ν) (same : ν → ν → Bool) (value : ν)

theorem addNe_leaf {leafKey : Bits size} {leafValue : ν} (hne : key ≠ leafKey) :
    addNe (beGenPrefix size) combine same key value one (.leaf leafKey one leafValue) =
      join (beGenPrefix size) one key (.leaf key one value) leafKey (.leaf leafKey one leafValue) := by
  have hshor : (beGenPrefix size).strictlyShorterMask one one = false := by
    exact decide_eq_false (BitVec.lt_irrefl _)
  rw [addNe, if_neg fun h => hne h.1, hshor, Bool.false_and]
  rfl

theorem matchPrefix_node (h : Branches p k) :
    (beGenPrefix size).matchPrefix key p (maskAt size k) = true ↔ AgreeFrom k key p :=
  matchPrefix_iff h.lt.le h.cut

theorem ne_of_not_agree (hm : ¬AgreeFrom k key p) : key ≠ p := fun heq => hm (heq ▸ AgreeFrom.refl k key)

theorem commonMask_node (h : Branches p k) (hkey : Marked key) (hm : ¬AgreeFrom k key p) :
    decide ((beGenPrefix size).commonMask ((beGenPrefix size).keyPrefix key) p = maskAt size k) = true ↔
      DifferAt k key p := by
  have hd := differAt_log2 (ne_of_not_agree hm)
  have hcom : (beGenPrefix size).commonMask ((beGenPrefix size).keyPrefix key) p = maskAt size _ :=
    commonMask_eq hkey h.marked hd
  rw [decide_eq_true_iff, hcom]
  refine ⟨fun heq => ?_, fun h => by rw [hd.unique h]⟩
  rw [← maskAt_inj (DifferAt.lt_size hkey h.marked hd) h.lt heq]
  exact hd

/-- The result of `addNe` on a tree that its key does not cross is the sound tree of one more key. -/
theorem addNe_sound (h : Sound t) (hkey : Marked key) (hc : crosses (beGenPrefix size) key t = false) :
    Sound (addNe (beGenPrefix size) combine same key value one t) ∧
      ∀ x, x ∈ keys (addNe (beGenPrefix size) combine same key value one t) ↔ x = key ∨ x ∈ keys t := by
  induction t using descend (beGenPrefix size) key with
  | leaf leafKey mask leafValue =>
    cases h with
    | leaf marked =>
      by_cases heq : key = leafKey
      · have hkeep : ∃ v, addNe (beGenPrefix size) combine same key value one (.leaf leafKey one leafValue) =
            .leaf key one v := by
          rw [addNe, if_pos ⟨heq, rfl⟩]
          split
          · exact ⟨leafValue, by rw [heq]⟩
          · exact ⟨_, rfl⟩
        obtain ⟨v, hv⟩ := hkeep
        rw [hv]
        exact ⟨.leaf hkey, fun x => by rw [keys, keys, ← heq, mem_singleton, or_self]⟩
      · rw [addNe_leaf combine same value heq]
        refine ⟨sound_join (.leaf marked) hkey marked (differAt_log2 heq) fun x hx => ?_, fun x => ?_⟩
        · rw [mem_singleton.mp hx]
          exact AgreeFrom.refl _ _
        · rw [mem_keys_join, keys, mem_singleton]
  | node p m s o ih =>
    obtain ⟨k, rfl, hbr, hs, ho, side, other⟩ := h.of_branch hkey
    rw [crosses_branch] at hc
    rw [addNe_branch]
    by_cases hm : AgreeFrom k key p
    · have hmat := (matchPrefix_node hbr).mpr hm
      rw [if_pos hmat] at hc
      obtain ⟨hsnd, hmem⟩ := ih hs hc
      rw [if_pos hmat, selectKeyBit_maskAt hbr.lt hkey]
      refine ⟨.branch hbr hsnd ho (fun x hx => ?_) other, fun x => ?_⟩
      · rcases (hmem x).mp hx with rfl | hx
        · exact ⟨hm.mono (Nat.le_succ k), rfl⟩
        · exact side x hx
      · rw [mem_keys_branch, hmem, mem_keys_branch, or_assoc]
    · -- the key and the prefix differ above the bit the node branches at
      have hnot := mt (matchPrefix_node hbr).mp hm
      have hd := differAt_log2 (ne_of_not_agree hm)
      rw [if_neg hnot] at hc
      have hlt : k + 1 ≤ (key ^^^ p).toNat.log2 := by
        refine Nat.lt_of_le_of_ne (hd.le_of_not_agree hm) fun heq => ?_
        rw [← heq] at hd
        exact Bool.false_ne_true (hc.symm.trans ((commonMask_node hbr hkey hm).mpr hd))
      rw [if_neg hnot]
      refine ⟨sound_join h hkey hbr.marked hd fun x hx => ?_, fun x => ?_⟩
      · rcases mem_keys_branch.mp hx with hx | hx
        · exact (side x hx).1.mono hlt
        · exact (other x hx).1.mono hlt
      · exact mem_keys_join.trans (by rw [keys, mem_singleton])

/-- Under a branching at the bit at which a key crosses a tree, the key stands alone on its side. -/
theorem join_out_of_reach (h : Sound t) (hkey : Marked key) (hp : Marked p)
    (hd : DifferAt k key p) (hx : x ∈ keys t) (hne : x ≠ key) (hbit : x.getLsbD k = key.getLsbD k) :
    memNe (beGenPrefix size) x (join (beGenPrefix size) one key (.leaf key one value) p t) = false := by
  have hsel := selectKeyBit_maskAt (DifferAt.lt_size hkey hp hd) (h.marked hx)
  rw [join_eq hkey hp hd, ← hbit, ← hsel, memNe_branch]
  refine Bool.eq_false_iff.mpr fun hmem => hne ?_
  rwa [memNe, matchingKey_one] at hmem

theorem not_nodup_join {κ π μ : Type} {P : Prefix κ π μ} {mask : μ} {p0 p1 : π} {key : κ} {t : Tree κ π μ ν}
    (hmem : key ∈ keys t) : ¬(keys (join P mask p0 (.leaf key mask value) p1 t)).Nodup := fun hnd =>
  (nodup_keys_branch.mp hnd).2.2 (mem_singleton_self key) hmem

/-- A key that crosses a node is put in front of it, on a side that the node has keys on: either the tree has the
    key twice then, or a key of that side is out of reach. -/
theorem addNe_crosses (h : Sound t) (hkey : Marked key) (hc : crosses (beGenPrefix size) key t = true) :
    ¬(keys (addNe (beGenPrefix size) combine same key value one t)).Nodup ∨
      ∃ x ∈ keys t, memNe (beGenPrefix size) x (addNe (beGenPrefix size) combine same key value one t) = false := by
  induction t using descend (beGenPrefix size) key with
  | leaf leafKey mask leafValue => exact absurd hc Bool.false_ne_true
  | node p m s o ih =>
    obtain ⟨k, rfl, hbr, hs, ho, side, other⟩ := h.of_branch hkey
    rw [crosses_branch] at hc
    rw [addNe_branch]
    by_cases hm : AgreeFrom k key p
    · have hmat := (matchPrefix_node hbr).mpr hm
      rw [if_pos hmat] at hc ⊢
      rcases ih hs hc with hdup | ⟨x, hx, hout⟩
      · exact .inl fun h => hdup (nodup_keys_branch.mp h).1
      · refine .inr ⟨x, mem_keys_branch.mpr (.inl hx), ?_⟩
        rwa [selectKeyBit_maskAt hbr.lt hkey, ← (side x hx).2, ← selectKeyBit_maskAt hbr.lt (hs.marked hx),
          memNe_branch]
    · have hnot := mt (matchPrefix_node hbr).mp hm
      rw [if_neg hnot] at hc ⊢
      have hd := (commonMask_node hbr hkey hm).mp hc
      by_cases hmem : key ∈ keys (branch p (maskAt size k) (selectKeyBit (beGenPrefix size) key (maskAt size k)) s o)
      · exact .inl (not_nodup_join value hmem)
      · obtain ⟨x, hx⟩ := exists_mem_keys s
        have hne : x ≠ key := fun heq => hmem (mem_keys_branch.mpr (.inl (heq ▸ hx)))
        refine .inr ⟨x, mem_keys_branch.mpr (.inl hx), ?_⟩
        exact join_out_of_reach value h hkey hbr.marked hd (mem_keys_branch.mpr (.inl hx)) hne (side x hx).2

/-! ### Removing a key -/

def SoundT (t : T (Bits size) (Bits size) (Bits size) ν) : Prop := ∀ s, t = some s → Sound s

theorem soundT_rebuildSides {s : T (Bits size) (Bits size) (Bits size) ν} (h : Branches p k)
    (hs : SoundT s) (ho : Sound o)
    (side : ∀ x ∈ keysT s, AgreeFrom (k + 1) x p ∧ x.getLsbD k = b) (other : Side p k (!b) o) :
    SoundT (rebuildSides p (maskAt size k) b s (some o)) := by
  rcases s with _ | s
  · have hnone : rebuildSides p (maskAt size k) b none (some o) = some o := by cases b <;> rfl
    rw [hnone]
    rintro s ⟨⟩
    exact ho
  · rw [rebuildSides_some]
    rintro s' ⟨⟩
    exact .branch h (hs s rfl) ho side other

theorem removeNe_of_not_mem (h : Sound t) (hmem : key ∉ keys t) : removeNe (beGenPrefix size) key t = some t := by
  induction h with
  | leaf _ =>
    rw [removeNe, if_neg]
    rw [matchingKey_one]
    exact fun heq => hmem (mem_singleton.mpr heq)
  | node lt cut _ _ _ _ _ iht ihf =>
    have hmem := not_or.mp fun h => hmem (mem_append.mpr h)
    rw [removeNe]
    split
    · split
      · rw [iht hmem.2]
        rfl
      · rw [ihf hmem.1]
        rfl
    · rfl

theorem removeNe_sound (h : Sound t) (hmem : key ∈ keys t) (hc : crosses (beGenPrefix size) key t = false) :
    SoundT (removeNe (beGenPrefix size) key t) ∧
      ∀ x, x ∈ keysT (removeNe (beGenPrefix size) key t) ↔ x ∈ keys t ∧ x ≠ key := by
  have hkey := h.marked hmem
  induction t using descend (beGenPrefix size) key with
  | leaf leafKey mask value =>
    cases h
    have heq := mem_singleton.mp hmem
    rw [removeNe, if_pos (matchingKey_one.mpr heq)]
    refine ⟨nofun, fun x => ⟨nofun, fun ⟨hx, hne⟩ => absurd ((mem_singleton.mp hx).trans heq.symm) hne⟩⟩
  | node p m s o ih =>
    obtain ⟨k, rfl, hbr, hs, ho, side, other⟩ := h.of_branch hkey
    have hmem' : key ∈ keys s := (mem_keys_branch.mp hmem).resolve_right other.not_mem
    have hagr := (side key hmem').1
    rw [crosses_branch] at hc
    have hm : AgreeFrom k key p := by
      by_contra hm
      have hbit : key.getLsbD k ≠ p.getLsbD k := fun hbit => hm (agreeFrom_iff_succ.mpr ⟨hbit, hagr⟩)
      rw [if_neg (mt (matchPrefix_node hbr).mp hm)] at hc
      exact Bool.false_ne_true (hc.symm.trans ((commonMask_node hbr hkey hm).mpr ⟨hbit, hagr⟩))
    have hmat := (matchPrefix_node hbr).mpr hm
    rw [if_pos hmat] at hc
    obtain ⟨hsnd, hsub⟩ := ih hs hmem' hc
    rw [removeNe_branch, if_pos hmat, selectKeyBit_maskAt hbr.lt hkey]
    refine ⟨soundT_rebuildSides hbr hsnd ho (fun x hx => side x ((hsub x).mp hx).1) other, fun x => ?_⟩
    rw [mem_keysT_rebuildSides, hsub, mem_keys_branch, or_and_right]
    exact or_congr_right ⟨fun hx => ⟨hx, fun heq => other.not_mem (heq ▸ hx)⟩, And.left⟩

/-! ### The entries that a filter keeps -/

section Filter
variable {κ π μ ν ρ : Type} (P : Prefix κ π μ)

/-- The nodes through which the bits of a key lead, and the leaf they lead to. -/
def descent (k : κ) : Tree κ π μ ν → List (π × μ) × κ × μ × ν
  | .leaf key mask value => ([], key, mask, value)
  | .node nodePrefix nodeMask true_ false_ =>
    let below := if selectKeyBit P k nodeMask then descent k true_ else descent k false_
    ((nodePrefix, nodeMask) :: below.1, below.2)

/-- In the other tree a key leads to the same leaf, through some of the nodes. -/
def SameDescent (k : κ) (t t' : Tree κ π μ ν) : Prop :=
  (descent P k t').2 = (descent P k t).2 ∧ (descent P k t').1.Sublist (descent P k t).1

variable {P} {k : κ} {q : π} {m : μ} {b : Bool} {s o s' : Tree κ π μ ν}

theorem descent_branch : descent P k (branch q m (selectKeyBit P k m) s o) =
    ((q, m) :: (descent P k s).1, (descent P k s).2) := by
  cases hs : selectKeyBit P k m <;> simp [branch, descent, hs]

theorem SameDescent.rebuild (h : SameDescent P k s s') (o' : T κ π μ ν) :
    ∃ r, rebuildSides q m (selectKeyBit P k m) (some s') o' = some r ∧
      SameDescent P k (branch q m (selectKeyBit P k m) s o) r := by
  unfold SameDescent
  rw [descent_branch]
  rcases o' with _ | o'
  · exact ⟨s', by cases selectKeyBit P k m <;> rfl, h.1, h.2.cons _⟩
  · refine ⟨_, rebuildSides_some, ?_⟩
    rw [descent_branch]
    exact ⟨h.1, h.2.cons_cons _⟩

theorem fold_rebuildBranch (g : κ → μ → ν → ρ → ρ) (t f : T κ π μ ν) (acc : ρ) :
    fold g (rebuildBranch q m t f) acc = fold g t (fold g f acc) := by
  cases t <;> cases f <;> rfl

variable {reduce : T κ π μ ν → ν → ν → ν} {p : ν → Bool}

theorem filterNe_branch : filterNe (fun _ _ value => value) reduce p (branch q m b s o) =
    if p (mapReduceNe (fun _ _ value => value) reduce (branch q m b s o)) then some (branch q m b s o)
    else rebuildSides q m b (filterNe (fun _ _ value => value) reduce p s)
      (filterNe (fun _ _ value => value) reduce p o) := by
  cases b <;> rfl

theorem descent_filterNe (k : κ) (t : Tree κ π μ ν) (h : p (descent P k t).2.2.2 = true) :
    ∃ t', filterNe (fun _ _ value => value) reduce p t = some t' ∧ SameDescent P k t t' := by
  induction t using descend P k with
  | leaf key mask value => exact ⟨_, if_pos h, rfl, .refl _⟩
  | node q m s o ih =>
    rw [filterNe_branch]
    split
    case isTrue => exact ⟨_, rfl, rfl, .refl _⟩
    case isFalse =>
      rw [descent_branch] at h
      obtain ⟨s', heq, hsame⟩ := ih h
      rw [heq]
      exact hsame.rebuild _

variable (hp : ∀ t a b, p (reduce t a b) = (p a && p b))
include hp

theorem foldNe_of_mapReduceNe (g : κ → μ → ν → ρ → ρ) (t : Tree κ π μ ν) (acc : ρ)
    (h : p (mapReduceNe (fun _ _ value => value) reduce t) = true) :
    foldNe (fun key mask value acc => if p value then g key mask value acc else acc) t acc = foldNe g t acc := by
  induction t generalizing acc with
  | leaf key mask value => exact if_pos h
  | node q m t f iht ihf =>
    rw [mapReduceNe, hp, Bool.and_eq_true] at h
    rw [foldNe, foldNe, ihf acc h.2, iht _ h.1]

theorem fold_filterNe (g : κ → μ → ν → ρ → ρ) (t : Tree κ π μ ν) (acc : ρ) :
    fold g (filterNe (fun _ _ value => value) reduce p t) acc =
      foldNe (fun key mask value acc => if p value then g key mask value acc else acc) t acc := by
  induction t generalizing acc with
  | leaf key mask value => exact apply_ite (fold g · acc) _ _ _
  | node q m t f iht ihf =>
    rw [filterNe]
    split
    case isTrue h => exact (foldNe_of_mapReduceNe hp g _ acc h).symm
    case isFalse => rw [fold_rebuildBranch, ihf, iht, foldNe]

end Filter

end Tezos.HashPtree
