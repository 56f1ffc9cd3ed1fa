import Tezos.Base.BlockLocator

/-! The steps of a locator: the receiver draws the steps the sender drew. -/

namespace Tezos.BlockLocator
open DataEncoding List

/-! ### The generator -/

section
variable (sha256 : MBytes → Digest) (s : State) {e : Nat}

theorem next_state_step : (next sha256 s).2.step = if s.counter = 0 then s.step * 2#32 else s.step := by
  simp only [next]
  split <;> rfl

theorem next_state_counter : (next sha256 s).2.counter = if s.counter = 0 then 9 else s.counter - 1 := by
  simp only [next]
  split <;> rfl

theorem toInt_ofNat_of_lt {n : Nat} (hn : n < 2 ^ 31) : (BitVec.ofNat 32 n).toInt = n := by
  rw [BitVec.toInt_eq_toNat_bmod, BitVec.toNat_ofNat, Nat.mod_eq_of_lt (by omega),
    Int.bmod_eq_of_le (by omega) (by omega)]

theorem toInt_two_pow (he : e ≤ 30) : (BitVec.ofNat 32 (2 ^ e)).toInt = 2 ^ e := by
  rw [toInt_ofNat_of_lt (Nat.pow_lt_pow_right (Nat.lt_succ_self 1) (Nat.lt_succ_of_le he)), Nat.cast_pow,
    Nat.cast_ofNat]

theorem next_eq (he : e ≤ 30) (hs : s.step = BitVec.ofNat 32 (2 ^ e)) :
    (next sha256 s).1 = 2 ^ e - (getInt32 s.seed).toInt.tmod (2 ^ e / 2 + 1) := by
  have hstep : s.step.toInt = 2 ^ e := hs ▸ toInt_two_pow he
  have hle : (2 : Int) ^ e ≤ 2 ^ 30 := pow_le_pow_right₀ (by decide) he
  have hpos : (1 : Int) ≤ 2 ^ e := one_le_pow₀ (by decide)
  have htwo : (2#32).toInt = 2 := by decide
  have hone : (1#32).toInt = 1 := by decide
  simp only [next]
  by_cases hsle : s.step.sle 1#32 = true
  · have hlen : (2 : Int) ^ e ≤ 1 := by
      rw [← hstep, ← hone]
      exact BitVec.sle_iff_toInt_le.mp hsle
    have hhalf : (2 : Int) ^ e / 2 + 1 = 1 := by omega
    rw [if_pos hsle, BitVec.sub_zero, hstep, hhalf, Int.tmod_one, Int.sub_zero]
  · have hdiv : (s.step.sdiv 2#32).toInt = 2 ^ e / 2 := by
      rw [BitVec.toInt_sdiv, hstep, htwo, Int.tdiv_eq_ediv_of_nonneg (by omega),
        Int.bmod_eq_of_le (by omega) (by omega)]
    have hhalf : (s.step.sdiv 2#32 + 1#32).toInt = 2 ^ e / 2 + 1 := by
      rw [BitVec.toInt_add, hdiv, hone, Int.bmod_eq_of_le (by omega) (by omega)]
    have hlt := Int.lt_tmod_of_pos (getInt32 s.seed).toInt (b := 2 ^ e / 2 + 1) (by omega)
    have hgt := Int.tmod_lt_of_pos (getInt32 s.seed).toInt (b := 2 ^ e / 2 + 1) (by omega)
    rw [if_neg hsle]
    simp only [draw]
    rw [BitVec.toInt_sub, BitVec.toInt_srem, hhalf, hstep, Int.bmod_eq_of_le (by omega) (by omega)]

theorem le_next (he : e ≤ 30) (hs : s.step = BitVec.ofNat 32 (2 ^ e)) :
    (2 : Int) ^ e ≤ 2 * (next sha256 s).1 ∧ 1 ≤ (next sha256 s).1 := by
  have hpos : (1 : Int) ≤ 2 ^ e := one_le_pow₀ (by decide)
  have hlt := Int.tmod_lt_of_pos (getInt32 s.seed).toInt (b := 2 ^ e / 2 + 1) (by omega)
  rw [next_eq sha256 s he hs]
  omega

theorem next_overflow (hs : s.step = BitVec.ofNat 32 (2 ^ 31)) : (next sha256 s).1 = -2 ^ 31 := by
  have hle : (BitVec.ofNat 32 (2 ^ 31)).sle 1#32 = true := by decide
  simp only [next, hs, hle, if_true, BitVec.sub_zero]
  decide

end

section
variable (sha256 : MBytes → Digest) (seed : Seed) (head : MBytes) {k : Nat}

def stateAt : Nat → State
  | 0 => init sha256 seed head
  | k + 1 => (next sha256 (stateAt k)).2

def stepAt (k : Nat) : Int := (next sha256 (stateAt sha256 seed head k)).1

def reach : Nat → Nat
  | 0 => 0
  | k + 1 => reach k + (stepAt sha256 seed head k).toNat

theorem stateAt_spec (k : Nat) : (stateAt sha256 seed head k).step = BitVec.ofNat 32 (2 ^ (k / 10)) ∧
      (stateAt sha256 seed head k).counter = 9 - k % 10 := by
  induction k with
  | zero => exact ⟨rfl, rfl⟩
  | succ k ih =>
    obtain ⟨hstep, hcoun⟩ := ih
    rw [stateAt, next_state_step, next_state_counter, hstep]
    by_cases hlast : k % 10 = 9
    · have hdiv : (k + 1) / 10 = k / 10 + 1 := by omega
      rw [if_pos (by omega), if_pos (by omega), hdiv, pow_succ, BitVec.ofNat_mul]
      exact ⟨rfl, by omega⟩
    · have hdiv : (k + 1) / 10 = k / 10 := by omega
      rw [if_neg (by omega), if_neg (by omega), hdiv]
      exact ⟨rfl, by omega⟩

theorem le_stepAt (hk : k < 310) :
    (2 : Int) ^ (k / 10) ≤ 2 * stepAt sha256 seed head k ∧ 1 ≤ stepAt sha256 seed head k :=
  le_next sha256 _ (by omega) (stateAt_spec sha256 seed head k).1

/-- The steps are as long as they should be if no gap is negative. The remainder has the sign of the four bytes that
    are drawn, and a negative one makes the step longer. -/
theorem stepAt_within_iff : (∀ k < 300, max 1 ((2 : Int) ^ (k / 10) / 2) ≤ stepAt sha256 seed head k ∧
      stepAt sha256 seed head k ≤ 2 ^ (k / 10)) ↔
    ∀ k < 300, 0 ≤ (getInt32 (stateAt sha256 seed head k).seed).toInt.tmod (2 ^ (k / 10) / 2 + 1) := by
  refine forall₂_congr fun k hk => ?_
  have hle := le_stepAt sha256 seed head (show k < 310 by omega)
  have heq : stepAt sha256 seed head k = _ := next_eq sha256 _ (by omega) (stateAt_spec sha256 seed head k).1
  omega

/-- All bytes of the digests are ones: the first step of the second sequence is of length three. -/
theorem stepAt_long : (2 : Int) ^ (10 / 10) < stepAt (fun _ => ⟨replicate 32 255, rfl⟩) ⟨[], []⟩ [] 10 := by
  decide +kernel

theorem stepAt_overflow (hk : k = 310) : stepAt sha256 seed head k = -2 ^ 31 := by
  obtain ⟨hstep, -⟩ := stateAt_spec sha256 seed head k
  have hdiv : k / 10 = 31 := by omega
  rw [hdiv] at hstep
  exact next_overflow sha256 _ hstep

theorem reach_succ (hk : k < 310) :
    (reach sha256 seed head (k + 1) : Int) = reach sha256 seed head k + stepAt sha256 seed head k := by
  have := (le_stepAt sha256 seed head hk).2
  rw [reach]
  omega

theorem reach_add (m : Nat) (hm : m < 31) {i : Nat} (hi : i ≤ 10) :
    i * 2 ^ m + 2 * reach sha256 seed head (10 * m) ≤ 2 * reach sha256 seed head (10 * m + i) := by
  induction i with
  | zero => simp
  | succ i ih =>
    have hdiv : (10 * m + i) / 10 = m := by omega
    have hstep := (le_stepAt sha256 seed head (k := 10 * m + i) (by omega)).1
    rw [hdiv, ← Nat.cast_ofNat, ← Nat.cast_pow] at hstep
    have hsucc := reach_succ sha256 seed head (k := 10 * m + i) (by omega)
    have := ih (by omega)
    rw [Nat.succ_mul, ← Nat.add_assoc]
    omega

/-- Ten steps of each length, all of them at least half as long as they may be. -/
theorem le_reach {m : Nat} (hm : m ≤ 31) : 5 * (2 ^ m - 1) ≤ reach sha256 seed head (10 * m) := by
  induction m with
  | zero => exact Nat.zero_le _
  | succ m ih =>
    have hadd := reach_add sha256 seed head m (by omega) (le_refl 10)
    have hpos : 0 < 2 ^ m := Nat.two_pow_pos m
    have := ih (by omega)
    rw [Nat.mul_succ, pow_succ]
    omega

theorem reach_mono {j k : Nat} (h : j ≤ k) : reach sha256 seed head j ≤ reach sha256 seed head k := by
  induction h with
  | refl => exact le_refl _
  | step _ ih => exact Nat.le_trans ih (Nat.le_add_right _ _)

end

/-- The blocks from the head, at zero, down to the caboose. -/
structure Chain (hash : Type) where
  block : Nat → hash
  depth : Nat
  injective : ∀ i j, i ≤ depth → j ≤ depth → block i = block j → i = j

namespace Chain
variable {hash : Type} (c : Chain hash)

def caboose : hash := c.block c.depth

/-- The `n`-th ancestor of a block of the chain, if it is at or above the caboose. -/
def Serves (getPredecessor : hash → Int → Option hash) : Prop :=
  ∀ i, i ≤ c.depth → ∀ n : Int,
    getPredecessor (c.block i) n = if 0 ≤ n ∧ i + n ≤ c.depth then some (c.block (i + n.toNat)) else none

/-- `ancestor` is `n` blocks below `b`. -/
def Ancestor (n : Nat) (b ancestor : hash) : Prop :=
  ∃ i, i + n ≤ c.depth ∧ c.block i = b ∧ c.block (i + n) = ancestor

/-- A step is the distance of its blocks if it is strict, and bounds it otherwise. -/
def Agrees (s : Step hash) : Prop :=
  if s.strictStep then ∃ n : Nat, (n : Int) = s.step ∧ c.Ancestor n s.block s.predecessor
  else ∃ n : Nat, 1 ≤ n ∧ (n : Int) ≤ s.step ∧ c.Ancestor n s.block s.predecessor

/-- The steps of a locator go from the head through its entries to the last one, and each of them agrees with the
    chain. -/
structure StepsAgree {header : Type} (H : Hashes hash header) (seed : Seed) (locator : Locator hash header) : Prop where
  blocks : (toSteps H seed locator).reverse.map (·.block) = (H.headerHash locator.1 :: locator.2).dropLast
  predecessors : (toSteps H seed locator).reverse.map (·.predecessor) = locator.2
  agree : ∀ s ∈ toSteps H seed locator, c.Agrees s

variable {c} {i n : Nat} {b p : hash} {step : Int} {strictStep : Bool}

theorem agrees_exact (hi : i + n ≤ c.depth) (hn : 1 ≤ n) (hstep : step = n) :
    c.Agrees ⟨c.block i, c.block (i + n), step, strictStep⟩ := by
  rw [Agrees]
  split
  · exact ⟨n, hstep.symm, i, hi, rfl, rfl⟩
  · exact ⟨n, hn, Int.le_of_eq hstep.symm, i, hi, rfl, rfl⟩

theorem agrees_caboose (hi : i < c.depth) (hstep : (c.depth : Int) ≤ i + step) :
    c.Agrees ⟨c.block i, c.caboose, step, false⟩ := by
  have hdep : i + (c.depth - i) = c.depth := by omega
  exact ⟨c.depth - i, by omega, by dsimp only; omega, i, le_of_eq hdep, rfl, by rw [hdep, caboose]⟩

theorem not_agrees_neg (hstep : step < 0) : ¬c.Agrees ⟨b, p, step, false⟩ := by
  rintro ⟨n, hn, hle, -⟩
  dsimp only at hle
  omega

end Chain

section
variable {hash header : Type} (H : Hashes hash header)

def stepsFrom : State → List hash → List (Step hash)
  | _, [] => []
  | _, [_] => []
  | state, block :: pred :: rem =>
    ⟨block, pred, (next H.sha256 state).1, !rem.isEmpty⟩ :: stepsFrom (next H.sha256 state).2 (pred :: rem)

theorem foldLoop_eq (state : State) (acc : List (Step hash)) (entries : List hash) :
    foldLoop H (fun acc block pred step strictStep => ⟨block, pred, step, strictStep⟩ :: acc) state acc entries =
      (stepsFrom H state entries).reverse ++ acc := by
  fun_induction stepsFrom H state entries generalizing acc with
  | case1 => rfl
  | case2 => rfl
  | case3 state block pred rem ih =>
    simp only [foldLoop]
    rw [ih, reverse_cons, append_assoc, singleton_append]

theorem toSteps_eq (seed : Seed) (locator : Locator hash header) : toSteps H seed locator =
      (stepsFrom H (init H.sha256 seed (H.toBytes (H.headerHash locator.1)))
        (H.headerHash locator.1 :: locator.2)).reverse := by
  rw [toSteps, fold, foldLoop_eq, append_nil]

theorem map_block_stepsFrom (state : State) (entries : List hash) :
    (stepsFrom H state entries).map (·.block) = entries.dropLast := by
  fun_induction stepsFrom H state entries with
  | case1 => rfl
  | case2 => rfl
  | case3 state block pred rem ih => rw [map_cons, ih, dropLast_cons_cons]

theorem map_predecessor_stepsFrom (state : State) (entries : List hash) :
    (stepsFrom H state entries).map (·.predecessor) = entries.tail := by
  fun_induction stepsFrom H state entries with
  | case1 => rfl
  | case2 => rfl
  | case3 state block pred rem ih => rw [map_cons, ih, tail_cons, tail_cons]

theorem stepsAgree_iff (c : Chain hash) (seed : Seed) (locator : Locator hash header) : c.StepsAgree H seed locator ↔
      ∀ s ∈ stepsFrom H (init H.sha256 seed (H.toBytes (H.headerHash locator.1)))
        (H.headerHash locator.1 :: locator.2), c.Agrees s := by
  refine ⟨fun h s hs => h.agree s ?_, fun h => ⟨?_, ?_, fun s hs => h s ?_⟩⟩
  · rw [toSteps_eq]
    exact mem_reverse.mpr hs
  · rw [toSteps_eq, reverse_reverse, map_block_stepsFrom]
  · rw [toSteps_eq, reverse_reverse, map_predecessor_stepsFrom, tail_cons]
  · rw [toSteps_eq] at hs
    exact mem_reverse.mp hs

/-! ### The walk of the sender -/

variable [DecidableEq hash] (getPredecessor : hash → Int → Option hash) (caboose : hash)

theorem computeLoop_acc (acc : List hash) (size : Nat) (state : State) (current : hash) :
    computeLoop H getPredecessor caboose acc size state current =
      computeLoop H getPredecessor caboose [] size state current ++ acc := by
  induction size generalizing acc state current with
  | zero => rfl
  | succ size ih =>
    simp only [computeLoop]
    rcases getPredecessor current (next H.sha256 state).1 with _ | predecessor
    · dsimp only
      split <;> rfl
    · dsimp only
      rw [ih (predecessor :: acc), ih [predecessor], append_assoc, singleton_append]

/-- The entries the sender finds from a state of the generator and a block on, the first one first. -/
def entriesFrom (size : Nat) (state : State) (current : hash) : List hash :=
  (computeLoop H getPredecessor caboose [] size state current).reverse

variable {getPredecessor caboose} {size : Nat} {state : State} {current : hash}

theorem entriesFrom_some {predecessor : hash} (h : getPredecessor current (next H.sha256 state).1 = some predecessor) :
    entriesFrom H getPredecessor caboose (size + 1) state current =
      predecessor :: entriesFrom H getPredecessor caboose size (next H.sha256 state).2 predecessor := by
  simp only [entriesFrom, computeLoop, h]
  rw [computeLoop_acc, reverse_append, reverse_singleton, singleton_append]

theorem entriesFrom_none (h : getPredecessor current (next H.sha256 state).1 = none) :
    entriesFrom H getPredecessor caboose (size + 1) state current = if caboose = current then [] else [caboose] := by
  simp only [entriesFrom, computeLoop, h]
  split <;> rfl

def headState (H : Hashes hash header) (seed : Seed) (c : Chain hash) (k : Nat) : State :=
  stateAt H.sha256 seed (H.toBytes (c.block 0)) k

def headReach (H : Hashes hash header) (seed : Seed) (c : Chain hash) (k : Nat) : Nat :=
  reach H.sha256 seed (H.toBytes (c.block 0)) k

section
variable (c : Chain hash) (seed : Seed) {k : Nat}

omit [DecidableEq hash]

theorem headStep_pos (hk : k < 310) : 1 ≤ (next H.sha256 (headState H seed c k)).1 :=
  (le_stepAt H.sha256 seed (H.toBytes (c.block 0)) hk).2

theorem headStep_overflow (hk : k = 310) : (next H.sha256 (headState H seed c k)).1 = -2 ^ 31 :=
  stepAt_overflow H.sha256 seed (H.toBytes (c.block 0)) hk

theorem headReach_succ (hk : k < 310) :
    (headReach H seed c (k + 1) : Int) = headReach H seed c k + (next H.sha256 (headState H seed c k)).1 :=
  reach_succ H.sha256 seed (H.toBytes (c.block 0)) hk

end

/-- The steps from an entry on agree with the chain. -/
def AgreeFrom (getPredecessor : hash → Int → Option hash) (c : Chain hash) (seed : Seed) (size k : Nat) : Prop :=
  ∀ s ∈ stepsFrom H (headState H seed c k) (c.block (headReach H seed c k) ::
    entriesFrom H getPredecessor c.caboose size (headState H seed c k) (c.block (headReach H seed c k))), c.Agrees s

variable (c : Chain hash) (hser : c.Serves getPredecessor) (seed : Seed) {k : Nat}

include hser

omit [DecidableEq hash] in
theorem getPredecessor_inside (hk : k < 310) (hins : headReach H seed c (k + 1) ≤ c.depth) :
    getPredecessor (c.block (headReach H seed c k)) (next H.sha256 (headState H seed c k)).1 =
      some (c.block (headReach H seed c (k + 1))) := by
  have hrch := headReach_succ H c seed hk
  have hpos := headStep_pos H c seed hk
  rw [hser _ (by omega), if_pos (by omega)]
  rfl

omit [DecidableEq hash] in
theorem getPredecessor_outside (hk : k ≤ 310) (hrch : headReach H seed c k ≤ c.depth)
    (houts : k < 310 → c.depth < headReach H seed c (k + 1)) :
    getPredecessor (c.block (headReach H seed c k)) (next H.sha256 (headState H seed c k)).1 = none := by
  rw [hser _ hrch, if_neg]
  rcases lt_or_eq_of_le hk with hlt | heq
  · have hsucc := headReach_succ H c seed hlt
    omega
  · have hover := headStep_overflow H c seed heq
    omega

theorem agree_of_small (hk : k ≤ 310) (hrch : headReach H seed c k ≤ c.depth)
    (hsm : k + size ≤ 310 ∨ c.depth ≤ headReach H seed c 310) : AgreeFrom H getPredecessor c seed size k := by
  induction size generalizing k with
  | zero => exact fun s hs => absurd hs not_mem_nil
  | succ size ih =>
    by_cases hins : k < 310 ∧ headReach H seed c (k + 1) ≤ c.depth
    · obtain ⟨hlt, hins⟩ := hins
      rw [AgreeFrom, entriesFrom_some H (getPredecessor_inside H c hser seed hlt hins)]
      intro s hs
      rcases mem_cons.mp hs with rfl | hs
      · have hsucc := headReach_succ H c seed hlt
        have hpos := headStep_pos H c seed hlt
        have hnext : headReach H seed c (k + 1) =
            headReach H seed c k + (next H.sha256 (headState H seed c k)).1.toNat := by omega
        rw [hnext]
        exact Chain.agrees_exact (hnext ▸ hins) (by omega) (by omega)
      · exact ih hlt hins (by omega) s hs
    · rw [AgreeFrom, entriesFrom_none H (getPredecessor_outside H c hser seed hk hrch fun hlt => ?_)]
      · by_cases hcab : c.caboose = c.block (headReach H seed c k)
        · rw [if_pos hcab]
          exact fun s hs => absurd hs not_mem_nil
        · have hne : headReach H seed c k ≠ c.depth := fun h => hcab (by rw [h, Chain.caboose])
          rw [if_neg hcab]
          intro s hs
          obtain rfl := mem_singleton.mp hs
          have hlt : k < 310 := by
            rcases lt_or_eq_of_le hk with hlt | rfl
            · exact hlt
            · omega
          have hsucc := headReach_succ H c seed hlt
          refine Chain.agrees_caboose (by omega) ?_
          omega
      · exact Nat.lt_of_not_le fun hle => hins ⟨hlt, hle⟩

/-- The walk that comes to the draw of the least integer gives the caboose with a negative bound. -/
theorem not_agree_of_large (hk : k ≤ 310) (hsize : 310 < k + size) (hlrg : headReach H seed c 310 < c.depth) :
    ¬AgreeFrom H getPredecessor c seed size k := by
  induction size generalizing k with
  | zero => omega
  | succ size ih =>
    rcases lt_or_eq_of_le hk with hlt | rfl
    · have hins : headReach H seed c (k + 1) ≤ c.depth :=
        le_trans (reach_mono H.sha256 seed _ hlt) (le_of_lt hlrg)
      rw [AgreeFrom, entriesFrom_some H (getPredecessor_inside H c hser seed hlt hins)]
      exact fun h => ih hlt (by omega) fun s hs => h s (mem_cons_of_mem _ hs)
    · have hne : c.caboose ≠ c.block (headReach H seed c 310) := by
        intro h
        have := c.injective _ _ le_rfl (le_of_lt hlrg) h
        omega
      rw [AgreeFrom, entriesFrom_none H (getPredecessor_outside H c hser seed hk (le_of_lt hlrg) fun h => by omega),
        if_neg hne]
      have hover := headStep_overflow H c seed rfl
      exact fun h => Chain.not_agrees_neg (by rw [hover]; decide) (h _ mem_cons_self)

omit hser in
theorem stepsAgree_compute {blockHeader : header} (hhead : H.headerHash blockHeader = c.block 0) (size : Int) :
    c.StepsAgree H seed (compute H getPredecessor c.caboose size (c.block 0) blockHeader seed) ↔
      AgreeFrom H getPredecessor c seed size.toNat 0 := by
  rw [stepsAgree_iff, compute]
  split
  · next hle =>
    rw [hhead, Int.toNat_of_nonpos hle]
    rfl
  · rw [hhead]
    rfl

/-- The steps that the receiver computes agree with the chain of the sender, unless the walk is long enough for the
    length of the steps to overflow, which takes a chain that is longer than levels can number. -/
theorem toSteps_compute_iff (size : Int) (blockHeader : header) (hhead : H.headerHash blockHeader = c.block 0) :
    c.StepsAgree H seed (compute H getPredecessor c.caboose size (c.block 0) blockHeader seed) ↔
      size ≤ 310 ∨ c.depth ≤ reach H.sha256 seed (H.toBytes (c.block 0)) 310 := by
  rw [stepsAgree_compute H c seed hhead]
  constructor
  · intro h
    by_contra hlrg
    rw [not_or] at hlrg
    obtain ⟨hsize, hdep⟩ := hlrg
    exact not_agree_of_large H c hser seed (by decide) (by omega) (Nat.lt_of_not_le hdep) h
  · intro h
    refine agree_of_small H c hser seed (by decide) (Nat.zero_le _) ?_
    rcases h with hsize | hdep
    · exact .inl (by omega)
    · exact .inr hdep

/-- Levels are 32-bit integers, so that fewer than `2 ^ 31` blocks are below the head. -/
theorem toSteps_compute_agree (hdep : c.depth < 2 ^ 31) (size : Int) (blockHeader : header)
    (hhead : H.headerHash blockHeader = c.block 0) :
    c.StepsAgree H seed (compute H getPredecessor c.caboose size (c.block 0) blockHeader seed) := by
  have hrch : 5 * (2 ^ 31 - 1) ≤ reach H.sha256 seed (H.toBytes (c.block 0)) 310 :=
    le_reach H.sha256 seed (H.toBytes (c.block 0)) (le_refl 31)
  exact (toSteps_compute_iff H c hser seed size blockHeader hhead).mpr (.inr (by omega))

end

def numbers (depth : Nat) : Chain Nat := ⟨id, depth, fun _ _ _ _ h => h⟩

def numbersPredecessor (depth : Nat) (b : Nat) (n : Int) : Option Nat :=
  if 0 ≤ n ∧ b + n ≤ depth then some (b + n.toNat) else none

theorem serves_numbers (depth : Nat) : (numbers depth).Serves (numbersPredecessor depth) := fun _ _ _ => rfl

/-- All digests are zero, so that no step is shortened. -/
def zeroHashes : Hashes Nat Nat where
  sha256 _ := ⟨replicate 32 0, rfl⟩
  toBytes _ := []
  headerHash := id

theorem toSteps_compute_numbers : (numbers 100).StepsAgree zeroHashes ⟨[], []⟩
    (compute zeroHashes (numbersPredecessor 100) (numbers 100).caboose 20 ((numbers 100).block 0) 0 ⟨[], []⟩) :=
  toSteps_compute_agree zeroHashes (numbers 100) (serves_numbers 100) ⟨[], []⟩ (by decide) 20 0 rfl

end Tezos.BlockLocator
