import Mathlib.Tactic.Ring
import Tezos.Theorems.Shell.State.Tree

/-! The table of the predecessors at the distances that are powers of two, and the search for an ancestor with it. -/

namespace Tezos.State
open Lib Option Function

theorem powerOf2_eq (n : Nat) : powerOf2 n = 2 ^ n := by
  have hloop (n res : Nat) : powerOf2Loop n res = res * 2 ^ n := by
    induction n generalizing res with
    | zero => rw [powerOf2Loop, pow_zero, mul_one]
    | succ n ih => rw [powerOf2Loop, ih, mul_assoc, pow_succ']
  rw [powerOf2, hloop, one_mul]

theorem closestPowerTwoLoop_spec {fuel cnt n rest power r : Nat} (hn : 0 < n) (hfuel : n ≤ fuel)
    (h : closestPowerTwoLoop fuel cnt n rest = (power, r)) : 2 ^ power + r = 2 ^ cnt * n + rest := by
  induction fuel generalizing cnt n rest with
  | zero => exact absurd hn (not_lt.mpr hfuel)
  | succ fuel ih =>
    rw [closestPowerTwoLoop] at h
    split at h
    · rename_i hle
      obtain rfl : n = 1 := le_antisymm hle hn
      obtain ⟨rfl, rfl⟩ := Prod.mk.inj h
      rw [mul_one]
    · rename_i hlt
      have hhalf : 0 < n / 2 := Nat.div_pos (Nat.lt_of_not_le hlt) Nat.two_pos
      have hle : n / 2 ≤ fuel := Nat.le_of_lt_succ (Nat.lt_of_lt_of_le (Nat.div_lt_self hn Nat.one_lt_two) hfuel)
      calc 2 ^ power + r
        _ = 2 ^ (cnt + 1) * (n / 2) + (rest + 2 ^ cnt * (n % 2)) := by rw [ih hhalf hle h, powerOf2_eq]
        _ = 2 ^ cnt * (2 * (n / 2) + n % 2) + rest := by ring
        _ = 2 ^ cnt * n + rest := by rw [Nat.div_add_mod]

theorem jump_spec {distance power rest : Nat} (hpos : 0 < distance) (h : jump distance = (power, rest)) :
    power < storedPredecessorsSize ∧ 2 ^ power + rest = distance := by
  rcases hclos : closestPowerTwoAndRest distance with ⟨p, r⟩
  have hsum : 2 ^ p + r = distance := by
    have hspec := closestPowerTwoLoop_spec hpos (le_refl distance) hclos
    rwa [pow_zero, one_mul] at hspec
  simp only [jump, hclos] at h
  split at h
  · rename_i hlt
    obtain ⟨rfl, rfl⟩ := Prod.mk.inj h
    exact ⟨hlt, hsum⟩
  · rename_i hge
    obtain ⟨rfl, rfl⟩ := Prod.mk.inj h
    refine ⟨Nat.sub_lt (Nat.succ_pos _) Nat.one_pos, ?_⟩
    have hpow : 2 ^ (storedPredecessorsSize - 1) ≤ 2 ^ p :=
      Nat.pow_le_pow_right Nat.two_pos (Nat.le_trans (Nat.sub_le _ _) (Nat.le_of_not_lt hge))
    exact Nat.add_sub_of_le (Nat.le_trans hpow (hsum ▸ Nat.le_add_right _ _))

section
variable {B O L C ε : Type} [DecidableEq B] {s : ChainState B O L C ε} {g b c nb : Block B L C}

/-- What the table should tell of the `n`th ancestor. -/
def ancestorHash (s : ChainState B O L C ε) (b : Block B L C) (n : Nat) : Option B :=
  (up (predecessor s) n b).map Block.hash

/-- The table of the predecessors is right. -/
structure Linked (s : ChainState B O L C ε) : Prop where
  entry : ∀ b, Stored s b → ∀ d < storedPredecessorsSize, s.predecessors b.hash d = ancestorHash s b (2 ^ d)
  absent : ∀ hash, readOpt s hash = none → ∀ d, s.predecessors hash d = none

theorem predecessorNLoop_spec (hlin : Linked s) {fuel n : Nat} (hb : Stored s b) (hn : 0 < n) (hfuel : n ≤ fuel) :
    predecessorNLoop s fuel b.hash n = ancestorHash s b n := by
  -- by induction on the fuel: a jump leaves a smaller distance
  induction fuel generalizing b n with
  | zero => exact absurd hn (not_lt.mpr hfuel)
  | succ fuel ih =>
    rw [predecessorNLoop]
    split
    · rename_i hone
      rw [hone]
      exact hlin.entry b hb 0 (Nat.succ_pos _)
    rcases hjump : jump n with ⟨power, rest⟩
    obtain ⟨hpower, hsum⟩ := jump_spec hn hjump
    have hent := hlin.entry b hb power hpower
    simp only [hent]
    rcases hup : up (predecessor s) (2 ^ power) b with _ | x
    · have hle : 2 ^ power ≤ n := hsum ▸ Nat.le_add_right _ _
      simp only [ancestorHash, hup, up_none_of_le hup hle, map_none]
    · simp only [ancestorHash, hup, map_some]
      have hx : Stored s x := stored_of_ancestor hb ⟨_, hup⟩
      have hrest : up (predecessor s) n b = up (predecessor s) rest x := by
        rw [← hsum, up_add, hup]
        rfl
      rw [hrest]
      split
      · rename_i hzero
        rw [hzero]
        rfl
      · rename_i hne
        have hlt : rest < n := by
          rw [← hsum]
          exact Nat.lt_add_of_pos_left (Nat.two_pow_pos power)
        exact ih hx (Nat.pos_of_ne_zero hne) (Nat.le_of_lt_succ (Nat.lt_of_lt_of_le hlt hfuel))

theorem predecessorNRaw_spec (hlin : Linked s) (hb : Stored s b) (n : Nat) :
    predecessorNRaw s b.hash n = .ok (ancestorHash s b n) := by
  rw [predecessorNRaw, if_neg (Int.not_lt.mpr (Int.natCast_nonneg n))]
  rcases eq_zero_or_pos n with rfl | hn
  · exact if_pos rfl
  · rw [if_neg (Int.natCast_ne_zero.mpr (ne_of_gt hn))]
    exact congrArg Except.ok (predecessorNLoop_spec hlin hb hn (le_refl n))

theorem predecessorN_spec (hlin : Linked s) (hb : Stored s b) {n : Nat} (hn : up (predecessor s) n b = some c) :
    predecessorN s false b.hash n = .ok (if (s.contents.lookup c.hash).isSome then some c.hash else none) := by
  simp only [predecessorN, predecessorNRaw_spec hlin hb, ancestorHash, hn, map_some, bind, Except.bind,
    Bool.false_eq_true, if_false]

/-! ### One more block -/

/-- The entry for `2 ^ d` is the one for `2 ^ (d - 1)` of the ancestor found last. -/
theorem storePredecessorsLoop_spec {hash pred : B} {ancestor : Nat → Option B} {left dist : Nat}
    (hmono : ∀ m n, ancestor m = none → m ≤ n → ancestor n = none) (hsize : dist + left = storedPredecessorsSize)
    (hdist : 0 < dist) (hpred : ancestor (2 ^ (dist - 1)) = some pred)
    (hold : ∀ n h, 0 < n → ancestor n = some h → h ≠ hash ∧
      ∀ d < storedPredecessorsSize, s.predecessors h d = ancestor (n + 2 ^ d))
    (hdone : ∀ d < dist, s.predecessors hash d = ancestor (2 ^ d))
    (hnone : ∀ d, dist ≤ d → s.predecessors hash d = none) :
    (∀ d < storedPredecessorsSize, (storePredecessorsLoop hash left s pred dist).predecessors hash d =
      ancestor (2 ^ d)) ∧
    ∀ h, h ≠ hash → (storePredecessorsLoop hash left s pred dist).predecessors h = s.predecessors h := by
  induction left generalizing s pred dist with
  | zero =>
    exact ⟨hsize ▸ hdone, fun _ _ => rfl⟩
  | succ left ih =>
    obtain ⟨hne, hent⟩ := hold _ pred (Nat.two_pow_pos _) hpred
    have hread : s.predecessors pred (dist - 1) = ancestor (2 ^ dist) := by
      rw [hent (dist - 1) (by omega), ← Nat.two_mul, ← Nat.pow_succ', Nat.succ_eq_add_one,
        Nat.sub_add_cancel hdist]
    rw [storePredecessorsLoop, hread]
    rcases hanc : ancestor (2 ^ dist) with _ | p
    · refine ⟨fun d hd => ?_, fun _ _ => rfl⟩
      rcases lt_or_ge d dist with hlt | hge
      · exact hdone d hlt
      · rw [hnone d hge, hmono _ _ hanc (Nat.pow_le_pow_right Nat.two_pos hge)]
    · have hsame (h : B) (hh : h ≠ hash) : (storePredecessor s hash dist p).predecessors h = s.predecessors h :=
        update_of_ne hh _ _
      have hself : (storePredecessor s hash dist p).predecessors hash =
          update (s.predecessors hash) dist (some p) := update_self ..
      have hold' (n : Nat) (h : B) (hn : 0 < n) (hh : ancestor n = some h) : h ≠ hash ∧
          ∀ d < storedPredecessorsSize, (storePredecessor s hash dist p).predecessors h d = ancestor (n + 2 ^ d) := by
        obtain ⟨hhne, hd⟩ := hold n h hn hh
        rw [hsame h hhne]
        exact ⟨hhne, hd⟩
      have hdone' (d : Nat) (hd : d < dist + 1) :
          (storePredecessor s hash dist p).predecessors hash d = ancestor (2 ^ d) := by
        rw [hself]
        rcases Nat.lt_succ_iff_lt_or_eq.mp hd with hlt | rfl
        · rw [update_of_ne (ne_of_lt hlt)]
          exact hdone d hlt
        · rw [update_self, hanc]
      have hnone' (d : Nat) (hd : dist + 1 ≤ d) : (storePredecessor s hash dist p).predecessors hash d = none := by
        rw [hself, update_of_ne (ne_of_gt hd)]
        exact hnone d (Nat.le_of_succ_le hd)
      have hsize' : dist + 1 + left = storedPredecessorsSize := by rw [← hsize, add_right_comm, add_assoc]
      obtain ⟨hall, hrest⟩ := ih hsize' (Nat.succ_pos dist) hanc hold' hdone' hnone'
      exact ⟨hall, fun h hh => (hrest h hh).trans (hsame h hh)⟩

theorem linked_create (H : Hashes B O L C) (genesis : B) (time : Int) (context : C) (expiration : Option Int) :
    Linked (create H genesis time context expiration : ChainState B O L C ε) := by
  refine ⟨fun b hb d _ => ?_, fun _ _ _ => rfl⟩
  have htree := tree_create (ε := ε) H genesis time context expiration
  obtain ⟨n, hn⟩ := Nat.exists_eq_succ_of_ne_zero (Nat.ne_of_gt (Nat.two_pow_pos d))
  rw [(stored_create H).mp hb, ancestorHash, hn, up, htree.root]
  rfl

theorem Linked.addBlock [DecidableEq L] {H : Hashes B O L C} {header : BlockHeader B L C}
    {operations : List (List (Operation B))} (htree : Tree s g) (hlin : Linked s)
    (h : NewBlock H s header operations nb) (ttl : Int) : Linked (addBlock H s nb ttl operations) := by
  obtain ⟨⟨p, hp, hpred⟩, hsame⟩ := h.predecessors htree ttl
  have hsto (b : Block B L C) : Stored (State.addBlock H s nb ttl operations) b ↔ b = nb ∨ Stored s b :=
    stored_addBlock htree.unpruned h.fresh
  have hup (b : Block B L C) (hb : Stored s b) (n : Nat) :
      up (predecessor (State.addBlock H s nb ttl operations)) n b = up (predecessor s) n b :=
    up_congr (fun _ _ _ hp => stored_of_predecessor hp) hsame n hb
  have hnext (n : Nat) (x : Block B L C) (hn : 0 < n)
      (hx : up (predecessor (State.addBlock H s nb ttl operations)) n nb = some x) : Stored s x := by
    obtain ⟨n, rfl⟩ := Nat.exists_eq_succ_of_ne_zero (Nat.ne_of_gt hn)
    rw [up_succ hpred, hup p hp] at hx
    exact stored_of_ancestor hp ⟨n, hx⟩
  have habs (d : Nat) : s.predecessors nb.hash d = none := by
    refine hlin.absent nb.hash ?_ d
    rw [readOpt_unpruned htree.unpruned, h.fresh]
    rfl
  -- the loop starts after the entry of the predecessor
  obtain ⟨first, hfst⟩ : ∃ first, first = storePredecessor
    (storeContents H s nb.hash ⟨nb.header, ttl⟩ operations) nb.hash 0 nb.header.shell.predecessor := ⟨_, rfl⟩
  have hloop : (State.addBlock H s nb ttl operations).predecessors =
      (storePredecessorsLoop nb.hash (storedPredecessorsSize - 1) first nb.header.shell.predecessor 1).predecessors := by
    rw [hfst]
    rfl
  have hoth (hash : B) (hne : hash ≠ nb.hash) : first.predecessors hash = s.predecessors hash := by
    rw [hfst]
    exact update_of_ne hne _ _
  have hself : first.predecessors nb.hash =
      update (s.predecessors nb.hash) 0 (some nb.header.shell.predecessor) := by
    rw [hfst]
    exact update_self ..
  have hone : ancestorHash (State.addBlock H s nb ttl operations) nb 1 = some nb.header.shell.predecessor := by
    rw [ancestorHash, up_one, hpred, map_some, hash_of_predecessor hpred]
  have hmono (m n : Nat) (hm : ancestorHash (State.addBlock H s nb ttl operations) nb m = none) (hle : m ≤ n) :
      ancestorHash (State.addBlock H s nb ttl operations) nb n = none := by
    rw [ancestorHash, map_eq_none_iff] at hm ⊢
    exact up_none_of_le hm hle
  have hold (n : Nat) (hash : B) (hn : 0 < n)
      (hx : ancestorHash (State.addBlock H s nb ttl operations) nb n = some hash) : hash ≠ nb.hash ∧
      ∀ d < storedPredecessorsSize, first.predecessors hash d =
        ancestorHash (State.addBlock H s nb ttl operations) nb (n + 2 ^ d) := by
    obtain ⟨x, hn', rfl⟩ := map_eq_some_iff.mp hx
    have hxs := hnext n x hn hn'
    have hne := hxs.ne_fresh htree.unpruned h.fresh
    refine ⟨hne, fun d hd => ?_⟩
    rw [hoth x.hash hne, hlin.entry x hxs d hd, ancestorHash, ancestorHash, up_add, hn']
    exact congrArg (Option.map Block.hash) (hup x hxs _).symm
  have hdone (d : Nat) (hd : d < 1) : first.predecessors nb.hash d =
      ancestorHash (State.addBlock H s nb ttl operations) nb (2 ^ d) := by
    obtain rfl := Nat.lt_one_iff.mp hd
    rw [hself]
    exact hone.symm
  have hnone (d : Nat) (hd : 1 ≤ d) : first.predecessors nb.hash d = none := by
    rw [hself, update_of_ne (ne_of_gt hd)]
    exact habs d
  have hsize : 1 + (storedPredecessorsSize - 1) = storedPredecessorsSize := rfl
  obtain ⟨hall, hrest⟩ := storePredecessorsLoop_spec hmono hsize one_pos hone hold hdone hnone
  refine ⟨fun b hb d hd => ?_, fun hash hread d => ?_⟩
  · rw [hloop]
    rcases (hsto b).mp hb with rfl | hb
    · exact hall d hd
    · rw [hrest _ (hb.ne_fresh htree.unpruned h.fresh), hoth _ (hb.ne_fresh htree.unpruned h.fresh),
        hlin.entry b hb d hd, ancestorHash, ancestorHash, hup b hb]
  · have hne : hash ≠ nb.hash := by
      rintro rfl
      have hnb : Stored (State.addBlock H s nb ttl operations) nb := (hsto nb).mpr (.inl rfl)
      rw [Stored, hread] at hnb
      cases hnb
    have hread' : readOpt s hash = none := by
      rw [readOpt_unpruned (addBlock_prunedContents.trans htree.unpruned), addBlock_contents,
        AList.lookup_insert_ne hne] at hread
      rw [readOpt_unpruned htree.unpruned]
      exact hread
    rw [hloop, hrest hash hne, hoth hash hne]
    exact hlin.absent hash hread' d

end

end Tezos.State
