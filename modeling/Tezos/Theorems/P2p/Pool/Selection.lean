import Tezos.P2p.Pool

/-! Which of the known points and peers are forgotten, and which points are advertised. -/

namespace Tezos.P2pPool
open Lib List Registry

/-! ### Garbage collection -/

section
variable {K R κ : Type} [LinearOrder κ]

/-- As many idle entries are removed as there are too many, or all of them; `first` says which ones. -/
structure Collects (target : Nat) (idle : R → Bool) (first : K → K → Prop) (reg reg' : Registry K R) : Prop where
  known : List.Sublist reg'.known reg.known
  count : reg.known.length - reg'.known.length = min (reg.known.length - target) (reg.known.countP (reg.isIdle idle))
  removed : ∀ entry ∈ reg.known, entry ∉ reg'.known →
    reg.isIdle idle entry ∧ ∀ kept ∈ reg'.known, reg.isIdle idle kept → first entry.1 kept.1

variable [DecidableEq K] {idle : R → Bool} {reg : Registry K R}

theorem lookup_eq {entry : K × Nat} (hnd : reg.known.keys.Nodup) (h : entry ∈ reg.known) :
    (reg.lookup entry.1).any idle = reg.isIdle idle entry := by
  rw [Registry.lookup, (Table.find?_eq_some hnd).mpr h]
  rfl

theorem collect_known {victims : List (K × Nat)} {n : Nat} (hnd : reg.known.keys.Nodup)
    (hvic : (victims.map Prod.fst).Nodup) (hidle : ∀ entry ∈ victims, entry ∈ reg.known ∧ reg.isIdle idle entry)
    (hle : victims.length ≤ n) :
    (collect idle (victims.map Prod.fst) n reg).known.length + victims.length = reg.known.length ∧
      ∀ entry, entry ∈ (collect idle (victims.map Prod.fst) n reg).known ↔
        entry ∈ reg.known ∧ entry ∉ victims := by
  induction victims generalizing reg n with
  | nil => simp [collect]
  | cons victim victims ih =>
    obtain ⟨⟨hmem, hvict⟩, hidle⟩ := forall_mem_cons.mp hidle
    obtain ⟨hnew, hvic⟩ := nodup_cons.mp hvic
    rcases n with _ | n
    · exact absurd hle (Nat.not_succ_le_zero _)
    · rw [map_cons, collect, lookup_eq hnd hmem, if_pos hvict]
      have hrem : ∀ entry, entry ∈ (reg.forget victim.1).known ↔ entry ∈ reg.known ∧ entry ≠ victim := by
        intro entry
        refine (Table.mem_remove hnd).trans (and_congr_right fun hent => not_congr ⟨fun hkey => ?_, congrArg _⟩)
        exact Prod.ext hkey (Table.eq_of_nodup hnd hent (hkey ▸ hmem))
      obtain ⟨hlen, hkn⟩ := ih (Table.nodup_remove hnd) hvic (fun entry hent => ⟨(hrem entry).mpr
        ⟨(hidle entry hent).1, fun heq => hnew (heq ▸ mem_map_of_mem hent)⟩, (hidle entry hent).2⟩)
        (Nat.le_of_succ_le_succ hle)
      refine ⟨?_, fun entry => ?_⟩
      · rw [length_cons, ← Nat.add_assoc, hlen]
        exact Table.length_remove (Table.mem_keys.mpr ⟨_, hmem⟩)
      · rw [hkn, hrem, mem_cons, not_or, and_assoc]

theorem collects_gc (hnd : reg.known.keys.Nodup) (key : K → κ) (target : Nat) :
    Collects target idle (fun removed kept => key kept ≤ key removed) reg
      (reg.gc (some target) idle (gcSet idle key target reg)) := by
  have hfor := forgets_gc (some target) idle (gcSet idle key target reg) reg
  simp only [gc] at hfor ⊢
  split
  · rename_i hsize
    obtain ⟨victims, hvic, hlen, -, rest, hperm, hrest⟩ := TzList.Bounded.ofList_eq
      (fun entry : K × Nat => key entry.1) (Int.natCast_pos.mpr (Nat.sub_pos_of_lt hsize))
      (reg.known.filter (reg.isIdle idle))
    rw [if_pos hsize] at hfor
    rw [gcSet, hvic, Option.getD_some] at hfor ⊢
    have hentr : ∀ entry, entry ∈ victims ∨ entry ∈ rest ↔ entry ∈ reg.known ∧
        reg.isIdle idle entry := fun entry => by
      rw [← mem_append, ← hperm.mem_iff, mem_filter]
    have hkeys : (victims.map Prod.fst).Nodup := by
      have hall := ((hperm.map Prod.fst).nodup_iff.mp (hnd.sublist (filter_sublist.map _)))
      exact (map_append .. ▸ hall).of_append_left
    rw [Int.toNat_natCast, ← countP_eq_length_filter] at hlen
    obtain ⟨hcnt, hkn⟩ := collect_known hnd hkeys (fun entry h => (hentr entry).mp (.inl h))
      (hlen ▸ Nat.min_le_left ..)
    refine ⟨hfor.known, ?_, fun entry hent hnot => ?_⟩
    · exact (Nat.sub_eq_of_eq_add' hcnt.symm).trans hlen
    · have hvict : entry ∈ victims := by
        by_contra hnew
        exact hnot ((hkn entry).mpr ⟨hent, hnew⟩)
      refine ⟨((hentr entry).mp (.inl hvict)).2, fun kept hkept hidle => ?_⟩
      obtain ⟨hkept, hnew⟩ := (hkn kept).mp hkept
      exact hrest entry hvict kept (((hentr kept).mpr ⟨hkept, hidle⟩).resolve_left hnew)
  · rename_i hsize
    refine ⟨.refl _, ?_, fun _ h hnot => absurd h hnot⟩
    rw [Nat.sub_self, Nat.sub_eq_zero_of_le (Nat.le_of_not_lt hsize), Nat.zero_min]

end

/-- Of the points that are not connected those with the earliest last misses are removed, and of the peers those with
    the lowest scores, the newest first. -/
theorem gc_collects {κ σ : Type} [LinearOrder κ] [LinearOrder σ] (config : Config)
    (points : Registry P2pPoint.Id P2pPointState.Info) (peers : Registry P2pPeer.Id P2pPeerState.Info)
    (hpoints : points.known.keys.Nodup) (hpeers : peers.known.keys.Nodup) (lastMiss : P2pPoint.Id → Option κ) (now : κ)
    (score : P2pPeer.Id → σ) (created : P2pPeer.Id → κ) :
    (∀ max target, config.maxKnownPoints = some (max, target) →
      Collects target P2pPointState.isDisconnected
        (fun removed kept => (lastMiss removed).getD now ≤ (lastMiss kept).getD now) points
        (gcPoints config (gcPointSet lastMiss now target points) points)) ∧
    ∀ max target, config.maxKnownPeerIds = some (max, target) →
      Collects target P2pPeerState.isDisconnected
        (fun removed kept => score removed < score kept ∨ score removed = score kept ∧ created kept ≤ created removed)
        peers (gcPeerIds config (gcPeerSet score created target peers) peers) := by
  constructor
  · intro max target hconf
    rw [gcPoints, hconf]
    exact collects_gc hpoints (fun p => OrderDual.toDual ((lastMiss p).getD now)) target
  · intro max target hconf
    rw [gcPeerIds, hconf]
    obtain ⟨hkn, hcnt, hremoved⟩ := collects_gc hpeers (fun p => toLex (OrderDual.toDual (score p), created p))
      target
    refine ⟨hkn, hcnt, fun entry hent hnot => ?_⟩
    obtain ⟨hidle, hfst⟩ := hremoved entry hent hnot
    refine ⟨hidle, fun kept hkept hk => ?_⟩
    exact (Prod.Lex.le_iff.mp (hfst kept hkept hk)).imp id fun h => ⟨h.1.symm, h.2⟩

theorem gc_collects_sample :
    let point : P2pPoint.Id → P2pPointState.Info := .create false
    let points : Registry P2pPoint.Id P2pPointState.Info :=
      ⟨[point (0, 0), point (0, 1)], [((0, 0), 0), ((0, 1), 1)], []⟩
    Collects 1 P2pPointState.isDisconnected (fun removed kept => removed.2 ≤ kept.2) points
      (gcPoints ⟨0, false, 2, 2, some (2, 1), none⟩ (gcPointSet (fun p => some p.2) 5 1 points) points) :=
  (gc_collects _ _ .empty (by decide) nodup_nil (fun p => some p.2) 5 (fun _ => 0) fun _ => 0).1 2 1 rfl

/-! ### Sampling -/

section
variable {α : Type} {i : Nat} {indexes : List Nat} {acc points : List α}

theorem foldl_pick (i : Nat) (indexes : List Nat) (acc points : List α) :
    ∃ picked : List α, picked.Sublist points ∧ picked.length ≤ indexes.length ∧
      (points.foldl pick (i, indexes, acc)).2.2 = picked.reverse ++ acc := by
  induction points generalizing i indexes acc with
  | nil => exact ⟨[], .refl _, Nat.zero_le _, rfl⟩
  | cons point points ih =>
    have hskip : ∀ i, ∃ picked : List α, picked.Sublist (point :: points) ∧ picked.length ≤ indexes.length ∧
        (points.foldl pick (i, indexes, acc)).2.2 = picked.reverse ++ acc := by
      intro i
      obtain ⟨picked, hsub, hrest⟩ := ih i indexes acc
      exact ⟨picked, hsub.cons point, hrest⟩
    rcases indexes with _ | ⟨index, indexes⟩
    · exact hskip 0
    · rw [foldl_cons, pick]
      split
      · obtain ⟨picked, hsub, hlen, heq⟩ := ih (i + 1) indexes (point :: acc)
        refine ⟨point :: picked, hsub.cons_cons point, Nat.succ_le_succ hlen, ?_⟩
        rw [heq, reverse_cons, append_assoc]
        rfl
      · exact hskip (i + 1)

theorem foldl_pick_range {n : Nat} (h : n ≤ points.length) (i : Nat) (indexes : List Nat) (acc : List α) :
    points.foldl pick (i, range' i n ++ indexes, acc) =
      (points.drop n).foldl pick (i + n, indexes, (points.take n).reverse ++ acc) := by
  induction n generalizing i acc points with
  | zero => rfl
  | succ n ih =>
    rcases points with _ | ⟨point, points⟩
    · exact absurd h (Nat.not_succ_le_zero _)
    · rw [range'_succ, cons_append, foldl_cons, pick, if_pos (le_refl i), ih (Nat.le_of_succ_le_succ h), drop_succ_cons,
        take_succ_cons, reverse_cons, append_assoc, Nat.add_assoc, Nat.add_comm 1]
      rfl

/-- A sample has the first points, and each of the others at most once for its position. -/
theorem sample_spec (best other : Nat) (random : Fin other → Nat) (points : List α) :
    (∃ picked, picked.Sublist (points.drop best) ∧ picked.length ≤ other ∧
      (sample best other random points).Perm (points.take best ++ picked)) ∧
      (sample best other random points).length ≤ best + other ∧
      (points.length ≤ best + other → sample best other random points = points) := by
  suffices h : ∃ picked, picked.Sublist (points.drop best) ∧ picked.length ≤ other ∧
      (sample best other random points).Perm (points.take best ++ picked) by
    refine ⟨h, ?_, fun hle => if_pos hle⟩
    obtain ⟨picked, -, hlen, hperm⟩ := h
    rw [hperm.length_eq, length_append]
    exact Nat.add_le_add (length_take_le ..) hlen
  rw [sample]
  split
  · rename_i hle
    refine ⟨points.drop best, .refl _, ?_, by rw [take_append_drop]⟩
    rw [length_drop]
    exact Nat.sub_le_iff_le_add'.mpr hle
  · rename_i hgt
    have hbest : best ≤ points.length := by omega
    obtain ⟨picked, hsub, hlen, heq⟩ := foldl_pick (0 + best)
      ((ofFn fun i => best + random i).mergeSort (· ≤ ·)) ((points.take best).reverse ++ []) (points.drop best)
    rw [length_mergeSort, length_ofFn] at hlen
    refine ⟨picked, hsub, hlen, ?_⟩
    dsimp only
    rw [range_eq_range', foldl_pick_range hbest, heq, append_nil, ← reverse_append]
    exact reverse_perm _

end

end Tezos.P2pPool
