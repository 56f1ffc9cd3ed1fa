import Tezos.Lib.Runs
import Tezos.P2p.IpSet
import Tezos.Theorems.Stdlib.HashPtreePrefixes

/-! Sets of addresses: when runs of `add` and `remove`, and of `add_prefix`, have the addresses they should have, and
    what expiry leaves. -/

namespace Tezos.P2p.IpSet
open Lib HashPtree

section Keys
open BitVec
variable {ip ip' : Ipv6} {i : Nat}

theorem zOfBytes_toInt (b : BitVec 64) : zOfBytes b.toInt = b.toNat := by
  rw [zOfBytes, toInt_eq_toNat_cond]
  split <;> split <;> omega

theorem zOfIpv6_eq (ip : Ipv6) : zOfIpv6 ip = ip.toNat := by
  simp only [zOfIpv6, toInt64, zOfBytes_toInt, extractLsb'_toNat, Nat.shiftRight_eq_div_pow]
  omega

theorem getLsbD_keyOfIpv6 : (keyOfIpv6 ip).getLsbD i = (decide (i = 128) || ip.getLsbD i) := by
  rw [keyOfIpv6, zOfIpv6_eq, Bits.ofZ, Bits.getLsbD_mark, ofInt_natCast, getLsbD_ofNat]
  by_cases hi : i < 129
  · simp only [hi, decide_true, Bool.true_and]
    rfl
  · rw [getLsbD_of_ge ip i (by omega)]
    simp [hi]

theorem marked_keyOfIpv6 (ip : Ipv6) : (keyOfIpv6 ip).getLsbD 128 = true := by
  rw [getLsbD_keyOfIpv6]
  rfl

theorem agreeFrom_keyOfIpv6 {k : Nat} : AgreeFrom k (keyOfIpv6 ip) (keyOfIpv6 ip') ↔ AgreeFrom k ip ip' := by
  refine forall₂_congr fun i _ => ?_
  rw [getLsbD_keyOfIpv6, getLsbD_keyOfIpv6]
  by_cases hi : i = 128
  · simp only [getLsbD_of_ge ip i hi.ge, getLsbD_of_ge ip' i hi.ge]
  · simp only [hi, decide_false, Bool.false_or]

theorem keyOfIpv6_injective (h : keyOfIpv6 ip = keyOfIpv6 ip') : ip = ip' :=
  agreeFrom_zero.mp (agreeFrom_keyOfIpv6.mp (agreeFrom_zero.mpr h))

theorem exists_keyOfIpv6 {x : Key} (h : x.getLsbD 128 = true) : ∃ ip, x = keyOfIpv6 ip := by
  refine ⟨x.setWidth 128, eq_of_getLsbD_eq fun i hi => ?_⟩
  rw [getLsbD_keyOfIpv6]
  by_cases heq : i = 128
  · rw [heq, h]
    rfl
  · simp [heq, show i < 128 by omega]

/-- The prefix contains the address: they have the same first bits. -/
def Ipv6Prefix.Contains (p : Ipv6Prefix) (ip : Ipv6) : Prop := ip >>> (128 - p.bits) = p.network >>> (128 - p.bits)

theorem Ipv6Prefix.contains_iff {p : Ipv6Prefix} : p.Contains ip ↔ AgreeFrom (128 - p.bits) p.network ip := by
  constructor
  · intro h i hi
    have := congrArg (BitVec.getLsbD · (i - (128 - p.bits))) h
    simp only [getLsbD_ushiftRight, Nat.add_sub_cancel' hi] at this
    exact this.symm
  · intro h
    refine eq_of_getLsbD_eq fun i _ => ?_
    rw [getLsbD_ushiftRight, getLsbD_ushiftRight]
    exact (h _ (Nat.le_add_right _ _)).symm

theorem keyMaskOfIpv6Prefix_eq (p : Ipv6Prefix) :
    keyMaskOfIpv6Prefix p = (keyOfIpv6 p.network, Bits.maskAt 128 (128 - p.bits)) := by
  have hpow : (2 ^ (128 - p.bits) : Int) = ((2 ^ (128 - p.bits) : Nat) : Int) := by rfl
  have hmask : Bits.ofZ (2 ^ (128 - p.bits)) = Bits.maskAt 128 (128 - p.bits) := by
    rw [Bits.ofZ, hpow, ofInt_natCast]
    exact congrArg _ (eq_of_toNat_eq (by rw [toNat_ofNat, toNat_twoPow]))
  exact congrArg (Prod.mk _) hmask

end Keys

section Addresses
open List
variable {ν : Type} {t : M ν} {ip ip' : Ipv6} {S : Ipv6 → Prop}

inductive Op (ν : Type) where
  | add (same : ν → ν → Bool) (ip : Ipv6) (value : ν)
  | remove (ip : Ipv6)

def Op.apply (t : M ν) : Op ν → M ν
  | .add same ip value => IpSet.add same ip value t
  | .remove ip => IpSet.remove ip t

/-- The address was added, and not removed since. -/
def Added (ops : List (Op ν)) (ip : Ipv6) : Prop :=
  ∃ before same value after, ops = before ++ .add same ip value :: after ∧ .remove ip ∉ after

/-- The key and the mask of each leaf that `fold` visits, in its order. -/
def visited (t : M ν) : List (Key × Key) := HashPtree.fold (fun key mask _ visited => visited ++ [(key, mask)]) t []

/-- The tree is a set of addresses: `mem` answers for it, and `fold` visits each of them once, and nothing else. -/
structure IsSet (t : M ν) (S : Ipv6 → Prop) : Prop where
  mem_iff : ∀ ip, mem ip t = true ↔ S ip
  nodup : (visited t).Nodup
  mem_visited : ∀ x, x ∈ visited t ↔ ∃ ip, S ip ∧ x = (keyOfIpv6 ip, (beGenPrefix 128).fullLengthMask)

def Crosses (ip : Ipv6) (t : M ν) : Prop := ∃ s, t = some s ∧ crosses (beGenPrefix 128) (keyOfIpv6 ip) s = true

/-- An address that is added, and a member that is removed, must not cross a node. -/
def Op.Clear (t : M ν) : Op ν → Prop
  | .add _ ip _ => ¬Crosses ip t
  | .remove ip => mem ip t = true → ¬Crosses ip t

theorem added_iff_since {ops : List (Op ν)} :
    Added ops ip ↔ ∃ same value, Since (.add same ip value) (fun after => .remove ip ∉ after) ops := by
  constructor
  · rintro ⟨before, same, value, after, heq, haft⟩
    exact ⟨same, value, before, after, heq, haft⟩
  · rintro ⟨same, value, before, after, heq, haft⟩
    exact ⟨before, same, value, after, heq, haft⟩

theorem added_concat (ops : List (Op ν)) (op : Op ν) : Added (ops ++ [op]) ip ↔
    (∃ same value, op = .add same ip value) ∨ (Added ops ip ∧ op ≠ .remove ip) := by
  simp only [added_iff_since, since_concat, exists_or, not_mem_nil, not_false_iff, and_true]
  refine or_congr_right ⟨?_, ?_⟩
  · rintro ⟨same, value, before, after, heq, haft⟩
    rw [mem_append, mem_singleton, not_or] at haft
    exact ⟨⟨same, value, before, after, heq, haft.1⟩, fun h => haft.2 h.symm⟩
  · rintro ⟨⟨same, value, before, after, heq, haft⟩, hop⟩
    refine ⟨same, value, before, after, heq, fun hmem => ?_⟩
    rcases mem_append.mp hmem with h | h
    · exact haft h
    · exact hop (mem_singleton.mp h).symm

theorem foldNe_visited {s : BitTree 128 ν} (h : Sound s) (acc : List (Key × Key)) :
    foldNe (fun key mask _ visited => visited ++ [(key, mask)]) s acc = acc ++ (keys s).map (·, Bits.one) := by
  induction h generalizing acc with
  | leaf _ => rfl
  | node _ _ _ _ _ _ _ iht ihf => rw [foldNe, ihf, iht, HashPtree.keys, map_append, append_assoc]

theorem map_fst_foldNe (s : BitTree 128 ν) (acc : List (Key × Key)) :
    (foldNe (fun key mask _ visited => visited ++ [(key, mask)]) s acc).map Prod.fst = acc.map Prod.fst ++ keys s := by
  induction s generalizing acc with
  | leaf key mask value => rw [foldNe, map_append, HashPtree.keys, map_singleton]
  | node p m t f iht ihf => rw [foldNe, iht, ihf, HashPtree.keys, append_assoc]

theorem map_fst_visited (t : M ν) : (visited t).map Prod.fst = keysT t := by
  rcases t with _ | s
  · rfl
  · exact map_fst_foldNe s []

theorem IsSet.nodup_keysT (h : IsSet t S) : (keysT t).Nodup := by
  rw [← map_fst_visited]
  refine Nodup.map_on (fun x hx y hy heq => ?_) h.nodup
  obtain ⟨ip, -, rfl⟩ := (h.mem_visited x).mp hx
  obtain ⟨ip', -, rfl⟩ := (h.mem_visited y).mp hy
  exact congrArg (·, _) heq

theorem visited_eq (h : SoundT t) : visited t = (keysT t).map (·, Bits.one) := by
  rcases t with _ | s
  · rfl
  · exact foldNe_visited (h s rfl) []

theorem mem_iff_keysT (h : SoundT t) : mem ip t = true ↔ keyOfIpv6 ip ∈ keysT t := by
  rcases t with _ | s
  · exact ⟨nofun, nofun⟩
  · exact memNe_iff (h s rfl) (marked_keyOfIpv6 ip)

theorem nodup_keysT (h : SoundT t) : (keysT t).Nodup := by
  rcases t with _ | s
  · exact nodup_nil
  · exact (h s rfl).nodup

theorem exists_ip_of_mem (h : SoundT t) {x : Key} (hx : x ∈ keysT t) : ∃ ip, x = keyOfIpv6 ip := by
  rcases t with _ | s
  · exact absurd hx not_mem_nil
  · exact exists_keyOfIpv6 ((h s rfl).marked hx)

theorem isSet_of_sound (h : SoundT t) (hS : ∀ ip, keyOfIpv6 ip ∈ keysT t ↔ S ip) : IsSet t S where
  mem_iff ip := (mem_iff_keysT h).trans (hS ip)
  nodup := by
    rw [visited_eq h]
    exact (nodup_keysT h).map fun _ _ heq => congrArg Prod.fst heq
  mem_visited x := by
    rw [visited_eq h, mem_map]
    constructor
    · rintro ⟨key, hkey, rfl⟩
      obtain ⟨ip, rfl⟩ := exists_ip_of_mem h hkey
      exact ⟨ip, (hS ip).mp hkey, rfl⟩
    · rintro ⟨ip, hip, rfl⟩
      exact ⟨keyOfIpv6 ip, (hS ip).mpr hip, rfl⟩

theorem add_sound (same : ν → ν → Bool) (value : ν) (h : SoundT t) (hc : ¬Crosses ip t) :
    SoundT (add same ip value t) ∧ ∀ x, x ∈ keysT (add same ip value t) ↔ x = keyOfIpv6 ip ∨ x ∈ keysT t := by
  rcases t with _ | s
  · refine ⟨fun s hs => ?_, fun x => ?_⟩
    · obtain rfl := Option.some.inj hs
      exact .leaf (marked_keyOfIpv6 ip)
    · exact mem_singleton.trans (or_iff_left not_mem_nil).symm
  · have hs : crosses (beGenPrefix 128) (keyOfIpv6 ip) s = false :=
      Bool.eq_false_iff.mpr fun hc' => hc ⟨s, rfl, hc'⟩
    obtain ⟨hsnd, hkeys⟩ := addNe_sound (fun _ v => v) same value (h s rfl) (marked_keyOfIpv6 ip) hs
    exact ⟨fun u hu => Option.some.inj hu ▸ hsnd, hkeys⟩

theorem remove_sound (h : SoundT t) (hc : mem ip t = true → ¬Crosses ip t) :
    SoundT (remove ip t) ∧ ∀ x, x ∈ keysT (remove ip t) ↔ x ∈ keysT t ∧ x ≠ keyOfIpv6 ip := by
  rw [mem_iff_keysT h] at hc
  rcases t with _ | s
  · exact ⟨nofun, fun x => ⟨nofun, fun hx => absurd hx.1 not_mem_nil⟩⟩
  · by_cases hmem : keyOfIpv6 ip ∈ keys s
    · exact removeNe_sound (h s rfl) hmem (Bool.eq_false_iff.mpr fun hc' => hc hmem ⟨s, rfl, hc'⟩)
    · have heq : remove ip (some s) = some s := removeNe_of_not_mem (h s rfl) hmem
      rw [heq]
      exact ⟨h, fun x => ⟨fun hx => ⟨hx, fun heq => hmem (heq ▸ hx)⟩, And.left⟩⟩

/-- The tree is sound, and its keys are those of the addresses that were added and not removed since. -/
def Tracks (ops : List (Op ν)) (t : M ν) : Prop := SoundT t ∧ ∀ ip, keyOfIpv6 ip ∈ keysT t ↔ Added ops ip

theorem tracks_nil : Tracks [] (empty : M ν) := by
  refine ⟨nofun, fun ip => ⟨nofun, ?_⟩⟩
  rintro ⟨before, same, value, after, heq, -⟩
  exact absurd heq.symm (by simp)

theorem tracks_step (ops : List (Op ν)) (t : M ν) (op : Op ν) (h : Tracks ops t) (hop : op.Clear t) :
    Tracks (ops ++ [op]) (op.apply t) := by
  obtain ⟨hsnd, hkeys⟩ := h
  cases op with
  | add same ip value =>
    obtain ⟨hsnd', hkeys'⟩ := add_sound same value hsnd hop
    refine ⟨hsnd', fun ip' => (hkeys' _).trans ?_⟩
    rw [added_concat, hkeys]
    refine or_congr ⟨fun heq => ⟨same, value, by rw [keyOfIpv6_injective heq]⟩, ?_⟩ (and_iff_left nofun).symm
    rintro ⟨same', value', heq⟩
    cases heq
    rfl
  | remove ip =>
    obtain ⟨hsnd', hkeys'⟩ := remove_sound hsnd hop
    refine ⟨hsnd', fun ip' => (hkeys' _).trans ?_⟩
    rw [added_concat, hkeys, or_iff_right (by rintro ⟨same, value, heq⟩; cases heq)]
    refine and_congr_right fun _ => not_congr ⟨fun heq => by rw [keyOfIpv6_injective heq], fun heq => ?_⟩
    cases heq
    rfl

/-- An operation of an address that crosses a node leaves a tree that is not the set it should be. -/
theorem clear_of_isSet (ops : List (Op ν)) (t : M ν) (op : Op ν) (h : Tracks ops t)
    (hset : IsSet (op.apply t) (Added (ops ++ [op]))) : op.Clear t := by
  obtain ⟨hsnd, hkeys⟩ := h
  cases op with
  | add same ip value =>
    rintro ⟨s, rfl, hc⟩
    have hs := hsnd s rfl
    rcases addNe_crosses (fun _ v => v) same value hs (marked_keyOfIpv6 ip) hc with hdup | ⟨x, hx, hout⟩
    · exact hdup (hset.nodup_keysT)
    · obtain ⟨ip', rfl⟩ := exists_ip_of_mem hsnd hx
      have hadd : Added (ops ++ [.add same ip value]) ip' := (added_concat _ _).mpr (.inr ⟨(hkeys ip').mp hx, nofun⟩)
      exact Bool.false_ne_true (hout.symm.trans ((hset.mem_iff ip').mpr hadd))
  | remove ip =>
    rintro hmem ⟨s, rfl, hc⟩
    have heq : (Op.remove ip).apply (some s) = some s := removeNe_crosses hc
    rw [heq] at hset
    have hadd := (hset.mem_iff ip).mp hmem
    rcases (added_concat _ _).mp hadd with ⟨same, value, h⟩ | ⟨-, h⟩
    · cases h
    · exact h rfl

/-- Throughout a run of `add` and `remove` the tree is the set of the addresses that were added and not removed since
    if, and only if, no address that is added, and no member that is removed, crosses a node. -/
theorem isSet_iff_clear (ops : List (Op ν)) :
    Throughout (fun ops => IsSet (run Op.apply empty ops) (Added ops)) ops ↔ StepsMeet Op.apply empty Op.Clear ops :=
  throughout_iff_stepsMeet Tracks tracks_nil tracks_step (fun _ h => isSet_of_sound h.1 h.2)
    fun ops op h hset => clear_of_isSet ops _ op h (by rwa [run_append_singleton] at hset)

def addIp (ip : Ipv6) : Op Unit := .add (fun _ _ => false) ip ()

/-- The address 1 crosses the node of 0 and 1, and stays when it is removed; the address 3 crosses the node of 0 and 2,
    and hides 2 when it is added. -/
theorem mem_crossing :
    (mem 1 (run Op.apply empty [addIp 0, addIp 1, .remove 1]) = true ∧ ¬Added [addIp 0, addIp 1, .remove 1] 1) ∧
      (mem 2 (run Op.apply empty [addIp 0, addIp 2, addIp 3]) = false ∧ Added [addIp 0, addIp 2, addIp 3] 2) := by
  refine ⟨⟨by decide, fun h => ?_⟩, by decide, ⟨[addIp 0], _, _, [addIp 3], rfl, by simp [addIp]⟩⟩
  rcases (added_concat [addIp 0, addIp 1] (.remove 1)).mp h with ⟨_, _, h⟩ | ⟨-, h⟩
  · cases h
  · exact h rfl

end Addresses

structure AddPrefix (ν : Type) where
  same : ν → ν → Bool
  prefix_ : Ipv6Prefix
  value : ν

namespace AddPrefix
variable {ν : Type}

def apply (t : M ν) (s : AddPrefix ν) : M ν := addPrefix s.same s.prefix_ s.value t

/-- The prefix is not misplaced in the tree. -/
def Ok : M ν → AddPrefix ν → Prop
  | none, _ => True
  | some t, s =>
    misplaced s.same (keyMaskOfIpv6Prefix s.prefix_).1 s.value (keyMaskOfIpv6Prefix s.prefix_).2 t = false

instance : ∀ (t : M ν) (s : AddPrefix ν), Decidable (Ok t s)
  | none, _ => inferInstanceAs (Decidable True)
  | some _, _ => inferInstanceAs (Decidable (_ = _))

def Union (ps : List (AddPrefix ν)) (ip : Ipv6) : Prop := ∃ p ∈ ps, p.prefix_.Contains ip

theorem union_concat (ps : List (AddPrefix ν)) (p : AddPrefix ν) (ip : Ipv6) :
    Union (ps ++ [p]) ip ↔ Union ps ip ∨ p.prefix_.Contains ip := by
  simp only [Union, List.mem_append, List.mem_singleton, or_and_right, exists_or, exists_eq_left]

/-- The tree is well formed and has the addresses of the prefixes. -/
structure Collects (ps : List (AddPrefix ν)) (t : M ν) : Prop where
  nested : ∀ s, t = some s → Nested s
  mem_iff : ∀ ip, mem ip t = true ↔ Union ps ip

theorem collects_nil : Collects [] (empty : M ν) := by
  refine ⟨fun s h => ?_, fun ip => iff_of_false Bool.false_ne_true ?_⟩
  · cases h
  · rintro ⟨_, hp, -⟩
    exact List.not_mem_nil hp

theorem Collects.apply {ps : List (AddPrefix ν)} {t : M ν} {s : AddPrefix ν} (h : Collects ps t) (hok : s.Ok t) :
    Collects (ps ++ [s]) (s.apply t) := by
  have hle : 128 - s.prefix_.bits ≤ 128 := Nat.sub_le _ _
  have hmar := marked_keyOfIpv6 s.prefix_.network
  have hmem : ∀ ip (t : BitTree 128 ν), mem ip (some t) = true ↔ Has (keyOfIpv6 ip) t := fun ip t =>
    (and_iff_right (marked_keyOfIpv6 ip)).symm
  have hcon : ∀ ip, AgreeFrom (128 - s.prefix_.bits) (keyOfIpv6 s.prefix_.network) (keyOfIpv6 ip) ↔
      s.prefix_.Contains ip :=
    fun ip => agreeFrom_keyOfIpv6.trans Ipv6Prefix.contains_iff.symm
  have hunion : ∀ ip, Union (ps ++ [s]) ip ↔ mem ip t = true ∨ s.prefix_.Contains ip := fun ip => by
    rw [union_concat, h.mem_iff]
  rw [AddPrefix.apply, addPrefix, keyMaskOfIpv6Prefix_eq]
  rcases t with _ | t
  · refine ⟨fun t ht => ?_, fun ip => ?_⟩
    · cases ht
      exact .leaf hle hmar
    · rw [hunion, or_iff_right (show ¬mem ip (none : M ν) = true from Bool.false_ne_true), ← hcon]
      exact (hmem ip _).trans (has_leaf hle hmar)
  · rw [Ok, keyMaskOfIpv6Prefix_eq] at hok
    obtain ⟨hnst, hgain⟩ := gains_addNe (fun _ v => v) (h.nested t rfl) hle hmar hok
    refine ⟨fun t' ht' => ?_, fun ip => ?_⟩
    · cases ht'
      exact hnst
    · rw [hunion, ← hcon, hmem]
      exact (hmem ip _).trans (hgain _)

/-- Throughout a list of prefixes that are added, none of them misplaced, the set has the addresses of the prefixes. -/
theorem mem_iff_union (ps : List (AddPrefix ν)) (h : StepsMeet apply empty Ok ps) :
    Throughout (fun ps => ∀ ip, mem ip (run apply empty ps) = true ↔ Union ps ip) ps :=
  throughout_of_stepsMeet Collects collects_nil (fun _ _ _ h hok => h.apply hok) (fun _ h => h.mem_iff) h

def addNet (network : Ipv6) (bits : Nat) (bits_le : bits ≤ 128) : AddPrefix Unit :=
  ⟨fun _ _ => true, ⟨network, bits, bits_le⟩, ()⟩

def nets : List (AddPrefix Unit) :=
  [addNet 0x90 124 (by decide), addNet 0x93 128 (by decide), addNet 0xC0 122 (by decide), addNet 0x90 124 (by decide),
    addNet 0x9C 128 (by decide), addNet 0 120 (by decide)]

/-- A prefix inside the first one, one beside it, the first one again, an address inside it, and one around them all. -/
theorem mem_iff_union_nets :
    mem 0xA0 (run apply empty nets) = true ∧ mem 0xA0 (run apply empty (nets.take 5)) = false ∧
      (∀ ip, mem ip (run apply empty (nets.take 5)) = true ↔ Union (nets.take 5) ip) ∧
      ∀ ip, mem ip (run apply empty nets) = true ↔ Union nets ip := by
  have hok : StepsMeet apply empty Ok nets := by
    simp only [nets, stepsMeet_cons]
    exact ⟨by decide, by decide, by decide, by decide, by decide, by decide, stepsMeet_nil⟩
  have hall := mem_iff_union nets hok
  exact ⟨by decide, by decide, hall _ (List.take_prefix 5 nets), hall nets (List.prefix_refl nets)⟩

/-- The prefix of all addresses is taken for one that is longer than `::/1`, and is not added to it; of three
    disjoint prefixes, the third hides the second. -/
theorem mem_hidden : (mem (1#128 <<< 127) (run apply empty [addNet 0 1 (by decide), addNet 0 0 (by decide)]) = false ∧
      Union [addNet 0 1 (by decide), addNet 0 0 (by decide)] (1#128 <<< 127)) ∧
    (mem 2 (run apply empty [addNet 0 128 (by decide), addNet 2 128 (by decide), addNet 3 128 (by decide)]) = false ∧
      Union [addNet 0 128 (by decide), addNet 2 128 (by decide), addNet 3 128 (by decide)] 2) := by
  refine ⟨⟨by decide, ⟨addNet 0 0 (by decide), by simp, ?_⟩⟩, by decide,
    ⟨addNet 2 128 (by decide), by simp, ?_⟩⟩
  · show (1#128 <<< 127) >>> 128 = (0 : Ipv6) >>> 128
    decide
  · rfl

end AddPrefix

section Expiry
variable {τ : Type} [LinearOrder τ]

/-- What is left of a tree when the entries before a time are removed: a fold over it, also one that turns them into
    prefixes, is the fold over the other entries, and a key that leads to one of these leads to it still. -/
structure Expires (olderThan : τ) (t t' : M τ) : Prop where
  fold_eq : ∀ {ρ : Type} (f : Key → Key → τ → ρ → ρ) (acc : ρ), HashPtree.fold f t' acc =
    HashPtree.fold (fun key mask time acc => if olderThan ≤ time then f key mask time acc else acc) t acc
  descent : ∀ (key : Key) s, t = some s → olderThan ≤ (descent (beGenPrefix 128) key s).2.2.2 →
    ∃ s', t' = some s' ∧ SameDescent (beGenPrefix 128) key s s'

theorem le_min_decide (olderThan a b : τ) :
    decide (olderThan ≤ min a b) = (decide (olderThan ≤ a) && decide (olderThan ≤ b)) := by
  rw [← Bool.decide_and]
  exact decide_eq_decide.mpr le_min_iff

theorem expires_removeOld (olderThan : τ) (t : M τ) : Expires olderThan t (removeOld olderThan t) := by
  refine ⟨fun f acc => ?_, fun key s hs h => ?_⟩
  · rcases t with _ | s
    · rfl
    · refine (fold_filterNe (fun _ => le_min_decide olderThan) f s acc).trans ?_
      simp only [decide_eq_true_eq]
      rfl
  · subst hs
    exact descent_filterNe key s (decide_eq_true h)

end Expiry

end Tezos.P2p.IpSet
