import Mathlib.FieldTheory.Finite.Basic
import Tezos.Crypto.Pvss

/-! What a dealer and the holders of keys publish is accepted, and gives the secret. -/

namespace Tezos.Pvss
open Lib List Option

variable {m : Nat} {G : Type} [CommGroup G] {S : Params m G}

/-- The point at which the share of an index is the value of the polynomial. -/
def evalPoint (m i : Nat) : ZMod m := ((i + 1 : Nat) : ZMod m)

theorem ofInt_add_one (i : Nat) : (ofInt ((i : Int) + 1) : ZMod m) = evalPoint m i := by
  rw [ofInt, evalPoint, ← Nat.cast_succ, Int.cast_natCast]

theorem ofInt_one_add (i : Nat) : (ofInt (1 + (i : Int)) : ZMod m) = evalPoint m i := by
  rw [Int.add_comm, ofInt_add_one]

variable {i : Nat} {α β : Type} {xs : List α} {ys : List β}

theorem evalPoint_ne_zero (hi : i + 1 < m) : evalPoint m i ≠ 0 := by
  rw [evalPoint, Ne, ZMod.natCast_eq_zero_iff]
  exact Nat.not_dvd_of_pos_of_lt (Nat.succ_pos i) hi

theorem evalPoint_inj {j : Nat} (hi : i + 1 < m) (hj : j + 1 < m) (h : evalPoint m i = evalPoint m j) : i = j := by
  have hval := congrArg ZMod.val h
  rw [evalPoint, evalPoint, ZMod.val_natCast_of_lt hi, ZMod.val_natCast_of_lt hj] at hval
  exact Nat.succ.inj hval

section
variable [Fact m.Prime]

/-- By Fermat's theorem the reduction of the exponent changes nothing. -/
theorem zPow_eq_pow {a : ZMod m} (ha : a ≠ 0) (j : Nat) : zPow a j = a ^ j := by
  have hm : ((m : Int) - 1) = ((m - 1 : Nat) : Int) := by
    have := (Fact.out : m.Prime).one_le
    omega
  rw [zPow, hm, ← Int.natCast_mod]
  exact (pow_eq_pow_mod j (ZMod.pow_card_sub_one_eq_one ha)).symm

theorem inv_eq_some {a : ZMod m} (ha : a ≠ 0) : inv a = some a⁻¹ := by
  refine if_pos ?_
  have hpos : a.val ≠ 0 := fun h => ha ((ZMod.val_eq_zero a).mp h)
  exact (Nat.coprime_of_lt_prime hpos (ZMod.val_lt a) Fact.out).symm

end

theorem map2_eq_some {γ : Type} (f : α → β → γ) (h : xs.length = ys.length) :
    map2 f xs ys = some (zipWith f xs ys) := if_pos h

omit [CommGroup G] in
theorem length_blinding (S : Params m G) (eq : Equation G) (x : List (ZMod m)) :
    (blinding S eq x).length = eq.h1.length := by
  rw [blinding, length_mapIdx]

section
variable {b1 : G} {h1 b2 h2 : List G}

def challenge (S : Params m G) (h1 h2 a1 a2 : List G) : ZMod m := S.fiatShamir [] (h1 ++ h2 ++ a1 ++ a2)

theorem makeProof_eq (S : Params m G) {x w : List (ZMod m)} (hw : blinding S ⟨b1, h1, b2, h2⟩ x = w)
    (hb2 : b2.length = w.length) (hx : w.length = x.length) :
    makeProof S ⟨b1, h1, b2, h2⟩ x =
      let c := challenge S h1 h2 (w.map (modPow b1)) (zipWith modPow b2 w)
      some ⟨c, zipWith (fun w x => w - c * x) w x⟩ := by
  simp only [makeProof, hw, map2_eq_some _ hb2, map2_eq_some _ hx, bind_eq_bind, bind_some,
    Option.pure_def, challenge]

theorem checkProof_eq (S : Params m G) {c : ZMod m} {r : List (ZMod m)} (hb2 : h1.length = b2.length)
    (hh2 : b2.length = h2.length) (hr : h2.length = r.length) :
    checkProof S ⟨b1, h1, b2, h2⟩ ⟨c, r⟩ =
      some (decide (c = challenge S h1 h2
        (zipWith (· * ·) (r.map (modPow b1)) (h1.map fun h => modPow h c))
        (zipWith (· * ·) (zipWith modPow b2 r) (h2.map fun h => modPow h c)))) := by
  have ha1 : (r.map (modPow b1)).length = (h1.map fun h => modPow h c).length := by
    rw [length_map, length_map, hb2, hh2, hr]
  have ha2 : (zipWith modPow b2 r).length = (h2.map fun h => modPow h c).length := by
    rw [length_zipWith, length_map, hh2, hr, min_self]
  rw [checkProof, if_pos ⟨hb2, hh2, hr⟩]
  simp only [map2_eq_some _ ha1, map2_eq_some modPow (hh2.trans hr), map2_eq_some _ ha2, bind_eq_bind,
    bind_some]
  rfl

end

section
variable [NeZero m] (hpow : ∀ g : G, g ^ m = 1)

include hpow

/-- The answer `w - c * x` to a challenge `c` gives the blinded element back. -/
theorem modPow_answer (b : G) (w c x : ZMod m) : modPow b (w - c * x) * modPow (modPow b x) c = modPow b w := by
  rw [← modPow_mul hpow, ← modPow_add hpow, mul_comm x c, sub_add_cancel]

theorem zipWith_answer (b : List G) (w x : List (ZMod m)) (c : ZMod m) (hw : b.length = w.length)
    (hx : b.length = x.length) :
    zipWith (· * ·) (zipWith modPow b (zipWith (fun w x => w - c * x) w x))
      ((zipWith modPow b x).map fun h => modPow h c) = zipWith modPow b w := by
  refine ext_getElem ?_ fun i hi hi' => ?_
  · simp only [length_zipWith, length_map]
    omega
  · simp only [getElem_zipWith, getElem_map]
    exact modPow_answer hpow _ _ _ _

theorem map_answer (b : G) (w x : List (ZMod m)) (c : ZMod m) (hlen : w.length = x.length) :
    zipWith (· * ·) ((zipWith (fun w x => w - c * x) w x).map (modPow b))
      ((x.map (modPow b)).map fun h => modPow h c) = w.map (modPow b) := by
  refine ext_getElem ?_ fun i hi hi' => ?_
  · simp only [length_zipWith, length_map]
    omega
  · simp only [getElem_zipWith, getElem_map]
    exact modPow_answer hpow _ _ _ _

theorem checkProof_makeProof (S : Params m G) (b1 : G) (b2 : List G) (x : List (ZMod m)) (hlen : b2.length = x.length) :
    ∃ proof, makeProof S ⟨b1, x.map (modPow b1), b2, zipWith modPow b2 x⟩ x = some proof ∧
      checkProof S ⟨b1, x.map (modPow b1), b2, zipWith modPow b2 x⟩ proof = some true := by
  have hw := length_blinding S ⟨b1, x.map (modPow b1), b2, zipWith modPow b2 x⟩ x
  rw [length_map] at hw
  generalize hbln : blinding S ⟨b1, x.map (modPow b1), b2, zipWith modPow b2 x⟩ x = w at hw
  refine ⟨_, makeProof_eq S hbln (hlen.trans hw.symm) hw, ?_⟩
  generalize hc : challenge S (x.map (modPow b1)) (zipWith modPow b2 x) (w.map (modPow b1))
    (zipWith modPow b2 w) = c
  have hh2 : b2.length = (zipWith (modPow (m := m)) b2 x).length := by
    rw [length_zipWith, hlen, min_self]
  have hr : (zipWith (modPow (m := m)) b2 x).length = (zipWith (fun w x => w - c * x) w x).length := by
    rw [length_zipWith, length_zipWith, hlen, hw]
  rw [checkProof_eq S (by rw [length_map, hlen]) hh2 hr, map_answer hpow b1 w x c hw,
    zipWith_answer hpow b2 w x c (hlen.trans hw.symm) hlen, hc, decide_eq_true rfl]

theorem prod_commitments (g : G) (coefs : List (ZMod m)) (i : ZMod m) (o : Nat) :
    ((coefs.map (modPow g)).mapIdx fun j c => modPow c (i ^ (j + o))).prod = modPow g (i ^ o * horner coefs i) := by
  induction coefs generalizing o with
  | nil => rw [map_nil, mapIdx_nil, prod_nil, horner_nil, mul_zero, modPow_zero]
  | cons c coefs ih =>
    have htail : ∀ j : Nat, j + 1 + o = j + (o + 1) := fun j => by rw [add_assoc, add_comm 1 o]
    simp only [map_cons, mapIdx_cons, prod_cons, htail, ih, zero_add, horner_cons]
    rw [← modPow_mul hpow, ← modPow_add hpow]
    exact congrArg (modPow g) (by ring)

end

theorem prodCommitments_eq [Fact m.Prime] (hpow : ∀ g : G, g ^ m = 1) (g : G) (coefs : List (ZMod m)) {i : ZMod m}
    (hi : i ≠ 0) : prodCommitments (coefs.map (modPow g)) i = modPow g (horner coefs i) := by
  have h := prod_commitments hpow g coefs i 0
  simp only [add_zero, pow_zero, one_mul] at h
  simp only [prodCommitments, zPow_eq_pow hi, ← prod_eq_foldl, h]

def points (coefs : List (ZMod m)) (n : Nat) : List (ZMod m) :=
  (range n).map fun i => horner coefs (evalPoint m i)

theorem length_points (coefs : List (ZMod m)) (n : Nat) : (points coefs n).length = n := by
  rw [points, length_map, length_range]

theorem mapIdx_eq_map_range (f : Nat → β) (xs : List α) : (xs.mapIdx fun i _ => f i) = (range xs.length).map f := by
  refine ext_getElem ?_ fun i hi hi' => ?_
  · rw [length_mapIdx, length_map, length_range]
  · rw [getElem_mapIdx, getElem_map, getElem_range]

section
variable [Fact m.Prime] (hpow : ∀ g : G, g ^ m = 1)

include hpow

theorem dealer_spec (S : Params m G) (secret : ZMod m) {t : Nat} {coefs : List (ZMod m)} (publicKeys : List G)
    (hcfs : randomPolynomial S secret t = some coefs) (hn : publicKeys.length < m) :
    ∃ proof,
      dealerSharesAndProof S secret t publicKeys =
        some (zipWith modPow publicKeys (points coefs publicKeys.length), coefs.map (modPow S.g1), proof) ∧
      checkDealerProof S (zipWith modPow publicKeys (points coefs publicKeys.length)) (coefs.map (modPow S.g1))
        proof publicKeys = some true := by
  have hlen : publicKeys.length = (points coefs publicKeys.length).length := (length_points _ _).symm
  obtain ⟨proof, hmake, hchk⟩ :=
    checkProof_makeProof hpow S S.g1 publicKeys (points coefs publicKeys.length) hlen
  have hp : (publicKeys.mapIdx fun i _ => horner coefs (ofInt ((i : Int) + 1))) = points coefs publicKeys.length := by
    simp only [ofInt_add_one, mapIdx_eq_map_range fun i => horner coefs (evalPoint m i), points]
  have hx : (zipWith modPow publicKeys (points coefs publicKeys.length)).mapIdx
      (fun i _ => prodCommitments (coefs.map (modPow S.g1)) (ofInt ((i : Int) + 1) : ZMod m)) =
      (points coefs publicKeys.length).map (modPow S.g1) := by
    simp only [ofInt_add_one]
    rw [mapIdx_eq_map_range fun i => prodCommitments (coefs.map (modPow S.g1)) (evalPoint m i), length_zipWith,
      length_points, min_self, points, List.map_map]
    refine map_congr_left fun i hi => prodCommitments_eq hpow S.g1 coefs (evalPoint_ne_zero ?_)
    exact lt_of_le_of_lt (mem_range.mp hi) hn
  refine ⟨proof, ?_, ?_⟩
  · simp only [dealerSharesAndProof, hcfs, hp, map2_eq_some _ hlen, hmake, Option.bind_eq_bind, Option.bind_some,
      Option.pure_def]
  · rw [checkDealerProof, hx, hchk]

theorem reveal_spec (S : Params m G) {secretKey : ZMod m} (hkey : secretKey ≠ 0) (p : ZMod m) :
    ∃ proof, revealShare S (modPow (toPublicKey S secretKey) p) secretKey (toPublicKey S secretKey) =
        some (modPow S.g2 p, proof) ∧
      checkRevealedShare S (modPow (toPublicKey S secretKey) p) (modPow S.g2 p) (toPublicKey S secretKey) proof =
        some true := by
  obtain ⟨proof, hmake, hchk⟩ := checkProof_makeProof hpow S S.g2 [modPow S.g2 p] [secretKey] rfl
  have hshr : modPow (toPublicKey S secretKey) p = modPow (modPow S.g2 p) secretKey := by
    rw [toPublicKey, ← modPow_mul hpow, ← modPow_mul hpow, mul_comm]
  have hrev : modPow (modPow (modPow S.g2 p) secretKey) secretKey⁻¹ = modPow S.g2 p := by
    rw [← modPow_mul hpow, ← modPow_mul hpow, mul_inv_cancel₀ hkey, mul_one]
  rw [hshr]
  refine ⟨proof, ?_, hchk⟩
  simp only [revealShare, inv_eq_some hkey, hrev, bind_eq_bind, bind_some]
  exact congrArg (fun made => bind made fun proof => some (modPow S.g2 p, proof)) hmake

end

theorem mapM_eq_some {f : α → Option β} {g : α → β} (h : ∀ x ∈ xs, f x = some (g x)) :
    xs.mapM f = some (xs.map g) := by
  induction xs with
  | nil => rfl
  | cons x xs ih =>
    rw [mapM_cons, h x mem_cons_self, ih fun y hy => h y (mem_cons_of_mem x hy)]
    rfl

omit [CommGroup G] in
theorem length_makeCoefs (S : Params m G) (secret : ZMod m) (k : Nat) : (makeCoefs S secret k).length = k := by
  induction k with
  | zero => rfl
  | succ k ih => rw [makeCoefs, length_cons, ih]

omit [CommGroup G] in
theorem randomPolynomial_spec (S : Params m G) (secret : ZMod m) {t : Nat} (ht : 1 ≤ t) :
    ∃ coefs, randomPolynomial S secret t = some coefs ∧ coefs.length = t ∧ horner coefs 0 = secret := by
  refine ⟨secret :: makeCoefs S secret (t - 1), if_neg (Nat.one_le_iff_ne_zero.mp ht), ?_, ?_⟩
  · rw [length_cons, length_makeCoefs, Nat.sub_add_cancel ht]
  · rw [horner_cons, mul_zero, zero_add]

section
variable [Fact m.Prime]

theorem lagrange_eq_weight (indices : List (ZMod m)) (i : ZMod m) : lagrange indices i = some (weight indices i) := by
  have hfac : ∀ j ∈ indices, lagrangeFactor i j = some (if j = i then 1 else j * (j - i)⁻¹) := by
    intro j _
    rw [lagrangeFactor]
    by_cases hji : j = i
    · rw [if_pos hji, if_pos hji]
    · rw [if_neg hji, if_neg hji, inv_eq_some (sub_ne_zero.mpr hji), map_some]
  rw [lagrange, mapM_eq_some hfac, map_some, weight, prod_eq_foldl]

/-- Shares revealed for at least as many indices as there are coefficients give the value of the polynomial at zero,
    in the exponent. -/
theorem reconstruct_spec (hpow : ∀ g : G, g ^ m = 1) (g : G) (coefs : List (ZMod m)) {indices : List Nat}
    (hnd : indices.Nodup) (hlt : ∀ i ∈ indices, i + 1 < m) (hlen : coefs.length ≤ indices.length) :
    reconstruct m (indices.map fun i => modPow g (horner coefs (evalPoint m i))) (indices.map Int.ofNat) =
      some (modPow g (horner coefs 0)) := by
  have hpts : ((indices.map Int.ofNat).map fun x => ofInt (1 + x)) = indices.map (evalPoint m) := by
    rw [List.map_map]
    exact map_congr_left fun i _ => ofInt_one_add i
  have hxnod : (indices.map (evalPoint m)).Nodup :=
    hnd.map_on fun i hi j hj h => evalPoint_inj (hlt i hi) (hlt j hj) h
  have hpowers : zipWith modPow (indices.map fun i => modPow g (horner coefs (evalPoint m i)))
      ((indices.map (evalPoint m)).map (weight (indices.map (evalPoint m)))) =
      ((indices.map (evalPoint m)).map fun x => horner coefs x * weight (indices.map (evalPoint m)) x).map
        (modPow g) := by
    rw [List.map_map, List.map_map, List.map_map, List.zipWith_map, List.zipWith_self]
    exact map_congr_left fun i _ => (modPow_mul hpow g _ _).symm
  have hleng : (indices.map fun i => modPow g (horner coefs (evalPoint m i))).length =
      ((indices.map (evalPoint m)).map (weight (indices.map (evalPoint m)))).length := by
    rw [length_map, length_map, length_map]
  simp only [reconstruct, hpts, mapM_eq_some fun i _ => lagrange_eq_weight (indices.map (evalPoint m)) i,
    map2_eq_some _ hleng, hpowers, Option.bind_eq_bind, Option.bind_some, Option.pure_def, ← prod_eq_foldl]
  rw [← modPow_sum hpow, sum_horner_mul_weight coefs _ hxnod (by rw [length_map]; exact hlen)]

end

theorem eq_map_of_forall₂ {R : α → β → Prop} {f : α → β} {P : α → Prop} (h : Forall₂ R xs ys)
    (hR : ∀ x y, R x y → y = f x ∧ P x) : ys = xs.map f ∧ ∀ x ∈ xs, P x := by
  induction h with
  | nil => exact ⟨rfl, fun x hx => absurd hx not_mem_nil⟩
  | cons hxy _ ih =>
    obtain ⟨rfl, hP⟩ := hR _ _ hxy
    obtain ⟨rfl, hPs⟩ := ih
    exact ⟨rfl, forall_mem_cons.mpr ⟨hP, hPs⟩⟩

def Reveals (S : Params m G) (secretKeys : List (ZMod m)) (shares : List G) (i : Nat) (reveal : G) : Prop :=
  ∃ secretKey share proof, secretKeys[i]? = some secretKey ∧ shares[i]? = some share ∧
    revealShare S share secretKey (toPublicKey S secretKey) = some (reveal, proof)

/-- For every group of prime order, secret, threshold and keys: what the dealer publishes is accepted, what each
    holder of a key reveals is accepted, and the shares revealed for at least as many distinct indices as the
    threshold give the public key of the secret. -/
theorem pvss_correct [Fact m.Prime] (hcard : Nat.card G = m) (S : Params m G) (secret : ZMod m) (t : Nat)
    (ht : 1 ≤ t) (secretKeys : List (ZMod m)) (hkeys : ∀ secretKey ∈ secretKeys, secretKey ≠ 0)
    (hn : secretKeys.length < m) :
    ∃ shares commitments proof,
      dealerSharesAndProof S secret t (secretKeys.map (toPublicKey S)) = some (shares, commitments, proof) ∧
      checkDealerProof S shares commitments proof (secretKeys.map (toPublicKey S)) = some true ∧
      (∀ (i : Nat) secretKey, secretKeys[i]? = some secretKey → ∃ share reveal proof, shares[i]? = some share ∧
        revealShare S share secretKey (toPublicKey S secretKey) = some (reveal, proof) ∧
        checkRevealedShare S share reveal (toPublicKey S secretKey) proof = some true) ∧
      ∀ indices reveals, indices.Nodup → t ≤ indices.length →
        Forall₂ (Reveals S secretKeys shares) indices reveals →
        reconstruct m reveals (indices.map Int.ofNat) = some (modPow S.g2 secret) := by
  have hpow : ∀ g : G, g ^ m = 1 := fun g => hcard ▸ pow_card_eq_one'
  obtain ⟨coefs, hcfs, hlen, hsec⟩ := randomPolynomial_spec S secret ht
  obtain ⟨proof, hdeal, hchk⟩ :=
    dealer_spec hpow S secret (secretKeys.map (toPublicKey S)) hcfs (by rwa [length_map])
  have hshr : ∀ (i : Nat) secretKey, secretKeys[i]? = some secretKey →
      (zipWith modPow (secretKeys.map (toPublicKey S))
        (points coefs (secretKeys.map (toPublicKey S)).length))[i]? =
      some (modPow (toPublicKey S secretKey) (horner coefs (evalPoint m i))) := by
    intro i secretKey hi
    obtain ⟨hlt, rfl⟩ := List.getElem?_eq_some_iff.mp hi
    rw [getElem?_zipWith, getElem?_map, hi, points, getElem?_map, getElem?_range (by simpa using hlt)]
    rfl
  -- a revealed share is the value of the polynomial in the exponent, whoever reveals it
  have hvalue : ∀ i reveal, Reveals S secretKeys (zipWith modPow (secretKeys.map (toPublicKey S))
      (points coefs (secretKeys.map (toPublicKey S)).length)) i reveal →
      reveal = modPow S.g2 (horner coefs (evalPoint m i)) ∧ i + 1 < m := by
    rintro i reveal ⟨secretKey, share, proof', hkey, hi, hrev⟩
    obtain rfl := some.inj ((hshr i secretKey hkey).symm.trans hi)
    obtain ⟨proof'', hrev', -⟩ :=
      reveal_spec hpow S (hkeys secretKey (mem_of_getElem? hkey)) (horner coefs (evalPoint m i))
    obtain ⟨hlt, -⟩ := List.getElem?_eq_some_iff.mp hkey
    exact ⟨(Prod.mk.inj (some.inj (hrev.symm.trans hrev'))).1, lt_of_le_of_lt hlt hn⟩
  refine ⟨_, _, proof, hdeal, hchk, fun i secretKey hi => ?_, fun indices reveals hnd hle hreveals => ?_⟩
  · obtain ⟨proof', hrev, hchk'⟩ :=
      reveal_spec hpow S (hkeys secretKey (mem_of_getElem? hi)) (horner coefs (evalPoint m i))
    exact ⟨_, _, proof', hshr i secretKey hi, hrev, hchk'⟩
  · obtain ⟨rfl, hlt⟩ := eq_map_of_forall₂ hreveals hvalue
    rw [reconstruct_spec hpow S.g2 coefs hnd hlt (hlen ▸ hle), hsec]

def fiveParams : Params 5 (Multiplicative (ZMod 5)) where
  g1 := .ofAdd 1
  g2 := .ofAdd 2
  fiatShamir exponents elements := exponents.sum + (elements.map Multiplicative.toAdd).sum
  coefficient secret k := secret + k

instance factPrimeFive : Fact (Nat.Prime 5) := ⟨Nat.prime_five⟩

theorem pvss_correct_five : ∃ shares commitments proof,
      dealerSharesAndProof fiveParams 3 2 ([1, 2, 4].map (toPublicKey fiveParams)) = some (shares, commitments, proof) ∧
      checkDealerProof fiveParams shares commitments proof ([1, 2, 4].map (toPublicKey fiveParams)) = some true ∧
      (∀ (i : Nat) secretKey, [1, 2, 4][i]? = some secretKey → ∃ share reveal proof, shares[i]? = some share ∧
        revealShare fiveParams share secretKey (toPublicKey fiveParams secretKey) = some (reveal, proof) ∧
        checkRevealedShare fiveParams share reveal (toPublicKey fiveParams secretKey) proof = some true) ∧
      ∀ indices reveals, indices.Nodup → 2 ≤ indices.length →
        Forall₂ (Reveals fiveParams [1, 2, 4] shares) indices reveals →
        reconstruct 5 reveals (indices.map Int.ofNat) = some (modPow fiveParams.g2 (3 : ZMod 5)) :=
  pvss_correct (by rw [Nat.card_eq_fintype_card]; rfl) fiveParams 3 2 (by decide) [1, 2, 4] (by decide)
    (by decide)

end Tezos.Pvss
