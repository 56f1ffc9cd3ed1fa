import Tezos.Lib.Interpolation

/-! Publicly verifiable secret sharing (`lib_crypto/pvss.ml`, with the part of `lib_crypto/znz.ml` it uses). An
    exponent is an element of `ZMod m`, the remainders that `Znz.MakeZn` keeps its values reduced to. `none` stands for
    an exception. -/

namespace Tezos.Pvss
open Lib

variable {m : Nat} {G : Type}

def ofInt (u : Int) : ZMod m := u

/-- `Znz.pow`: the exponent is reduced modulo `m - 1`. -/
def zPow (a : ZMod m) (x : Int) : ZMod m := a ^ (x % ((m : Int) - 1)).toNat

def inv (a : ZMod m) : Option (ZMod m) := if Nat.Coprime a.val m then some a⁻¹ else none

def map2 {α β γ : Type} (f : α → β → γ) (xs : List α) (ys : List β) : Option (List γ) :=
  if xs.length = ys.length then some (List.zipWith f xs ys) else none

/-- What the functor takes from its group, besides the operations, and from the hash functions: the generators, the
    exponent that `fiat_shamir` derives from a list of exponents and a list of elements, and the coefficient of index
    `k` that `random_polynomial` derives from the secret. -/
structure Params (m : Nat) (G : Type) where
  g1 : G
  g2 : G
  fiatShamir : List (ZMod m) → List G → ZMod m
  coefficient : ZMod m → Nat → ZMod m

variable [CommGroup G] (S : Params m G)

/-- The equation `b1 ^ x(i) = h1(i)` and `b2(i) ^ x(i) = h2(i)`. -/
structure Equation (G : Type) where
  b1 : G
  h1 : List G
  b2 : List G
  h2 : List G

structure Proof (m : Nat) where
  c : ZMod m
  r : List (ZMod m)

def blinding (eq : Equation G) (x : List (ZMod m)) : List (ZMod m) :=
  let pseudoSeed := S.fiatShamir x (eq.b1 :: (eq.h1 ++ eq.b2 ++ eq.h2))
  eq.h1.mapIdx fun i _ => S.fiatShamir [pseudoSeed, ofInt i] []

def makeProof (eq : Equation G) (x : List (ZMod m)) : Option (Proof m) := do
  let w := blinding S eq x
  let a1 := w.map (modPow eq.b1)
  let a2 ← map2 modPow eq.b2 w
  let c := S.fiatShamir [] (eq.h1 ++ eq.h2 ++ a1 ++ a2)
  let r ← map2 (fun w x => w - c * x) w x
  return ⟨c, r⟩

def checkProof (eq : Equation G) (proof : Proof m) : Option Bool :=
  if eq.h1.length = eq.b2.length ∧ eq.b2.length = eq.h2.length ∧ eq.h2.length = proof.r.length then do
    let a1 ← map2 (· * ·) (proof.r.map (modPow eq.b1)) (eq.h1.map fun h1 => modPow h1 proof.c)
    let b2r ← map2 modPow eq.b2 proof.r
    let a2 ← map2 (· * ·) b2r (eq.h2.map fun h2 => modPow h2 proof.c)
    return decide (proof.c = S.fiatShamir [] (eq.h1 ++ eq.h2 ++ a1 ++ a2))
  else some false

def toPublicKey (x : ZMod m) : G := modPow S.g2 x

def makeCoefs (secret : ZMod m) : Nat → List (ZMod m)
  | 0 => []
  | k + 1 => S.coefficient secret (k + 1) :: makeCoefs secret k

/-- The coefficients of the polynomial; for a threshold of zero the source does not end. -/
def randomPolynomial (secret : ZMod m) (t : Nat) : Option (List (ZMod m)) :=
  if t = 0 then none else some (secret :: makeCoefs S secret (t - 1))

def dealerSharesAndProof (secret : ZMod m) (t : Nat) (publicKeys : List G) : Option (List G × List G × Proof m) := do
  let coefs ← randomPolynomial S secret t
  let commitments := coefs.map (modPow S.g1)
  let p := publicKeys.mapIdx fun i _ => horner coefs (ofInt (i + 1))
  let y ← map2 modPow publicKeys p
  let x := p.map (modPow S.g1)
  let proof ← makeProof S ⟨S.g1, x, publicKeys, y⟩ p
  return (y, commitments, proof)

/-- `prod_C_j_to_the__i_to_the_j`. -/
def prodCommitments (commitments : List G) (i : ZMod m) : G :=
  (commitments.mapIdx fun j c => modPow c (zPow i j)).foldl (· * ·) 1

def checkDealerProof (y commitments : List G) (proof : Proof m) (publicKeys : List G) : Option Bool :=
  let x := y.mapIdx fun i _ => prodCommitments commitments (ofInt (i + 1) : ZMod m)
  checkProof S ⟨S.g1, x, publicKeys, y⟩ proof

def revealShare (y : G) (secretKey : ZMod m) (publicKey : G) : Option (G × Proof m) := do
  let inverseKey ← inv secretKey
  let reveal := modPow y inverseKey
  let proof ← makeProof S ⟨S.g2, [publicKey], [reveal], [y]⟩ [secretKey]
  return (reveal, proof)

def checkRevealedShare (share reveal publicKey : G) (proof : Proof m) : Option Bool :=
  checkProof S ⟨S.g2, [publicKey], [reveal], [share]⟩ proof

def lagrangeFactor (i j : ZMod m) : Option (ZMod m) :=
  if j = i then some 1 else (inv (j - i)).map fun inverse => j * inverse

/-- `lagrange`, over the indices of the shares. -/
def lagrange (indices : List (ZMod m)) (i : ZMod m) : Option (ZMod m) :=
  (indices.mapM (lagrangeFactor i)).map fun factors => factors.foldl (· * ·) 1

variable (m) in
/-- `reconstruct`; the share of index `x` is the value at `1 + x`. -/
def reconstruct (reveals : List G) (intIndices : List Int) : Option G := do
  let indices : List (ZMod m) := intIndices.map fun x => ofInt (1 + x)
  let coefficients ← indices.mapM (lagrange indices)
  let powers ← map2 modPow reveals coefficients
  return powers.foldl (· * ·) 1

end Tezos.Pvss
