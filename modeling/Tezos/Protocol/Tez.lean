import Tezos.Lib.Bytes

/-! Amounts of tokens: 64-bit integers that are never negative, with checked operations. -/

namespace Tezos.Protocol

/-- A 32-bit integer: what overflows wraps around. -/
def int32 (x : Int) : Int := Int.bmod x (2 ^ 32)

theorem int32_eq_self {x : Int} (hlow : -2 ^ 31 ≤ x) (hhigh : x < 2 ^ 31) : int32 x = x := Int.bmod_eq_of_le hlow hhigh

def int64 (x : Int) : Int := Int.bmod x (2 ^ 64)

structure Tez where
  mutez : Nat
  lt : mutez < 2 ^ 63
deriving DecidableEq

namespace Tez

inductive Error
  | additionOverflow (t₁ t₂ : Tez)
  | subtractionUnderflow (t₁ t₂ : Tez)
  | multiplicationOverflow (t : Tez) (m : Int)
  | negativeMultiplicator (t : Tez) (m : Int)
  | invalidDivisor (t : Tez) (d : Int)
deriving DecidableEq

theorem ext {t₁ t₂ : Tez} (h : t₁.mutez = t₂.mutez) : t₁ = t₂ := by
  cases t₁
  cases h
  rfl

theorem pow_pos : 0 < 2 ^ 63 := by decide

def zero : Tez := ⟨0, pow_pos⟩

theorem mod_lt (n : Nat) : n % 2 ^ 63 < 2 ^ 63 := Nat.mod_lt _ pow_pos

def ofMutez (n : Nat) : Tez := ⟨n % 2 ^ 63, mod_lt n⟩

theorem int64_add (t₁ t₂ : Tez) : int64 (t₁.mutez + t₂.mutez) =
      if t₁.mutez + t₂.mutez < 2 ^ 63 then (t₁.mutez + t₂.mutez : Int) else t₁.mutez + t₂.mutez - 2 ^ 64 := by
  have h₁ := t₁.lt
  have h₂ := t₂.lt
  unfold int64
  rw [Int.bmod_def]
  split <;> split <;> omega

theorem toNat_int64_lt (x : Int) : (int64 x).toNat < 2 ^ 63 := by
  unfold int64
  rw [Int.bmod_def]
  split <;> omega

theorem sub_lt (t₁ t₂ : Tez) : t₁.mutez - t₂.mutez < 2 ^ 63 := Nat.lt_of_le_of_lt (Nat.sub_le _ _) t₁.lt

theorem div_lt (t : Tez) (d : Int) : t.mutez / d.toNat < 2 ^ 63 := Nat.lt_of_le_of_lt (Nat.div_le_self _ _) t.lt

def sub? (t₁ t₂ : Tez) : Except (List Error) Tez :=
  if t₂.mutez ≤ t₁.mutez then .ok ⟨t₁.mutez - t₂.mutez, sub_lt t₁ t₂⟩
  else .error [.subtractionUnderflow t₁ t₂]

def add? (t₁ t₂ : Tez) : Except (List Error) Tez :=
  let t := int64 (t₁.mutez + t₂.mutez)
  if t < t₁.mutez then .error [.additionOverflow t₁ t₂] else .ok ⟨t.toNat, toNat_int64_lt _⟩

/-- Multiplication by doubling, over the bits of `cur`; 64 steps are enough for every multiplier. -/
def mulStep : Nat → Nat → Tez → Tez → Except (List Error) Tez
  | 0, _, _, acc => .ok acc
  | fuel + 1, cur, pow, acc =>
    if cur = 0 then .ok acc
    else do
      let npow ← pow.add? pow
      if cur % 2 = 1 then
        let nacc ← acc.add? pow
        mulStep fuel (cur / 2) npow nacc
      else mulStep fuel (cur / 2) npow acc

def mul? (t : Tez) (m : Int) : Except (List Error) Tez :=
  if m < 0 then .error [.negativeMultiplicator t m]
  else
    match mulStep 64 m.toNat t zero with
    | .ok res => .ok res
    | .error [.additionOverflow t₁ t₂] => .error [.multiplicationOverflow t m, .additionOverflow t₁ t₂]
    | .error errs => .error errs

def div? (t : Tez) (d : Int) : Except (List Error) Tez :=
  if d ≤ 0 then .error [.invalidDivisor t d] else .ok ⟨t.mutez / d.toNat, div_lt t d⟩

variable {t t₁ t₂ : Tez}

theorem sub?_eq_ok : t₁.sub? t₂ = .ok t ↔ t.mutez + t₂.mutez = t₁.mutez := by
  unfold sub?
  split
  · rename_i hle
    constructor
    · intro h
      cases h
      exact Nat.sub_add_cancel hle
    · intro h
      exact congrArg _ (ext (by simp only; omega))
  · rename_i hlt
    constructor
    · intro h
      cases h
    · intro h
      exact absurd (h ▸ Nat.le_add_left _ _) hlt

variable {errs : List Error} {acc pow : Tez} {cur fuel n : Nat}

theorem sub?_eq_error : t₁.sub? t₂ = .error errs ↔ t₁.mutez < t₂.mutez ∧
    errs = [.subtractionUnderflow t₁ t₂] := by
  unfold sub?
  split
  · rename_i hle
    exact ⟨fun h => (by cases h), fun h => absurd h.1 (Nat.not_lt.mpr hle)⟩
  · rename_i hlt
    exact ⟨fun h => by cases h; exact ⟨Nat.not_le.mp hlt, rfl⟩, fun h => h.2 ▸ rfl⟩

theorem add?_eq_ok : t₁.add? t₂ = .ok t ↔ t.mutez = t₁.mutez + t₂.mutez := by
  have h₂ := t₂.lt
  have hsum := int64_add t₁ t₂
  unfold add?
  by_cases hlt : t₁.mutez + t₂.mutez < 2 ^ 63
  · rw [if_neg (by omega), Except.ok.injEq]
    constructor
    · intro h
      rw [← h]
      simp only [hsum]
      omega
    · intro h
      exact ext (by simp only [hsum]; omega)
  · rw [if_pos (by omega)]
    have := t.lt
    exact ⟨fun h => (by cases h), fun h => by omega⟩

theorem add?_eq_error : t₁.add? t₂ = .error errs ↔ 2 ^ 63 ≤ t₁.mutez + t₂.mutez ∧
    errs = [.additionOverflow t₁ t₂] := by
  have h₂ := t₂.lt
  have hsum := int64_add t₁ t₂
  unfold add?
  by_cases hlt : t₁.mutez + t₂.mutez < 2 ^ 63
  · rw [if_neg (by omega)]
    exact ⟨fun h => (by cases h), fun h => absurd h.1 (Nat.not_le.mpr hlt)⟩
  · rw [if_pos (by omega)]
    exact ⟨fun h => by cases h; exact ⟨Nat.not_lt.mp hlt, rfl⟩, fun h => h.2 ▸ rfl⟩

theorem mulStep_succ (hcur : cur ≠ 0) : mulStep (fuel + 1) cur pow acc = .ok t ↔ ∃ npow nacc : Tez,
      npow.mutez = pow.mutez + pow.mutez ∧ nacc.mutez = acc.mutez + pow.mutez * (cur % 2) ∧
      mulStep fuel (cur / 2) npow nacc = .ok t := by
  simp only [mulStep, if_neg hcur, Lib.bind_eq_ok, add?_eq_ok]
  refine exists_congr fun npow => ?_
  by_cases hodd : cur % 2 = 1
  · simp only [hodd, if_true, Lib.bind_eq_ok, add?_eq_ok, Nat.mul_one, exists_and_left]
  · simp only [Nat.mod_two_ne_one.mp hodd, Nat.mul_zero, Nat.add_zero, exists_and_left]
    refine and_congr_right fun _ => ⟨fun h => ⟨acc, rfl, h⟩, ?_⟩
    rintro ⟨nacc, hacc, h⟩
    rwa [ext hacc] at h

/-- Each step adds the power of its bit: what remains is the product by the bits left. A power is an amount, so that the
    steps last for all the bits. -/
theorem mulStep_eq_ok (hfuel : cur < 2 ^ fuel ∨ 2 ^ 63 ≤ pow.mutez * 2 ^ fuel) : mulStep fuel cur pow acc = .ok t ↔
      t.mutez = acc.mutez + pow.mutez * cur ∧ ∀ k, 2 ^ k ≤ cur → pow.mutez * 2 ^ (k + 1) < 2 ^ 63 := by
  have hdone : ∀ {pow acc : Tez}, Except.ok acc = (.ok t : Except (List Error) Tez) ↔
      t.mutez = acc.mutez + pow.mutez * 0 ∧ ∀ k, 2 ^ k ≤ 0 → pow.mutez * 2 ^ (k + 1) < 2 ^ 63 := fun {pow acc} => by
    refine ⟨fun h => ?_, fun h => congrArg _ (ext h.1.symm)⟩
    cases h
    exact ⟨rfl, fun k hk => absurd hk (Nat.not_le.mpr (Nat.two_pow_pos k))⟩
  induction fuel generalizing cur pow acc with
  | zero =>
    have hlt := pow.lt
    obtain rfl : cur = 0 := by omega
    exact hdone
  | succ fuel ih =>
    by_cases hcur : cur = 0
    · subst hcur
      exact hdone
    have hhalf : ∀ npow : Tez, npow.mutez = pow.mutez + pow.mutez →
        cur / 2 < 2 ^ fuel ∨ 2 ^ 63 ≤ npow.mutez * 2 ^ fuel := fun npow hdoub => by
      rw [hdoub, ← Nat.mul_two, Nat.mul_assoc, ← Nat.pow_succ', Nat.div_lt_iff_lt_mul (by decide)]
      exact hfuel
    have hspl : pow.mutez * cur = (pow.mutez + pow.mutez) * (cur / 2) + pow.mutez * (cur % 2) := by
      conv_lhs => rw [← Nat.div_add_mod cur 2]
      rw [Nat.mul_add, ← Nat.mul_assoc, Nat.mul_two]
    rw [mulStep_succ hcur]
    constructor
    · rintro ⟨npow, nacc, hdoub, hacc, h⟩
      obtain ⟨hval, hpows⟩ := (ih (hhalf npow hdoub)).mp h
      rw [hacc, hdoub] at hval
      refine ⟨by omega, fun k hk => ?_⟩
      cases k with
      | zero =>
        have := npow.lt
        omega
      | succ k =>
        rw [Nat.pow_succ', ← Nat.mul_assoc, Nat.mul_two, ← hdoub]
        exact hpows k (by omega)
    · rintro ⟨hval, hpows⟩
      have hlt := t.lt
      have hfst := hpows 0 (Nat.pos_of_ne_zero hcur)
      refine ⟨⟨pow.mutez + pow.mutez, by omega⟩, ⟨acc.mutez + pow.mutez * (cur % 2), by omega⟩, rfl, rfl,
        (ih (hhalf _ rfl)).mpr ⟨by simp only; omega, fun k hk => ?_⟩⟩
      have hnext := hpows (k + 1) (by rw [Nat.pow_succ]; omega)
      rwa [Nat.pow_succ', ← Nat.mul_assoc, Nat.mul_two] at hnext

theorem mul?_eq_ok {m : Int} : t.mul? m = .ok t₁ ↔ 0 ≤ m ∧ mulStep 64 m.toNat t zero = .ok t₁ := by
  unfold mul?
  split
  · exact ⟨fun h => (by cases h), fun h => by omega⟩
  · rw [and_iff_right (by omega)]
    split <;> simp_all

theorem mul?_ok {m : Int} (hm : m < 2 ^ 64 ∨ 0 < t.mutez) (h : t.mul? m = .ok t₁) : t₁.mutez = t.mutez * m.toNat := by
  obtain ⟨-, hstep⟩ := mul?_eq_ok.mp h
  rw [((mulStep_eq_ok (by omega)).mp hstep).1]
  exact Nat.zero_add _

theorem mulStep_error (h : mulStep fuel cur pow acc = .error errs) :
    ∃ t₁ t₂, errs = [.additionOverflow t₁ t₂] := by
  induction fuel generalizing cur pow acc with
  | zero => cases h
  | succ fuel ih =>
    simp only [mulStep] at h
    split at h
    · cases h
    · rcases Lib.bind_eq_error.mp h with h | ⟨npow, -, h⟩
      · exact ⟨pow, pow, (add?_eq_error.mp h).2⟩
      · split at h
        · rcases Lib.bind_eq_error.mp h with h | ⟨nacc, -, h⟩
          · exact ⟨acc, pow, (add?_eq_error.mp h).2⟩
          · exact ih h
        · exact ih h

theorem mul?_error (h : t.mul? n = .error errs) :
    ∃ t₁ t₂, errs = [.multiplicationOverflow t n, .additionOverflow t₁ t₂] := by
  unfold mul? at h
  split at h
  · omega
  · split at h
    · cases h
    · rename_i t₁ t₂ hstep
      cases h
      exact ⟨t₁, t₂, rfl⟩
    · rename_i errs' hnot hstep
      obtain ⟨t₁, t₂, rfl⟩ := mulStep_error hstep
      exact absurd rfl (hnot t₁ t₂)

theorem exists_add? (t₁ t₂ : Tez) (h : t₁.mutez + t₂.mutez < 2 ^ 63) :
    ∃ t, t₁.add? t₂ = .ok t ∧ t.mutez = t₁.mutez + t₂.mutez :=
  ⟨⟨_, h⟩, add?_eq_ok.mpr rfl, rfl⟩

theorem exists_mul?_iff (hn : n < 2 ^ 64 ∨ 0 < t.mutez) (hprod : t.mutez * n < 2 ^ 63) :
    (∃ t₁, t.mul? n = .ok t₁) ↔ ∀ k, 2 ^ k ≤ n → t.mutez * 2 ^ (k + 1) < 2 ^ 63 := by
  have hstep : ∀ t₁, t.mul? n = .ok t₁ ↔ _ := fun t₁ => mul?_eq_ok.trans <| by
    rw [Int.toNat_natCast, and_iff_right (Int.natCast_nonneg n), mulStep_eq_ok (by omega)]
  refine ⟨?_, fun hpow => ⟨⟨_, hprod⟩, (hstep _).mpr ⟨(Nat.zero_add _).symm, hpow⟩⟩⟩
  rintro ⟨t₁, h⟩
  exact ((hstep t₁).mp h).2

theorem exists_mul? (hn : n < 2 ^ 64 ∨ 0 < t.mutez) (h : 2 * (t.mutez * n) < 2 ^ 63) : ∃ t₁, t.mul? n = .ok t₁ := by
  refine (exists_mul?_iff hn (by omega)).mpr fun k hk => ?_
  have hle := Nat.mul_le_mul_left t.mutez hk
  rw [Nat.pow_succ, ← Nat.mul_assoc]
  omega

/-- An operation gives the exact result if it is an amount, and an error if it is not. -/
structure Exact (x : Int) (result : Except (List Error) Tez) : Prop where
  ok : 0 ≤ x ∧ x < 2 ^ 63 → ∃ t, result = .ok t ∧ (t.mutez : Int) = x
  error : ¬(0 ≤ x ∧ x < 2 ^ 63) → ∃ errs, result = .error errs

theorem exact_iff_of_ok {x : Int} {result : Except (List Error) Tez} (hok : ∀ t, result = .ok t → (t.mutez : Int) = x) :
    Exact x result ↔ (0 ≤ x ∧ x < 2 ^ 63 → ∃ t, result = .ok t) := by
  refine ⟨fun h hin => (h.ok hin).imp fun _ => And.left,
    fun h => ⟨fun hin => (h hin).imp fun t ht => ⟨ht, hok t ht⟩, ?_⟩⟩
  intro hout
  cases result with
  | error errs => exact ⟨errs, rfl⟩
  | ok t =>
    have hval := hok t rfl
    have hlt := t.lt
    omega

/-- Addition and subtraction are exact. Multiplication is if twice each power of two up to the multiplier, times the
    amount, is an amount, or if the product is not one. -/
theorem arithmetic_exact_iff (t u : Tez) (m : Nat) (hm : m < 2 ^ 63) :
    (Exact (t.mutez + u.mutez) (t.add? u) ∧ Exact (t.mutez - u.mutez) (t.sub? u) ∧ Exact (t.mutez * m) (t.mul? m)) ↔
      (∀ k, 2 ^ k ≤ m → t.mutez * 2 ^ (k + 1) < 2 ^ 63) ∨ 2 ^ 63 ≤ t.mutez * m := by
  have hadd : Exact (t.mutez + u.mutez) (t.add? u) := by
    refine (exact_iff_of_ok fun v hv => ?_).mpr fun hin => ?_
    · have := add?_eq_ok.mp hv
      omega
    · exact (exists_add? t u (by omega)).imp fun _ => And.left
  have hsub : Exact (t.mutez - u.mutez) (t.sub? u) := by
    refine (exact_iff_of_ok fun v hv => ?_).mpr fun hin => ⟨⟨t.mutez - u.mutez, sub_lt t u⟩, sub?_eq_ok.mpr ?_⟩
    · have := sub?_eq_ok.mp hv
      omega
    · exact Nat.sub_add_cancel (by omega)
  have hval : ∀ t₁, t.mul? m = .ok t₁ → (t₁.mutez : Int) = t.mutez * m := by
    intro t₁ h
    rw [mul?_ok (by omega) h, Int.toNat_natCast, Nat.cast_mul]
  have hin : (0 ≤ (t.mutez * m : Int) ∧ (t.mutez * m : Int) < 2 ^ 63) ↔ t.mutez * m < 2 ^ 63 := by omega
  rw [and_iff_right hadd, and_iff_right hsub, exact_iff_of_ok hval, hin, ← Nat.not_lt, ← imp_iff_or_not]
  exact forall_congr' fun hprod => exists_mul?_iff (.inl (by omega)) hprod

theorem arithmetic_exact_three : Exact (5 * 3) ((ofMutez 5).mul? 3) := by
  refine ((arithmetic_exact_iff (ofMutez 5) zero 3 (by decide)).mpr (.inl fun k hk => ?_)).2.2
  rw [Nat.pow_succ]
  simp only [ofMutez]
  omega

/-- The double of the amount is not one. -/
theorem not_exact_once : ¬Exact (2 ^ 62 * 1) ((ofMutez (2 ^ 62)).mul? 1) := by
  intro h
  obtain ⟨t, ht, -⟩ := h.ok (by decide)
  have hfls : ((ofMutez (2 ^ 62)).mul? 1).toBool = false := by decide +kernel
  rw [ht] at hfls
  cases hfls

end Tez

end Tezos.Protocol
