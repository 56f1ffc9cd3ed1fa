import Tezos.DataEncoding.Wire.Decode
import Tezos.DataEncoding.Wire.Encode

/-! More unfoldings of recursive encodings do not change what was read or written: they only give an answer
    where there was none. -/

namespace Tezos.DataEncoding.Wire
open Lib Below

variable {ι : Type → Type} {α : Type}

section Parts
variable {β : Type} {p p' : Decoder α} {q q' : Decoder β} (hp : p.Below .diverges p')
include hp

theorem below_map (f : α → β) : (p.map f).Below .diverges (p'.map f) :=
  fun input a => (hp input a).bind fun _ => refl _

theorem below_seq (hq : q.Below .diverges q') :
    (decodeSeq p q).Below .diverges (decodeSeq p' q') := hp.bind fun _ => below_map hq _

theorem below_list (error : ReadError) (rounds : Nat) : ∀ maxLength,
    (decodeList error p rounds maxLength).Below .diverges (decodeList error p' rounds maxLength) := by
  induction rounds with
  | zero => exact fun _ => .refl _
  | succ rounds ih =>
    intro maxLength
    refine (Parser.Below.refl _).ifEmpty ?_
    by_cases hmax : maxLength = some 0
    · simp only [if_pos hmax]
      exact .refl _
    · simp only [if_neg hmax]
      exact hp.bind fun _ => below_map (ih _) _

theorem below_all (error : ReadError) (maxLength : Option Int) :
    (decodeAll error p maxLength).Below .diverges (decodeAll error p' maxLength) :=
  fun input a => below_list hp error _ maxLength input a

theorem below_ends (hq : q.Below .diverges q') (n : Nat) :
    (decodeEnds n p q).Below .diverges (decodeEnds n p' q') := fun input a => by
  refine (refl _).bind fun _ => (hp _ _).bind fun r => ?_
  by_cases hk : r.2 = input.length - n
  · simp only [hk, ne_eq, not_true_eq_false, if_false]
    exact (hq _ _).bind fun _ => refl _
  · simp only [ne_eq, hk, not_false_eq_true, if_true]
    exact refl _

theorem below_pair (hq : q.Below .diverges q') (kind leftKind rightKind : Kind) :
    (decodePair kind leftKind rightKind p q).Below .diverges (decodePair kind leftKind rightKind p' q') := by
  cases kind with
  | fixed => exact (below_seq hp hq).guard
  | dynamic => exact below_seq hp hq
  | «variable» =>
    cases leftKind <;> cases rightKind
    case dynamic.variable | fixed.variable => exact below_seq hp hq
    case variable.fixed n => exact below_ends hp hq n
    all_goals exact .refl _

end Parts

theorem below_desc {f g : {β : Type} → ι β → Decoder β}
    (hrec : ∀ {β : Type} (x : ι β), (f x).Below .diverges (g x))
    (e : Encoding ι α) : (decodeDesc f e).Below .diverges (decodeDesc g e) := by
  induction e with
  | null | empty | ignore | constant | atom => exact .refl _
  | padded e n ih => exact ih.bind fun _ => .refl _
  | array maxLength e ih => exact below_map (below_all ih _ _) _
  | list maxLength e ih => exact below_all ih _ _
  | req e ih | dft e ih | tup e ih | describe e ih | splitted e ih => exact ih
  | opt kind e ih =>
    cases kind with
    | dynamic =>
      refine (Parser.Below.refl _).bind fun present => ?_
      split
      · exact below_map ih _
      · exact .refl _
    | «variable» => exact (Parser.Below.refl _).ifEmpty (below_map ih _)
  | mu kind x => exact hrec x
  | objs kind left right ihl ihr | tups kind left right ihl ihr => exact below_pair ihl ihr _ _ _
  | union kind tagSize cases encoding ih =>
    simp only [decodeDesc]
    refine (Parser.Below.refl _).bind fun ctag => ?_
    rcases findTag cases ctag with _ | i
    · exact .refl _
    · exact below_map (ih i) _
  | conv proj inj e ih => exact below_map ih _
  | dynamicSize kind e ih =>
    refine (Parser.Below.refl _).bind fun size input a => ?_
    exact (refl _).bind fun _ => (refl _).bind fun _ => (ih _ _).bind fun _ => refl _
  | checkSize limit e ih => exact ih.limit
  | delayed f ih => exact ih ()

variable {m n : Nat} {D : Defs ι} {a : Option Int} {e : Encoding ι α} {input : MBytes} {r : α × Nat}

theorem below_decode_succ (D : Defs ι) (fuel : Nat) (e : Encoding ι α) :
    (decode D fuel e).Below .diverges (decode D (fuel + 1) e) := by
  induction fuel generalizing α with
  | zero => exact below_desc (fun _ _ _ => .inl rfl) e
  | succ fuel ih => exact below_desc (fun x => ih (D.unfold x)) e

/-- More fuel changes only answers that were out of fuel. -/
theorem below_decode (D : Defs ι) (h : m ≤ n) (e : Encoding ι α) : (decode D m e).Below .diverges (decode D n e) := by
  induction h with
  | refl => exact Parser.Below.refl _
  | step _ ih => exact fun input a => (ih input a).trans (below_decode_succ D _ e input a)

theorem decode_unique {r' : α × Nat} (h : decode D m e input a = .ok r) (h' : decode D n e input a = .ok r') :
    r = r' := by
  rcases le_total m n with hle | hle
  · rw [(below_decode D hle e input a).eq_of_ok h] at h'
    cases h'
    rfl
  · rw [(below_decode D hle e input a).eq_of_ok h'] at h
    cases h
    rfl

/-- A value and an error at two levels: the error is that the unfolding went on for ever. -/
theorem decode_error {x : Exn} (h : decode D m e input a = .ok r) (h' : decode D n e input a = .error x) :
    x = .diverges := by
  by_contra hx
  rcases le_total m n with hle | hle
  · rw [(below_decode D hle e input a).eq_of_ok h] at h'
    cases h'
  · rw [(below_decode D hle e input a).eq_of_error h' hx] at h
    cases h

/-- The bytes of `Dynamic_size`. -/
def encodeSized (kind : UnsignedInteger) (f : Option Int → Except Exn MBytes) (a : Option Int) : Except Exn MBytes := do
  let _ ← emit a (intBytes kind.toInteger 0)
  let w ← f (limitTo (spend a (BinarySize.integerToSize kind.toInteger)) (BinarySize.maxInt kind.toInteger))
  pure (intBytes kind.toInteger w.length ++ w)

/-- A relation between writers that is kept by all that they are made of. -/
structure Compatible (R : (f f' : Option Int → Except Exn MBytes) → Prop) : Prop where
  fail : ∀ x, R (fun _ => .error x) fun _ => .error x
  nothing : R (fun _ => .ok []) fun _ => .ok []
  emit : ∀ w, R (fun a => emit a w) fun a => emit a w
  seq : ∀ {f f' g g'}, R f f' → R g g' → R (encodeSeq f g) (encodeSeq f' g')
  limit : ∀ {f f'} l, R f f' → R (fun a => f (limitTo a l)) fun a => f' (limitTo a l)
  sized : ∀ {f f'} kind, R f f' → R (encodeSized kind f) (encodeSized kind f')

namespace Compatible
variable {R : (f f' : Option Int → Except Exn MBytes) → Prop} (hR : Compatible R)
include hR

theorem word (x : Except Exn MBytes) : R (fun a => x >>= Wire.emit a) fun a => x >>= Wire.emit a := by
  cases x with
  | error x => exact hR.fail x
  | ok w => exact hR.emit w

theorem list {f f' : Option Int → α → Except Exn MBytes} (hf : ∀ v, R (fun a => f a v) fun a => f' a v)
    (vs : List α) :
    R (fun a => encodeList f a vs) fun a => encodeList f' a vs := by
  induction vs with
  | nil => exact hR.nothing
  | cons v vs ih => exact hR.seq (hf v) ih

theorem desc {f g : {β : Type} → ι β → Option Int → β → Except Exn MBytes}
    (hrec : ∀ {β : Type} (x : ι β) v, R (fun a => f x a v) fun a => g x a v) (e : Encoding ι α) (v : α) :
    R (fun a => encodeDesc f e a v) fun a => encodeDesc g e a v := by
  induction e with
  | null | empty | ignore | constant => exact hR.nothing
  | atom at' => exact hR.word (atomBytes at' v)
  | padded e n ih => exact hR.seq (ih v) (hR.emit _)
  | array maxLength e ih =>
    simp only [encodeDesc]
    split
    · exact hR.fail _
    · exact hR.list ih v.toList
  | list maxLength e ih =>
    simp only [encodeDesc]
    split
    · exact hR.fail _
    · exact hR.list ih v
  | req e ih | dft e ih | tup e ih | describe e ih | splitted e ih => exact ih v
  | opt kind e ih =>
    cases kind <;> cases v with
    | none => first | exact hR.emit _ | exact hR.nothing
    | some v => first | exact hR.seq (hR.emit _) (ih v) | exact ih v
  | objs kind left right ihl ihr | tups kind left right ihl ihr => exact hR.seq (ihl v.1) (ihr v.2)
  | union kind tagSize cases encoding ih =>
    simp only [encodeDesc]
    cases selectCase cases v with
    | none => exact hR.fail _
    | some c => exact hR.seq (hR.word _) (ih c.1 c.2.2)
  | mu kind x => exact hrec x v
  | conv proj inj e ih => exact ih (proj v)
  | dynamicSize kind e ih => exact hR.sized kind (ih v)
  | checkSize limit e ih => exact hR.limit limit (ih v)
  | delayed f ih => exact ih () v

theorem encode (D : Defs ι) (fuel : Nat) (e : Encoding ι α) (v : α) :
    R (fun a => encode D fuel e a v) fun a => encode D fuel e a v := by
  induction fuel generalizing α with
  | zero => exact hR.desc (fun _ _ => hR.fail _) e v
  | succ fuel ih => exact hR.desc (fun x v => ih (D.unfold x) v) e v

end Compatible

theorem compatible_below : Compatible fun f f' => ∀ a, Below .diverges (f a) (f' a) where
  fail _ _ := refl _
  nothing _ := refl _
  emit _ _ := refl _
  seq hf hg a := (hf a).bind fun _ => (hg _).bind fun _ => refl _
  limit _ hf _ := hf _
  sized _ hf _ := (refl _).bind fun _ => (hf _).bind fun _ => refl _

theorem below_encode_succ (D : Defs ι) (fuel : Nat) (e : Encoding ι α) (a : Option Int) (v : α) :
    Below .diverges (encode D fuel e a v) (encode D (fuel + 1) e a v) := by
  induction fuel generalizing α a with
  | zero => exact compatible_below.desc (fun _ _ _ => .inl rfl) e v a
  | succ fuel ih => exact compatible_below.desc (fun x v a => ih (D.unfold x) a v) e v a

theorem below_encode (D : Defs ι) (h : m ≤ n) (e : Encoding ι α) (a : Option Int) (v : α) :
    Below .diverges (encode D m e a v) (encode D n e a v) := by
  induction h with
  | refl => exact refl _
  | step _ ih => exact ih.trans (below_encode_succ D _ e a v)

end Tezos.DataEncoding.Wire
