import Tezos.Theorems.DataEncoding.Atoms

/-! The values that do not come back as they were written. -/

namespace Tezos.DataEncoding.Wire
open Lib List

section Strip
variable {ι : Type → Type}

/-- Whether the values of an encoding, if it is not of variable length, are written as nothing. This is
    `is_zeroable` with recursive encodings of both kinds unfolded. -/
def zeroSizedDesc (rec : {β : Type} → ι β → Bool) : {α : Type} → Encoding ι α → Bool
  | _, .null | _, .empty | _, .constant | _, .ignore => true
  | _, .atom _ | _, .padded _ _ | _, .array _ _ | _, .list _ _ | _, .opt _ _ | _, .union _ _ _ _
  | _, .dynamicSize _ _ => false
  | _, .req e | _, .dft e | _, .tup e | _, .describe e | _, .splitted e
  | _, .conv _ _ e | _, .checkSize _ e => zeroSizedDesc rec e
  | _, .objs _ l r | _, .tups _ l r => zeroSizedDesc rec l && zeroSizedDesc rec r
  | _, .mu _ x => rec x
  | _, .delayed f => zeroSizedDesc rec (f ())

/-- A value with its lists and arrays of zero-sized elements emptied. -/
def stripDesc (zero : {β : Type} → ι β → Bool) (rec : {β : Type} → ι β → β → β) :
    {α : Type} → Encoding ι α → α → α
  | _, .null, v | _, .empty, v | _, .constant, v | _, .ignore, v | _, .atom _, v => v
  | _, .array _ e, v => if zeroSizedDesc zero e then #[] else (v.toList.map (stripDesc zero rec e)).toArray
  | _, .list _ e, v => if zeroSizedDesc zero e then [] else v.map (stripDesc zero rec e)
  | _, .opt _ e, v => v.map (stripDesc zero rec e)
  | _, .objs _ l r, (v, w) | _, .tups _ l r, (v, w) => (stripDesc zero rec l v, stripDesc zero rec r w)
  | _, .union _ _ cases encoding, v =>
    match selectCase cases v with
    | none => v
    | some ⟨i, _, x⟩ => (cases i).inj (stripDesc zero rec (encoding i) x)
  | _, .conv proj inj e, v => inj (stripDesc zero rec e (proj v))
  | _, .mu _ x, v => rec x v
  | _, .padded e _, v | _, .req e, v | _, .dft e, v | _, .tup e, v | _, .describe e, v | _, .splitted e, v
  | _, .dynamicSize _ e, v | _, .checkSize _ e, v => stripDesc zero rec e v
  | _, .delayed f, v => stripDesc zero rec (f ()) v

def isFixed : Kind → Bool
  | .fixed _ => true
  | .dynamic | .variable => false

/-- Whether a pair of fixed size is met inside a negative limit (`neg` says whether we are in one). The
    writer then has nothing to write and checks nothing; the reader checks the limit first. -/
def stuckDesc (zero : {β : Type} → ι β → Bool) (rec : {β : Type} → ι β → Bool → β → Bool) :
    {α : Type} → Encoding ι α → Bool → α → Bool
  | _, .null, _, _ | _, .empty, _, _ | _, .constant, _, _ | _, .ignore, _, _ | _, .atom _, _, _ => false
  | _, .array _ e, neg, v => !zeroSizedDesc zero e && v.toList.any (stuckDesc zero rec e neg)
  | _, .list _ e, neg, v => !zeroSizedDesc zero e && v.any (stuckDesc zero rec e neg)
  | _, .opt _ e, neg, v => v.any (stuckDesc zero rec e neg)
  | _, .objs kind l r, neg, (v, w) | _, .tups kind l r, neg, (v, w) =>
    (neg && isFixed kind) || stuckDesc zero rec l neg v || stuckDesc zero rec r neg w
  | _, .union _ _ cases encoding, neg, v =>
    match selectCase cases v with
    | none => false
    | some ⟨i, _, x⟩ => stuckDesc zero rec (encoding i) neg x
  | _, .conv proj _ e, neg, v => stuckDesc zero rec e neg (proj v)
  | _, .mu _ x, neg, v => rec x neg v
  | _, .dynamicSize _ e, _, v => stuckDesc zero rec e false v
  | _, .checkSize limit e, neg, v => stuckDesc zero rec e (neg || decide (limit < 0)) v
  | _, .padded e _, neg, v | _, .req e, neg, v | _, .dft e, neg, v | _, .tup e, neg, v | _, .describe e, neg, v
  | _, .splitted e, neg, v => stuckDesc zero rec e neg v
  | _, .delayed f, neg, v => stuckDesc zero rec (f ()) neg v

variable (D : Defs ι)

def zeroSized : Nat → {α : Type} → Encoding ι α → Bool
  | 0, _, e => zeroSizedDesc (fun _ => false) e
  | fuel + 1, _, e => zeroSizedDesc (fun x => zeroSized fuel (D.unfold x)) e

def strip : Nat → {α : Type} → Encoding ι α → α → α
  | 0, _, e => stripDesc (fun _ => false) (fun _ v => v) e
  | fuel + 1, _, e => stripDesc (fun x => zeroSized D fuel (D.unfold x)) (fun x => strip fuel (D.unfold x)) e

def stuck : Nat → {α : Type} → Encoding ι α → Bool → α → Bool
  | 0, _, e => stuckDesc (fun _ => false) (fun _ _ _ => false) e
  | fuel + 1, _, e => stuckDesc (fun x => zeroSized D fuel (D.unfold x)) (fun x => stuck fuel (D.unfold x)) e

end Strip

variable {α : Type} {ι : Type → Type} {e : Encoding ι α} {D : Defs ι} {a : Option Int} {w : MBytes}

theorem atomLength_pos {at' : Atom α} (h : at'.classify ≠ .variable) (v : α) : 0 < BinaryLength.atomLength at' v := by
  cases at' with
  | n =>
    simp only [BinaryLength.atomLength, nLength]
    split <;> omega
  | z =>
    simp only [BinaryLength.atomLength, zLength]
    omega
  | rangedInt | stringEnum => exact BinarySize.integerToSize_pos _
  | bytes kind | string kind =>
    cases kind with
    | fixed n pos => exact pos
    | «variable» => exact absurd rfl h
  | _ => exact Nat.zero_lt_succ _

section Zero
variable {unfold : {β : Type} → ι β → Encoding ι β} {bytes : {β : Type} → ι β → Option Int → β →
  Except Exn MBytes}
  {zero : {β : Type} → ι β → Bool}

theorem encodeSeq_nil {f g : Option Int → Except Exn MBytes} {l r : Bool}
    (hf : ∀ {a w}, f a = .ok w → (w = [] ↔ l = true)) (hg : ∀ {a w}, g a = .ok w → (w = [] ↔ r = true))
    (h : encodeSeq f g a = .ok w) : w = [] ↔ (l && r) = true := by
  obtain ⟨w₁, w₂, hw₁, hw₂, rfl⟩ := encodeSeq_ok.mp h
  rw [append_eq_nil_iff, hf hw₁, hg hw₂, Bool.and_eq_true]

theorem nil_iff_zeroSizedDesc
    (hrec : ∀ {β : Type} (x : ι β) a v w, (unfold x).classify ≠ .variable → bytes x a v = .ok w →
      (w = [] ↔ zero x = true)) {α : Type} {e : Encoding ι α} (he : e.Everywhere (Encoding.Checked unfold)) :
    ∀ {a v w}, e.classify ≠ .variable → encodeDesc bytes e a v = .ok w →
      (w = [] ↔ zeroSizedDesc zero e = true) := by
  induction e with
  | null | empty | ignore | constant =>
    intro a v w _ h
    cases h
    exact iff_of_true rfl rfl
  | atom at' =>
    intro a v w hk h
    have hlen := length_atomBytes (encodeAtom_ok.mp h).1
    have hpos := atomLength_pos hk v
    exact iff_of_false (fun hw => by rw [hw, length_nil] at hlen; omega) Bool.false_ne_true
  | padded e n ih =>
    intro a v w _ h
    obtain ⟨w₁, w₂, -, hw₂, rfl⟩ := encodeSeq_ok.mp h
    obtain rfl := emit_eq_ok hw₂
    have hpos : 0 < n := he.1.1
    refine iff_of_false (fun hw => ?_) Bool.false_ne_true
    obtain ⟨-, hnil⟩ := append_eq_nil_iff.mp hw
    rw [replicate_eq_nil_iff] at hnil
    omega
  | array | list => exact fun hk => absurd rfl hk
  | req e ih | dft e ih | tup e ih | describe e ih | splitted e ih | conv proj inj e ih
  | checkSize limit e ih => exact fun hk h => ih he.2 hk h
  | opt kind e ih =>
    intro a v w hk h
    cases kind with
    | «variable» => exact absurd rfl hk
    | dynamic =>
      refine iff_of_false (fun hw => ?_) Bool.false_ne_true
      subst hw
      rcases v with _ | v
      · cases emit_eq_ok h
      · obtain ⟨w₁, w₂, hw₁, -, hnil⟩ := encodeSeq_ok.mp h
        obtain rfl := emit_eq_ok hw₁
        cases hnil
  | mu kind x =>
    intro a v w hk h
    refine hrec x a v w ?_ h
    cases kind with
    | dynamic => exact he rfl
    | «variable» => exact absurd rfl hk
  | objs kind left right ihl ihr | tups kind left right ihl ihr =>
    intro a v w hk h
    obtain ⟨hkl, hkr⟩ := Kind.combine_ne_variable he.1 hk
    exact encodeSeq_nil (fun hw => ihl he.2.1 hkl hw) (fun hw => ihr he.2.2 hkr hw) h
  | union kind tagSize cases encoding ih =>
    intro a v w hk h
    refine iff_of_false (fun hw => ?_) Bool.false_ne_true
    subst hw
    simp only [encodeDesc] at h
    split at h
    · cases h
    · obtain ⟨w₁, w₂, hw₁, -, hnil⟩ := encodeSeq_ok.mp h
      obtain ⟨-, hw₁⟩ := encodeInt_ok.mp hw₁
      have hlen := congrArg length (emit_eq_ok hw₁)
      have hpos := BinarySize.integerToSize_pos tagSize.toInteger
      rw [length_intBytes, (append_eq_nil_iff.mp hnil.symm).1, length_nil] at hlen
      omega
  | dynamicSize kind e ih =>
    intro a v w hk h
    simp only [encodeDesc, bind_eq_ok, pure_eq_ok, Except.ok.injEq] at h
    obtain ⟨_, -, w₁, -, rfl⟩ := h
    refine iff_of_false (fun hw => ?_) Bool.false_ne_true
    have hlen := congrArg length (append_eq_nil_iff.mp hw).1
    have hpos := BinarySize.integerToSize_pos kind.toInteger
    rw [length_intBytes, length_nil] at hlen
    omega
  | delayed f ih => exact fun hk h => ih () he.2 hk h

end Zero

theorem nil_iff_zeroSized (D : Defs ι) (fuel : Nat) (he : e.WellFormed D) {v : α}
    (hk : e.classify ≠ .variable) (h : encode D fuel e a v = .ok w) : w = [] ↔ zeroSized D fuel e = true := by
  induction fuel generalizing α e a v w with
  | zero => exact nil_iff_zeroSizedDesc (fun _ _ _ _ _ h => by cases h) he hk h
  | succ fuel ih => exact nil_iff_zeroSizedDesc (fun x _ _ _ hk h => ih (D.checked x) hk h) he hk h

/-- The laws of the functions of an encoding, without floats; what a variable optional field holds is
    written as at least one byte. -/
def Lawful {ι : Type → Type} (D : Defs ι) : {α : Type} → Encoding ι α → Prop
  | _, .atom at' => NoFloat at'
  | _, .conv proj inj _ => ∀ v, inj (proj v) = v
  | _, .union _ _ cases _ => ∀ i v x, (cases i).proj v = some x → (cases i).inj x = v
  | _, .opt .variable e => ∀ junk fuel v, Writer.toBytes junk D fuel e v ≠ .ok (some [])
  | _, _ => True

end Tezos.DataEncoding.Wire
