import Tezos.Theorems.DataEncoding.ReaderRefines
import Tezos.Theorems.DataEncoding.Stripped

/-! What is read from what was written: a list of elements that are written as nothing comes back empty, and the
    reader fails at a pair of fixed size under a negative limit. -/

namespace Tezos.DataEncoding.Wire
open Lib List Writer Reader

/-- The budgets under which a value is written and read again: the reader allows at least as much, and both
    are negative inside a negative limit. -/
def Budgets (neg : Bool) (a a' : Option Int) : Prop :=
  if neg then ∃ x y, a = some x ∧ a' = some y ∧ x < 0 ∧ y < 0
  else (∀ x, a = some x → 0 ≤ x) ∧ ∀ y, a' = some y → ∃ x, a = some x ∧ x ≤ y

variable {a a' : Option Int} {neg : Bool} {w : MBytes} {f : Option Int → Except Exn MBytes}

theorem Budgets.allowed (h : Budgets neg a a') (hw : emit a w = .ok w) : Allowed a' w.length := fun y hy => by
  obtain ⟨-, hle⟩ := emit_ok.mp hw
  cases neg with
  | true =>
    obtain ⟨x, y', rfl, -, hx, -⟩ := h
    have := hle x rfl
    omega
  | false =>
    obtain ⟨x, rfl, hxy⟩ := h.2 y hy
    exact (hle x rfl).trans hxy

theorem Budgets.fits (h : Budgets false a a') (hf : Within f) (hw : f a = .ok w) : Allowed a' w.length := fun y hy => by
  obtain ⟨x, rfl, hxy⟩ := h.2 y hy
  have hx := h.1 x rfl
  rcases hf hw with rfl | hle
  · simp only [length_nil, Nat.cast_zero]
    omega
  · omega

theorem Budgets.nothing (h : Budgets true a a') (hf : Within f) (hw : f a = .ok w) : w = [] := by
  obtain ⟨x, y, rfl, -, hx, -⟩ := h
  rcases hf hw with rfl | hle
  · rfl
  · omega

theorem Budgets.spend (h : Budgets neg a a') (hf : Within f) (hw : f a = .ok w) :
    Budgets neg (spend a w.length) (spend a' w.length) := by
  cases neg with
  | true =>
    rw [h.nothing hf hw]
    simpa using h
  | false =>
    refine ⟨fun x hx => ?_, Looser.spend h.2 w.length⟩
    rcases a with _ | x'
    · cases hx
    · cases hx
      have hx' := h.1 x' rfl
      rcases hf hw with rfl | hle
      · simpa using hx'
      · simp only
        omega

theorem limitTo_nonneg {l : Int} (ha : ∀ x, a = some x → 0 ≤ x) (hl : 0 ≤ l) :
    ∀ x, limitTo a l = some x → 0 ≤ x :=
  fun x hx => by
    rcases a with _ | x'
    · cases hx
      exact hl
    · cases hx
      exact le_min (ha x' rfl) hl

theorem Budgets.limit (h : Budgets neg a a') (l : Int) :
    Budgets (neg || decide (l < 0)) (limitTo a l) (limitTo a' l) := by
  cases neg with
  | true =>
    obtain ⟨x, y, rfl, rfl, hx, hy⟩ := h
    exact ⟨min x l, min y l, rfl, rfl, by omega, by omega⟩
  | false =>
    obtain ⟨ha, hle⟩ := h
    by_cases hl : l < 0
    · simp only [Bool.false_or, hl, decide_true]
      cases a <;> cases a' <;> simp only [limitTo_none, limitTo_some] <;> exact ⟨_, _, rfl, rfl, by omega, by omega⟩
    · simp only [Bool.false_or, hl, decide_false]
      exact ⟨limitTo_nonneg ha (not_lt.mp hl), Looser.limit hle l⟩

/-! ### Reading what was written -/

structure Answers {α : Type} (x : Except Exn (α × Nat)) (stuck : Bool) (v : α) (k : Nat) : Prop where
  reads : stuck = false → x = .ok (v, k)
  fails : stuck = true → ∃ err, x = .error (.readError err)

variable {α β : Type} {v : α} {p : Decoder α} {rest : MBytes} {s : Bool} {ι : Type → Type} {D : Defs ι}

namespace Answers
variable {k : Nat} {f : α → Decoder β} {x : β}

theorem ok {x : Except Exn (α × Nat)} (h : x = .ok (v, k)) : Answers x false v k where
  reads _ := h
  fails h := by cases h

theorem bind {s' : Bool} (h : Answers (p (w ++ rest) a) s v w.length)
    (h' : Answers (f v rest (spend a w.length)) s' x k) :
    Answers (p.bind f (w ++ rest) a) (s || s') x (w.length + k) := by
  have hrest : (w ++ rest).drop w.length = rest := drop_left
  constructor
  · intro hs
    rw [Bool.or_eq_false_iff] at hs
    exact Parser.bind_ok.mpr ⟨v, w.length, k, h.reads hs.1, hrest.symm ▸ h'.reads hs.2, rfl⟩
  · intro hs
    cases hs₁ : s with
    | true =>
      obtain ⟨err, herr⟩ := h.fails hs₁
      exact ⟨err, by simp [Parser.bind, herr]⟩
    | false =>
      rw [hs₁] at hs
      obtain ⟨err, herr⟩ := h'.fails hs
      exact ⟨err, by simp [Parser.bind, h.reads hs₁, herr]⟩

theorem after (h : p (w ++ rest) a = .ok (v, w.length)) (h' : Answers (f v rest (spend a w.length)) s x k) :
    Answers (p.bind f (w ++ rest) a) s x (w.length + k) := by
  have hboth := (ok h).bind h'
  rwa [Bool.false_or] at hboth

theorem map {input : MBytes} (h : Answers (p input a) s v k) (f : α → β) : Answers (p.map f input a) s (f v) k where
  reads hs := Parser.map_ok.mpr ⟨v, h.reads hs, rfl⟩
  fails hs := by
    obtain ⟨err, herr⟩ := h.fails hs
    exact ⟨err, by simp [Parser.map, herr]⟩

end Answers

/-- What an encoding of the given kind writes comes back stripped, unless the reader is stuck. -/
def RoundTrips {α : Type} (kind : Kind) (enc : Option Int → α → Except Exn MBytes) (dec : Decoder α)
    (strip : α → α)
    (stuck : Bool → α → Bool) : Prop :=
  ∀ ⦃neg : Bool⦄ ⦃a a' : Option Int⦄ ⦃v : α⦄ ⦃w rest : MBytes⦄, enc a v = .ok w → Budgets neg a a' →
    (kind = .variable → rest = []) → Answers (dec (w ++ rest) a') (stuck neg v) (strip v) w.length

section Parts
variable {s' : Bool} {dec : Decoder α} {q : Decoder β} {v' : β} {kind : Kind}
  {enc : Option Int → α → Except Exn MBytes} {error : ReadError} {strip : α → α} {stuck : Bool → α → Bool}
  {vs : List α}

theorem decodeInt_encodeInt {kind : Integer} {n : Int} (hw : encodeInt kind a n = .ok w) (hb : Budgets neg a a')
    (rest : MBytes) : decodeInt kind (w ++ rest) a' = .ok (n, w.length) := by
  obtain ⟨hn, hw⟩ := encodeInt_ok.mp hw
  obtain rfl := emit_eq_ok hw
  have hallowed := hb.allowed hw
  rw [length_intBytes] at hallowed ⊢
  exact decodeInt_append hn hallowed

theorem decodeBool_emit {present : Bool} (hw : emit a [if present then 255 else 0] = .ok w) (hb : Budgets neg a a')
    (rest : MBytes) : decodeBool (w ++ rest) a' = .ok (present, w.length) := by
  obtain rfl := emit_eq_ok hw
  have hflt : NoFloat .bool := trivial
  have hbool : atomBytes .bool present = .ok [if present then 255 else 0] := rfl
  exact decodeAtom_atomBytes hflt hbool (hb.allowed hw) (fun hvar => by cases hvar)

theorem answers_seq {f g : Option Int → Except Exn MBytes} (hf : Within f)
    (hp : ∀ {w rest}, f a = .ok w → Answers (p (w ++ rest) a') s v w.length)
    (hq : ∀ {a a' w}, g a = .ok w → Budgets neg a a' → Answers (q (w ++ rest) a') s' v' w.length)
    (hw : encodeSeq f g a = .ok w) (hb : Budgets neg a a') :
    Answers (decodeSeq p q (w ++ rest) a') (s || s') (v, v') w.length := by
  obtain ⟨w₁, w₂, hw₁, hw₂, rfl⟩ := encodeSeq_ok.mp hw
  rw [length_append, append_assoc]
  exact (hp hw₁).bind ((hq hw₂ (hb.spend hf hw₁)).map fun w => (v, w))

theorem answers_ends {w₁ w₂ : MBytes} (hp : Answers (p w₁ a) s v w₁.length)
    (hq : Answers (q w₂ (spend a w₁.length)) s' v' w₂.length) :
    Answers (decodeEnds w₂.length p q (w₁ ++ w₂) a) (s || s') (v, v') (w₁ ++ w₂).length := by
  have hnds : needs (w₁ ++ w₂) w₂.length = .ok () := needs_ok.mpr (by simp)
  have hlen : (w₁ ++ w₂).length - w₂.length = w₁.length := by simp
  simp only [decodeEnds, hnds, ok_bind, hlen, take_left, drop_left]
  constructor
  · intro hs
    rw [Bool.or_eq_false_iff] at hs
    simp [hp.reads hs.1, hq.reads hs.2]
  · intro hs
    cases hs₁ : s with
    | true =>
      obtain ⟨err, herr⟩ := hp.fails hs₁
      exact ⟨err, by simp [herr]⟩
    | false =>
      rw [hs₁] at hs
      obtain ⟨err, herr⟩ := hq.fails hs
      exact ⟨err, by simp [hp.reads hs₁, herr]⟩

theorem Budgets.not_allowed (h : Budgets true a a') (k : Nat) :
    allows a' k = .error (.readError .sizeLimitExceeded) := by
  obtain ⟨x, y, -, rfl, -, hy⟩ := h
  simp only [allows]
  rw [if_pos (by omega)]

theorem roundTrips_pair {name : String} {kl kr : Kind} {encl : Option Int → α → Except Exn MBytes}
    {encr : Option Int → β → Except Exn MBytes} {decl : Decoder α} {decr : Decoder β} {stripl : α → α}
    {stripr : β → β}
    {stuckl : Bool → α → Bool} {stuckr : Bool → β → Bool} (hkind : Kind.combine name kl kr = .ok kind)
    (hwl : ∀ v, Within fun a => encl a v) (hwr : ∀ v, Within fun a => encr a v)
    (hfl : ∀ {n a v w}, kl = .fixed n → encl a v = .ok w → w.length = n)
    (hfr : ∀ {n a v w}, kr = .fixed n → encr a v = .ok w → w.length = n) (hl : RoundTrips kl encl decl stripl stuckl)
    (hr : RoundTrips kr encr decr stripr stuckr) :
    RoundTrips kind (fun a v => encodeSeq (fun a => encl a v.1) (fun a => encr a v.2) a)
      (decodePair kind kl kr decl decr) (fun v => (stripl v.1, stripr v.2))
      (fun neg v => (neg && isFixed kind) || stuckl neg v.1 || stuckr neg v.2) := by
  intro neg a a' v w rest hw hb hrest
  have hseq : kl ≠ .variable → (kr = .variable → rest = []) →
      Answers (decodeSeq decl decr (w ++ rest) a') (stuckl neg v.1 || stuckr neg v.2) (stripl v.1, stripr v.2) w.length :=
    fun hkl hkr => answers_seq (hwl v.1) (fun hw₁ => hl hw₁ hb fun hvar => absurd hvar hkl)
      (fun hw₂ hb₂ => hr hw₂ hb₂ hkr) hw hb
  cases kind with
  | dynamic =>
    obtain ⟨hkl, hkr⟩ := Kind.combine_dynamic hkind
    simpa only [decodePair, isFixed, Bool.and_false, Bool.false_or] using hseq hkl fun hvar => absurd hvar hkr
  | fixed sz =>
    have hlen := length_seq_of_fixed hkind (fun hk hw₁ => hfl hk hw₁) (fun hk hw₂ => hfr hk hw₂) hw
    obtain ⟨n₁, n₂, rfl, rfl, -⟩ := Kind.combine_fixed hkind
    subst hlen
    have hnds : needs (w ++ rest) w.length = .ok () := needs_ok.mpr (by simp)
    cases neg with
    | true =>
      refine ⟨fun hs => by simp [isFixed] at hs, fun _ => ⟨.sizeLimitExceeded, ?_⟩⟩
      simp [decodePair, Parser.guard, hnds, hb.not_allowed]
    | false =>
      have hallows : allows a' w.length = .ok () := allows_ok.mpr (hb.fits ((hwl v.1).seq (hwr v.2)) hw)
      simpa [decodePair, Parser.guard, hnds, hallows] using hseq (by simp) (by simp)
  | «variable» =>
    obtain rfl := hrest rfl
    simp only [isFixed, Bool.and_false, Bool.false_or]
    rcases Kind.combine_variable hkind with ⟨rfl, n, rfl⟩ | ⟨hkl, rfl⟩
    · obtain ⟨w₁, w₂, hw₁, hw₂, rfl⟩ := encodeSeq_ok.mp hw
      obtain rfl := hfr rfl hw₂
      have hp : Answers (decl (w₁ ++ []) a') _ _ _ := hl hw₁ hb fun _ => rfl
      have hq : Answers (decr (w₂ ++ []) (spend a' w₁.length)) _ _ _ :=
        hr hw₂ (hb.spend (hwl v.1) hw₁) fun _ => rfl
      rw [append_nil] at hp hq ⊢
      exact answers_ends hp hq
    · have hpair := hseq hkl fun _ => rfl
      cases kl with
      | «variable» => exact absurd rfl hkl
      | dynamic | fixed => exact hpair

theorem answers_window (ha : Allowed a w.length) (hp : Answers (p w a) s v w.length) :
    Answers (decodeWindow p w.length (w ++ rest) a) s v w.length := by
  have hnds : needs (w ++ rest) w.length = .ok () := needs_ok.mpr (by simp)
  have hallows : allows a w.length = .ok () := allows_ok.mpr ha
  constructor
  · intro hs
    simp [decodeWindow, hnds, hallows, hp.reads hs]
  · intro hs
    obtain ⟨err, herr⟩ := hp.fails hs
    exact ⟨err, by simp [decodeWindow, hnds, hallows, herr]⟩

theorem answers_list (hk : kind ≠ .variable) (hwit : ∀ v, Within fun a => enc a v)
    (h : RoundTrips kind enc dec strip stuck) (hpos : ∀ {a v w}, enc a v = .ok w → w ≠ []) :
    ∀ {vs : List α} {rounds : Nat} {maxLength : Option Int} {a a' : Option Int} {w : MBytes},
      encodeList enc a vs = .ok w → Budgets neg a a' → tooLong maxLength vs.length = false → vs.length < rounds →
        Answers (decodeList error dec rounds maxLength w a') (vs.any (stuck neg)) (vs.map strip) w.length := by
  intro vs
  induction vs with
  | nil =>
    intro rounds maxLength a a' w hw hb _ hroun
    obtain ⟨rounds, rfl⟩ : ∃ r, rounds = r + 1 := ⟨rounds - 1, by omega⟩
    cases hw
    exact Answers.ok rfl
  | cons v vs ih =>
    intro rounds maxLength a a' w hw hb hlong hroun
    obtain ⟨rounds, rfl⟩ : ∃ r, rounds = r + 1 := ⟨rounds - 1, by omega⟩
    obtain ⟨w₁, w₂, hw₁, hw₂, rfl⟩ := encodeSeq_ok.mp hw
    have hne : w₁ ++ w₂ ≠ [] := fun hnil => hpos hw₁ (append_eq_nil_iff.mp hnil).1
    have hmax : maxLength ≠ some 0 := fun hmax => by
      simp [hmax, tooLong] at hlong
    have hlong' : tooLong (maxLength.map (· - 1)) vs.length = false := by
      rcases maxLength with _ | m
      · rfl
      · simp only [tooLong, length_cons, decide_eq_false_iff_not, Option.map_some] at hlong ⊢
        omega
    simp only [decodeList, Parser.ifEmpty, if_neg hne, if_neg hmax, any_cons, map_cons, length_append]
    exact (h hw₁ hb fun hvar => absurd hvar hk).bind
      ((ih hw₂ (hb.spend (hwit v) hw₁) hlong' (by simpa using hroun)).map (strip v :: ·))

theorem encodeList_length (hpos : ∀ {a v w}, enc a v = .ok w → w ≠ []) :
    ∀ {a : Option Int} {w : MBytes}, encodeList enc a vs = .ok w → vs.length ≤ w.length := by
  induction vs with
  | nil => exact fun _ => Nat.zero_le _
  | cons v vs ih =>
    intro a w h
    obtain ⟨w₁, w₂, hw₁, hw₂, rfl⟩ := encodeSeq_ok.mp h
    have hlen := length_pos_iff.mpr (hpos hw₁)
    have hle := ih hw₂
    rw [length_append, length_cons]
    omega

theorem encodeList_nil (hnil : ∀ {a v w}, enc a v = .ok w → w = []) :
    ∀ {a : Option Int} {w : MBytes}, encodeList enc a vs = .ok w → w = [] := by
  induction vs with
  | nil =>
    intro a w h
    cases h
    rfl
  | cons v vs ih =>
    intro a w h
    obtain ⟨w₁, w₂, hw₁, hw₂, rfl⟩ := encodeSeq_ok.mp h
    rw [hnil hw₁, ih hw₂, append_nil]

/-- A list that takes the whole window; the one of zero-sized elements comes back empty. -/
theorem answers_all {zero : Bool} (hk : kind ≠ .variable) (hwit : ∀ v, Within fun a => enc a v)
    (h : RoundTrips kind enc dec strip stuck) (hzero : ∀ {a v w}, enc a v = .ok w → (w = [] ↔ zero = true))
    {maxLength : Option Int} {writeError : Exn}
    (hw : (if tooLong maxLength vs.length then .error writeError else encodeList enc a vs) = .ok w)
    (hb : Budgets neg a a') :
    Answers (decodeAll error dec maxLength (w ++ []) a') (!zero && vs.any (stuck neg))
      (if zero then [] else vs.map strip) w.length := by
  rw [append_nil]
  split at hw
  · cases hw
  · rename_i hlong
    cases zero with
    | true =>
      obtain rfl := encodeList_nil (fun hw => (hzero hw).mpr rfl) hw
      exact Answers.ok rfl
    | false =>
      have hpos : ∀ {a v w}, enc a v = .ok w → w ≠ [] := fun hw hnil => Bool.false_ne_true ((hzero hw).mp hnil)
      have hlen := encodeList_length hpos hw
      exact answers_list hk hwit h hpos hw hb (by simpa using hlong) (by omega)

theorem Budgets.limit_left (h : Budgets false a a') {l : Int} (hl : 0 ≤ l) : Budgets false (limitTo a l) a' := by
  refine ⟨limitTo_nonneg h.1 hl, fun y hy => ?_⟩
  obtain ⟨x, rfl, hxy⟩ := h.2 y hy
  exact ⟨min x l, rfl, (min_le_left x l).trans hxy⟩

end Parts

section Desc
variable {bytes : {β : Type} → ι β → Option Int → β → Except Exn MBytes}
  {dec : {β : Type} → ι β → Decoder β} {zero : {β : Type} → ι β → Bool}
  {strip : {β : Type} → ι β → β → β}
  {stuck : {β : Type} → ι β → Bool → β → Bool}

theorem roundTrips_desc (hwit : ∀ {β : Type} (x : ι β) (v : β), Within fun a => bytes x a v)
    (hzero : ∀ {β : Type} (x : ι β) a v w, (D.unfold x).classify ≠ .variable → bytes x a v = .ok w →
      (w = [] ↔ zero x = true))
    (hsome : ∀ {β : Type} (e : Encoding ι β) a v, e.WellFormed D →
      (∀ junk fuel v, toBytes junk D fuel e v ≠ .ok (some [])) → encodeDesc bytes e a v ≠ .ok [])
    (hrec : ∀ {β : Type} (x : ι β), RoundTrips (D.unfold x).classify (bytes x) (dec x) (strip x) (stuck x))
    {α : Type} {e : Encoding ι α} (he : e.WellFormed D) (hlaw : e.Everywhere (Lawful D)) :
    RoundTrips e.classify (encodeDesc bytes e) (decodeDesc dec e) (stripDesc zero strip e) (stuckDesc zero stuck e) := by
  induction e with
  | null | empty | ignore | constant =>
    intro neg a a' v w rest hw hb hrest
    cases hw
    exact Answers.ok rfl
  | atom at' =>
    intro neg a a' v w rest hw hb hrest
    obtain ⟨hbyt, hemit⟩ := encodeAtom_ok.mp hw
    exact Answers.ok (decodeAtom_atomBytes hlaw hbyt (hb.allowed hemit) hrest)
  | padded e n ih =>
    intro neg a a' v w rest hw hb hrest
    obtain ⟨m, hm, -⟩ := Encoding.classify_padded he.1
    obtain ⟨w₁, w₂, hw₁, hw₂, rfl⟩ := encodeSeq_ok.mp hw
    obtain rfl := emit_eq_ok hw₂
    have hpad : decodeBytes n (replicate n 0 ++ rest) (spend a' w₁.length) = .ok (replicate n 0, n) := by
      have hallowed := (hb.spend (within_desc hwit e v) hw₁).allowed hw₂
      simpa using decodeBytes_append hallowed
    have hleft : Answers (decodeDesc dec e (w₁ ++ (replicate n 0 ++ rest)) a') _ _ _ :=
      ih he.2 hlaw.2 hw₁ hb fun hvar => by simp [hm] at hvar
    have hboth := hleft.bind (f := fun v => (decodeBytes n).map fun _ => v) ((Answers.ok hpad).map fun _ => _)
    rw [Bool.or_false] at hboth
    rw [append_assoc, length_append, length_replicate]
    exact hboth
  | array maxLength e ih =>
    intro neg a a' v w rest hw hb hrest
    obtain rfl := hrest rfl
    have hall : Answers (decodeAll .listTooLong (decodeDesc dec e) maxLength (w ++ []) a') _ _ _ :=
      answers_all he.1.1 (within_desc hwit e) (ih he.2 hlaw.2) (fun hw => nil_iff_zeroSizedDesc hzero he.2 he.1.1 hw) hw hb
    have hstr : stripDesc zero strip (.array maxLength e) v =
        (if zeroSizedDesc zero e then [] else v.toList.map (stripDesc zero strip e)).toArray := by
      simp only [stripDesc]
      split <;> rfl
    rw [hstr]
    exact hall.map toArray
  | list maxLength e ih =>
    intro neg a a' v w rest hw hb hrest
    obtain rfl := hrest rfl
    exact answers_all he.1.1 (within_desc hwit e) (ih he.2 hlaw.2)
      (fun hw => nil_iff_zeroSizedDesc hzero he.2 he.1.1 hw) hw hb
  | req e ih | dft e ih | tup e ih | describe e ih | splitted e ih => exact ih he.2 hlaw.2
  | opt kind e ih =>
    intro neg a a' v w rest hw hb hrest
    cases kind with
    | dynamic =>
      rcases v with _ | v
      · have hw : emit a [if false then 255 else 0] = .ok w := hw
        exact Answers.after (f := fun present => if present then (decodeDesc dec e).map some else .ret none)
          (decodeBool_emit hw hb rest) (Answers.ok rfl)
      · obtain ⟨w₁, w₂, hw₁, hw₂, rfl⟩ := encodeSeq_ok.mp hw
        have hflag : decodeBool (w₁ ++ (w₂ ++ rest)) a' = .ok (true, w₁.length) :=
          decodeBool_emit hw₁ hb (w₂ ++ rest)
        rw [length_append, append_assoc]
        exact Answers.after hflag
          ((ih he.2 hlaw.2 hw₂ (hb.spend (within_emit _) hw₁) fun hvar => absurd hvar (he.1 rfl)).map some)
    | «variable» =>
      obtain rfl := hrest rfl
      rcases v with _ | v
      · cases hw
        exact Answers.ok rfl
      · have hne : w ++ [] ≠ [] := fun hnil => by
          rw [append_nil] at hnil
          exact hsome e a v he.2 hlaw.1 (hnil ▸ hw)
        simp only [decodeDesc, Parser.ifEmpty, if_neg hne]
        exact (ih he.2 hlaw.2 hw hb fun _ => rfl).map some
  | mu kind x =>
    intro neg a a' v w rest hw hb hrest
    refine hrec x hw hb fun hvar => ?_
    cases kind with
    | dynamic => exact absurd hvar (he rfl)
    | «variable» => exact hrest rfl
  | objs kind left right ihl ihr | tups kind left right ihl ihr =>
    intro neg a a' v w rest hw hb hrest
    exact roundTrips_pair he.1 (within_desc hwit left) (within_desc hwit right)
      (fun hk hw => length_of_fixed he.2.1 hk hw) (fun hk hw => length_of_fixed he.2.2 hk hw)
      (ihl he.2.1 hlaw.2.1) (ihr he.2.2 hlaw.2.2) hw hb hrest
  | union kind tagSize cases encoding ih =>
    intro neg a a' v w rest hw hb hrest
    simp only [encodeDesc] at hw
    split at hw
    · cases hw
    · rename_i i tag x hsel
      obtain ⟨htag, hproj⟩ := selectCase_some hsel
      obtain ⟨w₁, w₂, hw₁, hw₂, rfl⟩ := encodeSeq_ok.mp hw
      have hcase : (encoding i).classify = .variable → rest = [] := fun hvar =>
        hrest (by_contra fun hk => Encoding.classify_case he.1 hk i hvar)
      have hread := ih i (he.2 i) (hlaw.2 i) hw₂ (hb.spend (within_int _ _) hw₁) hcase
      simp only [decodeDesc, stripDesc, stuckDesc, hsel]
      rw [length_append, append_assoc]
      refine Answers.after (decodeInt_encodeInt hw₁ hb (w₂ ++ rest)) ?_
      simp only [findTag_of_tag he.1.1 htag]
      exact hread.map (cases i).inj
  | conv proj inj e ih => exact fun neg a a' v w rest hw hb hrest => (ih he.2 hlaw.2 hw hb hrest).map inj
  | dynamicSize kind e ih =>
    intro neg a a' v w rest hw hb hrest
    simp only [encodeDesc, bind_eq_ok, pure_eq_ok, Except.ok.injEq] at hw
    obtain ⟨w₀, hw₀, w₁, hw₁, rfl⟩ := hw
    have hemit := emit_eq_ok hw₀
    subst hemit
    have hsize := (emit_ok.mp hw₀).2
    cases neg with
    | true =>
      obtain ⟨x, -, rfl, -, hx, -⟩ := hb
      have hle := hsize x rfl
      omega
    | false =>
      have hb₁ := hb.spend (within_emit _) hw₀
      rw [length_intBytes] at hb₁
      have hmax : 0 ≤ BinarySize.maxInt kind.toInteger := by cases kind <;> decide
      have hb₂ := hb₁.limit_left hmax
      have hlen := (within_desc hwit e v).le_limit hmax hw₁
      have hpref : decodeInt kind.toInteger (intBytes kind.toInteger w₁.length ++ (w₁ ++ rest)) a' =
          .ok ((w₁.length : Int), (intBytes kind.toInteger w₁.length).length) := by
        have hallowed := hb.allowed hw₀
        have hmin : BinarySize.minInt kind.toInteger ≤ w₁.length := by cases kind <;> exact Int.natCast_nonneg _
        rw [length_intBytes] at hallowed ⊢
        exact decodeInt_append ⟨hmin, hlen⟩ hallowed
      have hread : Answers (decodeDesc dec e (w₁ ++ []) (spend a' _)) _ _ _ := ih he.2 hlaw.2 hw₁ hb₂ fun _ => rfl
      rw [append_nil] at hread
      rw [length_append, append_assoc]
      refine Answers.after hpref ?_
      rw [length_intBytes]
      exact answers_window (hb₂.fits (within_desc hwit e v) hw₁) hread
  | checkSize limit e ih => exact fun neg a a' v w rest hw hb hrest => ih he.2 hlaw.2 hw (hb.limit limit) hrest
  | delayed f ih => exact ih () he.2 hlaw.2

end Desc

section Encode
variable {e : Encoding ι α} {b : MBytes} {fuel : Nat} {junk : Nat → UInt8}

theorem encode_ne_nil (he : e.WellFormed D) (h : ∀ junk fuel v, toBytes junk D fuel e v ≠ .ok (some []))
    (fuel : Nat) (a : Option Int) (v : α) : encode D fuel e a v ≠ .ok [] := fun hw => by
  refine h (fun _ => 0) fuel v ((toBytes_eq_some he).mpr (extends_encode D fuel e v hw fun y hy => .inl ?_))
  simp only [startBudget] at hy
  split at hy <;> cases hy
  exact Int.natCast_nonneg _

variable (hD : D.Everywhere (Lawful D))
include hD

theorem roundTrips_encode (fuel : Nat) (he : e.WellFormed D) (hlaw : e.Everywhere (Lawful D)) :
    RoundTrips e.classify (encode D fuel e) (decode D fuel e) (strip D fuel e) (stuck D fuel e) := by
  induction fuel generalizing α with
  | zero =>
    exact roundTrips_desc (fun _ _ _ _ h => by cases h) (fun _ _ _ _ _ h => by cases h)
      (fun e a v he h => encode_ne_nil he h 0 a v) (fun _ _ _ _ _ _ _ h => by cases h) he hlaw
  | succ fuel ih =>
    exact roundTrips_desc (fun x v => within_encode D fuel (D.unfold x) v)
      (fun x a v w hk h => nil_iff_zeroSized D fuel (D.checked x) hk h)
      (fun e a v he h => encode_ne_nil he h (fuel + 1) a v) (fun x => ih (D.checked x) (hD x)) he hlaw

theorem answers_toBytes_append (he : e.WellFormed D) (hlaw : e.Everywhere (Lawful D)) (rest : MBytes)
    (hrest : e.classify = .variable → rest = []) (h : toBytes junk D fuel e v = .ok (some b)) :
    Answers (decode D fuel e (b ++ rest) none) (stuck D fuel e false v) (strip D fuel e v) b.length := by
  have hw := (toBytes_eq_some he).mp h
  have hb : Budgets false (startBudget e) none := by
    refine ⟨fun x hx => ?_, fun y hy => by cases hy⟩
    simp only [startBudget] at hx
    split at hx <;> cases hx
    exact Int.natCast_nonneg _
  exact roundTrips_encode hD fuel he hlaw hw hb hrest

theorem answers_toBytes (he : e.WellFormed D) (hlaw : e.Everywhere (Lawful D))
    (h : toBytes junk D fuel e v = .ok (some b)) :
    Answers (decode D fuel e b none) (stuck D fuel e false v) (strip D fuel e v) b.length := by
  have hread := answers_toBytes_append hD he hlaw [] (fun _ => rfl) h
  rwa [append_nil] at hread

/-- A value that comes back as it was written is read from the front of any bytes, if its length is not that of a window. -/
theorem read_toBytes_append (he : e.WellFormed D) (hlaw : e.Everywhere (Lawful D)) (hk : e.classify ≠ .variable)
    (hstr : strip D fuel e v = v) (hstc : stuck D fuel e false v = false) (h : toBytes junk D fuel e v = .ok (some b))
    (rest : MBytes) : read D fuel e (b ++ rest) 0 (b ++ rest).length = .ok (some (b.length, v)) := by
  have hok := (answers_toBytes_append hD he hlaw rest (fun hvar => absurd hvar hk) h).reads hstc
  rw [hstr] at hok
  exact read_eq_some.mpr hok

omit hD

/-- The round trip, and when it fails: a list of zero-sized elements was not empty, or a pair of fixed size
    is under a negative limit. -/
theorem ofBytes_toBytes_iff (hD : ∀ {β : Type} (x : ι β), (D.unfold x).Everywhere (Lawful D)) {α : Type}
    {e : Encoding ι α} (he : e.WellFormed D) (hlaw : e.Everywhere (Lawful D)) {junk : Nat → UInt8} {fuel : Nat} {v : α}
    {b : MBytes} (h : toBytes junk D fuel e v = .ok (some b)) :
    (∃ fuel', ofBytes D fuel' e b = .ok (some v) ∧ read D fuel' e b 0 b.length = .ok (some (b.length, v))) ↔
      strip D fuel e v = v ∧ stuck D fuel e false v = false := by
  have hread := answers_toBytes hD he hlaw h
  constructor
  · rintro ⟨fuel', hof, -⟩
    rw [ofBytes_eq_some] at hof
    cases hstc : stuck D fuel e false v with
    | true =>
      obtain ⟨err, herr⟩ := hread.fails hstc
      cases decode_error hof herr
    | false => exact ⟨congrArg Prod.fst (decode_unique (hread.reads hstc) hof), rfl⟩
  · rintro ⟨hstr, hstc⟩
    have hok := hread.reads hstc
    rw [hstr] at hok
    exact ⟨fuel, ofBytes_eq_some.mpr hok, read_eq_some.mpr hok⟩

end Encode

theorem ofBytes_toBytes_iff_int :
    let e : Encoding (fun _ => Empty) (Int × List Bool) := .tups .variable (.atom .int8) (.list none (.atom .bool))
    toBytes (fun _ => 0) .none 0 e (-2, [true]) = .ok (some [254, 255]) ∧
      ∃ fuel, ofBytes .none fuel e [254, 255] = .ok (some (-2, [true])) ∧
        read .none fuel e [254, 255] 0 2 = .ok (some (2, (-2, [true]))) := by
  intro e
  have he : e.WellFormed .none := ⟨rfl, trivial, ⟨Kind.noConfusion, 0, rfl⟩, trivial⟩
  have hlaw : e.Everywhere (Lawful .none) := ⟨trivial, trivial, trivial, trivial⟩
  have hwrt : toBytes (fun _ => 0) .none 0 e (-2, [true]) = .ok (some [254, 255]) :=
    (toBytes_eq_some he).mpr rfl
  exact ⟨hwrt, (ofBytes_toBytes_iff (fun x => x.elim) he hlaw hwrt).mpr ⟨rfl, rfl⟩⟩

inductive NullName : Type → Type
  | null : NullName Unit

/-- The definition `mu "null" (fun _ -> null)`. -/
def nullDefs : Defs NullName where
  unfold x := match x with
    | .null => .null
  checked x := match x with
    | .null => trivial

/-- `is_zeroable` answers that a recursive encoding of kind `Dynamic` takes at least a byte, and so lets a
    list of `null` be built. Its elements are lost. -/
theorem ofBytes_toBytes_null :
    let e : Encoding NullName (List Unit) := .list none (.mu .dynamic .null)
    e.WellFormed nullDefs ∧ e.Everywhere (Lawful nullDefs) ∧
      (∀ {β : Type} (x : NullName β), (nullDefs.unfold x).Everywhere (Lawful nullDefs)) ∧
      toBytes (fun _ => 0) nullDefs 1 e [(), ()] = .ok (some []) ∧
      ∀ fuel, ofBytes nullDefs fuel e [] = .ok (some []) := by
  intro e
  have he : e.WellFormed nullDefs := ⟨⟨Kind.noConfusion, 0, rfl⟩, fun _ => Kind.noConfusion⟩
  refine ⟨he, ⟨trivial, trivial⟩, fun x => ?_, (toBytes_eq_some he).mpr rfl, fun fuel => ?_⟩
  · cases x
    trivial
  · cases fuel <;> rfl

end Tezos.DataEncoding.Wire
