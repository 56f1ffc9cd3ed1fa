import Tezos.Theorems.DataEncoding.Assertions
import Tezos.Theorems.DataEncoding.Stream.Parts

/-! The incremental reader refines the format, and so agrees with the reader of buffers. -/

namespace Tezos.DataEncoding.StreamReader
open Lib Wire Outcome Encoding BinaryStream

variable {ι : Type → Type} {ρ α : Type} {D : Defs ι} {neg : Prop} {fuel : Nat} {e : Encoding ι α}

theorem decodeInt_lt {kind : UnsignedInteger} {input : MBytes} {a : Option Int} {v : Int} {j : Nat}
    (h : decodeInt kind.toInteger input a = .ok (v, j)) : v.toNat < 2 ^ 31 := by
  obtain ⟨hlen, -, hv, -⟩ := word_ok.mp h
  have hlt := ofBE_lt (input.take (BinarySize.integerToSize kind.toInteger))
  rw [List.length_take, min_eq_left hlen] at hlt
  generalize input.take (BinarySize.integerToSize kind.toInteger) = w at hv hlt
  cases kind with
  | uint30 =>
    have hrng : signed 32 (ofBE w) < 2 ^ 31 := (signed_range 31 (ofBE w)).2
    simp only [UnsignedInteger.toInteger, intOfBytes] at hv
    generalize signed 32 (ofBE w) = s at hv hrng
    by_cases hneg : s < 0
    · rw [if_pos hneg] at hv
      cases hv
    · rw [if_neg hneg] at hv
      obtain rfl := Except.ok.inj hv
      omega
  | uint8 =>
    cases hv
    have hlt : ofBE w < 256 ^ 1 := hlt
    omega
  | uint16 =>
    cases hv
    have hlt : ofBE w < 256 ^ 2 := hlt
    omega

/-! ### Encodings -/

section Desc
variable {whole : Bool} {p : Decoder α}

theorem outcome_skip {n : Nat} {ext : MBytes} {st : State} {cs : List MBytes} {k : State → Status ι ρ}
    (hst : Ready neg ext st cs) :
    Outcome neg whole ext (decodeBytes n) st cs (verdict D cs (skip n st k)) fun _ st' cs' => verdict D cs' (k st') := by
  have hsus : Suspends D (fun _ => True) n (fun buf ofs => MBytes.sub buf ofs n) (fun st => skip n st k)
      (fun r => k r.2) (fun st => .awaitSkip n st k) :=
    ⟨fun _ _ => trivial, fun _ _ => rfl, fun _ => rfl, fun _ _ cs => verdict_handle D cs _⟩
  exact (hsus.outcome (fun _ _ _ hw => hw) hst trivial).weaken

/-- What is known of a reader of `e` at each value of `whole`: one of variable length has to take its whole
    window. -/
def Reads (D : Defs ι) (neg : Prop) {α : Type} (e : Encoding ι α) (read : Bool → Step ι ρ α) (p : Decoder α) :
    Prop :=
  ∀ whole, (e.classify = .variable → whole = true) → Refines D neg whole (e.classify = .variable) (read whole) p

theorem Refines.need {need need' : Prop} {read : Step ι ρ α} (h : Refines D neg whole need read p)
    (hneed : need → need') : Refines D neg whole need' read p :=
  fun _ _ _ _ hst hwin => h hst fun hn => hwin (hneed hn)

theorem Refines.asserted {read : Step ι ρ α} (h : Refines D neg whole (e.classify = .variable) read p) :
    Refines D neg whole (e.classify = .variable) (assertRemaining e read) p := by
  intro ext st cs k hst hwin
  rw [assertRemaining_eq hwin]
  exact h hst hwin

theorem refines_pair {β : Type} {name : String} {kind : Kind} {l : Encoding ι α} {r : Encoding ι β}
    {left : Bool → Step ι ρ α} {right : Bool → Step ι ρ β} {q : Decoder β}
    (hkind : Kind.combine name l.classify r.classify = .ok kind) (hwhl : kind = .variable → whole = true)
    (hl : Reads D neg l left p) (hr : Reads D neg r right q)
    {L : Lengths} (htake : Takes (decodeSeq p q) L)
    (hfixed : ∀ {size}, kind = .fixed size → ∀ {n a o}, L n a o → o = some size) :
    Refines D neg whole (kind = .variable) (readPair kind l.classify r.classify whole left right)
      (decodePair kind l.classify r.classify p q) := by
  cases kind with
  | fixed n =>
    obtain ⟨hkl, hkr⟩ := Kind.combine_ne_variable hkind (by simp)
    exact Refines.fixedPair ((hl false fun h => absurd h hkl).seq (hr whole fun h => absurd h hkr) (fun h => absurd h hkl)
      fun h => absurd h hkr) (fun hv => Option.some.inj (hfixed rfl (htake.takes hv))) (errors_of_takes htake (hfixed rfl))
  | dynamic =>
    obtain ⟨hkl, hkr⟩ := Kind.combine_dynamic hkind
    exact (hl false fun h => absurd h hkl).seq (hr whole fun h => absurd h hkr) (fun h => absurd h hkl)
      fun h => absurd h hkr
  | «variable» =>
    rcases Kind.combine_variable hkind with ⟨hkl, n, hkr⟩ | ⟨hkl, hkr⟩
    · have hends : Refines D neg whole True (readVariablePair .variable (.fixed n) left right) (decodeEnds n p q) :=
        Refines.ends (hl true fun _ => rfl) (hr true fun _ => rfl)
      rw [hkl, hkr]
      exact hends.need fun _ => rfl
    · obtain rfl := hwhl rfl
      have hseq : Refines D neg true (Kind.variable = .variable) (readSeq (left false) (right true)) (decodeSeq p q) :=
        (hl false fun h => absurd h hkl).seq (hr true fun _ => rfl) (fun h => absurd h hkl) fun _ => rfl
      intro ext st cs k hst hwin
      obtain ⟨size, hsize⟩ := Option.ne_none_iff_exists'.mp (hwin rfl)
      have hpair := hseq (k := k) hst hwin
      rw [hkr]
      cases hleft : l.classify with
      | «variable» => exact absurd hleft hkl
      | dynamic | fixed =>
        simp only [readPair, readVariablePair, withRemainingBytes, hsize, decodePair]
        exact hpair

theorem tag_eq (sz : TagSize) (r : Status ι ρ) (st : State) (k : Int × State → Status ι ρ) :
    tag r st sz k = int r st sz.toInteger k := by
  cases sz <;> rfl

theorem reads_desc {rec : {β : Type} → ι β → Bool → Step ι ρ β} {dec : {β : Type} → ι β → Decoder β}
    {L : {β : Type} → ι β → Lengths}
    (hread : ∀ {β : Type} (e : Encoding ι β) whole,
      (readRec D fuel e whole : Step ι ρ β) = assertRemaining e (readDesc fuel rec e whole))
    (hrec : ∀ {β : Type} (x : ι β), Reads D neg (D.unfold x) (rec x) (dec x))
    (htake : ∀ {β : Type} (x : ι β), Takes (dec x) (L x)) (he : e.WellFormed D)
    (hlimits : ¬neg → e.Everywhere LimitsChecked) :
    Reads D neg e (fun whole => assertRemaining e (readDesc fuel rec e whole)) (decodeDesc dec e) := by
  induction e with
  | null | empty | ignore | constant =>
    intro whole _ ext st cs k hst hwin
    exact .ret hst () rfl
  | atom a =>
    intro whole _ ext st cs k hst hwin
    have hatom := outcome_atom D fuel whole (k := k) a hst hwin
    rw [hread] at hatom
    exact hatom
  | padded e n ih =>
    intro whole _ ext st cs k hst hwin
    obtain ⟨m, hm, -⟩ := classify_padded he.1
    have hk : e.classify ≠ .variable := by simp [hm]
    have hsub := ih he.2 (fun h => (hlimits h).2) false fun h => absurd h hk
    simp only [assertRemaining_eq hwin]
    exact (hsub hst fun h => absurd h hk).bind fun _ adv budget => map (outcome_skip (adv.ready hst budget))
  | array maxLength e ih =>
    intro whole _ ext st cs k hst hwin
    have hsub := (ih he.2 (fun h => (hlimits h).2) false fun h => absurd h he.1.1).need fun h => he.1.1 h
    simp only [assertRemaining_eq hwin]
    exact map (hsub.all .listTooLong .arrayTooLong maxLength hst fun _ => hwin rfl)
  | list maxLength e ih =>
    intro whole _ ext st cs k hst hwin
    have hsub := (ih he.2 (fun h => (hlimits h).2) false fun h => absurd h he.1.1).need fun h => he.1.1 h
    simp only [assertRemaining_eq hwin]
    exact hsub.all .arrayTooLong .listTooLong maxLength hst fun _ => hwin rfl
  | req e ih | dft e ih | tup e ih | describe e ih | splitted e ih =>
    exact fun whole hwhl => .asserted (ih he.2 (fun h => (hlimits h).2) whole hwhl)
  | opt kind e ih =>
    intro whole hwhl ext st cs k hst hwin
    cases kind with
    | dynamic =>
      have hk : e.classify ≠ .variable := he.1 rfl
      have hint := outcome_int D fuel whole (k := k) .int8
        (fun {st} h => by rw [hread, assertRemaining_eq h]; rfl) hst hwin
      rw [hread] at hint
      refine bind (map (f := fun v => decide (v ≠ 0)) (K := fun present st' cs' => verdict D cs'
        (if ¬present then k (none, st') else assertRemaining e (readDesc fuel rec e whole) st' fun r => k (some r.1, r.2)))
        hint) fun {present j st' cs'} _ adv budget => ?_
      cases present with
      | false => exact .ret (adv.ready hst budget) none rfl
      | true =>
        exact map (ih he.2 (fun h => (hlimits h).2) whole (fun h => absurd h hk) (adv.ready hst budget)
          fun h => absurd h hk)
    | «variable» =>
      obtain ⟨r, hr⟩ := Option.ne_none_iff_exists'.mp (hwin rfl)
      simp only [assertRemaining_eq hwin, readDesc, withRemainingBytes, hr]
      have hlen := hst.length_window hr
      by_cases hzero : r = 0
      · have hnil : window ext st cs = [] := List.length_eq_zero_iff.mp (hlen.trans hzero)
        rw [if_pos hzero]
        exact congr (by simp only [decodeDesc, Parser.ifEmpty, if_pos hnil]) (.ret hst none rfl)
      · have hnil : window ext st cs ≠ [] := fun h => hzero (hlen.symm.trans (List.length_eq_zero_iff.mpr h))
        rw [if_neg hzero]
        refine congr (q := (decodeDesc dec e).map some) (by simp only [decodeDesc, Parser.ifEmpty, if_neg hnil]) ?_
        exact map (ih he.2 (fun h => (hlimits h).2) whole (fun _ => hwhl rfl) hst fun _ => hwin rfl)
  | mu kind x =>
    have hkind : (D.unfold x).classify = .variable → kind.toKind = .variable := fun h => by
      cases kind with
      | dynamic => exact absurd h (he rfl)
      | «variable» => rfl
    exact fun whole hwhl => .asserted ((hrec x whole fun h => hwhl (hkind h)).need hkind)
  | objs kind left right ihl ihr | tups kind left right ihl ihr =>
    refine fun whole hwhl => .asserted (refines_pair he.1 hwhl (ihl he.2.1 fun h => (hlimits h).2.1)
      (ihr he.2.2 fun h => (hlimits h).2.2) (takes_seq (takes_desc htake left) (takes_desc htake right)) ?_)
    intro size hsize n a o h
    subst hsize
    obtain ⟨n₁, n₂, hk₁, hk₂, rfl⟩ := Kind.combine_fixed he.1
    exact Lengths.seq_eq (fun h => lengths_fixed he.2.1 hk₁ h) (fun h => lengths_fixed he.2.2 hk₂ h) h
  | union kind tagSize cases encoding ih =>
    intro whole hwhl ext st cs k hst hwin
    have hcase : ∀ i, (encoding i).classify = .variable → kind = .variable := fun i h => by
      by_contra hk
      exact classify_case he.1 hk i h
    have hint := outcome_int D fuel whole (k := k) tagSize.toInteger
      (fun {st} h => by rw [hread, assertRemaining_eq h, readDesc, tag_eq]) hst hwin
    rw [hread] at hint
    simp only [decodeDesc]
    refine hint.bind fun {ctag j st' cs'} _ adv budget => ?_
    rcases hfind : findTag cases ctag with _ | i
    · simp only [hfind]
      exact .fail (verdict_error D cs' _)
    · simp only [hfind]
      exact map (ih i (he.2 i) (fun h => (hlimits h).2 i) whole (fun h => hwhl (hcase i h)) (adv.ready hst budget)
        fun h => adv.windowed (hwin (hcase i h)))
  | conv proj inj e ih =>
    exact fun whole hwhl => .asserted fun _ _ _ _ hst hwin => map (ih he.2 (fun h => (hlimits h).2) whole hwhl hst hwin)
  | dynamicSize kind e ih =>
    intro whole hwhl ext st cs k hst hwin
    have hint := outcome_int D fuel whole (k := k) kind.toInteger
      (fun {st} h => by rw [hread, assertRemaining_eq h, readDesc]) hst hwin
    rw [hread] at hint
    refine hint.bind fun {sz j st' cs'} hsz adv budget => ?_
    exact Refines.window (fun whole => assertRemaining e (readDesc fuel rec e whole))
      (ih he.2 (fun h => (hlimits h).2) true fun _ => rfl) (decodeInt_lt hsz) (adv.ready hst budget) fun h => h.elim
  | checkSize limit e ih =>
    exact fun whole hwhl => .asserted ((ih he.2 (fun h => (hlimits h).2) whole hwhl).limit (takes_desc htake e).within
      fun h => (hlimits h).1)
  | delayed f ih => exact fun whole hwhl => .asserted (ih () he.2 (fun h => (hlimits h).2) whole hwhl)

theorem reads_rec {neg : Prop} (hD : ¬neg → D.Everywhere LimitsChecked) (fuel : Nat)
    (he : e.WellFormed D) (hlimits : ¬neg → e.Everywhere LimitsChecked) :
    Reads D neg e (readRec D fuel e : Bool → Step ι ρ α) (decode D fuel e) := by
  induction fuel generalizing α with
  | zero =>
    refine reads_desc (fun _ _ => rfl) (fun x whole _ ext st cs k _ _ => ?_) (L := fun _ => .broken)
      (fun _ => .breakdown fun _ h => by cases h) he hlimits
    exact .raises (x := .diverges) (verdict_raised D cs fun _ h => by cases h) (fun _ h => by cases h)
      ⟨_, rfl, fun _ => rfl⟩
  | succ fuel ih =>
    exact reads_desc (fun _ _ => rfl) (fun x => ih (D.checked x) fun h => hD h x)
      (fun x => takes_decode D fuel _) he hlimits

end Desc

theorem verdict_eq_success {ρ : Type} {chunks : List MBytes} {status : Status ι ρ} {result : ρ} {size : Nat}
    {valid : Prop}
    {r : MBytes} : verdict D chunks status = .success result size valid r ↔ ∃ stream rest,
      feed D chunks status = (.success result size stream, rest) ∧ stream.contents ++ rest.flatten = r ∧
        stream.Valid = valid := by
  unfold verdict
  constructor
  · intro h
    rcases hfeed : feed D chunks status with ⟨last, rest⟩
    rw [hfeed] at h
    cases last with
    | success result' size' stream =>
      cases h
      exact ⟨stream, rest, rfl, rfl, rfl⟩
    | raised x => cases x <;> cases h
    | _ => cases h
  · rintro ⟨stream, rest, hfeed, rfl, rfl⟩
    rw [hfeed]
    rfl

theorem outcome_readStream (neg : Prop) (fuel : Nat)
    (hD : ¬neg → D.Everywhere LimitsChecked) (he : e.WellFormed D)
    (hk : e.classify ≠ .variable) (hlimits : ¬neg → e.Everywhere LimitsChecked) (ext : MBytes) {init : BinaryStream}
    (hinit : init.Valid) (chunks : List MBytes) :
    Outcome neg false ext (decode D fuel e)
      { remainingBytes := none, allowedBytes := none, stream := init, totalRead := 0 } chunks
      (verdict D chunks (readStream D fuel init e))
      fun v st' cs' => .success v st'.totalRead st'.stream.Valid (data st' cs') := by
  have hstr : verdict D chunks (readStream D fuel init e) = verdict D chunks (readRec D fuel e false
      { remainingBytes := none, allowedBytes := none, stream := init, totalRead := 0 } success) := by
    unfold readStream
    cases hcls : e.classify with
    | «variable» => exact absurd hcls hk
    | dynamic | fixed => exact verdict_handle D chunks _
  have hready : Ready neg ext
      { remainingBytes := none, allowedBytes := none, stream := init, totalRead := 0 } chunks :=
    ⟨hinit, fun r hr => (by cases hr), fun _ x hx => (by cases hx)⟩
  have hout := reads_rec hD fuel he hlimits false (fun h => absurd h hk) (k := success) hready fun h => absurd h hk
  rw [hstr]
  simp only [success, verdict_success] at hout
  exact hout

def Status.insideNumber : Status ι ρ → Bool
  | .awaitZ _ _ _ _ _ => true
  | _ => false

/-- Some bytes are the beginning of others that the reader of buffers accepts, and no limit is negative. -/
def Acceptable (D : Defs ι) (fuel : Nat) (e : Encoding ι ρ) (b : MBytes) : Prop :=
  e.Everywhere LimitsChecked ∧ (∀ {β : Type} (x : ι β), (D.unfold x).Everywhere LimitsChecked) ∧
    ∃ ext size v, Reader.read D fuel e (b ++ ext) 0 (b ++ ext).length = .ok (some (size, v))

/-- The steps of a run after the bytes `given`: where an `Await` from inside a number is resumed, the bytes given so far and
    those of the step are the beginning of some that the reader of buffers accepts. -/
def Passable (D : Defs ι) (fuel : Nat) (e : Encoding ι α) : MBytes → List MBytes → Status ι ρ → Prop
  | _, [], _ => True
  | given, chunk :: chunks, status =>
    (status.insideNumber = true → Acceptable D fuel e (given ++ chunk)) ∧
      Passable D fuel e (given ++ chunk) chunks (resume D status chunk)

theorem handle_ne_readError (status : Status ι ρ) (err : ReadError) : status.handle ≠ .raised (.readError err) := by
  cases status with
  | raised x => cases x <;> exact fun h => (by cases h)
  | _ => exact fun h => (by cases h)

theorem resume_ne_readError {status : Status ι ρ} (houts : status.insideNumber = false)
    (h : ∀ err, status ≠ .raised (.readError err)) (chunk : MBytes) (err : ReadError) :
    resume D status chunk ≠ .raised (.readError err) := by
  cases status with
  | awaitRec | awaitSkip => exact handle_ne_readError _ err
  | awaitZ => cases houts
  | _ => exact h err

theorem readStream_ne_readError (fuel : Nat) (init : BinaryStream) (e : Encoding ι ρ) (err : ReadError) :
    readStream D fuel init e ≠ .raised (.readError err) := by
  unfold readStream
  split
  · exact fun h => (by cases h)
  · exact handle_ne_readError _ err
  · exact handle_ne_readError _ err

section Returns
variable {first : MBytes} {chunks : List MBytes}

theorem verdict_of_raised {status : Status ι α} {x : Exn} (h : (feed D chunks status).1 = .raised x) :
    verdict D chunks status = .fails ∨ verdict D chunks status = .raised x := by
  rw [verdict, h]
  cases x with
  | readError err => exact .inl rfl
  | _ => exact .inr rfl

theorem readError_of_raised (he : e.WellFormed D) (hk : e.classify ≠ .variable) {ext : MBytes}
    (hext : 2 ^ 31 ≤ ext.length)
    (hread : ¬Parser.Gives Escapes (decode D fuel e (first ++ chunks.flatten ++ ext) none) none) {x : Exn}
    (hx : (feed D chunks (readStream D fuel (.ofBytes first) e)).1 = .raised x) : ∃ err, x = .readError err := by
  have hout := outcome_readStream True fuel (fun h => absurd trivial h) he hk
    (fun h => absurd trivial h) ext (valid_ofBytes first) chunks
  cases hcase : x with
  | readError err => exact ⟨err, rfl⟩
  | _ =>
    exfalso
    have hV : verdict D chunks (readStream D fuel (.ofBytes first) e) = .raised x := by
      rw [verdict, hx, hcase]
      rfl
    rw [hV] at hout
    rcases hout with ⟨-, -, -, hV'⟩ | ⟨hV', -⟩ | ⟨hV', -⟩ | @⟨x', hV', other, y, hy, hyx⟩
    · cases hV'
    · cases hV'
    · cases hV'
    · rw [window_none rfl, data, contents_ofBytes] at hy
      exact hread (Parser.gives_none.mpr ⟨y, hy, fun err h => other err ((hyx hext).symm.trans h)⟩)

theorem returns_of_acceptable (he : e.WellFormed D) (hk : e.classify ≠ .variable)
    (h : Acceptable D fuel e (first ++ chunks.flatten)) (x : Exn) :
    (feed D chunks (readStream D fuel (.ofBytes first) e)).1 ≠ .raised x := by
  obtain ⟨hlims, hD, ext, size, v, hread⟩ := h
  have hdec := Reader.read_eq_some.mp hread
  have hout := outcome_readStream False fuel (fun _ => hD) he hk (fun _ => hlims) ext (valid_ofBytes first) chunks
  intro hx
  have hV := verdict_of_raised hx
  rcases hout with ⟨-, -, -, hV'⟩ | ⟨hV', -⟩ | ⟨-, hp⟩ | ⟨-, -, y, hy, -⟩
  · rw [hV'] at hV
    rcases hV with hV | hV <;> cases hV
  · rw [hV'] at hV
    rcases hV with hV | hV <;> cases hV
  · rw [window_none rfl, data, contents_ofBytes] at hp
    rcases hp v size hdec with hneg | ⟨_, hwhl, -⟩
    · exact hneg
    · cases hwhl
  · rw [window_none rfl, data, contents_ofBytes, hdec] at hy
    cases hy

theorem feed_cons {chunk : MBytes} {status : Status ι ρ} (haw : status.awaits = true) (chunks : List MBytes) :
    feed D (chunk :: chunks) status = feed D chunks (resume D status chunk) := if_pos haw

/-- After the chunks `done`, no step lets a read error through: a closure with a handler returns it, and the bytes of the
    other steps meet none. -/
theorem feed_ne_readError (he : e.WellFormed D) (hk : e.classify ≠ .variable) :
    ∀ {done : List MBytes} {status : Status ι α},
      (∀ rest, feed D (done ++ rest) (readStream D fuel (.ofBytes first) e) = feed D rest status) →
      Passable D fuel e (first ++ done.flatten) chunks status → (∀ err, status ≠ .raised (.readError err)) →
      ∀ err, (feed D chunks status).1 ≠ .raised (.readError err) := by
  induction chunks with
  | nil => exact fun _ _ h => h
  | cons chunk chunks ih =>
    intro done status hdone hrun h
    cases haw : status.awaits with
    | false =>
      rw [feed, haw]
      exact h
    | true =>
      have hnext : ∀ rest, feed D (done ++ [chunk] ++ rest) (readStream D fuel (.ofBytes first) e) =
          feed D rest (resume D status chunk) := fun rest => by
        rw [List.append_assoc, hdone, List.singleton_append, feed_cons haw]
      have hgiven : first ++ done.flatten ++ chunk = first ++ (done ++ [chunk]).flatten := by simp
      have hstep : ∀ err, resume D status chunk ≠ .raised (.readError err) := fun err => by
        cases hz : status.insideNumber with
        | false => exact resume_ne_readError hz h chunk err
        | true =>
          have hret := returns_of_acceptable he hk (hgiven ▸ hrun.1 hz) (.readError err)
          rwa [← List.append_nil (done ++ [chunk]), hnext] at hret
      rw [feed_cons haw]
      exact ih hnext (hgiven ▸ hrun.2) hstep

/-- A run whose steps are all passable returns a status, if the encoding is one on which the reader of buffers returns. A
    run stops at an exception, so that none was raised before its end either. -/
theorem feed_returns {ι : Type → Type} {α : Type} {D : Defs ι} {e : Encoding ι α} (he : e.WellFormed D)
    (hk : e.classify ≠ .variable) (hlen : ∀ n, ∃ fuel, ¬lengths D fuel e n none none) (first : MBytes)
    (chunks : List MBytes) :
    ∃ fuel₀, ∀ fuel, fuel₀ ≤ fuel → Passable D fuel e first chunks (readStream D fuel (.ofBytes first) e) →
      ∀ x, (feed D chunks (readStream D fuel (.ofBytes first) e)).1 ≠ .raised x := by
  let ext : MBytes := List.replicate (2 ^ 31) 0
  obtain ⟨fuel₀, hfuel₀⟩ := hlen (first ++ chunks.flatten ++ ext).length
  refine ⟨fuel₀, fun fuel hfuel hrun x hx => ?_⟩
  have hread : ¬Parser.Gives Escapes (decode D fuel e (first ++ chunks.flatten ++ ext) none) none := fun hgiv =>
    hfuel₀ ((takes_decode D fuel₀ e).iff.mpr ⟨_, rfl, gives_none_mono hfuel hgiv⟩)
  obtain ⟨err, rfl⟩ := readError_of_raised he hk (by rw [List.length_replicate]) hread hx
  have hfirst : Passable D fuel e (first ++ List.flatten []) chunks (readStream D fuel (.ofBytes first) e) := by
    rwa [List.flatten_nil, List.append_nil]
  exact feed_ne_readError he hk (fun _ => rfl) hfirst (readStream_ne_readError fuel _ e) err hx

end Returns

/-- A number cut after its first byte, then a byte out of its range: the number ends in its step, and the other step returns
    the error. -/
theorem feed_returns_number :
    let e : Encoding (fun _ => Empty) (Int × Int) := .tups .dynamic (.tup (.atom .n))
      (.tup (.atom (.rangedInt ⟨0, 10, by decide, by decide, by decide⟩)))
    ∃ fuel₀, ∀ fuel, fuel₀ ≤ fuel →
      ∀ x, (feed .none [[1], [255]] (readStream .none fuel (.ofBytes [0x80]) e)).1 ≠ .raised x := by
  intro e
  have he : e.WellFormed .none := ⟨rfl, ⟨trivial, trivial⟩, trivial, trivial⟩
  have hlen : ∀ n, ∃ fuel, ¬lengths .none fuel e n none none := fun n => ⟨0, by
    rintro (⟨⟨k, -, h⟩, -⟩ | ⟨k, -, o, ⟨-, -, rfl⟩, h⟩) <;> cases h⟩
  obtain ⟨fuel₀, h⟩ := feed_returns he (by simp [e, Encoding.classify]) hlen [0x80] [[1], [255]]
  refine ⟨fuel₀, fun fuel hfuel => h fuel hfuel ⟨fun _ => ⟨⟨trivial, ⟨trivial, trivial⟩, trivial, trivial⟩,
    fun x => x.elim, [5], 3, (128, 5), ?_⟩, fun hz => ?_, trivial⟩⟩
  · cases fuel <;> rfl
  · cases fuel <;> cases hz

/-- A number cut after its first byte, whose second one is a zero: the exception goes through. -/
theorem feed_trailing_zero :
    let e : Encoding (fun _ => Empty) Int := .atom .n
    e.WellFormed .none ∧ e.classify ≠ .variable ∧
      ∀ fuel, (feed .none [[0x00]] (readStream .none fuel (.ofBytes [0x80]) e)).1 =
        .raised (.readError .trailingZero) := by
  intro e
  refine ⟨trivial, by simp [e, Encoding.classify, Atom.classify], fun fuel => ?_⟩
  cases fuel <;> rfl

end Tezos.DataEncoding.StreamReader
