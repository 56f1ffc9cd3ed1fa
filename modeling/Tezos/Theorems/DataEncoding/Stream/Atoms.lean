import Tezos.Theorems.DataEncoding.Stream.Outcomes
import Tezos.Theorems.DataEncoding.Atoms
import Tezos.Theorems.DataEncoding.ReaderRefines

/-! The atoms of the incremental reader: a suspended word is read again with each chunk, until it is there. -/

namespace Tezos.DataEncoding.StreamReader
open Lib Wire List MBytes
open Reader (readSoFar bitsSoFar stepZ endZ stepZ_spec endZ_spec and_0x80 and_0x40 decodeInt_uint8 decodeByte_yields)

/-! ### Words -/

variable {ι : Type → Type} {ρ α : Type} {D : Defs ι} {neg : Prop} {ext : MBytes} {st : State} {cs : List MBytes}
  {size : Nat}
  {get : MBytes → Nat → Except Exn α} {conv : MBytes → Except Exn α} {P : State → Prop} {x : Int}

section Word

/-- How `read_atom` suspends: the status under `Await`, given a chunk, reads again from the state with this
    chunk. `P` is what is known of the states. -/
structure Suspends (D : Defs ι) (P : State → Prop) (size : Nat) (get : MBytes → Nat → Except Exn α)
    (read : State → Status ι ρ) (next : α × State → Status ι ρ) (await : State → Status ι ρ) : Prop where
  push : ∀ {st : State} (c : MBytes), P st → P (st.push c)
  atom : ∀ {st : State}, P st → st.stream.Valid → read st = readAtom (await st) size get st next
  awaits : ∀ st : State, (await st).awaits = true
  again : ∀ (st : State) (c : MBytes) (cs : List MBytes),
    verdict D cs (resume D (await st) c) = verdict D cs (read (st.push c))

/-- `get` converts the word that it finds. -/
abbrev Gets (size : Nat) (get : MBytes → Nat → Except Exn α) (conv : MBytes → Except Exn α) : Prop :=
  ∀ buffer ofs w, sub buffer ofs size = .ok w → get buffer ofs = conv w

theorem checkRemainingBytes_ok (hr : ∀ r, st.remainingBytes = some r → size ≤ r) :
    checkRemainingBytes st size = .ok (st.remainingBytes.map (· - size)) := by
  unfold checkRemainingBytes
  rcases hrem : st.remainingBytes with _ | r
  · rfl
  · have hsize := hr r hrem
    exact if_neg (by omega)

theorem checkRemainingBytes_error {r : Nat} (hr : st.remainingBytes = some r) (hlt : r < size) :
    checkRemainingBytes st size = .error (.readError .notEnoughData) := by
  simp only [checkRemainingBytes, hr, if_pos hlt]

theorem checkAllowedBytes_error (ha : st.allowedBytes = some x) (hlt : x < size) :
    checkAllowedBytes st size = .error (.readError .sizeLimitExceeded) := by
  simp only [checkAllowedBytes, ha, if_pos hlt]

theorem checkAllowedBytes_ok (ha : Allowed st.allowedBytes size) :
    checkAllowedBytes st size = .ok (spend st.allowedBytes size) := by
  unfold checkAllowedBytes
  rcases hall : st.allowedBytes with _ | x
  · rfl
  · have hsize := ha x hall
    exact if_neg (by omega)

theorem tryAtom_of_le (cs : List MBytes) (hget : Gets size get conv)
    (hst : Ready neg ext st cs) (hr : ∀ r, st.remainingBytes = some r → size ≤ r)
    (ha : Allowed st.allowedBytes size) (hle : size ≤ st.stream.contents.length) :
    ∃ st', Advances st cs size st' cs ∧ tryAtom size get st =
      (conv ((data st cs).take size) >>= fun v => .ok (some (v, st'))) := by
  obtain ⟨⟨res, stream⟩, hread, hvalid, hlen, hcontents, hvalid', hrest⟩ := BinaryStream.read_of_le hst.stream hle
  have htake : res.contents = (data st cs).take size := by
    rw [hcontents, data, take_append_of_le_length hle]
  have hconv : get res.buffer res.ofs = conv ((data st cs).take size) := by
    refine hget _ _ _ ?_
    rw [← htake, ← hlen]
    exact hvalid.sub
  refine ⟨{ stream, remainingBytes := st.remainingBytes.map (· - size), allowedBytes := spend st.allowedBytes size,
            totalRead := st.totalRead + size }, ⟨hvalid', ?_, ?_, hr, rfl, rfl, rfl⟩, ?_⟩
  · simp only [data, hrest, drop_append_of_le_length hle]
  · simp only [data, length_append]
    omega
  · simp only [tryAtom, checkRemainingBytes_ok hr, checkAllowedBytes_ok ha, ok_bind, hread, hconv]
    rfl

variable {read await : State → Status ι ρ} {next : α × State → Status ι ρ}

theorem readAtom_of_remaining {r : Nat} (hr : st.remainingBytes = some r) (hlt : r < size) (resume : Status ι ρ) :
    readAtom resume size get st next = .error .notEnoughData := by
  simp only [readAtom, tryAtom, checkRemainingBytes_error hr hlt, error_bind]

theorem readAtom_of_allowed (hr : ∀ r, st.remainingBytes = some r → size ≤ r) (ha : st.allowedBytes = some x)
    (hlt : x < size) (resume : Status ι ρ) : readAtom resume size get st next = .error .sizeLimitExceeded := by
  simp only [readAtom, tryAtom, checkRemainingBytes_ok hr, checkAllowedBytes_error ha hlt, ok_bind, error_bind]

variable (h : Suspends D P size get read next await) (hget : Gets size get conv) (hst : Ready neg ext st cs) (hP : P st)
include h hget hst hP

theorem Suspends.outcome_of_le (hr : ∀ r, st.remainingBytes = some r → size ≤ r) (ha : Allowed st.allowedBytes size)
    (hle : size ≤ st.stream.contents.length) :
    Comes D neg false ext (word size conv) st cs (read st) next := by
  obtain ⟨st', adv, htry⟩ := tryAtom_of_le cs hget hst hr ha hle
  have hlen : size ≤ (window ext st cs).length := le_length_window adv.le hr
  have htake : (window ext st cs).take size = (data st cs).take size := take_window adv.le hr
  have hnds : needs (window ext st cs) size = .ok () := needs_ok.mpr hlen
  have hallows : allows st.allowedBytes size = .ok () := allows_ok.mpr ha
  rw [h.atom hP hst.stream, readAtom, htry, ← htake]
  cases hconv : conv ((window ext st cs).take size) with
  | ok v =>
    refine .reads (word_ok.mpr ⟨hlen, ha, hconv, rfl⟩) adv (fun _ x hx => ?_) rfl
    rw [adv.allowed] at hx
    obtain ⟨y, hy, rfl⟩ := Option.map_eq_some_iff.mp hx
    have hsize := ha y hy
    omega
  | error x =>
    have hword : word size conv (window ext st cs) st.allowedBytes = .error x := by
      simp only [word, hnds, hallows, ok_bind, hconv, error_bind]
    cases hx : x with
    | readError err =>
      refine .fails (verdict_error D cs err) fun v j hv => ?_
      rw [hword] at hv
      cases hv
    | _ =>
      refine .raises (x := x) ?_ (fun err herr => ?_) ⟨x, hword, fun _ => rfl⟩
      · rw [hx]
        exact verdict_raised D cs (fun err herr => by cases herr)
      · rw [hx] at herr
        cases herr

theorem Suspends.outcome_or_waits : Comes D neg false ext (word size conv) st cs (read st) next ∨
      (st.stream.contents.length < size ∧ read st = await st) := by
  by_cases hr : ∀ r, st.remainingBytes = some r → size ≤ r
  · by_cases ha : Allowed st.allowedBytes size
    · by_cases hle : size ≤ st.stream.contents.length
      · exact .inl (h.outcome_of_le hget hst hP hr ha hle)
      · refine .inr ⟨Nat.lt_of_not_le hle, ?_⟩
        rw [h.atom hP hst.stream]
        simp only [readAtom, tryAtom, checkRemainingBytes_ok hr, checkAllowedBytes_ok ha, ok_bind,
          BinaryStream.read_of_lt hst.stream (Nat.lt_of_not_le hle)]
        rfl
    · rw [Allowed] at ha
      push Not at ha
      obtain ⟨x, hx, hlt⟩ := ha
      rw [h.atom hP hst.stream, readAtom_of_allowed hr hx hlt]
      refine .inl (.fails (verdict_error D cs _) fun v j hv => ?_)
      have hle := (word_ok.mp hv).2.1 x hx
      omega
  · push Not at hr
    obtain ⟨r, hr, hlt⟩ := hr
    rw [h.atom hP hst.stream, readAtom_of_remaining hr hlt]
    refine .inl (.fails (verdict_error D cs _) fun v j hv => ?_)
    have hle := (word_ok.mp hv).1
    rw [hst.length_window hr] at hle
    omega

/-- By induction on the chunks to come. -/
theorem Suspends.outcome : Comes D neg false ext (word size conv) st cs (read st) next := by
  induction cs generalizing st with
  | nil =>
    rcases h.outcome_or_waits hget hst hP with hnow | ⟨hlt, hwts⟩
    · exact hnow
    · rw [hwts]
      refine .awaits (verdict_awaits (h.awaits st)) fun v j hv => ?_
      obtain ⟨-, -, -, rfl⟩ := word_ok.mp hv
      rw [data, flatten_nil, append_nil]
      exact hlt
  | cons c cs ih =>
    rcases h.outcome_or_waits hget hst hP with hnow | ⟨-, hwts⟩
    · exact hnow
    · rw [Comes, hwts, verdict_cons D (h.awaits st), h.again]
      exact (ih (hst.push c rfl) (h.push c hP)).of_push

end Word

/-! ### Atoms -/

/-- A window is known where an encoding of variable length is read. -/
def Windowed (e : Encoding ι α) (st : State) : Prop := e.classify = .variable → st.remainingBytes ≠ none

variable {fuel : Nat} {whole : Bool} {e : Encoding ι α} {k : α × State → Status ι ρ} {β : Type}
  {next : β × State → Status ι ρ} {a : Atom α}

theorem assertRemaining_eq {read : Step ι ρ α} (h : Windowed e st) :
    assertRemaining e read st k = read st k := if_neg fun hvar => h hvar.1 hvar.2

theorem suspends_rec {get : MBytes → Nat → Except Exn β}
    (hpush : ∀ {st : State} (c : MBytes), P st → P (st.push c))

    (hatom : ∀ {st : State}, P st →
      readRec D fuel e whole st k = readAtom (.awaitRec fuel whole e st k) size get st next) :
    Suspends D P size get (fun st => readRec D fuel e whole st k) next (fun st => .awaitRec fuel whole e st k) :=
  ⟨hpush, fun hP _ => hatom hP, fun _ => rfl, fun _ _ cs => verdict_handle D cs _⟩

theorem int_eq (kind : Integer) (r : Status ι ρ) (st : State) (k : Int × State → Status ι ρ) :
    int r st kind k = readAtom r (BinarySize.integerToSize kind) (Reader.getInt kind) st k := by
  cases kind <;> rfl

theorem getDouble_eq {buffer : MBytes} {ofs : Nat} {w : MBytes} (hw : sub buffer ofs BinarySize.float = .ok w) :
    getDouble buffer ofs = .ok (floatOfBytes w) := by
  have hw : sub buffer ofs 8 = .ok w := hw
  simp [getDouble, hw, floatOfBytes]

theorem outcome_int (D : Defs ι) (fuel : Nat) (whole : Bool) (kind : Integer) {next : Int × State → Status ι ρ}
    (hread : ∀ {st : State}, Windowed e st →
      readRec D fuel e whole st k = int (.awaitRec fuel whole e st k) st kind next)
    (hst : Ready neg ext st cs) (hwin : Windowed e st) :
    Comes D neg false ext (decodeInt kind) st cs (readRec D fuel e whole st k) next := by
  refine Suspends.outcome (suspends_rec (P := Windowed e) (fun _ h => h) fun h => ?_)
    (fun _ _ _ hw => Reader.getInt_eq hw) hst hwin
  rw [hread h, int_eq]

theorem outcome_byte {next : Int × State → Status ι ρ}
    (hread : ∀ {st : State}, Windowed e st → readRec D fuel e whole st k = uint8 (.awaitRec fuel whole e st k) st next)
    (hst : Ready neg ext st cs) (hwin : Windowed e st) :
    Outcome neg false ext decodeByte st cs (verdict D cs (readRec D fuel e whole st k))
      fun byte st' cs' => verdict D cs' (next (byte, st')) := by
  have h := outcome_int D fuel whole .uint8 hread hst hwin
  rw [decodeInt_uint8] at h
  exact h.of_map

/-! Numbers of any size. -/

theorem decodeTail_eq : decodeTail = decodeByte.bind fun byte =>
    if 128 ≤ byte then decodeTail.map fun v => byte - 128 + 128 * v
    else if byte = 0 then .fail (.readError .trailingZero)
    else .ret byte := by
  funext input a
  refine bind_congr_ok fun ⟨byte, j⟩ hbyte => ?_
  obtain ⟨hle, -, -, rfl⟩ := word_ok.mp hbyte
  have hroun : (input.drop 1).length + 1 = input.length := by
    rw [length_drop]
    omega
  by_cases hcont : 128 ≤ byte
  · simp only [if_pos hcont, Parser.map, decodeTail, hroun]
  · simp only [if_neg hcont]

/-- Each byte makes the stream shorter, so the fuel of `read_z` lasts. -/
theorem unread_of_tryAtom {v : α × State} (hst : st.stream.Valid) (h : tryAtom 1 get st = .ok (some v)) :
    v.2.stream.unread + 1 = st.stream.unread := by
  simp only [tryAtom, bind_eq_ok] at h
  obtain ⟨_, -, _, -, r, hread, h⟩ := h
  by_cases hle : 1 ≤ st.stream.contents.length
  · obtain ⟨r', hr', -, -, -, hvalid, hrest⟩ := BinaryStream.read_of_le hst hle
    rw [hr'] at hread
    cases hread
    simp only [bind_eq_ok, pure_eq_ok, Except.ok.injEq, Option.some.injEq] at h
    obtain ⟨_, -, rfl⟩ := h
    simp only [hvalid.unread, hrest, hst.unread, length_drop]
    omega
  · rw [BinaryStream.read_of_lt hst (Nat.lt_of_not_le hle)] at hread
    cases hread
    cases h

theorem readAtom_congr {resume : Status ι ρ} {k' : α × State → Status ι ρ}
    (h : ∀ v, tryAtom size get st = .ok (some v) → k v = k' v) :
    readAtom resume size get st k = readAtom resume size get st k' := by
  unfold readAtom
  cases htry : tryAtom size get st with
  | error x => cases x <;> rfl
  | ok r =>
    rcases r with _ | v
    · rfl
    · exact h v htry

theorem readZ_eq (res : MBytes) (value bit : Nat) (k : Int × State → Status ι ρ) (hst : st.stream.Valid) :
    readZ res value bit st k = uint8 (.awaitZ res value bit st k) st fun r =>
      let next := stepZ res value bit r.1.toNat
      if r.1.toNat &&& 0x80 = 0x80 then readZ next.1 next.2.1 next.2.2 r.2 k
      else match endZ next.1 next.2.1 next.2.2 r.1.toNat with
        | .error x => .raised x
        | .ok v => k (v, r.2) := by
  refine readAtom_congr fun ⟨byte, st'⟩ hv => ?_
  have hroun : ∀ res value bit, readZRounds k st.stream.unread res value bit st' = readZ res value bit st' k :=
    fun res value bit => by rw [readZ, unread_of_tryAtom hst hv]
  exact ite_congr rfl (fun _ => hroun _ _ _) fun _ => rfl

theorem outcome_tail (D : Defs ι) (whole : Bool) (k : Int × State → Status ι ρ) (n : Nat) :
    ∀ (res : MBytes) {value bit : Nat} {st : State} {cs : List MBytes}, (data st cs).length < n → bit < 8 →
      value < 2 ^ bit →
      Ready neg ext st cs →
      Outcome neg whole ext (decodeTail.map fun v => ((readSoFar res value + 2 ^ bitsSoFar res bit * v : Nat) : Int)) st cs
        (verdict D cs (readZ res value bit st k)) fun v st' cs' => verdict D cs' (k (v, st')) := by
  induction n with
  | zero => exact fun _ _ _ _ _ h => absurd h (Nat.not_lt_zero _)
  | succ n ih =>
    intro res value bit st cs hn hbit hval hst
    have hsus : Suspends D (fun _ => True) BinarySize.uint8 getUint8 (fun st => readZ res value bit st k) _
        (fun st => .awaitZ res value bit st k) :=
      ⟨fun _ _ => trivial, fun _ hst => readZ_eq res value bit k hst, fun _ => rfl, fun _ _ _ => rfl⟩
    have hbyte : Outcome neg false ext (decodeInt .uint8) st cs (verdict D cs (readZ res value bit st k)) _ :=
      hsus.outcome (fun _ _ _ hw => @Reader.getInt_eq .uint8 _ _ _ hw) hst trivial
    rw [decodeInt_uint8] at hbyte
    rw [decodeTail_eq, Parser.map_bind]
    refine hbyte.of_map.bind fun {byte j st' cs'} hp adv budget => ?_
    have hlt := decodeByte_yields hp
    obtain ⟨-, -, -, rfl⟩ := word_ok.mp hp
    obtain ⟨hbit', hval', hread, hbits⟩ := stepZ_spec res byte hbit hval
    simp only [Int.toNat_natCast, and_0x80 hlt]
    by_cases hcont : 128 ≤ byte
    · simp only [if_pos hcont, Parser.map_map]
      have hlen := adv.length_data
      have hle := adv.le
      have hih := ih (stepZ res value bit byte).1 (by omega) hbit' hval' (adv.ready hst budget)
      rw [hread, hbits] at hih
      convert hih using 4 with v
      have hmod : byte % 128 = byte - 128 := by omega
      rw [hmod]
      ring
    · simp only [if_neg hcont]
      rw [endZ_spec hbit' hval', hread, Nat.mod_eq_of_lt (by omega)]
      by_cases hzero : byte = 0
      · simp only [if_pos hzero, Parser.map_fail]
        exact .fail (verdict_readError D cs' _)
      · simp only [if_neg hzero, Parser.map_ret]
        exact .ret (adv.ready hst budget) _ rfl

theorem outcome_more {value bit : Nat} (D : Defs ι) (whole : Bool) (k : Int × State → Status ι ρ) (hbit : bit < 8)
    (hval : value < 2 ^ bit)
    (hst : Ready neg ext st cs) :
    Comes D neg whole ext (decodeTail.map fun v => ((value + 2 ^ bit * v : Nat) : Int)) st cs
      (readZ [] value bit st k) k := by
  have htail := outcome_tail D whole k _ [] (Nat.lt_succ_self _) hbit hval hst
  simp only [readSoFar, bitsSoFar, ofLE, length_nil, pow_zero, Nat.one_mul, Nat.zero_add, Nat.mul_zero] at htail
  exact htail

/-! Atoms. -/

theorem readRec_atom (h : Windowed (.atom a : Encoding ι _) st) :
    readRec D fuel (.atom a) whole st k = atom (.awaitRec fuel whole (.atom a) st k) st a k := by
  cases fuel with
  | zero | succ => exact assertRemaining_eq h

theorem outcome_n {k : Int × State → Status ι ρ} (hst : Ready neg ext st cs) :
    Comes D neg whole ext decodeN st cs (readRec D fuel (.atom .n) whole st k) k := by
  refine (outcome_byte (fun h => readRec_atom h) hst (fun h => by cases h)).bind fun {byte j st' cs'} hp adv budget => ?_
  have hlt := decodeByte_yields hp
  have hmask : byte &&& 0x7F = byte % 128 := Nat.and_two_pow_sub_one_eq_mod byte 7
  simp only [Int.toNat_natCast, and_0x80 hlt, hmask]
  by_cases hcont : 128 ≤ byte
  · have hmod : byte - 128 = byte % 128 := by omega
    simp only [if_pos hcont, hmod]
    exact outcome_more D whole k (show 7 < 8 by norm_num) (Nat.mod_lt _ (by norm_num)) (adv.ready hst budget)
  · simp only [if_neg hcont, Nat.mod_eq_of_lt (show byte < 128 by omega)]
    exact .ret (adv.ready hst budget) _ rfl

theorem outcome_z {k : Int × State → Status ι ρ} (hst : Ready neg ext st cs) :
    Comes D neg whole ext decodeZ st cs (readRec D fuel (.atom .z) whole st k) k := by
  refine (outcome_byte (fun h => readRec_atom h) hst (fun h => by cases h)).bind fun {byte j st' cs'} hp adv budget => ?_
  have hlt := decodeByte_yields hp
  have hmask : byte &&& 0x3F = byte % 64 := Nat.and_two_pow_sub_one_eq_mod byte 6
  simp only [Int.toNat_natCast, and_0x80 hlt, and_0x40 hlt, hmask, decide_eq_true_eq]
  by_cases hcont : 128 ≤ byte
  · have hmore := outcome_more D whole (fun r => k (if byte / 64 % 2 = 1 then -r.1 else r.1, r.2))
      (show 6 < 8 by norm_num) (show byte % 64 < 2 ^ 6 from Nat.mod_lt _ (by norm_num)) (adv.ready hst budget)
    simp only [if_pos hcont]
    exact hmore.of_map.map
  · simp only [if_neg hcont]
    exact .ret (adv.ready hst budget) _ rfl

theorem outcome_word (hpush : ∀ {st : State} (c : MBytes), P st → P (st.push c))
    (hwin : ∀ {st : State}, P st → Windowed (.atom a : Encoding ι _) st) (hatom : ∀ {st : State}, P st →
      atom (.awaitRec fuel whole (.atom a) st k) st a k = readAtom (.awaitRec fuel whole (.atom a) st k) size get st k)
    (hget : Gets size get conv) (hst : Ready neg ext st cs)
    (hP : P st) :
    Comes D neg whole ext (word size conv) st cs (readRec D fuel (.atom a) whole st k) k := by
  refine (Suspends.outcome (suspends_rec hpush fun h => ?_) hget hst hP).weaken
  exact (readRec_atom (hwin h)).trans (hatom h)

theorem outcome_variable {a : Atom MBytes} {k : MBytes × State → Status ι ρ} (hvar : a.classify = .variable)
    (hdec : decodeAtom a = fun input b => decodeBytes input.length input b)
    (hatom : ∀ {st : State} {r : Nat}, st.remainingBytes = some r → atom (.awaitRec fuel whole (.atom a) st k) st a k =
      fixedLengthBytes (.awaitRec fuel whole (.atom a) st k) st r k)
    (hst : Ready neg ext st cs) (hwin : Windowed (.atom a : Encoding ι _) st) :
    Comes D neg whole ext (decodeAtom a) st cs (readRec D fuel (.atom a) whole st k) k := by
  obtain ⟨r, hr⟩ := Option.ne_none_iff_exists'.mp (hwin hvar)
  have hword : decodeAtom a (window ext st cs) st.allowedBytes = decodeBytes r (window ext st cs) st.allowedBytes := by
    simp only [hdec, hst.length_window hr]
  refine Outcome.congr hword (outcome_word (P := fun st => st.remainingBytes = some r) (fun _ h => h) (fun h _ => ?_)
    (fun h => hatom h) (fun _ _ _ hw => hw) hst hr)
  rw [h]
  exact Option.some_ne_none r

theorem outcome_fixed (hk : a.classify ≠ .variable) (hatom : ∀ st : State,
      atom (.awaitRec fuel whole (.atom a) st k) st a k = readAtom (.awaitRec fuel whole (.atom a) st k) size get st k)
    (hget : Gets size get conv) (hst : Ready neg ext st cs) :
    Comes D neg whole ext (word size conv) st cs (readRec D fuel (.atom a) whole st k) k :=
  outcome_word (P := fun _ => True) (fun _ h => h) (fun _ h => absurd h hk) (fun _ => hatom _) hget hst trivial

theorem outcome_checked {get : MBytes → Nat → Except Exn β} {conv : MBytes → Except Exn β}
    {f : β → Except Exn α}
    (hk : a.classify ≠ .variable) (hatom : ∀ st : State,
      atom (.awaitRec fuel whole (.atom a) st k) st a k = readAtom (.awaitRec fuel whole (.atom a) st k) size get st next)
    (hget : Gets size get conv)
    (hnext : ∀ v st, (∃ w, f v = .ok w ∧ next (v, st) = k (w, st)) ∨ ∃ x err, f v = .error x ∧
      next (v, st) = .error err)
    (hst : Ready neg ext st cs) :
    Comes D neg whole ext ((word size conv).check f) st cs (readRec D fuel (.atom a) whole st k) k := by
  have hword : Outcome neg false ext (word size conv) st cs (verdict D cs (readRec D fuel (.atom a) whole st k)) _ :=
    Suspends.outcome (suspends_rec (P := Windowed (.atom a)) (fun _ h => h) fun h => (readRec_atom h).trans (hatom _)) hget
      hst
      fun h => absurd h hk
  refine Outcome.check hword.weaken (fun {v w st' cs'} hw => ?_) fun {v x st' cs'} hx => ?_
  · rcases hnext v st' with ⟨w', hw', hok⟩ | ⟨x, err, hx, -⟩
    · rw [hw] at hw'
      cases hw'
      rw [hok]
    · rw [hw] at hx
      cases hx
  · rcases hnext v st' with ⟨w', hw', -⟩ | ⟨_, err, -, herr⟩
    · rw [hx] at hw'
      cases hw'
    · rw [herr, verdict_error]

/-- One of the rules above for each atom. -/
theorem outcome_atom (D : Defs ι) (fuel : Nat) (whole : Bool) (a : Atom α) (hst : Ready neg ext st cs)
    (hwin : Windowed (.atom a : Encoding ι _) st) :
    Comes D neg whole ext (decodeAtom a) st cs (readRec D fuel (.atom a) whole st k) k := by
  cases a with
  | bool =>
    simp only [decodeAtom, decodeBool]
    exact Outcome.map (outcome_int D fuel whole .int8 (fun h => readRec_atom h) hst hwin).weaken
  | int8 | uint8 | int16 | uint16 | int31 =>
    exact (outcome_int D fuel whole _ (fun h => readRec_atom h) hst hwin).weaken
  | int32 =>
    simp only [decodeAtom]
    refine outcome_fixed (a := .int32) (by simp [Atom.classify]) (fun _ => rfl) (fun buffer ofs w hw => ?_) hst
    simp [getInt32, hw]
  | int64 =>
    simp only [decodeAtom]
    refine outcome_fixed (a := .int64) (by simp [Atom.classify]) (fun _ => rfl) (fun buffer ofs w hw => ?_) hst
    simp [getInt64, hw]
  | n => exact outcome_n hst
  | z => exact outcome_z hst
  | float =>
    refine outcome_fixed (a := .float) (by simp [Atom.classify]) (fun _ => rfl) (fun _ _ _ hw => getDouble_eq hw) hst
  | rangedInt r =>
    refine outcome_checked (a := .rangedInt r) (by simp [Atom.classify]) (fun _ => int_eq _ _ _ _)
      (fun _ _ _ hw => Reader.getInt_eq hw) (fun v st => ?_) hst
    simp only [inRange]
    generalize (if r.minimum > 0 then v + r.minimum else v) = v
    by_cases h : r.minimum ≤ v ∧ v ≤ r.maximum
    · exact .inl ⟨v, if_pos h, if_neg (not_not.mpr h)⟩
    · exact .inr ⟨_, _, if_neg h, if_pos h⟩
  | rangedFloat minimum maximum =>
    refine outcome_checked (a := .rangedFloat minimum maximum) (by simp [Atom.classify]) (fun _ => rfl)
      (fun _ _ _ hw => getDouble_eq hw) (fun v st => ?_) hst
    by_cases h : minimum ≤ v ∧ v ≤ maximum
    · exact .inl ⟨v, if_pos h, if_neg (not_not.mpr h)⟩
    · exact .inr ⟨_, _, if_neg h, if_pos h⟩
  | bytes kind =>
    cases kind with
    | fixed n pos =>
      exact outcome_fixed (a := .bytes (.fixed n pos)) (by simp [Atom.classify, Kind.Length.toKind]) (fun _ => rfl)
        (fun _ _ _ hw => hw) hst
    | «variable» => exact outcome_variable rfl rfl (fun h => by simp only [atom, withRemainingBytes, h]) hst hwin
  | string kind =>
    cases kind with
    | fixed n pos =>
      exact outcome_fixed (a := .string (.fixed n pos)) (by simp [Atom.classify, Kind.Length.toKind]) (fun _ => rfl)
        (fun _ _ _ hw => hw) hst
    | «variable» =>
      refine outcome_variable rfl rfl (fun h => ?_) hst hwin
      simp only [atom, withRemainingBytes, h]
      rfl
  | stringEnum cases =>
    refine outcome_checked (a := .stringEnum cases) (by simp [Atom.classify]) (fun _ => int_eq _ _ _ _)
      (fun _ _ _ hw => Reader.getInt_eq hw) (fun v st => ?_) hst
    rcases h : cases.arr[v.toNat]? with _ | w
    · exact .inr ⟨.readError .noCaseMatched, .noCaseMatched, by simp only [caseAt, h], by simp only [h]⟩
    · exact .inl ⟨w, by simp only [caseAt, h], by simp only [h]⟩

end Tezos.DataEncoding.StreamReader
