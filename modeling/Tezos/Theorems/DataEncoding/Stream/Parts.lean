import Tezos.Theorems.DataEncoding.Atoms
import Tezos.Theorems.DataEncoding.Stream.Atoms
import Tezos.Theorems.DataEncoding.Errors

/-! What encodings are made of, for the incremental reader: pairs, lists, windows and limits. -/

namespace Tezos.DataEncoding.StreamReader
open Lib Wire List Outcome Option

/-! ### Parts of encodings -/

section Parts
variable {ι : Type → Type} {ρ α β : Type} {D : Defs ι} {neg : Prop} {whole : Bool} {need : Prop}

/-- `read` relates to `p` from every state, where a window is known if there is a `need` of it. -/
def Refines (D : Defs ι) (neg : Prop) (whole : Bool) (need : Prop) (read : Step ι ρ α) (p : Decoder α) : Prop :=
  ∀ ⦃ext : MBytes⦄ ⦃st : State⦄ ⦃cs : List MBytes⦄ ⦃k : α × State → Status ι ρ⦄,
    Ready neg ext st cs →
    (need → st.remainingBytes ≠ none) →
      Outcome neg whole ext p st cs (verdict D cs (read st k)) fun v st' cs' => verdict D cs' (k (v, st'))

variable {cs : List MBytes} {j m sz : Nat} {st st' : State} {needLeft needRight : Prop} {p : Decoder α}
  {q : Decoder β} {read : Step ι ρ α} {ext : MBytes} {left : Bool → Step ι ρ α} {right : Bool → Step ι ρ β}
  {x : Int} {cs' : List MBytes} {v : α}

theorem Advances.windowed (h : Advances st cs j st' cs') (hwin : st.remainingBytes ≠ none) :
    st'.remainingBytes ≠ none := by
  rw [h.remaining]
  exact fun hnone => hwin (map_eq_none_iff.mp hnone)

theorem Advances.at_end {r : Nat} (h : Advances st cs j st' cs') (hr : st.remainingBytes = some r) :
    st'.remainingBytes = some 0 ↔ j = r := by
  have hwit := h.within r hr
  rw [h.remaining, hr, map_some, some.injEq]
  omega

theorem Refines.seq {left : Step ι ρ α} {right : Step ι ρ β} (hl : Refines D neg false needLeft left p)
    (hr : Refines D neg whole needRight right q) (hnl : needLeft → need) (hnr : needRight → need) :
    Refines D neg whole need (readSeq left right) (decodeSeq p q) := fun _ _ _ _ hst hwin =>
  (hl hst fun h => hwin (hnl h)).bind fun _ adv budget =>
    map (hr (adv.ready hst budget) fun h => adv.windowed (hwin (hnr h)))

theorem outcome_list (hp : Refines D neg false False read p) (error error' : ReadError)
    {k : List α × State → Status ι ρ} (rounds : Nat) :
    ∀ {ext : MBytes} {st : State} {cs : List MBytes} (acc : List α) (maxLength : Option Int), Ready neg ext st cs →
      st.remainingBytes ≠ none →
      Outcome neg whole ext (decodeList error p rounds maxLength) st cs
        (verdict D cs (readList error' read k rounds st acc maxLength))
        fun l st' cs' => verdict D cs' (k (acc.reverse ++ l, st')) := by
  induction rounds with
  | zero =>
    intro ext st cs acc maxLength _ _
    exact .raises (x := .diverges) (verdict_raised D cs fun _ h => by cases h) (fun _ h => by cases h)
      ⟨_, rfl, fun _ => rfl⟩
  | succ rounds ih =>
    intro ext st cs acc maxLength hst hwin
    obtain ⟨r, hr⟩ := ne_none_iff_exists'.mp hwin
    have hlen := hst.length_window hr
    simp only [readList, withRemainingBytes, hr]
    by_cases hzero : r = 0
    · have hnil : window ext st cs = [] := length_eq_zero_iff.mp (hlen.trans hzero)
      have hret : decodeList error p (rounds + 1) maxLength (window ext st cs) st.allowedBytes =
          Parser.ret [] (window ext st cs) st.allowedBytes := by
        simp only [decodeList, Parser.ifEmpty, if_pos hnil]
      simp only [if_pos hzero]
      exact congr hret (.ret hst [] (by rw [append_nil]))
    · have hnil : window ext st cs ≠ [] := fun h => hzero (hlen.symm.trans (length_eq_zero_iff.mpr h))
      simp only [if_neg hzero]
      by_cases hmax : maxLength = some 0
      · have hfail : decodeList error p (rounds + 1) maxLength (window ext st cs) st.allowedBytes =
            Parser.fail (.readError error) (window ext st cs) st.allowedBytes := by
          simp only [decodeList, Parser.ifEmpty, if_neg hnil, if_pos hmax]
        simp only [if_pos hmax]
        exact congr hfail (.fail (verdict_readError D cs error'))
      · have hnext : decodeList error p (rounds + 1) maxLength (window ext st cs) st.allowedBytes =
            p.bind (fun v => (decodeList error p rounds (maxLength.map (· - 1))).map (v :: ·)) (window ext st cs)
              st.allowedBytes := by
          simp only [decodeList, Parser.ifEmpty, if_neg hnil, if_neg hmax]
        simp only [if_neg hmax]
        refine congr hnext ((hp hst fun h => h.elim).bind fun {v j st' cs'} _ adv budget => map ?_)
        have hrest := ih (v :: acc) (maxLength.map (· - 1)) (adv.ready hst budget) (adv.windowed hwin)
        simp only [reverse_cons, append_assoc, singleton_append] at hrest
        exact hrest

theorem Refines.all (hp : Refines D neg false False read p) (error error' : ReadError) (maxLength : Option Int) :
    Refines D neg whole True (readAll error' read maxLength) (decodeAll error p maxLength) :=
  fun ext st cs k hst hwin => by
    obtain ⟨r, hr⟩ := ne_none_iff_exists'.mp (hwin trivial)
    have hroun : decodeAll error p maxLength (window ext st cs) st.allowedBytes =
        decodeList error p (Reader.listRounds maxLength r) maxLength (window ext st cs) st.allowedBytes := by
      simp only [decodeAll, hst.length_window hr, Reader.listRounds]
    simp only [readAll, withRemainingBytes, hr]
    exact congr hroun (outcome_list hp error error' _ [] maxLength hst (hwin trivial))

theorem Ready.shrink (h : Ready neg ext st cs) (hm : m ≤ (data st cs ++ ext).length) :
    Ready neg ext { st with remainingBytes := some m } cs := by
  refine ⟨h.stream, fun r hr => ?_, h.budget⟩
  cases hr
  exact hm

theorem window_shrink (hm : ∀ r, st.remainingBytes = some r → m ≤ r) :
    window ext { st with remainingBytes := some m } cs = (window ext st cs).take m := by
  rcases hr : st.remainingBytes with _ | r
  · rw [window_none hr]; rfl
  · rw [window_some hr, take_take, min_eq_left (hm r hr)]
    rfl

/-- The checks of a pair of a fixed size: where the stream does not know its end, they are made on what it
    has, but the parts take no less. -/
theorem Refines.fixedPair {leftKind rightKind : Kind}
    (hseq : Refines D neg whole need (readSeq (left false) (right whole)) (decodeSeq p q))
    (hsize : ∀ {input a v k}, decodeSeq p q input a = .ok (v, k) → k = sz)
    (herrs : ∀ input a, OnlyReadErrors (decodeSeq p q input a)) :
    Refines D neg whole need (readPair (.fixed sz) leftKind rightKind whole left right)
      (decodePair (.fixed sz) leftKind rightKind p q) := fun ext st cs k hst hwin => by
  have hgrd : ∀ {v j}, decodePair (.fixed sz) leftKind rightKind p q (window ext st cs) st.allowedBytes = .ok (v, j) ↔
      sz ≤ (window ext st cs).length ∧ Allowed st.allowedBytes sz ∧
        decodeSeq p q (window ext st cs) st.allowedBytes = .ok (v, j) := fun {v j} => by
    simp only [decodePair, Parser.guard, bind_eq_ok, needs_ok, allows_ok, exists_const, and_assoc]
  by_cases hr : ∀ r, st.remainingBytes = some r → sz ≤ r
  · by_cases ha : Allowed st.allowedBytes sz
    · simp only [readPair, checkRemainingBytes_ok hr, checkAllowedBytes_ok ha]
      rcases hseq (k := k) hst hwin with @⟨v, j, st', cs', hp, adv, budget, hV⟩ | ⟨hV, hp⟩ | ⟨hV, hp⟩ |
          ⟨hV, other, hp⟩
      · have hj := hsize hp
        subst hj
        exact .reads (hgrd.mpr ⟨le_length_window adv.le hr, ha, hp⟩) adv budget hV
      · exact .awaits hV fun v j h => hp v j (hgrd.mp h).2.2
      · exact .fails hV fun v j h => hp v j (hgrd.mp h).2.2
      · obtain ⟨y, hy, hx⟩ := hp
        cases hpair : decodePair (.fixed sz) leftKind rightKind p q (window ext st cs) st.allowedBytes with
        | ok r =>
          rw [(hgrd.mp hpair).2.2] at hy
          cases hy
        | error y' =>
          refine .raises hV other ⟨y', hpair, fun hext => ?_⟩
          obtain ⟨err, herr⟩ := herrs _ _ _ hy
          exact absurd ((hx hext).symm.trans herr) (other err)
    · rw [Allowed] at ha
      push Not at ha
      obtain ⟨x, hx, hlt⟩ := ha
      simp only [readPair, checkRemainingBytes_ok hr, checkAllowedBytes_error hx hlt]
      refine .fails (verdict_readError D cs _) fun v j h => ?_
      have hle := (hgrd.mp h).2.1 x hx
      omega
  · push Not at hr
    obtain ⟨r, hr, hlt⟩ := hr
    simp only [readPair, checkRemainingBytes_error hr hlt]
    refine .fails (verdict_readError D cs _) fun v j h => ?_
    have hle := (hgrd.mp h).1
    rw [hst.length_window hr] at hle
    omega

/-- What `Dynamic_size` does at the end of its window. -/
def closeWindow (D : Defs ι) (remaining : Option Nat) (k : α × State → Status ι ρ) (v : α) (st : State)
    (cs : List MBytes) :
    Verdict ρ :=
  verdict D cs (if st.remainingBytes ≠ some 0 then .error .extraBytes else k (v, { st with remainingBytes := remaining }))

section Window
variable {k : α × State → Status ι ρ} {V : Verdict ρ} {remaining : Option Nat}

theorem closeWindow_of_advances {st' : State} {j : Nat}
    (adv : Advances { st with remainingBytes := some sz } cs j st' cs') (hj : j ≠ sz) :
    closeWindow D remaining k v st' cs' = .fails := by
  rw [closeWindow, if_pos (mt (adv.at_end rfl).mp hj), verdict_error]

theorem Outcome.window (hr : ∀ r, st.remainingBytes = some r → sz ≤ r) (ha : Allowed st.allowedBytes sz)
    (hle : sz ≤ (data st cs ++ ext).length)
    (h : Outcome neg true ext p { st with remainingBytes := some sz } cs V
      (closeWindow D (st.remainingBytes.map (· - sz)) k)) :
    Outcome neg whole ext (decodeWindow p sz) st cs V fun v st' cs' => verdict D cs' (k (v, st')) := by
  have hlen : sz ≤ (StreamReader.window ext st cs).length := by
    rcases hrem : st.remainingBytes with _ | r
    · rwa [window_none hrem]
    · have hsz := hr r hrem
      rw [window_some hrem, length_take]
      omega
  have hshr : p (StreamReader.window ext { st with remainingBytes := some sz } cs) st.allowedBytes =
      p ((StreamReader.window ext st cs).take sz) st.allowedBytes := by rw [window_shrink hr]
  refine h.lift (fun {v j st' cs'} hv adv budget => ?_) (fun {w m} hw => ?_) fun {y} hy => ?_
  · by_cases hj : j = sz
    · subst hj
      have hdone := (adv.at_end rfl).mpr rfl
      have adv' : Advances st cs j { st' with remainingBytes := st.remainingBytes.map (· - j) } cs' :=
        ⟨adv.stream, adv.drop, adv.le, hr, rfl, adv.allowed, adv.total⟩
      refine .reads (decodeWindow_ok.mpr ⟨hlen, ha, hshr.symm.trans hv, rfl⟩) adv' budget ?_
      rw [closeWindow, if_neg (not_not.mpr hdone)]
    · refine .fails (closeWindow_of_advances adv hj) fun w m h => ?_
      obtain ⟨-, -, hw, -⟩ := decodeWindow_ok.mp h
      cases (hshr.symm.trans hv).symm.trans hw
      exact absurd rfl hj
  · obtain ⟨-, -, hw', rfl⟩ := decodeWindow_ok.mp hw
    refine ⟨w, m, hshr.trans hw', id, fun r _ hr' hne => ?_⟩
    cases hr'
    exact absurd rfl hne
  · have hnds : needs (StreamReader.window ext st cs) sz = .ok () := needs_ok.mpr hlen
    have hall : allows st.allowedBytes sz = .ok () := allows_ok.mpr ha
    simp only [decodeWindow, hnds, hall, ok_bind, hshr.symm.trans hy, error_bind]

/-- A window larger than all the bytes, in a stream that does not know its end: other bytes `ext'` fill it. -/
theorem Outcome.window_short {ext' : MBytes} (hr : st.remainingBytes = none)
    (hlt : (data st cs ++ ext).length < sz) (hsz : sz < 2 ^ 31)
    (h : Outcome neg true ext' p { st with remainingBytes := some sz } cs V (closeWindow D remaining k)) :
    Outcome neg whole ext (decodeWindow p sz) st cs V fun v st' cs' => verdict D cs' (k (v, st')) := by
  have hsh : ∀ {v j},
      decodeWindow p sz (StreamReader.window ext st cs) st.allowedBytes ≠ .ok (v, j) := fun {v j} h => by
    have hle := (decodeWindow_ok.mp h).1
    rw [window_none hr] at hle
    omega
  rw [length_append] at hlt
  rcases h with @⟨v, j, st', cs', hv, adv, budget, hV⟩ | ⟨hV, -⟩ | ⟨hV, -⟩ | ⟨hV, other, -⟩
  · have hle : j ≤ (data st cs).length := adv.le
    exact .fails (hV.trans (closeWindow_of_advances adv (by omega))) fun v j h => absurd h hsh
  · exact .awaits hV fun v j h => absurd h hsh
  · exact .fails hV fun v j h => absurd h hsh
  · have hnds : needs (StreamReader.window ext st cs) sz = .error (.readError .notEnoughData) := by
      refine if_pos ?_
      rw [window_none hr, length_append]
      exact hlt
    refine .raises hV other ⟨.readError .notEnoughData, ?_, fun hext => by omega⟩
    simp only [decodeWindow, hnds, error_bind]

end Window

theorem Refines.window (read : Bool → Step ι ρ α) (hp : Refines D neg true need (read true) p) (hsz : sz < 2 ^ 31) :
    Refines D neg whole False (readWindow sz read) (decodeWindow p sz) := fun ext st cs k hst _ => by
  by_cases hr : ∀ r, st.remainingBytes = some r → sz ≤ r
  · by_cases ha : Allowed st.allowedBytes sz
    · have ha' : Allowed ({ st with remainingBytes := some sz } : State).allowedBytes sz := ha
      simp only [readWindow, checkRemainingBytes_ok hr, checkAllowedBytes_ok ha']
      by_cases hle : sz ≤ (data st cs ++ ext).length
      · exact Outcome.window hr ha hle (hp (hst.shrink hle) fun _ h => by cases h)
      · have hnone : st.remainingBytes = none := by
          rcases hrem : st.remainingBytes with _ | r
          · rfl
          · exact absurd ((hr r hrem).trans (hst.enough r hrem)) hle
        have hst' : Ready neg (List.replicate sz 0) { st with remainingBytes := some sz } cs := by
          refine ⟨hst.stream, fun r hr => ?_, hst.budget⟩
          cases hr
          rw [length_append, length_replicate]
          omega
        exact window_short hnone (Nat.lt_of_not_le hle) hsz (hp hst' fun _ h => by cases h)
    · rw [Allowed] at ha
      push Not at ha
      obtain ⟨x, hx, hlt⟩ := ha
      have hx' : ({ st with remainingBytes := some sz } : State).allowedBytes = some x := hx
      simp only [readWindow, checkRemainingBytes_ok hr, checkAllowedBytes_error hx' hlt]
      refine .fails (verdict_readError D cs _) fun v j h => ?_
      have hle := (decodeWindow_ok.mp h).2.1 x hx
      omega
  · push Not at hr
    obtain ⟨r, hr, hlt⟩ := hr
    simp only [readWindow, checkRemainingBytes_error hr hlt]
    refine .fails (verdict_readError D cs _) fun v j h => ?_
    have hle := (decodeWindow_ok.mp h).1
    rw [hst.length_window hr] at hle
    omega

/-! The limit of `Check_size`. -/

/-- What `Check_size` does once a value is read under the limit `x`. -/
def restore (old : Option Int) (x : Int) (k : α × State → Status ι ρ) (r : α × State) : Status ι ρ :=
  match old with
  | none => k (r.1, { r.2 with allowedBytes := none })
  | some oldLimit =>
    match r.2.allowedBytes with
    | none => .raised .assertFailure
    | some remaining => k (r.1, { r.2 with allowedBytes := some (oldLimit - (x - remaining)) })

theorem restore_eq {old : Option Int} {k : α × State → Status ι ρ} (h : st'.allowedBytes = some (x - j)) :
    restore old x k (v, st') = k (v, { st' with allowedBytes := spend old j }) := by
  rcases old with _ | old
  · rfl
  · simp only [restore, h, spend_some]
    rw [show x - (x - (j : Int)) = j by omega]

theorem readCheckSize_eq {limit : Int} (hx : limitTo st.allowedBytes limit = some x) (whole : Bool) (read : Step ι ρ α)
    (k : α × State → Status ι ρ) :
    (∃ r, whole = true ∧ st.remainingBytes = some r ∧ x < r ∧
      readCheckSize limit whole read st k = .raised (.readError .sizeLimitExceeded)) ∨
      readCheckSize limit whole read st k = read { st with allowedBytes := some x } (restore st.allowedBytes x k) := by
  have hlimit : readCheckSize limit whole read st k =
      if st.remainingBytes.any fun remaining => whole && decide (x < remaining) then .raised (.readError .sizeLimitExceeded)
      else read { st with allowedBytes := some x } (restore st.allowedBytes x k) := by
    unfold readCheckSize restore
    rcases ha : st.allowedBytes with _ | old
    · rw [ha] at hx
      cases hx
      cases st.remainingBytes <;> rfl
    · rw [ha] at hx
      cases hx
      cases st.remainingBytes <;> rfl
  rw [hlimit]
  rcases hr : st.remainingBytes with _ | r
  · exact .inr rfl
  · by_cases hlrg : whole = true ∧ x < r
    · exact .inl ⟨r, hlrg.1, rfl, hlrg.2, if_pos (by simpa using hlrg)⟩
    · exact .inr (if_neg (by simpa using hlrg))

theorem Refines.limit {limit : Int} (hp : Refines D neg whole need read p)
    (hwithin : ∀ {input x v k}, p input (some x) = .ok (v, k) → k = 0 ∨ (k : Int) ≤ x)
    (hlimit : ¬neg → 0 ≤ limit) :
    Refines D neg whole need (readCheckSize limit whole read) (p.limit limit) := fun ext st cs k hst hwin => by
  obtain ⟨x, hx, hnonn, hold⟩ : ∃ x, limitTo st.allowedBytes limit = some x ∧ (¬neg → 0 ≤ x) ∧
      ∀ old, st.allowedBytes = some old → x ≤ old := by
    rcases ha : st.allowedBytes with _ | old
    · exact ⟨limit, rfl, hlimit, fun _ h => by cases h⟩
    · refine ⟨min old limit, rfl, fun hneg => ?_, fun _ h => ?_⟩
      · have hold := hst.budget hneg old ha
        have hnonn := hlimit hneg
        omega
      · cases h
        exact min_le_left old limit
  have hlim : p.limit limit (StreamReader.window ext st cs) st.allowedBytes =
      p (StreamReader.window ext st cs) (some x) := by
    simp only [Parser.limit, hx]
  rcases readCheckSize_eq hx whole read k with ⟨r, hwhl, hr, hlrg, hread⟩ | hread <;> rw [hread]
  · refine .fails (verdict_readError D cs _) fun v j hv => ?_
    by_cases hneg : neg
    · exact .inl hneg
    · have hj := hwithin (hlim.symm.trans hv)
      have hpos := hnonn hneg
      exact .inr ⟨r, hwhl, hr, by omega⟩
  · have hst' : Ready neg ext { st with allowedBytes := some x } cs :=
      ⟨hst.stream, hst.enough, fun hneg y hy => by cases hy; exact hnonn hneg⟩
    refine (hp (k := restore st.allowedBytes x k) hst' hwin).lift (fun {v j st' cs'} hv adv budget => ?_)
      (fun {v j} hv => ⟨v, j, hlim.symm.trans hv, id, fun r hwhl hr hne => ⟨r, hwhl, hr, hne⟩⟩)
        fun hy => hlim.trans hy
    have adv' : Advances st cs j { st' with allowedBytes := spend st.allowedBytes j } cs' :=
      ⟨adv.stream, adv.drop, adv.le, adv.within, adv.remaining, rfl, adv.total⟩
    rw [restore_eq adv.allowed]
    refine .reads (hlim.trans hv) adv' (fun hneg y hy => ?_) rfl
    obtain ⟨old, ha, rfl⟩ := map_eq_some_iff.mp hy
    have hle := hold old ha
    have hleft := budget hneg (x - j) adv.allowed
    omega

/-! A pair read from both ends. -/

section Ends
variable {V : Verdict ρ} {n size : Nat}

theorem Outcome.right_end {st' : State} {k : (α × β) × State → Status ι ρ}
    (hst : Ready neg ext st cs) (hr : st.remainingBytes = some size) (hn : n ≤ size)
    (adv : Advances { st with remainingBytes := some (size - n) } cs (size - n) st' cs')
    (hv : p ((StreamReader.window ext st cs).take (size - n)) st.allowedBytes = .ok (v, size - n))
    (h : Outcome neg true ext q { st' with remainingBytes := some n } cs' V fun w st'' cs'' =>
      verdict D cs'' (if st''.remainingBytes ≠ some 0 then .raised .assertFailure else k ((v, w), st''))) :
    Outcome neg whole ext (decodeEnds n p q) st cs V fun u st'' cs'' => verdict D cs'' (k (u, st'')) := by
  have adv' : Advances st cs (size - n) { st' with remainingBytes := some n } cs' := by
    refine ⟨adv.stream, adv.drop, adv.le, fun r hr' => ?_, ?_, adv.allowed, adv.total⟩
    · rw [hr] at hr'
      cases hr'
      omega
    · rw [hr]
      exact congrArg some (show n = size - (size - n) by omega)
  have hends : decodeEnds n p q (StreamReader.window ext st cs) st.allowedBytes =
      (q (StreamReader.window ext { st' with remainingBytes := some n } cs')
        ({ st' with remainingBytes := some n } : State).allowedBytes >>= fun r =>
          if r.2 ≠ n then .error .assertFailure else .ok ((v, r.1), size - n + r.2)) := by
    have hlen := hst.length_window hr
    have hnds : needs (StreamReader.window ext st cs) n = .ok () := needs_ok.mpr (hlen ▸ hn)
    rw [adv'.window, adv'.allowed]
    simp only [decodeEnds, hlen, hnds, ok_bind, hv, ne_eq, not_true_eq_false, if_false, pure_eq_ok]
  have hrgt : ∀ {u m}, decodeEnds n p q (StreamReader.window ext st cs) st.allowedBytes = .ok (u, m) →
      q (StreamReader.window ext { st' with remainingBytes := some n } cs')
        ({ st' with remainingBytes := some n } : State).allowedBytes = .ok (u.2, n) ∧ m = size := fun {u m} hu => by
    rw [hends] at hu
    obtain ⟨⟨w, j⟩, hw, hu⟩ := bind_eq_ok.mp hu
    simp only at hu
    split at hu
    · cases hu
    · rename_i hj
      rw [not_not] at hj
      cases hu
      rw [hj] at hw ⊢
      exact ⟨hw, by omega⟩
  refine h.lift (fun {w j st'' cs''} hw adv₂ budget => ?_) (fun {u m} hu => ?_) fun hy => ?_
  · by_cases hj : j = n
    · rw [if_neg (not_not.mpr ((adv₂.at_end rfl).mpr hj))]
      refine .reads ?_ (adv'.trans adv₂) budget rfl
      rw [hends, hw, ok_bind, if_neg (not_not.mpr hj)]
    · rw [if_pos (mt (adv₂.at_end rfl).mp hj)]
      refine .raises (verdict_raised D cs'' fun _ h => by cases h) (fun _ h => by cases h) ⟨_, ?_, fun _ => rfl⟩
      rw [hends, hw, ok_bind, if_pos hj]
  · obtain ⟨hu₂, rfl⟩ := hrgt hu
    refine ⟨u.2, n, hu₂, fun hlt => ?_, fun r _ hr' hne => ?_⟩
    · rw [adv'.length_data] at hlt
      omega
    · cases hr'
      exact absurd rfl hne
  · rw [hends, hy, error_bind]

end Ends

theorem Refines.ends {n : Nat} (hl : Refines D neg true needLeft (left true) p)
    (hr : Refines D neg true needRight (right true) q) :
    Refines D neg whole True (readVariablePair .variable (.fixed n) left right) (decodeEnds n p q) :=
  fun ext st cs k hst hwin => by
    obtain ⟨size, hsize⟩ := ne_none_iff_exists'.mp (hwin trivial)
    have hlen := hst.length_window hsize
    simp only [readVariablePair, withRemainingBytes, hsize]
    by_cases hn : n > size
    · rw [if_pos hn]
      refine .fails (verdict_error D cs _) fun v j h => ?_
      have hle := (decodeEnds_ok.mp h).1
      omega
    · rw [if_neg hn]
      have hst₁ := hst.shrink (m := size - n) (by have := hst.enough size hsize; omega)
      have hwind : StreamReader.window ext { st with remainingBytes := some (size - n) } cs =
          (StreamReader.window ext st cs).take (size - n) := window_shrink fun r hr => by
        rw [hsize] at hr
        cases hr
        omega
      have hnds : needs (StreamReader.window ext st cs) n = .ok () := needs_ok.mpr (by omega)
      have hleft : p (StreamReader.window ext { st with remainingBytes := some (size - n) } cs) st.allowedBytes =
          p ((StreamReader.window ext st cs).take (size - n)) st.allowedBytes := by rw [hwind]
      refine (hl hst₁ fun _ h => by cases h).lift (fun {v j st' cs'} hv adv budget => ?_) (fun {u m} hu => ?_)
        fun {y} hy => ?_
      · by_cases hj : j = size - n
        · subst hj
          simp only [if_neg (not_not.mpr ((adv.at_end rfl).mpr rfl))]
          have hst₂ : Ready neg ext { st' with remainingBytes := some n } cs' := by
            refine (adv.ready hst₁ budget).shrink ?_
            have hle := adv.le
            have heng := hst.enough size hsize
            rw [length_append] at heng ⊢
            rw [adv.length_data]
            have hdata : data { st with remainingBytes := some (size - n) } cs = data st cs := rfl
            rw [hdata] at hle ⊢
            omega
          exact right_end hst hsize (Nat.le_of_not_lt hn) adv (hleft.symm.trans hv) (hr hst₂ fun _ h => by cases h)
        · simp only [if_pos (mt (adv.at_end rfl).mp hj)]
          refine .raises (verdict_raised D cs' fun _ h => by cases h) (fun _ h => by cases h) ⟨_, ?_, fun _ => rfl⟩
          simp only [decodeEnds, hlen, hnds, ok_bind, hleft.symm.trans hv]
          exact if_pos hj
      · obtain ⟨hle, hu₁, -, rfl⟩ := decodeEnds_ok.mp hu
        rw [hlen] at hu₁ hle ⊢
        refine ⟨_, _, hleft.trans hu₁, fun hlt => hlt.trans_le (Nat.sub_le size n), fun r _ hr' hne => ?_⟩
        cases hr'
        exact absurd rfl hne
      · simp only [decodeEnds, hlen, hnds, ok_bind, hleft.symm.trans hy, error_bind]

end Parts

end Tezos.DataEncoding.StreamReader
