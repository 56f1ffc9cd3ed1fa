import Tezos.DataEncoding.StreamReader
import Tezos.DataEncoding.Wire.Decode
import Tezos.Theorems.Stdlib.BinaryStream

/-! What a run of the incremental reader comes to, against a decoder that is given a window of the bytes that were
    pushed, of those to come, and of any that may follow. -/

namespace Tezos.DataEncoding.StreamReader
open Lib Wire List Parser

section Verdict
variable {ι : Type → Type} {ρ : Type}

/-- The end of a run, where all the errors are one, raised or not, and the bytes that are not read are one
    string, of a stream that is `valid`. -/
inductive Verdict (ρ : Type)
  | success (result : ρ) (size : Nat) (valid : Prop) (rest : MBytes)
  | awaits
  | fails
  | raised (x : Exn)

def Status.verdict (rest : List MBytes) : Status ι ρ → Verdict ρ
  | .success result size stream => .success result size stream.Valid (stream.contents ++ rest.flatten)
  | .awaitRec _ _ _ _ _ | .awaitSkip _ _ _ | .awaitZ _ _ _ _ _ => .awaits
  | .error _ | .raised (.readError _) => .fails
  | .raised x => .raised x

def verdict (D : Defs ι) (chunks : List MBytes) (status : Status ι ρ) : Verdict ρ :=
  (feed D chunks status).1.verdict (feed D chunks status).2

variable (D : Defs ι) {status : Status ι ρ}

theorem verdict_awaits {D : Defs ι} (h : status.awaits = true) : verdict D [] status = .awaits := by
  cases status with
  | awaitRec | awaitSkip | awaitZ => rfl
  | _ => cases h

theorem verdict_cons (h : status.awaits = true) (chunk : MBytes) (chunks : List MBytes) :
    verdict D (chunk :: chunks) status = verdict D chunks (resume D status chunk) := by
  simp only [verdict, feed, h, if_true]

theorem verdict_of_not_awaits (h : status.awaits = false) (chunks : List MBytes) :
    verdict D chunks status = status.verdict chunks := by
  cases chunks with
  | nil => rfl
  | cons => simp only [verdict, feed, h, Bool.false_eq_true, if_false]

section
variable (chunks : List MBytes)
include chunks

theorem verdict_success (result : ρ) (size : Nat) (stream : BinaryStream) :
    verdict D chunks (.success result size stream : Status ι ρ) =
      .success result size stream.Valid (stream.contents ++ chunks.flatten) :=
  verdict_of_not_awaits D rfl chunks

theorem verdict_error (err : ReadError) :
    verdict D chunks (.error err : Status ι ρ) = .fails := verdict_of_not_awaits D rfl chunks

theorem verdict_readError (err : ReadError) :
    verdict D chunks (.raised (.readError err) : Status ι ρ) = .fails := verdict_of_not_awaits D rfl chunks

theorem verdict_raised {x : Exn} (h : ∀ err, x ≠ .readError err) :
    verdict D chunks (.raised x : Status ι ρ) = .raised x := by
  rw [verdict_of_not_awaits D rfl chunks]
  cases x with
  | readError err => exact absurd rfl (h err)
  | _ => rfl

theorem verdict_handle (status : Status ι ρ) : verdict D chunks status.handle = verdict D chunks status := by
  cases status with
  | raised x =>
    cases x with
    | readError err => rw [Status.handle, verdict_error, verdict_readError]
    | _ => rfl
  | _ => rfl

end

end Verdict

/-! ### States as windows -/

def data (st : State) (cs : List MBytes) : MBytes := st.stream.contents ++ cs.flatten

/-- The bytes that may still be read, `ext` being those that follow the chunks. -/
def window (ext : MBytes) (st : State) (cs : List MBytes) : MBytes :=
  match st.remainingBytes with
  | none => data st cs ++ ext
  | some r => (data st cs ++ ext).take r

def NonNeg (a : Option Int) : Prop := ∀ x, a = some x → 0 ≤ x

/-- The stream is valid and has the bytes of the window, and unless `neg` the budget is not negative. -/
structure Ready (neg : Prop) (ext : MBytes) (st : State) (cs : List MBytes) : Prop where
  stream : st.stream.Valid
  enough : ∀ r, st.remainingBytes = some r → r ≤ (data st cs ++ ext).length
  budget : ¬neg → NonNeg st.allowedBytes

/-- `j` bytes were read between two states, and chunks were pushed as they were needed. -/
structure Advances (st : State) (cs : List MBytes) (j : Nat) (st' : State) (cs' : List MBytes) : Prop where
  stream : st'.stream.Valid
  drop : data st' cs' = (data st cs).drop j
  le : j ≤ (data st cs).length
  within : ∀ r, st.remainingBytes = some r → j ≤ r
  remaining : st'.remainingBytes = st.remainingBytes.map (· - j)
  allowed : st'.allowedBytes = spend st.allowedBytes j
  total : st'.totalRead = st.totalRead + j

section Windows
variable {neg : Prop} {ext : MBytes} {st st' st'' : State} {cs cs' cs'' : List MBytes} {j j' : Nat} {r : Nat}
  {size : Nat}

theorem data_push (st : State) (c : MBytes) (cs : List MBytes) : data (st.push c) cs = data st (c :: cs) := by
  rw [data, data, State.push, BinaryStream.contents_push, flatten_cons, append_assoc]

theorem window_push (ext : MBytes) (st : State) (c : MBytes) (cs : List MBytes) :
    window ext (st.push c) cs = window ext st (c :: cs) := by
  simp only [window, data_push]
  rfl

theorem window_none (h : st.remainingBytes = none) : window ext st cs = data st cs ++ ext := by
  simp only [window, h]

theorem window_some (h : st.remainingBytes = some r) : window ext st cs = (data st cs ++ ext).take r := by
  simp only [window, h]

theorem Ready.length_window (h : Ready neg ext st cs) (hr : st.remainingBytes = some r) :
    (window ext st cs).length = r := by
  have hle := h.enough r hr
  rw [window_some hr, length_take]
  omega

theorem Ready.push (h : Ready neg ext st cs) (c : MBytes) {cs' : List MBytes} (hcs : cs = c :: cs') :
    Ready neg ext (st.push c) cs' := by
  subst hcs
  refine ⟨h.stream.push c, fun r hr => ?_, h.budget⟩
  rw [data_push]
  exact h.enough r hr

theorem le_length_window (hdata : size ≤ (data st cs).length)
    (hwit : ∀ r, st.remainingBytes = some r → size ≤ r) : size ≤ (window ext st cs).length := by
  rcases hr : st.remainingBytes with _ | r
  · rw [window_none hr, length_append]
    omega
  · have hsize := hwit r hr
    rw [window_some hr, length_take, length_append]
    omega

theorem take_window (hdata : size ≤ (data st cs).length)
    (hwit : ∀ r, st.remainingBytes = some r → size ≤ r) : (window ext st cs).take size = (data st cs).take size := by
  rcases hr : st.remainingBytes with _ | r
  · rw [window_none hr, take_append_of_le_length hdata]
  · rw [window_some hr, take_take, min_eq_left (hwit r hr), take_append_of_le_length hdata]

variable (h : Advances st cs j st' cs')
include h

theorem Advances.length_data : (data st' cs').length = (data st cs).length - j := by
  rw [h.drop, length_drop]

theorem Advances.window (ext : MBytes) : window ext st' cs' = (window ext st cs).drop j := by
  have hdata : data st' cs' ++ ext = (data st cs ++ ext).drop j := by
    rw [h.drop, drop_append_of_le_length h.le]
  rcases hr : st.remainingBytes with _ | r
  · have hr' : st'.remainingBytes = none := by rw [h.remaining, hr]; rfl
    rw [window_none hr', window_none hr, hdata]
  · have hr' : st'.remainingBytes = some (r - j) := by rw [h.remaining, hr]; rfl
    rw [window_some hr', window_some hr, hdata, drop_take]

theorem Advances.ready (hst : Ready neg ext st cs) (hbud : ¬neg → NonNeg st'.allowedBytes) : Ready neg ext st' cs' := by
  refine ⟨h.stream, fun r' hr' => ?_, hbud⟩
  rw [h.remaining] at hr'
  obtain ⟨r, hr, rfl⟩ := Option.map_eq_some_iff.mp hr'
  have hle := hst.enough r hr
  rw [length_append] at hle ⊢
  rw [h.length_data]
  omega

theorem Advances.trans (h' : Advances st' cs' j' st'' cs'') : Advances st cs (j + j') st'' cs'' := by
  have hle := h'.le
  have hj := h.le
  rw [h.length_data] at hle
  refine ⟨h'.stream, by rw [h'.drop, h.drop, drop_drop], by omega, fun r hr => ?_, ?_, ?_, ?_⟩
  · have hr' : st'.remainingBytes = some (r - j) := by rw [h.remaining, hr]; rfl
    have hj' := h'.within _ hr'
    have hwit := h.within r hr
    omega
  · rw [h'.remaining, h.remaining, Option.map_map]
    congr 1
    funext r
    simp only [Function.comp]
    omega
  · rw [h'.allowed, h.allowed, spend_spend]
  · rw [h'.total, h.total, add_assoc]

omit h

theorem Advances.refl (h : st.stream.Valid) (cs : List MBytes) : Advances st cs 0 st cs :=
  ⟨h, rfl, Nat.zero_le _, fun _ _ => Nat.zero_le _, by cases st.remainingBytes <;> rfl, (spend_zero _).symm, rfl⟩

theorem Advances.of_push {c : MBytes} (h : Advances (st.push c) cs j st' cs') : Advances st (c :: cs) j st' cs' := by
  have hle := h.le
  have hdata := h.drop
  rw [data_push] at hle hdata
  exact ⟨h.stream, hdata, hle, h.within, h.remaining, h.allowed, h.total⟩

end Windows

/-! ### Outcomes -/

section Outcome
variable {ρ α β : Type} {neg : Prop} {whole : Bool} {ext : MBytes} {st : State} {cs : List MBytes} {V : Verdict ρ}

/-- How a run that comes to `V` relates to the decoder `p`, from a state and with chunks to come; `K` is what it
    comes to from where a value was read. It goes on from the bytes that `p` takes; it waits if `p` fails or
    takes more bytes than there are; it fails if `p` fails, or if it may tell that `p` does not take the whole
    window, or if `neg`; where it raises any other exception `p` fails, with the same one provided that enough
    bytes follow the chunks for all the sizes that a word can announce. -/
inductive Outcome (neg : Prop) (whole : Bool) (ext : MBytes) (p : Decoder α) (st : State) (cs : List MBytes)
    (V : Verdict ρ) (K : α → State → List MBytes → Verdict ρ) : Prop
  | reads {v : α} {j : Nat} {st' : State} {cs' : List MBytes} (hp : p (window ext st cs) st.allowedBytes = .ok (v, j))
      (adv : Advances st cs j st' cs') (budget : ¬neg → NonNeg st'.allowedBytes) (hV : V = K v st' cs')
  | awaits (hV : V = .awaits)
      (hp : ∀ v j, p (window ext st cs) st.allowedBytes = .ok (v, j) → (data st cs).length < j)
  | fails (hV : V = .fails)
      (hp : ∀ v j, p (window ext st cs) st.allowedBytes = .ok (v, j) →
        neg ∨ ∃ r, whole = true ∧ st.remainingBytes = some r ∧ j ≠ r)
  | raises {x : Exn} (hV : V = .raised x) (other : ∀ err, x ≠ .readError err)
      (hp : ∃ y, p (window ext st cs) st.allowedBytes = .error y ∧ (2 ^ 31 ≤ ext.length → y = x))

namespace Outcome

variable {K : α → State → List MBytes → Verdict ρ} {p : Decoder α}
  {K' : β → State → List MBytes → Verdict ρ}
  {f : α → β}

theorem of_push {c : MBytes} (h : Outcome neg whole ext p (st.push c) cs V K) :
    Outcome neg whole ext p st (c :: cs) V K := by
  rcases h with ⟨hp, adv, budget, hV⟩ | ⟨hV, hp⟩ | ⟨hV, hp⟩ | ⟨hV, other, hp⟩
  · rw [window_push] at hp
    exact .reads hp adv.of_push budget hV
  · rw [window_push, data_push] at hp
    exact .awaits hV hp
  · rw [window_push] at hp
    exact .fails hV hp
  · rw [window_push] at hp
    exact .raises hV other hp

theorem congr {q : Decoder α} (heq : p (window ext st cs) st.allowedBytes = q (window ext st cs) st.allowedBytes)
    (h : Outcome neg whole ext q st cs V K) : Outcome neg whole ext p st cs V K := by
  rcases h with ⟨hp, adv, budget, hV⟩ | ⟨hV, hp⟩ | ⟨hV, hp⟩ | ⟨hV, other, hp⟩ <;> rw [← heq] at hp
  · exact .reads hp adv budget hV
  · exact .awaits hV hp
  · exact .fails hV hp
  · exact .raises hV other hp

theorem ret (hst : Ready neg ext st cs) (v : α) (hV : V = K v st cs) :
    Outcome neg whole ext (.ret v) st cs V K := .reads rfl (.refl hst.stream cs) hst.budget hV

theorem fail {err : ReadError} (hV : V = .fails) :
    Outcome neg whole ext (.fail (.readError err)) st cs V K := .fails hV fun v j h => by cases h

/-- The outcome of `q`, from another state, is one of `p`: what `p` takes there is known from what `q` takes, and the
    errors of `q` are errors of `p`. -/
theorem lift {q : Decoder β} {st₀ : State} {cs₀ : List MBytes} {whole₀ : Bool}
    (h : Outcome neg whole₀ ext q st₀ cs₀ V K')
    (hrds : ∀ {v j st' cs'}, q (window ext st₀ cs₀) st₀.allowedBytes = .ok (v, j) →
      Advances st₀ cs₀ j st' cs' →
      (¬neg → NonNeg st'.allowedBytes) → Outcome neg whole ext p st cs (K' v st' cs') K)
    (hback : ∀ {w m}, p (window ext st cs) st.allowedBytes = .ok (w, m) → ∃ v j,
      q (window ext st₀ cs₀) st₀.allowedBytes = .ok (v, j) ∧
        ((data st₀ cs₀).length < j → (data st cs).length < m) ∧
        ∀ r, whole₀ = true → st₀.remainingBytes = some r → j ≠ r → ∃ r, whole = true ∧
          st.remainingBytes = some r ∧ m ≠ r)
    (herror : ∀ {y}, q (window ext st₀ cs₀) st₀.allowedBytes = .error y →
      p (window ext st cs) st.allowedBytes = .error y) :
    Outcome neg whole ext p st cs V K := by
  rcases h with ⟨hq, adv, budget, rfl⟩ | ⟨hV, hq⟩ | ⟨hV, hq⟩ | ⟨hV, other, y, hy, hx⟩
  · exact hrds hq adv budget
  · refine .awaits hV fun w m hw => ?_
    obtain ⟨v, j, hv, hlt, -⟩ := hback hw
    exact hlt (hq v j hv)
  · refine .fails hV fun w m hw => ?_
    obtain ⟨v, j, hv, -, hrest⟩ := hback hw
    rcases hq v j hv with hneg | ⟨r, hwhl, hr, hne⟩
    · exact .inl hneg
    · exact .inr (hrest r hwhl hr hne)
  · exact .raises hV other ⟨y, herror hy, hx⟩

theorem bind {f : α → Decoder β} (h : Outcome neg false ext p st cs V K)
    (hf : ∀ {v j st' cs'}, p (window ext st cs) st.allowedBytes = .ok (v, j) → Advances st cs j st' cs' →
      (¬neg → NonNeg st'.allowedBytes) → Outcome neg whole ext (f v) st' cs' (K v st' cs') K') :
    Outcome neg whole ext (p.bind f) st cs V K' := by
  refine h.lift (fun {v j st' cs'} hp adv budget => ?_) (fun {w m} hw => ?_) fun hy => ?_
  · refine (hf hp adv budget).lift (fun {w j' st'' cs''} hp' adv' budget' => ?_) (fun {w m} hw => ?_) fun {y} hy => ?_
    · rw [adv.window, adv.allowed] at hp'
      exact .reads (bind_ok.mpr ⟨v, j, j', hp, hp', rfl⟩) (adv.trans adv') budget' rfl
    · obtain ⟨v₁, j₁, j', hv₁, hw', rfl⟩ := bind_ok.mp hw
      rw [hp] at hv₁
      cases hv₁
      rw [← adv.window, ← adv.allowed] at hw'
      refine ⟨w, j', hw', fun hlt => ?_, fun r' hwhl hr' hne => ?_⟩
      · rw [adv.length_data] at hlt
        omega
      · rw [adv.remaining] at hr'
        obtain ⟨r, hr, rfl⟩ := Option.map_eq_some_iff.mp hr'
        exact ⟨r, hwhl, hr, by omega⟩
    · rw [adv.window, adv.allowed] at hy
      simp only [Parser.bind, hp, ok_bind, hy, error_bind]
  · obtain ⟨v, j, j', hv, -, rfl⟩ := bind_ok.mp hw
    exact ⟨v, j, hv, fun hlt => by omega, fun r hfal => by cases hfal⟩
  · simp only [Parser.bind, hy, error_bind]

theorem check {f : α → Except Exn β} (h : Outcome neg whole ext p st cs V K)
    (hok : ∀ {v w st' cs'}, f v = .ok w → K v st' cs' = K' w st' cs')
    (herr : ∀ {v x st' cs'}, f v = .error x → K v st' cs' = .fails) : Outcome neg whole ext (p.check f) st cs V K' := by
  refine h.lift (fun {v j st' cs'} hp adv budget => ?_) (fun {w m} hw => ?_) fun hy => ?_
  · cases hw : f v with
    | ok w => exact .reads (check_ok.mpr ⟨v, hp, hw⟩) adv budget (hok hw)
    | error x =>
      refine .fails (herr hw) fun w m hm => ?_
      obtain ⟨v', hv', hw'⟩ := check_ok.mp hm
      rw [hp] at hv'
      cases hv'
      rw [hw] at hw'
      cases hw'
  · obtain ⟨v, hv, -⟩ := check_ok.mp hw
    exact ⟨v, m, hv, id, fun r hwhl hr hne => ⟨r, hwhl, hr, hne⟩⟩
  · simp only [Parser.check, hy, error_bind]

theorem map {K : β → State → List MBytes → Verdict ρ} (h : Outcome neg whole ext p st cs V fun v => K (f v)) :
    Outcome neg whole ext (p.map f) st cs V K :=
  h.check (f := fun v => .ok (f v)) (fun hw => by cases hw; rfl) fun hw => by cases hw

theorem of_map {K : β → State → List MBytes → Verdict ρ} (h : Outcome neg whole ext (p.map f) st cs V K) :
    Outcome neg whole ext p st cs V fun v => K (f v) := by
  refine h.lift (fun {w j st' cs'} hp adv budget => ?_) (fun {v m} hv => ?_) fun {y} hy => ?_
  · obtain ⟨v, hv, rfl⟩ := map_ok.mp hp
    exact .reads hv adv budget rfl
  · exact ⟨f v, m, map_ok.mpr ⟨v, hv, rfl⟩, id, fun r hwhl hr hne => ⟨r, hwhl, hr, hne⟩⟩
  · rcases bind_eq_error.mp hy with hy | ⟨_, -, hy⟩
    · exact hy
    · cases hy

theorem weaken (h : Outcome neg false ext p st cs V K) : Outcome neg whole ext p st cs V K :=
  h.lift (fun hp adv budget => .reads hp adv budget rfl)
    (fun {v j} hv => ⟨v, j, hv, id, fun r hfal => by cases hfal⟩) id

end Outcome

abbrev Comes {ι : Type → Type} (D : Defs ι) (neg : Prop) (whole : Bool) (ext : MBytes) (p : Decoder α) (st : State)
    (cs : List MBytes) (status : Status ι ρ) (k : α × State → Status ι ρ) : Prop :=
  Outcome neg whole ext p st cs (verdict D cs status) fun v st' cs' => verdict D cs' (k (v, st'))

end Outcome

end Tezos.DataEncoding.StreamReader
