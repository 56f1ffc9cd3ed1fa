import Tezos.Lib.Registry
import Tezos.Shell.DistributedDb

/-! The fetches of a table. An injection may hide the entry of a fetch, and a cancellation may take a waiter off the
    next entry of the key; no fetch loses its entry otherwise. -/

namespace Tezos.DistributedDb
open List Lib.Table Lib
variable {K V A N P : Type} {f : Fetch K V A P} {waiter : Nat}

def waitsOn (waiter : Nat) (f : Fetch K V A P) : Bool :=
  match f.promise with
  | .waiting waiter' => waiter' == waiter
  | _ => false

theorem waitsOn_iff : waitsOn waiter f = true ↔ f.promise = .waiting waiter := by
  unfold waitsOn
  cases f.promise <;> simp

theorem not_waitsOn (h : f.promise ≠ .waiting waiter) : waitsOn waiter f = false :=
  Bool.eq_false_iff.mpr fun htrue => h (waitsOn_iff.mp htrue)

section
variable (precheck : K → A → N → Option V)

/-- The value was accepted for the key, injected or given to `resolvePending`. -/
def Given (history : List (Action K V A N P)) (k : K) (v : V) : Prop :=
  (∃ p value param, .notify p k value ∈ history ∧ precheck k param value = some v) ∨ .inject k v ∈ history ∨
    .resolvePending k v ∈ history

/-- What a waiter of the key is woken up with. -/
def Answer (history : List (Action K V A N P)) (k : K) : Result K V → Prop
  | .ok v => Given precheck history k v
  | .error error => error = .canceled k

variable [DecidableEq K]

/-- A fetch was cancelled, reads the disk, has its result, or has an entry that it waits for. A waiter that was woken up
    has its result already, and Lwt is going to hand it on to the fetch. -/
def Attended (history : List (Action K V A N P)) (s : State K V A P) (i : Nat) (f : Fetch K V A P) : Prop :=
  match f.promise with
  | .reading => True
  | .waiting waiter =>
    (∃ waiters param, s.memory.find? f.key = some (.pending waiter waiters param)) ∨
      ∃ result, s.waiters[waiter]? = some (some result) ∧ Answer precheck history f.key result
  | .resolved result =>
    Answer precheck history f.key result ∨ (∃ v, result = .ok v ∧ .fetchRead i (some v) ∈ history) ∨
      f.timeout = true ∧ result = .error (.timeout f.key)
  | .cancelled => True

/-- Every fetch that waits is one of a pending entry. -/
structure NoOrphan (history : List (Action K V A N P)) (s : State K V A P) : Prop where
  unique : s.memory.keys.Nodup
  attended : ∀ i f, s.fetches[i]? = some f → Attended precheck history s i f
  counted : ∀ k waiter waiters param, s.memory.find? k = some (.pending waiter waiters param) →
    waiters = (s.fetches.countP (waitsOn waiter) : Nat)

/-- The entries, beyond what is asked of the fetches: their waiters sleep and are not shared, and the values come from
    somewhere. -/
structure Invariant (history : List (Action K V A N P)) (s : State K V A P) : Prop extends NoOrphan precheck history s where
  asleep : ∀ k waiter waiters param, s.memory.find? k = some (.pending waiter waiters param) →
    s.waiters[waiter]? = some none
  apart : ∀ k k' waiter waiters waiters' param param', s.memory.find? k = some (.pending waiter waiters param) →
    s.memory.find? k' = some (.pending waiter waiters' param') → k = k'
  given : ∀ k v, s.memory.find? k = some (.found v) → Given precheck history k v
  injected : ∀ (j : Nat) k v, s.injects[j]? = some (.looking k v) → .inject k v ∈ history

end

variable [DecidableEq K] {precheck : K → A → N → Option V} {history : List (Action K V A N P)} {s s' : State K V A P}
  {a : Action K V A N P} {i j waiter : Nat} {k : K} {v : V} {f new : Fetch K V A P} {promise : Promise K V}

omit [DecidableEq K] in
theorem Given.concat (h : Given precheck history k v) : Given precheck (history ++ [a]) k v := by
  rcases h with ⟨p, value, param, hmem, hchk⟩ | hmem | hmem
  · exact .inl ⟨p, value, param, mem_append_left _ hmem, hchk⟩
  · exact .inr (.inl (mem_append_left _ hmem))
  · exact .inr (.inr (mem_append_left _ hmem))

variable {result : Result K V} {fetches' : List (Fetch K V A P)} {memory' : Table K (Status V A)} {param : A}
  {waiters : Int} {peer : Option P}

omit [DecidableEq K] in
theorem Answer.concat (h : Answer precheck history k result) : Answer precheck (history ++ [a]) k result := by
  cases result with
  | error error => exact h
  | ok v => exact Given.concat h

theorem Attended.concat (h : Attended precheck history s i f) : Attended precheck (history ++ [a]) s i f := by
  unfold Attended at h ⊢
  cases hprom : f.promise with
  | reading => trivial
  | cancelled => trivial
  | waiting waiter =>
    simp only [hprom] at h ⊢
    refine h.imp id ?_
    rintro ⟨result, hres, hans⟩
    exact ⟨result, hres, hans.concat⟩
  | resolved result =>
    simp only [hprom] at h ⊢
    rcases h with hans | ⟨v, rfl, hmem⟩ | htim
    · exact .inl hans.concat
    · exact .inr (.inl ⟨v, rfl, mem_append_left _ hmem⟩)
    · exact .inr (.inr htim)

variable (h : Invariant precheck history s)
include h

theorem Invariant.concat : Invariant precheck (history ++ [a]) s :=
  { h with
    attended := fun i f hget => (h.attended i f hget).concat
    given := fun k v hfind => (h.given k v hfind).concat
    injected := fun j k v hget => mem_append_left _ (h.injected j k v hget) }

omit h in
theorem invariant_create : Invariant precheck history (create : State K V A P) where
  unique := nodup_nil
  attended := fun i f hget => absurd hget (by simp [create])
  counted := fun k waiter waiters param hfind => absurd hfind (by simp [create, Table.find?])
  asleep := fun k waiter waiters param hfind => absurd hfind (by simp [create, Table.find?])
  apart := fun k k' waiter waiters waiters' param param' hfind => absurd hfind (by simp [create, Table.find?])
  given := fun k v hfind => absurd hfind (by simp [create, Table.find?])
  injected := fun j k v hget => absurd hget (by simp [create])

/-- A fetch takes its place, and the others keep theirs. -/
structure Takes (fetches fetches' : List (Fetch K V A P)) (i : Nat) (new : Fetch K V A P) : Prop where
  get : ∀ j f, fetches'[j]? = some f → j = i ∧ f = new ∨ fetches[j]? = some f
  count : ∀ waiter, fetches'.countP (waitsOn waiter) = fetches.countP (waitsOn waiter) + (waitsOn waiter new).toNat

omit h in
omit [DecidableEq K] in
theorem takes_concat (fetches : List (Fetch K V A P)) (new : Fetch K V A P) :
    Takes fetches (fetches ++ [new]) fetches.length new where
  get := fun j f hget => (getElem?_concat_iff.mp hget).symm
  count := fun waiter => by rw [countP_append, ← Nat.zero_add (waitsOn waiter new).toNat, ← countP_nil,
    ← countP_cons_toNat]

omit h in
omit [DecidableEq K] in
theorem takes_set {fetches : List (Fetch K V A P)} (hget : fetches[i]? = some f)
    (hidle : ∀ waiter, waitsOn waiter f = false) :
    Takes fetches (fetches.set i new) i new where
  get := fun j f' hget' => ((getElem?_set_iff hget).mp hget').imp id And.right
  count := fun waiter => by
    have hcnt := countP_set (a := new) hget (waitsOn waiter)
    rwa [hidle waiter, Bool.toNat_false, Nat.add_zero] at hcnt

theorem Invariant.refetch
    (hget : ∀ j f, fetches'[j]? = some f → s.fetches[j]? = some f ∨ Attended precheck history s j f)
    (hcnt : ∀ k waiter waiters param, s.memory.find? k = some (.pending waiter waiters param) →
      fetches'.countP (waitsOn waiter) = s.fetches.countP (waitsOn waiter)) :
    Invariant precheck history { s with fetches := fetches' } :=
  { h with
    attended := fun j f hget' => (hget j f hget').elim (h.attended j f) id
    counted := fun k waiter waiters param hfind => by
      rw [h.counted k waiter waiters param hfind, hcnt k waiter waiters param hfind] }

theorem Invariant.takes (htak : Takes s.fetches fetches' i new) (hidle : ∀ waiter, waitsOn waiter new = false)
    (hatt : Attended precheck history s i new) : Invariant precheck history { s with fetches := fetches' } := by
  refine h.refetch (fun j f hget => ?_) fun k waiter waiters param _ => ?_
  · rcases htak.get j f hget with ⟨rfl, rfl⟩ | hold
    · exact .inr hatt
    · exact .inl hold
  · rw [htak.count waiter, hidle waiter, Bool.toNat_false, Nat.add_zero]

theorem Invariant.setPromise (hget : s.fetches[i]? = some f)
    (hold : ∀ k waiter waiters param, s.memory.find? k = some (.pending waiter waiters param) →
      waitsOn waiter f = false)
    (hidle : ∀ waiter, promise ≠ .waiting waiter)
    (hatt : Attended precheck history s i { f with promise := promise }) :
    Invariant precheck history (s.setPromise i f promise) := by
  refine h.refetch (fun j f' hget' => ?_) fun k waiter waiters param hfind => ?_
  · rcases (getElem?_set_iff hget).mp hget' with ⟨rfl, rfl⟩ | ⟨-, hoth⟩
    · exact .inr hatt
    · exact .inl hoth
  · have hcnt := countP_set (a := { f with promise := promise }) hget (waitsOn waiter)
    have hnew : waitsOn waiter { f with promise := promise } = false := not_waitsOn (hidle waiter)
    rwa [hold k waiter waiters param hfind, hnew] at hcnt

/-! ### Entries -/

omit h in
/-- An attended fetch stays so as long as the entries of its key, and the results that are there, are not touched. -/
theorem Attended.of_find (h : Attended precheck history s i f)
    (hmemory : ∀ waiter waiters param, f.promise = .waiting waiter →
      s.memory.find? f.key = some (.pending waiter waiters param) →
      (∃ waiters' param', s'.memory.find? f.key = some (.pending waiter waiters' param')) ∨
        ∃ result, s'.waiters[waiter]? = some (some result) ∧ Answer precheck history f.key result)
    (hwait : ∀ (waiter : Nat) result, s.waiters[waiter]? = some (some result) →
      s'.waiters[waiter]? = some (some result)) :
    Attended precheck history s' i f := by
  unfold Attended at h ⊢
  cases hprom : f.promise with
  | reading => trivial
  | cancelled => trivial
  | resolved result => simpa only [hprom] using h
  | waiting waiter =>
    simp only [hprom] at h ⊢
    rcases h with ⟨waiters, param, hfind⟩ | ⟨result, hres, hans⟩
    · exact hmemory waiter waiters param hprom hfind
    · exact .inr ⟨result, hwait waiter result hres, hans⟩

variable {status : Option (Status V A)}

omit h in
/-- What a step may bind a key to: nothing, a value that comes from somewhere, or an entry that counts its fetches, whose
    waiter sleeps and is that of no other key. -/
def Fits (precheck : K → A → N → Option V) (history : List (Action K V A N P)) (s s' : State K V A P) (k : K) :
    Option (Status V A) → Prop
  | none => True
  | some (.found v) => Given precheck history k v
  | some (.pending waiter waiters _) =>
    waiters = (s'.fetches.countP (waitsOn waiter) : Nat) ∧ s'.waiters[waiter]? = some none ∧
      ∀ k' waiters param, s.memory.find? k' = some (.pending waiter waiters param) → k' = k

/-- A step binds one key anew, and the entries of the others keep their fetches and their waiters. -/
theorem Invariant.update (hr : s.memory.Rebinds k s'.memory status) (hstat : Fits precheck history s s' k status)
    (hinjects : s'.injects = s.injects)
    (hkept : ∀ k' waiter waiters param, k' ≠ k → s.memory.find? k' = some (.pending waiter waiters param) →
      s'.fetches.countP (waitsOn waiter) = s.fetches.countP (waitsOn waiter) ∧ s'.waiters[waiter]? = some none)
    (hwait : ∀ (waiter : Nat) result, s.waiters[waiter]? = some (some result) →
      s'.waiters[waiter]? = some (some result))
    (hget : ∀ j f, s'.fetches[j]? = some f → s.fetches[j]? = some f ∨ Attended precheck history s' j f)
    (hsts : ∀ (j : Nat) (f : Fetch K V A P) waiter waiters param, s'.fetches[j]? = some f →
      f.promise = .waiting waiter →
      s.memory.find? k = some (.pending waiter waiters param) →
      (∃ waiters' param', s'.memory.find? k = some (.pending waiter waiters' param')) ∨
        ∃ result, s'.waiters[waiter]? = some (some result) ∧ Answer precheck history k result) :
    Invariant precheck history s' := by
  obtain ⟨huniq, hoth, rfl⟩ := hr
  have hpen : ∀ {k' waiter waiters param}, s'.memory.find? k' = some (.pending waiter waiters param) →
      Fits precheck history s s' k' (some (.pending waiter waiters param)) := by
    intro k' waiter waiters param hfind
    by_cases heq : k' = k
    · rw [heq] at hfind ⊢
      rwa [hfind] at hstat
    · rw [hoth k' heq] at hfind
      obtain ⟨hcnt, hasl⟩ := hkept k' waiter waiters param heq hfind
      refine ⟨?_, hasl, fun k'' waiters' param' hfind' => h.apart _ _ _ _ _ _ _ hfind' hfind⟩
      rw [hcnt, h.counted _ _ _ _ hfind]
  refine ⟨⟨huniq, ?_, fun k' waiter waiters param hfind => (hpen hfind).1⟩,
    fun k' waiter waiters param hfind => (hpen hfind).2.1, ?_, ?_, hinjects ▸ h.injected⟩
  · intro j f hget'
    rcases hget j f hget' with hbef | hatt
    · refine (h.attended j f hbef).of_find (fun waiter waiters param hwts hfind => ?_) hwait
      by_cases heq : f.key = k
      · rw [heq] at hfind ⊢
        exact hsts j f waiter waiters param hget' hwts hfind
      · exact .inl ⟨waiters, param, (hoth f.key heq).trans hfind⟩
    · exact hatt
  · intro k₁ k₂ waiter waiters₁ waiters₂ param₁ param₂ hfind₁ hfind₂
    by_cases heq₁ : k₁ = k
    · by_cases heq₂ : k₂ = k
      · rw [heq₁, heq₂]
      · exact ((hpen hfind₁).2.2 k₂ waiters₂ param₂ ((hoth k₂ heq₂).symm.trans hfind₂)).symm
    · exact (hpen hfind₂).2.2 k₁ waiters₁ param₁ ((hoth k₁ heq₁).symm.trans hfind₁)
  · intro k' v hfind
    by_cases heq : k' = k
    · rw [heq] at hfind ⊢
      rwa [hfind] at hstat
    · exact h.given k' v ((hoth k' heq).symm.trans hfind)

theorem Invariant.rebind (hr : s.memory.Rebinds k memory' status) (hstat : ∀ s', Fits precheck history s s' k status)
    (hold : ∀ waiter waiters param, s.memory.find? k ≠ some (.pending waiter waiters param)) :
    Invariant precheck history { s with memory := memory' } :=
  h.update hr (hstat _) rfl (fun k' waiter waiters param _ hfind => ⟨rfl, h.asleep k' waiter waiters param hfind⟩)
    (fun _ _ => id) (fun _ _ => .inl) fun _ _ waiter waiters param _ _ hfind => absurd hfind (hold waiter waiters param)

theorem Invariant.wakeup (hfind : s.memory.find? k = some (.pending waiter waiters param))
    (hr : s.memory.Rebinds k memory' status) (hstat : ∀ s', Fits precheck history s s' k status)
    (hans : Answer precheck history k result) :
    Invariant precheck history { s with memory := memory', waiters := s.waiters.set waiter (some result) } := by
  have hasl := h.asleep k waiter waiters param hfind
  have hset : ∀ {waiter' : Nat} {x}, waiter' ≠ waiter → s.waiters[waiter']? = x →
      (s.waiters.set waiter (some result))[waiter']? = x := fun hne heq => by rwa [getElem?_set_ne (Ne.symm hne)]
  refine h.update hr (hstat _) rfl ?_ ?_ (fun _ _ => .inl) ?_
  · intro k' waiter' waiters' param' hne hfind'
    refine ⟨rfl, hset ?_ (h.asleep k' waiter' waiters' param' hfind')⟩
    rintro rfl
    exact hne (h.apart k' k waiter' waiters' waiters param' param hfind' hfind)
  · intro waiter' result' hres
    refine hset ?_ hres
    rintro rfl
    cases hasl.symm.trans hres
  · intro j f waiter' waiters' param' _ _ hfind'
    cases hfind.symm.trans hfind'
    exact .inr ⟨result, List.getElem?_set_self (List.getElem?_eq_some_iff.mp hasl).1, hans⟩

theorem Invariant.wake (hfind : s.memory.find? k = some (.pending waiter waiters param))
    (hgiv : Given precheck history k v) : Invariant precheck history (s.wake k waiter v) := by
  have hans : Answer precheck history k (.ok v) := hgiv
  have hfits : ∀ s', Fits precheck history s s' k (some (.found v)) := fun _ => hgiv
  exact { h.wakeup hfind (rebinds_replace h.unique) hfits hans with }

theorem Invariant.clearOrCancel : Invariant precheck history (s.clearOrCancel k) := by
  unfold State.clearOrCancel
  rcases hfind : s.memory.find? k with _ | status
  · exact h
  · cases status with
    | pending waiter waiters param =>
      have hans : Answer precheck history k (.error (.canceled k)) := rfl
      exact { h.wakeup hfind (rebinds_remove h.unique) (fun _ => trivial) hans with }
    | found v =>
      refine h.rebind (rebinds_remove h.unique) (fun _ => trivial) fun waiter waiters param heq => ?_
      cases hfind.symm.trans heq

theorem Invariant.resolvePending (hgiv : Given precheck history k v) :
    Invariant precheck history (s.resolvePending k v) := by
  unfold State.resolvePending
  rcases hfind : s.memory.find? k with _ | status
  · exact h
  · cases status with
    | found v => exact h
    | pending waiter waiters param =>
      exact Invariant.wake { h with } hfind hgiv

theorem Invariant.notify {p : P} {value : N} (hmem : .notify p k value ∈ history) :
    Invariant precheck history (s.notify precheck p k value) := by
  unfold State.notify
  rcases hfind : s.memory.find? k with _ | status
  · exact { h with }
  · cases status with
    | found v => exact { h with }
    | pending waiter waiters param =>
      rcases hchk : precheck k param value with _ | v
      · simp only [hchk]
        exact { h with }
      · simp only [hchk]
        exact Invariant.wake { h with } hfind (.inl ⟨p, value, param, hmem, hchk⟩)

/-! ### Fetches -/

/-- An entry is made for a key that has none, or counts one waiter more, and the fetch of the key waits for it. -/
theorem Invariant.enter {waiters' : List (Option (Result K V))}
    (hr : s.memory.Rebinds k memory' (some (.pending waiter waiters param)))
    (hcnt : waiters = (s.fetches.countP (waitsOn waiter) : Nat) + 1)
    (hold : ∀ waiter' waiters' param', s.memory.find? k = some (.pending waiter' waiters' param') → waiter' = waiter)
    (hfr : ∀ k' waiters' param', s.memory.find? k' = some (.pending waiter waiters' param') → k' = k)
    (hwait : ∀ (waiter : Nat) x, s.waiters[waiter]? = some x → waiters'[waiter]? = some x)
    (hasl : waiters'[waiter]? = some none) (hkey : new.key = k) (hwts : new.promise = .waiting waiter)
    (htak : Takes s.fetches fetches' i new) :
    Invariant precheck history { s with memory := memory', waiters := waiters', fetches := fetches' } := by
  refine h.update hr ⟨?_, hasl, hfr⟩ rfl ?_ (fun waiter result => hwait waiter (some result)) ?_ ?_
  · rw [htak.count waiter, waitsOn_iff.mpr hwts, hcnt]
    rfl
  · intro k' waiter' waiters' param' hne hfind
    have hidle : waitsOn waiter' new = false := by
      refine not_waitsOn fun hwts' => hne ?_
      cases hwts.symm.trans hwts'
      exact hfr k' waiters' param' hfind
    refine ⟨?_, hwait waiter' none (h.asleep k' waiter' waiters' param' hfind)⟩
    rw [htak.count waiter', hidle]
    rfl
  · intro j f hget
    rcases htak.get j f hget with ⟨rfl, rfl⟩ | hbef
    · unfold Attended
      simp only [hwts, hkey]
      exact .inr (.inl ⟨waiters, param, hr.self⟩)
    · exact .inl hbef
  · intro j f waiter' waiters' param' _ _ hfind
    rw [hold waiter' waiters' param' hfind]
    exact .inl ⟨waiters, param, hr.self⟩

theorem Invariant.count_fresh : s.fetches.countP (waitsOn s.waiters.length) = 0 := by
  refine countP_eq_zero.mpr fun f hf hwts => ?_
  obtain ⟨i, hget⟩ := mem_iff_getElem?.mp hf
  have hatt := h.attended i f hget
  unfold Attended at hatt
  simp only [waitsOn_iff.mp hwts] at hatt
  rcases hatt with ⟨waiters, param, hfind⟩ | ⟨result, hres, -⟩
  · exact absurd (List.getElem?_eq_some_iff.mp (h.asleep _ _ _ _ hfind)).1 (lt_irrefl _)
  · exact absurd (List.getElem?_eq_some_iff.mp hres).1 (lt_irrefl _)

theorem Invariant.await (hkey : new.key = k) (hprom : new.promise = (s.await peer k param).2)
    (htak : Takes s.fetches fetches' i new) :
    Invariant precheck history { (s.await peer k param).1 with fetches := fetches' } := by
  unfold State.await at hprom ⊢
  rcases hfind : s.memory.find? k with _ | status
  · simp only [hfind] at hprom ⊢
    refine { h.enter (rebinds_add h.unique hfind) ?_ ?_ ?_ ?_ ?_ hkey hprom htak with }
    · rw [h.count_fresh]
      rfl
    · intro waiter' waiters' param' heq
      cases hfind.symm.trans heq
    · intro k' waiters' param' hfind'
      exact absurd (List.getElem?_eq_some_iff.mp (h.asleep _ _ _ _ hfind')).1 (lt_irrefl _)
    · intro waiter x hget
      exact (List.getElem?_append_left (List.getElem?_eq_some_iff.mp hget).1).trans hget
    · exact getElem?_concat_length
  · cases status with
    | pending waiter waiters param' =>
      simp only [hfind] at hprom ⊢
      refine { h.enter (rebinds_replace h.unique) ?_ ?_ ?_ (fun _ _ => id) ?_ hkey hprom htak with }
      · rw [h.counted k waiter waiters param' hfind]
      · intro waiter' waiters' param'' heq
        cases hfind.symm.trans heq
        rfl
      · intro k' waiters' param'' hfind'
        exact h.apart k' k waiter waiters' waiters param'' param' hfind' hfind
      · exact h.asleep k waiter waiters param' hfind
    | found v =>
      simp only [hfind] at hprom ⊢
      refine h.takes htak (fun waiter => not_waitsOn (by simp [hprom])) ?_
      unfold Attended
      simp only [hprom, hkey]
      exact .inl (h.given k v hfind)

omit h in
theorem await_fetches (s : State K V A P) (peer : Option P) (k : K) (param : A) :
    (s.await peer k param).1.fetches = s.fetches := by
  unfold State.await
  split <;> rfl

theorem Invariant.fetch {timeout : Bool} : Invariant precheck history (s.fetch peer timeout k param) := by
  unfold State.fetch
  rcases hfind : s.memory.find? k with _ | status
  · refine h.takes (takes_concat s.fetches _) (fun waiter => rfl) ?_
    trivial
  · have hawt : Invariant precheck history { (s.await peer k param).1 with
        fetches := s.fetches ++ [⟨peer, timeout, k, param, (s.await peer k param).2⟩] } :=
      h.await rfl rfl (takes_concat s.fetches _)
    rwa [← await_fetches s peer k param] at hawt

theorem Invariant.fetchRead {value : Option V} (hmem : ∀ v, value = some v → .fetchRead i (some v) ∈ history) :
    Invariant precheck history (s.fetchRead i value) := by
  unfold State.fetchRead
  rcases hget : s.fetches[i]? with _ | f
  · exact h
  · cases hprom : f.promise with
    | waiting | resolved | cancelled => simpa only [hprom] using h
    | reading =>
      have hidle : ∀ waiter, waitsOn waiter f = false := fun waiter => not_waitsOn (by simp [hprom])
      simp only [hprom]
      rcases value with _ | v
      · let new : Fetch K V A P := { f with promise := (s.await f.peer f.key f.param).2 }
        have hnew : new.promise = (s.await f.peer f.key f.param).2 := rfl
        have hawt := h.await rfl hnew (takes_set hget hidle)
        rwa [← await_fetches s f.peer f.key f.param] at hawt
      · refine h.setPromise hget (fun _ waiter _ _ _ => hidle waiter) (fun waiter => by simp) ?_
        exact .inr (.inl ⟨v, rfl, hmem v rfl⟩)

theorem Invariant.idle_of_woken (hwts : f.promise = .waiting waiter)
    (hres : s.waiters[waiter]? = some (some result)) {waiter' : Nat}
    (hfind : s.memory.find? k = some (.pending waiter' waiters param)) : waitsOn waiter' f = false := by
  refine not_waitsOn fun hwts' => ?_
  cases hwts.symm.trans hwts'
  cases (h.asleep k waiter waiters param hfind).symm.trans hres

theorem Invariant.deliver : Invariant precheck history (s.deliver i) := by
  unfold State.deliver
  rcases hget : s.fetches[i]? with _ | f
  · exact h
  · cases hprom : f.promise with
    | reading | resolved | cancelled => simpa only [hprom] using h
    | waiting waiter =>
      simp only [hprom]
      rcases hwtr : s.waiters[waiter]? with _ | woken
      · exact h
      · rcases woken with _ | result
        · exact h
        · refine h.setPromise hget (fun _ _ _ _ hfind => h.idle_of_woken hprom hwtr hfind) (fun waiter => by simp) ?_
          have hatt := h.attended i f hget
          unfold Attended at hatt ⊢
          simp only [hprom] at hatt
          rcases hatt with ⟨waiters, param, hfind⟩ | ⟨result', hres, hans⟩
          · rw [h.asleep f.key waiter waiters param hfind] at hwtr
            cases hwtr
          · rw [hwtr] at hres
            cases hres
            exact .inl hans

/-! ### Cancellations -/

/-- A fetch takes itself off its entry, and the entry leaves the table with the last one. -/
theorem Invariant.leave (hget : s.fetches[i]? = some f) (hwts : f.promise = .waiting waiter)
    (hfind : s.memory.find? f.key = some (.pending waiter waiters param))
    (hr : s.memory.Rebinds f.key memory' (if waiters - 1 = 0 then none else some (.pending waiter (waiters - 1) param)))
    (hidle : ∀ waiter, promise ≠ .waiting waiter)
    (hatt : ∀ s : State K V A P, Attended precheck history s i { f with promise := promise }) :
    Invariant precheck history ({ s with memory := memory' }.setPromise i f promise) := by
  have hcnt : ∀ waiter', (s.fetches.set i { f with promise := promise }).countP (waitsOn waiter') +
      (waitsOn waiter' f).toNat = s.fetches.countP (waitsOn waiter') := by
    intro waiter'
    have hnew : waitsOn waiter' { f with promise := promise } = false := not_waitsOn (hidle waiter')
    have hset := countP_set (a := { f with promise := promise }) hget (waitsOn waiter')
    rwa [hnew, Bool.toNat_false] at hset
  have hrest : waiters - 1 = ((s.fetches.set i { f with promise := promise }).countP (waitsOn waiter) : Nat) := by
    have hold := h.counted f.key waiter waiters param hfind
    rw [← hcnt waiter, waitsOn_iff.mpr hwts, Bool.toNat_true] at hold
    omega
  refine h.update hr ?_ rfl ?_ (fun _ _ => id) ?_ ?_
  · split
    · trivial
    · exact ⟨hrest, h.asleep _ _ _ _ hfind, fun k' waiters' param' hfind' => h.apart _ _ _ _ _ _ _ hfind' hfind⟩
  · intro k' waiter' waiters' param' hne hfind'
    have hidle' : waitsOn waiter' f = false := by
      refine not_waitsOn fun hwts' => hne ?_
      cases hwts.symm.trans hwts'
      exact h.apart _ _ _ _ _ _ _ hfind' hfind
    have hsame := hcnt waiter'
    rw [hidle', Bool.toNat_false] at hsame
    exact ⟨hsame, h.asleep k' waiter' waiters' param' hfind'⟩
  · intro j f' hget'
    rcases (getElem?_set_iff hget).mp hget' with ⟨rfl, rfl⟩ | ⟨-, hbef⟩
    · exact .inr (hatt _)
    · exact .inl hbef
  · intro j f' waiter' waiters' param' hget' hwts' hfind'
    cases hfind.symm.trans hfind'
    -- Another fetch waits for the entry, so that it was not removed.
    have hpos : 0 < (s.fetches.set i { f with promise := promise }).countP (waitsOn waiter) :=
      countP_pos_iff.mpr ⟨f', mem_of_getElem? hget', waitsOn_iff.mpr hwts'⟩
    have hself := hr.self
    rw [if_neg (by omega)] at hself
    exact .inl ⟨waiters - 1, param, hself⟩

/-- The entry that the callback of a cancelled fetch finds is the one that the fetch waits for. -/
def FindsOwn (s : State K V A P) (f : Fetch K V A P) : Prop :=
  ∀ waiter waiter' waiters param, f.promise = .waiting waiter →
    s.memory.find? f.key = some (.pending waiter' waiters param) → waiter' = waiter

theorem Invariant.onCancel (hget : s.fetches[i]? = some f) (hwts : f.promise = .waiting waiter) (hown : FindsOwn s f)
    (hidle : ∀ waiter, promise ≠ .waiting waiter)
    (hatt : ∀ s : State K V A P, Attended precheck history s i { f with promise := promise }) :
    Invariant precheck history ((s.onCancel f.key).setPromise i f promise) := by
  have hwok : (∀ waiters param, s.memory.find? f.key ≠ some (.pending waiter waiters param)) →
      Invariant precheck history (s.setPromise i f promise) := by
    intro hnone
    have hold := h.attended i f hget
    unfold Attended at hold
    simp only [hwts] at hold
    rcases hold with ⟨waiters, param, hfind⟩ | ⟨result, hres, -⟩
    · exact absurd hfind (hnone waiters param)
    · exact h.setPromise hget (fun _ _ _ _ hfind => h.idle_of_woken hwts hres hfind) hidle (hatt s)
  unfold State.onCancel
  rcases hfind : s.memory.find? f.key with _ | status
  · exact hwok fun waiters param heq => absurd (hfind.symm.trans heq) (by simp)
  · cases status with
    | found v => exact hwok fun waiters param heq => absurd (hfind.symm.trans heq) (by simp)
    | pending waiter' waiters param =>
      obtain rfl := hown waiter waiter' waiters param hwts hfind
      simp only
      split
      · rename_i hzero
        refine { h.leave hget hwts hfind ?_ hidle hatt with }
        rw [if_pos hzero]
        exact rebinds_remove h.unique
      · rename_i hmore
        refine h.leave hget hwts hfind ?_ hidle hatt
        rw [if_neg hmore]
        exact rebinds_replace h.unique

theorem Invariant.cancel (hown : ∀ f, s.fetches[i]? = some f → FindsOwn s f) :
    Invariant precheck history (s.cancel i) := by
  have hatt : ∀ (f : Fetch K V A P) (s : State K V A P),
      Attended precheck history s i { f with promise := .cancelled } := fun _ _ => trivial
  unfold State.cancel
  rcases hget : s.fetches[i]? with _ | f
  · exact h
  · cases hprom : f.promise with
    | resolved | cancelled => simpa only [hprom] using h
    | reading =>
      simp only [hprom]
      exact h.setPromise hget (fun _ waiter _ _ _ => not_waitsOn (by simp [hprom])) (fun waiter => by simp) (hatt f s)
    | waiting waiter =>
      simp only [hprom]
      exact h.onCancel hget hprom (hown f hget) (fun waiter => by simp) (hatt f)

theorem Invariant.timeout (hown : ∀ f, s.fetches[i]? = some f → f.timeout = true → FindsOwn s f) :
    Invariant precheck history (s.timeout i) := by
  unfold State.timeout
  rcases hget : s.fetches[i]? with _ | f
  · exact h
  · cases hprom : f.promise with
    | reading | resolved | cancelled => simpa only [hprom] using h
    | waiting waiter =>
      simp only [hprom]
      split
      · rename_i htim
        exact h.onCancel hget hprom (hown f hget htim) (fun waiter => by simp) fun _ => .inr (.inr ⟨htim, rfl⟩)
      · exact h

/-- The cancellation of a fetch leaves somebody behind if it finds the entry of others. -/
theorem Invariant.findsOwn {history' : List (Action K V A N P)} (hget : s.fetches[i]? = some f)
    (haft : NoOrphan precheck history' ((s.onCancel f.key).setPromise i f promise)) : FindsOwn s f := by
  intro waiter waiter' waiters param hwts hfind
  by_contra hne
  have hf : waitsOn waiter' f = false := not_waitsOn fun hwts' => hne (Promise.waiting.inj (hwts'.symm.trans hwts))
  have hcnt := countP_set (a := { f with promise := promise }) hget (waitsOn waiter')
  rw [hf, Bool.toNat_false, Nat.add_zero] at hcnt
  have hwait := h.counted f.key waiter' waiters param hfind
  unfold State.onCancel at haft
  simp only [hfind] at haft
  split at haft
  · -- The entry was removed, and the one that it counted still waits.
    have hpos : 0 < (s.fetches.set i { f with promise := promise }).countP (waitsOn waiter') := by omega
    obtain ⟨f', hmem, hwts'⟩ := countP_pos_iff.mp hpos
    obtain ⟨j, hget'⟩ := mem_iff_getElem?.mp hmem
    have hatt := haft.attended j f' hget'
    unfold Attended at hatt
    simp only [waitsOn_iff.mp hwts'] at hatt
    rcases hatt with ⟨waiters', param', hfind'⟩ | ⟨result, hres, -⟩
    · have hrem := (find?_remove h.unique).symm.trans hfind'
      split at hrem
      · cases hrem
      · rename_i hkey
        exact hkey (h.apart f'.key f.key waiter' waiters' waiters param' param hrem hfind)
    · cases (h.asleep f.key waiter' waiters param hfind).symm.trans hres
  · have hsame : waiters - 1 = ((s.fetches.set i { f with promise := promise }).countP (waitsOn waiter') : Nat) :=
      haft.counted f.key waiter' (waiters - 1) param (rebinds_replace h.unique).self
    omega

theorem Invariant.withInjects {injects' : List (Inject K V)}
    (hinj : ∀ (j : Nat) k v, injects'[j]? = some (.looking k v) → .inject k v ∈ history) :
    Invariant precheck history { s with injects := injects' } :=
  ⟨⟨h.unique, h.attended, h.counted⟩, h.asleep, h.apart, h.given, hinj⟩

theorem Invariant.injectKnown {known : Bool}
    (hfree : known = false → ∀ k v, s.injects[j]? = some (.looking k v) → s.memory.find? k = none) :
    Invariant precheck history (s.injectKnown j known) := by
  unfold State.injectKnown
  rcases hget : s.injects[j]? with _ | call
  · exact h
  · cases call with
    | returned injected => exact h
    | looking k v =>
      have hset :
          ∀ {injected : Bool} (j' : Nat) k' v', (s.injects.set j (.returned injected))[j']? = some (.looking k' v') →
          .inject k' v' ∈ history := by
        intro injected j' k' v' hget'
        rcases (getElem?_set_iff hget).mp hget' with ⟨-, heq⟩ | ⟨-, hbef⟩
        · cases heq
        · exact h.injected j' k' v' hbef
      cases known with
      | true => exact h.withInjects hset
      | false =>
        have hnone := hfree rfl k v hget
        refine (h.rebind (rebinds_add h.unique hnone) ?_ ?_).withInjects hset
        · exact fun _ => .inr (.inl (h.injected j k v hget))
        · intro waiter waiters param heq
          cases hnone.symm.trans heq

theorem Invariant.inject (hmem : .inject k v ∈ history) : Invariant precheck history (s.inject k v) := by
  unfold State.inject
  cases s.memory.find? k with
  | none | some =>
    refine h.withInjects fun j k' v' hget => ?_
    rcases getElem?_concat_iff.mp hget with hbef | ⟨-, heq⟩
    · exact h.injected j k' v' hbef
    · cases heq <;> exact hmem

/-- An injection finds no entry that was made while it asked the disk, and a cancellation or a timeout comes while the
    entry of its fetch is there, or while its key has none. -/
def Careful (s : State K V A P) : Action K V A N P → Prop
  | .injectKnown j known => known = false → ∀ k v, s.injects[j]? = some (.looking k v) → s.memory.find? k = none
  | .cancel i => ∀ f, s.fetches[i]? = some f → FindsOwn s f
  | .timeout i => ∀ f, s.fetches[i]? = some f → f.timeout = true → FindsOwn s f
  | _ => True

theorem Invariant.keep (hok : Careful s a) : Invariant precheck (history ++ [a]) (step precheck s a) := by
  have hlast : a ∈ history ++ [a] := mem_append_right _ (mem_singleton_self a)
  cases a with
  | fetch peer timeout k param => exact h.concat.fetch
  | fetchRead i value =>
    refine h.concat.fetchRead fun v hv => ?_
    rwa [← hv]
  | cancel i => exact h.concat.cancel hok
  | timeout i => exact h.concat.timeout hok
  | deliver i => exact h.concat.deliver
  | notify p k value => exact h.concat.notify hlast
  | notifyKnown j known =>
    show Invariant precheck _ (s.notifyKnown j known)
    unfold State.notifyKnown
    split
    · exact { h.concat with }
    · exact h.concat
  | inject k v => exact h.concat.inject hlast
  | injectKnown j known => exact h.concat.injectKnown hok
  | resolvePending k v => exact h.concat.resolvePending (.inr (.inr hlast))
  | clearOrCancel k => exact h.concat.clearOrCancel

theorem Invariant.careful (haft : NoOrphan precheck (history ++ [a]) (step precheck s a)) : Careful s a := by
  cases a with
  | fetch | fetchRead | deliver | notify | notifyKnown | inject | resolvePending | clearOrCancel => trivial
  | cancel i =>
    intro f hget waiter waiter' waiters param hwts
    simp only [step, State.cancel, hget, hwts] at haft
    exact h.findsOwn hget haft waiter waiter' waiters param hwts
  | timeout i =>
    intro f hget htim waiter waiter' waiters param hwts
    simp only [step, State.timeout, hget, hwts, htim, if_true] at haft
    exact h.findsOwn hget haft waiter waiter' waiters param hwts
  | injectKnown j known =>
    rintro rfl k v hget
    have huniq : (s.injectKnown j false).memory.keys.Nodup := haft.unique
    simp only [State.injectKnown, hget, Bool.false_eq_true, if_false] at huniq
    exact find?_eq_none.mpr (nodup_cons.mp huniq).1

omit h

/-- No fetch is orphaned along a run of the table if, and only if, all its actions are careful. -/
theorem no_orphan_iff_careful (precheck : K → A → N → Option V) (actions : List (Action K V A N P)) :
    Throughout (fun history => NoOrphan precheck history (run (step precheck) create history)) actions ↔
      StepsMeet (step precheck) create Careful actions :=
  throughout_iff_stepsMeet (fun history s => Invariant precheck history s) invariant_create
    (fun _ _ _ h hok => h.keep hok) (fun _ h => h.toNoOrphan)
    (fun ops a h haft => h.careful (by rwa [run_append_singleton] at haft))

/-- A key is injected and fetched, and the disk answers the fetch first. -/
def injectedBehind : List (Action Nat Nat Unit Nat Unit) :=
  [.fetch none false 0 (), .inject 0 7, .fetchRead 0 none, .injectKnown 0 false]

/-- The injected value hides the entry that the fetch waits for, and nobody is left to wake the fetch up. -/
theorem injection_hides_entry :
    let s := run (step fun _ _ value => some value) create injectedBehind
    s.memory = [(0, .found 7), (0, .pending 0 1 ())] ∧ s.waiters = [none] ∧
      s.fetches = [⟨none, false, 0, (), .waiting 0⟩] ∧
      ¬NoOrphan (fun _ _ value => some value) injectedBehind s :=
  ⟨rfl, rfl, rfl, fun h => absurd h.unique (by decide)⟩

-- A fetch that is cancelled after its waiter was woken up takes the entry of the next fetch of the key with it.
example :
    let s := run (step fun _ _ value => some value) (create : State Nat Nat Unit Unit)
      [.fetch none false 0 (), .fetchRead 0 none, .clearOrCancel 0, .fetch none false 0 (), .fetchRead 1 none, .cancel 0]
    s.memory = [] ∧ s.waiters = [some (.error (.canceled 0)), none] ∧
      s.fetches.map Fetch.promise = [.cancelled, .waiting 1] :=
  ⟨rfl, rfl, rfl⟩

end Tezos.DistributedDb
