import Tezos.Lib.Bytes
import Tezos.Shell.RequestScheduler

/-! The worker of the scheduler: a key that is due is sent once, to a peer that is there. Without an active peer it
    draws from an empty set, and the exception ends it. -/

namespace Tezos.RequestScheduler
open List Finset Lib Prod Table
open DistributedDb (Event)
variable {K P T S : Type}

/-- The peer is active, and is one of the designated ones if any of these is active. -/
def Suits (active : Finset P) (status : Status P T S) (peer : P) : Prop :=
  peer ∈ active ∧ ((∃ peer ∈ status.peers, peer ∈ active) → peer ∈ status.peers)

def Ends (key : K) : Event K P → Prop
  | .notify _ key' => key' = key
  | .notifyCancelation key' => key' = key
  | _ => False

/-- The key was requested, and neither received nor cancelled since. -/
def Outstanding (events : List (Event K P)) (key : K) : Prop :=
  ∃ peer, Since (.request peer key) (fun after => ∀ event ∈ after, ¬Ends key event) events

def Turn.taken : Turn K P T S → List (Event K P)
  | .events _ taken => taken
  | .timeout _ _ _ _ => []

variable (clock : Clock T S) in
/-- The key has a peer to be sent to, and its next delay is a span. -/
def Manned (active : Finset P) (status : Status P T S) : Prop :=
  ((∃ peer ∈ status.peers, peer ∈ active) ∨ status.peers = ∅ ∧ active.Nonempty) ∧
    (clock.multiplyExn status.delay).isSome

/-- The worker runs, and only keys still asked for are pending. -/
def Live (history : List (Turn K P T S)) (worker : Except Exn (Table K (Status P T S))) : Prop :=
  ∃ pending, worker = .ok pending ∧ pending.keys.Nodup ∧
    ∀ key ∈ pending.keys, Outstanding (history.flatMap Turn.taken) key

variable {clock : Clock T S} {now : T} {active : Finset P} {random : K → Nat} {status : Status P T S} {key : K} {peer : P}
  {acc acc' : Table K (Status P T S) × Requests K P} {bindings : List (K × Status P T S)}

variable {s : Finset P} {requests : Requests K P} {pending : Table K (Status P T S)} {event : Event K P}
  {t : Turn K P T S} {history : List (Turn K P T S)}

theorem Outstanding.concat {events : List (Event K P)} (h : Outstanding events key) (hends : ¬Ends key event) :
    Outstanding (events ++ [event]) key := by
  obtain ⟨peer, hsin⟩ := h
  refine ⟨peer, since_concat.mpr (.inr (hsin.imp fun after haft event' hmem => ?_))⟩
  rcases mem_append.mp hmem with hmem | hmem
  · exact haft event' hmem
  · rw [List.mem_singleton.mp hmem]
    exact hends

theorem live_create : Live [] (create : Except Exn (Table K (Status P T S))) :=
  ⟨[], rfl, nodup_nil, fun _ hmem => absurd hmem (by simp [Table.keys])⟩

variable [LinearOrder P]

theorem randomElt_ok {n : Nat} (h : randomElt n s = .ok peer) : peer ∈ s := by
  unfold randomElt at h
  split at h
  · cases h
  · split at h
    · rename_i hget
      cases h
      exact (mem_sort (· ≤ ·)).mp (mem_of_getElem? hget)
    · cases h

theorem exists_randomElt (n : Nat) (h : s.Nonempty) : ∃ peer, randomElt n s = .ok peer := by
  have hpos : 0 < s.card := card_pos.mpr h
  have hlt : n % s.card < s.sort.length := by
    rw [length_sort]
    exact Nat.mod_lt n hpos
  refine ⟨s.sort[n % s.card], ?_⟩
  unfold randomElt
  rw [if_neg (ne_of_gt hpos), getElem?_eq_getElem hlt]

theorem suits_of_mem (status : Status P T S) (hkept : ¬(status.peers ∩ active = ∅ ∧ status.peers ≠ ∅))
    (hmem : peer ∈ if status.peers ∩ active = ∅ then active else status.peers ∩ active) :
    ((∃ peer ∈ status.peers, peer ∈ active) ∨ status.peers = ∅ ∧ active.Nonempty) ∧
    Suits active status peer := by
  split at hmem
  · rename_i hnone
    have hemp : status.peers = ∅ := by
      by_contra hne
      exact hkept ⟨hnone, hne⟩
    refine ⟨.inr ⟨hemp, peer, hmem⟩, hmem, fun hdes => ?_⟩
    obtain ⟨peer', hpeer', -⟩ := hdes
    rw [hemp] at hpeer'
    exact absurd hpeer' (notMem_empty peer')
  · obtain ⟨hpeer, hact⟩ := mem_inter.mp hmem
    exact ⟨.inl ⟨peer, hpeer, hact⟩, hact, fun _ => hpeer⟩

theorem sent_add (hsrt : SortedMap.Sorted requests) :
    (Requests.sent (requests.add peer (key :: (requests.find? peer).getD []))).Perm ((peer, key) :: requests.sent) := by
  have hadd := (hsrt.add_perm (k := peer) (v := key :: (requests.find? peer).getD [])).flatMap_right
    fun request => request.2.map (request.1, ·)
  refine hadd.trans (Perm.cons (peer, key) ?_)
  rcases hfind : requests.find? peer with _ | keys
  · rw [SortedMap.remove_of_find?_none hfind]
    exact Perm.refl _
  · exact ((hsrt.perm_of_find? hfind).flatMap_right fun request => request.2.map (request.1, ·)).symm

variable [DecidableEq K]

theorem nodup_processEvent (hnd : pending.keys.Nodup) (event : Event K P) :
    (processEvent clock now pending event).keys.Nodup := by
  cases event with
  | request peer key =>
    unfold processEvent
    rcases hfind : pending.find? key with _ | data
    · simp only [hfind]
      exact nodup_add hnd (find?_eq_none.mp hfind)
    · simp only [hfind]
      exact nodup_replace hnd
  | notify | notifyCancelation => exact nodup_remove hnd
  | notifyInvalid | notifyDuplicate | notifyUnrequested => exact hnd

theorem mem_processEvent (hnd : pending.keys.Nodup) (h : key ∈ (processEvent clock now pending event).keys) :
    (∃ peer, event = .request peer key) ∨ key ∈ pending.keys ∧ ¬Ends key event := by
  have hrem : ∀ {key'}, key ∈ (pending.remove key').keys → key ∈ pending.keys ∧ ¬key' = key := by
    intro key' hmem
    rw [keys_remove] at hmem
    obtain ⟨hne, hmem⟩ := hnd.mem_erase_iff.mp hmem
    exact ⟨hmem, Ne.symm hne⟩
  cases event with
  | request peer key' =>
    unfold processEvent at h
    rcases hfind : pending.find? key' with _ | data
    · simp only [hfind] at h
      rcases mem_cons.mp h with rfl | hmem
      · exact .inl ⟨peer, rfl⟩
      · exact .inr ⟨hmem, not_false⟩
    · simp only [hfind] at h
      rcases mem_keys_replace h with rfl | hmem
      · exact .inl ⟨peer, rfl⟩
      · exact .inr ⟨hmem, not_false⟩
  | notify peer key' | notifyCancelation key' => exact .inr (hrem h)
  | notifyInvalid | notifyDuplicate | notifyUnrequested => exact .inr ⟨h, not_false⟩

theorem outstanding_events {past : List (Event K P)} (events : List (Event K P)) (hnd : pending.keys.Nodup)
    (hpast : ∀ key ∈ pending.keys, Outstanding past key) :
    (events.foldl (processEvent clock now) pending).keys.Nodup ∧
      ∀ key ∈ (events.foldl (processEvent clock now) pending).keys, Outstanding (past ++ events) key := by
  induction events generalizing pending past with
  | nil => exact ⟨hnd, by simpa using hpast⟩
  | cons event events ih =>
    have hstep : ∀ key ∈ (processEvent clock now pending event).keys, Outstanding (past ++ [event]) key := by
      intro key hmem
      rcases mem_processEvent hnd hmem with ⟨peer, rfl⟩ | ⟨hmem, hends⟩
      · exact ⟨peer, since_concat.mpr (.inl ⟨rfl, by simp⟩)⟩
      · exact (hpast key hmem).concat hends
    have hrest := ih (nodup_processEvent hnd event) hstep
    rwa [append_assoc, singleton_append] at hrest

omit [LinearOrder P] in
theorem filter_eq_singleton {sent : List (P × K)} (hnd : (sent.map snd).Nodup) (hmem : (peer, key) ∈ sent) :
    sent.filter (fun request => request.2 = key) = [(peer, key)] := by
  induction sent with
  | nil => cases hmem
  | cons request sent ih =>
    obtain ⟨hnot, hnd⟩ := nodup_cons.mp hnd
    rcases mem_cons.mp hmem with rfl | hmem
    · rw [List.filter_cons_of_pos (by simp), List.filter_eq_nil_iff.mpr]
      intro request hrequest heq
      exact hnot (mem_map.mpr ⟨request, hrequest, of_decide_eq_true heq⟩)
    · have hne : request.2 ≠ key := fun heq => hnot (mem_map.mpr ⟨(peer, key), hmem, heq.symm⟩)
      rw [List.filter_cons_of_neg (by simpa using hne)]
      exact ih hnd hmem

variable [LinearOrder T]

variable (clock) in
def Due (now : T) (status : Status P T S) : Prop := ¬clock.after now clock.ahead < status.nextRequest

/-- A turn does not raise, and at a timeout the keys that are due are sent as they should. -/
def Serves (clock : Clock T S) (before : List (Turn K P T S)) (t : Turn K P T S) : Prop :=
  ∃ pending pending' requests, run (step clock) create before = .ok pending ∧
    turn clock pending t = .ok (pending', requests) ∧
    (∀ now active order random, t = .timeout now active order random → ∀ key status,
      pending.find? key = some status → Due clock now status →
        ∃ peer, Suits active status peer ∧ requests.sent.filter (fun request => request.2 = key) = [(peer, key)]) ∧
    ∀ peer key, (peer, key) ∈ requests.sent → Outstanding (before.flatMap Turn.taken) key

theorem visit_ok (h : visit clock now active random acc (key, status) = .ok acc') :
    (¬(Due clock now status ∧ Manned clock active status) ∧ acc'.2 = acc.2 ∧ acc'.1.keys.Sublist acc.1.keys) ∨
      ∃ peer next, Due clock now status ∧ Manned clock active status ∧ Suits active status peer ∧
        acc' = (acc.1.replace key next, acc.2.add peer (key :: (acc.2.find? peer).getD [])) := by
  obtain ⟨peers, nextRequest, delay⟩ := status
  unfold visit at h
  simp only at h
  split at h
  · rename_i hlat
    cases h
    exact .inl ⟨fun hdue => hdue.1 hlat, rfl, Sublist.refl _⟩
  · rename_i hdue
    split at h
    · rename_i hgone
      cases h
      refine .inl ⟨fun hman => ?_, rfl, ?_⟩
      · rcases hman.2.1 with ⟨peer, hpeer, hact⟩ | ⟨hemp, -⟩
        · exact ne_empty_of_mem (mem_inter.mpr ⟨hpeer, hact⟩) hgone.1
        · exact hgone.2 hemp
      · rw [keys_remove]
        exact erase_sublist
    · rename_i hkept
      split at h
      · cases h
      · rename_i requestedPeer hdraw
        obtain ⟨hprs, hsts⟩ := suits_of_mem ⟨peers, nextRequest, delay⟩ hkept (randomElt_ok hdraw)
        split at h
        · cases h
        · rename_i delay' hdel
          cases h
          have hspan : (clock.multiplyExn delay).isSome := by rw [hdel]; rfl
          exact .inr ⟨requestedPeer, _, hdue, ⟨hprs, hspan⟩, hsts, rfl⟩

theorem exists_visit (hman : Due clock now status → Manned clock active status)
    (acc : Table K (Status P T S) × Requests K P) :
    ∃ acc', visit clock now active random acc (key, status) = .ok acc' := by
  obtain ⟨peers, nextRequest, delay⟩ := status
  unfold visit
  simp only
  split
  · exact ⟨_, rfl⟩
  · rename_i hdue
    obtain ⟨hprs, hspan⟩ := hman hdue
    obtain ⟨delay', hdel⟩ := Option.isSome_iff_exists.mp hspan
    split
    · exact ⟨_, rfl⟩
    · have hdrw : (if peers ∩ active = ∅ then active else peers ∩ active).Nonempty := by
        split
        · rcases hprs with ⟨peer, -, hact⟩ | ⟨-, hact⟩
          · exact ⟨peer, hact⟩
          · exact hact
        · rename_i hsome
          exact nonempty_iff_ne_empty.mpr hsome
      obtain ⟨requestedPeer, hdraw⟩ := exists_randomElt (random key) hdrw
      rw [hdraw]
      simp only [hdel]
      exact ⟨_, rfl⟩

theorem fold_ok (h : bindings.foldlM (visit clock now active random) acc = .ok acc')
    (hsrt : SortedMap.Sorted acc.2) (hnd : acc.1.keys.Nodup) :
    acc'.1.keys.Nodup ∧ (∀ key ∈ acc'.1.keys, key ∈ bindings.map fst ∨ key ∈ acc.1.keys) ∧
      ∃ sent, (Requests.sent acc'.2).Perm (sent ++ Requests.sent acc.2) ∧ (sent.map snd).Sublist (bindings.map fst) ∧
        (∀ peer key, (peer, key) ∈ sent → ∃ status, (key, status) ∈ bindings ∧ Manned clock active status ∧
          Suits active status peer) ∧
        ∀ key status, (key, status) ∈ bindings → Due clock now status → Manned clock active status →
          key ∈ sent.map snd := by
  induction bindings generalizing acc with
  | nil =>
    cases h
    exact ⟨hnd, fun _ => .inr, [], Perm.refl _, Sublist.refl _, by simp, by simp⟩
  | cons binding bindings ih =>
    obtain ⟨key, status⟩ := binding
    obtain ⟨acc₁, hvis, hfold⟩ := bind_eq_ok.mp h
    rcases visit_ok hvis with ⟨hidle, hreq, hsub⟩ | ⟨peer, next, hdue, hman, hsts, rfl⟩
    · obtain ⟨hnd', hkeys, sent, hsent, hsubl, hfrom, hto⟩ := ih hfold (hreq ▸ hsrt) (hnd.sublist hsub)
      refine ⟨hnd', fun key' hmem => ?_, sent, hreq ▸ hsent, hsubl.cons key, fun peer key' hmem => ?_, ?_⟩
      · exact (hkeys key' hmem).imp (mem_cons_of_mem key) (hsub.subset ·)
      · obtain ⟨status', hbin, hrest⟩ := hfrom peer key' hmem
        exact ⟨status', mem_cons_of_mem _ hbin, hrest⟩
      · intro key' status' hmem hdue hman
        rcases mem_cons.mp hmem with heq | hmem
        · cases heq
          exact absurd ⟨hdue, hman⟩ hidle
        · exact hto key' status' hmem hdue hman
    · obtain ⟨hnd', hkeys, sent, hsent, hsubl, hfrom, hto⟩ :=
        ih hfold hsrt.add (nodup_replace hnd)
      refine ⟨hnd', fun key' hmem => ?_, (peer, key) :: sent, ?_, hsubl.cons_cons key, fun peer' key' hmem => ?_, ?_⟩
      · rcases hkeys key' hmem with hmem | hmem
        · exact .inl (mem_cons_of_mem key hmem)
        · exact (mem_keys_replace hmem).imp (fun heq => mem_cons.mpr (.inl heq)) id
      · exact hsent.trans (((sent_add hsrt).append_left sent).trans perm_middle)
      · rcases mem_cons.mp hmem with heq | hmem
        · cases heq
          exact ⟨status, mem_cons_self, hman, hsts⟩
        · obtain ⟨status', hbin, hrest⟩ := hfrom peer' key' hmem
          exact ⟨status', mem_cons_of_mem _ hbin, hrest⟩
      · intro key' status' hmem hdue' hman'
        rcases mem_cons.mp hmem with heq | hmem
        · cases heq
          exact mem_cons_self
        · exact mem_cons_of_mem key (hto key' status' hmem hdue' hman')

theorem exists_fold (random : K → Nat)
    (hman : ∀ key status, (key, status) ∈ bindings → Due clock now status → Manned clock active status)
    (acc : Table K (Status P T S) × Requests K P) :
    ∃ acc', bindings.foldlM (visit clock now active random) acc = .ok acc' := by
  induction bindings generalizing acc with
  | nil => exact ⟨acc, rfl⟩
  | cons binding bindings ih =>
    obtain ⟨key, status⟩ := binding
    obtain ⟨acc₁, hvis⟩ := exists_visit (hman key status mem_cons_self) acc
    obtain ⟨acc', hfold⟩ := ih (fun key' status' hmem => hman key' status' (mem_cons_of_mem _ hmem)) acc₁
    exact ⟨acc', by rw [foldlM_cons, hvis]; exact hfold⟩

/-! ### Runs -/

/-- The keys that are due at a timeout have a peer each: an active one among the designated peers, or any active peer if
    none was designated. -/
def Served (clock : Clock T S) (worker : Except Exn (Table K (Status P T S))) : Turn K P T S → Prop
  | .events _ _ => True
  | .timeout now active _ _ => ∀ pending, worker = .ok pending → ∀ key status, pending.find? key = some status →
    Due clock now status → Manned clock active status

theorem exists_turn (hnd : pending.keys.Nodup) (hsrv : Served clock (.ok pending) t) :
    ∃ pending' requests, turn clock pending t = .ok (pending', requests) := by
  cases t with
  | events now events => exact ⟨_, _, rfl⟩
  | timeout now active order random =>
    obtain ⟨⟨pending', requests⟩, hturn⟩ := exists_fold random (fun key status hmem =>
      hsrv pending rfl key status ((find?_eq_some hnd).mpr ((order.perm pending).mem_iff.mp hmem)))
      (pending, [])
    exact ⟨pending', requests, hturn⟩

theorem turn_ok {pending' : Table K (Status P T S)} (hnd : pending.keys.Nodup)
    (hpast : ∀ key ∈ pending.keys, Outstanding (history.flatMap Turn.taken) key)
    (h : turn clock pending t = .ok (pending', requests)) :
    (pending'.keys.Nodup ∧ ∀ key ∈ pending'.keys, Outstanding ((history ++ [t]).flatMap Turn.taken) key) ∧
      ∀ peer key, (peer, key) ∈ requests.sent → Outstanding (history.flatMap Turn.taken) key := by
  rw [flatMap_append, flatMap_singleton]
  cases t with
  | events now events =>
    cases h
    exact ⟨outstanding_events events hnd hpast, fun peer key hmem => absurd hmem (by simp [Requests.sent])⟩
  | timeout now active order random =>
    have hbin : ∀ binding ∈ order.visited pending, binding.1 ∈ pending.keys := fun binding hmem =>
      mem_map_of_mem ((order.perm pending).mem_iff.mp hmem)
    obtain ⟨hnd', hkeys, sent, hsent, -, hfrom, -⟩ := fold_ok h Pairwise.nil hnd
    refine ⟨⟨hnd', fun key hmem => ?_⟩, fun peer key hmem => ?_⟩
    · rw [show Turn.taken (.timeout now active order random) = [] from rfl, append_nil]
      rcases hkeys key hmem with hmem | hmem
      · obtain ⟨binding, hvisited, rfl⟩ := mem_map.mp hmem
        exact hpast binding.1 (hbin binding hvisited)
      · exact hpast key hmem
    · have hmem' := hsent.mem_iff.mp hmem
      rw [show Requests.sent ([] : Requests K P) = [] from rfl, append_nil] at hmem'
      obtain ⟨status, hmem', -⟩ := hfrom peer key hmem'
      exact hpast key (hbin (key, status) hmem')

theorem Live.serves (h : Live history (run (step clock) create history)) :
    Serves clock history t ↔ Served clock (run (step clock) create history) t := by
  obtain ⟨pending, hrun, hnd, hpast⟩ := h
  cases t with
  | events now events =>
    refine iff_of_true ⟨pending, _, _, hrun, rfl, fun _ _ _ _ heq => absurd heq (by simp), ?_⟩ trivial
    exact fun peer key hmem => absurd hmem (by simp [Requests.sent])
  | timeout now active order random =>
    have hperm := order.perm pending
    have hkeys : ((order.visited pending).map fst).Nodup := (hperm.map fst).nodup_iff.mpr hnd
    constructor
    · rintro ⟨pending₀, pending', requests, hrun₀, hturn, hsrv, -⟩ pending₁ hrun₁ key status hfind hdue
      cases hrun.symm.trans hrun₀
      cases hrun.symm.trans hrun₁
      obtain ⟨peer, -, hsent⟩ := hsrv now active order random rfl key status hfind hdue
      have hmem : (peer, key) ∈ requests.sent :=
        List.mem_of_mem_filter (hsent ▸ List.mem_singleton_self (peer, key))
      obtain ⟨-, -, sent, hperm', -, hfrom, -⟩ := fold_ok hturn Pairwise.nil hnd
      have hmem' := hperm'.mem_iff.mp hmem
      rw [show Requests.sent ([] : Requests K P) = [] from rfl, append_nil] at hmem'
      obtain ⟨status', hbin, hman, -⟩ := hfrom peer key hmem'
      have heq := (find?_eq_some hnd).mpr (hperm.mem_iff.mp hbin)
      rw [hfind] at heq
      cases heq
      exact hman
    · intro hsrv
      have hfind : ∀ key status, (key, status) ∈ order.visited pending → pending.find? key = some status :=
        fun key status hmem => (find?_eq_some hnd).mpr (hperm.mem_iff.mp hmem)
      obtain ⟨pending', requests, hturn⟩ := exists_turn hnd (hrun ▸ hsrv)
      refine ⟨pending, pending', requests, hrun, hturn, ?_, (turn_ok hnd hpast hturn).2⟩
      intro now' active' order' random' heq key status hstat hdue
      cases heq
      obtain ⟨-, -, sent, hperm', hsub, hfrom, hto⟩ := fold_ok hturn Pairwise.nil hnd
      rw [show Requests.sent ([] : Requests K P) = [] from rfl, append_nil] at hperm'
      have hsent : (sent.map snd).Nodup := hkeys.sublist hsub
      have hbin := hperm.mem_iff.mpr (mem_of_find? hstat)
      obtain ⟨⟨peer, key'⟩, hmem, heq⟩ :=
        mem_map.mp (hto key status hbin hdue (hsrv pending hrun key status hstat hdue))
      obtain rfl : key' = key := heq
      obtain ⟨status', hbin', -, hsts⟩ := hfrom peer key' hmem
      rw [hfind key' status' hbin'] at hstat
      cases hstat
      refine ⟨peer, hsts, ?_⟩
      exact filter_eq_singleton ((hperm'.map snd).nodup_iff.mpr hsent) (hperm'.mem_iff.mpr hmem)

theorem Live.step {worker : Except Exn (Table K (Status P T S))} (h : Live history worker)
    (hsrv : Served clock worker t) : Live (history ++ [t]) (step clock worker t) := by
  obtain ⟨pending, rfl, hnd, hpast⟩ := h
  obtain ⟨pending', requests, hturn⟩ := exists_turn hnd hsrv
  refine ⟨pending', ?_, (turn_ok hnd hpast hturn).1⟩
  exact congrArg (Except.map fst) hturn

/-- The worker never raises and serves all the keys that are due, in every turn of a run, if and only if at every timeout
    of the run the keys that are due have a peer each. -/
theorem serves_iff_served (clock : Clock T S) (turns : List (Turn K P T S)) :
    (∀ before t, before ++ [t] <+: turns → Serves clock before t) ↔
      StepsMeet (step clock) create (Served clock) turns := by
  have hlive : ∀ {before : List (Turn K P T S)}, StepsMeet (step clock) create (Served clock) before →
      Live before (run (step clock) create before) := fun hmeet =>
    inv_of_stepsMeet Live live_create (fun _ _ _ h hsrv => h.step hsrv) hmeet
  constructor
  · intro h
    induction turns using reverseRecOn with
    | nil => exact stepsMeet_nil
    | append_singleton turns t ih =>
      have htur := ih fun before t' hpart => h before t' (hpart.trans (prefix_append turns [t]))
      intro before t' hpart
      rcases prefix_concat_iff.mp hpart with heq | hpart
      · obtain ⟨rfl, hlast⟩ := append_inj' heq rfl
        obtain rfl := singleton_inj.mp hlast
        exact (hlive htur).serves.mp (h before t' (prefix_refl _))
      · exact htur before t' hpart
  · intro hmeet before t hpart
    have hbef := hmeet.mono ((prefix_append before [t]).trans hpart)
    exact (hlive hbef).serves.mpr (hmeet before t hpart)

def seconds : Clock Nat Nat := ⟨0, fun now span => some (now + span), fun span => some (span + 1), 0, 1⟩

/-- A node without peers fetches a key that no peer was designated for. -/
def unmanned : List (Turn Nat Nat Nat Nat) :=
  [.events 0 [.request none 7], .timeout 0 ∅ ⟨id, fun _ => Perm.refl _⟩ fun _ => 0]

/-- The exception of `Random.int` ends the worker. -/
theorem worker_ends_unmanned : run (step seconds) create unmanned = .error .randomInt ∧
      ¬∀ before t, before ++ [t] <+: unmanned → Serves seconds before t := by
  refine ⟨rfl, fun h => ?_⟩
  obtain ⟨pending, pending', requests, hrun, hturn, -⟩ := h [.events 0 [.request none 7]] _ (prefix_refl unmanned)
  cases hrun
  cases hturn

end Tezos.RequestScheduler
