import Mathlib.Tactic.Ring
import Tezos.Lib.Runs
import Tezos.Lib.Tokens
import Tezos.P2p.IoScheduler

/-! The messages of a connection are pushed in the order they are popped: they only move with its one token. The
    bandwidth limit: the worker waits for one update only, also with a negative quota. -/

namespace Tezos.IoScheduler
open Lib List IoScheduler.State

variable {st : State} {conn : Connection} {res : Res}

inductive Token where
  | waiter (thread : Waiter)
  | entry (res : Res)
  | handling

def Worker.tokens : Worker → List (Nat × Token)
  | .handle c _ _ => [(c, .handling)]
  | _ => []

def threadToken (p : Nat × Waiter) : Nat × Token := (p.1, .waiter p.2)

def entryToken (p : Nat × Res) : Nat × Token := (p.1, .entry p.2)

def State.tokens (st : State) : List (Nat × Token) :=
  st.waiters.map threadToken ++ ((st.readysHigh ++ st.readysLow).map entryToken ++ st.worker.tokens)

def message (res : Res) : List (List UInt8) := res.toOption.toList

/-- The current pop is done, and its message is the only one that was popped and not pushed. -/
def Arrived (conn : Connection) (res : Res) : Prop :=
  conn.currentPop = .done res ∧ conn.popped = conn.pushed ++ message res

/-- The current pop is done, and all messages were pushed. -/
def Served (conn : Connection) : Prop := (∃ res, conn.currentPop = .done res) ∧ conn.popped = conn.pushed

/-- A connection, given who has its next message. -/
structure ConnOk (conn : Connection) (token : Option Token) : Prop where
  pushing : conn.pushing = [] ∨ conn.pushing = [conn.currentPush]
  served : match token with
    | some (.waiter .pop) => conn.currentPop = .sleep ∧ conn.popped = conn.pushed ∨ ∃ res, Arrived conn res
    | some (.waiter (.push res push)) => Arrived conn res ∧ push = conn.currentPush
    | some (.entry res) => Arrived conn res ∧ conn.pushing = []
    | some .handling | none => Served conn

structure Inv (st : State) : Prop where
  held : Held ConnOk st.conns st.tokens
  failed : st.failed = false

variable {conn' : Connection} {token : Option Token} {i c : Nat} {thread : Nat × Waiter}
  {waiters : List (Nat × Waiter)}

theorem ConnOk.congr (h : ConnOk conn token) (hpop : conn'.currentPop = conn.currentPop)
    (hcur : conn'.currentPush = conn.currentPush) (hpus : conn'.pushing = conn.pushing)
    (hpopp : conn'.popped = conn.popped) (hpushed : conn'.pushed = conn.pushed) : ConnOk conn' token := by
  obtain ⟨closed', pop', cur', quota', pushing', popped', pushed'⟩ := conn'
  subst hpop hcur hpus hpopp hpushed
  exact ⟨h.pushing, h.served⟩

theorem ConnOk.popDone (h : ConnOk conn token) (hslp : conn.currentPop = .sleep) (res : Res) :
    ConnOk { conn with currentPop := .done res, popped := conn.popped ++ message res } token := by
  refine ⟨h.pushing, ?_⟩
  have hsrv := h.served
  split at hsrv
  · rcases hsrv with ⟨-, heq⟩ | ⟨res', hdone, -⟩
    · exact .inr ⟨res, rfl, by rw [heq]⟩
    · exact absurd (hslp.symm.trans hdone) nofun
  · exact absurd (hslp.symm.trans hsrv.1.1) nofun
  · exact absurd (hslp.symm.trans hsrv.1.1) nofun
  · obtain ⟨⟨res', hdone⟩, -⟩ := hsrv
    exact absurd (hslp.symm.trans hdone) nofun
  · obtain ⟨⟨res', hdone⟩, -⟩ := hsrv
    exact absurd (hslp.symm.trans hdone) nofun

theorem ConnOk.pushDone (h : ConnOk conn token) (push : Nat) :
    ConnOk { conn with pushing := conn.pushing.erase push } token := by
  refine ⟨?_, ?_⟩
  · rcases h.pushing with hnil | hone
    · left
      rw [hnil]
      rfl
    · rw [hone, erase_cons]
      split
      · exact .inl rfl
      · exact .inr rfl
  · have hsrv := h.served
    split at hsrv
    · exact hsrv
    · exact hsrv
    · refine ⟨hsrv.1, ?_⟩
      rw [hsrv.2]
      rfl
    · exact hsrv
    · exact hsrv

theorem perm_eraseIdx (hi : waiters[i]? = some thread) (l : List (Nat × Token)) :
    (waiters.map threadToken ++ l).Perm (threadToken thread :: ((waiters.eraseIdx i).map threadToken ++ l)) := by
  obtain ⟨hlt, rfl⟩ := List.getElem?_eq_some_iff.mp hi
  exact ((getElem_cons_eraseIdx_perm hlt).symm.map threadToken).append_right l

theorem perm_set (thread' : Nat × Waiter) (hi : waiters[i]? = some thread) (l : List (Nat × Token)) :
    ((waiters.set i thread').map threadToken ++ l).Perm
      (threadToken thread' :: ((waiters.eraseIdx i).map threadToken ++ l)) := by
  obtain ⟨hlt, -⟩ := List.getElem?_eq_some_iff.mp hi
  exact ((set_perm_cons_eraseIdx hlt thread').map threadToken).append_right l

theorem perm_entry (threads : List (Nat × Token)) (before after : List (Nat × Res)) (e : Nat × Res)
    (l : List (Nat × Token)) :
    (threads ++ ((before ++ e :: after).map entryToken ++ l)).Perm
      (entryToken e :: (threads ++ ((before ++ after).map entryToken ++ l))) := by
  have hmid : ((before ++ e :: after).map entryToken ++ l).Perm
      (entryToken e :: ((before ++ after).map entryToken ++ l)) :=
    (perm_middle.map entryToken).append_right l
  exact (hmid.append_left threads).trans perm_middle

theorem perm_worker (threads entries : List (Nat × Token)) (t : Nat × Token) :
    (threads ++ (entries ++ [t])).Perm (t :: (threads ++ (entries ++ []))) := by
  rw [← append_assoc, append_nil]
  exact perm_append_singleton t (threads ++ entries)

/-! ### One lemma for each step -/

theorem Inv.createConnection (h : Inv st) : Inv (createConnection st) := by
  refine ⟨?_, h.failed⟩
  have hconns : ∀ a b : Connection, (st.conns ++ [a]).set st.conns.length b = st.conns ++ [b] := by
    intro a b
    rw [set_append_right _ _ (le_rfl), Nat.sub_self]
    rfl
  have hok : ConnOk ⟨false, .sleep, 0, 0, [], [], []⟩ (some (.waiter .pop)) := ⟨.inl rfl, .inl ⟨rfl, rfl⟩⟩
  unfold IoScheduler.createConnection waiter
  simp only [hconns]
  refine (h.held.concat hok).perm ?_
  show Perm _ ((st.waiters ++ [(st.conns.length, Waiter.pop)]).map threadToken ++ _)
  rw [map_append, append_assoc]
  exact perm_middle.symm

theorem Inv.setConn (h : Inv st) (hget : st.conns[c]? = some conn)
    (hok : ∀ token, ConnOk conn token → ConnOk conn' token) : Inv { st with conns := st.conns.set c conn' } :=
  ⟨h.held.update hget hok, h.failed⟩

theorem Inv.resume {thread : Waiter} (h : Inv st) (hi : st.waiters[i]? = some (c, thread))
    (hget : st.conns[c]? = some conn) : Inv (resume i c conn st thread) := by
  have hheld := h.held.perm (perm_eraseIdx hi _)
  have hok := hheld.some c _ conn mem_cons_self hget
  cases thread with
  | pop =>
    rw [IoScheduler.resume]
    split
    · rename_i res hdone
      have hpush : ConnOk conn (some (.waiter (.push res conn.currentPush))) := by
        refine ⟨hok.pushing, ?_, rfl⟩
        rcases hok.served with ⟨hslp, -⟩ | ⟨res', hdone', hpopp⟩
        · exact absurd (hslp.symm.trans hdone) nofun
        · cases hdone.symm.trans hdone'
          exact ⟨hdone, hpopp⟩
      have hperm := perm_set (c, .push res conn.currentPush) hi
        ((st.readysHigh ++ st.readysLow).map entryToken ++ st.worker.tokens)
      exact ⟨(hheld.exchange hget hpush).perm hperm.symm, h.failed⟩
    · exact h
  | push res push =>
    rw [IoScheduler.resume]
    split
    · exact h
    · rename_i hpush
      have hentry : ConnOk conn (some (.entry res)) := by
        obtain ⟨harr, rfl⟩ := hok.served
        refine ⟨hok.pushing, harr, ?_⟩
        rcases hok.pushing with hnil | hone
        · exact hnil
        · exact absurd (hone ▸ mem_singleton_self _) hpush
      have hheld' := hheld.exchange hget hentry
      split
      · refine ⟨hheld'.perm ?_, h.failed⟩
        show Perm _ (_ ++ ((st.readysHigh ++ [(c, res)] ++ st.readysLow).map entryToken ++ st.worker.tokens))
        rw [append_assoc st.readysHigh]
        exact (perm_entry _ st.readysHigh st.readysLow (c, res) _).symm
      · refine ⟨hheld'.perm ?_, h.failed⟩
        show Perm _ (_ ++ ((st.readysHigh ++ (st.readysLow ++ [(c, res)])).map entryToken ++ st.worker.tokens))
        rw [← append_assoc st.readysHigh]
        have hperm := (perm_entry ((st.waiters.eraseIdx i).map threadToken) (st.readysHigh ++ st.readysLow) [] (c, res)
          st.worker.tokens).symm
        rw [append_nil] at hperm
        exact hperm

theorem Inv.handle (st : State) (hheld : Held ConnOk st.conns ((c, .entry res) :: st.tokens))
    (hfail : st.failed = false) (hwk : st.worker = .waitData) (prio : Bool) : Inv (handle prio c st res) := by
  obtain ⟨conn, hget⟩ : ∃ conn, st.conns[c]? = some conn :=
    ⟨_, getElem?_eq_getElem (hheld.lt c _ mem_cons_self)⟩
  obtain ⟨-, ⟨hdone, hpopp⟩, hpus⟩ := hheld.some c _ conn mem_cons_self hget
  rw [tokens, hwk] at hheld
  cases res with
  | error e =>
    have hsrv : ConnOk conn none := ⟨.inl hpus, ⟨_, hdone⟩, by rw [hpopp]; exact append_nil _⟩
    have hdisc := hheld.discard hget hsrv
    cases e <;> exact ⟨hdisc, hfail⟩
  | ok msg =>
    have hsrv : ConnOk { conn with currentPush := conn.currentPush + 1,
                                      pushing := (conn.currentPush + 1) :: conn.pushing,
                                      pushed := conn.pushed ++ [msg] } (some .handling) :=
      ⟨.inr (by rw [hpus]), ⟨_, hdone⟩, hpopp⟩
    simp only [IoScheduler.handle, hget]
    exact ⟨(hheld.move hsrv).perm (perm_worker _ _ _).symm, hfail⟩

theorem Inv.waiter (hheld : Held ConnOk st.conns ((c, .handling) :: st.tokens)) (hfail : st.failed = false)
    (hok : ConnOk conn (some .handling)) : Inv (waiter c conn st) := by
  obtain ⟨hpus, ⟨res, hdone⟩, hpopp⟩ := hok
  have hpop : ConnOk { conn with currentPop := .sleep } (some (.waiter .pop)) := ⟨hpus, .inl ⟨rfl, hpopp⟩⟩
  simp only [IoScheduler.waiter, hdone]
  refine ⟨(hheld.move hpop).perm ?_, hfail⟩
  show Perm _ ((st.waiters ++ [(c, Waiter.pop)]).map threadToken ++ _)
  rw [map_append, append_assoc]
  exact perm_middle.symm

theorem Inv.work (h : Inv st) : Inv (work st) := by
  have hheld := h.held
  unfold IoScheduler.work
  split
  · rename_i hwk
    rw [tokens, hwk] at hheld
    split <;> exact ⟨hheld, h.failed⟩
  · rename_i hwk
    rw [tokens, hwk] at hheld
    exact ⟨hheld, h.failed⟩
  · exact h
  · rename_i hwk
    split
    · rw [tokens, hwk] at hheld
      exact ⟨hheld, h.failed⟩
    · split
      · rename_i c msg rest hhigh
        rw [tokens, hhigh] at hheld
        have htak : Held ConnOk st.conns ((c, .entry msg) :: ({ st with readysHigh := rest } : State).tokens) :=
          hheld.perm (perm_entry _ [] (rest ++ st.readysLow) (c, msg) _)
        exact Inv.handle { st with readysHigh := rest } htak h.failed hwk true
      · rename_i c msg rest hhigh hlow
        rw [tokens, hlow] at hheld
        have htak : Held ConnOk st.conns ((c, .entry msg) :: ({ st with readysLow := rest } : State).tokens) :=
          hheld.perm (perm_entry _ st.readysHigh rest (c, msg) _)
        exact Inv.handle { st with readysLow := rest } htak h.failed hwk false
      · exact h
  · rename_i c hwk
    split
    · exact h
    · rename_i conn hget
      rw [tokens, hwk] at hheld
      exact ⟨hheld.update hget fun _ hok => hok.congr rfl rfl rfl rfl rfl, h.failed⟩
  · rename_i c len prio hwk
    rw [tokens, hwk] at hheld
    have hheld' := hheld.perm (perm_worker _ _ _)
    split
    · exact h
    · rename_i conn hget
      have hok := hheld'.some c _ conn mem_cons_self hget
      have hok' : ConnOk (if prio then { conn with quota := conn.quota - len } else conn) (some .handling) := by
        split
        · exact hok.congr rfl rfl rfl rfl rfl
        · exact hok
      exact Inv.waiter (hheld'.move hok') h.failed hok'
  · exact h

theorem perm_filter (threads : List (Nat × Token)) (high low : List (Nat × Res)) (p : Nat × Res → Bool)
    (l : List (Nat × Token)) :
    (threads ++ ((high ++ low).map entryToken ++ l)).Perm
      (threads ++ ((high ++ low.filter p ++ low.filter (!p ·)).map entryToken ++ l)) := by
  have hperm : (high ++ low).Perm (high ++ low.filter p ++ low.filter (!p ·)) := by
    rw [append_assoc]
    exact (filter_append_perm p low).symm.append_left high
  exact ((hperm.map entryToken).append_right l).append_left threads

theorem tokens_wake (worker : Worker) : worker.wake.tokens = worker.tokens := by
  cases worker <;> rfl

theorem Inv.updateQuota (h : Inv st) : Inv (updateQuota st) := by
  unfold IoScheduler.updateQuota
  rcases hspd : st.maxSpeed with _ | quota
  · exact ⟨h.held.perm (perm_filter _ _ _ _ _), h.failed⟩
  · refine ⟨h.held.perm ?_, h.failed⟩
    simp only [tokens, tokens_wake]
    exact perm_filter _ _ _ _ _

theorem Inv.step (h : Inv st) (a : Action) : Inv (step st a) := by
  cases a with
  | createConnection => exact h.createConnection
  | popDone c res =>
    rw [IoScheduler.step]
    split
    · rename_i conn hget
      split
      · rename_i hslp
        exact h.setConn hget fun _ hok => hok.popDone hslp res
      · exact h
    · exact h
  | pushFailed c =>
    rw [IoScheduler.step]
    split
    · rename_i conn hget
      split
      · exact h
      · exact h.setConn hget fun _ hok => hok.congr rfl rfl rfl rfl rfl
    · exact h
  | pushDone c push =>
    rw [IoScheduler.step]
    split
    · rename_i conn hget
      exact h.setConn hget fun _ hok => hok.pushDone push
    · exact h
  | resume i =>
    rw [IoScheduler.step]
    split
    · rename_i c thread hi
      split
      · rename_i conn hget
        exact h.resume hi hget
      · exact h
    · exact h
  | work => exact h.work
  | resetQuota c fair =>
    rw [IoScheduler.step]
    split
    · rename_i conn hget
      exact h.setConn hget fun _ hok => hok.congr rfl rfl rfl rfl rfl
    · exact h
  | updateQuota => exact h.updateQuota
  | shutdown => exact ⟨h.held, h.failed⟩

theorem inv_create (maxSpeed : Option Int) : Inv (create maxSpeed) := ⟨Held.nil, rfl⟩

/-- Messages are pushed in the order they were popped. -/
structure Ordered (st : State) : Prop where
  entries : ((st.readysHigh ++ st.readysLow).map Prod.fst).Nodup
  /-- What is pushed is what was popped, in this order, but for a message that is on its way: a thread of `waiter` or an
      entry has it. -/
  order : ∀ (c : Nat) (conn : Connection), st.conns[c]? = some conn → conn.popped = conn.pushed ∨
    ∃ msg, conn.popped = conn.pushed ++ [msg] ∧ conn.currentPop = .done (.ok msg) ∧
    ((∃ thread, (c, thread) ∈ st.waiters) ∨ (c, .ok msg) ∈ st.readysHigh ++ st.readysLow)
  /-- No push starts before the one before is resolved: two are never pending. -/
  pushing : ∀ (c : Nat) (conn : Connection), st.conns[c]? = some conn → conn.pushing.length ≤ 1
  /-- The assertion of `waiter` holds. -/
  waiter : st.failed = false

theorem Arrived.cases (h : Arrived conn res) :
    conn.popped = conn.pushed ∨ ∃ msg, res = .ok msg ∧ conn.popped = conn.pushed ++ [msg] ∧
      conn.currentPop = .done (.ok msg) := by
  obtain ⟨hdone, hpopp⟩ := h
  cases res with
  | error e => exact .inl (hpopp.trans (append_nil _))
  | ok msg => exact .inr ⟨msg, rfl, hpopp, hdone⟩

theorem Inv.order (h : Inv st) (hget : st.conns[c]? = some conn) :
    conn.popped = conn.pushed ∨ ∃ msg, conn.popped = conn.pushed ++ [msg] ∧ conn.currentPop = .done (.ok msg) ∧
      ((∃ thread, (c, thread) ∈ st.waiters) ∨ (c, .ok msg) ∈ st.readysHigh ++ st.readysLow) := by
  by_cases hmem : c ∈ st.tokens.map Prod.fst
  · obtain ⟨⟨c, token⟩, htok, rfl⟩ := mem_map.mp hmem
    have hsrv := (h.held.some c token conn htok hget).served
    rcases mem_append.mp htok with hthr | hrest
    · obtain ⟨⟨d, thread⟩, hmem', heq⟩ := mem_map.mp hthr
      cases heq
      have harr : conn.popped = conn.pushed ∨ ∃ res, Arrived conn res := by
        cases thread with
        | pop => exact hsrv.imp_left And.right
        | push res push => exact .inr ⟨res, hsrv.1⟩
      rcases harr with heq | ⟨res, harr⟩
      · exact .inl heq
      · refine harr.cases.imp_right ?_
        rintro ⟨msg, -, hpopp, hdone⟩
        exact ⟨msg, hpopp, hdone, .inl ⟨thread, hmem'⟩⟩
    · rcases mem_append.mp hrest with hentry | hwk
      · obtain ⟨⟨d, res⟩, hmem', heq⟩ := mem_map.mp hentry
        cases heq
        refine hsrv.1.cases.imp_right ?_
        rintro ⟨msg, rfl, hpopp, hdone⟩
        exact ⟨msg, hpopp, hdone, .inr hmem'⟩
      · cases hw : st.worker with
        | handle d len prio =>
          rw [hw] at hwk
          cases mem_singleton.mp hwk
          exact .inl hsrv.2
        | _ =>
          rw [hw] at hwk
          exact absurd hwk not_mem_nil
  · exact .inl (h.held.none c conn hmem hget).served.2

theorem Inv.pushing (h : Inv st) (hget : st.conns[c]? = some conn) : conn.pushing.length ≤ 1 := by
  obtain ⟨token, hok⟩ := h.held.exists_ok hget
  rcases hok.pushing with hnil | hone
  · rw [hnil]
    exact Nat.zero_le 1
  · rw [hone]
    exact le_refl 1

theorem Inv.ordered (h : Inv st) : Ordered st where
  entries := by
    have hnd := h.held.nodup
    rw [tokens, map_append, map_append] at hnd
    have hent := (nodup_append.mp (nodup_append.mp hnd).2.1).1
    rw [map_map] at hent
    exact hent
  order _ _ hget := h.order hget
  pushing _ _ hget := h.pushing hget
  waiter := h.failed

/-- In every run, over any number of connections, the messages of each one are pushed as they were popped. -/
theorem ordered_run (maxSpeed : Option Int) (actions : List Action) : Ordered (run step (create maxSpeed) actions) :=
  (inv_run Inv (inv_create maxSpeed) (fun _ a h => h.step a) actions).ordered

/-! ### Bandwidth -/

variable {q : Int}

/-- The length of the message whose push has started, and that the quota does not count yet. -/
def Worker.inFlight : Worker → Nat
  | .handle _ len _ => len
  | _ => 0

def State.Takes (st : State) (msg : List UInt8) : Prop :=
  st.worker = .waitData ∧ st.canceled = false ∧ ∃ c, (st.readysHigh ++ st.readysLow).head? = some (c, .ok msg)

/-! ### What a step does to the quota -/

def SameLedger (st st' : State) : Prop :=
  st'.maxSpeed = st.maxSpeed ∧ st'.quota = st.quota ∧ st'.handled = st.handled ∧ st'.updates = st.updates

inductive Effect (st : State) (a : Action) (st' : State) : Prop
  | keep (same : SameLedger st st') (worker : st'.worker = st.worker)
  | turn (same : SameLedger st st') (before : st.worker.inFlight = 0) (after : st'.worker.inFlight = 0)
      (wait : st'.worker ≠ .waitData)
  | pass (same : SameLedger st st') (before : st.worker = .checkQuota) (quota : ¬(st.maxSpeed.isSome ∧ st.quota < 0))
      (after : st'.worker = .waitData)
  | take (msg : List UInt8) (action : a = .work) (takes : st.Takes msg) (maxSpeed : st'.maxSpeed = st.maxSpeed)
      (quota : st'.quota = st.quota) (handled : st'.handled = msg.length :: st.handled)
      (updates : st'.updates = st.updates) (after : st'.worker.inFlight = msg.length) (wait : st'.worker ≠ .waitData)
  | settle (maxSpeed : st'.maxSpeed = st.maxSpeed) (quota : st'.quota = st.quota - st.worker.inFlight)
      (handled : st'.handled = st.handled) (updates : st'.updates = st.updates) (after : st'.worker.inFlight = 0)
      (wait : st'.worker ≠ .waitData)
  | update (maxSpeed : st'.maxSpeed = st.maxSpeed)
      (quota : ∀ q, st.maxSpeed = some q → st'.quota = min st.quota 0 + q ∧ st'.worker = st.worker.wake)
      (handled : st'.handled = st.handled) (updates : st'.updates = st.updates + 1)

theorem effect_refl (st : State) (a : Action) : Effect st a st := .keep ⟨rfl, rfl, rfl, rfl⟩ rfl

theorem effect_resume {thread : Waiter} (a : Action) : Effect st a (resume i c conn st thread) := by
  cases thread with
  | pop =>
    rw [resume]
    split <;> exact .keep ⟨rfl, rfl, rfl, rfl⟩ rfl
  | push res push =>
    rw [resume]
    split
    · exact effect_refl st a
    · split <;> exact .keep ⟨rfl, rfl, rfl, rfl⟩ rfl

theorem effect_handle {prio : Bool} {high low : List (Nat × Res)} (hwait : st.worker = .waitData)
    (hcan : st.canceled = false) (hhead : (st.readysHigh ++ st.readysLow).head? = some (c, res)) :
    Effect st .work (handle prio c { st with readysHigh := high, readysLow := low } res) := by
  have hflig : st.worker.inFlight = 0 := congrArg Worker.inFlight hwait
  cases res with
  | error e => cases e <;> exact .turn ⟨rfl, rfl, rfl, rfl⟩ hflig rfl nofun
  | ok msg =>
    rw [handle]
    split
    · exact .keep ⟨rfl, rfl, rfl, rfl⟩ rfl
    · exact .take msg rfl ⟨hwait, hcan, c, hhead⟩ rfl rfl rfl rfl rfl nofun

theorem effect_waiter (c : Nat) (conn : Connection) (st : State) :
    SameLedger st (waiter c conn st) ∧
      ((waiter c conn st).worker = st.worker ∨ (waiter c conn st).worker = .stopped) := by
  unfold waiter
  split
  · exact ⟨⟨rfl, rfl, rfl, rfl⟩, .inr rfl⟩
  · exact ⟨⟨rfl, rfl, rfl, rfl⟩, .inl rfl⟩

theorem effect_work : Effect st .work (work st) := by
  unfold work
  split
  · rename_i hwk
    split
    · exact .turn ⟨rfl, rfl, rfl, rfl⟩ (congrArg _ hwk) rfl nofun
    · rename_i hquota
      exact .pass ⟨rfl, rfl, rfl, rfl⟩ hwk hquota rfl
  · rename_i hwk
    exact .turn ⟨rfl, rfl, rfl, rfl⟩ (congrArg _ hwk) rfl nofun
  · exact effect_refl st _
  · rename_i hwk
    split
    · exact .turn ⟨rfl, rfl, rfl, rfl⟩ (congrArg _ hwk) rfl nofun
    · rename_i hcan
      have hcan' := eq_false_of_ne_true hcan
      split
      · rename_i hhigh
        exact effect_handle hwk hcan' (by rw [hhigh]; rfl)
      · rename_i hhigh hlow
        exact effect_handle hwk hcan' (by rw [hhigh, hlow]; rfl)
      · exact effect_refl st _
  · rename_i c hwk
    split
    · exact effect_refl st _
    · exact .turn ⟨rfl, rfl, rfl, rfl⟩ (congrArg _ hwk) rfl nofun
  · rename_i c len prio hwk
    split
    · exact effect_refl st _
    · rename_i conn hget
      obtain ⟨⟨hmax, hquota, hhan, hupd⟩, hnext⟩ := effect_waiter c
        (if prio then { conn with quota := conn.quota - len } else conn)
        { st with quota := st.quota - len,
                  conns := st.conns.set c (if prio then { conn with quota := conn.quota - len } else conn),
                  worker := .checkQuota }
      refine .settle hmax (hquota.trans (by rw [hwk]; rfl)) hhan hupd ?_ ?_
      · rcases hnext with hnext | hnext <;> rw [hnext] <;> rfl
      · rcases hnext with hnext | hnext <;> rw [hnext] <;> exact nofun
  · exact effect_refl st _

theorem effect_updateQuota (a : Action) : Effect st a (updateQuota st) := by
  unfold updateQuota
  rcases hspd : st.maxSpeed with _ | q
  · exact .update hspd.symm (fun q hq => absurd (hspd.symm.trans hq) nofun) rfl rfl
  · refine .update hspd.symm (fun q' hq => ?_) rfl rfl
    cases hspd.symm.trans hq
    exact ⟨rfl, rfl⟩

theorem effect_step (st : State) (a : Action) : Effect st a (step st a) := by
  cases a with
  | createConnection | shutdown => exact .keep ⟨rfl, rfl, rfl, rfl⟩ rfl
  | popDone | pushFailed =>
    rw [step]
    split
    · split <;> exact .keep ⟨rfl, rfl, rfl, rfl⟩ rfl
    · exact effect_refl st _
  | pushDone | resetQuota =>
    rw [step]
    split <;> exact .keep ⟨rfl, rfl, rfl, rfl⟩ rfl
  | resume i =>
    rw [step]
    split
    · split
      · exact effect_resume _
      · exact effect_refl st _
    · exact effect_refl st _
  | work => exact effect_work
  | updateQuota => exact effect_updateQuota _

/-- What was handled is within the limit, but for the length of one message. -/
def WithinLimit (q : Int) (st : State) : Prop :=
  (st.handled.sum : Int) ≤ (st.updates + 1) * q + (st.handled.foldr max 0 : Nat)

/-- The quota is at most what the updates allowed less what was handled, and what was handled is within the limit. -/
structure Ledger (q : Int) (st : State) : Prop where
  maxSpeed : st.maxSpeed = some q
  balance : st.quota + st.handled.sum ≤ (st.updates + 1) * q + st.worker.inFlight
  limit : WithinLimit q st

theorem inFlight_wake (worker : Worker) : worker.wake.inFlight = worker.inFlight := by
  cases worker <;> rfl

def Repaid (st : State) (a : Action) : Prop := a = .work → ∀ msg, st.Takes msg → 0 ≤ st.quota

theorem Ledger.same {st' : State} (h : Ledger q st) (hsame : SameLedger st st')
    (hflig : st'.worker.inFlight = st.worker.inFlight) : Ledger q st' := by
  obtain ⟨hmax, hquota, hhan, hupd⟩ := hsame
  refine ⟨hmax.trans h.maxSpeed, ?_, ?_⟩
  · rw [hquota, hhan, hupd, hflig]
    exact h.balance
  · rw [WithinLimit, hhan, hupd]
    exact h.limit

theorem Ledger.step {a : Action} (hq : 0 < q) (h : Ledger q st) (hok : Repaid st a) : Ledger q (step st a) := by
  have hbal := h.balance
  have hlim := h.limit
  unfold WithinLimit at hlim
  rcases effect_step st a with ⟨hsame, hwk⟩ | ⟨hsame, hbef, haft, -⟩ | ⟨hsame, hbef, -, haft⟩ |
    ⟨msg, ha, htak, hmax, hquota, hhan, hupd, haft, -⟩ | ⟨hmax, hquota, hhan, hupd, haft, -⟩ |
    ⟨hmax, hquota, hhan, hupd⟩
  · exact h.same hsame (by rw [hwk])
  · exact h.same hsame (haft.trans hbef.symm)
  · exact h.same hsame (by rw [hbef, haft]; rfl)
  · -- The message is counted at once, and paid for with the quota when the worker has noted it.
    have hflig : st.worker.inFlight = 0 := congrArg Worker.inFlight htak.1
    have hnonn := hok ha msg htak
    refine ⟨hmax.trans h.maxSpeed, ?_, ?_⟩
    · rw [hhan, hupd, List.sum_cons]
      omega
    · rw [WithinLimit, hhan, hupd, List.sum_cons, List.foldr_cons]
      omega
  · refine ⟨hmax.trans h.maxSpeed, ?_, ?_⟩
    · rw [hhan, hupd]
      omega
    · rw [WithinLimit, hhan, hupd]
      exact hlim
  · obtain ⟨hquota, hwk⟩ := hquota q h.maxSpeed
    have hsucc : ((st.updates + 1 : Nat) + 1 : Int) * q = (st.updates + 1) * q + q := by
      push_cast
      ring
    refine ⟨hmax.trans h.maxSpeed, ?_, ?_⟩
    · rw [hhan, hupd, hwk, inFlight_wake]
      omega
    · rw [WithinLimit, hhan, hupd]
      omega

theorem ledger_create (hq : 0 < q) : Ledger q (create (some q)) where
  maxSpeed := rfl
  balance := by
    show q + 0 ≤ (0 + 1) * q + 0
    omega
  limit := by
    show (0 : Int) ≤ (0 + 1) * q + 0
    omega

/-- Throughout a run that takes messages only with a quota that is not negative, what was handled is within the
    limit. -/
theorem withinLimit_of_repaid (hq : 0 < q) {actions : List Action} (h : StepsMeet step (create (some q)) Repaid actions) :
    Throughout (fun ops => WithinLimit q (run step (create (some q)) ops)) actions :=
  throughout_of_stepsMeet (fun _ st => Ledger q st) (ledger_create hq) (fun _ _ _ hled hok => hled.step hq hok)
    (fun _ hled => hled.limit) h

theorem withinLimit_of_repaid_one : StepsMeet step (create (some 1)) Repaid
        [.createConnection, .popDone 0 (.ok [0]), .resume 0, .resume 0, .work, .work] ∧
      Throughout (fun ops => WithinLimit 1 (run step (create (some 1)) ops))
        [.createConnection, .popDone 0 (.ok [0]), .resume 0, .resume 0, .work, .work] := by
  have hmeet : StepsMeet step (create (some 1)) Repaid
      [.createConnection, .popDone 0 (.ok [0]), .resume 0, .resume 0, .work, .work] := by
    refine stepsMeet_cons.mpr
      ⟨nofun, stepsMeet_cons.mpr ⟨nofun, stepsMeet_cons.mpr ⟨nofun, stepsMeet_cons.mpr ⟨nofun, ?_⟩⟩⟩⟩
    refine stepsMeet_cons.mpr ⟨fun _ _ htak => absurd htak.1 nofun, ?_⟩
    exact stepsMeet_cons.mpr ⟨fun _ _ _ => by decide, stepsMeet_nil⟩
  exact ⟨hmeet, withinLimit_of_repaid (by decide) hmeet⟩

/-- With a limit of one byte, two messages of ten bytes are handled after one update. -/
def overdrawn : List Action :=
  let msg := List.replicate 10 0
  [.createConnection, .popDone 0 (.ok msg), .resume 0, .resume 0, .work, .work, .work, .pushDone 0 1,
    .popDone 0 (.ok msg), .resume 0, .resume 0, .work, .work, .updateQuota, .work]

theorem handled_overdrawn :
    (run step (create (some 1)) overdrawn).updates = 1 ∧ (run step (create (some 1)) overdrawn).handled = [10, 10] ∧
      ¬WithinLimit 1 (run step (create (some 1)) overdrawn) := by
  unfold WithinLimit
  decide

end Tezos.IoScheduler
