import Tezos.Lib.Table

/-! Records under keys. A record is known by its place among all those that were made, so that it goes on to exist in
    the hands of those who hold it. -/

namespace Tezos.Lib
open List Option Table

section
variable {α : Type} {l : List α} {i j : Nat} {a b old : α}

theorem getElem?_concat_iff : (l ++ [a])[j]? = some b ↔ l[j]? = some b ∨ j = l.length ∧ b = a := by
  rw [getElem?_append]
  split
  · rename_i hlt
    exact ⟨.inl, fun h => h.resolve_right fun heq => absurd heq.1 (Nat.ne_of_lt hlt)⟩
  · rename_i hge
    rw [getElem?_singleton, getElem?_eq_none (Nat.le_of_not_lt hge)]
    split
    · rename_i hzero
      have hj : j = l.length := Nat.le_antisymm (Nat.sub_eq_zero_iff_le.mp hzero) (Nat.le_of_not_lt hge)
      exact ⟨fun h => .inr ⟨hj, (some_inj.mp h).symm⟩, fun h => congrArg some (h.resolve_left nofun).2.symm⟩
    · rename_i hpos
      refine ⟨nofun, fun h => ?_⟩
      rw [(h.resolve_left nofun).1] at hpos
      exact absurd (Nat.sub_self _) hpos

theorem getElem?_set_iff (h : l[i]? = some old) :
    (l.set i a)[j]? = some b ↔ j = i ∧ b = a ∨ j ≠ i ∧ l[j]? = some b := by
  by_cases hj : j = i
  · subst hj
    rw [List.getElem?_set_self (List.getElem?_eq_some_iff.mp h).1]
    exact ⟨fun heq => .inl ⟨rfl, (some_inj.mp heq).symm⟩,
      fun heq => congrArg some (heq.resolve_right fun hne => hne.1 rfl).2.symm⟩
  · rw [getElem?_set_ne (Ne.symm hj)]
    exact ⟨fun heq => .inr ⟨hj, heq⟩, fun heq => (heq.resolve_left fun hi => hj hi.1).2⟩

theorem getElem?_set_same (h : l[i]? = some old) : (l.set i a)[i]? = some a :=
  List.getElem?_set_self (List.getElem?_eq_some_iff.mp h).1

theorem perm_set (h : l[i]? = some old) (a : α) :
    l.Perm (old :: l.eraseIdx i) ∧ (l.set i a).Perm (a :: l.eraseIdx i) := by
  obtain ⟨hlt, rfl⟩ := List.getElem?_eq_some_iff.mp h
  exact ⟨(getElem_cons_eraseIdx_perm hlt).symm, set_perm_cons_eraseIdx hlt a⟩

theorem countP_cons_toNat (p : α → Bool) : (a :: l).countP p = l.countP p + (p a).toNat := by
  rw [countP_cons]
  cases p a <;> rfl

theorem countP_set (h : l[i]? = some old) (p : α → Bool) :
    (l.set i a).countP p + (p old).toNat = l.countP p + (p a).toNat := by
  obtain ⟨hbef, haft⟩ := perm_set h a
  rw [hbef.countP_eq, haft.countP_eq, countP_cons_toNat, countP_cons_toNat]
  exact Nat.add_right_comm ..

end

structure Registry (K R : Type) where
  records : List R
  known : Table K Nat
  active : Table K Nat

namespace Registry
variable {K R : Type}

def empty : Registry K R := { records := [], known := [], active := [] }

def create (reg : Registry K R) (k : K) (record : R) : Registry K R :=
  { reg with records := reg.records ++ [record], known := reg.known.add k reg.records.length }

def set (reg : Registry K R) (r : Nat) (record : R) : Registry K R := { reg with records := reg.records.set r record }

def alter (reg : Registry K R) (r : Nat) (f : R → R) : Registry K R :=
  match reg.records[r]? with
  | none => reg
  | some record => reg.set r (f record)

def update (reg : Registry K R) (r : Nat) (f : R → Option R) : Option (Registry K R) :=
  match reg.records[r]? with
  | none => none
  | some record => (f record).map (reg.set r)

def activate (reg : Registry K R) (k : K) (r : Nat) : Registry K R := { reg with active := reg.active.add k r }

def isIdle (idle : R → Bool) (reg : Registry K R) (entry : K × Nat) : Bool := (reg.records[entry.2]?).any idle

section
variable [DecidableEq K]

def forget (reg : Registry K R) (k : K) : Registry K R := { reg with known := reg.known.remove k }

def deactivate (reg : Registry K R) (k : K) : Registry K R := { reg with active := reg.active.remove k }

def lookup (reg : Registry K R) (k : K) : Option R := (reg.known.find? k).bind (reg.records[·]?)

/-- Forget the records under the given keys, those that are idle and up to a number of them. -/
def collect (idle : R → Bool) : List K → Nat → Registry K R → Registry K R
  | [], _, reg => reg
  | _ :: _, 0, reg => reg
  | k :: victims, toRemove + 1, reg =>
    if (reg.lookup k).any idle then collect idle victims toRemove (reg.forget k)
    else collect idle victims (toRemove + 1) reg

def gc (target : Option Nat) (idle : R → Bool) (victims : List K) (reg : Registry K R) : Registry K R :=
  match target with
  | none => reg
  | some target =>
    let currentSize := reg.known.length
    if currentSize > target then collect idle victims (currentSize - target) reg else reg

/-- The record known under a key, or a new one; records are collected before there would be more than the largest number
    of them. -/
def register (max : Option Nat) (gc : Registry K R → Registry K R) (k : K) (record : R) (reg : Registry K R) :
    Registry K R × Nat :=
  match reg.known.find? k with
  | some r => (reg, r)
  | none =>
    let reg := match max with
      | none => reg
      | some max => if reg.known.length ≥ max then gc reg else reg
    (reg.create k record, reg.records.length)

end

variable {key : R → K} {idle up : R → Bool} {reg reg' : Registry K R} {k : K} {r : Nat} {record record' : R}
  {max : Option Nat} {f : R → R}

theorem update_eq {f : R → Option R} (hget : reg.records[r]? = some record) (hf : f record = some record') :
    reg.update r f = some (reg.set r record') := by
  rw [update, hget]
  exact congrArg (Option.map (reg.set r)) hf

structure Forgets (reg reg' : Registry K R) : Prop where
  records : reg'.records = reg.records
  active : reg'.active = reg.active
  known : Sublist reg'.known reg.known

theorem Forgets.refl (reg : Registry K R) : Forgets reg reg := ⟨rfl, rfl, Sublist.refl _⟩

section
variable [DecidableEq K]

theorem forgets_forget (reg : Registry K R) (k : K) : Forgets reg (reg.forget k) := ⟨rfl, rfl, eraseP_sublist⟩

theorem forgets_collect (idle : R → Bool) (victims : List K) (toRemove : Nat) (reg : Registry K R) :
    Forgets reg (collect idle victims toRemove reg) := by
  induction victims generalizing reg toRemove with
  | nil => exact .refl reg
  | cons k victims ih =>
    rcases toRemove with _ | toRemove
    · exact .refl reg
    · rw [collect]
      split
      · obtain ⟨hrecords, hact, hkn⟩ := ih toRemove (reg.forget k)
        exact ⟨hrecords, hact, hkn.trans eraseP_sublist⟩
      · exact ih (toRemove + 1) reg

theorem forgets_gc (target : Option Nat) (idle : R → Bool) (victims : List K) (reg : Registry K R) :
    Forgets reg (gc target idle victims reg) := by
  unfold gc
  split
  · exact .refl reg
  · simp only
    split
    · exact forgets_collect ..
    · exact .refl reg

/-- What `register` comes to: the known record, or a new one after records were forgotten. -/
theorem register_cases (max : Option Nat) (gc : Registry K R → Registry K R) (k : K) (record : R) (reg : Registry K R) :
    (∃ r, reg.known.find? k = some r ∧ reg.register max gc k record = (reg, r)) ∨
      reg.known.find? k = none ∧ ∃ reg', (reg' = reg ∨ reg' = gc reg) ∧
        reg.register max gc k record = (reg'.create k record, reg'.records.length) := by
  unfold register
  cases hfind : reg.known.find? k with
  | some r => exact .inl ⟨r, rfl, rfl⟩
  | none =>
    refine .inr ⟨rfl, ?_⟩
    rcases max with _ | max
    · exact ⟨reg, .inl rfl, rfl⟩
    · by_cases hmax : reg.known.length ≥ max
      · exact ⟨gc reg, .inr rfl, by simp only [if_pos hmax]⟩
      · exact ⟨reg, .inl rfl, by simp only [if_neg hmax]⟩

theorem Forgets.find?_eq_none (hf : Forgets reg reg') (hkn : reg.known.find? k = none) : reg'.known.find? k = none := by
  rw [Table.find?_eq_none] at hkn ⊢
  exact fun hmem => hkn ((hf.known.map _).subset hmem)

section
variable {gc : Registry K R → Registry K R} (hf : Forgets reg (gc reg))
include hf

theorem register_induction {P : Registry K R → Prop} (h : P reg) (hgc : P (gc reg))
    (hcreate : ∀ reg, P reg → reg.known.find? k = none → P (reg.create k record)) :
    P (reg.register max gc k record).1 := by
  rcases register_cases max gc k record reg with ⟨r, -, heq⟩ | ⟨hkn, reg', hreg, heq⟩
  · rwa [heq]
  · rw [heq]
    rcases hreg with rfl | rfl
    · exact hcreate _ h hkn
    · exact hcreate _ hgc (hf.find?_eq_none hkn)

theorem active_register : (reg.register max gc k record).1.active = reg.active :=
  register_induction (P := fun reg' => reg'.active = reg.active) hf rfl hf.active fun _ h _ => h

end

end

/-! ### Agreement -/

section
variable (key) (idle up)

/-- What is known under a key is a record of this key. -/
structure Keyed (reg : Registry K R) : Prop where
  known_nodup : reg.known.keys.Nodup
  known_key : ∀ (k : K) (r : Nat), (k, r) ∈ reg.known → ∃ record, reg.records[r]? = some record ∧ key record = k

/-- The tables agree with the records: a record that is not idle is the one known under its key, and the active ones are
    those that are up. -/
structure Agrees (reg : Registry K R) : Prop extends Keyed key reg where
  busy_known : ∀ (r : Nat) (record : R), reg.records[r]? = some record → idle record = false →
    (key record, r) ∈ reg.known
  active_nodup : reg.active.keys.Nodup
  active_iff : ∀ (k : K) (r : Nat),
    (k, r) ∈ reg.active ↔ ∃ record, reg.records[r]? = some record ∧ key record = k ∧ up record = true

end

namespace Keyed

theorem empty : Keyed key (empty : Registry K R) := ⟨nodup_nil, fun _ _ h => absurd h not_mem_nil⟩

theorem deactivate [DecidableEq K] (h : Keyed key reg) : Keyed key (reg.deactivate k) := ⟨h.known_nodup, h.known_key⟩

variable (h : Keyed key reg)
include h

theorem forgets (hf : Forgets reg reg') : Keyed key reg' where
  known_nodup := h.known_nodup.sublist (hf.known.map _)
  known_key k r hmem := hf.records.symm ▸ h.known_key k r (hf.known.subset hmem)

theorem set (hget : reg.records[r]? = some record) (hkey : key record' = key record) :
    Keyed key (reg.set r record') where
  known_nodup := h.known_nodup
  known_key k' r' hmem := by
    obtain ⟨old, hold, hk⟩ := h.known_key k' r' hmem
    by_cases hr : r' = r
    · subst hr
      obtain rfl := some_inj.mp (hget.symm.trans hold)
      exact ⟨record', getElem?_set_same hget, hkey.trans hk⟩
    · exact ⟨old, (getElem?_set_iff hget).mpr (.inr ⟨hr, hold⟩), hk⟩

theorem alter {r : Nat} (hkey : ∀ record, key (f record) = key record) : Keyed key (reg.alter r f) := by
  unfold Registry.alter
  split
  · exact h
  · rename_i record hget
    exact h.set hget (hkey record)

theorem activate : Keyed key (reg.activate k r) := ⟨h.known_nodup, h.known_key⟩

variable [DecidableEq K]

theorem create (hkn : reg.known.find? (key record) = none) : Keyed key (reg.create (key record) record) where
  known_nodup := nodup_cons.mpr ⟨find?_eq_none.mp hkn, h.known_nodup⟩
  known_key k r hmem := by
    rcases mem_cons.mp hmem with heq | hmem
    · obtain ⟨rfl, rfl⟩ := Prod.mk.inj heq
      exact ⟨record, getElem?_concat_iff.mpr (.inr ⟨rfl, rfl⟩), rfl⟩
    · obtain ⟨old, hget, hkey⟩ := h.known_key k r hmem
      exact ⟨old, getElem?_concat_iff.mpr (.inl hget), hkey⟩

theorem register {gc : Registry K R → Registry K R} (record : R) (hgc : Forgets reg (gc reg)) :
    Keyed key (reg.register max gc (key record) record).1 :=
  register_induction hgc h (h.forgets hgc) fun _ h hkn => h.create hkn

omit h

theorem mem_register (max : Option Nat) (gc : Registry K R → Registry K R) (k : K) (record : R) (reg : Registry K R) :
    (k, (reg.register max gc k record).2) ∈ (reg.register max gc k record).1.known := by
  rcases register_cases max gc k record reg with ⟨r, hkn, heq⟩ | ⟨-, reg', -, heq⟩
  · rw [heq]
    exact mem_of_find? hkn
  · rw [heq]
    exact mem_cons_self

end Keyed

namespace Agrees

theorem empty : Agrees key idle up (empty : Registry K R) where
  toKeyed := .empty
  busy_known _ _ h := absurd h (by simp [Registry.empty])
  active_nodup := nodup_nil
  active_iff _ _ := ⟨fun h => absurd h not_mem_nil, fun ⟨_, h, _⟩ => absurd h (by simp [Registry.empty])⟩

variable (h : Agrees key idle up reg)
include h

theorem replace {active : Table K Nat} (hget : reg.records[r]? = some record) (hkey : key record' = key record)
    (hkn : idle record' = false → (key record, r) ∈ reg.known) (hnd : active.keys.Nodup)
    (hact : ∀ k' r', (k', r') ∈ active ↔
      r' ≠ r ∧ (k', r') ∈ reg.active ∨ r' = r ∧ key record = k' ∧ up record' = true) :
    Agrees key idle up { reg.set r record' with active } where
  known_nodup := h.known_nodup
  known_key := (h.toKeyed.set hget hkey).known_key
  busy_known r' old hold hbusy := by
    rcases (getElem?_set_iff hget).mp hold with ⟨rfl, rfl⟩ | ⟨-, hold⟩
    · exact hkey.symm ▸ hkn hbusy
    · exact h.busy_known r' old hold hbusy
  active_nodup := hnd
  active_iff k' r' := by
    refine (hact k' r').trans ⟨?_, ?_⟩
    · rintro (⟨hr, hmem⟩ | ⟨rfl, hk, hup⟩)
      · obtain ⟨old, hold, hrest⟩ := (h.active_iff k' r').mp hmem
        exact ⟨old, (getElem?_set_iff hget).mpr (.inr ⟨hr, hold⟩), hrest⟩
      · exact ⟨record', getElem?_set_same hget, hkey.trans hk, hup⟩
    · rintro ⟨new, hnew, hk, hup⟩
      rcases (getElem?_set_iff hget).mp hnew with ⟨rfl, rfl⟩ | ⟨hr, hold⟩
      · exact .inr ⟨rfl, hkey.symm.trans hk, hup⟩
      · exact .inl ⟨hr, (h.active_iff k' r').mpr ⟨new, hold, hk, hup⟩⟩

theorem mem_active_place (hget : reg.records[r]? = some record) :
    (k, r) ∈ reg.active ↔ key record = k ∧ up record = true := by
  refine (h.active_iff k r).trans ⟨?_, fun hrest => ⟨record, hget, hrest⟩⟩
  rintro ⟨old, hold, hrest⟩
  obtain rfl := some_inj.mp (hget.symm.trans hold)
  exact hrest

theorem set (hget : reg.records[r]? = some record) (hkey : key record' = key record)
    (hkn : idle record' = false → (key record, r) ∈ reg.known) (hup : up record' = up record) :
    Agrees key idle up (reg.set r record') := by
  refine h.replace hget hkey hkn h.active_nodup fun k' r' => ?_
  by_cases hr : r' = r
  · subst hr
    rw [h.mem_active_place hget, hup]
    exact ⟨fun hrest => .inr ⟨rfl, hrest⟩, fun hrest => (hrest.resolve_left fun hne => hne.1 rfl).2⟩
  · exact ⟨fun hmem => .inl ⟨hr, hmem⟩, fun hrest => (hrest.resolve_right fun heq => hr heq.1).2⟩

theorem alter {r : Nat} (hkey : ∀ record, key (f record) = key record)
    (hidle : ∀ record, idle (f record) = idle record) (hup : ∀ record, up (f record) = up record) :
    Agrees key idle up (reg.alter r f) := by
  unfold Registry.alter
  split
  · exact h
  · rename_i record hget
    exact h.set hget (hkey record) (fun hbusy => h.busy_known r record hget ((hidle record).symm.trans hbusy)) (hup record)

theorem activate (hbusy : ∀ record, up record = true → idle record = false) (hget : reg.records[r]? = some record)
    (hkey : key record' = key record) (hkn : (key record, r) ∈ reg.known) (hdown : up record = false)
    (hup : up record' = true) : Agrees key idle up ((reg.set r record').activate (key record) r) := by
  refine h.replace hget hkey (fun _ => hkn) (nodup_cons.mpr ⟨?_, h.active_nodup⟩) fun k' r' => ?_
  · intro hmem
    obtain ⟨r', hmem⟩ := mem_keys.mp hmem
    obtain ⟨old, hold, hk, hu⟩ := (h.active_iff _ r').mp hmem
    have hsame := h.busy_known r' old hold (hbusy old hu)
    rw [hk] at hsame
    obtain rfl := eq_of_nodup h.known_nodup hkn hsame
    obtain rfl := some_inj.mp (hget.symm.trans hold)
    exact absurd (hdown.symm.trans hu) nofun
  · refine mem_cons.trans ?_
    by_cases hr : r' = r
    · subst hr
      refine ⟨?_, fun hrest => ?_⟩
      · rintro (heq | hmem)
        · exact .inr ⟨rfl, (Prod.mk.inj heq).1.symm, hup⟩
        · exact absurd (hdown.symm.trans ((h.mem_active_place hget).mp hmem).2) nofun
      · exact .inl (congrArg (·, r') (hrest.resolve_left fun hne => hne.1 rfl).2.1.symm)
    · constructor
      · rintro (heq | hmem)
        · exact absurd (Prod.mk.inj heq).2 hr
        · exact .inl ⟨hr, hmem⟩
      · exact fun hrest => .inr (hrest.resolve_right fun heq => hr heq.1).2

variable [DecidableEq K]

theorem find?_active (hbusy : ∀ record, up record = true → idle record = false) : reg.active.find? k = some r ↔
      reg.known.find? k = some r ∧ ∃ record, reg.records[r]? = some record ∧ up record = true := by
  rw [find?_eq_some h.active_nodup, find?_eq_some h.known_nodup, h.active_iff]
  constructor
  · rintro ⟨record, hget, rfl, hup⟩
    exact ⟨h.busy_known r record hget (hbusy record hup), record, hget, hup⟩
  · rintro ⟨hkn, record, hget, hup⟩
    obtain ⟨record', hget', hkey⟩ := h.known_key k r hkn
    obtain rfl := some_inj.mp (hget.symm.trans hget')
    exact ⟨record, hget, hkey, hup⟩

theorem create (hkn : reg.known.find? (key record) = none) (hidle : idle record = true) (hup : up record = false) :
    Agrees key idle up (reg.create (key record) record) where
  toKeyed := h.toKeyed.create hkn
  busy_known r old hget hbusy := by
    rcases getElem?_concat_iff.mp hget with hget | ⟨-, rfl⟩
    · exact mem_cons_of_mem _ (h.busy_known r old hget hbusy)
    · exact absurd (hidle.symm.trans hbusy) nofun
  active_nodup := h.active_nodup
  active_iff k r := by
    refine (h.active_iff k r).trans
      ⟨fun ⟨old, hget, hold⟩ => ⟨old, getElem?_concat_iff.mpr (.inl hget), hold⟩, ?_⟩
    rintro ⟨old, hget, hkey, hold⟩
    rcases getElem?_concat_iff.mp hget with hget | ⟨-, rfl⟩
    · exact ⟨old, hget, hkey, hold⟩
    · exact absurd (hup.symm.trans hold) nofun

theorem forget (hidle : ∀ r record, (k, r) ∈ reg.known → reg.records[r]? = some record → idle record = true) :
    Agrees key idle up (reg.forget k) where
  toKeyed := h.toKeyed.forgets (forgets_forget reg k)
  busy_known r record hget hbusy := by
    have hmem := h.busy_known r record hget hbusy
    refine (mem_remove h.known_nodup).mpr ⟨hmem, fun hkey => ?_⟩
    exact absurd ((hidle r record (hkey ▸ hmem) hget).symm.trans hbusy) nofun
  active_nodup := h.active_nodup
  active_iff := h.active_iff

theorem forget_lookup (hidle : (reg.lookup k).all idle = true) : Agrees key idle up (reg.forget k) := by
  refine h.forget fun r record hmem hget => ?_
  rwa [lookup, (find?_eq_some h.known_nodup).mpr hmem, bind_some, hget] at hidle

theorem collect (victims : List K) (toRemove : Nat) : Agrees key idle up (collect idle victims toRemove reg) := by
  induction victims generalizing reg toRemove with
  | nil => exact h
  | cons k victims ih =>
    rcases toRemove with _ | toRemove
    · exact h
    · rw [Registry.collect]
      split
      · rename_i hany
        refine ih (h.forget fun r record hmem hget => ?_) toRemove
        rw [lookup, (find?_eq_some h.known_nodup).mpr hmem, bind_some, hget] at hany
        exact hany
      · exact ih h (toRemove + 1)

theorem gc (target : Option Nat) (victims : List K) : Agrees key idle up (gc target idle victims reg) := by
  unfold Registry.gc
  split
  · exact h
  · simp only
    split
    · exact h.collect victims _
    · exact h

theorem register {gc : Registry K R → Registry K R} (record : R) (hf : Forgets reg (gc reg))
    (hgc : Agrees key idle up (gc reg)) (hidle : idle record = true) (hup : up record = false) :
    Agrees key idle up (reg.register max gc (key record) record).1 :=
  register_induction hf h hgc fun _ h hkn => h.create hkn hidle hup

theorem deactivate (hget : reg.records[r]? = some record) (hkey : key record' = key record)
    (hidle : idle record' = true) (hup : up record = true) (hdown : up record' = false) :
    Agrees key idle up ((reg.set r record').deactivate (key record)) := by
  have hmem : (key record, r) ∈ reg.active := (h.mem_active_place hget).mpr ⟨rfl, hup⟩
  refine h.replace hget hkey (fun hbusy => absurd (hidle.symm.trans hbusy) nofun) (nodup_remove h.active_nodup) ?_
  intro k' r'
  refine (mem_remove h.active_nodup).trans ⟨?_, ?_⟩
  · rintro ⟨hmem', hne⟩
    refine .inl ⟨?_, hmem'⟩
    rintro rfl
    exact hne ((h.mem_active_place hget).mp hmem').1.symm
  · rintro (⟨hr, hmem'⟩ | ⟨-, -, hup'⟩)
    · refine ⟨hmem', ?_⟩
      rintro rfl
      exact hr (eq_of_nodup h.active_nodup hmem' hmem)
    · exact absurd (hdown.symm.trans hup') nofun

end Agrees

end Registry

end Tezos.Lib
