import Tezos.Protocol.ScriptInterpreter

/-! MAP and the rest of the stack. On a list it gives back the stack of the last run of its body; on a map it gives
    back the one it was given. -/

namespace Tezos.Protocol.ScriptInterpreter
open Lib List CostOf SortedMap

variable {p : Primitives} {K A O : Type}

/-- The body runs on each element in turn, over the rest of the stack that the run before left; each turn of the loop,
    and the one that finds no element, is paid for. -/
inductive Threads (body : Run p K A O) :
    Context p → List (Value K A O) → Stack K A O → List (Value K A O) → Stack K A O → Context p → Prop
  | nil {ctxt ctxt' : Context p} {rest : Stack K A O} (paid : consume ctxt loopCycle = .ok ctxt') :
    Threads body ctxt [] rest [] rest ctxt'
  | cons {ctxt ctxt₁ ctxt₂ ctxt' : Context p} {e v : Value K A O} {es vs : List (Value K A O)}
    {rest rest₁ rest' : Stack K A O} (paid : consume ctxt loopCycle = .ok ctxt₁)
    (run : body ctxt₁ (e :: rest) = .ok (v :: rest₁, ctxt₂))
    (later : Threads body ctxt₂ es rest₁ vs rest' ctxt') :
    Threads body ctxt (e :: es) rest (v :: vs) rest' ctxt'

variable {body : Run p K A O} {ctxt ctxt' : Context p} {rest : Stack K A O}

theorem listMapLoop_eq_ok {l acc : List (Value K A O)} {stack : Stack K A O} :
    listMapLoop body rest ctxt l acc = .ok (stack, ctxt') ↔
      ∃ values rest', Threads body ctxt l rest values rest' ctxt' ∧ stack = .list (acc.reverse ++ values) :: rest' := by
  induction l generalizing ctxt rest acc with
  | nil =>
    unfold listMapLoop
    constructor
    · intro h
      obtain ⟨ctxt₁, hpaid, h⟩ := bind_eq_ok.mp h
      cases h
      exact ⟨[], rest, .nil hpaid, by rw [append_nil]⟩
    · rintro ⟨values, rest', ⟨hpaid⟩, rfl⟩
      rw [hpaid, ok_bind, append_nil]
  | cons hd tl ih =>
    unfold listMapLoop
    constructor
    · intro h
      obtain ⟨ctxt₁, hpaid, h⟩ := bind_eq_ok.mp h
      obtain ⟨⟨_ | ⟨v, rest₁⟩, ctxt₂⟩, hrun, h⟩ := bind_eq_ok.mp h
      · cases h
      obtain ⟨values, rest', hlat, rfl⟩ := ih.mp h
      exact ⟨v :: values, rest', .cons hpaid hrun hlat, by rw [reverse_cons, append_assoc]; rfl⟩
    · rintro ⟨values, rest', hthr, rfl⟩
      obtain _ | ⟨hpaid, hrun, hlat⟩ := hthr
      rw [hpaid]
      simp only [hrun, ok_bind]
      exact ih.mpr ⟨_, rest', hlat, by rw [reverse_cons, append_assoc]; rfl⟩

variable [LinearOrder K]

theorem mapMapLoop_eq_ok (l : List (K × Value K A O)) {res : SortedMap K (Value K A O)}
    (acc : SortedMap K (Value K A O)) (hsorted : Sorted (acc ++ l)) :
    mapMapLoop body rest ctxt l acc = .ok (res, ctxt') ↔
      ∃ values rest', Threads body ctxt (l.map binding) rest values rest' ctxt' ∧
        res = acc ++ (l.map Prod.fst).zip values := by
  induction l generalizing ctxt rest acc with
  | nil =>
    unfold mapMapLoop
    constructor
    · intro h
      obtain ⟨ctxt₁, hpaid, h⟩ := bind_eq_ok.mp h
      cases h
      exact ⟨[], rest, .nil hpaid, (append_nil _).symm⟩
    · rintro ⟨values, rest', ⟨hpaid⟩, rfl⟩
      rw [hpaid]
      simp
  | cons hd tl ih =>
    have hadd (v : Value K A O) : acc.add hd.1 v = acc ++ [(hd.1, v)] :=
      add_of_lt fun b hb => (pairwise_append.mp hsorted).2.2 b hb hd mem_cons_self
    have hnext (v : Value K A O) : Sorted (acc ++ [(hd.1, v)] ++ tl) := by
      refine pairwise_map.mp ?_
      simpa [Sorted, pairwise_map] using pairwise_map.mpr hsorted
    unfold mapMapLoop
    constructor
    · intro h
      obtain ⟨ctxt₁, hpaid, h⟩ := bind_eq_ok.mp h
      obtain ⟨⟨_ | ⟨v, rest₁⟩, ctxt₂⟩, hrun, h⟩ := bind_eq_ok.mp h
      · cases h
      simp only [hadd] at h
      obtain ⟨values, rest', hlat, rfl⟩ := (ih _ (hnext v)).mp h
      exact ⟨v :: values, rest', .cons hpaid hrun hlat, append_assoc _ _ _⟩
    · rintro ⟨values, rest', hthr, rfl⟩
      obtain _ | ⟨hpaid, hrun, hlat⟩ := hthr
      rw [hpaid]
      simp only [hrun, ok_bind, hadd]
      exact (ih _ (hnext _)).mpr ⟨_, rest', hlat, by rw [append_assoc]; rfl⟩

/-- An execution gives the collection rebuilt from the values of the body, over the rest of the stack that the runs
    of the body on the elements left, once the costs before the first one are paid. -/
def ThreadsRest (result : Result p (Stack K A O × Context p)) (body : Run p K A O) (costs : List Cost)
    (elements : List (Value K A O)) (rebuild : List (Value K A O) → Value K A O) (ctxt : Context p)
    (rest : Stack K A O) : Prop :=
  ∀ stack ctxt', result = .ok (stack, ctxt') ↔ ∃ ctxt₁ values rest', costs.foldlM consume ctxt = .ok ctxt₁ ∧
    Threads body ctxt₁ elements rest values rest' ctxt' ∧ stack = rebuild values :: rest'

section Step
variable {others : Others p K A O} {fuel : Nat} {body : Descr K A O}

theorem step_listMap (l : List (Value K A O)) :
    ThreadsRest (step others (fuel + 1) (.listMap body) ctxt (.list l :: rest)) (step others fuel body) [cycle] l
      .list ctxt rest := by
  intro stack ctxt'
  simp only [step, foldlM_cons, foldlM_nil, bind_pure, bind_eq_ok, listMapLoop_eq_ok]
  simp

theorem step_mapMap_eq_ok {l : List (K × Value K A O)} {stack : Stack K A O} (hsorted : Sorted l) :
    step others (fuel + 1) (.mapMap body) ctxt (.map l :: rest) = .ok (stack, ctxt') ↔
      ∃ ctxt₁ values rest', [cycle, mapToList l.length].foldlM consume ctxt = .ok ctxt₁ ∧
        Threads (step others fuel body) ctxt₁ (l.map binding) rest values rest' ctxt' ∧
        stack = .map ((l.map Prod.fst).zip values) :: rest := by
  simp only [step, foldlM_cons, foldlM_nil, bind_pure, bind_eq_ok]
  constructor
  · rintro ⟨ctxt₀, hcyc, ctxt₁, hlist, ⟨res, ctxt₂⟩, hloop, h⟩
    cases h
    obtain ⟨values, rest', hthr, rfl⟩ := (mapMapLoop_eq_ok l [] hsorted).mp hloop
    exact ⟨ctxt₁, values, rest', ⟨ctxt₀, hcyc, hlist⟩, hthr, rfl⟩
  · rintro ⟨ctxt₁, values, rest', ⟨ctxt₀, hcyc, hlist⟩, hthr, rfl⟩
    have hloop := (mapMapLoop_eq_ok l [] hsorted).mpr ⟨values, rest', hthr, rfl⟩
    exact ⟨ctxt₀, hcyc, ctxt₁, hlist, _, hloop, rfl⟩

/-- MAP on a list threads the rest of the stack through the runs of its body. MAP on a map does so exactly when these
    runs leave the rest of the stack as the first of them found it. -/
theorem map_threadsRest_iff (others : Others p K A O) (fuel : Nat) (body : Descr K A O) (ctxt : Context p)
    (rest : Stack K A O) (elements : List (Value K A O)) (bindings : List (K × Value K A O))
    (hsorted : Sorted bindings) :
    ThreadsRest (step others (fuel + 1) (.listMap body) ctxt (.list elements :: rest)) (step others fuel body)
        [cycle] elements .list ctxt rest ∧
      (ThreadsRest (step others (fuel + 1) (.mapMap body) ctxt (.map bindings :: rest)) (step others fuel body)
          [cycle, mapToList bindings.length] (bindings.map binding)
          (fun values => .map ((bindings.map Prod.fst).zip values)) ctxt rest ↔
        ∀ ctxt₁ values rest' ctxt',
          [cycle, mapToList bindings.length].foldlM consume ctxt = .ok ctxt₁ →
          Threads (step others fuel body) ctxt₁ (bindings.map binding) rest values rest' ctxt' → rest' = rest) := by
  refine ⟨step_listMap elements, fun h ctxt₁ values rest' ctxt' hpaid hthr => ?_, fun h stack ctxt' => ?_⟩
  · have hclm := (h _ ctxt').mpr ⟨ctxt₁, values, rest', hpaid, hthr, rfl⟩
    obtain ⟨_, _, _, _, _, heq⟩ := (step_mapMap_eq_ok hsorted).mp hclm
    exact (cons.inj heq).2
  · rw [step_mapMap_eq_ok hsorted]
    constructor
    · rintro ⟨ctxt₁, values, rest', hpaid, hthr, rfl⟩
      exact ⟨ctxt₁, values, rest', hpaid, hthr, by rw [h _ _ _ _ hpaid hthr]⟩
    · rintro ⟨ctxt₁, values, rest', hpaid, hthr, rfl⟩
      exact ⟨ctxt₁, values, rest', hpaid, hthr, by rw [h _ _ _ _ hpaid hthr]⟩

end Step

/-! A pair below a map of one binding: the body swaps it with the pair of the key and the value of the binding. -/

def noOthers : Others .numbers Nat Unit Empty := ⟨fun k => k = 1, fun instr => instr.elim⟩

def pairOf (k v : Nat) : Value Nat Unit Empty := .pair (.comparable k) (.comparable v)

def oneBinding : List (Nat × Value Nat Unit Empty) := [(0, .comparable 5)]

def withGas (gas : Int) : Context .numbers :=
  { (Context.small (Storage.empty .numbers)).setGasLimit gas with blockGas := gas }

theorem not_threadsRest_swap :
    ¬ ThreadsRest (step noOthers 2 (.mapMap .swap) (withGas 1000) [.map oneBinding, pairOf 9 9])
      (step noOthers 1 .swap) [cycle, mapToList 1] (oneBinding.map binding)
      (fun values => .map ((oneBinding.map Prod.fst).zip values)) (withGas 1000) [pairOf 9 9] := by
  intro h
  have hrun : Threads (step noOthers 1 .swap) (withGas 987) (oneBinding.map binding) [pairOf 9 9]
      [pairOf 9 9] [pairOf 0 5] (withGas 981) := .cons rfl rfl (.nil rfl)
  have hclm := (h _ _).mpr ⟨withGas 987, _, _, rfl, hrun, rfl⟩
  obtain ⟨_, _, _, _, _, heq⟩ := (step_mapMap_eq_ok (pairwise_singleton _ _)).mp hclm
  cases (cons.inj heq).2

def twoBindings : List (Nat × Value Nat Unit Empty) := [(0, .comparable 5), (1, .comparable 6)]

theorem map_threadsRest_cdr : ThreadsRest (step noOthers 2 (.mapMap .cdr) (withGas 1000) [.map twoBindings, pairOf 9 9])
      (step noOthers 1 .cdr) [cycle, mapToList 2] (twoBindings.map binding)
      (fun values => .map ((twoBindings.map Prod.fst).zip values)) (withGas 1000) [pairOf 9 9] := by
  refine (map_threadsRest_iff noOthers 1 .cdr (withGas 1000) [pairOf 9 9] [] twoBindings
    (pairwise_pair.mpr (by decide))).2.mpr ?_
  intro ctxt₁ values rest' ctxt' hpaid hthr
  obtain rfl := Except.ok.inj hpaid
  obtain _ | ⟨hpaid, hrun, hlat⟩ := hthr
  obtain rfl := Except.ok.inj hpaid
  obtain ⟨hstack, rfl⟩ := Prod.mk.inj (Except.ok.inj hrun)
  obtain rfl := (cons.inj hstack).2
  obtain _ | ⟨hpaid, hrun, hlat⟩ := hlat
  obtain rfl := Except.ok.inj hpaid
  obtain rfl := (cons.inj (Prod.mk.inj (Except.ok.inj hrun)).1).2
  obtain _ | _ := hlat
  rfl

end Tezos.Protocol.ScriptInterpreter
