import Tezos.Protocol.Apply
import Tezos.Theorems.Protocol.Baking
import Tezos.Theorems.Protocol.Stake.Runs

/-! The endorsements of a block: every slot is endorsed once at most, and what an endorsement freezes is promised. -/

namespace Tezos.Protocol
open Lib List DelegateStorage Store

variable {p : Primitives} {ctxt ctxt' : Context p} {rights rights' : Store p.PublicKeyHash (EndorsementRight p)}
  {level : Level} {right : EndorsementRight p}

/-- The slots of a right that are not endorsed yet. -/
def slotsLeft (_ : p.PublicKeyHash) (right : EndorsementRight p) : Nat := if right.used then 0 else right.slots.length

theorem slotsLeft_of_unused (d : p.PublicKeyHash) (h : right.used = false) : slotsLeft d right = right.slots.length :=
  if_neg (by rw [h]; exact Bool.false_ne_true)

abbrev Unused (rights : Store p.PublicKeyHash (EndorsementRight p)) : Prop :=
  ∀ d right, rights.find? d = some right → right.used = false

theorem addEndorsementRight_ok {slot : Nat} (hfresh : Unused rights)
    (h : Baking.addEndorsementRight ctxt level rights slot = .ok rights') :
    Unused rights' ∧ rights'.sum slotsLeft = rights.sum slotsLeft + 1 := by
  obtain ⟨pk, -, h⟩ := bind_eq_ok.mp h
  obtain ⟨right, hused, hlen, rfl⟩ : ∃ right : EndorsementRight p, right.used = false ∧
      right.slots.length = rights.part slotsLeft (p.hash pk) + 1 ∧ rights.add (p.hash pk) right = rights' := by
    refine ⟨_, ?_, ?_, Except.ok.inj h⟩
    · split
      · rfl
      · rename_i right hfind
        exact hfresh _ right hfind
    · split
      · rename_i hfind
        rw [part_of_none hfind]
        rfl
      · rename_i right hfind
        rw [part_of_some hfind, slotsLeft_of_unused _ (hfresh _ right hfind)]
        rfl
  refine ⟨fun d right' hd => ?_, ?_⟩
  · rw [find?_add] at hd
    split at hd
    · rwa [← Option.some.inj hd]
    · exact hfresh d right' hd
  · have hsum := sum_add (s := rights) (k := p.hash pk) (v := right) (f := slotsLeft)
    rw [slotsLeft_of_unused _ hused] at hsum
    omega

/-- Each slot is given to one delegate. -/
theorem sum_endorsementRights (h : Baking.endorsementRights ctxt level = .ok rights) :
    rights.sum slotsLeft = ctxt.constants.endorsersPerBlock := by
  have hfold (slots : List Nat) (acc : Store p.PublicKeyHash (EndorsementRight p)) (hfresh : Unused acc)
      (h : slots.foldlM (Baking.addEndorsementRight ctxt level) acc = .ok rights) :
      rights.sum slotsLeft = acc.sum slotsLeft + slots.length := by
    induction slots generalizing acc with
    | nil =>
      cases h
      rfl
    | cons slot slots ih =>
      obtain ⟨acc', hadd, h⟩ := bind_eq_ok.mp h
      obtain ⟨hfresh', hsum⟩ := addEndorsementRight_ok hfresh hadd
      rw [ih acc' hfresh' h, hsum, length_cons, add_right_comm, add_assoc]
  have hsum := hfold _ _ (fun d right hd => by cases hd) h
  rwa [sum_empty, zero_add, length_range] at hsum

/-! ### Who may endorse -/

theorem entitled_of_drawOwner {snapshot : Nat ×ₗ Nat} {owners : Store Nat p.PublicKey} {pk : p.PublicKey} {bound : Nat}
    (hown : ctxt.context.rolls.ownerSnapshot.find? snapshot = some owners) (fuel : Nat) :
    ∀ {sequence}, RollStorage.drawOwner owners bound fuel sequence = .ok pk → Entitled ctxt (p.hash pk) := by
  induction fuel with
  | zero =>
    intro sequence h
    cases h
  | succ fuel ih =>
    intro sequence h
    rw [RollStorage.drawOwner] at h
    dsimp only at h
    split at h
    · exact ih h
    · rename_i delegate hfind
      cases h
      exact .inr ⟨snapshot, owners, _, pk, hown, hfind, rfl⟩

theorem entitled_of_owner {use : Use} {offset : Nat} {pk : p.PublicKey}
    (h : RollStorage.owner ctxt use level offset = .ok pk) : Entitled ctxt (p.hash pk) := by
  obtain ⟨seed, -, h⟩ := bind_eq_ok.mp h
  obtain ⟨index, -, h⟩ := bind_eq_ok.mp h
  obtain ⟨bound, -, h⟩ := bind_eq_ok.mp h
  split at h
  · cases h
  · rename_i owners hown
    split at h
    · cases h
    · exact entitled_of_drawOwner hown _ h

/-- Those who have a right to endorse are entitled to what is frozen for them. -/
def Endorsers (ctxt : Context p) (rights : Store p.PublicKeyHash (EndorsementRight p)) : Prop :=
  ∀ d right, rights.find? d = some right → Entitled ctxt d

theorem endorsers_of_rights (h : Baking.endorsementRights ctxt level = .ok rights) : Endorsers ctxt rights := by
  refine foldlM_inv (Endorsers ctxt) (fun acc slot acc' hacc hadd d right hd => ?_) (fun d right hd => by cases hd) h
  obtain ⟨pk, hown, hadd⟩ := bind_eq_ok.mp hadd
  cases hadd
  rw [find?_add] at hd
  split at hd
  · rename_i heq
    exact heq ▸ entitled_of_owner hown
  · exact hacc d right hd

section
variable (check : SignatureCheck p) (chainId : p.ChainId) (isPartial : Bool) (predBlock : p.BlockHash)

/-- The right is used, and the fitness grows by its slots. -/
def endorsed (ctxt : Context p) (d : p.PublicKeyHash) (right : EndorsementRight p) : Context p :=
  { ctxt with
    allowedEndorsements := ctxt.allowedEndorsements.add d { right with used := true }
    fitness := int64 (right.slots.length + ctxt.fitness) }

/-- An endorsement uses a right that was not used before. It freezes a deposit, at once or when the block is complete, and a
    reward. -/
theorem applyEndorsement_ok {op : EndorsementOperation p} {d : p.PublicKeyHash} {slots : List Nat}
    (h : applyEndorsement check chainId isPartial predBlock ctxt op = .ok (ctxt', d, slots)) :
    ∃ right ctxt₁ deposit deposits reward,
      ctxt.allowedEndorsements.find? d = some right ∧ right.used = false ∧
      (perform (endorsed ctxt d right) (.freezeDeposit d deposit) = .ok ctxt₁ ∨
        ctxt₁ = { endorsed ctxt d right with deposits := deposits }) ∧
      perform ctxt₁ (.freezeRewards d reward) = .ok ctxt' := by
  obtain ⟨-, -, h⟩ := bind_eq_ok.mp h
  obtain ⟨_, hlvl, h⟩ := bind_eq_ok.mp h
  rw [failUnless_eq_ok, decide_eq_true_iff] at hlvl
  obtain ⟨⟨d', slots', used⟩, hcheck, h⟩ := bind_eq_ok.mp h
  obtain ⟨right, hfind, rfl, rfl⟩ : ∃ right, ctxt.allowedEndorsements.find? d' = some right ∧
      right.slots = slots' ∧
      right.used = used := by
    simp only [Baking.checkEndorsementRights, if_pos hlvl, ok_bind] at hcheck
    split at hcheck
    · cases hcheck
    · rename_i d' right hlast
      cases hcheck
      exact ⟨right, find?_eq_some_iff.mpr (mem_of_mem_filter (mem_of_getLast? hlast)), rfl, rfl⟩
  rcases hused : right.used with _ | _
  · simp only [hused, Bool.false_eq_true, if_false, Context.recordEndorsement, hfind, ok_bind] at h
    obtain ⟨deposit, -, h⟩ := bind_eq_ok.mp h
    obtain ⟨ctxt₁, hdep, h⟩ := bind_eq_ok.mp h
    obtain ⟨reward, -, h⟩ := bind_eq_ok.mp h
    obtain ⟨ctxt₂, hrew, h⟩ := bind_eq_ok.mp h
    cases h
    split at hdep
    · exact ⟨right, ctxt₁, deposit, ctxt.deposits, reward, hfind, hused, .inl hdep, hrew⟩
    · obtain ⟨total, -, hdep⟩ := bind_eq_ok.mp hdep
      cases hdep
      exact ⟨right, _, deposit, _, reward, hfind, hused, .inr rfl, hrew⟩
  · simp only [hused, if_true] at h
    cases h

/-- What is frozen changes neither the rights nor the fitness, and no delegate. -/
theorem freezes_same {ctxt₁ : Context p} {d : p.PublicKeyHash} {deposit reward : Tez}
    {deposits : Store p.PublicKeyHash Tez}
    (hdep : perform (endorsed ctxt d right) (.freezeDeposit d deposit) = .ok ctxt₁ ∨
      ctxt₁ = { endorsed ctxt d right with deposits := deposits })
    (hrew : perform ctxt₁ (.freezeRewards d reward) = .ok ctxt') :
    ctxt'.allowedEndorsements = ctxt.allowedEndorsements.add d { right with used := true } ∧
      ctxt'.fitness = int64 (right.slots.length + ctxt.fitness) ∧
      ctxt₁.context.contracts.delegate = ctxt.context.contracts.delegate ∧
      ctxt'.context.contracts.delegate = ctxt.context.contracts.delegate := by
  obtain ⟨rewards, -, rfl⟩ := freezeRewards_eq_ok hrew
  rcases hdep with hdep | rfl
  · obtain ⟨_, _, _, _, -, -, -, -, rfl⟩ := freezeDeposit_eq_ok hdep
    exact ⟨rfl, rfl, rfl, rfl⟩
  · exact ⟨rfl, rfl, rfl, rfl⟩

/-- An endorsement is included if it can be applied. -/
def endorse (ctxt : Context p) (op : EndorsementOperation p) : Context p :=
  match applyEndorsement check chainId isPartial predBlock ctxt op with
  | .error _ => ctxt
  | .ok (ctxt, _) => ctxt

/-- The endorsements of a block count for its slots. Whatever endorsements are tried, the fitness grows by the slots that
    are endorsed, each of them once: by `endorsers_per_block` less those that are left. -/
theorem endorsements_count_once (h : Baking.endorsementRights ctxt level = .ok ctxt.allowedEndorsements)
    (ops : List (EndorsementOperation p)) :
    let ctxt' : Context p := run (endorse check chainId isPartial predBlock) ctxt ops
    int64 (ctxt'.fitness + ctxt'.allowedEndorsements.sum slotsLeft) =
      int64 (ctxt.fitness + ctxt.constants.endorsersPerBlock) := by
  rw [← sum_endorsementRights h]
  refine inv_run (fun ctxt' : Context p => int64 (ctxt'.fitness + ctxt'.allowedEndorsements.sum slotsLeft) = _) rfl
    (fun ctxt op ih => ?_) ops
  unfold endorse
  split
  · exact ih
  rename_i ctxt' receipt happ
  obtain ⟨right, _, _, _, _, hfind, hused, hdep, hrew⟩ := applyEndorsement_ok check chainId isPartial predBlock happ
  obtain ⟨hrights, hfit, -⟩ := freezes_same hdep hrew
  -- what the fitness grows by is what is left no more
  have hsum := Store.sum_add (s := ctxt.allowedEndorsements) (k := receipt.1) (v := { right with used := true })
    (f := slotsLeft)
  have hdone : slotsLeft receipt.1 { right with used := true } = 0 := rfl
  rw [Store.part_of_some hfind, slotsLeft_of_unused _ hused, hdone, ← hrights] at hsum
  rw [← ih, hfit, int64_int64_add]
  exact congrArg int64 (by omega)

/-- The endorsements of a block keep the promise of the accounts: each freezes for a delegate that is entitled, and so
    leaves a context that is sound. -/
theorem endorse_sound (hsnd : Sound ctxt) (h : Baking.endorsementRights ctxt level = .ok ctxt.allowedEndorsements)
    (ops : List (EndorsementOperation p)) : Sound (run (endorse check chainId isPartial predBlock) ctxt ops) := by
  refine (inv_run (fun ctxt : Context p => Sound ctxt ∧ Endorsers ctxt ctxt.allowedEndorsements)
    ⟨hsnd, endorsers_of_rights h⟩ (fun ctxt op ih => ?_) ops).1
  obtain ⟨hsnd, hent⟩ := ih
  unfold endorse
  split
  · exact ⟨hsnd, hent⟩
  rename_i ctxt' receipt happ
  obtain ⟨right, ctxt₁, deposit, _, reward, hfind, -, hdep, hrew⟩ :=
    applyEndorsement_ok check chainId isPartial predBlock happ
  obtain ⟨hrights, -, hdel₁, hdel⟩ := freezes_same hdep hrew
  -- those who may endorse are registered, and stay so
  have hreg : ∀ d, Entitled ctxt d → ctxt.context.contracts.delegate.mem (.implicit d) = true :=
    fun d hd => hd.registered hsnd
  have hdeposit : (Action.freezeDeposit receipt.1 deposit).Promised (endorsed ctxt receipt.1 right) :=
    hent receipt.1 right hfind
  have hreward : (Action.freezeRewards receipt.1 reward).Promised ctxt₁ := by
    refine .inl ?_
    rw [registered, hdel₁]
    exact hreg _ (hent _ right hfind)
  have hend : Sound (endorsed ctxt receipt.1 right) := hsnd
  have hsnd₁ : Sound ctxt₁ := by
    rcases hdep with hdep | rfl
    · exact perform_sound hend hdeposit hdep
    · exact ⟨hsnd.registry, hsnd.deposits, hsnd.fees, hsnd.rewards, hsnd.balanced⟩
  refine ⟨perform_sound hsnd₁ hreward hrew, fun d right' hd => .inl ?_⟩
  rw [registered, hdel]
  rw [hrights, find?_add] at hd
  split at hd
  · rename_i heq
    exact heq ▸ hreg _ (hent _ right hfind)
  · exact hreg d (hent d right' hd)

end

/-- One delegate owns the only roll, and so both slots of a block. -/
def soleEndorser : Context .numbers :=
  { Context.small (.empty .numbers) with
    context.seeds.forCycle := Store.empty.add 0 (0 : Nat)
    context.rolls.snapshotForCycle := Store.empty.add 0 0
    context.rolls.lastForSnapshot := Store.empty.add (toLex (0, 0)) 1
    context.rolls.ownerSnapshot := Store.empty.add (toLex (0, 0)) (Store.empty.add 0 (7 : Nat))
    allowedEndorsements := Store.empty.add (7 : Nat) ⟨(7 : Nat), [1, 0], false⟩ }

theorem endorsements_count_once_sole :
    Baking.endorsementRights soleEndorser soleEndorser.level = .ok soleEndorser.allowedEndorsements ∧
      let ctxt' : Context .numbers := run (endorse (fun _ _ _ _ => true) (0 : Nat) false (0 : Nat)) soleEndorser
        [⟨(0 : Nat), 0, some (0 : Nat)⟩, ⟨(0 : Nat), 0, some (0 : Nat)⟩]
      int64 (ctxt'.fitness + ctxt'.allowedEndorsements.sum slotsLeft) = 2 := by
  have hrights : Baking.endorsementRights soleEndorser soleEndorser.level = .ok soleEndorser.allowedEndorsements := rfl
  exact ⟨hrights, endorsements_count_once _ _ _ _ hrights _⟩

end Tezos.Protocol
