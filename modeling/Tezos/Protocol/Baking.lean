import Tezos.Protocol.RollStorage

/-! Who may bake and endorse: the owners of rolls drawn at random, from the seed and a snapshot of the rolls of the
    cycle. When a block may be baked: after the times between blocks up to its priority. -/

namespace Tezos.Protocol
open Lib (Store)

variable {p : Primitives}

def SeedStorage.forCycle (ctxt : Context p) (cycle : Nat) : Result p p.Seed := do
  let preserved := ctxt.constants.preservedCycles
  let currentCycle := ctxt.level.cycle
  let latest := if currentCycle = 0 then currentCycle + (preserved + 1) else currentCycle + preserved
  let oldest := (cycleSub currentCycle preserved).getD 0
  failUnless (oldest ≤ cycle && cycle ≤ latest) (.unknownSeed oldest cycle latest)
  getKey ctxt.context.seeds.forCycle cycle

namespace RollStorage

/-- The loop of `owner`: rolls are drawn until one has an owner. -/
def drawOwner (owners : Store Nat p.PublicKey) (bound : Nat) : Nat → p.Sequence → Result p p.PublicKey
  | 0, _ => .error .divergence
  | fuel + 1, sequence =>
    let (roll, sequence) := p.takeInt32 sequence bound
    match owners.find? roll with
    | none => drawOwner owners bound fuel sequence
    | some delegate => .ok delegate

def owner (ctxt : Context p) (use : Use) (level : Level) (offset : Nat) : Result p p.PublicKey := do
  let cycle := level.cycle
  let randomSeed ← SeedStorage.forCycle ctxt cycle
  let sequence := p.levelSequence randomSeed use level.cyclePosition offset
  let index ← getKey ctxt.context.rolls.snapshotForCycle cycle
  let bound ← getKey ctxt.context.rolls.lastForSnapshot (toLex (cycle, index))
  match ctxt.context.rolls.ownerSnapshot.find? (toLex (cycle, index)) with
  | none => fail (.noRollSnapshotForCycle cycle)
  | some owners => if bound = 0 then .error .exception else drawOwner owners bound p.draws sequence

def endorsementRightsOwner (ctxt : Context p) (level : Level) (slot : Nat) : Result p p.PublicKey :=
  owner ctxt .endorsement level slot

end RollStorage

/-- Whether a key signed an operation; the chain counts for endorsements only. -/
abbrev SignatureCheck (p : Primitives) := p.PublicKey → p.ChainId → Operation p → p.Signature → Bool

def Operation.checkSignature (check : SignatureCheck p) (key : p.PublicKey) (chainId : p.ChainId)
    (op : Operation p) : Result p Unit :=
  match op.signature with
  | none => fail .missingSignature
  | some signature => failUnless (check key chainId op signature) .invalidSignature

inductive TimeError where
  | timestampAdd
  | invalidArg
  deriving DecidableEq, Repr

/-- The operator `+?`. The addition of `Int64` wraps, so that the handler of `Timestamp_add` is never reached. -/
def Timestamp.add (x y : Int) : Except TimeError Int := .ok (int64 (x + y))

def Period.oneMinute : Int := 60

def Period.mult (i p : Int) : Except TimeError Int := if i < 0 then .error .invalidArg else .ok (int64 (i * p))

namespace Baking

/-- The last duration is that of all priorities that are left. -/
def repeatLast (acc last p : Int) : Except TimeError Int := do
  let period ← Period.mult p last
  Timestamp.add acc period

def cumsumTimeBetweenBlocks (acc : Int) (durations : List Int) (p : Int) : Except TimeError Int :=
  if p ≤ 0 then .ok acc
  else match durations with
    | [] => repeatLast acc Period.oneMinute p
    | [last] => repeatLast acc last p
    | first :: durations => do
      let acc ← Timestamp.add acc first
      cumsumTimeBetweenBlocks acc durations (int32 (p - 1))

def minimalTime (timeBetweenBlocks : List Int) (priority predTimestamp : Int) : Except TimeError Int :=
  cumsumTimeBetweenBlocks predTimestamp timeBetweenBlocks (int32 (int32 priority + 1))

variable (ctxt : Context p)

def endorsementReward (blockPriority n : Nat) : Result p Tez := do
  let tez ← ctxt.constants.endorsementReward.div? (blockPriority + 1)
  tez.mul? n

/-- The owner of a slot has a right to it, next to those it has already. -/
def addEndorsementRight (level : Level) (acc : Store p.PublicKeyHash (EndorsementRight p)) (slot : Nat) :
    Result p (Store p.PublicKeyHash (EndorsementRight p)) := do
  let pk ← RollStorage.endorsementRightsOwner ctxt level slot
  let pkh := p.hash pk
  let right : EndorsementRight p :=
    match acc.find? pkh with
    | none => ⟨pk, [slot], false⟩
    | some right => { right with slots := slot :: right.slots }
  return acc.add pkh right

def endorsementRights (level : Level) : Result p (Store p.PublicKeyHash (EndorsementRight p)) :=
  (List.range ctxt.constants.endorsersPerBlock).foldlM (addEndorsementRight ctxt level) .empty

/-- The delegate whose key signed the endorsement: the last one, would there be several. -/
def checkEndorsementRights (check : SignatureCheck p) (chainId : p.ChainId) (op : EndorsementOperation p) :
    Result p (p.PublicKeyHash × List Nat × Bool) := do
  let endorsements ←
    (if op.level + 1 = ctxt.level.level then .ok ctxt.allowedEndorsements
    else endorsementRights ctxt (ctxt.fromRaw op.level) : Result p (Store p.PublicKeyHash (EndorsementRight p)))
  let signers := endorsements.bindings.filter fun binding =>
    (op.toOperation.checkSignature check binding.2.key chainId).isOk
  match signers.getLast? with
  | none => fail .unexpectedEndorsement
  | some (delegate, right) => return (delegate, right.slots, right.used)

end Baking

end Tezos.Protocol
