import Tezos.Protocol.RollStorage

/-! The amendment procedure: proposals and ballots, weighted by rolls, and the periods that follow each other. -/

namespace Tezos.Protocol
open Lib (Store)

variable {p : Primitives}

def maxProposalsPerDelegate : Nat := 20

structure Ballots where
  yay : Int
  nay : Int
  pass : Int

namespace Votes
variable (votes : Votes p)

def recordedProposalCountForDelegate (proposer : p.PublicKeyHash) : Nat :=
  (votes.proposalsCount.find? proposer).getD 0

def recordProposal (proposer : p.PublicKeyHash) (proposal : p.ProtocolHash) : Votes p :=
  { votes with
    proposalsCount := votes.proposalsCount.add proposer (votes.recordedProposalCountForDelegate proposer + 1)
    proposals := votes.proposals.add (toLex (proposal, proposer)) () }

/-- The weight of each proposal: the rolls of those who proposed it. -/
def getProposals : Result p (Store p.ProtocolHash Int) :=
  votes.proposals.keys.foldlM
    (fun acc key => do
      let weight ← getKey votes.listings (ofLex key).2
      let previous := (acc.find? (ofLex key).1).getD 0
      return acc.add (ofLex key).1 (int32 (weight + previous)))
    .empty

def clearProposals : Votes p := { votes with proposalsCount := .empty, proposals := .empty }

def recordBallot (delegate : p.PublicKeyHash) (ballot : Ballot) : Result p (Votes p) := do
  let ballots ← initKey votes.ballots delegate ballot
  return { votes with ballots }

def countBallot (acc : Ballots) (binding : p.PublicKeyHash × Ballot) : Result p Ballots := do
  let weight ← getKey votes.listings binding.1
  match binding.2 with
  | .yay => return { acc with yay := int32 (weight + acc.yay) }
  | .nay => return { acc with nay := int32 (weight + acc.nay) }
  | .pass => return { acc with pass := int32 (weight + acc.pass) }

def getBallots : Result p Ballots := votes.ballots.bindings.foldlM votes.countBallot ⟨0, 0, 0⟩

def clearBallots : Votes p := { votes with ballots := .empty }

/-- Each roll counts for the delegate that owns it. -/
def listRoll (_roll : Nat) (delegate : p.PublicKey) (acc : Store p.PublicKeyHash Int × Int) :
    Result p (Store p.PublicKeyHash Int × Int) :=
  let count := (acc.1.find? (p.hash delegate)).getD 0
  .ok (acc.1.add (p.hash delegate) (int32 (count + 1)), int32 (acc.2 + 1))

def freezeListings (rolls : Rolls p) : Result p (Votes p) := do
  let (listings, total) ← rolls.fold listRoll (votes.listings, 0)
  match votes.listingsSize with
  | some _ => fail (.storage .existingKey)
  | none => return { votes with listings, listingsSize := some total }

def listingSize : Result p Int :=
  match votes.listingsSize with
  | none => fail (.storage (.missingKey .get))
  | some size => .ok size

def inListings (delegate : p.PublicKeyHash) : Bool := votes.listings.mem delegate

def clearListings : Votes p := { votes with listings := .empty, listingsSize := none }

def getCurrentProposal : Result p p.ProtocolHash :=
  match votes.currentProposal with
  | none => fail (.storage (.missingKey .get))
  | some proposal => .ok proposal

def initCurrentProposal (proposal : p.ProtocolHash) : Result p (Votes p) :=
  match votes.currentProposal with
  | some _ => fail (.storage .existingKey)
  | none => .ok { votes with currentProposal := some proposal }

def clearCurrentProposal : Result p (Votes p) :=
  match votes.currentProposal with
  | none => fail (.storage (.missingKey .del))
  | some _ => .ok { votes with currentProposal := none }

end Votes

namespace Amendment

/-- The proposals with the most votes so far, after one more. -/
def mergeWinner (winners : Option (List p.ProtocolHash × Int)) (candidate : p.ProtocolHash × Int) :
    Option (List p.ProtocolHash × Int) :=
  match winners with
  | none => some ([candidate.1], candidate.2)
  | some (proposals, winnersVote) =>
    if candidate.2 = winnersVote then some (candidate.1 :: proposals, winnersVote)
    else if candidate.2 ≥ winnersVote then some ([candidate.1], candidate.2)
    else some (proposals, winnersVote)

/-- The proposal submitted by the most delegates; none in case of a tie. -/
def selectWinningProposal (proposals : Store p.ProtocolHash Int) : Option p.ProtocolHash :=
  match proposals.bindings.foldl mergeWinner none with
  | some ([proposal], _) => some proposal
  | _ => none

def checkApprovalAndUpdateQuorum (votes : Votes p) : Result p (Votes p × Bool) := do
  let ballots ← votes.getBallots
  let maximumVote ← votes.listingSize
  let expectedQuorum := votes.currentQuorum
  let castedVotes := int32 (ballots.yay + ballots.nay)
  let allVotes := int32 (castedVotes + ballots.pass)
  let supermajority := (int32 (8 * castedVotes)).tdiv 10
  if maximumVote = 0 then .error .exception
  else
    let participation := int32 ((int64 (allVotes * 10000)).tdiv maximumVote)
    let outcome := participation ≥ expectedQuorum ∧ ballots.yay ≥ supermajority
    let updatedQuorum := (int32 (int32 (8 * expectedQuorum) + int32 (2 * participation))).tdiv 10
    return ({ votes with currentQuorum := updatedQuorum }, outcome)

variable (ctxt : Context p)

def setVotes (votes : Votes p) : Context p := { ctxt with context.votes := votes }

/-- The state machine of the procedure; the listings are frozen at the beginning of each period where one votes. -/
def startNewVotingPeriod : Result p (Context p) := do
  let votes := ctxt.context.votes
  let rolls := ctxt.context.rolls
  match votes.currentPeriodKind with
  | .proposal =>
    let proposals ← votes.getProposals
    let votes := votes.clearProposals.clearListings
    match selectWinningProposal proposals with
    | none =>
      let votes ← votes.freezeListings rolls
      return setVotes ctxt votes
    | some proposal =>
      let votes ← votes.initCurrentProposal proposal
      let votes ← votes.freezeListings rolls
      return setVotes ctxt { votes with currentPeriodKind := .testingVote }
  | .testingVote =>
    let (votes, approved) ← checkApprovalAndUpdateQuorum votes
    let votes := votes.clearBallots.clearListings
    if approved then
      let expiration := ctxt.timestamp + ctxt.constants.testChainDuration
      let proposal ← votes.getCurrentProposal
      let ctxt := { ctxt with context.testChain := some (proposal, expiration) }
      return setVotes ctxt { votes with currentPeriodKind := .testing }
    else
      let votes ← votes.clearCurrentProposal
      let votes ← votes.freezeListings rolls
      return setVotes ctxt { votes with currentPeriodKind := .proposal }
  | .testing =>
    let votes ← votes.freezeListings rolls
    return setVotes ctxt { votes with currentPeriodKind := .promotionVote }
  | .promotionVote =>
    let (votes, approved) ← checkApprovalAndUpdateQuorum votes
    let activated ←
      (if approved then votes.getCurrentProposal.map some else .ok ctxt.context.activated :
        Result p (Option p.ProtocolHash))
    let ctxt := { ctxt with context.activated := activated }
    let votes := votes.clearBallots.clearListings
    let votes ← votes.clearCurrentProposal
    let votes ← votes.freezeListings rolls
    return setVotes ctxt { votes with currentPeriodKind := .proposal }

/-- Whether a list has more than `n` elements; a negative `n` is an exception. -/
def longerThan {α : Type} : List α → Int → Result p Bool
  | l, n =>
    if n < 0 then .error .exception
    else
      match l with
      | [] => .ok false
      | _ :: rest => if n = 0 then .ok true else longerThan rest (n - 1)

def recordProposals (delegate : p.PublicKeyHash) (proposals : List p.ProtocolHash) :
    Result p (Context p) := do
  failUnless (!proposals.isEmpty) .emptyProposal
  let votes := ctxt.context.votes
  match votes.currentPeriodKind with
  | .proposal =>
    if votes.inListings delegate then
      let count := votes.recordedProposalCountForDelegate delegate
      let tooMany ← longerThan proposals (maxProposalsPerDelegate - count)
      failUnless (!tooMany) .tooManyProposals
      return setVotes ctxt (proposals.foldl (fun votes proposal => votes.recordProposal delegate proposal) votes)
    else fail .unauthorizedProposal
  | .testingVote | .testing | .promotionVote => fail .unexpectedProposal

/-- A ballot in a period where there is a vote on the current proposal. -/
def castBallot (delegate : p.PublicKeyHash) (proposal : p.ProtocolHash) (ballot : Ballot) :
    Result p (Context p) := do
  let votes := ctxt.context.votes
  let currentProposal ← votes.getCurrentProposal
  failUnless (proposal = currentProposal) .invalidProposal
  failUnless (!votes.ballots.mem delegate) .unauthorizedBallot
  if votes.inListings delegate then
    let votes ← votes.recordBallot delegate ballot
    return setVotes ctxt votes
  else fail .unauthorizedBallot

def recordBallot (delegate : p.PublicKeyHash) (proposal : p.ProtocolHash) (ballot : Ballot) :
    Result p (Context p) :=
  match ctxt.context.votes.currentPeriodKind with
  | .testingVote | .promotionVote => castBallot ctxt delegate proposal ballot
  | .testing | .proposal => fail .unexpectedBallot

end Amendment

end Tezos.Protocol
