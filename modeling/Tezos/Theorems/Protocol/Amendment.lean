import Tezos.Lib.Runs
import Tezos.Protocol.Amendment

/-! The votes of the amendment procedure: when a proposal is approved, and what holds as the periods follow each other.
    -/

namespace Tezos.Protocol
open Option Votes List
open Lib (Store run StepsMeet stepsMeet_cons stepsMeet_nil inv_of_stepsMeet ok_bind bind_eq_ok)

variable {p : Primitives}

namespace Amendment

/-! ### Approval -/

/-- What was voted: by no more than the listed rolls, of which there are at most `8e5`. -/
structure Voted (votes : Votes p) (ballots : Ballots) (size : Int) : Prop where
  getBallots : votes.getBallots = .ok ballots
  listingsSize : votes.listingsSize = some size
  listed : 0 < size ∧ size ≤ 800000
  quorum : 0 ≤ votes.currentQuorum ∧ votes.currentQuorum ≤ 10000
  nonneg : 0 ≤ ballots.yay ∧ 0 ≤ ballots.nay ∧ 0 ≤ ballots.pass
  sum_le : ballots.yay + ballots.nay + ballots.pass ≤ size

/-- In centile of percentage. -/
def participation (ballots : Ballots) (size : Int) : Int := (ballots.yay + ballots.nay + ballots.pass) * 10000 / size

variable {votes : Votes p} {ballots : Ballots} {size : Int}

variable (h : Voted votes ballots size)
include h

theorem Voted.participation_mem : 0 ≤ participation ballots size ∧ participation ballots size ≤ 10000 := by
  obtain ⟨hyay, hnay, hpass⟩ := h.nonneg
  constructor
  · exact Int.ediv_nonneg (by omega) h.listed.1.le
  · exact Int.ediv_le_of_le_mul h.listed.1 (by linarith [h.sum_le])

/-- The values that are computed on 32 bits. -/
def intermediate (votes : Votes p) (ballots : Ballots) (size : Int) : List Int :=
  [ballots.yay + ballots.nay, ballots.yay + ballots.nay + ballots.pass, 8 * (ballots.yay + ballots.nay),
    participation ballots size, 8 * votes.currentQuorum, 2 * participation ballots size,
    8 * votes.currentQuorum + 2 * participation ballots size]

theorem Voted.fits : ∀ x ∈ intermediate votes ballots size, int32 x = x := by
  obtain ⟨hyay, hnay, hpass⟩ := h.nonneg
  obtain ⟨hlow, hhigh⟩ := h.participation_mem
  have hsum := h.sum_le
  have hsize := h.listed
  have hquor := h.quorum
  intro x hx
  refine int32_eq_self ?_ ?_ <;> simp only [intermediate, mem_cons, not_mem_nil, or_false] at hx <;>
    rcases hx with rfl | rfl | rfl | rfl | rfl | rfl | rfl <;> omega

/-- Nothing wraps around: the vote is decided by the quotients, rounded down. -/
theorem Voted.check_eq : checkApprovalAndUpdateQuorum votes =
      .ok ({ votes with currentQuorum := (8 * votes.currentQuorum + 2 * participation ballots size) / 10 },
        decide (participation ballots size ≥ votes.currentQuorum ∧
          ballots.yay ≥ 8 * (ballots.yay + ballots.nay) / 10)) := by
  obtain ⟨hyay, hnay, hpass⟩ := h.nonneg
  obtain ⟨hlow, hhigh⟩ := h.participation_mem
  have hfits := h.fits
  simp only [intermediate, forall_mem_cons, not_mem_nil, false_imp_iff, implies_true, and_true] at hfits
  obtain ⟨hcast, hall, hmaj, hpar, hold, hnew, hupd⟩ := hfits
  have hint64 : int64 ((ballots.yay + ballots.nay + ballots.pass) * 10000) =
      (ballots.yay + ballots.nay + ballots.pass) * 10000 := by
    have hsum := h.sum_le
    have hsize := h.listed
    unfold int64
    rw [Int.bmod_eq_of_le] <;> omega
  have hdiv : ((ballots.yay + ballots.nay + ballots.pass) * 10000).tdiv size = participation ballots size :=
    Int.tdiv_eq_ediv_of_nonneg (by omega)
  unfold checkApprovalAndUpdateQuorum
  rw [h.getBallots, listingSize, h.listingsSize]
  simp only [ok_bind, hcast, hall, hmaj, hint64, hdiv, hpar, hold, hnew, hupd, if_neg h.listed.1.ne']
  rw [Int.tdiv_eq_ediv_of_nonneg (by linarith [h.quorum.1]), Int.tdiv_eq_ediv_of_nonneg (by omega)]
  rfl

/-- A proposal is approved exactly when the participation reaches the quorum and the yays are eight tenths of the
    ballots cast; the quorum moves towards the participation, and nothing overflows. -/
def Exact (votes : Votes p) (ballots : Ballots) (size : Int) : Prop :=
  ∃ votes' approved, checkApprovalAndUpdateQuorum votes = .ok (votes', approved) ∧
    (approved = true ↔ votes.currentQuorum * size ≤ 10000 * (ballots.yay + ballots.nay + ballots.pass) ∧
      8 * (ballots.yay + ballots.nay) ≤ 10 * ballots.yay) ∧
    0 ≤ votes'.currentQuorum ∧ votes'.currentQuorum ≤ 10000 ∧
    min votes.currentQuorum (participation ballots size) ≤ votes'.currentQuorum ∧
    votes'.currentQuorum ≤ max votes.currentQuorum (participation ballots size) ∧
    ∀ x ∈ intermediate votes ballots size, int32 x = x

theorem Voted.quorum_le_participation : votes.currentQuorum ≤ participation ballots size ↔
      votes.currentQuorum * size ≤ 10000 * (ballots.yay + ballots.nay + ballots.pass) := by
  rw [participation, Int.le_ediv_iff_mul_le h.listed.1, mul_comm 10000]

omit h

/-- Eight tenths are rounded down: a proposal that fails to reach them by less than one vote is approved too. -/
theorem exact_iff (votes : Votes p) (ballots : Ballots) (size : Int) (h : Voted votes ballots size) :
    Exact votes ballots size ↔
      10000 * (ballots.yay + ballots.nay + ballots.pass) < votes.currentQuorum * size ∨
        8 * (ballots.yay + ballots.nay) ≤ 10 * ballots.yay ∨
          10 * ballots.yay + 10 ≤ 8 * (ballots.yay + ballots.nay) := by
  have hquor := h.quorum
  have hpar := h.participation_mem
  have hreac := h.quorum_le_participation
  have hrnd : ballots.yay ≥ 8 * (ballots.yay + ballots.nay) / 10 ↔
      8 * (ballots.yay + ballots.nay) < 10 * ballots.yay + 10 := by omega
  constructor
  · rintro ⟨votes', approved, hchk, happ, -⟩
    rw [h.check_eq] at hchk
    obtain ⟨-, rfl⟩ := Prod.mk.injEq _ _ _ _ ▸ Except.ok.inj hchk
    rw [decide_eq_true_iff, ge_iff_le, hreac, hrnd] at happ
    by_contra hnot
    simp only [not_or, not_lt, not_le] at hnot
    obtain ⟨hvot, hless, hmore⟩ := hnot
    exact absurd (happ.mp ⟨hvot, hmore⟩).2 (not_le.mpr hless)
  · intro hcond
    refine ⟨_, _, h.check_eq, ?_, by simp only; omega, by simp only; omega, by simp only; omega,
      by simp only; omega, h.fits⟩
    rw [decide_eq_true_iff, ge_iff_le, hreac, hrnd]
    constructor
    · rintro ⟨hvot, hmore⟩
      rcases hcond with hfew | hcond | hless
      · exact absurd hvot (not_le.mpr hfew)
      · exact ⟨hvot, hcond⟩
      · exact absurd hmore (not_lt.mpr hless)
    · rintro ⟨hvot, hmore⟩
      exact ⟨hvot, by omega⟩

/-- One listed roll, of a delegate that votes against the proposal. -/
def opposed (ballot : Ballot) : Votes .numbers :=
  { (Storage.empty .numbers).votes with
    currentPeriodKind := .testingVote, currentProposal := some (0 : Nat), listingsSize := some 1
    listings := Store.empty.add (1 : Nat) 1, ballots := Store.empty.add (1 : Nat) ballot }

theorem voted_opposed_nay : Voted (opposed .nay) ⟨0, 1, 0⟩ 1 := by
  refine ⟨rfl, rfl, ?_, ?_, ?_, ?_⟩ <;> decide

theorem voted_opposed_yay : Voted (opposed .yay) ⟨1, 0, 0⟩ 1 := by
  refine ⟨rfl, rfl, ?_, ?_, ?_, ?_⟩ <;> decide

theorem exact_opposed_yay : Exact (opposed .yay) ⟨1, 0, 0⟩ 1 :=
  (exact_iff (opposed .yay) ⟨1, 0, 0⟩ 1 voted_opposed_yay).mpr (.inr (.inl (by decide)))

theorem not_exact_opposed_nay : Voted (opposed .nay) ⟨0, 1, 0⟩ 1 ∧
      (∃ votes', checkApprovalAndUpdateQuorum (opposed .nay) = .ok (votes', true)) ∧
        ¬Exact (opposed .nay) ⟨0, 1, 0⟩ 1 := by
  refine ⟨voted_opposed_nay, ⟨_, rfl⟩, ?_⟩
  rintro ⟨votes', approved, hchk, happ, -⟩
  obtain ⟨-, rfl⟩ := Prod.mk.injEq _ _ _ _ ▸ Except.ok.inj hchk
  exact absurd (happ.mp rfl).2 (by decide)

end Amendment

def Rolls.owned (r : Rolls p) : Nat := (range r.next).countP fun roll => (r.owner.find? roll).isSome

/-- There is something to list, and it can be counted on 32 bits, as rolls are. -/
def Rolls.Countable (r : Rolls p) : Prop := 0 < r.owned ∧ r.owned < 2 ^ 31

/-- The listings after a freeze: the size is the sum of the weights, which are positive. -/
structure Listed (listings : Store p.PublicKeyHash Int) (size : Int) : Prop where
  weight : ∀ delegate weight, listings.find? delegate = some weight → 0 < weight
  sum : size = listings.sum fun _ weight => weight.toNat

namespace Listed
variable {listings : Store p.PublicKeyHash Int} {size : Int} {r : Rolls p}

theorem empty : Listed (Store.empty : Store p.PublicKeyHash Int) 0 := ⟨by simp, by simp⟩

theorem listRoll (h : Listed listings size) (hsize : size + 1 < 2 ^ 31) (roll : Nat) (delegate : p.PublicKey) :
    ∃ listings', listRoll roll delegate (listings, size) = .ok (listings', size + 1) ∧
      Listed listings' (size + 1) := by
  have hsum := h.sum
  have hpart : 0 ≤ (listings.find? (p.hash delegate)).getD 0 ∧ (listings.find? (p.hash delegate)).getD 0 =
      listings.part (fun _ weight => weight.toNat) (p.hash delegate) := by
    rcases hfind : listings.find? (p.hash delegate) with _ | weight
    · simp [Store.part_of_none hfind]
    · have hweig := h.weight _ _ hfind
      simp only [getD_some, Store.part_of_some hfind]
      omega
  have hle := listings.part_le_sum (f := fun _ weight => weight.toNat) (k := p.hash delegate)
  refine ⟨listings.add (p.hash delegate) ((listings.find? (p.hash delegate)).getD 0 + 1), ?_, ?_, ?_⟩
  · simp only [Votes.listRoll]
    rw [int32_eq_self (x := size + 1) (by omega) hsize, int32_eq_self (by omega) (by omega)]
  · intro delegate' weight hfind
    rw [Store.find?_add] at hfind
    split at hfind
    · cases hfind
      omega
    · exact h.weight delegate' weight hfind
  · have hadd := listings.sum_add (f := fun _ weight => weight.toNat) (k := p.hash delegate)
      (v := (listings.find? (p.hash delegate)).getD 0 + 1)
    omega

theorem foldFrom (h : Listed listings size) (count roll : Nat)
    (hsize : size + (range' roll count).countP (fun roll => (r.owner.find? roll).isSome) < 2 ^ 31) :
    ∃ listings', r.foldFrom Votes.listRoll count roll (listings, size) =
        .ok (listings', size + (range' roll count).countP fun roll => (r.owner.find? roll).isSome) ∧
      Listed listings' (size + (range' roll count).countP fun roll => (r.owner.find? roll).isSome) := by
  induction count generalizing listings size roll with
  | zero => exact ⟨listings, by simp [Rolls.foldFrom], by simpa using h⟩
  | succ count ih =>
    rw [range'_succ, countP_cons] at hsize ⊢
    unfold Rolls.foldFrom
    rcases hown : r.owner.find? roll with _ | delegate
    · simp only [hown, isSome_none, Bool.false_eq_true, if_false, add_zero] at hsize ⊢
      exact ih h (roll + 1) hsize
    · simp only [hown, isSome_some, if_true, Nat.cast_add, Nat.cast_one] at hsize ⊢
      obtain ⟨listings₁, hstep, h₁⟩ := h.listRoll (by omega) roll delegate
      rw [hstep, add_comm ((countP _ _ : Nat) : Int) 1, ← add_assoc]
      exact ih h₁ (roll + 1) (by omega)

end Listed

namespace Votes
variable {votes : Votes p}

theorem freezeListings_eq {r : Rolls p} (hr : r.Countable) (hsize : votes.listingsSize = none)
    (hlist : votes.listings = .empty) :
    ∃ listings, votes.freezeListings r = .ok { votes with listings, listingsSize := some r.owned } ∧
      Listed listings r.owned := by
  have howned : (range' 0 r.next).countP (fun roll => (r.owner.find? roll).isSome) = r.owned := by
    rw [Rolls.owned, range_eq_range']
  obtain ⟨listings, hfold, hlis⟩ := (Listed.empty (p := p)).foldFrom (r := r) r.next 0 (by
    rw [howned, zero_add]
    exact_mod_cast hr.2)
  rw [howned, zero_add] at hfold hlis
  refine ⟨listings, ?_, hlis⟩
  simp only [freezeListings, Rolls.fold, hlist, hfold, ok_bind, hsize]
  rfl

/-! ### Periods -/

/-- What holds between two operations. There is a proposal except while proposals are made, the listings are there
    except while the proposal is tested, and only listed delegates have proposed or voted, in their periods. -/
structure Consistent (votes : Votes p) : Prop where
  currentProposal : votes.currentProposal.isSome ↔ votes.currentPeriodKind ≠ .proposal
  listings : votes.currentPeriodKind ≠ .testing →
    ∃ size, votes.listingsSize = some size ∧ 0 < size ∧ Listed votes.listings size
  unlisted : votes.currentPeriodKind = .testing → votes.listingsSize = none ∧ votes.listings = .empty
  proposals : ∀ key, votes.proposals.mem key →
    votes.currentPeriodKind = .proposal ∧ votes.listings.mem (ofLex key).2
  ballots : ∀ delegate, votes.ballots.mem delegate →
    (votes.currentPeriodKind = .testingVote ∨ votes.currentPeriodKind = .promotionVote) ∧ votes.listings.mem delegate

/-- Whether the listings are frozen when the period ends: they are, unless the proposal is to be tested. -/
def freezes (votes : Votes p) : Bool :=
  match votes.currentPeriodKind, Amendment.checkApprovalAndUpdateQuorum votes with
  | .testingVote, .ok (_, approved) => !approved
  | _, _ => true

namespace Consistent

theorem getProposals (h : votes.Consistent) : ∃ weights, votes.getProposals = .ok weights := by
  refine Lib.foldlM_ok (fun key hkey weights => ?_) _
  obtain ⟨weight, hweig⟩ := isSome_iff_exists.mp (h.proposals key (Store.mem_keys.mp hkey)).2
  simp only [getKey, hweig, ok_bind]
  exact ⟨_, rfl⟩

theorem getBallots (h : votes.Consistent) : ∃ ballots, votes.getBallots = .ok ballots := by
  refine Lib.foldlM_ok (fun binding hbin ballots => ?_) _
  have hmem := Store.mem_of_find? (Store.find?_eq_some_iff.mpr hbin)
  obtain ⟨weight, hweig⟩ := isSome_iff_exists.mp (h.ballots binding.1 hmem).2
  simp only [countBallot, getKey, hweig, ok_bind]
  cases binding.2 <;> exact ⟨_, rfl⟩

theorem checkApproval (h : votes.Consistent) (hkind : votes.currentPeriodKind ≠ .testing) : ∃ quorum approved,
      Amendment.checkApprovalAndUpdateQuorum votes = .ok ({ votes with currentQuorum := quorum }, approved) := by
  obtain ⟨ballots, hbal⟩ := h.getBallots
  obtain ⟨size, hsize, hpos, -⟩ := h.listings hkind
  simp only [Amendment.checkApprovalAndUpdateQuorum, hbal, ok_bind, listingSize, hsize, if_neg hpos.ne']
  exact ⟨_, _, rfl⟩

/-- The listings are made anew at the start of a period, where nobody has proposed or voted. -/
theorem freeze (votes : Votes p) (kind : PeriodKind) {r : Rolls p} (hr : r.Countable) (hkind : kind ≠ .testing)
    (hprop : votes.currentProposal.isSome ↔ kind ≠ .proposal) (hsize : votes.listingsSize = none)
    (hlist : votes.listings = .empty) (hprp : ∀ key, votes.proposals.mem key = false)
    (hbal : ∀ delegate, votes.ballots.mem delegate = false) :
    ∃ votes', votes.freezeListings r = .ok votes' ∧ votes'.currentPeriodKind = votes.currentPeriodKind ∧
      { votes' with currentPeriodKind := kind }.Consistent := by
  obtain ⟨listings, hfrz, hlis⟩ := freezeListings_eq hr hsize hlist
  refine ⟨_, hfrz, rfl, hprop, fun _ => ⟨_, rfl, by exact_mod_cast hr.1, hlis⟩, fun h => absurd h hkind, ?_, ?_⟩
  · intro key hkey
    rw [hprp key] at hkey
    cases hkey
  · intro delegate hball
    rw [hbal delegate] at hball
    cases hball

theorem no_proposals (h : votes.Consistent) (hkind : votes.currentPeriodKind ≠ .proposal) (key) :
    votes.proposals.mem key = false := by
  by_contra hkey
  exact hkind (h.proposals key (by simpa using hkey)).1

theorem no_ballots (h : votes.Consistent) (hvote : votes.currentPeriodKind ≠ .testingVote)
    (hprom : votes.currentPeriodKind ≠ .promotionVote) (delegate) : votes.ballots.mem delegate = false := by
  by_contra hball
  rcases (h.ballots delegate (by simpa using hball)).1 with hkind | hkind
  · exact hvote hkind
  · exact hprom hkind

end Consistent

end Votes

namespace Amendment
open Votes (Consistent)

variable {ctxt : Context p}

variable (h : ctxt.context.votes.Consistent)
include h

theorem start_proposal (hkind : ctxt.context.votes.currentPeriodKind = .proposal) (hr : ctxt.context.rolls.Countable) :
    ∃ next, startNewVotingPeriod ctxt = .ok next ∧ next.context.votes.Consistent := by
  obtain ⟨weights, hwgh⟩ := h.getProposals
  have hbal := h.no_ballots (by simp [hkind]) (by simp [hkind])
  have hnone : ctxt.context.votes.currentProposal = none := by simpa [hkind] using h.currentProposal
  simp only [startNewVotingPeriod, hkind, hwgh, ok_bind]
  rcases hwin : selectWinningProposal weights with _ | proposal
  · obtain ⟨votes', hfrz, hsame, hcons⟩ := Consistent.freeze
      (ctxt.context.votes.clearProposals.clearListings) .proposal hr (by simp) (by simp [clearListings,
        clearProposals, hnone]) rfl rfl (fun _ => rfl) hbal
    have hprop : votes'.currentPeriodKind = .proposal := hsame.trans hkind
    rw [← hprop] at hcons
    simp only [hfrz, ok_bind]
    exact ⟨_, rfl, hcons⟩
  · obtain ⟨votes', hfrz, -, hcons⟩ := Consistent.freeze
      ({ ctxt.context.votes.clearProposals.clearListings with currentProposal := some proposal }) .testingVote hr (by simp)
      (by simp) rfl rfl (fun _ => rfl) hbal
    simp only [initCurrentProposal, clearListings, clearProposals, hnone, ok_bind] at hfrz ⊢
    simp only [hfrz, ok_bind]
    exact ⟨_, rfl, hcons⟩

variable {proposal : p.ProtocolHash} {votes : Votes p} {delegate : p.PublicKeyHash} {next : Context p}
  {ballot : Ballot}

omit h in
theorem freeze_proposal (quorum : Int) {r : Rolls p} (h : votes.Consistent)
    (hkind : votes.currentPeriodKind ≠ .proposal) (hprop : votes.currentProposal = some proposal)
    (hr : r.Countable) :
    ∃ votes', (({ votes with currentQuorum := quorum } : Votes p).clearBallots.clearListings.clearCurrentProposal >>=
        fun votes => votes.freezeListings r) = .ok votes' ∧
      { votes' with currentPeriodKind := .proposal }.Consistent := by
  obtain ⟨votes', hfrz, -, hcons⟩ := Consistent.freeze
      ({ ({ votes with currentQuorum := quorum } : Votes p).clearBallots.clearListings with
      currentProposal := none }) .proposal hr (by simp) (by simp) rfl rfl (h.no_proposals hkind) (fun _ => rfl)
  refine ⟨votes', ?_, hcons⟩
  simp only [clearCurrentProposal, clearListings, clearBallots, hprop, ok_bind] at hfrz ⊢
  exact hfrz

theorem start_ok (hr : ctxt.context.votes.freezes → ctxt.context.rolls.Countable) :
    ∃ next, startNewVotingPeriod ctxt = .ok next ∧ next.context.votes.Consistent := by
  cases hkind : ctxt.context.votes.currentPeriodKind with
  | proposal => exact start_proposal h hkind (hr (by simp [freezes, hkind]))
  | testingVote =>
    have hne : ctxt.context.votes.currentPeriodKind ≠ .proposal := by simp [hkind]
    obtain ⟨proposal, hprop⟩ := isSome_iff_exists.mp (h.currentProposal.mpr hne)
    obtain ⟨quorum, approved, hchk⟩ := h.checkApproval (by simp [hkind])
    simp only [startNewVotingPeriod, hkind]
    rw [hchk]
    cases approved with
    | true =>
      simp only [if_true, getCurrentProposal, clearListings, clearBallots, hprop, ok_bind]
      refine ⟨_, rfl, ?_, fun hnot => absurd rfl hnot, fun _ => ⟨rfl, rfl⟩, ?_, ?_⟩
      · simp [setVotes]
      · intro key hkey
        have hkey' : ctxt.context.votes.proposals.mem key = true := hkey
        rw [h.no_proposals hne key] at hkey'
        cases hkey'
      · intro delegate hball
        cases hball
    | false =>
      obtain ⟨votes', hfrz, hcons⟩ := freeze_proposal quorum h hne hprop
        (hr (by simp [freezes, hkind, hchk]))
      obtain ⟨votes₁, hclr, hfrz⟩ := bind_eq_ok.mp hfrz
      simp only [Bool.false_eq_true, if_false, hclr, ok_bind, hfrz]
      refine ⟨_, rfl, ?_⟩
      exact hcons
  | testing =>
    have hne : ctxt.context.votes.currentPeriodKind ≠ .proposal := by simp [hkind]
    obtain ⟨hsize, hlist⟩ := h.unlisted hkind
    obtain ⟨votes', hfrz, -, hcons⟩ := Consistent.freeze ctxt.context.votes .promotionVote
      (hr (by simp [freezes, hkind])) (by simp) (by simpa using h.currentProposal.mpr hne) hsize hlist
      (h.no_proposals hne) (h.no_ballots (by simp [hkind]) (by simp [hkind]))
    simp only [startNewVotingPeriod, hkind, hfrz, ok_bind]
    exact ⟨_, rfl, hcons⟩
  | promotionVote =>
    have hne : ctxt.context.votes.currentPeriodKind ≠ .proposal := by simp [hkind]
    obtain ⟨proposal, hprop⟩ := isSome_iff_exists.mp (h.currentProposal.mpr hne)
    obtain ⟨quorum, approved, hchk⟩ := h.checkApproval (by simp [hkind])
    obtain ⟨votes', hfrz, hcons⟩ := freeze_proposal quorum h hne hprop
      (hr (by simp [freezes, hkind]))
    obtain ⟨votes₁, hclr, hfrz⟩ := bind_eq_ok.mp hfrz
    have hact : ∃ activated, (if approved = true then
        (getCurrentProposal { ctxt.context.votes with currentQuorum := quorum }).map some
        else .ok ctxt.context.activated : Result p (Option p.ProtocolHash)) = .ok activated := by
      cases approved <;> simp [getCurrentProposal, hprop, Except.map]
    obtain ⟨activated, hact⟩ := hact
    simp only [startNewVotingPeriod, hkind]
    rw [hchk]
    simp only [hact, ok_bind, hclr, hfrz]
    refine ⟨_, rfl, ?_⟩
    exact hcons

omit h in
theorem Consistent.recordProposal (h : votes.Consistent) (hkind : votes.currentPeriodKind = .proposal)
    (hlis : votes.inListings delegate) (proposal : p.ProtocolHash) :
    (votes.recordProposal delegate proposal).Consistent := by
  refine ⟨h.currentProposal, h.listings, h.unlisted, ?_, h.ballots⟩
  intro key hkey
  rcases Store.mem_add.mp hkey with rfl | hkey
  · exact ⟨hkind, hlis⟩
  · exact h.proposals key hkey

omit h in
theorem Consistent.recordAll (h : votes.Consistent) (hkind : votes.currentPeriodKind = .proposal)
    (hlis : votes.inListings delegate) (proposals : List p.ProtocolHash) :
    (proposals.foldl (fun votes proposal => votes.recordProposal delegate proposal) votes).Consistent := by
  induction proposals generalizing votes with
  | nil => exact h
  | cons proposal proposals ih => exact ih (Consistent.recordProposal h hkind hlis proposal) hkind hlis

theorem Consistent.recordProposals {proposals : List p.ProtocolHash}
    (hnext : recordProposals ctxt delegate proposals = .ok next) : next.context.votes.Consistent := by
  obtain ⟨_, -, hnext⟩ := bind_eq_ok.mp hnext
  cases hkind : ctxt.context.votes.currentPeriodKind <;> simp only [hkind] at hnext
  case proposal =>
    split at hnext
    · rename_i hlis
      obtain ⟨_, -, hnext⟩ := bind_eq_ok.mp hnext
      obtain ⟨_, -, hnext⟩ := bind_eq_ok.mp hnext
      cases hnext
      exact Consistent.recordAll h hkind hlis proposals
    · cases hnext
  all_goals cases hnext

theorem Consistent.castBallot
    (hkind : ctxt.context.votes.currentPeriodKind = .testingVote ∨ ctxt.context.votes.currentPeriodKind = .promotionVote)
    (hnext : castBallot ctxt delegate proposal ballot = .ok next) : next.context.votes.Consistent := by
  obtain ⟨_, -, hnext⟩ := bind_eq_ok.mp hnext
  obtain ⟨_, -, hnext⟩ := bind_eq_ok.mp hnext
  obtain ⟨_, -, hnext⟩ := bind_eq_ok.mp hnext
  split at hnext
  · rename_i hlis
    obtain ⟨votes, hvot, hnext⟩ := bind_eq_ok.mp hnext
    cases hnext
    obtain ⟨-, hvot⟩ := initKey_bind_ok.mp hvot
    cases hvot
    refine ⟨h.currentProposal, h.listings, h.unlisted, h.proposals, ?_⟩
    intro delegate' hball
    rcases Store.mem_add.mp hball with rfl | hball
    · exact ⟨hkind, hlis⟩
    · exact h.ballots delegate' hball
  · cases hnext

theorem Consistent.recordBallot (hnext : recordBallot ctxt delegate proposal ballot = .ok next) :
    next.context.votes.Consistent := by
  unfold Amendment.recordBallot at hnext
  cases hkind : ctxt.context.votes.currentPeriodKind <;> simp only [hkind] at hnext
  case testingVote => exact Consistent.castBallot h (.inl hkind) hnext
  case promotionVote => exact Consistent.castBallot h (.inr hkind) hnext
  all_goals cases hnext

omit h in
theorem castBallot_twice (hvoted : ctxt.context.votes.ballots.mem delegate) :
    castBallot ctxt delegate proposal ballot ≠ .ok next := by
  intro hnext
  obtain ⟨_, -, hnext⟩ := bind_eq_ok.mp hnext
  obtain ⟨_, -, hnext⟩ := bind_eq_ok.mp hnext
  simp only [hvoted] at hnext
  cases hnext

omit h in
theorem recordBallot_twice (hvoted : ctxt.context.votes.ballots.mem delegate) :
    recordBallot ctxt delegate proposal ballot ≠ .ok next := by
  unfold recordBallot
  split
  · exact castBallot_twice hvoted
  · exact castBallot_twice hvoted
  · simp [fail]
  · simp [fail]

/-- What changes the votes, and the operations that change the rest of the context. -/
inductive Action (p : Primitives)
  | proposals (delegate : p.PublicKeyHash) (proposals : List p.ProtocolHash)
  | ballot (delegate : p.PublicKeyHash) (proposal : p.ProtocolHash) (ballot : Ballot)
  | endOfPeriod
  | elsewhere (next : Context p)

/-- An operation that fails changes nothing. -/
def step (ctxt : Context p) : Action p → Context p
  | .proposals delegate proposals => (recordProposals ctxt delegate proposals).toOption.getD ctxt
  | .ballot delegate proposal ballot => (recordBallot ctxt delegate proposal ballot).toOption.getD ctxt
  | .endOfPeriod => (startNewVotingPeriod ctxt).toOption.getD ctxt
  | .elsewhere next => setVotes next ctxt.context.votes

/-- Some roll has an owner whenever the listings are frozen. -/
def Owned (ctxt : Context p) : Action p → Prop
  | .endOfPeriod => ctxt.context.votes.freezes → ctxt.context.rolls.Countable
  | _ => True

theorem consistent_getD {x : Result p (Context p)} (hx : ∀ next, x = .ok next → next.context.votes.Consistent) :
    (x.toOption.getD ctxt).context.votes.Consistent := by
  cases x with
  | error => exact h
  | ok next => exact hx next rfl

theorem consistent_step {action : Action p} (howned : Owned ctxt action) :
    (step ctxt action).context.votes.Consistent := by
  cases action with
  | proposals => exact consistent_getD h fun _ => Consistent.recordProposals h
  | ballot => exact consistent_getD h fun _ => Consistent.recordBallot h
  | endOfPeriod =>
    obtain ⟨next, hnext, hcons⟩ := start_ok h howned
    refine consistent_getD h fun next' hnext' => ?_
    rw [hnext] at hnext'
    cases hnext'
    exact hcons
  | elsewhere => exact h

omit h

/-- From the listings that are frozen at bootstrap, whatever the proposals, the ballots and the ends of periods, the
    votes are consistent, nobody votes twice, and the period can end. -/
theorem never_stuck (ctxt : Context p) (votes : Votes p) (actions : List (Action p))
    (hrolls : ctxt.context.rolls.Countable)
    (hbootstrap : (Storage.empty p).votes.freezeListings ctxt.context.rolls = .ok votes)
    (howned : StepsMeet step (setVotes ctxt votes) Owned actions) :
    let ctxt := run step (setVotes ctxt votes) actions
    ctxt.context.votes.Consistent ∧ ctxt.context.votes.ballots.keys.Nodup ∧
      (∀ delegate proposal ballot next, ctxt.context.votes.ballots.mem delegate →
        recordBallot ctxt delegate proposal ballot ≠ .ok next) ∧
      ((ctxt.context.votes.freezes → ctxt.context.rolls.Countable) →
        ∃ next, startNewVotingPeriod ctxt = .ok next) := by
  have hinit : votes.Consistent := by
    obtain ⟨votes', hfrz, hsame, hcons⟩ := Consistent.freeze (Storage.empty p).votes .proposal
      hrolls (by simp) (by simp [Storage.empty]) rfl rfl (fun _ => rfl) (fun _ => rfl)
    rw [hbootstrap] at hfrz
    cases hfrz
    rwa [show PeriodKind.proposal = votes.currentPeriodKind from hsame.symm] at hcons
  have hrun : (run step (setVotes ctxt votes) actions).context.votes.Consistent :=
    inv_of_stepsMeet (fun _ ctxt => ctxt.context.votes.Consistent) hinit (fun _ _ _ h => consistent_step h) howned
  refine ⟨hrun, Lib.SortedMap.Sorted.nodup (Store.sorted _), fun _ _ _ _ => recordBallot_twice, fun hr => ?_⟩
  obtain ⟨next, hnext, -⟩ := start_ok hrun hr
  exact ⟨next, hnext⟩

def oneRoll : Context .numbers :=
  let storage := Storage.empty .numbers
  .small { storage with rolls := { storage.rolls with next := 1, owner := Store.empty.add 0 (1 : Nat) } }

/-- The delegate proposes, and approves what it has proposed. -/
def approval : List (Action .numbers) :=
  [.proposals (1 : Nat) [(7 : Nat)], .endOfPeriod, .ballot (1 : Nat) (7 : Nat) .yay, .endOfPeriod]

theorem countable_oneRoll : oneRoll.context.rolls.Countable := by
  constructor <;> decide

theorem never_stuck_approval :
    let votes := { (Storage.empty .numbers).votes with listings := Store.empty.add (1 : Nat) 1, listingsSize := some 1 }
    let ctxt := run step (setVotes oneRoll votes) approval
    ctxt.context.votes.currentPeriodKind = .testing ∧ ctxt.context.votes.Consistent := by
  refine ⟨rfl, (never_stuck oneRoll _ approval countable_oneRoll rfl ?_).1⟩
  refine stepsMeet_cons.mpr ⟨trivial, stepsMeet_cons.mpr ⟨fun _ => countable_oneRoll, ?_⟩⟩
  exact stepsMeet_cons.mpr ⟨trivial, stepsMeet_cons.mpr ⟨fun _ => countable_oneRoll, stepsMeet_nil⟩⟩

end Amendment

end Tezos.Protocol
