import Cetcd.Server.Model

/-!
# The hard state that is handed out

Term, vote and commit index are changed in many places, and the copy for the next Ready is made
separately. Every stroke that changes one makes the copy anew, so it is never older than the node.
-/

namespace Cetcd.Server

open Lib Raft Calls

/-- What is done to a node from outside; applied entries may change the peer table. -/
inductive NodeDeed
  | call (c : Call)
  | table (t : Table)
  | ready
  | advance (rd : Ready)
  | compact (lastIncluded lastTerm : Nat)

/-- The node, and its hard state at the last Ready or at the start. -/
def NodeDeed.next : Raft × HardState → NodeDeed → Raft × HardState
  | (r, known), .call c => (c.run r, known)
  | (r, known), .table t => (t.put r, known)
  | (r, _), .ready => ((cetcdRaftReady r).2, copyHardState r)
  | (r, known), .advance rd => (cetcdRaftAdvance r rd, known)
  | (r, known), .compact lastIncluded lastTerm => (cetcdRaftCompact r lastIncluded lastTerm, known)

/-- A pending hard state is the node's own, and if none is pending the last one is. -/
def Current (p : Raft × HardState) : Prop :=
  p.1.pending.hs = some (copyHardState p.1) ∨ p.1.pending.hs = none ∧ copyHardState p.1 = p.2

variable {known : HardState} {p : Raft × HardState}

lemma Current.congr {r r' : Raft} (h : Current (r, known)) (hhs : r'.pending.hs = r.pending.hs)
    (hcopy : copyHardState r' = copyHardState r) : Current (r', known) := by
  unfold Current at h ⊢
  rwa [hhs, hcopy]

lemma Current.stroke {m : Msg} {o r r' : Raft} (h : Current (r, known)) (hs : Stroke m o r r') :
    Current (r', known) := by
  obtain ⟨hhs, hterm, hvote, hcommit⟩ | hnew := hs.hs
  · refine h.congr hhs ?_
    unfold copyHardState
    rw [hterm, hvote, hcommit]
  · exact .inl hnew

lemma Current.next (h : Current p) (d : NodeDeed) : Current (d.next p) := by
  obtain ⟨r, known⟩ := p
  cases d with
  | call c =>
    exact (c.strokes r).induct (P := fun r => Current (r, known)) h fun _ _ hs h => h.stroke hs
  | table t => exact h.congr rfl rfl
  | ready => exact .inr ⟨rfl, rfl⟩
  | advance rd =>
    simp only [NodeDeed.next, cetcdRaftAdvance]
    split
    · exact h.congr rfl rfl
    · exact h
  | compact lastIncluded lastTerm =>
    simp only [NodeDeed.next, cetcdRaftCompact]
    split <;> exact h.congr rfl rfl

lemma Current.run (h : Current p) (deeds : List NodeDeed) :
    Current (deeds.foldl NodeDeed.next p) := by
  induction deeds generalizing p with
  | nil => exact h
  | cons d deeds ih => exact ih (h.next d)

/-- A Ready hands out the hard state, or none, and then it is that of the last Ready or the start.
-/
theorem handed_hardState_current {r : Raft} (hidle : r.pending.hs = none) (deeds : List NodeDeed) :
    let p := deeds.foldl NodeDeed.next (r, copyHardState r)
    (cetcdRaftReady p.1).1.hardState = some (copyHardState p.1) ∨
      (cetcdRaftReady p.1).1.hardState = none ∧ copyHardState p.1 = p.2 :=
  Current.run (p := (r, copyHardState r)) (.inr ⟨hidle, rfl⟩) deeds

/-- A node with two peers. -/
def oneOfThree : Raft :=
  { (default : Raft) with
    conf := { (default : Conf) with id := 1, electionTick := 3, heartbeatTick := 1 }
    mem := { (default : Membership) with peers := [⟨1, false⟩, ⟨2, false⟩, ⟨3, false⟩], peersCap := 16 } }

/-- The node campaigns at a tick, is elected, and takes an entry after the Ready. -/
def campaign : List NodeDeed :=
  [.call .tick, .call (.step { type := .voteResp, dest := 1, sender := 2, term := 1 }), .ready,
    .call (.step { type := .prop, context := [7] })]

theorem handed_hardState_current_campaign :
    let p := campaign.foldl NodeDeed.next (oneOfThree, copyHardState oneOfThree)
    p.1.role = .leader ∧ ((cetcdRaftReady p.1).1.hardState = some (copyHardState p.1) ∨
      (cetcdRaftReady p.1).1.hardState = none ∧ copyHardState p.1 = p.2) :=
  ⟨by decide +kernel, handed_hardState_current rfl campaign⟩

end Cetcd.Server
