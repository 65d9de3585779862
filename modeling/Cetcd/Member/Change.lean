import Cetcd.Raft.Config
import Cetcd.Apply.Codec

/-!
# Membership changes

`apply_member_` writes to the backend before it changes its tables, and a change of the voters first
enters a joint configuration. Each write may fail. The id of a new member is chosen by the node that
is asked.
-/

namespace Cetcd.Member

open Lib Raft Apply List

/-! ## The entries -/

structure Info where
  id : UInt64
  learner : Bool
  addr : Text
  port : UInt16
  deriving DecidableEq

/-- The writes of one entry that succeed. -/
structure Writes where
  joint : Bool
  member : Bool
  room : Bool

/-- The node, the cluster table, whose order is not modelled, and the bucket `members` with the rows
of the members and the joint configuration. -/
structure Site where
  raft : Raft
  cluster : List Info
  bucket : UInt64 → Option Info
  savedJoint : Option (List Nat × Nat)

def Site.get (s : Site) (id : UInt64) : Option Info := s.cluster.find? fun p => p.id = id

/-- `begin_voter_joint_` for an entry that changes the voters outside a joint configuration. -/
def beginVoterJoint (w : Writes) (voter : Bool) (s : Site) : Site × Bool :=
  if !voter || cetcdRaftInJoint s.raft then (s, true)
  else
    match cetcdRaftEnterJoint s.raft with
    | none => (s, false)
    | some r =>
      if w.joint then
        ({ s with raft := r, savedJoint := some (r.mem.outgoing.take 16, r.mem.jointIndex) }, true)
      else ({ s with raft := cetcdRaftLeaveJoint r }, false)

/-- What the entry does when the writes succeed, and whether that succeeds. -/
def afterWrites (w : Writes) (voter : Bool) (s : Site) (f : Site → Site × Bool) : Site × Bool :=
  match beginVoterJoint w voter s with
  | (s, ok) => if ok && w.member then f s else (s, false)

/-- `cetcd_cluster_persist_peer` -/
def Site.persist (s : Site) (row : Info) : Site :=
  { s with bucket := Function.update s.bucket row.id (some row) }

def Site.applyMember (w : Writes) (s : Site) : LogCall → Site × Bool
  | .memberRemove id =>
    afterWrites w ((s.get id).any fun p => !p.learner) s fun s =>
      -- to delete a row that is not there is an error of the backend
      if s.bucket id = none then (s, false)
      else
        ({ s with
          raft := cetcdRaftRemovePeer s.raft id.toNat
          cluster := s.cluster.filter fun p => p.id ≠ id
          bucket := Function.update s.bucket id none }, true)
  | .memberPromote id =>
    match s.get id with
    | none => (s, false)
    | some cur =>
      if cur.learner then
        afterWrites w true s fun s =>
          ({ s.persist { cur with learner := false } with
            raft := (cetcdRaftPromote s.raft id.toNat).getD s.raft
            cluster := s.cluster.map fun p => if p.id = id then { p with learner := false } else p },
            true)
      else (s, true)
  | .memberUpdate id addr port =>
    if w.member then
      let row : Info := ⟨id, (s.get id).any Info.learner, addr, port⟩
      ({ s.persist row with
        cluster := s.cluster.map fun p => if p.id = id then { p with addr := addr, port := port } else p },
        (s.get id).isSome)
    else (s, false)
  | .memberAdd id isLearner addr port =>
    afterWrites w (!isLearner) s fun s =>
      let row : Info := ⟨id, isLearner, addr, port⟩
      let s' := s.persist row
      if (s.get id).isSome then ({ s' with raft := cetcdRaftAddPeer s.raft id.toNat isLearner }, true)
      else if w.room then
        ({ s' with raft := cetcdRaftAddPeer s.raft id.toNat isLearner, cluster := s.cluster ++ [row] },
          true)
      else (s', false)
  | _ => (s, true)

/-! ## Errors -/

/-- The entry changes the voters of the cluster table. -/
def changesVoters (s : Site) : LogCall → Bool
  | .memberRemove id => (s.get id).any fun p => !p.learner
  | .memberPromote id => (s.get id).any fun p => p.learner
  | .memberAdd _ isLearner _ _ => !isLearner
  | _ => false

/-- The entry enters a joint configuration, and that is written. -/
def BeginsJoint (w : Writes) (voter : Bool) (s : Site) : Prop :=
  voter = true ∧ (cetcdRaftEnterJoint s.raft).isSome = true ∧ w.joint = true

/-- The entry writes a new row for a member that the table does not have: an update, or an addition
that the table has no room for. -/
def LeavesRow (w : Writes) (s : Site) : LogCall → Prop
  | .memberUpdate id addr port =>
    w.member = true ∧ s.get id = none ∧ s.bucket id ≠ some ⟨id, false, addr, port⟩
  | .memberAdd id isLearner addr port =>
    (isLearner = true ∨ cetcdRaftInJoint s.raft = true) ∧ w.member = true ∧ w.room = false ∧
      s.get id = none ∧ s.bucket id ≠ some ⟨id, isLearner, addr, port⟩
  | _ => False

/-- The peers of the node, its joint state, the cluster table and what is persisted of them. -/
def Site.tables (s : Site) :
    List Peer × List Nat × Nat × List Info × (UInt64 → Option Info) × Option (List Nat × Nat) :=
  (s.raft.mem.peers, s.raft.mem.outgoing, s.raft.mem.jointIndex, s.cluster, s.bucket, s.savedJoint)

section

variable {w : Writes} {voter : Bool} {s : Site} {f : Site → Site × Bool}

lemma beginVoterJoint_tables (hindex : s.raft.mem.outgoing = [] → s.raft.mem.jointIndex = 0) :
    (beginVoterJoint w voter s).1.tables = s.tables ↔ ¬ BeginsJoint w voter s := by
  unfold beginVoterJoint BeginsJoint
  split
  · next hskip =>
    refine iff_of_true rfl fun ⟨hvoter, henter, _⟩ => ?_
    have hin : s.raft.mem.outgoing ≠ [] := by simpa [hvoter, cetcdRaftInJoint] using hskip
    simp [cetcdRaftEnterJoint, hin] at henter
  next hbegin =>
  have hvoter : voter := by simp at hbegin; exact hbegin.1
  have hout : s.raft.mem.outgoing = [] := by simpa [hvoter, cetcdRaftInJoint] using hbegin
  cases henter : cetcdRaftEnterJoint s.raft with
  | none => simp
  | some r =>
    rw [cetcdRaftEnterJoint, if_neg (not_not.2 hout)] at henter
    split at henter
    · cases henter
    next hvoters =>
    cases henter
    cases w.joint <;> simp [Site.tables, cetcdRaftLeaveJoint, hvoter, hout, hindex hout, hvoters]

lemma beginVoterJoint_same : (beginVoterJoint w voter s).1.cluster = s.cluster ∧
    (beginVoterJoint w voter s).1.bucket = s.bucket := by
  unfold beginVoterJoint
  split
  · exact ⟨rfl, rfl⟩
  cases cetcdRaftEnterJoint s.raft with
  | none => exact ⟨rfl, rfl⟩
  | some r =>
    dsimp only
    split <;> exact ⟨rfl, rfl⟩

lemma beginVoterJoint_ok (h : ¬ BeginsJoint w voter s) :
    (beginVoterJoint w voter s).2 = true ↔ voter = false ∨ cetcdRaftInJoint s.raft = true := by
  unfold beginVoterJoint
  split
  · next hskip => exact iff_of_true rfl (by simpa using hskip)
  next hbegin =>
  refine iff_of_false (fun hok => ?_) (by simpa using hbegin)
  have hvoter : voter := by simp at hbegin; exact hbegin.1
  cases henter : cetcdRaftEnterJoint s.raft with
  | none => simp [henter] at hok
  | some r =>
    have hjoint : w.joint = false := by simpa [BeginsJoint, hvoter, henter] using h
    simp [henter, hjoint] at hok

/-- A row that is written where it stood already changes nothing. -/
lemma persist_tables {row : Info} :
    ((beginVoterJoint w voter s).1.persist row).tables = s.tables ↔
      (beginVoterJoint w voter s).1.tables = s.tables ∧ s.bucket row.id = some row := by
  simp only [Site.tables, Site.persist, Prod.mk.injEq, beginVoterJoint_same.2,
    Function.update_eq_self_iff]
  tauto

lemma afterWrites_of_error (herr : (afterWrites w voter s f).2 = false)
    (hf : ∀ s', (f s').2 = false → (f s').1 = s') :
    (afterWrites w voter s f).1 = (beginVoterJoint w voter s).1 := by
  unfold afterWrites at herr ⊢
  dsimp only at herr ⊢
  split at herr
  · next hok =>
    rw [if_pos hok]
    exact hf _ herr
  · next hfail => rw [if_neg hfail]

end

/-- An entry that fails leaves tables, joint state and bucket exactly if it began no joint
configuration and left no row. -/
theorem failed_change_iff {w : Writes} {s : Site} {call : LogCall}
    (hindex : s.raft.mem.outgoing = [] → s.raft.mem.jointIndex = 0)
    (herr : (Site.applyMember w s call).2 = false) :
    (Site.applyMember w s call).1.tables = s.tables ↔
      ¬ BeginsJoint w (changesVoters s call) s ∧ ¬ LeavesRow w s call := by
  cases call with
  | memberRemove id =>
    rw [Site.applyMember, afterWrites_of_error herr fun s' hs' => ?_, beginVoterJoint_tables hindex]
    · exact (and_iff_left fun h => h).symm
    split at hs'
    · next hrow => rw [if_pos hrow]
    · cases hs'
  | memberPromote id =>
    simp only [Site.applyMember, changesVoters, LeavesRow, not_false_eq_true, and_true] at herr ⊢
    cases hget : s.get id with
    | none => simp [BeginsJoint]
    | some cur =>
      simp only [hget] at herr ⊢
      split at herr
      · next hlearner =>
        rw [if_pos hlearner, afterWrites_of_error herr fun _ h => (nomatch h),
          beginVoterJoint_tables hindex]
        simp [hlearner]
      · cases herr
  | memberUpdate id addr port =>
    simp only [Site.applyMember, changesVoters, LeavesRow] at herr ⊢
    split at herr
    · next hwrite =>
      -- the member is unknown, so no row of the table is rewritten
      have hnone : s.get id = none := by simpa using herr
      have hother : ∀ p ∈ s.cluster, p.id ≠ id := by simpa [Site.get] using hnone
      rw [if_pos hwrite, map_congr_left fun p hp => if_neg (hother p hp), map_id']
      simp [BeginsJoint, Site.tables, Site.persist, hwrite, hnone, Function.update_eq_self_iff]
      exact eq_comm
    · next hfail => simp [hfail, BeginsJoint]
  | memberAdd id isLearner addr port =>
    simp only [Site.applyMember, changesVoters, LeavesRow, afterWrites] at herr ⊢
    have hget : (beginVoterJoint w (!isLearner) s).1.get id = s.get id := by
      rw [Site.get, beginVoterJoint_same.1]
      rfl
    rw [hget] at herr ⊢
    by_cases hjoint : BeginsJoint w (!isLearner) s
    · -- the joint configuration shows, whatever is written behind it
      refine iff_of_false (fun hsame => ?_) fun h => h.1 hjoint
      refine (beginVoterJoint_tables hindex).1 ?_ hjoint
      split at hsame
      · next hok =>
        rw [if_pos hok] at herr
        split at hsame
        · next hknown => simp [hknown] at herr
        · next hknown =>
          split at hsame
          · next hroom => simp [hknown, hroom] at herr
          · exact (persist_tables.1 hsame).1
      · exact hsame
    have hok := beginVoterJoint_ok hjoint
    have htables := (@beginVoterJoint_tables w (!isLearner) s hindex).2 hjoint
    split at herr
    · next hwritten =>
      rw [Bool.and_eq_true, hok] at hwritten
      split at herr
      · cases herr
      split at herr
      · cases herr
      next hknown hroom =>
      rw [if_pos (by rw [Bool.and_eq_true, hok]; exact hwritten), if_neg hknown, if_neg hroom,
        persist_tables]
      have hnone : s.get id = none := by simpa using hknown
      have hfull : w.room = false := by simpa using hroom
      have hvoter : isLearner = true ∨ cetcdRaftInJoint s.raft = true := by simpa using hwritten.1
      simp [htables, hjoint, hnone, hfull, hvoter, hwritten.2]
    · next hfail =>
      rw [if_neg hfail]
      rw [Bool.and_eq_true, hok] at hfail
      refine iff_of_true htables ⟨hjoint, fun hleft => hfail ⟨?_, hleft.2.1⟩⟩
      simpa using hleft.1
  | _ => cases herr

def pair : Site where
  raft := ((cetcdRaftNew { id := 1, electionTick := 10, heartbeatTick := 1 }).map
    fun r => cetcdRaftAddPeer r 2 false).getD default
  cluster := [⟨2, false, textOf [], 0⟩]
  bucket := fun id => if id = 2 then some ⟨2, false, textOf [], 0⟩ else none
  savedJoint := none

theorem failed_change_iff_pair :
    (Site.applyMember ⟨false, false, true⟩ pair (.memberRemove 2)).1.tables = pair.tables :=
  (failed_change_iff (by decide) (by decide)).2 ⟨fun h => Bool.false_ne_true h.2.2, id⟩

/-- The member cannot be deleted: the node is left in a joint configuration. An update of an unknown
member fails: its row is in the bucket. -/
theorem failed_removal_stays_joint :
    (Site.applyMember ⟨true, false, true⟩ pair (.memberRemove 2)).2 = false ∧
      pair.raft.mem.outgoing = [] ∧
      (Site.applyMember ⟨true, false, true⟩ pair (.memberRemove 2)).1.raft.mem.outgoing = [1, 2] ∧
      (Site.applyMember ⟨true, true, true⟩ pair (.memberUpdate 3 (textOf []) 0)).2 = false ∧
      pair.bucket 3 = none ∧
      (Site.applyMember ⟨true, true, true⟩ pair (.memberUpdate 3 (textOf []) 0)).1.bucket 3 =
        some ⟨3, false, textOf [], 0⟩ := by
  decide

/-! ## New ids -/

def clusterAllocId (selfId : UInt64) (ids : List UInt64) : UInt64 :=
  ids.foldl (fun m id => if m < id then id else m) selfId + 1

/-- Node `selfId` adds a member when it has applied the first `seen` entries about members. -/
inductive Request
  | add (selfId : UInt64) (seen : Nat) (isLearner : Bool) (addr : Text) (port : UInt16)
  | remove (id : UInt64)

def tableIds (start : Site) (log : List LogCall) : List UInt64 :=
  (log.foldl (fun s e => (Site.applyMember ⟨true, true, true⟩ s e).1) start).cluster.map Info.id

variable (start : UInt64 → Site) (initial : List UInt64)

/-- `cluster_handle_member_add` and `cluster_handle_member_remove`, committed. -/
def request (log : List LogCall) : Request → List LogCall
  | .add selfId seen isLearner addr port =>
    let id := clusterAllocId selfId (tableIds (start selfId) (log.take seen))
    if id = 0 then log else log ++ [.memberAdd id isLearner addr port]
  | .remove id => log ++ [.memberRemove id]

def added : LogCall → Option UInt64
  | .memberAdd id _ _ _ => some id
  | _ => none

/-- The ids of the first members and of all that were added. -/
def ever (log : List LogCall) : List UInt64 := initial ++ log.filterMap added

/-- The node that chooses an id knows a member above all that there ever were. -/
def KnowsHighest (log : List LogCall) : Request → Prop
  | .add selfId seen _ _ _ =>
    ∃ top ∈ selfId :: tableIds (start selfId) (log.take seen), ∀ id ∈ ever initial log, id ≤ top
  | .remove _ => True

def AllKnowHighest (log : List LogCall) : List Request → Prop
  | [] => True
  | req :: reqs => KnowsHighest start initial log req ∧ AllKnowHighest (request start log req) reqs

variable {start initial}

lemma lt_clusterAllocId {selfId id : UInt64} {ids : List UInt64} (hid : id ∈ selfId :: ids)
    (hne : clusterAllocId selfId ids ≠ 0) : id < clusterAllocId selfId ids := by
  have hmax : ∀ (ids : List UInt64) (m : UInt64), ∀ id ∈ m :: ids,
      id ≤ ids.foldl (fun m id => if m < id then id else m) m := by
    intro ids
    induction ids with
    | nil => simp
    | cons x ids ih =>
      intro m id hid
      have hm : m ≤ (if m < x then x else m) ∧ x ≤ (if m < x then x else m) := by
        simp only [UInt64.le_iff_toNat_le, UInt64.lt_iff_toNat_lt]
        split <;> omega
      obtain rfl | hid := mem_cons.1 hid
      · exact UInt64.le_trans hm.1 (ih _ _ mem_cons_self)
      obtain rfl | hid := mem_cons.1 hid
      · exact UInt64.le_trans hm.2 (ih _ _ mem_cons_self)
      · exact ih _ _ (mem_cons_of_mem _ hid)
  have hle := hmax ids selfId id hid
  unfold clusterAllocId at hne ⊢
  generalize ids.foldl _ selfId = m at hle hne ⊢
  -- only the highest `uint64_t` is followed by zero
  rw [Ne, ← UInt64.toNat_inj] at hne
  rw [UInt64.le_iff_toNat_le] at hle
  rw [UInt64.lt_iff_toNat_lt]
  have hlt := m.toNat_lt
  rw [UInt64.toNat_add] at hne ⊢
  simp at hne ⊢
  omega

lemma ever_request {log : List LogCall} {req : Request} (hnodup : (ever initial log).Nodup)
    (h : KnowsHighest start initial log req) : (ever initial (request start log req)).Nodup := by
  cases req with
  | remove id => simpa [request, ever, filterMap_cons, added] using hnodup
  | add selfId seen isLearner addr port =>
    obtain ⟨top, htop, hle⟩ := h
    unfold request
    dsimp only
    split
    · exact hnodup
    next hne =>
    have hnew : clusterAllocId selfId (tableIds (start selfId) (log.take seen)) ∉ ever initial log :=
      fun hmem => UInt64.not_le.2 (lt_clusterAllocId htop hne) (hle _ hmem)
    simp only [ever, filterMap_append, filterMap_cons, filterMap_nil, added, ← append_assoc]
    exact nodup_append_comm.1 (nodup_cons.2 ⟨hnew, hnodup⟩)

/-- If each id is chosen by a node that knows the highest one ever, no id is used twice. -/
theorem ids_never_reused {reqs : List Request} (hnodup : initial.Nodup)
    (h : AllKnowHighest start initial [] reqs) :
    (ever initial (reqs.foldl (request start) [])).Nodup := by
  have hrun : ∀ log, (ever initial log).Nodup → AllKnowHighest start initial log reqs →
      (ever initial (reqs.foldl (request start) log)).Nodup := by
    clear h
    induction reqs with
    | nil => exact fun log hlog _ => hlog
    | cons req reqs ih => exact fun log hlog h => ih _ (ever_request hlog h.1) h.2
  exact hrun [] (by simpa [ever] using hnodup) h

/-- A member is added, another removed, and one more added by the node that saw both. -/
theorem ids_never_reused_three :
    ever [1, 2] ([Request.add 1 0 false (textOf []) 0, .remove 2, .add 1 2 true (textOf []) 0].foldl
      (request fun _ => pair) []) = [1, 2, 3, 4] ∧
    (ever [1, 2] ([Request.add 1 0 false (textOf []) 0, .remove 2, .add 1 2 true (textOf []) 0].foldl
      (request fun _ => pair) [])).Nodup := by
  have hseen : ever [1, 2] (request (fun _ => pair) (request (fun _ => pair) []
      (.add 1 0 false (textOf []) 0)) (.remove 2)) = [1, 2, 3] := by decide +kernel
  refine ⟨by decide +kernel, ids_never_reused (by decide) ⟨⟨2, by decide, by simp [ever]⟩, trivial,
    ⟨3, by decide +kernel, fun id hid => ?_⟩, trivial⟩⟩
  rw [hseen] at hid
  simp only [mem_cons, not_mem_nil, or_false] at hid
  obtain rfl | rfl | rfl := hid <;> decide

/-- The highest member is removed, and its id is given to the next one. -/
theorem removed_id_is_reused :
    ever [1, 2] ([Request.remove 2, .add 1 1 false (textOf []) 0].foldl (request fun _ => pair) []) =
      [1, 2, 2] := by
  decide +kernel

end Cetcd.Member
