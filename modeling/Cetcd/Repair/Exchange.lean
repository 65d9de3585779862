import Cetcd.Net.Model
import Cetcd.Protocol.FullLog
import Cetcd.Protocol.Refine

/-!
# One leader, one follower and the Appends between them

`Link` is a leader and one of its followers with the messages to the follower; in one `exchange` the
oldest is delivered and the answer goes back at once. At most one Append is under way, so the link
is described by the index `q` from which the leader probes (`Probing.exchange`).
-/

namespace Cetcd.Repair

open Lib Raft Protocol List

/-! ## The link -/

structure Link where
  leader : Raft
  follower : Raft
  /-- The messages on their way to the follower, oldest first. -/
  queue : List Msg

namespace Link

def answer (s : Link) (m : Msg) : Link :=
  { s with
    leader := (hear s.leader m).2
    queue := s.queue ++ (hear s.leader m).1.filter (fun a => a.dest = s.follower.conf.id) }

/-- The follower gets the oldest message and the leader every answer to it, in order. -/
def exchange (s : Link) : Link :=
  match s.queue with
  | [] => s
  | m :: rest =>
    ((hear s.follower m).1.filter (fun a => a.dest = s.leader.conf.id)).foldl answer
      { s with follower := (hear s.follower m).2, queue := rest }

def probe (r f : Raft) (slot : Nat) : Link :=
  { leader := (flush (maybeSendApp r slot)).2
    follower := f
    queue := (flush (maybeSendApp r slot)).1.filter (fun a => a.dest = f.conf.id) }

end Link

/-- The index before the first entry of the next Append to a peer. -/
def prevIndex (pr : PeerProgress) : Nat := (if pr.nextIdx = 0 then 1 else pr.nextIdx) - 1

/-- A leader with something to send to slot `slot`; neither has compacted anything, nothing is
pending, and the follower knows no later term. -/
structure Pairing (r f : Raft) (slot : Nat) : Prop where
  role : r.role = .leader
  peer : peerSlot r f.conf.id = some slot
  ne : f.conf.id ≠ r.conf.id
  leaderOut : r.pending.msgs = []
  followerOut : f.pending.msgs = []
  leaderLog : r.rlog.compacted = 0
  followerLog : f.rlog.compacted = 0
  term : f.term ≤ r.term
  noSnap : (r.progress.read slot).pendingSnap = false
  noApp : (r.progress.read slot).pendingApp = false
  behind : prevIndex (r.progress.read slot) < r.rlog.lastIndex

/-! ## Taking a Ready -/

lemma flush_msgs (r : Raft) : (flush r).1 = r.pending.msgs := rfl

lemma flush_frame (r : Raft) :
    (flush r).2.conf = r.conf ∧ (flush r).2.term = r.term ∧ (flush r).2.role = r.role ∧
      (flush r).2.mem = r.mem ∧ (flush r).2.progress = r.progress ∧ (flush r).2.rlog = r.rlog ∧
      (flush r).2.pending.msgs = [] := by
  unfold flush cetcdRaftAdvance
  dsimp only
  split <;> exact ⟨rfl, rfl, rfl, rfl, rfl, rfl, rfl⟩

/-! ## What the leader sends -/

def batch (r : Raft) (p : Nat) : List Entry :=
  (copyEntries r.rlog (p + 1) (appBatch r.rlog (maxSizePerApp r) 256 (p + 1) 0 0)).getD []

section

variable {l : RaftLog} {maxSz : Nat}

lemma le_appBatch (fuel idx n bytes : Nat) : n ≤ appBatch l maxSz fuel idx n bytes := by
  induction fuel generalizing idx n bytes with
  | zero => exact le_refl n
  | succ fuel ih =>
    unfold appBatch
    split
    · split
      · exact le_refl n
      dsimp only
      split
      · exact le_refl n
      · exact (Nat.le_succ n).trans (ih _ _ _)
    · exact le_refl n

lemma appBatch_le (fuel idx n bytes : Nat) :
    appBatch l maxSz fuel idx n bytes ≤ n + (l.lastIndex + 1 - idx) := by
  induction fuel generalizing idx n bytes with
  | zero => exact Nat.le_add_right _ _
  | succ fuel ih =>
    unfold appBatch
    split
    · split
      · exact Nat.le_add_right _ _
      dsimp only
      split
      · exact Nat.le_add_right _ _
      have := ih (idx + 1) (n + 1)
      rename_i e _ _
      have := this (bytes + (e.data.length + 16))
      omega
    · exact Nat.le_add_right _ _

lemma appBatch_pos {idx : Nat} (hc : l.compacted ≤ idx) (h1 : 1 ≤ idx)
    (hlast : idx ≤ l.lastIndex) (fuel : Nat) : 1 ≤ appBatch l maxSz (fuel + 1) idx 0 0 := by
  unfold appBatch
  rw [if_pos hlast, logAt_of_range (by omega) hlast hc]
  dsimp only
  rw [if_neg (by omega)]
  exact le_appBatch _ _ _ _

lemma exists_copyEntries (n : Nat) {next : Nat} (hc : l.compacted ≤ next) (h1 : 1 ≤ next)
    (hlast : next + n ≤ l.lastIndex + 1) : ∃ es, copyEntries l next n = some es := by
  induction n generalizing next with
  | zero => exact ⟨[], rfl⟩
  | succ n ih =>
    obtain ⟨es, hes⟩ := ih (hc.trans (Nat.le_succ next)) (Nat.le_add_left 1 next) (by omega)
    rw [copyEntries, logAt_of_range (by omega) (by omega) (by omega), hes]
    exact ⟨_, rfl⟩

end

section

variable {r0 r : Raft} {p : Nat}

lemma copyEntries_batch (hc : r0.rlog.compacted ≤ p) (hp : p < r0.rlog.lastIndex) :
    copyEntries r0.rlog (p + 1) (appBatch r0.rlog (maxSizePerApp r0) 256 (p + 1) 0 0) =
      some (batch r0 p) := by
  have hle : appBatch r0.rlog (maxSizePerApp r0) 256 (p + 1) 0 0 ≤ 0 + (r0.rlog.lastIndex + 1 - (p + 1)) :=
    appBatch_le 256 (p + 1) 0 0
  rcases exists_copyEntries (appBatch r0.rlog (maxSizePerApp r0) 256 (p + 1) 0 0)
    (hc.trans (Nat.le_succ p)) (Nat.le_add_left 1 p) (by omega) with ⟨es, hes⟩
  unfold batch
  rw [hes]
  rfl

lemma batch_spec (hc : r0.rlog.compacted ≤ p) (hp : p < r0.rlog.lastIndex) :
    1 ≤ (batch r0 p).length ∧ p + (batch r0 p).length ≤ r0.rlog.lastIndex ∧
      ∀ k (hk : k < (batch r0 p).length), logAt r0.rlog (p + 1 + k) = some (batch r0 p)[k] := by
  obtain ⟨hlen, hget⟩ := copyEntries_eq_some (copyEntries_batch hc hp)
  have hle : appBatch r0.rlog (maxSizePerApp r0) 256 (p + 1) 0 0 ≤ 0 + (r0.rlog.lastIndex + 1 - (p + 1)) :=
    appBatch_le 256 (p + 1) 0 0
  have hpos : 1 ≤ appBatch r0.rlog (maxSizePerApp r0) 256 (p + 1) 0 0 :=
    appBatch_pos (hc.trans (Nat.le_succ p)) (by omega) (by omega) 255
  exact ⟨by omega, by omega, hget⟩

/-- The leader `r0` as it is now, with other commit, applied and progress; it would probe at `q`.
`busy` says that an Append is under way. -/
structure AtLeader (r0 : Raft) (slot : Nat) (r : Raft) (q : Nat) (busy : Bool) : Prop where
  conf : r.conf = r0.conf
  term : r.term = r0.term
  role : r.role = .leader
  mem : r.mem = r0.mem
  rlog : r.rlog = r0.rlog
  prev : prevIndex (r.progress.read slot) = q
  noSnap : (r.progress.read slot).pendingSnap = false
  app : (r.progress.read slot).pendingApp = busy
  out : r.pending.msgs = []

structure IsApp (r0 : Raft) (id q : Nat) (m : Msg) : Prop where
  type : m.type = .app
  dest : m.dest = id
  sender : m.sender = r0.conf.id
  term : m.term = r0.term
  index : m.index = q
  logTerm : m.logTerm = logTermAt r0.rlog q
  entries : m.entries = batch r0 q

variable {slot id q : Nat}

lemma prevIndex_add_one (pr : PeerProgress) :
    (if pr.nextIdx = 0 then 1 else pr.nextIdx) = prevIndex pr + 1 := by
  unfold prevIndex
  split
  · rfl
  · omega

def appTo (r : Raft) (id q : Nat) : Msg :=
  { type := .app
    dest := id
    sender := r.conf.id
    term := r.term
    index := q
    logTerm := logTermAt r.rlog q
    commit := r.commit
    entries := batch r q }

lemma maybeSendApp_of_behind {peer : Peer} (hpeer : r.mem.peers[slot]? = some peer)
    (hlt : slot < maxPeers) (hne : peer.id ≠ r.conf.id)
    (hsnap : (r.progress.read slot).pendingSnap = false)
    (happ : (r.progress.read slot).pendingApp = false)
    (hprev : prevIndex (r.progress.read slot) = q) (hc : r.rlog.compacted ≤ q)
    (hq : q < r.rlog.lastIndex) :
    maybeSendApp r slot =
      { queueMsg r (appTo r peer.id q) with
        progress := r.progress.write slot { r.progress.read slot with pendingApp := true } } := by
  have hcopy := copyEntries_batch hc hq
  have hpos : 1 ≤ appBatch r.rlog (maxSizePerApp r) 256 (q + 1) 0 0 :=
    appBatch_pos (hc.trans (Nat.le_succ q)) (by omega) (by omega) 255
  -- the previous entry is still there
  have hthere : ¬ (0 < q ∧ logAt r.rlog q = none ∧ q ≠ r.rlog.compacted) := by
    rintro ⟨h0, hnone, _⟩
    rw [logAt_of_range (by omega) hq.le hc] at hnone
    cases hnone
  unfold maybeSendApp
  rw [hpeer]
  dsimp only
  rw [prevIndex_add_one, hprev, Nat.add_sub_cancel]
  rw [if_neg (by omega), if_neg hne, if_neg (by simp [hsnap]), if_neg (by simp [happ]),
    if_neg (by omega), if_neg (by omega), if_neg hthere, if_neg (by omega), hcopy]
  rfl

lemma AtLeader.batch_eq {busy : Bool} (h : AtLeader r0 slot r q busy) (p : Nat) :
    batch r p = batch r0 p := by
  unfold batch maxSizePerApp
  rw [h.rlog, h.conf]

section

variable (hslot : peerSlot r0 id = some slot) (hne : id ≠ r0.conf.id) (hc : r0.rlog.compacted = 0)
  (h : AtLeader r0 slot r q false) (hq : q < r0.rlog.lastIndex)

include hslot hne hc h hq

lemma AtLeader.maybeSendApp_eq : maybeSendApp r slot =
      { queueMsg r (appTo r id q) with
        progress := r.progress.write slot { r.progress.read slot with pendingApp := true } } := by
  obtain ⟨hlt, peer, hpeer, rfl⟩ := peerSlot_eq_some hslot
  refine maybeSendApp_of_behind (by rw [h.mem]; exact hpeer) (by omega) ?_ h.noSnap h.app h.prev ?_ ?_
  · rw [h.conf]
    exact hne
  · rw [h.rlog, hc]
    exact Nat.zero_le q
  rw [h.rlog]
  exact hq

lemma AtLeader.send : ∃ m, (flush (maybeSendApp r slot)).1 = [m] ∧ IsApp r0 id q m ∧
      AtLeader r0 slot (flush (maybeSendApp r slot)).2 q true := by
  rw [h.maybeSendApp_eq hslot hne hc hq]
  refine ⟨appTo r id q, ?_, ?_, ?_⟩
  · change r.pending.msgs ++ [appTo r id q] = _
    rw [h.out]
    rfl
  · refine ⟨rfl, rfl, ?_, h.term, rfl, ?_, h.batch_eq q⟩
    · change r.conf.id = _
      rw [h.conf]
    change logTermAt r.rlog q = _
    rw [h.rlog]
  generalize hr1 : ({ queueMsg r (appTo r id q) with
    progress := r.progress.write slot { r.progress.read slot with pendingApp := true } } : Raft) =
    r1
  obtain ⟨hconf, hterm, hrole, hmem, hprog, hrlog, hout⟩ := flush_frame r1
  have hread : (flush r1).2.progress.read slot =
      { r.progress.read slot with pendingApp := true } := by
    rw [hprog, ← hr1]
    exact ZeroArray.read_write_self _ _ _
  rw [← hr1] at hconf hterm hrole hmem hrlog
  subst hr1
  refine ⟨hconf.trans h.conf, hterm.trans h.term, hrole.trans h.role, hmem.trans h.mem,
    hrlog.trans h.rlog, ?_, ?_, ?_, hout⟩
  · rw [hread]
    exact h.prev
  · rw [hread]
    exact h.noSnap
  · rw [hread]

end

lemma AtLeader.send_nothing {busy : Bool} (h : AtLeader r0 slot r q busy)
    (hc : r0.rlog.compacted = 0) (hq : r0.rlog.lastIndex ≤ q) : maybeSendApp r slot = r := by
  unfold maybeSendApp
  split
  · rfl
  dsimp only
  rw [prevIndex_add_one, h.prev, h.rlog]
  split_ifs
  any_goals rfl
  all_goals omega

end

/-! ## What the follower stores -/

/-- An entry of the batch stands at an index of the log that has an entry of another term. -/
def Conflict (l : RaftLog) (idx : Nat) (es : List Entry) : Prop :=
  ∃ k, ∃ hk : k < es.length, idx + k ≤ l.lastIndex ∧ (l.log.read (idx + k)).term ≠ (es[k]).term

section

variable {l : RaftLog} {idx : Nat} {e : Entry}

lemma storeEntry_last (hc : l.compacted ≤ idx) (h1 : 1 ≤ idx) :
    (idx ≤ l.lastIndex ∧ (l.log.read idx).term ≠ e.term → (storeEntry l idx e).lastIndex = idx) ∧
    (¬ (idx ≤ l.lastIndex ∧ (l.log.read idx).term ≠ e.term) →
      (storeEntry l idx e).lastIndex = max l.lastIndex idx ∧
        ∀ j, idx < j → (storeEntry l idx e).log.read j = l.log.read j) := by
  have hterm : idx ≤ l.lastIndex → logTermAt l idx = (l.log.read idx).term := fun h =>
    logTermAt_of_range (by omega) h hc
  refine ⟨?_, ?_⟩
  · rintro ⟨hle, hne⟩
    exact (storeEntry_cut ⟨hle, by rwa [hterm hle]⟩ h1).1
  intro hno
  rcases storeEntry_keep (l := l) (e := e)
    (fun h => hno ⟨h.1, by rw [← hterm h.1]; exact h.2⟩) with ⟨hlast, _, hread⟩
  exact ⟨hlast, fun j hj => hread j (by omega)⟩

lemma stores_read_below (es : List Entry) {l : RaftLog} {idx j : Nat} (hj : j < idx) :
    (storeEntries l idx es).log.read j = l.log.read j := by
  induction es generalizing l idx with
  | nil => rfl
  | cons e es ih =>
    rw [storeEntries, ih (by omega)]
    exact storeEntry_read_below hj

lemma stores_read_new (es : List Entry) {l : RaftLog} {idx k : Nat} (hk : k < es.length) :
    (storeEntries l idx es).log.read (idx + k) = { es[k] with index := idx + k } := by
  induction es generalizing l idx k with
  | nil => cases hk
  | cons e es ih =>
    rw [storeEntries]
    cases k with
    | zero =>
      rw [stores_read_below es (by omega)]
      exact storeEntry_read_self
    | succ k =>
      have := @ih (storeEntry l idx e) (idx + 1) k (by simpa using hk)
      rw [show idx + 1 + k = idx + (k + 1) by omega] at this
      exact this

lemma stores_last (es : List Entry) {l : RaftLog} {idx : Nat} (hc : l.compacted ≤ idx)
    (h1 : 1 ≤ idx) (hidx : idx ≤ l.lastIndex + 1) :
    (Conflict l idx es → (storeEntries l idx es).lastIndex = idx + es.length - 1) ∧
    (¬ Conflict l idx es → (storeEntries l idx es).lastIndex = max l.lastIndex (idx + es.length - 1) ∧
      ∀ j, idx + es.length ≤ j → (storeEntries l idx es).log.read j = l.log.read j) := by
  induction es generalizing l idx with
  | nil =>
    refine ⟨?_, ?_⟩
    · rintro ⟨k, hk, _⟩
      cases hk
    intro _
    refine ⟨?_, fun _ _ => rfl⟩
    change l.lastIndex = max l.lastIndex (idx + 0 - 1)
    omega
  | cons e es ih =>
    obtain ⟨hcut, hkeep⟩ := storeEntry_last (e := e) hc h1
    have hc' : (storeEntry l idx e).compacted ≤ idx + 1 := by
      rw [storeEntry_compacted]
      exact hc.trans (Nat.le_succ idx)
    rw [storeEntries, length_cons]
    by_cases hfirst : idx ≤ l.lastIndex ∧ (l.log.read idx).term ≠ e.term
    · -- cut at the first entry: nothing is left that a later one could conflict with
      have hlast := hcut hfirst
      have hno : ¬ Conflict (storeEntry l idx e) (idx + 1) es := by
        rintro ⟨k, _, hle, _⟩
        omega
      have hrest := ((@ih _ (idx + 1) hc' (by omega) (by omega)).2 hno).1
      refine ⟨fun _ => by omega, fun h => ?_⟩
      exact absurd ⟨0, by simp, hfirst⟩ h
    obtain ⟨hlast, hread⟩ := hkeep hfirst
    have hiff : Conflict (storeEntry l idx e) (idx + 1) es ↔ Conflict l idx (e :: es) := by
      constructor
      · rintro ⟨k, hk, hle, hterm⟩
        rw [hread _ (by omega), show idx + 1 + k = idx + (k + 1) by omega] at hterm
        exact ⟨k + 1, by simpa using hk, by omega, by simpa using hterm⟩
      rintro ⟨k, hk, hle, hterm⟩
      cases k with
      | zero => exact absurd ⟨hle, hterm⟩ hfirst
      | succ k =>
        refine ⟨k, by simpa using hk, by omega, ?_⟩
        rw [hread _ (by omega), show idx + 1 + k = idx + (k + 1) by omega]
        simpa using hterm
    obtain ⟨h3, h4⟩ := @ih _ (idx + 1) hc' (by omega) (by omega)
    refine ⟨fun h => ?_, fun h => ?_⟩
    · have := h3 (hiff.2 h)
      omega
    obtain ⟨hend, hrest⟩ := h4 (fun h' => h (hiff.1 h'))
    refine ⟨by omega, fun j hj => ?_⟩
    rw [hrest j (by omega), hread j (by omega)]

end

/-! ## The follower's answer -/

section

variable {f : Raft} {m : Msg}

lemma hear_of_step {r r1 : Raft} {a : Msg} {ret : Int} (h : cetcdRaftStep r m = (ret, queueMsg r1 a))
    (hout : r1.pending.msgs = []) :
    (hear r m).1 = [a] ∧ (hear r m).2.conf = r1.conf ∧ (hear r m).2.term = r1.term ∧
      (hear r m).2.rlog = r1.rlog ∧ (hear r m).2.pending.msgs = [] := by
  unfold hear
  rw [h]
  obtain ⟨hconf, hterm, _, _, _, hrlog, hmsgs⟩ := flush_frame (queueMsg r1 a)
  refine ⟨?_, hconf, hterm, hrlog, hmsgs⟩
  change r1.pending.msgs ++ [a] = [a]
  rw [hout]
  rfl

/-- What an Append does to a follower that knows no later term: a rejection with the end of its log
or the probed index, or the batch is stored and the end acknowledged. -/
lemma hear_app (htype : m.type = .app) (hterm : f.term ≤ m.term) (hout : f.pending.msgs = []) :
    ∃ a, (hear f m).1 = [a] ∧ a.type = .appResp ∧ a.dest = m.sender ∧ a.sender = f.conf.id ∧
      a.term = m.term ∧ (hear f m).2.conf = f.conf ∧ (hear f m).2.term = m.term ∧
      (hear f m).2.pending.msgs = [] ∧
      ((0 < m.index ∧ f.rlog.lastIndex < m.index ∧ a.reject = 1 ∧ a.index = f.rlog.lastIndex ∧
          (hear f m).2.rlog = f.rlog) ∨
        (0 < m.index ∧ m.index ≤ f.rlog.lastIndex ∧ logTermAt f.rlog m.index ≠ m.logTerm ∧
          a.reject = 1 ∧ a.index = m.index ∧ (hear f m).2.rlog = f.rlog) ∨
        ((m.index = 0 ∨ m.index ≤ f.rlog.lastIndex ∧ logTermAt f.rlog m.index = m.logTerm) ∧
          a.reject = 0 ∧ a.index = (hear f m).2.rlog.lastIndex ∧
          (hear f m).2.rlog = storeEntries f.rlog (m.index + 1) m.entries)) := by
  obtain ⟨_, hterm1, _, hconf, hlog, _, hmsgs, _⟩ := (acts_acceptLeader hterm).2
  have hstep : cetcdRaftStep f m = (0, handleApp f m) := by
    unfold cetcdRaftStep
    rw [htype]
  unfold handleApp at hstep
  rw [if_neg (by omega)] at hstep
  dsimp only at hstep
  replace hterm1 := hterm1.symm
  generalize acceptLeader f m = r1 at hstep hconf hterm1 hlog hmsgs
  rw [hout] at hmsgs
  by_cases hshort : 0 < m.index ∧ r1.rlog.lastIndex < m.index
  · rw [if_pos hshort] at hstep
    obtain ⟨h1, h2, h3, h4, h5⟩ := hear_of_step hstep hmsgs
    rw [hlog] at hshort h4
    exact ⟨_, h1, rfl, rfl, congrArg Conf.id hconf, hterm1, h2.trans hconf, h3.trans hterm1, h5,
      .inl ⟨hshort.1, hshort.2, rfl, congrArg RaftLog.lastIndex hlog, h4⟩⟩
  rw [if_neg hshort] at hstep
  by_cases hbad : 0 < m.index ∧ logTermAt r1.rlog m.index ≠ m.logTerm
  · rw [if_pos hbad] at hstep
    obtain ⟨h1, h2, h3, h4, h5⟩ := hear_of_step hstep hmsgs
    rw [hlog] at hshort hbad h4
    exact ⟨_, h1, rfl, rfl, congrArg Conf.id hconf, hterm1, h2.trans hconf, h3.trans hterm1, h5,
      .inr (.inl ⟨hbad.1, by omega, hbad.2, rfl, rfl, h4⟩)⟩
  rw [if_neg hbad] at hstep
  -- storing the batch and following the commit index touch nothing else of the view
  have hview : view (followCommit (appendEntries r1 (m.index + 1) m.entries) m.commit) =
      { view r1 with
        rlog := storeEntries r1.rlog (m.index + 1) m.entries
        commit := max (appendEntries r1 (m.index + 1) m.entries).commit
          (min m.commit (appendEntries r1 (m.index + 1) m.entries).rlog.lastIndex) } := by
    rw [view_followCommit, appendEntries_spec]
  generalize followCommit (appendEntries r1 (m.index + 1) m.entries) m.commit = r3 at hstep hview
  have hconf3 : r3.conf = r1.conf := congrArg View.conf hview
  have hterm3 : r3.term = r1.term := congrArg View.term hview
  have hlog3 : r3.rlog = storeEntries r1.rlog (m.index + 1) m.entries := congrArg View.rlog hview
  have hmsgs3 : r3.pending.msgs = r1.pending.msgs := congrArg View.out hview
  obtain ⟨h1, h2, h3, h4, h5⟩ := hear_of_step hstep (hmsgs3.trans hmsgs)
  rw [hlog] at hshort hbad hlog3
  refine ⟨_, h1, rfl, rfl, congrArg Conf.id hconf, hterm1, h2.trans (hconf3.trans hconf),
    h3.trans (hterm3.trans hterm1), h5, .inr (.inr ⟨?_, rfl, ?_, h4.trans hlog3⟩)⟩
  · obtain h0 | hpos := Nat.eq_zero_or_pos m.index
    · exact .inl h0
    refine .inr ⟨by omega, ?_⟩
    by_contra hne
    exact hbad ⟨hpos, hne⟩
  · exact congrArg RaftLog.lastIndex h4.symm

end

/-! ## The leader's reaction -/

lemma maybeAdvanceCommit_frame (r : Raft) :
    (maybeAdvanceCommit r).conf = r.conf ∧ (maybeAdvanceCommit r).term = r.term ∧
      (maybeAdvanceCommit r).role = r.role ∧ (maybeAdvanceCommit r).mem = r.mem ∧
      (maybeAdvanceCommit r).rlog = r.rlog ∧ (maybeAdvanceCommit r).progress = r.progress ∧
      (maybeAdvanceCommit r).pending.msgs = r.pending.msgs := by
  unfold maybeAdvanceCommit
  split
  · exact ⟨rfl, rfl, rfl, rfl, rfl, rfl, rfl⟩
  dsimp only
  split_ifs <;> exact ⟨rfl, rfl, rfl, rfl, rfl, rfl, rfl⟩

lemma maybeSendSnap_of_uncompacted {r : Raft} (i : Nat) (h : r.rlog.compacted = 0) :
    maybeSendSnap r i = r := by
  unfold maybeSendSnap
  split
  · rfl
  dsimp only
  split_ifs <;> rfl

def nextPrev (a : Msg) (q : Nat) : Nat := if a.reject = 0 then a.index else min a.index q

lemma prevIndex_rejectProgress (pr : PeerProgress) (k : Nat) :
    prevIndex (rejectProgress pr k) = min k (prevIndex pr) := by
  have hnext : (rejectProgress pr k).nextIdx = min (k + 1) pr.nextIdx := by
    unfold rejectProgress
    dsimp only
    split <;> omega
  unfold prevIndex
  rw [hnext]
  split_ifs <;> omega

section

variable {r0 r : Raft} {slot id q : Nat} {a : Msg}

lemma AtLeader.react {busy : Bool} (hslot : peerSlot r0 id = some slot)
    (hc : r0.rlog.compacted = 0) (h : AtLeader r0 slot r q busy) (htype : a.type = .appResp)
    (hsender : a.sender = id) (hterm : a.term = r0.term) :
    ∃ r1, hear r a = flush (maybeSendApp r1 slot) ∧ AtLeader r0 slot r1 (nextPrev a q) false := by
  have hslot' : peerSlot r a.sender = some slot := by
    unfold peerSlot at hslot ⊢
    rw [h.mem, hsender]
    exact hslot
  have hstep : cetcdRaftStep r a = (0, handleAppResp r a) := by
    unfold cetcdRaftStep
    rw [htype]
  have hr := h.term
  unfold hear
  rw [hstep]
  unfold handleAppResp nextPrev
  rw [if_neg (by simp [h.role]), if_neg (by omega), hslot']
  dsimp only
  split
  · generalize hr1 : ({ r with
      progress := r.progress.write slot (ackProgress (r.progress.read slot) a.index) } : Raft) = r1
    obtain ⟨h1, h2, h3, h4, h5, h6, h7⟩ := maybeAdvanceCommit_frame r1
    have hread : (maybeAdvanceCommit r1).progress.read slot =
        ackProgress (r.progress.read slot) a.index := by
      rw [h6, ← hr1]
      exact ZeroArray.read_write_self _ _ _
    rw [← hr1] at h1 h2 h3 h4 h5 h7
    subst hr1
    refine ⟨_, rfl, h1.trans h.conf, h2.trans h.term, h3.trans h.role, h4.trans h.mem,
      h5.trans h.rlog, ?_, ?_, ?_, h7.trans h.out⟩
    · rw [hread]
      rfl
    · rw [hread]
      exact h.noSnap
    rw [hread]
    rfl
  have hlog : r.rlog.compacted = 0 := by
    rw [h.rlog]
    exact hc
  have hread : (r.progress.write slot (rejectProgress (r.progress.read slot) a.index)).read slot =
      rejectProgress (r.progress.read slot) a.index := ZeroArray.read_write_self _ _ _
  rw [maybeSendSnap_of_uncompacted slot (by exact hlog)]
  refine ⟨_, rfl, h.conf, h.term, h.role, h.mem, h.rlog, ?_, ?_, ?_, h.out⟩
  · dsimp only
    rw [hread, prevIndex_rejectProgress, h.prev]
  · dsimp only
    rw [hread]
    exact h.noSnap
  dsimp only
  rw [hread]
  rfl

end

/-! ## One exchange -/

/-- The two ends of a link: the leader probes the follower at `q`. -/
structure Ends (r0 : Raft) (id slot : Nat) (s : Link) (q : Nat) (busy : Bool) : Prop where
  leader : AtLeader r0 slot s.leader q busy
  follower : s.follower.conf.id = id
  uncompacted : s.follower.rlog.compacted = 0
  term : s.follower.term ≤ r0.term
  out : s.follower.pending.msgs = []

structure Probing (r0 : Raft) (id slot : Nat) (s : Link) (q : Nat) : Prop
    extends Ends r0 id slot s q true where
  queue : ∃ m, s.queue = [m] ∧ IsApp r0 id q m
  behind : q < r0.rlog.lastIndex

/-- Nothing is under way: the leader has been told of a log at least as long as its own. -/
structure Resting (r0 : Raft) (id slot : Nat) (s : Link) (q : Nat) : Prop
    extends Ends r0 id slot s q false where
  queue : s.queue = []
  reached : r0.rlog.lastIndex ≤ q

/-- The follower has the entry before the batch. -/
def PrevHeld (r0 : Raft) (l : RaftLog) (q : Nat) : Prop :=
  q = 0 ∨ q ≤ l.lastIndex ∧ logTermAt l q = logTermAt r0.rlog q

section

variable {r0 f0 : Raft} {slot q : Nat} {s : Link}

lemma Pairing.probing (h : Pairing r0 f0 slot) :
    Probing r0 f0.conf.id slot (Link.probe r0 f0 slot) (prevIndex (r0.progress.read slot)) := by
  have hat : AtLeader r0 slot r0 (prevIndex (r0.progress.read slot)) false :=
    ⟨rfl, rfl, h.role, rfl, rfl, rfl, h.noSnap, h.noApp, h.leaderOut⟩
  obtain ⟨m, hout, happ, hled⟩ := hat.send h.peer h.ne h.leaderLog h.behind
  refine ⟨⟨hled, rfl, h.followerLog, h.term, h.followerOut⟩, ⟨m, ?_, happ⟩, h.behind⟩
  change (flush (maybeSendApp r0 slot)).1.filter _ = [m]
  rw [hout]
  simp [happ.dest]

lemma Link.answer_stage {q' : Nat} {a : Msg} (h : Pairing r0 f0 slot)
    (hends : Ends r0 f0.conf.id slot s q true) (hqueue : s.queue = [])
    (htype : a.type = .appResp) (hsender : a.sender = f0.conf.id) (hterm : a.term = r0.term)
    (hq : nextPrev a q = q') :
    (s.answer a).follower = s.follower ∧
      (q' < r0.rlog.lastIndex ∧ Probing r0 f0.conf.id slot (s.answer a) q' ∨
        r0.rlog.lastIndex ≤ q' ∧ Resting r0 f0.conf.id slot (s.answer a) q') := by
  refine ⟨rfl, ?_⟩
  obtain ⟨r1, hhear, hat⟩ := hends.leader.react h.peer h.leaderLog htype hsender hterm
  rw [hq] at hat
  unfold Link.answer
  rw [hhear, hqueue, hends.follower]
  obtain hlt | hge := Nat.lt_or_ge q' r0.rlog.lastIndex
  · obtain ⟨m, hout, happ, hled⟩ := hat.send h.peer h.ne h.leaderLog hlt
    refine .inl ⟨hlt, ⟨hled, hends.follower, hends.uncompacted, hends.term, hends.out⟩,
      ⟨m, ?_, happ⟩, hlt⟩
    change [] ++ (flush (maybeSendApp r1 slot)).1.filter _ = [m]
    rw [hout]
    simp [happ.dest]
  have hnone := hat.send_nothing h.leaderLog hge
  obtain ⟨h1, h2, h3, h4, h5, h6, h7⟩ := flush_frame r1
  refine .inr ⟨hge, ⟨⟨?_, ?_, ?_, ?_, ?_, ?_, ?_, ?_, ?_⟩, hends.follower, hends.uncompacted,
    hends.term, hends.out⟩, ?_, hge⟩
  all_goals dsimp only
  all_goals rw [hnone]
  · exact h1.trans hat.conf
  · exact h2.trans hat.term
  · exact h3.trans hat.role
  · exact h4.trans hat.mem
  · exact h6.trans hat.rlog
  · rw [h5]
    exact hat.prev
  · rw [h5]
    exact hat.noSnap
  · rw [h5]
    exact hat.app
  · exact h7
  rw [flush_msgs, hat.out]
  rfl

/-- A follower that is too short is probed at its last index, one with another term at the probed
index there again, any other one stores the batch and is probed at its end. -/
lemma Probing.exchange (h : Pairing r0 f0 slot) (hs : Probing r0 f0.conf.id slot s q) :
    (0 < q ∧ s.follower.rlog.lastIndex < q ∧ s.exchange.follower.rlog = s.follower.rlog ∧
        Probing r0 f0.conf.id slot s.exchange s.follower.rlog.lastIndex) ∨
      (0 < q ∧ q ≤ s.follower.rlog.lastIndex ∧ logTermAt s.follower.rlog q ≠ logTermAt r0.rlog q ∧
        s.exchange.follower.rlog = s.follower.rlog ∧ Probing r0 f0.conf.id slot s.exchange q) ∨
      (PrevHeld r0 s.follower.rlog q ∧
        s.exchange.follower.rlog = storeEntries s.follower.rlog (q + 1) (batch r0 q) ∧
        (s.exchange.follower.rlog.lastIndex < r0.rlog.lastIndex ∧
            Probing r0 f0.conf.id slot s.exchange s.exchange.follower.rlog.lastIndex ∨
          r0.rlog.lastIndex ≤ s.exchange.follower.rlog.lastIndex ∧
            Resting r0 f0.conf.id slot s.exchange s.exchange.follower.rlog.lastIndex)) := by
  rcases hs.queue with ⟨m, hqueue, happ⟩
  have hbehind := hs.behind
  rcases hear_app happ.type (by rw [happ.term]; exact hs.term) hs.out with
    ⟨a, hout, htype, hdest, hsender, hterm, hconf, hterm1, hmsgs, hcases⟩
  rw [happ.index, happ.logTerm, happ.entries] at hcases
  have hex : s.exchange =
      ({ s with follower := (hear s.follower m).2, queue := [] } : Link).answer a := by
    unfold Link.exchange
    rw [hqueue]
    dsimp only
    rw [hout, filter_cons_of_pos (by
      rw [hdest, happ.sender, hs.leader.conf]
      exact decide_eq_true rfl)]
    rfl
  have hcomp : (hear s.follower m).2.rlog.compacted = 0 := by
    rcases hcases with ⟨_, _, _, _, hlog⟩ | ⟨_, _, _, _, _, hlog⟩ | ⟨_, _, _, hlog⟩
    · rw [hlog]
      exact hs.uncompacted
    · rw [hlog]
      exact hs.uncompacted
    rw [hlog, storeEntries_compacted]
    exact hs.uncompacted
  have hends : Ends r0 f0.conf.id slot
      { s with follower := (hear s.follower m).2, queue := [] } q true :=
    ⟨hs.leader, (congrArg Conf.id hconf).trans hs.follower, hcomp,
      (hterm1.trans happ.term).le, hmsgs⟩
  have hstage := fun q' (hq : nextPrev a q = q') =>
    Link.answer_stage h hends rfl htype (hsender.trans hs.follower) (hterm.trans happ.term) hq
  rw [← hex] at hstage
  rcases hcases with ⟨h0, hlt, hrej, hidx, hlog⟩ | ⟨h0, hle, hne, hrej, hidx, hlog⟩ |
    ⟨hprev, hrej, hidx, hlog⟩
  · -- too short: the hint is the follower's last index
    rcases hstage s.follower.rlog.lastIndex (by
      unfold nextPrev
      rw [if_neg (by omega), hidx]
      omega) with ⟨hf, hnext⟩
    refine .inl ⟨h0, hlt, by rw [hf]; exact hlog, ?_⟩
    rcases hnext with ⟨_, hnext⟩ | ⟨hge, _⟩
    · exact hnext
    · omega
  · -- another term at the probed index: the hint is that same index, so the probe does not move
    rcases hstage q (by
      unfold nextPrev
      rw [if_neg (by omega), hidx]
      omega) with ⟨hf, hnext⟩
    refine .inr (.inl ⟨h0, hle, hne, by rw [hf]; exact hlog, ?_⟩)
    rcases hnext with ⟨_, hnext⟩ | ⟨hge, _⟩
    · exact hnext
    · omega
  rcases hstage (hear s.follower m).2.rlog.lastIndex (by
    unfold nextPrev
    rw [if_pos hrej, hidx]) with ⟨hf, hnext⟩
  have hlog' : s.exchange.follower.rlog = (hear s.follower m).2.rlog := by
    rw [hf]
  refine .inr (.inr ⟨hprev, hlog'.trans hlog, ?_⟩)
  rw [hlog']
  exact hnext

lemma Resting.exchange_eq {id : Nat} (hs : Resting r0 id slot s q) : s.exchange = s := by
  unfold Link.exchange
  rw [hs.queue]

end

end Cetcd.Repair
