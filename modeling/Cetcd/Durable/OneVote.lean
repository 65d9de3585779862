import Cetcd.Durable.VoteStep

/-!
# One vote per term, across restarts

A node with its disk. The hard state of a Ready is written before its messages are sent; after a
crash the node gets back the last one written. `given` holds what was promised to others: the votes
of the Readies taken, and the campaigns that a Ready has followed.
-/

namespace Cetcd.Durable

open Lib Raft List

/-! ## A node and its disk -/

inductive WalRecord
  | entry (e : Entry)
  | snapshot (index term : Nat)
  deriving DecidableEq

/-- One round of the loop in `replay_wal_`; the hard state is kept for the end. -/
def replayRecord (r : Raft) : WalRecord → Raft
  | .entry e => cetcdRaftRestoreEntry r e
  | .snapshot index term => if index = 0 then r else cetcdRaftCompact r index term

/-- A node as the server makes it at start, with what `replay_wal_` restores. -/
def reopen (cfg : RaftConfig) (peers : List Peer) (wal : List WalRecord) (hs : Option HardState) :
    Option Raft :=
  match cetcdRaftNew cfg with
  | none => none
  | some r0 =>
    let r1 := peers.foldl (fun acc p => cetcdRaftAddPeer acc p.id p.learner) r0
    let r2 := wal.foldl replayRecord r1
    match hs with
    | none => some r2
    | some h => some (cetcdRaftRestoreHardState r2 h)

inductive Event
  | tick
  | step (m : Msg)
  | ready
  | restart (cfg : RaftConfig) (peers : List Peer) (wal : List WalRecord)

def Event.isRestart : Event → Bool
  | .restart _ _ _ => true
  | _ => false

/-- Pairs are a term and the candidate of that term. -/
structure Server where
  node : Raft
  disk : Option HardState
  /-- What others may know: the votes handed out and the campaigns a Ready has followed. -/
  given : List (Nat × Nat)
  /-- The campaigns since the last Ready. -/
  unsaved : List (Nat × Nat)
  /-- All campaigns, also those a crash has made undone. -/
  campaigns : List (Nat × Nat)
  /-- The terms in which Readies were taken. -/
  taken : List Nat

/-- A node that stands for election, or has won, is a candidate of its term. -/
def candidacy (r : Raft) : List (Nat × Nat) :=
  if r.role = .candidate ∨ r.role = .leader then [(r.term, r.conf.id)] else []

def grants (msgs : List Msg) : List (Nat × Nat) :=
  (msgs.filter (fun m => m.type = .voteResp ∧ m.reject = 0)).map (fun m => (m.term, m.dest))

namespace Server

/-- The node has returned from a call as `r`. -/
def call (s : Server) (r : Raft) : Server :=
  { s with
    node := r
    unsaved := s.unsaved ++ candidacy r
    campaigns := s.campaigns ++ candidacy r }

def next (s : Server) : Event → Server
  | .tick => s.call (cetcdRaftTick s.node)
  | .step m => s.call (cetcdRaftStep s.node m).2
  | .ready =>
    let rd := (cetcdRaftReady s.node).1
    { s with
      node := cetcdRaftAdvance (cetcdRaftReady s.node).2 rd
      disk := match rd.hardState with
        | some hs => some hs
        | none => s.disk
      given := s.given ++ s.unsaved ++ grants rd.messages
      unsaved := []
      taken := s.taken ++ [s.node.term] }
  | .restart cfg peers wal =>
    match reopen cfg peers wal s.disk with
    | none => s
    | some r => { s with node := r, unsaved := [] }

/-- Messages come from someone, and a node keeps its id. -/
def Allowed (s : Server) : Event → Prop
  | .step m => m.sender ≠ 0
  | .restart cfg _ _ => cfg.id = s.node.conf.id
  | _ => True

instance (s : Server) (ev : Event) : Decidable (s.Allowed ev) := by
  cases ev <;> unfold Allowed <;> infer_instance

def Initial (s : Server) : Prop :=
  ∃ cfg peers r, reopen cfg peers [] none = some r ∧
    s = { node := r, disk := none, given := [], unsaved := [], campaigns := [], taken := [] }

def Step (s : Server) (ev : Event) (s' : Server) : Prop :=
  s.Allowed ev ∧ s' = s.next ev

def Run : List Server → Prop := RunOf Initial Step

end Server

/-! ## What is kept -/

/-- Term and vote as the disk has them; nothing on it counts as zero. -/
def Server.saved (s : Server) : Nat × Nat :=
  match s.disk with
  | none => (0, 0)
  | some hs => (hs.term, hs.vote)

/-- Every vote and campaign that is not undone, those pending included. -/
def Server.known (s : Server) : List (Nat × Nat) :=
  s.given ++ s.unsaved ++ grants s.node.pending.msgs

structure Sound (s : Server) : Prop where
  id : s.node.conf.id ≠ 0
  stands : Campaigning s.node → s.node.vote = s.node.conf.id
  covered : s.node.pending.hs = none → s.saved = (s.node.term, s.node.vote)
  pending : ∀ hs, s.node.pending.hs = some hs → (hs.term, hs.vote) = (s.node.term, s.node.vote)
  saved_le : s.saved.1 ≤ s.node.term
  taken : ∀ t ∈ s.taken, t ≤ s.saved.1
  given : ∀ t x, (t, x) ∈ s.given → x ≠ 0 ∧ (t < s.saved.1 ∨ (t = s.saved.1 ∧ s.saved.2 = x))
  past : ∀ t x, (t, x) ∈ s.known → Past s.node t x
  agree : ∀ t x y, (t, x) ∈ s.known → (t, y) ∈ s.known → x = y

lemma mem_grants {msgs : List Msg} {t x : Nat} :
    (t, x) ∈ grants msgs ↔ ∃ m ∈ msgs, Granting m ∧ m.term = t ∧ m.dest = x := by
  unfold grants Granting
  simp [and_assoc]

lemma mem_candidacy {r : Raft} {t x : Nat} :
    (t, x) ∈ candidacy r ↔ Campaigning r ∧ t = r.term ∧ x = r.conf.id := by
  unfold candidacy Campaigning
  split <;> simp_all

section

variable {s : Server} {r : Raft} {i : Nat} {saved : Nat × Nat} {ev : Event}

lemma known_call {t x : Nat} (hx : (t, x) ∈ (s.call r).known) :
    (t, x) ∈ s.known ∨ (Campaigning r ∧ t = r.term ∧ x = r.conf.id) ∨
      ∃ m ∈ r.pending.msgs, m ∉ s.node.pending.msgs ∧ Granting m ∧ m.term = t ∧ m.dest = x := by
  unfold Server.known Server.call at hx
  unfold Server.known
  simp only [mem_append, mem_candidacy, mem_grants] at hx ⊢
  obtain (hgiven | hunsaved | hcand) | ⟨m, hm, hg, ht, hd⟩ := hx
  · exact .inl (.inl (.inl hgiven))
  · exact .inl (.inl (.inr hunsaved))
  · exact .inr (.inl hcand)
  by_cases hold : m ∈ s.node.pending.msgs
  · exact .inl (.inr ⟨m, hold, hg, ht, hd⟩)
  · exact .inr (.inr ⟨m, hm, hold, hg, ht, hd⟩)

lemma Sound.call (h : Sound s) (hstep : VoteStep s.node r) : Sound (s.call r) := by
  have hstands := hstep.stands h.id h.stands
  have hid : r.conf.id ≠ 0 := by
    rw [hstep.id]
    exact h.id
  -- whatever is on the record is behind the node, or is its vote
  have hpast : ∀ t x, (t, x) ∈ (s.call r).known → Past r t x := by
    intro t x hx
    obtain hold | ⟨hs, rfl, rfl⟩ | ⟨m, hm, hnew, hg, rfl, rfl⟩ := known_call hx
    · exact (h.past t x hold).step hstep
    · exact ⟨hid, .inr ⟨rfl, hstands hs⟩⟩
    · exact ((hstep.grants m hm hg).resolve_left hnew).1
  refine ⟨hid, hstands, ?_, ?_, h.saved_le.trans hstep.term, h.taken, h.given, hpast, ?_⟩
  · intro hnone
    change r.pending.hs = none at hnone
    obtain ⟨hhs, hterm, hvote⟩ | ⟨c, hc⟩ := hstep.hs
    · change s.saved = (r.term, r.vote)
      rw [hterm, hvote]
      exact h.covered (hhs ▸ hnone)
    rw [hnone] at hc
    cases hc
  · intro hs hsome
    change r.pending.hs = some hs at hsome
    change _ = (r.term, r.vote)
    obtain ⟨hhs, hterm, hvote⟩ | ⟨c, hc⟩ := hstep.hs
    · rw [hterm, hvote]
      exact h.pending hs (hhs ▸ hsome)
    rw [hsome] at hc
    cases hc
    rfl
  intro t x y hx hy
  have hpx := hpast t x hx
  have hpy := hpast t y hy
  obtain hox | ⟨_, rfl, _⟩ | ⟨m, hm, hnew, hg, rfl, rfl⟩ := known_call hx
  · obtain hoy | ⟨_, rfl, _⟩ | ⟨m, hm, hnew, hg, rfl, rfl⟩ := known_call hy
    · exact h.agree t x y hox hoy
    · exact hpx.unique hpy rfl
    · exact ((hstep.grants m hm hg).resolve_left hnew).2 x (h.past _ x hox)
  · exact hpx.unique hpy rfl
  obtain hoy | ⟨_, ht, _⟩ | ⟨m', hm', hnew', hg', ht, rfl⟩ := known_call hy
  · exact (((hstep.grants m hm hg).resolve_left hnew).2 y (h.past _ y hoy)).symm
  · exact hpx.unique hpy ht
  · exact hstep.once m hm m' hm' hg hg' hnew hnew' ht.symm

lemma cetcdRaftAdvance_frame (r : Raft) (rd : Ready) :
    (cetcdRaftAdvance r rd).term = r.term ∧ (cetcdRaftAdvance r rd).vote = r.vote ∧
      (cetcdRaftAdvance r rd).conf = r.conf ∧ (cetcdRaftAdvance r rd).role = r.role ∧
      (cetcdRaftAdvance r rd).pending = r.pending := by
  unfold cetcdRaftAdvance
  split <;> exact ⟨rfl, rfl, rfl, rfl, rfl⟩

lemma Sound.ready (h : Sound s) : Sound (s.next .ready) := by
  rcases cetcdRaftAdvance_frame (cetcdRaftReady s.node).2 (cetcdRaftReady s.node).1 with
    ⟨hterm, hvote, hconf, hrole, hpend⟩
  change (s.next .ready).node.term = s.node.term at hterm
  change (s.next .ready).node.vote = s.node.vote at hvote
  change (s.next .ready).node.conf = s.node.conf at hconf
  change (s.next .ready).node.role = s.node.role at hrole
  have hhs : (s.next .ready).node.pending.hs = none := congrArg Pending.hs hpend
  have hmsgs : (s.next .ready).node.pending.msgs = [] := congrArg Pending.msgs hpend
  -- the hard state that waits is saved; if none waits, the saved one is current
  have hsaved : (s.next .ready).saved = (s.node.term, s.node.vote) := by
    cases hpend : s.node.pending.hs with
    | none =>
      rw [← h.covered hpend]
      unfold Server.saved Server.next cetcdRaftReady
      dsimp only
      rw [hpend]
    | some hs =>
      rw [← h.pending hs hpend]
      unfold Server.saved Server.next cetcdRaftReady
      dsimp only
      rw [hpend]
  have hknown : (s.next .ready).known = s.known := by
    unfold Server.known
    rw [hmsgs]
    change (s.given ++ s.unsaved ++ grants s.node.pending.msgs) ++ [] ++ [] = _
    simp
  refine ⟨by rw [hconf]; exact h.id, ?_, ?_, ?_, ?_, ?_, ?_, ?_, ?_⟩
  · intro hs
    rw [hvote, hconf]
    refine h.stands ?_
    unfold Campaigning at hs ⊢
    rwa [hrole] at hs
  · intro _
    rw [hsaved, hterm, hvote]
  · intro hs hsome
    rw [hhs] at hsome
    cases hsome
  · rw [hsaved, hterm]
  · intro t ht
    rw [hsaved]
    obtain ht | ht := mem_append.1 ht
    · exact (h.taken t ht).trans h.saved_le
    · rw [mem_singleton.1 ht]
  · intro t x hx
    rw [hsaved]
    exact h.past t x hx
  · intro t x hx
    rw [hknown] at hx
    have := h.past t x hx
    unfold Past
    rw [hterm, hvote]
    exact this
  rw [hknown]
  exact h.agree

/-! ### Restarts -/

/-- What a restart leaves of a node: the saved term and vote, nothing pending. -/
structure Reopened (r : Raft) (i : Nat) (saved : Nat × Nat) : Prop where
  id : r.conf.id = i
  nonzero : i ≠ 0
  term : r.term = saved.1
  vote : r.vote = saved.2
  role : r.role = .follower
  hs : r.pending.hs = none
  msgs : r.pending.msgs = []

lemma Reopened.frame {r' : Raft} (h : Reopened r i saved) (hconf : r'.conf = r.conf)
    (hterm : r'.term = r.term) (hvote : r'.vote = r.vote) (hrole : r'.role = r.role)
    (hpend : r'.pending = r.pending) : Reopened r' i saved := by
  refine ⟨?_, h.nonzero, hterm.trans h.term, hvote.trans h.vote, hrole.trans h.role, ?_, ?_⟩
  · rw [hconf]
    exact h.id
  · rw [hpend]
    exact h.hs
  rw [hpend]
  exact h.msgs

lemma Reopened.addPeer (h : Reopened r i saved) (j : Nat) (learner : Bool) :
    Reopened (Raft.addPeer r j learner) i saved := by
  unfold Raft.addPeer
  split
  · exact h
  · exact h.frame rfl rfl rfl rfl rfl

lemma Reopened.replayRecord (h : Reopened r i saved) (rec : WalRecord) :
    Reopened (Durable.replayRecord r rec) i saved := by
  cases rec with
  | entry e =>
    change Reopened (cetcdRaftRestoreEntry r e) i saved
    unfold cetcdRaftRestoreEntry
    split
    · exact h
    · exact h.frame rfl rfl rfl rfl rfl
  | snapshot index term =>
    unfold Durable.replayRecord cetcdRaftCompact
    dsimp only
    split
    · exact h
    split
    · exact h
    · exact h.frame rfl rfl rfl rfl rfl

lemma reopen_spec {cfg : RaftConfig} {peers : List Peer} {wal : List WalRecord}
    (h : reopen cfg peers wal s.disk = some r) : Reopened r cfg.id s.saved := by
  unfold reopen at h
  cases hnew : cetcdRaftNew cfg with
  | none =>
    rw [hnew] at h
    cases h
  | some r0 =>
    rw [hnew] at h
    dsimp only at h
    have h0 : Reopened r0 cfg.id (0, 0) := by
      unfold cetcdRaftNew at hnew
      split at hnew
      · cases hnew
      rename_i hid
      split at hnew
      · cases hnew
      cases hnew
      exact Reopened.addPeer ⟨rfl, hid, rfl, rfl, rfl, rfl, rfl⟩ _ _
    have h1 : Reopened (peers.foldl (fun acc p => cetcdRaftAddPeer acc p.id p.learner) r0)
        cfg.id (0, 0) := by
      refine foldlRecOn (motive := (Reopened · cfg.id (0, 0))) peers _ h0 fun r' hr' p _ => ?_
      unfold cetcdRaftAddPeer
      split_ifs
      · exact hr'
      · exact hr'
      · exact hr'.addPeer _ _
    have h2 := foldlRecOn (motive := (Reopened · cfg.id (0, 0))) wal replayRecord h1
      fun r' hr' rec _ => hr'.replayRecord rec
    unfold Server.saved
    cases hdisk : s.disk with
    | none =>
      rw [hdisk] at h
      cases h
      exact h2
    | some hs =>
      rw [hdisk] at h
      cases h
      exact ⟨h2.id, h2.nonzero, rfl, rfl, h2.role, h2.hs, h2.msgs⟩

lemma Sound.of_reopened (hr : Reopened r i s.saved) (hnode : s.node = r) (hunsaved : s.unsaved = [])
    (htaken : ∀ t ∈ s.taken, t ≤ s.saved.1)
    (hgiven : ∀ t x, (t, x) ∈ s.given → x ≠ 0 ∧ (t < s.saved.1 ∨ (t = s.saved.1 ∧ s.saved.2 = x)))
    (hagree : ∀ t x y, (t, x) ∈ s.given → (t, y) ∈ s.given → x = y) : Sound s := by
  subst hnode
  have hknown : s.known = s.given := by
    unfold Server.known
    rw [hunsaved, hr.msgs]
    simp [grants]
  refine ⟨?_, ?_, ?_, ?_, hr.term.ge, htaken, hgiven, ?_, by rwa [hknown]⟩
  · rw [hr.id]
    exact hr.nonzero
  · rintro (h | h)
    all_goals
      rw [hr.role] at h
      cases h
  · intro _
    rw [hr.term, hr.vote]
  · intro hs hsome
    rw [hr.hs] at hsome
    cases hsome
  intro t x hx
  rw [hknown] at hx
  unfold Past
  rw [hr.term, hr.vote]
  exact hgiven t x hx

lemma Sound.restart (h : Sound s) (cfg : RaftConfig) (peers : List Peer) (wal : List WalRecord) :
    Sound (s.next (.restart cfg peers wal)) := by
  have hagree : ∀ t x y, (t, x) ∈ s.given → (t, y) ∈ s.given → x = y := by
    intro t x y hx hy
    refine h.agree t x y ?_ ?_
    · simp [Server.known, hx]
    · simp [Server.known, hy]
  change Sound (match reopen cfg peers wal s.disk with
    | none => s
    | some r => { s with node := r, unsaved := [] })
  cases hopen : reopen cfg peers wal s.disk with
  | none => exact h
  | some r =>
    have hr := reopen_spec hopen
    exact Sound.of_reopened (s := { s with node := r, unsaved := [] }) hr rfl rfl h.taken h.given
      hagree

lemma Sound.initial (h : s.Initial) : Sound s := by
  obtain ⟨cfg, peers, r, hopen, rfl⟩ := h
  have hr := reopen_spec (s := ⟨r, none, [], [], [], []⟩) hopen
  exact Sound.of_reopened hr rfl rfl (fun t ht => (by cases ht)) (fun t x hx => (by cases hx))
    (fun t x y hx => (by cases hx))

lemma voteStep_next (hok : s.Allowed ev) (hev : ev.isRestart = false) :
    s.node.term ≤ (s.next ev).node.term := by
  cases ev with
  | tick => exact (voteStep_cetcdRaftTick).term
  | step m => exact (voteStep_cetcdRaftStep hok).term
  | ready => exact (cetcdRaftAdvance_frame (cetcdRaftReady s.node).2 _).1.ge
  | restart cfg peers wal => cases hev

lemma Sound.next (h : Sound s) (hok : s.Allowed ev) : Sound (s.next ev) := by
  cases ev with
  | tick => exact h.call (voteStep_cetcdRaftTick)
  | step m => exact h.call (voteStep_cetcdRaftStep hok)
  | ready => exact h.ready
  | restart cfg peers wal => exact h.restart cfg peers wal

lemma Sound.run {hist : List Server} (hrun : Server.Run hist) : ∀ s ∈ hist, Sound s := by
  refine hrun.forall_mem (fun s => Sound.initial) ?_
  rintro s ev s' hs ⟨hok, rfl⟩
  exact hs.next hok

end

/-- Among the votes of all Readies taken and the campaigns that no crash has made undone there is
one candidate per term; no call lowers the term, and no restart takes it below one in which a Ready
was taken. -/
theorem one_vote_per_term {hist : List Server} (hrun : Server.Run hist) {s : Server}
    (hs : s ∈ hist) :
    (∀ t x y, (t, x) ∈ s.given ++ s.unsaved → (t, y) ∈ s.given ++ s.unsaved → x = y) ∧
      (∀ t ∈ s.taken, t ≤ s.node.term) ∧
      ∀ ev, s.Allowed ev → ev.isRestart = false → s.node.term ≤ (s.next ev).node.term := by
  have h := Sound.run hrun s hs
  refine ⟨?_, fun t ht => (h.taken t ht).trans h.saved_le, fun ev => voteStep_next⟩
  intro t x y hx hy
  exact h.agree t x y (mem_append_left _ hx) (mem_append_left _ hy)

/-! ## Two histories of one node -/

def openFirst : Server :=
  { node := (reopen { id := 1, electionTick := 3, heartbeatTick := 1 } [⟨2, false⟩, ⟨3, false⟩] []
      none).getD default
    disk := none, given := [], unsaved := [], campaigns := [], taken := [] }

lemma initial_openFirst : openFirst.Initial :=
  ⟨{ id := 1, electionTick := 3, heartbeatTick := 1 }, [⟨2, false⟩, ⟨3, false⟩], _, rfl, rfl⟩

def reopenFirst : Event :=
  .restart { id := 1, electionTick := 3, heartbeatTick := 1 } [⟨2, false⟩, ⟨3, false⟩] []

lemma run_script {s : Server} {evs : List (Server → Event)} (hinit : s.Initial)
    (hplay : Playable Server.next Server.Allowed s evs) :
    Server.Run (replay Server.next [] s evs) :=
  run_of_playable (fun _ _ h => ⟨h, rfl⟩) hinit hplay

/-- A request of node 2, granted and sent; after a crash one of node 3 in the same term. -/
def voteThenCrash : List (Server → Event) :=
  [fun _ => .step { type := .vote, sender := 2, term := 1 }, fun _ => .ready, fun _ => reopenFirst,
    fun _ => .step { type := .vote, sender := 3, term := 1 }, fun _ => .ready]

theorem one_vote_per_term_restarted : Server.Run (replay Server.next [] openFirst voteThenCrash) ∧
      (finish Server.next openFirst voteThenCrash).given = [(1, 2)] ∧
      (finish Server.next openFirst voteThenCrash).taken = [1, 1] ∧
      ∀ x, (1, x) ∈ (finish Server.next openFirst voteThenCrash).given → x = 2 := by
  have hrun : Server.Run (replay Server.next [] openFirst voteThenCrash) :=
    run_script initial_openFirst (by decide +kernel)
  have hgiven : (finish Server.next openFirst voteThenCrash).given = [(1, 2)] := by decide +kernel
  refine ⟨hrun, hgiven, by decide +kernel, ?_⟩
  intro x hx
  refine (one_vote_per_term hrun (finish_mem_replay _ _ _ _)).1 1 x 2
    (mem_append_left _ hx) (mem_append_left _ ?_)
  rw [hgiven]
  exact mem_singleton_self _

/-- A campaign undone by a crash; then node 2 asks for a vote. -/
def campaignThenCrash : List (Server → Event) :=
  [fun _ => .step { type := .hup, sender := 1 }, fun _ => reopenFirst,
    fun _ => .step { type := .vote, sender := 2, term := 1 }, fun _ => .ready]

/-- A candidate of term 1 has also given its vote of term 1 to node 2. -/
theorem two_candidates_of_one_term :
    ∃ hist, Server.Run hist ∧ ∃ s ∈ hist, (1, 1) ∈ s.campaigns ∧ (1, 2) ∈ s.given ∧
      ∃ s₁ s₂ rest, (s₂ :: s₁ :: rest) <:+ hist ∧ s₁.node.term = 1 ∧ s₂.node.term = 0 := by
  refine ⟨replay Server.next [] openFirst campaignThenCrash,
    run_script initial_openFirst (by decide +kernel),
    finish Server.next openFirst campaignThenCrash, finish_mem_replay _ _ _ _, ?_, ?_,
    finish Server.next openFirst (campaignThenCrash.take 1),
    finish Server.next openFirst (campaignThenCrash.take 2), [openFirst], ?_, ?_, ?_⟩
  · decide +kernel
  · decide +kernel
  · exact suffix_append [finish Server.next openFirst campaignThenCrash,
        finish Server.next openFirst (campaignThenCrash.take 3)] _
  all_goals decide +kernel

end Cetcd.Durable
