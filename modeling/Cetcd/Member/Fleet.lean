import Cetcd.Member.Peers

/-!
# The servers of a table

The leader and its peers with the messages between them. An event is a tick, a delivery or a
proposal, followed by `process_ready_` where it happened. `Steady` holds in every state that events
lead to.
-/

namespace Cetcd.Member

open Lib Raft Protocol Apply Server Repair List Function

/-! ## Events -/

inductive Event
  | tick (i : Nat)
  | deliver (m : Msg)
  | propose (data : List UInt8)
  deriving DecidableEq

/-- Node `i` has returned from a call as `r`, and its server has run `process_ready_`. -/
def put (c : Net) (flight : List Msg) (i : Nat) (r : Raft) : Net :=
  { node := Function.update c.node i (settle r).2
    flight := flight ++ (settle r).1 }

def after (lead : Nat) (c : Net) : Event → Net
  | .tick i => put c c.flight i (cetcdRaftTick (c.node i))
  | .deliver m => put c (c.flight.erase m) m.dest (cetcdRaftStep (c.node m.dest) m).2
  | .propose data => put c c.flight lead (cetcdRaftStep (c.node lead) (proposal data)).2

def logsOf (c : Net) (v : Nat) : RaftLog := (c.node v).rlog

lemma put_node_self (c : Net) (flight : List Msg) (i : Nat) (r : Raft) :
    (put c flight i r).node i = (settle r).2 := update_self i _ c.node

lemma put_node_of_ne (c : Net) (flight : List Msg) {i j : Nat} (r : Raft) (h : j ≠ i) :
    (put c flight i r).node j = c.node j := update_of_ne h _ _

/-! ## Steady states -/

/-- Apart from what it takes to commit: every voter's log is a beginning of the leader's, what is
under way is good, and no other node leads or is of a later term. -/
structure Standing (T : Tenure) (c : Net) : Prop where
  guide : Guide T (logsOf c) (c.node T.lead)
  settled : Settled T (c.node T.lead)
  out : (c.node T.lead).pending.msgs = []
  applied : (c.node T.lead).commit ≤ (c.node T.lead).applied
  under : ∀ v ∈ T.peers.map Peer.id, v ≠ T.lead → Under T v (c.node v)
  letters : ∀ m ∈ c.flight, Mail T (logsOf c) (c.node T.lead).rlog m ∨ Answer T (logsOf c) m

structure Steady (T : Tenure) (c : Net) : Prop extends Standing T c where
  quorate : T.Quorate (c.node T.lead).mem.outgoing

/-- What no event takes back. -/
structure Goes (T : Tenure) (c c' : Net) : Prop where
  kept : Retained (c.node T.lead) (c'.node T.lead)
  last : ∀ v, T.Voter v → v ≠ T.lead → (logsOf c v).lastIndex ≤ (logsOf c' v).lastIndex
  commit : ∀ v, T.Voter v → v ≠ T.lead → (c.node v).commit ≤ (c'.node v).commit
  applied : ∀ v, T.Voter v → v ≠ T.lead → (c.node v).applied ≤ (c'.node v).applied

lemma Goes.refl (T : Tenure) (c : Net) : Goes T c c :=
  ⟨Retained.refl _, fun _ _ _ => le_rfl, fun _ _ _ => le_rfl, fun _ _ _ => le_rfl⟩

lemma Goes.trans {T : Tenure} {c c' c'' : Net} (h : Goes T c c') (h' : Goes T c' c'') :
    Goes T c c'' where
  kept := h.kept.trans h'.kept
  last v hv hne := (h.last v hv hne).trans (h'.last v hv hne)
  commit v hv hne := (h.commit v hv hne).trans (h'.commit v hv hne)
  applied v hv hne := (h.applied v hv hne).trans (h'.applied v hv hne)

section

variable {T : Tenure} {c : Net} {logs logs' : Nat → RaftLog} {flight : List Msg}

lemma Tenure.Voter.mem_ids {v : Nat} (h : T.Voter v) : v ∈ T.peers.map Peer.id :=
  mem_map.2 ⟨_, h, rfl⟩

lemma Steady.chief (h : Steady T c) : Chief T (logsOf c) (c.node T.lead) := ⟨h.guide, h.quorate⟩

lemma Guide.grow {r : Raft} (h : Guide T logs r)
    (hlast : ∀ v, T.Voter v → v ≠ T.lead → (logs v).lastIndex ≤ (logs' v).lastIndex)
    (hfollows : ∀ v, T.Voter v → v ≠ T.lead → Follows T.base r.rlog (logs' v)) :
    Guide T logs' r := by
  refine ⟨h.id, h.role, h.term, h.peers, h.base, h.own_le, h.own, h.commit_le, h.applied_le,
    h.base_le, h.tame,
    fun i v hi hv => ?_, hfollows, fun m hm => ?_, h.leave⟩
  · have hnote := h.notes i v hi hv
    have hle := hlast v (mem_of_getElem? hi) hv
    have hnext := hnote.next_le
    exact ⟨hnote.noSnap, hnote.base_lt, hnote.lt_next, by omega, hnote.behind⟩
  · exact (h.mail m hm).grow hlast h.follows (Extends.refl _)

lemma Answer.grow {m : Msg} (h : Answer T logs m)
    (hlast : ∀ v, T.Voter v → v ≠ T.lead → (logs v).lastIndex ≤ (logs' v).lastIndex) :
    Answer T logs' m := by
  refine ⟨h.dest, h.term, h.kind.imp_right (Or.imp_left fun hack => ?_)⟩
  exact ⟨hack.type, hack.voter, hack.ne, hack.reject, hack.base_le,
    hack.index_le.trans (hlast _ hack.voter hack.ne)⟩

lemma Steady.at_lead (h : Steady T c) {r : Raft} (hsub : ∀ m ∈ flight, m ∈ c.flight)
    (hchief : Chief T (logsOf c) r) (hset : Settled T r) (hkept : Retained (c.node T.lead) r) :
    Steady T (put c flight T.lead r) ∧ Goes T c (put c flight T.lead r) := by
  have hs := hchief.settle hset
  have hself := put_node_self c flight T.lead r
  have hlogs : ∀ v, v ≠ T.lead → logsOf (put c flight T.lead r) v = logsOf c v := fun v hv =>
    congrArg Raft.rlog (put_node_of_ne c flight r hv)
  have hlast : ∀ v, T.Voter v → v ≠ T.lead →
      (logsOf c v).lastIndex ≤ (logsOf (put c flight T.lead r) v).lastIndex := fun v _ hv => by
    rw [hlogs v hv]
  have hall := hkept.trans hs.kept
  refine ⟨⟨⟨?_, ?_, ?_, ?_, ?_, ?_⟩, ?_⟩, ⟨?_, hlast, ?_, ?_⟩⟩
  · rw [hself]
    exact hs.chief.toGuide.grow hlast fun v hv hne => by
      rw [hlogs v hne]
      exact hs.chief.follows v hv hne
  · rw [hself]
    exact hs.settled
  · rw [hself]
    exact hs.out
  · rw [hself]
    exact hs.applied
  · intro v hv hne
    rw [put_node_of_ne c flight r hne]
    exact h.under v hv hne
  · intro m hm
    rw [hself]
    obtain hold | hnew := mem_append.1 hm
    · obtain hmail | hans := h.letters m (hsub m hold)
      · exact .inl (hmail.grow hlast h.guide.follows hall.log)
      · exact .inr (hans.grow hlast)
    · exact .inl ((hs.mail m hnew).grow hlast hs.chief.follows (Extends.refl _))
  · rw [hself]
    exact hs.chief.quorate
  · rw [hself]
    exact hall
  all_goals
    intro v _ hv
    rw [put_node_of_ne c flight r hv]

lemma Steady.at_peer (h : Steady T c) {v : Nat} {f : Raft} (hsub : ∀ m ∈ flight, m ∈ c.flight)
    (hne : v ≠ T.lead) (hid : f.conf.id = v) (hrole : f.role ≠ .leader) (hterm : f.term ≤ T.term)
    (hlog : T.Voter v → Follows T.base (c.node T.lead).rlog f.rlog ∧ (logsOf c v).lastIndex ≤ f.rlog.lastIndex)
    (hcommit : (c.node v).commit ≤ f.commit) (happlied : (c.node v).applied ≤ f.applied)
    (hmsgs : ∀ logs', logs' v = f.rlog → ∀ m ∈ f.pending.msgs, Answer T logs' m) :
    Steady T (put c flight v f) ∧ Goes T c (put c flight v f) := by
  obtain ⟨hsent, _, _, _, hrlog, hcom, _, happ⟩ := readyRound_frame f
  have hself := put_node_self c flight v f
  rw [settle_of_not_leader hrole] at hself
  -- the leader is not touched; what it holds of `v` stays true because `v` only gains entries
  have hlead : (put c flight v f).node T.lead = c.node T.lead :=
    put_node_of_ne c flight f (Ne.symm hne)
  have hlogv : logsOf (put c flight v f) v = f.rlog := by
    unfold logsOf
    rw [hself, hrlog]
  have hother : ∀ w, w ≠ v → logsOf (put c flight v f) w = logsOf c w := fun w hw =>
    congrArg Raft.rlog (put_node_of_ne c flight f hw)
  have hlast : ∀ w, T.Voter w → w ≠ T.lead →
      (logsOf c w).lastIndex ≤ (logsOf (put c flight v f) w).lastIndex := by
    intro w hw _
    by_cases hwv : w = v
    · rw [hwv, hlogv]
      exact (hlog (hwv ▸ hw)).2
    · rw [hother w hwv]
  have hfollows : ∀ w, T.Voter w → w ≠ T.lead →
      Follows T.base (c.node T.lead).rlog (logsOf (put c flight v f) w) := by
    intro w hw hwl
    by_cases hwv : w = v
    · rw [hwv, hlogv]
      exact (hlog (hwv ▸ hw)).1
    rw [hother w hwv]
    exact h.guide.follows w hw hwl
  refine ⟨⟨⟨?_, ?_, ?_, ?_, ?_, ?_⟩, ?_⟩, ⟨?_, hlast, ?_, ?_⟩⟩
  · rw [hlead]
    exact h.guide.grow hlast hfollows
  · rw [hlead]
    exact h.settled
  · rw [hlead]
    exact h.out
  · rw [hlead]
    exact h.applied
  · intro w hw hwl
    by_cases hwv : w = v
    · rw [hwv, put_node_self]
      exact Under.readyRound hid hrole hterm
    rw [put_node_of_ne c flight f hwv]
    exact h.under w hw hwl
  · intro m hm
    rw [hlead]
    obtain hold | hnew := mem_append.1 hm
    · obtain hmail | hans := h.letters m (hsub m hold)
      · exact .inl (hmail.grow hlast h.guide.follows (Extends.refl _))
      · exact .inr (hans.grow hlast)
    rw [settle_of_not_leader hrole, hsent] at hnew
    exact .inr (hmsgs _ hlogv m hnew)
  · rw [hlead]
    exact h.quorate
  · rw [hlead]
    exact Retained.refl _
  · intro w _ _
    by_cases hwv : w = v
    · rw [hwv, hself, hcom]
      exact hcommit
    · rw [put_node_of_ne c flight f hwv]
  intro w _ _
  by_cases hwv : w = v
  · rw [hwv, hself, happ]
    exact happlied.trans (le_max_left _ _)
  · rw [put_node_of_ne c flight f hwv]

end

/-! ## What an event does -/

/-- Events among the peers of the table, while no election timer runs out. -/
def Allowed (T : Tenure) (c : Net) : Event → Prop
  | .tick i => i ∈ T.peers.map Peer.id ∧ ¬ Net.Expires (c.node i)
  | .deliver m => m ∈ c.flight
  | .propose data => Plain data

instance (T : Tenure) (c : Net) (e : Event) : Decidable (Allowed T c e) := by
  cases e <;> unfold Allowed <;> infer_instance

/-- What was under way and is not delivered by the event. -/
def left (c : Net) : Event → List Msg
  | .deliver m => c.flight.erase m
  | _ => c.flight

def IsAck (v : Nat) (m : Msg) : Prop := m.type = .appResp ∧ m.sender = v
  deriving Decidable

structure Happened (T : Tenure) (c : Net) (e : Event) (c' : Net) : Prop where
  steady : Steady T c'
  goes : Goes T c c'
  /-- The acknowledged index of a voter is set by its responses only. -/
  acked : ∀ i v, T.peers[i]? = some ⟨v, false⟩ → v ≠ T.lead →
    (∃ m, e = .deliver m ∧ IsAck v m ∧ ((c'.node T.lead).progress.read i).matchIdx = m.index) ∨
    (∀ m, e = .deliver m → ¬ IsAck v m) ∧
      ((c'.node T.lead).progress.read i).matchIdx = ((c.node T.lead).progress.read i).matchIdx
  /-- A new response of a voter names the end of its log. -/
  sent : ∃ new, c'.flight = left c e ++ new ∧ ∀ a ∈ new, ∀ v, T.Voter v → v ≠ T.lead → IsAck v a →
    a.index = (logsOf c' v).lastIndex
  timer : e ≠ .tick T.lead → (c'.node T.lead).heartbeatElapsed = (c.node T.lead).heartbeatElapsed
  urged : e = .tick T.lead → cetcdRaftJointCaughtUp (c'.node T.lead) = true →
    (c'.node T.lead).mem.leavePending = true
  aged : e = .tick T.lead → ¬ Net.Beats (c.node T.lead) →
    (c'.node T.lead).heartbeatElapsed = (c.node T.lead).heartbeatElapsed + 1
  beaten : e = .tick T.lead → Net.Beats (c.node T.lead) → ∀ i v, T.peers[i]? = some ⟨v, false⟩ →
    v ≠ T.lead → Beaten (c.node T.lead) i v c'.flight
  stored : ∀ m, e = .deliver m → m.type = .app → T.Voter m.dest →
    m.index + m.entries.length ≤ (logsOf c' m.dest).lastIndex ∧
      ∃ a ∈ c'.flight, IsAck m.dest a ∧ a.index = (logsOf c' m.dest).lastIndex
  told : ∀ m, e = .deliver m → m.type = .heartbeat → T.Voter m.dest →
    min m.commit (logsOf c m.dest).lastIndex ≤ (c'.node m.dest).applied

section

variable {T : Tenure} {c : Net} {logs : Nat → RaftLog} {m : Msg}

lemma Mail.not_ack {lead : RaftLog} (h : Mail T logs lead m) (v : Nat) : ¬ IsAck v m := by
  rintro ⟨htype, _⟩
  obtain h' | h' | ⟨h', _⟩ := h.type
  all_goals
    rw [htype] at h'
    cases h'

lemma sent_of_settles {r : Raft} {flight : List Msg} {e : Event} (hs : Settles T logs r (settle r))
    (hflight : flight = left c e) :
    ∃ new, (put c flight T.lead r).flight = left c e ++ new ∧ ∀ a ∈ new, ∀ v, T.Voter v →
      v ≠ T.lead → IsAck v a → a.index = (logsOf (put c flight T.lead r) v).lastIndex :=
  ⟨(settle r).1, by rw [← hflight]; rfl, fun a ha v _ _ hack =>
    absurd hack ((hs.mail a ha).not_ack v)⟩

section

variable (h : Steady T c)

include h

lemma Steady.tick_lead : Happened T c (.tick T.lead) (after T.lead c (.tick T.lead)) := by
  obtain ⟨hchief, hset, hkept, hacked, hage, hbeat⟩ := h.chief.tick h.settled
  have hs := hchief.settle hset
  obtain ⟨hsteady, hgoes⟩ := h.at_lead (fun m hm => hm) hchief hset hkept
  have hself := put_node_self c c.flight T.lead (cetcdRaftTick (c.node T.lead))
  have hnode : (after T.lead c (.tick T.lead)).node T.lead =
      (settle (cetcdRaftTick (c.node T.lead))).2 := hself
  refine ⟨hsteady, hgoes, fun i v _ _ => .inr ⟨fun m hm => (by cases hm), ?_⟩,
    sent_of_settles hs rfl, fun hno => absurd rfl hno, fun _ => ?_, fun _ hno => ?_,
    fun _ hb i v hi hv => ?_, fun m hm => (by cases hm), fun m hm => (by cases hm)⟩
  · rw [hnode]
    exact (hs.still.acked i).trans (hacked i)
  · rw [hnode]
    exact hs.urged
  · rw [hnode]
    exact hs.still.timer.trans (hage hno)
  -- what the beat queued goes out with the Ready
  have hsent := hbeat hb i v hi hv
  have hin : ∀ m ∈ (cetcdRaftTick (c.node T.lead)).pending.msgs,
      m ∈ (after T.lead c (.tick T.lead)).flight := fun m hm =>
    mem_append_right _ (hs.sent m hm)
  refine ⟨hin _ hsent.beat, fun hbehind => ?_⟩
  obtain ⟨m, hm, hrest⟩ := hsent.app hbehind
  exact ⟨m, hin m hm, hrest⟩

lemma Steady.propose {data : Bytes} (hdata : Plain data) :
    Happened T c (.propose data) (after T.lead c (.propose data)) := by
  obtain ⟨hcall, hacked⟩ := h.chief.propose hdata
  have hs := hcall.chief.settle hcall.settled
  obtain ⟨hsteady, hgoes⟩ := h.at_lead (fun m hm => hm) hcall.chief hcall.settled hcall.kept
  have hnode : (after T.lead c (.propose data)).node T.lead =
      (settle (cetcdRaftStep (c.node T.lead) (proposal data)).2).2 :=
    put_node_self c c.flight T.lead _
  refine ⟨hsteady, hgoes, fun i v _ _ => .inr ⟨fun m hm => (by cases hm), ?_⟩,
    sent_of_settles hs rfl, fun _ => ?_, fun hno => (by cases hno), fun hno => (by cases hno),
    fun hno => (by cases hno), fun m hm => (by cases hm), fun m hm => (by cases hm)⟩
  · rw [hnode]
    exact (hs.still.acked i).trans (hacked i)
  rw [hnode]
  exact hs.still.timer.trans hcall.timer

lemma Steady.deliver_lead (hm : Answer T (logsOf c) m) :
    Happened T c (.deliver m) (after T.lead c (.deliver m)) := by
  obtain ⟨hcall, hacked⟩ := h.chief.hear h.settled hm
  have hs := hcall.chief.settle hcall.settled
  rcases h.at_lead (fun a (ha : a ∈ c.flight.erase m) => mem_of_mem_erase ha) hcall.chief
    hcall.settled hcall.kept with ⟨hsteady, hgoes⟩
  have hput : after T.lead c (.deliver m) =
      put c (c.flight.erase m) T.lead (cetcdRaftStep (c.node T.lead) m).2 := by
    change put c (c.flight.erase m) m.dest (cetcdRaftStep (c.node m.dest) m).2 = _
    rw [hm.dest]
  have hnode : (after T.lead c (.deliver m)).node T.lead =
      (settle (cetcdRaftStep (c.node T.lead) m).2).2 := by
    rw [hput]
    exact put_node_self c _ T.lead _
  have hno : m.type ≠ .app ∧ m.type ≠ .heartbeat := by
    obtain htype | hack | ⟨htype | htype, _⟩ := hm.kind
    · rw [htype]
      decide
    · rw [hack.type]
      decide
    all_goals
      rw [htype]
      decide
  refine ⟨hput ▸ hsteady, hput ▸ hgoes, fun i v hi hv => ?_,
    hput ▸ sent_of_settles hs rfl, fun _ => ?_, fun hno => (by cases hno),
    fun hno => (by cases hno), fun hno => (by cases hno), fun a ha htype => ?_, fun a ha htype => ?_⟩
  · rw [hnode, hs.still.acked i, hacked i v hi hv]
    by_cases hack : m.type = .appResp ∧ m.sender = v
    · rw [if_pos hack]
      exact .inl ⟨m, rfl, hack, rfl⟩
    rw [if_neg hack]
    refine .inr ⟨fun a ha => ?_, rfl⟩
    cases ha
    exact hack
  · rw [hnode]
    exact hs.still.timer.trans hcall.timer
  · cases ha
    exact absurd htype hno.1
  cases ha
  exact absurd htype hno.2

lemma Steady.tick_peer {v : Nat} (hv : v ∈ T.peers.map Peer.id) (hne : v ≠ T.lead)
    (hexp : ¬ Net.Expires (c.node v)) : Happened T c (.tick v) (after T.lead c (.tick v)) := by
  have hunder := h.under v hv hne
  have htick : cetcdRaftTick (c.node v) = Net.aged (c.node v) := by
    unfold cetcdRaftTick
    dsimp only
    rw [if_neg hunder.role, if_neg fun hle => hexp ⟨hunder.role, hle⟩]
    rfl
  have hput : after T.lead c (.tick v) = put c c.flight v (Net.aged (c.node v)) := by
    change put c c.flight v (cetcdRaftTick (c.node v)) = _
    rw [htick]
  have hrole : (Net.aged (c.node v)).role ≠ .leader := hunder.role
  have hout : (Net.aged (c.node v)).pending.msgs = [] := hunder.out
  rcases h.at_peer (f := Net.aged (c.node v)) (fun m (hm : m ∈ c.flight) => hm) hne hunder.id
    hrole hunder.term (fun hvoter => ⟨h.guide.follows v hvoter hne, le_rfl⟩) le_rfl le_rfl
    (fun _ _ m hm => by rw [hout] at hm; cases hm) with ⟨hsteady, hgoes⟩
  have hlead : (after T.lead c (.tick v)).node T.lead = c.node T.lead := by
    rw [hput]
    exact put_node_of_ne c _ _ (Ne.symm hne)
  have hnot : Event.tick v ≠ .tick T.lead := fun heq => hne (by injection heq)
  refine ⟨hput ▸ hsteady, hput ▸ hgoes, fun i w _ _ => .inr ⟨fun m hm => (by cases hm), ?_⟩,
    ⟨[], ?_, forall_mem_nil _⟩, fun _ => by rw [hlead],
    fun heq => absurd heq hnot, fun heq => absurd heq hnot, fun heq => absurd heq hnot,
    fun m hm => (by cases hm), fun m hm => (by cases hm)⟩
  · rw [hlead]
  rw [hput]
  change c.flight ++ (settle (Net.aged (c.node v))).1 = _
  rw [settle_of_not_leader hrole, (readyRound_frame _).1, hout]
  rfl

lemma Steady.deliver_learner (hm : Mail T (logsOf c) (c.node T.lead).rlog m)
    (hlearn : T.Learner m.dest) : Happened T c (.deliver m) (after T.lead c (.deliver m)) := by
  have hnov := T.not_voter_of_learner hlearn
  have hunder := h.under m.dest hm.dest hm.ne
  obtain ⟨a, hrep, htype⟩ := hunder.hear_learner hm
  have hans : ∀ logs', Answer T logs' a := by
    intro logs'
    refine ⟨hrep.dest.trans hm.sender, (hrep.answered.trans hm.term).le, ?_⟩
    obtain htype | htype | htype := htype
    · exact .inl htype
    · exact .inr (.inr ⟨.inl htype, by rw [hrep.sender, hunder.id]; exact hlearn⟩)
    · exact .inr (.inr ⟨.inr htype, by rw [hrep.sender, hunder.id]; exact hlearn⟩)
  rcases h.at_peer (fun a (ha : a ∈ c.flight.erase m) => mem_of_mem_erase ha) hm.ne
    ((congrArg Conf.id hrep.conf).trans hunder.id) hrep.role (hrep.term.trans hm.term).le
    (fun hvoter => absurd hvoter hnov) hrep.commit hrep.applied
    (fun logs' _ => by
      rw [hrep.msgs]
      exact forall_mem_singleton.2 (hans logs')) with ⟨hsteady, hgoes⟩
  have hlead : (after T.lead c (.deliver m)).node T.lead = c.node T.lead :=
    put_node_of_ne c _ _ (Ne.symm hm.ne)
  refine ⟨hsteady, hgoes, fun i v _ _ => .inr ⟨fun b hb => ?_, by rw [hlead]⟩, ⟨[a], ?_, ?_⟩,
    fun _ => by rw [hlead], fun hno => (by cases hno), fun hno => (by cases hno),
    fun hno => (by cases hno), fun b hb _ hvoter => ?_, fun b hb _ hvoter => ?_⟩
  · cases hb
    exact hm.not_ack v
  · change c.flight.erase m ++ (settle (cetcdRaftStep (c.node m.dest) m).2).1 = _
    rw [settle_of_not_leader hrep.role, (readyRound_frame _).1, hrep.msgs]
    rfl
  · intro b hb v hv _ hack
    rw [mem_singleton.1 hb] at hack
    rw [← hack.2, hrep.sender, hunder.id] at hv
    exact absurd hv hnov
  · cases hb
    exact absurd hvoter hnov
  cases hb
  exact absurd hvoter hnov

lemma Steady.deliver_voter (hm : Mail T (logsOf c) (c.node T.lead).rlog m) (hv : T.Voter m.dest) :
    Happened T c (.deliver m) (after T.lead c (.deliver m)) := by
  have hunder := h.under m.dest hm.dest hm.ne
  have hfollows := h.guide.follows m.dest hv hm.ne
  obtain ⟨a, hears⟩ := hunder.hear_voter hm hv rfl hfollows h.guide.base
  have hrep := hears.replies
  have hsender : a.sender = m.dest := hrep.sender.trans hunder.id
  have hans : ∀ logs', logs' m.dest = (cetcdRaftStep (c.node m.dest) m).2.rlog →
      Answer T logs' a := by
    intro logs' hlog
    refine ⟨hrep.dest.trans hm.sender, (hrep.answered.trans hm.term).le, ?_⟩
    obtain htype | htype := hears.type
    · exact .inl (hears.beat htype).1
    obtain ⟨h1, h2, h3, _⟩ := hears.app htype
    have hbase := hears.follows.base_le
    exact .inr (.inl ⟨h1, hsender.symm ▸ hv, hsender.symm ▸ hm.ne, h2, by omega,
      by rw [hsender, hlog, h3]⟩)
  rcases h.at_peer (fun a (ha : a ∈ c.flight.erase m) => mem_of_mem_erase ha) hm.ne
    ((congrArg Conf.id hrep.conf).trans hunder.id) hrep.role (hrep.term.trans hm.term).le
    (fun _ => ⟨hears.follows, hears.last⟩) hrep.commit hrep.applied
    (fun logs' hlog => by
      rw [hrep.msgs]
      exact forall_mem_singleton.2 (hans logs' hlog)) with ⟨hsteady, hgoes⟩
  have hlead : (after T.lead c (.deliver m)).node T.lead = c.node T.lead :=
    put_node_of_ne c _ _ (Ne.symm hm.ne)
  rcases readyRound_frame (cetcdRaftStep (c.node m.dest) m).2 with
    ⟨hsent, _, _, _, hrlog, _, _, happlied⟩
  have hnode : (after T.lead c (.deliver m)).node m.dest =
      (readyRound (cetcdRaftStep (c.node m.dest) m).2).2 := by
    rw [← settle_of_not_leader hrep.role]
    exact put_node_self c _ m.dest _
  have hlog : logsOf (after T.lead c (.deliver m)) m.dest =
      (cetcdRaftStep (c.node m.dest) m).2.rlog := by
    unfold logsOf
    rw [hnode, hrlog]
  have hflight : (after T.lead c (.deliver m)).flight = c.flight.erase m ++ [a] := by
    change c.flight.erase m ++ (settle (cetcdRaftStep (c.node m.dest) m).2).1 = _
    rw [settle_of_not_leader hrep.role, hsent, hrep.msgs]
  refine ⟨hsteady, hgoes, fun i v _ _ => .inr ⟨fun b hb => ?_, by rw [hlead]⟩, ⟨[a], hflight, ?_⟩,
    fun _ => by rw [hlead], fun hno => (by cases hno), fun hno => (by cases hno),
    fun hno => (by cases hno), fun b hb htype _ => ?_, fun b hb htype _ => ?_⟩
  · cases hb
    exact hm.not_ack v
  · -- the only new response is that of this voter
    intro b hb v _ _ hack
    rw [mem_singleton.1 hb] at hack ⊢
    obtain htype | htype := hears.type
    · have hresp := hack.1
      rw [(hears.beat htype).1] at hresp
      cases hresp
    rw [← hack.2, hsender, hlog]
    exact (hears.app htype).2.2.1
  · cases hb
    obtain ⟨h1, _, h3, h4⟩ := hears.app htype
    rw [hlog, hflight]
    exact ⟨h4, a, mem_append_right _ (mem_singleton.2 rfl), ⟨h1, hsender⟩, h3⟩
  cases hb
  rw [hnode, happlied]
  exact (hears.beat htype).2.trans (le_max_right _ _)

lemma Steady.after {e : Event} (he : Allowed T c e) : Happened T c e (Member.after T.lead c e) := by
  cases e with
  | tick i =>
    by_cases hi : i = T.lead
    · rw [hi]
      exact h.tick_lead
    · exact h.tick_peer he.1 hi he.2
  | propose data => exact h.propose he
  | deliver m =>
    obtain hmail | hans := h.letters m he
    · obtain ⟨⟨v, learner⟩, hp, hid⟩ := mem_map.1 hmail.dest
      change v = m.dest at hid
      subst hid
      cases learner with
      | true => exact h.deliver_learner hmail hp
      | false => exact h.deliver_voter hmail hp
    · exact h.deliver_lead hans

end

end

end Cetcd.Member
