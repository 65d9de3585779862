import Cetcd.Member.Removal
import Cetcd.Net.Replies
import Cetcd.Repair.Exchange

/-!
# A leader that its voters follow

`Chief` says what a leader knows of voters whose logs are beginnings of its own: nothing is
rejected, and what it has on record for a voter can only be behind. Beats, proposals and answers
leave such a leader, with the changes that `Retained` allows.
-/

namespace Cetcd.Member

open Lib Raft Protocol Apply Server Repair List Option ZeroArray

/-! ## Logs -/

structure Extends (l l' : RaftLog) : Prop where
  compacted : l'.compacted = l.compacted
  last : l.lastIndex ≤ l'.lastIndex
  read : ∀ i, i ≤ l.lastIndex → l'.log.read i = l.log.read i

/-- From `base` on the log is a beginning of the leader's. -/
structure Follows (base : Nat) (lead l : RaftLog) : Prop where
  compacted : l.compacted ≤ base
  base_le : base ≤ l.lastIndex
  last_le : l.lastIndex ≤ lead.lastIndex
  term : logTermAt l base = logTermAt lead base
  entries : ∀ i, base < i → i ≤ l.lastIndex → SameEntry (l.log.read i) (lead.log.read i)

/-- The entries that follow index `p` in the log. -/
structure Slice (lead : RaftLog) (p : Nat) (es : List Entry) : Prop where
  end_le : p + es.length ≤ lead.lastIndex
  same : ∀ k (hk : k < es.length), SameEntry es[k] (lead.log.read (p + 1 + k))

/-- The entry at `q` is `LEAVE_JOINT`. -/
def IsLeave (l : RaftLog) (q : Nat) : Prop :=
  ∃ e ∈ logAt l q, e.type = .normal ∧ e.data.head? = some 9
  deriving Decidable

section

variable {base p : Nat} {lead lead' l l' : RaftLog} {es : List Entry} {i q : Nat}

lemma Extends.refl (l : RaftLog) : Extends l l := ⟨rfl, le_rfl, fun _ _ => rfl⟩

lemma Extends.trans {l2 : RaftLog} (h : Extends l l') (h' : Extends l' l2) : Extends l l2 where
  compacted := h'.compacted.trans h.compacted
  last := h.last.trans h'.last
  read i hi := (h'.read i (hi.trans h.last)).trans (h.read i hi)

lemma Extends.logAt_eq (h : Extends l l') (hi : i ≤ l.lastIndex) : logAt l' i = logAt l i := by
  have hlast := h.last
  unfold logAt
  rw [h.compacted, h.read i hi]
  have hrange : (i = 0 ∨ l'.lastIndex < i) ↔ (i = 0 ∨ l.lastIndex < i) := by omega
  simp only [hrange]

lemma Extends.logTermAt_eq (h : Extends l l') (hi : i ≤ l.lastIndex) :
    logTermAt l' i = logTermAt l i := by
  unfold logTermAt
  rw [h.logAt_eq hi]

lemma IsLeave.le_last (h : IsLeave l q) : q ≤ l.lastIndex := by
  obtain ⟨e, he, _⟩ := h
  exact (logAt_eq_some.1 he).2.1

lemma IsLeave.grow (h : IsLeave l q) (hext : Extends l l') : IsLeave l' q := by
  have hle := h.le_last
  obtain ⟨e, he, hdata⟩ := h
  exact ⟨e, by rw [hext.logAt_eq hle]; exact he, hdata⟩

lemma extends_proposedLog (r : Raft) (data : Bytes) :
    Extends r.rlog (proposedLog r .normal data) where
  compacted := proposedLog_compacted
  last := by
    rw [proposedLog_lastIndex]
    exact Nat.le_succ _
  read i hi := by
    unfold proposedLog
    rw [logAppend_log]
    exact read_write_of_ne _ _ (by dsimp only; omega)

lemma Slice.grow (h : Slice lead p es) (hext : Extends lead lead') : Slice lead' p es where
  end_le := h.end_le.trans hext.last
  same k hk := by
    have := h.end_le
    rw [hext.read _ (by omega)]
    exact h.same k hk

namespace Follows

lemma grow (h : Follows base lead l) (hext : Extends lead lead') : Follows base lead' l where
  compacted := h.compacted
  base_le := h.base_le
  last_le := h.last_le.trans hext.last
  term := by
    rw [hext.logTermAt_eq (h.base_le.trans h.last_le)]
    exact h.term
  entries i hi hlast := by
    rw [hext.read i (hlast.trans h.last_le)]
    exact h.entries i hi hlast

lemma termAt (h : Follows base lead l) (hlead : lead.compacted ≤ base) {i : Nat} (hi : base ≤ i)
    (hlast : i ≤ l.lastIndex) : logTermAt l i = logTermAt lead i := by
  obtain rfl | hlt := eq_or_lt_of_le hi
  · exact h.term
  have hc := h.compacted
  have hle := h.last_le
  rw [logTermAt_of_range (by omega) hlast (by omega),
    logTermAt_of_range (by omega) (by omega) (by omega)]
  exact (h.entries i hlt hlast).1

lemma isLeave (h : Follows base lead l) {q : Nat} (hq : base < q) (hlast : q ≤ l.lastIndex)
    (hleave : IsLeave lead q) : IsLeave l q := by
  have hc := h.compacted
  obtain ⟨e, he, htype, hdata⟩ := hleave
  have hread := (logAt_eq_some.1 he).2.2.2
  obtain ⟨_, hsame⟩ := h.entries q hq hlast
  rw [hread] at hsame
  exact ⟨_, logAt_of_range (by omega) hlast (by omega), hsame.1.trans htype, hsame.2.symm ▸ hdata⟩

lemma store (h : Follows base lead l) (hslice : Slice lead p es) (hp : base ≤ p)
    (hlast : p ≤ l.lastIndex) :
    (storeEntries l (p + 1) es).lastIndex = max l.lastIndex (p + es.length) ∧
      Follows base lead (storeEntries l (p + 1) es) := by
  have hc := h.compacted
  have hbase := h.base_le
  have hend := hslice.end_le
  have hle := h.last_le
  have hno : ¬ Conflict l (p + 1) es := by
    rintro ⟨k, hk, hin, hterm⟩
    exact hterm ((h.entries _ (by omega) hin).1.trans (hslice.same k hk).1.symm)
  obtain ⟨hnew, hrest⟩ := (stores_last es (by omega) (by omega) (by omega)).2 hno
  have hlast' : (storeEntries l (p + 1) es).lastIndex = max l.lastIndex (p + es.length) := by omega
  have hc' := storeEntries_compacted es l (p + 1)
  refine ⟨hlast', by omega, by omega, by omega, ?_, fun i hi hin => ?_⟩
  · -- the cell at `base` is below the batch
    refine Eq.trans ?_ h.term
    obtain rfl | hpos := Nat.eq_zero_or_pos base
    · rfl
    rw [logTermAt_of_range (by omega) (by omega) (by omega), stores_read_below es (by omega),
      logTermAt_of_range (by omega) h.base_le hc]
  by_cases hbelow : i < p + 1
  · rw [stores_read_below es hbelow]
    exact h.entries i hi (by omega)
  by_cases hbatch : i < p + 1 + es.length
  · obtain ⟨k, rfl⟩ := Nat.exists_eq_add_of_le (not_lt.1 hbelow)
    rw [stores_read_new es (by omega)]
    exact hslice.same k (by omega)
  rw [hrest i (by omega)]
  exact h.entries i hi (by omega)

end Follows

end

/-! ## The leader -/

/-- What the leader has on record for a voter with log `l`. -/
structure Note (base : Nat) (lead l : RaftLog) (pr : PeerProgress) : Prop where
  noSnap : pr.pendingSnap = false
  base_lt : base < pr.nextIdx
  lt_next : pr.matchIdx < pr.nextIdx
  next_le : pr.nextIdx ≤ l.lastIndex + 1
  behind : pr.matchIdx < lead.lastIndex → pr.nextIdx ≤ lead.lastIndex

/-- An Append that a voter with log `l` accepts. -/
structure Offer (base : Nat) (lead l : RaftLog) (m : Msg) : Prop where
  base_le : base ≤ m.index
  index_le : m.index ≤ l.lastIndex
  logTerm : m.logTerm = logTermAt lead m.index
  slice : Slice lead m.index m.entries

/-- A message of the leader to one of its peers; `logs` are the logs of the voters. -/
structure Mail (T : Tenure) (logs : Nat → RaftLog) (lead : RaftLog) (m : Msg) : Prop where
  sender : m.sender = T.lead
  term : m.term = T.term
  dest : m.dest ∈ T.peers.map Peer.id
  ne : m.dest ≠ T.lead
  type : m.type = .heartbeat ∨ m.type = .app ∨ m.type = .snap ∧ T.Learner m.dest
  offer : m.type = .app → T.Voter m.dest → Offer T.base lead (logs m.dest) m

/-- The operation changes no table: it is no `MEMBER_ADD`, `MEMBER_REMOVE` or `MEMBER_PROMOTE`, and
no `BATCH`, which may hold one. -/
def Plain (data : List UInt8) : Prop :=
  data.head? ≠ some 5 ∧ data.head? ≠ some 6 ∧ data.head? ≠ some 7 ∧ data.head? ≠ some 3
  deriving Decidable

/-- A leader whose voters have beginnings of its log; `logs` are theirs. -/
structure Guide (T : Tenure) (logs : Nat → RaftLog) (r : Raft) : Prop where
  id : r.conf.id = T.lead
  role : r.role = .leader
  term : r.term = T.term
  peers : r.mem.peers = T.peers
  base : r.rlog.compacted ≤ T.base
  own_le : T.own ≤ r.rlog.lastIndex + 1
  own : ∀ i, T.own ≤ i → i ≤ r.rlog.lastIndex → logTermAt r.rlog i = T.term
  commit_le : r.commit ≤ r.rlog.lastIndex
  applied_le : r.applied ≤ r.commit
  base_le : T.base ≤ r.applied
  /-- No other change of the tables is waiting to be applied. -/
  tame : ∀ i e, r.applied < i → logAt r.rlog i = some e → Plain e.data
  notes : ∀ i v, T.peers[i]? = some ⟨v, false⟩ → v ≠ T.lead →
    Note T.base r.rlog (logs v) (r.progress.read i)
  follows : ∀ v, T.Voter v → v ≠ T.lead → Follows T.base r.rlog (logs v)
  mail : ∀ m ∈ r.pending.msgs, Mail T logs r.rlog m
  /-- A pending `LEAVE_JOINT` is in the log and not yet applied. -/
  leave : r.mem.outgoing ≠ [] → r.mem.leavePending = true →
    ∃ q, T.own ≤ q ∧ r.applied < q ∧ IsLeave r.rlog q

/-- A leader whose voters can commit for it. -/
structure Chief (T : Tenure) (logs : Nat → RaftLog) (r : Raft) : Prop extends Guide T logs r where
  quorate : T.Quorate r.mem.outgoing

/-- Every own entry that all voters are known to have is committed. -/
def Settled (T : Tenure) (r : Raft) : Prop :=
  ∀ θ, T.own ≤ θ → θ ≤ r.rlog.lastIndex →
    (∀ i v, T.peers[i]? = some ⟨v, false⟩ → v ≠ T.lead → θ ≤ (r.progress.read i).matchIdx) →
    θ ≤ r.commit

/-- What no call to the leader changes or takes back. -/
structure Retained (r r' : Raft) : Prop where
  conf : r'.conf = r.conf
  log : Extends r.rlog r'.rlog
  commit : r.commit ≤ r'.commit
  applied : r.applied ≤ r'.applied
  joint : r'.mem.outgoing = [] ∨
    r'.mem.outgoing = r.mem.outgoing ∧ r'.mem.jointIndex = r.mem.jointIndex
  /-- Applying `LEAVE_JOINT` ends the joint configuration. -/
  done : ∀ q, IsLeave r.rlog q → r.applied < q → q ≤ r'.applied → r'.mem.outgoing = []
  /-- Nothing else does. -/
  only : r.mem.outgoing ≠ [] → r'.mem.outgoing = [] →
    ∃ q, r.applied < q ∧ q ≤ r'.applied ∧ IsLeave r'.rlog q

/-- No acknowledged index changes, and the heartbeat timer does not. -/
structure Still (r r' : Raft) : Prop where
  acked : ∀ i, (r'.progress.read i).matchIdx = (r.progress.read i).matchIdx
  timer : r'.heartbeatElapsed = r.heartbeatElapsed

section

variable {r r' r'' : Raft}

lemma Retained.trans (h : Retained r r') (h' : Retained r' r'') : Retained r r'' where
  conf := h'.conf.trans h.conf
  log := h.log.trans h'.log
  commit := h.commit.trans h'.commit
  applied := h.applied.trans h'.applied
  joint := by
    obtain hnil | ⟨hout, hidx⟩ := h'.joint
    · exact .inl hnil
    rw [hout, hidx]
    exact h.joint
  done := by
    intro q hq hlt hle
    obtain hmid | hmid := lt_or_ge r'.applied q
    · exact h'.done q (hq.grow h.log) hmid hle
    have hnil := h.done q hq hlt hmid
    obtain h2 | ⟨h2, _⟩ := h'.joint
    · exact h2
    · exact h2.trans hnil
  only := by
    intro hjoint hleft
    by_cases hmid : r'.mem.outgoing = []
    · obtain ⟨q, hlt, hle, hq⟩ := h.only hjoint hmid
      exact ⟨q, hlt, hle.trans h'.applied, hq.grow h'.log⟩
    obtain ⟨q, hlt, hle, hq⟩ := h'.only hmid hleft
    exact ⟨q, h.applied.trans_lt hlt, hle, hq⟩

lemma kept_of_same (hconf : r'.conf = r.conf) (hlog : Extends r.rlog r'.rlog)
    (hcommit : r.commit ≤ r'.commit) (happlied : r'.applied = r.applied)
    (hout : r'.mem.outgoing = r.mem.outgoing) (hidx : r'.mem.jointIndex = r.mem.jointIndex) :
    Retained r r' where
  conf := hconf
  log := hlog
  commit := hcommit
  applied := happlied.ge
  joint := .inr ⟨hout, hidx⟩
  done q _ hlt hle := absurd hle (by omega)
  only hjoint hleft := absurd (hout.symm.trans hleft) hjoint

lemma kept_of_sends (h : Sends r r') : Retained r r' :=
  kept_of_same h.conf (h.rlog ▸ Extends.refl _) h.commit.ge h.applied (by rw [h.mem])
    (by rw [h.mem])

lemma Retained.refl (r : Raft) : Retained r r := kept_of_sends (Sends.refl r)

lemma Still.trans (h : Still r r') (h' : Still r' r'') : Still r r'' :=
  ⟨fun i => (h'.acked i).trans (h.acked i), h'.timer.trans h.timer⟩

end

section

variable {T : Tenure} {logs logs' : Nat → RaftLog} {lead lead' : RaftLog} {m : Msg}

lemma Mail.grow (h : Mail T logs lead m)
    (hlogs : ∀ v, T.Voter v → v ≠ T.lead → (logs v).lastIndex ≤ (logs' v).lastIndex)
    (hfollows : ∀ v, T.Voter v → v ≠ T.lead → Follows T.base lead (logs v))
    (hext : Extends lead lead') : Mail T logs' lead' m := by
  refine ⟨h.sender, h.term, h.dest, h.ne, h.type, fun htype hv => ?_⟩
  have hoffer := h.offer htype hv
  have hin := hoffer.index_le.trans (hfollows m.dest hv h.ne).last_le
  refine ⟨hoffer.base_le, hoffer.index_le.trans (hlogs m.dest hv h.ne), ?_, hoffer.slice.grow hext⟩
  rw [hoffer.logTerm, hext.logTermAt_eq hin]

end

section

variable {T : Tenure} {i j : Nat} {p p' : Peer}

lemma Tenure.slot_unique (hi : T.peers[i]? = some p) (hj : T.peers[j]? = some p')
    (hid : p.id = p'.id) : i = j := by
  have hlt := (List.getElem?_eq_some_iff.1 hi).1
  refine (List.getElem?_inj (by rwa [length_map]) T.nodup).1 ?_
  rw [getElem?_map, getElem?_map, hi, hj, map_some, map_some, hid]

lemma Tenure.peer_cases (T : Tenure) (p : Peer) :
    p.id = T.lead ∨ (∃ v, p = ⟨v, false⟩ ∧ v ≠ T.lead) ∨ ∃ v, p = ⟨v, true⟩ := by
  obtain ⟨v, learner⟩ := p
  cases learner with
  | true => exact .inr (.inr ⟨v, rfl⟩)
  | false =>
    by_cases hv : v = T.lead
    · exact .inl hv
    · exact .inr (.inl ⟨v, rfl, hv⟩)

lemma Tenure.not_voter_of_learner {v : Nat} (h : T.Learner v) : ¬ T.Voter v := by
  intro hv
  obtain ⟨i, hi⟩ := mem_iff_getElem?.1 h
  obtain ⟨j, hj⟩ := mem_iff_getElem?.1 hv
  have heq := T.slot_unique hi hj rfl
  rw [heq, hj] at hi
  cases hi

end

section

variable {T : Tenure} {logs : Nat → RaftLog} {r r' : Raft} {i : Nat}

namespace Chief

variable {v : Nat} {p : Peer}

lemma maybeSendSnap_self (hpeer : r.mem.peers[i]? = some p) (hid : p.id = r.conf.id) :
    maybeSendSnap r i = r ∧ maybeSendApp r i = r := by
  unfold maybeSendSnap maybeSendApp
  rw [hpeer]
  dsimp only
  rw [if_pos hid, if_pos hid]
  exact ⟨ite_self _, ite_self _⟩

lemma maybeSendApp_pending (hpeer : r.mem.peers[i]? = some p)
    (happ : (r.progress.read i).pendingApp) : Raft.maybeSendApp r i = r := by
  unfold Raft.maybeSendApp
  rw [hpeer]
  dsimp only
  rw [if_pos happ]
  simp only [ite_self]

lemma maybeSendApp_caught (hpeer : r.mem.peers[i]? = some p)
    (hkeeps : r.rlog.compacted < (r.progress.read i).nextIdx)
    (hend : r.rlog.lastIndex < (r.progress.read i).nextIdx) : Raft.maybeSendApp r i = r := by
  have hnext : (if (r.progress.read i).nextIdx = 0 then 1 else (r.progress.read i).nextIdx) =
      (r.progress.read i).nextIdx := if_neg (by omega)
  unfold Raft.maybeSendApp
  rw [hpeer]
  dsimp only
  rw [hnext, if_pos hend, if_neg (by omega : ¬ (0 < r.rlog.compacted ∧
    (r.progress.read i).nextIdx ≤ r.rlog.compacted))]
  simp only [ite_self]

variable (h : Chief T logs r)

include h

lemma of_sends (hs : Sends r r')
    (hnotes : ∀ i v, T.peers[i]? = some ⟨v, false⟩ → v ≠ T.lead →
      Note T.base r.rlog (logs v) (r'.progress.read i))
    (hmail : ∀ m ∈ r'.pending.msgs, Mail T logs r.rlog m) : Chief T logs r' where
  id := by rw [hs.conf]; exact h.id
  role := hs.role.trans h.role
  term := hs.term.trans h.term
  peers := by rw [hs.mem]; exact h.peers
  base := by rw [hs.rlog]; exact h.base
  own_le := by rw [hs.rlog]; exact h.own_le
  own := by rw [hs.rlog]; exact h.own
  commit_le := by rw [hs.rlog, hs.commit]; exact h.commit_le
  applied_le := by rw [hs.commit, hs.applied]; exact h.applied_le
  base_le := by rw [hs.applied]; exact h.base_le
  tame := by rw [hs.rlog, hs.applied]; exact h.tame
  notes := by rw [hs.rlog]; exact hnotes
  follows := by rw [hs.rlog]; exact h.follows
  mail := by rw [hs.rlog]; exact hmail
  quorate := by rw [hs.mem]; exact h.quorate
  leave := by rw [hs.mem, hs.rlog, hs.applied]; exact h.leave

lemma queueMsg {m : Msg} (hm : Mail T logs r.rlog m) :
    Chief T logs (queueMsg r m) := by
  refine h.of_sends (sends_queueMsg r m) h.notes fun m' hm' => ?_
  obtain hold | hnew := mem_append.1 hm'
  · exact h.mail m' hold
  rw [mem_singleton.1 hnew]
  exact hm

lemma note {pr : PeerProgress}
    (hpr : ∀ v, T.peers[i]? = some ⟨v, false⟩ → v ≠ T.lead → Note T.base r.rlog (logs v) pr) :
    Chief T logs { r with progress := r.progress.write i pr } := by
  refine ⟨⟨h.id, h.role, h.term, h.peers, h.base, h.own_le, h.own, h.commit_le, h.applied_le,
    h.base_le, h.tame,
    fun j v hj hv => ?_, h.follows, h.mail, h.leave⟩, h.quorate⟩
  dsimp only
  by_cases hji : j = i
  · subst hji
    rw [read_write_self]
    exact hpr v hj hv
  rw [read_write_of_ne _ _ hji]
  exact h.notes j v hj hv

lemma posts_learner (hpeer : T.peers[i]? = some ⟨v, true⟩)
    (hp : Posts r i r') : Chief T logs r' := by
  cases hp with
  | nothing => exact h
  | one peer m pr hpeer' ne type dest sender term acked =>
    rw [h.peers, hpeer] at hpeer'
    cases hpeer'
    have hlearn : T.Learner v := mem_of_getElem? hpeer
    have hm : Mail T logs r.rlog m :=
      { sender := sender.trans h.id
        term := term.trans h.term
        dest := by
          rw [dest]
          exact mem_map.2 ⟨_, hlearn, rfl⟩
        ne := by
          rw [dest, ← h.id]
          exact ne
        type := by
          rw [dest]
          exact .inr (type.imp_right fun hsnap => ⟨hsnap, hlearn⟩)
        offer := fun _ hv => by
          rw [dest] at hv
          exact absurd hv (T.not_voter_of_learner hlearn) }
    refine (h.queueMsg hm).note (i := i) fun w hw => ?_
    rw [hpeer] at hw
    cases hw

lemma maybeSendSnap_voter (hpeer : T.peers[i]? = some ⟨v, false⟩)
    (hv : v ≠ T.lead) : maybeSendSnap r i = r := by
  have hnote := h.notes i v hpeer hv
  have hlt := hnote.base_lt
  have hbase := h.base
  unfold maybeSendSnap
  rw [h.peers, hpeer]
  dsimp only
  split_ifs
  · rfl
  · rfl
  · rfl
  · rfl
  · rfl
  · omega

lemma maybeSendSnap (i : Nat) : Chief T logs (maybeSendSnap r i) := by
  cases hpeer : T.peers[i]? with
  | none =>
    unfold Raft.maybeSendSnap
    rw [h.peers, hpeer]
    exact h
  | some p =>
    obtain hself | ⟨v, rfl, hv⟩ | ⟨v, rfl⟩ := T.peer_cases p
    · rw [(maybeSendSnap_self (by rw [h.peers]; exact hpeer) (hself.trans h.id.symm)).1]
      exact h
    · rw [h.maybeSendSnap_voter hpeer hv]
      exact h
    · exact h.posts_learner hpeer (posts_maybeSendSnap r i)

lemma mail_appTo {q : Nat} (hpeer : T.peers[i]? = some ⟨v, false⟩)
    (hv : v ≠ T.lead) (hbase : T.base ≤ q) (hq : q < r.rlog.lastIndex)
    (hreach : q ≤ (logs v).lastIndex) : Mail T logs r.rlog (appTo r v q) := by
  have hkept : r.rlog.compacted ≤ q := h.base.trans hbase
  obtain ⟨_, hstop, hget⟩ := batch_spec hkept hq
  have hslice : Slice r.rlog q (batch r q) := by
    refine ⟨hstop, fun k hk => ?_⟩
    rw [(logAt_eq_some.1 (hget k hk)).2.2.2]
    exact ⟨rfl, rfl, rfl⟩
  exact
    { sender := h.id
      term := h.term
      dest := mem_map.2 ⟨_, mem_of_getElem? hpeer, rfl⟩
      ne := hv
      type := .inr (.inl rfl)
      offer := fun _ _ =>
        { base_le := hbase
          index_le := hreach
          logTerm := rfl
          slice := hslice } }

lemma maybeSendApp_voter (hpeer : T.peers[i]? = some ⟨v, false⟩)
    (hv : v ≠ T.lead) :
    Chief T logs (Raft.maybeSendApp r i) ∧
      ((r.progress.read i).pendingApp = false → (r.progress.read i).matchIdx < r.rlog.lastIndex →
        ∃ m ∈ (Raft.maybeSendApp r i).pending.msgs, m.type = .app ∧ m.dest = v ∧
          (r.progress.read i).matchIdx < m.index + m.entries.length) := by
  have hnote := h.notes i v hpeer hv
  have hpeer' : r.mem.peers[i]? = some ⟨v, false⟩ := by
    rw [h.peers]
    exact hpeer
  have hne : v ≠ r.conf.id := by
    rw [h.id]
    exact hv
  have hlt := hnote.base_lt
  have hbase := h.base
  by_cases happ : (r.progress.read i).pendingApp = true
  · rw [maybeSendApp_pending hpeer' happ]
    exact ⟨h, fun hno => absurd happ (by simp [hno])⟩
  rw [Bool.not_eq_true] at happ
  by_cases hend : r.rlog.lastIndex < (r.progress.read i).nextIdx
  · rw [maybeSendApp_caught hpeer' (by omega) hend]
    exact ⟨h, fun _ hbehind => absurd (hnote.behind hbehind) (by omega)⟩
  -- the Append that starts after the entry before `nextIdx`
  obtain ⟨q, hq⟩ := Nat.exists_eq_succ_of_ne_zero (show (r.progress.read i).nextIdx ≠ 0 by omega)
  have hprev : prevIndex (r.progress.read i) = q := by
    unfold prevIndex
    rw [if_neg (by omega), hq]
    rfl
  have hle := hnote.next_le
  rw [maybeSendApp_of_behind hpeer' (T.slots i v hpeer) hne hnote.noSnap happ hprev (by omega)
    (by omega)]
  refine ⟨(h.queueMsg (h.mail_appTo hpeer hv (by omega) (by omega) (by omega))).note (i := i)
    fun w hw _ => ?_, fun _ _ => ?_⟩
  · rw [hpeer] at hw
    cases hw
    exact ⟨hnote.noSnap, hnote.base_lt, hnote.lt_next, hnote.next_le, hnote.behind⟩
  refine ⟨appTo r v q, mem_append_right _ (mem_singleton.2 rfl), rfl, rfl, ?_⟩
  have hpos := (batch_spec (show r.rlog.compacted ≤ q by omega) (by omega)).1
  have hm := hnote.lt_next
  change _ < q + (batch r q).length
  omega

lemma maybeSendApp (i : Nat) : Chief T logs (maybeSendApp r i) := by
  cases hpeer : T.peers[i]? with
  | none =>
    unfold Raft.maybeSendApp
    rw [h.peers, hpeer]
    exact h
  | some p =>
    obtain hself | ⟨v, rfl, hv⟩ | ⟨v, rfl⟩ := T.peer_cases p
    · rw [(maybeSendSnap_self (by rw [h.peers]; exact hpeer) (hself.trans h.id.symm)).2]
      exact h
    · exact (h.maybeSendApp_voter hpeer hv).1
    · exact h.posts_learner hpeer (posts_maybeSendApp r i)

end Chief

/-! ### Beats -/

/-- What a beat sends to a voter: a heartbeat, and an Append if it may miss something. -/
structure Beaten (r : Raft) (i v : Nat) (msgs : List Msg) : Prop where
  beat : heartbeatTo r v ∈ msgs
  app : (r.progress.read i).matchIdx < r.rlog.lastIndex → ∃ m ∈ msgs, m.type = .app ∧ m.dest = v ∧
    (r.progress.read i).matchIdx < m.index + m.entries.length

lemma Beaten.of_sends {v : Nat} {r1 r2 : Raft} (hs : Sends r r1)
    (hs2 : Sends (Raft.beatPeer r1 i) r2) (h : Beaten r1 i v (Raft.beatPeer r1 i).pending.msgs) :
    Beaten r i v r2.pending.msgs := by
  have hbeat : heartbeatTo r1 v = heartbeatTo r v := by
    unfold heartbeatTo
    rw [hs.conf, hs.term, hs.commit]
  refine ⟨hs2.out _ (hbeat ▸ h.beat), fun hbehind => ?_⟩
  rw [← hs.acked i, ← hs.rlog] at hbehind
  obtain ⟨m, hm, htype, hdest, hlt⟩ := h.app hbehind
  rw [hs.acked i] at hlt
  exact ⟨m, hs2.out m hm, htype, hdest, hlt⟩

namespace Chief

variable (h : Chief T logs r)

include h

lemma beatPeer (i : Nat) :
    Chief T logs (beatPeer r i) ∧ ∀ v, T.peers[i]? = some ⟨v, false⟩ → v ≠ T.lead →
      Beaten r i v (beatPeer r i).pending.msgs := by
  unfold Raft.beatPeer
  rw [h.peers]
  cases hpeer : T.peers[i]? with
  | none => exact ⟨h, fun v hv => by cases hv⟩
  | some p =>
    dsimp only
    rw [h.id]
    by_cases hself : p.id = T.lead
    · rw [if_pos hself]
      refine ⟨h, fun v hv hne => ?_⟩
      cases hv
      exact absurd hself hne
    rw [if_neg hself]
    have hbeat : Mail T logs r.rlog (heartbeatTo r p.id) :=
      { sender := h.id
        term := h.term
        dest := mem_map.2 ⟨p, mem_of_getElem? hpeer, rfl⟩
        ne := hself
        type := .inl rfl
        offer := fun htype => by cases htype }
    -- the heartbeat is queued and the note on the last Append forgotten
    generalize hr1 : ({ Raft.queueMsg r (heartbeatTo r p.id) with
      progress := (Raft.queueMsg r (heartbeatTo r p.id)).progress.write i
        { (Raft.queueMsg r (heartbeatTo r p.id)).progress.read i with pendingApp := false } } :
          Raft) = r1
    have h1 : Chief T logs r1 := by
      rw [← hr1]
      refine (h.queueMsg hbeat).note (i := i) fun v hv hne => ?_
      have hnote := h.notes i v hv hne
      exact ⟨hnote.noSnap, hnote.base_lt, hnote.lt_next, hnote.next_le, hnote.behind⟩
    refine ⟨(h1.maybeSendSnap i).maybeSendApp i, fun v hv hne => ?_⟩
    cases hv
    have hread : r1.progress.read i = { r.progress.read i with pendingApp := false } := by
      rw [← hr1]
      exact read_write_self _ _ _
    have hlog : r1.rlog = r.rlog := by
      rw [← hr1]
      rfl
    have hmem : heartbeatTo r v ∈ r1.pending.msgs := by
      rw [← hr1]
      exact mem_append_right _ (mem_singleton.2 rfl)
    rw [h1.maybeSendSnap_voter hpeer hne]
    refine ⟨(sends_maybeSendApp r1 i).out _ hmem, fun hbehind => ?_⟩
    have hsent := (h1.maybeSendApp_voter hpeer hne).2
    rw [hread, hlog] at hsent
    exact hsent rfl hbehind

lemma foldl_beatPeer (is : List Nat) :
    Chief T logs (is.foldl Raft.beatPeer r) := by
  induction is generalizing r with
  | nil => exact h
  | cons i is ih => exact ih (h.beatPeer i).1

lemma stepBeat : Chief T logs (stepBeat r) ∧ Sends r (stepBeat r) ∧
      ∀ i v, T.peers[i]? = some ⟨v, false⟩ → v ≠ T.lead →
        Beaten r i v (stepBeat r).pending.msgs := by
  unfold Raft.stepBeat
  rw [if_neg (not_not.2 h.role)]
  refine ⟨h.foldl_beatPeer _, Sends.foldl (fun acc i => sends_beatPeer acc i) _ r,
    fun i v hpeer hv => ?_⟩
  have hin : i ∈ List.range (min r.mem.peers.length maxPeers) := by
    rw [mem_range, h.peers]
    exact lt_min (List.getElem?_eq_some_iff.1 hpeer).1 (T.slots i v hpeer)
  obtain ⟨before, after, hsplit⟩ := append_of_mem hin
  rw [hsplit, foldl_append, foldl_cons]
  exact Beaten.of_sends (Sends.foldl (fun acc i => sends_beatPeer acc i) before r)
    (Sends.foldl (fun acc i => sends_beatPeer acc i) after _)
    (((h.foldl_beatPeer before).beatPeer i).2 v hpeer hv)

lemma timers (e b : Nat) :
    Chief T logs { r with elapsedTicks := e, heartbeatElapsed := b } :=
  ⟨⟨h.id, h.role, h.term, h.peers, h.base, h.own_le, h.own, h.commit_le, h.applied_le,
    h.base_le, h.tame,
    h.notes, h.follows, h.mail, h.leave⟩, h.quorate⟩

/-! ### The commit index -/

variable {v : Nat} {data : Bytes}

lemma peerSlot_voter (hpeer : T.peers[i]? = some ⟨v, false⟩) : peerSlot r v = some i := by
  have hlt := (List.getElem?_eq_some_iff.1 hpeer).1
  have hmax := T.slots i v hpeer
  unfold peerSlot
  rw [h.peers, findIdx?_eq_some_iff_getElem]
  refine ⟨by rw [length_take]; omega, ?_, fun j hj => ?_⟩
  · rw [getElem_take, (List.getElem?_eq_some_iff.1 hpeer).2]
    exact beq_self_eq_true v
  rw [getElem_take]
  intro heq
  have hat : T.peers[j]? = some T.peers[j] := getElem?_eq_getElem (by omega)
  have := T.slot_unique hat hpeer (by simpa using heq)
  omega

lemma matchOf_voter (hpeer : T.peers[i]? = some ⟨v, false⟩) (hv : v ≠ T.lead) :
    matchOf r v = (r.progress.read i).matchIdx := by
  unfold matchOf
  rw [h.id, if_neg hv, h.peerSlot_voter hpeer]

lemma incoming_eq : incoming r = voters r := by
  rw [incoming_eq_take, take_of_length_le]
  -- the voters are among the first sixteen peers
  have hsub : voters r ⊆ (r.mem.peers.take maxPeers).map Peer.id := by
    intro v hv
    obtain ⟨p, hp, rfl⟩ := mem_map.1 hv
    obtain ⟨hmem, hlearn⟩ := mem_filter.1 hp
    rw [h.peers] at hmem ⊢
    obtain ⟨j, hj⟩ := mem_iff_getElem?.1 hmem
    have hp' : p = ⟨p.id, false⟩ := by
      cases p
      simpa using hlearn
    refine mem_map.2 ⟨p, mem_iff_getElem?.2 ⟨j, ?_⟩, rfl⟩
    rw [getElem?_take_of_lt (T.slots j p.id (hp' ▸ hj))]
    exact hj
  have hnodup : (voters r).Nodup := by
    refine List.Nodup.sublist ?_ T.nodup
    rw [← h.peers]
    exact filter_sublist.map Peer.id
  refine (hnodup.subperm hsub).length_le.trans ?_
  rw [length_map, length_take]
  exact min_le_left _ _

lemma mem_voters_iff : v ∈ voters r ↔ T.Voter v := by
  unfold voters Tenure.Voter
  rw [h.peers]
  constructor
  · intro hv
    obtain ⟨⟨w, learner⟩, hp, rfl⟩ := mem_map.1 hv
    obtain ⟨hmem, hlearn⟩ := mem_filter.1 hp
    have : learner = false := by simpa using hlearn
    exact this ▸ hmem
  intro hv
  exact mem_map.2 ⟨_, mem_filter.2 ⟨hv, rfl⟩, rfl⟩

lemma le_matchOf {θ : Nat} (hlast : θ ≤ r.rlog.lastIndex)
    (hall : ∀ i v, T.peers[i]? = some ⟨v, false⟩ → v ≠ T.lead → θ ≤ (r.progress.read i).matchIdx)
    (hv : T.Voter v) : θ ≤ matchOf r v := by
  by_cases hlead : v = T.lead
  · unfold matchOf
    rw [h.id, if_pos hlead]
    exact hlast
  obtain ⟨i, hi⟩ := mem_iff_getElem?.1 hv
  rw [h.matchOf_voter hi hlead]
  exact hall i v hi hlead

lemma matchOf_le (hv : T.Voter v) : matchOf r v ≤ r.rlog.lastIndex := by
  by_cases hlead : v = T.lead
  · unfold matchOf
    rw [h.id, if_pos hlead]
  obtain ⟨i, hi⟩ := mem_iff_getElem?.1 hv
  have hnote := h.notes i v hi hlead
  have h1 := hnote.lt_next
  have h2 := hnote.next_le
  have h3 := (h.follows v hv hlead).last_le
  rw [h.matchOf_voter hi hlead]
  omega

lemma maybeAdvanceCommit :
    Chief T logs (maybeAdvanceCommit r) ∧ Settled T (maybeAdvanceCommit r) := by
  obtain ⟨commit, hge, hs⟩ := sends_maybeAdvanceCommit r
  obtain ⟨_, _, _, _, hlog, hprog, hmsgs⟩ := maybeAdvanceCommit_frame r
  have hle : commit ≤ r.rlog.lastIndex := by
    by_cases hsame : (Raft.maybeAdvanceCommit r).commit = r.commit
    · exact (hs.commit.symm.trans hsame).trans_le h.commit_le
    have hmaj := (majorities_of_advance hsame).1
    obtain ⟨v, hv, hmatch, _⟩ := hmaj.inter hmaj
    rw [h.incoming_eq] at hv
    exact (hs.commit.ge.trans hmatch).trans (h.matchOf_le (h.mem_voters_iff.1 hv))
  have hcommit : Chief T logs { r with commit := commit } :=
    ⟨⟨h.id, h.role, h.term, h.peers, h.base, h.own_le, h.own, hle, h.applied_le.trans hge, h.base_le,
      h.tame, h.notes, h.follows, h.mail, h.leave⟩, h.quorate⟩
  refine ⟨hcommit.of_sends hs ?_ ?_, fun θ hown hlast hall => ?_⟩
  · rw [hprog]
    exact h.notes
  · rw [hmsgs]
    exact h.mail
  rw [hlog] at hlast
  rw [hprog] at hall
  have hreach : ∀ v, T.Voter v → θ ≤ matchOf r v := fun v hv => h.le_matchOf hlast hall hv
  have hne : incoming r ≠ [] := by
    rw [h.incoming_eq]
    exact ne_nil_of_mem (h.mem_voters_iff.2 T.leads)
  refine le_commit_maybeAdvanceCommit h.role hne (le_majorityMatchIds r incoming_length_le ?_)
    (fun hjoint => ?_) (fun i hi hle => ?_)
  · -- all incoming voters have reached it
    have hcount : (incoming r).countP (fun x => decide (θ ≤ matchOf r x)) = (incoming r).length := by
      rw [countP_eq_length]
      intro v hv
      rw [h.incoming_eq] at hv
      exact decide_eq_true (hreach v (h.mem_voters_iff.1 hv))
    have hpos := length_pos_iff.2 hne
    rw [hcount]
    unfold quorum
    omega
  · obtain hnil | ⟨hlen, hq⟩ := h.quorate
    · exact absurd hnil hjoint
    refine le_majorityMatchIds r hlen (hq.trans (countP_mono_left fun v _ hv => ?_))
    exact decide_eq_true (hreach v (by simpa using hv))
  -- the result is the match index of some voter, so it lies in the log
  have hmaj := majority_majorityMatchIds r hne incoming_length_le
  obtain ⟨v, hv, hmatch, _⟩ := hmaj.inter hmaj
  rw [h.incoming_eq] at hv
  have hlog := h.matchOf_le (h.mem_voters_iff.1 hv)
  rw [h.term]
  exact h.own i (hown.trans hi) (hle.trans (hmatch.trans hlog))

/-! ### Proposals and acknowledgements -/

lemma offerToPeers : Chief T logs (offerToPeers r) := by
  unfold Raft.offerToPeers
  refine foldlRecOn (motive := Chief T logs) _ _ h fun acc hacc i _ => ?_
  split
  · exact hacc
  split_ifs
  · exact hacc
  · exact hacc
  · exact hacc.maybeSendApp i

lemma append (hdata : Plain data) :
    Chief T logs { r with rlog := proposedLog r .normal data } := by
  have hext := extends_proposedLog r data
  have hlast : (proposedLog r .normal data).lastIndex = r.rlog.lastIndex + 1 :=
    proposedLog_lastIndex
  have hbase := h.base
  have hown := h.own_le
  have hlt := T.base_lt
  have hnew : logAt (proposedLog r .normal data) (r.rlog.lastIndex + 1) = _ :=
    logAt_proposedLog_new (by omega)
  refine ⟨⟨h.id, h.role, h.term, h.peers, hext.compacted.trans_le h.base, ?_, ?_,
    h.commit_le.trans hext.last, h.applied_le, h.base_le, ?_, ?_, ?_, ?_, ?_⟩, h.quorate⟩
  · dsimp only
    omega
  · intro i hi hin
    dsimp only at hin ⊢
    obtain hend | hold := lt_or_ge r.rlog.lastIndex i
    · have hi' : i = r.rlog.lastIndex + 1 := by omega
      subst hi'
      unfold logTermAt
      rw [if_neg (Nat.succ_ne_zero _), hnew]
      exact h.term
    rw [hext.logTermAt_eq hold]
    exact h.own i hi hold
  · intro i e hi he
    dsimp only at he
    obtain hend | hold := lt_or_ge r.rlog.lastIndex i
    · have hi' : i = r.rlog.lastIndex + 1 := by
        have := (logAt_eq_some.1 he).2.1
        omega
      subst hi'
      rw [hnew] at he
      cases he
      exact hdata
    rw [hext.logAt_eq hold] at he
    exact h.tame i e hi he
  · intro i v hi hv
    have hnote := h.notes i v hi hv
    have hle := (h.follows v (mem_of_getElem? hi) hv).last_le
    have hnext := hnote.next_le
    refine ⟨hnote.noSnap, hnote.base_lt, hnote.lt_next, hnote.next_le, fun _ => ?_⟩
    dsimp only
    omega
  · exact fun v hv hne => (h.follows v hv hne).grow hext
  · exact fun m hm => (h.mail m hm).grow (fun _ _ _ => le_rfl) h.follows hext
  intro hjoint hpending
  obtain ⟨q, hq, happlied, hleave⟩ := h.leave hjoint hpending
  exact ⟨q, hq, happlied, hleave.grow hext⟩

lemma proposeEntry (hdata : Plain data) :
    Chief T logs (proposeEntry r .normal data) ∧ Settled T (proposeEntry r .normal data) := by
  have happ := h.append hdata
  have hstored : Chief T logs
      (queueStored { r with rlog := proposedLog r .normal data } (r.rlog.lastIndex + 1)) := by
    refine happ.of_sends (sends_queueStored _ _) ?_ ?_
    · unfold queueStored
      split
      all_goals exact happ.notes
    unfold queueStored
    split
    all_goals exact happ.mail
  have hqueued := hstored.of_sends (sends_queueHardState _) hstored.notes hstored.mail
  exact hqueued.offerToPeers.maybeAdvanceCommit

end Chief

lemma Settled.of_same (h : Settled T r) (hlog : r'.rlog = r.rlog) (hcommit : r'.commit = r.commit)
    (hacked : ∀ i, (r'.progress.read i).matchIdx = (r.progress.read i).matchIdx) :
    Settled T r' := by
  intro θ hown hlast hall
  rw [hlog] at hlast
  rw [hcommit]
  exact h θ hown hlast fun i v hi hv => (hall i v hi hv).trans_eq (hacked i)

lemma Settled.of_sends (h : Settled T r) (hs : Sends r r') : Settled T r' :=
  h.of_same hs.rlog hs.commit hs.acked

lemma read_write_learner {x v : Nat} (hpeer : T.peers[i]? = some ⟨x, true⟩) (pr : PeerProgress)
    {j : Nat} (hj : T.peers[j]? = some ⟨v, false⟩) :
    (r.progress.write i pr).read j = r.progress.read j := by
  rw [read_write_of_ne]
  rintro rfl
  rw [hpeer] at hj
  cases hj

/-- The leader after a call that sets nothing back. -/
structure Tended (T : Tenure) (logs : Nat → RaftLog) (r r' : Raft) : Prop where
  chief : Chief T logs r'
  settled : Settled T r'
  kept : Retained r r'
  timer : r'.heartbeatElapsed = r.heartbeatElapsed

lemma Tended.of_sends {r0 : Raft} (h : Tended T logs r0 r) (hchief : Chief T logs r')
    (hs : Sends r r') : Tended T logs r0 r' where
  chief := hchief
  settled := h.settled.of_sends hs
  kept := h.kept.trans (kept_of_sends hs)
  timer := hs.timer.trans h.timer

lemma Tended.of_note (pr : PeerProgress)
    (h : Chief T logs { r with progress := r.progress.write i pr }) :
    Tended T logs r (maybeAdvanceCommit { r with progress := r.progress.write i pr }) ∧
      (maybeAdvanceCommit { r with progress := r.progress.write i pr }).progress =
        r.progress.write i pr := by
  rcases sends_maybeAdvanceCommit { r with progress := r.progress.write i pr } with
    ⟨commit, hle, hs⟩
  rcases maybeAdvanceCommit_frame { r with progress := r.progress.write i pr } with
    ⟨_, _, _, _, _, hprog, _⟩
  refine ⟨⟨h.maybeAdvanceCommit.1, h.maybeAdvanceCommit.2, ?_, hs.timer⟩, hprog⟩
  have hmid : Retained r { r with progress := r.progress.write i pr, commit := commit } :=
    kept_of_same rfl (Extends.refl _) hle rfl rfl rfl
  exact hmid.trans (kept_of_sends hs)

/-! ### Answers -/

/-- An answer of a voter: it accepts, at an index that its log has. -/
structure Ack (T : Tenure) (logs : Nat → RaftLog) (m : Msg) : Prop where
  type : m.type = .appResp
  voter : T.Voter m.sender
  ne : m.sender ≠ T.lead
  reject : m.reject = 0
  base_le : T.base ≤ m.index
  index_le : m.index ≤ (logs m.sender).lastIndex

/-- An answer to the leader; a learner may answer anything. -/
structure Answer (T : Tenure) (logs : Nat → RaftLog) (m : Msg) : Prop where
  dest : m.dest = T.lead
  term : m.term ≤ T.term
  kind : m.type = .heartbeatResp ∨ Ack T logs m ∨
    (m.type = .appResp ∨ m.type = .snapStatus) ∧ T.Learner m.sender

namespace Chief

lemma step_appResp {m : Msg} (htype : m.type = .appResp) :
    (cetcdRaftStep r m).2 = handleAppResp r m := by
  unfold cetcdRaftStep
  rw [htype]

variable {m : Msg} {slot : Nat} (h : Chief T logs r)

include h

lemma hear_ack (hm : Ack T logs m) (hterm : m.term ≤ T.term)
    (hpeer : T.peers[i]? = some ⟨m.sender, false⟩) :
    Tended T logs r (cetcdRaftStep r m).2 ∧ ∀ j, ((cetcdRaftStep r m).2.progress.read j).matchIdx =
        if j = i then m.index else (r.progress.read j).matchIdx := by
  have hnote := h.notes i m.sender hpeer hm.ne
  rw [step_appResp hm.type]
  unfold handleAppResp
  rw [if_neg (not_not.2 h.role), if_neg (by rw [h.term]; omega), h.peerSlot_voter hpeer]
  dsimp only
  rw [if_pos hm.reject]
  have hack : Chief T logs { r with
      progress := r.progress.write i (ackProgress (r.progress.read i) m.index) } := by
    refine h.note fun v hv _ => ?_
    rw [hpeer] at hv
    cases hv
    have h1 := hm.base_le
    have h2 := hm.index_le
    exact ⟨hnote.noSnap, by change T.base < m.index + 1; omega, Nat.lt_succ_self _,
      by change m.index + 1 ≤ _; omega, fun hlt => hlt⟩
  obtain ⟨hadv, hprog⟩ := Tended.of_note _ hack
  refine ⟨hadv.of_sends (hadv.chief.maybeSendApp i) (sends_maybeSendApp _ i), fun j => ?_⟩
  rw [(sends_maybeSendApp _ i).acked j, hprog]
  by_cases hji : j = i
  · rw [hji, read_write_self, if_pos rfl]
    rfl
  · rw [read_write_of_ne _ _ hji, if_neg hji]

lemma peerSlot_learner (hlearn : T.Learner m.sender)
    (hs : peerSlot r m.sender = some slot) : T.peers[slot]? = some ⟨m.sender, true⟩ := by
  obtain ⟨_, p, hp, hid⟩ := peerSlot_eq_some hs
  rw [h.peers] at hp
  obtain ⟨j, hj⟩ := mem_iff_getElem?.1 hlearn
  rw [T.slot_unique hp hj hid]
  exact hj

lemma note_learner (hset : Settled T r) {x : Nat}
    (hpeer : T.peers[slot]? = some ⟨x, true⟩) (pr : PeerProgress) :
    Tended T logs r { r with progress := r.progress.write slot pr } := by
  refine ⟨h.note fun v hv => ?_, fun θ hown hlast hall => ?_,
    kept_of_same rfl (Extends.refl _) le_rfl rfl rfl rfl, rfl⟩
  · rw [hpeer] at hv
    cases hv
  refine hset θ hown hlast fun j v hj hv => (hall j v hj hv).trans_eq ?_
  exact congrArg PeerProgress.matchIdx (read_write_learner hpeer pr hj)

lemma count_learner (hset : Settled T r) {x : Nat}
    (hpeer : T.peers[slot]? = some ⟨x, true⟩) (pr : PeerProgress) :
    Tended T logs r (Raft.maybeSendApp
      (Raft.maybeAdvanceCommit { r with progress := r.progress.write slot pr }) slot) ∧
    ∀ j v, T.peers[j]? = some ⟨v, false⟩ → ((Raft.maybeSendApp (Raft.maybeAdvanceCommit
        { r with progress := r.progress.write slot pr }) slot).progress.read j).matchIdx =
          (r.progress.read j).matchIdx := by
  obtain ⟨hadv, hprog⟩ := Tended.of_note pr (h.note_learner hset hpeer pr).chief
  refine ⟨hadv.of_sends (hadv.chief.maybeSendApp slot) (sends_maybeSendApp _ slot),
    fun j v hj => ?_⟩
  rw [(sends_maybeSendApp _ slot).acked j, hprog, read_write_learner hpeer pr hj]

lemma hear_learner (hset : Settled T r)
    (htype : m.type = .appResp ∨ m.type = .snapStatus) (hlearn : T.Learner m.sender)
    (hterm : m.term ≤ T.term) :
    Tended T logs r (cetcdRaftStep r m).2 ∧
      ∀ j v, T.peers[j]? = some ⟨v, false⟩ → ((cetcdRaftStep r m).2.progress.read j).matchIdx =
        (r.progress.read j).matchIdx := by
  have hself : Tended T logs r r := ⟨h, hset, Retained.refl r, rfl⟩
  obtain htype | htype := htype
  · rw [step_appResp htype]
    unfold handleAppResp
    rw [if_neg (not_not.2 h.role), if_neg (by rw [h.term]; omega)]
    cases hs : peerSlot r m.sender with
    | none => exact ⟨hself, fun _ _ _ => rfl⟩
    | some slot =>
      have hpeer := h.peerSlot_learner hlearn hs
      dsimp only
      split
      · exact h.count_learner hset hpeer _
      -- a refusal: the learner is offered a snapshot or an earlier Append
      have hw := h.note_learner hset hpeer (rejectProgress (r.progress.read slot) m.index)
      have hsnap := hw.of_sends (hw.chief.maybeSendSnap slot) (sends_maybeSendSnap _ slot)
      refine ⟨hsnap.of_sends (hsnap.chief.maybeSendApp slot) (sends_maybeSendApp _ slot),
        fun j v hj => ?_⟩
      rw [(sends_maybeSendApp _ slot).acked j, (sends_maybeSendSnap _ slot).acked j]
      exact congrArg PeerProgress.matchIdx (read_write_learner hpeer _ hj)
  have hstep : (cetcdRaftStep r m).2 = handleSnapStatus r m := by
    unfold cetcdRaftStep
    rw [htype]
  rw [hstep]
  unfold handleSnapStatus
  rw [if_neg (not_not.2 h.role)]
  cases hs : peerSlot r m.sender with
  | none => exact ⟨hself, fun _ _ _ => rfl⟩
  | some slot =>
    have hpeer := h.peerSlot_learner hlearn hs
    dsimp only
    split
    · exact h.count_learner hset hpeer _
    exact ⟨h.note_learner hset hpeer _,
      fun j v hj => congrArg PeerProgress.matchIdx (read_write_learner hpeer _ hj)⟩

end Chief

end

end Cetcd.Member
