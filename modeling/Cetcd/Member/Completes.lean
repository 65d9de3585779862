import Cetcd.Member.Fleet
import Cetcd.Net.Elect

/-!
# A removal completes

In a run in which the leader ticks for ever and every message is delivered, the leader gets to know
that the voters have its log (`Served.acked`), what it appends is committed (`Served.commits`), it
proposes `LEAVE_JOINT`, and every voter applies it. For one voter the argument goes up the log index
by index: the beats bring the next entry, responses that name an earlier index die out, and the
response to one more Append is the last word.
-/

namespace Cetcd.Member

open Lib Raft Protocol Apply Server Repair List

/-! ## Runs -/

structure Served (T : Tenure) (run : ℕ → Net) (act : ℕ → Event) : Prop where
  step : ∀ k, run (k + 1) = after T.lead (run k) (act k)
  allowed : ∀ k, Allowed T (run k) (act k)
  ticks : ∀ k, ∃ n, k ≤ n ∧ act n = .tick T.lead
  delivered : ∀ k, ∀ m ∈ (run k).flight, ∃ n, k ≤ n ∧ act n = .deliver m

/-- The leader is out of the joint configuration, and every voter has applied `LEAVE_JOINT` at `q`.
-/
structure Completed (T : Tenure) (q : Nat) (c : Net) : Prop where
  left : (c.node T.lead).mem.outgoing = []
  applied : ∀ v, T.Voter v → IsLeave (c.node v).rlog q ∧ q ≤ (c.node v).applied

section

variable {T : Tenure} {run : ℕ → Net} {act : ℕ → Event}

section

variable (h : Served T run act) (h0 : Steady T (run 0))

include h h0

lemma Served.steady (k : ℕ) : Steady T (run k) := by
  induction k with
  | zero => exact h0
  | succ k ih =>
    rw [h.step k]
    exact (ih.after (h.allowed k)).steady

lemma Served.happened (k : ℕ) : Happened T (run k) (act k) (run (k + 1)) := by
  rw [h.step k]
  exact (h.steady h0 k).after (h.allowed k)

lemma Served.goes {j k : ℕ} (hjk : j ≤ k) : Goes T (run j) (run k) := by
  induction k, hjk using Nat.le_induction with
  | base => exact Goes.refl T _
  | succ k _ ih => exact ih.trans (h.happened h0 k).goes

lemma Served.exists_beat (k₀ : ℕ) :
    ∃ n, k₀ ≤ n ∧ act n = .tick T.lead ∧ Net.Beats ((run n).node T.lead) := by
  have hconf : ∀ k, ((run k).node T.lead).conf = ((run 0).node T.lead).conf := fun k =>
    (h.goes h0 (Nat.zero_le k)).kept.conf
  exact Net.exists_beat h.ticks (fun k => (h.steady h0 k).guide.role) hconf
    (fun k => (h.happened h0 k).aged) (fun k => (h.happened h0 k).timer) k₀

end

end

/-! ## One voter -/

section

variable {T : Tenure} {run : ℕ → Net} {act : ℕ → Event} {i v : Nat}
  (h : Served T run act) (h0 : Steady T (run 0)) (hi : T.peers[i]? = some ⟨v, false⟩)
  (hv : v ≠ T.lead) {k₀ θ : ℕ}

/-- What the leader knows the voter with slot `i` to have. -/
def matchAt (T : Tenure) (run : ℕ → Net) (i k : ℕ) : ℕ :=
  (((run k).node T.lead).progress.read i).matchIdx

include h h0 hi hv

lemma matchAt_le (k : ℕ) : matchAt T run i k ≤ (logsOf (run k) v).lastIndex := by
  have hnote := (h.steady h0 k).guide.notes i v hi hv
  have h1 := hnote.lt_next
  have h2 := hnote.next_le
  unfold matchAt
  omega

lemma exists_stored (k₀ : ℕ) :
    ∃ b, k₀ ≤ b ∧ (((run b).node T.lead).rlog.lastIndex ≤ matchAt T run i b ∨
      ∃ n, b ≤ n ∧ matchAt T run i b < (logsOf (run (n + 1)) v).lastIndex ∧
        ∃ a ∈ (run (n + 1)).flight, IsAck v a ∧ a.index = (logsOf (run (n + 1)) v).lastIndex) := by
  have hvoter : T.Voter v := mem_of_getElem? hi
  obtain ⟨b, hkb, hact, hbeat⟩ := h.exists_beat h0 k₀
  refine ⟨b, hkb, ?_⟩
  by_cases hbehind : matchAt T run i b < ((run b).node T.lead).rlog.lastIndex
  · right
    rcases ((h.happened h0 b).beaten hact hbeat i v hi hv).app hbehind with
      ⟨m, hm, htype, hdest, hlt⟩
    obtain ⟨n, hbn, hdel⟩ := h.delivered (b + 1) m hm
    obtain ⟨hend, a, ha, hack⟩ := (h.happened h0 n).stored m hdel htype (hdest ▸ hvoter)
    rw [hdest] at hend hack
    exact ⟨n, by omega, hlt.trans_le hend, a, ha, hack⟩
  · exact .inl (not_lt.1 hbehind)

lemma eventually_stored (hlast : θ < ((run k₀).node T.lead).rlog.lastIndex)
    (hknown : ∀ k, k₀ ≤ k → θ ≤ matchAt T run i k) :
    ∃ n, k₀ ≤ n ∧ ∀ k, n ≤ k → θ + 1 ≤ (logsOf (run k) v).lastIndex := by
  have hvoter : T.Voter v := mem_of_getElem? hi
  have hone : ∃ n, k₀ ≤ n ∧ θ + 1 ≤ (logsOf (run n) v).lastIndex := by
    obtain ⟨b, hkb, hend | ⟨n, hbn, hlt, _⟩⟩ := exists_stored h h0 hi hv k₀
    · have hle := matchAt_le h h0 hi hv b
      have hgrow := (h.goes h0 hkb).kept.log.last
      exact ⟨b, hkb, by omega⟩
    have := hknown b hkb
    exact ⟨n + 1, by omega, by omega⟩
  obtain ⟨n, hkn, hn⟩ := hone
  exact ⟨n, hkn, fun k hk => hn.trans ((h.goes h0 hk).last v hvoter hv)⟩

lemma eventually_fresh (hlog : ∀ k, k₀ ≤ k → θ ≤ (logsOf (run k) v).lastIndex) :
    ∃ n, k₀ ≤ n ∧ ∀ k, n ≤ k → ∀ m ∈ (run k).flight, IsAck v m → θ ≤ m.index := by
  have hvoter : T.Voter v := mem_of_getElem? hi
  let stale : Msg → Bool := fun m => decide (IsAck v m ∧ m.index < θ)
  -- no new ones arise
  have hcount : ∀ k, k₀ ≤ k →
      (run (k + 1)).flight.countP stale = (left (run k) (act k)).countP stale := by
    intro k hk
    obtain ⟨new, hflight, hnew⟩ := (h.happened h0 k).sent
    rw [hflight, countP_append, Nat.add_eq_left, countP_eq_zero]
    intro a ha hstale
    obtain ⟨hack, hlt⟩ := of_decide_eq_true hstale
    have hindex := hnew a ha v hvoter hv hack
    have := hlog (k + 1) (by omega)
    omega
  have hzero := eventually_zero_of_recurring_drop (fun k => (run k).flight.countP stale)
    k₀ (fun k hk => ?_) (fun k hk hpos => ?_)
  · obtain ⟨n, hkn, hn⟩ := hzero
    refine ⟨n, hkn, fun k hk m hm hack => ?_⟩
    by_contra hlt
    exact countP_eq_zero.1 (hn k hk) m hm (decide_eq_true ⟨hack, Nat.lt_of_not_le hlt⟩)
  · rw [hcount k hk]
    unfold left
    split
    · exact List.Sublist.countP_le (erase_sublist)
    · exact le_rfl
  -- one of them is delivered
  obtain ⟨m, hm, hstale⟩ := countP_pos_iff.1 (pos_of_ne_zero hpos)
  obtain ⟨n, hkn, hact⟩ := h.delivered k m hm
  refine ⟨n, hkn, ?_⟩
  have hin : m ∈ (run n).flight := by
    have := h.allowed n
    rw [hact] at this
    exact this
  have hpos' : 0 < (run n).flight.countP stale := countP_pos_iff.2 ⟨m, hin, hstale⟩
  rw [hcount n (by omega), hact]
  change ((run n).flight.erase m).countP stale < _
  rw [countP_erase, if_pos ⟨hin, hstale⟩]
  omega

lemma acked_mono (hfresh : ∀ k, k₀ ≤ k → ∀ m ∈ (run k).flight, IsAck v m → θ ≤ m.index) {n : ℕ}
    (hn : k₀ ≤ n) (hreached : θ ≤ matchAt T run i n) : ∀ k, n ≤ k → θ ≤ matchAt T run i k := by
  intro k hk
  induction k, hk using Nat.le_induction with
  | base => exact hreached
  | succ k hk ih =>
    obtain ⟨m, hact, hack, hindex⟩ | ⟨_, hsame⟩ := (h.happened h0 k).acked i v hi hv
    · have hin := h.allowed k
      rw [hact] at hin
      exact (hfresh k (by omega) m hin hack).trans_eq hindex.symm
    · exact ih.trans_eq hsame.symm

lemma eventually_acked_succ (hlast : θ + 1 ≤ ((run k₀).node T.lead).rlog.lastIndex)
    (hfresh : ∀ k, k₀ ≤ k → ∀ m ∈ (run k).flight, IsAck v m → θ + 1 ≤ m.index) :
    ∃ n, k₀ ≤ n ∧ ∀ k, n ≤ k → θ + 1 ≤ matchAt T run i k := by
  have hone : ∃ n, k₀ ≤ n ∧ θ + 1 ≤ matchAt T run i n := by
    obtain ⟨b, hkb, hend | ⟨n, hbn, _, a, ha, hack, _⟩⟩ := exists_stored h h0 hi hv k₀
    · have hgrow := (h.goes h0 hkb).kept.log.last
      exact ⟨b, hkb, by omega⟩
    -- the response to the Append is delivered
    obtain ⟨d, hnd, hact⟩ := h.delivered (n + 1) a ha
    refine ⟨d + 1, by omega, ?_⟩
    have hin := h.allowed d
    rw [hact] at hin
    have hfreshd := hfresh d (by omega) a hin hack
    obtain ⟨m, hm, _, hindex⟩ | ⟨hno, _⟩ := (h.happened h0 d).acked i v hi hv
    · rw [hact] at hm
      cases hm
      exact hfreshd.trans_eq hindex.symm
    · exact absurd hack (hno a hact)
  obtain ⟨n, hkn, hn⟩ := hone
  exact ⟨n, hkn, acked_mono h h0 hi hv hfresh hkn hn⟩

lemma eventually_acked (k₀ θ : ℕ) (hlast : θ ≤ ((run k₀).node T.lead).rlog.lastIndex) :
    ∃ n, k₀ ≤ n ∧ ∀ k, n ≤ k → θ ≤ matchAt T run i k := by
  induction θ with
  | zero => exact ⟨k₀, le_rfl, fun _ _ => zero_le⟩
  | succ θ ih =>
    obtain ⟨a, hka, ha⟩ := ih (by omega)
    have hgrow : ∀ {n}, k₀ ≤ n → θ + 1 ≤ ((run n).node T.lead).rlog.lastIndex := fun hn =>
      hlast.trans (h.goes h0 hn).kept.log.last
    obtain ⟨b, hab, hb⟩ := eventually_stored h h0 hi hv (hgrow hka) ha
    obtain ⟨c, hbc, hc⟩ := eventually_fresh h h0 hi hv hb
    obtain ⟨n, hcn, hn⟩ := eventually_acked_succ h h0 hi hv (hgrow (by omega)) hc
    exact ⟨n, by omega, hn⟩

end

/-! ## All voters -/

section

variable {T : Tenure} {run : ℕ → Net} {act : ℕ → Event} {k₀ θ : ℕ}

lemma Tenure.eventually_voters {P : Nat → Nat → ℕ → Prop}
    (h : ∀ i v, T.peers[i]? = some ⟨v, false⟩ → v ≠ T.lead → ∃ n, ∀ k, n ≤ k → P i v k) :
    ∃ n, ∀ k, n ≤ k → ∀ i v, T.peers[i]? = some ⟨v, false⟩ → v ≠ T.lead → P i v k := by
  have hall : ∀ᶠ k in Filter.atTop, ∀ i ∈ Finset.range T.peers.length, ∀ v,
      T.peers[i]? = some ⟨v, false⟩ → v ≠ T.lead → P i v k := by
    rw [Filter.eventually_all_finset]
    intro i _
    rw [Filter.eventually_atTop]
    by_cases hi : ∃ v, T.peers[i]? = some ⟨v, false⟩ ∧ v ≠ T.lead
    · obtain ⟨v, hi, hv⟩ := hi
      obtain ⟨n, hn⟩ := h i v hi hv
      refine ⟨n, fun k hk w hw _ => ?_⟩
      cases hi.symm.trans hw
      exact hn k hk
    · exact ⟨0, fun _ _ v hv hne => absurd ⟨v, hv, hne⟩ hi⟩
  obtain ⟨n, hn⟩ := Filter.eventually_atTop.1 hall
  exact ⟨n, fun k hk i v hi =>
    hn k hk i (Finset.mem_range.2 (List.getElem?_eq_some_iff.1 hi).1) v hi⟩

section

variable (h : Served T run act) (h0 : Steady T (run 0))

include h h0

lemma Served.acked (hlast : θ ≤ ((run k₀).node T.lead).rlog.lastIndex) :
    ∃ n, ∀ k, n ≤ k → ∀ i v, T.peers[i]? = some ⟨v, false⟩ → v ≠ T.lead → θ ≤ matchAt T run i k :=
  T.eventually_voters fun _ _ hi hv =>
    (eventually_acked h h0 hi hv k₀ θ hlast).imp fun _ hn => hn.2

lemma Served.commits (hown : T.own ≤ θ) (hlast : θ ≤ ((run k₀).node T.lead).rlog.lastIndex) :
    ∃ n, k₀ ≤ n ∧ θ ≤ ((run n).node T.lead).commit := by
  obtain ⟨n, hn⟩ := h.acked h0 hlast
  have hmax : k₀ ≤ max k₀ n := le_max_left k₀ n
  refine ⟨max k₀ n, hmax, (h.steady h0 _).settled θ hown ?_ (hn _ (le_max_right k₀ n))⟩
  exact hlast.trans (h.goes h0 hmax).kept.log.last

omit h h0 in
lemma Chief.caughtUp {logs : Nat → RaftLog} {r : Raft} (h : Chief T logs r)
    (hjoint : r.mem.outgoing ≠ []) (hindex : r.mem.jointIndex ≤ r.rlog.lastIndex)
    (hall : ∀ i v, T.peers[i]? = some ⟨v, false⟩ → v ≠ T.lead → r.mem.jointIndex ≤ (r.progress.read i).matchIdx) :
    cetcdRaftJointCaughtUp r := by
  unfold cetcdRaftJointCaughtUp cetcdRaftInJoint
  rw [Bool.and_eq_true, all_eq_true]
  refine ⟨by simpa using hjoint, fun v hv => ?_⟩
  exact decide_eq_true (h.le_matchOf hindex hall (h.mem_voters_iff.1 hv))

lemma Served.leaves (hjoint : ((run 0).node T.lead).mem.outgoing ≠ [])
    (hindex : ((run 0).node T.lead).mem.jointIndex ≤ ((run 0).node T.lead).rlog.lastIndex) :
    ∃ n q, ((run 0).node T.lead).applied < q ∧ ((run n).node T.lead).mem.outgoing = [] ∧
      IsLeave ((run n).node T.lead).rlog q ∧ q ≤ ((run n).node T.lead).applied := by
  -- it is enough that the joint configuration ends
  suffices hleft : ∃ n, ((run n).node T.lead).mem.outgoing = [] by
    obtain ⟨n, hn⟩ := hleft
    obtain ⟨q, hlt, hle, hq⟩ := (h.goes h0 (Nat.zero_le n)).kept.only hjoint hn
    exact ⟨n, q, hlt, hn, hq, hle⟩
  obtain ⟨a, ha⟩ := h.acked h0 hindex
  obtain ⟨n, han, hact⟩ := h.ticks a
  by_cases hstill : ((run (n + 1)).node T.lead).mem.outgoing = []
  · exact ⟨n + 1, hstill⟩
  have hsteady := h.steady h0 (n + 1)
  have hcaught : cetcdRaftJointCaughtUp ((run (n + 1)).node T.lead) := by
    obtain hnil | ⟨_, hidx⟩ := (h.goes h0 (Nat.zero_le (n + 1))).kept.joint
    · exact absurd hnil hstill
    exact hsteady.chief.caughtUp hstill
      (hidx ▸ hindex.trans (h.goes h0 (Nat.zero_le (n + 1))).kept.log.last)
      fun i v hi hv => hidx ▸ ha (n + 1) (by omega) i v hi hv
  have hpending := (h.happened h0 n).urged hact hcaught
  obtain ⟨q, hown, hlt, hq⟩ := hsteady.guide.leave hstill hpending
  obtain ⟨m, hnm, hm⟩ := h.commits h0 hown hq.le_last
  exact ⟨m, (h.goes h0 hnm).kept.done q hq hlt (hm.trans (h.steady h0 m).applied)⟩

lemma Served.applies {v : ℕ} (hcommit : θ ≤ ((run k₀).node T.lead).commit) (hvoter : T.Voter v)
    (hv : v ≠ T.lead) :
    ∃ n, ∀ k, n ≤ k → θ ≤ ((run k).node v).applied ∧ θ ≤ (logsOf (run k) v).lastIndex := by
  obtain ⟨i, hi⟩ := mem_iff_getElem?.1 hvoter
  have hlast := hcommit.trans (h.steady h0 k₀).guide.commit_le
  obtain ⟨a, hka, ha⟩ := eventually_acked h h0 hi hv k₀ θ hlast
  have hlog : ∀ k, a ≤ k → θ ≤ (logsOf (run k) v).lastIndex := fun k hk =>
    (ha k hk).trans (matchAt_le h h0 hi hv k)
  -- a heartbeat tells the voter
  obtain ⟨b, hab, hact, hbeat⟩ := h.exists_beat h0 a
  have hbeaten := ((h.happened h0 b).beaten hact hbeat i v hi hv).beat
  obtain ⟨d, hbd, hdel⟩ := h.delivered (b + 1) _ hbeaten
  have htold := (h.happened h0 d).told _ hdel rfl hvoter
  refine ⟨d + 1, fun k hk => ⟨?_, hlog k (by omega)⟩⟩
  refine le_trans ?_ (htold.trans ((h.goes h0 hk).applied v hvoter hv))
  exact le_min (hcommit.trans (h.goes h0 (by omega)).kept.commit) (hlog d (by omega))

lemma Served.completed {q : ℕ} (hbase : T.base < q)
    (hleft : ((run k₀).node T.lead).mem.outgoing = [])
    (hleave : IsLeave ((run k₀).node T.lead).rlog q)
    (happlied : q ≤ ((run k₀).node T.lead).applied) :
    ∃ n, k₀ ≤ n ∧ ∀ k, n ≤ k → Completed T q (run k) := by
  have hcommit := happlied.trans (h.steady h0 k₀).guide.applied_le
  rcases T.eventually_voters fun i v hi hv =>
    h.applies h0 hcommit (mem_of_getElem? hi) hv with ⟨a, ha⟩
  refine ⟨max k₀ a, le_max_left k₀ a, fun k hk => ?_⟩
  have hk₀ : k₀ ≤ k := (le_max_left k₀ a).trans hk
  have hkept := (h.goes h0 hk₀).kept
  have hlead := hleave.grow hkept.log
  refine ⟨?_, fun v hvoter => ?_⟩
  · obtain hnil | ⟨hsame, _⟩ := hkept.joint
    · exact hnil
    · exact hsame.trans hleft
  by_cases hv : v = T.lead
  · exact hv ▸ ⟨hlead, happlied.trans hkept.applied⟩
  obtain ⟨i, hi⟩ := mem_iff_getElem?.1 hvoter
  obtain ⟨hdone, hlast⟩ := ha k ((le_max_right k₀ a).trans hk) i v hi hv
  exact ⟨((h.steady h0 k).guide.follows v hvoter hv).isLeave hbase hlast hlead, hdone⟩

end

end

/-- A removal from three voters or more completes, and the leader goes on to commit: while its
voters have a slot and beginnings of its log, and no election timer runs out. -/
theorem removal_completes {T : Tenure} {run : ℕ → Net} {act : ℕ → Event} {strict : Bool}
    {x index : Nat} {r0 : Raft} (h : Served T run act) (hstand : Standing T (run 0))
    (hrem : Removed T strict x index r0 ((run 0).node T.lead))
    (hthree : 3 ≤ cetcdRaftVoterCount r0) :
    (∃ n q, index < q ∧ ∀ k, n ≤ k → Completed T q (run k)) ∧
      ∀ k i, T.own ≤ i → i ≤ ((run k).node T.lead).rlog.lastIndex →
        ∃ n, k ≤ n ∧ i ≤ ((run n).node T.lead).commit := by
  obtain ⟨hsome, hout, hidx, _⟩ := hrem.mem
  have h0 : Steady T (run 0) := ⟨hstand, hrem.quorate hstand.guide.peers hthree⟩
  refine ⟨?_, fun k i hown hi => h.commits h0 hown hi⟩
  have hstored := hrem.applied.trans (hstand.guide.applied_le.trans hstand.guide.commit_le)
  obtain ⟨n, q, hlt, hleft, hleave, hdone⟩ := h.leaves h0 (hout ▸ hsome) (hidx ▸ hstored)
  have hbase := hstand.guide.base_le.trans_lt hlt
  obtain ⟨m, _, hm⟩ := h.completed h0 hbase hleft hleave hdone
  exact ⟨m, q, hrem.applied.trans_lt hlt, hm⟩

/-! ## A run from every steady state -/

/-- The leader ticks in every second step, and the oldest message is delivered in the others. -/
def turn (lead : Nat) (c : Net) (k : ℕ) : Event :=
  if k % 2 = 0 then .tick lead
  else
    match c.flight with
    | [] => .tick lead
    | m :: _ => .deliver m

def inTurn (lead : Nat) (c : Net) : ℕ → Net
  | 0 => c
  | k + 1 => after lead (inTurn lead c k) (turn lead (inTurn lead c k) k)

section

variable {T : Tenure} {c : Net}

lemma allowed_turn (h : Steady T c) (k : ℕ) : Allowed T c (turn T.lead c k) := by
  have htick : Allowed T c (.tick T.lead) :=
    ⟨Tenure.Voter.mem_ids T.leads, fun hexp => hexp.1 h.guide.role⟩
  unfold turn
  split
  · exact htick
  split
  · exact htick
  rename_i hflight
  change _ ∈ c.flight
  rw [hflight]
  exact mem_cons_self

lemma flight_after_turn (lead : Nat) (c : Net) (k : ℕ) : ∃ new,
    (after lead c (turn lead c k)).flight =
      (bif decide (k % 2 = 1) then c.flight.tail else c.flight) ++ new := by
  unfold turn
  by_cases heven : k % 2 = 0
  · rw [if_pos heven, decide_eq_false (by omega), cond_false]
    exact ⟨_, rfl⟩
  rw [if_neg heven, decide_eq_true (by omega), cond_true]
  cases hflight : c.flight with
  | nil => exact ⟨_, congrArg (· ++ _) hflight⟩
  | cons m rest =>
    refine ⟨(settle (cetcdRaftStep (c.node m.dest) m).2).1, ?_⟩
    change c.flight.erase m ++ _ = _
    rw [hflight, erase_cons_head]
    rfl

lemma served_inTurn (h : Steady T c) :
    Served T (inTurn T.lead c) (fun k => turn T.lead (inTurn T.lead c k) k) := by
  have hsteady : ∀ k, Steady T (inTurn T.lead c k) := by
    intro k
    induction k with
    | zero => exact h
    | succ k ih => exact (ih.after (allowed_turn ih k)).steady
  refine ⟨fun _ => rfl, fun k => allowed_turn (hsteady k) k, fun k => ?_, fun k m hm => ?_⟩
  · exact ⟨2 * k, by omega, if_pos (Nat.mul_mod_right 2 k)⟩
  rcases exists_taken (fun k => (inTurn T.lead c k).flight) (fun k => decide (k % 2 = 1))
    (fun k => flight_after_turn T.lead _ k)
    (fun k => ⟨2 * k + 1, by omega, decide_eq_true (by omega)⟩) hm with ⟨n, hn, hodd, hhead⟩
  refine ⟨n, hn, ?_⟩
  have hodd := of_decide_eq_true hodd
  obtain ⟨rest, hflight⟩ := head?_eq_some_iff.1 hhead
  unfold turn
  rw [if_neg (by omega), hflight]

end

/-! ## Two removals -/

/-- Node `r`, leader of term 1, has proposed the removal of `x` and has its answer. -/
def removing (r : Raft) (x : Nat) : Raft :=
  let proposed :=
    Raft.proposeEntry (becomeLeader { r with term := 1, vote := 1 }) .normal (encodeMemberRemove x)
  (cetcdRaftStep (readyRound proposed).2
    { type := .appResp, dest := r.conf.id, sender := x, term := 1, index := 1 }).2

def trioLeader : Raft := (settle (removing (Cluster.bootThree.node 1) 3)).2

/-- Node 2 has the leader's log and has applied what the leader has committed. -/
def trioFollower : Raft :=
  (settle
    { Cluster.bootThree.node 2 with
      term := 1
      vote := 1
      leaderId := 1
      commit := 1
      rlog := trioLeader.rlog }).2

def trioAck : Msg := { type := .appResp, dest := 1, sender := 2, term := 1, index := 1 }

/-- Node 3 has been removed; the answer of node 2 to that is still under way. -/
def trioNet : Net :=
  { node := fun i =>
      if i = 1 then trioLeader else if i = 2 then trioFollower else Cluster.bootThree.node i
    flight := [trioAck] }

lemma slots_of_length_le {peers : List Peer} (h : peers.length ≤ maxPeers) :
    ∀ i v, peers[i]? = some ⟨v, false⟩ → i < maxPeers := fun _ _ hi =>
  (List.getElem?_eq_some_iff.1 hi).1.trans_le h

def trioTenure : Tenure where
  lead := 1
  peers := [⟨1, false⟩, ⟨2, false⟩]
  term := 1
  base := 0
  own := 1
  nodup := by decide
  leads := by decide
  slots := slots_of_length_le (by decide)
  base_lt := by decide

lemma trioTenure_slot {i v : Nat} (hi : trioTenure.peers[i]? = some ⟨v, false⟩) (hv : v ≠ 1) :
    i = 1 ∧ v = 2 := by
  obtain _ | _ | i := i
  · cases hi
    exact absurd rfl hv
  · cases hi
    exact ⟨rfl, rfl⟩
  · cases hi

lemma trioTenure_voter {v : Nat} (hv : v ∈ trioTenure.peers.map Peer.id) (hne : v ≠ 1) : v = 2 := by
  have hmem : v = 1 ∨ v = 2 := by simpa [trioTenure] using hv
  exact hmem.resolve_left hne

lemma guide_trioNet : Guide trioTenure (logsOf trioNet) trioLeader := by
  have hlast : trioLeader.rlog.lastIndex = 1 := by decide +kernel
  have hmsgs : trioLeader.pending.msgs = [] := by decide +kernel
  refine ⟨by decide +kernel, by decide +kernel, by decide +kernel, by decide +kernel,
    by decide +kernel, by decide +kernel, fun i hi hle => ?_, by decide +kernel, by decide +kernel,
    zero_le, fun i e hi he => ?_, fun i v hi hv => ?_, fun v hv hne => ?_, fun m hm => ?_,
    fun _ hpending => ?_⟩
  · have hone : i = 1 := le_antisymm (hle.trans_eq hlast) hi
    rw [hone]
    decide +kernel
  · -- nothing is stored above what is applied
    have hle := (logAt_eq_some.1 he).2.1
    have happlied : trioLeader.applied = 1 := by decide +kernel
    omega
  · obtain ⟨rfl, rfl⟩ := trioTenure_slot hi hv
    exact ⟨by decide +kernel, by decide +kernel, by decide +kernel, by decide +kernel,
      by decide +kernel⟩
  · cases trioTenure_voter hv.mem_ids hne
    exact ⟨by decide +kernel, zero_le, le_rfl, rfl, fun _ _ _ => ⟨rfl, rfl, rfl⟩⟩
  · rw [hmsgs] at hm
    cases hm
  · exact absurd hpending (by decide +kernel)

lemma standing_trioNet : Standing trioTenure trioNet := by
  refine ⟨guide_trioNet, fun θ hown hle _ => hle.trans (by decide +kernel), by decide +kernel,
    by decide +kernel, fun v hv hne => ?_, fun m hm => ?_⟩
  · cases trioTenure_voter hv hne
    exact ⟨by decide +kernel, by decide +kernel, by decide +kernel, by decide +kernel⟩
  cases mem_singleton.1 hm
  exact .inr ⟨rfl, le_rfl, .inr (.inl ⟨rfl, by decide, by decide, rfl, by decide,
    by decide +kernel⟩)⟩

lemma removed_trioNet :
    Removed trioTenure true 3 1 (removing (Cluster.bootThree.node 1) 3) (trioNet.node 1) where
  id := by decide +kernel
  nodup := by decide +kernel
  voter := by decide +kernel
  ne := by decide
  fits := by decide
  accepted := by decide +kernel
  pos := by decide
  applied := by decide +kernel
  table := by decide +kernel

theorem removal_completes_three : ∃ run act, run 0 = trioNet ∧ Served trioTenure run act ∧
      ∃ n q, 1 < q ∧ ∀ k, n ≤ k → Completed trioTenure q (run k) := by
  have hquorate := removed_trioNet.quorate standing_trioNet.guide.peers (by decide +kernel)
  have hrun := served_inTurn ⟨standing_trioNet, hquorate⟩
  exact ⟨_, _, rfl, hrun,
    (removal_completes hrun standing_trioNet removed_trioNet (by decide +kernel)).1⟩

/-- Node 1 after the removal of node 2 from the voters 1 and 2, `e` ticks later. -/
def stuckLeader (e : Nat) : Raft :=
  { (settle (removing (Net.freshVoter 1) 2)).2 with elapsedTicks := e }

def stuckNet (e : Nat) : Net :=
  { node := fun i => if i = 1 then stuckLeader e else Net.freshVoter i
    flight := [] }

def stuckTenure : Tenure where
  lead := 1
  peers := [⟨1, false⟩]
  term := 1
  base := 0
  own := 1
  nodup := by decide
  leads := by decide
  slots := slots_of_length_le (by decide)
  base_lt := by decide

lemma settle_tick_stuckLeader (e : Nat) :
    settle (cetcdRaftTick (stuckLeader e)) = ([], stuckLeader (e + 1)) := by
  rfl

lemma after_stuckNet (e : Nat) : after 1 (stuckNet e) (.tick 1) = stuckNet (e + 1) := by
  change (⟨Function.update (stuckNet e).node 1 (settle (cetcdRaftTick (stuckLeader e))).2,
    [] ++ (settle (cetcdRaftTick (stuckLeader e))).1⟩ : Net) = _
  rw [settle_tick_stuckLeader]
  unfold stuckNet
  congr 1
  funext i
  by_cases hi : i = 1
  · subst hi
    simp
  · simp [hi]

/-- Node 1 removes the other one of two voters, and this never completes: the outgoing configuration
needs both, and node 2 counts for nothing once it is out of the table. -/
theorem removal_never_completes_two : ∃ run act, Served stuckTenure run act ∧
      Removed stuckTenure false 2 1 (removing (Net.freshVoter 1) 2) ((run 0).node 1) ∧
      cetcdRaftVoterCount (removing (Net.freshVoter 1) 2) = 2 ∧
      ∀ k, IsLeave ((run k).node 1).rlog 2 ∧ ((run k).node 1).commit = 1 ∧
        ∀ q, ¬ Completed stuckTenure q (run k) := by
  refine ⟨stuckNet, fun _ => .tick 1, ⟨fun k => (after_stuckNet k).symm, fun k => ?_, fun k => ?_,
    fun k m hm => ?_⟩, ?_, by decide +kernel, fun k => ⟨?_, rfl, fun q hq => ?_⟩⟩
  · exact ⟨by decide, fun hexp => hexp.1 rfl⟩
  · exact ⟨k, le_rfl, rfl⟩
  · cases hm
  · exact ⟨by decide +kernel, by decide +kernel, by decide +kernel, by decide, by decide,
      by decide +kernel, by decide, by decide +kernel, by decide +kernel⟩
  · exact show IsLeave (stuckLeader 0).rlog 2 by decide +kernel
  · exact absurd hq.left (show ¬ (stuckLeader 0).mem.outgoing = [] by decide +kernel)

end Cetcd.Member
