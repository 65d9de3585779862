import Cetcd.Repair.Exchange

/-!
# When log repair converges

The exchange of Appends makes the follower's log equal to the leader's exactly from the `Repairable`
pairs. The first batch the follower stores decides: what lies before it is never looked at again,
what lies behind it is dropped only if the batch meets an entry of another term. A follower with
another term at the probed index answers with that same index, so the leader probes there forever.
-/

namespace Cetcd.Repair

open Lib Raft Protocol Function

/-! ## Equal logs -/

/-- The follower's log is the leader's up to the leader's last index. -/
def Repaired (s : Link) : Prop := AgreeOn s.leader.rlog s.follower.rlog 1 s.leader.rlog.lastIndex
  deriving Decidable

/-- After finitely many exchanges the logs are equal and stay so. -/
def Converges (s : Link) : Prop := ∃ n, ∀ k, n ≤ k → Repaired (Link.exchange^[k] s)

/-- Where the first batch that the follower can store begins, less one. -/
def firstPrev (r f : Raft) (slot : Nat) : Nat :=
  min (prevIndex (r.progress.read slot)) f.rlog.lastIndex

/-- The logs agree before the first batch, and behind it what is left of the follower's log does. -/
def Repairable (r f : Raft) (slot : Nat) : Prop :=
  AgreeOn r.rlog f.rlog 1 (firstPrev r f slot) ∧
    (Conflict f.rlog (firstPrev r f slot + 1) (batch r (firstPrev r f slot)) ∨
      AgreeOn r.rlog f.rlog (firstPrev r f slot + (batch r (firstPrev r f slot)).length + 1)
        (min f.rlog.lastIndex r.rlog.lastIndex))

/-! ## What a stored batch makes of the logs -/

section

variable {r0 : Raft} {l : RaftLog} {q : Nat}

section

variable (hc : r0.rlog.compacted = 0) (hcl : l.compacted = 0)

include hc hcl

omit hc in
lemma le_last_store (hle : q ≤ l.lastIndex) :
    q + (batch r0 q).length ≤ (storeEntries l (q + 1) (batch r0 q)).lastIndex := by
  rcases stores_last (batch r0 q) (hcl.trans_le zero_le) (Nat.le_add_left 1 q)
    (by omega) with ⟨hcut, hkeep⟩
  by_cases hconf : Conflict l (q + 1) (batch r0 q)
  · have := hcut hconf
    omega
  have := (hkeep hconf).1
  omega

lemma agreeOn_store (hq : q < r0.rlog.lastIndex) (hle : q ≤ l.lastIndex)
    (h : AgreeOn r0.rlog l 1 q) :
    AgreeOn r0.rlog (storeEntries l (q + 1) (batch r0 q)) 1 (q + (batch r0 q).length) := by
  obtain ⟨hpos, hend, hget⟩ := batch_spec (hc ▸ Nat.zero_le q) hq
  have hlast : q + (batch r0 q).length ≤ _ := le_last_store hcl hle
  intro j hj hjq
  rw [agreeAt_iff hc ((storeEntries_compacted ..).trans hcl) hj]
  refine ⟨by omega, by omega, ?_⟩
  obtain hlt | hge := Nat.lt_or_ge q j
  · -- inside the batch: what was stored is what the leader has there
    have hk : j - (q + 1) < (batch r0 q).length := by omega
    have hstored := @stores_read_new (batch r0 q) l (q + 1) (j - (q + 1)) hk
    have hled := hget (j - (q + 1)) hk
    rw [show q + 1 + (j - (q + 1)) = j by omega] at hstored hled
    rw [hstored, (logAt_eq_some.1 hled).2.2.2]
    exact SameEntry.refl _
  rw [stores_read_below _ (by omega)]
  exact ((agreeAt_iff hc hcl hj).1 (h j hj (by omega))).2.2

lemma agreeAt_store_below (hle : q ≤ l.lastIndex) {j : Nat} (hj : 1 ≤ j) (hjq : j ≤ q) :
    AgreeAt r0.rlog (storeEntries l (q + 1) (batch r0 q)) j ↔ AgreeAt r0.rlog l j := by
  have hlast : q + (batch r0 q).length ≤ _ := le_last_store hcl hle
  exact agreeAt_congr hc hcl hj ((storeEntries_compacted ..).trans hcl) (by omega)
    (stores_read_below _ (by omega))

lemma agreeAt_store_behind (hle : q ≤ l.lastIndex) (hconf : ¬ Conflict l (q + 1) (batch r0 q))
    {j : Nat} (hj : q + (batch r0 q).length < j) :
    AgreeAt r0.rlog (storeEntries l (q + 1) (batch r0 q)) j ↔ AgreeAt r0.rlog l j := by
  rcases (stores_last (batch r0 q) (hcl.trans_le zero_le) (Nat.le_add_left 1 q)
    (by omega)).2 hconf with
    ⟨hlast, hread⟩
  exact agreeAt_congr hc hcl (by omega) ((storeEntries_compacted ..).trans hcl) (by omega)
    (hread j (by omega))

end

end

/-! ## Convergence -/

section

variable {r0 f0 : Raft} {slot q : Nat} {s : Link} {id i : Nat}

lemma Converges.of_exchange (h : Converges s.exchange) : Converges s := by
  obtain ⟨m, hm⟩ := h
  refine ⟨m + 1, fun k hk => ?_⟩
  obtain ⟨k, rfl⟩ : ∃ k', k = k' + 1 := ⟨k - 1, by omega⟩
  rw [iterate_succ_apply]
  exact hm k (by omega)

lemma Resting.iterate (hs : Resting r0 id slot s q) (k : Nat) : Link.exchange^[k] s = s :=
  iterate_fixed hs.exchange_eq k

lemma Resting.converges (hs : Resting r0 id slot s q)
    (h : AgreeOn r0.rlog s.follower.rlog 1 r0.rlog.lastIndex) : Converges s := by
  refine ⟨0, fun k _ => ?_⟩
  rw [hs.iterate k]
  unfold Repaired
  rw [hs.leader.rlog]
  exact h

/-- Once the follower's whole log agrees and it is probed at its end, each exchange appends a batch.
-/
lemma Probing.appends (h : Pairing r0 f0 slot) (n : Nat) :
    ∀ s : Link, Probing r0 f0.conf.id slot s s.follower.rlog.lastIndex →
      r0.rlog.lastIndex - s.follower.rlog.lastIndex ≤ n →
      AgreeOn r0.rlog s.follower.rlog 1 s.follower.rlog.lastIndex →
      Converges s := by
  induction n with
  | zero =>
    intro s hs hn _
    have := hs.behind
    omega
  | succ n ih =>
    intro s hs hn hagree
    have hbehind := hs.behind
    obtain ⟨_, hlt, _⟩ | ⟨h0, _, hne, _⟩ | ⟨_, hlog, hnext⟩ := hs.exchange h
    · exact absurd hlt (lt_irrefl _)
    · exact absurd ((hagree _ h0 le_rfl).term h.leaderLog hs.uncompacted h0) hne
    -- nothing lies behind the batch, so the log now ends with it
    have hstored := agreeOn_store h.leaderLog hs.uncompacted hs.behind le_rfl hagree
    obtain ⟨hpos, hend, _⟩ := batch_spec (h.leaderLog ▸ zero_le) hs.behind
    have hnoconf : ¬ Conflict s.follower.rlog (s.follower.rlog.lastIndex + 1)
        (batch r0 s.follower.rlog.lastIndex) := by
      rintro ⟨k, _, hle, _⟩
      omega
    have hlast := ((stores_last (batch r0 s.follower.rlog.lastIndex)
      (hs.uncompacted.trans_le zero_le)
      (Nat.le_add_left 1 _) le_rfl).2 hnoconf).1
    rw [← hlog] at hstored hlast
    obtain ⟨hlt, hprobe⟩ | ⟨hge, hrest⟩ := hnext
    · exact (ih s.exchange hprobe (by omega) (fun j hj hjq => hstored j hj (by omega))).of_exchange
    · exact (hrest.converges (fun j hj hjq => hstored j hj (by omega))).of_exchange

lemma Probing.stores (h : Pairing r0 f0 slot) (hs : Probing r0 f0.conf.id slot s q)
    (hle : q ≤ s.follower.rlog.lastIndex) (hagree : AgreeOn r0.rlog s.follower.rlog 1 q)
    (hrest : Conflict s.follower.rlog (q + 1) (batch r0 q) ∨
      AgreeOn r0.rlog s.follower.rlog (q + (batch r0 q).length + 1)
        (min s.follower.rlog.lastIndex r0.rlog.lastIndex)) :
    Converges s := by
  have hbehind := hs.behind
  obtain ⟨hpos, hend, _⟩ := batch_spec (h.leaderLog ▸ zero_le) hs.behind
  have hstored := agreeOn_store h.leaderLog hs.uncompacted hs.behind hle hagree
  rcases stores_last (batch r0 q) (hs.uncompacted.trans_le zero_le) (Nat.le_add_left 1 q)
    (by omega) with
    ⟨hcut, hkeep⟩
  obtain ⟨_, hlt, _⟩ | ⟨h0, _, hne, _⟩ | ⟨_, hlog, hnext⟩ := hs.exchange h
  · omega
  · exact absurd ((hagree _ h0 le_rfl).term h.leaderLog hs.uncompacted h0) hne
  -- after the batch the logs agree as far as both go
  have hall : AgreeOn r0.rlog s.exchange.follower.rlog 1
      (min s.exchange.follower.rlog.lastIndex r0.rlog.lastIndex) := by
    intro j hj hjmin
    rw [hlog] at hjmin ⊢
    by_cases hin : j ≤ q + (batch r0 q).length
    · exact hstored j hj hin
    by_cases hconf : Conflict s.follower.rlog (q + 1) (batch r0 q)
    · have := hcut hconf
      omega
    have hlast := (hkeep hconf).1
    rw [agreeAt_store_behind h.leaderLog hs.uncompacted hle hconf (by omega)]
    obtain hconf' | hrest := hrest
    · exact absurd hconf' hconf
    · exact hrest j (by omega) (by omega)
  obtain ⟨hlt, hprobe⟩ | ⟨hge, hdone⟩ := hnext
  · exact (Probing.appends h _ s.exchange hprobe le_rfl
      (fun j hj hjq => hall j hj (by omega))).of_exchange
  · exact (hdone.converges (fun j hj hjq => hall j hj (by omega))).of_exchange

/-- From a repairable pair the logs become equal; a follower that is too short costs one exchange
more. -/
lemma Pairing.converges (h : Pairing r0 f0 slot) (hok : Repairable r0 f0 slot) :
    Converges (Link.probe r0 f0 slot) := by
  obtain ⟨hagree, hrest⟩ := hok
  have hs := h.probing
  have hf : (Link.probe r0 f0 slot).follower = f0 := rfl
  obtain hlt | hge := Nat.lt_or_ge f0.rlog.lastIndex (prevIndex (r0.progress.read slot))
  · have hp : firstPrev r0 f0 slot = f0.rlog.lastIndex := min_eq_right hlt.le
    rw [hp] at hagree hrest
    obtain ⟨_, _, hlog, hprobe⟩ | ⟨_, hle, _⟩ | ⟨hprev, _⟩ := hs.exchange h
    · rw [hf] at hlog hprobe
      refine (hprobe.stores h ?_ ?_ ?_).of_exchange
      · rw [hlog]
      · rw [hlog]
        exact hagree
      rw [hlog]
      exact hrest
    · rw [hf] at hle
      omega
    obtain h0 | ⟨hle, _⟩ := hprev
    · omega
    rw [hf] at hle
    omega
  have hp : firstPrev r0 f0 slot = prevIndex (r0.progress.read slot) := min_eq_left hge
  rw [hp] at hagree hrest
  exact hs.stores h hge hagree hrest

/-! ## Divergence -/

/-- Entry `i` is behind the leader's probe and not the leader's. -/
def Stuck (r0 : Raft) (id slot i : Nat) (s : Link) : Prop :=
  1 ≤ i ∧ i ≤ s.follower.rlog.lastIndex ∧ i ≤ r0.rlog.lastIndex ∧
    ¬ AgreeAt r0.rlog s.follower.rlog i ∧
    ∃ q, i ≤ q ∧ (Probing r0 id slot s q ∨ Resting r0 id slot s q)

lemma Stuck.not_repaired (hs : Stuck r0 id slot i s) : ¬ Repaired s := by
  obtain ⟨h1, _, hlast, hne, q, _, hstage⟩ := hs
  have hlog : s.leader.rlog = r0.rlog := by
    obtain hp | hr := hstage
    · exact hp.leader.rlog
    · exact hr.leader.rlog
  intro hrep
  unfold Repaired at hrep
  rw [hlog] at hrep
  exact hne (hrep i h1 hlast)

section

variable (h : Pairing r0 f0 slot) (hs : Stuck r0 f0.conf.id slot i s)

include h hs

lemma Stuck.exchange : Stuck r0 f0.conf.id slot i s.exchange := by
  obtain ⟨h1, hle, hlast, hne, q, hiq, hstage⟩ := hs
  obtain hp | hr := hstage
  · obtain ⟨_, _, hlog, hnext⟩ | ⟨_, _, _, hlog, hnext⟩ | ⟨hprev, hlog, hnext⟩ := hp.exchange h
    · refine ⟨h1, by rw [hlog]; exact hle, hlast, by rw [hlog]; exact hne, _, hle, .inl hnext⟩
    · refine ⟨h1, by rw [hlog]; exact hle, hlast, by rw [hlog]; exact hne, _, hiq, .inl hnext⟩
    have hq : q ≤ s.follower.rlog.lastIndex := by
      obtain h0 | ⟨hq, _⟩ := hprev
      · omega
      · exact hq
    have hne' : ¬ AgreeAt r0.rlog s.exchange.follower.rlog i := by
      rw [hlog, agreeAt_store_below h.leaderLog hp.uncompacted hq h1 hiq]
      exact hne
    have hle' : i ≤ s.exchange.follower.rlog.lastIndex := by
      rw [hlog]
      rcases stores_last (batch r0 q) (hp.uncompacted.trans_le zero_le)
        (Nat.le_add_left 1 q) (by omega) with
        ⟨hcut, hkeep⟩
      by_cases hconf : Conflict s.follower.rlog (q + 1) (batch r0 q)
      · have := hcut hconf
        omega
      have := (hkeep hconf).1
      omega
    refine ⟨h1, hle', hlast, hne', _, hle', ?_⟩
    obtain ⟨_, hnext⟩ | ⟨_, hnext⟩ := hnext
    · exact .inl hnext
    · exact .inr hnext
  rw [hr.exchange_eq]
  exact ⟨h1, hle, hlast, hne, q, hiq, .inr hr⟩

lemma Stuck.never (k : Nat) : ¬ Repaired (Link.exchange^[k] s) := by
  have hstuck : Stuck r0 f0.conf.id slot i (Link.exchange^[k] s) := by
    induction k with
    | zero => exact hs
    | succ k ih =>
      rw [iterate_succ_apply']
      exact ih.exchange h
  exact hstuck.not_repaired

lemma Stuck.not_converges : ¬ Converges s := by
  rintro ⟨n, hn⟩
  exact hs.never h n (hn n le_rfl)

end

lemma Pairing.stuck_before (h : Pairing r0 f0 slot) (h1 : 1 ≤ i) (hi : i ≤ firstPrev r0 f0 slot)
    (hne : ¬ AgreeAt r0.rlog f0.rlog i) : Stuck r0 f0.conf.id slot i (Link.probe r0 f0 slot) := by
  have hbehind := h.behind
  unfold firstPrev at hi
  exact ⟨h1, by change i ≤ f0.rlog.lastIndex; omega, by omega, hne, _, by omega, .inl h.probing⟩

lemma Pairing.stuck_behind (h : Pairing r0 f0 slot)
    (hagree : AgreeOn r0.rlog f0.rlog 1 (firstPrev r0 f0 slot))
    (hconf : ¬ Conflict f0.rlog (firstPrev r0 f0 slot + 1) (batch r0 (firstPrev r0 f0 slot)))
    (hi : firstPrev r0 f0 slot + (batch r0 (firstPrev r0 f0 slot)).length < i)
    (hif : i ≤ f0.rlog.lastIndex) (hil : i ≤ r0.rlog.lastIndex)
    (hne : ¬ AgreeAt r0.rlog f0.rlog i) :
    Stuck r0 f0.conf.id slot i (Link.probe r0 f0 slot).exchange := by
  have hs := h.probing
  have hf : (Link.probe r0 f0 slot).follower = f0 := rfl
  -- a follower that is too short has nothing behind the batch
  have hge : prevIndex (r0.progress.read slot) ≤ f0.rlog.lastIndex := by
    unfold firstPrev at hi
    omega
  have hp : firstPrev r0 f0 slot = prevIndex (r0.progress.read slot) := min_eq_left hge
  rw [hp] at hagree hconf hi
  generalize prevIndex (r0.progress.read slot) = q at *
  obtain ⟨_, hlt, _⟩ | ⟨h0, _, hterm, _⟩ | ⟨_, hlog, hnext⟩ := hs.exchange h
  · rw [hf] at hlt
    omega
  · exact absurd ((hagree _ h0 le_rfl).term h.leaderLog h.followerLog h0) hterm
  rw [hf] at hlog
  have hlast := ((stores_last (batch r0 q) (h.followerLog.trans_le zero_le) (Nat.le_add_left 1 q)
    (by omega)).2 hconf).1
  rw [← hlog] at hlast
  have hbeyond : i ≤ (Link.probe r0 f0 slot).exchange.follower.rlog.lastIndex := by omega
  refine ⟨by omega, hbeyond, hil, ?_, _, hbeyond, ?_⟩
  · rw [hlog, agreeAt_store_behind h.leaderLog h.followerLog hge hconf hi]
    exact hne
  obtain ⟨_, hnext⟩ | ⟨_, hnext⟩ := hnext
  · exact .inl hnext
  · exact .inr hnext

/-- The exchange makes the logs equal exactly from the repairable pairs. -/
theorem log_repair_converges (h : Pairing r0 f0 slot) :
    Converges (Link.probe r0 f0 slot) ↔ Repairable r0 f0 slot := by
  refine ⟨fun hconv => ?_, h.converges⟩
  have hagree : AgreeOn r0.rlog f0.rlog 1 (firstPrev r0 f0 slot) := by
    intro i h1 hi
    by_contra hne
    exact (h.stuck_before h1 hi hne).not_converges h hconv
  refine ⟨hagree, ?_⟩
  by_contra hno
  obtain ⟨hconf, hrest⟩ := not_or.1 hno
  apply hrest
  intro i hi hmin
  by_contra hne
  have hstuck := h.stuck_behind hagree hconf (by omega) (by omega) (by omega) hne
  obtain ⟨n, hn⟩ := hconv
  refine hstuck.never h n ?_
  rw [← iterate_succ_apply]
  exact hn (n + 1) (by omega)

end

/-! ## Two pairs -/

/-- A voter of a cluster of two that restarts with the given term and log. -/
def restarted (id other term : Nat) (es : List Entry) : Raft :=
  let fresh := (cetcdRaftNew { id := id, electionTick := 3, heartbeatTick := 1 }).getD default
  es.foldl cetcdRaftRestoreEntry
    (cetcdRaftRestoreHardState (cetcdRaftAddPeer fresh other false) { term := term })

/-- Node 1 has a proposal, and a BEAT has declared the Append to node 2 lost. -/
def proposer (term : Nat) (es : List Entry) : Raft :=
  let campaign := (hear (restarted 1 2 term es) { type := .hup, sender := 1 }).2
  let elected :=
    (hear campaign { type := .voteResp, dest := 1, sender := 2, term := term + 1 }).2
  let r := (hear elected { type := .prop }).2
  { r with progress := r.progress.write 1 { r.progress.read 1 with pendingApp := false } }

/-- Entries of the terms 1 and 2, then one of term 3 is proposed. -/
def someLeader : Raft := proposer 2 [{ term := 1, index := 1 }, { term := 2, index := 2 }]

/-- A follower whose second entry is of term 1. -/
def conflictingFollower : Raft :=
  restarted 2 1 2 [{ term := 1, index := 1 }, { term := 1, index := 2 }]

/-- A follower that has the leader's first two entries and two of its own behind them. -/
def overlongFollower : Raft :=
  restarted 2 1 2
    [{ term := 1, index := 1 }, { term := 2, index := 2 }, { term := 2, index := 3 },
      { term := 2, index := 4 }]

lemma pairing_overlong : Pairing someLeader overlongFollower 1 := by
  constructor <;> decide +kernel

lemma pairing_conflicting : Pairing someLeader conflictingFollower 1 := by
  constructor <;> decide +kernel

lemma repairable_overlong : Repairable someLeader overlongFollower 1 :=
  ⟨by decide +kernel, .inl ⟨0, by decide +kernel, by decide +kernel, by decide +kernel⟩⟩

theorem log_repair_converges_overlong :
    Pairing someLeader overlongFollower 1 ∧ Repairable someLeader overlongFollower 1 ∧
      Converges (Link.probe someLeader overlongFollower 1) :=
  ⟨pairing_overlong, repairable_overlong,
    (log_repair_converges pairing_overlong).2 repairable_overlong⟩

/-- The follower rejects with the probed index, where its entry has another term; the leader's next
index stays, and the same Append is sent forever. -/
theorem log_repair_diverges : Pairing someLeader conflictingFollower 1 ∧
      ∀ k, ¬ Repaired (Link.exchange^[k] (Link.probe someLeader conflictingFollower 1)) := by
  refine ⟨pairing_conflicting, fun k => ?_⟩
  have hstuck : Stuck someLeader conflictingFollower.conf.id 1 2
      (Link.probe someLeader conflictingFollower 1) :=
    pairing_conflicting.stuck_before (by decide) (by decide +kernel) (by decide +kernel)
  exact hstuck.never pairing_conflicting k

end Cetcd.Repair
