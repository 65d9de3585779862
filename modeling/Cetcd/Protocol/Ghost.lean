import Cetcd.Protocol.FullLog
import Cetcd.Protocol.Refine

/-!
# What a run is remembered by

The invariants speak about who voted for whom, who has led, what the leader of a term had in its
log. `Ghost` keeps this beside the run, `Ghost.after` says how a move extends it, and a `Stable`
invariant is carried through every step (`Stable.next`).
-/

namespace Cetcd.Protocol

open Lib Raft List Function

structure Ghost where
  /-- `voted v t` is the candidate that got the vote of `v` in term `t`, zero if none. -/
  voted : Nat → Nat → Nat
  /-- The log of a voter when it voted. -/
  voteLog : Nat → Nat → List Entry
  led : Nat → Nat → Prop
  /-- The whole log of a node, with what it has compacted. -/
  vlog : Nat → List Entry
  /-- The log of the leader of a term, and as it was when that leader was elected. -/
  llog : Nat → List Entry
  elog : Nat → List Entry
  /-- How much of the log of the leader of term `t` a node has acknowledged. -/
  acked : Nat → Nat → Nat

namespace Ghost

def none : Ghost where
  voted _ _ := 0
  voteLog _ _ := []
  led _ _ := False
  vlog _ := []
  llog _ := []
  elog _ := []
  acked _ _ := 0

/-- Node `i` votes for `x` in term `t`; a vote that was cast stays. -/
def cast (g : Ghost) (i t x : Nat) : Ghost :=
  if g.voted i t = 0 then
    { g with
      voted := Function.update g.voted i (Function.update (g.voted i) t x)
      voteLog := Function.update g.voteLog i (Function.update (g.voteLog i) t (g.vlog i)) }
  else g

/-- Node `i` holds `L` and acknowledges the first `k` entries to the leader of term `t`. -/
def hold (g : Ghost) (i t k : Nat) (L : List Entry) : Ghost :=
  { g with
    vlog := Function.update g.vlog i L
    acked := Function.update g.acked i
      (Function.update (g.acked i) t (max (g.acked i t) k)) }

/-- Node `i` leads term `t` with the log `L`. -/
def lead (g : Ghost) (i t : Nat) (L : List Entry) : Ghost :=
  { g.hold i t L.length L with llog := Function.update g.llog t L }

def elect (g : Ghost) (i t : Nat) : Ghost :=
  { g.lead i t (g.vlog i) with
    led := fun j s => g.led j s ∨ (j = i ∧ s = t)
    elog := Function.update g.elog t (g.vlog i) }

end Ghost

/-- The whole log after an accepted Append: unchanged, or the leader's up to its last entry. -/
def Ghost.afterAccept (g : Ghost) (i : Nat) (l : RaftLog) (m : Msg) : List Entry :=
  if HasEntries l m.index m.entries then g.vlog i else (g.llog m.term).take (m.index + m.entries.length)

/-- The whole log after a snapshot. Of one without a term nothing is known: its leader's log does
not reach it. -/
def Ghost.afterInstall (g : Ghost) (i : Nat) (l : RaftLog) (m : Msg) : List Entry :=
  if m.snapshot ≤ l.compacted ∨ m.snapshot ≤ l.lastIndex then g.vlog i
  else if m.logTerm = 0 then List.replicate m.snapshot default
  else (g.llog m.term).take m.snapshot

def Ghost.after (g : Ghost) (i : Nat) (v : View) : Move → Ghost
  | .campaign => g.cast i (v.term + 1) v.id
  | .grant m => g.cast i v.term m.sender
  | .accept m =>
    let L := g.afterAccept i v.rlog m
    g.hold i m.term L.length L
  | .install m => g.hold i m.term m.snapshot (g.afterInstall i v.rlog m)
  | .win => g.elect i v.term
  | .propose e => g.lead i v.term (g.vlog i ++ [e])
  | _ => g

abbrev Ghost.next (g : Ghost) (nodes : Nat → View) (i : Nat) (mv : Move) : Ghost :=
  g.after i (nodes i) mv

variable {i j t : Nat} {v v' : View} {mv : Move} {K : Checks} {V : Voters}

lemma Ghost.led_after {g : Ghost} (mv : Move) (h : g.led j t) : (g.after i v mv).led j t := by
  cases mv with
  | campaign =>
    change (Ghost.cast g i (v.term + 1) v.id).led j t
    unfold Ghost.cast
    split <;> exact h
  | grant m =>
    change (Ghost.cast g i v.term m.sender).led j t
    unfold Ghost.cast
    split <;> exact h
  | win => exact Or.inl h
  | _ => exact h

lemma Ghost.led_of_after {g : Ghost} (h : (g.after i v mv).led j t) :
    g.led j t ∨ (mv = .win ∧ j = i ∧ t = v.term) := by
  cases mv with
  | campaign =>
    change (Ghost.cast g i (v.term + 1) v.id).led j t at h
    unfold Ghost.cast at h
    split at h <;> exact Or.inl h
  | grant m =>
    change (Ghost.cast g i v.term m.sender).led j t at h
    unfold Ghost.cast at h
    split at h <;> exact Or.inl h
  | win =>
    obtain h | ⟨hj, ht⟩ := h
    · exact Or.inl h
    · exact Or.inr ⟨rfl, hj, ht⟩
  | _ => exact Or.inl h

/-! ## Views of a cluster -/

def views (c : Cluster) (i : Nat) : View := view (c.node i)

def onNet (c : Cluster) (m : Msg) : Prop := ∃ p ∈ c.sent, p.msg = m

lemma MoveStep.mono {net net' : Msg → Prop} (hnet : ∀ m, net m → net' m)
    (h : MoveStep K V net v mv v') : MoveStep K V net' v mv v' := by
  cases h with
  | stepDown h => exact .stepDown h
  | preCampaign h => exact .preCampaign h
  | preRecord h => exact .preRecord h
  | campaign h => exact .campaign h
  | say h => exact .say h
  | grant h1 h2 h3 h4 h5 => exact .grant (hnet _ h1) h2 h3 h4 h5
  | record h1 h2 h3 h4 h5 h6 h7 => exact .record (hnet _ h1) h2 h3 h4 h5 h6 h7
  | accept h1 h2 h3 h4 h5 h6 h7 h8 => exact .accept (hnet _ h1) h2 h3 h4 h5 h6 h7 h8
  | install h1 h2 h3 h4 h5 h6 h7 h8 => exact .install (hnet _ h1) h2 h3 h4 h5 h6 h7 h8
  | follow h1 h2 h3 h4 h5 => exact .follow (hnet _ h1) h2 h3 h4 h5
  | win h1 h2 => exact .win h1 h2
  | propose h1 h2 h3 => exact .propose h1 h2 h3
  | setMatch h1 h2 =>
    refine .setMatch h1 (h2.imp id ?_)
    rintro ⟨m, hm, hack⟩
    exact ⟨m, hnet m hm, hack⟩
  | advance h1 h2 h3 h4 => exact .advance h1 h2 h3 h4
  | settle => exact .settle
  | compact h0 h1 h2 h3 => exact .compact h0 h1 h2 h3

/-- An invariant on the views, the messages sent and the ghost that every move of a voter keeps. -/
def Stable (K : Checks) (V : Voters) (I : (Nat → View) → (Msg → Prop) → Ghost → Prop) : Prop :=
  ∀ ⦃nodes net g i mv v'⦄, i ∈ V.ids → (∀ m ∈ (nodes i).out, net m) →
    MoveStep K V net (nodes i) mv v' → I nodes net g →
    I (Function.update nodes i v') (fun m => net m ∨ m ∈ v'.out) (g.after i (nodes i) mv)

lemma MoveStep.out_subset {net : Msg → Prop} (hmv : mv ≠ .settle) (h : MoveStep K V net v mv v')
    {m : Msg} (hm : m ∈ v.out) : m ∈ v'.out := by
  cases h with
  | say | grant | accept | install => exact mem_append_left _ hm
  | settle => exact absurd rfl hmv
  | _ => exact hm

section

variable {K : Checks} {V : Voters} {I : (Nat → View) → (Msg → Prop) → Ghost → Prop}
  {net : Msg → Prop} {nodes : Nat → View} {i : Nat} {g : Ghost} {late : Bool} {v v' : View}

/-- On the way through a call: the invariant holds with the messages built so far on the net, and
only a leader in office has been added to the record. -/
def Midway (I : (Nat → View) → (Msg → Prop) → Ghost → Prop) (nodes : Nat → View) (i : Nat)
    (net : Msg → Prop) (g : Ghost) (late : Bool) (v : View) : Prop :=
  ∃ g', I (Function.update nodes i v) (fun m => net m ∨ m ∈ v.out) g' ∧
    ∀ j t, g'.led j t → g.led j t ∨ (late = true ∧ j = i ∧ v.role = .leader ∧ t = v.term)

lemma Midway.step (hI : Stable K V I) (hi : i ∈ V.ids) {mv : Move} (hsettle : mv ≠ .settle)
    (hlate : if late then mv.leads = true else mv ≠ .win) (h : MoveStep K V net v mv v')
    (hmid : Midway I nodes i net g late v) : Midway I nodes i net g late v' := by
  obtain ⟨g', hinv, hrec⟩ := hmid
  have hstep : MoveStep K V (fun m => net m ∨ m ∈ v.out) ((update nodes i v) i) mv v' := by
    rw [update_self]
    exact h.mono (fun m hm => .inl hm)
  have hnext := hI hi (by rw [update_self]; exact fun m hm => .inr hm) hstep hinv
  rw [update_idem, update_self] at hnext
  have hnet : (fun m => (net m ∨ m ∈ v.out) ∨ m ∈ v'.out) = fun m => net m ∨ m ∈ v'.out := by
    funext m
    refine propext ⟨?_, fun hm => hm.imp .inl id⟩
    rintro ((hm | hm) | hm)
    · exact .inl hm
    · exact .inr (h.out_subset hsettle hm)
    · exact .inr hm
  rw [hnet] at hnext
  refine ⟨_, hnext, ?_⟩
  intro j t hjt
  obtain hold | ⟨rfl, hj, ht⟩ := Ghost.led_of_after hjt
  · obtain hg | ⟨hl, hj, hrole, ht⟩ := hrec j t hold
    · exact .inl hg
    rw [if_pos hl] at hlate
    have hkeep := h.keeps_leader hlate hrole
    exact .inr ⟨hl, hj, hkeep.1, ht.trans hkeep.2.symm⟩
  cases late with
  | false => exact absurd rfl hlate
  | true =>
    cases h
    exact .inr ⟨rfl, hj, rfl, ht⟩

lemma Midway.moves (hI : Stable K V I) (hi : i ∈ V.ids) {S : Move → Bool}
    (hS : ∀ mv, S mv → mv ≠ .settle ∧ if late then mv.leads = true else mv ≠ .win)
    (h : Moves K V net S v v') (hmid : Midway I nodes i net g late v) :
    Midway I nodes i net g late v' :=
  Moves.induct (P := Midway I nodes i net g late) h
    (fun _ _ mv hmv hstep hv => hv.step hI hi (hS mv hmv).1 (hS mv hmv).2 hstep) hmid

lemma Midway.turn (hI : Stable K V I) (hi : i ∈ V.ids) (h : Turn K V net (nodes i) v')
    (hout : (nodes i).out = []) (hinv : I nodes net g) : Midway I nodes i net g true v' := by
  obtain ⟨v1, hlocal, hleads⟩ := h
  have hstart : Midway I nodes i net g false (nodes i) := by
    refine ⟨g, ?_, fun _ _ h => .inl h⟩
    rw [update_eq_self, hout]
    simpa using hinv
  have hmid : Midway I nodes i net g false v1 := by
    refine Midway.moves hI hi ?_ hlocal hstart
    intro mv hmv
    refine ⟨?_, ?_⟩
    all_goals
      rintro rfl
      cases hmv
  refine Midway.moves hI hi ?_ hleads ?_
  · intro mv hmv
    refine ⟨?_, hmv⟩
    rintro rfl
    cases hmv
  obtain ⟨g', hin, hrec⟩ := hmid
  refine ⟨g', hin, ?_⟩
  intro j t hjt
  obtain hg | ⟨hl, _⟩ := hrec j t hjt
  · exact .inl hg
  · cases hl

end

/-! ## Steps of a cluster -/

/-- The checks of `K`, as a side condition on the steps of a run. -/
def Checks.ok (K : Checks) (c : Cluster) : Action → Prop
  | .deliver p => K.Met (c.node p.msg.dest) p.msg
  | _ => True

lemma run_checked {P : Raft → Msg → Prop} {hist : List Cluster} (hP : ∀ r m, P r m → K.Met r m)
    (h : Cluster.Run V (Cluster.onDelivery P) hist) : Cluster.Run V K.ok hist := by
  refine RunOf.mono ?_ h
  rintro c a c' ⟨hen, hok, hc'⟩
  refine ⟨hen, ?_, hc'⟩
  cases a with
  | deliver p => exact hP _ _ hok
  | _ => trivial

/-- Between two calls nothing waits to be sent and every voter knows the voter set. -/
structure Idle (V : Voters) (c : Cluster) : Prop where
  member : ∀ i ∈ V.ids, Member V i (c.node i).conf (c.node i).mem
  out : ∀ i ∈ V.ids, (c.node i).pending.msgs = []

/-- A node as `cetcd_raft_new` and `cetcd_raft_add_peer` leave it. -/
structure Pristine (v : View) : Prop where
  term : v.term = 0
  vote : v.vote = 0
  commit : v.commit = 0
  applied : v.applied = 0
  role : v.role = .follower
  rlog : v.rlog = { log := ZeroArray.empty, lastIndex := 0, lastTerm := 0, compacted := 0 }
  out : v.out = []

section

variable {V : Voters} {r : Raft} {c : Cluster}

lemma addVoter_spec {j : Nat} (hj : j ≠ 0) (hnew : j ∉ r.mem.peers.map Peer.id) :
    (cetcdRaftAddPeer r j false).conf = r.conf ∧
      (cetcdRaftAddPeer r j false).mem.peers = r.mem.peers ++ [⟨j, false⟩] ∧
      (cetcdRaftAddPeer r j false).mem.outgoing = r.mem.outgoing ∧
      (Pristine (view r) → Pristine (view (cetcdRaftAddPeer r j false))) := by
  have hhas : hasPeer r j = false := by
    unfold hasPeer
    rw [any_eq_false]
    intro p hp hpj
    exact hnew (mem_map.2 ⟨p, hp, by simpa using hpj⟩)
  unfold cetcdRaftAddPeer addPeer
  rw [if_neg hj, if_neg (by rw [hhas]; decide), if_neg (by rw [hhas]; decide)]
  exact ⟨rfl, rfl, rfl, fun h => ⟨h.term, h.vote, h.commit, h.applied, h.role, h.rlog, h.out⟩⟩

lemma addVoters_spec {others : List Nat} (hzero : 0 ∉ others)
    (hnodup : (r.mem.peers.map Peer.id ++ others).Nodup) (hpris : Pristine (view r))
    (hvoters : ∀ p ∈ r.mem.peers, p.learner = false) :
    let r' := others.foldl (fun acc j => cetcdRaftAddPeer acc j false) r
    r'.conf = r.conf ∧ r'.mem.peers.map Peer.id = r.mem.peers.map Peer.id ++ others ∧
      (∀ p ∈ r'.mem.peers, p.learner = false) ∧ r'.mem.outgoing = r.mem.outgoing ∧
      Pristine (view r') := by
  induction others generalizing r with
  | nil => exact ⟨rfl, by simp, hvoters, rfl, hpris⟩
  | cons j others ih =>
    have hj : j ≠ 0 := fun h => hzero (by simp [h])
    have hnew : j ∉ r.mem.peers.map Peer.id := by
      intro hmem
      exact (nodup_append.1 hnodup).2.2 j hmem j (by simp) rfl
    rcases addVoter_spec hj hnew with ⟨hconf, hpeers, hout, hnext⟩
    have hids : (cetcdRaftAddPeer r j false).mem.peers.map Peer.id =
        r.mem.peers.map Peer.id ++ [j] := by
      rw [hpeers, map_append]
      rfl
    have hrest := ih (r := cetcdRaftAddPeer r j false) (fun h => hzero (mem_cons_of_mem _ h))
      (by rw [hids, append_assoc]; exact hnodup) (hnext hpris) (by
        intro p hp
        rw [hpeers] at hp
        rcases mem_append.1 hp with hp | hp
        · exact hvoters p hp
        · rw [mem_singleton.1 hp])
    rcases hrest with ⟨h1, h2, h3, h4, h5⟩
    refine ⟨h1.trans hconf, ?_, h3, h4.trans hout, h5⟩
    rw [foldl_cons, h2, hids, append_assoc]
    rfl

lemma Fresh.spec {i : Nat} (h : Cluster.Fresh V i r) :
    Member V i r.conf r.mem ∧ Pristine (view r) := by
  obtain ⟨cfg, others, r0, hid, hperm, hnew, rfl⟩ := h
  have hzero : 0 ∉ i :: others := fun h0 => V.nonzero (hperm.mem_iff.1 h0)
  have hnodup : (i :: others).Nodup := hperm.nodup_iff.2 V.nodup
  have h0 : r0.conf.id = i ∧ r0.mem.peers = [⟨i, false⟩] ∧ r0.mem.outgoing = [] ∧
      Pristine (view r0) := by
    unfold cetcdRaftNew at hnew
    split at hnew
    · cases hnew
    split at hnew
    · cases hnew
    cases hnew
    exact ⟨hid, by rw [← hid]; rfl, rfl, rfl, rfl, rfl, rfl, rfl, rfl, rfl⟩
  obtain ⟨hconf, hpeers, hout, hpris⟩ := h0
  have hall := addVoters_spec (r := r0)
    (fun h : 0 ∈ others => hzero (mem_cons_of_mem _ h)) (by rw [hpeers]; exact hnodup) hpris
    (by rw [hpeers]; simp)
  obtain ⟨h1, h2, h3, h4, h5⟩ := hall
  refine ⟨⟨by rw [h1, hconf], ?_, h3, h4.trans hout⟩, h5⟩
  rw [h2, hpeers]
  exact hperm

lemma Idle.initial (h : Cluster.Initial V c) : Idle V c :=
  ⟨fun i hi => (Fresh.spec (h.2 i hi)).1, fun i hi => (Fresh.spec (h.2 i hi)).2.out⟩

lemma onNet_initial (h : Cluster.Initial V c) (m : Msg) : ¬ onNet c m := by
  rintro ⟨p, hp, _⟩
  rw [h.1] at hp
  cases hp

end

section

variable {K : Checks} {V : Voters} {c : Cluster} {i : Nat} {a : Action}
  {I : (Nat → View) → (Msg → Prop) → Ghost → Prop} {g : Ghost}

lemma views_perform (c : Cluster) (i : Nat) (r : Raft) : views (c.perform i r) =
      update (views c) i
        { view r with applied := max r.applied r.commit, out := [] } := by
  funext j
  unfold views Cluster.perform
  by_cases hj : j = i
  · subst hj
    simp only [update_self]
    unfold cetcdRaftAdvance cetcdRaftReady
    dsimp only
    split
    · rename_i h
      rw [max_eq_right h.le]
      rfl
    rename_i h
    rw [max_eq_left (by omega)]
    rfl
  · simp [update_of_ne hj]

lemma views_update_rlog (c : Cluster) (i : Nat) (l : RaftLog) :
    views { c with node := update c.node i { c.node i with rlog := l } } =
      update (views c) i { view (c.node i) with rlog := l } := by
  funext j
  unfold views
  by_cases hj : j = i
  · subst hj
    simp only [update_self]
    rfl
  · simp [update_of_ne hj]

lemma onNet_perform {r : Raft} {m : Msg} :
    onNet (c.perform i r) m ↔ onNet c m ∨ m ∈ (view r).out := by
  unfold onNet Cluster.perform
  constructor
  · rintro ⟨p, hp, rfl⟩
    obtain hp | hp := mem_append.1 hp
    · exact .inl ⟨p, hp, rfl⟩
    obtain ⟨m, hm, rfl⟩ := mem_map.1 hp
    exact .inr hm
  rintro (⟨p, hp, rfl⟩ | hm)
  · exact ⟨p, mem_append_left _ hp, rfl⟩
  · exact ⟨⟨m, r⟩, mem_append_right _ (mem_map.2 ⟨m, hm, rfl⟩), rfl⟩

lemma next_cases (hidle : Idle V c) (hen : Cluster.Enabled V c a) (hok : K.ok c a) :
    (∃ i ∈ V.ids, ∃ r, Turn K V (onNet c) (views c i) (view r) ∧ c.next a = c.perform i r) ∨
      ∃ i ∈ V.ids, ∃ s, c.next a =
        { c with node := update c.node i (Cluster.snapshotTruncate (c.node i) s) } := by
  cases a with
  | tick i =>
    exact .inl ⟨i, hen, _, turn_cetcdRaftTick (hidle.member i hen) (hidle.out i hen), rfl⟩
  | input i m =>
    refine .inl ⟨i, hen.1, _, turn_cetcdRaftStep (hidle.member i hen.1) (hidle.out i hen.1) ?_, rfl⟩
    intro hnot
    rw [hen.2] at hnot
    cases hnot
  | confChange i data =>
    exact .inl ⟨i, hen, _, turn_cetcdRaftProposeConfChange (hidle.member i hen) (hidle.out i hen) data,
      rfl⟩
  | deliver p =>
    refine .inl ⟨p.msg.dest, hen.2, _, turn_cetcdRaftStep (hidle.member _ hen.2)
      (hidle.out _ hen.2) ?_, rfl⟩
    intro _
    exact ⟨⟨p, hen.1, rfl⟩, rfl, hok⟩
  | compact i s => exact .inr ⟨i, hen, s, rfl⟩

lemma snapshotTruncate_cases (net : Msg → Prop) (r : Raft) (s : Nat) (hout : r.pending.msgs = []) :
    Cluster.snapshotTruncate r s = r ∨ ∃ l, Cluster.snapshotTruncate r s = { r with rlog := l } ∧
        MoveStep K V net (view r) (.compact s) { view r with rlog := l } := by
  unfold Cluster.snapshotTruncate
  split
  · rename_i hle
    split
    · rename_i ce hce
      unfold cetcdRaftCompact
      split
      · exact .inl rfl
      rename_i l hl
      exact .inr ⟨l, rfl, .compact hout hle hce hl⟩
    · exact .inl rfl
  · exact .inl rfl

/-- One node makes a turn, settles, and what it has said is sent; or it compacts its log or does
nothing. -/
def MovesTo (K : Checks) (V : Voters) (c c' : Cluster) : Prop :=
  ∃ i ∈ V.ids, ∃ v', views c' = update (views c) i v' ∧
    ((∃ v, Turn K V (onNet c) (views c i) v ∧ MoveStep K V (onNet c) v .settle v' ∧
        ∀ m, onNet c' m ↔ onNet c m ∨ m ∈ v.out) ∨
      (v' = views c i ∨ ∃ s, MoveStep K V (onNet c) (views c i) (.compact s) v') ∧
        ∀ m, onNet c' m ↔ onNet c m)

lemma next_movesTo (hidle : Idle V c) (hen : Cluster.Enabled V c a) (hok : K.ok c a) :
    MovesTo K V c (c.next a) := by
  obtain ⟨i, hi, r, hturn, hnext⟩ | ⟨i, hi, s, hnext⟩ := next_cases hidle hen hok
  all_goals rw [hnext]
  · exact ⟨i, hi, _, views_perform c i r, .inl ⟨_, hturn, .settle, fun _ => onNet_perform⟩⟩
  obtain h | ⟨l, h, hmove⟩ := snapshotTruncate_cases (onNet c) (c.node i) s (hidle.out i hi)
  · exact ⟨i, hi, _, by rw [h, update_eq_self, update_eq_self], .inr ⟨.inl rfl, fun _ => .rfl⟩⟩
  · exact ⟨i, hi, _, by rw [h, views_update_rlog], .inr ⟨.inr ⟨s, hmove⟩, fun _ => .rfl⟩⟩

/-- A step keeps at every node what no move breaks. -/
lemma MovesTo.keeps {c' : Cluster} {P : View → Prop} (h : MovesTo K V c c')
    (hmove : ∀ {net v mv v'}, MoveStep K V net v mv v' → P v → P v') (hi : P (views c i)) :
    P (views c' i) := by
  obtain ⟨j, -, v', hviews, hcase⟩ := h
  rw [hviews]
  by_cases hij : i = j
  · subst hij
    rw [update_self]
    obtain ⟨v, ⟨w, hlocal, hleads⟩, hsettle, -⟩ | ⟨rfl | ⟨s, hcompact⟩, -⟩ := hcase
    · have hw := Moves.induct hlocal (fun _ _ _ _ => hmove) hi
      exact hmove hsettle (Moves.induct hleads (fun _ _ _ _ => hmove) hw)
    · exact hi
    · exact hmove hcompact hi
  · rwa [update_of_ne hij]

lemma Idle.next (hidle : Idle V c) (hen : Cluster.Enabled V c a) (hok : K.ok c a) :
    Idle V (c.next a) := by
  have hmoves := next_movesTo hidle hen hok
  refine ⟨fun i hi => ?_, fun i hi => ?_⟩
  · refine hmoves.keeps (P := fun v => Member V i v.conf v.mem) ?_ (hidle.member i hi)
    intro net v mv v' hmove hv
    rwa [hmove.config.1, hmove.config.2]
  obtain ⟨j, -, v', hviews, hcase⟩ := hmoves
  change (views (c.next a) i).out = []
  rw [hviews]
  by_cases hij : i = j
  · subst hij
    rw [update_self]
    obtain ⟨v, -, ⟨⟩, -⟩ | ⟨rfl | ⟨s, ⟨⟩⟩, -⟩ := hcase
    exacts [rfl, hidle.out i hi, hidle.out i hi]
  · rw [update_of_ne hij]
    exact hidle.out i hi

/-- The invariant holds after a step from `c` to `c'`, with what the step records and sends. -/
def CarriesOver (V : Voters) (I : (Nat → View) → (Msg → Prop) → Ghost → Prop) (g : Ghost)
    (c c' : Cluster) : Prop :=
  ∃ g', I (views c') (onNet c') g' ∧ (∀ j t, g'.led j t → g.led j t ∨
      (j ∈ V.ids ∧ (c'.node j).role = .leader ∧ (c'.node j).term = t)) ∧
    ∀ p ∈ c'.sent, p ∈ c.sent ∨
      ∃ nodes N i, i ∈ V.ids ∧ I nodes N g' ∧ nodes i = view p.origin ∧ p.msg ∈ (nodes i).out

lemma Stable.perform (hI : Stable K V I) (hidle : Idle V c) (hi : i ∈ V.ids) {r : Raft}
    (hturn : Turn K V (onNet c) (views c i) (view r)) (hinv : I (views c) (onNet c) g) :
    CarriesOver V I g c (c.perform i r) := by
  obtain ⟨g', hmid, hrec⟩ := Midway.turn hI hi hturn (hidle.out i hi) hinv
  -- the Ready is taken: one more move, which empties `out`
  have hmove : MoveStep K V (fun m => onNet c m ∨ m ∈ (view r).out)
      (update (views c) i (view r) i) .settle
      { view r with applied := max r.applied r.commit, out := [] } := by
    rw [update_self]
    exact .settle
  have hsettle := hI hi (by rw [update_self]; exact fun m hm => .inr hm) hmove hmid
  rw [update_idem, update_self, ← views_perform] at hsettle
  have hnet : (fun m => (onNet c m ∨ m ∈ (view r).out) ∨
      m ∈ ({ view r with applied := max r.applied r.commit, out := [] } : View).out) =
      onNet (c.perform i r) := by
    funext m
    rw [propext onNet_perform]
    simp
  rw [hnet] at hsettle
  refine ⟨g', hsettle, ?_, ?_⟩
  · intro j t hjt
    obtain hg | ⟨_, rfl, hrole, ht⟩ := hrec j t hjt
    · exact .inl hg
    have hj' := congrFun (views_perform c j r) j
    rw [update_self] at hj'
    exact .inr ⟨hi, (congrArg View.role hj').trans hrole, (congrArg View.term hj').trans ht.symm⟩
  intro p hp
  obtain hp | hp := mem_append.1 hp
  · exact .inl hp
  obtain ⟨m, hm, rfl⟩ := mem_map.1 hp
  exact .inr ⟨_, _, i, hi, hmid, update_self .., by rwa [update_self]⟩

lemma Stable.truncate (hI : Stable K V I) (hidle : Idle V c) (hi : i ∈ V.ids) (s : Nat)
    (hinv : I (views c) (onNet c) g) :
    I (views { c with node := update c.node i (Cluster.snapshotTruncate (c.node i) s) })
      (onNet c) g := by
  have hout : (view (c.node i)).out = [] := hidle.out i hi
  rcases snapshotTruncate_cases (K := K) (V := V) (onNet c) (c.node i) s hout with
    h | ⟨l, h, hstep⟩
  · rw [h, update_eq_self]
    exact hinv
  have hcomp := hI hi (by rw [show (views c i).out = [] from hout]; simp) hstep hinv
  have hnet : (fun m => onNet c m ∨ m ∈ ({ view (c.node i) with rlog := l } : View).out) =
      onNet c := by
    funext m
    simp [hout]
  rw [hnet] at hcomp
  rw [h, views_update_rlog]
  exact hcomp

/-- A stable invariant survives every step. A leader new on the record is in office, and the origin
of a new packet is a node of a state midway that satisfies the invariant too. -/
lemma Stable.next (hI : Stable K V I) (hidle : Idle V c) (hen : Cluster.Enabled V c a)
    (hok : K.ok c a) (hinv : I (views c) (onNet c) g) : CarriesOver V I g c (c.next a) := by
  obtain ⟨i, hi, r, hturn, hnext⟩ | ⟨i, hi, s, hnext⟩ := next_cases hidle hen hok
  · rw [hnext]
    exact hI.perform hidle hi hturn hinv
  rw [hnext]
  exact ⟨g, hI.truncate hidle hi s hinv, fun _ _ h => .inl h, fun _ h => .inl h⟩

end

/-! ## Invariants of runs -/

/-- `J` with what it makes true for good of every state (`A`) and of every packet (`B`). -/
structure Kept (K : Checks) (V : Voters) (J : (Nat → View) → (Msg → Prop) → Ghost → Prop)
    (A : Ghost → Nat → View → Prop) (B : Ghost → Msg → View → Prop) : Prop where
  init : ∀ {nodes net}, (∀ i ∈ V.ids, Member V i (nodes i).conf (nodes i).mem ∧
    Pristine (nodes i)) → (∀ m, ¬ net m) → J nodes net Ghost.none
  stable : Stable K V J
  state : ∀ {nodes net g i}, i ∈ V.ids → J nodes net g → A g i (nodes i)
  packet : ∀ {nodes net g i m}, i ∈ V.ids → J nodes net g → m ∈ (nodes i).out → B g m (nodes i)
  state_step : ∀ {nodes net g i mv v'}, i ∈ V.ids → (∀ m ∈ (nodes i).out, net m) →
    MoveStep K V net (nodes i) mv v' → J nodes net g →
    ∀ j v, A g j v → A (g.after i (nodes i) mv) j v
  packet_step : ∀ {nodes net g i mv v'}, i ∈ V.ids → (∀ m ∈ (nodes i).out, net m) →
    MoveStep K V net (nodes i) mv v' → J nodes net g →
    ∀ m v, B g m v → B (g.after i (nodes i) mv) m v

section

variable {K : Checks} {V : Voters} {J : (Nat → View) → (Msg → Prop) → Ghost → Prop}
  {A : Ghost → Nat → View → Prop} {B : Ghost → Msg → View → Prop}

lemma Kept.remember (h : Kept K V J A B) (S : Nat → View → Prop) (P : Msg → View → Prop) :
    Stable K V (fun nodes net g => J nodes net g ∧ (∀ i v, S i v → A g i v) ∧
      ∀ m v, P m v → B g m v) := by
  intro nodes net g i mv v' hi hout hstep hJ
  exact ⟨h.stable hi hout hstep hJ.1, fun j v hS => h.state_step hi hout hstep hJ.1 j v (hJ.2.1 j v hS),
    fun m v hP => h.packet_step hi hout hstep hJ.1 m v (hJ.2.2 m v hP)⟩

structure Remembered (V : Voters) (J : (Nat → View) → (Msg → Prop) → Ghost → Prop)
    (A : Ghost → Nat → View → Prop) (B : Ghost → Msg → View → Prop) (g : Ghost) (c : Cluster)
    (hist : List Cluster) : Prop where
  now : J (views c) (onNet c) g
  states : ∀ c1 ∈ c :: hist, ∀ i ∈ V.ids, A g i (views c1 i)
  packets : ∀ p ∈ c.sent, B g p.msg (view p.origin)
  led : ∀ j t, g.led j t → ∃ c1 ∈ c :: hist, j ∈ V.ids ∧ (c1.node j).role = .leader ∧
    (c1.node j).term = t

lemma Kept.run (h : Kept K V J A B) {c : Cluster} {hist : List Cluster}
    (hrun : Cluster.Run V K.ok (c :: hist)) :
    Idle V c ∧ ∃ g, Remembered V J A B g c hist := by
  generalize hall : c :: hist = all at hrun
  induction hrun generalizing c hist with
  | start hinit =>
    obtain ⟨rfl, rfl⟩ := List.cons.inj hall
    have hpris := fun i hi => Fresh.spec (hinit.2 i hi)
    have hJ : J (views c) (onNet c) Ghost.none := h.init hpris (onNet_initial hinit)
    refine ⟨Idle.initial hinit, Ghost.none, hJ, ?_, ?_, ?_⟩
    · intro c1 hc1 i hi
      rw [mem_singleton.1 hc1]
      exact h.state hi hJ
    · intro p hp
      rw [hinit.1] at hp
      cases hp
    intro j t hjt
    cases hjt
  | @step s s' hist' a _ hstep ih =>
    cases hall
    obtain ⟨hidle, g, hnow, hstates, hpackets, hled⟩ := ih rfl
    obtain ⟨hen, hok, rfl⟩ := hstep
    have hstable := h.remember (fun i v => ∃ c1 ∈ s :: hist', i ∈ V.ids ∧ views c1 i = v)
      (fun m v => ∃ p ∈ s.sent, p.msg = m ∧ view p.origin = v)
    have hbefore : ∀ i v, (∃ c1 ∈ s :: hist', i ∈ V.ids ∧ views c1 i = v) → A g i v := by
      rintro i v ⟨c1, hc1, hi, rfl⟩
      exact hstates c1 hc1 i hi
    have hsent : ∀ m v, (∃ p ∈ s.sent, p.msg = m ∧ view p.origin = v) → B g m v := by
      rintro m v ⟨p, hp, rfl, rfl⟩
      exact hpackets p hp
    rcases hstable.next hidle hen hok (g := g) ⟨hnow, hbefore, hsent⟩ with
      ⟨g', ⟨hnow', hold, holdp⟩, hled', hnew⟩
    refine ⟨hidle.next hen hok, g', hnow', ?_, ?_, ?_⟩
    · intro c1 hc1 i hi
      obtain rfl | hc1 := mem_cons.1 hc1
      · exact h.state hi hnow'
      · exact hold i _ ⟨c1, hc1, hi, rfl⟩
    · intro p hp
      obtain hp | ⟨nodes, N, i, hi, hmid, horig, hmsg⟩ := hnew p hp
      · exact holdp _ _ ⟨p, hp, rfl, rfl⟩
      rw [← horig]
      exact h.packet hi hmid.1 hmsg
    intro j t hjt
    obtain hjt | hoffice := hled' j t hjt
    · obtain ⟨c1, hc1, hlead⟩ := hled j t hjt
      exact ⟨c1, mem_cons_of_mem _ hc1, hlead⟩
    · exact ⟨_, mem_cons_self, hoffice⟩

end

end Cetcd.Protocol
