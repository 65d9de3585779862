import Cetcd.Raft.Config
import Cetcd.Lib.OrdMap

/-!
# The members of a node that starts

Three tables hold the members: the bucket in the backend, the cluster table and the peer table of
the Raft node. `cetcd_server_start` loads the first into the other two and applies what was
committed and not applied. The configured peers are put into the cluster table only: the Raft node
does not hear of them.
-/

namespace Cetcd.Member

open Lib Raft List OrdMap

/-! ## The tables -/

structure Tables where
  raft : Raft
  /-- `cetcd_cluster`; the order of the array is not modelled. -/
  cluster : List Peer
  /-- The bucket `members`: the ids and whether they are learners. -/
  members : OrdMap Nat Bool
  /-- The outgoing configuration in the bucket, with its index. -/
  joint : List Nat × Nat

def clusterAdd (c : List Peer) (p : Peer) : List Peer :=
  if c.any fun q => q.id = p.id then c else c ++ [p]

def clusterGet (c : List Peer) (id : Nat) : Option Peer := c.find? fun p => p.id = id

/-- `begin_voter_joint_`, unless the node is in a joint configuration. -/
def voterJoint (t : Tables) : Option Tables :=
  if cetcdRaftInJoint t.raft then some t
  else
    match cetcdRaftEnterJoint t.raft with
    | none => none
    | some r => some { t with raft := r, joint := (r.mem.outgoing.take 16, r.mem.jointIndex) }

/-- The three removals of `apply_member_` and of `force_new_cluster_`. -/
def dropMember (t : Tables) (id : Nat) : Tables :=
  { t with
    raft := cetcdRaftRemovePeer t.raft id
    cluster := t.cluster.filter fun p => p.id ≠ id
    members := t.members.erase id }

inductive MemberOp
  | add (id : Nat) (learner : Bool)
  | remove (id : Nat)
  | promote (id : Nat)
  | update (id : Nat)
  | leaveJoint
  deriving DecidableEq

/-- `apply_member_`, and `CETCD_APPLY_LEAVE_JOINT`. Addresses are not modelled, and no write fails;
those of a change that may fail are those of `Site.applyMember`. -/
def applyMemberOp (t : Tables) : MemberOp → Tables
  | .add id learner =>
    if id = 0 then t
    else
      match if learner then some t else voterJoint t with
      | none => t
      | some t =>
        { t with
          raft := cetcdRaftAddPeer t.raft id learner
          cluster := clusterAdd t.cluster ⟨id, learner⟩
          members := t.members.insert id learner }
  | .remove id =>
    if id = 0 then t
    else
      match clusterGet t.cluster id with
      | some ⟨_, false⟩ =>
        match voterJoint t with
        | none => t
        | some t => dropMember t id
      | _ => dropMember t id
  | .promote id =>
    match clusterGet t.cluster id with
    | some ⟨_, true⟩ =>
      match voterJoint t with
      | none => t
      | some t =>
        { t with
          raft := (cetcdRaftPromote t.raft id).getD t.raft
          cluster := t.cluster.map fun p => if p.id = id then ⟨id, false⟩ else p
          members := t.members.insert id false }
    | _ => t
  | .update id =>
    if id = 0 then t
    else
      { t with
        members := t.members.insert id (((clusterGet t.cluster id).map Peer.learner).getD false) }
  | .leaveJoint => { t with raft := cetcdRaftLeaveJoint t.raft, joint := ([], 0) }

/-! ## Start -/

structure StartConfig where
  raft : RaftConfig
  /-- The ids of the configured peers. -/
  initialPeers : List Nat
  /-- There is a data directory, hence a backend. -/
  dataDir : Bool
  forceNewCluster : Bool
  deriving DecidableEq

/-- `cetcd_cluster_load`; the id zero stands for the joint configuration. The rows come by number;
LMDB has them in the order of the bytes of their keys, which decides only where in the tables a
member stands, and which 64 go when there are more. -/
def loadCluster (members : OrdMap Nat Bool) : List Peer :=
  (members.entries.filter fun e => e.1 ≠ 0).map fun e => ⟨e.1, e.2⟩

def forceNew (t : Tables) : Tables :=
  let drop := ((t.cluster.map Peer.id).filter fun id => id ≠ t.raft.conf.id).take 64
  { drop.foldl dropMember t with joint := ([], 0) }

/-- The configured peers that are left to add. -/
def StartConfig.peers (cfg : StartConfig) : List Nat :=
  if cfg.dataDir && cfg.forceNewCluster then [] else cfg.initialPeers

def loadTables (cfg : StartConfig) (r : Raft) (members : OrdMap Nat Bool) (joint : List Nat × Nat) :
    Tables :=
  let cluster := loadCluster members
  let t : Tables :=
    { raft := cetcdRaftRestoreJoint (addPeers r cluster) joint.1 joint.2
      cluster := cluster, members := members, joint := joint }
  if cfg.forceNewCluster then forceNew t else t

/-- `cetcd_server_start`, as far as the members go; `replayed` are entries that it applies. -/
def serverStart (cfg : StartConfig) (members : OrdMap Nat Bool) (joint : List Nat × Nat)
    (replayed : List MemberOp) : Option Tables :=
  match cetcdRaftNew cfg.raft with
  | none => none
  | some r =>
    let t : Tables :=
      if cfg.dataDir then replayed.foldl applyMemberOp (loadTables cfg r members joint)
      else { raft := r, cluster := [], members := .empty, joint := ([], 0) }
    some { t with cluster := cfg.peers.foldl (fun c id => clusterAdd c ⟨id, false⟩) t.cluster }

/-! ## Agreement of the tables -/

/-- The peers are the node itself, as a voter, and the members on disk; so is the cluster table. -/
structure Aligned (me : Nat) (t : Tables) : Prop where
  conf : t.raft.conf.id = me
  nodup : (t.raft.mem.peers.map Peer.id).Nodup
  own : ∀ l, ⟨me, l⟩ ∈ t.raft.mem.peers ↔ l = false
  peer : ∀ id l, id ≠ me → (⟨id, l⟩ ∈ t.raft.mem.peers ↔ id ≠ 0 ∧ t.members.find id = some l)
  cluster : ∀ id l, ⟨id, l⟩ ∈ t.cluster ↔ id ≠ 0 ∧ t.members.find id = some l

/-- What an entry means to the members on disk. -/
def memberStep (members : OrdMap Nat Bool) : MemberOp → OrdMap Nat Bool
  | .add id learner => if id = 0 then members else members.insert id learner
  | .remove id => if id = 0 then members else members.erase id
  | .promote id =>
    if id ≠ 0 ∧ members.find id = some true then members.insert id false else members
  | .update _ => members
  | .leaveJoint => members

/-- A member is not added again in another role, and no unknown member is updated. -/
def PlainEntry (members : OrdMap Nat Bool) : MemberOp → Prop
  | .add id learner => members.find id = none ∨ members.find id = some learner
  | .update id => id = 0 ∨ members.find id ≠ none
  | _ => True

def PlainEntries : OrdMap Nat Bool → List MemberOp → Prop
  | _, [] => True
  | members, op :: ops => PlainEntry members op ∧ PlainEntries (memberStep members op) ops

/-- The members that the start finds in the backend, those it forces out excepted. -/
def StartConfig.found (cfg : StartConfig) (members : OrdMap Nat Bool) : OrdMap Nat Bool :=
  if cfg.forceNewCluster then
    ((((loadCluster members).map Peer.id).filter fun id => id ≠ cfg.raft.id).take 64).foldl
      OrdMap.erase members
  else members

def StartConfig.persisted (cfg : StartConfig) (members : OrdMap Nat Bool)
    (replayed : List MemberOp) : OrdMap Nat Bool :=
  if cfg.dataDir then replayed.foldl memberStep (cfg.found members) else .empty

/-- The node and the members that are no learners. -/
def voterIds (me : Nat) (members : OrdMap Nat Bool) : List Nat :=
  me :: (members.entries.filter fun e => e.1 ≠ 0 ∧ e.1 ≠ me ∧ e.2 = false).map Prod.fst

section

variable {ps : List Peer} {id i : Nat} {r : Raft}

section

variable (hnodup : (ps.map Peer.id).Nodup) (h : ps.findIdx? (fun p => p.id == id) = some i)

include hnodup h

lemma split_of_findIdx? : ∃ as p bs, ps = as ++ p :: bs ∧ as.length = i ∧ p.id = id ∧
    ∀ q ∈ as ++ bs, q.id ≠ id := by
  obtain ⟨hi, hp, _⟩ := findIdx?_eq_some_iff_getElem.1 h
  have hid : ps[i].id = id := by simpa using hp
  have hps : ps = ps.take i ++ ps[i] :: ps.drop (i + 1) := by
    rw [← drop_eq_getElem_cons hi, take_append_drop]
  refine ⟨_, _, _, hps, length_take_of_le hi.le, hid, fun q hq hqid => ?_⟩
  rw [hps, map_append, map_cons, nodup_middle, nodup_cons, ← map_append] at hnodup
  exact hnodup.1 (mem_map.2 ⟨q, hq, hqid.trans hid.symm⟩)

lemma eraseIdx_eq_filter : ps.eraseIdx i = ps.filter fun p => p.id ≠ id := by
  obtain ⟨as, p, bs, rfl, rfl, hp, hne⟩ := split_of_findIdx? hnodup h
  rw [eraseIdx_append_of_length_le le_rfl, Nat.sub_self, eraseIdx_cons_zero, filter_append,
    filter_cons_of_neg (by simp [hp]), ← filter_append]
  exact (filter_eq_self.2 fun q hq => decide_eq_true (hne q hq)).symm

lemma set_eq_map (q : Peer) : ps.set i q = ps.map fun p => if p.id = id then q else p := by
  obtain ⟨as, p, bs, rfl, rfl, hp, hne⟩ := split_of_findIdx? hnodup h
  have hmap : ∀ qs ⊆ as ++ bs, (qs.map fun p => if p.id = id then q else p) = qs := fun qs hqs =>
    (map_congr_left fun r hr => if_neg (hne r (hqs hr))).trans (map_id qs)
  rw [set_append_right _ _ le_rfl, Nat.sub_self, set_cons_zero, map_append, map_cons, if_pos hp,
    hmap as (subset_append_left _ _), hmap bs (subset_append_right _ _)]

end

lemma mem_removePeer (hnodup : (r.mem.peers.map Peer.id).Nodup) (hme : id ≠ r.conf.id)
    (hzero : id ≠ 0) :
    (cetcdRaftRemovePeer r id).mem.peers = r.mem.peers.filter fun p => p.id ≠ id := by
  unfold cetcdRaftRemovePeer
  rw [if_neg (not_or.2 ⟨hzero, hme⟩)]
  cases hfind : r.mem.peers.findIdx? (fun p => p.id == id) with
  | none =>
    refine (filter_eq_self.2 fun p hp => ?_).symm
    have hne := List.findIdx?_eq_none_iff.1 hfind p hp
    simpa using hne
  | some i => exact eraseIdx_eq_filter hnodup hfind

lemma mem_addPeer (hzero : id ≠ 0) (l : Bool) : (cetcdRaftAddPeer r id l).mem.peers =
      if hasPeer r id then r.mem.peers else r.mem.peers ++ [⟨id, l⟩] := by
  unfold cetcdRaftAddPeer addPeer
  rw [if_neg hzero]
  cases hasPeer r id <;> simp

lemma hasPeer_iff : hasPeer r id ↔ ∃ l, ⟨id, l⟩ ∈ r.mem.peers := by
  unfold hasPeer
  rw [any_eq_true]
  constructor
  · rintro ⟨⟨pid, l⟩, hp, hid⟩
    obtain rfl : pid = id := by simpa using hid
    exact ⟨l, hp⟩
  rintro ⟨l, hl⟩
  exact ⟨_, hl, by simp⟩

lemma nodup_addPeer (hnodup : (r.mem.peers.map Peer.id).Nodup) (hzero : id ≠ 0) (l : Bool) :
    ((cetcdRaftAddPeer r id l).mem.peers.map Peer.id).Nodup := by
  rw [mem_addPeer hzero l]
  split
  · exact hnodup
  rename_i hnew
  rw [map_append, nodup_append]
  refine ⟨hnodup, by simp, ?_⟩
  intro a ha b hb hab
  obtain ⟨p, hp, rfl⟩ := mem_map.1 ha
  have hb' : b = id := by simpa using hb
  refine hnew (hasPeer_iff.2 ⟨p.learner, ?_⟩)
  rw [← hb', ← hab]
  exact hp

lemma hasPeer_addPeer (hzero : id ≠ 0) (l : Bool) {j : Nat} (hj : j ≠ id) :
    hasPeer (cetcdRaftAddPeer r id l) j = hasPeer r j := by
  unfold hasPeer
  rw [mem_addPeer hzero l]
  split
  · rfl
  · simp [hj.symm]

lemma mem_addPeers (hzero : ∀ p ∈ ps, p.id ≠ 0) (hnodup : (ps.map Peer.id).Nodup) (q : Peer) :
    q ∈ (addPeers r ps).mem.peers ↔ q ∈ r.mem.peers ∨ (q ∈ ps ∧ hasPeer r q.id = false) := by
  induction ps generalizing r with
  | nil => simp [addPeers]
  | cons p ps ih =>
    rw [map_cons, nodup_cons] at hnodup
    have hp := hzero p mem_cons_self
    -- the peers behind `p` have other ids
    have hrest : ∀ q ∈ ps, hasPeer (cetcdRaftAddPeer r p.id p.learner) q.id = hasPeer r q.id :=
      fun q hq => hasPeer_addPeer hp _ fun heq => hnodup.1 (mem_map.2 ⟨q, hq, heq⟩)
    change q ∈ (addPeers (cetcdRaftAddPeer r p.id p.learner) ps).mem.peers ↔ _
    rw [ih (fun q hq => hzero q (mem_cons_of_mem _ hq)) hnodup.2,
      and_congr_right fun hq => by rw [hrest q hq], mem_addPeer hp, mem_cons]
    by_cases hnew : hasPeer r p.id = true
    · rw [if_pos hnew]
      constructor
      · rintro (hq | hq)
        · exact Or.inl hq
        · exact Or.inr ⟨Or.inr hq.1, hq.2⟩
      rintro (hq | ⟨rfl | hq, hfalse⟩)
      · exact Or.inl hq
      · rw [hnew] at hfalse
        cases hfalse
      · exact Or.inr ⟨hq, hfalse⟩
    rw [if_neg hnew, mem_append, mem_singleton]
    constructor
    · rintro ((hq | rfl) | hq)
      · exact Or.inl hq
      · exact Or.inr ⟨Or.inl rfl, Bool.eq_false_iff.2 hnew⟩
      · exact Or.inr ⟨Or.inr hq.1, hq.2⟩
    rintro (hq | ⟨rfl | hq, hfalse⟩)
    · exact Or.inl (Or.inl hq)
    · exact Or.inl (Or.inr rfl)
    · exact Or.inr ⟨hq, hfalse⟩

lemma nodup_addPeers (hzero : ∀ p ∈ ps, p.id ≠ 0) (hnodup : (r.mem.peers.map Peer.id).Nodup) :
    ((addPeers r ps).mem.peers.map Peer.id).Nodup := by
  induction ps generalizing r with
  | nil => exact hnodup
  | cons p ps ih =>
    exact ih (fun q hq => hzero q (mem_cons_of_mem _ hq))
      (nodup_addPeer hnodup (hzero p mem_cons_self) p.learner)

lemma mem_promote (hnodup : (r.mem.peers.map Peer.id).Nodup) (hzero : id ≠ 0) :
    ((cetcdRaftPromote r id).getD r).conf = r.conf ∧ ((cetcdRaftPromote r id).getD r).mem.peers =
        r.mem.peers.map fun p => if p.id = id then ⟨id, false⟩ else p := by
  unfold cetcdRaftPromote
  rw [if_neg hzero]
  cases hfind : r.mem.peers.findIdx? (fun p => p.id == id) with
  | none =>
    refine ⟨rfl, ((map_congr_left fun p hp => ?_).trans (map_id _)).symm⟩
    have hne := List.findIdx?_eq_none_iff.1 hfind p hp
    exact if_neg (by simpa using hne)
  | some i =>
    obtain ⟨hi, hid, -⟩ := List.findIdx?_eq_some_iff_getElem.1 hfind
    have hget : r.mem.peers[i]? = some r.mem.peers[i] := List.getElem?_eq_getElem hi
    have hid' : r.mem.peers[i].id = id := by simpa using hid
    rcases hrow : r.mem.peers[i] with ⟨pid, l⟩
    rw [hrow] at hget hid'
    obtain rfl : pid = id := hid'
    cases l with
    | true =>
      simp only [hget, Option.getD_some]
      exact ⟨trivial, set_eq_map hnodup hfind _⟩
    | false =>
      -- a voter is left as it is
      simp only [hget, Option.getD_none]
      refine ⟨trivial, ((map_congr_left fun p hp => ?_).trans (map_id _)).symm⟩
      split
      · rename_i heq
        have hmem : (⟨pid, false⟩ : Peer) ∈ r.mem.peers := mem_of_getElem? hget
        exact (inj_on_of_nodup_map hnodup hp hmem heq).symm
      · rfl

end

/-! ## Every plain entry keeps the agreement -/

section

variable {me id : Nat} {t : Tables}

lemma Aligned.raft {r : Raft} {j : List Nat × Nat} (h : Aligned me t)
    (hconf : r.conf = t.raft.conf) (hpeers : r.mem.peers = t.raft.mem.peers) :
    Aligned me { t with raft := r, joint := j } where
  conf := (congrArg _ hconf).trans h.conf
  nodup := hpeers ▸ h.nodup
  own := hpeers ▸ h.own
  peer := hpeers ▸ h.peer
  cluster := h.cluster

lemma Aligned.voterJoint (h : Aligned me t) :
    ∃ t', voterJoint t = some t' ∧ Aligned me t' ∧ t'.members = t.members ∧
      t'.cluster = t.cluster := by
  have hvoter : incoming t.raft ≠ [] := by
    have hmem : me ∈ voters t.raft :=
      mem_map.2 ⟨⟨me, false⟩, mem_filter.2 ⟨(h.own false).2 rfl, rfl⟩, rfl⟩
    rw [incoming_eq_take, Ne, take_eq_nil_iff, not_or]
    exact ⟨by decide, ne_nil_of_mem hmem⟩
  unfold Member.voterJoint cetcdRaftInJoint cetcdRaftEnterJoint
  by_cases hjoint : t.raft.mem.outgoing = []
  · rw [if_neg (by simp [hjoint]), if_neg (not_not.2 hjoint), if_neg hvoter]
    exact ⟨_, rfl, h.raft rfl rfl, rfl, rfl⟩
  rw [if_pos (by simp [hjoint])]
  exact ⟨t, rfl, h, rfl, rfl⟩

lemma Aligned.clusterGet (h : Aligned me t) (id : Nat) :
    clusterGet t.cluster id = if id = 0 then none else (t.members.find id).map (Peer.mk id) := by
  have hmem : ∀ p, Member.clusterGet t.cluster id = some p →
      id ≠ 0 ∧ t.members.find id = some p.learner ∧ p.id = id := by
    intro p hp
    have hid : p.id = id := by simpa using List.find?_some hp
    have hrow := (h.cluster p.id p.learner).1 (mem_of_find?_eq_some hp)
    rw [hid] at hrow
    exact ⟨hrow.1, hrow.2, hid⟩
  cases hget : Member.clusterGet t.cluster id with
  | some p =>
    obtain ⟨hzero, hfind, hid⟩ := hmem p hget
    rw [if_neg hzero, hfind, Option.map_some, ← hid]
  | none =>
    split
    · rfl
    rename_i hzero
    cases hfind : t.members.find id with
    | none => rfl
    | some l =>
      have hrow := (h.cluster id l).2 ⟨hzero, hfind⟩
      exact absurd (List.find?_eq_none.1 hget _ hrow) (by simp)

lemma mem_clusterAdd {c : List Peer} {p q : Peer} :
    q ∈ clusterAdd c p ↔ q ∈ c ∨ (q = p ∧ ∀ r ∈ c, r.id ≠ p.id) := by
  unfold clusterAdd
  split
  · rename_i hany
    obtain ⟨r, hr, hid⟩ := any_eq_true.1 hany
    refine ⟨Or.inl, ?_⟩
    rintro (hq | ⟨_, hnone⟩)
    · exact hq
    · exact absurd (of_decide_eq_true hid) (hnone r hr)
  rename_i hany
  rw [mem_append, mem_singleton]
  refine or_congr_right ⟨fun hq => ⟨hq, fun r hr hid => hany ?_⟩, fun hq => hq.1⟩
  exact any_eq_true.2 ⟨r, hr, decide_eq_true hid⟩

section

variable {l : Bool} (h : Aligned me t) (hzero : id ≠ 0)
  (hplain : t.members.find id = none ∨ t.members.find id = some l)

include h hzero hplain

lemma Aligned.hasPeer_iff : hasPeer t.raft id ↔ id = me ∨ t.members.find id = some l := by
  rw [Member.hasPeer_iff]
  by_cases hme : id = me
  · subst hme
    exact iff_of_true ⟨false, (h.own false).2 rfl⟩ (Or.inl rfl)
  rw [or_iff_right hme]
  constructor
  · rintro ⟨l', hl'⟩
    have hsome := ((h.peer id l' hme).1 hl').2
    obtain hnone | hsame := hplain
    · rw [hnone] at hsome
      cases hsome
    · exact hsame
  · exact fun hsome => ⟨l, (h.peer id l hme).2 ⟨hzero, hsome⟩⟩

lemma Aligned.mem_add_peers {j : Nat} (hj : j ≠ me) (l' : Bool) :
    ⟨j, l'⟩ ∈ (cetcdRaftAddPeer t.raft id l).mem.peers ↔
      j ≠ 0 ∧ (t.members.insert id l).find j = some l' := by
  have hhas := h.hasPeer_iff hzero hplain
  rw [find_insert, mem_addPeer hzero l]
  split
  · rename_i hold
    rw [h.peer j l' hj]
    split
    · rename_i heq
      subst heq
      rw [(hhas.1 hold).resolve_left hj]
    · exact Iff.rfl
  rename_i hnew
  rw [mem_append, h.peer j l' hj]
  have hnone : t.members.find id = none :=
    hplain.resolve_right fun hsome => hnew (hhas.2 (Or.inr hsome))
  split
  · rename_i heq
    subst heq
    simp [hnone, hzero, eq_comm]
  rename_i hne
  simp [hne]

lemma Aligned.mem_add_cluster (j : Nat) (l' : Bool) :
    ⟨j, l'⟩ ∈ clusterAdd t.cluster ⟨id, l⟩ ↔ j ≠ 0 ∧ (t.members.insert id l).find j = some l' := by
  rw [find_insert, mem_clusterAdd, h.cluster]
  split
  · rename_i heq
    subst heq
    obtain hnone | hsame := hplain
    · have hnew : ∀ r ∈ t.cluster, r.id ≠ j := by
        rintro ⟨i, l''⟩ hr rfl
        have hsome := ((h.cluster i l'').1 hr).2
        rw [hnone] at hsome
        cases hsome
      simp only [hnone, reduceCtorEq, and_false, false_or, Peer.mk.injEq, true_and, Option.some.injEq]
      exact ⟨fun hq => ⟨hzero, hq.1.symm⟩, fun hq => ⟨hq.2.symm, hnew⟩⟩
    rw [hsame, or_iff_left]
    exact fun hnew => hnew.2 ⟨j, l⟩ ((h.cluster j l).2 ⟨hzero, hsame⟩) rfl
  rename_i hne
  simp [hne]

lemma Aligned.add : Aligned me { t with
      raft := cetcdRaftAddPeer t.raft id l
      cluster := clusterAdd t.cluster ⟨id, l⟩
      members := t.members.insert id l } where
  conf := by
    obtain ⟨mem, progress, heq⟩ := cetcdRaftAddPeer_eq t.raft id l
    rw [heq]
    exact h.conf
  nodup := nodup_addPeer h.nodup hzero l
  own := by
    intro l'
    rw [mem_addPeer hzero l]
    split
    · exact h.own l'
    -- a new peer is not the node, which has itself
    rename_i hnew
    have hme : id ≠ me := fun heq => hnew ((h.hasPeer_iff hzero hplain).2 (Or.inl heq))
    rw [mem_append, h.own l']
    simp [hme.symm]
  peer := fun _ l' hj => h.mem_add_peers hzero hplain hj l'
  cluster := h.mem_add_cluster hzero hplain

end

section

variable (h : Aligned me t)

include h

lemma Aligned.drop (hzero : id ≠ 0) : Aligned me (dropMember t id) := by
  have hconf : (cetcdRaftRemovePeer t.raft id).conf = t.raft.conf := by
    unfold cetcdRaftRemovePeer
    split
    · rfl
    · split <;> rfl
  have hfind : ∀ j, (t.members.erase id).find j = if j = id then none else t.members.find j :=
    fun j => find_erase _ _ _
  have hcluster : ∀ j l, ⟨j, l⟩ ∈ (dropMember t id).cluster ↔
      j ≠ 0 ∧ (t.members.erase id).find j = some l := by
    intro j l
    change (⟨j, l⟩ : Peer) ∈ t.cluster.filter (fun p => p.id ≠ id) ↔ _
    rw [mem_filter, h.cluster, hfind]
    by_cases hj : j = id <;> simp [hj]
  by_cases hme : id = me
  · -- the node keeps itself
    have hsame : cetcdRaftRemovePeer t.raft id = t.raft := by
      unfold cetcdRaftRemovePeer
      rw [if_pos (Or.inr (hme.trans h.conf.symm))]
    refine ⟨(congrArg _ hconf).trans h.conf, ?_, ?_, fun j l hj => ?_, hcluster⟩
    · exact (congrArg (fun r : Raft => (r.mem.peers.map Peer.id).Nodup) hsame).mpr h.nodup
    · intro l
      change _ ∈ (cetcdRaftRemovePeer t.raft id).mem.peers ↔ _
      rw [hsame]
      exact h.own l
    change _ ∈ (cetcdRaftRemovePeer t.raft id).mem.peers ↔ _ ∧ (t.members.erase id).find j = _
    rw [hsame, hfind, if_neg fun heq : j = id => hj (heq.trans hme)]
    exact h.peer j l hj
  have hpeers := @mem_removePeer id t.raft h.nodup (fun heq => hme (heq.trans h.conf)) hzero
  refine ⟨(congrArg _ hconf).trans h.conf, ?_, fun l => ?_, fun j l hj => ?_, hcluster⟩
  · change ((cetcdRaftRemovePeer t.raft id).mem.peers.map Peer.id).Nodup
    rw [hpeers]
    exact ((filter_sublist).map Peer.id).nodup h.nodup
  · change _ ∈ (cetcdRaftRemovePeer t.raft id).mem.peers ↔ _
    rw [hpeers, mem_filter, h.own l]
    simp [Ne.symm hme]
  change _ ∈ (cetcdRaftRemovePeer t.raft id).mem.peers ↔ _ ∧ (t.members.erase id).find j = _
  rw [hpeers, mem_filter, h.peer j l hj, hfind]
  by_cases hjid : j = id <;> simp [hjid]

lemma Aligned.promote (hzero : id ≠ 0) (hlearner : t.members.find id = some true) :
    Aligned me { t with
      raft := (cetcdRaftPromote t.raft id).getD t.raft
      cluster := t.cluster.map fun p => if p.id = id then ⟨id, false⟩ else p
      members := t.members.insert id false } := by
  obtain ⟨hconf, hpeers⟩ := @mem_promote id t.raft h.nodup hzero
  have hfind : ∀ j, (t.members.insert id false).find j =
      if j = id then some false else t.members.find j := fun j => find_insert _ _ _ _
  -- the row of a peer after the change, in either table
  have hrow : ∀ (ps : List Peer) (j : Nat) (l : Bool),
      ⟨j, l⟩ ∈ ps.map (fun p => if p.id = id then (⟨id, false⟩ : Peer) else p) ↔
        (j = id ∧ l = false ∧ ∃ l', ⟨id, l'⟩ ∈ ps) ∨ (j ≠ id ∧ ⟨j, l⟩ ∈ ps) := by
    intro ps j l
    rw [mem_map]
    constructor
    · rintro ⟨⟨i, l'⟩, hp, heq⟩
      by_cases hi : i = id
      · rw [if_pos hi] at heq
        cases heq
        exact Or.inl ⟨rfl, rfl, l', hi ▸ hp⟩
      rw [if_neg hi] at heq
      cases heq
      exact Or.inr ⟨hi, hp⟩
    rintro (⟨rfl, rfl, l', hp⟩ | ⟨hne, hp⟩)
    · exact ⟨_, hp, if_pos rfl⟩
    · exact ⟨_, hp, if_neg hne⟩
  refine ⟨(congrArg _ hconf).trans h.conf, ?_, fun l => ?_, fun j l hj => ?_, fun j l => ?_⟩
  · have hids : (t.raft.mem.peers.map fun p => if p.id = id then (⟨id, false⟩ : Peer) else p).map
        Peer.id = t.raft.mem.peers.map Peer.id := by
      rw [map_map]
      refine map_congr_left fun p _ => ?_
      by_cases hp : p.id = id <;> simp [hp]
    rw [hpeers, hids]
    exact h.nodup
  · rw [hpeers, hrow]
    by_cases hme : me = id
    · subst hme
      simp [h.own]
    · simp [hme, h.own]
  · rw [hpeers, hrow, hfind]
    by_cases hid : j = id
    · subst hid
      have hold : ∃ l', ⟨j, l'⟩ ∈ t.raft.mem.peers := ⟨true, (h.peer j true hj).2 ⟨hzero, hlearner⟩⟩
      simp [hold, hzero, eq_comm]
    · simp [hid, h.peer j l hj]
  rw [hrow, hfind]
  by_cases hid : j = id
  · subst hid
    have hold : ∃ l', ⟨j, l'⟩ ∈ t.cluster := ⟨true, (h.cluster j true).2 ⟨hzero, hlearner⟩⟩
    simp [hold, hzero, eq_comm]
  · simp [hid, h.cluster]

lemma Aligned.step_promote (id : Nat) : Aligned me (applyMemberOp t (.promote id)) ∧
      (applyMemberOp t (.promote id)).members = memberStep t.members (.promote id) := by
  obtain ⟨t', hjoint, h', hmembers, -⟩ := h.voterJoint
  simp only [applyMemberOp, memberStep]
  rw [h.clusterGet]
  by_cases hzero : id = 0
  · rw [if_pos hzero, if_neg fun hand => hand.1 hzero]
    exact ⟨h, rfl⟩
  rw [if_neg hzero]
  cases hfind : t.members.find id with
  | none =>
    rw [if_neg fun hand => nomatch hand.2]
    exact ⟨h, rfl⟩
  | some l =>
    cases l with
    | false =>
      rw [if_neg fun hand => nomatch hand.2]
      exact ⟨h, rfl⟩
    | true =>
      rw [if_pos ⟨hzero, rfl⟩]
      simp only [Option.map_some, hjoint]
      rw [← hmembers] at hfind ⊢
      exact ⟨h'.promote hzero hfind, rfl⟩

lemma Aligned.insert_role (hzero : id ≠ 0) (hknown : t.members.find id ≠ none) :
    t.members.insert id (((Member.clusterGet t.cluster id).map Peer.learner).getD false) =
      t.members := by
  obtain ⟨l, hl⟩ := Option.ne_none_iff_exists'.1 hknown
  rw [h.clusterGet, if_neg hzero, hl]
  refine ext_find fun j => ?_
  rw [find_insert]
  split <;> simp_all

lemma Aligned.step {op : MemberOp} (hop : PlainEntry t.members op) :
    Aligned me (applyMemberOp t op) ∧ (applyMemberOp t op).members = memberStep t.members op := by
  obtain ⟨t', hjoint, h', hmembers, hcluster⟩ := h.voterJoint
  cases op with
  | add id learner =>
    simp only [applyMemberOp, memberStep]
    split
    · exact ⟨h, rfl⟩
    rename_i hzero
    cases learner with
    | true => exact ⟨h.add hzero hop, rfl⟩
    | false =>
      simp only [Bool.false_eq_true, if_false, hjoint]
      rw [← hmembers] at hop ⊢
      exact ⟨h'.add hzero hop, rfl⟩
  | remove id =>
    simp only [applyMemberOp, memberStep]
    split
    · exact ⟨h, rfl⟩
    rename_i hzero
    split
    · simp only [hjoint]
      exact ⟨h'.drop hzero, congrArg (OrdMap.erase · id) hmembers⟩
    · exact ⟨h.drop hzero, rfl⟩
  | promote id => exact h.step_promote id
  | update id =>
    simp only [applyMemberOp, memberStep]
    split
    · exact ⟨h, rfl⟩
    rename_i hzero
    rw [h.insert_role hzero (hop.resolve_left hzero)]
    exact ⟨h, rfl⟩
  | leaveJoint =>
    simp only [applyMemberOp, memberStep, cetcdRaftLeaveJoint]
    refine ⟨?_, trivial⟩
    split
    all_goals exact h.raft rfl rfl

lemma Aligned.run {ops : List MemberOp} (hops : PlainEntries t.members ops) :
    Aligned me (ops.foldl applyMemberOp t) ∧
      (ops.foldl applyMemberOp t).members = ops.foldl memberStep t.members := by
  induction ops generalizing t with
  | nil => exact ⟨h, rfl⟩
  | cons op ops ih =>
    obtain ⟨hstep, hmembers⟩ := h.step hops.1
    have hrest := ih hstep (hmembers ▸ hops.2)
    rw [foldl_cons, foldl_cons, ← hmembers]
    exact hrest

lemma Aligned.drops {ids : List Nat} (hzero : ∀ id ∈ ids, id ≠ 0) :
    Aligned me (ids.foldl dropMember t) ∧
      (ids.foldl dropMember t).members = ids.foldl OrdMap.erase t.members := by
  induction ids generalizing t with
  | nil => exact ⟨h, rfl⟩
  | cons id ids ih =>
    exact ih (h.drop (hzero id mem_cons_self)) fun i hi => hzero i (mem_cons_of_mem _ hi)

end

end

/-! ## The node that has started -/

variable {members : OrdMap Nat Bool} {id me : Nat}

lemma mem_loadCluster {l : Bool} :
    ⟨id, l⟩ ∈ loadCluster members ↔ id ≠ 0 ∧ members.find id = some l := by
  unfold loadCluster
  rw [mem_map, find_eq_some]
  constructor
  · rintro ⟨⟨i, l'⟩, hmem, heq⟩
    cases heq
    have hboth := mem_filter.1 hmem
    exact ⟨by simpa using hboth.2, hboth.1⟩
  rintro ⟨hzero, hmem⟩
  exact ⟨(id, l), mem_filter.2 ⟨hmem, by simpa using hzero⟩, rfl⟩

lemma nodup_loadCluster (members : OrdMap Nat Bool) :
    ((loadCluster members).map Peer.id).Nodup := by
  unfold loadCluster
  rw [map_map]
  exact (filter_sublist.map Prod.fst).nodup members.nodup_keys

section

variable {cfg : StartConfig} {r : Raft}

lemma aligned_new (hnew : cetcdRaftNew cfg.raft = some r) :
    Aligned cfg.raft.id { raft := r, cluster := [], members := .empty, joint := ([], 0) } := by
  obtain ⟨hzero, hconf, hpeers, -⟩ := cetcdRaftNew_spec hnew
  refine ⟨hconf, ?_, fun l => ?_, fun id l hid => ?_, fun id l => ?_⟩
  · simp [hpeers]
  · simp [hpeers]
  · simp [hpeers, hid]
  · simp

lemma aligned_loadTables (hnew : cetcdRaftNew cfg.raft = some r) (members : OrdMap Nat Bool)
    (joint : List Nat × Nat) :
    Aligned cfg.raft.id (loadTables cfg r members joint) ∧
      (loadTables cfg r members joint).members = cfg.found members := by
  obtain ⟨hself, hconf, hpeers, -⟩ := cetcdRaftNew_spec hnew
  have hzero : ∀ p ∈ loadCluster members, p.id ≠ 0 := fun p hp => (mem_loadCluster.1 hp).1
  have hmem := fun q => @mem_addPeers (loadCluster members) r hzero (nodup_loadCluster members) q
  have hhas : ∀ id, hasPeer r id = false ↔ id ≠ cfg.raft.id := by
    intro id
    unfold hasPeer
    simpa [hpeers] using not_congr eq_comm
  have hload : Aligned cfg.raft.id
      { raft := addPeers r (loadCluster members), cluster := loadCluster members,
        members := members, joint := joint } := by
    refine ⟨?_, ?_, fun l => ?_, fun id l hid => ?_, fun id l => mem_loadCluster⟩
    · exact (congrArg _ (addPeers_frame r _).1).trans hconf
    · exact nodup_addPeers hzero (by simp [hpeers])
    · rw [hmem, hhas]
      simp [hpeers]
    rw [hmem, hhas, mem_loadCluster]
    simp [hpeers, hid]
  have hrestore : Aligned cfg.raft.id
      { raft := cetcdRaftRestoreJoint (addPeers r (loadCluster members)) joint.1 joint.2,
        cluster := loadCluster members, members := members, joint := joint } := by
    unfold cetcdRaftRestoreJoint
    split
    · exact hload
    · exact hload.raft rfl rfl
  unfold loadTables StartConfig.found
  by_cases hforce : cfg.forceNewCluster = true
  · rw [if_pos hforce, if_pos hforce]
    have hids : ∀ id ∈ (((loadCluster members).map Peer.id).filter fun id =>
        id ≠ cfg.raft.id).take 64, id ≠ 0 := by
      intro id hid
      have hid' := mem_of_mem_filter (mem_of_mem_take hid)
      obtain ⟨p, hp, rfl⟩ := mem_map.1 hid'
      exact hzero p hp
    unfold forceNew
    rw [hrestore.conf]
    obtain ⟨hdrop, hmembers⟩ := hrestore.drops hids
    exact ⟨hdrop.raft rfl rfl, hmembers⟩
  rw [if_neg hforce, if_neg hforce]
  exact ⟨hrestore, rfl⟩

lemma serverStart_spec {members : OrdMap Nat Bool} {joint : List Nat × Nat}
    {replayed : List MemberOp} {t : Tables}
    (hstart : serverStart cfg members joint replayed = some t)
    (hplain : cfg.dataDir → PlainEntries (cfg.found members) replayed) :
    ∃ c, Aligned cfg.raft.id { t with cluster := c } ∧
      t.members = cfg.persisted members replayed := by
  unfold serverStart at hstart
  cases hnew : cetcdRaftNew cfg.raft with
  | none =>
    rw [hnew] at hstart
    cases hstart
  | some r =>
    rw [hnew] at hstart
    obtain rfl := Option.some.inj hstart
    unfold StartConfig.persisted
    by_cases hdir : cfg.dataDir = true
    · simp only [hdir, if_true]
      obtain ⟨hload, hfound⟩ := aligned_loadTables hnew members joint
      have hrun := hload.run (hfound ▸ hplain hdir)
      rw [hfound] at hrun
      exact ⟨_, hrun⟩
    simp only [hdir]
    exact ⟨_, aligned_new hnew, rfl⟩

end

/-! ## The voters -/

lemma mem_voterIds :
    id ∈ voterIds me members ↔ id = me ∨ (id ≠ 0 ∧ members.find id = some false) := by
  unfold voterIds
  rw [mem_cons, mem_map]
  constructor
  · rintro (rfl | ⟨⟨i, l⟩, hmem, rfl⟩)
    · exact Or.inl rfl
    obtain ⟨hmem, hcond⟩ := mem_filter.1 hmem
    obtain ⟨hzero, -, rfl⟩ := of_decide_eq_true hcond
    exact Or.inr ⟨hzero, find_eq_some.2 hmem⟩
  rintro (rfl | ⟨hzero, hfind⟩)
  · exact Or.inl rfl
  by_cases hme : id = me
  · exact Or.inl hme
  refine Or.inr ⟨(id, false), mem_filter.2 ⟨find_eq_some.1 hfind, ?_⟩, rfl⟩
  exact decide_eq_true ⟨hzero, hme, rfl⟩

lemma nodup_voterIds (me : Nat) (members : OrdMap Nat Bool) : (voterIds me members).Nodup := by
  unfold voterIds
  refine nodup_cons.2 ⟨fun hmem => ?_, ?_⟩
  · obtain ⟨e, he, rfl⟩ := mem_map.1 hmem
    exact (of_decide_eq_true (mem_filter.1 he).2).2.1 rfl
  · exact (filter_sublist.map Prod.fst).nodup members.nodup_keys

lemma Aligned.voters {t : Tables} (h : Aligned me t) :
    (voters t.raft).Perm (voterIds me t.members) := by
  have hnodup : (Raft.voters t.raft).Nodup := (filter_sublist.map Peer.id).nodup h.nodup
  refine (perm_ext_iff_of_nodup hnodup (nodup_voterIds me t.members)).2 fun id => ?_
  have hvoter : id ∈ Raft.voters t.raft ↔ ⟨id, false⟩ ∈ t.raft.mem.peers := by
    unfold Raft.voters
    simp only [mem_map, mem_filter, Bool.not_eq_true']
    constructor
    · rintro ⟨⟨i, l⟩, ⟨hp, rfl⟩, rfl⟩
      exact hp
    · exact fun hp => ⟨_, ⟨hp, rfl⟩, rfl⟩
  rw [hvoter, mem_voterIds]
  by_cases hid : id = me
  · subst hid
    exact iff_of_true ((h.own false).2 rfl) (Or.inl rfl)
  · rw [h.peer id false hid, or_iff_right hid]

lemma take_exact_iff {l : List Nat} (hnodup : l.Nodup) (n : Nat) (Q : Nat → Prop) :
    (∀ id, id ∈ l.take n ↔ id ∈ l ∨ Q id) ↔ (∀ id, Q id → id ∈ l) ∧ l.length ≤ n := by
  constructor
  · refine fun h => ⟨fun id hid => mem_of_mem_take ((h id).2 (Or.inr hid)), ?_⟩
    by_contra hlong
    have hn : n < l.length := Nat.lt_of_not_le hlong
    have hmem := (h l[n]).2 (Or.inl (getElem_mem hn))
    obtain ⟨i, hi, heq⟩ := mem_take_iff_getElem.1 hmem
    have hin : i = n := (List.Nodup.getElem_inj_iff hnodup).1 heq
    omega
  rintro ⟨hall, hshort⟩ id
  rw [take_of_length_le hshort]
  exact ⟨Or.inl, fun hid => hid.elim (fun hmem => hmem) (hall id)⟩

/-- The node votes with itself, the configured peers and the voters on disk just if every configured
peer is among the latter and they are no more than the quorum loops count. -/
theorem configured_peers_voters_iff {cfg : StartConfig} {members : OrdMap Nat Bool}
    {joint : List Nat × Nat} {replayed : List MemberOp} {t : Tables}
    (hstart : serverStart cfg members joint replayed = some t)
    (hplain : cfg.dataDir = true → PlainEntries (cfg.found members) replayed) :
    (∀ id, id ∈ incoming t.raft ↔ id = cfg.raft.id ∨ id ∈ cfg.initialPeers ∨
          (id ≠ 0 ∧ (cfg.persisted members replayed).find id = some false)) ↔
      (∀ id ∈ cfg.initialPeers,
        id = cfg.raft.id ∨ (id ≠ 0 ∧ (cfg.persisted members replayed).find id = some false)) ∧
      (voterIds cfg.raft.id (cfg.persisted members replayed)).length ≤ maxPeers := by
  obtain ⟨c, halign, hmembers⟩ := serverStart_spec hstart hplain
  have hperm : (voters t.raft).Perm (voterIds cfg.raft.id (cfg.persisted members replayed)) :=
    hmembers ▸ halign.voters
  have hset : ∀ id, id ∈ voters t.raft ↔
      id = cfg.raft.id ∨ (id ≠ 0 ∧ (cfg.persisted members replayed).find id = some false) :=
    fun id => hperm.mem_iff.trans mem_voterIds
  have hexact := take_exact_iff (hperm.nodup_iff.2 (nodup_voterIds _ _)) maxPeers
    (fun id => id ∈ cfg.initialPeers)
  rw [hperm.length_eq] at hexact
  simp only [hset] at hexact
  rw [incoming_eq_take, ← hexact]
  refine forall_congr' fun id => iff_congr Iff.rfl ?_
  rw [or_assoc, or_comm (a := id ∈ cfg.initialPeers)]

def threeNodes : StartConfig :=
  { raft := { id := 1, electionTick := 10, heartbeatTick := 1 }, initialPeers := [1, 2, 3]
    dataDir := true, forceNewCluster := false }

/-- The other two nodes are members on disk, and a learner. -/
def threeMembers : OrdMap Nat Bool :=
  (((OrdMap.empty.insert 1 false).insert 2 false).insert 3 false).insert 4 true

theorem configured_peers_voters_three :
    ∃ t, serverStart threeNodes threeMembers ([], 0) [.promote 4] = some t ∧
      ∀ id, id ∈ incoming t.raft ↔ id = 1 ∨ id ∈ [1, 2, 3] ∨
          (id ≠ 0 ∧ (threeNodes.persisted threeMembers [.promote 4]).find id = some false) := by
  have hsome : (serverStart threeNodes threeMembers ([], 0) [.promote 4]).isSome := by decide
  obtain ⟨t, ht⟩ := Option.isSome_iff_exists.1 hsome
  exact ⟨t, ht, (configured_peers_voters_iff ht fun _ => ⟨trivial, trivial⟩).2
    ⟨by decide, by decide⟩⟩

/-- With nothing on disk node 1 is its only voter, and leads; its cluster table has three. -/
theorem configured_peers_ignored : (serverStart threeNodes .empty ([], 0) []).map (fun t =>
        (incoming t.raft, t.cluster.map Peer.id, (cetcdRaftStep t.raft { type := .hup }).2.role)) =
      some ([1], [1, 2, 3], .leader) := by
  decide

end Cetcd.Member
