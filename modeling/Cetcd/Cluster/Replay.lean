import Cetcd.Cluster.Model

/-!
# Scripted runs

A script is a list of actions, each chosen from the cluster it meets; replaying it gives a run that
can be evaluated.
-/

namespace Cetcd.Cluster

open Lib Raft

def bootNode (V : Voters) (cfg : RaftConfig) : Raft :=
  (V.ids.erase cfg.id).foldl (fun acc j => cetcdRaftAddPeer acc j false)
    ((cetcdRaftNew cfg).getD default)

def boot (V : Voters) (cfg : RaftConfig) : Cluster :=
  { node := fun i => bootNode V { cfg with id := i }, sent := [] }

lemma initial_boot {V : Voters} {cfg : RaftConfig} (hel : cfg.electionTick ≠ 0)
    (hhb : cfg.heartbeatTick ≠ 0) : Initial V (boot V cfg) := by
  refine ⟨rfl, ?_⟩
  intro i hi
  have hi0 : i ≠ 0 := fun h => V.nonzero (h ▸ hi)
  have hnew : ∃ r0, cetcdRaftNew { cfg with id := i } = some r0 := by
    unfold cetcdRaftNew
    rw [if_neg hi0, if_neg (by simp [hel, hhb])]
    exact ⟨_, rfl⟩
  obtain ⟨r0, hr0⟩ := hnew
  refine ⟨{ cfg with id := i }, V.ids.erase i, r0, rfl, (List.perm_cons_erase hi).symm, hr0, ?_⟩
  change bootNode V { cfg with id := i } = _
  unfold bootNode
  rw [hr0]
  rfl

/-- Deliver the packet that was sent as number `k`. -/
def nth (k : Nat) (c : Cluster) : Action :=
  match c.sent[k]? with
  | some p => .deliver p
  | none => .tick 0

def call (i : Nat) (type : MsgType) (data : List UInt8 := []) (_ : Cluster) : Action :=
  .input i { type := type, context := data }

def replay (hist : List Cluster) (c : Cluster) (fs : List (Cluster → Action)) : List Cluster :=
  Lib.replay next hist c fs

def finish (c : Cluster) (fs : List (Cluster → Action)) : Cluster := Lib.finish next c fs

def Playable (V : Voters) (ok : Cluster → Action → Prop) (c : Cluster)
    (fs : List (Cluster → Action)) : Prop :=
  Lib.Playable next (fun c a => Enabled V c a ∧ ok c a) c fs

instance (V : Voters) (ok : Cluster → Action → Prop) [∀ c a, Decidable (ok c a)] (c : Cluster)
    (fs : List (Cluster → Action)) : Decidable (Playable V ok c fs) :=
  inferInstanceAs (Decidable (Lib.Playable next _ c fs))

instance (c : Cluster) (a : Action) : Decidable (anyStep c a) := inferInstanceAs (Decidable True)

lemma finish_mem_replay (fs : List (Cluster → Action)) (hist : List Cluster) (c : Cluster) :
    finish c fs ∈ replay hist c fs :=
  Lib.finish_mem_replay next fs hist c

lemma finish_take_mem_replay (fs : List (Cluster → Action)) (n : Nat) (hist : List Cluster)
    (c : Cluster) : finish c (fs.take n) ∈ replay hist c fs :=
  Lib.finish_take_mem_replay next fs n hist c

lemma run_replay {V : Voters} {ok : Cluster → Action → Prop} {c : Cluster}
    {fs : List (Cluster → Action)} (hinit : Initial V c) (hplay : Playable V ok c fs) :
    Run V ok (replay [] c fs) :=
  run_of_playable (fun _ _ h => ⟨h.1, h.2, rfl⟩) hinit hplay

def three : Voters := ⟨[1, 2, 3], by decide, by decide, by decide⟩

def bootThree : Cluster := boot three { id := 1, electionTick := 3, heartbeatTick := 1 }

lemma initial_bootThree : Initial three bootThree := initial_boot (by decide) (by decide)

def five : Voters := ⟨[1, 2, 3, 4, 5], by decide, by decide, by decide⟩

def bootFive : Cluster := boot five { id := 1, electionTick := 3, heartbeatTick := 1 }

lemma initial_bootFive : Initial five bootFive := initial_boot (by decide) (by decide)

end Cetcd.Cluster
