import Cetcd.Raft.Config
import Cetcd.Repair.Exchange

/-! # Whose progress a record is: the records are kept by position, so a removal moves them -/

namespace Cetcd.Raft

open Lib List Function ZeroArray

/-- A node, and what was recorded for each peer since it was added. -/
abbrev Ledger := Raft × (Nat → PeerProgress)

inductive TableOp
  | add (id : Nat) (learner : Bool)
  | promote (id : Nat)
  | remove (id : Nat)
  | hear (m : Msg) (h : m.type = .appResp ∨ m.type = .snapStatus)

def TableOp.run (s : Ledger) : TableOp → Ledger
  | .add id learner =>
    (cetcdRaftAddPeer s.1 id learner, if id = 0 ∨ hasPeer s.1 id then s.2 else update s.2 id
      { nextIdx := if id = s.1.conf.id then s.1.rlog.lastIndex + 1
          else if 0 < s.1.rlog.compacted then s.1.rlog.compacted else 1 })
  | .promote id => ((cetcdRaftPromote s.1 id).getD s.1, s.2)
  | .remove id => (cetcdRaftRemovePeer s.1 id, s.2)
  | .hear m _ =>
    let r := (cetcdRaftStep s.1 m).2
    (r, match peerSlot s.1 m.sender with
      | some slot => update s.2 m.sender (r.progress.read slot)
      | none => s.2)

/-- No peer is removed from the first `maxPeers` positions while there are more. -/
def TableOp.Fits (s : Ledger) : List TableOp → Prop
  | [] => True
  | op :: ops =>
    (∀ id, op = .remove id → s.1.mem.peers.length ≤ maxPeers ∨ peerSlot s.1 id = none) ∧
      Fits (op.run s) ops

/-- Every record is the one of the peer at its position. -/
structure Owned (s : Ledger) : Prop where
  nodup : (s.1.mem.peers.map Peer.id).Nodup
  record : ∀ i id, i < maxPeers → (s.1.mem.peers.map Peer.id)[i]? = some id →
    s.1.progress.read i = s.2 id

/-- Nothing is recorded but in slot `i`. -/
def Records (i : Nat) (r r' : Raft) : Prop :=
  r'.mem = r.mem ∧ ∀ j, j ≠ i → r'.progress.read j = r.progress.read j

section

variable {r r' r'' : Raft} {i : Nat}

lemma Records.trans (h : Records i r r') (h' : Records i r' r'') : Records i r r'' :=
  ⟨h'.1.trans h.1, fun j hj => (h'.2 j hj).trans (h.2 j hj)⟩

lemma records_write (r : Raft) (i : Nat) (pr : PeerProgress) :
    Records i r { r with progress := r.progress.write i pr } :=
  ⟨rfl, fun _ hj => read_write_of_ne _ _ hj⟩

lemma Posts.records (h : Posts r i r') : Records i r r' := by
  cases h with
  | nothing => exact ⟨rfl, fun _ _ => rfl⟩
  | one peer m pr => exact ⟨rfl, fun _ hj => read_write_of_ne _ _ hj⟩

lemma records_advance (r : Raft) (i : Nat) :
    Records i r (maybeSendApp (maybeAdvanceCommit r) i) := by
  obtain ⟨_, _, _, hmem, _, hprogress, _⟩ := Repair.maybeAdvanceCommit_frame r
  exact Records.trans ⟨hmem, fun j _ => by rw [hprogress]⟩ (posts_maybeSendApp _ i).records

lemma records_hear {m : Msg} (hm : m.type = .appResp ∨ m.type = .snapStatus)
    (hi : ∀ slot, peerSlot r m.sender = some slot → slot = i) :
    Records i r (cetcdRaftStep r m).2 := by
  have hrefl : Records i r r := ⟨rfl, fun _ _ => rfl⟩
  unfold cetcdRaftStep
  -- every branch leaves the table alone, or writes slot `i` and posts for it
  obtain hm | hm := hm
  all_goals
    rw [hm]
    dsimp only
  · unfold handleAppResp becomeFollower
    split
    · exact hrefl
    split
    · exact ⟨rfl, fun _ _ => rfl⟩
    split
    · exact hrefl
    obtain rfl := hi _ ‹_›
    split
    · exact (records_write r _ _).trans (records_advance _ _)
    · exact (records_write r _ _).trans
        ((posts_maybeSendSnap _ _).records.trans (posts_maybeSendApp _ _).records)
  · unfold handleSnapStatus
    split
    · exact hrefl
    split
    · exact hrefl
    obtain rfl := hi _ ‹_›
    split
    · exact (records_write r _ _).trans (records_advance _ _)
    · exact records_write r _ _

end

variable {s : Ledger}

lemma Owned.add (h : Owned s) (id : Nat) (learner : Bool) :
    Owned ((TableOp.add id learner).run s) := by
  unfold TableOp.run cetcdRaftAddPeer addPeer
  dsimp only
  by_cases hid : id = 0
  · simpa [hid] using h
  by_cases hpeer : hasPeer s.1 id
  · simpa [hid, hpeer] using h
  rw [if_neg hid, if_neg hpeer, if_neg hpeer, if_neg (not_or.2 ⟨hid, hpeer⟩)]
  have hnew : id ∉ s.1.mem.peers.map Peer.id := by
    intro hmem
    obtain ⟨p, hp, rfl⟩ := mem_map.1 hmem
    exact hpeer (any_eq_true.2 ⟨p, hp, beq_self_eq_true _⟩)
  refine ⟨?_, fun i x hi hx => ?_⟩
  · rw [map_append]
    exact h.nodup.append (nodup_singleton _) (disjoint_singleton.2 hnew)
  rw [map_append] at hx
  dsimp only
  obtain hlt | hge := Nat.lt_or_ge i s.1.mem.peers.length
  · rw [getElem?_append_left (by simpa using hlt)] at hx
    rw [update_of_ne (by rintro rfl; exact hnew (mem_of_getElem? hx)), ← h.record i x hi hx]
    split
    · exact read_write_of_ne _ _ (by omega)
    · rfl
  · -- the new peer stands last, and its record starts anew
    rw [getElem?_append_right (by simpa using hge)] at hx
    obtain ⟨hlen, rfl⟩ := List.getElem?_eq_some_iff.1 hx
    simp only [length_map, length_cons, length_nil, map_cons, map_nil] at hlen
    obtain rfl : i = s.1.mem.peers.length := by omega
    simp [read_write_self, hi]

lemma Owned.promote (h : Owned s) (id : Nat) : Owned ((TableOp.promote id).run s) := by
  unfold TableOp.run cetcdRaftPromote
  dsimp only
  split
  · exact h
  split
  · exact h
  rename_i i _
  split
  · rename_i pid hpid
    have hids : (s.1.mem.peers.set i ⟨pid, false⟩).map Peer.id = s.1.mem.peers.map Peer.id := by
      have hat : (s.1.mem.peers.map Peer.id)[i]? = some pid := by rw [getElem?_map, hpid]; rfl
      obtain ⟨hlt, hget⟩ := List.getElem?_eq_some_iff.1 hat
      rw [map_set]
      exact (congrArg _ hget.symm).trans (set_getElem_self hlt)
    exact ⟨by dsimp only [Option.getD]; rw [hids]; exact h.nodup,
      by dsimp only [Option.getD]; rw [hids]; exact h.record⟩
  · exact h

lemma Owned.remove (h : Owned s) {id : Nat}
    (hfit : s.1.mem.peers.length ≤ maxPeers ∨ peerSlot s.1 id = none) :
    Owned ((TableOp.remove id).run s) := by
  unfold TableOp.run cetcdRaftRemovePeer
  dsimp only
  split
  · exact h
  split
  · exact h
  rename_i i hi
  have hpos : s.1.mem.peers.length ≤ maxPeers ∨ maxPeers ≤ i := by
    refine hfit.imp_right fun hnone => ?_
    obtain ⟨hlt, hid, _⟩ := findIdx?_eq_some_iff_getElem.1 hi
    by_contra hin
    have hne := findIdx?_eq_none_iff.1 hnone _ (mem_take_iff_getElem.2 ⟨i, by omega, rfl⟩)
    exact absurd (hid.symm.trans hne) (by decide)
  refine ⟨?_, fun j x hj hx => ?_⟩
  · dsimp only
    rw [← eraseIdx_map]
    exact h.nodup.eraseIdx _
  dsimp only at hx ⊢
  rw [← eraseIdx_map, getElem?_eraseIdx] at hx
  rw [read_shift]
  split_ifs at hx with hji
  · rw [if_neg (by omega)]
    exact h.record j x hj hx
  · -- the peer has moved down by one, and its record with it
    have hlen := (List.getElem?_eq_some_iff.1 hx).1
    rw [length_map] at hlen
    rw [if_pos (by omega)]
    exact h.record (j + 1) x (by omega) hx

lemma Owned.hear (h : Owned s) {m : Msg} (hm : m.type = .appResp ∨ m.type = .snapStatus) :
    Owned ((TableOp.hear m hm).run s) := by
  unfold TableOp.run
  dsimp only
  cases hslot : peerSlot s.1 m.sender with
  | none =>
    have hrec := fun i => records_hear (i := i) hm (by rw [hslot]; nofun)
    refine ⟨by rw [(hrec 0).1]; exact h.nodup, fun i x hi hx => ?_⟩
    dsimp only at hx ⊢
    rw [(hrec 0).1] at hx
    rw [(hrec (i + 1)).2 i (by omega)]
    exact h.record i x hi hx
  | some slot =>
    obtain ⟨hmem, hrec⟩ :=
      records_hear (i := slot) hm fun i hi => Option.some.inj (hi.symm.trans hslot)
    obtain ⟨_, p, hp, hid⟩ := Protocol.peerSlot_eq_some hslot
    have hat : (s.1.mem.peers.map Peer.id)[slot]? = some m.sender := by
      rw [getElem?_map, hp, ← hid]
      rfl
    refine ⟨by rw [hmem]; exact h.nodup, fun i x hi hx => ?_⟩
    dsimp only at hx ⊢
    rw [hmem] at hx
    by_cases heq : i = slot
    · rw [heq, hat] at hx
      cases hx
      rw [heq, update_self]
    -- another position belongs to another peer
    have hne : x ≠ m.sender := by
      rintro rfl
      exact heq ((getElem?_inj (List.getElem?_eq_some_iff.1 hx).1 h.nodup).1 (hx.trans hat.symm))
    rw [update_of_ne hne, hrec i heq]
    exact h.record i x hi hx

/-- Every record holds what was recorded for the peer at its position, as long as no peer is removed
from the first `maxPeers` positions while there are more. -/
theorem progress_of_its_peer (ops : List TableOp) (s : Ledger) (h : Owned s)
    (hfits : TableOp.Fits s ops) : Owned (ops.foldl TableOp.run s) := by
  induction ops generalizing s with
  | nil => exact h
  | cons op ops ih =>
    refine ih _ ?_ hfits.2
    cases op with
    | add id learner => exact h.add id learner
    | promote id => exact h.promote id
    | remove id => exact h.remove (hfits.1 id rfl)
    | hear m hm => exact h.hear hm

def peerless : Ledger := ({ (default : Raft) with role := .leader }, fun _ => default)

/-- Three peers; the third acknowledges index 5, and the first goes. -/
def threeLessOne : List TableOp :=
  [.add 2 false, .add 3 true, .add 4 false, .promote 3,
    .hear { type := .appResp, dest := 1, sender := 4, index := 5 } (.inl rfl), .remove 2]

theorem progress_of_its_peer_two :
    (threeLessOne.foldl TableOp.run peerless).1.mem.peers.map Peer.id = [3, 4] ∧
      Owned (threeLessOne.foldl TableOp.run peerless) :=
  ⟨by decide +kernel, progress_of_its_peer threeLessOne peerless
    ⟨nodup_nil, fun _ _ _ h => by cases h⟩
    ⟨nofun, nofun, nofun, nofun, nofun, fun _ _ => .inl (by decide +kernel), trivial⟩⟩

/-- Seventeen peers, the sixteenth has acknowledged index 5. Without the second one its record stands
at the position of the seventeenth. -/
theorem progress_of_another : Owned peerless ∧
    ¬ Owned (((range 17).map (fun i => TableOp.add (i + 1) false) ++
      [TableOp.hear { type := .appResp, dest := 1, sender := 16, index := 5 } (.inl rfl),
        .remove 2]).foldl TableOp.run peerless) := by
  refine ⟨⟨nodup_nil, fun _ _ _ h => by cases h⟩, fun h => ?_⟩
  exact absurd (h.record 15 17 (by decide) (by decide +kernel)) (by decide +kernel)

end Cetcd.Raft
