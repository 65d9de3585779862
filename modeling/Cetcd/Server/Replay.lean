import Cetcd.Server.Durable

/-!
# Replay gives back the log

Replay puts every entry that was ever written at its index and never cuts the log: where the node
dropped a conflicting tail, it still has the old entries behind the new ones. So it is exact as long
as a message that cuts the log makes it longer, or just as long with the same term at its end.
-/

namespace Cetcd.Server

open Lib Raft Protocol Calls List Option

/-! ## The conditions -/

/-- If an Append contradicts the log, it reaches past the old end, or up to it with the same term
there. -/
def KeepsEnd (l : RaftLog) (m : Msg) : Prop :=
  (∃ k, ∃ h : k < m.entries.length, Contradicts l (m.index + 1 + k) m.entries[k]) →
    l.lastIndex < m.index + m.entries.length ∨
      (l.lastIndex = m.index + m.entries.length ∧
        m.entries.getLast?.map Entry.term = some l.lastTerm)

/-- A snapshot is behind the compacted prefix or past the end of the log, so it is not installed. -/
def NoInstall (r : Raft) (m : Msg) : Prop :=
  m.type = .snap → r.term ≤ m.term → r.rlog.compacted < m.snapshot →
    r.rlog.lastIndex ≠ 0 ∧ r.rlog.lastIndex < m.snapshot
  deriving Decidable

/-- The calls that replay can follow. -/
def Traceable (r : Raft) (m : Msg) : Prop :=
  NoInstall r m ∧ (m.type = .app → r.term ≤ m.term → PrevMatches r.rlog m → KeepsEnd r.rlog m)

instance (l : RaftLog) (m : Msg) : Decidable (KeepsEnd l m) := inferInstanceAs (Decidable (_ → _))

instance (r : Raft) (m : Msg) : Decidable (Traceable r m) := inferInstanceAs (Decidable (_ ∧ _))

/-! ## The end of the log -/

/-- What the file says of the end of the log is right. -/
structure SameEnd (v l : RaftLog) : Prop where
  lastIndex : v.lastIndex = l.lastIndex
  lastTerm : v.lastTerm = l.lastTerm
  compacted : l.compacted = 0

/-- Before a contradiction: `l0` is the log before the loop, `idx` the next index. -/
structure Agreeing (l0 v l : RaftLog) (idx : Nat) : Prop where
  same : SameEnd v l
  grown : l.lastIndex = max l0.lastIndex (idx - 1)
  lastTerm : idx - 1 ≤ l0.lastIndex → l.lastTerm = l0.lastTerm
  cells : ∀ q, idx ≤ q → l.log.read q = l0.log.read q

/-- The loop after it has cut the log; `t` is the term of the entry just stored. -/
structure CutOff (l0 v l : RaftLog) (idx t : Nat) : Prop where
  compacted : l.compacted = 0
  ends : l.lastIndex = idx - 1
  lastTerm : l.lastTerm = t
  oldEnd : v.lastIndex = max l0.lastIndex (idx - 1)
  oldTerm : v.lastTerm = if l0.lastIndex < idx - 1 then t else l0.lastTerm

section

variable {l0 v l : RaftLog} {idx t : Nat} {e : Entry}

lemma addStored_store (hcomp : l.compacted = 0) (h1 : 1 ≤ idx) :
    addStored v (storeEntry l idx e) idx = logAppend v { e with index := idx } := by
  have hin : idx ≤ (storeEntry l idx e).lastIndex := by
    by_cases hcut : Contradicts l idx e
    · exact (storeEntry_cut hcut h1).1.ge
    rw [(storeEntry_keep hcut).1]
    exact le_max_right _ _
  unfold addStored
  rw [logAt_of_range (by omega) hin (by rw [storeEntry_compacted, hcomp]; exact zero_le),
    storeEntry_read_self]
  exact logRecord_entry (by dsimp only; omega)

lemma Agreeing.contradicts_iff (h : Agreeing l0 v l idx) (hcomp : l0.compacted = 0)
    (h1 : 1 ≤ idx) : Contradicts l idx e ↔ Contradicts l0 idx e := by
  have hgrown := h.grown
  have hiff : idx ≤ l.lastIndex ↔ idx ≤ l0.lastIndex := by omega
  unfold Contradicts
  rw [hiff]
  refine and_congr_right fun hle => ?_
  have hterm : logTermAt l idx = logTermAt l0 idx := by
    rw [logTermAt_of_range (by omega) (by omega) (by rw [h.same.compacted]; exact zero_le),
      logTermAt_of_range (by omega) hle (by rw [hcomp]; exact zero_le), h.cells idx le_rfl]
  rw [hterm]

lemma Agreeing.store (h : Agreeing l0 v l idx) (h1 : 1 ≤ idx) (hagree : ¬ Contradicts l idx e) :
    Agreeing l0 (addStored v (storeEntry l idx e) idx) (storeEntry l idx e) (idx + 1) := by
  obtain ⟨hlast, hterm, hread⟩ := storeEntry_keep hagree
  have hgrown := h.grown
  rw [addStored_store h.same.compacted h1]
  refine ⟨⟨?_, ?_, by rw [storeEntry_compacted, h.same.compacted]⟩, by omega, fun hle => ?_, ?_⟩
  · rw [hlast, logAppend_lastIndex, h.same.lastIndex]
  · rw [hterm, logAppend_lastTerm, h.same.lastIndex, h.same.lastTerm]
  · rw [hterm, if_neg (by omega)]
    exact h.lastTerm (by omega)
  intro q hq
  rw [hread q (by omega)]
  exact h.cells q (by omega)

lemma Agreeing.cut (h : Agreeing l0 v l idx) (h1 : 1 ≤ idx) (hcut : Contradicts l idx e) :
    CutOff l0 (addStored v (storeEntry l idx e) idx) (storeEntry l idx e) (idx + 1) e.term := by
  obtain ⟨hlast, hterm⟩ := storeEntry_cut hcut h1
  have hgrown := h.grown
  have hle := hcut.1
  rw [addStored_store h.same.compacted h1]
  refine ⟨by rw [storeEntry_compacted, h.same.compacted], by omega, hterm, ?_, ?_⟩
  · rw [logAppend_lastIndex, h.same.lastIndex]
    dsimp only
    omega
  -- replay puts the entry below its old end and keeps the term there
  rw [logAppend_lastTerm, h.same.lastIndex, h.same.lastTerm]
  dsimp only
  rw [if_neg (by omega), if_neg (by omega)]
  exact h.lastTerm (by omega)

lemma CutOff.store (h : CutOff l0 v l idx t) (h1 : 1 ≤ idx) :
    CutOff l0 (addStored v (storeEntry l idx e) idx) (storeEntry l idx e) (idx + 1) e.term := by
  have hends := h.ends
  have hagree : ¬ Contradicts l idx e := fun hcut => by
    have := hcut.1
    omega
  obtain ⟨hlast, hterm, _⟩ := storeEntry_keep hagree
  have hold := h.oldEnd
  rw [addStored_store h.compacted h1]
  refine ⟨by rw [storeEntry_compacted, h.compacted], by omega, ?_, ?_, ?_⟩
  · rw [hterm, if_pos (by omega)]
  · rw [logAppend_lastIndex]
    dsimp only
    omega
  rw [logAppend_lastTerm, h.oldTerm]
  dsimp only
  split_ifs
  any_goals rfl
  all_goals omega

end

/-! ## The loop -/

/-- Where the loop stands after the entries `done`, which it stored from `start` on. -/
def Stands (l0 v l : RaftLog) (start : Nat) (done : List Entry) : Prop :=
  Agreeing l0 v l (start + done.length) ∨
    (∃ k, ∃ h : k < done.length, Contradicts l0 (start + k) done[k]) ∧
      ∃ e ∈ done.getLast?, CutOff l0 v l (start + done.length) e.term

section

variable {wal : List DiskRecord} {l0 : RaftLog} {start : Nat} {m : Msg} {o r r' : Raft}
  {v l : RaftLog} {done : List Entry}

lemma Stands.store (h : Stands l0 v l start done) (hcomp : l0.compacted = 0) (h1 : 1 ≤ start)
    (e : Entry) :
    Stands l0 (addStored v (storeEntry l (start + done.length) e) (start + done.length))
      (storeEntry l (start + done.length) e) start (done ++ [e]) := by
  have hlength : start + (done ++ [e]).length = start + done.length + 1 := by simp; omega
  unfold Stands
  rw [hlength, getLast?_concat]
  obtain hag | ⟨⟨k, hk, hcon⟩, e', _, hcut⟩ := h
  · by_cases hcon : Contradicts l (start + done.length) e
    · refine .inr ⟨⟨done.length, by simp, ?_⟩, e, rfl, hag.cut (by omega) hcon⟩
      rw [getElem_concat_length rfl]
      exact (hag.contradicts_iff hcomp (by omega)).1 hcon
    · exact .inl (hag.store (by omega) hcon)
  refine .inr ⟨⟨k, by simp; omega, ?_⟩, e, rfl, hcut.store (by omega)⟩
  rw [getElem_append_left hk]
  exact hcon

lemma stands_appendEntries (es : List Entry) {r : Raft}
    (h : Stands l0 (written wal r) r.rlog start done) (hcomp : l0.compacted = 0) (h1 : 1 ≤ start) :
    Stands l0 (written wal (appendEntries r (start + done.length) es))
      (appendEntries r (start + done.length) es).rlog start (done ++ es) := by
  induction es generalizing r done with
  | nil =>
    rw [append_nil]
    exact h
  | cons e es ih =>
    have hlog : (queueStored { r with rlog := storeEntry r.rlog (start + done.length) e }
        (start + done.length)).rlog = storeEntry r.rlog (start + done.length) e :=
      congrArg View.rlog (view_queueStored _ _)
    have hw := written_queueStored wal
      { r with rlog := storeEntry r.rlog (start + done.length) e } (start + done.length)
    have hnext := h.store hcomp h1 e
    have hstart : Stands l0
        (written wal (queueStored { r with rlog := storeEntry r.rlog (start + done.length) e }
          (start + done.length)))
        (queueStored { r with rlog := storeEntry r.rlog (start + done.length) e }
          (start + done.length)).rlog start (done ++ [e]) := by
      rw [hlog, hw]
      exact hnext
    have hstep := ih hstart
    rw [append_assoc, length_append, length_singleton, ← Nat.add_assoc] at hstep
    exact hstep

lemma Stands.sameEnd (h : Stands l0 v l (m.index + 1) m.entries) (hkeeps : KeepsEnd l0 m) :
    SameEnd v l := by
  obtain hag | ⟨hcon, e, he, hcut⟩ := h
  · exact hag.same
  have hends := hcut.ends
  have hold := hcut.oldEnd
  have hterm := hcut.oldTerm
  obtain hlonger | ⟨hequal, hlast⟩ := hkeeps hcon
  · refine ⟨by omega, ?_, hcut.compacted⟩
    rw [hterm, if_pos (by omega), hcut.lastTerm]
  refine ⟨by omega, ?_, hcut.compacted⟩
  rw [mem_def.1 he] at hlast
  rw [hterm, if_neg (by omega), hcut.lastTerm]
  exact (some.inj hlast).symm

/-! ## Strokes -/

lemma SameEnd.congr (h : SameEnd (written wal r) r.rlog) (hlog : r'.rlog = r.rlog)
    (hentries : r'.pending.entries = r.pending.entries) : SameEnd (written wal r') r'.rlog := by
  unfold written at h ⊢
  rw [hlog, hentries]
  exact h

lemma SameEnd.propose (h : SameEnd (written wal r) r.rlog) (type : EntryType) (data : List UInt8) :
    SameEnd (written wal (proposed r type data)) (proposed r type data).rlog := by
  obtain ⟨hlast, hterm, hcomp, hself, _⟩ := proposed_rlog r type data
  have hat : logAt (proposed r type data).rlog (r.rlog.lastIndex + 1) =
      some { term := r.term, index := r.rlog.lastIndex + 1, type := type, data := data } := by
    have := h.compacted
    rw [logAt_of_range (by omega) hlast.ge (by omega), hself]
  rw [written_proposed]
  unfold addStored
  rw [hat]
  dsimp only
  rw [logRecord_entry (Nat.succ_ne_zero _)]
  refine ⟨?_, ?_, hcomp.trans h.compacted⟩
  · rw [logAppend_lastIndex, h.lastIndex, hlast]
    exact max_eq_right (Nat.le_succ _)
  rw [logAppend_lastTerm, h.lastIndex, hterm]
  exact if_pos (Nat.lt_succ_self _)

lemma SameEnd.stroke (h : SameEnd (written wal r) r.rlog) (htrace : Traceable o m)
    (hs : Stroke m o r r') : SameEnd (written wal r') r'.rlog := by
  cases hs with
  | accept htype _ _ _ hle hlog hprev =>
    have hgrown : r.rlog.lastIndex = max r.rlog.lastIndex (m.index + 1 + 0 - 1) := by
      rcases hprev with h0 | ⟨hin, _⟩ <;> omega
    have hstart : Stands r.rlog (written wal r) r.rlog (m.index + 1) [] :=
      .inl ⟨h, hgrown, fun _ => rfl, fun _ _ => rfl⟩
    have hstands := stands_appendEntries m.entries hstart h.compacted (by omega)
    rw [hlog] at hprev
    exact hstands.sameEnd (hlog ▸ htrace.2 htype hle hprev)
  | propose type data => exact h.propose type data
  | cover =>
    exact h.congr (congrArg View.rlog (view_coverSnapshot r m.snapshot))
      (coverSnapshot_entries r m.snapshot)
  | install htype _ _ hterm hlog hnew hl =>
    obtain ⟨_, _, hin, _⟩ := logCompact_eq_some hl
    rw [hlog] at hin hnew
    have := htrace.1 htype hterm hnew
    omega
  | _ => exact h.congr rfl rfl

end

/-! ## Runs -/

/-- The file is never released, and every call is one that replay can follow. -/
def Exact (s : State) (a : Act) : Prop :=
  Careful s a ∧ match a with
    | .ready c out => out.released = false ∧ Traceable s.raft (c.msg s.raft)
    | .crash _ _ _ _ => True

instance (s : State) : (a : Act) → Decidable (Exact s a)
  | .ready _ _ => inferInstanceAs (Decidable (_ ∧ _ ∧ _))
  | .crash _ _ _ _ => inferInstanceAs (Decidable (_ ∧ True))

section

variable {s : State} {hist : List State}

lemma maybeSnapshotTruncate_not (s : State) : maybeSnapshotTruncate s false = s := by
  unfold maybeSnapshotTruncate
  split <;> rfl

lemma compacted_walUpTo (s : State) (c : Call) (k : Nat) :
    (logOf (walUpTo s c k)).compacted = (logOf s.wal).compacted := by
  have hentries : ∀ es : List Entry, (logOf (s.wal ++ es.map .entry)).compacted =
      (logOf s.wal).compacted := fun es => by
    rw [logOf_append]
    exact (compacted_foldl_entries es _).1
  obtain h | h := walUpTo_cases s c k
  · rw [h]
    exact (congrArg RaftLog.compacted (logOf_records s.wal _)).trans (hentries _)
  rw [h]
  exact hentries _

lemma SameEnd.next (hkept : AtRest s) (h : SameEnd (logOf s.wal) s.raft.rlog) {a : Act}
    (hok : Exact s a) : SameEnd (logOf (s.next a).wal) (s.next a).raft.rlog := by
  cases a with
  | ready c out =>
    obtain ⟨⟨_, hfail, _⟩, hreleased, htrace⟩ := hok
    have hstart : SameEnd (written s.wal s.raft) s.raft.rlog := by
      rw [written_of_idle hkept.idle]
      exact h
    have hcall : SameEnd (written s.wal (c.run s.raft)) (c.run s.raft).rlog :=
      Strokes.induct (P := fun r => SameEnd (written s.wal r) r.rlog)
        (c.strokes _) hstart fun _ _ hs hsame => hsame.stroke htrace hs
    rw [← logOf_flush] at hcall
    change SameEnd (logOf (processReady { s with raft := c.run s.raft } out).wal)
      (processReady { s with raft := c.run s.raft } out).raft.rlog
    unfold processReady
    cases hf : out.failed with
    | none =>
      dsimp only
      rw [hreleased, maybeSnapshotTruncate_not]
      unfold advanced cetcdRaftAdvance
      dsimp only
      split <;> exact hcall
    | some k =>
      dsimp only
      rw [take_of_length_le (hfail k hf)]
      exact hcall
  | crash c k cfg table =>
    unfold State.next
    dsimp only
    cases hnew : cetcdRaftNew cfg with
    | none => exact h
    | some r0 =>
      have hlog : (restart { s with wal := walUpTo s c k } r0 table).raft.rlog =
          logOf (walUpTo s c k) := by
        change (replayWal r0 (walUpTo s c k)).1.rlog = _
        rw [replayWal_new hnew]
      have hcomp : (logOf s.wal).compacted ≤ s.raft.rlog.compacted := by
        rw [← written_of_idle hkept.idle]
        exact hkept.recorded.log.compacted
      dsimp only
      rw [hlog]
      refine ⟨rfl, rfl, ?_⟩
      rw [compacted_walUpTo]
      have := h.compacted
      omega

lemma sameEnd_of_run (hrun : Run Exact hist) :
    ∀ s ∈ hist, AtRest s ∧ SameEnd (logOf s.wal) s.raft.rlog := by
  refine hrun.forall_mem (P := fun s => AtRest s ∧ SameEnd (logOf s.wal) s.raft.rlog) ?_ ?_
  · intro s hs
    refine ⟨kept_initial hs, ?_⟩
    obtain ⟨cfg, table, r0, hnew, heq⟩ := hs
    rw [heq]
    change SameEnd emptyLog r0.rlog
    rw [(cetcdRaftNew_blank hnew).1]
    exact ⟨rfl, rfl, rfl⟩
  rintro s a s' ⟨hkept, hsame⟩ ⟨hok, rfl⟩
  exact ⟨hkept.next hok.1, hsame.next hkept hok⟩

/-- A new node that reads the file has the log, term, vote and commit index of the one that wrote
it. -/
theorem replay_exact (hrun : Run Exact hist) (hs : s ∈ hist) {cfg : RaftConfig} {r0 : Raft}
    (hnew : cetcdRaftNew cfg = some r0) :
    (replayWal r0 s.wal).1.rlog.lastIndex = s.raft.rlog.lastIndex ∧
      (replayWal r0 s.wal).1.rlog.lastTerm = s.raft.rlog.lastTerm ∧
      (∀ q, logAt (replayWal r0 s.wal).1.rlog q = logAt s.raft.rlog q) ∧
      (replayWal r0 s.wal).1.term = s.raft.term ∧ (replayWal r0 s.wal).1.vote = s.raft.vote ∧
      (replayWal r0 s.wal).1.commit = s.raft.commit := by
  obtain ⟨hkept, hsame⟩ := sameEnd_of_run hrun s hs
  have hlog := hkept.recorded.log
  have hhs := hkept.recorded.hs
  rw [written_of_idle hkept.idle] at hlog
  rw [hkept.idle] at hhs
  change stateOf s.wal = copyHardState s.raft at hhs
  have hcomp := hlog.compacted
  have hcomp' := hsame.compacted
  have hlast := hsame.lastIndex
  rw [replayWal_new hnew]
  refine ⟨hlast, hsame.lastTerm, fun q => ?_, congrArg HardState.term hhs,
    congrArg HardState.vote hhs, congrArg HardState.commit hhs⟩
  dsimp only
  by_cases hq : q = 0 ∨ s.raft.rlog.lastIndex < q
  · unfold logAt
    rw [if_pos hq, if_pos (by omega)]
  rw [logAt_of_range (by omega) (by omega) (by omega),
    logAt_of_range (by omega) (by omega) (by omega), hlog.cells q (by omega) (by omega)]

/-- An entry of term `t` as it travels; the receiver gives it its index. -/
def entryOf (t : Nat) : Entry := { term := t, index := 0 }

/-- A follower stores entries of term 1 and then Appends of term 2 behind the first of them. -/
def overwriteScript (old new : List Entry) : List (State → Act) :=
  [act (.step { type := .app, sender := 2, term := 1, entries := old }) none false,
    act (.step { type := .app, sender := 3, term := 2, index := 1, logTerm := 1, entries := new })
      none false]

def longerScript : List (State → Act) :=
  overwriteScript [entryOf 1, entryOf 1] [entryOf 2, entryOf 2]

theorem replay_exact_longer :
    (Lib.finish State.next (start {} [⟨2, false⟩, ⟨3, false⟩]) longerScript).raft.rlog.lastIndex = 3 ∧
      ∀ s ∈ Lib.replay State.next [] (start {} [⟨2, false⟩, ⟨3, false⟩]) longerScript,
        (replayWal node1 s.wal).1.rlog.lastIndex = s.raft.rlog.lastIndex ∧
          (replayWal node1 s.wal).1.rlog.lastTerm = s.raft.rlog.lastTerm ∧
          (∀ q, logAt (replayWal node1 s.wal).1.rlog q = logAt s.raft.rlog q) ∧
          (replayWal node1 s.wal).1.term = s.raft.term ∧
          (replayWal node1 s.wal).1.vote = s.raft.vote ∧
          (replayWal node1 s.wal).1.commit = s.raft.commit :=
  ⟨by decide +kernel, fun _ hs => replay_exact (run_script (by decide +kernel)) hs node1_new⟩

/-- Every Ready is written and synced, and the file is never released. -/
def Written : Act → Bool
  | .ready _ out => out.failed.isNone && !out.released
  | .crash _ _ _ _ => false

/-- The new tail is shorter: replay brings back an entry that the node had dropped. -/
theorem replay_restores_dropped : Run (fun _ a => Written a = true)
        (Lib.replay State.next [] (start {} [⟨2, false⟩, ⟨3, false⟩])
          (overwriteScript [entryOf 1, entryOf 1, entryOf 1] [entryOf 2])) ∧
      ∃ s ∈ Lib.replay State.next [] (start {} [⟨2, false⟩, ⟨3, false⟩])
          (overwriteScript [entryOf 1, entryOf 1, entryOf 1] [entryOf 2]),
        s.raft.rlog.lastIndex = 2 ∧ s.raft.rlog.lastTerm = 2 ∧
          (replayWal node1 s.wal).1.rlog.lastIndex = 3 ∧
          (replayWal node1 s.wal).1.rlog.lastTerm = 1 ∧
          logAt (replayWal node1 s.wal).1.rlog 3 = some ⟨1, 3, .normal, []⟩ :=
  ⟨run_script (by decide +kernel), _, Lib.finish_mem_replay _ _ _ _, by decide +kernel⟩

end

end Cetcd.Server
