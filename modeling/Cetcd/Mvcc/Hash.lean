import Cetcd.Mvcc.Views
import Cetcd.Mvcc.Watch
import Cetcd.Wal.Record

/-!
# Hashes of replicas

Two replicas that have applied the same calls compare the hashes of their stores. The hash is
computed from the history in memory, and a restart replaces that by the newest entries of the live
keys, so replicas with the same data can disagree.
-/

namespace Cetcd.Mvcc

open Lib List Option

def crc32cTable (i : UInt32) : UInt32 := Wal.crcBit^[8] i

def cetcdCrc32c (crc : UInt32) (data : List UInt8) : UInt32 :=
  data.foldl (fun c b => crc32cTable ((c ^^^ b.toUInt32) &&& 0xFF) ^^^ (c >>> 8))
    (crc ^^^ 0xFFFFFFFF) ^^^ 0xFFFFFFFF

def mvccHashKv (s : Store) (rev : Nat) : Except ReadError UInt32 :=
  if s.mainRev < rev then .error .range
  else if 0 < rev ∧ 0 < s.compactedRev ∧ rev < s.compactedRev then .error .range
  else
    match mvccRangeAt s rev [] [0] with
    | .error err => .error err
    | .ok rows => .ok (rows.foldl (fun h kv => cetcdCrc32c (cetcdCrc32c h kv.key) kv.value) 0)

def compactHashMismatch (localRev : Nat) (localHash : UInt32) (remoteRev : Nat)
    (remoteHash : UInt32) : Bool :=
  if localRev = 0 ∨ remoteRev = 0 then false
  else if localRev ≠ remoteRev then false
  else localHash ≠ remoteHash

/-! ## Replicas -/

def plain (cs : List Call) : Durable := (Durable.fresh []).play (cs.map Act.call)

/-- A replica that has applied `cs`, with restarts; `ok` says which acts are permitted. -/
inductive Replica (ok : List Call → Durable → Act → Prop) : List Call → Durable → Prop
  | fresh : Replica ok [] (Durable.fresh [])
  | call {cs : List Call} {x : Durable} (c : Call) :
      Replica ok cs x → ok cs x (.call c) → Replica ok (cs ++ [c]) (x.next (.call c))
  | restart {cs : List Call} {x : Durable} :
      Replica ok cs x → ok cs x .restart → Replica ok cs (x.next .restart)

/-- What does not touch the last compaction: a restart of a store never compacted or with all keys
untouched since, and a compaction at a revision whose put is still in the history. -/
def KeepsBoundary (cs : List Call) (x : Durable) : Act → Prop
  | .restart => x.store.compactedRev = 0 ∨ ∀ k, Untouched x.store x.store.compactedRev k
  | .call (.compact c) => ∀ e ∈ (plain cs).store.history, e.rev.main = c → e.type = .put →
      e ∈ x.store.history
  | .call _ => True

/-! ## What all replicas share -/

/-- The index and the revisions; replicas differ in their histories only. -/
structure SameCore (s t : Store) : Prop where
  index : s.index = t.index
  mainRev : s.mainRev = t.mainRev
  compactedRev : s.compactedRev = t.compactedRev

section

variable {s t : Store} {cs : List Call} {x : Durable} {ok : List Call → Durable → Act → Prop}

lemma deleteEntries_congr (h : s.index = t.index) (main : Nat) (keys : List Key) (sub : Nat) :
    deleteEntries main keys sub s = deleteEntries main keys sub t := by
  induction keys generalizing sub s t with
  | nil => rfl
  | cons k ks ih =>
    unfold deleteEntries
    rw [h]
    cases t.index.find k with
    | none => exact ih h _
    | some kg =>
      refine congrArg _ (ih (OrdMap.ext_find fun j => ?_) _)
      rw [find_push, find_push, h]

lemma SameCore.entries (h : SameCore s t) (c : Call) : c.entries s = c.entries t := by
  unfold Call.entries
  cases c with
  | put key value leaseId =>
    unfold putEntry
    rw [h.index, h.mainRev]
  | delete key =>
    dsimp only
    rw [h.index, h.mainRev]
  | deleteKeys keys =>
    dsimp only
    unfold liveKeys
    rw [h.index, h.mainRev]
    exact deleteEntries_congr h.index _ _ _
  | advance rev | compact rev => rfl

lemma SameCore.effect_isSome (h : SameCore s t) (c : Call) :
    (c.effect s).isSome = (c.effect t).isSome := by
  unfold Call.effect
  cases c with
  | put key value leaseId => rfl
  | delete key =>
    dsimp only
    rw [isSome_map, isSome_map, h.index]
  | deleteKeys keys =>
    dsimp only
    have hlive : liveKeys s keys = liveKeys t keys := by
      unfold liveKeys
      rw [h.index]
    rw [hlive]
    split <;> rfl
  | advance rev =>
    dsimp only
    rw [h.mainRev]
    split <;> rfl
  | compact rev =>
    dsimp only
    rw [h.mainRev, h.compactedRev]
    split <;> rfl

lemma run_reliable (hx : x.disk.Reliable) (c : Call) : (c.run x).disk.Reliable ∧
      (c.run x).store = (c.effect x.store).elim x.store Prod.fst := by
  rw [Call.run_eq]
  cases c.effect x.store with
  | none => exact ⟨hx, rfl⟩
  | some p =>
    dsimp only [elim_some]
    unfold Durable.commit
    rw [hx.write]
    exact ⟨hx, rfl⟩

lemma SameCore.run {y : Durable} (h : SameCore x.store y.store) (hx : x.disk.Reliable)
    (hy : y.disk.Reliable) (c : Call) : SameCore (c.run x).store (c.run y).store := by
  rw [(run_reliable hx c).2, (run_reliable hy c).2]
  have hsome := h.effect_isSome c
  cases hex : c.effect x.store with
  | none =>
    rw [hex, isSome_none] at hsome
    rw [isSome_eq_false_iff.1 hsome.symm |> isNone_iff_eq_none.1]
    exact h
  | some p =>
    rw [hex, isSome_some] at hsome
    obtain ⟨q, hey⟩ := isSome_iff_exists.1 hsome.symm
    rw [hey]
    obtain ⟨hindex, _, hmain, hcompacted⟩ := Call.effect_fields hex
    obtain ⟨hindex', _, hmain', hcompacted'⟩ := Call.effect_fields hey
    refine ⟨?_, ?_, ?_⟩
    · change p.1.index = q.1.index
      rw [hindex, hindex', h.entries, h.index]
    · change p.1.mainRev = q.1.mainRev
      rw [hmain, hmain']
      unfold Call.mainRev
      cases c <;> simp only [h.mainRev]
    change p.1.compactedRev = q.1.compactedRev
    rw [hcompacted, hcompacted']
    unfold Call.compactedRev
    cases c <;> simp only [h.compactedRev]

lemma plain_append (cs : List Call) (c : Call) : plain (cs ++ [c]) = c.run (plain cs) := by
  unfold plain Durable.play
  rw [map_append, foldl_append]
  rfl

lemma reaches_plain (cs : List Call) : Reaches AnyAct (Durable.fresh []) (plain cs) :=
  reaches_play fun _ _ => trivial

lemma reliable_plain (cs : List Call) : (plain cs).disk.Reliable := by
  induction cs using List.reverseRecOn with
  | nil => rfl
  | append_singleton cs c ih =>
    rw [plain_append]
    exact (run_reliable ih c).1

lemma Replica.reaches (h : Replica ok cs x) : Reaches AnyAct (Durable.fresh []) x := by
  induction h with
  | fresh => exact .refl
  | call c _ _ ih => exact .tail ih ⟨.call c, trivial, rfl⟩
  | restart _ _ ih => exact .tail ih ⟨.restart, trivial, rfl⟩

lemma Replica.reliable (h : Replica ok cs x) : x.disk.Reliable := by
  induction h with
  | fresh => rfl
  | call c _ _ ih => exact (run_reliable ih c).1
  | restart _ _ ih => exact ih

lemma Replica.sameCore (h : Replica ok cs x) : SameCore x.store (plain cs).store := by
  induction h with
  | fresh => exact ⟨rfl, rfl, rfl⟩
  | @call cs x c hrun _ ih =>
    rw [plain_append]
    exact ih.run hrun.reliable (reliable_plain cs) c
  | @restart cs x hrun _ ih =>
    have hs := (sound_fresh []).reaches hrun.reaches
    obtain ⟨hindex, hmain, hcompacted⟩ := hs.mirrored.load hs.chronicle
    exact ⟨hindex.trans ih.index, hmain.trans ih.mainRev, hcompacted.trans ih.compactedRev⟩

end

/-! ## The put of a revision -/

/-- A revision that a put made has no other entry, and no two live keys are of one revision. -/
structure OnePut (s : Store) : Prop where
  history : ∀ a ∈ s.history, ∀ b ∈ s.history, a.type = .put → a.rev.main = b.rev.main → a = b
  index : ∀ k kg k' kg', s.index.find k = some kg → s.index.find k' = some kg' →
    kg.modRev.main = kg'.modRev.main → k = k'

section

variable {s : Store} {x : Durable} {outcomes : List Bool} {c : Call} {e : RevisionEntry}
  {kg : KeyGeneration}

lemma entries_main (h : e ∈ c.entries s) : e.rev.main = s.mainRev + 1 := by
  unfold Call.entries at h
  cases c with
  | put key value leaseId =>
    rw [mem_singleton.1 h]
    rfl
  | delete key =>
    rw [mem_toList, map_eq_some_iff] at h
    obtain ⟨kg, _, rfl⟩ := h
    rfl
  | deleteKeys keys => exact (mem_deleteEntries h).1
  | advance rev | compact rev => cases h

lemma entries_put {a b : RevisionEntry} (ha : a ∈ c.entries s) (hb : b ∈ c.entries s)
    (hput : a.type = .put) : a = b := by
  unfold Call.entries at ha hb
  cases c with
  | put key value leaseId => rw [mem_singleton.1 ha, mem_singleton.1 hb]
  | delete key =>
    rw [mem_toList, map_eq_some_iff] at ha
    obtain ⟨kg, _, rfl⟩ := ha
    cases hput
  | deleteKeys keys =>
    rw [(mem_deleteEntries ha).2.1] at hput
    cases hput
  | advance rev | compact rev => cases ha

lemma foldl_pushIndex_eq_some {es : List RevisionEntry} {m : OrdMap Key KeyGeneration} {k : Key}
    (h : (es.foldl pushIndex m).find k = some kg) :
    (∃ e ∈ es, e.key = k ∧ e.generation? = some kg) ∨ m.find k = some kg := by
  induction es generalizing m with
  | nil => exact Or.inr h
  | cons e es ih =>
    obtain ⟨a, ha, hk, hgen⟩ | hold := ih h
    · exact Or.inl ⟨a, mem_cons_of_mem _ ha, hk, hgen⟩
    rw [find_pushIndex] at hold
    split at hold
    · rename_i hk
      exact Or.inl ⟨e, mem_cons_self, hk.symm, hold⟩
    · exact Or.inr hold

lemma generation?_type (h : e.generation? = some kg) : e.type = .put := by
  unfold RevisionEntry.generation? at h
  cases htype : e.type with
  | put => rfl
  | delete =>
    rw [htype] at h
    cases h

lemma OnePut.effect (h : OnePut s) (hs : Chronicle s) {s' : Store} {f : Backend → Backend}
    (hc : c.effect s = some (s', f)) : OnePut s' := by
  obtain ⟨hindex, hhistory, _, _⟩ := Call.effect_fields hc
  have hmem : ∀ e ∈ s'.history, e ∈ s.history ∨ e ∈ c.entries s := by
    intro e he
    rw [hhistory] at he
    obtain he | he := mem_append.1 he
    · exact Or.inl (mem_filter.1 he).1
    · exact Or.inr he
  have hlive : ∀ k kg, s'.index.find k = some kg →
      (∃ e ∈ c.entries s, e.key = k ∧ e.generation? = some kg) ∨ s.index.find k = some kg := by
    intro k kg hk
    rw [hindex] at hk
    exact foldl_pushIndex_eq_some hk
  -- what is new is later than all that was there
  have hnew : ∀ k kg k' kg', (∃ e ∈ c.entries s, e.key = k ∧ e.generation? = some kg) →
      s.index.find k' = some kg' → kg.modRev.main ≠ kg'.modRev.main := by
    rintro k kg k' kg' ⟨e, he, _, hgen⟩ hold heq
    rw [generation?_modRev hgen, entries_main he] at heq
    have hle := (hs.modRev k' kg' hold).2
    omega
  refine ⟨fun a ha b hb hput heq => ?_, fun k kg k' kg' hk hk' heq => ?_⟩
  · rcases hmem a ha with ha | ha <;> rcases hmem b hb with hb | hb
    · exact h.history a ha b hb hput heq
    · rw [entries_main hb] at heq
      have hle := hs.bound a ha
      omega
    · rw [entries_main ha] at heq
      have hle := hs.bound b hb
      omega
    · exact entries_put ha hb hput
  rcases hlive k kg hk with hk | hk <;> rcases hlive k' kg' hk' with hk' | hk'
  · obtain ⟨e, he, rfl, hgen⟩ := hk
    obtain ⟨e', he', rfl, _⟩ := hk'
    rw [entries_put he he' (generation?_type hgen)]
  · exact absurd heq (hnew k kg k' kg' hk hk')
  · exact absurd heq.symm (hnew k' kg' k kg hk' hk)
  · exact h.index k kg k' kg' hk hk' heq

lemma OnePut.load (h : OnePut x.store) (hx : Sound x) : OnePut (mvccLoad x.disk.be) := by
  have hindex := (hx.mirrored.load hx.chronicle).1
  refine ⟨fun a ha b hb _ heq => ?_, by rw [hindex]; exact h.index⟩
  obtain ⟨kg, hkg, hseed⟩ := mem_load_history.1 ha
  obtain ⟨kg', hkg', hseed'⟩ := mem_load_history.1 hb
  rw [hx.mirrored.keys] at hkg hkg'
  have hmain : kg.modRev.main = kg'.modRev.main := by
    rw [hseed, hseed'] at heq
    exact heq
  have hkey := h.index _ kg _ kg' hkg hkg' hmain
  rw [hkey, hkg'] at hkg
  rw [hseed, hseed', hkey, some.inj hkg]

lemma onePut_of_reaches (h : Reaches AnyAct (Durable.fresh outcomes) x) : OnePut x.store := by
  induction h with
  | refl => exact ⟨fun _ h => (nomatch h), fun _ _ _ _ h => nomatch h⟩
  | tail hrun hstep ih =>
    rename_i y z
    have hs := (sound_fresh outcomes).reaches hrun
    obtain ⟨a, _, rfl⟩ := hstep
    cases a with
    | restart => exact ih.load hs
    | call c =>
      change OnePut (c.run y).store
      obtain ⟨hstore, _⟩ | ⟨f, heffect, _⟩ := c.run_cases y
      · rw [hstore]
        exact ih
      · exact ih.effect hs.chronicle heffect

lemma versionAt_boundary (h : OnePut s) (hs : Chronicle s) {c : Nat} (hpos : 0 < c) (k : Key)
    (kv : KeyValue) :
    versionAt { s with
        history := s.history.filter fun e => c ≤ e.rev.main
        compactedRev := c } c k = some kv ↔
      ∃ e ∈ s.history, e.type = .put ∧ e.rev.main = c ∧ e.key = k ∧ e.kv = kv := by
  have hentry : entryAt { s with
        history := s.history.filter fun e => c ≤ e.rev.main
        compactedRev := c } c k = (entryAt s c k).filter fun e => c ≤ e.rev.main :=
    latest_filter_le hs.sorted c
  rw [versionAt_pos hpos, hentry, bind_eq_some_iff]
  constructor
  · rintro ⟨e, he, hkv⟩
    obtain ⟨he, hle⟩ := filter_eq_some_iff.1 he
    obtain ⟨hmem, hkey, hle'⟩ := mem_of_latest he
    have hgen : e.type = .put ∧ e.kv = kv := by
      unfold RevisionEntry.version? at hkv
      cases htype : e.type with
      | delete =>
        rw [htype] at hkv
        cases hkv
      | put =>
        rw [htype] at hkv
        exact ⟨rfl, some.inj hkv⟩
    exact ⟨e, hmem, hgen.1, le_antisymm hle' (of_decide_eq_true hle), hkey, hgen.2⟩
  rintro ⟨e, hmem, hput, hmain, hkey, hkv⟩
  have hseen : entryAt s c k = some e := by
    cases hat : entryAt s c k with
    | none => exact absurd hmain.le (latest_eq_none.1 hat e hmem hkey)
    | some a =>
      -- the entry that is seen is of the same revision, and a put shares it with nothing
      obtain ⟨ha, _, hle⟩ := mem_of_latest hat
      have hge : e.rev.main ≤ a.rev.main := time_le_latest hs.sorted hat hmem hkey hmain.le
      rw [h.history e hmem a ha hput (le_antisymm hge (hle.trans_eq hmain.symm))]
  refine ⟨e, ?_, ?_⟩
  · rw [hseen, filter_some, if_pos (decide_eq_true hmain.ge)]
  unfold RevisionEntry.version?
  rw [hput]
  exact congrArg some hkv

end

/-! ## What replicas show at the last compaction -/

/-- Against the replica that never restarted: the same puts since the compaction, and the same
shown. -/
structure Agreeing (s p : Store) : Prop where
  puts : ∀ e ∈ s.history, e.type = .put → s.compactedRev ≤ e.rev.main → e ∈ p.history
  boundary : 0 < s.compactedRev → ∀ k,
    versionAt s s.compactedRev k = versionAt p s.compactedRev k

section

variable {s p : Store} {x : Durable} {cs : List Call}

lemma seedEntry_eq {e : RevisionEntry} {kg : KeyGeneration} (h : e.generation? = some kg) :
    seedEntry (e.key, kg) = e := by
  have hput := generation?_type h
  unfold RevisionEntry.generation? at h
  rw [hput] at h
  cases some.inj h
  cases e
  cases hput
  rfl

lemma Agreeing.write (h : Agreeing s p) (hs : Chronicle s) {s' p' : Store}
    {es : List RevisionEntry} (hes : ∀ e ∈ es, s.mainRev < e.rev.main)
    (hhistory : s'.history = s.history ++ es) (hhistory' : p'.history = p.history ++ es)
    (hcompacted : s'.compactedRev = s.compactedRev) : Agreeing s' p' := by
  refine ⟨fun e he hput hle => ?_, fun hpos k => ?_⟩
  · rw [hhistory] at he
    rw [hhistory']
    obtain he | he := mem_append.1 he
    · exact mem_append_left _ (h.puts e he hput (hcompacted ▸ hle))
    · exact mem_append_right _ he
  rw [hcompacted] at hpos ⊢
  have hlater : ∀ e ∈ es, s.compactedRev < e.rev.main := fun e he =>
    hs.compacted.trans_lt (hes e he)
  have hold := h.boundary hpos k
  rw [versionAt_pos hpos, versionAt_pos hpos] at hold ⊢
  unfold entryAt at hold ⊢
  rw [hhistory, hhistory', latest_append_of_later hlater, latest_append_of_later hlater]
  exact hold

lemma Agreeing.compact (h : Agreeing s p) (hs : Chronicle s) (hp : Chronicle p)
    (hs1 : OnePut s) (hp1 : OnePut p) {c : Nat} (hpos : 0 < c) (hlt : s.compactedRev < c)
    (hkept : ∀ e ∈ p.history, e.rev.main = c → e.type = .put → e ∈ s.history) :
    Agreeing { s with
        history := s.history.filter fun e => c ≤ e.rev.main
        compactedRev := c }
      { p with
        history := p.history.filter fun e => c ≤ e.rev.main
        compactedRev := c } := by
  refine ⟨fun e he hput hle => ?_, fun _ k => Option.ext fun kv => ?_⟩
  · have hmem := mem_filter.1 he
    exact mem_filter.2 ⟨h.puts e hmem.1 hput (hlt.le.trans hle), hmem.2⟩
  refine (versionAt_boundary hs1 hs hpos k kv).trans
    (Iff.trans ?_ (versionAt_boundary hp1 hp hpos k kv).symm)
  constructor
  · rintro ⟨e, he, hput, hmain, hrest⟩
    exact ⟨e, h.puts e he hput (hlt.le.trans hmain.ge), hput, hmain, hrest⟩
  rintro ⟨e, he, hput, hmain, hrest⟩
  exact ⟨e, hkept e he hmain hput, hput, hmain, hrest⟩

lemma Agreeing.restart (h : Agreeing x.store p) (hx : Sound x) (hp : Chronicle p)
    (hcore : SameCore x.store p)
    (hok : x.store.compactedRev = 0 ∨ ∀ k, Untouched x.store x.store.compactedRev k) :
    Agreeing (mvccLoad x.disk.be) p := by
  obtain ⟨_, _, hcompacted⟩ := hx.mirrored.load hx.chronicle
  refine ⟨fun e he _ hle => ?_, fun hpos k => ?_⟩
  · obtain ⟨kg, hkg, hseed⟩ := mem_load_history.1 he
    rw [hx.mirrored.keys, hcore.index] at hkg
    cases hnewest : newest RevisionEntry.key p.history e.key with
    | none =>
      have hlost := hp.lost _ kg hnewest hkg
      have hmain : e.rev.main = kg.modRev.main := by
        rw [hseed]
        rfl
      rw [hcompacted, hcore.compactedRev, hmain] at hle
      exact absurd hlost (not_lt.2 hle)
    | some a =>
      have hgen := hp.indexed _ a hnewest
      obtain ⟨ha, hkey⟩ := mem_of_newest hnewest
      rw [hkg] at hgen
      rw [hseed, ← hkey, seedEntry_eq hgen.symm]
      exact ha
  rw [hcompacted] at hpos ⊢
  rw [(versionAt_load_iff hx le_rfl k).2 (hok.resolve_left hpos.ne' k)]
  exact h.boundary hpos k

lemma Replica.agreeing (h : Replica KeepsBoundary cs x) : Agreeing x.store (plain cs).store := by
  induction h with
  | fresh => exact ⟨fun _ h => (nomatch h), fun h => absurd h (lt_irrefl 0)⟩
  | @restart cs x hrun hok ih =>
    exact ih.restart ((sound_fresh []).reaches hrun.reaches)
      ((sound_fresh []).reaches (reaches_plain cs)).chronicle hrun.sameCore hok
  | @call cs x c hrun hok ih =>
    have hs := ((sound_fresh []).reaches hrun.reaches).chronicle
    have hp := ((sound_fresh []).reaches (reaches_plain cs)).chronicle
    have hcore := hrun.sameCore
    have hsome := hcore.effect_isSome c
    rw [plain_append]
    change Agreeing (c.run x).store (c.run (plain cs)).store
    rw [(run_reliable hrun.reliable c).2, (run_reliable (reliable_plain cs) c).2]
    cases hex : c.effect x.store with
    | none =>
      rw [hex, isSome_none] at hsome
      rw [isSome_eq_false_iff.1 hsome.symm |> isNone_iff_eq_none.1]
      exact ih
    | some q =>
      rw [hex, isSome_some] at hsome
      obtain ⟨q', hey⟩ := isSome_iff_exists.1 hsome.symm
      rw [hey]
      dsimp only [elim_some]
      obtain ⟨_, hhistory, _, hcompacted⟩ := Call.effect_fields hex
      obtain ⟨_, hhistory', _, _⟩ := Call.effect_fields hey
      rw [← hcore.entries] at hhistory'
      have hes : ∀ e ∈ c.entries x.store, x.store.mainRev < e.rev.main := fun e he =>
        (Nat.lt_succ_self _).trans_eq (entries_main he).symm
      by_cases hwrite : IsWrite (.call c)
      · rw [filter_keeps hwrite] at hhistory hhistory'
        rw [compactedRev_of_isWrite hwrite] at hcompacted
        exact ih.write hs hes hhistory hhistory' hcompacted
      cases c with
      | compact rev =>
        obtain ⟨hpos, _, hlt, heq⟩ := Call.effect_compact hex
        rw [heq, (Call.effect_compact hey).2.2.2]
        exact ih.compact hs hp (onePut_of_reaches hrun.reaches)
          (onePut_of_reaches (reaches_plain cs)) hpos hlt hok
      | _ => exact absurd trivial hwrite

end

/-! ## Comparing replicas -/

section

variable {s t : Store} {x : Durable} {cs csA csB : List Call} {a b : Durable}

lemma grown_or_compacted (x : Durable) (c : Call) :
    Grown x.store (c.run x).store ∨ x.store.compactedRev < (c.run x).store.compactedRev := by
  by_cases hwrite : IsWrite (.call c)
  · exact Or.inl (@grown_next x (.call c) hwrite)
  obtain ⟨hstore, _⟩ | ⟨f, heffect, _⟩ := c.run_cases x
  · rw [hstore]
    exact Or.inl (Grown.refl _)
  cases c with
  | compact rev =>
    obtain ⟨_, _, hlt, heq⟩ := Call.effect_compact heffect
    rw [heq]
    exact Or.inr hlt
  | _ => exact absurd trivial hwrite

lemma grown_or_compacted_play (x : Durable) (cs : List Call) :
    Grown x.store (x.play (cs.map Act.call)).store ∨
      x.store.compactedRev < (x.play (cs.map Act.call)).store.compactedRev := by
  induction cs generalizing x with
  | nil => exact Or.inl (Grown.refl _)
  | cons c cs ih =>
    change Grown x.store ((c.run x).play (cs.map Act.call)).store ∨
      x.store.compactedRev < ((c.run x).play (cs.map Act.call)).store.compactedRev
    rcases grown_or_compacted x c with hone | hone <;> rcases ih (c.run x) with hrest | hrest
    · exact Or.inl (hone.trans hrest)
    · exact Or.inr (hone.compacted.symm.trans_lt hrest)
    · exact Or.inr (hone.trans_eq hrest.compacted.symm)
    · exact Or.inr (hone.trans hrest)

lemma plain_boundary (hstart : csA <+: csB)
    (heq : (plain csA).store.compactedRev = (plain csB).store.compactedRev)
    (hpos : 0 < (plain csA).store.compactedRev) (k : Key) :
    versionAt (plain csB).store (plain csA).store.compactedRev k =
      versionAt (plain csA).store (plain csA).store.compactedRev k := by
  obtain ⟨more, rfl⟩ := hstart
  have hplay : plain (csA ++ more) = (plain csA).play (more.map Act.call) := by
    unfold plain Durable.play
    rw [map_append, foldl_append]
  rw [hplay] at heq ⊢
  obtain hgrown | hlt := grown_or_compacted_play (plain csA) more
  · exact hgrown.versionAt hpos ((sound_fresh []).reaches (reaches_plain csA)).chronicle.compacted k
  · exact absurd heq hlt.ne

lemma mvccHashKv_congr {rev : Nat} (hs : rev ≤ s.mainRev) (ht : rev ≤ t.mainRev)
    (hs' : ¬ compactedAway s rev) (ht' : ¬ compactedAway t rev)
    (h : ∀ k, versionAt s rev k = versionAt t rev k) : mvccHashKv s rev = mvccHashKv t rev := by
  unfold mvccHashKv
  rw [if_neg hs.not_gt, if_neg ht.not_gt, (mvccRangeAt_eq_iff hs' ht').2 fun k _ => h k]
  have hsteps : ∀ r : Except ReadError UInt32,
      (if compactedAway s rev then .error .range else r) = r ∧
        (if compactedAway t rev then .error .range else r) = r := fun r =>
    ⟨if_neg hs', if_neg ht'⟩
  exact (hsteps _).1.trans (hsteps _).2.symm

lemma Replica.boundary (h : Replica KeepsBoundary cs x) (hpos : 0 < x.store.compactedRev)
    (k : Key) :
    versionAt x.store x.store.compactedRev k =
      versionAt (plain cs).store (plain cs).store.compactedRev k := by
  rw [← h.sameCore.compactedRev]
  exact h.agreeing.boundary hpos k

/-- Two replicas of the same calls, one perhaps behind, have the same hash at the same last
compaction. -/
theorem no_false_alarm (ha : Replica KeepsBoundary csA a) (hb : Replica KeepsBoundary csB b)
    (hA : csA <+: cs) (hB : csB <+: cs) (heq : a.store.compactedRev = b.store.compactedRev) :
    (0 < a.store.compactedRev ∨ csA = csB →
        mvccHashKv a.store a.store.compactedRev = mvccHashKv b.store b.store.compactedRev) ∧
      ∀ hashA hashB, mvccHashKv a.store a.store.compactedRev = .ok hashA →
        mvccHashKv b.store b.store.compactedRev = .ok hashB →
        compactHashMismatch a.store.compactedRev hashA b.store.compactedRev hashB = false := by
  have hca := ((sound_fresh []).reaches ha.reaches).chronicle.compacted
  have hcb := ((sound_fresh []).reaches hb.reaches).chronicle.compacted
  have hhash : 0 < a.store.compactedRev ∨ csA = csB →
      mvccHashKv a.store a.store.compactedRev = mvccHashKv b.store b.store.compactedRev := by
    intro hcase
    have hviews : ∀ k, versionAt a.store a.store.compactedRev k =
        versionAt b.store b.store.compactedRev k := by
      intro k
      obtain hzero | hpos := Nat.eq_zero_or_pos a.store.compactedRev
      · -- nothing is compacted: the hash is that of the current state
        have hsame : csA = csB := hcase.resolve_left (by omega)
        subst hsame
        rw [← heq, hzero, versionAt_zero, versionAt_zero, ha.sameCore.index, hb.sameCore.index]
      have hposB : 0 < b.store.compactedRev := heq ▸ hpos
      have hplain : (plain csA).store.compactedRev = (plain csB).store.compactedRev := by
        rw [← ha.sameCore.compactedRev, ← hb.sameCore.compactedRev, heq]
      rw [ha.boundary hpos, hb.boundary hposB]
      obtain hstart | hstart := prefix_or_prefix_of_prefix hA hB
      · rw [← hplain]
        exact (plain_boundary hstart hplain (ha.sameCore.compactedRev ▸ hpos) k).symm
      rw [hplain]
      exact plain_boundary hstart hplain.symm (hb.sameCore.compactedRev ▸ hposB) k
    rw [← heq] at hviews hcb ⊢
    exact mvccHashKv_congr hca hcb (not_compactedAway le_rfl) (not_compactedAway heq.ge) hviews
  refine ⟨hhash, fun hashA hashB hokA hokB => ?_⟩
  unfold compactHashMismatch
  obtain hzero | hpos := Nat.eq_zero_or_pos a.store.compactedRev
  · rw [if_pos (Or.inl hzero)]
  rw [hhash (Or.inl hpos), hokB] at hokA
  rw [if_neg (by omega), if_neg (not_not.2 heq), Except.ok.inj hokA]
  simp

/-- One key, compacted at its revision; one of the replicas restarts before the compaction. -/
theorem no_false_alarm_restarted : ∃ a b, Replica KeepsBoundary [.put [97] [1] 0, .compact 1] a ∧
      Replica KeepsBoundary [.put [97] [1] 0, .compact 1] b ∧
      a.store.compactedRev = 1 ∧ b.store.compactedRev = 1 ∧
      mvccHashKv a.store 1 = mvccHashKv b.store 1 := by
  have hput : Replica KeepsBoundary [.put [97] [1] 0] putOnce := .call (.put [97] [1] 0) .fresh trivial
  have hkept : ∀ x : Durable, x.store.history = putOnce.store.history →
      KeepsBoundary [.put [97] [1] 0] x (.call (.compact 1)) := by
    intro x hx
    change ∀ e ∈ putOnce.store.history, e.rev.main = 1 → e.type = .put → e ∈ x.store.history
    rw [hx]
    exact fun e he _ _ => he
  have ha : Replica KeepsBoundary [.put [97] [1] 0, .compact 1] (putOnce.next (.call (.compact 1))) :=
    .call (.compact 1) hput (hkept putOnce rfl)
  have hb : Replica KeepsBoundary [.put [97] [1] 0, .compact 1]
      ((putOnce.next .restart).next (.call (.compact 1))) :=
    .call (.compact 1) (.restart hput (Or.inl (by decide +kernel))) (hkept _ (by decide +kernel))
  have hca : (putOnce.next (.call (.compact 1))).store.compactedRev = 1 := by decide +kernel
  have hcb : ((putOnce.next .restart).next (.call (.compact 1))).store.compactedRev = 1 := by
    decide +kernel
  have hhash := (no_false_alarm ha hb (prefix_refl _) (prefix_refl _)
    (hca.trans hcb.symm)).1 (Or.inr rfl)
  rw [hca, hcb] at hhash
  exact ⟨_, _, ha, hb, hca, hcb, hhash⟩

/-- A key that stays, one that is deleted, and a compaction at the deletion. -/
def compactedCalls : List Call := [.put [97] [1] 0, .put [98] [2] 0, .delete [98], .compact 3]

lemma replica_plain_of_ok {ok : List Call → Durable → Act → Prop} (hok : ∀ cs x a, ok cs x a)
    (cs : List Call) : Replica ok cs (plain cs) := by
  induction cs using List.reverseRecOn with
  | nil => exact .fresh
  | append_singleton cs c ih =>
    rw [plain_append]
    exact .call c ih (hok _ _ _)

/-- The same calls on both, and a restart of one: the hashes at the compaction differ. -/
theorem restart_raises_alarm : Replica (fun _ _ _ => True) compactedCalls (plain compactedCalls) ∧
      Replica (fun _ _ _ => True) compactedCalls ((plain compactedCalls).next .restart) ∧
      (plain compactedCalls).store.compactedRev = 3 ∧
      ((plain compactedCalls).next .restart).store.compactedRev = 3 ∧
      mvccHashKv (plain compactedCalls).store 3 = .ok 0 ∧
      mvccHashKv ((plain compactedCalls).next .restart).store 3 = .ok 2419345824 ∧
      compactHashMismatch 3 0 3 2419345824 = true := by
  have hplain := @replica_plain_of_ok (fun _ _ _ => True) (fun _ _ _ => trivial) compactedCalls
  exact ⟨hplain, .restart hplain trivial, by decide +kernel, by decide +kernel, by decide +kernel,
    by decide +kernel, by decide +kernel⟩

end

end Cetcd.Mvcc
