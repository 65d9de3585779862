import Cetcd.Lib.Majority

/-!
# Logs whose entries carry an epoch

A replicated log whose entries are stamped with the epoch of the leader that created them. `pre t P`
says that `P` is a prefix of the log of epoch `t`; a log is `Anchored` if every prefix that ends in
an entry of epoch `t` is one of these. Then logs with entries of one epoch at one position agree up
to there (`Anchored.take_eq`). `Chosen` says that a majority has acknowledged a prefix, `VoteKeeps`
what a voter's log still held, and `completeness` that every later leader has it.
-/

namespace Lib

open List

variable {E : Type} (tm : E → ℕ)

def Anchored (pre : ℕ → List E → Prop) (L : List E) : Prop :=
  ∀ (k : ℕ) (h : k < L.length), pre (tm L[k]) (L.take (k + 1))

/-- An epoch has at most one prefix of each length. -/
def OnePrefix (pre : ℕ → List E → Prop) : Prop :=
  ∀ t P Q, pre t P → pre t Q → P.length = Q.length → P = Q

/-- The epoch of the last entry; zero for the empty log. -/
def lastTm (L : List E) : ℕ :=
  match L.getLast? with
  | some e => tm e
  | none => 0

/-- `L` is at least as up to date as `L'`. -/
def UpToDate (L L' : List E) : Prop :=
  lastTm tm L' < lastTm tm L ∨ (lastTm tm L = lastTm tm L' ∧ L'.length ≤ L.length)

def Sorted (L : List E) : Prop :=
  L.Pairwise (fun a b => tm a ≤ tm b)

variable {tm} {L P : List E}

namespace Anchored

variable {pre pre' : ℕ → List E → Prop} {L L' P : List E}

lemma nil : Anchored tm pre [] := by
  intro k h
  simp at h

lemma mono (h : Anchored tm pre L) (hpre : ∀ t P, pre t P → pre' t P) : Anchored tm pre' L :=
  fun k hk => hpre _ _ (h k hk)

lemma restrict (h : Anchored tm pre L) (hP : P <+: L) : Anchored tm pre P := by
  intro k hk
  have hkL : k < L.length := hk.trans_le hP.length_le
  have hget : P[k] = L[k] := hP.getElem hk
  have htake : P.take (k + 1) = L.take (k + 1) := by
    rw [prefix_iff_eq_take.1 hP, take_take]
    congr 1
    omega
  rw [hget, htake]
  exact h k hkL

lemma snoc (h : Anchored tm pre L) {e : E} (he : pre (tm e) (L ++ [e])) :
    Anchored tm pre (L ++ [e]) := by
  intro k hk
  rw [length_append, length_singleton] at hk
  by_cases hlt : k < L.length
  · rw [getElem_append_left hlt, take_append_of_le_length (by omega)]
    exact h k hlt
  have hkL : k = L.length := by omega
  subst hkL
  rw [take_of_length_le (by simp)]
  simpa using he

lemma take_eq (hpre : OnePrefix pre) (h : Anchored tm pre L) (h' : Anchored tm pre L')
    {k : ℕ} (hk : k < L.length) (hk' : k < L'.length) (heq : tm L[k] = tm L'[k]) :
    L.take (k + 1) = L'.take (k + 1) := by
  refine hpre (tm L[k]) _ _ (h k hk) ?_ ?_
  · rw [heq]
    exact h' k hk'
  rw [length_take, length_take]
  omega

lemma take_eq_of_getElem? (hpre : OnePrefix pre) (h : Anchored tm pre L)
    (h' : Anchored tm pre L') {k : ℕ} {e e' : E} (hk : L[k]? = some e) (hk' : L'[k]? = some e')
    (heq : tm e = tm e') : L.take (k + 1) = L'.take (k + 1) := by
  obtain ⟨hlt, rfl⟩ := List.getElem?_eq_some_iff.1 hk
  obtain ⟨hlt', rfl⟩ := List.getElem?_eq_some_iff.1 hk'
  exact h.take_eq hpre h' hlt hlt' heq

lemma pre_lastTm (h : Anchored tm pre L) (hne : L ≠ []) : pre (lastTm tm L) L := by
  have hlen : 0 < L.length := length_pos_iff.2 hne
  have hk := h (L.length - 1) (by omega)
  have hlast : lastTm tm L = tm L[L.length - 1] := by
    unfold lastTm
    rw [getLast?_eq_getElem?, getElem?_eq_getElem (by omega)]
  rw [hlast]
  rwa [Nat.sub_add_cancel hlen, take_length] at hk

end Anchored

lemma exists_mem_lastTm (tm : E → ℕ) (h : L ≠ []) : ∃ x ∈ L, tm x = lastTm tm L := by
  refine ⟨L.getLast h, getLast_mem h, ?_⟩
  simp [lastTm, getLast?_eq_some_getLast h]

@[simp] lemma lastTm_nil : lastTm tm ([] : List E) = 0 := rfl

@[simp] lemma lastTm_concat (L : List E) (e : E) : lastTm tm (L ++ [e]) = tm e := by
  simp [lastTm]

lemma Sorted.restrict (h : Sorted tm L) (hP : P <+: L) : Sorted tm P :=
  List.Pairwise.sublist hP.sublist h

lemma Sorted.snoc (h : Sorted tm L) {e : E} (he : ∀ x ∈ L, tm x ≤ tm e) : Sorted tm (L ++ [e]) := by
  refine pairwise_append.2 ⟨h, by simp, ?_⟩
  intro a ha b hb
  rw [mem_singleton] at hb
  subst hb
  exact he a ha

lemma Sorted.le_lastTm (h : Sorted tm L) {x : E} (hx : x ∈ L) : tm x ≤ lastTm tm L := by
  have hne : L ≠ [] := ne_nil_of_mem hx
  obtain hnil | ⟨L', e, rfl⟩ := eq_nil_or_concat L
  · exact absurd hnil hne
  rw [concat_eq_append] at h hx ⊢
  rw [lastTm_concat]
  obtain hx | hx := mem_append.1 hx
  · exact (pairwise_append.1 h).2.2 x hx e (by simp)
  rw [mem_singleton] at hx
  rw [hx]

lemma UpToDate.refl (L : List E) : UpToDate tm L L := Or.inr ⟨rfl, le_rfl⟩

lemma getElem?_extend {k : ℕ} {e : E} (h : P <+: L) (hk : P[k]? = some e) : L[k]? = some e := by
  obtain ⟨R, rfl⟩ := h
  rwa [List.getElem?_append_left (List.getElem?_eq_some_iff.1 hk).1]

lemma take_eq_of_extends {n : ℕ} (h : P <+: L) (hn : n ≤ P.length) : L.take n = P.take n := by
  rw [prefix_iff_eq_take.1 h, take_take]
  congr 1
  omega

section

variable {N : Type} (tm) (V : List N) (llog elog : ℕ → List E) (led : ℕ → Prop)
  (ack : N → ℕ → ℕ → Prop) (voteLog : N → ℕ → List E)

/-- A majority has acknowledged the first `k` entries of epoch `t`, the last one of that epoch. -/
structure Chosen (t k : ℕ) : Prop where
  led : led t
  pos : 1 ≤ k
  le : k ≤ (llog t).length
  own : ∀ h : k - 1 < (llog t).length, tm (llog t)[k - 1] = t
  acked : Majority V (fun v => ack v t k)

/-- What `v` had acknowledged before epoch `t'` was in its log when it voted there, unless a leader
in between had started without it. -/
def VoteKeeps (v : N) (t' : ℕ) : Prop :=
  ∀ t k, t < t' → ack v t k →
    (llog t).take k <+: voteLog v t' ∨ ∃ s, t < s ∧ s < t' ∧ led s ∧ ¬ (llog t).take k <+: elog s

/-- The facts about elections on which completeness rests. -/
structure Elections : Prop where
  /-- A leader extends the log it was elected with. -/
  elog_extended : ∀ t, led t → elog t <+: llog t
  /-- Every log in sight is anchored in the leaders' logs. -/
  anchored : ∀ t, led t → Anchored tm (fun s P => led s ∧ P <+: llog s) (elog t)
  older : ∀ t, led t → ∀ e ∈ elog t, tm e < t
  bounded : ∀ t, ∀ e ∈ llog t, tm e ≤ t
  elected : ∀ t, led t → Majority V (fun v =>
    UpToDate tm (elog t) (voteLog v t) ∧ Sorted tm (voteLog v t) ∧
      Anchored tm (fun s P => led s ∧ P <+: llog s) (voteLog v t) ∧
      VoteKeeps llog elog led ack voteLog v t)

variable {tm V llog elog led ack voteLog} {t k T c T' c' : ℕ} {L L' : List E}

lemma UpToDate.carries {Lc Lv : List E} (hch : Chosen tm V llog led ack t k)
    (hbound : ∀ e ∈ llog t, tm e ≤ t) (hc : Anchored tm (fun s P => led s ∧ P <+: llog s) Lc)
    (hv : Anchored tm (fun s P => led s ∧ P <+: llog s) Lv) (hsort : Sorted tm Lv)
    (hpre : (llog t).take k <+: Lv) (hup : UpToDate tm Lc Lv)
    (hlater : ∀ s, t < s → led s → s ≤ lastTm tm Lc → (llog t).take k <+: llog s) :
    (llog t).take k <+: Lc := by
  have hlenX : ((llog t).take k).length = k := by
    rw [length_take]
    exact min_eq_left hch.le
  have hLv : Lv ≠ [] := by
    rintro rfl
    have := hpre.length_le
    rw [hlenX] at this
    have := hch.pos
    simp at *
    omega
  -- the voter's log ends at epoch `t` or later
  have htLv : t ≤ lastTm tm Lv := by
    have hkX : k - 1 < ((llog t).take k).length := by
      have := hch.pos
      omega
    have hmem : ((llog t).take k)[k - 1] ∈ Lv := hpre.subset (getElem_mem hkX)
    have hown : tm ((llog t).take k)[k - 1] = t := by
      rw [getElem_take]
      exact hch.own _
    rw [← hown]
    exact hsort.le_lastTm hmem
  have hanchV := hv.pre_lastTm hLv
  obtain hgt | ⟨heq, hlen⟩ := hup
  · -- a strictly later last epoch: its leader already had the prefix
    have hLc : Lc ≠ [] := by
      rintro rfl
      rw [lastTm_nil] at hgt
      omega
    have hanchC := hc.pre_lastTm hLc
    have hX := hlater (lastTm tm Lc) (by omega) hanchC.1 le_rfl
    obtain hshort | hlong := Nat.lt_or_ge Lc.length k
    · have hsub : Lc <+: (llog t).take k :=
        prefix_of_prefix_length_le hanchC.2 hX (by omega)
      obtain ⟨x, hx, hxlast⟩ := exists_mem_lastTm tm hLc
      have hle := hbound x (mem_of_mem_take (hsub.subset hx))
      omega
    · exact prefix_of_prefix_length_le hX hanchC.2 (by omega)
  -- the same last epoch: both logs are prefixes of its leader's log
  have hLc : Lc ≠ [] := by
    rintro rfl
    have := length_pos_iff.2 hLv
    rw [length_nil] at hlen
    omega
  have hanchC := hc.pre_lastTm hLc
  rw [heq] at hanchC
  exact hpre.trans (prefix_of_prefix_length_le hanchV.2 hanchC.2 hlen)

lemma completeness (hel : Elections tm V llog elog led ack voteLog)
    (hch : Chosen tm V llog led ack t k) : ∀ t', t < t' → led t' → (llog t).take k <+: elog t' := by
  intro t'
  induction t' using Nat.strong_induction_on with
  | _ t' ih =>
    intro hlt hled
    rcases (hch.acked.inter (hel.elected t' hled)) with
      ⟨v, _, hack, hup, hsort, hanch, hkeeps⟩
    have hpre : (llog t).take k <+: voteLog v t' := by
      obtain hpre | ⟨s, hts, hst, hs, hno⟩ := hkeeps t k hlt hack
      · exact hpre
      · exact absurd (ih s hst hts hs) hno
    refine UpToDate.carries hch (hel.bounded t) (hel.anchored t' hled) hanch hsort hpre hup ?_
    intro s hts hs hslast
    have hLc : elog t' ≠ [] := by
      intro hnil
      rw [hnil, lastTm_nil] at hslast
      omega
    obtain ⟨x, hx, hxlast⟩ := exists_mem_lastTm tm hLc
    have hlast := hel.older t' hled x hx
    exact (ih s (by omega) hts hs).trans (hel.elog_extended s hs)

/-- The first `c` entries of `L` are a chosen prefix, chosen no later than in epoch `T`. -/
def CommittedIn (tm : E → ℕ) (V : List N) (llog : ℕ → List E) (led : ℕ → Prop)
    (ack : N → ℕ → ℕ → Prop) (T c : ℕ) (L : List E) : Prop :=
  c = 0 ∨ ∃ t k, t ≤ T ∧ Chosen tm V llog led ack t k ∧ c ≤ k ∧ (llog t).take c <+: L

lemma CommittedIn.length_le (h : CommittedIn tm V llog led ack T c L) : c ≤ L.length := by
  obtain rfl | ⟨t, k, _, hch, hck, hpre⟩ := h
  · exact zero_le
  have := hpre.length_le
  rw [length_take] at this
  have := hch.le
  omega

lemma CommittedIn.agree (hel : Elections tm V llog elog led ack voteLog) {i : ℕ}
    (h : CommittedIn tm V llog led ack T c L) (h' : CommittedIn tm V llog led ack T' c' L')
    (hi : i ≤ c) (hi' : i ≤ c') : L.take i = L'.take i := by
  obtain rfl | ⟨t, k, _, hch, hck, hpre⟩ := h
  · simp [show i = 0 by omega]
  obtain rfl | ⟨t', k', _, hch', hck', hpre'⟩ := h'
  · simp [show i = 0 by omega]
  have hL : L.take i = (llog t).take i := by
    have := hch.le
    rw [take_eq_of_extends hpre (by rw [length_take]; omega), take_take]
    congr 1
    omega
  have hL' : L'.take i = (llog t').take i := by
    have := hch'.le
    rw [take_eq_of_extends hpre' (by rw [length_take]; omega), take_take]
    congr 1
    omega
  -- the later of the two leaders holds the earlier one's prefix
  have key : ∀ {t t' k : ℕ}, t < t' → led t' → Chosen tm V llog led ack t k → i ≤ k →
      (llog t').take i = (llog t).take i := by
    intro t t' k htt hled hch hik
    have hp : (llog t).take k <+: llog t' :=
      (completeness hel hch t' htt hled).trans (hel.elog_extended t' hled)
    have := hch.le
    rw [take_eq_of_extends hp (by rw [length_take]; omega), take_take]
    congr 1
    omega
  rw [hL, hL']
  obtain hlt | heq | hgt := Nat.lt_trichotomy t t'
  · exact (key hlt hch'.led hch (by omega)).symm
  · rw [heq]
  · exact key hgt hch.led hch' (by omega)

/-- A committed prefix goes over to every log that keeps what the old one shares with the same or a
later leader. -/
lemma CommittedIn.carry (hel : Elections tm V llog elog led ack voteLog)
    (h : CommittedIn tm V llog led ack T c L) (hT : T ≤ T') (hled : led T')
    (hkeep : ∀ X, X <+: L → X <+: llog T' → X <+: L') : CommittedIn tm V llog led ack T' c L' := by
  obtain rfl | ⟨t, k, htT, hch, hck, hpre⟩ := h
  · exact Or.inl rfl
  refine Or.inr ⟨t, k, by omega, hch, hck, hkeep _ hpre ?_⟩
  obtain hlt | hge := Nat.lt_or_ge t T'
  · have hp := (completeness hel hch T' hlt hled).trans (hel.elog_extended T' hled)
    exact (take_prefix_take_left hck).trans hp
  have : t = T' := by omega
  subst this
  exact take_prefix _ _

lemma CommittedIn.weaken (h : CommittedIn tm V llog led ack T c L) (hT : T ≤ T') (hc : c' ≤ c)
    (hL : L <+: L') : CommittedIn tm V llog led ack T' c' L' := by
  obtain rfl | ⟨t, k, htT, hch, hck, hpre⟩ := h
  · exact Or.inl (by omega)
  · exact Or.inr ⟨t, k, by omega, hch, by omega, ((take_prefix_take_left hc).trans hpre).trans hL⟩

lemma CommittedIn.clip {M : List E} (h : CommittedIn tm V llog led ack T c M) (hL : L <+: M) :
    CommittedIn tm V llog led ack T (min c L.length) L := by
  obtain rfl | ⟨t, k, htT, hch, hck, hpre⟩ := h
  · exact Or.inl (by simp)
  refine Or.inr ⟨t, k, htT, hch, by omega, ?_⟩
  refine prefix_of_prefix_length_le ((take_prefix_take_left (by omega)).trans hpre) hL ?_
  rw [length_take]
  omega

section

variable {llog' : ℕ → List E} {led' : ℕ → Prop} {ack' : N → ℕ → ℕ → Prop}
  (hllog : ∀ t, llog t <+: llog' t) (hled : ∀ t, led t → led' t)
  (hack : ∀ v t k, ack v t k → ack' v t k)

include hllog hled hack

lemma Chosen.mono {t k : ℕ} (h : Chosen tm V llog led ack t k) :
    Chosen tm V llog' led' ack' t k where
  led := hled t h.led
  pos := h.pos
  le := h.le.trans (hllog t).length_le
  own hk := by
    have hk' : k - 1 < (llog t).length := by
      have := h.le
      have := h.pos
      omega
    rw [← (hllog t).getElem hk']
    exact h.own hk'
  acked := h.acked.mono (fun v _ => hack v t k)

lemma CommittedIn.mono {T c : ℕ} {L : List E} (h : CommittedIn tm V llog led ack T c L) :
    CommittedIn tm V llog' led' ack' T c L := by
  obtain rfl | ⟨t, k, htT, hch, hck, hpre⟩ := h
  · exact Or.inl rfl
  refine Or.inr ⟨t, k, htT, hch.mono hllog hled hack, hck, ?_⟩
  have := hch.le
  rw [take_eq_of_extends (hllog t) (by omega)]
  exact hpre

end

end

end Lib
