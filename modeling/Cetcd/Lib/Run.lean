import Mathlib.Tactic

/-!
# Runs of a labelled transition system

A run is the list of the states it went through, newest first. A system that is deterministic up to
the choice of the label can be replayed from a script, each label of which may look at the state.
-/

namespace Lib

open List

variable {S A : Type}

inductive RunOf (init : S → Prop) (step : S → A → S → Prop) : List S → Prop
  | start {s : S} : init s → RunOf init step [s]
  | step {s s' : S} {hist : List S} (a : A) :
      RunOf init step (s :: hist) → step s a s' → RunOf init step (s' :: s :: hist)

namespace RunOf

variable {init : S → Prop} {step step' : S → A → S → Prop} {hist : List S}

/-- What holds at the start and is kept by every step holds in all states of a run. -/
lemma forall_mem {P : S → Prop} (hinit : ∀ s, init s → P s)
    (hstep : ∀ s a s', P s → step s a s' → P s') (h : RunOf init step hist) : ∀ s ∈ hist, P s := by
  induction h with
  | start hs => exact forall_mem_singleton.2 (hinit _ hs)
  | step a _ hs ih => exact forall_mem_cons.2 ⟨hstep _ a _ (ih _ mem_cons_self) hs, ih⟩

lemma mono (hmono : ∀ s a s', step s a s' → step' s a s') (h : RunOf init step hist) :
    RunOf init step' hist := by
  induction h with
  | start hs => exact .start hs
  | step a _ hs ih => exact .step a ih (hmono _ _ _ hs)

lemma exists_suffix (h : RunOf init step hist) {s : S} (hs : s ∈ hist) :
    ∃ rest, RunOf init step (s :: rest) ∧ (s :: rest) <:+ hist := by
  induction h with
  | start hinit =>
    rw [mem_singleton.1 hs]
    exact ⟨[], .start hinit, suffix_refl _⟩
  | step a hrun hstep ih =>
    obtain rfl | hs := mem_cons.1 hs
    · exact ⟨_, .step a hrun hstep, suffix_refl _⟩
    obtain ⟨rest, hrest, hsuf⟩ := ih hs
    exact ⟨rest, hrest, hsuf.trans (suffix_cons _ _)⟩

lemma of_suffix (h : RunOf init step hist) {s : S} {rest : List S} (hs : (s :: rest) <:+ hist) :
    RunOf init step (s :: rest) := by
  induction h with
  | start hinit =>
    obtain heq | hnil := suffix_cons_iff.1 hs
    · rw [heq]
      exact .start hinit
    · exact absurd (suffix_nil.1 hnil) (by simp)
  | step a hrun hstep ih =>
    obtain heq | hlater := suffix_cons_iff.1 hs
    · rw [heq]
      exact .step a hrun hstep
    · exact ih hlater

end RunOf

/-! ## Scripts -/

section

variable (next : S → A → S)

def replay (hist : List S) (s : S) : List (S → A) → List S
  | [] => s :: hist
  | f :: fs => replay (s :: hist) (next s (f s)) fs

def finish (s : S) : List (S → A) → S
  | [] => s
  | f :: fs => finish (next s (f s)) fs

def Playable (ok : S → A → Prop) (s : S) : List (S → A) → Prop
  | [] => True
  | f :: fs => ok s (f s) ∧ Playable ok (next s (f s)) fs

instance decidablePlayable (ok : S → A → Prop) [∀ s a, Decidable (ok s a)] (s : S) :
    (fs : List (S → A)) → Decidable (Playable next ok s fs)
  | [] => inferInstanceAs (Decidable True)
  | f :: fs =>
    have := decidablePlayable ok (next s (f s)) fs
    inferInstanceAs (Decidable (_ ∧ _))

lemma finish_mem_replay (fs : List (S → A)) (hist : List S) (s : S) :
    finish next s fs ∈ replay next hist s fs := by
  induction fs generalizing hist s with
  | nil => exact mem_cons_self
  | cons f fs ih => exact ih _ _

lemma mem_replay (fs : List (S → A)) {hist : List S} {s s1 : S} (h : s1 ∈ s :: hist) :
    s1 ∈ replay next hist s fs := by
  induction fs generalizing hist s with
  | nil => exact h
  | cons f fs ih => exact ih (mem_cons_of_mem _ h)

lemma finish_take_mem_replay (fs : List (S → A)) (n : ℕ) (hist : List S) (s : S) :
    finish next s (fs.take n) ∈ replay next hist s fs := by
  induction fs generalizing n hist s with
  | nil =>
    rw [take_nil]
    exact mem_cons_self
  | cons f fs ih =>
    cases n with
    | zero => exact mem_replay next _ mem_cons_self
    | succ n => exact ih n _ _

variable {next} {init : S → Prop} {step : S → A → S → Prop} {ok : S → A → Prop}

lemma run_replay_from (hstep : ∀ s a, ok s a → step s a (next s a)) (fs : List (S → A))
    {hist : List S} {s : S} (hrun : RunOf init step (s :: hist)) (hplay : Playable next ok s fs) :
    RunOf init step (replay next hist s fs) := by
  induction fs generalizing hist s with
  | nil => exact hrun
  | cons f fs ih => exact ih (.step (f s) hrun (hstep s (f s) hplay.1)) hplay.2

lemma run_of_playable (hstep : ∀ s a, ok s a → step s a (next s a)) {s : S}
    {fs : List (S → A)} (hinit : init s) (hplay : Playable next ok s fs) :
    RunOf init step (replay next [] s fs) :=
  run_replay_from hstep fs (.start hinit) hplay

end

end Lib
