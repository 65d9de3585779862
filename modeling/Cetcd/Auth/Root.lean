import Cetcd.Auth.Store

/-!
# The administrator

Authentication is turned on only if `root` exists. The store is saved after an entry and loaded at
start. What saved users lose of role lists whose length exceeds 16 bits is left open.
-/

namespace Cetcd.Auth

open Lib Apply Rpc Option OrdMap

/-- A node: its store and the one in its backend. -/
structure Node where
  store : Store
  saved : Option Store

def boot : Node := ⟨.new, none⟩

/-- `cetcd_auth_load` into a new store, whose flag the configuration has set. -/
def authLoad (authEnabled : Bool) (cut : User → User) : Option Store → Store
  | none => { Store.new with enabled := authEnabled }
  | some s => { s with users := s.users.map cut, overrun := false }

inductive Event
  /-- An entry is applied; the store may then be saved. -/
  | entry (e : LogCall) (saves : Bool)
  | restart (authEnabled : Bool) (cut : User → User)

def Node.next (n : Node) : Event → Node
  | .entry e saves =>
    ⟨applyAuth n.store e, if saves then some (applyAuth n.store e) else n.saved⟩
  | .restart authEnabled cut => { n with store := authLoad authEnabled cut n.saved }

/-- `root` is not deleted while authentication is on, nor is it turned on before a store is saved.
-/
def Guarded (n : Node) : Event → Prop
  | .entry e _ => e = .authUserDelete root → n.store.enabled = false
  | .restart authEnabled _ => authEnabled = true → n.saved ≠ none

def AllGuarded (n : Node) : List Event → Prop
  | [] => True
  | ev :: evs => Guarded n ev ∧ AllGuarded (n.next ev) evs

def Store.KeepsRoot (s : Store) : Prop := s.enabled = true → (s.users.find root).isSome = true

def Node.KeepsRoot (n : Node) : Prop := n.store.KeepsRoot ∧ ∀ s ∈ n.saved, s.KeepsRoot

lemma Store.KeepsRoot.apply {s : Store} (h : s.KeepsRoot) {e : LogCall}
    (hroot : e = .authUserDelete root → s.enabled = false) : (applyAuth s e).KeepsRoot := by
  have hset {name : Name} {u : User} (hon : s.enabled) :
      ((s.users.insert name u).find root).isSome = true := by
    rw [find_insert]
    split
    · rfl
    · exact h hon
  fun_cases applyAuth s e
  -- only turning authentication on and deleting a user can do harm
  case case2 on hok =>
    rintro rfl
    simpa [isSome_iff_ne_none] using hok
  case case5 name =>
    intro hon
    have hne : root ≠ name := fun heq => by simp [hroot (by rw [heq])] at hon
    rw [find_erase, if_neg hne]
    exact h hon
  all_goals
    first
    | exact h
    | exact hset

lemma Node.KeepsRoot.next {n : Node} (h : n.KeepsRoot) {ev : Event} (hev : Guarded n ev) :
    (n.next ev).KeepsRoot := by
  cases ev with
  | entry e saves =>
    have happly := h.1.apply hev
    refine ⟨happly, fun s hs => ?_⟩
    cases saves with
    | false => exact h.2 s hs
    | true => exact some.inj hs ▸ happly
  | restart authEnabled cut =>
    refine ⟨?_, h.2⟩
    simp only [Node.next]
    cases hsaved : n.saved with
    | none =>
      have hoff : authEnabled = false := by simpa [Guarded, hsaved] using hev
      simp [authLoad, hoff, Store.KeepsRoot]
    | some s =>
      intro hon
      rw [authLoad, find_map, isSome_map]
      exact h.2 s hsaved hon

/-- In a guarded run `root` exists whenever authentication is on. -/
theorem enabled_keeps_root {evs : List Event} (h : AllGuarded boot evs)
    (hon : (evs.foldl Node.next boot).store.enabled = true) :
    ((evs.foldl Node.next boot).store.users.find root).isSome = true := by
  have hrun : ∀ n : Node, n.KeepsRoot → AllGuarded n evs → (evs.foldl Node.next n).KeepsRoot := by
    clear h hon
    induction evs with
    | nil => exact fun n hn _ => hn
    | cons ev evs ih => exact fun n hn h => ih (n.next ev) (hn.next h.1) h.2
  exact (hrun boot ⟨nofun, nofun⟩ h).1 hon

/-- A start, the user `root`, authentication on, and a restart. -/
def adminRun : List Event :=
  [.restart false id, .entry (.authUserAdd root [1]) true, .entry (.authEnabled true) true, .restart false id]

theorem enabled_keeps_root_admin :
    ((adminRun.foldl Node.next boot).store.users.find root).isSome = true :=
  enabled_keeps_root ⟨nofun, nofun, nofun, nofun, trivial⟩ (by decide +kernel)

def deposedRun : List Event := adminRun ++ [.entry (.authUserDelete root) true]

theorem root_deleted_while_enabled : (deposedRun.foldl Node.next boot).store.enabled = true ∧
      (deposedRun.foldl Node.next boot).store.users.find root = none := by
  decide +kernel

end Cetcd.Auth
