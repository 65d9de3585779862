import Mathlib.Data.Nat.Bitwise
import Mathlib.Data.List.Basic

/-!
# Walking over tagged fields

A reader of fields: a tag byte, then a varint or a length with that many bytes. Whether cursor and
length are added modulo `2 ^ 64` or exactly is a parameter. The two readers go together up to the
first sum that passes `2 ^ 64`: there the exact one stops, and the other takes a field that is not
in the buffer.
-/

namespace Lib
namespace Wire

open List

/-! ## What a reader does -/

inductive Outcome (α : Type)
  | ok (a : α)
  /-- The error return. -/
  | failed
  /-- A read outside the buffer. -/
  | fault
  /-- The loop has not ended yet. -/
  | spin
  /-- The exact reader met a length whose sum with the cursor passes `2 ^ 64`. -/
  | huge
  deriving DecidableEq

/-- The fields with a length that were taken, as offset and length, and how it ended. -/
structure Parse (α : Type) where
  fields : List (Nat × Nat)
  outcome : Outcome α
  deriving DecidableEq

namespace Parse

variable {α β : Type} {m : Parse α}

def failed : Parse α := ⟨[], .failed⟩
def fault : Parse α := ⟨[], .fault⟩
def spin : Parse α := ⟨[], .spin⟩
def huge : Parse α := ⟨[], .huge⟩

def accept (base len : Nat) : Parse Unit := ⟨[(base, len)], .ok ()⟩

def bind (m : Parse α) (f : α → Parse β) : Parse β :=
  match m.outcome with
  | .ok a => ⟨m.fields ++ (f a).fields, (f a).outcome⟩
  | .failed => ⟨m.fields, .failed⟩
  | .fault => ⟨m.fields, .fault⟩
  | .spin => ⟨m.fields, .spin⟩
  | .huge => ⟨m.fields, .huge⟩

instance : Monad Parse where
  pure a := ⟨[], .ok a⟩
  bind := bind

lemma bind_ok {a : α} (h : m.outcome = .ok a) (f : α → Parse β) :
    m >>= f = ⟨m.fields ++ (f a).fields, (f a).outcome⟩ := by
  change m.bind f = _
  unfold bind
  rw [h]

lemma bind_eq_ok {f : α → Parse β} {b : β} (h : (m >>= f).outcome = .ok b) :
    ∃ a, m.outcome = .ok a ∧ (f a).outcome = .ok b := by
  change (m.bind f).outcome = _ at h
  unfold bind at h
  cases hm : m.outcome with
  | ok a =>
    rw [hm] at h
    exact ⟨a, rfl, h⟩
  | failed | fault | spin | huge =>
    rw [hm] at h
    cases h

end Parse

/-! ## Two readers side by side -/

section

variable {α β : Type} {n : Nat} {m e : Parse α}

/-- It ends, reads nothing outside `n` bytes, and takes no field that is not inside. -/
def Safe (n : Nat) (m : Parse α) : Prop :=
  m.outcome ≠ .fault ∧ m.outcome ≠ .spin ∧ ∀ f ∈ m.fields, f.1 + f.2 ≤ n

instance [DecidableEq α] (m : Parse α) : Decidable (Safe n m) := by
  unfold Safe
  infer_instance

def Escapes (n : Nat) (m : Parse α) : Prop :=
  m.outcome = .fault ∨ ∃ f ∈ m.fields, n < f.1 + f.2

/-- The second reader is safe, and the first does the same until the second meets a length that is
too large. -/
structure Tracks (n : Nat) (m e : Parse α) : Prop where
  safe : Safe n e
  escapes : e.outcome = .huge → Escapes n m
  same : e.outcome ≠ .huge → m = e

lemma Escapes.not_safe (h : Escapes n m) : ¬ Safe n m := by
  rintro ⟨hfault, -, hfields⟩
  obtain h | ⟨f, hf, hlt⟩ := h
  · exact hfault h
  · exact absurd (hfields f hf) (not_le.2 hlt)

lemma Tracks.safe_iff (h : Tracks n m e) : Safe n m ↔ e.outcome ≠ .huge := by
  constructor
  · exact fun hsafe hhuge => (h.escapes hhuge).not_safe hsafe
  intro hne
  rw [h.same hne]
  exact h.safe

lemma tracks_refl (hsafe : Safe n m) (hne : m.outcome ≠ .huge) : Tracks n m m :=
  ⟨hsafe, fun h => absurd h hne, fun _ => rfl⟩

lemma tracks_pure (a : α) : Tracks n (pure a) (pure a) :=
  tracks_refl ⟨nofun, nofun, nofun⟩ nofun

lemma tracks_failed : Tracks n (Parse.failed : Parse α) Parse.failed :=
  tracks_refl ⟨nofun, nofun, nofun⟩ nofun

lemma Escapes.bind (h : Escapes n m) (f : α → Parse β) : Escapes n (m >>= f) := by
  change Escapes n (m.bind f)
  unfold Parse.bind
  obtain h | ⟨g, hg, hlt⟩ := h
  · rw [h]
    exact Or.inl rfl
  refine Or.inr ⟨g, ?_, hlt⟩
  cases m.outcome with
  | ok a => exact mem_append_left _ hg
  | failed | fault | spin | huge => exact hg

lemma Safe.bind {f : α → Parse β} (h : Safe n m) (hf : ∀ a, m.outcome = .ok a → Safe n (f a)) :
    Safe n (m >>= f) := by
  obtain ⟨hfault, hspin, hfields⟩ := h
  change Safe n (m.bind f)
  unfold Parse.bind
  cases hm : m.outcome with
  | ok a =>
    obtain ⟨hfault', hspin', hfields'⟩ := hf a hm
    refine ⟨hfault', hspin', fun g hg => ?_⟩
    exact (mem_append.1 hg).elim (hfields g) (hfields' g)
  | failed | huge => exact ⟨nofun, nofun, hfields⟩
  | fault => exact absurd hm hfault
  | spin => exact absurd hm hspin

lemma Tracks.bind {f g : α → Parse β} (h : Tracks n m e)
    (hfg : ∀ a, e.outcome = .ok a → Tracks n (f a) (g a)) : Tracks n (m >>= f) (e >>= g) := by
  refine ⟨h.safe.bind fun a ha => (hfg a ha).safe, fun hhuge => ?_, fun hne => ?_⟩
  · by_cases he : e.outcome = .huge
    · exact (h.escapes he).bind f
    rw [h.same he]
    cases ho : e.outcome with
    | ok a =>
      rw [Parse.bind_ok ho] at hhuge ⊢
      obtain hfault | ⟨x, hx, hlt⟩ := (hfg a ho).escapes hhuge
      · exact Or.inl hfault
      · exact Or.inr ⟨x, mem_append_right _ hx, hlt⟩
    | huge => exact absurd ho he
    | failed | fault | spin =>
      change (e.bind g).outcome = .huge at hhuge
      unfold Parse.bind at hhuge
      rw [ho] at hhuge
      cases hhuge
  have he : e.outcome ≠ .huge := by
    intro ho
    refine hne ?_
    change (e.bind g).outcome = .huge
    unfold Parse.bind
    rw [ho]
  rw [h.same he]
  cases ho : e.outcome with
  | ok a =>
    rw [Parse.bind_ok ho] at hne
    rw [Parse.bind_ok ho, Parse.bind_ok ho, (hfg a ho).same hne]
  | huge => exact absurd ho he
  | failed | fault | spin =>
    change e.bind f = e.bind g
    unfold Parse.bind
    rw [ho]

end

/-! ## Bytes and varints -/

/-- A buffer has no more bytes than a 64-bit length can say. -/
structure Buffer where
  bytes : List UInt8
  small : bytes.length < 2 ^ 64

structure Window where
  base : Nat
  len : Nat
  deriving DecidableEq

def Buffer.window (buf : Buffer) : Window := ⟨0, buf.bytes.length⟩

def Buffer.Has (buf : Buffer) (w : Window) : Prop := w.base + w.len ≤ buf.bytes.length

lemma Buffer.has_window (buf : Buffer) : buf.Has buf.window := (zero_add _).le

def readByte (buf : Buffer) (w : Window) (p : Nat) : Parse UInt8 :=
  match buf.bytes[w.base + p]? with
  | some b => pure b
  | none => .fault

def readBytes (buf : Buffer) (w : Window) : Parse (List UInt8) :=
  if w.base + w.len ≤ buf.bytes.length then pure ((buf.bytes.drop w.base).take w.len) else .fault

/-- The value and the cursor behind it; `k` bytes are left to a varint. -/
def varintLoop (buf : Buffer) (w : Window) : (k p shift val : Nat) → Parse (Nat × Nat)
  | 0, _, _, _ => .failed
  | k + 1, p, shift, val =>
    if p < w.len then do
      let b ← readByte buf w p
      let val := val ||| ((b.toNat % 128) <<< shift) % 2 ^ 64
      if b.toNat < 128 then pure (val, p + 1) else varintLoop buf w k (p + 1) (shift + 7) val
    else .failed

/-- Ten bytes at most; bits above the 64th are lost. -/
def readVarint (buf : Buffer) (w : Window) (p : Nat) : Parse (Nat × Nat) :=
  varintLoop buf w 10 p 0 0

section

variable {buf : Buffer} {w : Window} {n p q v : Nat}

lemma readByte_of_lt (hw : buf.Has w) (hp : p < w.len) : ∃ b, readByte buf w p = pure b := by
  have hlt : w.base + p < buf.bytes.length := by
    have := hw
    unfold Buffer.Has at this
    omega
  unfold readByte
  rw [getElem?_eq_getElem hlt]
  exact ⟨_, rfl⟩

lemma varintLoop_spec (hw : buf.Has w) (k p shift val : Nat) (hval : val < 2 ^ 64) :
    (∃ v q, varintLoop buf w k p shift val = pure (v, q) ∧ v < 2 ^ 64 ∧ p < q ∧ q ≤ w.len) ∨
      varintLoop buf w k p shift val = .failed := by
  induction k generalizing p shift val with
  | zero => exact Or.inr rfl
  | succ k ih =>
    unfold varintLoop
    by_cases hp : p < w.len
    · rw [if_pos hp]
      obtain ⟨b, hb⟩ := readByte_of_lt hw hp
      rw [hb]
      change (∃ v q, (if b.toNat < 128 then _ else _) = _ ∧ _) ∨ (if b.toNat < 128 then _ else _) = _
      have hnext : val ||| ((b.toNat % 128) <<< shift) % 2 ^ 64 < 2 ^ 64 :=
        Nat.or_lt_two_pow hval (Nat.mod_lt _ (by decide))
      by_cases hlast : b.toNat < 128
      · rw [if_pos hlast]
        exact Or.inl ⟨_, p + 1, rfl, hnext, Nat.lt_succ_self p, hp⟩
      rw [if_neg hlast]
      obtain ⟨v, q, heq, hv, hpq, hq⟩ | heq := ih (p + 1) (shift + 7) _ hnext
      · exact Or.inl ⟨v, q, heq, hv, Nat.lt_of_succ_lt hpq, hq⟩
      · exact Or.inr heq
    rw [if_neg hp]
    exact Or.inr rfl

lemma readVarint_spec (hw : buf.Has w) (p : Nat) :
    (∃ v q, readVarint buf w p = pure (v, q) ∧ v < 2 ^ 64 ∧ p < q ∧ q ≤ w.len) ∨
      readVarint buf w p = .failed :=
  varintLoop_spec hw 10 p 0 0 (by decide)

lemma tracks_readVarint (hw : buf.Has w) (p : Nat) :
    Tracks n (readVarint buf w p) (readVarint buf w p) := by
  obtain ⟨v, q, heq, -⟩ | heq := readVarint_spec hw p
  · rw [heq]
    exact tracks_pure _
  rw [heq]
  exact tracks_failed

lemma readVarint_ok (hw : buf.Has w) (h : (readVarint buf w p).outcome = .ok (v, q)) :
    v < 2 ^ 64 ∧ p < q ∧ q ≤ w.len := by
  obtain ⟨v', q', heq, hspec⟩ | heq := readVarint_spec hw p
  · rw [heq] at h
    cases h
    exact hspec
  rw [heq] at h
  cases h

end

/-! ## Fields with a length -/

/-- How the sum of the cursor and a length is taken. -/
inductive Arith
  | machine
  | exact
  deriving DecidableEq

/-- The cursor behind `len` bytes; `refuses` says that there is no memory for a copy. -/
def behind (A : Arith) (refuses : Nat → Bool) (limit p len : Nat) : Parse Nat :=
  match A with
  | .machine => if limit < (p + len) % 2 ^ 64 then .failed else pure ((p + len) % 2 ^ 64)
  | .exact =>
    if 2 ^ 64 ≤ p + len then if refuses len then .failed else .huge
    else if limit < p + len then .failed
    else pure (p + len)

/-- A length and the part it stands for. -/
def take (A : Arith) (buf : Buffer) (refuses : Nat → Bool) (w : Window) (p : Nat) :
    Parse (Window × Nat) := do
  let (len, p) ← readVarint buf w p
  let next ← behind A refuses w.len p len
  if refuses len then .failed
  else do
    .accept (w.base + p) len
    pure (⟨w.base + p, len⟩, next)

def never (_ : Nat) : Bool := false

section

variable {buf : Buffer} {refuses : Nat → Bool} {w win : Window} {p q : Nat}

lemma take_ok (hw : buf.Has w) (h : (take .exact buf refuses w p).outcome = .ok (win, q)) :
    buf.Has win ∧ p < q ∧ q ≤ w.len := by
  unfold take at h
  obtain ⟨⟨len, r⟩, hread, h⟩ := Parse.bind_eq_ok h
  obtain ⟨-, hpr, hr⟩ := readVarint_ok hw hread
  obtain ⟨next, hnext, h⟩ := Parse.bind_eq_ok h
  have hfit : next = r + len ∧ r + len ≤ w.len := by
    unfold behind at hnext
    dsimp only at hnext
    split at hnext
    · split at hnext <;> cases hnext
    split at hnext
    · cases hnext
    rename_i hle
    cases hnext
    exact ⟨rfl, not_lt.1 hle⟩
  split at h
  · cases h
  obtain ⟨-, -, h⟩ := Parse.bind_eq_ok h
  cases h
  have hin := hw
  unfold Buffer.Has at hin ⊢
  dsimp only
  omega

section

variable {limit r len : Nat}

lemma behind_machine_wrap (hwrap : 2 ^ 64 ≤ r + len) (hlen : len < 2 ^ 64) (hr : r ≤ limit)
    (hlimit : limit < 2 ^ 64) :
    behind .machine refuses limit r len = pure ((r + len) % 2 ^ 64) := by
  have hmod : (r + len) % 2 ^ 64 = r + len - 2 ^ 64 := by
    rw [Nat.mod_eq_sub_mod hwrap, Nat.mod_eq_of_lt (by omega)]
  unfold behind
  exact if_neg (by omega)

lemma behind_exact_wrap (hwrap : 2 ^ 64 ≤ r + len) :
    behind .exact refuses limit r len = if refuses len then .failed else .huge := by
  unfold behind
  exact if_pos hwrap

lemma behind_of_lt (A : Arith) (hwrap : r + len < 2 ^ 64) :
    behind A refuses limit r len = if limit < r + len then .failed else pure (r + len) := by
  unfold behind
  cases A with
  | machine =>
    dsimp only
    rw [Nat.mod_eq_of_lt hwrap]
  | exact => exact if_neg (not_le.2 hwrap)

end

lemma tracks_take (hw : buf.Has w) (refuses : Nat → Bool) (p : Nat) :
    Tracks buf.bytes.length (take .machine buf refuses w p) (take .exact buf refuses w p) := by
  unfold take
  refine (tracks_readVarint hw p).bind ?_
  rintro ⟨len, r⟩ hread
  obtain ⟨hlen, -, hr⟩ := readVarint_ok hw hread
  have hin := hw
  have hsmall := buf.small
  unfold Buffer.Has at hin
  dsimp only
  by_cases hwrap : 2 ^ 64 ≤ r + len
  · rw [behind_machine_wrap hwrap hlen hr (by omega), behind_exact_wrap hwrap]
    by_cases hrefuse : refuses len = true
    · simp only [if_pos hrefuse]
      exact tracks_failed
    -- the machine takes a field that ends behind every buffer
    simp only [if_neg hrefuse]
    refine ⟨⟨nofun, nofun, nofun⟩, fun _ => Or.inr ?_, fun hne => absurd rfl hne⟩
    refine ⟨(w.base + r, len), mem_cons_self, ?_⟩
    dsimp only
    omega
  rw [behind_of_lt _ (Nat.lt_of_not_le hwrap), behind_of_lt _ (Nat.lt_of_not_le hwrap)]
  by_cases hlong : w.len < r + len
  · rw [if_pos hlong]
    exact tracks_failed
  rw [if_neg hlong]
  by_cases hrefuse : refuses len = true
  · simp only [if_pos hrefuse]
    exact tracks_failed
  simp only [if_neg hrefuse]
  refine tracks_refl ⟨nofun, nofun, ?_⟩ nofun
  intro f hf
  obtain rfl : f = (w.base + r, len) := mem_singleton.1 hf
  dsimp only
  omega

lemma tracks_readBytes (hw : buf.Has w) :
    Tracks buf.bytes.length (readBytes buf w) (readBytes buf w) := by
  have hle : w.base + w.len ≤ buf.bytes.length := hw
  unfold readBytes
  rw [if_pos hle]
  exact tracks_pure _

end

/-! ## Walking -/

/-- Whether the loop goes on behind a field. -/
inductive Next (σ : Type)
  | more (s : σ)
  | stop (s : σ)
  deriving DecidableEq

/-- When a copy is refused, and what to do with the part. -/
abbrev Handler (σ : Type) := (Nat → Bool) × (Arith → Nat → Window → σ → Parse (Next σ))

/-- The fields of a message. Others are skipped by their wire type. -/
structure Schema (σ : Type) where
  /-- A tag of zero stands for itself. -/
  skipsZero : Bool
  /-- What to do with the value of a varint; `none` is an error. -/
  varint : UInt8 → Option (Nat → σ → Option σ)
  ldelim : UInt8 → Option (Handler σ)

variable {σ : Type}

def field (A : Arith) (buf : Buffer) (S : Schema σ) (fuel : Nat) (w : Window) (p : Nat) (s : σ) :
    Parse (Nat × Next σ) := do
  let tag ← readByte buf w p
  if S.skipsZero && tag == 0 then pure (p + 1, .more s)
  else
    match S.varint tag with
    | some f => do
        let (v, q) ← readVarint buf w (p + 1)
        match f v s with
        | none => .failed
        | some s => pure (q, .more s)
    | none =>
      match S.ldelim tag with
      | some (refuses, f) => do
          let (win, q) ← take A buf refuses w (p + 1)
          let r ← f A fuel win s
          pure (q, r)
      | none =>
        if tag.toNat % 8 = 0 then do
          let (_, q) ← readVarint buf w (p + 1)
          pure (q, .more s)
        else if tag.toNat % 8 = 2 then do
          let (_, q) ← take A buf never w (p + 1)
          pure (q, .more s)
        else .failed

/-- The loop over the fields; `fuel` is what the parts get. -/
def walk (A : Arith) (buf : Buffer) (S : Schema σ) (fuel : Nat) (w : Window) :
    (rounds p : Nat) → σ → Parse σ
  | 0, _, _ => .spin
  | rounds + 1, p, s =>
    if p < w.len then do
      let (q, r) ← field A buf S fuel w p s
      match r with
      | .more s => walk A buf S fuel w rounds q s
      | .stop s => pure s
    else pure s

/-- The part is read safely by the exact reader, and the two readers go together on it. -/
def HandlerTracked (buf : Buffer) (fuel : Nat) : Option (Handler σ) → Prop
  | none => True
  | some (_, f) => ∀ win s, buf.Has win →
      Tracks buf.bytes.length (f .machine fuel win s) (f .exact fuel win s)

def Schema.Tracked (buf : Buffer) (fuel : Nat) (S : Schema σ) : Prop :=
  ∀ tag, HandlerTracked buf fuel (S.ldelim tag)

section

variable {buf : Buffer} {S : Schema σ} {w : Window} {fuel p q : Nat} {s : σ} {r : Next σ}

lemma tracks_field (hS : S.Tracked buf fuel) (hw : buf.Has w) (hp : p < w.len) (s : σ) :
    Tracks buf.bytes.length (field .machine buf S fuel w p s) (field .exact buf S fuel w p s) := by
  unfold field
  obtain ⟨tag, htag⟩ := readByte_of_lt hw hp
  rw [htag]
  refine (tracks_pure tag).bind ?_
  intro tag _
  split
  · exact tracks_pure _
  cases hv : S.varint tag with
  | some f =>
    refine (tracks_readVarint hw _).bind ?_
    rintro ⟨v, q⟩ _
    dsimp only
    cases f v s with
    | none => exact tracks_failed
    | some s => exact tracks_pure _
  | none =>
    cases hl : S.ldelim tag with
    | some rf =>
      refine (tracks_take hw rf.1 _).bind ?_
      rintro ⟨win, q⟩ htake
      have hpart := hS tag
      rw [hl] at hpart
      exact (hpart win s (take_ok hw htake).1).bind fun r _ => tracks_pure _
    | none =>
      dsimp only
      split
      · exact (tracks_readVarint hw _).bind fun _ _ => tracks_pure _
      split
      · exact (tracks_take hw never _).bind fun _ _ => tracks_pure _
      · exact tracks_failed

lemma field_ok (hw : buf.Has w) (hp : p < w.len)
    (h : (field .exact buf S fuel w p s).outcome = .ok (q, r)) : p < q ∧ q ≤ w.len := by
  unfold field at h
  obtain ⟨tag, -, h⟩ := Parse.bind_eq_ok h
  split at h
  · cases h
    exact ⟨Nat.lt_succ_self p, hp⟩
  split at h
  · obtain ⟨⟨v, q'⟩, hread, h⟩ := Parse.bind_eq_ok h
    obtain ⟨-, hpq, hq⟩ := readVarint_ok hw hread
    dsimp only at h
    split at h
    · cases h
    cases h
    omega
  split at h
  · obtain ⟨⟨win, q'⟩, htake, h⟩ := Parse.bind_eq_ok h
    obtain ⟨-, hpq, hq⟩ := take_ok hw htake
    obtain ⟨r', -, h⟩ := Parse.bind_eq_ok h
    cases h
    omega
  split at h
  · obtain ⟨⟨v, q'⟩, hread, h⟩ := Parse.bind_eq_ok h
    obtain ⟨-, hpq, hq⟩ := readVarint_ok hw hread
    cases h
    omega
  split at h
  · obtain ⟨⟨win, q'⟩, htake, h⟩ := Parse.bind_eq_ok h
    obtain ⟨-, hpq, hq⟩ := take_ok hw htake
    cases h
    omega
  · cases h

lemma tracks_walk (hS : S.Tracked buf fuel) (hw : buf.Has w) {rounds : Nat} (hle : p ≤ w.len)
    (hrounds : w.len < p + rounds) (s : σ) :
    Tracks buf.bytes.length (walk .machine buf S fuel w rounds p s)
      (walk .exact buf S fuel w rounds p s) := by
  induction rounds generalizing p s with
  | zero => exact absurd hrounds (not_lt.2 hle)
  | succ rounds ih =>
    unfold walk
    by_cases hp : p < w.len
    · rw [if_pos hp, if_pos hp]
      refine (tracks_field hS hw hp s).bind ?_
      rintro ⟨q, r⟩ hfield
      obtain ⟨hpq, hq⟩ := field_ok hw hp hfield
      cases r with
      | more s => exact ih hq (by omega) s
      | stop s => exact tracks_pure s
    rw [if_neg hp, if_neg hp]
    exact tracks_pure s

end

end Wire
end Lib
