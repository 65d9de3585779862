import Cetcd.Lib.Wire

/-!
# Fields as tokens

If a schema keeps to the wire types, every walk over a message cuts it into the same tokens, and
what it computes is a fold over them. Two readers of the same bytes are compared through the tokens.
-/

namespace Lib
namespace Wire

open List Option Parse

/-! ## Tokens -/

inductive Value
  | number (v : Nat)
  | part (win : Window)
  deriving DecidableEq

structure Token where
  tag : UInt8
  value : Value
  deriving DecidableEq

/-- One token, and the cursor behind it; a zero that stands for itself is none. -/
def token (A : Arith) (buf : Buffer) (skipsZero : Bool) (w : Window) (p : Nat) :
    Parse (Option Token × Nat) := do
  let tag ← readByte buf w p
  if skipsZero && tag == 0 then pure (none, p + 1)
  else if tag.toNat % 8 = 0 then do
    let (v, q) ← readVarint buf w (p + 1)
    pure (some ⟨tag, .number v⟩, q)
  else if tag.toNat % 8 = 2 then do
    let (win, q) ← take A buf never w (p + 1)
    pure (some ⟨tag, .part win⟩, q)
  else .failed

def tokens (A : Arith) (buf : Buffer) (skipsZero : Bool) (w : Window) :
    (rounds p : Nat) → Parse (List Token)
  | 0, _ => .spin
  | rounds + 1, p =>
    if p < w.len then do
      let (t, q) ← token A buf skipsZero w p
      let ts ← tokens A buf skipsZero w rounds q
      pure (t.toList ++ ts)
    else pure []

/-! ## Schemas as folds -/

section

variable {σ : Type} {A : Arith} {buf : Buffer} {S : Schema σ} {fuel : Nat} {w win : Window}
  {p q rounds : Nat} {s s' : σ} {ts : List Token}

/-- The known fields have the wire types of their tags. -/
structure Schema.Regular (S : Schema σ) : Prop where
  varint : ∀ tag, S.varint tag ≠ none → tag.toNat % 8 = 0
  ldelim : ∀ tag, S.ldelim tag ≠ none → tag.toNat % 8 = 2

def handle (A : Arith) (S : Schema σ) (fuel : Nat) (t : Token) (s : σ) : Parse (Next σ) :=
  match t.value with
  | .number v =>
    match S.varint t.tag with
    | none => pure (.more s)
    | some f =>
      match f v s with
      | none => .failed
      | some s => pure (.more s)
  | .part win =>
    match S.ldelim t.tag with
    | none => pure (.more s)
    | some (_, f) => f A fuel win s

/-- The schema takes the tokens from one state to another, or to the state in which it stops. -/
def Folds (A : Arith) (S : Schema σ) (fuel : Nat) : List Token → σ → σ → Prop
  | [], s, s' => s' = s
  | t :: ts, s, s' =>
    (∃ s₁, (handle A S fuel t s).outcome = .ok (.more s₁) ∧ Folds A S fuel ts s₁ s') ∨
      (handle A S fuel t s).outcome = .ok (.stop s')

/-- The walk does not stop at a part. -/
def Schema.Onward (fuel : Nat) (S : Schema σ) : Prop :=
  ∀ tag refuses f, S.ldelim tag = some (refuses, f) →
    ∀ win s s', (f .machine fuel win s).outcome ≠ .ok (.stop s')

lemma Schema.Onward.handle (hS : S.Onward fuel) (t : Token) (s s' : σ) :
    (handle .machine S fuel t s).outcome ≠ .ok (.stop s') := by
  obtain ⟨tag, value⟩ := t
  cases value with
  | number v =>
    simp only [Wire.handle]
    split
    · nofun
    · split <;> nofun
  | part win =>
    simp only [Wire.handle]
    cases hl : S.ldelim tag with
    | none => nofun
    | some rf => exact hS tag rf.1 rf.2 hl win s s'

lemma take_never {refuses : Nat → Bool}
    (h : (take .machine buf refuses w p).outcome = .ok (win, q)) :
    (take .machine buf never w p).outcome = .ok (win, q) := by
  unfold take at h ⊢
  obtain ⟨⟨len, r⟩, hread, h⟩ := bind_eq_ok h
  obtain ⟨next, hnext, h⟩ := bind_eq_ok h
  rw [bind_ok hread]
  dsimp only at hnext h ⊢
  have hsame : behind .machine never w.len r len = behind .machine refuses w.len r len := rfl
  rw [hsame, bind_ok hnext]
  split at h
  · cases h
  · exact h

section

variable {skipsZero : Bool} {p q v : Nat} {tag : UInt8}

lemma token_number (htag : (readByte buf w p).outcome = .ok tag)
    (hzero : ¬ (skipsZero && tag == 0)) (hmod : tag.toNat % 8 = 0)
    (hread : (readVarint buf w (p + 1)).outcome = .ok (v, q)) :
    (token A buf skipsZero w p).outcome = .ok (some ⟨tag, .number v⟩, q) := by
  unfold token
  rw [bind_ok htag, if_neg hzero, if_pos hmod, bind_ok hread]
  rfl

lemma token_part (htag : (readByte buf w p).outcome = .ok tag)
    (hzero : ¬ (skipsZero && tag == 0)) (hmod : tag.toNat % 8 = 2)
    (htake : (take A buf never w (p + 1)).outcome = .ok (win, q)) :
    (token A buf skipsZero w p).outcome = .ok (some ⟨tag, .part win⟩, q) := by
  unfold token
  rw [bind_ok htag, if_neg hzero, if_neg (by omega), if_pos hmod, bind_ok htake]
  rfl

end

lemma field_token (hS : S.Regular) {r : Next σ}
    (h : (field .machine buf S fuel w p s).outcome = .ok (q, r)) :
    ∃ t, (token .machine buf S.skipsZero w p).outcome = .ok (t, q) ∧ match t with
      | none => r = .more s
      | some t => (handle .machine S fuel t s).outcome = .ok r := by
  unfold field at h
  obtain ⟨tag, htag, h⟩ := bind_eq_ok h
  split at h
  · rename_i hzero
    cases h
    refine ⟨none, ?_, rfl⟩
    unfold token
    rw [bind_ok htag, if_pos hzero]
    rfl
  rename_i hzero
  cases hv : S.varint tag with
  | some f =>
    -- a number that is known
    have hmod := hS.varint tag (by rw [hv]; nofun)
    rw [hv] at h
    obtain ⟨⟨v, q'⟩, hread, h⟩ := bind_eq_ok h
    dsimp only at h
    cases hf : f v s with
    | none =>
      rw [hf] at h
      cases h
    | some s₁ =>
      rw [hf] at h
      cases h
      refine ⟨_, token_number htag hzero hmod hread, ?_⟩
      simp only [handle, hv, hf]
      rfl
  | none =>
    rw [hv] at h
    cases hl : S.ldelim tag with
    | some rf =>
      -- a part that is known
      have hmod := hS.ldelim tag (by rw [hl]; nofun)
      rw [hl] at h
      obtain ⟨⟨win, q'⟩, htake, h⟩ := bind_eq_ok h
      obtain ⟨r', hr, h⟩ := bind_eq_ok h
      cases h
      refine ⟨_, token_part htag hzero hmod (take_never htake), ?_⟩
      simp only [handle, hl]
      exact hr
    | none =>
      rw [hl] at h
      dsimp only at h
      split at h
      · -- an unknown field is skipped by its kind
        rename_i hmod
        obtain ⟨⟨v, q'⟩, hread, h⟩ := bind_eq_ok h
        cases h
        refine ⟨_, token_number htag hzero hmod hread, ?_⟩
        simp only [handle, hv]
        rfl
      split at h
      · rename_i hmod
        obtain ⟨⟨win, q'⟩, htake, h⟩ := bind_eq_ok h
        cases h
        refine ⟨_, token_part htag hzero hmod htake, ?_⟩
        simp only [handle, hl]
        rfl
      · cases h

lemma tokens_succ {skipsZero : Bool} {t : Option Token} (hp : p < w.len)
    (ht : (token A buf skipsZero w p).outcome = .ok (t, q))
    (hts : (tokens A buf skipsZero w rounds q).outcome = .ok ts) :
    (tokens A buf skipsZero w (rounds + 1) p).outcome = .ok (t.toList ++ ts) := by
  unfold tokens
  rw [if_pos hp, bind_ok ht]
  dsimp only
  rw [bind_ok hts]
  rfl

lemma walk_tokens (hS : S.Regular) (hon : S.Onward fuel)
    (h : (walk .machine buf S fuel w rounds p s).outcome = .ok s') :
    ∃ ts, (tokens .machine buf S.skipsZero w rounds p).outcome = .ok ts := by
  induction rounds generalizing p s with
  | zero => cases h
  | succ rounds ih =>
    unfold walk at h
    by_cases hp : p < w.len
    · rw [if_pos hp] at h
      obtain ⟨⟨q, r⟩, hfield, h⟩ := bind_eq_ok h
      obtain ⟨t, ht, hr⟩ := field_token hS hfield
      cases r with
      | more s₁ =>
        obtain ⟨ts, hts⟩ := ih h
        exact ⟨_, tokens_succ hp ht hts⟩
      | stop s₁ =>
        cases t with
        | none => cases hr
        | some t => exact absurd hr (hon.handle t s s₁)
    refine ⟨[], ?_⟩
    unfold tokens
    rw [if_neg hp]
    rfl

lemma walk_folds (hS : S.Regular) (h : (walk .machine buf S fuel w rounds p s).outcome = .ok s')
    (hts : (tokens .machine buf S.skipsZero w rounds p).outcome = .ok ts) :
    Folds .machine S fuel ts s s' := by
  induction rounds generalizing p s ts with
  | zero => cases h
  | succ rounds ih =>
    unfold walk at h
    unfold tokens at hts
    by_cases hp : p < w.len
    · rw [if_pos hp] at h hts
      obtain ⟨⟨q, r⟩, hfield, h⟩ := bind_eq_ok h
      obtain ⟨t, ht, hr⟩ := field_token hS hfield
      obtain ⟨⟨t', q'⟩, ht', hts⟩ := bind_eq_ok hts
      rw [ht] at ht'
      cases ht'
      obtain ⟨rest, hrest, hts⟩ := bind_eq_ok hts
      cases hts
      cases t with
      | none =>
        obtain rfl : r = .more s := hr
        exact ih h hrest
      | some t =>
        cases r with
        | more s₁ => exact Or.inl ⟨s₁, hr, ih h hrest⟩
        | stop s₁ =>
          cases h
          exact Or.inr hr
    rw [if_neg hp] at h hts
    cases h
    cases hts
    rfl

end

/-! ## Fields of one tag -/

def Buffer.slice (buf : Buffer) (win : Window) : List UInt8 :=
  (buf.bytes.drop win.base).take win.len

def Token.partOf (tag : UInt8) (t : Token) : Option Window :=
  match t.value with
  | .number _ => none
  | .part win => if t.tag = tag then some win else none

def partsOf (tag : UInt8) (ts : List Token) : List Window := ts.filterMap (Token.partOf tag)

section

variable {σ : Type} {S : Schema σ} {fuel : Nat} {ts : List Token} {s s' : σ}

lemma folds_keep (h : Folds .machine S fuel ts s s') (hS : S.Onward fuel) {P : σ → Prop}
    (hstep : ∀ t s s₁, (handle .machine S fuel t s).outcome = .ok (.more s₁) → P s → P s₁)
    (hs : P s) : P s' := by
  induction ts generalizing s with
  | nil =>
    obtain rfl : s' = s := h
    exact hs
  | cons t ts ih =>
    obtain ⟨s₁, hhandle, hrest⟩ | hhandle := h
    · exact ih hrest (hstep t s s₁ hhandle hs)
    · exact absurd hhandle (hS.handle t s s')

end

end Wire
end Lib
