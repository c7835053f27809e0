import Mathlib.Data.List.Basic

/-! # Durable programs

A program over a store that outlives it.  Run from a state, it writes one state after another and ends with
an answer or an error (`Ran`).  It may stop at any moment: what it leaves then is the state it started
from or one of those it wrote (`Leaves`).  `Answers` says how it ends if it does not stop.

`answers_bind` and `leaves_bind` take a sequence apart. -/

/-- The states a program wrote, in order, and how it ended. -/
structure Ran (σ ε α : Type) where
  written : List σ
  result : Except ε α

/-- What a program does from each state. -/
def Durable (σ ε α : Type) : Type := σ → Ran σ ε α

namespace Durable

variable {σ ε δ α β : Type}

/-- The state at the end. -/
def after (x : Durable σ ε α) (s : σ) : σ := (x s).written.getLastD s

instance : Monad (Durable σ ε) where
  pure a := fun _ => ⟨[], .ok a⟩
  bind x f := fun s =>
    match (x s).result with
    | .error e => ⟨(x s).written, .error e⟩
    | .ok a => ⟨(x s).written ++ (f a (x.after s)).written, (f a (x.after s)).result⟩

def fail (e : ε) : Durable σ ε α := fun _ => ⟨[], .error e⟩

/-- A question to the state. -/
def read (f : σ → Except ε α) : Durable σ ε α := fun s => ⟨[], f s⟩

/-- A transaction: all of it is written, or nothing. -/
def transact (f : σ → Except ε (α × σ)) : Durable σ ε α := fun s =>
  match f s with
  | .ok (a, s') => ⟨[s'], .ok a⟩
  | .error e => ⟨[], .error e⟩

/-- A transaction whose error is an answer. -/
def attempt (f : σ → Except δ (α × σ)) : Durable σ ε (Except δ α) := fun s =>
  match f s with
  | .ok (a, s') => ⟨[s'], .ok (.ok a)⟩
  | .error e => ⟨[], .ok (.error e)⟩

/-! ### How a program ends -/

/-- The program answers `a` and leaves `s'`. -/
def Answers (x : Durable σ ε α) (s : σ) (a : α) (s' : σ) : Prop := (x s).result = .ok a ∧ x.after s = s'

/-- A program that stops may leave `s'`. -/
def Leaves (x : Durable σ ε α) (s s' : σ) : Prop := s' = s ∨ s' ∈ (x s).written

theorem leaves_after (x : Durable σ ε α) (s : σ) : x.Leaves s (x.after s) := by
  unfold Leaves after
  cases hlast : (x s).written with
  | nil => exact .inl rfl
  | cons s₁ l => exact .inr (by rw [List.getLastD_cons]; exact List.getLastD_mem_cons)

theorem Answers.leaves {x : Durable σ ε α} {s s' : σ} {a : α} (h : x.Answers s a s') : x.Leaves s s' :=
  h.2 ▸ x.leaves_after s

theorem Answers.unique {x : Durable σ ε α} {s s₁ s₂ : σ} {a b : α} (h : x.Answers s a s₁)
    (h' : x.Answers s b s₂) : a = b ∧ s₁ = s₂ :=
  ⟨Except.ok.inj (h.1.symm.trans h'.1), h.2.symm.trans h'.2⟩

/-! ### Single steps -/

@[simp] theorem answers_pure {s s' : σ} {a b : α} :
    (pure a : Durable σ ε α).Answers s b s' ↔ b = a ∧ s' = s := by
  show (Except.ok a : Except ε α) = .ok b ∧ s = s' ↔ _
  rw [Except.ok.injEq, eq_comm, @eq_comm _ s s']

@[simp] theorem leaves_pure {s s' : σ} {a : α} : (pure a : Durable σ ε α).Leaves s s' ↔ s' = s := by
  show s' = s ∨ s' ∈ [] ↔ _
  simp

@[simp] theorem answers_fail {s s' : σ} {a : α} {e : ε} : ¬ (fail e : Durable σ ε α).Answers s a s' := by
  intro h
  cases h.1

@[simp] theorem leaves_fail {s s' : σ} {e : ε} : (fail e : Durable σ ε α).Leaves s s' ↔ s' = s := by
  show s' = s ∨ s' ∈ [] ↔ _
  simp

@[simp] theorem answers_read {f : σ → Except ε α} {s s' : σ} {a : α} :
    (read f).Answers s a s' ↔ f s = .ok a ∧ s' = s := by
  show f s = .ok a ∧ s = s' ↔ _
  rw [@eq_comm _ s s']

@[simp] theorem leaves_read {f : σ → Except ε α} {s s' : σ} : (read f).Leaves s s' ↔ s' = s := by
  show s' = s ∨ s' ∈ [] ↔ _
  simp

@[simp] theorem answers_transact {f : σ → Except ε (α × σ)} {s s' : σ} {a : α} :
    (transact f).Answers s a s' ↔ f s = .ok (a, s') := by
  unfold Answers after transact
  cases hf : f s with
  | ok p => simp [Prod.ext_iff]
  | error e => simp

@[simp] theorem leaves_transact {f : σ → Except ε (α × σ)} {s s' : σ} :
    (transact f).Leaves s s' ↔ s' = s ∨ ∃ a, f s = .ok (a, s') := by
  unfold Leaves transact
  cases hf : f s with
  | ok p => simp [Prod.ext_iff, eq_comm]
  | error e => simp

@[simp] theorem answers_attempt {f : σ → Except δ (α × σ)} {s s' : σ} {a : Except δ α} :
    (attempt f : Durable σ ε _).Answers s a s' ↔
      (∃ v, a = .ok v ∧ f s = .ok (v, s')) ∨ ∃ e, a = .error e ∧ f s = .error e ∧ s' = s := by
  unfold Answers after attempt
  cases hf : f s with
  | ok p => simp [Prod.ext_iff, eq_comm]
  | error e => simp [eq_comm]

@[simp] theorem leaves_attempt {f : σ → Except δ (α × σ)} {s s' : σ} :
    (attempt f : Durable σ ε _).Leaves s s' ↔ s' = s ∨ ∃ a, f s = .ok (a, s') := by
  unfold Leaves attempt
  cases hf : f s with
  | ok p => simp [Prod.ext_iff, eq_comm]
  | error e => simp

/-! ### Sequences -/

section bind
variable {x : Durable σ ε α} {f : α → Durable σ ε β} {s s' : σ}

private theorem bind_of_ok {a : α} (h : (x s).result = .ok a) : (x >>= f) s =
    ⟨(x s).written ++ (f a (x.after s)).written, (f a (x.after s)).result⟩ := by
  show (match (x s).result with
    | .error e => ⟨(x s).written, .error e⟩
    | .ok a => ⟨(x s).written ++ (f a (x.after s)).written, (f a (x.after s)).result⟩ : Ran σ ε β) = _
  rw [h]

private theorem bind_of_error {e : ε} (h : (x s).result = .error e) :
    (x >>= f) s = ⟨(x s).written, .error e⟩ := by
  show (match (x s).result with
    | .error e => ⟨(x s).written, .error e⟩
    | .ok a => ⟨(x s).written ++ (f a (x.after s)).written, (f a (x.after s)).result⟩ : Ran σ ε β) = _
  rw [h]

private theorem after_of_ok {a : α} (h : (x s).result = .ok a) :
    (x >>= f).after s = (f a).after (x.after s) := by
  unfold after
  rw [bind_of_ok h]
  show ((x s).written ++ (f a (x.after s)).written).getLastD s = _
  rw [List.getLastD_eq_getLast?, List.getLast?_append, List.getLastD_eq_getLast?]
  show ((f a (x.after s)).written.getLast?.or (x s).written.getLast?).getD s =
    (f a (x.after s)).written.getLast?.getD ((x s).written.getLastD s)
  rw [List.getLastD_eq_getLast?]
  cases (f a (x.after s)).written.getLast? <;> rfl

theorem answers_bind {b : β} :
    (x >>= f).Answers s b s' ↔ ∃ a s₁, x.Answers s a s₁ ∧ (f a).Answers s₁ b s' := by
  cases hx : (x s).result with
  | ok a =>
      unfold Answers
      rw [bind_of_ok hx, after_of_ok hx]
      constructor
      · exact fun h => ⟨a, _, ⟨hx, rfl⟩, h⟩
      · intro h
        obtain ⟨a', s₁, ⟨ha, rfl⟩, h⟩ := h
        obtain rfl := Except.ok.inj (hx.symm.trans ha)
        exact h
  | error e =>
      unfold Answers
      rw [bind_of_error hx]
      constructor
      · intro h
        cases h.1
      · intro h
        obtain ⟨a', s₁, ⟨ha, _⟩, _⟩ := h
        cases hx.symm.trans ha

/-- After a known answer. -/
theorem answers_bind_of {s₁ : σ} {a : α} {b : β} (h : x.Answers s a s₁) :
    (x >>= f).Answers s b s' ↔ (f a).Answers s₁ b s' := by
  rw [answers_bind]
  constructor
  · intro hrest
    obtain ⟨a', s₂, h', hrest⟩ := hrest
    obtain ⟨rfl, rfl⟩ := h.unique h'
    exact hrest
  · exact fun hrest => ⟨a, s₁, h, hrest⟩

theorem leaves_bind : (x >>= f).Leaves s s' ↔
    x.Leaves s s' ∨ ∃ a s₁, x.Answers s a s₁ ∧ (f a).Leaves s₁ s' := by
  cases hx : (x s).result with
  | ok a =>
      have hleaves := x.leaves_after s
      unfold Leaves Answers at *
      rw [bind_of_ok hx]
      simp only [List.mem_append]
      constructor
      · intro h
        obtain rfl | h | h := h
        · exact .inl (.inl rfl)
        · exact .inl (.inr h)
        · exact .inr ⟨a, _, ⟨hx, rfl⟩, .inr h⟩
      · intro h
        cases h with
        | inl h => exact h.imp_right .inl
        | inr h =>
            obtain ⟨a', s₁, ⟨ha, rfl⟩, h⟩ := h
            obtain rfl := Except.ok.inj (hx.symm.trans ha)
            cases h with
            | inl h =>
                rw [h]
                exact hleaves.imp_right .inl
            | inr h => exact .inr (.inr h)
  | error e =>
      unfold Leaves Answers
      rw [bind_of_error hx]
      constructor
      · exact .inl
      · intro h
        cases h with
        | inl h => exact h
        | inr h =>
            obtain ⟨a', s₁, ⟨ha, _⟩, _⟩ := h
            cases hx.symm.trans ha

/-! A question first: the rest is asked of the same state. -/

theorem answers_read_bind {f : σ → Except ε α} {g : α → Durable σ ε β} {b : β} :
    (read f >>= g).Answers s b s' ↔ ∃ a, f s = .ok a ∧ (g a).Answers s b s' := by
  rw [answers_bind]
  constructor
  · intro h
    obtain ⟨a, s₁, hread, hrest⟩ := h
    obtain ⟨ha, rfl⟩ := answers_read.mp hread
    exact ⟨a, ha, hrest⟩
  · intro h
    obtain ⟨a, ha, hrest⟩ := h
    exact ⟨a, s, answers_read.mpr ⟨ha, rfl⟩, hrest⟩

theorem leaves_read_bind {f : σ → Except ε α} {g : α → Durable σ ε β} :
    (read f >>= g).Leaves s s' ↔ s' = s ∨ ∃ a, f s = .ok a ∧ (g a).Leaves s s' := by
  rw [leaves_bind, leaves_read]
  apply or_congr Iff.rfl
  constructor
  · intro h
    obtain ⟨a, s₁, hread, hrest⟩ := h
    obtain ⟨ha, rfl⟩ := answers_read.mp hread
    exact ⟨a, ha, hrest⟩
  · intro h
    obtain ⟨a, ha, hrest⟩ := h
    exact ⟨a, s, answers_read.mpr ⟨ha, rfl⟩, hrest⟩

end bind

end Durable
