import Mathlib.Data.List.Induction
import Mathlib.Tactic.Common

/-! # Inputs one after another

A system is a step function; `after` is its state after a list of inputs.  `Occurs P l` says that some
input of the list was taken in a state where `P` held, `OccursFirst P Q l` that moreover nothing that `Q`
describes was taken before it, and `Once P l` that `P` held at no two inputs.  Each of them has a rule for
one more input, so that `invariant` proves a property of whole runs that mentions the past. -/

namespace Trail

variable {σ ι : Type} (step : σ → ι → σ) (start : σ)

/-- The state after a list of inputs. -/
def after (l : List ι) : σ := l.foldl step start

/-- An input of the list was taken where `P` held. -/
def Occurs (P : σ → ι → Prop) (l : List ι) : Prop :=
  ∃ earlier x later, l = earlier ++ x :: later ∧ P (after step start earlier) x

/-- An input was taken where `P` held, and none before it where `Q` held. -/
def OccursFirst (P Q : σ → ι → Prop) (l : List ι) : Prop :=
  ∃ earlier x later, l = earlier ++ x :: later ∧ P (after step start earlier) x ∧ ¬ Occurs step start Q earlier

/-- `P` held at no two inputs. -/
def Once (P : σ → ι → Prop) (l : List ι) : Prop :=
  ∀ earlier x middle y later, l = earlier ++ x :: (middle ++ y :: later) → P (after step start earlier) x →
    ¬ P (after step start (earlier ++ x :: middle)) y

/-- `P` held at every input. -/
def Always (P : σ → ι → Prop) (l : List ι) : Prop :=
  ∀ earlier x later, l = earlier ++ x :: later → P (after step start earlier) x

variable {step : σ → ι → σ} {start : σ} {P Q : σ → ι → Prop} {l : List ι} {x : ι}

@[simp] theorem after_nil : after step start [] = start := rfl

theorem after_append (l l' : List ι) : after step start (l ++ l') = after step (after step start l) l' :=
  List.foldl_append

@[simp] theorem after_concat : after step start (l ++ [x]) = step (after step start l) x := by
  rw [after_append]
  rfl

/-! ### One more input -/

theorem append_concat_cases {earlier later : List ι} {y : ι} (h : l ++ [x] = earlier ++ y :: later) :
    (earlier = l ∧ y = x ∧ later = []) ∨ ∃ later', later = later' ++ [x] ∧ l = earlier ++ y :: later' := by
  cases hlater : later using List.reverseRecOn with
  | nil =>
      rw [hlater] at h
      obtain ⟨rfl, hx⟩ := List.append_inj' h rfl
      exact Or.inl ⟨rfl, (List.cons.inj hx).1.symm, rfl⟩
  | append_singleton later' z =>
      rw [hlater, ← List.cons_append, ← List.append_assoc] at h
      obtain ⟨rfl, hx⟩ := List.append_inj' h rfl
      exact Or.inr ⟨later', by rw [(List.cons.inj hx).1], rfl⟩

@[simp] theorem not_occurs_nil : ¬ Occurs step start P [] := by
  intro h
  obtain ⟨earlier, x, later, h, _⟩ := h
  cases earlier <;> cases h

theorem occurs_concat : Occurs step start P (l ++ [x]) ↔ Occurs step start P l ∨ P (after step start l) x := by
  constructor
  · intro h
    obtain ⟨earlier, y, later, h, hp⟩ := h
    cases append_concat_cases h with
    | inl h =>
        obtain ⟨rfl, rfl, _⟩ := h
        exact Or.inr hp
    | inr h =>
        obtain ⟨later', _, rfl⟩ := h
        exact Or.inl ⟨earlier, y, later', rfl, hp⟩
  · intro h
    cases h with
    | inl h =>
        obtain ⟨earlier, y, later, rfl, hp⟩ := h
        exact ⟨earlier, y, later ++ [x], by simp, hp⟩
    | inr hp => exact ⟨l, x, [], rfl, hp⟩

theorem Occurs.concat (h : Occurs step start P l) : Occurs step start P (l ++ [x]) := by
  rw [occurs_concat]
  exact Or.inl h

theorem Occurs.now (h : P (after step start l) x) : Occurs step start P (l ++ [x]) := by
  rw [occurs_concat]
  exact Or.inr h

theorem Occurs.mono (h : Occurs step start P l) (hPQ : ∀ s x, P s x → Q s x) : Occurs step start Q l := by
  obtain ⟨earlier, y, later, hl, hp⟩ := h
  exact ⟨earlier, y, later, hl, hPQ _ _ hp⟩

theorem OccursFirst.concat (h : OccursFirst step start P Q l) : OccursFirst step start P Q (l ++ [x]) := by
  obtain ⟨earlier, y, later, rfl, hp⟩ := h
  exact ⟨earlier, y, later ++ [x], by simp, hp⟩

theorem OccursFirst.now (h : P (after step start l) x) (hnone : ¬ Occurs step start Q l) :
    OccursFirst step start P Q (l ++ [x]) := ⟨l, x, [], rfl, h, hnone⟩

theorem once_nil : Once step start P [] := by
  intro earlier x middle y later h
  cases earlier <;> cases h

/-- `P` may hold at one more input if it has not held yet. -/
theorem Once.concat (h : Once step start P l) (hnext : P (after step start l) x → ¬ Occurs step start P l) :
    Once step start P (l ++ [x]) := by
  intro earlier y middle z later hl hp hq
  cases append_concat_cases hl with
  | inl hend => exact absurd hend.2.2 (by simp)
  | inr hend =>
      obtain ⟨later', hlater, rfl⟩ := hend
      cases append_concat_cases hlater.symm with
      | inl hlast =>
          obtain ⟨rfl, rfl, _⟩ := hlast
          exact hnext hq ⟨earlier, y, middle, rfl, hp⟩
      | inr hlast =>
          obtain ⟨later'', _, rfl⟩ := hlast
          exact h earlier y middle z later'' rfl hp hq

theorem always_concat : Always step start P (l ++ [x]) ↔ Always step start P l ∧ P (after step start l) x := by
  constructor
  · intro h
    refine ⟨fun earlier y later hl => h earlier y (later ++ [x]) (by rw [hl]; simp), h l x [] rfl⟩
  · intro h earlier y later hl
    cases append_concat_cases hl with
    | inl hend =>
        obtain ⟨rfl, rfl, _⟩ := hend
        exact h.2
    | inr hend =>
        obtain ⟨later', _, rfl⟩ := hend
        exact h.1 earlier y later' rfl

theorem always_cons : Always step start P (x :: l) ↔ P start x ∧ Always step (step start x) P l := by
  constructor
  · intro h
    exact ⟨h [] x l rfl, fun earlier y later hl => h (x :: earlier) y later (by rw [hl]; rfl)⟩
  · intro h earlier y later hl
    cases earlier with
    | nil =>
        cases hl
        exact h.1
    | cons z earlier =>
        cases hl
        exact h.2 earlier y later rfl

@[simp] theorem always_nil : Always step start P [] := by
  intro earlier x later h
  cases earlier <;> cases h

/-! ### Runs -/

/-- What holds at the start and is kept by one more input holds after all inputs. -/
theorem invariant {I : List ι → σ → Prop} (hstart : I [] start)
    (hstep : ∀ l x, I l (after step start l) → I (l ++ [x]) (step (after step start l) x)) (l : List ι) :
    I l (after step start l) := by
  induction l using List.reverseRecOn with
  | nil => exact hstart
  | append_singleton l x ih =>
      rw [after_concat]
      exact hstep l x ih

end Trail
