import Mathlib.Data.Nat.Notation
import Mathlib.Tactic.Common

/-! # Upkeep

A stateful computation that may fail keeps a `Regime` when, from a state with the invariant, it ends
in a state with the invariant that lies above the first one in an order, or in an allowed error.
`Ends R x s Q` says so of one start `s`, with what holds of the value at the end.

The order is what lets facts about a state be used later: a `Stable` fact of some state holds in
every state above it.  `Ends` is proved along the program, and of a loop over a list once (`Ends.mapM`). -/

namespace Upkeep

variable {σ ε α β : Type}

/-- An invariant, an order in which states move up, and the errors that may occur. -/
structure Regime (σ ε : Type) where
  Inv : σ → Prop
  Le : σ → σ → Prop
  Err : ε → Prop
  refl : ∀ s, Le s s
  trans : ∀ {s₁ s₂ s₃}, Le s₁ s₂ → Le s₂ s₃ → Le s₁ s₃

namespace Regime
variable (R : Regime σ ε)

/-- What holds of a state holds of every state above it. -/
def Stable (P : σ → Prop) : Prop := ∀ {s s'}, R.Le s s' → P s → P s'

/-- From `s`, `x` keeps the regime and ends in a value with `Q`, or in an allowed error. -/
def Ends (x : StateT σ (Except ε) α) (s : σ) (Q : α → σ → Prop) : Prop :=
  match x s with
  | .ok (a, s') => R.Inv s' ∧ R.Le s s' ∧ Q a s'
  | .error e => R.Err e

end Regime

namespace Ends
variable {R : Regime σ ε} {x : StateT σ (Except ε) α} {s s' : σ} {Q Q' : α → σ → Prop}

theorem pure (hs : R.Inv s) {a : α} (h : Q a s) : R.Ends (Pure.pure a) s Q := ⟨hs, R.refl s, h⟩

theorem throw {e : ε} (h : R.Err e) : R.Ends (throw e : StateT σ (Except ε) α) s Q := h

theorem of_ok (h : R.Ends x s Q) {a : α} (hx : x s = .ok (a, s')) : R.Inv s' ∧ R.Le s s' ∧ Q a s' := by
  unfold Regime.Ends at h
  rw [hx] at h
  exact h

theorem of_error (h : R.Ends x s Q) {e : ε} (hx : x s = .error e) : R.Err e := by
  unfold Regime.Ends at h
  rw [hx] at h
  exact h

theorem mono (h : R.Ends x s Q) (hQ : ∀ a s', R.Inv s' → R.Le s s' → Q a s' → Q' a s') :
    R.Ends x s Q' := by
  unfold Regime.Ends at h ⊢
  split at h
  · exact ⟨h.1, h.2.1, hQ _ _ h.1 h.2.1 h.2.2⟩
  · exact h

theorem bind {f : α → StateT σ (Except ε) β} {P : β → σ → Prop} (h : R.Ends x s Q)
    (hf : ∀ a s', R.Inv s' → R.Le s s' → Q a s' → R.Ends (f a) s' P) : R.Ends (x >>= f) s P := by
  unfold Regime.Ends at h ⊢
  have hbind : (x >>= f) s = x s >>= fun p => f p.1 p.2 := rfl
  rw [hbind]
  cases hx : x s with
  | error e =>
      rw [hx] at h
      exact h
  | ok p =>
      rw [hx] at h
      have hnext := hf p.1 p.2 h.1 h.2.1 h.2.2
      unfold Regime.Ends at hnext
      show match f p.1 p.2 with
        | .ok (b, s') => R.Inv s' ∧ R.Le s s' ∧ P b s'
        | .error e => R.Err e
      split at hnext
      · exact ⟨hnext.1, R.trans h.2.1 hnext.2.1, hnext.2.2⟩
      · exact hnext

theorem ite {p : Prop} [Decidable p] {y : StateT σ (Except ε) α} (hx : p → R.Ends x s Q)
    (hy : ¬p → R.Ends y s Q) : R.Ends (if p then x else y) s Q := by
  split
  · rename_i h
    exact hx h
  · rename_i h
    exact hy h

/-- Each result of a loop satisfies what the body gives for its element. -/
theorem mapM {f : α → StateT σ (Except ε) β} {l : List α} {P : β → σ → Prop}
    (hP : ∀ b, R.Stable (P b)) (hs : R.Inv s)
    (hf : ∀ a ∈ l, ∀ s', R.Inv s' → R.Le s s' → R.Ends (f a) s' P) :
    R.Ends (l.mapM f) s (fun bs s' => ∀ b ∈ bs, P b s') := by
  induction l generalizing s with
  | nil =>
      rw [List.mapM_nil]
      exact pure hs (by simp)
  | cons a l ih =>
      rw [List.mapM_cons]
      refine bind (hf a List.mem_cons_self s hs (R.refl s)) (fun b s₁ hs₁ hle₁ hb => ?_)
      have hrest := ih hs₁ (fun a' ha' s' hs' hle' =>
        hf a' (List.mem_cons_of_mem _ ha') s' hs' (R.trans hle₁ hle'))
      refine bind hrest (fun bs s₂ hs₂ hle₂ hbs => pure hs₂ ?_)
      intro b' hb'
      cases List.mem_cons.mp hb' with
      | inl h =>
          rw [h]
          exact hP b hle₂ hb
      | inr h => exact hbs b' h

end Ends

end Upkeep
