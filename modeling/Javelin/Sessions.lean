import Mathlib.Data.Nat.Notation
import Mathlib.Tactic.Common

/-! # Sessions

A client calls a server, which answers from a state of its own or fails; nothing else is said of
the server.  `SessionM` is the monad of such a client.  A loop of the client has a bound, and
`stuck` is what is left when the bound runs out.

`Ends x s Q R` says that the client's part `x`, with the server in the state `s`, ends: in a value
with `Q`, or in an error with `R`, and is never stuck.  It is proved along the client's program
(`Ends.bind`), and holds for whatever the server answers (`Ends.call`). -/

namespace Sessions

variable {Req Rep ε σ α β : Type}

/-- A server: from its state, the answer to a request and the next state, or a failure. -/
abbrev Server (Req Rep ε σ : Type) := Req → σ → Except ε (Rep × σ)

/-- Computations of a client whose server has the states `σ`. -/
abbrev SessionM (σ ε : Type) := StateT σ (ExceptT ε Option)

/-- One exchange. -/
def call (server : Server Req Rep ε σ) (m : Req) : SessionM σ ε Rep := fun s => some (server m s)

/-- The bound of a loop has run out. -/
def stuck : SessionM σ ε α := fun _ => none

/-- From `s`, `x` ends in a value with `Q`, or in an error with `R`. -/
def Ends (x : SessionM σ ε α) (s : σ) (Q : α → σ → Prop) (R : ε → Prop) : Prop :=
  match x s with
  | none => False
  | some (.ok (a, s')) => Q a s'
  | some (.error e) => R e

namespace Ends
variable {x : SessionM σ ε α} {s s' : σ} {Q Q' : α → σ → Prop} {R R' : ε → Prop}

theorem pure {a : α} (h : Q a s) : Ends (Pure.pure a) s Q R := h

theorem throw {e : ε} (h : R e) : Ends (throw e : SessionM σ ε α) s Q R := h

theorem call {server : Server Req Rep ε σ} {m : Req} {Q : Rep → σ → Prop}
    (hok : ∀ a s', server m s = .ok (a, s') → Q a s') (herr : ∀ e, server m s = .error e → R e) :
    Ends (Sessions.call server m) s Q R := by
  unfold Ends Sessions.call
  cases hs : server m s with
  | error e => exact herr e hs
  | ok p => exact hok p.1 p.2 hs

theorem bind {f : α → SessionM σ ε β} {Q' : β → σ → Prop} (h : Ends x s Q R)
    (hf : ∀ a s', Q a s' → Ends (f a) s' Q' R) : Ends (x >>= f) s Q' R := by
  unfold Ends at h
  have hbind : (x >>= f) s = match x s with
      | none => none
      | some (.ok (a, s')) => f a s'
      | some (.error e) => some (.error e) := by
    show (ExceptT.bind (x s) fun p => f p.1 p.2) = _
    unfold ExceptT.bind ExceptT.mk ExceptT.bindCont
    cases x s with
    | none => rfl
    | some r => cases r <;> rfl
  unfold Ends
  rw [hbind]
  cases hx : x s with
  | none =>
      rw [hx] at h
      exact h
  | some r =>
      rw [hx] at h
      cases r with
      | error e => exact h
      | ok p => exact hf p.1 p.2 h

theorem mono (h : Ends x s Q R) (hQ : ∀ a s', Q a s' → Q' a s') (hR : ∀ e, R e → R' e) :
    Ends x s Q' R' := by
  unfold Ends at h ⊢
  cases hx : x s with
  | none =>
      rw [hx] at h
      exact h
  | some r =>
      rw [hx] at h
      cases r with
      | error e => exact hR e h
      | ok p => exact hQ p.1 p.2 h

/-- What ends is not stuck. -/
theorem ne_none (h : Ends x s Q R) : x s ≠ none := by
  intro hx
  unfold Ends at h
  rw [hx] at h
  exact h

theorem of_ok (h : Ends x s Q R) {a : α} (hx : x s = some (.ok (a, s'))) : Q a s' := by
  unfold Ends at h
  rw [hx] at h
  exact h

/-- Without an error there is a value. -/
theorem exists_ok (h : Ends x s Q (fun _ => False)) : ∃ a s', x s = some (.ok (a, s')) ∧ Q a s' := by
  unfold Ends at h
  cases hx : x s with
  | none =>
      rw [hx] at h
      exact h.elim
  | some r =>
      rw [hx] at h
      cases r with
      | error e => exact h.elim
      | ok p => exact ⟨p.1, p.2, rfl, h⟩

end Ends

end Sessions
