import Javelin.Path
import Mathlib.Data.List.Forall2

/-! # Check name patterns

`glob` looks for a name's cut into pieces with two positions and one point to go back to: the last `*`, and
where in the name the piece after it was tried last.

Going back no further is enough: what the last `*` leaves over is all that matters (`matches_star_literal`).  So
the answer stays what it was at every step (`Seeks.step`), and `glob` decides the language of its pattern
(`glob_iff`). -/

namespace Javelin

namespace Glob

def STAR : UInt8 := 42

/-! ### The language -/

/-- A `*` takes any piece, and every other byte takes itself. -/
def Accepts (symbol : UInt8) (piece : Str) : Prop := symbol = STAR ∨ piece = [symbol]

/-- The name can be cut into pieces that the symbols take. -/
def Matches (pattern name : Str) : Prop :=
  ∃ pieces, List.Forall₂ Accepts pattern pieces ∧ pieces.flatten = name

/-! ### The loop -/

/-- The variables of the loop. -/
structure Cursor where
  p : ℕ
  n : ℕ
  star : Option ℕ
  resume : ℕ
  resume_le : resume ≤ n

/-- `p < pattern.len() && pattern[p] == b'*'`; `none` is an index out of range. -/
def isStar (pattern : Str) (p : ℕ) : Option Bool :=
  if p < pattern.length then do return decide ((← pattern[p]?) = STAR) else some false

/-- `p < pattern.len() && pattern[p] == name[n]` -/
def isSame (pattern name : Str) (p n : ℕ) : Option Bool :=
  if p < pattern.length then do return decide ((← pattern[p]?) = (← name[n]?)) else some false

/-- One pass of the loop, to new variables or to the answer. -/
def step (pattern name : Str) (c : Cursor) : Option (Cursor ⊕ Bool) := do
  if ← isStar pattern c.p then return .inl ⟨c.p + 1, c.n, some c.p, c.n, le_refl _⟩
  else if ← isSame pattern name c.p c.n then
    return .inl ⟨c.p + 1, c.n + 1, c.star, c.resume, c.resume_le.trans (Nat.le_succ _)⟩
  else
    match c.star with
    | some i => return .inl ⟨i + 1, c.resume + 1, some i, c.resume + 1, le_refl _⟩
    | none => return .inr false

/-- `pattern[p..].iter().all(|&b| b == b'*')` -/
def rest (pattern : Str) (p : ℕ) : Option Bool :=
  if p ≤ pattern.length then some ((pattern.drop p).all (fun b => decide (b = STAR))) else none

section steps
variable {pattern name : Str} {c c' : Cursor}

/-- What a pass does, by the symbol and the byte it looks at. -/
theorem step_eq (hn : c.n < name.length) :
    (pattern[c.p]? = some STAR ∧ step pattern name c = some (.inl ⟨c.p + 1, c.n, some c.p, c.n, le_refl _⟩)) ∨
    (∃ b, b ≠ STAR ∧ pattern[c.p]? = some b ∧ name[c.n]? = some b ∧ step pattern name c =
      some (.inl ⟨c.p + 1, c.n + 1, c.star, c.resume, c.resume_le.trans (Nat.le_succ _)⟩)) ∨
    ((∀ b, pattern[c.p]? = some b → b ≠ STAR ∧ name[c.n]? ≠ some b) ∧ step pattern name c =
      some (match c.star with
        | some i => .inl ⟨i + 1, c.resume + 1, some i, c.resume + 1, le_refl _⟩
        | none => .inr false)) := by
  have hbyte := List.getElem?_eq_getElem hn
  unfold step isStar isSame
  by_cases hp : c.p < pattern.length
  · have hsymbol := List.getElem?_eq_getElem hp
    rw [if_pos hp, if_pos hp, hsymbol, hbyte]
    by_cases hstar : pattern[c.p] = STAR
    · exact .inl ⟨congrArg some hstar, by simp [hstar]⟩
    · by_cases hsame : pattern[c.p] = name[c.n]
      · refine .inr (.inl ⟨pattern[c.p], hstar, rfl, congrArg some hsame.symm, ?_⟩)
        simp only [Option.bind_eq_bind, Option.bind_some, Option.pure_def, decide_eq_true_eq, if_neg hstar,
          if_pos hsame]
      · refine .inr (.inr ⟨fun b hb => ?_, ?_⟩)
        · obtain rfl := Option.some.inj hb
          exact ⟨hstar, fun he => hsame (Option.some.inj he).symm⟩
        · simp only [Option.bind_eq_bind, Option.bind_some, Option.pure_def, decide_eq_true_eq, if_neg hstar,
            if_neg hsame]
          cases c.star with
          | none => rfl
          | some i => rfl
  · rw [if_neg hp, if_neg hp]
    refine .inr (.inr ⟨fun b hb => absurd (List.getElem?_eq_some_iff.mp hb).1 hp, ?_⟩)
    cases c.star with
    | none => rfl
    | some i => rfl

/-- Every pass reads on in the pattern or goes back to a later byte of the name. -/
theorem step_decreases (hn : c.n < name.length) (h : step pattern name c = some (.inl c')) :
    Prod.Lex (· < ·) (· < ·) (name.length - c'.resume, pattern.length - c'.p)
      (name.length - c.resume, pattern.length - c.p) := by
  have hle := c.resume_le
  rw [Prod.lex_def]
  dsimp only
  obtain ⟨hp, he⟩ | ⟨b, _, hp, _, he⟩ | ⟨_, he⟩ := step_eq hn
  · rw [he] at h
    cases h
    obtain ⟨hp, _⟩ := List.getElem?_eq_some_iff.mp hp
    dsimp only
    omega
  · rw [he] at h
    cases h
    obtain ⟨hp, _⟩ := List.getElem?_eq_some_iff.mp hp
    dsimp only
    omega
  · rw [he] at h
    cases hs : c.star with
    | none =>
        rw [hs] at h
        cases h
    | some i =>
        rw [hs] at h
        cases h
        dsimp only
        omega

end steps

/-- The loop and what follows it. -/
def run (pattern name : Str) (c : Cursor) : Option Bool :=
  if _hn : c.n < name.length then
    match _h : step pattern name c with
    | none => none
    | some (.inr answer) => some answer
    | some (.inl c') => run pattern name c'
  else rest pattern c.p
termination_by (name.length - c.resume, pattern.length - c.p)
decreasing_by exact step_decreases _hn _h

section run
variable {pattern name : Str} {c c' : Cursor}

theorem run_step (hn : c.n < name.length) (h : step pattern name c = some (.inl c')) :
    run pattern name c = run pattern name c' := by
  rw [run, dif_pos hn]
  split
  · rename_i he
    rw [h] at he
    cases he
  · rename_i he
    rw [h] at he
    cases he
  · rename_i he
    rw [h] at he
    cases he
    rfl

theorem run_answer {answer : Bool} (hn : c.n < name.length) (h : step pattern name c = some (.inr answer)) :
    run pattern name c = some answer := by
  rw [run, dif_pos hn]
  split
  · rename_i he
    rw [h] at he
    cases he
  · rename_i he
    rw [h] at he
    cases he
    rfl
  · rename_i he
    rw [h] at he
    cases he

theorem run_rest (hn : ¬ c.n < name.length) : run pattern name c = rest pattern c.p := by
  rw [run, dif_neg hn]

end run

/-- Matches `name` against `pattern`, where `*` stands for any run of bytes. -/
def glob (pattern name : Str) : Option Bool := run pattern name ⟨0, 0, none, 0, le_refl 0⟩

/-! ### Symbols -/

section symbols
variable {pattern name : Str} {b : UInt8}

theorem matches_nil : Matches [] name ↔ name = [] := by
  constructor
  · intro h
    obtain ⟨pieces, hpieces, rfl⟩ := h
    cases hpieces
    rfl
  · intro h
    exact ⟨[], .nil, h.symm⟩

theorem matches_star :
    Matches (STAR :: pattern) name ↔ ∃ piece more, name = piece ++ more ∧ Matches pattern more := by
  constructor
  · intro h
    obtain ⟨pieces, hpieces, rfl⟩ := h
    obtain _ | ⟨_, hrest⟩ := hpieces
    exact ⟨_, _, List.flatten_cons, _, hrest, rfl⟩
  · intro h
    obtain ⟨piece, more, rfl, pieces, hpieces, rfl⟩ := h
    exact ⟨piece :: pieces, .cons (.inl rfl) hpieces, List.flatten_cons⟩

theorem matches_byte (hb : b ≠ STAR) :
    Matches (b :: pattern) name ↔ ∃ more, name = b :: more ∧ Matches pattern more := by
  constructor
  · intro h
    obtain ⟨pieces, hpieces, rfl⟩ := h
    obtain _ | ⟨haccepts, hrest⟩ := hpieces
    rw [haccepts.resolve_left hb]
    exact ⟨_, List.flatten_cons, _, hrest, rfl⟩
  · intro h
    obtain ⟨more, rfl, pieces, hpieces, rfl⟩ := h
    exact ⟨[b] :: pieces, .cons (.inr rfl) hpieces, List.flatten_cons⟩

/-- Symbols without a star take themselves. -/
theorem matches_literal {literal : Str} (h : STAR ∉ literal) :
    Matches (literal ++ pattern) name ↔ ∃ more, name = literal ++ more ∧ Matches pattern more := by
  induction literal generalizing name with
  | nil =>
      constructor
      · intro hm
        exact ⟨name, rfl, hm⟩
      · intro hm
        obtain ⟨more, rfl, hm⟩ := hm
        exact hm
  | cons b literal ih =>
      rw [List.mem_cons, not_or] at h
      rw [List.cons_append, matches_byte (Ne.symm h.1)]
      constructor
      · intro hm
        obtain ⟨_, rfl, hm⟩ := hm
        obtain ⟨more, rfl, hmore⟩ := (ih h.2).mp hm
        exact ⟨more, rfl, hmore⟩
      · intro hm
        obtain ⟨more, rfl, hm⟩ := hm
        exact ⟨_, rfl, (ih h.2).mpr ⟨more, rfl, hm⟩⟩

/-- Only stars take nothing. -/
theorem matches_empty : Matches pattern [] ↔ pattern.all (fun b => decide (b = STAR)) = true := by
  induction pattern with
  | nil => exact ⟨fun _ => rfl, fun _ => matches_nil.mpr rfl⟩
  | cons b pattern ih =>
      rw [List.all_cons, Bool.and_eq_true, decide_eq_true_iff, ← ih]
      by_cases hb : b = STAR
      · rw [hb, matches_star]
        constructor
        · intro h
          obtain ⟨piece, more, he, hm⟩ := h
          obtain ⟨_, rfl⟩ := List.append_eq_nil_iff.mp he.symm
          exact ⟨rfl, hm⟩
        · intro h
          exact ⟨[], [], rfl, h.2⟩
      · rw [matches_byte hb]
        constructor
        · intro h
          obtain ⟨more, he, _⟩ := h
          cases he
        · intro h
          exact absurd h.1 hb

end symbols

/-! ### Going back -/

section back
variable {pattern literal more : Str}

/-- A star takes over from the one before it. -/
theorem matches_star_literal (h : STAR ∉ literal) :
    Matches (STAR :: (literal ++ STAR :: pattern)) (literal ++ more) ↔ Matches (STAR :: pattern) more := by
  constructor
  · intro hm
    obtain ⟨piece, after, he, hafter⟩ := matches_star.mp hm
    obtain ⟨after, rfl, hrest⟩ := (matches_literal h).mp hafter
    obtain ⟨piece', after', rfl, hend⟩ := matches_star.mp hrest
    have hmore : more = (piece ++ literal).drop literal.length ++ (piece' ++ after') := by
      rw [← List.drop_append_of_le_length (by rw [List.length_append]; omega), List.append_assoc, ← he,
        List.drop_left]
    rw [hmore, ← List.append_assoc]
    exact matches_star.mpr ⟨_, after', rfl, hend⟩
  · intro hm
    exact matches_star.mpr ⟨[], _, rfl, (matches_literal h).mpr ⟨more, rfl, hm⟩⟩

/-- Where the piece after a star fails, the star takes one more byte. -/
theorem matches_star_retry {b : UInt8} {name : Str} (h : STAR ∉ literal) (he : b :: name = literal ++ more)
    (hfails : ¬ Matches pattern more) :
    Matches (STAR :: (literal ++ pattern)) (b :: name) ↔ Matches (STAR :: (literal ++ pattern)) name := by
  rw [matches_star, matches_star]
  constructor
  · intro hm
    obtain ⟨piece, after, hcut, hm⟩ := hm
    cases piece with
    | nil =>
        rw [List.nil_append] at hcut
        rw [← hcut, he] at hm
        obtain ⟨more', he', hm⟩ := (matches_literal h).mp hm
        rw [← List.append_cancel_left he'] at hm
        exact absurd hm hfails
    | cons e piece => exact ⟨piece, after, (List.cons.inj hcut).2, hm⟩
  · intro hm
    obtain ⟨piece, after, rfl, hm⟩ := hm
    exact ⟨b :: piece, after, rfl, hm⟩

/-- At the end of the name the last star takes nothing more. -/
theorem matches_star_end (h : STAR ∉ literal) :
    Matches (STAR :: (literal ++ pattern)) literal ↔ Matches pattern [] := by
  constructor
  · intro hm
    obtain ⟨piece, after, he, hafter⟩ := matches_star.mp hm
    obtain ⟨after, rfl, hrest⟩ := (matches_literal h).mp hafter
    have hlength := congrArg List.length he
    rw [List.length_append, List.length_append] at hlength
    obtain rfl := List.length_eq_zero_iff.mp (show after.length = 0 by omega)
    exact hrest
  · intro hm
    exact matches_star.mpr ⟨[], _, rfl, (matches_literal h).mpr ⟨[], (List.append_nil literal).symm, hm⟩⟩

end back

/-! ### The invariant -/

/-- The answer for the whole is the answer from the last star on, or from the start if there was none.  Between the
star and the symbol in question are bytes that have been found. -/
structure Seeks (pattern name : Str) (c : Cursor) : Prop where
  p_le : c.p ≤ pattern.length
  n_le : c.n ≤ name.length
  unstarred : c.star = none → (Matches pattern name ↔ Matches (pattern.drop c.p) (name.drop c.n))
  starred : ∀ i, c.star = some i → ∃ literal, STAR ∉ literal ∧
    pattern.drop i = STAR :: (literal ++ pattern.drop c.p) ∧ name.drop c.resume = literal ++ name.drop c.n ∧
      (Matches pattern name ↔ Matches (pattern.drop i) (name.drop c.resume))

section seeks
variable {pattern name : Str} {c c' : Cursor}

theorem drop_of_getElem? {l : Str} {i : ℕ} {b : UInt8} (h : l[i]? = some b) : l.drop i = b :: l.drop (i + 1) := by
  obtain ⟨hi, rfl⟩ := List.getElem?_eq_some_iff.mp h
  exact List.drop_eq_getElem_cons hi

theorem seeks_initial (pattern name : Str) : Seeks pattern name ⟨0, 0, none, 0, le_refl 0⟩ where
  p_le := Nat.zero_le _
  n_le := Nat.zero_le _
  unstarred _ := Iff.rfl
  starred i h := by cases h

/-- Where the symbol does not take the byte, the rest does not match. -/
theorem not_matches_of_mismatch (hn : c.n < name.length)
    (h : ∀ b, pattern[c.p]? = some b → b ≠ STAR ∧ name[c.n]? ≠ some b) :
    ¬ Matches (pattern.drop c.p) (name.drop c.n) := by
  have hname := drop_of_getElem? (List.getElem?_eq_getElem hn)
  rw [hname]
  cases hp : pattern[c.p]? with
  | none =>
      rw [List.drop_eq_nil_of_le (List.getElem?_eq_none_iff.mp hp), matches_nil]
      exact List.cons_ne_nil _ _
  | some b =>
      obtain ⟨hb, hne⟩ := h b hp
      rw [drop_of_getElem? hp, matches_byte hb]
      intro hm
      obtain ⟨more, he, _⟩ := hm
      apply hne
      rw [List.getElem?_eq_getElem hn, (List.cons.inj he).1]

theorem Seeks.step (h : Seeks pattern name c) (hn : c.n < name.length) :
    (∃ c', step pattern name c = some (.inl c') ∧ Seeks pattern name c') ∨
      (step pattern name c = some (.inr false) ∧ ¬ Matches pattern name) := by
  have hname := drop_of_getElem? (List.getElem?_eq_getElem hn)
  obtain ⟨hp, he⟩ | ⟨b, hb, hp, hsame, he⟩ | ⟨hmismatch, he⟩ := step_eq hn
  · have hdrop := drop_of_getElem? hp
    refine .inl ⟨_, he, (List.getElem?_eq_some_iff.mp hp).1, h.n_le, fun hs => (by cases hs), fun i hi => ?_⟩
    obtain rfl := Option.some.inj hi
    refine ⟨[], List.not_mem_nil, hdrop, rfl, ?_⟩
    cases hs : c.star with
    | none => exact h.unstarred hs
    | some i =>
        obtain ⟨literal, hliteral, hpattern, hfound, hiff⟩ := h.starred i hs
        rw [hiff, hpattern, hfound, hdrop]
        exact matches_star_literal hliteral
  · have hdrop := drop_of_getElem? hp
    have hname := drop_of_getElem? hsame
    refine .inl ⟨_, he, (List.getElem?_eq_some_iff.mp hp).1, hn, fun hs => ?_, fun i hi => ?_⟩
    · rw [h.unstarred hs, hdrop, hname, matches_byte hb]
      constructor
      · intro hm
        obtain ⟨more, hcons, hm⟩ := hm
        rwa [(List.cons.inj hcons).2]
      · intro hm
        exact ⟨_, rfl, hm⟩
    · obtain ⟨literal, hliteral, hpattern, hfound, hiff⟩ := h.starred i hi
      refine ⟨literal ++ [b], ?_, ?_, ?_, hiff⟩
      · rw [List.mem_append, List.mem_singleton, not_or]
        exact ⟨hliteral, Ne.symm hb⟩
      · rw [hpattern, hdrop, List.append_assoc]
        rfl
      · rw [hfound, hname, List.append_assoc]
        rfl
  · have hfails := not_matches_of_mismatch hn hmismatch
    cases hs : c.star with
    | none =>
        rw [hs] at he
        exact .inr ⟨he, fun hm => hfails ((h.unstarred hs).mp hm)⟩
    | some i =>
        rw [hs] at he
        obtain ⟨literal, hliteral, hpattern, hfound, hiff⟩ := h.starred i hs
        have hresume := c.resume_le
        have hbyte := drop_of_getElem? (List.getElem?_eq_getElem (show c.resume < name.length by omega))
        have hrest : pattern.drop (i + 1) = literal ++ pattern.drop c.p := by
          rw [← List.drop_drop, hpattern]
          rfl
        have hi : i < pattern.length := by
          by_contra hge
          rw [List.drop_eq_nil_of_le (by omega)] at hpattern
          cases hpattern
        refine .inl ⟨_, he, hi, by dsimp only; omega, fun hs => (by cases hs), fun j hj => ?_⟩
        obtain rfl := Option.some.inj hj
        refine ⟨[], List.not_mem_nil, by rw [hpattern, hrest]; rfl, rfl, ?_⟩
        rw [hiff, hpattern, hbyte]
        exact matches_star_retry hliteral (hbyte.symm.trans hfound) hfails

/-- Past the name, stars remain or nothing. -/
theorem Seeks.rest (h : Seeks pattern name c) (hn : ¬ c.n < name.length) :
    ∃ answer, rest pattern c.p = some answer ∧ (answer = true ↔ Matches pattern name) := by
  have hname : name.drop c.n = [] := List.drop_eq_nil_of_le (by omega)
  refine ⟨_, if_pos h.p_le, ?_⟩
  rw [← matches_empty]
  cases hs : c.star with
  | none => rw [h.unstarred hs, hname]
  | some i =>
      obtain ⟨literal, hliteral, hpattern, hfound, hiff⟩ := h.starred i hs
      rw [hname, List.append_nil] at hfound
      rw [hiff, hpattern, hfound]
      exact (matches_star_end hliteral).symm

/-- The loop ends with the answer. -/
theorem Seeks.run (h : Seeks pattern name c) : ∃ answer, run pattern name c = some answer ∧
    (answer = true ↔ Matches pattern name) := by
  induction c using Glob.run.induct pattern name with
  | case1 c hn hstep =>
      obtain ⟨_, he, _⟩ | ⟨he, _⟩ := h.step hn
      · rw [hstep] at he
        cases he
      · rw [hstep] at he
        cases he
  | case2 c hn answer hstep =>
      obtain ⟨_, he, _⟩ | ⟨he, hfails⟩ := h.step hn
      · rw [hstep] at he
        cases he
      · exact ⟨false, run_answer hn he, ⟨fun ht => (by cases ht), fun hm => absurd hm hfails⟩⟩
  | case3 c hn c' hstep ih =>
      obtain ⟨next, he, hnext⟩ | ⟨he, _⟩ := h.step hn
      · rw [hstep] at he
        cases he
        obtain ⟨answer, hrun, hiff⟩ := ih hnext
        exact ⟨answer, (run_step hn hstep).trans hrun, hiff⟩
      · rw [hstep] at he
        cases he
  | case4 c hn =>
      obtain ⟨answer, he, hiff⟩ := h.rest hn
      exact ⟨answer, (run_rest hn).trans he, hiff⟩

end seeks

/-- `glob` ends without an index out of range and decides whether the name can be cut into pieces that match. -/
theorem glob_iff (pattern name : Str) :
    ∃ answer, glob pattern name = some answer ∧ (answer = true ↔ Matches pattern name) :=
  (seeks_initial pattern name).run

end Glob

end Javelin
