import Mathlib.Data.List.Basic
import Mathlib.Tactic.Common

/-! # Cutting a list at content-defined boundaries

`ends pending x` says whether the element `x`, arriving after the elements `pending` of the
current piece, closes that piece.  `feed` runs this automaton over a list and returns the
closed pieces with the open rest; `cut` closes the rest as a last piece.

The automaton forgets everything at a boundary, so re-cutting an edited list may stop at the
first old boundary where nothing is open.  `PiecesOf` says which lists of pieces are cuts. -/

namespace Cutting

variable {α : Type} (ends : List α → α → Bool)

/-- Pushes the elements one by one; returns the pieces closed and the open rest. -/
def feed : List α → List α → List (List α) × List α
  | pending, [] => ([], pending)
  | pending, x :: xs =>
      if ends pending x then ((pending ++ [x]) :: (feed [] xs).1, (feed [] xs).2)
      else feed (pending ++ [x]) xs

/-- The open rest as a last piece. -/
def finish (pending : List α) : List (List α) := if pending.isEmpty then [] else [pending]

/-- All pieces of the list. -/
def cut (xs : List α) : List (List α) := (feed ends [] xs).1 ++ finish (feed ends [] xs).2

/-- The piece closes exactly at its last element. -/
def Closed (c : List α) : Prop := feed ends [] c = ([c], [])

variable {ends}

@[simp] theorem finish_nil : finish ([] : List α) = [] := rfl

theorem finish_of_ne {p : List α} (h : p ≠ []) : finish p = [p] := by
  cases p with
  | nil => exact absurd rfl h
  | cons a p => rfl

@[simp] theorem flatten_finish (p : List α) : (finish p).flatten = p := by
  cases p <;> simp [finish]

@[simp] theorem feed_nil (p : List α) : feed ends p [] = ([], p) := rfl

theorem feed_cons (p : List α) (x : α) (xs : List α) :
    feed ends p (x :: xs) =
      if ends p x then ((p ++ [x]) :: (feed ends [] xs).1, (feed ends [] xs).2)
      else feed ends (p ++ [x]) xs := rfl

theorem feed_append (p xs ys : List α) :
    feed ends p (xs ++ ys) =
      ((feed ends p xs).1 ++ (feed ends (feed ends p xs).2 ys).1,
        (feed ends (feed ends p xs).2 ys).2) := by
  induction xs generalizing p with
  | nil => simp
  | cons x xs ih =>
      rw [List.cons_append, feed_cons, feed_cons]
      split
      · rw [ih]; rfl
      · rw [ih]

theorem flatten_feed (p xs : List α) :
    (feed ends p xs).1.flatten ++ (feed ends p xs).2 = p ++ xs := by
  induction xs generalizing p with
  | nil => simp
  | cons x xs ih =>
      rw [feed_cons]
      split
      · rw [List.flatten_cons, List.append_assoc, ih]; simp
      · rw [ih]; simp

/-- Every closed piece is closed by itself once the first one has its pending part. -/
theorem closed_of_mem_feed {xs : List α} :
    ∀ {p : List α}, (feed ends [] p = ([], p)) → ∀ c ∈ (feed ends p xs).1, Closed ends c := by
  induction xs with
  | nil => intro p _ c hc; cases hc
  | cons x xs ih =>
      intro p hp c hc
      have hpx : feed ends [] (p ++ [x]) = feed ends p [x] := by rw [feed_append, hp]; rfl
      rw [feed_cons] at hc
      split at hc
      · rename_i hx
        rcases List.mem_cons.mp hc with rfl | hc
        · unfold Closed
          rw [hpx, feed_cons, if_pos hx]; rfl
        · exact ih (by rfl) c hc
      · rename_i hx
        refine ih ?_ c hc
        rw [hpx, feed_cons, if_neg hx]; rfl

theorem open_feed {xs : List α} :
    ∀ {p : List α}, (feed ends [] p = ([], p)) →
      feed ends [] (feed ends p xs).2 = ([], (feed ends p xs).2) := by
  induction xs with
  | nil => intro p hp; exact hp
  | cons x xs ih =>
      intro p hp
      rw [feed_cons]
      split
      · exact ih rfl
      · rename_i hx
        refine ih ?_
        rw [feed_append, hp]
        simp only [feed_cons, feed_nil, if_neg hx, List.append_nil]

theorem Closed.ne_nil {c : List α} (h : Closed ends c) : c ≠ [] := by
  rintro rfl
  simp [Closed] at h

/-- Before its last element a closed piece is open. -/
theorem Closed.open_init {init : List α} {x : α} (h : Closed ends (init ++ [x])) :
    feed ends [] init = ([], init) := by
  have hflat := @flatten_feed _ ends [] init
  unfold Closed at h
  rw [feed_append, Prod.mk.injEq] at h
  cases hf : (feed ends [] init).1 with
  | nil =>
      rw [hf] at hflat
      exact Prod.ext hf (by simpa using hflat)
  | cons c cs =>
      rw [hf, List.cons_append, List.cons.injEq] at h
      rw [hf, h.1.1] at hflat
      have hlen := congrArg List.length hflat
      simp only [List.flatten_cons, List.length_append, List.length_cons, List.length_nil] at hlen
      omega

/-- The last element of an open part does not end it. -/
theorem ends_of_open {init : List α} {x : α}
    (h : feed ends [] (init ++ [x]) = ([], init ++ [x])) : ends init x = false := by
  have hflat := @flatten_feed _ ends [] init
  rw [feed_append, Prod.mk.injEq, List.append_eq_nil_iff] at h
  obtain ⟨⟨h1, h2⟩, _⟩ := h
  rw [h1, List.flatten_nil, List.nil_append, List.nil_append] at hflat
  rw [hflat, feed_cons] at h2
  cases he : ends init x with
  | false => rfl
  | true => rw [he] at h2; simp at h2

/-! ### Cuts -/

@[simp] theorem cut_nil : cut ends [] = [] := rfl

@[simp] theorem flatten_cut (xs : List α) : (cut ends xs).flatten = xs := by
  unfold cut
  rw [List.flatten_append, flatten_finish, flatten_feed, List.nil_append]

/-- A prefix that leaves nothing open is cut on its own. -/
theorem cut_append {xs : List α} {cs : List (List α)} (h : feed ends [] xs = (cs, []))
    (ys : List α) : cut ends (xs ++ ys) = cs ++ cut ends ys := by
  unfold cut
  rw [feed_append, h]
  simp

/-- Closed pieces are cut as they are. -/
theorem feed_flatten_closed {cs : List (List α)} (h : ∀ c ∈ cs, Closed ends c) :
    feed ends [] cs.flatten = (cs, []) := by
  induction cs with
  | nil => rfl
  | cons c cs ih =>
      rw [List.forall_mem_cons] at h
      have hc : feed ends [] c = ([c], []) := h.1
      rw [List.flatten_cons, feed_append, hc, ih h.2]
      rfl

theorem cut_cons_of_closed {c : List α} (h : Closed ends c) (ys : List α) :
    cut ends (c ++ ys) = c :: cut ends ys := cut_append h ys

theorem cut_eq_nil {xs : List α} : cut ends xs = [] ↔ xs = [] := by
  constructor
  · intro h
    rw [← @flatten_cut _ ends xs, h]; rfl
  · rintro rfl; rfl

/-- A list of pieces that is a cut: all but the last are closed, and the last is closed or
still open. -/
inductive PiecesOf (ends : List α → α → Bool) : List (List α) → Prop
  | nil : PiecesOf ends []
  | last {c : List α} : c ≠ [] → feed ends [] c = ([], c) → PiecesOf ends [c]
  | cons {c : List α} {cs : List (List α)} : Closed ends c → PiecesOf ends cs →
      PiecesOf ends (c :: cs)

theorem piecesOf_append {cs ds : List (List α)} (hc : ∀ c ∈ cs, Closed ends c)
    (hd : PiecesOf ends ds) : PiecesOf ends (cs ++ ds) := by
  induction cs with
  | nil => exact hd
  | cons c cs ih =>
      rw [List.forall_mem_cons] at hc
      exact .cons hc.1 (ih hc.2)

theorem piecesOf_finish {p : List α} (h : feed ends [] p = ([], p)) :
    PiecesOf ends (finish p) := by
  by_cases hp : p = []
  · subst hp; exact .nil
  · rw [finish_of_ne hp]; exact .last hp h

theorem piecesOf_cut (xs : List α) : PiecesOf ends (cut ends xs) :=
  piecesOf_append (closed_of_mem_feed rfl) (piecesOf_finish (open_feed rfl))

theorem PiecesOf.cut_flatten {cs : List (List α)} (h : PiecesOf ends cs) :
    cut ends cs.flatten = cs := by
  induction h with
  | nil => rfl
  | @last c hne ho => simp [cut, ho, finish_of_ne hne]
  | cons hc _ ih => rw [List.flatten_cons, cut_cons_of_closed hc, ih]

theorem PiecesOf.ne_nil {cs : List (List α)} (h : PiecesOf ends cs) : ∀ c ∈ cs, c ≠ [] := by
  induction h with
  | nil => simp
  | last hne _ => simpa using hne
  | cons hc _ ih =>
      rw [List.forall_mem_cons]
      exact ⟨hc.ne_nil, ih⟩

theorem PiecesOf.closed_of_append {cs : List (List α)} {c d : List α} {ds : List (List α)}
    (h : PiecesOf ends (cs ++ c :: d :: ds)) : Closed ends c := by
  induction cs with
  | nil =>
      cases h with
      | cons hc _ => exact hc
  | cons b cs ih =>
      cases cs <;> cases h <;> rename_i h <;> exact ih h

theorem PiecesOf.of_append {cs ds : List (List α)} (h : PiecesOf ends (cs ++ ds)) :
    PiecesOf ends ds := by
  induction cs with
  | nil => exact h
  | cons c cs ih =>
      rw [List.cons_append] at h
      generalize he : cs ++ ds = es at h ih
      cases h with
      | last _ _ =>
          obtain ⟨_, rfl⟩ := List.append_eq_nil_iff.mp he
          exact .nil
      | cons _ h => exact ih h

/-- A piece of a cut without its last element is open. -/
theorem open_init_of_mem_cut {xs init : List α} {x : α} (h : init ++ [x] ∈ cut ends xs) :
    feed ends [] init = ([], init) := by
  have key : ∀ cs, PiecesOf ends cs → init ++ [x] ∈ cs → feed ends [] init = ([], init) := by
    intro cs hcs
    induction hcs with
    | nil => intro h; cases h
    | @last c hne ho =>
        intro hm
        rw [List.mem_singleton] at hm
        subst hm
        have hflat := @flatten_feed _ ends [] init
        rw [feed_append, Prod.mk.injEq, List.append_eq_nil_iff] at ho
        rw [ho.1.1] at hflat
        exact Prod.ext ho.1.1 (by simpa using hflat)
    | cons hc _ ih =>
        intro hm
        rcases List.mem_cons.mp hm with rfl | hm
        · exact hc.open_init
        · exact ih hm
  exact key _ (piecesOf_cut xs) h

theorem cut_ne_nil {xs c : List α} (h : c ∈ cut ends xs) : c ≠ [] := (piecesOf_cut xs).ne_nil c h

/-! ### Lengths -/

theorem length_cut_le (xs : List α) : (cut ends xs).length ≤ xs.length := by
  have h : ∀ cs : List (List α), (∀ c ∈ cs, c ≠ []) → cs.length ≤ cs.flatten.length := by
    intro cs
    induction cs with
    | nil => simp
    | cons c cs ih =>
        intro hne
        rw [List.forall_mem_cons] at hne
        have := List.length_pos_iff.mpr hne.1
        have := ih hne.2
        rw [List.flatten_cons, List.length_append, List.length_cons]
        omega
  have := h (cut ends xs) (fun c hc => cut_ne_nil hc)
  rwa [flatten_cut] at this

/-- If one element never closes a piece, a closed piece has two. -/
theorem Closed.two_le (h1 : ∀ x, ends [] x = false) {c : List α} (hc : Closed ends c) :
    2 ≤ c.length := by
  match c, hc with
  | [], hc => exact absurd rfl hc.ne_nil
  | [x], hc =>
      unfold Closed at hc
      rw [feed_cons, h1, if_neg Bool.false_ne_true, List.nil_append, feed_nil] at hc
      cases hc
  | _ :: _ :: _, _ => simp

/-- If one element never closes a piece, cutting at least halves the list. -/
theorem length_cut_halves (h1 : ∀ x, ends [] x = false) (xs : List α) :
    2 * (cut ends xs).length ≤ xs.length + 1 := by
  have h : ∀ cs, PiecesOf ends cs → 2 * cs.length ≤ cs.flatten.length + 1 := by
    intro cs hcs
    induction hcs with
    | nil => simp
    | @last c hne _ =>
        have := List.length_pos_iff.mpr hne
        simp
        omega
    | @cons c cs hc _ ih =>
        have := hc.two_le h1
        rw [List.flatten_cons, List.length_append, List.length_cons]
        omega
  have := h _ (piecesOf_cut xs)
  rwa [flatten_cut] at this

/-- If every second element closes its piece, the pieces are pairs. -/
theorem cut_pair {a b : α} (ha : ends [] a = false) (hb : ends [a] b = true) (xs : List α) :
    cut ends (a :: b :: xs) = [a, b] :: cut ends xs := by
  have hfeed : feed ends [] (a :: b :: xs) = ([a, b] :: (feed ends [] xs).1, (feed ends [] xs).2) := by
    rw [feed_cons, ha, if_neg (by simp), List.nil_append, feed_cons, hb, if_pos rfl]
    rfl
  unfold cut
  rw [hfeed]
  rfl

/-- Cutting into pairs at most halves the list. -/
theorem length_le_two_mul_cut {xs : List α} (h1 : ∀ x ∈ xs, ends [] x = false)
    (h2 : ∀ x ∈ xs, ∀ y ∈ xs, ends [x] y = true) : xs.length ≤ 2 * (cut ends xs).length := by
  match xs, h1, h2 with
  | [], _, _ => simp
  | [a], _, _ =>
      have hne : cut ends [a] ≠ [] := fun hnil => by
        rw [cut_eq_nil] at hnil
        cases hnil
      have := List.length_pos_iff.mpr hne
      rw [List.length_singleton]
      omega
  | a :: b :: xs, h1, h2 =>
      rw [cut_pair (h1 a (by simp)) (h2 a (by simp) b (by simp)) xs]
      have hrest := @length_le_two_mul_cut xs
        (fun x hx => h1 x (by simp [hx])) (fun x hx y hy => h2 x (by simp [hx]) y (by simp [hy]))
      rw [List.length_cons, List.length_cons, List.length_cons]
      omega

end Cutting
