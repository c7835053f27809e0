import Mathlib.Data.List.Forall2
import Mathlib.Data.List.Infix
import Mathlib.Tactic.Common

/-! # Alignments

An alignment of a list `base` with a list `side` keeps some rows of `base` as equal lines of
`side`, in order, and deletes the others; the lines of `side` between kept ones are inserted.  A
longest alignment keeps as many rows as a longest common subsequence has
(`longest_iff`).

A longest alignment that keeps a row cuts there into longest alignments of the two halves
(`Longest.cut`), and between equal lists it is the identity (`Longest.script_eq`). -/

namespace Javelin

/-! ### Common subsequences -/

/-- `n` is the length of a longest common subsequence. -/
structure IsLcs {α : Type} (a b : List α) (n : ℕ) : Prop where
  common : ∃ l : List α, l.Sublist a ∧ l.Sublist b ∧ l.length = n
  le : ∀ l : List α, l.Sublist a → l.Sublist b → l.length ≤ n

namespace IsLcs
variable {α : Type} {a b : List α} {x y : α} {n m : ℕ}

theorem unique (h : IsLcs a b n) (h' : IsLcs a b m) : n = m := by
  obtain ⟨l, ha, hb, hl⟩ := h.common
  obtain ⟨l', ha', hb', hl'⟩ := h'.common
  have h1 := h.le l' ha' hb'
  have h2 := h'.le l ha hb
  omega

theorem nil_left (b : List α) : IsLcs [] b 0 := by
  refine ⟨⟨[], List.Sublist.refl _, List.nil_sublist _, rfl⟩, fun l ha _ => ?_⟩
  rw [List.sublist_nil.mp ha]
  exact Nat.le_refl _

theorem symm (h : IsLcs a b n) : IsLcs b a n := by
  obtain ⟨l, ha, hb, hl⟩ := h.common
  exact ⟨⟨l, hb, ha, hl⟩, fun l hb ha => h.le l ha hb⟩

theorem nil_right (a : List α) : IsLcs a [] 0 := (nil_left a).symm

/-- Equal first lines are kept. -/
theorem cons_cons (h : IsLcs a b n) : IsLcs (x :: a) (x :: b) (n + 1) := by
  obtain ⟨l, ha, hb, hl⟩ := h.common
  refine ⟨⟨x :: l, ha.cons_cons x, hb.cons_cons x, congrArg (· + 1) hl⟩, fun l ha hb => ?_⟩
  have htail : l.tail.length ≤ n := h.le l.tail ha.tail hb.tail
  rw [List.length_tail] at htail
  omega

/-- Of different first lines one is left out. -/
theorem cons_cons_of_ne (hxy : x ≠ y) (h : IsLcs a (y :: b) n) (h' : IsLcs (x :: a) b m) :
    IsLcs (x :: a) (y :: b) (max n m) := by
  obtain ⟨l, ha, hb, hl⟩ := h.common
  obtain ⟨l', ha', hb', hl'⟩ := h'.common
  constructor
  · rcases Nat.le_total n m with hle | hle
    · exact ⟨l', ha', hb'.cons y, by omega⟩
    · exact ⟨l, ha.cons x, hb, by omega⟩
  · intro l ha hb
    cases ha with
    | cons _ ha =>
        have := h.le l ha hb
        omega
    | cons_cons _ ha =>
        cases hb with
        | cons _ hb =>
            have := h'.le _ (ha.cons_cons x) hb
            omega
        | cons_cons _ hb => exact absurd rfl hxy

theorem reverse (h : IsLcs a b n) : IsLcs a.reverse b.reverse n := by
  obtain ⟨l, ha, hb, hl⟩ := h.common
  refine ⟨⟨l.reverse, ha.reverse, hb.reverse, by rw [List.length_reverse, hl]⟩, fun l ha hb => ?_⟩
  have h' := h.le l.reverse (List.reverse_sublist.mp (by rwa [List.reverse_reverse]))
    (List.reverse_sublist.mp (by rwa [List.reverse_reverse]))
  rwa [List.length_reverse] at h'

theorem of_reverse (h : IsLcs a.reverse b.reverse n) : IsLcs a b n := by
  have h' := h.reverse
  rwa [List.reverse_reverse, List.reverse_reverse] at h'

/-- Equal last lines are kept. -/
theorem concat_concat (h : IsLcs a b n) : IsLcs (a ++ [x]) (b ++ [x]) (n + 1) := by
  apply of_reverse
  rw [List.reverse_append, List.reverse_append]
  exact h.reverse.cons_cons

theorem concat_concat_of_ne (hxy : x ≠ y) (h : IsLcs a (b ++ [y]) n) (h' : IsLcs (a ++ [x]) b m) :
    IsLcs (a ++ [x]) (b ++ [y]) (max n m) := by
  apply of_reverse
  have h1 := h.reverse
  have h2 := h'.reverse
  rw [List.reverse_append] at h1 h2
  rw [List.reverse_append, List.reverse_append]
  exact cons_cons_of_ne hxy h1 h2

end IsLcs

/-! ### Alignments -/

/-- An alignment says for each row of `base` which line of `side` it is kept as, if any. -/
structure Alignment {α : Type} (base side : List α) (ms : List (Option ℕ)) : Prop where
  length : ms.length = base.length
  equal : ∀ i k : ℕ, ms[i]? = some (some k) → ∃ x, base[i]? = some x ∧ side[k]? = some x
  ascending : ∀ i j k l : ℕ, i < j → ms[i]? = some (some k) → ms[j]? = some (some l) → k < l

/-- The number of rows kept. -/
def keeps (ms : List (Option ℕ)) : ℕ := ms.countP Option.isSome

/-- An alignment with a longest common subsequence. -/
structure LongestAlignment {α : Type} (base side : List α) (ms : List (Option ℕ)) : Prop where
  aligns : Alignment base side ms
  le : ∀ ms', Alignment base side ms' → keeps ms' ≤ keeps ms

/-- The alignments with the lines of `side` numbered from `j` on, row by row. -/
def Aligns {α : Type} : ℕ → List α → List α → List (Option ℕ) → Prop
  | _, [], _, [] => True
  | j, _ :: base, side, none :: ms => Aligns j base side ms
  | j, x :: base, side, some k :: ms =>
      (j ≤ k ∧ side[k - j]? = some x) ∧ Aligns (k + 1) base (side.drop (k + 1 - j)) ms
  | _, _, _, _ => False

/-- A longest one. -/
structure Longest {α : Type} (j : ℕ) (base side : List α) (ms : List (Option ℕ)) : Prop where
  aligns : Aligns j base side ms
  le : ∀ ms', Aligns j base side ms' → keeps ms' ≤ keeps ms

@[simp] theorem keeps_nil : keeps [] = 0 := rfl

@[simp] theorem keeps_none (ms : List (Option ℕ)) : keeps (none :: ms) = keeps ms :=
  List.countP_cons_of_neg Bool.false_ne_true

@[simp] theorem keeps_some (k : ℕ) (ms : List (Option ℕ)) : keeps (some k :: ms) = keeps ms + 1 :=
  List.countP_cons_of_pos rfl

@[simp] theorem keeps_append (ms ms' : List (Option ℕ)) : keeps (ms ++ ms') = keeps ms + keeps ms' :=
  List.countP_append

namespace Aligns
variable {α : Type} {x : α} {b b₁ b₂ s s₁ s₂ : List α} {ms m₁ m₂ : List (Option ℕ)} {j k : ℕ}

theorem length_eq (h : Aligns j b s ms) : ms.length = b.length := by
  induction b generalizing j s ms with
  | nil =>
      cases ms with
      | nil => rfl
      | cons m ms => exact h.elim
  | cons x b ih =>
      cases ms with
      | nil => exact h.elim
      | cons m ms =>
          cases m with
          | none => exact congrArg (· + 1) (ih h)
          | some k => exact congrArg (· + 1) (ih h.2)

theorem keeps_le_length (h : Aligns j b s ms) : keeps ms ≤ b.length := by
  rw [← h.length_eq]
  exact List.countP_le_length

/-- The kept rows are a common subsequence. -/
theorem exists_common (h : Aligns j b s ms) :
    ∃ l : List α, l.Sublist b ∧ l.Sublist s ∧ l.length = keeps ms := by
  induction b generalizing j s ms with
  | nil =>
      cases ms with
      | nil => exact ⟨[], List.Sublist.refl _, List.nil_sublist _, rfl⟩
      | cons m ms => exact h.elim
  | cons x b ih =>
      cases ms with
      | nil => exact h.elim
      | cons m ms =>
          cases m with
          | none =>
              obtain ⟨l, hb, hs, hl⟩ := ih h
              exact ⟨l, hb.cons x, hs, by rw [hl, keeps_none]⟩
          | some k =>
              obtain ⟨⟨hjk, hx⟩, hrest⟩ := h
              obtain ⟨l, hb, hs, hl⟩ := ih hrest
              obtain ⟨hlt, hx⟩ := List.getElem?_eq_some_iff.mp hx
              refine ⟨x :: l, hb.cons_cons x, ?_, by rw [List.length_cons, hl, keeps_some]⟩
              have hdrop : s.drop (k - j) = x :: s.drop (k + 1 - j) := by
                rw [List.drop_eq_getElem_cons hlt, hx]
                congr 2
                omega
              exact (hdrop ▸ hs.cons_cons x).trans (List.drop_sublist _ _)

/-- Every common subsequence is kept by an alignment. -/
theorem exists_of_common {l : List α} (hb : l.Sublist b) (hs : l.Sublist s) :
    ∃ ms, Aligns j b s ms ∧ keeps ms = l.length := by
  induction b generalizing j s l with
  | nil =>
      rw [List.sublist_nil.mp hb]
      exact ⟨[], trivial, rfl⟩
  | cons x b ih =>
      cases hb with
      | cons _ hb =>
          obtain ⟨ms, h, hk⟩ := ih (j := j) hb hs
          exact ⟨none :: ms, h, by rw [keeps_none, hk]⟩
      | cons_cons _ hb =>
          rename_i l
          obtain ⟨r₁, r₂, rfl, hx, hl⟩ := List.cons_sublist_iff.mp hs
          obtain ⟨i, hlt, hi⟩ := List.mem_iff_getElem.mp hx
          have hrest : l.Sublist ((r₁ ++ r₂).drop (j + i + 1 - j)) := by
            refine hl.trans ?_
            rw [List.drop_append_of_le_length (by omega)]
            exact List.sublist_append_right _ _
          obtain ⟨ms, h, hk⟩ := ih (j := j + i + 1) hb hrest
          refine ⟨some (j + i) :: ms, ⟨⟨by omega, ?_⟩, h⟩, by rw [keeps_some, hk, List.length_cons]⟩
          rw [Nat.add_sub_cancel_left, List.getElem?_append_left hlt, List.getElem?_eq_getElem hlt, hi]

/-- Lines in front are skipped. -/
theorem skip (h : Aligns (j + s₁.length) b s ms) : Aligns j b (s₁ ++ s) ms := by
  induction b generalizing ms with
  | nil =>
      cases ms with
      | nil => trivial
      | cons m ms => exact h.elim
  | cons x b ih =>
      cases ms with
      | nil => exact h.elim
      | cons m ms =>
          cases m with
          | none => exact ih h
          | some k =>
              obtain ⟨⟨hjk, hx⟩, hrest⟩ := h
              refine ⟨⟨by omega, ?_⟩, ?_⟩
              · rw [List.getElem?_append_right (by omega), ← hx]
                congr 1
                omega
              · rw [List.drop_append, List.drop_of_length_le (by omega), List.nil_append]
                rwa [show k + 1 - j - s₁.length = k + 1 - (j + s₁.length) by omega]

/-- An alignment of two halves, next to each other. -/
theorem append (h₁ : Aligns j b₁ s₁ m₁) (h₂ : Aligns (j + s₁.length) b₂ s₂ m₂) :
    Aligns j (b₁ ++ b₂) (s₁ ++ s₂) (m₁ ++ m₂) := by
  induction b₁ generalizing j s₁ m₁ with
  | nil =>
      cases m₁ with
      | nil => exact h₂.skip
      | cons m ms => exact h₁.elim
  | cons x b₁ ih =>
      cases m₁ with
      | nil => exact h₁.elim
      | cons m ms =>
          cases m with
          | none => exact ih h₁ h₂
          | some k =>
              obtain ⟨⟨hjk, hx⟩, hrest⟩ := h₁
              obtain ⟨hlt, _⟩ := List.getElem?_eq_some_iff.mp hx
              refine ⟨⟨hjk, ?_⟩, ?_⟩
              · rwa [List.getElem?_append_left hlt]
              · rw [List.drop_append_of_le_length (by omega)]
                apply ih hrest
                rw [List.length_drop]
                rwa [show k + 1 + (s₁.length - (k + 1 - j)) = j + s₁.length by omega]

theorem append_right (h : Aligns j b s₁ ms) : Aligns j b (s₁ ++ s₂) ms := by
  have hnil : Aligns (j + s₁.length) [] s₂ [] := trivial
  have h' := h.append hnil
  rwa [List.append_nil, List.append_nil] at h'

/-- Two halves of the rows are aligned with two halves of the lines. -/
theorem exists_split (h : Aligns j (b₁ ++ b₂) s (m₁ ++ m₂)) (hlen : m₁.length = b₁.length) :
    ∃ s₁ s₂, s = s₁ ++ s₂ ∧ Aligns j b₁ s₁ m₁ ∧ Aligns (j + s₁.length) b₂ s₂ m₂ := by
  induction b₁ generalizing j s m₁ with
  | nil =>
      rw [List.length_eq_zero_iff.mp hlen] at h ⊢
      exact ⟨[], s, rfl, trivial, h⟩
  | cons x b₁ ih =>
      cases m₁ with
      | nil => cases hlen
      | cons m ms =>
          have hrows : ms.length = b₁.length := Nat.succ.inj hlen
          cases m with
          | none =>
              obtain ⟨s₁, s₂, rfl, h₁, h₂⟩ := ih h hrows
              exact ⟨s₁, s₂, rfl, h₁, h₂⟩
          | some k =>
              obtain ⟨⟨hjk, hx⟩, hrest⟩ := h
              obtain ⟨hlt, _⟩ := List.getElem?_eq_some_iff.mp hx
              obtain ⟨s₁, s₂, hs, h₁, h₂⟩ := ih hrest hrows
              have htake : (s.take (k + 1 - j)).length = k + 1 - j := by
                rw [List.length_take]
                omega
              refine ⟨s.take (k + 1 - j) ++ s₁, s₂, ?_, ⟨⟨hjk, ?_⟩, ?_⟩, ?_⟩
              · rw [List.append_assoc, ← hs, List.take_append_drop]
              · rw [List.getElem?_append_left (by omega), List.getElem?_take_of_lt (by omega), hx]
              · rwa [List.drop_append_of_le_length (by omega), List.drop_of_length_le (by omega),
                  List.nil_append]
              · rw [List.length_append, htake]
                rwa [show j + (k + 1 - j + s₁.length) = k + 1 + s₁.length by omega]

/-- A kept row cuts an alignment. -/
theorem cut (h : Aligns j (b₁ ++ x :: b₂) (s₁ ++ x :: s₂) (m₁ ++ some (j + s₁.length) :: m₂))
    (hlen : m₁.length = b₁.length) :
    Aligns j b₁ s₁ m₁ ∧ Aligns (j + s₁.length + 1) b₂ s₂ m₂ := by
  obtain ⟨t₁, t₂, ht, h₁, ⟨hle, hx⟩, h₂⟩ := h.exists_split hlen
  obtain ⟨u, hu⟩ : ∃ u, s₁ = t₁ ++ u := by
    rw [List.append_eq_append_iff] at ht
    rcases ht with ⟨u, rfl, hu⟩ | ⟨u, rfl, _⟩
    · rw [List.length_append] at hle
      have hnil : u = [] := List.length_eq_zero_iff.mp (by omega)
      exact ⟨[], by rw [hnil]; simp⟩
    · exact ⟨u, rfl⟩
  subst hu
  refine ⟨h₁.append_right, ?_⟩
  rw [List.append_assoc] at ht
  rw [← List.append_cancel_left ht] at h₂
  have hdrop : (u ++ x :: s₂).drop (j + (t₁ ++ u).length + 1 - (j + t₁.length)) = s₂ := by
    rw [List.length_append, show j + (t₁.length + u.length) + 1 - (j + t₁.length) = u.length + 1 by omega,
      List.drop_append, List.drop_of_length_le (by omega), List.nil_append, Nat.add_sub_cancel_left]
    rfl
  rwa [hdrop] at h₂

/-- A row kept at the cut joins two alignments. -/
theorem join (h₁ : Aligns j b₁ s₁ m₁) (h₂ : Aligns (j + s₁.length + 1) b₂ s₂ m₂) :
    Aligns j (b₁ ++ x :: b₂) (s₁ ++ x :: s₂) (m₁ ++ some (j + s₁.length) :: m₂) := by
  apply h₁.append
  refine ⟨⟨Nat.le_refl _, by simp⟩, ?_⟩
  rwa [show j + s₁.length + 1 - (j + s₁.length) = 1 by omega]

/-- The identity aligns a list with itself. -/
theorem identity (j : ℕ) (b : List α) :
    Aligns j b b ((List.range b.length).map (fun i => some (j + i))) := by
  induction b generalizing j with
  | nil => trivial
  | cons x b ih =>
      rw [List.length_cons, List.range_succ_eq_map, List.map_cons, List.map_map]
      refine ⟨⟨Nat.le_refl _, by simp⟩, ?_⟩
      have h := ih (j + 1)
      rw [show j + 0 + 1 - j = 1 by omega]
      show Aligns (j + 0 + 1) b b _
      convert h using 2
      funext i
      show some (j + (i + 1)) = some (j + 1 + i)
      rw [Nat.add_assoc, Nat.add_comm i 1]

end Aligns

theorem aligns_iff_from {α : Type} {b s : List α} {ms : List (Option ℕ)} {j : ℕ} :
    Aligns j b s ms ↔ ms.length = b.length ∧
      (∀ i k : ℕ, ms[i]? = some (some k) → j ≤ k ∧ ∃ x, b[i]? = some x ∧ s[k - j]? = some x) ∧
      ∀ i i' k k' : ℕ, i < i' → ms[i]? = some (some k) → ms[i']? = some (some k') → k < k' := by
  induction b generalizing j s ms with
  | nil =>
      cases ms with
      | nil => simp [Aligns]
      | cons m ms => simp [Aligns]
  | cons x b ih =>
      cases ms with
      | nil => simp [Aligns]
      | cons m ms =>
          cases m with
          | none =>
              show Aligns j b s ms ↔ _
              rw [ih]
              constructor
              · rintro ⟨hl, he, ha⟩
                refine ⟨congrArg (· + 1) hl, ?_, ?_⟩
                · intro i k hi
                  cases i with
                  | zero => cases hi
                  | succ i => exact he i k hi
                · intro i i' k k' hlt hi hi'
                  cases i with
                  | zero => cases hi
                  | succ i =>
                      cases i' with
                      | zero => omega
                      | succ i' => exact ha i i' k k' (Nat.succ_lt_succ_iff.mp hlt) hi hi'
              · rintro ⟨hl, he, ha⟩
                exact ⟨Nat.succ.inj hl, fun i k hi => he (i + 1) k hi,
                  fun i i' k k' hlt hi hi' => ha (i + 1) (i' + 1) k k' (by omega) hi hi'⟩
          | some c =>
              show (j ≤ c ∧ s[c - j]? = some x) ∧ Aligns (c + 1) b (s.drop (c + 1 - j)) ms ↔ _
              rw [ih]
              have hline : ∀ k, c + 1 ≤ k → j ≤ c → (s.drop (c + 1 - j))[k - (c + 1)]? = s[k - j]? := by
                intro k hk hj
                rw [List.getElem?_drop]
                congr 1
                omega
              constructor
              · rintro ⟨⟨hj, hx⟩, hl, he, ha⟩
                refine ⟨congrArg (· + 1) hl, ?_, ?_⟩
                · intro i k hi
                  cases i with
                  | zero =>
                      cases hi
                      exact ⟨hj, x, rfl, hx⟩
                  | succ i =>
                      obtain ⟨hk, y, hb, hs⟩ := he i k hi
                      rw [hline k hk hj] at hs
                      exact ⟨by omega, y, hb, hs⟩
                · intro i i' k k' hlt hi hi'
                  cases i' with
                  | zero => omega
                  | succ i' =>
                      cases i with
                      | zero =>
                          cases hi
                          exact (he i' k' hi').1
                      | succ i => exact ha i i' k k' (Nat.succ_lt_succ_iff.mp hlt) hi hi'
              · rintro ⟨hl, he, ha⟩
                obtain ⟨hj, y, hy, hx⟩ := he 0 c rfl
                cases hy
                refine ⟨⟨hj, hx⟩, Nat.succ.inj hl, fun i k hi => ?_,
                  fun i i' k k' hlt hi hi' => ha (i + 1) (i' + 1) k k' (by omega) hi hi'⟩
                have hk : c < k := ha 0 (i + 1) c k (by omega) rfl hi
                obtain ⟨_, y, hb, hs⟩ := he (i + 1) k hi
                exact ⟨hk, y, hb, by rw [hline k hk hj]; exact hs⟩

theorem aligns_iff {α : Type} {b s : List α} {ms : List (Option ℕ)} :
    Aligns 0 b s ms ↔ Alignment b s ms := by
  rw [aligns_iff_from]
  constructor
  · rintro ⟨hl, he, ha⟩
    exact ⟨hl, fun i k hi => (he i k hi).2, ha⟩
  · rintro ⟨hl, he, ha⟩
    exact ⟨hl, fun i k hi => ⟨Nat.zero_le k, he i k hi⟩, ha⟩

theorem longest_iff {α : Type} {b s : List α} {ms : List (Option ℕ)} :
    Longest 0 b s ms ↔ LongestAlignment b s ms :=
  ⟨fun h => ⟨aligns_iff.mp h.aligns, fun ms' h' => h.le ms' (aligns_iff.mpr h')⟩,
    fun h => ⟨aligns_iff.mpr h.aligns, fun ms' h' => h.le ms' (aligns_iff.mp h')⟩⟩

theorem keeps_le_length_right {α : Type} {b s : List α} {ms : List (Option ℕ)} {j : ℕ}
    (h : Aligns j b s ms) : keeps ms ≤ s.length := by
  obtain ⟨l, _, hs, hl⟩ := h.exists_common
  rw [← hl]
  exact hs.length_le

namespace Longest
variable {α : Type} {x : α} {b b₁ b₂ s s₁ s₂ : List α} {ms m₁ m₂ : List (Option ℕ)} {j : ℕ}

/-- A longest alignment keeps a longest common subsequence. -/
theorem isLcs (h : Longest j b s ms) : IsLcs b s (keeps ms) := by
  refine ⟨h.aligns.exists_common, fun l hb hs => ?_⟩
  obtain ⟨ms', h', hk⟩ := Aligns.exists_of_common (j := j) hb hs
  rw [← hk]
  exact h.le ms' h'

/-- A kept row cuts a longest alignment into longest ones. -/
theorem cut (h : Longest j (b₁ ++ x :: b₂) (s₁ ++ x :: s₂) (m₁ ++ some (j + s₁.length) :: m₂))
    (hlen : m₁.length = b₁.length) :
    Longest j b₁ s₁ m₁ ∧ Longest (j + s₁.length + 1) b₂ s₂ m₂ := by
  obtain ⟨h₁, h₂⟩ := h.aligns.cut hlen
  refine ⟨⟨h₁, fun ms' h' => ?_⟩, ⟨h₂, fun ms' h' => ?_⟩⟩
  · have hle := h.le _ (h'.join h₂)
    simp only [keeps_append, keeps_some] at hle
    omega
  · have hle := h.le _ (h₁.join h')
    simp only [keeps_append, keeps_some] at hle
    omega

/-- Between equal lists every row is kept. -/
theorem keeps_eq (h : Longest j b b ms) : keeps ms = b.length := by
  apply le_antisymm h.aligns.keeps_le_length
  have hle := h.le _ (Aligns.identity j b)
  have hid : keeps ((List.range b.length).map (fun i => some (j + i))) = b.length := by
    unfold keeps
    rw [List.countP_eq_length.mpr]
    · rw [List.length_map, List.length_range]
    · intro m hm
      obtain ⟨i, _, rfl⟩ := List.mem_map.mp hm
      rfl
  omega

end Longest

/-! ### Scripts -/

/-- An edit script: which rows it deletes, and what it inserts before each row and at the end. -/
structure Script (α : Type) where
  deleted : List Bool
  inserted : List (List α)

/-- The lines inserted before each row and at the end, the next line having number `j`. -/
def insertions {α : Type} : ℕ → List α → List (Option ℕ) → List (List α)
  | _, side, [] => [side]
  | j, side, none :: ms => [] :: insertions j side ms
  | j, side, some k :: ms => side.take (k - j) :: insertions (k + 1) (side.drop (k + 1 - j)) ms

/-- The script of an alignment whose lines are numbered from `j` on. -/
def scriptFrom {α : Type} (j : ℕ) (side : List α) (ms : List (Option ℕ)) : Script α :=
  ⟨ms.map Option.isNone, insertions j side ms⟩

/-- The edit script of an alignment with `side`. -/
def script {α : Type} (side : List α) (ms : List (Option ℕ)) : Script α := scriptFrom 0 side ms

namespace Script
variable {α : Type}

/-- The script that changes nothing. -/
def same (n : ℕ) : Script α := ⟨List.replicate n false, List.replicate (n + 1) []⟩

/-- The scripts of two segments with a kept row between them. -/
def cut (s t : Script α) : Script α := ⟨s.deleted ++ false :: t.deleted, s.inserted ++ t.inserted⟩

/-- The script edits `n` rows. -/
structure Edits (s : Script α) (n : ℕ) : Prop where
  deleted : s.deleted.length = n
  inserted : s.inserted.length = n + 1

/-- No row is deleted by both, and nothing is inserted at one point by both. -/
structure Independent (s t : Script α) : Prop where
  deleted : List.Forall₂ (fun d d' => ¬ (d = true ∧ d' = true)) s.deleted t.deleted
  inserted : List.Forall₂ (fun x y => x = [] ∨ y = []) s.inserted t.inserted

end Script

/-- Applies two scripts: their insertions before each row, and the row if neither deletes it. -/
def applyScripts {α : Type} : List α → Script α → Script α → List α
  | [], s, t => s.inserted.headD [] ++ t.inserted.headD []
  | x :: base, s, t =>
      s.inserted.headD [] ++ t.inserted.headD [] ++
        (if s.deleted.headD false || t.deleted.headD false then [] else [x]) ++
        applyScripts base ⟨s.deleted.tail, s.inserted.tail⟩ ⟨t.deleted.tail, t.inserted.tail⟩

section scripts
variable {α : Type} {x : α} {b b₁ b₂ s s₁ s₂ : List α} {ms m₁ m₂ : List (Option ℕ)} {j : ℕ}

theorem Aligns.edits (h : Aligns j b s ms) : (scriptFrom j s ms).Edits b.length := by
  refine ⟨by rw [← h.length_eq]; exact List.length_map _, ?_⟩
  show (insertions j s ms).length = _
  induction b generalizing j s ms with
  | nil =>
      cases ms with
      | nil => rfl
      | cons m ms => exact h.elim
  | cons x b ih =>
      cases ms with
      | nil => exact h.elim
      | cons m ms =>
          cases m with
          | none => exact congrArg (· + 1) (ih h)
          | some k => exact congrArg (· + 1) (ih h.2)

theorem Aligns.scriptFrom_cut (h : Aligns j b₁ s₁ m₁) :
    scriptFrom j (s₁ ++ x :: s₂) (m₁ ++ some (j + s₁.length) :: m₂) =
      (scriptFrom j s₁ m₁).cut (scriptFrom (j + s₁.length + 1) s₂ m₂) := by
  have hinsertions : insertions j (s₁ ++ x :: s₂) (m₁ ++ some (j + s₁.length) :: m₂) =
      insertions j s₁ m₁ ++ insertions (j + s₁.length + 1) s₂ m₂ := by
    induction b₁ generalizing j s₁ m₁ with
    | nil =>
        cases m₁ with
        | nil =>
            show (s₁ ++ x :: s₂).take _ :: insertions _ ((s₁ ++ x :: s₂).drop _) m₂ = s₁ :: _
            rw [show j + s₁.length - j = s₁.length by omega,
              show j + s₁.length + 1 - j = s₁.length + 1 by omega, List.take_left, List.drop_append,
              List.drop_of_length_le (by omega), List.nil_append, Nat.add_sub_cancel_left]
            rfl
        | cons m ms => exact h.elim
    | cons y b₁ ih =>
        cases m₁ with
        | nil => exact h.elim
        | cons m ms =>
            cases m with
            | none => exact congrArg ([] :: ·) (ih h)
            | some k =>
                obtain ⟨⟨hjk, hx⟩, hrest⟩ := h
                obtain ⟨hlt, _⟩ := List.getElem?_eq_some_iff.mp hx
                have hnum : k + 1 + (s₁.drop (k + 1 - j)).length = j + s₁.length := by
                  rw [List.length_drop]
                  omega
                have h' := ih hrest
                rw [hnum] at h'
                show (s₁ ++ x :: s₂).take (k - j) :: insertions (k + 1) ((s₁ ++ x :: s₂).drop (k + 1 - j)) _ =
                  s₁.take (k - j) :: (insertions (k + 1) (s₁.drop (k + 1 - j)) ms ++ _)
                rw [List.take_append_of_le_length (by omega), List.drop_append_of_le_length (by omega)]
                exact congrArg (List.cons _) h'
  unfold scriptFrom Script.cut
  rw [hinsertions, List.map_append]
  rfl

theorem applyScripts_cut {s t s' t' : Script α} (hs : s.Edits b₁.length) (ht : t.Edits b₁.length) :
    applyScripts (b₁ ++ x :: b₂) (s.cut s') (t.cut t') =
      applyScripts b₁ s t ++ x :: applyScripts b₂ s' t' := by
  induction b₁ generalizing s t with
  | nil =>
      obtain ⟨ds, is⟩ := s
      obtain ⟨dt, it⟩ := t
      obtain rfl : ds = [] := List.length_eq_zero_iff.mp hs.deleted
      obtain rfl : dt = [] := List.length_eq_zero_iff.mp ht.deleted
      obtain ⟨i, rfl⟩ := List.length_eq_one_iff.mp hs.inserted
      obtain ⟨i', rfl⟩ := List.length_eq_one_iff.mp ht.inserted
      simp [applyScripts, Script.cut]
  | cons y b₁ ih =>
      obtain ⟨ds, is⟩ := s
      obtain ⟨dt, it⟩ := t
      obtain ⟨d, ds, rfl⟩ := List.exists_cons_of_length_eq_add_one hs.deleted
      obtain ⟨d', dt, rfl⟩ := List.exists_cons_of_length_eq_add_one ht.deleted
      obtain ⟨i, is, rfl⟩ := List.exists_cons_of_length_eq_add_one hs.inserted
      obtain ⟨i', it, rfl⟩ := List.exists_cons_of_length_eq_add_one ht.inserted
      have h := ih (s := ⟨ds, is⟩) (t := ⟨dt, it⟩) ⟨Nat.succ.inj hs.deleted, Nat.succ.inj hs.inserted⟩
        ⟨Nat.succ.inj ht.deleted, Nat.succ.inj ht.inserted⟩
      exact (congrArg (i ++ i' ++ (if d || d' then [] else [y]) ++ ·) h).trans
        (List.append_assoc _ _ _).symm

theorem Script.Independent.cut {s t s' t' : Script α} (h : s.Independent t) (h' : s'.Independent t') :
    (s.cut s').Independent (t.cut t') :=
  ⟨List.rel_append h.deleted (List.Forall₂.cons (by simp) h'.deleted),
    List.rel_append h.inserted h'.inserted⟩

theorem Script.Independent.symm {s t : Script α} (h : s.Independent t) : t.Independent s :=
  ⟨h.deleted.flip.imp (fun _ _ hd hc => hd hc.symm), h.inserted.flip.imp (fun _ _ hi => hi.symm)⟩

/-- Every script is independent of the one that changes nothing. -/
theorem Script.Edits.independent_same {s : Script α} {n : ℕ} (h : s.Edits n) :
    s.Independent (Script.same n) := by
  constructor
  · rw [List.forall₂_iff_get]
    refine ⟨by rw [h.deleted]; simp [Script.same], fun i h₁ h₂ => ?_⟩
    simp [Script.same]
  · rw [List.forall₂_iff_get]
    refine ⟨by rw [h.inserted]; simp [Script.same], fun i h₁ h₂ => ?_⟩
    simp [Script.same]

/-- A longest alignment between equal lists changes nothing. -/
theorem Longest.script_eq (h : Longest j b b ms) : scriptFrom j b ms = Script.same b.length := by
  have key : ∀ (b s : List α) (j : ℕ) (ms : List (Option ℕ)), Aligns j b s ms → keeps ms = b.length →
      s.length = b.length → scriptFrom j s ms = Script.same b.length := by
    intro b
    induction b with
    | nil =>
        intro s j ms h _ hs
        obtain rfl := List.length_eq_zero_iff.mp hs
        cases ms with
        | nil => rfl
        | cons m ms => exact h.elim
    | cons x b ih =>
        intro s j ms h hk hs
        cases ms with
        | nil => exact h.elim
        | cons m ms =>
            cases m with
            | none =>
                have hle := (show Aligns j b s ms from h).keeps_le_length
                rw [keeps_none, List.length_cons] at hk
                omega
            | some k =>
                obtain ⟨⟨hjk, hx⟩, hrest⟩ := h
                -- No line is left over to be inserted before this row.
                have hle := keeps_le_length_right hrest
                obtain ⟨hlt, _⟩ := List.getElem?_eq_some_iff.mp hx
                rw [keeps_some, List.length_cons] at hk
                rw [List.length_cons] at hs
                rw [List.length_drop] at hle
                obtain rfl : k = j := by omega
                have hdrop : (s.drop (k + 1 - k)).length = b.length := by
                  rw [List.length_drop]
                  omega
                have h' := ih _ _ _ hrest (by omega) hdrop
                have hd := congrArg Script.deleted h'
                have hi := congrArg Script.inserted h'
                show (⟨false :: _, s.take (k - k) :: _⟩ : Script α) = ⟨_, _⟩
                rw [Nat.sub_self, List.take_zero, List.length_cons, List.replicate_succ,
                  List.replicate_succ]
                exact congrArg₂ (fun d i => (⟨false :: d, [] :: i⟩ : Script α)) hd hi
  exact key b b j ms h.aligns h.keeps_eq rfl

/-- A script alone gives its side. -/
theorem Aligns.applyScripts_left (h : Aligns j b s ms) :
    applyScripts b (scriptFrom j s ms) (Script.same b.length) = s := by
  induction b generalizing j s ms with
  | nil =>
      cases ms with
      | nil =>
          show s ++ [] = s
          exact List.append_nil s
      | cons m ms => exact h.elim
  | cons x b ih =>
      cases ms with
      | nil => exact h.elim
      | cons m ms =>
          cases m with
          | none => exact ih h
          | some k =>
              obtain ⟨⟨hjk, hx⟩, hrest⟩ := h
              obtain ⟨hlt, hx⟩ := List.getElem?_eq_some_iff.mp hx
              have h' := ih hrest
              show s.take (k - j) ++ [] ++ [x] ++ applyScripts b (scriptFrom (k + 1) (s.drop (k + 1 - j)) ms) (Script.same b.length) = s
              rw [h', List.append_nil, List.append_assoc, ← hx,
                show k + 1 - j = k - j + 1 by omega]
              show s.take (k - j) ++ (s[k - j] :: s.drop (k - j + 1)) = s
              rw [← List.drop_eq_getElem_cons hlt, List.take_append_drop]

theorem Aligns.applyScripts_right (h : Aligns j b s ms) :
    applyScripts b (Script.same b.length) (scriptFrom j s ms) = s := by
  induction b generalizing j s ms with
  | nil =>
      cases ms with
      | nil => rfl
      | cons m ms => exact h.elim
  | cons x b ih =>
      cases ms with
      | nil => exact h.elim
      | cons m ms =>
          cases m with
          | none => exact ih h
          | some k =>
              obtain ⟨⟨hjk, hx⟩, hrest⟩ := h
              obtain ⟨hlt, hx⟩ := List.getElem?_eq_some_iff.mp hx
              have h' := ih hrest
              show s.take (k - j) ++ [x] ++ applyScripts b (Script.same b.length) (scriptFrom (k + 1) (s.drop (k + 1 - j)) ms) = s
              rw [h', List.append_assoc, ← hx, show k + 1 - j = k - j + 1 by omega]
              show s.take (k - j) ++ (s[k - j] :: s.drop (k - j + 1)) = s
              rw [← List.drop_eq_getElem_cons hlt, List.take_append_drop]

end scripts

end Javelin
