import Javelin.Matching

/-! # The line matching is longest, and its mandatory rows are exact

Tracing back keeps as many rows as the table's last entry counts (`keeps_traceback`), so the matching is a
longest alignment.  A row that is not mandatory is left out by some longest alignment (`exists_omitting`).
`matches_exact` puts both together. -/

namespace Javelin

variable {α : Type} [DecidableEq α]

/-! ### The traceback is longest -/

/-- Where a row is matched, the prefix before it has one match less; where it is not, as many. -/
theorem matchedRow_lcs {p other : List α} {x : α} {above row : List ℕ} (habove : PrefixRow p [] other above)
    (hrow : PrefixRow (p ++ [x]) [] other row) {j v : ℕ} (hj : j ≤ other.length)
    (hv : IsLcs (p ++ [x]) (other.take j) v) : ∃ c ≤ j, ∃ w, IsLcs p (other.take c) w ∧
      ((matchedRow x other above row j = (some c, c) ∧ v = w + 1) ∨
        (matchedRow x other above row j = (none, c) ∧ v = w)) := by
  induction j with
  | zero =>
      refine ⟨0, le_refl 0, 0, IsLcs.nil_right p, .inr ⟨rfl, ?_⟩⟩
      exact hv.unique (IsLcs.nil_right (p ++ [x]))
  | succ j ih =>
      have hlt : j < other.length := hj
      have htake : other.take (j + 1) = other.take j ++ [other[j]] := by
        rw [List.take_add_one, List.getElem?_eq_getElem hlt]
        rfl
      obtain ⟨diagonal, _, hdiagonal⟩ := habove j hlt.le
      obtain ⟨up, hup, hupl⟩ := habove (j + 1) hj
      obtain ⟨left, hleft, hleftl⟩ := hrow j hlt.le
      rw [List.nil_append] at hdiagonal hupl hleftl
      unfold matchedRow
      by_cases hx : other[j]? = some x
      · rw [if_pos hx]
        have hsame : other[j] = x := Option.some.inj ((List.getElem?_eq_getElem hlt).symm.trans hx)
        rw [htake, hsame] at hv
        exact ⟨j, Nat.le_succ j, diagonal, hdiagonal, .inl ⟨rfl, hv.unique hdiagonal.concat_concat⟩⟩
      · rw [if_neg hx]
        have hne : x ≠ other[j] := fun hsame => hx (by rw [List.getElem?_eq_getElem hlt, hsame])
        rw [htake] at hupl
        have hmax : v = max up left := by
          rw [htake] at hv
          exact hv.unique (IsLcs.concat_concat_of_ne hne hupl hleftl)
        have hentries : row.getD j 0 = left ∧ above.getD (j + 1) 0 = up := by
          simp only [List.getD_eq_getElem?_getD, hleft, hup, Option.getD_some, and_self]
        rw [hentries.1, hentries.2]
        by_cases hle : left ≤ up
        · rw [if_pos hle]
          refine ⟨j + 1, le_refl _, up, htake ▸ hupl, .inr ⟨rfl, ?_⟩⟩
          omega
        · rw [if_neg hle]
          have hvleft : v = left := by omega
          obtain ⟨c, hc, w, hw, hcase⟩ := ih hlt.le (hvleft ▸ hleftl)
          exact ⟨c, by omega, w, hw, hcase⟩

/-- The rows of a list from its last one on, each with the table's row before and after it. -/
inductive Traces (other : List α) : List α → List (α × List ℕ × List ℕ) → Prop
  | nil : Traces other [] []
  | concat {p rows x above row} : Traces other p rows → PrefixRow p [] other above →
      PrefixRow (p ++ [x]) [] other row → Traces other (p ++ [x]) ((x, above, row) :: rows)

/-- Tracing back keeps a longest common subsequence. -/
theorem keeps_traceback {other p : List α} {rows : List (α × List ℕ × List ℕ)} (h : Traces other p rows) {j : ℕ}
    (hj : j ≤ other.length) : IsLcs p (other.take j) (keeps (traceback other rows j)) := by
  induction h generalizing j with
  | nil => exact IsLcs.nil_left _
  | @concat p rows x above row _ habove hrow ih =>
      obtain ⟨v, _, hv⟩ := hrow j hj
      rw [List.nil_append] at hv
      obtain ⟨c, hc, w, hw, hcase⟩ := matchedRow_lcs habove hrow hj hv
      have hrest := (ih (hc.trans hj)).unique hw
      obtain ⟨hrow', hvw⟩ | ⟨hrow', hvw⟩ := hcase
      · simp only [traceback, hrow', keeps_some, hrest]
        exact hvw ▸ hv
      · simp only [traceback, hrow', keeps_none, hrest]
        exact hvw ▸ hv

theorem traces_take (base other : List α) {i : ℕ} (hi : i ≤ base.length) : Traces other (base.take i)
    ((base.zip ((prefixTable base other).zip (prefixTable base other).tail)).take i).reverse := by
  induction i with
  | zero => exact .nil
  | succ i ih =>
      have hlt : i < base.length := hi
      obtain ⟨above, habove, haboveRow⟩ := prefixTable_spec base other i hlt.le
      obtain ⟨row, hrow, hrowRow⟩ := prefixTable_spec base other (i + 1) hi
      have hpair : (base.zip ((prefixTable base other).zip (prefixTable base other).tail))[i]? =
          some (base[i], above, row) := by
        rw [List.getElem?_zip_eq_some, List.getElem?_zip_eq_some, List.getElem?_tail]
        exact ⟨List.getElem?_eq_getElem hlt, habove, hrow⟩
      have htake : base.take (i + 1) = base.take i ++ [base[i]] := by
        rw [List.take_add_one, List.getElem?_eq_getElem hlt]
        rfl
      rw [htake] at hrowRow ⊢
      rw [List.take_add_one, hpair, List.reverse_append]
      exact .concat (ih hlt.le) haboveRow hrowRow

/-- The matching is as long as a longest common subsequence. -/
theorem keeps_matched (base other : List α) : IsLcs base other (keeps (matched base other)) := by
  have htraces := traces_take base other (le_refl base.length)
  have hlen : (base.zip ((prefixTable base other).zip (prefixTable base other).tail)).length ≤ base.length := by
    rw [List.length_zip]
    exact Nat.min_le_left _ _
  rw [List.take_length, List.take_of_length_le hlen] at htraces
  have hkeeps := keeps_traceback htraces (le_refl other.length)
  rw [List.take_length] at hkeeps
  have hreverse : ∀ ms : List (Option ℕ), keeps ms.reverse = keeps ms := fun ms => List.countP_reverse
  unfold matched
  rw [hreverse]
  exact hkeeps

/-- The matching is a longest alignment. -/
theorem longest_matched (base other : List α) : Longest 0 base other (matched base other) := by
  refine ⟨aligns_matched base other, fun ms h => ?_⟩
  obtain ⟨l, hb, ho, hl⟩ := h.exists_common
  rw [← hl]
  exact (keeps_matched base other).le l hb ho

/-! ### Rows that may be left out -/

theorem exists_foldr_max {l : List ℕ} (h : l ≠ []) : l.foldr max 0 ∈ l := by
  induction l with
  | nil => exact absurd rfl h
  | cons v l ih =>
      rw [List.foldr_cons]
      cases l with
      | nil => simp
      | cons w l =>
          have hmem := ih (List.cons_ne_nil w l)
          by_cases hle : v ≤ (w :: l).foldr max 0
          · rw [Nat.max_eq_right hle]
            exact List.mem_cons_of_mem v hmem
          · rw [Nat.max_eq_left (by omega)]
            exact List.mem_cons_self

/-- The best length without a row is reached at some split of the other lines. -/
theorem exists_without {row suffix : List ℕ} (hrow : row ≠ []) (hsuffix : suffix ≠ []) :
    ∃ (j : ℕ) (a b : ℕ), row[j]? = some a ∧ suffix[j]? = some b ∧ a + b = without row suffix := by
  have hne : List.zipWith (· + ·) row suffix ≠ [] := by
    intro hnil
    cases List.zipWith_eq_nil_iff.mp hnil with
    | inl h => exact hrow h
    | inr h => exact hsuffix h
  obtain ⟨j, hj⟩ := List.mem_iff_getElem?.mp (exists_foldr_max hne)
  rw [List.getElem?_zipWith_eq_some] at hj
  obtain ⟨a, b, ha, hb, hsum⟩ := hj
  exact ⟨j, a, b, ha, hb, hsum⟩

/-- A row that is not mandatory is left out by a longest alignment. -/
theorem exists_omitting {base : List α} (other : List α) {i : ℕ} (hi : i < base.length)
    (hm : (mandatory base other)[i]? ≠ some true) :
    ∃ ms, Longest 0 base other ms ∧ ms[i]? = some none := by
  obtain ⟨row, suffix, hprefix, hsuffix, hlen, hflag⟩ := exists_rows_mandatory other hi
  have hle : total base other ≤ without row suffix := by
    by_contra hlt
    rw [not_le] at hlt
    exact hm (by rw [hflag, decide_eq_true hlt])
  have hrow : row ≠ [] := by
    obtain ⟨v, hv, _⟩ := hprefix 0 (Nat.zero_le _)
    rintro rfl
    cases hv
  have hnil : suffix ≠ [] := by
    obtain ⟨v, hv, _⟩ := hsuffix 0 (Nat.zero_le _)
    rintro rfl
    cases hv
  obtain ⟨j, a, b, ha, hb, hsum⟩ := exists_without hrow hnil
  have hj : j ≤ other.length := by
    have hlt := (List.getElem?_eq_some_iff.mp hb).1
    omega
  obtain ⟨a', ha', hal⟩ := hprefix j hj
  obtain ⟨b', hb', hbl⟩ := hsuffix j hj
  obtain rfl := Option.some.inj (ha.symm.trans ha')
  obtain rfl := Option.some.inj (hb.symm.trans hb')
  rw [List.nil_append] at hal
  -- a longest alignment on each side of the row, and nothing for the row
  obtain ⟨l₁, hb₁, ho₁, hl₁⟩ := hal.common
  obtain ⟨l₂, hb₂, ho₂, hl₂⟩ := hbl.common
  obtain ⟨ms₁, h₁, hk₁⟩ := Aligns.exists_of_common (j := 0) hb₁ ho₁
  obtain ⟨ms₂, h₂, hk₂⟩ := Aligns.exists_of_common (j := 0 + (other.take j).length) hb₂ ho₂
  have haligns : Aligns 0 base other (ms₁ ++ none :: ms₂) := by
    have hrest : Aligns (0 + (other.take j).length) (base[i] :: base.drop (i + 1)) (other.drop j)
        (none :: ms₂) := h₂
    have hjoined := h₁.append hrest
    rwa [List.take_append_drop, ← List.drop_eq_getElem_cons hi, List.take_append_drop] at hjoined
  refine ⟨ms₁ ++ none :: ms₂, ⟨haligns, fun ms h => ?_⟩, ?_⟩
  · obtain ⟨l, hbl', hol, hl⟩ := h.exists_common
    have htotal := (total_isLcs base other).le l hbl' hol
    rw [keeps_append, keeps_none, hk₁, hk₂]
    omega
  · have hms : ms₁.length = i := by
      rw [h₁.length_eq, List.length_take]
      omega
    rw [List.getElem?_append_right hms.le, hms, Nat.sub_self]
    rfl

/-- `matches` returns a longest alignment, which keeps as many rows as a longest common subsequence has, and
flags exactly the rows that every longest alignment keeps. -/
theorem matches_exact (base other : List α) :
    LongestAlignment base other (matchRows base other).1 ∧
      IsLcs base other (keeps (matchRows base other).1) ∧
      ∀ i < base.length, ((matchRows base other).2[i]? = some true ↔
        ∀ ms, LongestAlignment base other ms → ∃ k, ms[i]? = some (some k)) := by
  refine ⟨longest_iff.mp (longest_matched base other), keeps_matched base other, fun i hi => ?_⟩
  constructor
  · intro hm ms hms
    have hkept := keeps_of_mandatory (longest_iff.mpr hms) hi hm
    have hlt : i < ms.length := by
      rw [hms.aligns.length]
      exact hi
    cases hrow : ms[i] with
    | none =>
        rw [List.getElem?_eq_getElem hlt, hrow] at hkept
        exact absurd rfl hkept
    | some k => exact ⟨k, by rw [List.getElem?_eq_getElem hlt, hrow]⟩
  · intro hall
    by_contra hm
    obtain ⟨ms, hms, hnone⟩ := exists_omitting other hi hm
    obtain ⟨k, hk⟩ := hall ms (longest_iff.mp hms)
    cases hnone.symm.trans hk

example : matchRows [1, 2, 1] [1, 1] = ([some 0, none, some 1], [true, false, true]) := by decide

end Javelin
