import Javelin.Alignment

/-! # Line matching

One longest matching of the lines of `base` and `other`, and which rows of `base` every longest
matching keeps (`matches` in the source, here `matchRows`).  A table of prefixes is filled row by
row; the matching is traced back from its last entry, and a row is mandatory if no split of the
other lines reaches the total without it.

The matching found is an alignment (`aligns_matched`), and every longest alignment keeps a
mandatory row (`keeps_of_mandatory`). -/

namespace Javelin

variable {α : Type} [DecidableEq α]

/-! ### Tables -/

/-- A row of the prefix table from the row above it, from the entry `left` on. -/
def prefixRow (x : α) : List α → List ℕ → ℕ → List ℕ
  | y :: other, diagonal :: above :: row, left =>
      left :: prefixRow x other (above :: row) (if x = y then diagonal + 1 else max above left)
  | _, _, left => [left]

/-- The rows of the prefix table from a row on. -/
def prefixRows (other : List α) : List α → List ℕ → List (List ℕ)
  | [], row => [row]
  | x :: base, row => row :: prefixRows other base (prefixRow x other row 0)

/-- The prefix table: the entry `j` of row `i` is for the first `i` rows and `j` lines. -/
def prefixTable (base other : List α) : List (List ℕ) :=
  prefixRows other base (List.replicate (other.length + 1) 0)

/-- A row of the suffix table from the row below it. -/
def suffixRow (x : α) : List α → List ℕ → List ℕ
  | y :: other, below :: diagonal :: row =>
      let rest := suffixRow x other (diagonal :: row)
      (if x = y then 1 + diagonal else max below (rest.headD 0)) :: rest
  | _, _ => [0]

/-- The best length of a matching that omits a row, from the prefix row before it and the suffix
row after it. -/
def without (row suffix : List ℕ) : ℕ := (List.zipWith (· + ·) row suffix).foldr max 0

/-- Whether each row is mandatory, and the suffix row before them all. -/
def mandatoryRows (other : List α) (total : ℕ) : List α → List (List ℕ) → List Bool × List ℕ
  | x :: base, row :: rows =>
      let (mandatory, suffix) := mandatoryRows other total base rows
      (decide (without row suffix < total) :: mandatory, suffixRow x other suffix)
  | _, _ => ([], List.replicate (other.length + 1) 0)

/-! ### Traceback -/

/-- The line a row is matched with when the first `j` lines are left, and how many are left then. -/
def matchedRow (x : α) (other : List α) (above row : List ℕ) : ℕ → Option ℕ × ℕ
  | 0 => (none, 0)
  | j + 1 =>
      if other[j]? = some x then (some j, j)
      else if row.getD j 0 ≤ above.getD (j + 1) 0 then (none, j + 1)
      else matchedRow x other above row j

/-- The matches of rows from the last one on, each with the table's row before and after it. -/
def traceback (other : List α) : List (α × List ℕ × List ℕ) → ℕ → List (Option ℕ)
  | [], _ => []
  | (x, above, row) :: rows, j =>
      let (m, j) := matchedRow x other above row j
      m :: traceback other rows j

/-- One exact matching. -/
def matched (base other : List α) : List (Option ℕ) :=
  let rows := prefixTable base other
  (traceback other (base.zip (rows.zip rows.tail)).reverse other.length).reverse

/-- The length of the longest matchings. -/
def total (base other : List α) : ℕ :=
  ((prefixTable base other).getD base.length []).getD other.length 0

/-- Whether every longest matching keeps each row. -/
def mandatory (base other : List α) : List Bool :=
  (mandatoryRows other (total base other) base (prefixTable base other)).1

/-- `matches`: a matching and the mandatory rows. -/
def matchRows (base other : List α) : List (Option ℕ) × List Bool :=
  (matched base other, mandatory base other)

/-! ### The tables are right -/

/-- The entries of a row from `q` on: longest common subsequences with `p`. -/
def PrefixRow (p q other : List α) (row : List ℕ) : Prop :=
  ∀ j ≤ other.length, ∃ v, row[j]? = some v ∧ IsLcs p (q ++ other.take j) v

/-- The same for the suffixes of the other lines. -/
def SuffixRow (b other : List α) (row : List ℕ) : Prop :=
  ∀ j ≤ other.length, ∃ v, row[j]? = some v ∧ IsLcs b (other.drop j) v

theorem prefixRow_spec {p q other : List α} {x : α} {row : List ℕ} {left : ℕ}
    (h : PrefixRow p q other row) (hleft : IsLcs (p ++ [x]) q left) :
    PrefixRow (p ++ [x]) q other (prefixRow x other row left) := by
  induction other generalizing q row left with
  | nil =>
      intro j hj
      obtain rfl : j = 0 := by simpa using hj
      have hnil : prefixRow x [] row left = [left] := by simp [prefixRow]
      rw [hnil]
      exact ⟨left, rfl, by simpa using hleft⟩
  | cons y other ih =>
      obtain ⟨diagonal, hd, hdl⟩ := h 0 (Nat.zero_le _)
      obtain ⟨above, ha, hal⟩ := h 1 (by simp)
      obtain ⟨row, rfl⟩ : ∃ l, row = diagonal :: above :: l := by
        match row, hd, ha with
        | _ :: _ :: l, hd, ha =>
            cases hd
            cases ha
            exact ⟨l, rfl⟩
      have hnext : PrefixRow p (q ++ [y]) other (above :: row) := by
        intro j hj
        obtain ⟨v, hv, hl⟩ := h (j + 1) (Nat.succ_le_succ hj)
        exact ⟨v, hv, by simpa using hl⟩
      have hentry : IsLcs (p ++ [x]) (q ++ [y]) (if x = y then diagonal + 1 else max above left) := by
        by_cases hxy : x = y
        · subst hxy
          rw [if_pos rfl]
          rw [List.take_zero, List.append_nil] at hdl
          exact hdl.concat_concat
        · rw [if_neg hxy]
          exact IsLcs.concat_concat_of_ne hxy (by simpa using hal) hleft
      intro j hj
      cases j with
      | zero => exact ⟨left, rfl, by simpa using hleft⟩
      | succ j =>
          obtain ⟨v, hv, hl⟩ := ih hnext hentry j (Nat.le_of_succ_le_succ hj)
          exact ⟨v, hv, by simpa using hl⟩

theorem suffixRow_spec {b other : List α} {x : α} {row : List ℕ} (h : SuffixRow b other row) :
    SuffixRow (x :: b) other (suffixRow x other row) := by
  induction other generalizing row with
  | nil =>
      intro j hj
      obtain rfl : j = 0 := by simpa using hj
      have hnil : suffixRow x [] row = [0] := by simp [suffixRow]
      rw [hnil]
      exact ⟨0, rfl, IsLcs.nil_right _⟩
  | cons y other ih =>
      obtain ⟨below, hb, hbl⟩ := h 0 (Nat.zero_le _)
      obtain ⟨diagonal, hd, hdl⟩ := h 1 (by simp)
      obtain ⟨row, rfl⟩ : ∃ l, row = below :: diagonal :: l := by
        match row, hb, hd with
        | _ :: _ :: l, hb, hd =>
            cases hb
            cases hd
            exact ⟨l, rfl⟩
      have hnext : SuffixRow b other (diagonal :: row) := fun j hj => h (j + 1) (Nat.succ_le_succ hj)
      have hrest := ih hnext
      obtain ⟨r, hr, hrl⟩ := hrest 0 (Nat.zero_le _)
      have hhead : (suffixRow x other (diagonal :: row)).headD 0 = r := by
        rw [List.headD_eq_head?_getD, List.head?_eq_getElem?, hr]
        rfl
      intro j hj
      cases j with
      | zero =>
          refine ⟨_, rfl, ?_⟩
          rw [hhead]
          by_cases hxy : x = y
          · subst hxy
            rw [if_pos rfl, Nat.add_comm]
            exact IsLcs.cons_cons hdl
          · rw [if_neg hxy]
            exact IsLcs.cons_cons_of_ne hxy hbl hrl
      | succ j => exact hrest j (Nat.le_of_succ_le_succ hj)

/-- The row of `i` rows in the table. -/
theorem prefixRows_spec {p base other : List α} {row : List ℕ} (h : PrefixRow p [] other row) :
    ∀ i ≤ base.length, ∃ r, (prefixRows other base row)[i]? = some r ∧
      PrefixRow (p ++ base.take i) [] other r := by
  induction base generalizing p row with
  | nil =>
      intro i hi
      obtain rfl : i = 0 := by simpa using hi
      exact ⟨row, rfl, by simpa using h⟩
  | cons x base ih =>
      intro i hi
      cases i with
      | zero => exact ⟨row, rfl, by simpa using h⟩
      | succ i =>
          obtain ⟨r, hr, hrow⟩ := ih (prefixRow_spec h (x := x) (IsLcs.nil_right _)) i
            (Nat.le_of_succ_le_succ hi)
          refine ⟨r, hr, ?_⟩
          rw [List.append_assoc] at hrow
          exact hrow

theorem prefixTable_spec (base other : List α) :
    ∀ i ≤ base.length, ∃ r, (prefixTable base other)[i]? = some r ∧
      PrefixRow (base.take i) [] other r := by
  have hzero : PrefixRow ([] : List α) [] other (List.replicate (other.length + 1) 0) := by
    intro j hj
    refine ⟨0, ?_, IsLcs.nil_left _⟩
    rw [List.getElem?_replicate, if_pos (Nat.lt_succ_of_le hj)]
  exact prefixRows_spec hzero

theorem total_isLcs (base other : List α) : IsLcs base other (total base other) := by
  obtain ⟨r, hr, hrow⟩ := prefixTable_spec base other base.length (Nat.le_refl _)
  obtain ⟨v, hv, hl⟩ := hrow other.length (Nat.le_refl _)
  have htotal : total base other = v := by
    unfold total
    simp only [List.getD_eq_getElem?_getD, hr, Option.getD_some, hv]
  rw [htotal]
  simpa using hl

/-! ### Mandatory rows -/

theorem le_foldr_max {l : List ℕ} {v : ℕ} (h : v ∈ l) : v ≤ l.foldr max 0 := by
  induction l with
  | nil => cases h
  | cons w l ih =>
      rw [List.foldr_cons]
      rcases List.mem_cons.mp h with rfl | h
      · exact Nat.le_max_left _ _
      · exact (ih h).trans (Nat.le_max_right _ _)

theorem le_without {row suffix : List ℕ} {j a b : ℕ} (ha : row[j]? = some a)
    (hb : suffix[j]? = some b) : a + b ≤ without row suffix := by
  apply le_foldr_max
  rw [List.mem_iff_getElem?]
  refine ⟨j, ?_⟩
  rw [List.getElem?_zipWith, ha, hb]

theorem length_suffixRow_le (x : α) (other : List α) (row : List ℕ) :
    (suffixRow x other row).length ≤ other.length + 1 := by
  induction other generalizing row with
  | nil => simp [suffixRow]
  | cons y other ih =>
      match row with
      | [] => simp [suffixRow]
      | [_] => simp [suffixRow]
      | below :: diagonal :: row =>
          have hle := ih (diagonal :: row)
          simp only [suffixRow, List.length_cons]
          omega

/-- Each flag compares the prefix row before a row with a suffix row after it. -/
theorem mandatoryRows_spec {other : List α} {n : ℕ} {base : List α} {rows : List (List ℕ)}
    (hrows : base.length ≤ rows.length) :
    (SuffixRow base other (mandatoryRows other n base rows).2 ∧
      (mandatoryRows other n base rows).2.length ≤ other.length + 1) ∧
      ∀ i < base.length, ∃ row suffix, rows[i]? = some row ∧ SuffixRow (base.drop (i + 1)) other suffix ∧
        suffix.length ≤ other.length + 1 ∧
        (mandatoryRows other n base rows).1[i]? = some (decide (without row suffix < n)) := by
  induction base generalizing rows with
  | nil =>
      have hnil : mandatoryRows other n [] rows = ([], List.replicate (other.length + 1) 0) := by
        simp [mandatoryRows]
      rw [hnil]
      refine ⟨⟨fun j hj => ⟨0, ?_, IsLcs.nil_left _⟩, by simp⟩, fun i hi => by simp at hi⟩
      rw [List.getElem?_replicate, if_pos (Nat.lt_succ_of_le hj)]
  | cons x base ih =>
      cases rows with
      | nil => simp at hrows
      | cons row rows =>
          have hle : base.length ≤ rows.length := Nat.le_of_succ_le_succ hrows
          obtain ⟨⟨hsuffix, hlen⟩, hflags⟩ := ih hle
          refine ⟨⟨suffixRow_spec hsuffix, length_suffixRow_le _ _ _⟩, fun i hi => ?_⟩
          cases i with
          | zero => exact ⟨row, _, rfl, hsuffix, hlen, rfl⟩
          | succ i => exact hflags i (Nat.lt_of_succ_lt_succ hi)

/-- The rows of the tables that decide a flag. -/
theorem exists_rows_mandatory {base : List α} (other : List α) {i : ℕ} (hi : i < base.length) :
    ∃ row suffix, PrefixRow (base.take i) [] other row ∧ SuffixRow (base.drop (i + 1)) other suffix ∧
      suffix.length ≤ other.length + 1 ∧
      (mandatory base other)[i]? = some (decide (without row suffix < total base other)) := by
  have hrows : base.length ≤ (prefixTable base other).length := by
    obtain ⟨r, hr, _⟩ := prefixTable_spec base other base.length (Nat.le_refl _)
    exact (List.getElem?_eq_some_iff.mp hr).1.le
  obtain ⟨row, suffix, hrow, hsuffix, hlen, hflag⟩ :=
    (mandatoryRows_spec (n := total base other) hrows).2 i hi
  obtain ⟨r, hr, hprefix⟩ := prefixTable_spec base other i hi.le
  obtain rfl := Option.some.inj (hr.symm.trans hrow)
  exact ⟨r, suffix, hprefix, hsuffix, hlen, hflag⟩

/-- Every longest alignment keeps a mandatory row. -/
theorem keeps_of_mandatory {base other : List α} {ms : List (Option ℕ)} (h : Longest 0 base other ms)
    {i : ℕ} (hi : i < base.length) (hm : (mandatory base other)[i]? = some true) :
    ms[i]? ≠ some none := by
  intro hnone
  obtain ⟨row, suffix, hprefix, hsuffix, _, hflag⟩ := exists_rows_mandatory other hi
  have hlt : without row suffix < total base other :=
    of_decide_eq_true (Option.some.inj (hflag.symm.trans hm))
  -- An alignment without the row splits the other lines somewhere.
  obtain ⟨hlt', hnone⟩ := List.getElem?_eq_some_iff.mp hnone
  have hms : ms = ms.take i ++ none :: ms.drop (i + 1) := by
    rw [← hnone, ← List.drop_eq_getElem_cons hlt', List.take_append_drop]
  have hbase : base = base.take i ++ base[i] :: base.drop (i + 1) := by
    rw [← List.drop_eq_getElem_cons hi, List.take_append_drop]
  have haligns := h.aligns
  rw [hms, hbase] at haligns
  obtain ⟨s₁, s₂, hs, h₁, h₂⟩ := haligns.exists_split (by
    rw [List.length_take, List.length_take, h.aligns.length_eq])
  have hlen : s₁.length ≤ other.length := by
    rw [hs, List.length_append]
    omega
  obtain ⟨a, ha, hal⟩ := hprefix s₁.length hlen
  obtain ⟨b, hb, hbl⟩ := hsuffix s₁.length hlen
  rw [hs, List.nil_append, List.take_left] at hal
  rw [hs, List.drop_left] at hbl
  obtain ⟨l₁, hb₁, hs₁, hl₁⟩ := h₁.exists_common
  obtain ⟨l₂, hb₂, hs₂, hl₂⟩ := (show Aligns _ _ s₂ (ms.drop (i + 1)) from h₂).exists_common
  have hle₁ := hal.le l₁ hb₁ hs₁
  have hle₂ := hbl.le l₂ hb₂ hs₂
  have hle := le_without ha hb
  have htotal := h.isLcs.unique (total_isLcs base other)
  rw [hms, keeps_append, keeps_none] at htotal
  omega

/-! ### The matching -/

theorem matchedRow_spec (x : α) (other : List α) (above row : List ℕ) (j : ℕ) :
    (∃ c, matchedRow x other above row j = (some c, c) ∧ c < j ∧ other[c]? = some x) ∨
      ∃ c ≤ j, matchedRow x other above row j = (none, c) := by
  induction j with
  | zero => exact Or.inr ⟨0, Nat.le_refl _, rfl⟩
  | succ j ih =>
      unfold matchedRow
      by_cases hx : other[j]? = some x
      · rw [if_pos hx]
        exact Or.inl ⟨j, rfl, Nat.lt_succ_self _, hx⟩
      · rw [if_neg hx]
        by_cases hle : row.getD j 0 ≤ above.getD (j + 1) 0
        · rw [if_pos hle]
          exact Or.inr ⟨j + 1, Nat.le_refl _, rfl⟩
        · rw [if_neg hle]
          rcases ih with ⟨c, hc, hlt, hx⟩ | ⟨c, hle, hc⟩
          · exact Or.inl ⟨c, hc, by omega, hx⟩
          · exact Or.inr ⟨c, by omega, hc⟩

/-- Tracing back gives an alignment with the lines that are left. -/
theorem aligns_traceback (other : List α) (rows : List (α × List ℕ × List ℕ)) (j : ℕ) :
    Aligns 0 (rows.map Prod.fst).reverse (other.take j) (traceback other rows j).reverse := by
  induction rows generalizing j with
  | nil => trivial
  | cons e rows ih =>
      obtain ⟨x, above, row⟩ := e
      rw [List.map_cons, List.reverse_cons]
      rcases matchedRow_spec x other above row j with
        ⟨c, hc, hlt, hx⟩ | ⟨c, hle, hc⟩
      · have htrace : traceback other ((x, above, row) :: rows) j = some c :: traceback other rows c := by
          simp [traceback, hc]
        rw [htrace, List.reverse_cons]
        obtain ⟨hcl, hx⟩ := List.getElem?_eq_some_iff.mp hx
        have hc' : c < (other.take j).length := by
          rw [List.length_take]
          omega
        have hget : (other.take j)[c] = x := by rw [List.getElem_take, hx]
        have htake : other.take j = other.take c ++ x :: (other.take j).drop (c + 1) :=
          calc other.take j = (other.take j).take c ++ (other.take j).drop c :=
                (List.take_append_drop c _).symm
            _ = other.take c ++ x :: (other.take j).drop (c + 1) := by
                rw [List.take_take, Nat.min_eq_left hlt.le, List.drop_eq_getElem_cons hc', hget]
        rw [htake]
        have hnil : Aligns (0 + (other.take c).length + 1) [] ((other.take j).drop (c + 1)) [] := trivial
        have h := (ih c).join (x := x) hnil
        rwa [List.length_take, Nat.min_eq_left hcl.le, Nat.zero_add] at h
      · have htrace : traceback other ((x, above, row) :: rows) j = none :: traceback other rows c := by
          simp [traceback, hc]
        rw [htrace, List.reverse_cons]
        have htake : other.take j = other.take c ++ (other.take j).drop c := by
          have h := (List.take_append_drop c (other.take j)).symm
          rwa [List.take_take, Nat.min_eq_left hle] at h
        have hrow : Aligns (0 + (other.take c).length) [x] ((other.take j).drop c) [none] := trivial
        rw [htake]
        exact (ih c).append hrow

theorem length_prefixRows (other base : List α) (row : List ℕ) :
    (prefixRows other base row).length = base.length + 1 := by
  induction base generalizing row with
  | nil => rfl
  | cons x base ih => exact congrArg (· + 1) (ih _)

theorem aligns_matched (base other : List α) : Aligns 0 base other (matched base other) := by
  have hlen : base.length ≤ ((prefixTable base other).zip (prefixTable base other).tail).length := by
    rw [List.length_zip, List.length_tail, prefixTable, length_prefixRows]
    omega
  have h := aligns_traceback other
    (base.zip ((prefixTable base other).zip (prefixTable base other).tail)).reverse other.length
  rw [List.map_reverse, List.map_fst_zip hlen, List.reverse_reverse, List.take_length] at h
  exact h

/-- There is a longest alignment. -/
theorem exists_longest (base other : List α) : ∃ ms, Longest 0 base other ms := by
  have htotal := total_isLcs base other
  obtain ⟨l, hb, ho, hl⟩ := htotal.common
  obtain ⟨ms, hms, hk⟩ := Aligns.exists_of_common (j := 0) hb ho
  refine ⟨ms, hms, fun ms' h' => ?_⟩
  obtain ⟨l', hb', ho', hl'⟩ := h'.exists_common
  rw [hk, hl, ← hl']
  exact htotal.le l' hb' ho'

end Javelin
