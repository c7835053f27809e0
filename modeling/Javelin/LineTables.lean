import Javelin.LineMatches
import Javelin.MyersArrays

/-! # Line matching on flat tables

`matches` as the code runs it: the prefix table is one array of 32-bit cells that is indexed by
`i * width + j`, the suffix table is two rows that are swapped, and every index, every index computation
and every cell is checked (`none` where an index would be out of range or a number would not fit).

The cells hold the lengths of longest common subsequences (`Known`), so no check fails while the table
itself can be indexed, and the result is that of the lists (`matchRows_eq`). -/

namespace Javelin

namespace LineTables

open Arrays (put)

/-! ### Definitions -/

/-- A number as a word of `w` bits; one that does not fit has none. -/
def word (w n : ℕ) : Option ℕ := if n < 2 ^ w then some n else none

/-- `i * width + j` -/
def index (width i j : ℕ) : Option ℕ := do word 64 ((← word 64 (i * width)) + j)

/-- `table[i * width + j]` -/
def read (table : List ℕ) (width i j : ℕ) : Option ℕ := do table[← index width i j]?

section definitions
variable {α : Type} [DecidableEq α] (base other : List α)

/-- `prefix[(i + 1) * width + j + 1]` from the cells before it. -/
def cell (width i j : ℕ) (table : List ℕ) : Option ℕ := do
  let x ← base[i]?
  let y ← other[j]?
  if x = y then word 32 ((← read table width i j) + 1)
  else return max (← read table width i (j + 1)) (← read table width (i + 1) j)

def fillCell (width i : ℕ) (table : List ℕ) (j : ℕ) : Option (List ℕ) := do
  let value ← cell base other width i j table
  put table (← index width (i + 1) (j + 1)) value

def fillRow (width : ℕ) (table : List ℕ) (i : ℕ) : Option (List ℕ) :=
  (List.range other.length).foldlM (fillCell base other width i) table

/-- The prefix table, row by row. -/
def fill (width : ℕ) : Option (List ℕ) := do
  let size ← word 64 ((base.length + 1) * width)
  (List.range base.length).foldlM (fillRow base other width) (List.replicate size 0)

/-- The `while` loop: back from the last cell. -/
def trace (width : ℕ) (table : List ℕ) : ℕ → ℕ → List (Option ℕ) → Option (List (Option ℕ))
  | i + 1, j + 1, matched => do
      let x ← base[i]?
      let y ← other[j]?
      if x = y then trace width table i j (← put matched i (some j))
      else
        let above ← read table width i (j + 1)
        let left ← read table width (i + 1) j
        if left ≤ above then trace width table i (j + 1) matched else trace width table (i + 1) j matched
  | _, _, matched => some matched
termination_by i j => i + j

/-- The best length of a matching that omits row `i`. -/
def bestWithout (width : ℕ) (table suffix : List ℕ) (i : ℕ) : Option ℕ := do
  let lengths ← (List.range width).mapM (fun j => do
    word 32 ((← read table width i j) + (← suffix[j]?)))
  lengths.max?

/-- `row[j]` from the row below it and the cell after it. -/
def suffixValue (i : ℕ) (suffix row : List ℕ) (j : ℕ) : Option ℕ := do
  let x ← base[i]?
  let y ← other[j]?
  if x = y then word 32 (1 + (← suffix[j + 1]?))
  else return max (← suffix[j]?) (← row[j + 1]?)

def suffixCell (i : ℕ) (suffix row : List ℕ) (j : ℕ) : Option (List ℕ) := do
  put row j (← suffixValue base other i suffix row j)

/-- One row from the last one on: its flag, and the two rows swapped. -/
def suffixStep (width total : ℕ) (table : List ℕ) (state : List Bool × List ℕ × List ℕ) (i : ℕ) :
    Option (List Bool × List ℕ × List ℕ) := do
  let without ← bestWithout width table state.2.1 i
  let mandatory ← put state.1 i (decide (without < total))
  let row ← (List.range other.length).reverse.foldlM (suffixCell base other i state.2.1) state.2.2
  return (mandatory, row, state.2.1)

/-- `matches` -/
def matchRows : Option (List (Option ℕ) × List Bool) := do
  let width := other.length + 1
  let table ← fill base other width
  let total ← read table width base.length other.length
  let matched ← trace base other width table base.length other.length (List.replicate base.length none)
  let (mandatory, _, _) ← (List.range base.length).reverse.foldlM (suffixStep base other width total table)
    (List.replicate base.length false, List.replicate width 0, List.replicate width 0)
  return (matched, mandatory)

end definitions

/-! ### Cells -/

theorem word_of_lt {w n : ℕ} (h : n < 2 ^ w) : word w n = some n := if_pos h

theorem put_of_lt {β : Type} {xs : List β} {i : ℕ} (h : i < xs.length) (x : β) :
    put xs i x = some (xs.set i x) := if_pos h

theorem cell_lt {n width i j : ℕ} (hi : i ≤ n) (hj : j < width) : i * width + j < (n + 1) * width :=
  calc i * width + j < i * width + width := Nat.add_lt_add_left hj _
    _ = (i + 1) * width := (Nat.succ_mul i width).symm
    _ ≤ (n + 1) * width := Nat.mul_le_mul_right width (Nat.succ_le_succ hi)

/-- Cells of different rows or columns have different indexes. -/
theorem cell_injective {width i j i' j' : ℕ} (hj : j < width) (hj' : j' < width)
    (h : i * width + j = i' * width + j') : i = i' ∧ j = j' := by
  have hpos : 0 < width := Nat.zero_lt_of_lt hj
  have hdiv : ∀ k l, l < width → (k * width + l) / width = k := by
    intro k l hl
    rw [Nat.mul_comm, Nat.mul_add_div hpos, Nat.div_eq_of_lt hl, Nat.add_zero]
  have hrow : i = i' := by
    rw [← hdiv i j hj, ← hdiv i' j' hj', h]
  subst hrow
  exact ⟨rfl, Nat.add_left_cancel h⟩

/-! ### What the cells hold -/

section known
variable {α : Type} [DecidableEq α] {base other : List α}

/-- The length of the longest common subsequences of the first `i` rows and `j` lines. -/
def best (base other : List α) (i j : ℕ) : ℕ := total (base.take i) (other.take j)

/-- The same for the rows from `i` on and the lines from `j` on. -/
def rest (base other : List α) (i j : ℕ) : ℕ := total (base.drop i) (other.drop j)

theorem best_isLcs (base other : List α) (i j : ℕ) :
    IsLcs (base.take i) (other.take j) (best base other i j) := total_isLcs _ _

theorem rest_isLcs (base other : List α) (i j : ℕ) :
    IsLcs (base.drop i) (other.drop j) (rest base other i j) := total_isLcs _ _

theorem best_le (base other : List α) (i j : ℕ) : best base other i j ≤ i := by
  obtain ⟨l, hl, _, hlen⟩ := (best_isLcs base other i j).common
  rw [← hlen]
  exact hl.length_le.trans (List.length_take_le i base)

theorem rest_le (base other : List α) (i j : ℕ) : rest base other i j ≤ base.length - i := by
  obtain ⟨l, hl, _, hlen⟩ := (rest_isLcs base other i j).common
  rw [← hlen, ← List.length_drop]
  exact hl.length_le

theorem best_zero_left (j : ℕ) : best base other 0 j = 0 := Nat.le_zero.mp (best_le base other 0 j)

theorem best_zero_right (i : ℕ) : best base other i 0 = 0 :=
  (best_isLcs base other i 0).unique (by rw [List.take_zero]; exact IsLcs.nil_right _)

theorem rest_length_left (j : ℕ) : rest base other base.length j = 0 := by
  have h := rest_le base other base.length j
  omega

theorem rest_length_right (i : ℕ) : rest base other i other.length = 0 :=
  (rest_isLcs base other i other.length).unique (by rw [List.drop_length]; exact IsLcs.nil_right _)

/-- The recurrence of the prefix table. -/
theorem best_succ {i j : ℕ} (hi : i < base.length) (hj : j < other.length) :
    best base other (i + 1) (j + 1) = if base[i] = other[j] then best base other i j + 1
      else max (best base other i (j + 1)) (best base other (i + 1) j) := by
  have hrow : base.take (i + 1) = base.take i ++ [base[i]] := by
    rw [List.take_add_one, List.getElem?_eq_getElem hi]
    rfl
  have hline : other.take (j + 1) = other.take j ++ [other[j]] := by
    rw [List.take_add_one, List.getElem?_eq_getElem hj]
    rfl
  have hcell := best_isLcs base other (i + 1) (j + 1)
  rw [hrow, hline] at hcell
  by_cases he : base[i] = other[j]
  · rw [if_pos he]
    rw [← he] at hcell
    exact hcell.unique (best_isLcs base other i j).concat_concat
  · rw [if_neg he]
    have hup := best_isLcs base other i (j + 1)
    have hleft := best_isLcs base other (i + 1) j
    rw [hline] at hup
    rw [hrow] at hleft
    exact hcell.unique (IsLcs.concat_concat_of_ne he hup hleft)

/-- The recurrence of the suffix table. -/
theorem rest_cell {i j : ℕ} (hi : i < base.length) (hj : j < other.length) :
    rest base other i j = if base[i] = other[j] then 1 + rest base other (i + 1) (j + 1)
      else max (rest base other (i + 1) j) (rest base other i (j + 1)) := by
  have hcell := rest_isLcs base other i j
  rw [List.drop_eq_getElem_cons hi, List.drop_eq_getElem_cons hj] at hcell
  by_cases he : base[i] = other[j]
  · rw [if_pos he, Nat.add_comm]
    rw [← he] at hcell
    exact hcell.unique (rest_isLcs base other (i + 1) (j + 1)).cons_cons
  · rw [if_neg he]
    have hdown := rest_isLcs base other (i + 1) j
    have hright := rest_isLcs base other i (j + 1)
    rw [List.drop_eq_getElem_cons hj] at hdown
    rw [List.drop_eq_getElem_cons hi] at hright
    exact hcell.unique (IsLcs.cons_cons_of_ne he hdown hright)

/-- A table that holds the best lengths at the cells of `P`. -/
structure Known (base other : List α) (P : ℕ → ℕ → Prop) (table : List ℕ) : Prop where
  length : table.length = (base.length + 1) * (other.length + 1)
  value : ∀ i j, i ≤ base.length → j ≤ other.length → P i j →
    table[i * (other.length + 1) + j]? = some (best base other i j)

/-- Texts whose table can be indexed, and whose lengths fit its cells. -/
structure Fits (base other : List α) : Prop where
  size : (base.length + 1) * (other.length + 1) < 2 ^ 64
  rows : base.length < 2 ^ 32

variable {P : ℕ → ℕ → Prop} {table : List ℕ} {i j : ℕ}

omit [DecidableEq α] in
theorem Fits.index (h : Fits base other) (hi : i ≤ base.length) (hj : j ≤ other.length) :
    index (other.length + 1) i j = some (i * (other.length + 1) + j) := by
  have hlt := cell_lt hi (Nat.lt_succ_of_le hj)
  unfold LineTables.index
  rw [word_of_lt (Nat.lt_of_le_of_lt (Nat.le_add_right _ j) (hlt.trans h.size))]
  exact word_of_lt (hlt.trans h.size)

theorem Known.read (h : Known base other P table) (hfits : Fits base other) (hi : i ≤ base.length)
    (hj : j ≤ other.length) (hp : P i j) :
    read table (other.length + 1) i j = some (best base other i j) := by
  unfold LineTables.read
  rw [hfits.index hi hj]
  exact h.value i j hi hj hp

theorem Known.mono {Q : ℕ → ℕ → Prop} (h : Known base other P table)
    (hqp : ∀ i j, i ≤ base.length → j ≤ other.length → Q i j → P i j) : Known base other Q table :=
  ⟨h.length, fun i j hi hj hq => h.value i j hi hj (hqp i j hi hj hq)⟩

theorem Known.put (h : Known base other P table) (hi : i ≤ base.length) (hj : j ≤ other.length) :
    ∃ table', put table (i * (other.length + 1) + j) (best base other i j) = some table' ∧
      Known base other (fun i' j' => P i' j' ∨ (i' = i ∧ j' = j)) table' := by
  have hlt : i * (other.length + 1) + j < table.length := by
    rw [h.length]
    exact cell_lt hi (Nat.lt_succ_of_le hj)
  refine ⟨_, put_of_lt hlt _, ⟨by rw [List.length_set]; exact h.length, fun i' j' hi' hj' hp => ?_⟩⟩
  rw [List.getElem?_set]
  by_cases he : i * (other.length + 1) + j = i' * (other.length + 1) + j'
  · obtain ⟨rfl, rfl⟩ := cell_injective (Nat.lt_succ_of_le hj) (Nat.lt_succ_of_le hj') he
    rw [if_pos rfl, if_pos hlt]
  · rw [if_neg he]
    refine h.value i' j' hi' hj' (hp.resolve_right ?_)
    rintro ⟨rfl, rfl⟩
    exact he rfl

/-! ### The prefix table -/

/-- A cell is computed from the three before it. -/
theorem Known.cell (h : Known base other P table) (hfits : Fits base other) (hi : i < base.length)
    (hj : j < other.length) (hdiagonal : P i j) (hup : P i (j + 1)) (hleft : P (i + 1) j) :
    cell base other (other.length + 1) i j table = some (best base other (i + 1) (j + 1)) := by
  have hbound : best base other i j + 1 < 2 ^ 32 := by
    have hle := best_le base other i j
    have hrows := hfits.rows
    omega
  unfold LineTables.cell
  rw [List.getElem?_eq_getElem hi, List.getElem?_eq_getElem hj, best_succ hi hj]
  by_cases he : base[i] = other[j]
  · rw [if_pos he]
    show (if base[i] = other[j] then _ else _) = _
    rw [if_pos he, h.read hfits hi.le hj.le hdiagonal]
    exact word_of_lt hbound
  · rw [if_neg he]
    show (if base[i] = other[j] then _ else _) = _
    rw [if_neg he, h.read hfits hi.le hj hup, h.read hfits hi hj.le hleft]
    rfl

theorem Known.fillCell (h : Known base other P table) (hfits : Fits base other) (hi : i < base.length)
    (hj : j < other.length) (hdiagonal : P i j) (hup : P i (j + 1)) (hleft : P (i + 1) j) :
    ∃ table', fillCell base other (other.length + 1) i table j = some table' ∧
      Known base other (fun i' j' => P i' j' ∨ (i' = i + 1 ∧ j' = j + 1)) table' := by
  obtain ⟨table', hput, hknown⟩ := h.put (i := i + 1) (j := j + 1) hi hj
  refine ⟨table', ?_, hknown⟩
  unfold LineTables.fillCell
  rw [h.cell hfits hi hj hdiagonal hup hleft]
  show (index (other.length + 1) (i + 1) (j + 1) >>= fun k => Arrays.put table k _) = _
  rw [hfits.index hi hj]
  exact hput

/-- One row: the columns up to `j` are filled. -/
theorem Known.fillRow (h : Known base other (fun i' _ => i' ≤ i) table) (hzero : ∀ i' ≤ base.length,
      table[i' * (other.length + 1)]? = some 0) (hfits : Fits base other) (hi : i < base.length) :
    ∃ table', fillRow base other (other.length + 1) table i = some table' ∧
      Known base other (fun i' j' => i' ≤ i + 1 ∨ j' = 0) table' := by
  have hstart : Known base other (fun i' j' => i' ≤ i ∨ j' = 0 ∨ (i' = i + 1 ∧ j' ≤ 0)) table := by
    refine ⟨h.length, fun i' j' hi' hj' hp => ?_⟩
    rcases hp with hp | hp | hp
    · exact h.value i' j' hi' hj' hp
    · subst hp
      rw [Nat.add_zero, hzero i' hi', best_zero_right]
    · obtain ⟨_, hp⟩ := hp
      obtain rfl := Nat.le_zero.mp hp
      rw [Nat.add_zero, hzero i' hi', best_zero_right]
  have hrun : ∀ j ≤ other.length, ∃ table',
      (List.range j).foldlM (LineTables.fillCell base other (other.length + 1) i) table = some table' ∧
        Known base other (fun i' j' => i' ≤ i ∨ j' = 0 ∨ (i' = i + 1 ∧ j' ≤ j)) table' := by
    intro j
    induction j with
    | zero => exact fun _ => ⟨table, rfl, hstart⟩
    | succ j ih =>
        intro hj
        obtain ⟨table₁, hok, hknown⟩ := ih (Nat.le_of_succ_le hj)
        obtain ⟨table₂, hcell, hknown'⟩ := hknown.fillCell hfits hi hj (Or.inl (le_refl i))
          (Or.inl (le_refl i)) (Or.inr (Or.inr ⟨rfl, le_refl j⟩))
        refine ⟨table₂, ?_, hknown'.mono ?_⟩
        · rw [List.range_succ, List.foldlM_append, hok]
          show (LineTables.fillCell base other (other.length + 1) i table₁ j >>= fun t => some t) = _
          rw [hcell]
          rfl
        · intro i' j' _ _ hp
          rcases hp with hp | hp | ⟨rfl, hp⟩
          · exact Or.inl (Or.inl hp)
          · exact Or.inl (Or.inr (Or.inl hp))
          · by_cases hlast : j' = j + 1
            · exact Or.inr ⟨rfl, hlast⟩
            · exact Or.inl (Or.inr (Or.inr ⟨rfl, by omega⟩))
  obtain ⟨table', hok, hknown⟩ := hrun other.length (le_refl _)
  refine ⟨table', hok, hknown.mono ?_⟩
  intro i' j' _ hj' hp
  cases hp with
  | inl hp =>
      by_cases hlast : i' = i + 1
      · exact Or.inr (Or.inr ⟨hlast, hj'⟩)
      · exact Or.inl (by omega)
  | inr hp => exact Or.inr (Or.inl hp)

/-- The whole table is filled. -/
theorem exists_fill (hfits : Fits base other) : ∃ table,
    fill base other (other.length + 1) = some table ∧ Known base other (fun _ _ => True) table := by
  have hsize := hfits.size
  have hrun : ∀ i ≤ base.length, ∃ table,
      (List.range i).foldlM (LineTables.fillRow base other (other.length + 1))
        (List.replicate ((base.length + 1) * (other.length + 1)) 0) = some table ∧
        Known base other (fun i' j' => i' ≤ i ∨ j' = 0) table := by
    intro i
    induction i with
    | zero =>
        refine fun _ => ⟨_, rfl, ⟨List.length_replicate, fun i' j' hi' hj' hp => ?_⟩⟩
        rw [List.getElem?_replicate, if_pos (cell_lt hi' (Nat.lt_succ_of_le hj'))]
        cases hp with
        | inl hp =>
            obtain rfl := Nat.le_zero.mp hp
            rw [best_zero_left]
        | inr hp =>
            subst hp
            rw [best_zero_right]
    | succ i ih =>
        intro hi
        obtain ⟨table₁, hok, hknown⟩ := ih (Nat.le_of_succ_le hi)
        have hzero : ∀ i' ≤ base.length, table₁[i' * (other.length + 1)]? = some 0 := by
          intro i' hi'
          have hvalue := hknown.value i' 0 hi' (Nat.zero_le _) (Or.inr rfl)
          rwa [Nat.add_zero, best_zero_right] at hvalue
        obtain ⟨table₂, hrow, hknown'⟩ :=
          (hknown.mono (fun _ _ _ _ hp => Or.inl hp)).fillRow hzero hfits hi
        refine ⟨table₂, ?_, hknown'⟩
        rw [List.range_succ, List.foldlM_append, hok]
        show (LineTables.fillRow base other (other.length + 1) table₁ i >>= fun t => some t) = _
        rw [hrow]
        rfl
  obtain ⟨table, hok, hknown⟩ := hrun base.length (le_refl _)
  refine ⟨table, ?_, hknown.mono (fun i' _ hi' _ _ => Or.inl hi')⟩
  unfold fill
  rw [word_of_lt hsize]
  exact hok

/-! ### The traceback -/

omit [DecidableEq α] in
theorem set_replicate_append {β : Type} (i : ℕ) (b : β) (done : List (Option β)) :
    (List.replicate (i + 1) none ++ done).set i (some b) = List.replicate i none ++ some b :: done := by
  rw [List.replicate_succ', List.append_assoc, List.set_append_right _ _ (by rw [List.length_replicate]),
    List.length_replicate, Nat.sub_self]
  rfl

theorem trace_zero_left {width : ℕ} (matched : List (Option ℕ)) :
    trace base other width table 0 j matched = some matched := by
  unfold trace
  rfl

theorem trace_zero_right {width : ℕ} (matched : List (Option ℕ)) :
    trace base other width table i 0 matched = some matched := by
  cases i <;> simp [trace]

/-- The rows of the lists that are left, the last one first. -/
def rowsOf (base other : List α) (i : ℕ) : List (α × List ℕ × List ℕ) :=
  ((base.zip ((prefixTable base other).zip (prefixTable base other).tail)).take i).reverse

/-- The last row, with the table's rows before and after it. -/
theorem exists_rowsOf_succ (other : List α) (hi : i < base.length) : ∃ above row,
    rowsOf base other (i + 1) = (base[i], above, row) :: rowsOf base other i ∧
      (∀ j ≤ other.length, above.getD j 0 = best base other i j) ∧
      ∀ j ≤ other.length, row.getD j 0 = best base other (i + 1) j := by
  have hbest : ∀ {k : ℕ} {r : List ℕ}, PrefixRow (base.take k) [] other r → ∀ j ≤ other.length,
      r.getD j 0 = best base other k j := by
    intro k r hr j hj
    obtain ⟨v, hv, hlcs⟩ := hr j hj
    rw [List.getD_eq_getElem?_getD, hv]
    exact hlcs.unique (best_isLcs base other k j)
  obtain ⟨above, habove, haboveRow⟩ := prefixTable_spec base other i hi.le
  obtain ⟨row, hrow, hrowRow⟩ := prefixTable_spec base other (i + 1) hi
  have hpair : (base.zip ((prefixTable base other).zip (prefixTable base other).tail))[i]? =
      some (base[i], above, row) := by
    rw [List.getElem?_zip_eq_some, List.getElem?_zip_eq_some, List.getElem?_tail]
    exact ⟨List.getElem?_eq_getElem hi, habove, hrow⟩
  refine ⟨above, row, ?_, hbest haboveRow, hbest hrowRow⟩
  unfold rowsOf
  rw [List.take_add_one, hpair, List.reverse_append]
  rfl

/-- Tracing back on the array is tracing back on the lists. -/
theorem Known.trace (h : Known base other (fun _ _ => True) table) (hfits : Fits base other)
    (hi : i ≤ base.length) (hj : j ≤ other.length) (done : List (Option ℕ)) :
    trace base other (other.length + 1) table i j (List.replicate i none ++ done) =
      some ((traceback other (rowsOf base other i) j).reverse ++ done) := by
  induction i generalizing j done with
  | zero =>
      rw [trace_zero_left]
      rfl
  | succ i ih =>
      obtain ⟨above, row, hrows, habove, hrow⟩ := exists_rowsOf_succ other (show i < base.length from hi)
      have hstep : ∀ j m k, matchedRow base[i] other above row j = (m, k) →
          (traceback other (rowsOf base other (i + 1)) j).reverse ++ done =
            (traceback other (rowsOf base other i) k).reverse ++ m :: done := by
        intro j m k hm
        rw [hrows]
        simp [traceback, hm]
      induction j with
      | zero =>
          have hrest := ih (Nat.le_of_succ_le hi) (Nat.zero_le _) (none :: done)
          rw [trace_zero_right] at hrest
          rw [trace_zero_right, hstep 0 none 0 rfl, ← Option.some.inj hrest, List.replicate_succ',
            List.append_assoc]
          rfl
      | succ j ihj =>
          have hlt : j < other.length := hj
          rw [LineTables.trace, List.getElem?_eq_getElem hi, List.getElem?_eq_getElem hlt]
          show (if base[i] = other[j] then _ else _) = _
          by_cases he : base[i] = other[j]
          · have hput : Arrays.put (List.replicate (i + 1) none ++ done) i (some j) =
                some (List.replicate i none ++ some j :: done) := by
              rw [put_of_lt (by rw [List.length_append, List.length_replicate]; omega),
                set_replicate_append]
            rw [if_pos he, hput, hstep (j + 1) (some j) j (by
              unfold matchedRow
              rw [if_pos (by rw [List.getElem?_eq_getElem hlt, he])])]
            exact ih (Nat.le_of_succ_le hi) hlt.le (some j :: done)
          · have hne : other[j]? ≠ some base[i] := by
              rw [List.getElem?_eq_getElem hlt]
              exact fun hsame => he (Option.some.inj hsame).symm
            rw [if_neg he, h.read hfits (Nat.le_of_succ_le hi) hj trivial, h.read hfits hi hlt.le trivial]
            show (if best base other (i + 1) j ≤ best base other i (j + 1) then _ else _) = _
            by_cases hle : best base other (i + 1) j ≤ best base other i (j + 1)
            · rw [if_pos hle, hstep (j + 1) none (j + 1) (by
                unfold matchedRow
                rw [if_neg hne, hrow j hlt.le, habove (j + 1) hj, if_pos hle])]
              have hrest := ih (Nat.le_of_succ_le hi) hj (none :: done)
              rw [← hrest, List.replicate_succ', List.append_assoc]
              rfl
            · have hsame : matchedRow base[i] other above row (j + 1) = matchedRow base[i] other above row j := by
                rw [matchedRow, if_neg hne, hrow j hlt.le, habove (j + 1) hj, if_neg hle]
              rw [if_neg hle, ihj hlt.le, hstep j _ _ rfl, hstep (j + 1) _ _ hsame]

/-- The matching of the whole table. -/
theorem Known.matched (h : Known base other (fun _ _ => True) table) (hfits : Fits base other) :
    LineTables.trace base other (other.length + 1) table base.length other.length
      (List.replicate base.length none) = some (matched base other) := by
  have htrace := h.trace hfits (le_refl _) (le_refl _) []
  rw [List.append_nil, List.append_nil] at htrace
  have hall : rowsOf base other base.length =
      (base.zip ((prefixTable base other).zip (prefixTable base other).tail)).reverse := by
    unfold rowsOf
    rw [List.take_of_length_le]
    rw [List.length_zip]
    exact Nat.min_le_left _ _
  rw [htrace, hall]
  rfl

/-! ### The flags -/

/-- The best length without row `i`, over the splits of the other lines. -/
def splits (base other : List α) (i : ℕ) : List ℕ :=
  (List.range (other.length + 1)).map (fun j => best base other i j + rest base other (i + 1) j)

/-- A row that holds the rest lengths of the rows from `i` on, from line `j` on. -/
structure Rests (base other : List α) (i j : ℕ) (row : List ℕ) : Prop where
  length : row.length = other.length + 1
  value : ∀ k, j ≤ k → k ≤ other.length → row[k]? = some (rest base other i k)

omit [DecidableEq α] in
theorem max?_eq_foldr {l : List ℕ} (h : l ≠ []) : l.max? = some (l.foldr max 0) := by
  rw [List.max?_eq_some_iff]
  exact ⟨exists_foldr_max h, fun b hb => le_foldr_max hb⟩

theorem Rests.bestWithout {suffix : List ℕ} (h : Rests base other (i + 1) 0 suffix)
    (hk : Known base other (fun _ _ => True) table) (hfits : Fits base other) (hi : i < base.length) :
    bestWithout (other.length + 1) table suffix i = some ((splits base other i).foldr max 0) := by
  have hone : ∀ j ∈ List.range (other.length + 1), (do
      word 32 ((← read table (other.length + 1) i j) + (← suffix[j]?))) =
        some (best base other i j + rest base other (i + 1) j) := by
    intro j hj
    have hle : j ≤ other.length := Nat.le_of_lt_succ (List.mem_range.mp hj)
    have hbound : best base other i j + rest base other (i + 1) j < 2 ^ 32 := by
      have hbest := best_le base other i j
      have hrest := rest_le base other (i + 1) j
      have hrows := hfits.rows
      omega
    rw [hk.read hfits hi.le hle trivial, h.value j (Nat.zero_le j) hle]
    exact word_of_lt hbound
  have hall : (List.range (other.length + 1)).mapM (fun j => do
      word 32 ((← read table (other.length + 1) i j) + (← suffix[j]?))) = some (splits base other i) := by
    unfold splits
    generalize List.range (other.length + 1) = l at hone
    induction l with
    | nil => rfl
    | cons j l ih =>
        rw [List.forall_mem_cons] at hone
        rw [List.mapM_cons, hone.1, ih hone.2]
        rfl
  unfold LineTables.bestWithout
  rw [hall]
  exact max?_eq_foldr (by simp [splits])

/-- One suffix row, from the last line on. -/
theorem Rests.row {suffix row : List ℕ} (h : Rests base other (i + 1) 0 suffix)
    (hrow : row.length = other.length + 1) (hlast : row[other.length]? = some 0) (hfits : Fits base other)
    (hi : i < base.length) : ∃ row', (List.range other.length).reverse.foldlM
      (suffixCell base other i suffix) row = some row' ∧ Rests base other i 0 row' := by
  have hrows := hfits.rows
  have hrun : ∀ k ≤ other.length, ∀ row, Rests base other i k row → ∃ row',
      (List.range k).reverse.foldlM (suffixCell base other i suffix) row = some row' ∧
        Rests base other i 0 row' := by
    intro k
    induction k with
    | zero => exact fun _ row hr => ⟨row, rfl, hr⟩
    | succ k ih =>
        intro hk row hr
        have hlt : k < other.length := hk
        have hvalue : suffixValue base other i suffix row k = some (rest base other i k) := by
          unfold suffixValue
          rw [List.getElem?_eq_getElem hi, List.getElem?_eq_getElem hlt, rest_cell hi hlt]
          by_cases he : base[i] = other[k]
          · rw [if_pos he]
            show (if base[i] = other[k] then _ else _) = _
            rw [if_pos he, h.value (k + 1) (Nat.zero_le _) hk]
            refine word_of_lt ?_
            have hle := rest_le base other (i + 1) (k + 1)
            omega
          · rw [if_neg he]
            show (if base[i] = other[k] then _ else _) = _
            rw [if_neg he, h.value k (Nat.zero_le _) hlt.le, hr.value (k + 1) (le_refl _) hk]
            rfl
        have hlen : k < row.length := by
          rw [hr.length]
          omega
        have hcell : suffixCell base other i suffix row k = some (row.set k (rest base other i k)) := by
          unfold suffixCell
          rw [hvalue]
          exact put_of_lt hlen _
        have hr' : Rests base other i k (row.set k (rest base other i k)) := by
          refine ⟨by rw [List.length_set]; exact hr.length, fun j hj hj' => ?_⟩
          rw [List.getElem?_set]
          by_cases he : k = j
          · subst he
            rw [if_pos rfl, if_pos hlen]
          · rw [if_neg he]
            exact hr.value j (by omega) hj'
        obtain ⟨row', hok, hdone⟩ := ih hlt.le _ hr'
        refine ⟨row', ?_, hdone⟩
        rw [List.range_succ, List.reverse_append, List.reverse_singleton, List.singleton_append,
          List.foldlM_cons, hcell]
        exact hok
  refine hrun other.length (le_refl _) row ⟨hrow, fun k hk hk' => ?_⟩
  obtain rfl := Nat.le_antisymm hk' hk
  rw [hlast, rest_length_right]

/-- The flags of the lists compare the best length without a row with the total. -/
theorem mandatory_eq (hi : i < base.length) : (mandatory base other)[i]? =
    some (decide ((splits base other i).foldr max 0 < total base other)) := by
  obtain ⟨row, suffix, hprefix, hsuffix, hlen, hflag⟩ := exists_rows_mandatory other hi
  have hsplits : List.zipWith (· + ·) row suffix = splits base other i := by
    apply List.ext_getElem?
    intro j
    unfold splits
    by_cases hj : j ≤ other.length
    · obtain ⟨a, ha, hal⟩ := hprefix j hj
      obtain ⟨b, hb, hbl⟩ := hsuffix j hj
      rw [List.nil_append] at hal
      rw [List.getElem?_zipWith, ha, hb, List.getElem?_map, List.getElem?_range (Nat.lt_succ_of_le hj),
        hal.unique (best_isLcs base other i j), hbl.unique (rest_isLcs base other (i + 1) j)]
      rfl
    · have hnone : (List.zipWith (· + ·) row suffix)[j]? = none := by
        rw [List.getElem?_eq_none_iff, List.length_zipWith]
        omega
      rw [hnone, eq_comm, List.getElem?_eq_none_iff, List.length_map, List.length_range]
      omega
  rw [hflag]
  unfold without
  rw [hsplits]

/-- The two rows of the suffix table while the rows from `i` on are done. -/
structure Rows (base other : List α) (i : ℕ) (state : List Bool × List ℕ × List ℕ) : Prop where
  length : state.1.length = base.length
  flags : ∀ k, i ≤ k → k < base.length → state.1[k]? = (mandatory base other)[k]?
  suffix : Rests base other i 0 state.2.1
  row : state.2.2.length = other.length + 1
  last : state.2.2[other.length]? = some 0

theorem Rows.step {state : List Bool × List ℕ × List ℕ} (h : Rows base other (i + 1) state)
    (hk : Known base other (fun _ _ => True) table) (hfits : Fits base other) (hi : i < base.length) :
    ∃ state', suffixStep base other (other.length + 1) (total base other) table state i = some state' ∧
      Rows base other i state' := by
  obtain ⟨mandatory', suffix, row⟩ := state
  obtain ⟨row', hrow, hrests⟩ := h.suffix.row h.row h.last hfits hi
  have hlen : i < mandatory'.length := by
    rw [h.length]
    exact hi
  refine ⟨(mandatory'.set i (decide ((splits base other i).foldr max 0 < total base other)), row', suffix), ?_,
    ⟨by rw [List.length_set]; exact h.length, fun k hik hk' => ?_, hrests, h.suffix.length, ?_⟩⟩
  · unfold suffixStep
    rw [h.suffix.bestWithout hk hfits hi]
    show (put mandatory' i _ >>= _) = _
    rw [put_of_lt hlen]
    show (List.foldlM (suffixCell base other i suffix) row (List.range other.length).reverse >>= _) = _
    rw [hrow]
    rfl
  · rw [List.getElem?_set]
    by_cases he : i = k
    · subst he
      rw [if_pos rfl, if_pos hlen, mandatory_eq hi]
    · rw [if_neg he]
      exact h.flags k (by omega) hk'
  · rw [h.suffix.value other.length (Nat.zero_le _) (le_refl _), rest_length_right]

theorem length_mandatory (base other : List α) : (mandatory base other).length = base.length := by
  have hrows : ∀ (l : List α) (n : ℕ) (rows : List (List ℕ)), l.length ≤ rows.length →
      (mandatoryRows other n l rows).1.length = l.length := by
    intro l n
    induction l with
    | nil => exact fun rows _ => by simp [mandatoryRows]
    | cons x l ih =>
        intro rows hle
        cases rows with
        | nil => simp at hle
        | cons row rows => simp [mandatoryRows, ih rows (Nat.le_of_succ_le_succ hle)]
  apply hrows
  rw [prefixTable, length_prefixRows]
  exact Nat.le_succ _

/-- While the table can be indexed and lengths fit its cells, no index is out of range and no number
overflows, and the result is that of the lists. -/
theorem matchRows_eq (hfits : Fits base other) :
    LineTables.matchRows base other = some (Javelin.matchRows base other) := by
  obtain ⟨table, hfill, hknown⟩ := exists_fill hfits
  have htotal : read table (other.length + 1) base.length other.length = some (total base other) := by
    rw [hknown.read hfits (le_refl _) (le_refl _) trivial]
    unfold best
    rw [List.take_length, List.take_length]
  have hzero : ∀ i : ℕ, i ≤ other.length → (List.replicate (other.length + 1) 0)[i]? = some 0 := by
    intro i hi
    rw [List.getElem?_replicate, if_pos (Nat.lt_succ_of_le hi)]
  have hstart : Rows base other base.length (List.replicate base.length false,
      List.replicate (other.length + 1) 0, List.replicate (other.length + 1) 0) :=
    ⟨List.length_replicate, fun k hk hk' => absurd hk' (Nat.not_lt.mpr hk),
      ⟨List.length_replicate, fun k _ hk => by rw [hzero k hk, rest_length_left]⟩, List.length_replicate,
      hzero _ (le_refl _)⟩
  have hrun : ∀ k ≤ base.length, ∀ state, Rows base other k state → ∃ state',
      (List.range k).reverse.foldlM (suffixStep base other (other.length + 1) (total base other) table) state =
        some state' ∧ Rows base other 0 state' := by
    intro k
    induction k with
    | zero => exact fun _ state hr => ⟨state, rfl, hr⟩
    | succ k ih =>
        intro hk state hr
        obtain ⟨state₁, hstep, hr'⟩ := hr.step hknown hfits hk
        obtain ⟨state', hok, hdone⟩ := ih (Nat.le_of_succ_le hk) state₁ hr'
        refine ⟨state', ?_, hdone⟩
        rw [List.range_succ, List.reverse_append, List.reverse_singleton, List.singleton_append,
          List.foldlM_cons, hstep]
        exact hok
  obtain ⟨⟨flags, suffix, row⟩, hok, hdone⟩ := hrun base.length (le_refl _) _ hstart
  have hflags : flags = mandatory base other := by
    apply List.ext_getElem?
    intro k
    by_cases hk : k < base.length
    · exact hdone.flags k (Nat.zero_le k) hk
    · have hlen : flags.length = base.length := hdone.length
      rw [List.getElem?_eq_none_iff.mpr (by omega),
        List.getElem?_eq_none_iff.mpr (by rw [length_mandatory]; omega)]
  unfold LineTables.matchRows
  show (fill base other (other.length + 1) >>= _) = _
  rw [hfill]
  show (read table (other.length + 1) base.length other.length >>= _) = _
  rw [htotal]
  show (LineTables.trace base other (other.length + 1) table base.length other.length _ >>= _) = _
  rw [hknown.matched hfits]
  show ((List.range base.length).reverse.foldlM
    (suffixStep base other (other.length + 1) (total base other) table) _ >>= _) = _
  rw [hok, hflags]
  rfl

end known

end LineTables

end Javelin
