import Javelin.Alignment
import Mathlib.Algebra.Order.Group.Int
import Mathlib.Logic.Function.Basic

/-! # The greedy search for a shortest edit script

A path through the grid of two lists goes right where an element of the first is dropped, down where one of
the second is inserted, and along a diagonal where two equal elements are kept.  Step `d` of the search knows
for each diagonal the furthest point that `d` edits lead to.

A point beyond the grid is never the end (`reach_eq_end`): one edit less would have been enough.  So the pairs
found are equal elements in ascending order (`myers_ascends`). -/

namespace Javelin

variable {α : Type} [DecidableEq α]

/-- How many leading elements two lists share. -/
def commonPrefix : List α → List α → ℕ
  | x :: a, y :: b => if x = y then commonPrefix a b + 1 else 0
  | _, _ => 0

theorem commonPrefix_le (a b : List α) : commonPrefix a b ≤ a.length ∧ commonPrefix a b ≤ b.length := by
  induction a generalizing b with
  | nil => exact ⟨Nat.zero_le _, Nat.zero_le _⟩
  | cons x a ih =>
      cases b with
      | nil => exact ⟨Nat.zero_le _, Nat.zero_le _⟩
      | cons y b =>
          unfold commonPrefix
          obtain ⟨ha, hb⟩ := ih b
          rw [List.length_cons, List.length_cons]
          split
          · omega
          · omega

theorem exists_commonPrefix {a b : List α} {i : ℕ} (hi : i < commonPrefix a b) :
    ∃ x, a[i]? = some x ∧ b[i]? = some x := by
  induction a generalizing b i with
  | nil => exact absurd hi (Nat.not_lt_zero _)
  | cons x a ih =>
      cases b with
      | nil => exact absurd hi (Nat.not_lt_zero _)
      | cons y b =>
          unfold commonPrefix at hi
          split at hi
          · rename_i he
            cases i with
            | zero => exact ⟨x, rfl, by rw [he]; rfl⟩
            | succ i => exact ih (by omega)
          · exact absurd hi (Nat.not_lt_zero _)

/-! ### The search -/

/-- The furthest position in the first list on each diagonal `x - y`. -/
abbrev Front := ℤ → ℤ

/-- The furthest path to a diagonal comes from above rather than from the left. -/
def Front.Down (v : Front) (d k : ℤ) : Prop := k = -d ∨ (k ≠ d ∧ v (k - 1) < v (k + 1))

instance (v : Front) (d k : ℤ) : Decidable (v.Down d k) := inferInstanceAs (Decidable (_ ∨ _))

/-- Where the last edit leads to on a diagonal. -/
def Front.start (v : Front) (d k : ℤ) : ℤ := if v.Down d k then v (k + 1) else v (k - 1) + 1

/-- The diagonals that `d` edits lead to. -/
def diagonals (d : ℕ) : List ℤ := (List.range (d + 1)).map (fun i : ℕ => 2 * (i : ℤ) - d)

section search
variable (a b : List α)

/-- The furthest point on a diagonal: the last edit, and then all equal elements. -/
def reach (v : Front) (d k : ℤ) : ℤ :=
  v.start d k + commonPrefix (a.drop (v.start d k).toNat) (b.drop (v.start d k - k).toNat)

/-- One step over the diagonals left; the flag says that the end was reached. -/
def advance (d : ℤ) : List ℤ → Front → Front × Bool
  | [], v => (v, false)
  | k :: ks, v =>
      let x := reach a b v d k
      let v := Function.update v k x
      if (a.length : ℤ) ≤ x ∧ (b.length : ℤ) ≤ x - k then (v, true) else advance d ks v

end search

/-- The matched pairs of so many diagonal moves that lead to a point, the last one first. -/
def slide : ℕ → ℤ → ℤ → List (ℕ × ℕ)
  | 0, _, _ => []
  | n + 1, x, y => ((x - 1).toNat, (y - 1).toNat) :: slide n (x - 1) (y - 1)

/-- The matched pairs of the path to a point, the last one first.  The trace holds the fronts of the steps
before, the latest first. -/
def backtrack : List Front → ℤ → ℤ → List (ℕ × ℕ)
  | [], x, y => slide (min x y).toNat x y
  | v :: trace, x, y =>
      let k := x - y
      let before := if v.Down (trace.length + 1) k then k + 1 else k - 1
      slide (min (x - v before) (y - (v before - before))).toNat x y ++
        backtrack trace (v before) (v before - before)

/-- The front after the last step. -/
def latest : List Front → Front
  | [] => fun _ => 0
  | v :: _ => v

section search
variable (a b : List α)

def search : ℕ → List Front → List (ℕ × ℕ)
  | 0, _ => []
  | n + 1, trace =>
      match advance a b trace.length (diagonals trace.length) (latest trace) with
      | (_, true) => (backtrack trace a.length b.length).reverse
      | (v, false) => search n (v :: trace)

/-- Matched index pairs of a shortest edit script, or none past `limit` edits. -/
def myers (limit : ℕ) : List (ℕ × ℕ) := search a b (min (a.length + b.length) limit + 1) []

end search

/-! ### Steps -/

theorem mem_diagonals {d : ℕ} {k : ℤ} : k ∈ diagonals d ↔ -(d : ℤ) ≤ k ∧ k ≤ d ∧ (k + d) % 2 = 0 := by
  unfold diagonals
  rw [List.mem_map]
  constructor
  · intro h
    obtain ⟨i, hi, rfl⟩ := h
    rw [List.mem_range] at hi
    omega
  · intro h
    refine ⟨((k + d) / 2).toNat, ?_, ?_⟩
    · rw [List.mem_range]
      omega
    · omega

section steps
variable {a b : List α} {v v' : Front} {d k : ℤ}

theorem start_congr (hleft : v (k - 1) = v' (k - 1)) (hright : v (k + 1) = v' (k + 1)) :
    v.start d k = v'.start d k := by
  have hdown : v.Down d k ↔ v'.Down d k := by
    unfold Front.Down
    rw [hleft, hright]
  unfold Front.start
  by_cases h : v.Down d k
  · rw [if_pos h, if_pos (hdown.mp h), hright]
  · rw [if_neg h, if_neg (fun h' => h (hdown.mpr h')), hleft]

theorem reach_congr (hleft : v (k - 1) = v' (k - 1)) (hright : v (k + 1) = v' (k + 1)) :
    reach a b v d k = reach a b v' d k := by
  unfold reach
  rw [start_congr hleft hright]

theorem le_start_left (hk : k ≠ -d) : v (k - 1) + 1 ≤ v.start d k := by
  unfold Front.start
  split
  · rename_i hdown
    cases hdown with
    | inl he => exact absurd he hk
    | inr hlt => exact hlt.2
  · exact le_refl _

theorem le_start_right (hk : k ≠ d) : v (k + 1) ≤ v.start d k := by
  unfold Front.start
  split
  · exact le_refl _
  · rename_i hdown
    unfold Front.Down at hdown
    omega

theorem start_le_reach : v.start d k ≤ reach a b v d k := by
  unfold reach
  omega

/-- Whatever lies beyond the grid was not reached by equal elements. -/
theorem reach_beyond (hx : 0 ≤ v.start d k) (hy : k ≤ v.start d k)
    (h : (a.length : ℤ) < reach a b v d k ∨ (b.length : ℤ) < reach a b v d k - k) :
    reach a b v d k = v.start d k := by
  obtain ⟨ha, hb⟩ := commonPrefix_le (a.drop (v.start d k).toNat) (b.drop (v.start d k - k).toNat)
  rw [List.length_drop] at ha hb
  unfold reach at h ⊢
  omega

/-- The end is reached on a diagonal. -/
def AtEnd (a b : List α) (k x : ℤ) : Prop := (a.length : ℤ) ≤ x ∧ (b.length : ℤ) ≤ x - k

/-- A step gives every diagonal its furthest point, unless it gets to the end. -/
theorem advance_spec (a b : List α) (d : ℤ) (ks : List ℤ) (v : Front) (before : Front)
    (hks : ∀ k ∈ ks, (k + d) % 2 = 0) (hv : ∀ k, (k + d) % 2 = 1 → v k = before k) :
    ((advance a b d ks v).2 = true → ∃ k ∈ ks, AtEnd a b k (reach a b before d k)) ∧
      ((advance a b d ks v).2 = false →
        (∀ k ∈ ks, (advance a b d ks v).1 k = reach a b before d k ∧ ¬ AtEnd a b k (reach a b before d k)) ∧
          ∀ k, k ∉ ks → (advance a b d ks v).1 k = v k) := by
  induction ks generalizing v with
  | nil =>
      refine ⟨fun h => ?_, fun _ => ⟨fun k hk => ?_, fun _ _ => rfl⟩⟩
      · cases h
      · cases hk
  | cons k ks ih =>
      have hk := hks k List.mem_cons_self
      have hreach : reach a b v d k = reach a b before d k :=
        reach_congr (hv _ (by omega)) (hv _ (by omega))
      unfold advance
      dsimp only
      split
      · rename_i hend
        rw [hreach] at hend
        exact ⟨fun _ => ⟨k, List.mem_cons_self, hend⟩, fun h => by cases h⟩
      · rename_i hend
        rw [hreach] at hend ⊢
        have hnext : ∀ j, (j + d) % 2 = 1 → Function.update v k (reach a b before d k) j = before j := by
          intro j hj
          rw [Function.update_of_ne (by rintro rfl; omega)]
          exact hv j hj
        obtain ⟨hstop, hgo⟩ := ih _ (fun j hj => hks j (List.mem_cons_of_mem _ hj)) hnext
        refine ⟨fun h => ?_, fun h => ?_⟩
        · obtain ⟨j, hj, hat⟩ := hstop h
          exact ⟨j, List.mem_cons_of_mem _ hj, hat⟩
        · obtain ⟨hin, hout⟩ := hgo h
          refine ⟨fun j hj => ?_, fun j hj => ?_⟩
          · by_cases hm : j ∈ ks
            · exact hin j hm
            · have he : j = k := (List.mem_cons.mp hj).resolve_right hm
              rw [he] at hm ⊢
              exact ⟨(hout k hm).trans (Function.update_self _ _ _), hend⟩
          · rw [List.mem_cons, not_or] at hj
            exact (hout j hj.2).trans (Function.update_of_ne hj.1 _ _)

end steps

/-! ### Traces -/

/-- Each front comes from the one before, and none is at the end. -/
inductive Traced (a b : List α) : List Front → Prop
  | nil : Traced a b []
  | cons {v : Front} {trace : List Front} : Traced a b trace →
      (∀ k ∈ diagonals trace.length, v k = reach a b (latest trace) trace.length k ∧ ¬ AtEnd a b k (v k)) →
      Traced a b (v :: trace)

section traced
variable {a b : List α} {v : Front} {trace : List Front} {k : ℤ}

theorem start_nonneg (h : Traced a b trace) (hk : k ∈ diagonals trace.length) :
    0 ≤ (latest trace).start trace.length k ∧ k ≤ (latest trace).start trace.length k := by
  induction h generalizing k with
  | nil =>
      rw [mem_diagonals] at hk
      have h0 : k = 0 := by simp at hk; omega
      rw [h0]
      exact ⟨le_refl _, le_refl _⟩
  | @cons v trace htrace hv ih =>
      rw [mem_diagonals, List.length_cons] at hk
      have hpoint : ∀ j ∈ diagonals trace.length, 0 ≤ v j ∧ j ≤ v j := by
        intro j hj
        rw [(hv j hj).1]
        obtain ⟨hx, hy⟩ := ih hj
        exact ⟨hx.trans start_le_reach, hy.trans start_le_reach⟩
      show 0 ≤ v.start _ k ∧ k ≤ v.start _ k
      rw [List.length_cons]
      by_cases hlow : k = -((trace.length : ℤ) + 1)
      · have hright := hpoint (k + 1) (mem_diagonals.mpr (by omega))
        have hle : v (k + 1) ≤ v.start ((trace.length + 1 : ℕ) : ℤ) k := le_start_right (by push_cast; omega)
        omega
      · have hleft := hpoint (k - 1) (mem_diagonals.mpr (by push_cast at hk; omega))
        have hle : v (k - 1) + 1 ≤ v.start ((trace.length + 1 : ℕ) : ℤ) k := le_start_left (by push_cast; omega)
        omega

/-- The front before a diagonal is where the next one starts from. -/
theorem Traced.point (h : Traced a b (v :: trace)) (hk : k ∈ diagonals trace.length) :
    v k = reach a b (latest trace) trace.length k ∧ ¬ AtEnd a b k (v k) := by
  cases h with
  | cons _ hv => exact hv k hk

theorem Traced.tail (h : Traced a b (v :: trace)) : Traced a b trace := by
  cases h with
  | cons htrace _ => exact htrace

theorem length_cons_cast : (((v :: trace).length : ℕ) : ℤ) = trace.length + 1 := by simp

/-- A point right of the grid was reached from one that is right of it but for one step. -/
theorem left_of_beyond (h : Traced a b trace) (hk : k ∈ diagonals trace.length)
    (hx : (a.length : ℤ) < reach a b (latest trace) trace.length k) :
    trace ≠ [] ∧ k ≠ -(trace.length : ℤ) ∧
      reach a b (latest trace) trace.length k - 1 ≤ latest trace (k - 1) := by
  induction trace generalizing k with
  | nil =>
      have hstart := reach_beyond (start_nonneg h hk).1 (start_nonneg h hk).2 (.inl hx)
      obtain rfl : k = 0 := by
        rw [mem_diagonals, List.length_nil] at hk
        omega
      have hzero : (latest []).start (([] : List Front).length : ℤ) 0 = 0 := rfl
      omega
  | cons v trace ih =>
      have hstart := reach_beyond (start_nonneg h hk).1 (start_nonneg h hk).2 (.inl hx)
      rw [hstart] at hx ⊢
      rw [mem_diagonals] at hk
      rw [length_cons_cast] at hk hx ⊢
      refine ⟨List.cons_ne_nil _ _, ?_⟩
      change (a.length : ℤ) < v.start _ k at hx
      show _ ∧ v.start _ k - 1 ≤ v (k - 1)
      unfold Front.start at hx ⊢
      by_cases hdown : v.Down (trace.length + 1) k
      · rw [if_pos hdown] at hx ⊢
        -- The last edit went down, so the point above is right of the grid as well.
        have hhigh : k ≠ (trace.length : ℤ) + 1 := by
          unfold Front.Down at hdown
          omega
        have hup : k + 1 ∈ diagonals trace.length := mem_diagonals.mpr (by omega)
        obtain ⟨hv, _⟩ := h.point hup
        rw [hv] at hx
        obtain ⟨_, hlow, hle⟩ := ih h.tail hup hx
        rw [← hv, Int.add_sub_cancel] at hle
        have hleft : k - 1 ∈ diagonals trace.length := mem_diagonals.mpr (by omega)
        have hright : latest trace (k - 1 + 1) ≤ (latest trace).start trace.length (k - 1) :=
          le_start_right (by omega)
        rw [Int.sub_add_cancel] at hright
        have hreach := (h.point hleft).1
        have hstep : (latest trace).start trace.length (k - 1) ≤ v (k - 1) := by
          rw [hreach]
          exact start_le_reach
        omega
      · rw [if_neg hdown] at hx ⊢
        unfold Front.Down at hdown
        omega

/-- A point below the grid was reached from one that is below it but for one step. -/
theorem above_of_beyond (h : Traced a b trace) (hk : k ∈ diagonals trace.length)
    (hy : (b.length : ℤ) < reach a b (latest trace) trace.length k - k) :
    trace ≠ [] ∧ k ≠ trace.length ∧ reach a b (latest trace) trace.length k ≤ latest trace (k + 1) := by
  induction trace generalizing k with
  | nil =>
      have hstart := reach_beyond (start_nonneg h hk).1 (start_nonneg h hk).2 (.inr hy)
      obtain rfl : k = 0 := by
        rw [mem_diagonals, List.length_nil] at hk
        omega
      have hzero : (latest []).start (([] : List Front).length : ℤ) 0 = 0 := rfl
      omega
  | cons v trace ih =>
      have hstart := reach_beyond (start_nonneg h hk).1 (start_nonneg h hk).2 (.inr hy)
      rw [hstart] at hy ⊢
      rw [mem_diagonals] at hk
      rw [length_cons_cast] at hk hy ⊢
      refine ⟨List.cons_ne_nil _ _, ?_⟩
      change (b.length : ℤ) < v.start _ k - k at hy
      show _ ∧ v.start _ k ≤ v (k + 1)
      unfold Front.start at hy ⊢
      by_cases hdown : v.Down (trace.length + 1) k
      · rw [if_pos hdown]
        unfold Front.Down at hdown
        omega
      · rw [if_neg hdown] at hy ⊢
        -- The last edit went right, so the point on the left is below the grid as well.
        have hlow : k ≠ -((trace.length : ℤ) + 1) := fun he => hdown (.inl he)
        have hback : k - 1 ∈ diagonals trace.length := mem_diagonals.mpr (by omega)
        obtain ⟨hv, _⟩ := h.point hback
        have hy' : (b.length : ℤ) < reach a b (latest trace) trace.length (k - 1) - (k - 1) := by
          rw [← hv]
          omega
        obtain ⟨_, hhigh, hle⟩ := ih h.tail hback hy'
        rw [← hv, Int.sub_add_cancel] at hle
        have hup : k + 1 ∈ diagonals trace.length := mem_diagonals.mpr (by omega)
        have hleft : latest trace (k + 1 - 1) + 1 ≤ (latest trace).start trace.length (k + 1) :=
          le_start_left (by omega)
        rw [Int.add_sub_cancel] at hleft
        have hreach := (h.point hup).1
        have hstep : (latest trace).start trace.length (k + 1) ≤ v (k + 1) := by
          rw [hreach]
          exact start_le_reach
        omega

/-- The search ends exactly in the corner of the grid. -/
theorem reach_eq_end (h : Traced a b trace) (hk : k ∈ diagonals trace.length)
    (hend : AtEnd a b k (reach a b (latest trace) trace.length k)) :
    reach a b (latest trace) trace.length k = a.length ∧ k = a.length - b.length := by
  have hx : ¬ (a.length : ℤ) < reach a b (latest trace) trace.length k := by
    intro hx
    obtain ⟨hne, hlow, hle⟩ := left_of_beyond h hk hx
    obtain ⟨v, trace, rfl⟩ := List.exists_cons_of_ne_nil hne
    rw [mem_diagonals] at hk
    rw [length_cons_cast] at hk hlow
    have hpoint := (h.point (k := k - 1) (mem_diagonals.mpr (by omega))).2
    change _ ≤ v (k - 1) at hle
    unfold AtEnd at hend hpoint
    omega
  have hy : ¬ (b.length : ℤ) < reach a b (latest trace) trace.length k - k := by
    intro hy
    obtain ⟨hne, hhigh, hle⟩ := above_of_beyond h hk hy
    obtain ⟨v, trace, rfl⟩ := List.exists_cons_of_ne_nil hne
    rw [mem_diagonals] at hk
    rw [length_cons_cast] at hk hhigh
    have hpoint := (h.point (k := k + 1) (mem_diagonals.mpr (by omega))).2
    change _ ≤ v (k + 1) at hle
    unfold AtEnd at hend hpoint
    omega
  unfold AtEnd at hend
  omega

end traced

/-! ### Backtracking -/

/-- Equal elements at descending positions below a point. -/
inductive Falls (a b : List α) : ℤ → ℤ → List (ℕ × ℕ) → Prop
  | nil {x y : ℤ} : Falls a b x y []
  | cons {x y : ℤ} {i j : ℕ} {e : α} {pairs : List (ℕ × ℕ)} : (i : ℤ) < x → (j : ℤ) < y → a[i]? = some e →
      b[j]? = some e → Falls a b i j pairs → Falls a b x y ((i, j) :: pairs)

section falls
variable {a b : List α} {x y x' y' : ℤ} {pairs : List (ℕ × ℕ)}

omit [DecidableEq α] in
theorem Falls.mono (h : Falls a b x y pairs) (hx : x ≤ x') (hy : y ≤ y') : Falls a b x' y' pairs := by
  cases h with
  | nil => exact .nil
  | cons hi hj ha hb hrest => exact .cons (hi.trans_le hx) (hj.trans_le hy) ha hb hrest

omit [DecidableEq α] in
theorem falls_slide {s t n : ℕ} (h : Falls a b s t pairs)
    (heq : ∀ i < n, ∃ e, a[s + i]? = some e ∧ b[t + i]? = some e) :
    Falls a b (s + n) (t + n) (slide n (s + n) (t + n) ++ pairs) := by
  induction n with
  | zero => exact h.mono (by simp) (by simp)
  | succ n ih =>
      obtain ⟨e, ha, hb⟩ := heq n (Nat.lt_succ_self n)
      have hrest := ih (fun i hi => heq i (hi.trans (Nat.lt_succ_self n)))
      have hs : ((s : ℤ) + (n + 1 : ℕ) - 1) = (s + n : ℕ) := by omega
      have ht : ((t : ℤ) + (n + 1 : ℕ) - 1) = (t + n : ℕ) := by omega
      unfold slide
      rw [hs, ht, Int.toNat_natCast, Int.toNat_natCast]
      rw [← Int.natCast_add, ← Int.natCast_add] at hrest
      exact .cons (by omega) (by omega) ha hb hrest

end falls

section backtrack
variable {a b : List α} {trace : List Front} {k : ℤ} {pairs : List (ℕ × ℕ)}

/-- The diagonal moves to the furthest point of a diagonal. -/
theorem falls_reach {v : Front} {d : ℤ} (hx : 0 ≤ v.start d k) (hy : k ≤ v.start d k)
    (h : Falls a b (v.start d k) (v.start d k - k) pairs) {n : ℤ} (hn : n = reach a b v d k - v.start d k) :
    Falls a b (reach a b v d k) (reach a b v d k - k)
      (slide n.toNat (reach a b v d k) (reach a b v d k - k) ++ pairs) := by
  obtain ⟨s, hs⟩ := Int.eq_ofNat_of_zero_le hx
  obtain ⟨t, ht⟩ := Int.eq_ofNat_of_zero_le (Int.sub_nonneg_of_le hy)
  have hreach : reach a b v d k = s + commonPrefix (a.drop s) (b.drop t) := by
    unfold reach
    rw [ht, hs, Int.toNat_natCast, Int.toNat_natCast]
  have hk : reach a b v d k - k = t + commonPrefix (a.drop s) (b.drop t) := by omega
  have hcount : n.toNat = commonPrefix (a.drop s) (b.drop t) := by omega
  rw [hk, hreach, hcount]
  rw [ht, hs] at h
  refine falls_slide h (fun i hi => ?_)
  obtain ⟨e, ha, hb⟩ := exists_commonPrefix hi
  rw [List.getElem?_drop] at ha hb
  exact ⟨e, ha, hb⟩

theorem falls_backtrack (h : Traced a b trace) (hk : k ∈ diagonals trace.length) :
    Falls a b (reach a b (latest trace) trace.length k) (reach a b (latest trace) trace.length k - k)
      (backtrack trace (reach a b (latest trace) trace.length k)
        (reach a b (latest trace) trace.length k - k)) := by
  induction trace generalizing k with
  | nil =>
      obtain ⟨hx, hy⟩ := start_nonneg h hk
      obtain rfl : k = 0 := by
        rw [mem_diagonals, List.length_nil] at hk
        omega
      have hzero : (latest []).start (([] : List Front).length : ℤ) 0 = 0 := rfl
      have hfalls := falls_reach (a := a) (b := b) hx hy .nil rfl
      unfold backtrack
      rw [List.append_nil] at hfalls
      rw [hzero, Int.sub_zero] at hfalls
      rwa [Int.sub_zero, min_self]
  | cons v trace ih =>
      obtain ⟨hx, hy⟩ := start_nonneg h hk
      rw [mem_diagonals] at hk
      rw [length_cons_cast] at hk hx hy ⊢
      unfold backtrack
      change 0 ≤ v.start (trace.length + 1) k at hx
      change k ≤ v.start (trace.length + 1) k at hy
      rw [Int.sub_sub_self]
      dsimp only [latest]
      have hpoint : ∀ j ∈ diagonals trace.length, Falls a b (v j) (v j - j) (backtrack trace (v j) (v j - j)) := by
        intro j hj
        rw [(h.point hj).1]
        exact ih h.tail hj
      by_cases hdown : v.Down (trace.length + 1) k
      · rw [if_pos hdown]
        have hstart : v.start (trace.length + 1) k = v (k + 1) := if_pos hdown
        have hhigh : k ≠ (trace.length : ℤ) + 1 := by
          unfold Front.Down at hdown
          omega
        have hfalls := hpoint (k + 1) (mem_diagonals.mpr (by omega))
        refine falls_reach hx hy ?_ ?_
        · rw [hstart]
          exact hfalls.mono (le_refl _) (by omega)
        · rw [hstart]
          omega
      · rw [if_neg hdown]
        have hstart : v.start (trace.length + 1) k = v (k - 1) + 1 := if_neg hdown
        have hlow : k ≠ -((trace.length : ℤ) + 1) := fun he => hdown (.inl he)
        have hfalls := hpoint (k - 1) (mem_diagonals.mpr (by omega))
        refine falls_reach hx hy ?_ ?_
        · rw [hstart]
          exact hfalls.mono (by omega) (by omega)
        · rw [hstart]
          omega

end backtrack

/-! ### The pairs found -/

/-- Equal elements at ascending positions. -/
structure Ascends (a b : List α) (pairs : List (ℕ × ℕ)) : Prop where
  equal : ∀ p ∈ pairs, ∃ e, a[p.1]? = some e ∧ b[p.2]? = some e
  ascending : pairs.Pairwise (fun p q => p.1 < q.1 ∧ p.2 < q.2)

section found
variable {a b : List α} {x y : ℤ} {pairs : List (ℕ × ℕ)}

omit [DecidableEq α] in
theorem Falls.ascends (h : Falls a b x y pairs) :
    Ascends a b pairs.reverse ∧ ∀ p ∈ pairs, (p.1 : ℤ) < x ∧ (p.2 : ℤ) < y := by
  induction h with
  | nil => exact ⟨⟨fun p hp => (by cases hp), .nil⟩, fun p hp => (by cases hp)⟩
  | @cons x y i j e pairs hi hj ha hb _ ih =>
      obtain ⟨⟨hequal, hascending⟩, hbelow⟩ := ih
      refine ⟨⟨fun p hp => ?_, ?_⟩, fun p hp => ?_⟩
      · rw [List.reverse_cons, List.mem_append, List.mem_singleton] at hp
        cases hp with
        | inl hp => exact hequal p hp
        | inr he =>
            rw [he]
            exact ⟨e, ha, hb⟩
      · rw [List.reverse_cons, List.pairwise_append]
        refine ⟨hascending, List.pairwise_singleton _ _, fun p hp q hq => ?_⟩
        have hlt := hbelow p (List.mem_reverse.mp hp)
        rw [List.mem_singleton.mp hq]
        exact ⟨Int.ofNat_lt.mp hlt.1, Int.ofNat_lt.mp hlt.2⟩
      · cases List.mem_cons.mp hp with
        | inl he =>
            rw [he]
            exact ⟨hi, hj⟩
        | inr hp =>
            have hlt := hbelow p hp
            exact ⟨hlt.1.trans hi, hlt.2.trans hj⟩

theorem search_ascends {n : ℕ} {trace : List Front} (h : Traced a b trace) : Ascends a b (search a b n trace) := by
  induction n generalizing trace with
  | zero => exact ⟨fun p hp => (by cases hp), .nil⟩
  | succ n ih =>
      obtain ⟨hstop, hgo⟩ := advance_spec a b trace.length (diagonals trace.length) (latest trace) (latest trace)
        (fun k hk => (mem_diagonals.mp hk).2.2) (fun _ _ => rfl)
      unfold search
      cases hstep : advance a b trace.length (diagonals trace.length) (latest trace) with
      | mk v stopped =>
          rw [hstep] at hstop hgo
          cases stopped with
          | true =>
              obtain ⟨k, hk, hend⟩ := hstop rfl
              obtain ⟨hx, hdiagonal⟩ := reach_eq_end h hk hend
              have hfalls := falls_backtrack h hk
              rw [hx, hdiagonal, Int.sub_sub_self] at hfalls
              exact hfalls.ascends.1
          | false =>
              refine ih (.cons h (fun k hk => ?_))
              obtain ⟨hv, hnot⟩ := (hgo rfl).1 k hk
              change v k = _ at hv
              exact ⟨hv, by rw [hv]; exact hnot⟩

theorem myers_ascends (a b : List α) (limit : ℕ) : Ascends a b (myers a b limit) := search_ascends .nil

end found

/-! ### Line matching -/

/-- Lines are numbered in the order of their first occurrence; `Arrays.asU32` is the width of a number. -/
def intern (ids : List α) (line : α) : ℕ × List α :=
  (ids.idxOf line, if line ∈ ids then ids else ids ++ [line])

def internAll (ids : List α) : List α → List ℕ × List α
  | [] => ([], ids)
  | line :: lines =>
      let (id, ids) := intern ids line
      let (numbers, ids) := internAll ids lines
      (id :: numbers, ids)

def MAX_EDITS : ℕ := 2048

/-- Sets the slot of each pair's second index to its first. -/
def assign (result : List (Option ℕ)) (pairs : List (ℕ × ℕ)) : List (Option ℕ) :=
  pairs.foldl (fun result p => result.set p.2 (some p.1)) result

/-- How many trailing elements two lists share after the leading ones. -/
def commonSuffix (old new : List α) : ℕ :=
  commonPrefix (old.drop (commonPrefix old new)).reverse (new.drop (commonPrefix old new)).reverse

/-- A list without so many leading and trailing elements. -/
def middle (l : List α) (front back : ℕ) : List α := (l.drop front).take (l.length - back - front)

/-- For each line of `new` the index of the unchanged `old` line it continues.  Beyond `MAX_EDITS` edits the
middle is treated as rewritten. -/
def matching (old new : List α) : List (Option ℕ) :=
  let front := commonPrefix old new
  let back := commonSuffix old new
  let result := assign (List.replicate new.length none) ((List.range front).map (fun i => (i, i)))
  let result := assign result ((List.range back).map (fun k => (old.length - 1 - k, new.length - 1 - k)))
  -- Numbers of lines are compared rather than bytes.
  let (a, ids) := internAll [] (middle old front back)
  let (b, _) := internAll ids (middle new front back)
  assign result ((myers a b MAX_EDITS).map (fun p => (front + p.1, front + p.2)))

example : matching ["a", "b", "c", "d"] ["a", "x", "c", "d", "e"] = [some 0, none, some 2, some 3, none] := by
  decide +kernel

section matching
variable {ids lines : List α}

theorem internAll_spec (ids lines : List α) :
    ∃ more, (internAll ids lines).2 = ids ++ more ∧ (∀ x ∈ lines, x ∈ ids ++ more) ∧
      (internAll ids lines).1 = lines.map (fun x => (ids ++ more).idxOf x) := by
  induction lines generalizing ids with
  | nil => exact ⟨[], (List.append_nil _).symm, fun x hx => (by cases hx), rfl⟩
  | cons line lines ih =>
      by_cases hm : line ∈ ids
      · obtain ⟨more, hids, hmem, hnumbers⟩ := ih ids
        refine ⟨more, ?_, fun x hx => ?_, ?_⟩
        · simp only [internAll, intern, if_pos hm]
          exact hids
        · cases List.mem_cons.mp hx with
          | inl he => exact List.mem_append_left _ (he ▸ hm)
          | inr hx => exact hmem x hx
        · simp only [internAll, intern, if_pos hm, List.map_cons, List.idxOf_append_of_mem hm]
          rw [hnumbers]
      · obtain ⟨more, hids, hmem, hnumbers⟩ := ih (ids ++ [line])
        rw [List.append_assoc] at hids hmem hnumbers
        refine ⟨[line] ++ more, ?_, fun x hx => ?_, ?_⟩
        · simp only [internAll, intern, if_neg hm]
          exact hids
        · cases List.mem_cons.mp hx with
          | inl he => simp [he]
          | inr hx => exact hmem x hx
        · simp only [internAll, intern, if_neg hm, List.map_cons]
          rw [hnumbers, List.idxOf_append_of_notMem hm, List.idxOf_of_notMem hm]
          simp

omit [DecidableEq α] in
theorem assign_sound {result : List (Option ℕ)} {pairs : List (ℕ × ℕ)} {i j : ℕ}
    (h : (assign result pairs)[j]? = some (some i)) : result[j]? = some (some i) ∨ (i, j) ∈ pairs := by
  induction pairs generalizing result with
  | nil => exact .inl h
  | cons p pairs ih =>
      cases ih h with
      | inr hm => exact .inr (List.mem_cons_of_mem _ hm)
      | inl hset =>
          rw [List.getElem?_set] at hset
          split at hset
          · rename_i he
            split at hset
            · obtain rfl := Option.some.inj (Option.some.inj hset)
              exact .inr (by rw [← he]; exact List.mem_cons_self)
            · cases hset
          · exact .inl hset

@[simp] theorem length_assign (result : List (Option ℕ)) (pairs : List (ℕ × ℕ)) :
    (assign result pairs).length = result.length := by
  induction pairs generalizing result with
  | nil => rfl
  | cons p pairs ih =>
      show (assign (result.set p.2 (some p.1)) pairs).length = _
      rw [ih, List.length_set]

/-- Numbers are equal where lines are. -/
theorem Ascends.of_numbers {a b : List α} {pairs : List (ℕ × ℕ)}
    (h : Ascends (internAll [] a).1 (internAll (internAll [] a).2 b).1 pairs) : Ascends a b pairs := by
  obtain ⟨ids, hids, hmem, hnumbers⟩ := internAll_spec [] a
  obtain ⟨more, _, _, hnumbers'⟩ := internAll_spec (internAll [] a).2 b
  rw [List.nil_append] at hids hmem hnumbers
  rw [hnumbers', hnumbers, hids] at h
  refine ⟨fun p hp => ?_, h.ascending⟩
  obtain ⟨e, ha, hb⟩ := h.equal p hp
  rw [List.getElem?_map, Option.map_eq_some_iff] at ha hb
  obtain ⟨x, hx, hxe⟩ := ha
  obtain ⟨y, hy, hye⟩ := hb
  have hxm := hmem x (List.mem_of_getElem? hx)
  have hsame : (ids ++ more).idxOf x = (ids ++ more).idxOf y := by
    rw [List.idxOf_append_of_mem hxm]
    exact hxe.trans hye.symm
  rw [List.idxOf_inj (List.mem_append_left _ hxm)] at hsame
  exact ⟨x, hx, hsame ▸ hy⟩

omit [DecidableEq α] in
/-- Pairs that ascend in both indices compare alike in both. -/
theorem lt_of_ascending {pairs : List (ℕ × ℕ)} (h : pairs.Pairwise (fun p q => p.1 < q.1 ∧ p.2 < q.2)) {p q : ℕ × ℕ}
    (hp : p ∈ pairs) (hq : q ∈ pairs) (hlt : p.2 < q.2) : p.1 < q.1 := by
  have hsymm : ∀ p ∈ pairs, ∀ q ∈ pairs, p.2 < q.2 → p.1 < q.1 := by
    intro p hp q hq
    refine List.Pairwise.forall_of_forall_of_flip (R := fun p q : ℕ × ℕ => p.2 < q.2 → p.1 < q.1) ?_ ?_ ?_ hp hq
    · exact fun p _ hlt => absurd hlt (Nat.lt_irrefl _)
    · exact h.imp (fun hlt _ => hlt.1)
    · exact h.imp (fun hlt hgt => absurd hgt (by omega))
  exact hsymm p hp q hq hlt

theorem commonSuffix_le (old new : List α) : commonPrefix old new + commonSuffix old new ≤ old.length ∧
    commonPrefix old new + commonSuffix old new ≤ new.length := by
  obtain ⟨hold, hnew⟩ := commonPrefix_le old new
  obtain ⟨hold', hnew'⟩ :=
    commonPrefix_le (old.drop (commonPrefix old new)).reverse (new.drop (commonPrefix old new)).reverse
  rw [List.length_reverse, List.length_drop] at hold' hnew'
  unfold commonSuffix
  omega

theorem exists_commonSuffix {old new : List α} {k : ℕ} (hk : k < commonSuffix old new) :
    ∃ x, old[old.length - 1 - k]? = some x ∧ new[new.length - 1 - k]? = some x := by
  obtain ⟨hold, hnew⟩ := commonSuffix_le old new
  obtain ⟨x, ha, hb⟩ := exists_commonPrefix hk
  rw [List.getElem?_reverse (by rw [List.length_drop]; omega), List.getElem?_drop, List.length_drop] at ha hb
  refine ⟨x, ?_, ?_⟩
  · rw [← ha]
    congr 1
    omega
  · rw [← hb]
    congr 1
    omega

omit [DecidableEq α] in
theorem getElem?_middle {l : List α} {front back i : ℕ} {x : α} (h : (middle l front back)[i]? = some x) :
    i < l.length - back - front ∧ l[front + i]? = some x := by
  unfold middle at h
  rw [List.getElem?_take] at h
  split at h
  · rename_i hi
    rw [List.getElem?_drop] at h
    exact ⟨hi, h⟩
  · cases h

/-- The slots of the lines before, the lines after, and pairs between. -/
def fill (old new : List α) (pairs : List (ℕ × ℕ)) : List (Option ℕ) :=
  let result := assign (List.replicate new.length none) ((List.range (commonPrefix old new)).map (fun i => (i, i)))
  let result := assign result
    ((List.range (commonSuffix old new)).map (fun k => (old.length - 1 - k, new.length - 1 - k)))
  assign result (pairs.map (fun p => (commonPrefix old new + p.1, commonPrefix old new + p.2)))

/-- Ascending pairs of indices of the middles. -/
structure Fits (old new : List α) (pairs : List (ℕ × ℕ)) : Prop where
  range : ∀ p ∈ pairs, p.1 < (middle old (commonPrefix old new) (commonSuffix old new)).length ∧
    p.2 < (middle new (commonPrefix old new) (commonSuffix old new)).length
  ascending : pairs.Pairwise (fun p q => p.1 < q.1 ∧ p.2 < q.2)

omit [DecidableEq α] in
theorem length_middle {l : List α} {front back : ℕ} : (middle l front back).length = l.length - back - front := by
  unfold middle
  rw [List.length_take, List.length_drop]
  omega

/-- Where the slots come from. -/
theorem fill_sound {old new : List α} {pairs : List (ℕ × ℕ)} {i j : ℕ}
    (h : (fill old new pairs)[j]? = some (some i)) :
    (i = j ∧ i < commonPrefix old new) ∨
      (∃ k < commonSuffix old new, i = old.length - 1 - k ∧ j = new.length - 1 - k) ∨
      ∃ p ∈ pairs, i = commonPrefix old new + p.1 ∧ j = commonPrefix old new + p.2 := by
  unfold fill at h
  cases assign_sound h with
  | inr hm =>
      obtain ⟨p, hp, he⟩ := List.mem_map.mp hm
      cases he
      exact .inr (.inr ⟨p, hp, rfl, rfl⟩)
  | inl h =>
      cases assign_sound h with
      | inr hm =>
          obtain ⟨k, hk, he⟩ := List.mem_map.mp hm
          cases he
          exact .inr (.inl ⟨k, List.mem_range.mp hk, rfl, rfl⟩)
      | inl h =>
          cases assign_sound h with
          | inr hm =>
              obtain ⟨k, hk, he⟩ := List.mem_map.mp hm
              cases he
              exact .inl ⟨rfl, List.mem_range.mp hk⟩
          | inl h =>
              rw [List.getElem?_replicate] at h
              split at h
              · cases Option.some.inj h
              · cases h

/-- Slots stay in order and within `old`. -/
theorem Fits.ordered {old new : List α} {pairs : List (ℕ × ℕ)} (hfits : Fits old new pairs) {i j : ℕ}
    (h : (fill old new pairs)[j]? = some (some i)) :
    i < old.length ∧ ∀ i' j', j < j' → (fill old new pairs)[j']? = some (some i') → i < i' := by
  obtain ⟨hold, hnew⟩ := commonSuffix_le old new
  have hbounds := hfits.range
  simp only [length_middle] at hbounds
  constructor
  · obtain hfront | ⟨k, hk, rfl, rfl⟩ | ⟨p, hp, rfl, rfl⟩ := fill_sound h
    · omega
    · omega
    · have hb := hbounds p hp
      omega
  · intro i' j' hlt h'
    obtain hfront | ⟨k, hk, rfl, rfl⟩ | ⟨p, hp, rfl, rfl⟩ := fill_sound h
    all_goals obtain hfront' | ⟨k', hk', rfl, rfl⟩ | ⟨p', hp', rfl, rfl⟩ := fill_sound h'
    · omega
    · omega
    · omega
    · omega
    · omega
    · have hb := hbounds p' hp'
      omega
    · have hb := hbounds p hp
      omega
    · have hb := hbounds p hp
      omega
    · have hstep := lt_of_ascending hfits.ascending hp hp' (by omega)
      omega

theorem Ascends.fits {old new : List α} {pairs : List (ℕ × ℕ)}
    (h : Ascends (middle old (commonPrefix old new) (commonSuffix old new))
      (middle new (commonPrefix old new) (commonSuffix old new)) pairs) : Fits old new pairs where
  range p hp := by
    obtain ⟨_, ha, hb⟩ := h.equal p hp
    exact ⟨(List.getElem?_eq_some_iff.mp ha).1, (List.getElem?_eq_some_iff.mp hb).1⟩
  ascending := h.ascending

theorem alignment_fill {old new : List α} {pairs : List (ℕ × ℕ)}
    (hpairs : Ascends (middle old (commonPrefix old new) (commonSuffix old new))
      (middle new (commonPrefix old new) (commonSuffix old new)) pairs) :
    Alignment new old (fill old new pairs) := by
  refine ⟨by simp [fill], fun j i h => ?_, fun j j' i i' hlt h h' => (hpairs.fits.ordered h).2 i' j' hlt h'⟩
  cases fill_sound h with
  | inl hfront =>
      obtain ⟨rfl, hi⟩ := hfront
      obtain ⟨x, ha, hb⟩ := exists_commonPrefix hi
      exact ⟨x, hb, ha⟩
  | inr hrest =>
      cases hrest with
      | inl hback =>
          obtain ⟨k, hk, rfl, rfl⟩ := hback
          obtain ⟨x, ha, hb⟩ := exists_commonSuffix hk
          exact ⟨x, hb, ha⟩
      | inr hmiddle =>
          obtain ⟨p, hp, rfl, rfl⟩ := hmiddle
          obtain ⟨x, ha, hb⟩ := hpairs.equal p hp
          exact ⟨x, (getElem?_middle hb).2, (getElem?_middle ha).2⟩

/-- The pairs that `matching` finds in the middle. -/
def middlePairs (old new : List α) : List (ℕ × ℕ) :=
  let (a, ids) := internAll [] (middle old (commonPrefix old new) (commonSuffix old new))
  let (b, _) := internAll ids (middle new (commonPrefix old new) (commonSuffix old new))
  myers a b MAX_EDITS

theorem matching_eq_fill (old new : List α) : matching old new = fill old new (middlePairs old new) := rfl

/-- The lines that continue old ones do so unchanged and in order. -/
theorem alignment_matching (old new : List α) : Alignment new old (matching old new) :=
  alignment_fill (myers_ascends _ _ MAX_EDITS).of_numbers

end matching

end Javelin
