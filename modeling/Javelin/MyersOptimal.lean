import Javelin.Myers

/-! # A shortest edit script

A script of `d` edits turns one list into another by dropping `d` elements in all on either side and keeping
the others; it keeps a common subsequence (`script_iff`).  No path with as many edits is ahead of the greedy
search on its diagonal (`Path.le_reach`), so the search ends at the least number of edits
(`Traced.le_of_path`).  Its pairs are then a longest common subsequence, and it finds none if every script is
longer than the limit (`myers_optimal`). -/

namespace Javelin

/-! ### Scripts -/

/-- `d` elements are dropped on either side, and the others are equal. -/
inductive EditScript {α : Type} : List α → List α → ℕ → Prop
  | nil : EditScript [] [] 0
  | keep {x : α} {a b : List α} {d : ℕ} : EditScript a b d → EditScript (x :: a) (x :: b) d
  | remove {x : α} {a b : List α} {d : ℕ} : EditScript a b d → EditScript (x :: a) b (d + 1)
  | insert {y : α} {a b : List α} {d : ℕ} : EditScript a b d → EditScript a (y :: b) (d + 1)

section edits
variable {α : Type} {a b : List α} {d : ℕ}

theorem script_of_sublist {l : List α} (ha : l.Sublist a) (hb : l.Sublist b) :
    EditScript a b (a.length + b.length - 2 * l.length) := by
  induction ha generalizing b with
  | slnil =>
      rw [List.length_nil]
      clear hb
      induction b with
      | nil => exact .nil
      | cons y b ih => exact .insert (by simpa using ih)
  | @cons l a x ha ih =>
      have hrest := EditScript.remove (x := x) (ih hb)
      have h1 := ha.length_le
      have h2 := hb.length_le
      rw [List.length_cons]
      rwa [show a.length + 1 + b.length - 2 * l.length = a.length + b.length - 2 * l.length + 1 by omega]
  | @cons_cons l a x ha ih =>
      have hle := ha.length_le
      -- The first element of `b` is the one to keep or is dropped.
      induction b with
      | nil => cases hb
      | cons y b ihb =>
          cases hb with
          | cons _ hb =>
              have hrest := EditScript.insert (y := y) (ihb hb)
              have hle' := hb.length_le
              rw [List.length_cons] at hrest ⊢
              rw [List.length_cons, List.length_cons]
              rw [List.length_cons] at hrest hle'
              rwa [show a.length + 1 + (b.length + 1) - 2 * (l.length + 1) =
                a.length + 1 + b.length - 2 * (l.length + 1) + 1 by omega]
          | cons_cons _ hb =>
              have hrest := EditScript.keep (x := x) (ih hb)
              rw [List.length_cons, List.length_cons, List.length_cons]
              rwa [show a.length + 1 + (b.length + 1) - 2 * (l.length + 1) =
                a.length + b.length - 2 * l.length by omega]

/-- A script keeps a common subsequence. -/
theorem EditScript.exists_sublist (h : EditScript a b d) :
    ∃ l : List α, l.Sublist a ∧ l.Sublist b ∧ a.length + b.length = 2 * l.length + d := by
  induction h with
  | nil => exact ⟨[], .slnil, .slnil, rfl⟩
  | keep _ ih =>
      obtain ⟨l, ha, hb, hlength⟩ := ih
      refine ⟨_, ha.cons_cons _, hb.cons_cons _, ?_⟩
      rw [List.length_cons, List.length_cons, List.length_cons]
      omega
  | remove _ ih =>
      obtain ⟨l, ha, hb, hlength⟩ := ih
      refine ⟨l, ha.cons _, hb, ?_⟩
      rw [List.length_cons]
      omega
  | insert _ ih =>
      obtain ⟨l, ha, hb, hlength⟩ := ih
      refine ⟨l, ha, hb.cons _, ?_⟩
      rw [List.length_cons]
      omega

theorem script_iff : EditScript a b d ↔
    ∃ l : List α, l.Sublist a ∧ l.Sublist b ∧ a.length + b.length = 2 * l.length + d := by
  constructor
  · exact EditScript.exists_sublist
  · intro h
    obtain ⟨l, ha, hb, hlength⟩ := h
    have hedits := script_of_sublist ha hb
    rwa [show a.length + b.length - 2 * l.length = d by omega] at hedits

/-- Equal elements stay equal under a function. -/
theorem EditScript.map {β : Type} (f : α → β) (h : EditScript a b d) : EditScript (a.map f) (b.map f) d := by
  induction h with
  | nil => exact .nil
  | keep _ ih => exact .keep ih
  | remove _ ih => exact .remove ih
  | insert _ ih => exact .insert ih

theorem script_of_map {β : Type} {f : α → β} (hf : ∀ x ∈ a, ∀ y ∈ b, f x = f y → x = y)
    (h : EditScript (a.map f) (b.map f) d) : EditScript a b d := by
  generalize ha : a.map f = a' at h
  generalize hb : b.map f = b' at h
  induction h generalizing a b with
  | nil =>
      rw [List.map_eq_nil_iff.mp ha, List.map_eq_nil_iff.mp hb]
      exact .nil
  | keep _ ih =>
      obtain ⟨x, a, rfl, hx, ha'⟩ := List.map_eq_cons_iff.mp ha
      obtain ⟨y, b, rfl, hy, hb'⟩ := List.map_eq_cons_iff.mp hb
      have he := hf x List.mem_cons_self y List.mem_cons_self (hx.trans hy.symm)
      subst he
      exact .keep (ih (fun x hx y hy => hf x (List.mem_cons_of_mem _ hx) y (List.mem_cons_of_mem _ hy)) ha' hb')
  | remove _ ih =>
      obtain ⟨x, a, rfl, hx, ha⟩ := List.map_eq_cons_iff.mp ha
      exact .remove (ih (fun x hx => hf x (List.mem_cons_of_mem _ hx)) ha hb)
  | insert _ ih =>
      obtain ⟨y, b, rfl, hy, hb⟩ := List.map_eq_cons_iff.mp hb
      exact .insert (ih (fun x hx y hy => hf x hx y (List.mem_cons_of_mem _ hy)) ha hb)

/-- Lists have as long a common subsequence as their images under an injective function. -/
theorem isLcs_of_map {β : Type} {f : α → β} {n : ℕ} (hf : ∀ x ∈ a, ∀ y ∈ b, f x = f y → x = y)
    (h : IsLcs (a.map f) (b.map f) n) : IsLcs a b n := by
  refine ⟨?_, fun l ha hb => ?_⟩
  · obtain ⟨l, ha, hb, hlength⟩ := h.common
    obtain ⟨l', ha', hb', hlength'⟩ := (script_of_map hf (script_of_sublist ha hb)).exists_sublist
    have h1 := ha.length_le
    have h2 := hb.length_le
    rw [List.length_map] at h1 h2
    rw [List.length_map, List.length_map] at hlength'
    exact ⟨l', ha', hb', by omega⟩
  · have hle := h.le (l.map f) (ha.map f) (hb.map f)
    rwa [List.length_map] at hle

end edits

/-! ### Paths -/

/-- A path through the grid with so many edits. -/
inductive Path {α : Type} (a b : List α) : ℕ → ℕ → ℕ → Prop
  | start : Path a b 0 0 0
  | keep {d x y : ℕ} {e : α} : Path a b d x y → a[x]? = some e → b[y]? = some e → Path a b d (x + 1) (y + 1)
  | right {d x y : ℕ} : Path a b d x y → Path a b (d + 1) (x + 1) y
  | down {d x y : ℕ} : Path a b d x y → Path a b (d + 1) x (y + 1)

section paths
variable {α : Type} {a b : List α} {d : ℕ}

theorem Path.diagonal {x y : ℕ} (h : Path a b d x y) : (x : ℤ) - y ∈ diagonals d := by
  induction h with
  | start => exact mem_diagonals.mpr (by omega)
  | keep _ _ _ ih =>
      rw [mem_diagonals] at ih ⊢
      push_cast
      omega
  | right _ ih =>
      rw [mem_diagonals] at ih ⊢
      push_cast
      omega
  | down _ ih =>
      rw [mem_diagonals] at ih ⊢
      push_cast
      omega

/-- A script for the rest of the lists leads to the end. -/
theorem Path.of_edits {x y d' : ℕ} (h : Path a b d x y) (he : EditScript (a.drop x) (b.drop y) d')
    (hx : x ≤ a.length) (hy : y ≤ b.length) : Path a b (d + d') a.length b.length := by
  generalize hl : a.drop x = l at he
  generalize hr : b.drop y = r at he
  have hcons : ∀ {s l : List α} {e : α} {i : ℕ}, s.drop i = e :: l → s[i]? = some e ∧ s.drop (i + 1) = l := by
    intro s l e i hdrop
    constructor
    · rw [← Nat.add_zero i, ← List.getElem?_drop, hdrop]
      rfl
    · rw [← List.drop_drop, hdrop]
      rfl
  induction he generalizing d x y with
  | nil =>
      rw [List.drop_eq_nil_iff] at hl hr
      obtain rfl : x = a.length := by omega
      obtain rfl : y = b.length := by omega
      exact h
  | keep _ ih =>
      obtain ⟨hex, hl⟩ := hcons hl
      obtain ⟨hey, hr⟩ := hcons hr
      obtain ⟨hx, _⟩ := List.getElem?_eq_some_iff.mp hex
      obtain ⟨hy, _⟩ := List.getElem?_eq_some_iff.mp hey
      exact ih (h.keep hex hey) hx hy hl hr
  | @remove _ _ _ d' _ ih =>
      obtain ⟨hex, hl⟩ := hcons hl
      obtain ⟨hx, _⟩ := List.getElem?_eq_some_iff.mp hex
      rw [show d + (d' + 1) = d + 1 + d' by omega]
      exact ih h.right hx hy hl hr
  | @insert _ _ _ d' _ ih =>
      obtain ⟨hey, hr⟩ := hcons hr
      obtain ⟨hy, _⟩ := List.getElem?_eq_some_iff.mp hey
      rw [show d + (d' + 1) = d + 1 + d' by omega]
      exact ih h.down hx hy hl hr

theorem EditScript.path (h : EditScript a b d) : Path a b d a.length b.length := by
  have hpath := Path.of_edits (a := a) (b := b) .start h (Nat.zero_le _) (Nat.zero_le _)
  rwa [Nat.zero_add] at hpath

end paths

variable {α : Type} [DecidableEq α]

/-! ### Furthest points -/

theorem commonPrefix_maximal (a b : List α) {e : α} (ha : a[commonPrefix a b]? = some e) :
    b[commonPrefix a b]? ≠ some e := by
  induction a generalizing b with
  | nil => cases ha
  | cons x a ih =>
      cases b with
      | nil => exact fun hb => (by cases hb)
      | cons y b =>
          unfold commonPrefix at ha ⊢
          split at ha
          · rename_i he
            rw [if_pos he]
            rw [List.getElem?_cons_succ] at ha ⊢
            exact ih b ha
          · rename_i hne
            rw [if_neg hne]
            obtain rfl := Option.some.inj ha
            exact fun hb => hne (Option.some.inj hb).symm

theorem IsLcs.of_commonPrefix {a b : List α} {n : ℕ}
    (h : IsLcs (a.drop (commonPrefix a b)) (b.drop (commonPrefix a b)) n) : IsLcs a b (commonPrefix a b + n) := by
  induction a generalizing b with
  | nil =>
      rw [show commonPrefix [] b = 0 from rfl] at h ⊢
      rwa [Nat.zero_add]
  | cons x a ih =>
      cases b with
      | nil =>
          rw [show commonPrefix (x :: a) [] = 0 from rfl] at h ⊢
          rwa [Nat.zero_add]
      | cons y b =>
          unfold commonPrefix at h ⊢
          split at h
          · rename_i he
            subst he
            rw [if_pos rfl, Nat.add_right_comm]
            exact (ih h).cons_cons
          · rename_i hne
            rw [if_neg hne, Nat.zero_add]
            exact h

section furthest
variable {a b : List α} {trace : List Front} {d : ℕ}

/-- No path with as many edits is ahead of the search. -/
theorem Path.le_reach {x y : ℕ} (h : Path a b d x y) (ht : Traced a b trace) (hd : trace.length = d) :
    (x : ℤ) ≤ reach a b (latest trace) trace.length (x - y) := by
  induction h generalizing trace with
  | start =>
      have hstart := start_nonneg ht (k := 0) (mem_diagonals.mpr (by omega))
      exact hstart.1.trans start_le_reach
  | @keep d x y e hpath hex hey ih =>
      have hle := ih ht hd
      have hnonneg := start_nonneg ht (hd ▸ hpath.diagonal)
      rw [show ((x + 1 : ℕ) : ℤ) - ((y + 1 : ℕ) : ℤ) = (x : ℤ) - y by omega]
      by_contra hlt
      -- The search would have gone on past `x`.
      have hreach : reach a b (latest trace) trace.length (x - y) = x := by omega
      unfold reach at hreach
      generalize (latest trace).start trace.length (x - y) = s at hreach hnonneg
      have ha := commonPrefix_maximal (a.drop s.toNat) (b.drop (s - (x - y)).toNat) (e := e)
      rw [List.getElem?_drop, List.getElem?_drop,
        show s.toNat + commonPrefix (a.drop s.toNat) (b.drop (s - (x - y)).toNat) = x by omega,
        show (s - (x - y)).toNat + commonPrefix (a.drop s.toNat) (b.drop (s - (x - y)).toNat) = y by omega] at ha
      exact ha hex hey
  | @right d x y hpath ih =>
      cases trace with
      | nil => cases hd
      | cons v trace =>
          have hd' : trace.length = d := Nat.succ_inj.mp hd
          have hdiagonal := hd' ▸ hpath.diagonal
          have hle := ih ht.tail hd'
          rw [← (ht.point hdiagonal).1] at hle
          rw [mem_diagonals] at hdiagonal
          have hstart : v ((x : ℤ) + 1 - y - 1) + 1 ≤ v.start (trace.length + 1) ((x : ℤ) + 1 - y) :=
            le_start_left (by omega)
          rw [show (x : ℤ) + 1 - y - 1 = x - y by omega] at hstart
          have hreach := start_le_reach (a := a) (b := b) (v := v) (d := (trace.length : ℤ) + 1)
            (k := (x : ℤ) + 1 - y)
          rw [length_cons_cast]
          show ((x + 1 : ℕ) : ℤ) ≤ reach a b v _ _
          push_cast
          omega
  | @down d x y hpath ih =>
      cases trace with
      | nil => cases hd
      | cons v trace =>
          have hd' : trace.length = d := Nat.succ_inj.mp hd
          have hdiagonal := hd' ▸ hpath.diagonal
          have hle := ih ht.tail hd'
          rw [← (ht.point hdiagonal).1] at hle
          rw [mem_diagonals] at hdiagonal
          have hstart : v ((x : ℤ) - (y + 1) + 1) ≤ v.start (trace.length + 1) ((x : ℤ) - (y + 1)) :=
            le_start_right (by omega)
          rw [show (x : ℤ) - (y + 1) + 1 = x - y by omega] at hstart
          have hreach := start_le_reach (a := a) (b := b) (v := v) (d := (trace.length : ℤ) + 1)
            (k := (x : ℤ) - (y + 1))
          rw [length_cons_cast]
          show (x : ℤ) ≤ reach a b v _ _
          push_cast
          omega

/-- The search goes on only while no path with as many edits leads to the end. -/
theorem Traced.le_of_path (ht : Traced a b trace) (h : Path a b d a.length b.length) : trace.length ≤ d := by
  induction trace with
  | nil => exact Nat.zero_le _
  | cons v trace ih =>
      by_contra hlt
      obtain rfl : trace.length = d := by
        have hle := ih ht.tail
        rw [List.length_cons] at hlt
        omega
      have hle := h.le_reach ht.tail rfl
      obtain ⟨hv, hnot⟩ := ht.point h.diagonal
      rw [← hv] at hle
      unfold AtEnd at hnot
      omega

end furthest

/-! ### The number of pairs -/

section pairs
variable {a b : List α} {trace : List Front} {k : ℤ}

omit [DecidableEq α] in
theorem length_slide (n : ℕ) (x y : ℤ) : (slide n x y).length = n := by
  induction n generalizing x y with
  | zero => rfl
  | succ n ih => exact congrArg (· + 1) (ih _ _)

/-- Each step to a point is an edit or keeps one element on both sides. -/
theorem length_backtrack (h : Traced a b trace) (hk : k ∈ diagonals trace.length) :
    2 * ((backtrack trace (reach a b (latest trace) trace.length k)
        (reach a b (latest trace) trace.length k - k)).length : ℤ) + trace.length =
      2 * reach a b (latest trace) trace.length k - k := by
  induction trace generalizing k with
  | nil =>
      obtain rfl : k = 0 := by
        rw [mem_diagonals, List.length_nil] at hk
        omega
      have hstart := (start_nonneg h hk).1
      have hreach := hstart.trans (start_le_reach (a := a) (b := b))
      unfold backtrack
      rw [length_slide, List.length_nil, Int.sub_zero, min_self]
      rw [List.length_nil] at hreach
      omega
  | cons v trace ih =>
      have hreach := start_le_reach (a := a) (b := b) (v := v) (d := (trace.length : ℤ) + 1) (k := k)
      rw [mem_diagonals] at hk
      rw [length_cons_cast] at hk ⊢
      change 2 * (((backtrack (v :: trace) (reach a b v (trace.length + 1) k)
        (reach a b v (trace.length + 1) k - k)).length : ℕ) : ℤ) + _ = 2 * reach a b v (trace.length + 1) k - k
      unfold backtrack
      rw [Int.sub_sub_self, List.length_append, length_slide]
      have hpoint : ∀ j ∈ diagonals trace.length,
          2 * ((backtrack trace (v j) (v j - j)).length : ℤ) + trace.length = 2 * v j - j := by
        intro j hj
        rw [(h.point hj).1]
        exact ih h.tail hj
      by_cases hdown : v.Down (trace.length + 1) k
      · rw [if_pos hdown]
        have hstart : v.start (trace.length + 1) k = v (k + 1) := if_pos hdown
        have hhigh : k ≠ (trace.length : ℤ) + 1 := by
          unfold Front.Down at hdown
          omega
        have hrest := hpoint (k + 1) (mem_diagonals.mpr (by omega))
        push_cast
        omega
      · rw [if_neg hdown]
        have hstart : v.start (trace.length + 1) k = v (k - 1) + 1 := if_neg hdown
        have hlow : k ≠ -((trace.length : ℤ) + 1) := fun he => hdown (.inl he)
        have hrest := hpoint (k - 1) (mem_diagonals.mpr (by omega))
        push_cast
        omega

/-- The search ends at a number of edits, with the pairs of a path, or is cut off. -/
theorem search_cases {n : ℕ} (ht : Traced a b trace) :
    (∃ e, trace.length ≤ e ∧ e < trace.length + n ∧ (∀ d, Path a b d a.length b.length → e ≤ d) ∧
        2 * (search a b n trace).length + e = a.length + b.length) ∨
      ((∀ d, Path a b d a.length b.length → trace.length + n ≤ d) ∧ search a b n trace = []) := by
  induction n generalizing trace with
  | zero => exact .inr ⟨fun d h => ht.le_of_path h, rfl⟩
  | succ n ih =>
      obtain ⟨hstop, hgo⟩ := advance_spec a b trace.length (diagonals trace.length) (latest trace) (latest trace)
        (fun k hk => (mem_diagonals.mp hk).2.2) (fun _ _ => rfl)
      unfold search
      cases hstep : advance a b trace.length (diagonals trace.length) (latest trace) with
      | mk v stopped =>
          rw [hstep] at hstop hgo
          cases stopped with
          | true =>
              obtain ⟨k, hk, hend⟩ := hstop rfl
              obtain ⟨hx, hdiagonal⟩ := reach_eq_end ht hk hend
              have hlength := length_backtrack ht hk
              rw [hx, hdiagonal, Int.sub_sub_self] at hlength
              refine .inl ⟨trace.length, le_refl _, by omega, fun d h => ht.le_of_path h, ?_⟩
              dsimp only
              rw [List.length_reverse]
              omega
          | false =>
              have hnext : Traced a b (v :: trace) := by
                refine .cons ht (fun k hk => ?_)
                obtain ⟨hv, hnot⟩ := (hgo rfl).1 k hk
                change v k = _ at hv
                exact ⟨hv, by rw [hv]; exact hnot⟩
              have hrest := ih hnext
              rw [List.length_cons, show trace.length + 1 + n = trace.length + (n + 1) by omega] at hrest
              cases hrest with
              | inl hfound =>
                  obtain ⟨e, hlow, hrest⟩ := hfound
                  exact .inl ⟨e, by omega, hrest⟩
              | inr hcut => exact .inr hcut

omit [DecidableEq α] in
/-- The elements of the pairs are a common subsequence. -/
theorem Ascends.exists_sublist {pairs : List (ℕ × ℕ)} (h : Ascends a b pairs) :
    ∃ l : List α, l.Sublist a ∧ l.Sublist b ∧ l.length = pairs.length := by
  have hleft : ∀ p : {p // p ∈ pairs}, p.1.1 < a.length := by
    intro p
    obtain ⟨_, ha, _⟩ := h.equal p.1 p.2
    exact (List.getElem?_eq_some_iff.mp ha).1
  have hright : ∀ p : {p // p ∈ pairs}, p.1.2 < b.length := by
    intro p
    obtain ⟨_, _, hb⟩ := h.equal p.1 p.2
    exact (List.getElem?_eq_some_iff.mp hb).1
  have hpairs : pairs.attach.Pairwise (fun p q => p.1.1 < q.1.1 ∧ p.1.2 < q.1.2) := by
    rw [← List.pairwise_map (f := Subtype.val) (R := fun p q : ℕ × ℕ => p.1 < q.1 ∧ p.2 < q.2),
      List.attach_map_subtype_val]
    exact h.ascending
  have hlefts : (pairs.attach.map (fun p => (⟨p.1.1, hleft p⟩ : Fin a.length))).Pairwise (· < ·) :=
    List.pairwise_map.mpr (hpairs.imp (fun hlt => hlt.1))
  have hrights : (pairs.attach.map (fun p => (⟨p.1.2, hright p⟩ : Fin b.length))).Pairwise (· < ·) :=
    List.pairwise_map.mpr (hpairs.imp (fun hlt => hlt.2))
  have ha := List.map_getElem_sublist hlefts
  have hb := List.map_getElem_sublist hrights
  refine ⟨_, ha, ?_, by rw [List.length_map, List.length_map, List.length_attach]⟩
  convert hb using 1
  rw [List.map_map, List.map_map]
  apply List.map_congr_left
  intro p _
  obtain ⟨e, hea, heb⟩ := h.equal p.1 p.2
  obtain ⟨_, hea⟩ := List.getElem?_eq_some_iff.mp hea
  obtain ⟨_, heb⟩ := List.getElem?_eq_some_iff.mp heb
  exact hea.trans heb.symm

/-- The pairs found are a longest common subsequence if some script has at most `limit` edits, and there are
none otherwise. -/
theorem myers_optimal (a b : List α) (limit : ℕ) :
    ((∃ d ≤ limit, EditScript a b d) → IsLcs a b (myers a b limit).length) ∧
      ((¬ ∃ d ≤ limit, EditScript a b d) → myers a b limit = []) := by
  obtain ⟨l, ha, hb, hlength⟩ := (myers_ascends a b limit).exists_sublist
  have hcases := search_cases (a := a) (b := b) (n := min (a.length + b.length) limit + 1) Traced.nil
  rw [List.length_nil, Nat.zero_add] at hcases
  change (∃ e, _ ∧ _ ∧ _ ∧ 2 * (myers a b limit).length + e = _) ∨ (_ ∧ myers a b limit = []) at hcases
  cases hcases with
  | inl hfound =>
      obtain ⟨e, _, hlt, hleast, hcount⟩ := hfound
      refine ⟨fun _ => ⟨⟨l, ha, hb, hlength⟩, fun l' ha' hb' => ?_⟩, fun hnone => ?_⟩
      · have hle := hleast _ (script_of_sublist ha' hb').path
        have h1 := ha'.length_le
        have h2 := hb'.length_le
        omega
      · exact absurd ⟨e, by omega, script_iff.mpr ⟨l, ha, hb, by omega⟩⟩ hnone
  | inr hcut =>
      obtain ⟨hleast, hnil⟩ := hcut
      refine ⟨fun hsome => ?_, fun _ => hnil⟩
      obtain ⟨d, hd, hedits⟩ := hsome
      have hle := hleast d hedits.path
      obtain ⟨l', _, _, hlength'⟩ := hedits.exists_sublist
      omega

end pairs

end Javelin
