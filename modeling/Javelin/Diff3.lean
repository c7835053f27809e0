import Javelin.Matching
import Javelin.Path
import Mathlib.Data.List.Duplicate
import Mathlib.Data.List.NodupEquivFin

/-! # Merging lines

`diff3` without convergence.  Base lines matched on both sides are anchors; each region between
anchors is taken from the only side that changed it.  Changes of different sides must have an
anchor between them that every longest matching of both sides keeps and that occurs once in each
of the three texts.

Such anchors separate the result into segments that one side alone changed (`Separated`), and any
two longest alignments are cut at them.  So the result does not depend on how lines are matched:
all longest alignments have independent scripts, which give it (`diff3_sound`). -/

namespace Javelin

section merging
variable {α : Type} [DecidableEq α]

/-- A region's changing side (`true` is ours), its merged lines, and the anchor after it. -/
structure Step (α : Type) where
  side : Option Bool
  taken : List α
  line : Option ℕ

/-- The lines from `i` up to `j`. -/
def slice (l : List α) (i j : ℕ) : List α := (l.drop i).take (j - i)

/-- What is taken of a region, if at most one side changed it. -/
def region (base ours theirs : List α) : Option (Option Bool × List α) :=
  if ours = base then
    if theirs = base then some (none, base) else some (some false, theirs)
  else if theirs = base then some (some true, ours) else none

/-- The anchors among the rows from `b` on, with their lines on both sides. -/
def anchors (b : ℕ) : List (Option ℕ) → List (Option ℕ) → List (ℕ × ℕ × ℕ)
  | some o :: inOurs, some t :: inTheirs => (b, o, t) :: anchors (b + 1) inOurs inTheirs
  | _ :: inOurs, _ :: inTheirs => anchors (b + 1) inOurs inTheirs
  | _, _ => []

/-- The regions from the rows `b`, `o` and `t` on, with the anchors after them. -/
def steps (base ours theirs : List α) : List (ℕ × ℕ × ℕ) → ℕ → ℕ → ℕ → Option (List (Step α))
  | [], b, o, t => do
      let (side, taken) ← region (base.drop b) (ours.drop o) (theirs.drop t)
      return [⟨side, taken, none⟩]
  | (nb, no, nt) :: rest, b, o, t => do
      let (side, taken) ← region (slice base b nb) (slice ours o no) (slice theirs t nt)
      let steps ← steps base ours theirs rest (nb + 1) (no + 1) (nt + 1)
      return ⟨side, taken, some nb⟩ :: steps

/-- Joins the regions; changes of different sides need a separating anchor between them. -/
def join (base : List α) (separates : ℕ → Bool) : List (Step α) → Option Bool → Bool → Option (List α)
  | [], _, _ => some []
  | step :: steps, last, separated =>
      if step.side.isSome ∧ last.isSome ∧ last ≠ step.side ∧ separated = false then none
      else
        let last' := if step.side.isSome then step.side else last
        let separated' := if step.side.isSome then false else separated
        match step.line with
        | none => (join base separates steps last' separated').map (step.taken ++ ·)
        | some i =>
            (join base separates steps last' (separated' || separates i)).map
              (fun out => step.taken ++ (base[i]?.toList ++ out))

/-- The line occurs exactly once in each text. -/
def unique (base ours theirs : List α) (line : α) : Bool :=
  [base, ours, theirs].all (fun lines => lines.count line == 1)

/-- The anchor separates the changes before it from those after it. -/
def separates (base ours theirs : List α) (i : ℕ) : Bool :=
  base[i]?.any (unique base ours theirs) &&
    ((mandatory base ours).getD i false && (mandatory base theirs).getD i false)

def diff3 (base ours theirs : List α) : Option (List α) := do
  let inOurs := (matchRows base ours).1
  let inTheirs := (matchRows base theirs).1
  let steps ← steps base ours theirs (anchors 0 inOurs inTheirs) 0 0 0
  join base (separates base ours theirs) steps none false

/-! ### Segments of one side -/

/-- The segment `r` was changed by the side `s` at most, and its merged lines are `taken`. -/
def OnlyBy (s : Option Bool) (r m p taken : List α) : Prop :=
  match s with
  | none => m = r ∧ p = r ∧ taken = r
  | some true => p = r ∧ taken = m
  | some false => m = r ∧ taken = p

namespace OnlyBy
variable {s side : Option Bool} {r r' m m' p p' taken taken' : List α}

theorem of_region (h : region r m p = some (side, taken)) : OnlyBy side r m p taken := by
  unfold region at h
  by_cases hm : m = r
  · rw [if_pos hm] at h
    by_cases hp : p = r
    · rw [if_pos hp] at h
      cases h
      exact ⟨hm, hp, rfl⟩
    · rw [if_neg hp] at h
      cases h
      exact ⟨hm, rfl⟩
  · rw [if_neg hm] at h
    by_cases hp : p = r
    · rw [if_pos hp] at h
      cases h
      exact ⟨hp, rfl⟩
    · rw [if_neg hp] at h
      cases h

omit [DecidableEq α] in
theorem nil (s : Option Bool) : OnlyBy s ([] : List α) [] [] [] := by
  cases s with
  | none => exact ⟨rfl, rfl, rfl⟩
  | some s => cases s <;> exact ⟨rfl, rfl⟩

omit [DecidableEq α] in
theorem of_none (h : OnlyBy none r m p taken) : OnlyBy s r m p taken := by
  obtain ⟨hm, hp, ht⟩ := h
  cases s with
  | none => exact ⟨hm, hp, ht⟩
  | some s => cases s <;> simp [OnlyBy, hm, hp, ht]

omit [DecidableEq α] in
theorem append (h : OnlyBy s r m p taken) (h' : OnlyBy s r' m' p' taken') :
    OnlyBy s (r ++ r') (m ++ m') (p ++ p') (taken ++ taken') := by
  cases s with
  | none =>
      obtain ⟨rfl, rfl, rfl⟩ := h
      obtain ⟨rfl, rfl, rfl⟩ := h'
      exact ⟨rfl, rfl, rfl⟩
  | some s =>
      cases s with
      | true =>
          obtain ⟨rfl, rfl⟩ := h
          obtain ⟨rfl, rfl⟩ := h'
          exact ⟨rfl, rfl⟩
      | false =>
          obtain ⟨rfl, rfl⟩ := h
          obtain ⟨rfl, rfl⟩ := h'
          exact ⟨rfl, rfl⟩

omit [DecidableEq α] in
/-- The next region extends a segment, unless another side changed it. -/
theorem extend (h : OnlyBy s r m p taken) (h' : OnlyBy side r' m' p' taken')
    (hside : side = none ∨ s = none ∨ s = side) :
    OnlyBy (if side.isSome then side else s) (r ++ r') (m ++ m') (p ++ p') (taken ++ taken') := by
  cases side with
  | none => exact h.append h'.of_none
  | some d =>
      rw [if_pos (by rfl)]
      rcases hside with hs | rfl | rfl
      · cases hs
      · exact h.of_none.append h'
      · exact h.append h'

omit [DecidableEq α] in
/-- In a segment of one side all longest alignments have independent scripts, which give the
merged lines. -/
theorem sound (h : OnlyBy s r m p taken) {j k : ℕ} {ms ms' : List (Option ℕ)}
    (hm : Longest j r m ms) (hp : Longest k r p ms') :
    (scriptFrom j m ms).Independent (scriptFrom k p ms') ∧
      applyScripts r (scriptFrom j m ms) (scriptFrom k p ms') = taken := by
  have hleft : p = r → taken = m → (scriptFrom j m ms).Independent (scriptFrom k p ms') ∧
      applyScripts r (scriptFrom j m ms) (scriptFrom k p ms') = taken := by
    rintro rfl rfl
    rw [hp.script_eq]
    exact ⟨hm.aligns.edits.independent_same, hm.aligns.applyScripts_left⟩
  have hright : m = r → taken = p → (scriptFrom j m ms).Independent (scriptFrom k p ms') ∧
      applyScripts r (scriptFrom j m ms) (scriptFrom k p ms') = taken := by
    rintro rfl rfl
    rw [hm.script_eq]
    exact ⟨hp.aligns.edits.independent_same.symm, hp.aligns.applyScripts_right⟩
  cases s with
  | none => exact hleft h.2.1 (h.2.2.trans h.1.symm)
  | some s =>
      cases s with
      | true => exact hleft h.1 h.2
      | false => exact hright h.1 h.2

end OnlyBy

/-- The texts from the rows `i`, `j` and `k` on fall into segments that one side changed, between
rows where `Sep` holds; `out` are the merged lines. -/
inductive Separated (Sep : ℕ → ℕ → ℕ → Prop) : ℕ → ℕ → ℕ → List α → List α → List α → List α → Prop
  | last {i j k : ℕ} {s : Option Bool} {b o t out : List α} :
      OnlyBy s b o t out → Separated Sep i j k b o t out
  | cut {i j k : ℕ} {s : Option Bool} {r m p taken b o t out : List α} {x : α} :
      OnlyBy s r m p taken → Sep (i + r.length) (j + m.length) (k + p.length) →
      Separated Sep (i + r.length + 1) (j + m.length + 1) (k + p.length + 1) b o t out →
      Separated Sep i j k (r ++ x :: b) (m ++ x :: o) (p ++ x :: t) (taken ++ x :: out)

omit [DecidableEq α] in
/-- Longest alignments that keep the separating rows have independent scripts, which give the
merged lines. -/
theorem Separated.sound {A B : List (Option ℕ)} {i j k : ℕ} {b o t out : List α}
    (h : Separated (fun i j k => A[i]? = some (some j) ∧ B[i]? = some (some k)) i j k b o t out)
    (hA : Longest j b o (A.drop i)) (hB : Longest k b t (B.drop i)) :
    (scriptFrom j o (A.drop i)).Independent (scriptFrom k t (B.drop i)) ∧
      applyScripts b (scriptFrom j o (A.drop i)) (scriptFrom k t (B.drop i)) = out := by
  -- A kept row cuts the rest of an alignment.
  have hdrop : ∀ (C : List (Option ℕ)) (i n l : ℕ), C[i + n]? = some (some l) →
      C.drop i = (C.drop i).take n ++ some l :: C.drop (i + n + 1) ∧ ((C.drop i).take n).length = n := by
    intro C i n l hC
    obtain ⟨hlt, hC⟩ := List.getElem?_eq_some_iff.mp hC
    have hlen : n < (C.drop i).length := by
      rw [List.length_drop]
      omega
    constructor
    · have hget : (C.drop i)[n] = some l := by rw [List.getElem_drop, hC]
      conv_lhs => rw [← List.take_append_drop n (C.drop i), List.drop_eq_getElem_cons hlen, hget,
        List.drop_drop]
      rw [Nat.add_assoc]
    · rw [List.length_take]
      omega
  induction h with
  | last hs => exact hs.sound hA hB
  | @cut i j k s r m p taken b o t out x hs hsep _ ih =>
      obtain ⟨hAi, hlenA⟩ := hdrop A i r.length _ hsep.1
      obtain ⟨hBi, hlenB⟩ := hdrop B i r.length _ hsep.2
      rw [hAi] at hA ⊢
      rw [hBi] at hB ⊢
      obtain ⟨hA₁, hA₂⟩ := hA.cut hlenA
      obtain ⟨hB₁, hB₂⟩ := hB.cut hlenB
      obtain ⟨hind₁, happ₁⟩ := hs.sound hA₁ hB₁
      obtain ⟨hind₂, happ₂⟩ := ih hA₂ hB₂
      rw [hA₁.aligns.scriptFrom_cut, hB₁.aligns.scriptFrom_cut]
      refine ⟨hind₁.cut hind₂, ?_⟩
      rw [applyScripts_cut hA₁.aligns.edits hB₁.aligns.edits, happ₁, happ₂]

/-! ### What the merge separates -/

/-- Anchors lie at equal lines of the three texts, and ascend from the rows `b`, `o` and `t` on. -/
def Anchored (base ours theirs : List α) : ℕ → ℕ → ℕ → List (ℕ × ℕ × ℕ) → Prop
  | _, _, _, [] => True
  | b, o, t, (nb, no, nt) :: rest =>
      (b ≤ nb ∧ o ≤ no ∧ t ≤ nt) ∧
        (∃ x, base[nb]? = some x ∧ ours[no]? = some x ∧ theirs[nt]? = some x) ∧
        Anchored base ours theirs (nb + 1) (no + 1) (nt + 1) rest

omit [DecidableEq α] in
theorem anchored_anchors {base ours theirs b : List α} {xs ys : List (Option ℕ)} {i j k i' j' k' : ℕ}
    (hb : base.drop i' = b) (hi : i ≤ i') (hj : j ≤ j') (hk : k ≤ k')
    (hx : Aligns j' b (ours.drop j') xs) (hy : Aligns k' b (theirs.drop k') ys) :
    Anchored base ours theirs i j k (anchors i' xs ys) := by
  induction b generalizing xs ys i j k i' j' k' with
  | nil =>
      cases xs with
      | nil => trivial
      | cons m xs => exact hx.elim
  | cons x b ih =>
      have hget : base[i']? = some x := by
        rw [← List.head?_drop, hb]
        rfl
      have hb' : base.drop (i' + 1) = b := by
        rw [← List.drop_drop, hb]
        rfl
      cases xs with
      | nil => exact hx.elim
      | cons m xs =>
          cases ys with
          | nil => exact hy.elim
          | cons n ys =>
              -- A row that is not matched on a side leaves that side's lines.
              have hline : ∀ {side : List α} {l l' : ℕ}, l' ≤ l →
                  (side.drop l').drop (l + 1 - l') = side.drop (l + 1) := by
                intro side l l' hle
                rw [List.drop_drop]
                congr 1
                omega
              cases m with
              | none =>
                  cases n with
                  | none =>
                      show Anchored base ours theirs i j k (anchors (i' + 1) xs ys)
                      exact ih hb' (by omega) hj hk hx hy
                  | some l =>
                      obtain ⟨⟨hle, _⟩, hy⟩ := hy
                      rw [hline hle] at hy
                      show Anchored base ours theirs i j k (anchors (i' + 1) xs ys)
                      exact ih hb' (by omega) hj (by omega) hx hy
              | some l =>
                  obtain ⟨⟨hle, hxl⟩, hx⟩ := hx
                  rw [hline hle] at hx
                  cases n with
                  | none =>
                      show Anchored base ours theirs i j k (anchors (i' + 1) xs ys)
                      exact ih hb' (by omega) (by omega) hk hx hy
                  | some l' =>
                      obtain ⟨⟨hle', hyl⟩, hy⟩ := hy
                      rw [hline hle'] at hy
                      refine ⟨⟨hi, by omega, by omega⟩, ⟨x, hget, ?_, ?_⟩, ?_⟩
                      · rw [List.getElem?_drop] at hxl
                        rw [← hxl]
                        congr 1
                        omega
                      · rw [List.getElem?_drop] at hyl
                        rw [← hyl]
                        congr 1
                        omega
                      · exact ih hb' (Nat.le_refl _) (Nat.le_refl _) (Nat.le_refl _) hx hy

omit [DecidableEq α] in
theorem drop_eq_slice {l : List α} {i j : ℕ} {x : α} (hij : i ≤ j) (hx : l[j]? = some x) :
    l.drop i = slice l i j ++ x :: l.drop (j + 1) ∧ (slice l i j).length = j - i := by
  obtain ⟨hlt, hx⟩ := List.getElem?_eq_some_iff.mp hx
  have hlen : j - i < (l.drop i).length := by
    rw [List.length_drop]
    omega
  constructor
  · have hget : (l.drop i)[j - i] = x := by
      rw [List.getElem_drop]
      simp only [Nat.add_sub_of_le hij, hx]
    unfold slice
    conv_lhs => rw [← List.take_append_drop (j - i) (l.drop i), List.drop_eq_getElem_cons hlen, hget,
      List.drop_drop]
    congr 3
    omega
  · unfold slice
    rw [List.length_take]
    omega

/-- The side that changed lines since the last separating row, as far as `join` knows it. -/
def openSide (last : Option Bool) (separated : Bool) : Option Bool := if separated then none else last

omit [DecidableEq α] in
/-- A region that is joined is changed by no other side than the open segment. -/
theorem of_join {base : List α} {separates : ℕ → Bool} {step : Step α} {steps : List (Step α)}
    {last : Option Bool} {separated : Bool} {out : List α}
    (h : join base separates (step :: steps) last separated = some out) :
    (step.side = none ∨ openSide last separated = none ∨ openSide last separated = step.side) ∧
      ∃ last' separated', openSide last' separated' =
          (if step.side.isSome then step.side else openSide last separated) ∧
        match step.line with
        | none => ∃ rest, join base separates steps last' separated' = some rest ∧ out = step.taken ++ rest
        | some i => ∃ rest, join base separates steps last' (separated' || separates i) = some rest ∧
            out = step.taken ++ (base[i]?.toList ++ rest) := by
  unfold join at h
  split at h
  · cases h
  rename_i hcond
  constructor
  · unfold openSide
    cases hs : step.side with
    | none => exact Or.inl rfl
    | some side =>
        refine Or.inr ?_
        cases separated with
        | true => exact Or.inl rfl
        | false =>
            cases last with
            | none => exact Or.inl rfl
            | some l =>
                rw [hs] at hcond
                simp only [Option.isSome_some, true_and, and_true, ne_eq, not_not] at hcond
                exact Or.inr hcond
  · refine ⟨if step.side.isSome then step.side else last, if step.side.isSome then false else separated,
      ?_, ?_⟩
    · unfold openSide
      cases hs : step.side <;> simp
    · cases hl : step.line with
      | none =>
          rw [hl] at h
          obtain ⟨rest, hr, rfl⟩ := Option.map_eq_some_iff.mp h
          exact ⟨rest, hr, rfl⟩
      | some i =>
          rw [hl] at h
          obtain ⟨rest, hr, rfl⟩ := Option.map_eq_some_iff.mp h
          exact ⟨rest, hr, rfl⟩

theorem separated_of_join {base ours theirs : List α} {separates : ℕ → Bool} {Sep : ℕ → ℕ → ℕ → Prop}
    (hsep : ∀ (i j k : ℕ) (x : α), separates i = true → base[i]? = some x → ours[j]? = some x →
      theirs[k]? = some x → Sep i j k)
    {as : List (ℕ × ℕ × ℕ)} {b o t i j k : ℕ} {l : List (Step α)} {last : Option Bool}
    {separated : Bool} {r m p taken out : List α}
    (has : Anchored base ours theirs b o t as) (hl : steps base ours theirs as b o t = some l)
    (hout : join base separates l last separated = some out)
    (hpiece : OnlyBy (openSide last separated) r m p taken)
    (hb : b = i + r.length) (ho : o = j + m.length) (ht : t = k + p.length) :
    Separated Sep i j k (r ++ base.drop b) (m ++ ours.drop o) (p ++ theirs.drop t) (taken ++ out) := by
  induction as generalizing b o t i j k l last separated r m p taken out with
  | nil =>
      obtain ⟨⟨side, taken'⟩, hregion, hl⟩ := Option.bind_eq_some_iff.mp hl
      cases hl
      obtain ⟨hside, last', separated', _, rest, hrest, rfl⟩ := of_join hout
      cases hrest
      rw [List.append_nil]
      exact Separated.last (hpiece.extend (OnlyBy.of_region hregion) hside)
  | cons a as ih =>
      obtain ⟨nb, no, nt⟩ := a
      obtain ⟨⟨hbn, hon, htn⟩, ⟨x, hxb, hxo, hxt⟩, has⟩ := has
      obtain ⟨⟨side, taken'⟩, hregion, hl⟩ := Option.bind_eq_some_iff.mp hl
      obtain ⟨l', hl', hl⟩ := Option.bind_eq_some_iff.mp hl
      cases hl
      obtain ⟨hside, last', separated', hopen, rest, hrest, rfl⟩ := of_join hout
      have hseg := hpiece.extend (OnlyBy.of_region hregion) hside
      rw [← hopen] at hseg
      obtain ⟨hdb, hlb⟩ := drop_eq_slice hbn hxb
      obtain ⟨hdo, hlo⟩ := drop_eq_slice hon hxo
      obtain ⟨hdt, hlt⟩ := drop_eq_slice htn hxt
      rw [hdb, hdo, hdt, hxb, Option.toList_some, ← List.append_assoc, ← List.append_assoc,
        ← List.append_assoc, ← List.append_assoc]
      by_cases hs : separates nb = true
      · -- The anchor closes the segment.
        rw [hs, Bool.or_true] at hrest
        have hnb : i + (r ++ slice base b nb).length = nb := by
          rw [List.length_append]
          omega
        have hno : j + (m ++ slice ours o no).length = no := by
          rw [List.length_append]
          omega
        have hnt : k + (p ++ slice theirs t nt).length = nt := by
          rw [List.length_append]
          omega
        refine Separated.cut hseg ?_ ?_
        · rw [hnb, hno, hnt]
          exact hsep nb no nt x hs hxb hxo hxt
        · rw [hnb, hno, hnt]
          exact ih has hl' hrest (OnlyBy.nil _) rfl rfl rfl
      · -- The anchor is part of the segment.
        rw [Bool.not_eq_true] at hs
        rw [hs, Bool.or_false] at hrest
        have hline : OnlyBy (openSide last' separated') [x] [x] [x] [x] :=
          OnlyBy.of_none ⟨rfl, rfl, rfl⟩
        have h := ih has hl' hrest (hseg.append hline) (i := i) (j := j) (k := k)
          (by simp only [List.length_append, List.length_singleton]; omega)
          (by simp only [List.length_append, List.length_singleton]; omega)
          (by simp only [List.length_append, List.length_singleton]; omega)
        simpa using h

/-! ### Separating anchors -/

theorem unique_spec {base ours theirs : List α} {x : α} (h : unique base ours theirs x = true)
    {lines : List α} (hlines : lines ∈ [base, ours, theirs]) {i j : ℕ} (hi : lines[i]? = some x)
    (hj : lines[j]? = some x) : i = j := by
  have hcount : lines.count x = 1 := by
    have h' := List.all_eq_true.mp h lines hlines
    exact eq_of_beq h'
  have key : ∀ {i j : ℕ}, lines[i]? = some x → lines[j]? = some x → ¬ i < j := by
    intro i j hi hj hlt
    obtain ⟨hi', hi⟩ := List.getElem?_eq_some_iff.mp hi
    obtain ⟨hj', hj⟩ := List.getElem?_eq_some_iff.mp hj
    have hdup : List.Duplicate x lines := List.duplicate_iff_exists_distinct_get.mpr
      ⟨⟨i, hi'⟩, ⟨j, hj'⟩, hlt, hi.symm, hj.symm⟩
    have htwo := List.duplicate_iff_two_le_count.mp hdup
    omega
  have h1 := key hi hj
  have h2 := key hj hi
  omega

/-- Every longest alignment keeps a mandatory row at its only line. -/
theorem keeps_unique {base side : List α} {ms : List (Option ℕ)} (h : Longest 0 base side ms)
    {i j : ℕ} {x : α} (hm : (mandatory base side)[i]? = some true) (hx : base[i]? = some x)
    (honly : ∀ k, side[k]? = some x → k = j) : ms[i]? = some (some j) := by
  obtain ⟨hi, _⟩ := List.getElem?_eq_some_iff.mp hx
  have hne := keeps_of_mandatory h hi hm
  have hlt : i < ms.length := by rwa [h.aligns.length_eq]
  rw [List.getElem?_eq_getElem hlt] at hne ⊢
  cases hget : ms[i] with
  | none =>
      rw [hget] at hne
      exact absurd rfl hne
  | some c =>
      have hc : ms[i]? = some (some c) := by rw [List.getElem?_eq_getElem hlt, hget]
      obtain ⟨y, hy, hs⟩ := (aligns_iff.mp h.aligns).equal i c hc
      rw [hx] at hy
      cases hy
      rw [honly c hs]

/-- A merge that succeeds separates the texts by rows that both alignments keep. -/
theorem separated_of_diff3 {base ours theirs out : List α} (h : diff3 base ours theirs = some out)
    {A B : List (Option ℕ)} (hA : Longest 0 base ours A) (hB : Longest 0 base theirs B) :
    Separated (fun i j k => A[i]? = some (some j) ∧ B[i]? = some (some k)) 0 0 0 base ours theirs out := by
  obtain ⟨l, hl, hout⟩ := Option.bind_eq_some_iff.mp h
  have hanchored : Anchored base ours theirs 0 0 0
      (anchors 0 (matchRows base ours).1 (matchRows base theirs).1) :=
    anchored_anchors (List.drop_zero) (Nat.le_refl _) (Nat.le_refl _) (Nat.le_refl _)
      (aligns_matched base ours) (aligns_matched base theirs)
  refine separated_of_join (fun i j k x hs hb ho ht => ?_) hanchored hl hout (OnlyBy.nil _) rfl rfl rfl
  unfold separates at hs
  rw [hb] at hs
  simp only [Option.any_some, Bool.and_eq_true] at hs
  obtain ⟨hunique, hours, htheirs⟩ := hs
  have hflag : ∀ {flags : List Bool}, flags.getD i false = true → flags[i]? = some true := by
    intro flags hf
    rw [List.getD_eq_getElem?_getD] at hf
    cases hg : flags[i]? with
    | none =>
        rw [hg] at hf
        cases hf
    | some f =>
        rw [hg] at hf
        exact congrArg some hf
  exact ⟨keeps_unique hA (hflag hours) hb (fun c hc => unique_spec hunique (by simp) hc ho),
    keeps_unique hB (hflag htheirs) hb (fun c hc => unique_spec hunique (by simp) hc ht)⟩

end merging

/-! ### Lines of bytes -/

/-- The lines of a text with their terminators; a final line may have none. -/
def lines : Str → List Str
  | [] => []
  | b :: bytes =>
      if b = 10 then [b] :: lines bytes
      else
        match lines bytes with
        | [] => [[b]]
        | l :: ls => (b :: l) :: ls

/-- A line with its terminator. -/
def Terminated (l : Str) : Prop := ∃ u, l = u ++ [10] ∧ (10 : UInt8) ∉ u

/-- The lines of a text: only the last one may be unterminated. -/
def AreLines : List Str → Prop
  | [] => True
  | l :: ls => (Terminated l ∨ (l ≠ [] ∧ (10 : UInt8) ∉ l ∧ ls = [])) ∧ AreLines ls

theorem areLines_lines (bytes : Str) : AreLines (lines bytes) := by
  induction bytes with
  | nil => trivial
  | cons b bytes ih =>
      unfold lines
      by_cases hb : b = 10
      · rw [if_pos hb]
        exact ⟨Or.inl ⟨[], by rw [hb]; rfl, by simp⟩, ih⟩
      · rw [if_neg hb]
        cases hl : lines bytes with
        | nil => exact ⟨Or.inr ⟨by simp, by simpa using Ne.symm hb, rfl⟩, trivial⟩
        | cons l ls =>
            rw [hl] at ih
            obtain ⟨hline, hrest⟩ := ih
            refine ⟨?_, hrest⟩
            rcases hline with ⟨u, rfl, hu⟩ | ⟨hne, hl, hls⟩
            · exact Or.inl ⟨b :: u, rfl, by simp [Ne.symm hb, hu]⟩
            · exact Or.inr ⟨by simp, by simp [Ne.symm hb, hl], hls⟩

/-- A terminated line is the first line of what it begins. -/
theorem lines_append {u bytes : Str} (hu : (10 : UInt8) ∉ u) :
    lines (u ++ 10 :: bytes) = (u ++ [10]) :: lines bytes := by
  induction u with
  | nil => rfl
  | cons b u ih =>
      rw [List.mem_cons, not_or] at hu
      show (if b = 10 then [b] :: lines (u ++ 10 :: bytes)
        else match lines (u ++ 10 :: bytes) with
          | [] => [[b]]
          | l :: ls => (b :: l) :: ls) = _
      rw [if_neg (Ne.symm hu.1), ih hu.2]
      rfl

theorem lines_of_notMem {u : Str} (hne : u ≠ []) (hu : (10 : UInt8) ∉ u) : lines u = [u] := by
  induction u with
  | nil => exact absurd rfl hne
  | cons b u ih =>
      rw [List.mem_cons, not_or] at hu
      unfold lines
      rw [if_neg (Ne.symm hu.1)]
      cases u with
      | nil => rfl
      | cons c u => rw [ih (by simp) hu.2]

/-- Splitting lines that were put together gives them back. -/
theorem lines_flatten {ls : List Str} (h : AreLines ls) : lines ls.flatten = ls := by
  induction ls with
  | nil => rfl
  | cons l ls ih =>
      obtain ⟨hline, hrest⟩ := h
      rw [List.flatten_cons]
      rcases hline with ⟨u, rfl, hu⟩ | ⟨hne, hl, rfl⟩
      · rw [List.append_assoc, List.singleton_append, lines_append hu, ih hrest]
      · rw [List.flatten_nil, List.append_nil, lines_of_notMem hne hl]

theorem areLines_append_cons {u v : List Str} {x : Str} :
    AreLines (u ++ x :: v) ↔ (∀ l ∈ u, Terminated l) ∧ AreLines (x :: v) := by
  induction u with
  | nil => simp
  | cons l u ih =>
      rw [List.cons_append, List.forall_mem_cons]
      show _ ∧ AreLines (u ++ x :: v) ↔ _
      rw [ih]
      constructor
      · rintro ⟨hl | ⟨_, _, hnil⟩, hu, hx⟩
        · exact ⟨⟨hl, hu⟩, hx⟩
        · simp at hnil
      · rintro ⟨⟨hl, hu⟩, hx⟩
        exact ⟨Or.inl hl, hu, hx⟩

/-- Separated texts merge into the lines of a text. -/
theorem Separated.areLines {Sep : ℕ → ℕ → ℕ → Prop} {i j k : ℕ} {b o t out : List Str}
    (h : Separated Sep i j k b o t out) (hb : AreLines b) (ho : AreLines o) (ht : AreLines t) :
    AreLines out := by
  have htaken : ∀ {s : Option Bool} {r m p taken : List Str}, OnlyBy s r m p taken →
      taken = m ∨ taken = p := by
    intro s r m p taken hs
    cases s with
    | none => exact Or.inl (hs.2.2.trans hs.1.symm)
    | some s =>
        cases s with
        | true => exact Or.inl hs.2
        | false => exact Or.inr hs.2
  -- Nothing is merged after the end of all three texts.
  have hend : ∀ {i j k : ℕ} {b o t out : List Str}, Separated Sep i j k b o t out →
      b = [] → o = [] → t = [] → out = [] := by
    intro i j k b o t out h hb ho ht
    cases h with
    | last hs =>
        rcases htaken hs with h | h
        · exact h.trans ho
        · exact h.trans ht
    | cut _ _ _ => simp at hb
  induction h with
  | last hs =>
      rcases htaken hs with rfl | rfl
      · exact ho
      · exact ht
  | @cut i j k s r m p taken b o t out x hs _ hrest ih =>
      rw [areLines_append_cons] at hb ho ht
      obtain ⟨_, hxb, hb⟩ := hb
      obtain ⟨hm, hxo, ho⟩ := ho
      obtain ⟨hp, hxt, ht⟩ := ht
      rw [areLines_append_cons]
      refine ⟨?_, ?_, ih hb ho ht⟩
      · rcases htaken hs with rfl | rfl
        · exact hm
        · exact hp
      · rcases hxb with hx | ⟨hne, hx, hbn⟩
        · exact Or.inl hx
        · have hnot : ¬ Terminated x := by
            rintro ⟨u, rfl, _⟩
            simp at hx
          have hon := (hxo.resolve_left hnot).2.2
          have htn := (hxt.resolve_left hnot).2.2
          exact Or.inr ⟨hne, hx, hend hrest hbn hon htn⟩

/-- A merge is right for all longest alignments of both sides: their scripts are independent and
give the merged lines.  Merged lines of texts are the lines of a text. -/
theorem diff3_sound {base ours theirs out : List Str} (h : diff3 base ours theirs = some out) :
    (∀ A B, LongestAlignment base ours A → LongestAlignment base theirs B →
      (script ours A).Independent (script theirs B) ∧
        applyScripts base (script ours A) (script theirs B) = out) ∧
    ((∃ b o t, base = lines b ∧ ours = lines o ∧ theirs = lines t) →
      lines out.flatten = out ∧ AreLines out) := by
  constructor
  · intro A B hA hB
    rw [← longest_iff] at hA hB
    exact (separated_of_diff3 h hA hB).sound hA hB
  · rintro ⟨b, o, t, rfl, rfl, rfl⟩
    obtain ⟨A, hA⟩ := exists_longest (lines b) (lines o)
    obtain ⟨B, hB⟩ := exists_longest (lines b) (lines t)
    have hlines := (separated_of_diff3 h hA hB).areLines (areLines_lines b) (areLines_lines o)
      (areLines_lines t)
    exact ⟨lines_flatten hlines, hlines⟩

/-- Changes in the first and in the last of three lines merge. -/
theorem diff3_sound_three :
    diff3 (lines [97, 10, 98, 10, 99]) (lines [120, 10, 98, 10, 99]) (lines [97, 10, 98, 10, 121]) =
        some [[120, 10], [98, 10], [121]] ∧
      lines ([[120, 10], [98, 10], [121]] : List Str).flatten = [[120, 10], [98, 10], [121]] := by
  have h : diff3 (lines [97, 10, 98, 10, 99]) (lines [120, 10, 98, 10, 99])
      (lines [97, 10, 98, 10, 121]) = some [[120, 10], [98, 10], [121]] := by decide +kernel
  exact ⟨h, ((diff3_sound h).2 ⟨_, _, _, rfl, rfl, rfl⟩).1⟩

end Javelin
