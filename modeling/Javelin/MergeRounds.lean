import Javelin.Merge

/-! # The rounds of a merge

Choices are applied round by round.  A round uses up the choices it applies, so the rounds end
(`settle_stable`), and every choice is applied in exactly one round or never (`Rounds.mem_applied`,
`Visits.unique`).  What is merged at the end collides with nothing that is left, so an outcome is
well formed (`mergeResolved_wellFormed`). -/

namespace Javelin

open KeyedList

namespace Merge

section monad
variable {σ E α β : Type} {x : MergeM σ E α} {f : α → MergeM σ E β} {s s' : σ × Usage} {b : β}

theorem bind_eq_ok : (x >>= f) s = .ok (b, s') ↔ ∃ a t, x s = .ok (a, t) ∧ f a t = .ok (b, s') := by
  have hbind : (x >>= f) s = (x s >>= fun p => f p.1 p.2) := rfl
  rw [hbind, except_bind_eq_ok, Prod.exists]

theorem pure_eq_ok {a a' : α} : (pure a : MergeM σ E α) s = .ok (a', s') ↔ a = a' ∧ s = s' := by
  have hpure : (pure a : MergeM σ E α) s = .ok (a, s) := rfl
  rw [hpure, Except.ok.injEq, Prod.mk.injEq]

end monad

variable {Id σ E : Type}

/-! ### Collisions -/

theorem get?_foldl_isSome {A V : Type} {f : SortedMap RepoPath V → A → SortedMap RepoPath V}
    {P : A → RepoPath → Prop}
    (hf : ∀ m a r, (f m a).get? r ≠ none ↔ m.get? r ≠ none ∨ P a r) (l : List A)
    (m : SortedMap RepoPath V) (r : RepoPath) :
    (l.foldl f m).get? r ≠ none ↔ m.get? r ≠ none ∨ ∃ a ∈ l, P a r := by
  induction l generalizing m with
  | nil => simp
  | cons a l ih =>
      rw [List.foldl_cons, ih, hf, List.exists_mem_cons_iff, or_assoc]

theorem get?_orInsert {V : Type} {m : SortedMap RepoPath V} {p r : RepoPath} {v : V} :
    (orInsert m p v).get? r ≠ none ↔ m.get? r ≠ none ∨ r = p := by
  unfold orInsert
  cases hp : m.get? p with
  | some w =>
      simp only
      constructor
      · exact Or.inl
      · rintro (h | rfl)
        · exact h
        · rw [hp]
          simp
  | none =>
      simp only
      rw [SortedMap.get?_insert]
      by_cases h : p = r
      · simp [h]
      · simp [h, Ne.symm h]

/-- A path collides with its ancestors and descendants. -/
theorem collisionsOf_iff {paths : List RepoPath} {p : RepoPath} :
    (collisionsOf paths).get? p ≠ none ↔
      p ∈ paths ∧ ∃ q ∈ paths, q ∈ p.ancestors ∨ p ∈ q.ancestors := by
  have hstep : ∀ (path : RepoPath) (m : SortedMap RepoPath RepoPath) (parent r : RepoPath),
      (if parent ∈ paths then orInsert (orInsert m path parent) parent path else m).get? r ≠ none ↔
        m.get? r ≠ none ∨ (parent ∈ paths ∧ (r = path ∨ r = parent)) := by
    intro path m parent r
    by_cases h : parent ∈ paths
    · rw [if_pos h, get?_orInsert, get?_orInsert]
      simp [h, or_assoc]
    · rw [if_neg h]
      simp [h]
  have hcollide : ∀ (m : SortedMap RepoPath RepoPath) (path r : RepoPath),
      (collide paths m path).get? r ≠ none ↔ m.get? r ≠ none ∨
        ∃ parent ∈ path.ancestors, parent ∈ paths ∧ (r = path ∨ r = parent) :=
    fun m path r => get?_foldl_isSome (hstep path) path.ancestors m r
  unfold collisionsOf
  rw [get?_foldl_isSome hcollide]
  constructor
  · rintro (h | ⟨q, hq, parent, hanc, hparent, rfl | rfl⟩)
    · exact absurd rfl h
    · exact ⟨hq, parent, hparent, Or.inl hanc⟩
    · exact ⟨hparent, q, hq, Or.inr hanc⟩
  · rintro ⟨hp, q, hq, hanc | hanc⟩
    · exact Or.inr ⟨p, hp, q, hanc, hq, Or.inl rfl⟩
    · exact Or.inr ⟨q, hq, p, hanc, hp, Or.inr rfl⟩

/-! ### Analyses -/

/-- The probe reports exactly the given paths that are equivalent to another given one. -/
def ReportsAliases (equiv : RepoPath → RepoPath → Prop)
    (aliases : List RepoPath → Caller σ E (List RepoPath)) : Prop :=
  ∀ paths s hits s', aliases paths s = .ok (hits, s') →
    ∀ p, p ∈ hits ↔ p ∈ paths ∧ ∃ q ∈ paths, q ≠ p ∧ equiv p q

theorem mem_present {rows : List (Row Id)} {p : RepoPath} :
    p ∈ present rows ↔ ∃ row ∈ rows, row.present = true ∧ row.path = p := by
  unfold present
  simp [and_assoc]

/-- What an analysis says of the rows. -/
theorem of_analyse {aliases : List RepoPath → Caller σ E (List RepoPath)} {rows : List (Row Id)}
    {analysis : Analysis} {s s' : σ × Usage} (h : analyse aliases rows s = .ok (analysis, s')) :
    analysis.collisions = collisionsOf (present rows) ∧
      (1 < (candidates (present rows)).length →
        ∃ t t', aliases (candidates (present rows)) t = .ok (analysis.hits, t')) := by
  unfold analyse at h
  split at h
  · obtain ⟨hits, t, hcall, hret⟩ := bind_eq_ok.mp h
    obtain ⟨rfl, rfl⟩ := pure_eq_ok.mp hret
    refine ⟨rfl, fun _ => ⟨s.1, t.1, ?_⟩⟩
    unfold call at hcall
    cases ha : aliases (candidates (present rows)) s.1 with
    | error e =>
        rw [ha] at hcall
        cases hcall
    | ok r =>
        rw [ha] at hcall
        cases hcall
        rfl
  · rename_i hle
    obtain ⟨rfl, rfl⟩ := pure_eq_ok.mp h
    exact ⟨rfl, fun hlt => absurd hlt hle⟩

theorem mem_candidates {paths : List RepoPath} {p : RepoPath} :
    p ∈ candidates paths ↔ p ∈ paths ∧ (collisionsOf paths).get? p = none := by
  unfold candidates
  simp

theorem length_gt_one {A : Type} {l : List A} {a b : A} (ha : a ∈ l) (hb : b ∈ l) (hne : a ≠ b) :
    1 < l.length := by
  match l, ha, hb with
  | [c], ha, hb =>
      rw [List.mem_singleton] at ha hb
      exact absurd (ha.trans hb.symm) hne
  | _ :: _ :: _, _, _ => simp

/-- Paths that neither collide nor alias are unrelated and not equivalent. -/
theorem unrelated_of_analyse {equiv : RepoPath → RepoPath → Prop}
    {aliases : List RepoPath → Caller σ E (List RepoPath)} (ha : ReportsAliases equiv aliases)
    {rows : List (Row Id)} {analysis : Analysis} {s s' : σ × Usage}
    (h : analyse aliases rows s = .ok (analysis, s')) {p q : RepoPath} (hp : p ∈ present rows)
    (hq : q ∈ present rows) (hne : q ≠ p) (hcp : analysis.collisions.get? p = none)
    (hcq : analysis.collisions.get? q = none) (hhit : p ∉ analysis.hits) :
    p ∉ q.ancestors ∧ ¬ equiv p q := by
  obtain ⟨hcollisions, hprobe⟩ := of_analyse h
  rw [hcollisions] at hcp hcq
  constructor
  · intro hanc
    exact (collisionsOf_iff.mpr ⟨hp, q, hq, Or.inr hanc⟩) hcp
  · intro hequiv
    have hmp := mem_candidates.mpr ⟨hp, hcp⟩
    have hmq := mem_candidates.mpr ⟨hq, hcq⟩
    obtain ⟨t, t', hok⟩ := hprobe (length_gt_one hmq hmp hne)
    exact hhit ((ha _ _ _ _ hok p).mpr ⟨hmp, q, hmq, hne, hequiv⟩)

/-! ### Rounds -/

section rounds
variable (choices : SortedMap RepoPath Choice) (aliases : List RepoPath → Caller σ E (List RepoPath))

/-- The rounds from a state on, until no choice applies. -/
inductive Rounds : List (Row Id) → List RepoPath → σ × Usage → List (Row Id) → List RepoPath →
    Analysis → Prop
  | stop {rows applied s analysis s'} : analyse aliases rows s = .ok (analysis, s') →
      taken choices applied analysis rows = [] → Rounds rows applied s rows applied analysis
  | next {rows applied s analysis s' rows' applied' analysis'} :
      analyse aliases rows s = .ok (analysis, s') → taken choices applied analysis rows ≠ [] →
      Rounds (rows.map (Row.apply choices applied analysis))
        (applied ++ taken choices applied analysis rows) s' rows' applied' analysis' →
      Rounds rows applied s rows' applied' analysis'

/-- A moment of the rounds: the rows and the applied choices, and the analysis made of them. -/
structure Moment (Id : Type) where
  rows : List (Row Id)
  applied : List RepoPath
  analysis : Analysis

/-- The choice for `p` is applied at this moment. -/
def Moment.Takes (m : Moment Id) (p : RepoPath) : Prop := p ∈ taken choices m.applied m.analysis m.rows

/-- The rounds from a state on come to a moment. -/
inductive Visits : List (Row Id) → List RepoPath → σ × Usage → Moment Id → Prop
  | here {rows applied s analysis s'} : analyse aliases rows s = .ok (analysis, s') →
      Visits rows applied s ⟨rows, applied, analysis⟩
  | later {rows applied s analysis s' m} : analyse aliases rows s = .ok (analysis, s') →
      taken choices applied analysis rows ≠ [] →
      Visits (rows.map (Row.apply choices applied analysis))
        (applied ++ taken choices applied analysis rows) s' m →
      Visits rows applied s m

/-- The choices that are not applied yet. -/
def remaining (applied : List RepoPath) : List RepoPath :=
  choices.keys.filter (fun path => path ∉ applied)

end rounds

variable {choices : SortedMap RepoPath Choice} {aliases : List RepoPath → Caller σ E (List RepoPath)}
  {rows rows' : List (Row Id)} {applied applied' : List RepoPath} {analysis analysis' : Analysis}
  {s s' : σ × Usage} {p : RepoPath}

theorem mem_taken : p ∈ taken choices applied analysis rows ↔
    ∃ row ∈ rows, (row.conflicting analysis ∧ row.path ∉ applied ∧ (choices.get? row.path).isSome) ∧
      row.path = p := by
  unfold taken Row.chosen
  simp only [List.mem_map, List.mem_filter]
  constructor
  · rintro ⟨row, ⟨hm, hc⟩, rfl⟩
    split at hc
    · rename_i h
      exact ⟨row, hm, ⟨h.1, h.2, hc⟩, rfl⟩
    · cases hc
  · rintro ⟨row, hm, ⟨hc, ha, hs⟩, rfl⟩
    refine ⟨row, ⟨hm, ?_⟩, rfl⟩
    rw [if_pos ⟨hc, ha⟩]
    exact hs

theorem length_filter_lt {A : Type} {P Q : A → Bool} (hPQ : ∀ a, P a = true → Q a = true) {a : A}
    {l : List A} (hm : a ∈ l) (hP : P a = false) (hQ : Q a = true) :
    (l.filter P).length < (l.filter Q).length := by
  obtain ⟨l₁, l₂, rfl⟩ := List.append_of_mem hm
  have hle : ∀ l : List A, (l.filter P).length ≤ (l.filter Q).length := by
    intro l
    rw [← List.countP_eq_length_filter, ← List.countP_eq_length_filter]
    exact List.countP_mono_left (fun b _ => hPQ b)
  have h1 := hle l₁
  have h2 := hle l₂
  rw [List.filter_append, List.filter_append, List.filter_cons_of_neg (by rw [hP]; simp),
    List.filter_cons_of_pos hQ, List.length_append, List.length_append, List.length_cons]
  omega

/-- A round that applies a choice leaves fewer. -/
theorem length_remaining_lt (h : taken choices applied analysis rows ≠ []) :
    (remaining choices (applied ++ taken choices applied analysis rows)).length <
      (remaining choices applied).length := by
  obtain ⟨p, hp⟩ := List.exists_mem_of_ne_nil _ h
  obtain ⟨row, _, ⟨_, hna, hs⟩, rfl⟩ := mem_taken.mp hp
  apply length_filter_lt _ (SortedMap.mem_keys.mpr hs)
  · rw [decide_eq_false_iff_not, not_not]
    exact List.mem_append_right _ hp
  · exact decide_eq_true hna
  · intro q hq
    rw [decide_eq_true_eq] at hq ⊢
    exact fun hm => hq (List.mem_append_left _ hm)

theorem taken_eq_nil (h : (remaining choices applied).length = 0) :
    taken choices applied analysis rows = [] := by
  by_contra hne
  have hlt := length_remaining_lt hne
  omega

/-- One round more than there are choices left changes nothing. -/
theorem settle_succ {n : ℕ} (h : (remaining choices applied).length ≤ n) :
    settle choices aliases (n + 1) rows applied = settle choices aliases n rows applied := by
  induction n generalizing rows applied with
  | zero =>
      refine bind_congr (fun analysis => ?_)
      simp only [taken_eq_nil (Nat.le_zero.mp h), if_true]
  | succ n ih =>
      refine bind_congr (fun analysis => ?_)
      by_cases hne : taken choices applied analysis rows = []
      · simp only [hne, if_true]
      · simp only [hne, if_false]
        have hlt := length_remaining_lt hne
        exact ih (by omega)

/-- The rounds end: a larger bound than the number of choices changes nothing. -/
theorem settle_stable {n : ℕ} (h : choices.toList.length ≤ n) :
    settle choices aliases n rows [] = settle choices aliases choices.toList.length rows [] := by
  have hremaining : (remaining choices []).length ≤ choices.toList.length := by
    unfold remaining
    refine (List.length_filter_le _ _).trans ?_
    exact (List.length_map _).le
  induction n, h using Nat.le_induction with
  | base => rfl
  | succ n hn ih => rw [settle_succ (hremaining.trans hn), ih]

/-- With a bound for the choices left, the rounds are run to their end. -/
theorem rounds_of_settle {n : ℕ} (hn : (remaining choices applied).length ≤ n)
    (h : settle choices aliases n rows applied s = .ok ((rows', applied', analysis), s')) :
    Rounds choices aliases rows applied s rows' applied' analysis := by
  induction n generalizing rows applied s with
  | zero =>
      obtain ⟨a, t, ha, hret⟩ := bind_eq_ok.mp h
      obtain ⟨he, _⟩ := pure_eq_ok.mp hret
      cases he
      exact Rounds.stop ha (taken_eq_nil (Nat.le_zero.mp hn))
  | succ n ih =>
      obtain ⟨a, t, ha, hret⟩ := bind_eq_ok.mp h
      by_cases hne : taken choices applied a rows = []
      · simp only [hne, if_true] at hret
        obtain ⟨he, _⟩ := pure_eq_ok.mp hret
        cases he
        exact Rounds.stop ha hne
      · simp only [hne, if_false] at hret
        have hlt := length_remaining_lt hne
        exact Rounds.next ha hne (ih (by omega) hret)

/-! ### What the rounds do -/

/-- Applying choices leaves paths and entries as they are. -/
theorem Row.apply_path (row : Row Id) : (row.apply choices applied analysis).path = row.path ∧
    (row.apply choices applied analysis).sides = row.sides := by
  unfold Row.apply
  split <;> exact ⟨rfl, rfl⟩

theorem Rounds.paths (h : Rounds choices aliases rows applied s rows' applied' analysis) :
    rows'.map Row.path = rows.map Row.path := by
  induction h with
  | stop _ _ => rfl
  | next _ _ _ ih =>
      rw [ih, List.map_map]
      exact List.map_congr_left (fun row _ => row.apply_path.1)

/-- The last analysis is one of the final rows, and no choice applies to them. -/
theorem Rounds.last (h : Rounds choices aliases rows applied s rows' applied' analysis) :
    (∃ t t', analyse aliases rows' t = .ok (analysis, t')) ∧ taken choices applied' analysis rows' = [] := by
  induction h with
  | stop ha hnil => exact ⟨⟨_, _, ha⟩, hnil⟩
  | next _ _ _ ih => exact ih

theorem Rounds.applied_subset (h : Rounds choices aliases rows applied s rows' applied' analysis) :
    applied ⊆ applied' := by
  induction h with
  | stop _ _ => exact fun _ hp => hp
  | next _ _ _ ih => exact fun _ hp => ih (List.mem_append_left _ hp)

/-- A final row is as it was, or as its choice says. -/
theorem Rounds.of_mem (h : Rounds choices aliases rows applied s rows' applied' analysis)
    {row' : Row Id} (hm : row' ∈ rows') : ∃ row ∈ rows, row'.path = row.path ∧ row'.sides = row.sides ∧
      (row'.result = row.result ∨ ∃ c, choices.get? row.path = some c ∧ row.path ∈ applied' ∧
        row'.result = choose c row.sides) := by
  induction h with
  | stop _ _ => exact ⟨row', hm, rfl, rfl, Or.inl rfl⟩
  | @next rows applied s a t rows' applied' a' _ _ hrest ih =>
      obtain ⟨mid, hmid, hpath, hsides, hor⟩ := ih hm
      obtain ⟨row, hrow, rfl⟩ := List.mem_map.mp hmid
      have happly : (row.apply choices applied a).path = row.path ∧
          (row.apply choices applied a).sides = row.sides := row.apply_path
      obtain ⟨hp, hs⟩ := happly
      rw [hp] at hpath
      rw [hs] at hsides
      refine ⟨row, hrow, hpath, hsides, ?_⟩
      rw [hp, hs] at hor
      rcases hor with hor | hor
      · unfold Row.apply at hor
        cases hc : row.chosen choices applied a with
        | none =>
            rw [hc] at hor
            exact Or.inl hor
        | some c =>
            rw [hc] at hor
            have hmem : row.path ∈ taken choices applied a rows :=
              List.mem_map.mpr ⟨row, List.mem_filter.mpr ⟨hrow, by rw [hc]; rfl⟩, rfl⟩
            refine Or.inr ⟨c, ?_, hrest.applied_subset (List.mem_append_right _ hmem), hor⟩
            unfold Row.chosen at hc
            split at hc
            · exact hc
            · cases hc
      · exact Or.inr hor

/-- A choice is applied at the end if it was before, or at a moment of the rounds. -/
theorem Rounds.mem_applied (h : Rounds choices aliases rows applied s rows' applied' analysis) :
    p ∈ applied' ↔ p ∈ applied ∨ ∃ m, Visits choices aliases rows applied s m ∧ m.Takes choices p := by
  induction h with
  | @stop rows applied s a t ha hnil =>
      constructor
      · exact Or.inl
      · rintro (hp | ⟨m, hv, ht⟩)
        · exact hp
        · cases hv with
          | here ha' =>
              rw [ha] at ha'
              cases ha'
              unfold Moment.Takes at ht
              rw [hnil] at ht
              cases ht
          | later ha' hne _ =>
              rw [ha] at ha'
              cases ha'
              exact absurd hnil hne
  | @next rows applied s a t rows' applied' a' ha hne hrest ih =>
      rw [ih, List.mem_append, or_assoc]
      refine or_congr_right ?_
      constructor
      · rintro (hp | ⟨m, hv, ht⟩)
        · exact ⟨⟨rows, applied, a⟩, Visits.here ha, hp⟩
        · exact ⟨m, Visits.later ha hne hv, ht⟩
      · rintro ⟨m, hv, ht⟩
        cases hv with
        | here ha' =>
            rw [ha] at ha'
            cases ha'
            exact Or.inl ht
        | later ha' _ hv =>
            rw [ha] at ha'
            cases ha'
            exact Or.inr ⟨m, hv, ht⟩

theorem Visits.applied_subset {m : Moment Id} (h : Visits choices aliases rows applied s m) :
    applied ⊆ m.applied := by
  induction h with
  | here _ => exact fun _ hp => hp
  | later _ _ _ ih => exact fun _ hp => ih (List.mem_append_left _ hp)

/-- A choice is applied at one moment only. -/
theorem Visits.unique {m m' : Moment Id} (h : Visits choices aliases rows applied s m)
    (h' : Visits choices aliases rows applied s m') (ht : m.Takes choices p) (ht' : m'.Takes choices p) :
    m = m' := by
  -- After the moment the path is among the applied ones.
  have hlater : ∀ {rows rows₂ : List (Row Id)} {applied : List RepoPath} {a : Analysis}
      {t : σ × Usage} {m : Moment Id},
      Visits choices aliases rows₂ (applied ++ taken choices applied a rows) t m →
      p ∈ taken choices applied a rows → ¬ m.Takes choices p := by
    intro rows rows₂ applied a t m hv hp ht
    obtain ⟨row, _, ⟨_, hna, _⟩, rfl⟩ := mem_taken.mp ht
    exact hna (hv.applied_subset (List.mem_append_right _ hp))
  induction h with
  | here ha =>
      cases h' with
      | here ha' =>
          rw [ha] at ha'
          cases ha'
          rfl
      | later ha' _ hv' =>
          rw [ha] at ha'
          cases ha'
          exact absurd ht' (hlater hv' ht)
  | later ha _ hv ih =>
      cases h' with
      | here ha' =>
          rw [ha] at ha'
          cases ha'
          exact absurd ht (hlater hv ht')
      | later ha' _ hv' =>
          rw [ha] at ha'
          cases ha'
          exact ih hv' ht

/-! ### The rows of a merge -/

section outcome
variable [DecidableEq Id] {base ours theirs : Manifest Id} {load : Id → Caller σ E Str}
  {partners : SortedMap RepoPath RepoPath} {usage : Usage} {sides : Sides Id} {result : Path Id}

omit [DecidableEq Id] in
theorem mem_allPaths : p ∈ allPaths base ours theirs ↔
    p ∈ base.entries.keys ∨ p ∈ ours.entries.keys ∨ p ∈ theirs.entries.keys := by
  have hkeys : ((base.entries.keys ++ ours.entries.keys ++ theirs.entries.keys).map
      (fun p => (p, ()))).map Prod.fst = base.entries.keys ++ ours.entries.keys ++ theirs.entries.keys := by
    rw [List.map_map]
    exact List.map_id _
  rw [← or_assoc, ← List.mem_append, ← List.mem_append, ← hkeys]
  exact ⟨SortedMap.mem_keys_ofList, SortedMap.mem_keys_ofList_of_mem⟩

omit [DecidableEq Id] in
theorem take_eq_deleted {e : Option (FileEntry Id)} : take e = .deleted ↔ e = none := by
  cases e <;> simp [take]

/-- The three-way rule deletes a path: one side deleted it, and the other did too or left it as
it was. -/
def Deletes (sides : Sides Id) : Prop :=
  (sides.ours = none ∧ (sides.ours = sides.theirs ∨ sides.theirs = sides.base)) ∨
    (sides.theirs = none ∧ sides.ours = sides.base)

theorem deletes_of_mergePath (h : mergePath load sides s = .ok (.deleted, s')) : Deletes sides := by
  obtain ⟨b, o, t⟩ := sides
  unfold mergePath at h
  simp only at h
  split at h
  · rename_i hsame
    obtain ⟨ht, _⟩ := pure_eq_ok.mp h
    exact Or.inl ⟨take_eq_deleted.mp ht, hsame⟩
  split at h
  · rename_i hbase
    obtain ⟨ht, _⟩ := pure_eq_ok.mp h
    exact Or.inr ⟨take_eq_deleted.mp ht, hbase⟩
  split at h
  · split at h
    · cases (pure_eq_ok.mp h).1
    split at h
    · cases (pure_eq_ok.mp h).1
    · unfold mergeContent at h
      obtain ⟨b, t₁, _, h⟩ := bind_eq_ok.mp h
      obtain ⟨o, t₂, _, h⟩ := bind_eq_ok.mp h
      obtain ⟨t, t₃, _, h⟩ := bind_eq_ok.mp h
      split at h
      · cases (pure_eq_ok.mp h).1
      · obtain ⟨r, t₄, _, h⟩ := bind_eq_ok.mp h
        cases r with
        | none => cases (pure_eq_ok.mp h).1
        | some bytes => cases (pure_eq_ok.mp h).1
  · cases (pure_eq_ok.mp h).1
  · cases (pure_eq_ok.mp h).1
  · cases (pure_eq_ok.mp h).1

/-- The rows of some paths, each decided on its own. -/
theorem of_mapM_mergeRow {paths : List RepoPath}
    (h : paths.mapM (mergeRow load base ours theirs) s = .ok (rows, s')) :
    rows.map Row.path = paths ∧ ∀ row ∈ rows, row.sides = sidesOf base ours theirs row.path ∧
      ∃ t t', mergePath load row.sides t = .ok (row.result, t') := by
  induction paths generalizing s s' rows with
  | nil =>
      rw [List.mapM_nil] at h
      obtain ⟨rfl, _⟩ := pure_eq_ok.mp h
      exact ⟨rfl, fun row hm => by cases hm⟩
  | cons path paths ih =>
      rw [List.mapM_cons] at h
      obtain ⟨row, t, hrow, h⟩ := bind_eq_ok.mp h
      obtain ⟨rest, t', hrest, h⟩ := bind_eq_ok.mp h
      obtain ⟨rfl, _⟩ := pure_eq_ok.mp h
      obtain ⟨r, u, hr, hret⟩ := bind_eq_ok.mp hrow
      obtain ⟨rfl, _⟩ := pure_eq_ok.mp hret
      obtain ⟨hpaths, hrows⟩ := ih hrest
      refine ⟨by rw [List.map_cons, hpaths], fun row' hm => ?_⟩
      rcases List.mem_cons.mp hm with rfl | hm
      · exact ⟨rfl, s, u, hr⟩
      · exact hrows row' hm

theorem of_threeWay (h : threeWay load base ours theirs s = .ok (rows, s')) :
    rows.map Row.path = allPaths base ours theirs ∧
      ∀ row ∈ rows, row.sides = sidesOf base ours theirs row.path ∧
        ((row.result = .unresolved .renameRename ∧
            (partnersOf base ours theirs).get? row.path ≠ none) ∨
          ((partnersOf base ours theirs).get? row.path = none ∧
            ∃ t t', mergePath load row.sides t = .ok (row.result, t'))) := by
  obtain ⟨decided, t, hdecided, hret⟩ := bind_eq_ok.mp h
  obtain ⟨rfl, _⟩ := pure_eq_ok.mp hret
  obtain ⟨hpaths, hrows⟩ := of_mapM_mergeRow hdecided
  have hpartner : ∀ row : Row Id, (row.withPartner (partnersOf base ours theirs)).path = row.path ∧
      (row.withPartner (partnersOf base ours theirs)).sides = row.sides := by
    intro row
    unfold Row.withPartner
    split <;> exact ⟨rfl, rfl⟩
  constructor
  · rw [← hpaths, List.map_map]
    exact List.map_congr_left (fun row _ => (hpartner row).1)
  · intro row' hm
    obtain ⟨row, hrow, rfl⟩ := List.mem_map.mp hm
    obtain ⟨hsides, hresult⟩ := hrows row hrow
    obtain ⟨hp, hs⟩ := hpartner row
    rw [hp, hs]
    refine ⟨hsides, ?_⟩
    unfold Row.withPartner
    cases hget : (partnersOf base ours theirs).get? row.path with
    | some other => exact Or.inl ⟨rfl, by simp⟩
    | none => exact Or.inr ⟨rfl, hresult⟩

/-! ### Outcomes -/

omit [DecidableEq Id] in
theorem rows_unique (hn : (rows.map Row.path).Nodup) {row row' : Row Id} (hm : row ∈ rows)
    (hm' : row' ∈ rows) (hp : row.path = row'.path) : row = row' :=
  List.inj_on_of_nodup_map hn hm hm' hp

omit [DecidableEq Id] in
/-- What is left of a row. -/
theorem outcome_cases (partners : SortedMap RepoPath RepoPath) (analysis : Analysis) (row : Row Id) :
    (row.result = .deleted ∧ row.outcome partners analysis = none) ∨
      (∃ c, row.outcome partners analysis = some (.inl c) ∧ c.path = row.path) ∨
      ∃ m, row.outcome partners analysis = some (.inr m) ∧ row.result = .resolved m ∧
        analysis.collisions.get? row.path = none ∧ row.path ∉ analysis.hits := by
  unfold Row.outcome
  cases hr : row.result with
  | deleted => exact Or.inl ⟨rfl, rfl⟩
  | unresolved kind => cases kind <;> exact Or.inr (Or.inl ⟨_, rfl, rfl⟩)
  | resolved m =>
      simp only
      cases hc : analysis.collisions.get? row.path with
      | some other => exact Or.inr (Or.inl ⟨_, rfl, rfl⟩)
      | none =>
          simp only
          by_cases hh : row.path ∈ analysis.hits
          · rw [if_pos hh]
            exact Or.inr (Or.inl ⟨_, rfl, rfl⟩)
          · rw [if_neg hh]
            exact Or.inr (Or.inr ⟨m, rfl, rfl, trivial, hh⟩)

omit [DecidableEq Id] in
theorem merged_iff (hn : (rows.map Row.path).Nodup) {m : Merged Id} :
    (outcomeOf choices partners usage rows applied analysis).merged.get? p = some m ↔
      ∃ row ∈ rows, row.path = p ∧ row.outcome partners analysis = some (.inr m) := by
  have hmerged : ∀ row : Row Id, ∀ e, row.merged? partners analysis = some e ↔
      e.1 = row.path ∧ row.outcome partners analysis = some (.inr e.2) := by
    rintro row ⟨q, m⟩
    unfold Row.merged?
    cases row.outcome partners analysis with
    | none => simp
    | some o => cases o <;> simp [eq_comm]
  have hkeys : ((rows.filterMap (Row.merged? partners analysis)).map Prod.fst).Nodup := by
    refine List.Nodup.sublist ?_ hn
    clear hn
    induction rows with
    | nil => exact List.Sublist.refl _
    | cons row rows ih =>
        rw [List.filterMap_cons]
        cases he : row.merged? partners analysis with
        | none => exact ih.cons _
        | some e =>
            rw [List.map_cons, List.map_cons, ((hmerged row e).mp he).1]
            exact ih.cons_cons _
  show (SortedMap.ofList _).get? p = some m ↔ _
  rw [SortedMap.get?_ofList hkeys, List.mem_filterMap]
  constructor
  · rintro ⟨row, hm, he⟩
    obtain ⟨hp, ho⟩ := (hmerged row _).mp he
    exact ⟨row, hm, hp.symm, ho⟩
  · rintro ⟨row, hm, rfl, ho⟩
    exact ⟨row, hm, (hmerged row _).mpr ⟨rfl, ho⟩⟩

omit [DecidableEq Id] in
theorem mem_conflicts {c : Conflict Id} :
    c ∈ (outcomeOf choices partners usage rows applied analysis).conflicts ↔
      ∃ row ∈ rows, row.outcome partners analysis = some (.inl c) := by
  show c ∈ rows.filterMap _ ↔ _
  rw [List.mem_filterMap]
  refine exists_congr (fun row => and_congr_right (fun _ => ?_))
  unfold Row.conflict?
  cases row.outcome partners analysis with
  | none => simp
  | some o => cases o <;> simp

/-- What an outcome promises about paths. -/
structure MergeOutcome.WellFormed (outcome : MergeOutcome Id) (equiv : RepoPath → RepoPath → Prop)
    (base ours theirs : Manifest Id) (choices : SortedMap RepoPath Choice) : Prop where
  /-- No path is merged and in conflict. -/
  disjoint : ∀ c ∈ outcome.conflicts, outcome.merged.get? c.path = none
  /-- Merged paths are neither below each other nor equivalent. -/
  unrelated : ∀ p q m m', outcome.merged.get? p = some m → outcome.merged.get? q = some m' → p ≠ q →
    p ∉ q.ancestors ∧ ¬ equiv p q
  /-- With entries for its contents the merged map is a manifest. -/
  manifest : ∀ entries : SortedMap RepoPath (FileEntry Id), entries.keys = outcome.merged.keys →
    ∃ m : Manifest Id, Manifest.ofMap entries = .ok m
  /-- Every path is merged, in conflict, or deleted by the three-way rule or by its choice. -/
  covered : ∀ p, p ∈ base.entries.keys ∨ p ∈ ours.entries.keys ∨ p ∈ theirs.entries.keys →
    (∃ m, outcome.merged.get? p = some m) ∨ (∃ c ∈ outcome.conflicts, c.path = p) ∨
      Deletes (sidesOf base ours theirs p) ∨
      ∃ c, choices.get? p = some c ∧ p ∉ outcome.unused ∧
        choose c (sidesOf base ours theirs p) = .deleted

/-- How the choices are accounted for, from the rows decided without them. -/
structure MergeOutcome.Accounts (outcome : MergeOutcome Id) (choices : SortedMap RepoPath Choice)
    (aliases : List RepoPath → Caller σ E (List RepoPath)) (rows : List (Row Id)) (s : σ × Usage) :
    Prop where
  /-- A choice is unused and never applied, or applied at one moment, to a row in conflict. -/
  once : ∀ p c, choices.get? p = some c →
    (p ∈ outcome.unused ∧ ∀ m, Visits choices aliases rows [] s m → ¬ m.Takes choices p) ∨
      (p ∉ outcome.unused ∧ ∃! m, Visits choices aliases rows [] s m ∧ m.Takes choices p)
  conflicting : ∀ m p, Visits choices aliases rows [] s m → m.Takes choices p →
    ∃ row ∈ m.rows, row.path = p ∧ row.conflicting m.analysis = true
  /-- The rounds have ended: a larger bound changes nothing. -/
  ends : ∀ n, choices.toList.length ≤ n →
    settle choices aliases n rows [] s = settle choices aliases choices.toList.length rows [] s

/-- A merge whose probe reports the equivalent ones of the given paths gives a well-formed outcome
and accounts for every choice. -/
theorem mergeResolved_wellFormed {equiv : RepoPath → RepoPath → Prop} (ha : ReportsAliases equiv aliases)
    {s s' : σ} {outcome : MergeOutcome Id}
    (h : mergeResolved base ours theirs choices aliases load s = .ok (outcome, s')) :
    outcome.WellFormed equiv base ours theirs choices ∧
      ∃ usage rows t, admission base ours theirs = (.ok usage : Except (MergeError E) Usage) ∧
        threeWay load base ours theirs (s, usage) = .ok (rows, t) ∧
        outcome.Accounts choices aliases rows t := by
  obtain ⟨usage, husage, h⟩ := except_bind_eq_ok.mp h
  obtain ⟨⟨rows, t⟩, hrows, h⟩ := except_bind_eq_ok.mp h
  obtain ⟨⟨⟨rows', applied, analysis⟩, t'⟩, hsettle, hout⟩ := except_bind_eq_ok.mp h
  cases hout
  obtain ⟨hpaths, hrow⟩ := of_threeWay hrows
  have hbound : (remaining choices []).length ≤ choices.toList.length :=
    (List.length_filter_le _ _).trans (List.length_map _).le
  have hrounds := rounds_of_settle hbound hsettle
  obtain ⟨⟨u, u', hlast⟩, hdone⟩ := hrounds.last
  have hn : (rows'.map Row.path).Nodup := by
    rw [hrounds.paths, hpaths]
    exact SortedMap.keys_nodup _
  -- A merged path is present and collides with nothing.
  have hmerged : ∀ p m, (outcomeOf choices (partnersOf base ours theirs) t.2 rows' applied
      analysis).merged.get? p = some m → p ∈ present rows' ∧ analysis.collisions.get? p = none ∧
        p ∉ analysis.hits := by
    intro p m hp
    obtain ⟨row, hm, rfl, ho⟩ := (merged_iff hn).mp hp
    rcases outcome_cases (partnersOf base ours theirs) analysis row with
      ⟨_, h'⟩ | ⟨c, h', _⟩ | ⟨m', _, hres, hc, hh⟩
    · rw [ho] at h'
      cases h'
    · rw [ho] at h'
      cases h'
    · refine ⟨mem_present.mpr ⟨row, hm, ?_, rfl⟩, hc, hh⟩
      unfold Row.present
      rw [hres]
  have hunrelated : ∀ p q m m', (outcomeOf choices (partnersOf base ours theirs) t.2 rows' applied
      analysis).merged.get? p = some m → (outcomeOf choices (partnersOf base ours theirs) t.2 rows'
      applied analysis).merged.get? q = some m' → p ≠ q → p ∉ q.ancestors ∧ ¬ equiv p q := by
    intro p q m m' hp hq hne
    obtain ⟨hpp, hcp, hhp⟩ := hmerged p m hp
    obtain ⟨hpq, hcq, _⟩ := hmerged q m' hq
    exact unrelated_of_analyse ha hlast hpp hpq (Ne.symm hne) hcp hcq hhp
  have hall : rows'.map Row.path = allPaths base ours theirs := hrounds.paths.trans hpaths
  refine ⟨⟨?_, hunrelated, ?_, ?_⟩, usage, rows, t, husage, hrows, ⟨?_, ?_, fun n hn => ?_⟩⟩
  · intro c hc
    obtain ⟨row, hm, ho⟩ := mem_conflicts.mp hc
    rw [Option.eq_none_iff_forall_ne_some]
    intro m hp
    obtain ⟨row', hm', hpath, ho'⟩ := (merged_iff hn).mp hp
    have hcp : c.path = row.path := by
      rcases outcome_cases (partnersOf base ours theirs) analysis row with
        ⟨_, h'⟩ | ⟨c', h', hcp⟩ | ⟨m', h', _⟩
      · rw [ho] at h'
        cases h'
      · rw [ho] at h'
        cases h'
        exact hcp
      · rw [ho] at h'
        cases h'
    obtain rfl := rows_unique hn hm' hm (hpath.trans hcp)
    rw [ho] at ho'
    cases ho'
  · intro entries hkeys
    have hkey : ∀ q ∈ entries.keys, ∃ m, (outcomeOf choices (partnersOf base ours theirs) t.2 rows'
        applied analysis).merged.get? q = some m := by
      intro q hq
      rw [hkeys, SortedMap.mem_keys] at hq
      exact Option.isSome_iff_exists.mp hq
    have hvalid : ∀ q ∈ entries.keys, q.Valid := by
      intro q hq
      obtain ⟨m, hm⟩ := hkey q hq
      obtain ⟨row, hmem, rfl, _⟩ := (merged_iff hn).mp hm
      have hpath : row.path ∈ allPaths base ours theirs := hall ▸ List.mem_map_of_mem hmem
      rcases mem_allPaths.mp hpath with hb | ho | ht
      · exact base.valid _ hb
      · exact ours.valid _ ho
      · exact theirs.valid _ ht
    have hfree : ∀ q ∈ entries.keys, ∀ a ∈ q.ancestors, a ∉ entries.keys := by
      intro q hq a hanc hak
      obtain ⟨m, hm⟩ := hkey q hq
      obtain ⟨m', hm'⟩ := hkey a hak
      refine (hunrelated a q m' m hm' hm ?_).1 hanc
      rintro rfl
      obtain ⟨_, rest, hrest, hnames⟩ := RepoPath.mem_ancestors.mp hanc
      exact hrest (List.append_right_eq_self.mp hnames.symm)
    refine ⟨⟨entries, hvalid, hfree⟩, ?_⟩
    unfold Manifest.ofMap
    rw [dif_pos hvalid, dif_pos hfree]
  · intro p hp
    have hpath : p ∈ rows'.map Row.path := hall ▸ mem_allPaths.mpr hp
    obtain ⟨row', hm', rfl⟩ := List.mem_map.mp hpath
    rcases outcome_cases (partnersOf base ours theirs) analysis row' with
      ⟨hdel, _⟩ | ⟨c, ho, hc⟩ | ⟨m, ho, _⟩
    · obtain ⟨row, hm, hpath, hsides, hor⟩ := hrounds.of_mem hm'
      obtain ⟨hs, hdecided⟩ := hrow row hm
      rw [hpath]
      rw [hdel] at hor
      rcases hor with hres | ⟨c, hc, happlied, hres⟩
      · rcases hdecided with ⟨hrename, _⟩ | ⟨_, v, v', hpath'⟩
        · rw [← hres] at hrename
          cases hrename
        · rw [← hres, hs] at hpath'
          exact Or.inr (Or.inr (Or.inl (deletes_of_mergePath hpath')))
      · refine Or.inr (Or.inr (Or.inr ⟨c, hc, ?_, ?_⟩))
        · intro hun
          have hfalse := (List.mem_filter.mp hun).2
          rw [decide_eq_true_eq] at hfalse
          exact hfalse happlied
        · rw [← hs]
          exact hres.symm
    · exact Or.inr (Or.inl ⟨c, mem_conflicts.mpr ⟨row', hm', ho⟩, hc⟩)
    · exact Or.inl ⟨m, (merged_iff hn).mpr ⟨row', hm', rfl, ho⟩⟩
  · intro p c hc
    have hkey : p ∈ choices.keys := SortedMap.mem_keys.mpr (by rw [hc]; rfl)
    by_cases happlied : p ∈ applied
    · refine Or.inr ⟨?_, ?_⟩
      · intro hun
        have hfalse := (List.mem_filter.mp hun).2
        rw [decide_eq_true_eq] at hfalse
        exact hfalse happlied
      · obtain ⟨m, hv, ht⟩ := (hrounds.mem_applied.mp happlied).resolve_left (by simp)
        exact ⟨m, ⟨hv, ht⟩, fun m' h' => h'.1.unique hv h'.2 ht⟩
    · refine Or.inl ⟨List.mem_filter.mpr ⟨hkey, decide_eq_true happlied⟩, fun m hv ht => ?_⟩
      exact happlied (hrounds.mem_applied.mpr (Or.inr ⟨m, hv, ht⟩))
  · intro m p _ ht
    obtain ⟨row, hm, ⟨hc, _⟩, hp⟩ := mem_taken.mp ht
    exact ⟨row, hm, hp, hc⟩
  · rw [settle_stable hn]

end outcome

/-! ### A conflict and its choice -/

def pathX : RepoPath := ⟨[⟨[120], by decide⟩]⟩

/-- The snapshot of one regular file. -/
def fileX (content : ℕ) : Manifest ℕ where
  entries := SortedMap.empty.insert pathX (.regular content false)
  valid := by
    intro p hp
    obtain rfl : p = pathX := List.mem_singleton.mp hp
    decide
  disjoint := by
    intro p hp a ha
    obtain rfl : p = pathX := List.mem_singleton.mp hp
    cases ha

/-- Contents that both sides added differently, and the choice of ours. -/
theorem mergeResolved_wellFormed_choice :
    ∃ outcome s', mergeResolved Manifest.empty (fileX 1) (fileX 2) (SortedMap.empty.insert pathX .ours)
        (fun _ s => (.ok ([], s) : Except Unit _)) (fun id s => .ok ([id.toUInt8], s)) () =
          .ok (outcome, s') ∧
      outcome.merged.get? pathX = some (.retained (.regular 1 false)) ∧
      outcome.WellFormed (fun _ _ => False) Manifest.empty (fileX 1) (fileX 2)
        (SortedMap.empty.insert pathX .ours) := by
  have hreports : ReportsAliases (fun _ _ => False) (fun _ s => (.ok ([], s) : Except Unit _) :
      List RepoPath → Caller Unit Unit (List RepoPath)) := by
    intro paths s hits s' h p
    cases h
    simp
  have h : mergeResolved Manifest.empty (fileX 1) (fileX 2) (SortedMap.empty.insert pathX .ours)
      (fun _ s => (.ok ([], s) : Except Unit _)) (fun id s => .ok ([id.toUInt8], s)) () =
        .ok (⟨SortedMap.empty.insert pathX (.retained (.regular 1 false)), [], [], ⟨512, 0⟩⟩, ()) := by
    decide +kernel
  exact ⟨_, _, h, by decide, (mergeResolved_wellFormed hreports h).1⟩

end Merge

end Javelin
