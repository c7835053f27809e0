import Javelin.Diff

/-! # Intersections

`intersect` walks two trees along changed paths.  What it adds are the endpoints of the pairs of a
changed path and a differing path of which one leads to the other (`Endpoint`): at each name an
exact change meets the differences at and below it (`endpoint_exact`), and a deeper one meets the
difference at the name and those inside (`endpoint_deeper`).  So `intersections` is the set of
endpoints (`post_intersections`). -/

namespace Javelin

open KeyedList

variable {σ Id : Type} [DecidableEq Id] [Hashing Id]

/-! ### Endpoints -/

/-- One path is the other or lies on the way to it. -/
def Comparable (p q : List Name) : Prop := p <+: q ∨ q <+: p

/-- The endpoints, below `pre`, of the pairs of a path of `P` and a path where `A` and `B`
differ. -/
def Endpoint (pre : List Name) (A B : Flat (FileEntry Id)) (P : List Name → Prop) (x : RepoPath) :
    Prop :=
  ∃ p q, P p ∧ q ≠ [] ∧ A q ≠ B q ∧ Comparable p q ∧ (x = ⟨pre ++ p⟩ ∨ x = ⟨pre ++ q⟩)

section endpoints
variable {pre : List Name} {A B : Flat (FileEntry Id)} {P Q : List Name → Prop} {x : RepoPath}
  {n : Name}
omit [DecidableEq Id] [Hashing Id]

theorem comparable_comm {p q : List Name} : Comparable p q ↔ Comparable q p := or_comm

theorem comparable_cons {m : Name} {p q : List Name} :
    Comparable (n :: p) (m :: q) ↔ n = m ∧ Comparable p q := by
  unfold Comparable
  rw [List.cons_prefix_cons, List.cons_prefix_cons, eq_comm (a := m), ← and_or_left]

@[simp] theorem comparable_nil {q : List Name} : Comparable [] q := Or.inl (List.nil_prefix)

/-- Comparable paths are equal or one is an ancestor of the other. -/
theorem comparable_iff {p q : RepoPath} (hp : p.names ≠ []) (hq : q.names ≠ []) :
    Comparable p.names q.names ↔ p = q ∨ p ∈ q.ancestors ∨ q ∈ p.ancestors := by
  have hle : ∀ a b : RepoPath, a.names ≠ [] → (a.names <+: b.names ↔ a = b ∨ a ∈ b.ancestors) := by
    intro a b ha
    rw [RepoPath.mem_ancestors]
    constructor
    · rintro ⟨r, hr⟩
      by_cases hnil : r = []
      · subst hnil
        rw [List.append_nil] at hr
        exact Or.inl (RepoPath.names_injective hr)
      · exact Or.inr ⟨ha, r, hnil, hr.symm⟩
    · rintro (rfl | ⟨_, r, _, hr⟩)
      · exact List.prefix_refl _
      · exact ⟨r, hr.symm⟩
  unfold Comparable
  rw [hle p q hp, hle q p hq]
  constructor
  · rintro ((h | h) | (h | h))
    · exact Or.inl h
    · exact Or.inr (Or.inl h)
    · exact Or.inl h.symm
    · exact Or.inr (Or.inr h)
  · rintro (h | h | h)
    · exact Or.inl (Or.inl h)
    · exact Or.inl (Or.inr h)
    · exact Or.inr (Or.inr h)

theorem Endpoint.mono (hPQ : ∀ p, P p → Q p) (h : Endpoint pre A B P x) : Endpoint pre A B Q x := by
  obtain ⟨p, q, hp, hrest⟩ := h
  exact ⟨p, q, hPQ p hp, hrest⟩

theorem endpoint_or :
    Endpoint pre A B (fun p => P p ∨ Q p) x ↔ Endpoint pre A B P x ∨ Endpoint pre A B Q x := by
  constructor
  · rintro ⟨p, q, hp | hp, hrest⟩
    · exact Or.inl ⟨p, q, hp, hrest⟩
    · exact Or.inr ⟨p, q, hp, hrest⟩
  · rintro (h | h)
    · exact h.mono (fun _ => Or.inl)
    · exact h.mono (fun _ => Or.inr)

/-- Paths that start with a name meet only differences that start with it. -/
theorem not_endpoint (hP : ∀ p, P p → ∃ r, p = n :: r) (h : ∀ r, A (n :: r) = B (n :: r)) :
    ¬ Endpoint pre A B P x := by
  rintro ⟨p, q, hp, hq, hne, hpq, _⟩
  obtain ⟨r, rfl⟩ := hP p hp
  obtain ⟨m, q, rfl⟩ := List.exists_cons_of_ne_nil hq
  obtain ⟨rfl, _⟩ := comparable_cons.mp hpq
  exact hne (h q)

/-- An exact change at a name meets the difference there and those below. -/
theorem endpoint_exact : Endpoint pre A B (fun p => p = [n]) x ↔
    (A [n] ≠ B [n] ∧ x = ⟨pre ++ [n]⟩) ∨ ∃ q, q ≠ [] ∧ A.inner n q ≠ B.inner n q ∧
      (x = ⟨pre ++ [n]⟩ ∨ x = ⟨pre ++ [n] ++ q⟩) := by
  constructor
  · rintro ⟨p, q, rfl, hq, hne, hpq, hx⟩
    obtain ⟨m, q, rfl⟩ := List.exists_cons_of_ne_nil hq
    obtain ⟨rfl, _⟩ := comparable_cons.mp hpq
    by_cases hqn : q = []
    · subst hqn
      exact Or.inl ⟨hne, hx.elim id id⟩
    · refine Or.inr ⟨q, hqn, ?_, ?_⟩
      · rwa [Flat.inner_of_ne hqn, Flat.inner_of_ne hqn]
      · rwa [List.append_assoc]
  · rintro (⟨hne, rfl⟩ | ⟨q, hq, hne, hx⟩)
    · exact ⟨[n], [n], rfl, by simp, hne, Or.inl (List.prefix_refl _), Or.inl rfl⟩
    · rw [Flat.inner_of_ne hq, Flat.inner_of_ne hq] at hne
      rw [List.append_assoc] at hx
      exact ⟨[n], n :: q, rfl, by simp, hne, comparable_cons.mpr ⟨rfl, comparable_nil⟩, hx⟩

/-- A change below a name meets the difference at the name and those inside it. -/
theorem endpoint_deeper : Endpoint pre A B (fun p => ∃ r, r ≠ [] ∧ P r ∧ p = n :: r) x ↔
    (A [n] ≠ B [n] ∧ ∃ r, r ≠ [] ∧ P r ∧ (x = ⟨pre ++ [n]⟩ ∨ x = ⟨pre ++ [n] ++ r⟩)) ∨
      Endpoint (pre ++ [n]) (A.inner n) (B.inner n) (fun r => r ≠ [] ∧ P r) x := by
  constructor
  · rintro ⟨p, q, ⟨r, hr, hP, rfl⟩, hq, hne, hpq, hx⟩
    obtain ⟨m, q, rfl⟩ := List.exists_cons_of_ne_nil hq
    obtain ⟨rfl, hrq⟩ := comparable_cons.mp hpq
    by_cases hqn : q = []
    · subst hqn
      refine Or.inl ⟨hne, r, hr, hP, ?_⟩
      rw [List.append_assoc]
      exact hx.symm
    · refine Or.inr ⟨r, q, ⟨hr, hP⟩, hqn, ?_, hrq, ?_⟩
      · rwa [Flat.inner_of_ne hqn, Flat.inner_of_ne hqn]
      · rwa [List.append_assoc, List.append_assoc]
  · rintro (⟨hne, r, hr, hP, hx⟩ | ⟨r, q, ⟨hr, hP⟩, hq, hne, hrq, hx⟩)
    · rw [List.append_assoc] at hx
      exact ⟨n :: r, [n], ⟨r, hr, hP, rfl⟩, by simp, hne,
        comparable_cons.mpr ⟨rfl, comparable_comm.mp comparable_nil⟩, hx.symm⟩
    · rw [Flat.inner_of_ne hq, Flat.inner_of_ne hq] at hne
      rw [List.append_assoc, List.append_assoc] at hx
      exact ⟨n :: r, n :: q, ⟨r, hr, hP, rfl⟩, by simp, hne, comparable_cons.mpr ⟨rfl, hrq⟩, hx⟩

end endpoints

variable [Store σ Id] [LawfulStore σ Id]

namespace Trees
variable {t : Trees σ Id} {E : Chunk Id → Prop} {R : Error Id → Prop}

/-! ### One name -/

/-- `found'` adds to `found` the endpoints of the paths of `P`. -/
def Finds (pre : List Name) (A B : Flat (FileEntry Id)) (P : List Name → Prop)
    (found found' : SortedSet RepoPath) : Prop :=
  ∀ x, x ∈ found' ↔ x ∈ found ∨ Endpoint pre A B P x

section finds
variable {pre : List Name} {A B : Flat (FileEntry Id)} {P Q : List Name → Prop}
  {found found₁ found' : SortedSet RepoPath}
omit [DecidableEq Id] [Hashing Id] [Store σ Id] [LawfulStore σ Id]

theorem Finds.refl (h : ∀ x, ¬ Endpoint pre A B P x) : Finds pre A B P found found := by
  intro x
  simp [h x]

theorem Finds.trans (h : Finds pre A B P found found₁) (h' : Finds pre A B Q found₁ found') :
    Finds pre A B (fun p => P p ∨ Q p) found found' := by
  intro x
  rw [h' x, h x, endpoint_or, or_assoc]

theorem Finds.congr (h : Finds pre A B P found found') (hPQ : ∀ p, P p ↔ Q p) :
    Finds pre A B Q found found' := by
  obtain rfl : P = Q := funext (fun p => propext (hPQ p))
  exact h

end finds

variable {d : ℕ} {pre : List Name} {A B : Flat (FileEntry Id)} {a b : Option Id} {n : Name}
  {found : SortedSet RepoPath}

/-- A changed path at a name. -/
theorem post_intersectExact (hd : d ≤ MAX_DEPTH) (ht : t.Coherent)
    (ha : IsDir t.Has d (A.inner n) a) (hb : IsDir t.Has d (B.inner n) b)
    (hva : ValidBelow pre A) (hvb : ValidBelow pre B) :
    Post E (intersectExact (pre ++ [n]) (decide (A [n] ≠ B [n])) a b found) t
      (fun found' _ => Finds pre A B (fun p => p = [n]) found found') R := by
  unfold intersectExact
  refine Post.bind (post_diffDir (by omega) ht ha hb (hva.inner n) (hvb.inner n)) ?_
  intro below t₁ hs₁ hw
  refine Post.pure hs₁.coherent (fun x => ?_)
  have hkeys := hw.mem_keys
  have hhere : x ∈ (if decide (A [n] ≠ B [n]) = true then found.add ⟨pre ++ [n]⟩ else found) ↔
      (A [n] ≠ B [n] ∧ x = ⟨pre ++ [n]⟩) ∨ x ∈ found := by
    by_cases hne : A [n] = B [n]
    · simp [hne]
    · simp [hne, eq_comm]
  rw [endpoint_exact]
  by_cases hnil : below.toList = []
  · rw [if_pos hnil, hhere]
    have hnone : ¬ ∃ q, q ≠ [] ∧ A.inner n q ≠ B.inner n q ∧
        (x = ⟨pre ++ [n]⟩ ∨ x = ⟨pre ++ [n] ++ q⟩) := by
      rintro ⟨q, hq, hne, _⟩
      have hk := (hkeys _).mpr ⟨q, hq, hne, rfl⟩
      rw [SortedMap.keys, hnil] at hk
      cases hk
    simp only [hnone, or_false]
    exact or_comm
  · rw [if_neg hnil, SortedSet.mem_addAll, SortedSet.mem_add, hkeys, hhere]
    obtain ⟨⟨k, v⟩, hk⟩ := List.exists_mem_of_ne_nil _ hnil
    obtain ⟨q, hq, hne, _⟩ := (hkeys k).mp (List.mem_map_of_mem hk)
    constructor
    · rintro (⟨q, hq, hne, rfl⟩ | rfl | ⟨hne, rfl⟩ | hx)
      · exact Or.inr (Or.inr ⟨q, hq, hne, Or.inr rfl⟩)
      · exact Or.inr (Or.inr ⟨q, hq, hne, Or.inl rfl⟩)
      · exact Or.inr (Or.inl ⟨hne, rfl⟩)
      · exact Or.inl hx
    · rintro (hx | ⟨hne, rfl⟩ | ⟨q, hq, hne, rfl | rfl⟩)
      · exact Or.inr (Or.inr (Or.inr hx))
      · exact Or.inr (Or.inl rfl)
      · exact Or.inr (Or.inl rfl)
      · exact Or.inl ⟨q, hq, hne, rfl⟩

theorem post_intersectHere (exact : Bool) (hd : d ≤ MAX_DEPTH) (ht : t.Coherent)
    (ha : IsDir t.Has d (A.inner n) a) (hb : IsDir t.Has d (B.inner n) b)
    (hva : ValidBelow pre A) (hvb : ValidBelow pre B) :
    Post E (intersectHere exact (pre ++ [n]) (decide (A [n] ≠ B [n])) a b found) t
      (fun found' _ => Finds pre A B (fun p => exact ∧ p = [n]) found found') R := by
  unfold intersectHere
  cases exact with
  | true =>
      simp only [if_true, true_and]
      exact post_intersectExact hd ht ha hb hva hvb
  | false =>
      refine Post.pure ht (Finds.refl ?_)
      rintro z ⟨_, _, ⟨hfalse, _⟩, _⟩
      cases hfalse

omit [DecidableEq Id] [Hashing Id] [Store σ Id] [LawfulStore σ Id] in
/-- Changed paths below a name: each meets the difference at the name, and those inside it. -/
theorem finds_deeper [DecidableEq Id] {deeper : List (List Name × Unit)}
    {found' : SortedSet RepoPath} (hne : ∀ r, (r, ()) ∈ deeper → r ≠ []) (hnil : deeper ≠ [])
    (h : Finds (pre ++ [n]) (A.inner n) (B.inner n) (fun r => (r, ()) ∈ deeper)
      (if decide (A [n] ≠ B [n]) = true then
        (found.add ⟨pre ++ [n]⟩).addAll (deeper.map (fun rest => ⟨pre ++ [n] ++ rest.1⟩))
        else found) found') :
    Finds pre A B (fun p => ∃ r, r ≠ [] ∧ (r, ()) ∈ deeper ∧ p = n :: r) found found' := by
  have hP : (fun r => (r, ()) ∈ deeper) = (fun r => r ≠ [] ∧ (r, ()) ∈ deeper) :=
    funext (fun r => propext ⟨fun hr => ⟨hne r hr, hr⟩, fun hr => hr.2⟩)
  intro x
  rw [h x, endpoint_deeper, ← hP, ← or_assoc]
  apply or_congr_left'
  intro _
  by_cases hfile : A [n] = B [n]
  · simp [hfile]
  · obtain ⟨⟨r, u⟩, hr⟩ := List.exists_mem_of_ne_nil _ hnil
    simp only [hfile, ne_eq, not_false_eq_true, decide_true, if_true, SortedSet.mem_addAll,
      SortedSet.mem_add, List.mem_map, true_and]
    constructor
    · rintro (⟨⟨r, u⟩, hr, rfl⟩ | rfl | hx)
      · exact Or.inr ⟨r, hne r hr, hr, Or.inr rfl⟩
      · exact Or.inr ⟨r, hne r hr, hr, Or.inl rfl⟩
      · exact Or.inl hx
    · rintro (hx | ⟨r, _, hr, rfl | rfl⟩)
      · exact Or.inr (Or.inr hx)
      · exact Or.inr (Or.inl rfl)
      · exact Or.inl ⟨(r, ()), hr, rfl⟩

/-- The paths of a call of `intersect`. -/
structure ChangedPaths (bound : ℕ) (paths : List (List Name × Unit)) : Prop where
  nodup : (paths.map Prod.fst).Nodup
  ne_nil : ∀ e ∈ paths, e.1 ≠ []
  length : ∀ e ∈ paths, e.1.length ≤ bound

omit [DecidableEq Id] [Hashing Id] [Store σ Id] [LawfulStore σ Id] in
theorem ChangedPaths.deeper {bound : ℕ} {paths : List (List Name × Unit)} {g : Group Unit}
    (h : ChangedPaths (bound + 1) paths) (hg : GroupOf paths n g) : ChangedPaths bound g.deeper where
  nodup := hg.nodup
  ne_nil := fun e he => ((hg.mem_deeper e.1 e.2).mp he).1
  length := by
    intro e he
    have hl := h.length _ ((hg.mem_deeper e.1 e.2).mp he).2
    rw [List.length_cons] at hl
    omega

/-- The paths of a group: the name itself, and those below it. -/
theorem mem_group {paths : List (List Name × Unit)} {g : Group Unit}
    (hn : (paths.map Prod.fst).Nodup) (hg : GroupOf paths n g) (p : List Name) :
    (p.head? = some n ∧ (p, ()) ∈ paths) ↔
      (g.exact.isSome ∧ p = [n]) ∨ ∃ r, r ≠ [] ∧ (r, ()) ∈ g.deeper ∧ p = n :: r := by
  rw [hg.exact]
  constructor
  · rintro ⟨hhead, hp⟩
    cases p with
    | nil => simp at hhead
    | cons m r =>
        obtain rfl : m = n := by simpa using hhead
        by_cases hr : r = []
        · subst hr
          refine Or.inl ⟨?_, rfl⟩
          rw [(flatOf_eq_some hn).mpr hp]
          rfl
        · exact Or.inr ⟨r, hr, (hg.mem_deeper r ()).mpr ⟨hr, hp⟩, rfl⟩
  · rintro (⟨hex, rfl⟩ | ⟨r, _, hr, rfl⟩)
    · obtain ⟨u, hu⟩ := Option.isSome_iff_exists.mp hex
      exact ⟨rfl, (flatOf_eq_some hn).mp hu⟩
    · exact ⟨rfl, ((hg.mem_deeper r ()).mp hr).2⟩

/-- `intersect` adds the endpoints of the changed paths. -/
theorem post_intersect {bound : ℕ} {paths : List (List Name × Unit)} (hpaths : ChangedPaths bound paths)
    (hd : d ≤ MAX_DEPTH) (ht : t.Coherent) (ha : IsDir t.Has d A a) (hb : IsDir t.Has d B b)
    (hva : ValidBelow pre A) (hvb : ValidBelow pre B) :
    Post E (intersect bound a b pre paths found) t
      (fun found' _ => Finds pre A B (fun p => (p, ()) ∈ paths) found found') R := by
  induction bound generalizing d pre A B a b paths found t with
  | zero =>
      refine Post.pure ht (Finds.refl ?_)
      rintro x ⟨p, _, hp, _⟩
      have hl := hpaths.length _ hp
      exact hpaths.ne_nil _ hp (List.length_eq_zero_iff.mp (by omega))
  | succ bound ih =>
      unfold intersect
      by_cases hab : a = b
      · rw [if_pos hab]
        subst hab
        obtain rfl := ha.flat_eq hb
        refine Post.pure ht (Finds.refl ?_)
        rintro x ⟨_, q, _, _, hne, _⟩
        exact hne rfl
      rw [if_neg hab]
      obtain ⟨itemsA, heightA, hlA, hrA⟩ := isDir_listing ha
      obtain ⟨itemsB, heightB, hlB, hrB⟩ := isDir_listing hb
      refine Post.mono (Post.foldlM (I := fun done found' =>
        Finds pre A B (fun p => ∃ g ∈ done, p.head? = some g.1 ∧ (p, ()) ∈ paths) found found')
        ht ?_ ?_) ?_ (fun _ h => h)
      · refine Finds.refl ?_
        rintro x ⟨_, _, ⟨_, hg, _⟩, _⟩
        cases hg
      · rintro done ⟨n, g⟩ rest hl found₁ t₁ hs₁ hdone
        have hgm : (n, g) ∈ (groups paths).toList := by
          rw [hl]
          simp
        have hg : GroupOf paths n g := by
          apply groups_some hpaths.nodup
          exact SortedMap.get?_eq_some.mpr hgm
        have hmem := mem_group hpaths.nodup hg
        have hall : ∀ found', Finds pre A B (fun p => (g.exact.isSome ∧ p = [n]) ∨
              ∃ r, r ≠ [] ∧ (r, ()) ∈ g.deeper ∧ p = n :: r) found₁ found' →
            Finds pre A B (fun p => ∃ g' ∈ done ++ [(n, g)], p.head? = some g'.1 ∧
              (p, ()) ∈ paths) found found' := by
          intro found' hf
          apply (hdone.trans hf).congr
          intro p
          rw [← hmem p]
          simp only [List.mem_append, List.mem_singleton, or_and_right, exists_or, exists_eq_left]
        refine Runs.bind_post (runs_findIn hs₁.coherent hlA.clean.ascending (hrA.mono hs₁.has) n) ?_
        intro t₂ hs₂
        refine Runs.bind_post (runs_findIn hs₂.coherent hlB.clean.ascending
          (hrB.mono (fun c hc => hs₂.has c (hs₁.has c hc))) n) ?_
        intro t₃ hs₃
        have hhas : ∀ c, t.Has c → t₃.Has c := fun c hc => hs₃.has c (hs₂.has c (hs₁.has c hc))
        have hnA := hlA.node n
        have hnB := hlB.node n
        generalize (KeyedList.lookup Item.name n itemsA).map Item.node = x at hnA
        generalize (KeyedList.lookup Item.name n itemsB).map Item.node = y at hnB
        by_cases hxy : x = y
        · subst hxy
          rw [if_pos rfl]
          refine Post.pure hs₃.coherent (hall found₁ (Finds.refl (fun z => ?_)))
          apply not_endpoint _ (eq_of_node_eq hnA hnB)
          rintro p (⟨_, rfl⟩ | ⟨r, _, _, rfl⟩)
          · exact ⟨[], rfl⟩
          · exact ⟨r, rfl⟩
        rw [if_neg hxy]
        have hdA := hnA.isDir.mono hhas
        have hdB := hnB.isDir.mono hhas
        simp only [hnA.file_eq, hnB.file_eq]
        refine Post.bind (post_intersectHere g.exact.isSome (by omega) hs₃.coherent hdA hdB hva hvb) ?_
        intro found₂ t₄ hs₄ hfound₂
        by_cases hdeep : g.deeper = []
        · rw [if_pos hdeep]
          refine Post.pure hs₄.coherent (hall found₂ (hfound₂.trans (Finds.refl ?_)))
          rintro z ⟨_, _, ⟨r, _, hr, _⟩, _⟩
          rw [hdeep] at hr
          cases hr
        · rw [if_neg hdeep]
          have hd' : d - 1 ≤ MAX_DEPTH := by omega
          refine Post.mono (ih (hpaths.deeper hg) hd' hs₄.coherent (hdA.mono hs₄.has)
            (hdB.mono hs₄.has) (hva.inner n) (hvb.inner n)) ?_ (fun _ h => h)
          intro found' _ _ hf
          have hne : ∀ r, (r, ()) ∈ g.deeper → r ≠ [] := fun r hr => ((hg.mem_deeper r ()).mp hr).1
          exact hall found' (hfound₂.trans (finds_deeper hne hdeep hf))
      · intro found' _ _ hf
        apply hf.congr
        intro p
        constructor
        · rintro ⟨_, _, _, hp⟩
          exact hp
        · intro hp
          obtain ⟨n, r, rfl⟩ := List.exists_cons_of_ne_nil (hpaths.ne_nil _ hp)
          cases hget : (groups paths).get? n with
          | none => exact absurd (groups_none hget r) (by rw [(flatOf_eq_some hpaths.nodup).mpr hp]; simp)
          | some g => exact ⟨(n, g), SortedMap.get?_eq_some.mp hget, rfl, hp⟩

/-- The endpoints of the intersections of changes with the difference of two snapshots. -/
theorem post_intersections {A B : Flat (FileEntry Id)} {a b : Id} (ht : t.Coherent)
    (ha : IsTree t.Has A a) (hb : IsTree t.Has B b) (hva : ValidBelow [] A) (hvb : ValidBelow [] B)
    (c : SparseChanges Id) :
    Post E (intersections a b c) t
      (fun found _ => ∀ x, x ∈ found ↔ Endpoint [] A B (fun p => c.flat p ≠ none) x) R := by
  have hch := c.changes_valid
  have hpaths : ChangedPaths MAX_DEPTH (c.changes.map (fun e => (e.1, ()))) := by
    constructor
    · rw [List.map_map]
      exact hch.nodup
    · intro e he
      obtain ⟨e', he', rfl⟩ := List.mem_map.mp he
      exact hch.ne_nil e' he'
    · intro e he
      obtain ⟨e', he', rfl⟩ := List.mem_map.mp he
      exact hch.length e' he'
  have hmem : ∀ p, (p, ()) ∈ c.changes.map (fun e => (e.1, ())) ↔ c.flat p ≠ none := by
    intro p
    rw [← c.flatOf_changes, ne_eq, flatOf_eq_none, List.mem_map]
    simp
  unfold intersections
  refine Post.mono (post_intersect hpaths (le_refl _) ht ha hb hva hvb) ?_ (fun _ h => h)
  intro found _ _ hf x
  have hx := (hf.congr hmem) x
  rw [hx]
  exact or_iff_right (by simp [SortedSet.mem_iff])

end Trees

end Javelin
