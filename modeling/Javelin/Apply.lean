import Javelin.Canonical
import Javelin.Grouping

/-! # Applying changes to canonical trees

`applyDir` on the canonical tree of a snapshot `S` ends at the canonical tree of `S` overwritten
by the changes, or refuses them as invalid; it refuses exactly when `Refused` holds or the result
is `TooTall` (`post_applyDir`).  The recursion follows the directories: `post_groupEdit` is the
step for one name of a directory, and the edits of all names together turn the items of the old
directory into those of the new one. -/

namespace Javelin

open KeyedList

variable {σ Id : Type} [DecidableEq Id] [Hashing Id] [Store σ Id] [LawfulStore σ Id]

/-- Changes with distinct nonempty paths of at most `d` components, all names within the limit. -/
structure Changes (d : ℕ) (changes : List (Change Id)) : Prop where
  nodup : (changes.map Prod.fst).Nodup
  ne_nil : ∀ c ∈ changes, c.1 ≠ []
  length : ∀ c ∈ changes, c.1.length ≤ d
  names : ∀ c ∈ changes, ∀ n ∈ c.1, n.1.length ≤ MAX_PATH

section changes
variable {d : ℕ} {changes : List (Change Id)} {n : Name} {g : Group (Option (FileEntry Id))}
omit [DecidableEq Id] [Hashing Id]

theorem Changes.flatOf_nil (h : Changes d changes) : flatOf changes [] = none :=
  flatOf_eq_none.mpr (fun c hc => h.ne_nil c hc)

theorem Changes.deeper (h : Changes (d + 1) changes) (hg : GroupOf changes n g) :
    Changes d g.deeper where
  nodup := hg.nodup
  ne_nil := fun c hc => ((hg.mem_deeper c.1 c.2).mp hc).1
  length := by
    intro c hc
    have hl := h.length _ ((hg.mem_deeper c.1 c.2).mp hc).2
    simp only [List.length_cons] at hl
    omega
  names := by
    intro c hc m hm
    exact h.names _ ((hg.mem_deeper c.1 c.2).mp hc).2 m (List.mem_cons_of_mem _ hm)

theorem Changes.flatOf_deeper (h : Changes (d + 1) changes) (hg : GroupOf changes n g) :
    flatOf g.deeper = (flatOf changes).inner n := by
  funext q
  exact hg.flatOf_deeper h.nodup q

/-- The name of a group is within the limit. -/
theorem Changes.name_le (h : Changes d changes) (hs : (groups changes).get? n = some g) :
    n.1.length ≤ MAX_PATH := by
  obtain ⟨q, hq⟩ := groups_some_exists hs
  obtain ⟨a, ha⟩ := Option.ne_none_iff_exists'.mp hq
  exact h.names _ ((flatOf_eq_some h.nodup).mp ha) n (by simp)

end changes

/-! ### One name -/

/-- Nothing at or below the component `n` must be refused. -/
structure Fine (S : Flat (FileEntry Id)) (c : Flat (Option (FileEntry Id))) (n : Name) : Prop where
  exact : ¬ (c [n] = some none ∧ S [n] = none ∧
    ∃ q, q ≠ [] ∧ (S (n :: q) ≠ none ∨ c (n :: q) ≠ none))
  deeper : ¬ Refused (S.inner n) (c.inner n)

section flats
variable {S : Flat (FileEntry Id)} {c : Flat (Option (FileEntry Id))} {n : Name}
omit [DecidableEq Id] [Hashing Id]

theorem Refused.of_exact (hc : c [n] = some none) (hs : S [n] = none)
    (hq : ∃ q, q ≠ [] ∧ (S (n :: q) ≠ none ∨ c (n :: q) ≠ none)) : Refused S c :=
  Or.inl ⟨[n], by simp, hc, hs, hq⟩

theorem Refused.of_collision {V : Type} {S : Flat V} {c : Flat (Option V)} {n : Name}
    (hf : (S.over c) [n] ≠ none) (hT : ¬ ((S.over c).inner n).Empty) : Refused S c := by
  refine Or.inr (fun hpf => ?_)
  simp only [Flat.Empty, not_forall] at hT
  obtain ⟨q, hq⟩ := hT
  have hqn : q ≠ [] := by
    rintro rfl
    exact hq rfl
  rw [Flat.inner_of_ne hqn] at hq
  exact hpf [n] (by simp) hf ⟨q, hqn, hq⟩

/-- Without changes below a name nothing there is refused. -/
theorem not_refused_of_none {V : Type} {T : Flat V} {c : Flat (Option V)} (hT : T.PrefixFree)
    (hc : ∀ q, c q = none) : ¬ Refused T c := by
  rintro (⟨p, _, hp, _⟩ | h)
  · rw [hc p] at hp
    cases hp
  · apply h
    have hover : T.over c = T := funext (fun q => Flat.over_of_none (hc q))
    rwa [hover]

theorem not_refused_of_fine (hall : ∀ n, (∃ q, c (n :: q) ≠ none) → Fine S c n)
    (hpf : (S.over c).PrefixFree) : ¬ Refused S c := by
  rintro (⟨p, hp, hc, hs, q, hq, hd⟩ | h)
  · obtain ⟨n, p, rfl⟩ := List.exists_cons_of_ne_nil hp
    have hfine := hall n ⟨p, by rw [hc]; simp⟩
    by_cases hpn : p = []
    · subst hpn
      exact hfine.exact ⟨hc, hs, q, hq, hd⟩
    · refine hfine.deeper (Or.inl ⟨p, hpn, ?_, ?_, q, hq, ?_⟩)
      · rw [Flat.inner_of_ne hpn]
        exact hc
      · rw [Flat.inner_of_ne hpn]
        exact hs
      · rw [Flat.inner_of_ne (by simp [hpn]), Flat.inner_of_ne (by simp [hpn])]
        exact hd
  · exact h hpf

end flats

namespace Trees
variable {t : Trees σ Id} {E : Chunk Id → Prop} {S : Flat (FileEntry Id)} {items : List (Item Id)}
  {h d : ℕ} {dir : Option Id} {changes : List (Change Id)}

/-- `find` in the root of a directory that may be absent or empty. -/
theorem runs_findIn (ht : t.Coherent) (ha : Ascending Item.name items)
    (hr : Rooted t.Has items h dir) (n : Name) :
    Runs E (findIn dir n) t ((KeyedList.lookup Item.name n items).map Item.node) := by
  unfold findIn
  rcases hr with ⟨rfl, _, rfl | rfl⟩ | ⟨c, rfl, hroot, _, hhas⟩
  · exact Runs.pure ht _
  · have hget : Runs E (get emptyId) t .emptyLeaf := runs_get ht ht.has_emptyLeaf
    have hseek : Runs E (seek emptyId 0 n false) t (some (.emptyLeaf, true)) :=
      hget.bind (fun t' hs => Runs.pure hs.coherent _)
    exact hseek.bind (fun t' hs => Runs.pure hs.coherent _)
  · exact runs_find ha ht hroot hhas n

/-- What the changes leave under one name, and whether they may. -/
def Outcome (sub : Flat (FileEntry Id) → Id → Prop) (S : Flat (FileEntry Id))
    (c : Flat (Option (FileEntry Id))) (n : Name) (next : Option (Node Id)) : Prop :=
  NodeAt sub (S.over c [n]) ((S.over c).inner n) next ∧ Fine S c n

/-- The specification of `applyDir d`. -/
def Applies (σ Id : Type) [DecidableEq Id] [Hashing Id] [Store σ Id] [LawfulStore σ Id]
    (d : ℕ) : Prop :=
  ∀ (E : Chunk Id → Prop) (t : Trees σ Id) (S : Flat (FileEntry Id)) (dir : Option Id)
    (changes : List (Change Id)), Ready E t → IsDir t.Has d S dir → Changes d changes →
    (∀ x, Emits d S (S.over (flatOf changes)) x → E x) →
    Post E (applyDir d dir changes) t
      (fun dir' t' => ¬ Refused S (flatOf changes) ∧ IsDir t'.Has d (S.over (flatOf changes)) dir' ∧
        (dir' = some emptyId → dir = some emptyId))
      (fun e => (∃ text, e = .invalidInput text) ∧
        (Refused S (flatOf changes) ∨ TooTall d (S.over (flatOf changes))))

/-- What a refusal of `applyDir (d + 1)` says. -/
def Rejects (d : ℕ) (S : Flat (FileEntry Id)) (c : Flat (Option (FileEntry Id))) (e : Error Id) :
    Prop :=
  (∃ text, e = .invalidInput text) ∧ (Refused S c ∨ TooTall (d + 1) (S.over c))

/-- A node from its file and its subdirectory. -/
theorem post_nextNode (ht : t.Coherent) {sub : Flat (FileEntry Id) → Id → Prop}
    {f : Option (FileEntry Id)} {T : Flat (FileEntry Id)} {dir' : Option Id}
    (hdir : (dir' = none ∧ T.Empty) ∨ ∃ id, dir' = some id ∧ ¬ T.Empty ∧ sub T id)
    {R : Error Id → Prop}
    (hR : f ≠ none → ¬ T.Empty → R (.invalidInput "file and descendant paths collide")) :
    Post E (nextNode f dir') t (fun next _ => NodeAt sub f T next) R := by
  unfold nextNode
  rcases hdir with ⟨rfl, hT⟩ | ⟨id, rfl, hT, hs⟩
  · cases f with
    | none => exact Post.pure ht ⟨rfl, hT⟩
    | some e => exact Post.pure ht ⟨rfl, hT⟩
  · cases f with
    | none => exact Post.pure ht ⟨rfl, hT, hs⟩
    | some e => exact Post.throw (hR (by simp) hT)

section one
variable {n : Name} {g : Group (Option (FileEntry Id))} {current : Option (Node Id)}

omit [LawfulStore σ Id] in
/-- Whether something lies or changes below a name. -/
theorem below_iff (hnode : NodeAt (SubDir t.Has d) (S [n]) (S.inner n) current)
    (hg : GroupOf changes n g) :
    (current.bind Node.dir? ≠ none ∨ g.deeper ≠ []) ↔
      ∃ q, q ≠ [] ∧ (S (n :: q) ≠ none ∨ flatOf changes (n :: q) ≠ none) := by
  have h1 : current.bind Node.dir? ≠ none ↔ ∃ q, q ≠ [] ∧ S (n :: q) ≠ none := by
    rcases hnode.dir_eq with ⟨hn, hT⟩ | ⟨id, hid, hT, _⟩
    · rw [hn]
      simp only [ne_eq, not_true_eq_false, false_iff, not_exists, not_and, not_not]
      intro q hq
      have hTq := hT q
      rwa [Flat.inner_of_ne hq] at hTq
    · rw [hid]
      simp only [ne_eq, reduceCtorEq, not_false_eq_true, true_iff]
      simp only [Flat.Empty, not_forall] at hT
      obtain ⟨q, hq⟩ := hT
      have hqn : q ≠ [] := by
        rintro rfl
        exact hq rfl
      exact ⟨q, hqn, by rwa [Flat.inner_of_ne hqn] at hq⟩
  have h2 : g.deeper ≠ [] ↔ ∃ q, q ≠ [] ∧ flatOf changes (n :: q) ≠ none := by
    rw [ne_eq, hg.deeper_eq_nil]
    simp only [not_forall, exists_prop, ne_eq]
  rw [h1, h2]
  constructor
  · rintro (⟨q, hq, hs⟩ | ⟨q, hq, hs⟩)
    · exact ⟨q, hq, Or.inl hs⟩
    · exact ⟨q, hq, Or.inr hs⟩
  · rintro ⟨q, hq, hs | hs⟩
    · exact Or.inl ⟨q, hq, hs⟩
    · exact Or.inr ⟨q, hq, hs⟩

/-- The subdirectory of a name after the changes below it. -/
theorem post_applyDeeper (hinto : Applies σ Id d) (hr : Ready E t)
    (hnode : NodeAt (SubDir t.Has d) (S [n]) (S.inner n) current) (hch : Changes (d + 1) changes)
    (hg : GroupOf changes n g)
    (hE : ∀ x, Emits d (S.inner n) ((S.over (flatOf changes)).inner n) x → E x) :
    Post E (applyDeeper (applyDir d) (current.bind Node.dir?) g.deeper) t
      (fun dir' t' => ¬ Refused (S.inner n) ((flatOf changes).inner n) ∧
        ((dir' = none ∧ ((S.over (flatOf changes)).inner n).Empty) ∨
          ∃ id, dir' = some id ∧ ¬ ((S.over (flatOf changes)).inner n).Empty ∧
            SubDir t'.Has d ((S.over (flatOf changes)).inner n) id))
      (Rejects d S (flatOf changes)) := by
  have hcT := hch.flatOf_deeper hg
  have hover := Flat.inner_over S (flatOf changes) n
  have hsub : IsDir t.Has d (S.inner n) (current.bind Node.dir?) ∧
      current.bind Node.dir? ≠ some emptyId := by
    rcases hnode.dir_eq with ⟨hn, hT⟩ | ⟨id, hid, hT, hs⟩
    · rw [hn]
      exact ⟨isDir_empty hT (Or.inl rfl), by simp⟩
    · rw [hid]
      have hs' : IsDir t.Has d (S.inner n) (some id) := hs
      exact ⟨hs', hs'.ne_emptyId hT⟩
  obtain ⟨hdir, hproper⟩ := hsub
  generalize hsome : current.bind Node.dir? = sub at hdir hproper
  unfold applyDeeper
  by_cases hd : g.deeper = []
  · rw [if_pos hd]
    have hcnone : ∀ q, (flatOf changes).inner n q = none := by
      intro q
      by_cases hq : q = []
      · subst hq; rfl
      · rw [Flat.inner_of_ne hq]
        exact hg.deeper_eq_nil.mp hd q hq
    have hsame : (S.over (flatOf changes)).inner n = S.inner n := by
      rw [hover]
      exact funext (fun q => Flat.over_of_none (hcnone q))
    rw [hsame]
    refine Post.pure hr.coherent ⟨not_refused_of_none hdir.prefixFree hcnone, ?_⟩
    cases sub with
    | none => exact Or.inl ⟨rfl, (hdir.not_empty_of_ne hproper).mp rfl⟩
    | some id =>
        refine Or.inr ⟨id, rfl, fun hT => ?_, hdir⟩
        have hnone := (hdir.not_empty_of_ne hproper).mpr hT
        cases hnone
  · rw [if_neg hd]
    have hEd : ∀ x, Emits d (S.inner n) ((S.inner n).over (flatOf g.deeper)) x → E x := by
      rw [hcT, ← hover]
      exact hE
    have happly := hinto E t (S.inner n) sub g.deeper hr hdir (hch.deeper hg) hEd
    rw [hcT, ← hover] at happly
    refine Post.mono happly ?_ ?_
    · rintro dir' t₂ _ ⟨hnr, hdir₂, hemp⟩
      have hproper₂ : dir' ≠ some emptyId := fun heq => hproper (hemp heq)
      refine ⟨hnr, ?_⟩
      cases dir' with
      | none => exact Or.inl ⟨rfl, (hdir₂.not_empty_of_ne hproper₂).mp rfl⟩
      | some id =>
          refine Or.inr ⟨id, rfl, fun hT => ?_, hdir₂⟩
          have hnone := (hdir₂.not_empty_of_ne hproper₂).mpr hT
          cases hnone
    · rintro e ⟨htext, hrej | htall⟩
      · exact ⟨htext, Or.inl hrej.of_inner⟩
      · exact ⟨htext, Or.inr (Or.inr ⟨n, htall⟩)⟩

/-- The step for one name of a directory. -/
theorem post_groupEdit (hinto : Applies σ Id d) (hr : Ready E t)
    (hl : Listed (SubDir t.Has d) S items) (hroot : Rooted t.Has items h dir)
    (hch : Changes (d + 1) changes) (hg : GroupOf changes n g)
    (hE : ∀ x, Emits d (S.inner n) ((S.over (flatOf changes)).inner n) x → E x) :
    Post E (groupEdit (applyDir d) dir n g) t (fun es t' => ∃ next,
      Outcome (SubDir t'.Has d) S (flatOf changes) n next ∧
        es = if next = (KeyedList.lookup Item.name n items).map Item.node then []
          else [(n, next.map (Item.ofNode n))]) (Rejects d S (flatOf changes)) := by
  unfold groupEdit
  refine Runs.bind_post (runs_findIn hr.coherent hl.clean.ascending hroot n) ?_
  intro t₁ hs₁
  have hnode := (hl.node n).mono (fun T id hs => IsDir.mono hs₁.has hs)
  generalize (KeyedList.lookup Item.name n items).map Item.node = current at hnode ⊢
  simp only [hnode.file_eq]
  by_cases hrefuse : g.exact = some none ∧ S [n] = none ∧
      (current.bind Node.dir? ≠ none ∨ g.deeper ≠ [])
  · rw [if_pos hrefuse]
    refine Post.throw ⟨⟨_, rfl⟩, Or.inl ?_⟩
    exact Refused.of_exact (hg.exact ▸ hrefuse.1) hrefuse.2.1 ((below_iff hnode hg).mp hrefuse.2.2)
  rw [if_neg hrefuse]
  refine Post.bind (post_applyDeeper hinto (hr.step hs₁) hnode hch hg hE) ?_
  rintro dir' t₂ hs₂ ⟨hnr, hdir₂⟩
  have hfileOver : g.exact.getD (S [n]) = S.over (flatOf changes) [n] := by
    rw [hg.exact]
    rfl
  rw [hfileOver]
  refine Post.bind (post_nextNode hs₂.coherent hdir₂ ?_) ?_
  · intro hf hT
    exact ⟨⟨_, rfl⟩, Or.inl (Refused.of_collision hf hT)⟩
  · intro next t₃ hs₃ hnext
    have hfine : Fine S (flatOf changes) n := by
      refine ⟨?_, hnr⟩
      rintro ⟨h1, h2, h3⟩
      exact hrefuse ⟨hg.exact.trans h1, h2, (below_iff hnode hg).mpr h3⟩
    have hout : Outcome (SubDir t₃.Has d) S (flatOf changes) n next :=
      ⟨hnext.mono (fun T id hs => IsDir.mono hs₃.has hs), hfine⟩
    by_cases hsame : next = current
    · rw [if_pos hsame]
      exact Post.pure hs₃.coherent ⟨next, hout, by rw [if_pos hsame]⟩
    · rw [if_neg hsame]
      exact Post.pure hs₃.coherent ⟨next, hout, by rw [if_neg hsame]⟩

end one

/-! ### One directory -/

/-- The edits of the names `gs` leave the items in the state the changes ask for. -/
structure EditsOf (sub : Flat (FileEntry Id) → Id → Prop) (S : Flat (FileEntry Id))
    (c : Flat (Option (FileEntry Id))) (items : List (Item Id))
    (gs : List (Name × Group (Option (FileEntry Id)))) (es : Edits Id) : Prop where
  edited : Edited es
  names : ∀ e ∈ es, ∃ g ∈ gs, g.1 = e.1
  tags : ∀ e ∈ es, ∀ item, e.2 = some item → item.tag ≠ .child
  outcome : ∀ g ∈ gs, ∃ next, Outcome sub S c g.1 next ∧
    (match KeyedList.lookup Prod.fst g.1 es with
      | some e => e.2.map Item.node
      | none => (KeyedList.lookup Item.name g.1 items).map Item.node) = next

omit [Store σ Id] [LawfulStore σ Id] [Hashing Id] in
theorem editsOf_cons {sub sub' : Flat (FileEntry Id) → Id → Prop}
    {c : Flat (Option (FileEntry Id))} (hsub : ∀ T id, sub T id → sub' T id)
    {g : Name × Group (Option (FileEntry Id))} {gs : List (Name × Group (Option (FileEntry Id)))}
    {es es' : Edits Id} {next : Option (Node Id)} (hlt : ∀ g' ∈ gs, g.1 < g'.1)
    (hout : Outcome sub S c g.1 next)
    (hes : es = if next = (KeyedList.lookup Item.name g.1 items).map Item.node then []
      else [(g.1, next.map (Item.ofNode g.1))])
    (h : EditsOf sub' S c items gs es') : EditsOf sub' S c items (g :: gs) (es ++ es') := by
  have hout' : Outcome sub' S c g.1 next := ⟨hout.1.mono hsub, hout.2⟩
  have hpast : ∀ e ∈ es', g.1 < e.1 := by
    intro e he
    obtain ⟨g', hg', hn⟩ := h.names e he
    exact hn ▸ hlt g' hg'
  have hnone : KeyedList.lookup Prod.fst g.1 es' = none := lookup_eq_none_of_lt hpast
  by_cases hsame : next = (KeyedList.lookup Item.name g.1 items).map Item.node
  · rw [if_pos hsame] at hes
    subst hes
    rw [List.nil_append]
    refine ⟨h.edited, fun e he => ?_, h.tags, fun g' hg' => ?_⟩
    · obtain ⟨g', hg', hn⟩ := h.names e he
      exact ⟨g', List.mem_cons_of_mem _ hg', hn⟩
    · rcases List.mem_cons.mp hg' with rfl | hg'
      · exact ⟨next, hout', by rw [hnone, hsame]⟩
      · exact h.outcome g' hg'
  · rw [if_neg hsame] at hes
    subst hes
    rw [List.singleton_append]
    refine ⟨⟨ascending_cons.mpr ⟨hpast, h.edited.ascending⟩, ?_⟩, ?_, ?_, fun g' hg' => ?_⟩
    · rw [wellKeyed_cons]
      refine ⟨fun item hi => ?_, h.edited.wellKeyed⟩
      obtain ⟨x, _, rfl⟩ := Option.map_eq_some_iff.mp hi
      exact Item.name_ofNode _ _
    · intro e he
      rcases List.mem_cons.mp he with rfl | he
      · exact ⟨g, by simp, rfl⟩
      · obtain ⟨g', hg', hn⟩ := h.names e he
        exact ⟨g', List.mem_cons_of_mem _ hg', hn⟩
    · intro e he item hi
      rcases List.mem_cons.mp he with rfl | he
      · obtain ⟨x, _, rfl⟩ := Option.map_eq_some_iff.mp hi
        exact Item.tag_ofNode _ _
      · exact h.tags e he item hi
    · rcases List.mem_cons.mp hg' with rfl | hg'
      · refine ⟨next, hout', ?_⟩
        rw [lookup_cons, if_pos rfl]
        cases next <;> simp
      · rw [lookup_cons, if_neg (hlt g' hg').ne]
        exact h.outcome g' hg'

/-- The loop over the names of a directory. -/
theorem post_groupEdits (hinto : Applies σ Id d) (hr : Ready E t)
    (hl : Listed (SubDir t.Has d) S items) (hroot : Rooted t.Has items h dir)
    (hch : Changes (d + 1) changes) {gs : List (Name × Group (Option (FileEntry Id)))}
    (hasc : Ascending Prod.fst gs) (hgs : ∀ g ∈ gs, GroupOf changes g.1 g.2)
    (hE : ∀ x, Emits (d + 1) S (S.over (flatOf changes)) x → E x) :
    Post E (gs.mapM (fun g => groupEdit (applyDir d) dir g.1 g.2)) t
      (fun ess t' => EditsOf (SubDir t'.Has d) S (flatOf changes) items gs ess.flatten)
      (Rejects d S (flatOf changes)) := by
  induction gs generalizing t with
  | nil =>
      rw [List.mapM_nil]
      refine Post.pure hr.coherent ⟨⟨ascending_nil, wellKeyed_nil⟩, ?_, ?_, ?_⟩
      · intro e he; cases he
      · intro e he; cases he
      · intro g hg; cases hg
  | cons g gs ih =>
      rw [ascending_cons] at hasc
      rw [List.forall_mem_cons] at hgs
      rw [List.mapM_cons]
      refine Post.bind (post_groupEdit hinto hr hl hroot hch hgs.1 (fun x hx => hE x hx.of_inner)) ?_
      rintro es t₁ hs₁ ⟨next, hout, hes⟩
      have hl₁ : Listed (SubDir t₁.Has d) S items := hl.mono (fun _ _ hs => IsDir.mono hs₁.has hs)
      refine Post.bind (ih (hr.step hs₁) hl₁ (hroot.mono hs₁.has) hasc.2 hgs.2) ?_
      intro ess t₂ hs₂ hess
      refine Post.pure hs₂.coherent ?_
      rw [List.flatten_cons]
      exact editsOf_cons (fun _ _ hs => IsDir.mono hs₂.has hs) hasc.1 hout hes hess

omit [DecidableEq Id] [Store σ Id] [LawfulStore σ Id] in
/-- The edits of all groups turn the items of `S` into those of `S` overwritten by the changes. -/
theorem listed_mergeEdits {P Q : Chunk Id → Prop} (hPQ : ∀ c, P c → Q c)
    (hl : Listed (SubDir P d) S items) (hch : Changes (d + 1) changes) {es : Edits Id}
    (h : EditsOf (SubDir Q d) S (flatOf changes) items (groups changes).toList es) :
    Listed (SubDir Q d) (S.over (flatOf changes)) (mergeEdits Item.name items es) := by
  have hlookup := lookup_mergeEdits hl.clean.ascending h.edited.ascending h.edited.wellKeyed
  refine ⟨?_, ⟨?_, ?_, ?_⟩, fun n => ?_⟩
  · rw [Flat.over_of_none hch.flatOf_nil]
    exact hl.nil
  · exact ascending_mergeEdits hl.clean.ascending h.edited.ascending h.edited.wellKeyed
  · intro item hi
    rcases mem_of_mem_mergeEdits hi with hi | ⟨n, he⟩
    · exact hl.clean.tags item hi
    · exact h.tags _ he item rfl
  · intro item hi
    rcases mem_of_mem_mergeEdits hi with hi | ⟨n, he⟩
    · exact hl.clean.names item hi
    · obtain ⟨g, hg, hn⟩ := h.names _ he
      rw [h.edited.wellKeyed _ he item rfl, ← hn]
      exact hch.name_le (SortedMap.get?_eq_some.mpr hg)
  · rw [hlookup n]
    cases hg : (groups changes).get? n with
    | some g =>
        obtain ⟨next, hout, heq⟩ := h.outcome (n, g) (SortedMap.get?_eq_some.mp hg)
        have hnext := hout.1
        rw [← heq] at hnext
        cases hes : KeyedList.lookup Prod.fst n es with
        | some e =>
            simp only [hes] at hnext
            exact hnext
        | none =>
            simp only [hes] at hnext
            exact hnext
    | none =>
        have hc := groups_none hg
        have hes : KeyedList.lookup Prod.fst n es = none := by
          rw [lookup_eq_none]
          rintro e he rfl
          obtain ⟨g, hgm, hn⟩ := h.names e he
          have hmem : e.1 ∈ (groups changes).keys := hn ▸ List.mem_map_of_mem hgm
          exact SortedMap.get?_eq_none.mp hg hmem
        have hfile : S.over (flatOf changes) [n] = S [n] := Flat.over_of_none (hc [])
        have hinner : (S.over (flatOf changes)).inner n = S.inner n := by
          rw [Flat.inner_over]
          funext q
          apply Flat.over_of_none
          by_cases hq : q = []
          · subst hq; rfl
          · rw [Flat.inner_of_ne hq]
            exact hc q
        simp only [hes]
        rw [hfile, hinner]
        exact (hl.node n).mono (fun _ _ hs => IsDir.mono hPQ hs)

omit [DecidableEq Id] [Store σ Id] [LawfulStore σ Id] in
/-- When every name went through, nothing had to be refused. -/
theorem not_refused_of_editsOf {sub : Flat (FileEntry Id) → Id → Prop} {Q : Chunk Id → Prop}
    {dir' : Option Id} {es : Edits Id}
    (h : EditsOf sub S (flatOf changes) items (groups changes).toList es)
    (hdir : IsDir Q (d + 1) (S.over (flatOf changes)) dir') : ¬ Refused S (flatOf changes) := by
  apply not_refused_of_fine _ hdir.prefixFree
  rintro n ⟨q, hq⟩
  cases hg : (groups changes).get? n with
  | none => exact absurd (groups_none hg q) hq
  | some g =>
      obtain ⟨next, hout, _⟩ := h.outcome (n, g) (SortedMap.get?_eq_some.mp hg)
      exact hout.2

/-- `applyDir` overwrites the snapshot, or refuses. -/
theorem post_applyDir (d : ℕ) : Applies σ Id d := by
  induction d with
  | zero =>
      intro E t S dir changes hr hdir hch _
      have hnil : changes = [] := by
        rw [List.eq_nil_iff_forall_not_mem]
        intro c hc
        exact hch.ne_nil c hc (List.length_eq_zero_iff.mp (by have := hch.length c hc; omega))
      subst hnil
      have hover : S.over (flatOf []) = S := funext (fun _ => rfl)
      rw [hover]
      unfold applyDir
      exact Post.pure hr.coherent ⟨not_refused_of_none hdir.prefixFree (fun _ => rfl), hdir, id⟩
  | succ d ih =>
      intro E t S dir changes hr hdir hch hE
      obtain ⟨items, h, hl, hroot⟩ := isDir_succ.mp hdir
      unfold applyDir
      refine Post.bind (post_groupEdits ih hr hl hroot hch (groups changes).ascending ?_ hE) ?_
      · intro g hg
        exact groups_some hch.nodup (SortedMap.get?_eq_some.mpr hg)
      intro ess t₁ hs₁ hess
      have hl₁ := listed_mergeEdits hs₁.has hl hch hess
      by_cases hnil : ess.flatten = []
      · rw [if_pos hnil]
        rw [hnil, mergeEdits_nil_right] at hl₁
        have hdir₁ : IsDir t₁.Has (d + 1) (S.over (flatOf changes)) dir :=
          ⟨items, h, hl₁, hroot.mono hs₁.has⟩
        exact Post.pure hs₁.coherent ⟨not_refused_of_editsOf hess hdir₁, hdir₁, id⟩
      · rw [if_neg hnil]
        have htrue : ∀ c, t₁.Has c → True := fun _ _ => trivial
        have hl₂ : Listed (SubDir (fun _ => True) d) (S.over (flatOf changes))
            (mergeEdits Item.name items ess.flatten) := hl₁.mono (fun _ _ hs => IsDir.mono htrue hs)
        have hput : ∀ x, Derives h (mergeEdits Item.name items ess.flatten) x → E x := by
          intro x hx
          refine hE x (Or.inl ⟨items, h, dir, _, ?_, ?_, hl₂, hx⟩)
          · exact hl.mono (fun _ _ hs => IsDir.mono (fun _ _ => trivial) hs)
          · exact hroot.mono (fun _ _ => trivial)
        refine Post.mono (post_update (hr.step hs₁) (hroot.mono hs₁.has) hl.clean.ascending
          hl₁.clean.ascending hess.edited rfl hput) ?_ ?_
        · intro dir' t₂ hs₂ hder
          obtain ⟨h', hroot'⟩ := hder.rooted
          have hdir₂ : IsDir t₂.Has (d + 1) (S.over (flatOf changes)) dir' :=
            ⟨_, h', hl₁.mono (fun _ _ hs => IsDir.mono hs₂.has hs), hroot'⟩
          refine ⟨not_refused_of_editsOf hess hdir₂, hdir₂, fun hemp => ?_⟩
          rcases hder with ⟨_, hnone⟩ | ⟨hne, _, hr'⟩
          · rw [hnone] at hemp
            cases hemp
          · exact absurd hemp (hr'.ne_emptyId hne)
        · rintro e ⟨rfl, hhigh⟩
          exact ⟨⟨_, rfl⟩, Or.inr (Or.inl ⟨_, hl₂, hhigh⟩)⟩

end Trees

end Javelin
