import Javelin.Update

/-! # Canonical trees

`IsDir P d S dir` says that `dir` is the root of the canonical tree of the snapshot `S`, whose
paths have at most `d` components, and that every chunk of that tree satisfies `P`: the items of
each directory name its files and the canonical roots of its subdirectories, and its chunks are
those of `Levels`.  Taking `P := t.Has` says the tree is readable, `P := fun _ => True` only fixes
the root.

The snapshot determines the root (`IsDir.unique`) and the root determines the snapshot
(`IsDir.flat_eq`).  `Refused` is when a changeset must be refused. -/

namespace Javelin

open KeyedList

namespace Flat
variable {V : Type}

/-- What lies strictly below the component `n`. -/
def inner (S : Flat V) (n : Name) : Flat V := fun q => if q = [] then none else S (n :: q)

/-- Nothing is set. -/
def Empty (S : Flat V) : Prop := ∀ p, S p = none

@[simp] theorem inner_nil (S : Flat V) (n : Name) : S.inner n [] = none := rfl

theorem inner_of_ne {S : Flat V} {n : Name} {q : List Name} (h : q ≠ []) : S.inner n q = S (n :: q) :=
  if_neg h

theorem inner_over (S : Flat V) (c : Flat (Option V)) (n : Name) :
    (S.over c).inner n = (S.inner n).over (c.inner n) := by
  funext q
  by_cases h : q = []
  · subst h; rfl
  · unfold Flat.over
    rw [inner_of_ne h, inner_of_ne h, inner_of_ne h]

/-- A map is determined by what it holds at and below each component. -/
theorem ext_inner {S T : Flat V} (h0 : S [] = T []) (h1 : ∀ n, S [n] = T [n])
    (h2 : ∀ n, S.inner n = T.inner n) : S = T := by
  funext p
  match p with
  | [] => exact h0
  | [n] => exact h1 n
  | n :: m :: q =>
      have h := congrFun (h2 n) (m :: q)
      rwa [inner_of_ne (by simp), inner_of_ne (by simp)] at h

theorem PrefixFree.inner {S : Flat V} (h : S.PrefixFree) (n : Name) : (S.inner n).PrefixFree := by
  intro p hp hs
  rintro ⟨q, hq, hc⟩
  rw [inner_of_ne hp] at hs
  rw [inner_of_ne (by simp [hp])] at hc
  exact h (n :: p) (by simp) hs ⟨q, hq, hc⟩

end Flat

variable {Id : Type}

/-! ### Refusals -/

/-- When a changeset must be refused: it deletes a path that is not a file while something lies
or is changed below it, or it makes a file and a descendant meet. -/
def Refused {V : Type} (S : Flat V) (c : Flat (Option V)) : Prop :=
  (∃ p, p ≠ [] ∧ c p = some none ∧ S p = none ∧ ∃ q, q ≠ [] ∧ (S (p ++ q) ≠ none ∨ c (p ++ q) ≠ none)) ∨
    ¬ (S.over c).PrefixFree

theorem Refused.of_inner {V : Type} {S : Flat V} {c : Flat (Option V)} {n : Name}
    (h : Refused (S.inner n) (c.inner n)) : Refused S c := by
  rcases h with ⟨p, hp, hc, hs, q, hq, hd⟩ | h
  · rw [Flat.inner_of_ne hp] at hc hs
    rw [Flat.inner_of_ne (by simp [hp]), Flat.inner_of_ne (by simp [hp])] at hd
    exact Or.inl ⟨n :: p, by simp, hc, hs, q, hq, hd⟩
  · refine Or.inr (fun hpf => h ?_)
    rw [← Flat.inner_over]
    exact hpf.inner n

theorem not_refused_diff {V : Type} [DecidableEq V] {S T : Flat V} (hT : T.PrefixFree) :
    ¬ Refused S (S.diff T) := by
  rintro (⟨p, _, hc, hs, _⟩ | h)
  · obtain ⟨hne, hnone⟩ := Flat.diff_eq_some.mp hc
    exact hne (hs.trans hnone)
  · rw [Flat.over_diff] at h
    exact h hT

section hashing
variable [Hashing Id]

/-! ### Directories -/

/-- The node that stands for the file `f` at a name and the map `T` below it; `sub` says which
roots stand for `T`. -/
def NodeAt (sub : Flat (FileEntry Id) → Id → Prop) (f : Option (FileEntry Id))
    (T : Flat (FileEntry Id)) : Option (Node Id) → Prop
  | none => f = none ∧ T.Empty
  | some (.file e) => f = some e ∧ T.Empty
  | some (.dir id) => f = none ∧ ¬ T.Empty ∧ sub T id

/-- The items of a directory that holds `S`. -/
structure Listed (sub : Flat (FileEntry Id) → Id → Prop) (S : Flat (FileEntry Id))
    (items : List (Item Id)) : Prop where
  nil : S [] = none
  clean : Clean items
  node : ∀ n, NodeAt sub (S [n]) (S.inner n) ((lookup Item.name n items).map Item.node)

/-- `dir` is the root of the canonical tree of `S`; see the head of the module. -/
def IsDir (P : Chunk Id → Prop) : ℕ → Flat (FileEntry Id) → Option Id → Prop
  | 0, S, dir => S.Empty ∧ (dir = none ∨ dir = some emptyId)
  | d + 1, S, dir =>
      ∃ items h, Listed (fun T id => IsDir P d T (some id)) S items ∧ Rooted P items h dir

/-- The roots of subdirectories in a directory of depth `d + 1`. -/
def SubDir (P : Chunk Id → Prop) (d : ℕ) (T : Flat (FileEntry Id)) (id : Id) : Prop :=
  IsDir P d T (some id)

theorem isDir_succ {P : Chunk Id → Prop} {d : ℕ} {S : Flat (FileEntry Id)} {dir : Option Id} :
    IsDir P (d + 1) S dir ↔ ∃ items h, Listed (SubDir P d) S items ∧ Rooted P items h dir := Iff.rfl

section listed
variable {sub sub' : Flat (FileEntry Id) → Id → Prop} {S S' T T' : Flat (FileEntry Id)}
  {f f' : Option (FileEntry Id)} {items items' : List (Item Id)}

omit [Hashing Id] in
theorem NodeAt.mono (hsub : ∀ T id, sub T id → sub' T id) {x : Option (Node Id)}
    (h : NodeAt sub f T x) : NodeAt sub' f T x := by
  match x, h with
  | none, h => exact h
  | some (.file _), h => exact h
  | some (.dir _), h => exact ⟨h.1, h.2.1, hsub _ _ h.2.2⟩

omit [Hashing Id] in
/-- File and map determine the node. -/
theorem NodeAt.unique (hsub : ∀ T id id', ¬ T.Empty → sub T id → sub' T id' → id = id')
    {x y : Option (Node Id)} (hx : NodeAt sub f T x) (hy : NodeAt sub' f T y) : x = y := by
  match x, y, hx, hy with
  | none, none, _, _ => rfl
  | none, some (.file _), hx, hy => exact absurd (hx.1.symm.trans hy.1) (by simp)
  | none, some (.dir _), hx, hy => exact absurd hx.2 hy.2.1
  | some (.file _), none, hx, hy => exact absurd (hx.1.symm.trans hy.1) (by simp)
  | some (.file e), some (.file e'), hx, hy =>
      rw [Option.some.inj (hx.1.symm.trans hy.1)]
  | some (.file _), some (.dir _), hx, hy => exact absurd (hx.1.symm.trans hy.1) (by simp)
  | some (.dir _), none, hx, hy => exact absurd hy.2 hx.2.1
  | some (.dir _), some (.file _), hx, hy => exact absurd (hx.1.symm.trans hy.1) (by simp)
  | some (.dir a), some (.dir b), hx, hy => rw [hsub T a b hx.2.1 hx.2.2 hy.2.2]

omit [Hashing Id] in
theorem NodeAt.determines (hsub : ∀ T T' id, sub T id → sub' T' id → T = T')
    {x : Option (Node Id)} (hx : NodeAt sub f T x) (hy : NodeAt sub' f' T' x) : f = f' ∧ T = T' := by
  match x, hx, hy with
  | none, hx, hy =>
      exact ⟨hx.1.trans hy.1.symm, funext (fun p => (hx.2 p).trans (hy.2 p).symm)⟩
  | some (.file _), hx, hy =>
      exact ⟨hx.1.trans hy.1.symm, funext (fun p => (hx.2 p).trans (hy.2 p).symm)⟩
  | some (.dir _), hx, hy => exact ⟨hx.1.trans hy.1.symm, hsub _ _ _ hx.2.2 hy.2.2⟩

omit [Hashing Id] in
theorem NodeAt.file_eq {x : Option (Node Id)} (h : NodeAt sub f T x) : x.bind Node.file? = f := by
  match x, h with
  | none, h => exact h.1.symm
  | some (.file _), h => exact h.1.symm
  | some (.dir _), h => exact h.1.symm

omit [Hashing Id] in
theorem NodeAt.dir_eq {x : Option (Node Id)} (h : NodeAt sub f T x) :
    (x.bind Node.dir? = none ∧ T.Empty) ∨ ∃ id, x.bind Node.dir? = some id ∧ ¬ T.Empty ∧ sub T id := by
  match x, h with
  | none, h => exact Or.inl ⟨rfl, h.2⟩
  | some (.file _), h => exact Or.inl ⟨rfl, h.2⟩
  | some (.dir id), h => exact Or.inr ⟨id, rfl, h.2⟩

omit [Hashing Id] in
theorem Listed.mono (hsub : ∀ T id, sub T id → sub' T id) (h : Listed sub S items) :
    Listed sub' S items := ⟨h.nil, h.clean, fun n => (h.node n).mono hsub⟩

omit [Hashing Id] in
/-- A leaf item is its name and its node. -/
theorem Clean.item_eq (h : Clean items) {n : Name} {item : Item Id}
    (hl : lookup Item.name n items = some item) : item = Item.ofNode n item.node := by
  obtain ⟨hm, rfl⟩ := mem_of_lookup hl
  exact (Item.ofNode_node (h.tags item hm)).symm

omit [Hashing Id] in
/-- The snapshot determines the items. -/
theorem Listed.unique (hsub : ∀ T id id', ¬ T.Empty → sub T id → sub' T id' → id = id')
    (h : Listed sub S items) (h' : Listed sub' S items') : items = items' := by
  apply h.clean.ascending.ext h'.clean.ascending
  intro n
  have hnode := (h.node n).unique hsub (h'.node n)
  cases hl : lookup Item.name n items with
  | none =>
      rw [hl, Option.map_none, eq_comm, Option.map_eq_none_iff] at hnode
      exact hnode.symm
  | some item =>
      rw [hl, Option.map_some, eq_comm, Option.map_eq_some_iff] at hnode
      obtain ⟨item', hl', hnn⟩ := hnode
      rw [hl', h.clean.item_eq hl, h'.clean.item_eq hl', hnn]

omit [Hashing Id] in
/-- The items determine the snapshot. -/
theorem Listed.flat_eq (hsub : ∀ T T' id, sub T id → sub' T' id → T = T')
    (h : Listed sub S items) (h' : Listed sub' S' items) : S = S' := by
  apply Flat.ext_inner (h.nil.trans h'.nil.symm)
  · exact fun n => ((h.node n).determines hsub (h'.node n)).1
  · exact fun n => ((h.node n).determines hsub (h'.node n)).2

omit [Hashing Id] in
/-- A directory without items holds nothing, and the other way round. -/
theorem Listed.empty_iff (h : Listed sub S items) : items = [] ↔ S.Empty := by
  constructor
  · rintro rfl p
    match p with
    | [] => exact h.nil
    | [n] => exact (h.node n).1
    | n :: m :: q =>
        have hq := (h.node n).2 (m :: q)
        rwa [Flat.inner_of_ne (by simp)] at hq
  · intro hS
    by_contra hne
    obtain ⟨item, hm⟩ := List.exists_mem_of_ne_nil _ hne
    have hnode := h.node item.name
    rw [h.clean.ascending.lookup_of_mem hm, Option.map_some] at hnode
    match item.node, hnode with
    | .file _, hn => exact absurd (hn.1.symm.trans (hS _)) (by simp)
    | .dir _, hn =>
        refine hn.2.1 (fun q => ?_)
        by_cases hq : q = []
        · subst hq; rfl
        · rw [Flat.inner_of_ne hq]
          exact hS _

omit [Hashing Id] in
/-- The snapshot of a directory is prefix-free if those of its subdirectories are. -/
theorem Listed.prefixFree (hsub : ∀ T id, sub T id → T.PrefixFree) (h : Listed sub S items) :
    S.PrefixFree := by
  intro p hp hs
  rintro ⟨q, hq, hc⟩
  obtain ⟨n, p, rfl⟩ := List.exists_cons_of_ne_nil hp
  have hnode := h.node n
  have hbelow : S.inner n (p ++ q) ≠ none := by
    rw [Flat.inner_of_ne (by simp [hq])]
    exact hc
  match (lookup Item.name n items).map Item.node, hnode with
  | none, hn => exact hbelow (hn.2 _)
  | some (.file _), hn => exact hbelow (hn.2 _)
  | some (.dir id), hn =>
      by_cases hp : p = []
      · subst hp
        exact hs hn.1
      · refine hsub _ _ hn.2.2 p hp ?_ ⟨q, hq, hbelow⟩
        rw [Flat.inner_of_ne hp]
        exact hs

end listed

/-! ### Roots and snapshots determine each other -/

section isDir
variable {P Q : Chunk Id → Prop} {d : ℕ} {S S' : Flat (FileEntry Id)} {dir dir' : Option Id}
  {items items' : List (Item Id)} {h h' : ℕ}

theorem Rooted.none_iff (hr : Rooted P items h dir) (hdir : dir ≠ some emptyId) :
    dir = none ↔ items = [] := by
  rcases hr with ⟨hnil, _, hd⟩ | ⟨c, rfl, hroot, _⟩
  · exact ⟨fun _ => hnil, fun _ => hd.resolve_right hdir⟩
  · simp [hroot.ne_nil]

theorem Rooted.ne_emptyId (hr : Rooted P items h dir) (hne : items ≠ []) : dir ≠ some emptyId := by
  rcases hr with ⟨hnil, _⟩ | ⟨c, rfl, hroot, _⟩
  · exact absurd hnil hne
  · intro heq
    have hc : c = .emptyLeaf := Chunk.id_inj.mp (Option.some.inj heq)
    exact items_ne_nil_of_mem hroot.mem (congrArg Chunk.items hc)

theorem Rooted.items_eq (hr : Rooted P items h dir) (hr' : Rooted Q items' h' dir) :
    items = items' ∧ h = h' := by
  by_cases hne : items = []
  · by_cases hne' : items' = []
    · rcases hr with ⟨_, rfl, _⟩ | ⟨c, _, hroot, _⟩
      · rcases hr' with ⟨_, rfl, _⟩ | ⟨c, _, hroot, _⟩
        · exact ⟨hne.trans hne'.symm, rfl⟩
        · exact absurd hne' hroot.ne_nil
      · exact absurd hne hroot.ne_nil
    · have h1 := (hr'.none_iff (hr'.ne_emptyId hne')).not.mpr hne'
      rcases hr with ⟨_, _, hd⟩ | ⟨c, _, hroot, _⟩
      · exact absurd hd (by simp [h1, hr'.ne_emptyId hne'])
      · exact absurd hne hroot.ne_nil
  · rcases hr with ⟨hnil, _⟩ | ⟨c, rfl, hroot, _⟩
    · exact absurd hnil hne
    rcases hr' with ⟨_, _, hd⟩ | ⟨c', heq, hroot', _⟩
    · have hempty : c = .emptyLeaf := by
        rcases hd with hd | hd
        · cases hd
        · exact Chunk.id_inj.mp (Option.some.inj hd)
      exact absurd (congrArg Chunk.items hempty) (items_ne_nil_of_mem hroot.mem)
    · obtain rfl := Chunk.id_inj.mp (Option.some.inj heq)
      exact ⟨hroot.items_eq hroot', hroot.level.symm.trans hroot'.level⟩

/-- A nonempty directory has one root. -/
theorem Rooted.unique (hr : Rooted P items h dir) (hr' : Rooted Q items h' dir') (hne : items ≠ []) :
    dir = dir' ∧ h = h' := by
  rcases hr with ⟨hnil, _⟩ | ⟨c, rfl, hroot, _⟩
  · exact absurd hnil hne
  rcases hr' with ⟨hnil, _⟩ | ⟨c', rfl, hroot', _⟩
  · exact absurd hnil hne
  obtain ⟨rfl, rfl⟩ := hroot.unique hroot'
  exact ⟨rfl, rfl⟩

theorem IsDir.mono (hPQ : ∀ c, P c → Q c) (hd : IsDir P d S dir) : IsDir Q d S dir := by
  induction d generalizing S dir with
  | zero => exact hd
  | succ d ih =>
      obtain ⟨items, h, hl, hr⟩ := hd
      exact ⟨items, h, hl.mono (fun _ _ hsub => ih hsub), hr.mono hPQ⟩

/-- The root determines the snapshot. -/
theorem IsDir.flat_eq (hd : IsDir P d S dir) (hd' : IsDir Q d S' dir) : S = S' := by
  induction d generalizing S S' dir with
  | zero => exact funext (fun p => (hd.1 p).trans (hd'.1 p).symm)
  | succ d ih =>
      obtain ⟨items, h, hl, hr⟩ := hd
      obtain ⟨items', h', hl', hr'⟩ := hd'
      obtain ⟨rfl, _⟩ := hr.items_eq hr'
      refine Listed.flat_eq ?_ hl hl'
      exact fun _ _ _ hs hs' => ih hs hs'

/-- Where nothing is set, the root is absent or the empty World. -/
theorem IsDir.of_empty (hd : IsDir P d S dir) (hS : S.Empty) : dir = none ∨ dir = some emptyId := by
  cases d with
  | zero => exact hd.2
  | succ d =>
      obtain ⟨items, h, hl, hr⟩ := hd
      have hnil := hl.empty_iff.mpr hS
      rcases hr with ⟨_, _, hd⟩ | ⟨c, _, hroot, _⟩
      · exact hd
      · exact absurd hnil hroot.ne_nil

theorem IsDir.not_empty_of_ne (hd : IsDir P d S dir) (hdir : dir ≠ some emptyId) :
    dir = none ↔ S.Empty := by
  cases d with
  | zero => exact ⟨fun _ => hd.1, fun _ => hd.2.resolve_right hdir⟩
  | succ d =>
      obtain ⟨items, h, hl, hr⟩ := hd
      rw [hr.none_iff hdir, hl.empty_iff]

theorem IsDir.ne_emptyId (hd : IsDir P d S dir) (hS : ¬ S.Empty) : dir ≠ some emptyId := by
  cases d with
  | zero => exact absurd hd.1 hS
  | succ d =>
      obtain ⟨items, h, hl, hr⟩ := hd
      exact hr.ne_emptyId (fun hnil => hS (hl.empty_iff.mp hnil))

/-- The snapshot determines the items of its directory. -/
theorem IsDir.unique_aux (hd : IsDir P d S dir) (hd' : IsDir Q d S dir') (hS : ¬ S.Empty) :
    dir = dir' := by
  induction d generalizing S dir dir' with
  | zero => exact absurd hd.1 hS
  | succ d ih =>
      obtain ⟨items, h, hl, hr⟩ := hd
      obtain ⟨items', h', hl', hr'⟩ := hd'
      have hitems : items = items' := by
        refine Listed.unique ?_ hl hl'
        exact fun _ _ _ hT hs hs' => Option.some.inj (ih hs hs' hT)
      subst hitems
      exact (hr.unique hr' (fun hnil => hS (hl.empty_iff.mp hnil))).1

/-- The snapshot determines the root. -/
theorem IsDir.unique {id id' : Id} (hd : IsDir P d S (some id)) (hd' : IsDir Q d S (some id')) :
    id = id' := by
  by_cases hS : S.Empty
  · have h1 := (hd.of_empty hS).resolve_left (by simp)
    have h2 := (hd'.of_empty hS).resolve_left (by simp)
    exact Option.some.inj (h1.trans h2.symm)
  · exact Option.some.inj (hd.unique_aux hd' hS)

/-- Two listings of one snapshot agree. -/
theorem Listed.items_eq (hl : Listed (SubDir P d) S items) (hl' : Listed (SubDir Q d) S items') :
    items = items' := by
  refine Listed.unique ?_ hl hl'
  exact fun _ _ _ _ hs hs' => IsDir.unique hs hs'

/-- A canonical tree holds no file with a descendant. -/
theorem IsDir.prefixFree (hd : IsDir P d S dir) : S.PrefixFree := by
  induction d generalizing S dir with
  | zero => exact fun p _ hs => absurd (hd.1 p) hs
  | succ d ih =>
      obtain ⟨items, h, hl, hr⟩ := hd
      exact hl.prefixFree (fun _ _ hs => ih hs)

theorem isDir_empty (hS : S.Empty) (hdir : dir = none ∨ dir = some emptyId) : IsDir P d S dir := by
  cases d with
  | zero => exact ⟨hS, hdir⟩
  | succ d =>
      refine ⟨[], 0, ⟨hS [], ⟨ascending_nil, by simp, by simp⟩, fun n => ⟨hS _, fun q => ?_⟩⟩,
        Or.inl ⟨rfl, rfl, hdir⟩⟩
      by_cases hq : q = []
      · subst hq; rfl
      · rw [Flat.inner_of_ne hq]
        exact hS _

theorem IsDir.nil (hd : IsDir P d S dir) : S [] = none := by
  cases d with
  | zero => exact hd.1 []
  | succ d =>
      obtain ⟨items, h, hl, _⟩ := hd
      exact hl.nil

/-- The subdirectory at a name holds what lies below it. -/
theorem NodeAt.isDir {f : Option (FileEntry Id)} {T : Flat (FileEntry Id)} {x : Option (Node Id)}
    (h : NodeAt (SubDir P d) f T x) : IsDir P d T (x.bind Node.dir?) := by
  rcases h.dir_eq with ⟨hx, hT⟩ | ⟨id, hx, _, hsub⟩
  · rw [hx]
    exact isDir_empty hT (Or.inl rfl)
  · rw [hx]
    exact hsub

end isDir

/-! ### Height -/

/-- Some directory of the snapshot needs a level above `MAX_LEVEL`. -/
def TooTall : ℕ → Flat (FileEntry Id) → Prop
  | 0, _ => False
  | d + 1, S => (∃ items, Listed (SubDir (fun _ => True) d) S items ∧ TooHigh items) ∨
      ∃ n, TooTall d (S.inner n)

theorem tooTall_empty {d : ℕ} {S : Flat (FileEntry Id)} (hS : S.Empty) : ¬ TooTall d S := by
  induction d generalizing S with
  | zero => exact id
  | succ d ih =>
      rintro (⟨items, hl, hh⟩ | ⟨n, hn⟩)
      · obtain rfl := hl.empty_iff.mpr hS
        have h0 := hh 0 (Nat.zero_le _)
        rw [levelChunks_eq_nil.mpr rfl] at h0
        simp at h0
      · refine ih (fun q => ?_) hn
        by_cases hq : q = []
        · subst hq; rfl
        · rw [Flat.inner_of_ne hq]
          exact hS _

/-- A snapshot with a canonical tree is not too tall. -/
theorem IsDir.not_tooTall {P : Chunk Id → Prop} {d : ℕ} {S : Flat (FileEntry Id)}
    {dir : Option Id} (hd : IsDir P d S dir) : ¬ TooTall d S := by
  induction d generalizing S dir with
  | zero => exact id
  | succ d ih =>
      obtain ⟨items, h, hl, hr⟩ := isDir_succ.mp hd
      rintro (⟨items', hl', hh⟩ | ⟨n, hn⟩)
      · rw [← hl.items_eq hl'] at hh
        exact hr.not_tooHigh hh
      · rcases (hl.node n).dir_eq with ⟨_, hT⟩ | ⟨id, _, _, hs⟩
        · exact tooTall_empty hT hn
        · exact ih hs hn

/-- The chunks that deriving `S'` from the tree of `S` may put. -/
def Emits : ℕ → Flat (FileEntry Id) → Flat (FileEntry Id) → Chunk Id → Prop
  | 0, _, _, _ => False
  | d + 1, S, S', c =>
      (∃ items h dir new, Listed (SubDir (fun _ => True) d) S items ∧
        Rooted (fun _ => True) items h dir ∧ Listed (SubDir (fun _ => True) d) S' new ∧
          Derives h new c) ∨
        ∃ n, Emits d (S.inner n) (S'.inner n) c

theorem Emits.of_inner {d : ℕ} {S S' : Flat (FileEntry Id)} {n : Name} {c : Chunk Id}
    (h : Emits d (S.inner n) (S'.inner n) c) : Emits (d + 1) S S' c := Or.inr ⟨n, h⟩

end hashing

end Javelin
