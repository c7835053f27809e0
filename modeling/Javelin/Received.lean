import Javelin.World

/-! # Received roots

A received root is checked by comparing it with a canonical tree and deriving it again.  The
comparison runs before anything is known of the received tree.  But reading is stable: what `diff`
returned it returns again wherever at least as many chunks can be read (`Reads`).  So once the
derivation has ended in the received root, and its canonical tree is readable, the comparison can
be judged there: it was the exact difference (`of_receivedChanges`). -/

namespace Javelin

open KeyedList

section reading
variable {σ Id : Type} [DecidableEq Id] [Hashing Id] [Store σ Id] [LawfulStore σ Id]

namespace Trees
variable {α β : Type} {t t' u : Trees σ Id}

/-! ### Reading again -/

/-- The same store, of which the same chunks can be read. -/
structure Same (t t' : Trees σ Id) : Prop where
  store : t'.store = t.store
  coherent : t'.Coherent
  has : ∀ c, t'.Has c ↔ t.Has c

theorem Same.refl (h : t.Coherent) : Same t t := ⟨rfl, h, fun _ => Iff.rfl⟩

theorem Same.trans {t'' : Trees σ Id} (h : Same t t') (h' : Same t' t'') : Same t t'' :=
  ⟨h'.store.trans h.store, h'.coherent, fun c => (h'.has c).trans (h.has c)⟩

theorem Same.open_of (h : Same t t') (ht : t.Open) : t'.Open :=
  ⟨h.coherent, fun c hw => h.store ▸ ht.accepts c hw⟩

/-- `x` only reads, and returns the same wherever at least as much can be read. -/
def Reads (x : TreesM σ Id α) : Prop :=
  ∀ t a t', t.Coherent → x t = .ok (a, t') → Same t t' ∧
    ∀ u : Trees σ Id, u.Coherent → (∀ c, t.Has c → u.Has c) → ∃ u', x u = .ok (a, u') ∧ Same u u'

namespace Reads

theorem pure (a : α) : Reads (Pure.pure a : TreesM σ Id α) := by
  intro t b t' ht h
  cases h
  exact ⟨Same.refl ht, fun u hu _ => ⟨u, rfl, Same.refl hu⟩⟩

theorem throw (e : Error Id) : Reads (throw e : TreesM σ Id α) := by
  intro t b t' _ h
  cases h

theorem bind {x : TreesM σ Id α} {f : α → TreesM σ Id β} (hx : Reads x) (hf : ∀ a, Reads (f a)) :
    Reads (x >>= f) := by
  intro t b t' ht h
  obtain ⟨a, t₁, hxt, hft⟩ := bind_eq_ok h
  obtain ⟨hs, hagain⟩ := hx t a t₁ ht hxt
  obtain ⟨hs', hagain'⟩ := hf a t₁ b t' hs.coherent hft
  refine ⟨hs.trans hs', fun u hu hle => ?_⟩
  obtain ⟨u₁, hxu, hsu⟩ := hagain u hu hle
  obtain ⟨u', hfu, hsu'⟩ := hagain' u₁ hsu.coherent
    (fun c hc => (hsu.has c).mpr (hle c ((hs.has c).mp hc)))
  refine ⟨u', ?_, hsu.trans hsu'⟩
  show (x u >>= fun p => f p.1 p.2) = _
  rw [hxu]
  exact hfu

theorem ite {p : Prop} [Decidable p] {x y : TreesM σ Id α} (hx : Reads x) (hy : Reads y) :
    Reads (if p then x else y) := by
  split
  · exact hx
  · exact hy

theorem mapM {γ : Type} {f : γ → TreesM σ Id β} (hf : ∀ a, Reads (f a)) (l : List γ) :
    Reads (l.mapM f) := by
  induction l with
  | nil =>
      rw [List.mapM_nil]
      exact pure []
  | cons a l ih =>
      rw [List.mapM_cons]
      exact (hf a).bind (fun b => ih.bind (fun bs => pure (b :: bs)))

theorem foldlM {γ : Type} {f : β → γ → TreesM σ Id β} (hf : ∀ b a, Reads (f b a)) (l : List γ) (b : β) :
    Reads (l.foldlM f b) := by
  induction l generalizing b with
  | nil =>
      rw [List.foldlM_nil]
      exact pure b
  | cons a l ih =>
      rw [List.foldlM_cons]
      exact (hf b a).bind (fun b' => ih b')

theorem chunk (id : Id) (cache : Bool) : Reads (Trees.chunk id cache : TreesM σ Id (Chunk Id)) := by
  intro t c t' ht h
  have key : t.Has c ∧ c.id = id ∧ Same t t' := by
    unfold Trees.chunk at h
    cases hc : t.cached id with
    | some d =>
        rw [hc] at h
        cases h
        have hid : c.id = id := (ht.cached hc).1
        refine ⟨Or.inl ?_, hid, Same.refl ht⟩
        rw [hid]
        exact hc
    | none =>
        rw [hc] at h
        obtain ⟨d, hf, hd⟩ := except_bind_eq_ok.mp h
        obtain ⟨rfl, ht'⟩ := Prod.mk.inj (Except.ok.inj hd)
        obtain ⟨hid, hw, hk⟩ := fetch_eq_ok.mp hf
        subst hid
        have hhas : t.Has d := Or.inr ⟨hc, hf⟩
        refine ⟨hhas, rfl, ?_⟩
        subst ht'
        cases cache with
        | false => exact Same.refl ht
        | true =>
            have hstep : Step (fun _ => False) t { t with cache := (d.id, d) :: t.cache } :=
              Step.cache ht hc hf
            refine ⟨rfl, hstep.coherent, fun e => ⟨fun he => ?_, hstep.has e⟩⟩
            -- The one new reading is of the chunk that was read.
            by_cases hid : e.id = d.id
            · rwa [Chunk.id_inj.mp hid]
            · unfold Has at he ⊢
              rwa [if_pos rfl, cached_cons, if_neg hid] at he
  obtain ⟨hhas, rfl, hsame⟩ := key
  refine ⟨hsame, fun u hu hle => ?_⟩
  have hrun : Runs (fun _ => False) (Trees.chunk c.id cache) u c := runs_chunk hu (hle c hhas) cache
  obtain ⟨u', hx, hstep⟩ := hrun.exists_ok
  refine ⟨u', hx, ?_⟩
  unfold Trees.chunk at hx
  cases hc : u.cached c.id with
  | some d =>
      rw [hc] at hx
      cases hx
      exact Same.refl hu
  | none =>
      rw [hc] at hx
      obtain ⟨d, hf, hd⟩ := except_bind_eq_ok.mp hx
      obtain ⟨rfl, rfl⟩ := Prod.mk.inj (Except.ok.inj hd)
      cases cache with
      | false => exact Same.refl hu
      | true =>
          refine ⟨rfl, hstep.coherent, fun e => ⟨fun he => ?_, hstep.has e⟩⟩
          by_cases hid : e.id = d.id
          · rw [Chunk.id_inj.mp hid]
            exact hle d hhas
          · unfold Has at he ⊢
            rwa [if_pos rfl, cached_cons, if_neg hid] at he

theorem child (parent : Chunk Id) (item : Item Id) (cache : Bool) :
    Reads (Trees.child parent item cache : TreesM σ Id (Chunk Id)) := by
  unfold Trees.child
  exact (chunk _ _).bind (fun c => ite (throw _) (pure c))

theorem loadSide (dir : Option Id) : Reads (Trees.loadSide dir : TreesM σ Id (Side Id)) := by
  cases dir with
  | none => exact pure []
  | some id => exact (chunk id true).bind (fun c => pure [(id, c)])

theorem expand (level : ℕ) (side : Side Id) : Reads (Trees.expand level side : TreesM σ Id (Side Id)) := by
  unfold Trees.expand
  refine (mapM (fun e => ite (pure [e]) (mapM (fun item => ?_) _)) side).bind (fun _ => pure _)
  exact (child e.2 item true).bind (fun c => pure (item.id, c))

theorem narrow (bound : ℕ) (a b : Side Id) :
    Reads (Trees.narrow bound a b : TreesM σ Id (Side Id × Side Id)) := by
  induction bound generalizing a b with
  | zero => exact pure _
  | succ bound ih =>
      unfold Trees.narrow
      exact ite (pure _) ((expand _ _).bind (fun a => (expand _ _).bind (fun b => ih a b)))

theorem diffItems (a b : Option Id) : Reads (Trees.diffItems a b : TreesM σ Id (List (ItemDiff Id))) := by
  unfold Trees.diffItems
  exact (loadSide a).bind (fun _ => (loadSide b).bind (fun _ => (narrow _ _ _).bind (fun _ => pure _)))

theorem joined (pre : List Name) (name : Name) : Reads (Trees.joined pre name : TreesM σ Id RepoPath) := by
  unfold Trees.joined
  exact ite (throw _) (pure _)

theorem diffDir (bound : ℕ) (a b : Option Id) (pre : List Name) (out : DiffMap Id) :
    Reads (Trees.diffDir bound a b pre out : TreesM σ Id (DiffMap Id)) := by
  induction bound generalizing a b pre out with
  | zero => exact ite (pure _) (throw _)
  | succ bound ih =>
      unfold Trees.diffDir
      refine ite (pure _) ((diffItems a b).bind (fun items => foldlM (fun out d => ?_) items out))
      exact (joined pre d.1).bind (fun path => ite (ih _ _ _ _) (pure _))

theorem diff (a b : Id) : Reads (Trees.diff a b : TreesM σ Id (SparseChanges Id)) := by
  unfold Trees.diff
  refine (diffDir _ _ _ _ _).bind (fun out => ?_)
  cases SparseChanges.ofMap out with
  | ok c => exact pure c
  | error e => exact throw e

end Reads

end Trees

end reading

/-! ### Trees over the table -/

variable {Id : Type} [DecidableEq Id] [ObjectHash Id] {objects objects' : Objects Id}

namespace Objects

/-- A chunk that reads back. -/
def Readable (objects : Objects Id) (c : Chunk Id) : Prop :=
  c.WellFormed ∧ (c = .emptyLeaf ∨ objects.Stored c)

theorem Extends.readable {c : Chunk Id} (h : objects.Extends objects') (hc : objects.Readable c) :
    objects'.Readable c := ⟨hc.1, hc.2.imp_right h.stored⟩

/-- What fresh trees over the table read. -/
theorem trees_has {sink : Sink Id} {c : Chunk Id} :
    (objects.trees sink).Has c ↔ objects.Readable c := by
  have hcached : (objects.trees sink).cached c.id = none := rfl
  have hstore : (objects.trees sink).store = ⟨objects, sink⟩ := rfl
  unfold Trees.Has Readable
  rw [hcached, hstore, Trees.fetch_eq_ok, Sql.load_eq_ok]
  constructor
  · rintro (h | ⟨_, _, hw, h⟩)
    · cases h
    · exact ⟨hw, h.imp_right (fun h => h.2)⟩
  · rintro ⟨hw, h⟩
    refine Or.inr ⟨rfl, rfl, hw, ?_⟩
    by_cases hc : c = .emptyLeaf
    · exact Or.inl hc
    · exact Or.inr ⟨hc, h.resolve_left hc⟩

theorem isTree_trees {sink : Sink Id} {S : Flat (FileEntry Id)} {root : Id} :
    IsTree (objects.trees sink).Has S root ↔ IsTree objects.Readable S root :=
  ⟨IsDir.mono (fun _ => trees_has.mp), IsDir.mono (fun _ => trees_has.mpr)⟩

/-- An honest table takes every chunk. -/
theorem Honest.takes (h : objects.Honest) (c : Chunk Id) :
    objects.lookup c.id = none ∨ objects.Stored c := by
  cases hl : objects.lookup c.id with
  | none => exact Or.inl rfl
  | some o =>
      have hid : objectId o = objectId (.tree c) := by
        rw [h.of_lookup hl, ObjectHash.objectId_tree]
      rw [ObjectHash.objectId_injective hid] at hl
      exact Or.inr (stored_iff.mpr hl)

theorem Honest.open_write (h : objects.Honest) : (objects.trees .write).Open :=
  ⟨Trees.Coherent.new _, fun c _ => h.takes c⟩

theorem open_buffer : (objects.trees (.buffer [])).Open :=
  ⟨Trees.Coherent.new _, fun _ _ => trivial⟩

/-- Only tree chunks were added. -/
structure Grows (objects objects' : Objects Id) : Prop where
  keeps : objects.Extends objects'
  honest : objects.Honest → objects'.Honest
  other : ∀ id o, objects'.lookup id = some o → o.kind ≠ .tree → objects.lookup id = some o

theorem Grows.refl (objects : Objects Id) : objects.Grows objects :=
  ⟨Extends.refl _, id, fun _ _ h _ => h⟩

theorem Grows.trans {objects'' : Objects Id} (h : objects.Grows objects')
    (h' : objects'.Grows objects'') : objects.Grows objects'' :=
  ⟨h.keeps.trans h'.keeps, fun hh => h'.honest (h.honest hh),
    fun id o ho hk => h.other id o (h'.other id o ho hk) hk⟩

theorem grows_add (objects : Objects Id) (c : Chunk Id) : objects.Grows (objects.add (.tree c)) := by
  refine ⟨extends_add _ _, fun h => h.add _, fun id o ho hk => ?_⟩
  by_cases hid : id = objectId (.tree c)
  · subst hid
    rw [lookup_add_self] at ho
    cases hl : objects.lookup (objectId (.tree c)) with
    | some o' =>
        rw [hl] at ho
        exact ho
    | none =>
        rw [hl] at ho
        cases ho
        exact absurd rfl hk
  · rwa [lookup_add_of_ne hid] at ho

end Objects

namespace Sql
variable {s s' : Sql Id} {E : Chunk Id → Prop}

/-- Saving chunks adds tree chunks, and keeps the sink. -/
theorem grows_of_saves (h : Saves E s s') : s.objects.Grows s'.objects := by
  induction h with
  | refl => exact Objects.Grows.refl _
  | @tail s₁ s₂ c _ _ hs ih =>
      refine ih.trans ?_
      have hsave := save_eq_ok.mp hs
      obtain ⟨objects, sink⟩ := s₁
      cases sink with
      | write =>
          obtain ⟨_, rfl⟩ := hsave
          exact Objects.grows_add objects c
      | buffer chunks =>
          subst hsave
          exact Objects.Grows.refl _
      | verify =>
          obtain ⟨_, rfl⟩ := hsave
          exact Objects.Grows.refl _

theorem sink_of_saves (h : Saves E s s') (hs : s.sink = .write) : s'.sink = .write := by
  induction h with
  | refl => exact hs
  | @tail s₁ s₂ c _ _ hsave ih =>
      have hsave := save_eq_ok.mp hsave
      rw [ih] at hsave
      rw [hsave.2]

/-- What writing trees can read is stored. -/
theorem readable_of_has {t : SqlTrees Id} (ht : t.Coherent) (hs : t.store.sink = .write) {c : Chunk Id}
    (hc : t.Has c) : t.store.objects.Readable c := by
  obtain ⟨hw, hk⟩ := ht.of_has hc
  refine ⟨hw, hk.imp_right (fun h => ?_)⟩
  rcases h with h | h
  · exact h
  · unfold buffered at h
    rw [hs] at h
    cases h

end Sql

namespace Trees
variable {t t' : SqlTrees Id} {E : Chunk Id → Prop}

/-- What an operation over writing trees does to the table. -/
structure Wrote (objects : Objects Id) (t' : SqlTrees Id) : Prop where
  grows : objects.Grows t'.store.objects
  readable : ∀ c, t'.Has c → t'.store.objects.Readable c

theorem Step.wrote (h : Step E (objects.trees .write) t') : Wrote objects t' :=
  ⟨Sql.grows_of_saves h.saves,
    fun _ hc => Sql.readable_of_has h.coherent (Sql.sink_of_saves h.saves rfl) hc⟩

theorem Wrote.isTree (h : Wrote objects t') {S : Flat (FileEntry Id)} {root : Id}
    (hr : IsTree t'.Has S root) : IsTree t'.store.objects.Readable S root := IsDir.mono h.readable hr

end Trees

/-! ### The changes of a received root -/

omit [DecidableEq Id] [ObjectHash Id] in
/-- The entries a changeset adds. -/
theorem mem_newEntries {c : SparseChanges Id} {e : FileEntry Id} :
    e ∈ c.entries.toList.filterMap Prod.snd ↔ ∃ p, c.flat p = some (some e) := by
  rw [List.mem_filterMap]
  constructor
  · rintro ⟨⟨p, a⟩, hm, rfl⟩
    exact ⟨p.names, SortedMap.get?_eq_some.mpr hm⟩
  · rintro ⟨p, hp⟩
    exact ⟨(⟨p⟩, some e), SortedMap.get?_eq_some.mp hp, rfl⟩

namespace Repository
variable {t t' : SqlTrees Id} {base root : Id} {c : SparseChanges Id} {S : Manifest Id}

theorem checkContents_eq_ok {u : Unit} : checkContents c t = .ok (u, t') ↔
    (∀ p e, c.flat p = some (some e) → t.store.objects.validateEntry e = .ok ()) ∧ t' = t := by
  have hentries : (∀ e ∈ c.entries.toList.filterMap Prod.snd, t.store.objects.validateEntry e = .ok ()) ↔
      ∀ p e, c.flat p = some (some e) → t.store.objects.validateEntry e = .ok () := by
    constructor
    · exact fun h p e hp => h e (mem_newEntries.mpr ⟨p, hp⟩)
    · intro h e he
      obtain ⟨p, hp⟩ := mem_newEntries.mp he
      exact h p e hp
  unfold checkContents
  rw [except_bind_eq_ok]
  constructor
  · rintro ⟨_, hv, ht⟩
    cases ht
    exact ⟨hentries.mp (Objects.validateEntries_eq_ok.mp hv), rfl⟩
  · rintro ⟨hv, rfl⟩
    exact ⟨(), Objects.validateEntries_eq_ok.mpr (hentries.mpr hv), rfl⟩

/-- An accepted root is the canonical root of a snapshot, and its changes are the exact
difference. -/
theorem of_receivedChanges (ht : t.Open) (hbase : IsTree t.Has S.flat base)
    (h : receivedChanges base root t = .ok (c, t')) :
    Trees.Step Chunk.WellFormed t t' ∧
      (∀ p e, c.flat p = some (some e) → t.store.objects.validateEntry e = .ok ()) ∧
      ∃ T : Manifest Id, T.entries = c.apply S.entries ∧ IsTree t'.Has T.flat root ∧
        c.flat = Flat.diff S.flat T.flat := by
  unfold receivedChanges at h
  obtain ⟨c', t₁, hdiff, h₁⟩ := Trees.bind_eq_ok h
  obtain ⟨_, t₂, hcheck, h₂⟩ := Trees.bind_eq_ok h₁
  obtain ⟨derived, t₃, happly, h₃⟩ := Trees.bind_eq_ok h₂
  obtain ⟨hvalid, ht₂⟩ := checkContents_eq_ok.mp hcheck
  subst ht₂
  by_cases hroot : derived ≠ root
  · rw [if_pos hroot] at h₃
    cases h₃
  rw [if_neg hroot] at h₃
  rw [not_not] at hroot
  subst hroot
  cases h₃
  obtain ⟨hsame, hagain⟩ := Trees.Reads.diff base derived t c t₂ ht.coherent hdiff
  have hopen := hsame.open_of ht
  have hbase₂ : IsTree t₂.Has S.flat base := IsDir.mono (fun d hd => (hsame.has d).mpr hd) hbase
  obtain ⟨hstep, _, htree⟩ := (hopen.post_apply hbase₂ c).of_ok happly
  obtain ⟨T, hT, hflat⟩ := Trees.exists_snapshot htree
  rw [← hflat] at htree
  have hle : ∀ d, t.Has d → t'.Has d := fun d hd => hstep.has d ((hsame.has d).mpr hd)
  -- The comparison, run again where the derived tree can be read.
  obtain ⟨t₄, hdiff', _⟩ := hagain t' hstep.coherent hle
  have hexact : Trees.Post (fun _ => False) (Trees.diff base derived) t'
      (fun c _ => c.flat = Flat.diff S.flat T.flat) (fun _ => False) :=
    Trees.post_diff hstep.coherent (IsDir.mono hle hbase) htree (Trees.validBelow_flat S)
      (Trees.validBelow_flat T)
  rw [hsame.store] at hvalid
  refine ⟨⟨hstep.coherent, ?_, hle⟩, hvalid, T, hT, htree, (hexact.of_ok hdiff').2⟩
  rw [← hsame.store]
  exact hstep.saves

/-- A root whose canonical tree can be read, and whose new entries are valid, is accepted. -/
theorem exists_receivedChanges (ht : t.Open) {T : Manifest Id} (hbase : IsTree t.Has S.flat base)
    (hroot : IsTree t.Has T.flat root)
    (hvalid : ∀ p e, S.flat p ≠ some e → T.flat p = some e → t.store.objects.validateEntry e = .ok ()) :
    ∃ c t', receivedChanges base root t = .ok (c, t') ∧ c.flat = Flat.diff S.flat T.flat := by
  have hexact : Trees.Post (fun _ => False) (Trees.diff base root) t
      (fun c _ => c.flat = Flat.diff S.flat T.flat) (fun _ => False) :=
    Trees.post_diff ht.coherent hbase hroot (Trees.validBelow_flat S) (Trees.validBelow_flat T)
  obtain ⟨c, t₁, hdiff, hs₁, hflat⟩ := hexact.exists_ok
  have hstore : t₁.store = t.store := hs₁.saves.eq_of_none
  have hcheck : checkContents c t₁ = .ok ((), t₁) := by
    refine checkContents_eq_ok.mpr ⟨fun p e hp => ?_, rfl⟩
    rw [hflat] at hp
    obtain ⟨hne, he⟩ := Flat.diff_eq_some.mp hp
    rw [hstore]
    exact hvalid p e (fun hs => hne (hs.trans he)) he.symm
  have hover : S.flat.over c.flat = T.flat := by
    rw [hflat, Flat.over_diff]
  have happly := (ht.step hs₁).post_apply (IsDir.mono hs₁.has hbase) c
  rw [hover] at happly
  have hok : Trees.Post Chunk.WellFormed (Trees.apply base c) t₁
      (fun id t' => IsTree t'.Has T.flat id) (fun _ => False) := by
    apply happly.mono (fun _ _ _ h => h.2)
    rintro e ⟨_, hrefused | htall⟩
    · rw [hflat] at hrefused
      exact not_refused_diff T.prefixFree hrefused
    · exact hroot.not_tooTall htall
  obtain ⟨derived, t₂, hd, _, htree⟩ := hok.exists_ok
  obtain rfl : derived = root := IsDir.unique htree hroot
  refine ⟨c, t₂, ?_, hflat⟩
  unfold receivedChanges
  show (Trees.diff base derived t >>= fun p => _) = _
  rw [hdiff]
  show (checkContents c t₁ >>= fun p => _) = _
  rw [hcheck]
  show (Trees.apply base c t₁ >>= fun p => _) = _
  rw [hd]
  show (if derived ≠ derived then throw _ else pure c : TreesM (Sql Id) Id _) t₂ = _
  rw [if_neg (by simp)]
  rfl

end Repository

end Javelin
