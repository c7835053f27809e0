import Javelin.Closure

/-! # Intact trees

What the tree operations keep of an ordered table, whatever trees they work on: nothing here asks a
tree to be canonical, or a chunk to be well formed.  An operation that reads a chunk finds all that
the chunk names, and one that writes a chunk has put all that it names before, so none of them can
report a missing object.  The specifications follow the definitions one by one. -/

namespace Javelin

open KeyedList Upkeep

variable {Id : Type} [DecidableEq Id] [ObjectHash Id]

/-- The object is stored, or a tree chunk that waits to be. -/
def Objects.Waiting (objects : Objects Id) (chunks : List (Id × Chunk Id)) (ref : Id × ObjectKind) : Prop :=
  objects.HasKind ref ∨ ref.2 = .tree ∧ ref.1 ∈ chunks.map Prod.fst

/-- Every waiting chunk comes after all that it names. -/
def Objects.Recorded (objects : Objects Id) (chunks : List (Id × Chunk Id)) : Prop :=
  ∀ before e after, chunks = before ++ e :: after →
    e.2.id = e.1 ∧ ∀ ref ∈ e.2.references, objects.Waiting before ref

namespace Trees
variable {t t' : SqlTrees Id}

/-- The object is stored, or a tree chunk in the cache. -/
def Present (t : SqlTrees Id) (ref : Id × ObjectKind) : Prop :=
  t.store.objects.HasKind ref ∨ ref.2 = .tree ∧ ∃ c, t.cached ref.1 = some c

/-- All that the items name is present. -/
def Held (t : SqlTrees Id) (items : List (Item Id)) : Prop := ∀ item ∈ items, t.Present item.node.reference

/-- The table is ordered, and so is it with the chunks that wait; what is cached is kept. -/
structure Intact (t : SqlTrees Id) : Prop where
  ordered : t.store.objects.Ordered
  empty : t.store.objects.HasKind (emptyId, .tree)
  recorded : t.store.objects.Recorded t.store.buffered
  kept : ∀ id c, t.cached id = some c → t.store.objects.Waiting t.store.buffered (id, .tree)
  held : ∀ id c, t.cached id = some c → c.id = id ∧ t.Held c.items

/-- Nothing present is lost, and the sink stays. -/
structure Onward (t t' : SqlTrees Id) : Prop where
  present : ∀ ref, t.Present ref → t'.Present ref
  objects : t.store.objects.Extends t'.store.objects
  write : t.store.sink = .write → t'.store.sink = .write
  buffer : ∀ chunks, t.store.sink = .buffer chunks →
    t'.store.objects = t.store.objects ∧ ∃ chunks', t'.store.sink = .buffer chunks'

omit [ObjectHash Id] in
theorem Onward.refl (t : SqlTrees Id) : Onward t t :=
  ⟨fun _ h => h, Objects.Extends.refl _, id, fun chunks h => ⟨rfl, chunks, h⟩⟩

omit [ObjectHash Id] in
theorem Onward.trans {t'' : SqlTrees Id} (h : Onward t t') (h' : Onward t' t'') : Onward t t'' := by
  refine ⟨fun ref hr => h'.present ref (h.present ref hr), h.objects.trans h'.objects,
    fun hs => h'.write (h.write hs), fun chunks hs => ?_⟩
  obtain ⟨hobjects, chunks', hs'⟩ := h.buffer chunks hs
  obtain ⟨hobjects', hs''⟩ := h'.buffer chunks' hs'
  exact ⟨hobjects'.trans hobjects, hs''⟩

omit [ObjectHash Id] in
theorem Held.onward {items : List (Item Id)} (h : t.Held items) (hle : Onward t t') : t'.Held items :=
  fun item hi => hle.present _ (h item hi)

/-- The regime of an intact table: no operation reports a missing object. -/
def intact (Id : Type) [DecidableEq Id] [ObjectHash Id] : Regime (SqlTrees Id) (Error Id) where
  Inv := Intact
  Le := Onward
  Err e := ∀ id, e ≠ .missingObject id
  refl := Onward.refl
  trans := Onward.trans

theorem stable_present (ref : Id × ObjectKind) : (intact Id).Stable (fun t => t.Present ref) :=
  fun hle h => hle.present ref h

theorem stable_held (items : List (Item Id)) : (intact Id).Stable (fun t => t.Held items) :=
  fun hle h => h.onward hle

/-! ### Reading and writing one chunk -/

omit [ObjectHash Id] in
theorem held_nil : t.Held [] := by
  intro item hi
  cases hi

omit [ObjectHash Id] in
theorem held_of_references {c : Chunk Id} (h : ∀ ref ∈ c.references, t.Present ref) : t.Held c.items :=
  fun item hi => h _ (Chunk.mem_references.mpr ⟨item, hi, rfl⟩)

omit [ObjectHash Id] in
theorem Held.references {c : Chunk Id} (h : t.Held c.items) : ∀ ref ∈ c.references, t.Present ref := by
  intro ref href
  obtain ⟨item, hi, rfl⟩ := Chunk.mem_references.mp href
  exact h item hi

/-- What is present is stored or waits. -/
theorem Intact.waiting (h : t.Intact) {ref : Id × ObjectKind} (hp : t.Present ref) :
    t.store.objects.Waiting t.store.buffered ref := by
  obtain ⟨id, kind⟩ := ref
  cases hp with
  | inl hp => exact Or.inl hp
  | inr hp =>
      obtain ⟨hk, c, hc⟩ := hp
      have hkind : kind = .tree := hk
      subst hkind
      exact h.kept id c hc

/-- Caching a chunk that is stored or waits, after all that it names. -/
theorem Intact.cache (h : t.Intact) {c : Chunk Id}
    (hc : t.store.objects.Waiting t.store.buffered (c.id, .tree)) (hitems : t.Held c.items) :
    Intact { t with cache := (c.id, c) :: t.cache } ∧ Onward t { t with cache := (c.id, c) :: t.cache } := by
  have hcached : ∀ id d, ({ t with cache := (c.id, c) :: t.cache } : SqlTrees Id).cached id = some d →
      (id = c.id ∧ d = c) ∨ t.cached id = some d := by
    intro id d hd
    rw [cached_cons] at hd
    split at hd
    · exact Or.inl ⟨by assumption, (Option.some.inj hd).symm⟩
    · exact Or.inr hd
  have honward : Onward t { t with cache := (c.id, c) :: t.cache } := by
    refine ⟨fun ref hr => ?_, Objects.Extends.refl _, id, fun chunks hs => ⟨rfl, chunks, hs⟩⟩
    cases hr with
    | inl hr => exact Or.inl hr
    | inr hr =>
        obtain ⟨hk, d, hd⟩ := hr
        refine Or.inr ⟨hk, ?_⟩
        rw [cached_cons]
        split
        · exact ⟨c, rfl⟩
        · exact ⟨d, hd⟩
  refine ⟨⟨h.ordered, h.empty, h.recorded, ?_, ?_⟩, honward⟩
  · intro id d hd
    cases hcached id d hd with
    | inl he =>
        rw [he.1]
        exact hc
    | inr hd => exact h.kept id d hd
  · intro id d hd
    cases hcached id d hd with
    | inl he =>
        obtain ⟨rfl, rfl⟩ := he
        exact ⟨rfl, hitems.onward honward⟩
    | inr hd => exact ⟨(h.held id d hd).1, (h.held id d hd).2.onward honward⟩

/-- Loading an object that is not cached. -/
theorem Intact.fetch (h : t.Intact) {id : Id} {kind : ObjectKind} (hid : t.store.objects.HasKind (id, kind)) :
    match Trees.fetch t.store id with
    | .ok c => c.id = id ∧ t.store.objects.HasKind (id, .tree) ∧ t.Held c.items
    | .error e => ∀ id, e ≠ .missingObject id := by
  cases hf : Trees.fetch t.store id with
  | ok c =>
      obtain ⟨hc, _, hkind⟩ := fetch_eq_ok.mp hf
      refine ⟨hc, ?_⟩
      cases hkind with
      | inl he =>
          rw [← hc, he]
          exact ⟨h.empty, held_nil⟩
      | inr hl =>
          obtain ⟨hl', _⟩ := Objects.readTree_eq_ok.mp hl.2
          exact ⟨Objects.hasKind_of_readTree hl.2,
            held_of_references (fun ref href => Or.inl (h.ordered.references hl' ref href))⟩
  | error e =>
      have hload : ∀ e, Store.load t.store id = .error e → ∀ id, e ≠ .missingObject id := by
        intro e he id' hmissing
        subst hmissing
        obtain ⟨o, ho, _⟩ := hid
        have hread : t.store.objects.read id .tree =
            if o.kind ≠ .tree then .error (.wrongObjectKind id) else .ok o := by
          unfold Objects.read
          rw [ho]
          exact if_neg (not_not.mpr (h.ordered.honest.of_lookup ho))
        change t.store.objects.readTree id = .error (.missingObject id') at he
        unfold Objects.readTree at he
        rw [hread] at he
        cases o <;> cases he
      intro id'
      unfold Trees.fetch at hf
      by_cases hempty : id = emptyId
      · subst hempty
        simp only [if_true] at hf
        have hdec := Chunk.decode_of_wellFormed (@Chunk.emptyLeaf_wellFormed Id)
        simp [hdec, emptyId, Bind.bind, Except.bind] at hf
      · rw [if_neg hempty] at hf
        cases hl : Store.load t.store id with
        | error e' =>
            rw [hl] at hf
            cases hf
            exact hload e hl id'
        | ok c =>
            rw [hl] at hf
            simp only [Bind.bind, Except.bind] at hf
            intro he
            subst he
            split at hf
            · cases hf
            · split at hf <;> cases hf

/-- An object of some kind is present under the ID. -/
def Known (t : SqlTrees Id) (id : Id) : Prop := ∃ kind, t.Present (id, kind)

omit [ObjectHash Id] in
theorem Known.onward {id : Id} (h : t.Known id) (hle : Onward t t') : t'.Known id := by
  obtain ⟨kind, h⟩ := h
  exact ⟨kind, hle.present _ h⟩

theorem ends_chunk (h : t.Intact) {id : Id} (hid : t.Known id) (cache : Bool) :
    (intact Id).Ends (chunk id cache) t
      (fun c t' => c.id = id ∧ t'.Present (id, .tree) ∧ t'.Held c.items) := by
  unfold Regime.Ends Trees.chunk
  cases hc : t.cached id with
  | some c => exact ⟨h, Onward.refl t, (h.held id c hc).1, Or.inr ⟨rfl, c, hc⟩, (h.held id c hc).2⟩
  | none =>
      have hstored : ∃ kind, t.store.objects.HasKind (id, kind) := by
        obtain ⟨kind, hid⟩ := hid
        cases hid with
        | inl hid => exact ⟨kind, hid⟩
        | inr hid =>
            obtain ⟨_, c, hc'⟩ := hid
            rw [hc] at hc'
            cases hc'
      obtain ⟨kind, hkind⟩ := hstored
      have hfetch := h.fetch hkind
      cases hf : Trees.fetch t.store id with
      | error e =>
          rw [hf] at hfetch
          exact hfetch
      | ok c =>
          rw [hf] at hfetch
          obtain ⟨rfl, htree, hitems⟩ := hfetch
          cases cache with
          | false => exact ⟨h, Onward.refl t, rfl, Or.inl htree, hitems⟩
          | true =>
              obtain ⟨hintact, honward⟩ := h.cache (Or.inl htree) hitems
              exact ⟨hintact, honward, rfl, Or.inl htree, hitems.onward honward⟩

theorem ends_get (h : t.Intact) {id : Id} (hid : t.Known id) :
    (intact Id).Ends (get id) t (fun c t' => c.id = id ∧ t'.Present (id, .tree) ∧ t'.Held c.items) :=
  ends_chunk h hid true

omit [ObjectHash Id] in
/-- What an item names is known. -/
theorem Held.known {items : List (Item Id)} (h : t.Held items) {item : Item Id} (hi : item ∈ items) :
    t.Known item.id := by
  have hid : item.node.reference.1 = item.id := by
    obtain ⟨name, tag, id⟩ := item
    cases tag <;> rfl
  refine ⟨item.node.reference.2, ?_⟩
  rw [← hid]
  exact h item hi

/-- A child that its parent holds. -/
theorem ends_child (h : t.Intact) {parent : Chunk Id} {item : Item Id} (hitem : t.Known item.id) (cache : Bool) :
    (intact Id).Ends (child parent item cache) t (fun c t' => c.id = item.id ∧ t'.Held c.items) := by
  unfold child
  refine Ends.bind (ends_chunk h hitem cache) (fun c t₁ h₁ _ hc => ?_)
  refine Ends.ite (fun _ => Ends.throw ?_) (fun _ => Ends.pure h₁ ⟨hc.1, hc.2.2⟩)
  intro id he
  cases he

/-- The chunks of a table, and one more after all that it names. -/
theorem Intact.record (h : t.Intact) {chunks : List (Id × Chunk Id)} (hs : t.store.sink = .buffer chunks)
    {c : Chunk Id} (hitems : t.Held c.items) : t.store.objects.Recorded (chunks ++ [(c.id, c)]) := by
  have hbuffered : t.store.buffered = chunks := by
    unfold Sql.buffered
    rw [hs]
  intro before e after hsplit
  cases List.eq_nil_or_concat after with
  | inl hnil =>
      rw [hnil] at hsplit
      obtain ⟨hbefore, he⟩ := List.append_inj' hsplit rfl
      obtain rfl := List.cons.inj he |>.1
      refine ⟨rfl, fun ref href => ?_⟩
      rw [← hbefore, ← hbuffered]
      exact h.waiting (hitems.references ref href)
  | inr hsome =>
      obtain ⟨after', last, hafter⟩ := hsome
      rw [hafter, List.concat_eq_append, ← List.cons_append, ← List.append_assoc] at hsplit
      obtain ⟨hchunks, _⟩ := List.append_inj' hsplit rfl
      exact h.recorded before e after' (hbuffered.trans hchunks)

theorem ends_put (h : t.Intact) {c : Chunk Id} (hitems : t.Held c.items) :
    (intact Id).Ends (put c) t (fun id t' => id = c.id ∧ t'.Present (id, .tree)) := by
  unfold Regime.Ends Trees.put
  cases hc : t.cached c.id with
  | some d => exact ⟨h, Onward.refl t, rfl, Or.inr ⟨rfl, d, hc⟩⟩
  | none =>
      cases hsave : Store.save t.store c.id c with
      | error e =>
          -- Only the verifying sink refuses, and it calls a missing chunk corruption.
          show ∀ id, e ≠ .missingObject id
          obtain ⟨⟨objects, sink⟩, cache⟩ := t
          cases sink with
          | write =>
              have hins := h.ordered.honest.insert_eq (.tree c)
              change (objects.insert (.tree c) >>= fun p => pure (⟨p.2, .write⟩ : Sql Id)) = .error e at hsave
              rw [hins] at hsave
              cases hsave
          | buffer chunks => cases hsave
          | verify =>
              change (Sql.verifyChunk objects c.id c >>= fun _ => pure (⟨objects, .verify⟩ : Sql Id)) = .error e
                at hsave
              intro id he
              subst he
              unfold Sql.verifyChunk at hsave
              split at hsave
              · split at hsave <;> cases hsave
              · cases hsave
              · rename_i e' hne hread
                cases hsave
                exact hne id rfl
      | ok s =>
          have hsaved := Sql.saved_of_save hsave
          have hcase := Sql.save_eq_ok.mp hsave
          have hinv : Intact ⟨s, t.cache⟩ ∧ Onward t ⟨s, t.cache⟩ ∧
              s.objects.Waiting s.buffered (c.id, .tree) := by
            obtain ⟨⟨objects, sink⟩, cache⟩ := t
            have hext := hsaved.objects
            cases sink with
            | write =>
                obtain ⟨_, rfl⟩ := hcase
                have hrefs : ∀ ref ∈ c.references, objects.HasKind ref := by
                  intro ref href
                  cases h.waiting (hitems.references ref href) with
                  | inl hk => exact hk
                  | inr hw => cases hw.2
                have hordered := h.ordered.add (o := .tree c) (fun d hd => by cases hd; exact hrefs)
                have hkind := Objects.hasKind_add h.ordered.honest (.tree c)
                rw [ObjectHash.objectId_tree] at hkind
                have honward : Onward ⟨⟨objects, .write⟩, cache⟩ ⟨⟨objects.add (.tree c), .write⟩, cache⟩ :=
                  ⟨fun ref hr => hr.imp_left (fun hk => hk.extends hext), hext, id, fun _ hb => by cases hb⟩
                refine ⟨⟨hordered, h.empty.extends hext, ?_, ?_, ?_⟩, honward, Or.inl hkind⟩
                · intro before e after hsplit
                  exact absurd hsplit (by simp [Sql.buffered])
                · exact fun id d hd => (h.kept id d hd).imp_left (fun hk => hk.extends hext)
                · exact fun id d hd => ⟨(h.held id d hd).1, (h.held id d hd).2.onward honward⟩
            | buffer chunks =>
                subst hcase
                have honward : Onward ⟨⟨objects, .buffer chunks⟩, cache⟩
                    ⟨⟨objects, .buffer (chunks ++ [(c.id, c)])⟩, cache⟩ :=
                  ⟨fun _ hr => hr, hext, (fun hb => by cases hb), fun _ _ => ⟨rfl, _, rfl⟩⟩
                have hlonger : ∀ ref, objects.Waiting chunks ref → objects.Waiting (chunks ++ [(c.id, c)]) ref := by
                  intro ref hw
                  refine hw.imp_right (fun hw => ⟨hw.1, ?_⟩)
                  rw [List.map_append, List.mem_append]
                  exact Or.inl hw.2
                refine ⟨⟨h.ordered, h.empty, h.record rfl hitems, ?_, ?_⟩, honward, Or.inr ⟨rfl, ?_⟩⟩
                · exact fun id d hd => hlonger _ (h.kept id d hd)
                · exact fun id d hd => ⟨(h.held id d hd).1, (h.held id d hd).2.onward honward⟩
                · show c.id ∈ (chunks ++ [(c.id, c)]).map Prod.fst
                  simp
            | verify =>
                obtain ⟨hst, rfl⟩ := hcase
                refine ⟨h, Onward.refl _, Or.inl ⟨.tree c, ?_, rfl⟩⟩
                exact Objects.stored_iff.mp hst
          obtain ⟨hintact, honward, hwaiting⟩ := hinv
          obtain ⟨hintact', honward'⟩ := hintact.cache hwaiting (hitems.onward honward)
          refine ⟨hintact', honward.trans honward', rfl, Or.inr ⟨rfl, c, ?_⟩⟩
          rw [cached_cons]
          exact if_pos rfl

end Trees

end Javelin
