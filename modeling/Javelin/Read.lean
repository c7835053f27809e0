import Javelin.Snapshots

/-! # Reading canonical trees

`leaves` lists the items of a directory (`runs_leaves`), so `entries` is the snapshot
(`runs_entries`), `lookup` is the node at a path (`runs_lookup`) and `filesUnder` lists the paths
strictly below it (`runs_filesUnder`).

`Covers P k c l` says that below the chunk `c` of level `k` lie the leaf items `l`, and that the
chunks below `c` satisfy `P`; the root of a directory covers its items (`covers_root`). -/

namespace Javelin

open KeyedList

variable {σ Id : Type} [DecidableEq Id] [Hashing Id]

/-! ### The items below a chunk -/

/-- A chunk with the leaf items below it. -/
abbrev Covered (Id : Type) := Chunk Id × List (Item Id)

/-- The leaf items of consecutive chunks. -/
def coveredItems (ps : List (Covered Id)) : List (Item Id) := (ps.map Prod.snd).flatten

/-- Below the chunk `c` of level `k` lie the leaf items `l`, in chunks that satisfy `P`. -/
def Covers (P : Chunk Id → Prop) : ℕ → Chunk Id → List (Item Id) → Prop
  | 0, c, l => l = c.items
  | k + 1, c, l => ∃ ps : List (Covered Id), c.items = ps.map (fun p => p.1.item) ∧
      (∀ p ∈ ps, p.1.level = k ∧ p.1.items ≠ [] ∧ P p.1 ∧ Covers P k p.1 p.2) ∧ l = coveredItems ps

section covers
variable {P Q : Chunk Id → Prop} {k : ℕ}
omit [DecidableEq Id]

theorem Covers.mono (hPQ : ∀ c, P c → Q c) {c : Chunk Id} {l : List (Item Id)}
    (h : Covers P k c l) : Covers Q k c l := by
  induction k generalizing c l with
  | zero => exact h
  | succ k ih =>
      obtain ⟨ps, hc, hps, hl⟩ := h
      refine ⟨ps, hc, fun p hp => ?_, hl⟩
      obtain ⟨h1, h2, h3, h4⟩ := hps p hp
      exact ⟨h1, h2, hPQ _ h3, ih h4⟩

/-- The items below a chunk are determined by the chunk. -/
theorem Covers.unique {c : Chunk Id} {l l' : List (Item Id)} (h : Covers P k c l)
    (h' : Covers Q k c l') : l = l' := by
  induction k generalizing c l l' with
  | zero => exact h.trans h'.symm
  | succ k ih =>
      obtain ⟨ps, hc, hps, rfl⟩ := h
      obtain ⟨ps', hc', hps', rfl⟩ := h'
      have hfst : ps.map Prod.fst = ps'.map Prod.fst := by
        have hitems : (ps.map Prod.fst).map Chunk.item = (ps'.map Prod.fst).map Chunk.item := by
          rw [List.map_map, List.map_map]
          exact hc.symm.trans hc'
        exact List.map_injective_iff.mpr (@Chunk.item_injective Id _) hitems
      clear hc hc'
      unfold coveredItems
      induction ps generalizing ps' with
      | nil =>
          rw [List.map_nil, eq_comm, List.map_eq_nil_iff] at hfst
          rw [hfst]
      | cons p ps ihp =>
          have hne : ps' ≠ [] := by
            rintro rfl
            simp at hfst
          obtain ⟨p', ps', rfl⟩ := List.exists_cons_of_ne_nil hne
          rw [List.map_cons, List.map_cons, List.cons.injEq] at hfst
          rw [List.forall_mem_cons] at hps hps'
          have hp : p.2 = p'.2 := by
            apply ih hps.1.2.2.2
            rw [hfst.1]
            exact hps'.1.2.2.2
          rw [List.map_cons, List.map_cons, List.flatten_cons, List.flatten_cons, hp,
            ihp hps.2 ps' hps'.2 hfst.2]

omit [Hashing Id] in
theorem coveredItems_flatten (L : List (List (Covered Id))) :
    coveredItems L.flatten = (L.map coveredItems).flatten := by
  induction L with
  | nil => rfl
  | cons ps L ih =>
      rw [List.flatten_cons, List.map_cons, List.flatten_cons, ← ih]
      simp [coveredItems]

/-- Splitting a list of covered chunks along the chunks of the level above. -/
theorem exists_covered_above {cs : List (Chunk Id)} {ps : List (Covered Id)}
    (h : chunkItems cs = ps.map (fun p => p.1.item)) :
    ∃ qs : List (Chunk Id × List (Covered Id)), qs.map Prod.fst = cs ∧
      (∀ q ∈ qs, q.1.items = q.2.map (fun p => p.1.item) ∧ ∀ p ∈ q.2, p ∈ ps) ∧
        (qs.map Prod.snd).flatten = ps := by
  induction cs generalizing ps with
  | nil =>
      rw [chunkItems_nil, eq_comm, List.map_eq_nil_iff] at h
      exact ⟨[], rfl, by simp, h.symm⟩
  | cons c cs ih =>
      rw [chunkItems_cons, eq_comm, List.map_eq_append_iff] at h
      obtain ⟨ps₁, ps₂, rfl, h1, h2⟩ := h
      obtain ⟨qs, hfst, hqs, hflat⟩ := ih h2.symm
      refine ⟨(c, ps₁) :: qs, by rw [List.map_cons, hfst], ?_, by rw [List.map_cons, List.flatten_cons, hflat]⟩
      rw [List.forall_mem_cons]
      refine ⟨⟨h1.symm, fun p hp => List.mem_append_left _ hp⟩, fun q hq => ?_⟩
      exact ⟨(hqs q hq).1, fun p hp => List.mem_append_right _ ((hqs q hq).2 p hp)⟩

/-- The chunks of a level cover the items of the directory. -/
theorem exists_covered {items : List (Item Id)} (hP : ∀ j < k, ∀ c ∈ levelChunks items j, P c) :
    ∃ ps : List (Covered Id), ps.map Prod.fst = levelChunks items k ∧
      (∀ p ∈ ps, Covers P k p.1 p.2) ∧ coveredItems ps = items := by
  induction k with
  | zero =>
      refine ⟨(levelChunks items 0).map (fun c => (c, c.items)), ?_, ?_, ?_⟩
      · rw [List.map_map]
        exact List.map_id _
      · intro p hp
        obtain ⟨c, _, rfl⟩ := List.mem_map.mp hp
        rfl
      · unfold coveredItems
        rw [List.map_map]
        exact chunkItems_levelChunks items 0
  | succ k ih =>
      obtain ⟨ps, hfst, hps, hcov⟩ := ih (fun j hj => hP j (by omega))
      have hitems : chunkItems (levelChunks items (k + 1)) = ps.map (fun p => p.1.item) := by
        rw [chunkItems_levelChunks, levelItems_succ, ← hfst, List.map_map]
        rfl
      obtain ⟨qs, hqfst, hqs, hflat⟩ := exists_covered_above hitems
      refine ⟨qs.map (fun q => (q.1, coveredItems q.2)), ?_, ?_, ?_⟩
      · rw [List.map_map]
        exact hqfst
      · intro p hp
        obtain ⟨q, hq, rfl⟩ := List.mem_map.mp hp
        refine ⟨q.2, (hqs q hq).1, fun p hp => ?_, rfl⟩
        have hpm := (hqs q hq).2 p hp
        have hchunk : p.1 ∈ levelChunks items k := hfst ▸ List.mem_map_of_mem hpm
        exact ⟨level_of_mem hchunk, items_ne_nil_of_mem hchunk, hP k (by omega) _ hchunk, hps p hpm⟩
      · rw [← hcov, ← hflat, coveredItems_flatten, List.map_map]
        unfold coveredItems
        rw [List.map_map]
        rfl

theorem covers_root {items : List (Item Id)} {h : ℕ} {c : Chunk Id} (hr : IsRoot items h c)
    (hP : ∀ j ≤ h, ∀ d ∈ levelChunks items j, P d) : Covers P h c items := by
  obtain ⟨ps, hfst, hps, hcov⟩ := exists_covered (k := h) (fun j hj => hP j hj.le)
  rw [hr.only, List.map_eq_singleton_iff] at hfst
  obtain ⟨p, rfl, rfl⟩ := hfst
  have hp := hps p (by simp)
  simp only [coveredItems, List.map_cons, List.map_nil, List.flatten_cons, List.flatten_nil,
    List.append_nil] at hcov
  rw [← hcov]
  exact hp

end covers

variable [Store σ Id] [LawfulStore σ Id]

namespace Trees
variable {t : Trees σ Id} {E : Chunk Id → Prop} {S : Flat (FileEntry Id)} {items : List (Item Id)}

theorem runs_leaves (ht : t.Coherent) {k : ℕ} {c : Chunk Id} {l : List (Item Id)}
    (hc : Covers t.Has k c l) (hk : c.level = k) : Runs E (leaves k c) t l := by
  induction k generalizing c l t with
  | zero =>
      rw [hc]
      exact Runs.pure ht _
  | succ k ih =>
      obtain ⟨ps, hitems, hps, rfl⟩ := hc
      unfold leaves
      rw [hitems]
      have hparts : Runs E ((ps.map (fun p => p.1.item)).mapM
          (fun item => do leaves k (← child c item false))) t (ps.map Prod.snd) := by
        rw [List.mapM_map]
        refine Runs.mapM ht ?_
        intro p hp t' hs
        obtain ⟨hl, hne, hhas, hcov⟩ := hps p hp
        refine (runs_child hs.coherent (hs.has _ hhas) rfl (by omega) hne rfl false).bind ?_
        intro t'' hs'
        exact ih hs'.coherent (hcov.mono (fun c hc => hs'.has c (hs.has c hc))) hl
      exact hparts.bind (fun t' hs => Runs.pure hs.coherent _)

/-- Loading the root of a directory and walking its leaves lists its items. -/
theorem runs_rootLeaves (ht : t.Coherent) {h : ℕ} {id : Id}
    (hr : Rooted t.Has items h (some id)) {β : Type} {f : List (Item Id) → TreesM σ Id β}
    {Q : β → Trees σ Id → Prop} {R : Error Id → Prop}
    (hf : ∀ t', Step E t t' → Post E (f items) t' Q R) :
    Post E (do
      let chunk ← chunk id false
      let items ← leaves chunk.level chunk
      f items) t Q R := by
  rcases hr with ⟨rfl, _, hd⟩ | ⟨c, hc, hroot, _, hhas⟩
  · obtain rfl : id = emptyId := Option.some.inj (hd.resolve_left (by simp))
    have hget : Runs E (chunk emptyId false) t .emptyLeaf :=
      runs_chunk ht ht.has_emptyLeaf false
    refine Runs.bind_post hget ?_
    intro t₁ hs₁
    have hleaf : Runs E (leaves (Chunk.emptyLeaf : Chunk Id).level .emptyLeaf) t₁ [] :=
      Runs.pure hs₁.coherent _
    refine Runs.bind_post hleaf ?_
    exact fun t₂ hs₂ => hf t₂ (hs₁.trans hs₂)
  · obtain rfl := Option.some.inj hc
    refine Runs.bind_post (runs_chunk ht (hhas h (le_refl _) c hroot.mem) false) ?_
    intro t₁ hs₁
    have hcov := covers_root hroot (fun j hj d hd => hs₁.has d (hhas j hj d hd))
    rw [hroot.level]
    refine Runs.bind_post (runs_leaves hs₁.coherent hcov hroot.level) ?_
    exact fun t₂ hs₂ => hf t₂ (hs₁.trans hs₂)

/-! ### Listings of any depth -/

omit [DecidableEq Id] [Store σ Id] [LawfulStore σ Id] in
/-- Every directory has a listing, also one of depth `0`. -/
theorem isDir_listing {P : Chunk Id → Prop} {d : ℕ} {dir : Option Id} (hd : IsDir P d S dir) :
    ∃ items h, Listed (SubDir P (d - 1)) S items ∧ Rooted P items h dir := by
  cases d with
  | succ d => exact hd
  | zero =>
      have h1 : IsDir P 1 S dir := isDir_empty hd.1 hd.2
      exact h1

/-! ### Walking -/

/-- Every set path, below the prefix, is a valid path. -/
def ValidBelow {V : Type} (pre : List Name) (S : Flat V) : Prop :=
  ∀ q, S q ≠ none → RepoPath.Valid ⟨pre ++ q⟩

omit [DecidableEq Id] [Hashing Id] [Store σ Id] [LawfulStore σ Id] in
theorem ValidBelow.inner {V : Type} {pre : List Name} {S : Flat V} (h : ValidBelow pre S) (n : Name) :
    ValidBelow (pre ++ [n]) (S.inner n) := by
  intro q hq
  by_cases hn : q = []
  · subst hn
    exact absurd rfl hq
  · rw [Flat.inner_of_ne hn] at hq
    rw [List.append_assoc]
    exact h _ hq

theorem runs_joined (ht : t.Coherent) {pre : List Name} {n : Name}
    (hv : RepoPath.Valid ⟨pre ++ [n]⟩) : Runs E (joined pre n) t ⟨pre ++ [n]⟩ := by
  obtain ⟨_, hd, hl⟩ := hv
  unfold joined
  rw [if_neg]
  · exact Runs.pure ht _
  · have hpos : 0 < MAX_DEPTH := by decide
    simp only [not_or, not_lt, not_le]
    refine ⟨hl, ?_⟩
    change (pre ++ [n]).length ≤ MAX_DEPTH at hd
    show (pre ++ [n]).length - 1 < MAX_DEPTH
    omega

omit [DecidableEq Id] [Store σ Id] [LawfulStore σ Id] [Hashing Id] in
/-- The name of an item is the first component of a valid path. -/
theorem valid_of_item {sub : Flat (FileEntry Id) → Id → Prop} {pre : List Name}
    (hv : ValidBelow pre S) {n : Name} {item : Item Id}
    (hnode : NodeAt sub (S [n]) (S.inner n) (some item.node)) : RepoPath.Valid ⟨pre ++ [n]⟩ := by
  have hex : ∃ q, S (n :: q) ≠ none := by
    match item.node, hnode with
    | .file e, hn => exact ⟨[], by rw [hn.1]; simp⟩
    | .dir id, hn =>
        have hT := hn.2.1
        simp only [Flat.Empty, not_forall] at hT
        obtain ⟨q, hq⟩ := hT
        by_cases hqn : q = []
        · subst hqn
          exact absurd rfl hq
        · rw [Flat.inner_of_ne hqn] at hq
          exact ⟨q, hq⟩
  obtain ⟨q, hq⟩ := hex
  have hvalid := hv _ hq
  rw [← List.singleton_append, ← List.append_assoc] at hvalid
  exact hvalid.prefix (by simp)

/-- What a walk below `pre` visits: the files of `S`, each once. -/
structure Walked (pre : List Name) (S : Flat (FileEntry Id)) (W : List (RepoPath × FileEntry Id)) :
    Prop where
  mem : ∀ path e, (path, e) ∈ W ↔ ∃ q, q ≠ [] ∧ path = ⟨pre ++ q⟩ ∧ S q = some e
  nodup : (W.map Prod.fst).Nodup

/-- The part of a walk at and below one name. -/
structure WalkedAt (pre : List Name) (S : Flat (FileEntry Id)) (n : Name)
    (W : List (RepoPath × FileEntry Id)) : Prop where
  mem : ∀ path e, (path, e) ∈ W ↔ ∃ q, path = ⟨pre ++ n :: q⟩ ∧ S (n :: q) = some e
  nodup : (W.map Prod.fst).Nodup

omit [DecidableEq Id] [Hashing Id] [Store σ Id] [LawfulStore σ Id] in
theorem walked_of_parts {pre : List Name} {items : List (Item Id)}
    {parts : List (List (RepoPath × FileEntry Id))} (ha : Ascending Item.name items)
    (h : List.Forall₂ (fun item part => WalkedAt pre S item.name part) items parts) :
    (∀ path e, (path, e) ∈ parts.flatten ↔
      ∃ item ∈ items, ∃ q, path = ⟨pre ++ item.name :: q⟩ ∧ S (item.name :: q) = some e) ∧
      (parts.flatten.map Prod.fst).Nodup := by
  induction h with
  | nil => simp
  | @cons item part items parts hp _ ih =>
      rw [ascending_cons] at ha
      obtain ⟨hmem, hnodup⟩ := ih ha.2
      constructor
      · intro path e
        rw [List.flatten_cons, List.mem_append, hp.mem, hmem]
        simp only [List.exists_mem_cons_iff]
      · rw [List.flatten_cons, List.map_append, List.nodup_append]
        refine ⟨hp.nodup, hnodup, ?_⟩
        rintro a ha' b hb rfl
        obtain ⟨⟨p₁, e₁⟩, h1, rfl⟩ := List.mem_map.mp ha'
        obtain ⟨⟨p₂, e₂⟩, h2, heq⟩ := List.mem_map.mp hb
        obtain ⟨q₁, hq₁, _⟩ := (hp.mem _ _).mp h1
        obtain ⟨item', hi', q₂, hq₂, _⟩ := (hmem _ _).mp h2
        simp only at heq
        rw [← heq, hq₂, RepoPath.mk.injEq, List.append_cancel_left_eq, List.cons.injEq] at hq₁
        exact absurd hq₁.1 (ha.1 item' hi').ne'

/-- What `walk` lists of one item. -/
def walkItem (bound : ℕ) (pre : List Name) (item : Item Id) : TreesM σ Id (List (RepoPath × FileEntry Id)) := do
  let path ← joined pre item.name
  match item.node with
  | .file entry => return [(path, entry)]
  | .dir id => walk bound id path.names

theorem post_walk {R : Error Id → Prop} {bound d : ℕ} (hb : d < bound) {pre : List Name} {id : Id}
    (ht : t.Coherent) (hd : IsDir t.Has d S (some id)) (hv : ValidBelow pre S) :
    Post E (walk bound id pre) t (fun W _ => Walked pre S W) R := by
  induction bound generalizing d S pre id t with
  | zero => omega
  | succ bound ih =>
      obtain ⟨items, h, hl, hr⟩ := isDir_listing hd
      unfold walk
      refine runs_rootLeaves ht hr ?_
      intro t₁ hs₁
      have hpart : ∀ item ∈ items, ∀ t', Step E t₁ t' →
          Post E (walkItem bound pre item) t' (fun part _ => WalkedAt pre S item.name part) R := by
        intro item hi t' hs
        have hnode := hl.node item.name
        rw [hl.clean.ascending.lookup_of_mem hi, Option.map_some] at hnode
        refine Runs.bind_post (runs_joined hs.coherent (valid_of_item hv hnode)) ?_
        intro t'' hs'
        cases hitem : item.node with
        | file e =>
            rw [hitem] at hnode
            have hn := hnode
            refine Post.pure hs'.coherent ⟨?_, by simp⟩
            intro path e'
            rw [List.mem_singleton, Prod.mk.injEq]
            constructor
            · rintro ⟨rfl, rfl⟩
              exact ⟨[], rfl, hn.1⟩
            · rintro ⟨q, rfl, hq⟩
              by_cases hqn : q = []
              · subst hqn
                exact ⟨rfl, Option.some.inj (hq.symm.trans hn.1)⟩
              · have hT := hn.2 q
                rw [Flat.inner_of_ne hqn, hq] at hT
                cases hT
        | dir id' =>
            rw [hitem] at hnode
            have hn := hnode
            have hpos : d ≠ 0 := by
              rintro rfl
              obtain ⟨hempty, _⟩ := hd
              refine hn.2.1 (fun q => ?_)
              by_cases hqn : q = []
              · subst hqn; rfl
              · rw [Flat.inner_of_ne hqn]
                exact hempty _
            have hsub : IsDir t''.Has (d - 1) (S.inner item.name) (some id') :=
              IsDir.mono (fun c hc => hs'.has c (hs.has c (hs₁.has c hc))) hn.2.2
            refine Post.mono (ih (by omega) hs'.coherent hsub (hv.inner item.name)) ?_ (fun _ h => h)
            intro W _ _ hW
            refine ⟨fun path e => ?_, hW.nodup⟩
            rw [hW.mem]
            constructor
            · rintro ⟨q, hqn, rfl, hq⟩
              rw [Flat.inner_of_ne hqn] at hq
              exact ⟨q, by rw [List.append_assoc]; rfl, hq⟩
            · rintro ⟨q, rfl, hq⟩
              have hqn : q ≠ [] := by
                rintro rfl
                rw [hn.1] at hq
                cases hq
              refine ⟨q, hqn, by rw [List.append_assoc]; rfl, ?_⟩
              rw [Flat.inner_of_ne hqn]
              exact hq
      refine Post.bind (Post.mapM hs₁.coherent hpart) ?_
      intro parts t₂ hs₂ hparts
      obtain ⟨hmem, hnodup⟩ := walked_of_parts hl.clean.ascending hparts
      refine Post.pure hs₂.coherent ⟨fun path e => ?_, hnodup⟩
      rw [hmem]
      constructor
      · rintro ⟨item, _, q, rfl, hq⟩
        exact ⟨item.name :: q, by simp, rfl, hq⟩
      · rintro ⟨q, hqn, rfl, hq⟩
        obtain ⟨n, q, rfl⟩ := List.exists_cons_of_ne_nil hqn
        have hnode := hl.node n
        cases hlk : KeyedList.lookup Item.name n items with
        | none =>
            rw [hlk, Option.map_none] at hnode
            by_cases hqn' : q = []
            · subst hqn'
              rw [hnode.1] at hq
              cases hq
            · have hT := hnode.2 q
              rw [Flat.inner_of_ne hqn', hq] at hT
              cases hT
        | some item =>
            obtain ⟨hi, rfl⟩ := mem_of_lookup hlk
            exact ⟨item, hi, q, rfl, hq⟩

/-- `entries` is the snapshot. -/
theorem post_entries {R : Error Id → Prop} (ht : t.Coherent) {id : Id} (hd : IsTree t.Has S id)
    (hv : ValidBelow [] S) : Post E (entries id) t (fun m _ => mapFlat m = S) R := by
  have h0 : S [] = none := hd.nil
  unfold entries
  refine Post.bind (post_walk (Nat.lt_succ_self _) ht hd hv) ?_
  intro W t' hs hW
  refine Post.pure hs.coherent (funext (fun p => Option.ext (fun e => ?_)))
  unfold mapFlat
  rw [SortedMap.get?_ofList hW.nodup, hW.mem]
  constructor
  · rintro ⟨q, _, heq, hq⟩
    rw [RepoPath.mk.injEq, List.nil_append] at heq
    rw [heq]
    exact hq
  · intro hq
    refine ⟨p, ?_, by simp, hq⟩
    rintro rfl
    rw [h0] at hq
    cases hq

/-! ### Looking up -/

/-- What lies strictly below a path. -/
def under {V : Type} (S : Flat V) (p : List Name) : Flat V := fun r => if r = [] then none else S (p ++ r)

omit [DecidableEq Id] [Hashing Id] [Store σ Id] [LawfulStore σ Id] in
theorem under_of_ne {V : Type} {S : Flat V} {p r : List Name} (hr : r ≠ []) :
    under S p r = S (p ++ r) := if_neg hr

omit [DecidableEq Id] [Hashing Id] [Store σ Id] [LawfulStore σ Id] in
theorem under_cons {V : Type} (S : Flat V) (n : Name) {q : List Name} (hq : q ≠ []) :
    under (S.inner n) q = under S (n :: q) := by
  funext r
  by_cases hr : r = []
  · subst hr; rfl
  · rw [under_of_ne hr, under_of_ne hr, Flat.inner_of_ne (by simp [hq])]
    rfl

omit [DecidableEq Id] [Hashing Id] [Store σ Id] [LawfulStore σ Id] in
theorem under_empty {V : Type} {S : Flat V} {n : Name} (hT : (S.inner n).Empty) {q : List Name}
    (hq : q ≠ []) : (under S (n :: q)).Empty := by
  intro r
  rw [← under_cons S n hq]
  by_cases hr : r = []
  · subst hr; rfl
  · rw [under_of_ne hr]
    exact hT _

/-- The node at a path. -/
theorem post_lookupNames {R : Error Id → Prop} (ht : t.Coherent) {d : ℕ} {id : Id} {q : List Name}
    (hq : q ≠ []) (hd : IsDir t.Has d S (some id)) :
    Post E (lookupNames id q) t
      (fun x t' => NodeAt (SubDir t'.Has (d - q.length)) (S q) (under S q) x) R := by
  induction q generalizing d S id t with
  | nil => exact absurd rfl hq
  | cons n q ih =>
      obtain ⟨items, h, hl, hr⟩ := isDir_listing hd
      unfold lookupNames
      have hfind : Runs E (find id n) t ((KeyedList.lookup Item.name n items).map Item.node) :=
        runs_findIn ht hl.clean.ascending hr n
      refine Runs.bind_post hfind ?_
      intro t₁ hs₁
      have hnode := (hl.node n).mono (fun T id hs => IsDir.mono hs₁.has hs)
      generalize (KeyedList.lookup Item.name n items).map Item.node = x at hnode
      by_cases hqn : q = []
      · subst hqn
        cases x with
        | none => exact Post.pure hs₁.coherent hnode
        | some node => exact Post.pure hs₁.coherent hnode
      · have hnone : (S.inner n).Empty → NodeAt (SubDir t₁.Has (d - (n :: q).length)) (S (n :: q))
            (under S (n :: q)) none := by
          intro hT
          refine ⟨?_, under_empty hT hqn⟩
          have h0 := hT q
          rwa [Flat.inner_of_ne hqn] at h0
        cases x with
        | none => exact Post.pure hs₁.coherent (hnone hnode.2)
        | some node =>
            cases node with
            | file _ =>
                simp only [hqn, if_false]
                exact Post.pure hs₁.coherent (hnone hnode.2)
            | dir id' =>
                simp only [hqn, if_false]
                refine Post.mono (ih hs₁.coherent hqn hnode.2.2) ?_ (fun _ h => h)
                intro y t₂ _ hy
                rw [under_cons S n hqn, Flat.inner_of_ne hqn] at hy
                have hdepth : d - 1 - q.length = d - (n :: q).length := by
                  rw [List.length_cons]
                  omega
                rwa [hdepth] at hy

/-- Every file strictly below a directory, each once. -/
theorem post_filesUnder {R : Error Id → Prop} (ht : t.Coherent) {id : Id} (hd : IsTree t.Has S id)
    (hv : ValidBelow [] S) {p : RepoPath} (hp : p.names ≠ []) :
    Post E (filesUnder id p) t (fun l _ => l.Nodup ∧
      ∀ q, q ∈ l ↔ ∃ r, r ≠ [] ∧ q = ⟨p.names ++ r⟩ ∧ S (p.names ++ r) ≠ none) R := by
  unfold filesUnder lookup
  refine Post.bind (post_lookupNames ht hp hd) ?_
  intro x t₁ hs₁ hx
  have hnone : (under S p.names).Empty → ([] : List RepoPath).Nodup ∧
      ∀ q, q ∈ ([] : List RepoPath) ↔
        ∃ r, r ≠ [] ∧ q = ⟨p.names ++ r⟩ ∧ S (p.names ++ r) ≠ none := by
    intro hT
    refine ⟨List.nodup_nil, fun q => ?_⟩
    simp only [List.not_mem_nil, false_iff]
    rintro ⟨r, hr, _, hs⟩
    have hTr := hT r
    rw [under_of_ne hr] at hTr
    exact hs hTr
  match x, hx with
  | none, hx => exact Post.pure hs₁.coherent (hnone hx.2)
  | some (.file _), hx => exact Post.pure hs₁.coherent (hnone hx.2)
  | some (.dir id'), hx =>
      have hbelow : ValidBelow p.names (under S p.names) := by
        intro r hr
        by_cases hrn : r = []
        · subst hrn
          exact absurd rfl hr
        · rw [under_of_ne hrn] at hr
          exact hv _ hr
      have hbound : MAX_DEPTH - p.names.length < MAX_DEPTH + 1 := by omega
      refine Post.bind (post_walk hbound hs₁.coherent hx.2.2 hbelow) ?_
      intro W t₂ hs₂ hW
      refine Post.pure hs₂.coherent ⟨hW.nodup, fun q => ?_⟩
      rw [List.mem_map]
      constructor
      · rintro ⟨⟨path, e⟩, hm, rfl⟩
        obtain ⟨r, hr, rfl, hs⟩ := (hW.mem _ _).mp hm
        rw [under_of_ne hr] at hs
        exact ⟨r, hr, rfl, by rw [hs]; simp⟩
      · rintro ⟨r, hr, rfl, hs⟩
        obtain ⟨e, he⟩ := Option.ne_none_iff_exists'.mp hs
        refine ⟨(_, e), (hW.mem _ _).mpr ⟨r, hr, rfl, ?_⟩, rfl⟩
        rw [under_of_ne hr]
        exact he

end Trees

end Javelin
