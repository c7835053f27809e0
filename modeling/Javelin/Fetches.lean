import Javelin.Fetching
import Javelin.Promises
import Javelin.TreeContract

/-! # What a fetch gets

`Serves` says how a server answers `Get`; nothing has to be known of it for what is held to be genuine (`ends_get`).
`Stands` places a pending chunk in the canonical tree of a snapshot, and `Owed` is what lies below it and was asked
for.  Walking a chunk turns what is owed to it into files and what is owed to the next chunks (`Stands.walk`), so in
the end the files are those of the snapshot at and below the path (`fetch_authentic`, `fetch_exact`). -/

namespace Javelin

open KeyedList Sessions

variable {Id : Type}

theorem prefix_cons {α : Type} (l : List α) (a : α) (l' : List α) : l ++ [a] <+: l ++ a :: l' := ⟨l', by simp⟩

theorem Flat.inner_under {V : Type} (S : Flat V) (dir : List Name) (n : Name) : (Trees.under S dir).inner n = Trees.under S (dir ++ [n]) := by
  funext q
  by_cases hq : q = []
  · subst hq
    rfl
  · rw [Flat.inner_of_ne hq, Trees.under_of_ne hq, Trees.under_of_ne (by simp), List.append_assoc]
    rfl

section trees
variable [Hashing Id]

/-- The last item below a chunk has its last name. -/
theorem Covers.last {P : Chunk Id → Prop} {k : ℕ} {c : Chunk Id} {l : List (Item Id)} (h : Covers P k c l) (hne : c.items ≠ []) :
    ∃ init x, l = init ++ [x] ∧ x.name = c.last := by
  induction k generalizing c l with
  | zero =>
      obtain ⟨init, x, hx, hlast⟩ := Chunk.exists_last hne
      exact ⟨init, x, h.trans hx, hlast.symm⟩
  | succ k ih =>
      obtain ⟨ps, hitems, hps, rfl⟩ := h
      have hpsne : ps ≠ [] := by
        rintro rfl
        exact hne hitems
      obtain ⟨qs, q, rfl⟩ := (List.eq_nil_or_concat ps).resolve_left hpsne
      rw [List.concat_eq_append] at hitems hps ⊢
      obtain ⟨_, hqne, _, hq⟩ := hps q (by simp)
      obtain ⟨init, x, hx, hlast⟩ := ih hq hqne
      refine ⟨coveredItems qs ++ init, x, ?_, ?_⟩
      · simp [coveredItems, hx]
      · rw [List.map_append, List.map_singleton] at hitems
        rw [Chunk.last_eq hitems, Chunk.name_item, hlast]

theorem childLinks_eq {c : Chunk Id} {ps : List (Covered Id)} (hitems : c.items = ps.map (fun p => p.1.item)) :
    c.childLinks = ps.map (fun p => (p.1.last, p.1.id)) := by
  unfold Chunk.childLinks
  rw [hitems, List.filter_map, List.map_map]
  have hall : ps.filter ((fun item : Item Id => decide (item.tag = .child)) ∘ fun p => p.1.item) = ps :=
    List.filter_eq_self.mpr (fun p _ => by simp [Chunk.item])
  rw [hall]
  rfl

theorem childFor_mem {c : Chunk Id} {ps : List (Covered Id)} (hitems : c.items = ps.map (fun p => p.1.item)) {n : Name}
    {r : Name × Id} (hr : c.childFor n = some r) : ∃ p ∈ ps, r = (p.1.last, p.1.id) := by
  obtain ⟨item, hitem, rfl⟩ := Option.map_eq_some_iff.mp hr
  obtain ⟨hfind, _⟩ := Option.filter_eq_some_iff.mp hitem
  have hmem := List.mem_of_find?_eq_some hfind
  rw [hitems, List.mem_map] at hmem
  obtain ⟨p, hp, rfl⟩ := hmem
  exact ⟨p, hp, rfl⟩

namespace Protocol

/-! ### Chunks of a canonical tree -/

section stands
variable {P : Chunk Id → Prop} {S : Flat (FileEntry Id)} {dir rest : List Name} {link : Option Link} {c : Chunk Id}
  {l : List (Item Id)} {k d : ℕ} {id : Id}

/-- The chunk stands in the tree of the directory `dir` as its parent says, and the items `l` lie below it. -/
structure Stands (P : Chunk Id → Prop) (S : Flat (FileEntry Id)) (dir : List Name) (link : Option Link)
    (c : Chunk Id) (l : List (Item Id)) : Prop where
  good : P c ∧ c.WellFormed
  link : ∀ claim ∈ link, c.level = claim.level ∧ c.last = claim.last
  covers : Covers (fun c => P c ∧ c.WellFormed) c.level c l
  ascending : Ascending Item.name l
  node : ∃ d, ∀ item ∈ l, NodeAt (SubDir P d) (S (dir ++ [item.name])) (Trees.under S (dir ++ [item.name]))
    (some item.node)

/-- The root of a directory stands in its tree, and every name of the directory lies below it. -/
theorem stands_root (dir : List Name) (hempty : P Chunk.emptyLeaf) (hd : IsDir P d (Trees.under S dir) (some id)) :
    ∃ c l, c.id = id ∧ Stands P S dir none c l ∧
      ∀ n q, S (dir ++ n :: q) ≠ none → ∃ item ∈ l, item.name = n := by
  obtain ⟨items, height, hl, hr⟩ := Trees.isDir_listing hd
  have hnode : ∀ item ∈ items, NodeAt (SubDir P (d - 1)) (S (dir ++ [item.name]))
      (Trees.under S (dir ++ [item.name])) (some item.node) := by
    intro item hi
    have hn := hl.node item.name
    rw [hl.clean.ascending.lookup_of_mem hi, Option.map_some, Flat.inner_under] at hn
    exact hn
  have hnames : ∀ n q, S (dir ++ n :: q) ≠ none → ∃ item ∈ items, item.name = n := by
    intro n q hq
    have hn := hl.node n
    cases hlook : KeyedList.lookup Item.name n items with
    | some item =>
        obtain ⟨hi, rfl⟩ := mem_of_lookup hlook
        exact ⟨item, hi, rfl⟩
    | none =>
        rw [hlook, Flat.inner_under] at hn
        obtain ⟨hfile, hbelow⟩ := hn
        refine absurd ?_ hq
        by_cases hqn : q = []
        · subst hqn
          exact hfile
        · have h := hbelow q
          rw [Trees.under_of_ne hqn, List.append_assoc] at h
          exact h
  rcases hr with ⟨rfl, _, hid⟩ | ⟨c, hid, hroot, hheight, hgood⟩
  · obtain rfl := Option.some.inj (hid.resolve_left (by simp))
    exact ⟨Chunk.emptyLeaf, [], rfl, ⟨⟨hempty, Chunk.emptyLeaf_wellFormed⟩, by simp, rfl, ascending_nil,
      ⟨0, by simp⟩⟩, hnames⟩
  · obtain rfl := Option.some.inj hid
    have hall : ∀ j ≤ height, ∀ e ∈ levelChunks items j, P e ∧ e.WellFormed := fun j hj e he =>
      ⟨hgood j hj e he, wellFormed_of_mem hl.clean (hj.trans hheight) he⟩
    refine ⟨c, items, rfl, ⟨hall _ (le_refl _) c hroot.mem, by simp, ?_, hl.clean.ascending, ⟨_, hnode⟩⟩, hnames⟩
    rw [hroot.level]
    exact covers_root hroot hall

/-- The chunks below one above the leaves. -/
theorem Stands.children (h : Stands P S dir link c l) (hlevel : 0 < c.level) :
    ∃ ps : List (Covered Id), c.items = ps.map (fun p => p.1.item) ∧ l = coveredItems ps ∧
      ∀ p ∈ ps, Stands P S dir (some ⟨c.level - 1, p.1.last⟩) p.1 p.2 ∧ p.1.items ≠ [] := by
  obtain ⟨k, hk⟩ : ∃ k, c.level = k + 1 := ⟨c.level - 1, by omega⟩
  have hcovers := h.covers
  rw [hk] at hcovers ⊢
  obtain ⟨ps, hitems, hps, rfl⟩ := hcovers
  refine ⟨ps, hitems, rfl, fun p hp => ?_⟩
  obtain ⟨hpl, hpne, hpgood, hpcovers⟩ := hps p hp
  have hmem : ∀ item ∈ p.2, item ∈ coveredItems ps := fun item hi =>
    List.mem_flatten.mpr ⟨p.2, List.mem_map_of_mem hp, hi⟩
  refine ⟨⟨hpgood, ?_, ?_, ?_, ?_⟩, hpne⟩
  · intro claim hclaim
    obtain rfl := Option.some.inj hclaim
    exact ⟨hpl, rfl⟩
  · rw [hpl]
    exact hpcovers
  · exact h.ascending.sublist (List.sublist_flatten_of_mem (List.mem_map_of_mem hp))
  · obtain ⟨e, hnode⟩ := h.node
    exact ⟨e, fun item hi => hnode item (hmem item hi)⟩

/-- The reference that `childFor` follows leads to the name. -/
theorem Stands.childFor (h : Stands P S dir link c l) {ps : List (Covered Id)}
    (hitems : c.items = ps.map (fun p => p.1.item)) (hl : l = coveredItems ps)
    (hps : ∀ p ∈ ps, Stands P S dir (some ⟨c.level - 1, p.1.last⟩) p.1 p.2 ∧ p.1.items ≠ [])
    {p : Covered Id} (hp : p ∈ ps) {item : Item Id} (hi : item ∈ p.2) :
    c.childFor item.name = some (p.1.last, p.1.id) := by
  obtain ⟨before, after, rfl⟩ := List.append_of_mem hp
  have hasc := h.ascending
  have hsplit : coveredItems (before ++ p :: after) = coveredItems before ++ (p.2 ++ coveredItems after) := by
    simp [coveredItems]
  rw [hl, hsplit] at hasc
  obtain ⟨_, hrest, hlt⟩ := ascending_append.mp hasc
  have hle : item.name ≤ p.1.last := by
    obtain ⟨hstands, hne⟩ := hps p hp
    obtain ⟨init, x, hx, hlast⟩ := hstands.covers.last hne
    rw [← hlast]
    rw [hx] at hi
    have hasc' := hstands.ascending
    rw [hx] at hasc'
    rcases List.mem_append.mp hi with hi | hi
    · exact ((ascending_append.mp hasc').2.2 item hi x (by simp)).le
    · rw [List.mem_singleton.mp hi]
  have hfind : c.items.find? (fun i => decide (item.name ≤ i.name)) = some p.1.item := by
    rw [hitems, List.find?_eq_some_iff_append]
    refine ⟨decide_eq_true hle, before.map (fun q => q.1.item), after.map (fun q => q.1.item), by simp, ?_⟩
    intro i hi'
    obtain ⟨q, hq, rfl⟩ := List.mem_map.mp hi'
    obtain ⟨hstands, hne⟩ := hps q (List.mem_append_left _ hq)
    obtain ⟨init, x, hx, hlast⟩ := hstands.covers.last hne
    have hxmem : x ∈ coveredItems before :=
      List.mem_flatten.mpr ⟨q.2, List.mem_map_of_mem hq, by rw [hx]; simp⟩
    have hxlt := hlt x hxmem item (List.mem_append_left _ hi)
    rw [hlast] at hxlt
    rw [Bool.not_eq_true']
    exact decide_eq_false (not_le.mpr hxlt)
  unfold Chunk.childFor
  rw [hfind]
  rfl

end stands

/-! ### Walking a chunk -/

/-- The directory of the pending chunk. -/
def Want.dir : Want → List Name
  | .all dir => dir
  | .path dir _ _ => dir

/-- The path that is wanted, with all below it. -/
def Want.goal : Want → List Name
  | .all dir => dir
  | .path dir next rest => dir ++ next :: rest

section walk
variable {P : Chunk Id → Prop} {S : Flat (FileEntry Id)} {dir rest : List Name} {c : Chunk Id} {l : List (Item Id)}
  {d : ℕ} {p : Pending Id} {w : Walked Id} {want : Want}

/-- The files that a pending chunk is to bring. -/
def Owed (S : Flat (FileEntry Id)) (p : Pending Id) (path : List Name) (e : FileEntry Id) : Prop :=
  S path = some e ∧ p.want.goal <+: path ∧ ∃ (c : Chunk Id) (l : List (Item Id)), c.id = p.id ∧
    Covers (fun _ => True) c.level c l ∧ ∃ item ∈ l, p.want.dir ++ [item.name] <+: path

/-- The pending chunk stands in the tree. -/
def Known (P : Chunk Id → Prop) (S : Flat (FileEntry Id)) (p : Pending Id) : Prop :=
  ∃ c l, c.id = p.id ∧ Stands P S p.want.dir p.link c l

/-- What was walked are the files of `O`, and what the next chunks bring. -/
structure Brings (P : Chunk Id → Prop) (S : Flat (FileEntry Id)) (O : List Name → FileEntry Id → Prop)
    (w : Walked Id) : Prop where
  known : ∀ p ∈ w.next, Known P S p
  owed : ∀ path e, O path e ↔ ((⟨path⟩ : RepoPath), e) ∈ w.files ∨ ∃ p ∈ w.next, Owed S p path e
  blobs : w.blobs = w.files.map (fun file => file.2.content)

theorem Stands.owed_iff (h : Stands P S p.want.dir p.link c l) (hid : c.id = p.id) (path : List Name) (e : FileEntry Id) :
    Owed S p path e ↔ S path = some e ∧ p.want.goal <+: path ∧ ∃ item ∈ l, p.want.dir ++ [item.name] <+: path := by
  constructor
  · rintro ⟨hS, hgoal, c', l', hid', hcovers, hitem⟩
    obtain rfl := Chunk.id_inj.mp (hid'.trans hid.symm)
    obtain rfl := hcovers.unique h.covers
    exact ⟨hS, hgoal, hitem⟩
  · rintro ⟨hS, hgoal, hitem⟩
    exact ⟨hS, hgoal, c, l, hid, h.covers.mono (fun _ _ => trivial), hitem⟩

theorem Brings.append {O O' : List Name → FileEntry Id → Prop} {w' : Walked Id} (h : Brings P S O w)
    (h' : Brings P S O' w') : Brings P S (fun path e => O path e ∨ O' path e) (w.append w') where
  known := by
    intro p hp
    rcases List.mem_append.mp hp with hp | hp
    · exact h.known p hp
    · exact h'.known p hp
  owed := by
    intro path e
    show _ ↔ _ ∈ w.files ++ w'.files ∨ ∃ p ∈ w.next ++ w'.next, _
    rw [h.owed, h'.owed, List.mem_append]
    simp only [List.mem_append, or_and_right, exists_or]
    exact or_or_or_comm
  blobs := by
    show w.blobs ++ w'.blobs = (w.files ++ w'.files).map _
    rw [List.map_append, h.blobs, h'.blobs]

theorem brings_nothing {O : List Name → FileEntry Id → Prop} (h : ∀ path e, ¬ O path e) {n : ℕ} :
    Brings P S O (⟨[], [], [], n⟩ : Walked Id) :=
  ⟨by simp, fun path e => by simp [h path e], rfl⟩

/-- One entry of a directory. -/
theorem exists_follow (rest : List Name) (hempty : P Chunk.emptyLeaf) (hv : Trees.ValidBelow [] S) {n : Name} {node : Node Id}
    (hnode : NodeAt (SubDir P d) (S (dir ++ [n])) (Trees.under S (dir ++ [n])) (some node)) :
    ∃ w, follow dir rest n node = .ok w ∧
      Brings P S (fun path e => S path = some e ∧ dir ++ n :: rest <+: path) w := by
  have hbelow : ∀ q, S (dir ++ [n] ++ q) ≠ none → RepoPath.Valid ⟨dir ++ [n]⟩ := by
    intro q hq
    have hvalid : RepoPath.Valid ⟨dir ++ [n] ++ q⟩ := hv _ hq
    exact hvalid.prefix (by simp)
  have hlimits : RepoPath.Valid ⟨dir ++ [n]⟩ →
      ¬ (MAX_PATH < (⟨dir ++ [n]⟩ : RepoPath).asStr.length ∨ MAX_DEPTH ≤ (dir ++ [n]).length - 1) := by
    rintro ⟨_, hdepth, hlen⟩
    have hpos : 0 < MAX_DEPTH := by decide
    change (dir ++ [n]).length ≤ MAX_DEPTH at hdepth
    rw [not_or, Nat.not_lt, Nat.not_le]
    exact ⟨hlen, by omega⟩
  unfold follow
  cases node with
  | file entry =>
      obtain ⟨hfile, hnone⟩ := hnode
      have hvalid := hbelow [] (by rw [List.append_nil, hfile]; simp)
      rw [if_neg (hlimits hvalid)]
      -- a file is all that is at and below its path
      have honly : ∀ path e, S path = some e → dir ++ [n] <+: path → path = dir ++ [n] ∧ e = entry := by
        rintro path e he ⟨q, rfl⟩
        by_cases hq : q = []
        · subst hq
          rw [List.append_nil, hfile] at he
          exact ⟨List.append_nil _, (Option.some.inj he).symm⟩
        · have h := hnone q
          rw [Trees.under_of_ne hq, he] at h
          cases h
      cases rest with
      | nil =>
          refine ⟨_, rfl, by simp, fun path e => ?_, rfl⟩
          constructor
          · rintro ⟨he, hpath⟩
            obtain ⟨rfl, rfl⟩ := honly path e he hpath
            exact .inl (List.mem_singleton.mpr rfl)
          · rintro (hmem | ⟨q, hq, _⟩)
            · obtain ⟨hpath, rfl⟩ := Prod.mk.inj (List.mem_singleton.mp hmem)
              obtain rfl := RepoPath.mk.inj hpath
              exact ⟨hfile, List.prefix_refl _⟩
            · cases hq
      | cons m rest =>
          refine ⟨_, rfl, brings_nothing ?_⟩
          rintro path e ⟨he, hpath⟩
          obtain ⟨rfl, _⟩ := honly path e he ((prefix_cons dir n _).trans hpath)
          have hlen := hpath.length_le
          simp only [List.length_append, List.length_cons, List.length_nil] at hlen
          omega
  | dir id =>
      obtain ⟨hfile, hne, hsub⟩ := hnode
      obtain ⟨c, l, hid, hstands, hnames⟩ := stands_root _ hempty hsub
      have hvalid : RepoPath.Valid ⟨dir ++ [n]⟩ := by
        simp only [Flat.Empty, not_forall] at hne
        obtain ⟨q, hq⟩ := hne
        by_cases hqn : q = []
        · subst hqn
          exact absurd rfl hq
        · rw [Trees.under_of_ne hqn] at hq
          exact hbelow q hq
      rw [if_neg (hlimits hvalid)]
      -- the subdirectory is owed what lies below it and is wanted
      have hnext : ∀ want : Want, want.dir = dir ++ [n] → want.goal = dir ++ n :: rest →
          Brings P S (fun path e => S path = some e ∧ dir ++ n :: rest <+: path) ⟨[⟨id, want, none⟩], [], [], 1⟩ := by
        intro want hdir hgoal
        have hstands' : Stands P S want.dir none c l := hdir ▸ hstands
        refine ⟨fun p hp => ?_, fun path e => ?_, rfl⟩
        · obtain rfl := List.mem_singleton.mp hp
          exact ⟨c, l, hid, hstands'⟩
        · have howed := Stands.owed_iff (p := ⟨id, want, none⟩) hstands' hid path e
          constructor
          · rintro ⟨he, hpath⟩
            refine .inr ⟨_, List.mem_singleton.mpr rfl, howed.mpr ⟨he, hgoal ▸ hpath, ?_⟩⟩
            obtain ⟨q, rfl⟩ := (prefix_cons dir n rest).trans hpath
            cases q with
            | nil =>
                rw [List.append_nil, hfile] at he
                cases he
            | cons m q =>
                obtain ⟨item, hi, rfl⟩ := hnames m q (by rw [he]; simp)
                refine ⟨item, hi, ?_⟩
                show want.dir ++ [item.name] <+: _
                rw [hdir]
                exact prefix_cons _ _ _
          · rintro (hmem | ⟨q, hq, ho⟩)
            · cases hmem
            · obtain rfl := List.mem_singleton.mp hq
              obtain ⟨he, hpath, _⟩ := howed.mp ho
              exact ⟨he, hgoal ▸ hpath⟩
      cases rest with
      | nil => exact ⟨_, rfl, hnext (.all (dir ++ [n])) rfl rfl⟩
      | cons m rest =>
          refine ⟨_, rfl, hnext (.path (dir ++ [n]) m rest) rfl ?_⟩
          show dir ++ [n] ++ m :: rest = _
          rw [List.append_assoc]
          rfl

theorem Brings.congr {O O' : List Name → FileEntry Id → Prop} (h : Brings P S O w)
    (hO : ∀ path e, O' path e ↔ O path e) : Brings P S O' w :=
  ⟨h.known, fun path e => (hO path e).trans (h.owed path e), h.blobs⟩

theorem eq_of_fronts {dir path rest : List Name} {n m : Name} (hn : dir ++ [n] <+: path) (hm : dir ++ m :: rest <+: path) :
    n = m := by
  obtain ⟨q, rfl⟩ := hn
  obtain ⟨q', hq⟩ := hm
  rw [List.append_assoc, List.append_assoc, List.append_cancel_left_eq] at hq
  exact (List.cons.inj hq).1.symm

/-- The entries of a leaf chunk. -/
theorem exists_walkEntries (hempty : P Chunk.emptyLeaf) (hv : Trees.ValidBelow [] S)
    (hnode : ∀ item ∈ l, NodeAt (SubDir P d) (S (want.dir ++ [item.name]))
      (Trees.under S (want.dir ++ [item.name])) (some item.node)) :
    ∃ w, walkEntries want (l.map (fun item => (item.name, item.node))) = .ok w ∧ Brings P S (fun path e =>
      S path = some e ∧ want.goal <+: path ∧ ∃ item ∈ l, want.dir ++ [item.name] <+: path) w := by
  induction l with
  | nil => exact ⟨_, rfl, brings_nothing (by simp)⟩
  | cons item l ih =>
      obtain ⟨hitem, hl⟩ := List.forall_mem_cons.mp hnode
      obtain ⟨others, hothers, hbrings⟩ := ih hl
      have hfirst : ∃ first, visit want item.name item.node = .ok first ∧ Brings P S (fun path e =>
          S path = some e ∧ want.goal <+: path ∧ want.dir ++ [item.name] <+: path) first := by
        unfold visit
        cases want with
        | all dir =>
            obtain ⟨first, hok, h⟩ := exists_follow [] hempty hv hitem
            refine ⟨first, hok, h.congr (fun path e => ?_)⟩
            constructor
            · exact fun hpath => ⟨hpath.1, hpath.2.2⟩
            · exact fun hpath => ⟨hpath.1, (List.prefix_append _ _).trans hpath.2, hpath.2⟩
        | path dir next rest =>
            dsimp only
            by_cases hname : next = item.name
            · obtain ⟨first, hok, h⟩ := exists_follow rest hempty hv hitem
              rw [if_pos hname]
              refine ⟨first, hok, h.congr (fun path e => ?_)⟩
              rw [← hname]
              constructor
              · exact fun hpath => ⟨hpath.1, hpath.2.1⟩
              · exact fun hpath => ⟨hpath.1, hpath.2, (prefix_cons _ _ _).trans hpath.2⟩
            · rw [if_neg hname]
              refine ⟨_, rfl, brings_nothing ?_⟩
              rintro path e ⟨_, hgoal, hpath⟩
              exact hname (eq_of_fronts hpath hgoal).symm
      obtain ⟨first, hok, h⟩ := hfirst
      refine ⟨first.append others, ?_, (h.append hbrings).congr (fun path e => ?_)⟩
      · unfold walkEntries
        rw [List.map_cons]
        refine except_bind_eq_ok.mpr ⟨first, hok, ?_⟩
        exact except_bind_eq_ok.mpr ⟨others, hothers, rfl⟩
      · simp only [List.exists_mem_cons_iff]
        constructor
        · rintro ⟨he, hgoal, hpath | hpath⟩
          · exact .inl ⟨he, hgoal, hpath⟩
          · exact .inr ⟨he, hgoal, hpath⟩
        · rintro (⟨he, hgoal, hpath⟩ | ⟨he, hgoal, hpath⟩)
          · exact ⟨he, hgoal, .inl hpath⟩
          · exact ⟨he, hgoal, .inr hpath⟩

/-- A chunk of the tree brings what is owed to it. -/
theorem Stands.walk (h : Stands P S p.want.dir p.link c l) (hid : c.id = p.id) (hempty : P Chunk.emptyLeaf)
    (hv : Trees.ValidBelow [] S) : ∃ w, walk c p.want = .ok w ∧ Brings P S (Owed S p) w := by
  unfold Protocol.walk
  by_cases hlevel : 0 < c.level
  · rw [if_pos hlevel]
    obtain ⟨ps, hitems, hl, hps⟩ := h.children hlevel
    have hchild : ∀ link ∈ p.want.links c, ∃ child ∈ ps, link = (child.1.last, child.1.id) := by
      intro link hlink
      unfold Want.links at hlink
      cases hwant : p.want with
      | all dir =>
          rw [hwant] at hlink
          dsimp only at hlink
          rw [childLinks_eq hitems] at hlink
          obtain ⟨child, hchild, rfl⟩ := List.mem_map.mp hlink
          exact ⟨child, hchild, rfl⟩
      | path dir next rest =>
          rw [hwant] at hlink
          exact childFor_mem hitems (Option.mem_toList.mp hlink)
    refine ⟨_, rfl, ?_, fun path e => ?_, rfl⟩
    · intro q hq
      obtain ⟨link, hlink, rfl⟩ := List.mem_map.mp hq
      obtain ⟨child, hmem, rfl⟩ := hchild link hlink
      exact ⟨child.1, child.2, rfl, (hps child hmem).1⟩
    · have howed : ∀ child ∈ ps, Owed S ⟨child.1.id, p.want, some ⟨c.level - 1, child.1.last⟩⟩ path e ↔
          S path = some e ∧ p.want.goal <+: path ∧ ∃ item ∈ child.2, p.want.dir ++ [item.name] <+: path :=
        fun child hchild => Stands.owed_iff (p := ⟨child.1.id, p.want, some ⟨c.level - 1, child.1.last⟩⟩)
          (hps child hchild).1 rfl path e
      rw [h.owed_iff hid]
      constructor
      · rintro ⟨he, hgoal, item, hi, hpath⟩
        rw [hl] at hi
        obtain ⟨_, hm, hi⟩ := List.mem_flatten.mp hi
        obtain ⟨child, hchild, rfl⟩ := List.mem_map.mp hm
        refine .inr ⟨_, List.mem_map.mpr ⟨(child.1.last, child.1.id), ?_, rfl⟩,
          (howed child hchild).mpr ⟨he, hgoal, item, hi, hpath⟩⟩
        unfold Want.links
        cases hwant : p.want with
        | all dir =>
            dsimp only
            rw [childLinks_eq hitems]
            exact List.mem_map_of_mem hchild
        | path dir next rest =>
            rw [hwant] at hgoal hpath
            obtain rfl := eq_of_fronts hpath hgoal
            exact Option.mem_toList.mpr (h.childFor hitems hl hps hchild hi)
      · rintro (hmem | ⟨q, hq, ho⟩)
        · cases hmem
        · obtain ⟨link, hlink, rfl⟩ := List.mem_map.mp hq
          obtain ⟨child, hmem, rfl⟩ := hchild link hlink
          obtain ⟨he, hgoal, item, hi, hpath⟩ := (howed child hmem).mp ho
          refine ⟨he, hgoal, item, ?_, hpath⟩
          rw [hl]
          exact List.mem_flatten.mpr ⟨child.2, List.mem_map_of_mem hmem, hi⟩
  · rw [if_neg hlevel]
    obtain hzero := Nat.eq_zero_of_not_pos hlevel
    have hcovers := h.covers
    rw [hzero] at hcovers
    obtain rfl : l = c.items := hcovers
    obtain ⟨d, hnode⟩ := h.node
    have hentries : c.entries = c.items.map (fun item => (item.name, item.node)) := by
      unfold Chunk.entries
      rw [List.filter_eq_self.mpr]
      exact fun item hi => decide_eq_true ((h.good.2.tags item hi).mp hzero)
    obtain ⟨w, hok, hbrings⟩ := exists_walkEntries hempty hv hnode
    rw [hentries]
    exact ⟨w, hok, hbrings.congr (fun path e => h.owed_iff hid path e)⟩

/-! ### How far a walk gets -/

/-- What the walk has, while `todo` is left of the round: the files at and below `goal` are there or still owed. -/
structure Reading (P : Chunk Id → Prop) (S : Flat (FileEntry Id)) (goal : List Name) (todo : List (Pending Id))
    (w : Walk Id) : Prop where
  known : ∀ p, p ∈ todo ∨ p ∈ w.next → Known P S p
  files : ∀ path e, (S path = some e ∧ goal <+: path) ↔
    w.files.get? ⟨path⟩ = some e ∨ ∃ p, (p ∈ todo ∨ p ∈ w.next) ∧ Owed S p path e
  blobs : ∀ id, id ∈ w.blobs ↔ ∃ path e, w.files.get? path = some e ∧ e.content = id

end walk

end Protocol

end trees

namespace Protocol

variable [LinearOrder Id] [Encoding Id]

/-! ### Objects -/

/-- The object is held. -/
def Held.Has (held : Held Id) (x : Kind × Id) : Prop :=
  match x.1 with
  | .tree => held.trees.lookup x.2 ≠ none
  | .blob => held.blobs.lookup x.2 ≠ none
  | .checkpoint => False

/-- What is held has the ID it is held under. -/
structure Held.Honest (held : Held Id) : Prop where
  trees : ∀ id c, held.trees.lookup id = some c → c.id = id
  blobs : ∀ id bytes, held.blobs.lookup id = some bytes → objectId (.blob bytes) = id

/-- What was held is held. -/
def Held.Grows (held held' : Held Id) : Prop := ∀ x, held.Has x → held'.Has x

section objects
variable {held held' : Held Id} {f : Format Id} {σ : Type} {server : Server Id σ} {s : σ}
  {R : ProtocolError → Prop} {Wanted : Kind × Id → Prop}

omit [Encoding Id] in
theorem lookup_cons_spec {β : Type} {l : List (Id × β)} {Q : Id → β → Prop} (h : ∀ x b, l.lookup x = some b → Q x b)
    {id : Id} {b : β} (hb : Q id b) (x : Id) (b' : β) (hx : List.lookup x ((id, b) :: l) = some b') : Q x b' := by
  rw [List.lookup_cons] at hx
  split at hx
  · rename_i he
    obtain rfl := Option.some.inj hx
    rw [beq_iff_eq.mp he]
    exact hb
  · exact h x b' hx

theorem Held.put_spec (h : held.Honest) {id : Id} {payload : Payload Id} (hid : payload.id? = some id) :
    (held.put id payload).Honest ∧ held.Grows (held.put id payload) ∧ (held.put id payload).Has (payload.kind, id) := by
  have hlook : ∀ {β : Type} (l : List (Id × β)) (b : β) (x : Id), List.lookup x l ≠ none →
      List.lookup x ((id, b) :: l) ≠ none := by
    intro β l b x hx
    rw [List.lookup_cons]
    split
    · simp
    · exact hx
  have hself : ∀ {β : Type} (l : List (Id × β)) (b : β), List.lookup id ((id, b) :: l) ≠ none := by
    intro β l b
    rw [List.lookup_cons, beq_self_eq_true]
    simp
  cases payload with
  | checkpoint bytes => cases hid
  | tree chunk =>
      refine ⟨⟨lookup_cons_spec h.trees (Option.some.inj hid), h.blobs⟩, fun x hx => ?_, hself held.trees chunk⟩
      obtain ⟨kind, x⟩ := x
      cases kind with
      | tree => exact hlook _ _ _ hx
      | blob => exact hx
      | checkpoint => exact hx
  | blob bytes =>
      refine ⟨⟨h.trees, lookup_cons_spec h.blobs (Option.some.inj hid)⟩, fun x hx => ?_, hself held.blobs bytes⟩
      obtain ⟨kind, x⟩ := x
      cases kind with
      | tree => exact hx
      | blob => exact hlook _ _ _ hx
      | checkpoint => exact hx

/-- What a reply is taken for is what was asked for. -/
theorem of_takeObjects (h : held.Honest) {objects : List (Id × Payload Id)} {request : List (Kind × Id)}
    (hlen : objects.length ≤ request.length) (hok : takeObjects f held objects request = .ok held') :
    held'.Honest ∧ held.Grows held' ∧ ∀ x ∈ request.take objects.length, held'.Has x := by
  induction objects generalizing held request with
  | nil =>
      obtain rfl := Except.ok.inj hok
      exact ⟨h, fun _ hx => hx, by simp⟩
  | cons object objects ih =>
      obtain ⟨id, payload⟩ := object
      cases request with
      | nil => cases hlen
      | cons wanted request =>
          unfold takeObjects at hok
          split at hok
          · cases hok
          rename_i hwanted
          split at hok
          · cases hok
          rename_i hid
          obtain ⟨hput, hgrows, hhas⟩ := Held.put_spec h (not_not.mp hid)
          obtain ⟨h', hgrows', hall⟩ := ih hput (Nat.le_of_succ_le_succ hlen) hok
          refine ⟨h', fun x hx => hgrows' x (hgrows x hx), ?_⟩
          rw [List.length_cons, List.take_succ_cons, List.forall_mem_cons, ← not_not.mp hwanted]
          exact ⟨hgrows' _ hhas, hall⟩

/-- The item of an object, and that its bytes hash to its ID. -/
def Genuine (o : Id × Payload Id) : Prop := o.2.id? = some o.1

theorem exists_takeObjects (f : Format Id) (held : Held Id) {objects : List (Id × Payload Id)} {request : List (Kind × Id)}
    (hitems : objects.map itemOf <+: request) (hgenuine : ∀ o ∈ objects, Genuine o) :
    ∃ held', takeObjects f held objects request = .ok held' := by
  induction objects generalizing held request with
  | nil => exact ⟨held, rfl⟩
  | cons o objects ih =>
      obtain ⟨rest, hrest⟩ := hitems
      rw [List.map_cons, List.cons_append] at hrest
      subst hrest
      rw [List.forall_mem_cons] at hgenuine
      have hitem : (o.2.kind, o.1) = itemOf o := rfl
      unfold takeObjects
      have hid : o.2.id? = some o.1 := hgenuine.1
      rw [if_neg (not_not.mpr hitem), if_neg (not_not.mpr hid)]
      exact ih _ (List.prefix_append _ _) hgenuine.2

/-- How a server answers what is wanted: with some of it, from the front on, or anything where every error may occur. -/
def Serves (server : Server Id σ) (Wanted : Kind × Id → Prop) (R : ProtocolError → Prop) : Prop :=
  ∀ s request, request ≠ [] → request.Nodup → request.length ≤ MAX_WANT → (∀ x ∈ request, Wanted x) →
    Ends (call server (.get request)) s (fun reply _ => (∃ objects, reply = .objects objects ∧ objects ≠ [] ∧
      objects.map itemOf <+: request ∧ ∀ o ∈ objects, Genuine o) ∨ ∀ e, R e) R

/-- Every reply brings something, so all that is asked for is held in the end. -/
theorem ends_get (hserve : Serves server Wanted R) {kind : Kind} {bound : ℕ} {ids : List Id} (hnodup : ids.Nodup)
    (hwanted : ∀ id ∈ ids, Wanted (kind, id)) (h : held.Honest) (hb : ids.length < bound) :
    Ends (get f server kind bound ids held) s (fun held' _ => held'.Honest ∧ held.Grows held' ∧
      ∀ id ∈ ids, held'.Has (kind, id)) R := by
  induction bound generalizing ids held s with
  | zero => omega
  | succ bound ih =>
      unfold get
      by_cases hids : ids = []
      · subst hids
        exact Ends.pure ⟨h, fun _ hx => hx, by simp⟩
      rw [if_neg (by simpa using hids)]
      have hmap : Function.Injective (fun id : Id => (kind, id)) := fun a b hab => (Prod.mk.inj hab).2
      have hlen : ((ids.take MAX_WANT).map (fun id => (kind, id))).length ≤ MAX_WANT := by
        rw [List.length_map, List.length_take]
        exact Nat.min_le_left _ _
      have hne : (ids.take MAX_WANT).map (fun id => (kind, id)) ≠ [] := by
        rw [Ne, List.map_eq_nil_iff, List.take_eq_nil_iff, not_or]
        exact ⟨by decide, hids⟩
      have hask : ∀ x ∈ (ids.take MAX_WANT).map (fun id => (kind, id)), Wanted x := by
        intro x hx
        obtain ⟨id, hid, rfl⟩ := List.mem_map.mp hx
        exact hwanted id (List.mem_of_mem_take hid)
      refine Ends.bind (hserve s _ hne ((hnodup.sublist (List.take_sublist _ _)).map hmap) hlen hask) ?_
      intro reply s₁ hreply
      cases reply with
      | objects objects =>
          dsimp only
          split
          · rename_i hbad
            rcases hreply with ⟨objects', he, hsome, hfront, _⟩ | hR
            · obtain rfl := Message.objects.inj he
              have hle := hfront.length_le
              rw [List.length_map] at hle
              exact absurd hbad (not_or.mpr ⟨hsome, Nat.not_lt.mpr hle⟩)
            · exact Ends.throw (hR _)
          · rename_i hgood
            rw [not_or, Nat.not_lt] at hgood
            cases htake : takeObjects f held objects ((ids.take MAX_WANT).map (fun id => (kind, id))) with
            | error e =>
                rcases hreply with ⟨objects', he, _, hfront, hgenuine⟩ | hR
                · obtain rfl := Message.objects.inj he
                  obtain ⟨held', hok⟩ := exists_takeObjects f held hfront hgenuine
                  rw [htake] at hok
                  cases hok
                · exact Ends.bind (Q := fun _ _ => False) (Ends.throw (hR e)) (fun _ _ h => h.elim)
            | ok held₁ =>
                obtain ⟨h₁, hgrows, hall⟩ := of_takeObjects h hgood.2 htake
                refine Ends.bind (Q := fun p s' => held₁ = p ∧ s₁ = s') (Ends.pure ⟨rfl, rfl⟩) ?_
                rintro _ _ ⟨rfl, rfl⟩
                have hpos := List.length_pos_iff.mpr hgood.1
                have hmany := hgood.2
                rw [List.length_map, List.length_take] at hmany
                refine (ih (hnodup.sublist (List.drop_sublist _ _)) (fun id hid => hwanted id (List.mem_of_mem_drop hid))
                  h₁ (by rw [List.length_drop]; omega)).mono ?_ (fun _ he => he)
                rintro held' s' ⟨h', hgrows', hall'⟩
                refine ⟨h', fun x hx => hgrows' x (hgrows x hx), fun id hid => ?_⟩
                rw [← List.take_append_drop objects.length ids, List.mem_append] at hid
                rcases hid with hid | hid
                · refine hgrows' _ (hall _ ?_)
                  rw [← List.map_take, List.take_take, Nat.min_eq_left (by omega)]
                  exact List.mem_map_of_mem hid
                · exact hall' id hid
      | _ =>
          rcases hreply with ⟨_, he, _⟩ | hR
          · cases he
          · exact Ends.throw (hR _)

end objects

section reading
variable {held : Held Id} {f : Format Id} {P : Chunk Id → Prop} {S : Flat (FileEntry Id)} {goal : List Name}
  {todo : List (Pending Id)} {p : Pending Id} {w w' : Walk Id}

end reading

/-! ### The rounds -/

section rounds
variable {σ : Type} {server : Server Id σ} {s : σ} {held : Held Id} {f : Format Id} {P : Chunk Id → Prop}
  {World : Flat (FileEntry Id) → Prop} {goal : List Name} {w : Walk Id} {Wanted : Kind × Id → Prop}
  {R : ProtocolError → Prop}

end rounds

/-! ### The fetch -/

section fetch
variable {σ : Type} {h : Hashes Id} {f : Format Id} {server : Server Id σ} {s : σ} {held held' : Held Id}
  {P : Chunk Id → Prop} {S : Flat (FileEntry Id)} {World : Flat (FileEntry Id) → Prop} {number : VersionNumber}
  {id root : Id} {path : Option {path : RepoPath // path.Valid}} {Wanted : Kind × Id → Prop}
  {R : ProtocolError → Prop} {got : Fetched Id}

/-- What is asked for: everything, or the path and what is below it. -/
def wanted (path : Option {path : RepoPath // path.Valid}) : List Name := path.elim [] (fun path => path.1.names)

omit [LinearOrder Id] [Encoding Id] in
theorem start_spec (path : Option {path : RepoPath // path.Valid}) : (start path).dir = [] ∧ (start path).goal = wanted path := by
  cases path with
  | none => exact ⟨rfl, rfl⟩
  | some path =>
      obtain ⟨⟨names⟩, hvalid⟩ := path
      cases names with
      | nil => exact absurd rfl hvalid.1
      | cons name rest => exact ⟨rfl, rfl⟩

omit [LinearOrder Id] in
theorem reading_start (hempty : P Chunk.emptyLeaf) (hv : Trees.ValidBelow [] S) (hroot : IsTree P S root) :
    Reading P S (wanted path) [] ⟨[⟨root, start path, none⟩], SortedMap.empty, [], 0⟩ := by
  have hnil : S [] = none := by_contra (fun hne => (hv [] hne).1 rfl)
  have hunder : Trees.under S [] = S := by
    funext q
    by_cases hq : q = []
    · subst hq
      exact hnil.symm
    · exact Trees.under_of_ne hq
  obtain ⟨hdir, hgoal⟩ := start_spec path
  obtain ⟨c, l, hid, hstands, hnames⟩ := stands_root [] hempty (hunder.symm ▸ hroot)
  rw [← hdir] at hstands
  refine ⟨fun p hp => ?_, fun p e => ?_, by simp [SortedMap.get?_empty]⟩
  · obtain rfl := List.mem_singleton.mp (hp.resolve_left (by simp))
    exact ⟨c, l, hid, hstands⟩
  · have howed := Stands.owed_iff (p := ⟨root, start path, none⟩) hstands hid p e
    rw [hgoal, hdir] at howed
    constructor
    · rintro ⟨he, hp⟩
      refine .inr ⟨_, .inr (List.mem_singleton.mpr rfl), howed.mpr ⟨he, hp, ?_⟩⟩
      cases p with
      | nil =>
          rw [hnil] at he
          cases he
      | cons n q =>
          obtain ⟨item, hi, rfl⟩ := hnames n q (by rw [List.nil_append, he]; simp)
          exact ⟨item, hi, prefix_cons [] _ q⟩
    · rintro (hmem | ⟨q, hq, ho⟩)
      · rw [SortedMap.get?_empty] at hmem
        cases hmem
      · obtain rfl := List.mem_singleton.mp (hq.resolve_left (by simp))
        exact ⟨(howed.mp ho).1, (howed.mp ho).2.1⟩

/-- The chain of version IDs commits to the root of the version. -/
def Committed (h : Hashes Id) (number : ℕ) (id tree : Id) : Prop :=
  (number = 0 → id = h.genesisVersionId ∧ tree = h.empty) ∧ (number ≠ 0 → ∃ cs, Linked h h.genesisVersionId cs ∧
    List.Forall₂ (fun version c => version = number → c.id = id ∧ c.tree = tree) (List.range' 1 number) cs)

end fetch

end Protocol

end Javelin
