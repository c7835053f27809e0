import Javelin.Apply

/-! # Trees of snapshots

`build` ends at the canonical root of a complete snapshot and `apply` at the canonical root of a
snapshot overwritten by a changeset; the refusals are `Refused` and `TooTall`.  A store that
accepts every well-formed chunk is `Open`. -/

namespace Javelin

open KeyedList

variable {σ Id : Type} [DecidableEq Id] [Hashing Id] [Store σ Id] [LawfulStore σ Id]

omit [DecidableEq Id] [Store σ Id] [LawfulStore σ Id] in
/-- `id` is the root of the canonical tree of the snapshot `S`, whose chunks satisfy `P`. -/
abbrev IsTree (P : Chunk Id → Prop) (S : Flat (FileEntry Id)) (id : Id) : Prop :=
  IsDir P MAX_DEPTH S (some id)

/-- The root as an ID alone. -/
abbrev Canonical (S : Flat (FileEntry Id)) (id : Id) : Prop := IsTree (fun _ => True) S id

section snapshots
omit [DecidableEq Id] [Hashing Id]

theorem SparseChanges.flatOf_changes (c : SparseChanges Id) : flatOf c.changes = c.flat :=
  flatOf_mapNames c.entries

theorem SparseChanges.changes_valid (c : SparseChanges Id) : Changes MAX_DEPTH c.changes := by
  have hvalid : ∀ e ∈ c.changes, RepoPath.Valid ⟨e.1⟩ := by
    intro e he
    obtain ⟨x, hx, rfl⟩ := List.mem_map.mp he
    exact c.valid x.1 (List.mem_map_of_mem hx)
  refine ⟨mapNames_nodup c.entries, ?_, ?_, ?_⟩
  · exact fun e he => (hvalid e he).1
  · exact fun e he => (hvalid e he).2.1
  · exact fun e he n hn => (hvalid e he).length_name hn

/-- The snapshot as changes to the empty World. -/
def Manifest.additions (m : Manifest Id) : List (Change Id) := m.files.map (fun e => (e.1, some e.2))

theorem Manifest.additions_valid (m : Manifest Id) : Changes MAX_DEPTH m.additions := by
  have hvalid : ∀ e ∈ m.additions, RepoPath.Valid ⟨e.1⟩ := by
    intro e he
    obtain ⟨y, hy, rfl⟩ := List.mem_map.mp he
    obtain ⟨x, hx, rfl⟩ := List.mem_map.mp hy
    exact m.valid x.1 (List.mem_map_of_mem hx)
  refine ⟨?_, ?_, ?_, ?_⟩
  · have hn := mapNames_nodup m.entries
    unfold additions
    rw [List.map_map]
    exact hn
  · exact fun e he => (hvalid e he).1
  · exact fun e he => (hvalid e he).2.1
  · exact fun e he n hn => (hvalid e he).length_name hn

theorem Manifest.flatOf_additions (m : Manifest Id) (p : List Name) :
    flatOf m.additions p = (m.flat p).map some := by
  have hmap : KeyedList.lookup Prod.fst p m.additions =
      (KeyedList.lookup Prod.fst p m.files).map (fun e => (e.1, some e.2)) :=
    lookup_map (fun _ => Iff.rfl)
  have hflat : m.flat p = flatOf m.files p := congrFun (flatOf_mapNames m.entries).symm p
  rw [hflat]
  unfold flatOf
  rw [hmap, Option.map_map, Option.map_map]
  rfl

theorem Manifest.over_additions (m : Manifest Id) :
    Flat.over (fun _ => none) (flatOf m.additions) = m.flat := by
  funext p
  unfold Flat.over
  rw [m.flatOf_additions]
  cases m.flat p <;> rfl

theorem Manifest.not_refused (m : Manifest Id) : ¬ Refused (fun _ => none) (flatOf m.additions) := by
  rintro (⟨p, _, hc, _⟩ | h)
  · rw [m.flatOf_additions] at hc
    cases hm : m.flat p with
    | none => rw [hm] at hc; cases hc
    | some e => rw [hm] at hc; simp at hc
  · rw [m.over_additions] at h
    exact h m.prefixFree

end snapshots

namespace Trees
variable {t : Trees σ Id} {E : Chunk Id → Prop} {S : Flat (FileEntry Id)}

/-- The chunks that deriving `S'` from the tree of `S` may put, the empty World among them. -/
def Puts (S S' : Flat (FileEntry Id)) (c : Chunk Id) : Prop :=
  Emits MAX_DEPTH S S' c ∨ c = .emptyLeaf

theorem post_root (hr : Ready E t) (hE : E .emptyLeaf) {d : ℕ} {dir : Option Id}
    (hd : IsDir t.Has d S dir) {R : Error Id → Prop} :
    Post E (root dir) t (fun id t' => IsDir t'.Has d S (some id)) R := by
  unfold root
  cases dir with
  | some id => exact Post.pure hr.coherent hd
  | none =>
      refine Post.mono (post_put hr hE) ?_ (fun _ h => h)
      rintro id t' _ ⟨rfl, _⟩
      have hS : S.Empty := (hd.not_empty_of_ne (by simp)).mp rfl
      exact isDir_empty hS (Or.inr rfl)

/-- `apply` overwrites the snapshot, or refuses. -/
theorem post_apply (hr : Ready E t) {base : Id} (hbase : IsTree t.Has S base)
    (c : SparseChanges Id) (hE : ∀ x, Puts S (S.over c.flat) x → E x) :
    Post E (apply base c) t
      (fun id t' => ¬ Refused S c.flat ∧ IsTree t'.Has (S.over c.flat) id)
      (fun e => (∃ text, e = .invalidInput text) ∧
        (Refused S c.flat ∨ TooTall MAX_DEPTH (S.over c.flat))) := by
  have happly := post_applyDir (σ := σ) MAX_DEPTH E t S (some base) c.changes hr hbase
    c.changes_valid
  rw [c.flatOf_changes] at happly
  unfold apply
  refine Post.bind (happly (fun x hx => hE x (Or.inl hx))) ?_
  rintro dir t₁ hs₁ ⟨hnr, hdir, _⟩
  refine Post.mono (post_root (hr.step hs₁) (hE _ (Or.inr rfl)) hdir) ?_ (fun _ h => h)
  exact fun id t' _ hid => ⟨hnr, hid⟩

/-- `build` derives the canonical tree of the snapshot. -/
theorem post_build (hr : Ready E t) (m : Manifest Id)
    (hE : ∀ x, Puts (fun _ => none) m.flat x → E x) :
    Post E (build m) t (fun id t' => IsTree t'.Has m.flat id)
      (fun e => (∃ text, e = .invalidInput text) ∧ TooTall MAX_DEPTH m.flat) := by
  have hempty : IsDir t.Has MAX_DEPTH (fun _ => none) none := isDir_empty (fun _ => rfl) (Or.inl rfl)
  have happly := post_applyDir (σ := σ) MAX_DEPTH E t (fun _ => none) none m.additions hr hempty
    m.additions_valid
  rw [m.over_additions] at happly
  unfold build
  refine Post.bind (Post.mono (happly (fun x hx => hE x (Or.inl hx))) (fun _ _ _ h => h) ?_) ?_
  · rintro e ⟨htext, hrej | htall⟩
    · exact absurd hrej m.not_refused
    · exact ⟨htext, htall⟩
  · rintro dir t₁ hs₁ ⟨_, hdir, _⟩
    exact post_root (hr.step hs₁) (hE _ (Or.inr rfl)) hdir

/-! ### Stores that accept every chunk -/

/-- Every well-formed chunk can be saved. -/
structure Open (t : Trees σ Id) : Prop where
  coherent : t.Coherent
  accepts : ∀ c : Chunk Id, c.WellFormed → Accepts t.store c

omit [DecidableEq Id] in
theorem Open.ready (h : Open t) : Ready Chunk.WellFormed t := ⟨h.coherent, fun _ hw => hw, h.accepts⟩

theorem Open.step {t' : Trees σ Id} (h : Open t) (hs : Step E t t') : Open t' :=
  ⟨hs.coherent, fun c hw => hs.saves.accepts (h.accepts c hw)⟩

omit [DecidableEq Id] [Store σ Id] [LawfulStore σ Id] in
theorem wellFormed_of_derives {items : List (Item Id)} (hc : Clean items) {h : ℕ} {x : Chunk Id}
    (hx : Derives h items x) : x.WellFormed := by
  obtain ⟨k, hk, hm, _⟩ := hx
  exact wellFormed_of_mem hc hk hm

omit [DecidableEq Id] [Store σ Id] [LawfulStore σ Id] in
theorem wellFormed_of_emits {d : ℕ} {S S' : Flat (FileEntry Id)} {x : Chunk Id}
    (hx : Emits d S S' x) : x.WellFormed := by
  induction d generalizing S S' with
  | zero => exact hx.elim
  | succ d ih =>
      rcases hx with ⟨_, _, _, new, _, _, hl, hd⟩ | ⟨n, hn⟩
      · exact wellFormed_of_derives hl.clean hd
      · exact ih hn

omit [DecidableEq Id] [Store σ Id] [LawfulStore σ Id] in
theorem wellFormed_of_puts {S S' : Flat (FileEntry Id)} {x : Chunk Id} (hx : Puts S S' x) :
    x.WellFormed := by
  rcases hx with hx | rfl
  · exact wellFormed_of_emits hx
  · exact Chunk.emptyLeaf_wellFormed

theorem Open.post_apply (h : Open t) {base : Id} (hbase : IsTree t.Has S base)
    (c : SparseChanges Id) :
    Post Chunk.WellFormed (apply base c) t
      (fun id t' => ¬ Refused S c.flat ∧ IsTree t'.Has (S.over c.flat) id)
      (fun e => (∃ text, e = .invalidInput text) ∧
        (Refused S c.flat ∨ TooTall MAX_DEPTH (S.over c.flat))) :=
  Trees.post_apply h.ready hbase c (fun _ hx => wellFormed_of_puts hx)

theorem Open.post_build (h : Open t) (m : Manifest Id) :
    Post Chunk.WellFormed (build m) t (fun id t' => IsTree t'.Has m.flat id)
      (fun e => (∃ text, e = .invalidInput text) ∧ TooTall MAX_DEPTH m.flat) :=
  Trees.post_build h.ready m (fun _ hx => wellFormed_of_puts hx)

end Trees

end Javelin
