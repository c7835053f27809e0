import Javelin.Seek

/-! # Building one directory

`buildLevel` started at any level of a directory's canonical tree, with all lower levels
readable, ends at the canonical root and leaves its whole tree readable, unless every level up to
`MAX_LEVEL` has several chunks (`post_buildLevel`).  It may start above the root, where a
directory has shrunk; then `shrink` walks down to it.

`Derives h items` holds of the chunks a derivation of these items from a tree of height `h` may
put: those below `h`, and those up to the new root. -/

namespace Javelin

open KeyedList

variable {σ Id : Type} [DecidableEq Id] [Hashing Id] [Store σ Id]

/-- The refusal of a directory that needs a level above `MAX_LEVEL`. -/
def tooHigh : Error Id := .invalidInput "directory tree too high"

/-- No level up to `MAX_LEVEL` has a single chunk. -/
def TooHigh (items : List (Item Id)) : Prop := ∀ k ≤ MAX_LEVEL, 1 < (levelChunks items k).length

/-- The chunks that deriving `items` from a tree of height `h` may put. -/
def Derives (h : ℕ) (items : List (Item Id)) (c : Chunk Id) : Prop :=
  ∃ k ≤ MAX_LEVEL, c ∈ levelChunks items k ∧ (k < h ∨ ∀ j < k, 1 < (levelChunks items j).length)

/-- `dir` is the root of the canonical tree of `items`, whose chunks satisfy `P`; `h` is its
height.  An empty directory is absent, or the empty World. -/
def Rooted (P : Chunk Id → Prop) (items : List (Item Id)) (h : ℕ) (dir : Option Id) : Prop :=
  (items = [] ∧ h = 0 ∧ (dir = none ∨ dir = some emptyId)) ∨
    ∃ c, dir = some c.id ∧ IsRoot items h c ∧ h ≤ MAX_LEVEL ∧ ∀ k ≤ h, ∀ d ∈ levelChunks items k, P d

/-- The same of what a derivation returns: an empty directory is absent. -/
def Derived (P : Chunk Id → Prop) (items : List (Item Id)) (dir : Option Id) : Prop :=
  (items = [] ∧ dir = none) ∨ (items ≠ [] ∧ ∃ h, Rooted P items h dir)

section rooted
variable {P Q : Chunk Id → Prop} {items : List (Item Id)} {h : ℕ}
omit [DecidableEq Id]

theorem Rooted.mono (hPQ : ∀ c, P c → Q c) {dir : Option Id} (hr : Rooted P items h dir) :
    Rooted Q items h dir := by
  rcases hr with hr | ⟨c, hc, hroot, hm, hp⟩
  · exact Or.inl hr
  · exact Or.inr ⟨c, hc, hroot, hm, fun k hk d hd => hPQ d (hp k hk d hd)⟩

theorem Derived.rooted {dir : Option Id} (hd : Derived P items dir) : ∃ h, Rooted P items h dir := by
  rcases hd with ⟨hnil, hdir⟩ | ⟨_, h, hr⟩
  · exact ⟨0, Or.inl ⟨hnil, rfl, Or.inl hdir⟩⟩
  · exact ⟨h, hr⟩

/-- A directory with a canonical tree is not too high. -/
theorem Rooted.not_tooHigh {dir : Option Id} (hr : Rooted P items h dir) : ¬ TooHigh items := by
  intro hh
  rcases hr with ⟨rfl, _⟩ | ⟨c, _, hroot, hm, _⟩
  · have h0 := hh 0 (Nat.zero_le _)
    rw [levelChunks_eq_nil.mpr rfl] at h0
    simp at h0
  · have hone := hh h hm
    rw [hroot.only] at hone
    simp at hone

end rooted

namespace Trees
variable [LawfulStore σ Id] {t : Trees σ Id} {E : Chunk Id → Prop} {items : List (Item Id)}

/-! ### Summaries -/

theorem post_summary (hr : Ready E t) {c : Chunk Id} (hE : E c) {R : Error Id → Prop} :
    Post E (summary c) t (fun item t' => item = c.item ∧ t'.Has c) R := by
  unfold summary
  refine Post.bind (post_put hr hE) ?_
  rintro id t' hs ⟨rfl, hc⟩
  exact Post.pure hs.coherent ⟨rfl, hc⟩

theorem post_summaries (hr : Ready E t) {cs : List (Chunk Id)} (hE : ∀ c ∈ cs, E c)
    {R : Error Id → Prop} :
    Post E (cs.mapM summary) t (fun is t' => is = cs.map Chunk.item ∧ ∀ c ∈ cs, t'.Has c) R := by
  induction cs generalizing t with
  | nil =>
      rw [List.mapM_nil]
      exact Post.pure hr.coherent ⟨rfl, by simp⟩
  | cons c cs ih =>
      rw [List.forall_mem_cons] at hE
      rw [List.mapM_cons]
      refine Post.bind (post_summary hr hE.1) ?_
      rintro item t₁ hs₁ ⟨rfl, hc⟩
      refine Post.bind (ih (hr.step hs₁) hE.2) ?_
      rintro is t₂ hs₂ ⟨rfl, hcs⟩
      refine Post.pure hs₂.coherent ⟨rfl, ?_⟩
      rw [List.forall_mem_cons]
      exact ⟨hs₂.has c hc, hcs⟩

/-! ### The root -/

/-- Walking down from the only chunk of a level to the canonical root. -/
theorem runs_shrink (ht : t.Coherent) {m fuel : ℕ} {d : Chunk Id} (hm : m < fuel)
    (hd : levelChunks items m = [d]) (hhas : ∀ j ≤ m, ∀ e ∈ levelChunks items j, t.Has e) :
    ∃ k ≤ m, ∃ c, IsRoot items k c ∧ Runs E (shrink fuel d.id) t (some c.id) := by
  induction m generalizing fuel d t with
  | zero =>
      obtain ⟨n, rfl⟩ : ∃ n, fuel = n + 1 := ⟨fuel - 1, by omega⟩
      have hmem : d ∈ levelChunks items 0 := by rw [hd]; simp
      have hlevel := level_of_mem hmem
      refine ⟨0, le_refl _, d, isRoot_of_only hd (Or.inl rfl), ?_⟩
      unfold shrink
      refine (runs_get ht (hhas 0 (le_refl _) d hmem)).bind ?_
      intro t' hs
      split
      · rw [if_pos hlevel]
        exact Runs.pure hs.coherent _
      · exact Runs.pure hs.coherent _
  | succ m ih =>
      obtain ⟨n, rfl⟩ : ∃ n, fuel = n + 1 := ⟨fuel - 1, by omega⟩
      have hmem : d ∈ levelChunks items (m + 1) := by rw [hd]; simp
      have hlevel := level_of_mem hmem
      have hitems : d.items = (levelChunks items m).map Chunk.item := items_of_only hd
      by_cases hone : ∃ item, d.items = [item]
      · obtain ⟨item, hitem⟩ := hone
        rw [hitem, eq_comm, List.map_eq_singleton_iff] at hitems
        obtain ⟨e, he, rfl⟩ := hitems
        have hsub : ∀ t' : Trees σ Id, t'.Coherent → (∀ c, t.Has c → t'.Has c) →
            ∃ k ≤ m, ∃ c, IsRoot items k c ∧ Runs E (shrink n e.id) t' (some c.id) := by
          intro t' ht' hmono
          exact ih ht' (by omega) he (fun j hj c hc => hmono c (hhas j (by omega) c hc))
        obtain ⟨k, hk, c, hroot, _⟩ := hsub t ht (fun _ h => h)
        refine ⟨k, by omega, c, hroot, ?_⟩
        unfold shrink
        refine (runs_get ht (hhas (m + 1) (le_refl _) d hmem)).bind ?_
        intro t' hs
        rw [hitem]
        show Runs E (if d.level = 0 then pure (some d.id) else shrink n e.item.id) t' (some c.id)
        rw [if_neg (by omega)]
        obtain ⟨k', _, c', hroot', hrun⟩ := hsub t' hs.coherent hs.has
        rw [(hroot.unique hroot').2]
        exact hrun
      · have hlen : 1 < d.items.length := by
          have hne := items_ne_nil_of_mem hmem
          obtain ⟨item, rest, hi⟩ := List.exists_cons_of_ne_nil hne
          rw [hi]
          cases rest with
          | nil => exact absurd ⟨item, hi⟩ hone
          | cons _ _ => simp
        refine ⟨m + 1, le_refl _, d, isRoot_of_only hd (Or.inr hlen), ?_⟩
        unfold shrink
        refine (runs_get ht (hhas (m + 1) (le_refl _) d hmem)).bind ?_
        intro t' hs
        split
        · rename_i item hi
          exact absurd ⟨item, hi⟩ hone
        · exact Runs.pure hs.coherent _

/-- A readable level of every height below `k` gives `k` readable chunks. -/
theorem le_len (hne : items ≠ []) {k : ℕ}
    (hhas : ∀ j < k, ∀ c ∈ levelChunks items j, t.Has c) : k ≤ t.len := by
  have hex : ∀ j, ∃ c, c ∈ levelChunks items j := fun j =>
    List.exists_mem_of_ne_nil _ (fun h => hne (levelChunks_eq_nil.mp h))
  choose f hf using hex
  have hlen := @length_le_len _ _ _ _ _ _ t ((List.range k).map f) ?_ ?_
  · simpa using hlen
  · refine List.Nodup.map_on ?_ List.nodup_range
    intro i _ j _ hij
    rw [← level_of_mem (hf i), ← level_of_mem (hf j), hij]
  · intro c hc
    obtain ⟨j, hj, rfl⟩ := List.mem_map.mp hc
    exact hhas j (List.mem_range.mp hj) _ (hf j)

omit [DecidableEq Id] in
theorem derived_of_isRoot {P : Chunk Id → Prop} {k m : ℕ} {c : Chunk Id} (hr : IsRoot items k c)
    (hk : k ≤ m) (hm : m ≤ MAX_LEVEL) (hp : ∀ j ≤ m, ∀ d ∈ levelChunks items j, j ≤ k → P d) :
    Derived P items (some c.id) := by
  refine Or.inr ⟨hr.ne_nil, k, Or.inr ⟨c, rfl, hr, hk.trans hm, fun j hj d hd => ?_⟩⟩
  exact hp j (hj.trans hk) d hd hj

/-- The only chunk of a level leads to the canonical root. -/
theorem post_top (hr : Ready E t) {k : ℕ} (hk : k ≤ MAX_LEVEL) {c : Chunk Id}
    (hc : levelChunks items k = [c]) (hhas : ∀ j < k, ∀ d ∈ levelChunks items j, t.Has d)
    (hE : (∀ j < k, 1 < (levelChunks items j).length) → E c) {R : Error Id → Prop} :
    Post E (top c) t (fun dir t' => Derived t'.Has items dir) R := by
  have hmem : c ∈ levelChunks items k := by rw [hc]; simp
  have hlevel := level_of_mem hmem
  have hput : IsRoot items k c →
      Post E (do return some (← put c)) t (fun dir t' => Derived t'.Has items dir) R := by
    intro hroot
    refine Post.bind (post_put hr (hE hroot.first)) ?_
    rintro id t' hs ⟨rfl, hcm⟩
    refine Post.pure hs.coherent (derived_of_isRoot hroot (le_refl k) hk ?_)
    intro j hj d hd _
    rcases Nat.lt_or_ge j k with hlt | hge
    · exact hs.has d (hhas j hlt d hd)
    · obtain rfl : j = k := by omega
      rw [hc, List.mem_singleton] at hd
      rw [hd]
      exact hcm
  unfold top
  split
  · rename_i item hitem
    by_cases h0 : 0 < c.level
    · rw [if_pos h0]
      obtain ⟨m, rfl⟩ : ∃ m, k = m + 1 := ⟨k - 1, by omega⟩
      have hitems : c.items = (levelChunks items m).map Chunk.item := items_of_only hc
      rw [hitem, eq_comm, List.map_eq_singleton_iff] at hitems
      obtain ⟨d, hd, rfl⟩ := hitems
      have hne : items ≠ [] := by
        intro hnil
        rw [levelChunks_eq_nil.mpr hnil] at hd
        cases hd
      have hlen := le_len hne hhas
      have hbelow : ∀ j ≤ m, ∀ e ∈ levelChunks items j, t.Has e := fun j hj e he =>
        hhas j (by omega) e he
      obtain ⟨j, hj, e, hroot, hrun⟩ := runs_shrink (E := E) hr.coherent (show m < t.len by omega) hd hbelow
      refine Runs.post hrun (fun t' hs => ?_)
      exact derived_of_isRoot hroot hj (by omega) (fun i hi f hf _ => hs.has f (hbelow i hi f hf))
    · rw [if_neg h0]
      exact hput (isRoot_of_only hc (Or.inl (by omega)))
  · rename_i hmany
    have hne := items_ne_nil_of_mem hmem
    refine hput (isRoot_of_only hc (Or.inr ?_))
    match hi : c.items with
    | [] => exact absurd hi hne
    | [item] => exact absurd hi (hmany item)
    | _ :: _ :: _ => simp

/-! ### Levels -/

theorem post_buildLevels (hr : Ready E t) {bound k : ℕ} (hb : bound = MAX_LEVEL + 1 - k)
    (hk : k ≤ MAX_LEVEL ∨ ∀ j ≤ MAX_LEVEL, 1 < (levelChunks items j).length)
    (hhas : ∀ j < k, ∀ d ∈ levelChunks items j, t.Has d)
    (hE : ∀ j ≤ MAX_LEVEL, k ≤ j → (∀ i < j, 1 < (levelChunks items i).length) →
      ∀ d ∈ levelChunks items j, E d) :
    Post E (buildLevels bound k (levelItems items k)) t
      (fun dir t' => Derived t'.Has items dir) (fun e => e = tooHigh ∧ TooHigh items) := by
  induction bound generalizing k t with
  | zero =>
      unfold buildLevels
      exact Post.throw ⟨rfl, hk.resolve_left (by omega)⟩
  | succ bound ih =>
      have hkm : k ≤ MAX_LEVEL := by omega
      unfold buildLevels
      have hcut := pushAll_new k (levelItems items k)
      change _ = levelChunks items k at hcut
      simp only [hcut]
      match hcs : levelChunks items k with
      | [] => exact Post.pure hr.coherent (Or.inl ⟨levelChunks_eq_nil.mp hcs, rfl⟩)
      | [c] =>
          refine post_top hr hkm hcs hhas (fun hfirst => ?_)
          exact hE k hkm (le_refl k) hfirst c (by rw [hcs]; simp)
      | c :: d :: rest =>
          have hmany : ∀ j ≤ k, 1 < (levelChunks items j).length := by
            intro j hj
            have hanti := length_levelChunks_anti items hj
            rw [hcs] at hanti
            simp only [List.length_cons] at hanti
            omega
          have hput : ∀ e ∈ levelChunks items k, E e :=
            hE k hkm (le_refl k) (fun i hi => hmany i hi.le)
          show Post E (do buildLevels bound (k + 1) (← (c :: d :: rest).mapM summary)) t _ _
          rw [← hcs]
          refine Post.bind (post_summaries hr hput) ?_
          rintro is t' hs ⟨rfl, hall⟩
          refine Post.mono (ih (hr.step hs) (by omega) ?_ ?_ ?_) (fun _ _ _ h => h) (fun _ h => h)
          · by_cases hlast : k + 1 ≤ MAX_LEVEL
            · exact Or.inl hlast
            · exact Or.inr (fun j hj => hmany j (by omega))
          · intro j hj e he
            rcases Nat.lt_or_ge j k with hlt | hge
            · exact hs.has e (hhas j hlt e he)
            · obtain rfl : j = k := by omega
              exact hall e he
          · intro j hj hkj hfirst e he
            exact hE j hj (by omega) hfirst e he

/-- Building from a level of the canonical tree, given the levels below. -/
theorem post_buildLevel (hr : Ready E t) {k : ℕ} (hk : k ≤ MAX_LEVEL)
    (hhas : ∀ j < k, ∀ d ∈ levelChunks items j, t.Has d) {h : ℕ}
    (hE : ∀ d, Derives h items d → E d) :
    Post E (buildLevel k (levelItems items k)) t
      (fun dir t' => Derived t'.Has items dir) (fun e => e = tooHigh ∧ TooHigh items) := by
  refine post_buildLevels hr rfl (Or.inl hk) hhas ?_
  intro j hj _ hfirst d hd
  exact hE d ⟨j, hj, hd, Or.inr hfirst⟩

end Trees

end Javelin
