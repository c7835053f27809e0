import Javelin.Read

/-! # Differences of canonical trees

`narrow` drops the chunks two directories share and expands the rest down to leaves; what is left
on each side differs from the other side exactly where the directories differ (`Narrowed`).  So
`diffItems` lists the names whose items differ (`post_diffItems`), `diffDir` writes the paths
whose files differ (`post_diffDir`), and `diff` is the pointwise difference of the two snapshots
(`post_diff`). -/

namespace Javelin

open KeyedList

variable {σ Id : Type} [DecidableEq Id] [Hashing Id]

/-! ### Sides -/

/-- The side of a list of covered chunks. -/
def sideOf (ps : List (Covered Id)) : Trees.Side Id := ps.map (fun p => (p.1.id, p.1))

/-- Two lists of leaf items that differ from each other exactly where `A` and `B` do. -/
structure Narrowed (A B la lb : List (Item Id)) : Prop where
  left : Ascending Item.name la
  right : Ascending Item.name lb
  agree : ∀ n, (lookup Item.name n la = lookup Item.name n A ∧
      lookup Item.name n lb = lookup Item.name n B) ∨
    (lookup Item.name n la = none ∧ lookup Item.name n lb = none ∧
      lookup Item.name n A = lookup Item.name n B)

/-- A list of covered chunks below which `P` holds. -/
def AllCovered (P : Chunk Id → Prop) (ps : List (Covered Id)) : Prop :=
  ∀ p ∈ ps, Covers P p.1.level p.1 p.2

section sides
variable {P Q : Chunk Id → Prop} {A B : List (Item Id)} {ps qs : List (Covered Id)}

omit [Hashing Id] [DecidableEq Id] in
theorem mem_coveredItems {i : Item Id} : i ∈ coveredItems ps ↔ ∃ p ∈ ps, i ∈ p.2 := by
  unfold coveredItems
  rw [List.mem_flatten]
  simp only [List.mem_map]
  constructor
  · rintro ⟨_, ⟨p, hp, rfl⟩, hi⟩
    exact ⟨p, hp, hi⟩
  · rintro ⟨p, hp, hi⟩
    exact ⟨_, ⟨p, hp, rfl⟩, hi⟩

omit [DecidableEq Id] in
theorem AllCovered.mono (hPQ : ∀ c, P c → Q c) (h : AllCovered P ps) : AllCovered Q ps :=
  fun p hp => (h p hp).mono hPQ

omit [DecidableEq Id] in
/-- One ID covers one list of items. -/
theorem AllCovered.eq_of_id (hp : AllCovered P ps) (hq : AllCovered Q qs) {p q : Covered Id}
    (hpm : p ∈ ps) (hqm : q ∈ qs) (hid : p.1.id = q.1.id) : p = q := by
  obtain ⟨c, l⟩ := p
  obtain ⟨c', l'⟩ := q
  obtain rfl : c = c' := Chunk.id_inj.mp hid
  obtain rfl : l = l' := (hp _ hpm).unique (hq _ hqm)
  rfl

/-- The covered chunks of `ps` that are not also in `qs`. -/
def kept (ps qs : List (Covered Id)) : List (Covered Id) :=
  ps.filter (fun p => p.1.id ∉ qs.map (fun q => q.1.id))

theorem unshared_sideOf (ps qs : List (Covered Id)) :
    Trees.unshared (sideOf ps) (sideOf qs) = sideOf (kept ps qs) := by
  unfold Trees.unshared sideOf kept
  rw [List.filter_map, List.map_map]
  rfl

theorem kept_sublist (ps qs : List (Covered Id)) :
    (coveredItems (kept ps qs)).Sublist (coveredItems ps) := by
  unfold kept
  induction ps with
  | nil => exact List.Sublist.refl _
  | cons p ps ih =>
      rw [List.filter_cons]
      split
      · exact List.Sublist.append (List.Sublist.refl p.2) ih
      · exact ih.trans (List.sublist_append_right p.2 _)

omit [DecidableEq Id] [Hashing Id] in
/-- Different chunks of a side have no item in common. -/
theorem eq_of_mem_items (ha : Ascending Item.name (coveredItems ps)) {p p' : Covered Id}
    (hp : p ∈ ps) (hp' : p' ∈ ps) {i : Item Id} (hi : i ∈ p.2) (hi' : i ∈ p'.2) : p = p' := by
  induction ps with
  | nil => cases hp
  | cons q ps ih =>
      have hsplit : coveredItems (q :: ps) = q.2 ++ coveredItems ps := rfl
      rw [hsplit, ascending_append] at ha
      have hno : ∀ r ∈ ps, i ∈ q.2 → i ∈ r.2 → False := by
        intro r hr h1 h2
        have hlt := ha.2.2 i h1 i (mem_coveredItems.mpr ⟨r, hr, h2⟩)
        exact absurd hlt (lt_irrefl _)
      rcases List.mem_cons.mp hp with rfl | hpm
      · rcases List.mem_cons.mp hp' with rfl | hpm'
        · rfl
        · exact (hno _ hpm' hi hi').elim
      · rcases List.mem_cons.mp hp' with rfl | hpm'
        · exact (hno _ hpm hi' hi).elim
        · exact ih ha.2.1 hpm hpm'

/-- An item of a shared chunk is not kept. -/
theorem not_mem_kept (ha : Ascending Item.name (coveredItems ps)) {p : Covered Id} (hpm : p ∈ ps)
    (hid : p.1.id ∈ qs.map (fun q => q.1.id)) {i : Item Id} (hi : i ∈ p.2) :
    i ∉ coveredItems (kept ps qs) := by
  intro hk
  obtain ⟨p', hpk, hip'⟩ := mem_coveredItems.mp hk
  obtain ⟨hpm', hnot⟩ := List.mem_filter.mp hpk
  have heq := eq_of_mem_items ha hpm hpm' hi hip'
  subst heq
  exact absurd hid (by simpa using hnot)

/-- The lookup of a name in no shared chunk does not change. -/
theorem lookup_kept (ha : Ascending Item.name (coveredItems ps)) {n : Name}
    (hno : ¬ ∃ p ∈ ps, p.1.id ∈ qs.map (fun q => q.1.id) ∧ ∃ i ∈ p.2, i.name = n) :
    lookup Item.name n (coveredItems (kept ps qs)) = lookup Item.name n (coveredItems ps) := by
  cases hlk : lookup Item.name n (coveredItems ps) with
  | none =>
      rw [lookup_eq_none] at hlk ⊢
      exact fun j hj => hlk j ((kept_sublist ps qs).subset hj)
  | some i =>
      obtain ⟨hi, rfl⟩ := mem_of_lookup hlk
      obtain ⟨p, hpm, hip⟩ := mem_coveredItems.mp hi
      apply (ha.sublist (kept_sublist ps qs)).lookup_of_mem
      refine mem_coveredItems.mpr ⟨p, List.mem_filter.mpr ⟨hpm, ?_⟩, hip⟩
      rw [decide_eq_true_iff]
      exact fun hid => hno ⟨p, hpm, hid, i, hip, rfl⟩

/-- The lookup of a name in a shared chunk is lost. -/
theorem lookup_kept_shared (ha : Ascending Item.name (coveredItems ps)) {p : Covered Id}
    (hpm : p ∈ ps) (hid : p.1.id ∈ qs.map (fun q => q.1.id)) {i : Item Id} (hi : i ∈ p.2) :
    lookup Item.name i.name (coveredItems (kept ps qs)) = none := by
  rw [lookup_eq_none]
  intro j hj hname
  have hia : i ∈ coveredItems ps := mem_coveredItems.mpr ⟨p, hpm, hi⟩
  have hji := ha.eq_of_key ((kept_sublist ps qs).subset hj) hia hname
  subst hji
  exact not_mem_kept ha hpm hid hi hj

/-- Dropping shared chunks keeps the sides narrowed. -/
theorem Narrowed.kept (h : Narrowed A B (coveredItems ps) (coveredItems qs))
    (hp : AllCovered P ps) (hq : AllCovered Q qs) :
    Narrowed A B (coveredItems (kept ps qs)) (coveredItems (kept qs ps)) := by
  refine ⟨h.left.sublist (kept_sublist ps qs), h.right.sublist (kept_sublist qs ps), fun n => ?_⟩
  by_cases hsh : ∃ p ∈ ps, p.1.id ∈ qs.map (fun q => q.1.id) ∧ ∃ i ∈ p.2, i.name = n
  · obtain ⟨p, hpm, hid, i, hip, rfl⟩ := hsh
    obtain ⟨q, hqm, hqid⟩ := List.mem_map.mp hid
    obtain rfl := hq.eq_of_id hp hqm hpm hqid
    have hida : q.1.id ∈ ps.map (fun p => p.1.id) := List.mem_map.mpr ⟨q, hpm, rfl⟩
    have hia : i ∈ coveredItems ps := mem_coveredItems.mpr ⟨q, hpm, hip⟩
    have hib : i ∈ coveredItems qs := mem_coveredItems.mpr ⟨q, hqm, hip⟩
    refine Or.inr ⟨lookup_kept_shared h.left hpm hid hip, lookup_kept_shared h.right hqm hida hip, ?_⟩
    have hsame : lookup Item.name i.name (coveredItems ps) =
        lookup Item.name i.name (coveredItems qs) := by
      rw [h.left.lookup_of_mem hia, h.right.lookup_of_mem hib]
    rcases h.agree i.name with ⟨h4, h5⟩ | ⟨_, _, h6⟩
    · rw [← h4, ← h5, hsame]
    · exact h6
  · have hsh' : ¬ ∃ q ∈ qs, q.1.id ∈ ps.map (fun p => p.1.id) ∧ ∃ i ∈ q.2, i.name = n := by
      rintro ⟨q, hqm, hid, i, hiq, hn⟩
      obtain ⟨p, hpm, hpid⟩ := List.mem_map.mp hid
      obtain rfl := hp.eq_of_id hq hpm hqm hpid
      exact hsh ⟨p, hpm, List.mem_map.mpr ⟨p, hqm, rfl⟩, i, hiq, hn⟩
    rw [lookup_kept h.left hsh, lookup_kept h.right hsh']
    exact h.agree n

end sides

/-! ### Narrowing -/

namespace Trees

omit [DecidableEq Id] [Hashing Id] in
theorem le_maxLevel {side : Side Id} {e : Id × Chunk Id} (he : e ∈ side) :
    e.2.level ≤ maxLevel side := by
  unfold maxLevel
  induction side with
  | nil => cases he
  | cons x side ih =>
      rw [List.map_cons, List.foldr_cons]
      rcases List.mem_cons.mp he with rfl | he
      · exact le_max_left _ _
      · exact (ih he).trans (le_max_right _ _)

omit [DecidableEq Id] in
theorem maxLevel_le {ps : List (Covered Id)} {k : ℕ} (h : ∀ p ∈ ps, p.1.level ≤ k) :
    maxLevel (sideOf ps) ≤ k := by
  unfold maxLevel sideOf
  induction ps with
  | nil => exact Nat.zero_le k
  | cons p ps ih =>
      rw [List.forall_mem_cons] at h
      rw [List.map_cons, List.map_cons, List.foldr_cons]
      exact max_le h.1 (ih h.2)

omit [DecidableEq Id] in
theorem le_maxLevel_sideOf {ps : List (Covered Id)} {p : Covered Id} (hp : p ∈ ps) :
    p.1.level ≤ maxLevel (sideOf ps) := by
  have he : (p.1.id, p.1) ∈ sideOf ps := List.mem_map_of_mem hp
  exact le_maxLevel he

omit [DecidableEq Id] in
theorem sideItems_sideOf {P : Chunk Id → Prop} {ps : List (Covered Id)} (hps : AllCovered P ps)
    (hlev : ∀ p ∈ ps, p.1.level = 0) : sideItems (sideOf ps) = coveredItems ps := by
  unfold sideItems sideOf coveredItems
  rw [List.map_map]
  congr 1
  refine List.map_congr_left (fun p hp => ?_)
  have h := hps p hp
  rw [hlev p hp] at h
  exact h.symm

variable [Store σ Id] [LawfulStore σ Id]
variable {t : Trees σ Id} {E : Chunk Id → Prop} {R : Error Id → Prop}

/-- What expanding one chunk yields: chunks below `k + 1` that cover the same items. -/
structure Expanded (P : Chunk Id → Prop) (k : ℕ) (l : List (Item Id)) (qs : List (Covered Id)) :
    Prop where
  covered : AllCovered P qs
  level : ∀ q ∈ qs, q.1.level ≤ k
  items : coveredItems qs = l

omit [DecidableEq Id] [Store σ Id] [LawfulStore σ Id] in
theorem Expanded.nil (P : Chunk Id → Prop) (k : ℕ) : Expanded P k [] [] := by
  refine ⟨?_, ?_, rfl⟩
  · intro p hp
    cases hp
  · intro p hp
    cases hp

omit [DecidableEq Id] [Store σ Id] [LawfulStore σ Id] in
theorem Expanded.append {P : Chunk Id → Prop} {k : ℕ} {l l' : List (Item Id)}
    {qs qs' : List (Covered Id)} (h : Expanded P k l qs) (h' : Expanded P k l' qs') :
    Expanded P k (l ++ l') (qs ++ qs') := by
  refine ⟨?_, ?_, ?_⟩
  · intro p hp
    exact (List.mem_append.mp hp).elim (h.covered p) (h'.covered p)
  · intro p hp
    exact (List.mem_append.mp hp).elim (h.level p) (h'.level p)
  · rw [← h.items, ← h'.items]
    simp [coveredItems]

theorem post_expand {k : ℕ} {ps : List (Covered Id)} (ht : t.Coherent)
    (hps : AllCovered t.Has ps) (hlev : ∀ p ∈ ps, p.1.level ≤ k + 1) :
    Post E (expand (k + 1) (sideOf ps)) t
      (fun s _ => ∃ qs, s = sideOf qs ∧ Expanded t.Has k (coveredItems ps) qs) R := by
  have hone : ∀ p ∈ ps, ∀ t', Step E t t' → Post E
      (if p.1.level < k + 1 then pure [(p.1.id, p.1)]
        else p.1.items.mapM (fun item => do return (item.id, ← child p.1 item true))) t'
      (fun s _ => ∃ qs, s = sideOf qs ∧ Expanded t.Has k p.2 qs) R := by
    intro p hp t' hs
    have hcov := hps p hp
    by_cases hlt : p.1.level < k + 1
    · rw [if_pos hlt]
      refine Post.pure hs.coherent ⟨[p], rfl, ?_, ?_, ?_⟩
      · intro q hq
        rw [List.mem_singleton.mp hq]
        exact hcov
      · intro q hq
        rw [List.mem_singleton.mp hq]
        omega
      · simp [coveredItems]
    · rw [if_neg hlt]
      have hlevel : p.1.level = k + 1 := by
        have := hlev p hp
        omega
      rw [hlevel] at hcov
      obtain ⟨qs, hitems, hqs, hl⟩ := hcov
      rw [hitems, List.mapM_map]
      have hrun : Runs E (qs.mapM ((fun item => do return (item.id, ← child p.1 item true)) ∘
          fun q => q.1.item)) t' (sideOf qs) := by
        refine Runs.mapM hs.coherent ?_
        intro q hq t'' hs'
        obtain ⟨h1, h2, h3, _⟩ := hqs q hq
        have hhas := hs'.has _ (hs.has _ h3)
        refine (runs_child hs'.coherent hhas rfl (by omega) h2 rfl true).bind ?_
        intro t₃ hs₃
        exact Runs.pure hs₃.coherent _
      refine hrun.post (fun _ _ => ⟨qs, rfl, ?_, ?_, hl.symm⟩)
      · intro q hq
        obtain ⟨h1, _, _, h4⟩ := hqs q hq
        rw [h1]
        exact h4
      · intro q hq
        exact (hqs q hq).1.le
  unfold expand sideOf
  rw [List.mapM_map]
  refine Post.bind (Post.mapM ht hone) ?_
  intro parts t₁ hs₁ hparts
  refine Post.pure hs₁.coherent ?_
  clear hone hps hlev
  induction hparts with
  | nil => exact ⟨[], rfl, Expanded.nil _ _⟩
  | @cons p part ps parts hp _ ih =>
      obtain ⟨qs, rfl, hq⟩ := hp
      obtain ⟨qs', heq, hq'⟩ := ih
      refine ⟨qs ++ qs', ?_, hq.append hq'⟩
      rw [List.flatten_cons, heq]
      simp [sideOf]

omit [LawfulStore σ Id] in
theorem narrow_succ (bound : ℕ) (a b : Side Id) {level : ℕ}
    (hlevel : max (maxLevel (unshared a b)) (maxLevel (unshared b a)) = level) :
    (narrow (bound + 1) a b : TreesM σ Id _) =
      if level = 0 then return (unshared a b, unshared b a)
      else (do narrow bound (← expand level (unshared a b)) (← expand level (unshared b a))) := by
  subst hlevel
  rfl

/-- Narrowing two sides ends in leaves that differ where the directories differ. -/
theorem post_narrow {bound : ℕ} {A B : List (Item Id)} {ps qs : List (Covered Id)}
    (ht : t.Coherent) (hps : AllCovered t.Has ps) (hqs : AllCovered t.Has qs)
    (hpl : ∀ p ∈ ps, p.1.level ≤ bound) (hql : ∀ q ∈ qs, q.1.level ≤ bound)
    (h : Narrowed A B (coveredItems ps) (coveredItems qs)) :
    Post E (narrow bound (sideOf ps) (sideOf qs)) t
      (fun r _ => Narrowed A B (sideItems r.1) (sideItems r.2)) R := by
  have hmem : ∀ (ps qs : List (Covered Id)) (p : Covered Id), p ∈ kept ps qs → p ∈ ps :=
    fun _ _ _ hp => List.mem_of_mem_filter hp
  induction bound generalizing ps qs t with
  | zero =>
      unfold narrow
      rw [unshared_sideOf, unshared_sideOf]
      refine Post.pure ht ?_
      have hkp : AllCovered t.Has (kept ps qs) := fun p hp => hps p (hmem _ _ p hp)
      have hkq : AllCovered t.Has (kept qs ps) := fun q hq => hqs q (hmem _ _ q hq)
      rw [sideItems_sideOf hkp (fun p hp => Nat.le_zero.mp (hpl p (hmem _ _ p hp))),
        sideItems_sideOf hkq (fun q hq => Nat.le_zero.mp (hql q (hmem _ _ q hq)))]
      exact h.kept hps hqs
  | succ bound ih =>
      have hkp : AllCovered t.Has (kept ps qs) := fun p hp => hps p (hmem _ _ p hp)
      have hkq : AllCovered t.Has (kept qs ps) := fun q hq => hqs q (hmem _ _ q hq)
      have hk := h.kept hps hqs
      have hle : max (maxLevel (sideOf (kept ps qs))) (maxLevel (sideOf (kept qs ps))) ≤ bound + 1 := by
        apply max_le
        · exact maxLevel_le (fun p hp => hpl p (hmem _ _ p hp))
        · exact maxLevel_le (fun q hq => hql q (hmem _ _ q hq))
      have hpl' : ∀ p ∈ kept ps qs, p.1.level ≤
          max (maxLevel (sideOf (kept ps qs))) (maxLevel (sideOf (kept qs ps))) :=
        fun p hp => (le_maxLevel_sideOf hp).trans (le_max_left _ _)
      have hql' : ∀ q ∈ kept qs ps, q.1.level ≤
          max (maxLevel (sideOf (kept ps qs))) (maxLevel (sideOf (kept qs ps))) :=
        fun q hq => (le_maxLevel_sideOf hq).trans (le_max_right _ _)
      generalize hlevel : max (maxLevel (sideOf (kept ps qs))) (maxLevel (sideOf (kept qs ps))) =
        level at hle hpl' hql'
      rw [← unshared_sideOf, ← unshared_sideOf] at hlevel
      rw [narrow_succ bound _ _ hlevel, unshared_sideOf, unshared_sideOf]
      cases level with
      | zero =>
          refine Post.pure ht ?_
          rw [sideItems_sideOf hkp (fun p hp => Nat.le_zero.mp (hpl' p hp)),
            sideItems_sideOf hkq (fun q hq => Nat.le_zero.mp (hql' q hq))]
          exact hk
      | succ k =>
          have hkb : k ≤ bound := by omega
          refine Post.bind (post_expand ht hkp hpl') ?_
          rintro _ t₁ hs₁ ⟨ps', rfl, hp'⟩
          refine Post.bind (post_expand hs₁.coherent (hkq.mono hs₁.has) hql') ?_
          rintro _ t₂ hs₂ ⟨qs', rfl, hq'⟩
          apply ih hs₂.coherent
          · exact hp'.covered.mono (fun c hc => hs₂.has c (hs₁.has c hc))
          · exact hq'.covered.mono hs₂.has
          · exact fun p hp => (hp'.level p hp).trans hkb
          · exact fun q hq => (hq'.level q hq).trans hkb
          · rw [hp'.items, hq'.items]
            exact hk

/-- The root of a directory covers its items. -/
theorem post_loadSide {items : List (Item Id)} {h : ℕ} {dir : Option Id} (ht : t.Coherent)
    (hr : Rooted t.Has items h dir) :
    Post E (loadSide dir) t
      (fun s t' => ∃ ps, s = sideOf ps ∧ AllCovered t'.Has ps ∧ coveredItems ps = items) R := by
  rcases hr with ⟨rfl, _, rfl | rfl⟩ | ⟨c, rfl, hroot, _, hhas⟩
  · refine Post.pure ht ⟨[], rfl, ?_, rfl⟩
    intro p hp
    cases hp
  · have hget : Runs E (get emptyId) t .emptyLeaf := runs_get ht ht.has_emptyLeaf
    refine Runs.bind_post hget ?_
    intro t₁ hs₁
    refine Post.pure hs₁.coherent ⟨[(.emptyLeaf, [])], rfl, ?_, rfl⟩
    intro p hp
    rw [List.mem_singleton.mp hp]
    rfl
  · refine Runs.bind_post (runs_get ht (hhas h (le_refl _) c hroot.mem)) ?_
    intro t₁ hs₁
    refine Post.pure hs₁.coherent ⟨[(c, items)], rfl, ?_, by simp [coveredItems]⟩
    intro p hp
    rw [List.mem_singleton.mp hp, hroot.level]
    exact covers_root hroot (fun j hj d hd => hs₁.has d (hhas j hj d hd))

/-! ### Differing items -/

/-- The names whose items differ between two directories, with their nodes. -/
structure Differing (A B : List (Item Id)) (l : List (ItemDiff Id)) : Prop where
  ascending : Ascending Prod.fst l
  mem : ∀ n x y, (n, x, y) ∈ l ↔ KeyedList.lookup Item.name n A ≠ KeyedList.lookup Item.name n B ∧
    x = (KeyedList.lookup Item.name n A).map Item.node ∧
      y = (KeyedList.lookup Item.name n B).map Item.node

omit [Hashing Id] [Store σ Id] [LawfulStore σ Id] in
theorem pairDiff_eq_some {n : Name} {l r : Option (Item Id)} (hl : ∀ i, l = some i → i.name = n)
    (hr : ∀ i, r = some i → i.name = n) {d : ItemDiff Id} :
    pairDiff (l, r) = some d ↔ l ≠ r ∧ d = (n, l.map Item.node, r.map Item.node) := by
  unfold pairDiff
  by_cases heq : l = r
  · simp [heq]
  · simp only [ne_eq, heq, not_false_eq_true, true_and, if_false]
    cases l with
    | none =>
        cases r with
        | none => exact absurd rfl heq
        | some i => simp [hr i rfl, eq_comm]
    | some i => simp [hl i rfl, eq_comm]

omit [Hashing Id] [Store σ Id] [LawfulStore σ Id] in
theorem differing_of_narrowed {A B la lb : List (Item Id)} (h : Narrowed A B la lb) :
    Differing A B ((outerJoin Item.name la lb).filterMap pairDiff) := by
  obtain ⟨ks, hks, _, hla, hlb, hjoin⟩ := exists_joinedOver h.left h.right
  rw [hjoin, List.filterMap_map]
  have hname : ∀ (k : Name) (l : List (Item Id)) (i : Item Id),
      KeyedList.lookup Item.name k l = some i → i.name = k := fun _ _ _ hi => (mem_of_lookup hi).2
  have hpair : ∀ k d, (pairDiff ∘ fun k => (KeyedList.lookup Item.name k la,
      KeyedList.lookup Item.name k lb)) k = some d ↔ _ :=
    fun k d => pairDiff_eq_some (hname k la) (hname k lb)
  have hasc : Ascending id ks := hks
  constructor
  · apply hasc.filterMap
    intro k _ d hd
    rw [((hpair k d).mp hd).2]
    rfl
  · intro n x y
    rw [List.mem_filterMap]
    constructor
    · rintro ⟨k, _, hk⟩
      obtain ⟨hne, heq⟩ := (hpair k _).mp hk
      rw [Prod.mk.injEq, Prod.mk.injEq] at heq
      obtain ⟨rfl, rfl, rfl⟩ := heq
      rcases h.agree n with ⟨h1, h2⟩ | ⟨h1, h2, _⟩
      · rw [← h1, ← h2]
        exact ⟨hne, rfl, rfl⟩
      · exact absurd (h1.trans h2.symm) hne
    · rintro ⟨hne, rfl, rfl⟩
      rcases h.agree n with ⟨h1, h2⟩ | ⟨_, _, h3⟩
      · rw [← h1, ← h2] at hne ⊢
        refine ⟨n, ?_, (hpair n _).mpr ⟨hne, rfl⟩⟩
        cases hl : KeyedList.lookup Item.name n la with
        | some i =>
            obtain ⟨hi, rfl⟩ := mem_of_lookup hl
            exact hla i hi
        | none =>
            cases hr : KeyedList.lookup Item.name n lb with
            | some i =>
                obtain ⟨hi, rfl⟩ := mem_of_lookup hr
                exact hlb i hi
            | none => exact absurd (hl.trans hr.symm) hne
      · exact absurd h3 hne

theorem post_diffItems {A B : List (Item Id)} {ha hb : ℕ} {a b : Option Id} (ht : t.Coherent)
    (hA : Ascending Item.name A) (hB : Ascending Item.name B) (hra : Rooted t.Has A ha a)
    (hrb : Rooted t.Has B hb b) : Post E (diffItems a b) t (fun l _ => Differing A B l) R := by
  unfold diffItems
  refine Post.bind (post_loadSide ht hra) ?_
  rintro _ t₁ hs₁ ⟨ps, rfl, hps, rfl⟩
  refine Post.bind (post_loadSide hs₁.coherent (hrb.mono hs₁.has)) ?_
  rintro _ t₂ hs₂ ⟨qs, rfl, hqs, rfl⟩
  have hstart : Narrowed (coveredItems ps) (coveredItems qs) (coveredItems ps) (coveredItems qs) :=
    ⟨hA, hB, fun n => Or.inl ⟨rfl, rfl⟩⟩
  refine Post.bind (post_narrow hs₂.coherent (hps.mono hs₂.has) hqs ?_ ?_ hstart) ?_
  · exact fun p hp => (le_maxLevel_sideOf hp).trans (le_max_left _ _)
  · exact fun q hq => (le_maxLevel_sideOf hq).trans (le_max_right _ _)
  · intro r t₃ hs₃ hr
    exact Post.pure hs₃.coherent (differing_of_narrowed hr)

/-! ### Differing paths -/

/-- At the paths of `P` below `pre`, `out'` adds to `out` where `A` and `B` differ; elsewhere it
is `out`. -/
structure Written (pre : List Name) (A B : Flat (FileEntry Id)) (P : List Name → Prop)
    (out out' : DiffMap Id) : Prop where
  at_path : ∀ q, q ≠ [] → P q →
    out'.get? ⟨pre ++ q⟩ = if A q = B q then out.get? ⟨pre ++ q⟩ else some (B q)
  outside : ∀ path, (¬ ∃ q, q ≠ [] ∧ P q ∧ path = ⟨pre ++ q⟩) → out'.get? path = out.get? path

section written
variable {pre : List Name} {A B : Flat (FileEntry Id)} {P Q : List Name → Prop}
  {out out₁ out' : DiffMap Id}
omit [Hashing Id] [Store σ Id] [LawfulStore σ Id]

/-- Where the maps agree, nothing is written. -/
theorem Written.refl (h : ∀ q, q ≠ [] → P q → A q = B q) : Written pre A B P out out := by
  refine ⟨?_, fun _ _ => rfl⟩
  intro q hq hP
  rw [if_pos (h q hq hP)]

theorem Written.trans (h : Written pre A B P out out₁) (h' : Written pre A B Q out₁ out') :
    Written pre A B (fun q => P q ∨ Q q) out out' := by
  have hinj : ∀ q q', (⟨pre ++ q⟩ : RepoPath) = ⟨pre ++ q'⟩ → q = q' := by
    intro q q' heq
    rw [RepoPath.mk.injEq, List.append_cancel_left_eq] at heq
    exact heq
  constructor
  · intro q hq hPQ
    by_cases hQ : Q q
    · rw [h'.at_path q hq hQ]
      by_cases hP : P q
      · rw [h.at_path q hq hP]
        split <;> rfl
      · rw [h.outside ⟨pre ++ q⟩]
        rintro ⟨q', _, hP', heq⟩
        rw [hinj q q' heq] at hP
        exact hP hP'
    · rw [h'.outside ⟨pre ++ q⟩, h.at_path q hq (hPQ.resolve_right hQ)]
      rintro ⟨q', _, hQ', heq⟩
      rw [hinj q q' heq] at hQ
      exact hQ hQ'
  · intro path hno
    rw [h'.outside path, h.outside path]
    · exact fun ⟨q, hq, hP, heq⟩ => hno ⟨q, hq, Or.inl hP, heq⟩
    · exact fun ⟨q, hq, hQ, heq⟩ => hno ⟨q, hq, Or.inr hQ, heq⟩

/-- Paths where the maps agree may be added and left out. -/
theorem Written.congr (h : Written pre A B P out out')
    (hPQ : ∀ q, q ≠ [] → A q ≠ B q → (P q ↔ Q q)) : Written pre A B Q out out' := by
  have hsame : ∀ q, q ≠ [] → A q = B q → out'.get? ⟨pre ++ q⟩ = out.get? ⟨pre ++ q⟩ := by
    intro q hq heq
    by_cases hP : P q
    · rw [h.at_path q hq hP, if_pos heq]
    · apply h.outside
      rintro ⟨q', _, hP', hqq⟩
      rw [RepoPath.mk.injEq, List.append_cancel_left_eq] at hqq
      subst hqq
      exact hP hP'
  constructor
  · intro q hq hQ
    by_cases heq : A q = B q
    · rw [if_pos heq, hsame q hq heq]
    · rw [h.at_path q hq ((hPQ q hq heq).mpr hQ)]
  · intro path hno
    by_cases hex : ∃ q, q ≠ [] ∧ P q ∧ path = ⟨pre ++ q⟩
    · obtain ⟨q, hq, hP, rfl⟩ := hex
      by_cases heq : A q = B q
      · exact hsame q hq heq
      · exact absurd ⟨q, hq, (hPQ q hq heq).mp hP, rfl⟩ hno
    · exact h.outside path hex

/-- What is written inside a subdirectory is written below its name. -/
theorem Written.of_inner {n : Name}
    (h : Written (pre ++ [n]) (A.inner n) (B.inner n) (fun _ => True) out out') :
    Written pre A B (fun q => ∃ r, r ≠ [] ∧ q = n :: r) out out' := by
  have happ : ∀ r : List Name, pre ++ n :: r = (pre ++ [n]) ++ r := by simp
  constructor
  · rintro _ _ ⟨r, hr, rfl⟩
    rw [happ, h.at_path r hr trivial, Flat.inner_of_ne hr, Flat.inner_of_ne hr]
  · intro path hno
    apply h.outside
    rintro ⟨r, hr, _, rfl⟩
    exact hno ⟨n :: r, by simp, ⟨r, hr, rfl⟩, congrArg RepoPath.mk (happ r).symm⟩

theorem written_file {n : Name} {f f' : Option (FileEntry Id)} (hf : f = A [n]) (hf' : f' = B [n]) :
    Written pre A B (fun q => q = [n]) out
      (if f ≠ f' then out.insert ⟨pre ++ [n]⟩ f' else out) := by
  subst hf hf'
  constructor
  · rintro _ _ rfl
    by_cases heq : A [n] = B [n]
    · simp [heq]
    · simp [heq]
  · intro path hno
    have hne : (⟨pre ++ [n]⟩ : RepoPath) ≠ path := by
      rintro rfl
      exact hno ⟨[n], by simp, rfl, rfl⟩
    by_cases heq : A [n] = B [n]
    · simp [heq]
    · simp [heq, hne]

end written

omit [DecidableEq Id] [Store σ Id] [LawfulStore σ Id] in
/-- Two snapshots with one node at a name agree on every path that starts with it. -/
theorem eq_of_node_eq {P Q : Chunk Id → Prop} {d : ℕ} {A B : Flat (FileEntry Id)} {n : Name}
    {x : Option (Node Id)} (hA : NodeAt (SubDir P d) (A [n]) (A.inner n) x)
    (hB : NodeAt (SubDir Q d) (B [n]) (B.inner n) x) (r : List Name) : A (n :: r) = B (n :: r) := by
  have hsub : ∀ T T' id, SubDir P d T id → SubDir Q d T' id → T = T' :=
    fun _ _ _ hs hs' => IsDir.flat_eq hs hs'
  obtain ⟨hfile, hbelow⟩ := hA.determines hsub hB
  by_cases hr : r = []
  · rw [hr]
    exact hfile
  · rw [← @Flat.inner_of_ne _ A n r hr, hbelow, Flat.inner_of_ne hr]

omit [DecidableEq Id] [Hashing Id] [Store σ Id] [LawfulStore σ Id] in
/-- The name of an item on either side is the first component of a valid path. -/
theorem valid_of_differing {sub sub' : Flat (FileEntry Id) → Id → Prop} {pre : List Name}
    {A B : Flat (FileEntry Id)} {n : Name} {l r : Option (Item Id)} (hva : ValidBelow pre A)
    (hvb : ValidBelow pre B) (hl : NodeAt sub (A [n]) (A.inner n) (l.map Item.node))
    (hr : NodeAt sub' (B [n]) (B.inner n) (r.map Item.node)) (hne : l ≠ r) :
    RepoPath.Valid ⟨pre ++ [n]⟩ := by
  cases l with
  | some i => exact valid_of_item hva hl
  | none =>
      cases r with
      | some i => exact valid_of_item hvb hr
      | none => exact absurd rfl hne

/-- `diffDir` writes the paths whose files differ. -/
theorem post_diffDir {bound d : ℕ} (hd : d < bound) {pre : List Name} {A B : Flat (FileEntry Id)}
    {a b : Option Id} {out : DiffMap Id} (ht : t.Coherent) (ha : IsDir t.Has d A a)
    (hb : IsDir t.Has d B b) (hva : ValidBelow pre A) (hvb : ValidBelow pre B) :
    Post E (diffDir bound a b pre out) t (fun out' _ => Written pre A B (fun _ => True) out out') R := by
  induction bound generalizing d pre A B a b out t with
  | zero => omega
  | succ bound ih =>
      unfold diffDir
      by_cases hab : a = b
      · rw [if_pos hab]
        subst hab
        obtain rfl := ha.flat_eq hb
        exact Post.pure ht (Written.refl (fun _ _ _ => rfl))
      rw [if_neg hab]
      obtain ⟨itemsA, heightA, hlA, hrA⟩ := isDir_listing ha
      obtain ⟨itemsB, heightB, hlB, hrB⟩ := isDir_listing hb
      refine Post.bind (post_diffItems ht hlA.clean.ascending hlB.clean.ascending hrA hrB) ?_
      intro items t₁ hs₁ hitems
      -- the items done so far decide every path that starts with one of their names
      refine Post.mono (Post.foldlM (I := fun done out' =>
        Written pre A B (fun q => ∃ x ∈ done, q.head? = some x.1) out out') hs₁.coherent ?_ ?_) ?_
        (fun _ h => h)
      · exact Written.refl (fun q _ hq => absurd hq (by simp))
      · rintro done ⟨n, x, y⟩ rest hl out₁ t₂ hs₂ hdone
        have hx : (n, x, y) ∈ items := by
          rw [hl]
          simp
        obtain ⟨hne, hx', hy'⟩ := (hitems.mem n x y).mp hx
        have hpos : d ≠ 0 := by
          rintro rfl
          rw [hlA.empty_iff.mpr ha.1, hlB.empty_iff.mpr hb.1] at hne
          exact hne rfl
        have hnA := hlA.node n
        have hnB := hlB.node n
        have hvalid := valid_of_differing hva hvb hnA hnB hne
        rw [← hx'] at hnA
        rw [← hy'] at hnB
        refine Runs.bind_post (runs_joined hs₂.coherent hvalid) ?_
        intro t₃ hs₃
        have hfile := hdone.trans (written_file hnA.file_eq hnB.file_eq)
        have hall : ∀ out' out₂, Written pre A B
              (fun q => (∃ z ∈ done, q.head? = some z.1) ∨ q = [n]) out out₂ →
            Written (pre ++ [n]) (A.inner n) (B.inner n) (fun _ => True) out₂ out' →
            Written pre A B (fun q => ∃ z ∈ done ++ [(n, x, y)], q.head? = some z.1) out out' := by
          intro out' out₂ hfile hin
          apply (hfile.trans hin.of_inner).congr
          intro q hq _
          obtain ⟨m, r, rfl⟩ := List.exists_cons_of_ne_nil hq
          simp only [List.mem_append, List.mem_singleton, List.head?_cons, Option.some.injEq,
            List.cons.injEq, or_and_right, exists_or, exists_eq_left]
          by_cases hr : r = []
          · subst hr; simp
          · simp [hr]
        have hhas : ∀ c, t.Has c → t₃.Has c := fun c hc => hs₃.has c (hs₂.has c (hs₁.has c hc))
        have hdA := hnA.isDir.mono hhas
        have hdB := hnB.isDir.mono hhas
        by_cases hsame : x.bind Node.dir? = y.bind Node.dir?
        · rw [hsame] at hdA
          have heq := hdA.flat_eq hdB
          simp only [hsame, ne_eq, not_true_eq_false, if_false]
          refine Post.pure hs₃.coherent (hall _ _ hfile (Written.refl (fun q _ _ => ?_)))
          rw [heq]
        · simp only [ne_eq, hsame, not_false_eq_true, if_true]
          refine Post.mono (ih (by omega) hs₃.coherent hdA hdB (hva.inner n) (hvb.inner n)) ?_
            (fun _ h => h)
          exact fun out' _ _ hin => hall out' _ hfile hin
      · intro out' _ _ hw
        apply hw.congr
        intro q hq hne
        refine iff_of_true ?_ trivial
        obtain ⟨n, r, rfl⟩ := List.exists_cons_of_ne_nil hq
        refine ⟨(n, _, _), (hitems.mem n _ _).mpr ⟨?_, rfl, rfl⟩, rfl⟩
        intro heq
        have hnA := hlA.node n
        rw [heq] at hnA
        exact hne (eq_of_node_eq hnA (hlB.node n) r)

omit [Hashing Id] [Store σ Id] [LawfulStore σ Id] in
/-- The paths written to an empty map. -/
theorem Written.mem_keys {pre : List Name} {A B : Flat (FileEntry Id)} {out : DiffMap Id}
    (h : Written pre A B (fun _ => True) SortedMap.empty out) (x : RepoPath) :
    x ∈ out.keys ↔ ∃ q, q ≠ [] ∧ A q ≠ B q ∧ x = ⟨pre ++ q⟩ := by
  rw [SortedMap.mem_keys]
  by_cases hex : ∃ q, q ≠ [] ∧ True ∧ x = ⟨pre ++ q⟩
  · obtain ⟨q, hq, _, rfl⟩ := hex
    rw [h.at_path q hq trivial]
    by_cases heq : A q = B q
    · rw [if_pos heq]
      refine iff_of_false (by simp) ?_
      rintro ⟨q', _, hne, hqq⟩
      rw [RepoPath.mk.injEq, List.append_cancel_left_eq] at hqq
      subst hqq
      exact hne heq
    · rw [if_neg heq]
      exact iff_of_true rfl ⟨q, hq, heq, rfl⟩
  · rw [h.outside x hex]
    refine iff_of_false (by simp) ?_
    rintro ⟨q, hq, _, rfl⟩
    exact hex ⟨q, hq, trivial, rfl⟩

omit [Hashing Id] [Store σ Id] [LawfulStore σ Id] in
theorem Written.mapFlat_eq {A B : Flat (FileEntry Id)} {out : DiffMap Id}
    (h : Written [] A B (fun _ => True) SortedMap.empty out) (h0 : A [] = B []) :
    mapFlat out = Flat.diff A B := by
  funext p
  unfold mapFlat
  by_cases hp : p = []
  · subst hp
    rw [h.outside, Flat.diff_eq_none.mpr h0]
    · rfl
    · rintro ⟨q, hq, _, heq⟩
      rw [RepoPath.mk.injEq, List.nil_append] at heq
      exact hq heq.symm
  · have hpath := h.at_path p hp trivial
    rw [List.nil_append] at hpath
    rw [hpath]
    rfl

omit [DecidableEq Id] [Hashing Id] [Store σ Id] [LawfulStore σ Id] in
/-- A path where valid snapshots differ is valid. -/
theorem valid_of_ne {pre q : List Name} {A B : Flat (FileEntry Id)} (hva : ValidBelow pre A)
    (hvb : ValidBelow pre B) (h : A q ≠ B q) : RepoPath.Valid ⟨pre ++ q⟩ := by
  cases hA : A q with
  | some e => exact hva q (by simp [hA])
  | none =>
      apply hvb q
      rw [hA] at h
      exact h.symm

/-- `diff` is the pointwise difference. -/
theorem post_diff {A B : Flat (FileEntry Id)} {a b : Id} (ht : t.Coherent) (ha : IsTree t.Has A a)
    (hb : IsTree t.Has B b) (hva : ValidBelow [] A) (hvb : ValidBelow [] B) :
    Post E (diff a b) t (fun c _ => c.flat = Flat.diff A B) R := by
  unfold diff
  refine Post.bind (post_diffDir (Nat.lt_succ_self _) ht ha hb hva hvb) ?_
  intro out t₁ hs₁ hw
  have hvalid : ∀ p ∈ out.keys, p.Valid := by
    intro p hp
    obtain ⟨q, _, hne, rfl⟩ := (hw.mem_keys p).mp hp
    exact valid_of_ne hva hvb hne
  have hof : SparseChanges.ofMap out = .ok ⟨out, hvalid⟩ := SparseChanges.ofMap_eq_ok.mpr rfl
  rw [hof]
  exact Post.pure hs₁.coherent (hw.mapFlat_eq (ha.nil.trans hb.nil.symm))

end Trees

end Javelin
