import Javelin.Levels

/-! # Searching one directory

`seek` descends from the root of a directory to the chunk of a level that holds a name.  On a
readable canonical tree it finds in the level's list of chunks what `choose` finds there
(`runs_seek`), so `find` is a lookup in the directory's items (`runs_find`). -/

namespace Javelin

open KeyedList

namespace Trees
variable {σ Id : Type} [DecidableEq Id] [Hashing Id] [Store σ Id] [LawfulStore σ Id]
variable {t : Trees σ Id} {E : Chunk Id → Prop} {items : List (Item Id)}

/-- What `seek` looks for in a list of chunks. -/
def pick (name : Name) (after : Bool) (cs : List (Chunk Id)) : Option (Chunk Id × Bool) :=
  choose (fun c => isBefore name after c.last) after cs

theorem isBefore_mono {name : Name} {after : Bool} {a b : Name} (h : a ≤ b)
    (hb : isBefore name after b = true) : isBefore name after a = true := by
  unfold isBefore at hb ⊢
  cases after
  · simp only [Bool.false_eq_true, if_false, decide_eq_true_eq] at hb ⊢
    exact h.trans_lt hb
  · simp only [if_true, decide_eq_true_eq] at hb ⊢
    exact h.trans hb

omit [DecidableEq Id] in
/-- The choice at one level follows from the choice at the level above. -/
theorem pick_level (ha : Ascending Item.name items) (name : Name) (after : Bool) (m : ℕ) :
    (pick name after (levelChunks items m)).map (fun d => (d.1.item, d.2)) =
      (pick name after (levelChunks items (m + 1))).bind
        (fun c => (choose (fun item => isBefore name after item.name) after c.1.items).map
          (fun x => (x.1, c.2 && x.2))) := by
  let before := fun item : Item Id => isBefore name after item.name
  let P := fun p : List (Item Id) => isBefore name after (Chunk.mk 0 p).last
  have hrun := run_levelChunks ha (m + 1)
  have hflat : ((levelChunks items (m + 1)).map Chunk.items).flatten =
      (levelChunks items m).map Chunk.item := chunkItems_cutLevel (m + 1) (levelItems items (m + 1))
  have hleft : (pick name after (levelChunks items m)).map (fun d => (d.1.item, d.2)) =
      choose before after ((levelChunks items m).map Chunk.item) := by
    rw [choose_map]
    rfl
  have hright : choose P after ((levelChunks items (m + 1)).map Chunk.items) =
      (pick name after (levelChunks items (m + 1))).map (fun c => (c.1.items, c.2)) := by
    rw [choose_map]
    rfl
  rw [hleft, ← hflat, @choose_flatten _ before after P, hright, Option.bind_map]
  · rfl
  · intro p _ x hx
    obtain ⟨init, y, rfl⟩ := (List.eq_nil_or_concat p).resolve_left (by rintro rfl; cases hx)
    rw [List.concat_eq_append, List.getLast?_append] at hx
    obtain rfl : y = x := by simpa using hx
    have hlast : (Chunk.mk 0 (init ++ [y])).last = y.name := Chunk.last_eq rfl
    show isBefore name after _ = _
    rw [List.concat_eq_append, hlast]
  · intro p hp
    obtain ⟨c, hc, rfl⟩ := List.mem_map.mp hp
    exact hrun.ne_nil c hc
  · refine hrun.ascending.imp ?_
    intro x y hlt hy
    exact isBefore_mono hlt.le hy

omit [DecidableEq Id] in
/-- Where a level has nothing to choose, neither have the levels below. -/
theorem pick_none_below (ha : Ascending Item.name items) {name : Name} {after : Bool} {k m : ℕ}
    (hkm : k ≤ m) (h : pick name after (levelChunks items m) = none) :
    pick name after (levelChunks items k) = none := by
  induction m, hkm using Nat.le_induction with
  | base => exact h
  | succ m _ ih =>
      apply ih
      have hlevel := pick_level ha name after m
      rw [h, Option.bind_none, Option.map_eq_none_iff] at hlevel
      exact hlevel

/-- What the descent assumes of its chunk `c`: the level's choice is `c`, unless all of it lies
before the bound. -/
def Chosen (name : Name) (after : Bool) (cs : List (Chunk Id)) (c : Chunk Id) (r : Bool) : Prop :=
  c ∈ cs ∧ pick name after cs =
    if after = true ∧ isBefore name after c.last = true then none else some (c, r)

theorem runs_found (ht : t.Coherent) {name : Name} {after : Bool} {k : ℕ} {c : Chunk Id}
    {r : Bool} (hc : Chosen name after (levelChunks items k) c r) :
    Runs E (descend.found k name after c r) t (pick name after (levelChunks items k)) := by
  obtain ⟨hmem, hpick⟩ := hc
  unfold descend.found
  rw [hpick]
  have hne := items_ne_nil_of_mem hmem
  cases after with
  | false =>
      rw [if_neg (by simp [level_of_mem hmem]), if_neg (by simp)]
      exact Runs.pure ht _
  | true =>
      by_cases hb : c.last ≤ name
      · rw [if_pos (by simp [hb]), if_pos (by simp [isBefore, hb])]
        exact Runs.pure ht _
      · rw [if_neg (by simp [level_of_mem hmem, hne, hb]), if_neg (by simp [isBefore, hb])]
        exact Runs.pure ht _

theorem runs_descend (ha : Ascending Item.name items) (ht : t.Coherent) {name : Name}
    {after : Bool} {k m : ℕ} {c : Chunk Id} {r : Bool}
    (hhas : ∀ j < m, ∀ d ∈ levelChunks items j, t.Has d) (hkm : k ≤ m)
    (hc : Chosen name after (levelChunks items m) c r) :
    Runs E (descend k name after m c r) t (pick name after (levelChunks items k)) := by
  induction m generalizing c r t with
  | zero =>
      obtain rfl : k = 0 := by omega
      exact runs_found ht hc
  | succ m ih =>
      have hlevel := level_of_mem hc.1
      unfold descend
      by_cases hk : k < c.level
      · rw [if_pos hk]
        have hkm' : k ≤ m := by omega
        have hstep := pick_level ha name after m
        rw [hc.2] at hstep
        have hca : Ascending Item.name c.items := (run_levelChunks ha (m + 1)).items hc.1
        by_cases hb : after = true ∧ isBefore name after c.last = true
        · rw [if_pos hb, Option.bind_none, Option.map_eq_none_iff] at hstep
          have hall : ∀ y ∈ c.items, isBefore name after y.name = true := fun y hy =>
            isBefore_mono (Chunk.name_le_last hca hy) hb.2
          rw [choose_eq_none.mpr (Or.inr ⟨hb.1, hall⟩), pick_none_below ha hkm' hstep]
          exact Runs.pure ht _
        · rw [if_neg hb, Option.bind_some] at hstep
          cases hx : choose (fun item => isBefore name after item.name) after c.items with
          | none =>
              rcases choose_eq_none.mp hx with hnil | ⟨haft, hall⟩
              · exact absurd hnil (items_ne_nil_of_mem hc.1)
              · obtain ⟨y, hy, hyl⟩ := Chunk.exists_name_eq_last (items_ne_nil_of_mem hc.1)
                exact absurd ⟨haft, hyl ▸ hall y hy⟩ hb
          | some x =>
              obtain ⟨item, b⟩ := x
              rw [hx, Option.map_some] at hstep
              obtain ⟨⟨d, r'⟩, hd, heq⟩ := Option.map_eq_some_iff.mp hstep
              simp only [Prod.mk.injEq] at heq
              obtain ⟨rfl, rfl⟩ := heq
              have hdm : d ∈ levelChunks items m := mem_of_choose hd
              have hchild : Runs E (child c d.item true) t d := by
                refine runs_child ht (hhas m (by omega) d hdm) rfl ?_ (items_ne_nil_of_mem hdm) rfl true
                rw [level_of_mem hdm, hlevel]
              refine hchild.bind ?_
              intro t' hs
              refine ih hs.coherent (fun j hj e he => hs.has e (hhas j (by omega) e he)) hkm' ⟨hdm, ?_⟩
              rw [hd, if_neg]
              rintro ⟨rfl, hbd⟩
              have hnot := not_before_of_choose hd
              rw [hnot] at hbd
              cases hbd
      · rw [if_neg hk]
        obtain rfl : k = m + 1 := by omega
        exact runs_found ht hc

/-- `seek` on a readable canonical tree. -/
theorem runs_seek (ha : Ascending Item.name items) (ht : t.Coherent) {h k : ℕ} {c : Chunk Id}
    (hr : IsRoot items h c) (hhas : ∀ j ≤ h, ∀ d ∈ levelChunks items j, t.Has d) (hk : k ≤ h)
    (name : Name) (after : Bool) :
    Runs E (seek c.id k name after) t (pick name after (levelChunks items k)) := by
  unfold seek
  refine (runs_get ht (hhas h (le_refl _) c hr.mem)).bind ?_
  intro t' hs
  rw [hr.level]
  refine runs_descend ha hs.coherent (fun j hj d hd => hs.has d (hhas j hj.le d hd)) hk ⟨hr.mem, ?_⟩
  rw [hr.only]
  have hsplit : [c] = [] ++ c :: [] := rfl
  unfold pick
  cases hb : isBefore name after c.last with
  | true =>
      rw [choose_past hsplit (by simpa using hb)]
      simp
  | false =>
      rw [choose_split hsplit (by simp) hb]
      simp

omit [DecidableEq Id] [Hashing Id] in
/-- The first leaf that reaches `name` holds it if any leaf does. -/
theorem lookup_pick {cs : List (Chunk Id)} (hrun : Run cs) (name : Name) :
    KeyedList.lookup Item.name name (chunkItems cs) =
      (pick name false cs).bind (fun c => KeyedList.lookup Item.name name c.1.items) := by
  unfold pick
  rcases split_before (fun c : Chunk Id => isBefore name false c.last) cs with
    hall | ⟨pre, c, post, rfl, hpre, hc⟩
  · have hlt : ∀ x ∈ chunkItems cs, x.name < name := by
      intro x hx
      obtain ⟨d, hd, hxd⟩ := mem_chunkItems.mp hx
      have hb : isBefore name false d.last = true := hall d hd
      refine (Chunk.name_le_last (hrun.items hd) hxd).trans_lt ?_
      simpa [isBefore] using hb
    rw [lookup_eq_none_of_gt hlt]
    cases hp : choose (fun c : Chunk Id => isBefore name false c.last) false cs with
    | none => rfl
    | some x =>
        rw [Option.bind_some, eq_comm]
        apply lookup_eq_none_of_gt
        intro y hy
        exact hlt y (mem_chunkItems.mpr ⟨x.1, mem_of_choose hp, hy⟩)
  · rw [choose_split rfl hpre hc, Option.bind_some, chunkItems_append, chunkItems_cons,
      lookup_append, lookup_append]
    have hlast : name ≤ c.last := by simpa [isBefore] using hc
    have hpre' : KeyedList.lookup Item.name name (chunkItems pre) = none := by
      apply lookup_eq_none_of_gt
      intro x hx
      obtain ⟨d, hd, hxd⟩ := mem_chunkItems.mp hx
      have hb := hpre d hd
      refine (Chunk.name_le_last (hrun.of_append_left.items hd) hxd).trans_lt ?_
      simpa [isBefore] using hb
    have hpost : KeyedList.lookup Item.name name (chunkItems post) = none := by
      apply lookup_eq_none_of_lt
      intro x hx
      have hrun' : Run ((pre ++ [c]) ++ post) := by simpa using hrun
      exact hlast.trans_lt (hrun'.last_lt (by simp) hx)
    rw [hpre', hpost, Option.none_or, Option.or_none]

/-- `find` is a lookup in the directory's items. -/
theorem runs_find (ha : Ascending Item.name items) (ht : t.Coherent) {h : ℕ} {c : Chunk Id}
    (hr : IsRoot items h c) (hhas : ∀ j ≤ h, ∀ d ∈ levelChunks items j, t.Has d) (name : Name) :
    Runs E (find c.id name) t ((KeyedList.lookup Item.name name items).map Item.node) := by
  unfold find
  refine (runs_seek ha ht hr hhas (Nat.zero_le _) name false).bind ?_
  intro t' hs
  have hl := lookup_pick (run_levelChunks ha 0) name
  have hflat : chunkItems (levelChunks items 0) = items := chunkItems_cutLevel 0 items
  rw [hflat] at hl
  rw [hl]
  cases pick name false (levelChunks items 0) with
  | none => exact Runs.pure hs.coherent _
  | some x => exact Runs.pure hs.coherent _

end Trees

end Javelin
