import Javelin.Trees

/-! # Grouping by first component

`applyDir` and `intersect` regroup the paths they are given by first component.  For paths
without duplicates the group of a name `n` holds exactly what the map of those paths holds at and
below `n` (`groups_some`, `groups_none`). -/

namespace Javelin

open KeyedList

variable {α : Type}

/-! ### Lists of pairs as maps -/

theorem flatOf_eq_some {l : List (List Name × α)} (hn : (l.map Prod.fst).Nodup) {p : List Name}
    {a : α} : flatOf l p = some a ↔ (p, a) ∈ l := by
  unfold flatOf
  constructor
  · intro h
    obtain ⟨e, he, rfl⟩ := Option.map_eq_some_iff.mp h
    obtain ⟨hm, rfl⟩ := mem_of_lookup he
    exact hm
  · intro h
    have hs : (lookup Prod.fst p l).isSome := lookup_isSome.mpr ⟨_, h, rfl⟩
    obtain ⟨e, he⟩ := Option.isSome_iff_exists.mp hs
    obtain ⟨hm, hp⟩ := mem_of_lookup he
    have heq : e = (p, a) := List.inj_on_of_nodup_map hn hm h hp
    rw [he, heq]
    rfl

theorem flatOf_eq_none {l : List (List Name × α)} {p : List Name} :
    flatOf l p = none ↔ ∀ e ∈ l, e.1 ≠ p := by
  unfold flatOf
  rw [Option.map_eq_none_iff, lookup_eq_none]

/-! ### What a group holds -/

/-- The rest of a path below the component `n`. -/
def strip (n : Name) (p : List Name × α) : Option (List Name × α) :=
  match p.1 with
  | [] => none
  | m :: rest => if m = n then some (rest, p.2) else none

theorem strip_eq_some {n : Name} {p : List Name × α} {rest : List Name} {a : α} :
    strip n p = some (rest, a) ↔ p = (n :: rest, a) := by
  obtain ⟨ns, b⟩ := p
  cases ns with
  | nil => simp [strip]
  | cons m ns =>
      by_cases h : m = n
      · simp [strip, h]
      · simp [strip, h]

theorem mem_stripped {n : Name} {paths : List (List Name × α)} {rest : List Name} {a : α} :
    (rest, a) ∈ paths.filterMap (strip n) ↔ (n :: rest, a) ∈ paths := by
  rw [List.mem_filterMap]
  constructor
  · rintro ⟨p, hp, hs⟩
    rw [strip_eq_some] at hs
    rwa [← hs]
  · intro h
    exact ⟨_, h, strip_eq_some.mpr rfl⟩

theorem stripped_nodup {n : Name} {paths : List (List Name × α)}
    (hn : (paths.map Prod.fst).Nodup) : ((paths.filterMap (strip n)).map Prod.fst).Nodup := by
  rw [List.Nodup, List.pairwise_map] at hn ⊢
  rw [List.pairwise_filterMap]
  refine hn.imp ?_
  rintro p q hne ⟨r, a⟩ hr ⟨s, b⟩ hs heq
  rw [strip_eq_some] at hr hs
  apply hne
  rw [hr, hs]
  exact congrArg (n :: ·) heq

theorem get?_groups (n : Name) (paths : List (List Name × α)) :
    (groups paths).get? n =
      if paths.filterMap (strip n) = [] then none
      else some ((paths.filterMap (strip n)).foldl (fun g r => g.add r.1 r.2) .empty) := by
  have key : ∀ (l : List (List Name × α)) (m : SortedMap Name (Group α)),
      (l.foldl (fun m p => match p.1 with
        | [] => m
        | name :: rest => m.insert name (((m.get? name).getD .empty).add rest p.2)) m).get? n =
      if l.filterMap (strip n) = [] then m.get? n
      else some ((l.filterMap (strip n)).foldl (fun g r => g.add r.1 r.2)
        ((m.get? n).getD .empty)) := by
    intro l
    induction l with
    | nil => intro m; rfl
    | cons p l ih =>
        intro m
        obtain ⟨ns, a⟩ := p
        cases ns with
        | nil => rw [List.foldl_cons, ih, List.filterMap_cons_none (by rfl)]
        | cons name rest =>
            rw [List.foldl_cons, ih]
            simp only [SortedMap.get?_insert]
            by_cases h : name = n
            · subst h
              rw [List.filterMap_cons_some (strip_eq_some.mpr rfl)]
              simp only [if_true, Option.getD_some, List.foldl_cons, reduceCtorEq, if_false]
              split
              · rename_i hnil; rw [hnil]; rfl
              · rfl
            · have hs : strip n (name :: rest, a) = none := by simp [strip, h]
              rw [List.filterMap_cons_none hs, if_neg h]
  exact key paths SortedMap.empty

theorem deeper_foldl (rs : List (List Name × α)) (g : Group α) :
    (rs.foldl (fun g r => g.add r.1 r.2) g).deeper = g.deeper ++ rs.filter (fun r => r.1 ≠ []) := by
  induction rs generalizing g with
  | nil => simp
  | cons r rs ih =>
      obtain ⟨rest, a⟩ := r
      rw [List.foldl_cons, ih]
      cases rest with
      | nil => simp [Group.add]
      | cons m rest => simp [Group.add]

theorem exact_foldl (rs : List (List Name × α)) (hn : (rs.map Prod.fst).Nodup) (g : Group α) :
    (rs.foldl (fun g r => g.add r.1 r.2) g).exact = (flatOf rs []).or g.exact := by
  induction rs generalizing g with
  | nil => rfl
  | cons r rs ih =>
      obtain ⟨rest, a⟩ := r
      rw [List.map_cons, List.nodup_cons] at hn
      rw [List.foldl_cons, ih hn.2]
      cases rest with
      | nil =>
          have hnone : flatOf rs [] = none := by
            rw [flatOf_eq_none]
            rintro e he h0
            exact hn.1 (List.mem_map.mpr ⟨e, he, h0⟩)
          rw [hnone]
          simp [Group.add, flatOf, lookup_cons]
      | cons m rest => simp [Group.add, flatOf, lookup_cons]

/-- What the group of the name `n` holds of the given paths. -/
structure GroupOf (paths : List (List Name × α)) (n : Name) (g : Group α) : Prop where
  exact : g.exact = flatOf paths [n]
  mem_deeper : ∀ rest a, (rest, a) ∈ g.deeper ↔ rest ≠ [] ∧ (n :: rest, a) ∈ paths
  nodup : (g.deeper.map Prod.fst).Nodup

namespace GroupOf
variable {paths : List (List Name × α)} {n : Name} {g : Group α}

theorem flatOf_deeper (h : GroupOf paths n g) (hn : (paths.map Prod.fst).Nodup) (q : List Name) :
    flatOf g.deeper q = if q = [] then none else flatOf paths (n :: q) := by
  by_cases hq : q = []
  · rw [if_pos hq, flatOf_eq_none]
    rintro ⟨r, a⟩ hr rfl
    exact ((h.mem_deeper _ _).mp hr).1 hq
  · rw [if_neg hq]
    refine Option.ext (fun a => ?_)
    rw [flatOf_eq_some h.nodup, flatOf_eq_some hn, h.mem_deeper]
    simp [hq]

theorem deeper_eq_nil (h : GroupOf paths n g) :
    g.deeper = [] ↔ ∀ q, q ≠ [] → flatOf paths (n :: q) = none := by
  constructor
  · intro hd q hq
    rw [flatOf_eq_none]
    rintro ⟨p, a⟩ hp rfl
    have hm := (h.mem_deeper q a).mpr ⟨hq, hp⟩
    rw [hd] at hm
    cases hm
  · intro hall
    rw [List.eq_nil_iff_forall_not_mem]
    rintro ⟨r, a⟩ hr
    obtain ⟨hne, hp⟩ := (h.mem_deeper r a).mp hr
    exact flatOf_eq_none.mp (hall r hne) _ hp rfl

end GroupOf

theorem groups_none {paths : List (List Name × α)} {n : Name} (h : (groups paths).get? n = none) :
    ∀ q, flatOf paths (n :: q) = none := by
  intro q
  rw [get?_groups] at h
  split at h
  · rename_i hnil
    rw [flatOf_eq_none]
    rintro ⟨p, a⟩ hp rfl
    have hm := mem_stripped.mpr hp
    rw [hnil] at hm
    cases hm
  · cases h

theorem groups_some {paths : List (List Name × α)} {n : Name} {g : Group α}
    (hn : (paths.map Prod.fst).Nodup) (h : (groups paths).get? n = some g) : GroupOf paths n g := by
  rw [get?_groups] at h
  split at h
  · cases h
  · injection h with h
    have hs := stripped_nodup (n := n) hn
    have hdeeper := deeper_foldl (paths.filterMap (strip n)) Group.empty
    have hexact := exact_foldl _ hs Group.empty
    rw [h] at hdeeper hexact
    have hempty : (Group.empty : Group α).deeper = [] := rfl
    rw [hempty, List.nil_append] at hdeeper
    refine ⟨?_, ?_, ?_⟩
    · have hor : (flatOf (paths.filterMap (strip n)) []).or (Group.empty : Group α).exact =
          flatOf (paths.filterMap (strip n)) [] := Option.or_none
      rw [hexact, hor]
      refine Option.ext (fun a => ?_)
      rw [flatOf_eq_some hs, flatOf_eq_some hn, mem_stripped]
    · intro rest a
      rw [hdeeper, List.mem_filter, mem_stripped]
      simp [and_comm]
    · rw [hdeeper]
      exact hs.sublist (List.filter_sublist.map _)

/-- Some path starts with the name of every group. -/
theorem groups_some_exists {paths : List (List Name × α)} {n : Name} {g : Group α}
    (h : (groups paths).get? n = some g) : ∃ q, flatOf paths (n :: q) ≠ none := by
  rw [get?_groups] at h
  split at h
  · cases h
  · rename_i hne
    obtain ⟨⟨r, a⟩, hr⟩ := List.exists_mem_of_ne_nil _ hne
    refine ⟨r, fun hnone => ?_⟩
    exact flatOf_eq_none.mp hnone _ (mem_stripped.mp hr) rfl

end Javelin
