import Mathlib.Order.Lattice
import Mathlib.Data.List.Basic
import Mathlib.Tactic.Common

/-! # Lists in key order

A list is `Ascending key` when the keys of its elements strictly increase.  Such a list is
a finite map from keys to elements: `lookup key k` finds the element at `k`, two ascending
lists with the same lookups are equal (`Ascending.ext`), and `mergeEdits` is the point
update of that map by a second ascending list of optional elements (`lookup_mergeEdits`).

`SortedMap` packs an ascending list of pairs with its proof; every update is a `mergeEdits`. -/

namespace KeyedList

variable {α β K V : Type} [LinearOrder K]

/-- The keys of the list strictly increase. -/
def Ascending (key : α → K) (l : List α) : Prop := l.Pairwise (fun a b => key a < key b)

instance (key : α → K) (l : List α) : Decidable (Ascending key l) :=
  inferInstanceAs (Decidable (l.Pairwise _))

/-- The first element with key `k`. -/
def lookup (key : α → K) (k : K) (l : List α) : Option α := l.find? (fun a => decide (key a = k))

section order
variable {key : α → K}

@[simp] theorem ascending_nil : Ascending key ([] : List α) := List.Pairwise.nil

@[simp] theorem ascending_singleton (a : α) : Ascending key [a] := List.pairwise_singleton _ a

theorem ascending_cons {a : α} {l : List α} :
    Ascending key (a :: l) ↔ (∀ b ∈ l, key a < key b) ∧ Ascending key l := List.pairwise_cons

theorem ascending_append {l l' : List α} :
    Ascending key (l ++ l') ↔
      Ascending key l ∧ Ascending key l' ∧ ∀ a ∈ l, ∀ b ∈ l', key a < key b :=
  List.pairwise_append

theorem Ascending.sublist {l l' : List α} (h : Ascending key l') (hs : l.Sublist l') :
    Ascending key l := List.Pairwise.sublist hs h

theorem Ascending.map {key' : β → K} {f : α → β} {l : List α} (hf : ∀ a ∈ l, key' (f a) = key a)
    (h : Ascending key l) : Ascending key' (l.map f) := by
  unfold Ascending at h ⊢
  rw [List.pairwise_map]
  refine h.imp_of_mem ?_
  intro a b ha hb hlt
  rw [hf a ha, hf b hb]
  exact hlt

theorem Ascending.filterMap {key' : β → K} {f : α → Option β} {l : List α}
    (hf : ∀ a ∈ l, ∀ b, f a = some b → key' b = key a) (h : Ascending key l) :
    Ascending key' (l.filterMap f) := by
  unfold Ascending at h ⊢
  rw [List.pairwise_filterMap]
  refine h.imp_of_mem ?_
  intro a b ha hb hlt x hx y hy
  rw [hf a ha x hx, hf b hb y hy]
  exact hlt

/-- Two elements of an ascending list with one key are the same element. -/
theorem Ascending.eq_of_key {l : List α} (h : Ascending key l) {a b : α} (ha : a ∈ l) (hb : b ∈ l)
    (hk : key a = key b) : a = b := by
  induction l with
  | nil => cases ha
  | cons c l ih =>
      rw [ascending_cons] at h
      rcases List.mem_cons.mp ha with rfl | ha' <;> rcases List.mem_cons.mp hb with rfl | hb'
      · rfl
      · exact absurd (h.1 b hb') (by rw [hk]; exact lt_irrefl _)
      · exact absurd (h.1 a ha') (by rw [← hk]; exact lt_irrefl _)
      · exact ih h.2 ha' hb'

/-- A list in key order has no duplicates. -/
theorem Ascending.nodup {l : List α} (h : Ascending key l) : l.Nodup :=
  h.imp (fun hlt heq => absurd hlt (by rw [heq]; exact lt_irrefl _))

end order

section lookups
variable {key : α → K}

@[simp] theorem lookup_nil (k : K) : lookup key k [] = none := rfl

theorem lookup_cons (k : K) (a : α) (l : List α) :
    lookup key k (a :: l) = if key a = k then some a else lookup key k l := by
  unfold lookup
  by_cases h : key a = k <;> simp [h]

theorem lookup_append (k : K) (l l' : List α) :
    lookup key k (l ++ l') = (lookup key k l).or (lookup key k l') := by
  unfold lookup
  rw [List.find?_append]

theorem mem_of_lookup {k : K} {l : List α} {a : α} (h : lookup key k l = some a) :
    a ∈ l ∧ key a = k :=
  ⟨List.mem_of_find?_eq_some h, by simpa using List.find?_some h⟩

theorem lookup_eq_none {k : K} {l : List α} :
    lookup key k l = none ↔ ∀ a ∈ l, key a ≠ k := by
  unfold lookup
  simp

theorem lookup_isSome {k : K} {l : List α} :
    (lookup key k l).isSome ↔ ∃ a ∈ l, key a = k := by
  unfold lookup
  simp

theorem Ascending.lookup_of_mem {l : List α} (h : Ascending key l) {a : α} (ha : a ∈ l) :
    lookup key (key a) l = some a := by
  cases hf : lookup key (key a) l with
  | none => exact absurd rfl (lookup_eq_none.mp hf a ha)
  | some b =>
      obtain ⟨hb, hk⟩ := mem_of_lookup hf
      rw [h.eq_of_key ha hb hk.symm]

/-- Looking up in an image, when the keys name the same elements. -/
theorem lookup_map {K' : Type} [LinearOrder K'] {key' : β → K'} {f : α → β} {k : K} {k' : K'}
    {l : List α} (h : ∀ a, key' (f a) = k' ↔ key a = k) :
    lookup key' k' (l.map f) = (lookup key k l).map f := by
  induction l with
  | nil => rfl
  | cons a l ih =>
      rw [List.map_cons, lookup_cons, lookup_cons, ih]
      by_cases ha : key a = k
      · rw [if_pos ha, if_pos ((h a).mpr ha)]; rfl
      · rw [if_neg ha, if_neg (fun hf => ha ((h a).mp hf))]

/-- Ascending lists are determined by their elements. -/
theorem Ascending.ext_mem {l l' : List α} (h : Ascending key l) (h' : Ascending key l')
    (hmem : ∀ a, a ∈ l ↔ a ∈ l') : l = l' := by
  induction l generalizing l' with
  | nil =>
      cases l' with
      | nil => rfl
      | cons b l' => exact absurd ((hmem b).mpr List.mem_cons_self) (by simp)
  | cons a l ih =>
      cases l' with
      | nil => exact absurd ((hmem a).mp List.mem_cons_self) (by simp)
      | cons b l' =>
          rw [ascending_cons] at h h'
          have hab : a = b := by
            rcases List.mem_cons.mp ((hmem a).mp List.mem_cons_self) with hab | ha
            · exact hab
            rcases List.mem_cons.mp ((hmem b).mpr List.mem_cons_self) with hba | hb
            · exact hba.symm
            exact absurd (h.1 b hb) (lt_asymm (h'.1 a ha))
          subst hab
          congr 1
          refine ih h.2 h'.2 (fun c => ⟨fun hc => ?_, fun hc => ?_⟩)
          · rcases List.mem_cons.mp ((hmem c).mp (List.mem_cons_of_mem _ hc)) with rfl | hc'
            · exact absurd (h.1 c hc) (lt_irrefl _)
            · exact hc'
          · rcases List.mem_cons.mp ((hmem c).mpr (List.mem_cons_of_mem _ hc)) with rfl | hc'
            · exact absurd (h'.1 c hc) (lt_irrefl _)
            · exact hc'

/-- Ascending lists are determined by their lookups. -/
theorem Ascending.ext {l l' : List α} (h : Ascending key l) (h' : Ascending key l')
    (hl : ∀ k, lookup key k l = lookup key k l') : l = l' := by
  refine h.ext_mem h' (fun a => ⟨fun ha => ?_, fun ha => ?_⟩)
  · exact (mem_of_lookup ((hl (key a)).symm.trans (h.lookup_of_mem ha))).1
  · exact (mem_of_lookup ((hl (key a)).trans (h'.lookup_of_mem ha))).1

end lookups

/-! ### Edits -/

/-- The edits up to the element `a`, then `a` itself unless the next edit replaces it; the
edits after `a` go on to `rest`. -/
def editsBefore (key : α → K) (a : α) (rest : List (K × Option α) → List α) :
    List (K × Option α) → List α
  | [] => a :: rest []
  | (k, e) :: edits =>
      if k < key a then e.toList ++ editsBefore key a rest edits
      else if k = key a then e.toList ++ rest edits
      else a :: rest ((k, e) :: edits)

/-- Replaces, inserts or removes the elements named by `edits`, walking both lists once. -/
def mergeEdits (key : α → K) : List α → List (K × Option α) → List α
  | [], edits => edits.filterMap Prod.snd
  | a :: rest, edits => editsBefore key a (mergeEdits key rest) edits

/-- Every replacement is filed under its own key. -/
def WellKeyed (key : α → K) (edits : List (K × Option α)) : Prop :=
  ∀ e ∈ edits, ∀ a, e.2 = some a → key a = e.1

section wellKeyed
omit [LinearOrder K]
variable {key : α → K}

theorem WellKeyed.sublist {es es' : List (K × Option α)} (h : WellKeyed key es')
    (hs : es.Sublist es') : WellKeyed key es := fun e he => h e (hs.subset he)

@[simp] theorem wellKeyed_nil : WellKeyed key ([] : List (K × Option α)) := by
  intro e he; cases he

theorem wellKeyed_cons {e : K × Option α} {es : List (K × Option α)} :
    WellKeyed key (e :: es) ↔ (∀ a, e.2 = some a → key a = e.1) ∧ WellKeyed key es := by
  simp [WellKeyed]

end wellKeyed

section edits
variable {key : α → K}

theorem mergeEdits_nil_left (es : List (K × Option α)) :
    mergeEdits key [] es = es.filterMap Prod.snd := rfl

/-- One step of the walk. -/
theorem mergeEdits_cons (a : α) (l : List α) (k : K) (e : Option α) (es : List (K × Option α)) :
    mergeEdits key (a :: l) ((k, e) :: es) =
      if k < key a then e.toList ++ mergeEdits key (a :: l) es
      else if k = key a then e.toList ++ mergeEdits key l es
      else a :: mergeEdits key l ((k, e) :: es) := rfl

@[simp] theorem mergeEdits_nil_right (l : List α) : mergeEdits key l [] = l := by
  induction l with
  | nil => rfl
  | cons a l ih => exact congrArg (a :: ·) ih

theorem mergeEdits_lt {a : α} {l : List α} {k : K} {e : Option α} {es : List (K × Option α)}
    (h : k < key a) :
    mergeEdits key (a :: l) ((k, e) :: es) = e.toList ++ mergeEdits key (a :: l) es := by
  rw [mergeEdits_cons, if_pos h]

theorem mergeEdits_eq {a : α} {l : List α} {e : Option α} {es : List (K × Option α)} :
    mergeEdits key (a :: l) ((key a, e) :: es) = e.toList ++ mergeEdits key l es := by
  rw [mergeEdits_cons, if_neg (lt_irrefl _), if_pos rfl]

theorem mergeEdits_gt {a : α} {l : List α} {k : K} {e : Option α} {es : List (K × Option α)}
    (h : key a < k) :
    mergeEdits key (a :: l) ((k, e) :: es) = a :: mergeEdits key l ((k, e) :: es) := by
  rw [mergeEdits_cons, if_neg (lt_asymm h), if_neg h.ne']

/-- Induction along the walk of `mergeEdits`. -/
theorem mergeEdits_induction (key : α → K) {P : List α → List (K × Option α) → Prop}
    (nil : ∀ es, P [] es) (done : ∀ a l, P l [] → P (a :: l) [])
    (lt : ∀ a l k e es, k < key a → P (a :: l) es → P (a :: l) ((k, e) :: es))
    (eq : ∀ a l e es, P l es → P (a :: l) ((key a, e) :: es))
    (gt : ∀ a l k e es, key a < k → P l ((k, e) :: es) → P (a :: l) ((k, e) :: es)) :
    ∀ l es, P l es := by
  intro l
  induction l with
  | nil => exact nil
  | cons a l ih =>
      intro es
      induction es with
      | nil => exact done a l (ih [])
      | cons e es ihe =>
          obtain ⟨k, e⟩ := e
          rcases lt_trichotomy k (key a) with h | rfl | h
          · exact lt a l k e es h ihe
          · exact eq a l e es (ih es)
          · exact gt a l k e es h (ih _)

/-- An element of the result is an old element or a replacement. -/
theorem mem_of_mem_mergeEdits {items : List α} {edits : List (K × Option α)} {a : α}
    (h : a ∈ mergeEdits key items edits) : a ∈ items ∨ ∃ k, (k, some a) ∈ edits := by
  revert h
  induction items, edits using mergeEdits_induction key with
  | nil es =>
      intro h
      obtain ⟨⟨k, e⟩, he, rfl⟩ := List.mem_filterMap.mp h
      exact Or.inr ⟨k, he⟩
  | done b l ih => simp
  | lt b l k e es hlt ih =>
      rw [mergeEdits_lt hlt, List.mem_append, Option.mem_toList]
      rintro (h | h)
      · exact Or.inr ⟨k, by rw [Option.mem_def.mp h]; exact List.mem_cons_self⟩
      · rcases ih h with h | ⟨k', h⟩
        · exact Or.inl h
        · exact Or.inr ⟨k', List.mem_cons_of_mem _ h⟩
  | eq b l e es ih =>
      rw [mergeEdits_eq, List.mem_append, Option.mem_toList]
      rintro (h | h)
      · exact Or.inr ⟨key b, by rw [Option.mem_def.mp h]; exact List.mem_cons_self⟩
      · rcases ih h with h | ⟨k', h⟩
        · exact Or.inl (List.mem_cons_of_mem _ h)
        · exact Or.inr ⟨k', List.mem_cons_of_mem _ h⟩
  | gt b l k e es hgt ih =>
      rw [mergeEdits_gt hgt, List.mem_cons]
      rintro (rfl | h)
      · exact Or.inl List.mem_cons_self
      · rcases ih h with h | h
        · exact Or.inl (List.mem_cons_of_mem _ h)
        · exact Or.inr h

/-- A lower bound of all keys in sight bounds the result. -/
theorem lt_key_mergeEdits {items : List α} {edits : List (K × Option α)} {k : K}
    (hi : ∀ a ∈ items, k < key a) (he : ∀ e ∈ edits, k < e.1) (hw : WellKeyed key edits) :
    ∀ a ∈ mergeEdits key items edits, k < key a := by
  intro a ha
  rcases mem_of_mem_mergeEdits ha with h | ⟨k', h⟩
  · exact hi a h
  · rw [hw _ h a rfl]
    exact he _ h

theorem ascending_toList_append {k : K} {e : Option α} {l : List α}
    (he : ∀ a, e = some a → key a = k) (hb : ∀ a ∈ l, k < key a) (hl : Ascending key l) :
    Ascending key (e.toList ++ l) := by
  cases e with
  | none => simpa using hl
  | some a =>
      rw [Option.toList_some, List.singleton_append, ascending_cons, he a rfl]
      exact ⟨hb, hl⟩

/-- Editing keeps the order. -/
theorem ascending_mergeEdits {items : List α} {edits : List (K × Option α)}
    (hi : Ascending key items) (he : Ascending Prod.fst edits) (hw : WellKeyed key edits) :
    Ascending key (mergeEdits key items edits) := by
  revert hi he hw
  induction items, edits using mergeEdits_induction key with
  | nil es =>
      intro _ he hw
      exact he.filterMap (fun e hmem a ha => hw e hmem a ha)
  | done a l ih => simp
  | lt a l k e es hlt ih =>
      intro hi he hw
      rw [ascending_cons] at he
      rw [wellKeyed_cons] at hw
      rw [mergeEdits_lt hlt]
      refine ascending_toList_append hw.1 ?_ (ih hi he.2 hw.2)
      refine lt_key_mergeEdits ?_ he.1 hw.2
      intro b hb
      rcases List.mem_cons.mp hb with rfl | hb
      · exact hlt
      · exact hlt.trans ((ascending_cons.mp hi).1 b hb)
  | eq a l e es ih =>
      intro hi he hw
      rw [ascending_cons] at hi he
      rw [wellKeyed_cons] at hw
      rw [mergeEdits_eq]
      exact ascending_toList_append hw.1 (lt_key_mergeEdits hi.1 he.1 hw.2) (ih hi.2 he.2 hw.2)
  | gt a l k e es hgt ih =>
      intro hi he hw
      rw [ascending_cons] at hi
      rw [mergeEdits_gt hgt, ascending_cons]
      refine ⟨lt_key_mergeEdits hi.1 ?_ hw, ih hi.2 he hw⟩
      intro e' he'
      rcases List.mem_cons.mp he' with rfl | he'
      · exact hgt
      · exact hgt.trans ((ascending_cons.mp he).1 e' he')

theorem lookup_eq_none_of_lt {k : K} {l : List α} (h : ∀ a ∈ l, k < key a) :
    lookup key k l = none := lookup_eq_none.mpr (fun a ha => (h a ha).ne')

theorem lookup_eq_none_of_gt {k : K} {l : List α} (h : ∀ a ∈ l, key a < k) :
    lookup key k l = none := lookup_eq_none.mpr (fun a ha => (h a ha).ne)

theorem lookup_toList_append {k k' : K} {e : Option α} {l : List α}
    (he : ∀ a, e = some a → key a = k) :
    lookup key k' (e.toList ++ l) = if k = k' then e.or (lookup key k' l) else lookup key k' l := by
  cases e with
  | none => simp
  | some a =>
      rw [Option.toList_some, List.singleton_append, lookup_cons, he a rfl]
      split <;> simp

/-- Editing is the point update of the finite map. -/
theorem lookup_mergeEdits {items : List α} {edits : List (K × Option α)}
    (hi : Ascending key items) (he : Ascending Prod.fst edits) (hw : WellKeyed key edits) (k' : K) :
    lookup key k' (mergeEdits key items edits) =
      match lookup Prod.fst k' edits with
      | some e => e.2
      | none => lookup key k' items := by
  revert hi he hw
  induction items, edits using mergeEdits_induction key with
  | nil es =>
      intro _ he hw
      rw [mergeEdits_nil_left]
      induction es with
      | nil => rfl
      | cons e es ih =>
          rw [ascending_cons] at he
          rw [wellKeyed_cons] at hw
          have hcons : (e :: es).filterMap Prod.snd = e.2.toList ++ es.filterMap Prod.snd := by
            cases h : e.2 <;> simp [h]
          rw [hcons, lookup_toList_append hw.1, ih he.2 hw.2, lookup_cons]
          by_cases h : e.1 = k'
          · have hn : lookup Prod.fst k' es = none := lookup_eq_none_of_lt (h ▸ he.1)
            simp [h, hn]
          · simp [h]
  | done a l ih => simp
  | lt a l k e es hlt ih =>
      intro hi he hw
      rw [ascending_cons] at he
      rw [wellKeyed_cons] at hw
      rw [mergeEdits_lt hlt, lookup_toList_append hw.1, ih hi he.2 hw.2, lookup_cons k' (k, e) es]
      by_cases h : k = k'
      · subst h
        have hn : lookup Prod.fst k es = none := lookup_eq_none_of_lt he.1
        have hn' : lookup key k (a :: l) = none := by
          refine lookup_eq_none_of_lt (fun b hb => ?_)
          rcases List.mem_cons.mp hb with rfl | hb
          · exact hlt
          · exact hlt.trans ((ascending_cons.mp hi).1 b hb)
        simp [hn, hn']
      · simp [h]
  | eq a l e es ih =>
      intro hi he hw
      rw [ascending_cons] at hi he
      rw [wellKeyed_cons] at hw
      rw [mergeEdits_eq, lookup_toList_append hw.1, ih hi.2 he.2 hw.2, lookup_cons, lookup_cons]
      by_cases h : key a = k'
      · subst h
        have hn : lookup Prod.fst (key a) es = none := lookup_eq_none_of_lt he.1
        have hn' : lookup key (key a) l = none := lookup_eq_none_of_lt hi.1
        simp [hn, hn']
      · simp [h]
  | gt a l k e es hgt ih =>
      intro hi he hw
      rw [ascending_cons] at hi
      rw [mergeEdits_gt hgt, lookup_cons, ih hi.2 he hw, lookup_cons (a := a)]
      by_cases h : key a = k'
      · have hn : lookup Prod.fst k' ((k, e) :: es) = none := by
          refine lookup_eq_none_of_lt (fun b hb => ?_)
          rcases List.mem_cons.mp hb with rfl | hb
          · exact h ▸ hgt
          · exact h ▸ hgt.trans ((ascending_cons.mp he).1 b hb)
        simp [h, hn]
      · simp [h]

/-- The lookup law that characterises the edited list. -/
theorem mergeEdits_eq_of_lookup {items items' : List α} {edits : List (K × Option α)}
    (hi : Ascending key items) (he : Ascending Prod.fst edits) (hw : WellKeyed key edits)
    (hi' : Ascending key items')
    (h : ∀ k, lookup key k items' =
      match lookup Prod.fst k edits with
      | some e => e.2
      | none => lookup key k items) :
    mergeEdits key items edits = items' :=
  (ascending_mergeEdits hi he hw).ext hi' (fun k => (lookup_mergeEdits hi he hw k).trans (h k).symm)

/-- Edits of a first part of the list leave the second part alone, and the other way round. -/
theorem mergeEdits_append {l l' : List α} {es es' : List (K × Option α)}
    (hl : ∀ a ∈ l, ∀ e ∈ es', key a < e.1) (he : ∀ e ∈ es, ∀ a ∈ l', e.1 < key a) :
    mergeEdits key (l ++ l') (es ++ es') = mergeEdits key l es ++ mergeEdits key l' es' := by
  revert hl he
  induction l, es using mergeEdits_induction key with
  | nil es =>
      intro _ he
      rw [mergeEdits_nil_left, List.nil_append]
      induction es with
      | nil => rfl
      | cons e es ih =>
          rw [List.forall_mem_cons] at he
          have hcons : (e :: es).filterMap Prod.snd = e.2.toList ++ es.filterMap Prod.snd := by
            cases h : e.2 <;> simp [h]
          rw [hcons, List.append_assoc, ← ih he.2, List.cons_append]
          cases l' with
          | nil => cases h : e.2 <;> simp [mergeEdits_nil_left, h]
          | cons a l' => exact mergeEdits_lt (he.1 a List.mem_cons_self)
  | done a l ih =>
      intro hl _
      rw [List.forall_mem_cons] at hl
      have hrec := ih hl.2 (by simp)
      simp only [List.nil_append, mergeEdits_nil_right, List.cons_append] at hrec ⊢
      rw [← hrec]
      cases es' with
      | nil => simp
      | cons e es' => exact mergeEdits_gt (hl.1 e List.mem_cons_self)
  | lt a l k e es hlt ih =>
      intro hl he
      rw [List.forall_mem_cons] at he
      rw [List.cons_append, List.cons_append, mergeEdits_lt hlt, mergeEdits_lt hlt,
        ← List.cons_append, ih hl he.2, List.append_assoc]
  | eq a l e es ih =>
      intro hl he
      rw [List.forall_mem_cons] at he hl
      rw [List.cons_append, List.cons_append, mergeEdits_eq, mergeEdits_eq, ih hl.2 he.2,
        List.append_assoc]
  | gt a l k e es hgt ih =>
      intro hl he
      rw [List.forall_mem_cons] at hl
      rw [List.cons_append, List.cons_append, mergeEdits_gt hgt, mergeEdits_gt hgt,
        ← List.cons_append, ih hl.2 he, List.cons_append]

/-- Edits past the first part of the list leave it alone. -/
theorem mergeEdits_append_left {l l' : List α} {es : List (K × Option α)}
    (hl : ∀ a ∈ l, ∀ e ∈ es, key a < e.1) :
    mergeEdits key (l ++ l') es = l ++ mergeEdits key l' es := by
  have h := @mergeEdits_append _ _ _ key l l' [] es hl (by simp)
  rwa [List.nil_append, mergeEdits_nil_right] at h

/-- What is left of an ascending list after its elements up to `b` lies past `b`. -/
theorem lt_of_mem_dropWhile {l : List α} (h : Ascending key l) {b : K} {a : α}
    (ha : a ∈ l.dropWhile (fun x => decide (key x ≤ b))) : b < key a := by
  induction l with
  | nil => cases ha
  | cons x l ih =>
      rw [ascending_cons] at h
      by_cases hx : key x ≤ b
      · rw [List.dropWhile_cons_of_pos (by simpa using hx)] at ha
        exact ih h.2 ha
      · rw [List.dropWhile_cons_of_neg (by simpa using hx)] at ha
        rw [not_le] at hx
        rcases List.mem_cons.mp ha with rfl | ha
        · exact hx
        · exact hx.trans (h.1 a ha)

end edits

/-! ### Joining two lists -/

/-- The elements of the second list before `a`, then `a` with its partner if it has one. -/
def joinBefore (key : α → K) (a : α) (rest : List α → List (Option α × Option α)) :
    List α → List (Option α × Option α)
  | [] => (some a, none) :: rest []
  | b :: r =>
      if key a = key b then (some a, some b) :: rest r
      else if key a < key b then (some a, none) :: rest (b :: r)
      else (none, some b) :: joinBefore key a rest r

/-- Pairs the elements of two lists by key, walking both once. -/
def outerJoin (key : α → K) : List α → List α → List (Option α × Option α)
  | [], r => r.map (fun b => (none, some b))
  | a :: l, r => joinBefore key a (outerJoin key l) r

section joins
variable {key : α → K}

theorem outerJoin_nil_left (r : List α) : outerJoin key [] r = r.map (fun b => (none, some b)) := rfl

/-- One step of the walk. -/
theorem outerJoin_cons (a b : α) (l r : List α) :
    outerJoin key (a :: l) (b :: r) =
      if key a = key b then (some a, some b) :: outerJoin key l r
      else if key a < key b then (some a, none) :: outerJoin key l (b :: r)
      else (none, some b) :: outerJoin key (a :: l) r := rfl

theorem outerJoin_nil_right (l : List α) : outerJoin key l [] = l.map (fun a => (some a, none)) := by
  induction l with
  | nil => rfl
  | cons a l ih => exact congrArg ((some a, none) :: ·) ih

theorem outerJoin_lt {a b : α} {l r : List α} (h : key a < key b) :
    outerJoin key (a :: l) (b :: r) = (some a, none) :: outerJoin key l (b :: r) := by
  rw [outerJoin_cons, if_neg h.ne, if_pos h]

theorem outerJoin_eq {a b : α} {l r : List α} (h : key a = key b) :
    outerJoin key (a :: l) (b :: r) = (some a, some b) :: outerJoin key l r := by
  rw [outerJoin_cons, if_pos h]

theorem outerJoin_gt {a b : α} {l r : List α} (h : key b < key a) :
    outerJoin key (a :: l) (b :: r) = (none, some b) :: outerJoin key (a :: l) r := by
  rw [outerJoin_cons, if_neg h.ne', if_neg (lt_asymm h)]

/-- What `ks` says about the join of `l` and `r`. -/
def JoinedOver (key : α → K) (ks : List K) (l r : List α) : Prop :=
  ks.Pairwise (· < ·) ∧ (∀ k ∈ ks, (lookup key k l).isSome ∨ (lookup key k r).isSome) ∧
    (∀ a ∈ l, key a ∈ ks) ∧ (∀ b ∈ r, key b ∈ ks) ∧
    outerJoin key l r = ks.map (fun k => (lookup key k l, lookup key k r))

theorem pairwise_map_key {l : List α} (h : Ascending key l) : (l.map key).Pairwise (· < ·) :=
  List.pairwise_map.mpr h

/-- The keys after a least key `k` can be read off the tails. -/
theorem map_lookup_tails {ks : List K} {k : K} {l l' r r' : List α} (hlt : ∀ x ∈ ks, k < x)
    (hl : ∀ x, k < x → lookup key x l = lookup key x l')
    (hr : ∀ x, k < x → lookup key x r = lookup key x r') :
    ks.map (fun x => (lookup key x l, lookup key x r)) =
      ks.map (fun x => (lookup key x l', lookup key x r')) := by
  refine List.map_congr_left (fun x hx => ?_)
  rw [hl x (hlt x hx), hr x (hlt x hx)]

theorem lookup_cons_of_lt {a : α} {l : List α} {x : K} (h : key a < x) :
    lookup key x (a :: l) = lookup key x l := by
  rw [lookup_cons, if_neg h.ne]

theorem lt_of_isSome {k x : K} {l : List α} (hl : ∀ c ∈ l, k < key c)
    (h : (lookup key x l).isSome) : k < x := by
  obtain ⟨c, hc, rfl⟩ := lookup_isSome.mp h
  exact hl c hc

theorem forall_lt_cons {k : K} {a : α} {l : List α} (h : k < key a) (hl : ∀ c ∈ l, key a < key c) :
    ∀ c ∈ a :: l, k < key c :=
  List.forall_mem_cons.mpr ⟨h, fun c hc => h.trans (hl c hc)⟩

/-- The join lists, in key order, what both lists hold under each key of either. -/
theorem exists_joinedOver {l r : List α} (hl : Ascending key l) (hr : Ascending key r) :
    ∃ ks, JoinedOver key ks l r := by
  induction l generalizing r with
  | nil =>
      refine ⟨r.map key, pairwise_map_key hr, ?_, by simp, ?_, ?_⟩
      · intro k hk
        obtain ⟨b, hb, rfl⟩ := List.mem_map.mp hk
        exact Or.inr (lookup_isSome.mpr ⟨b, hb, rfl⟩)
      · intro b hb
        exact List.mem_map_of_mem hb
      · rw [outerJoin_nil_left, List.map_map]
        refine List.map_congr_left (fun b hb => ?_)
        show _ = (lookup key (key b) [], lookup key (key b) r)
        rw [hr.lookup_of_mem hb]; rfl
  | cons a l ihl =>
      have hla := ascending_cons.mp hl
      induction r with
      | nil =>
          refine ⟨(a :: l).map key, pairwise_map_key hl, ?_, ?_, by simp, ?_⟩
          · intro k hk
            obtain ⟨b, hb, rfl⟩ := List.mem_map.mp hk
            exact Or.inl (lookup_isSome.mpr ⟨b, hb, rfl⟩)
          · intro b hb
            exact List.mem_map_of_mem hb
          · rw [outerJoin_nil_right, List.map_map]
            refine List.map_congr_left (fun b hb => ?_)
            show _ = (lookup key (key b) (a :: l), lookup key (key b) [])
            rw [hl.lookup_of_mem hb]; rfl
      | cons b r ihr =>
          have hrb := ascending_cons.mp hr
          rcases lt_trichotomy (key a) (key b) with h | h | h
          · obtain ⟨ks, hks, hsome, hml, hmr, hj⟩ := ihl hla.2 hr
            have hright := forall_lt_cons h hrb.1
            have hlt : ∀ x ∈ ks, key a < x := fun x hx =>
              (hsome x hx).elim (lt_of_isSome hla.1) (lt_of_isSome hright)
            refine ⟨key a :: ks, List.pairwise_cons.mpr ⟨hlt, hks⟩, ?_, ?_, ?_, ?_⟩
            · rw [List.forall_mem_cons]
              refine ⟨Or.inl (by simp [lookup_cons]), fun x hx => ?_⟩
              rw [lookup_cons_of_lt (hlt x hx)]
              exact hsome x hx
            · rw [List.forall_mem_cons]
              exact ⟨List.mem_cons_self, fun c hc => List.mem_cons_of_mem _ (hml c hc)⟩
            · exact fun c hc => List.mem_cons_of_mem _ (hmr c hc)
            · rw [outerJoin_lt h, hj, List.map_cons, lookup_eq_none_of_lt hright, lookup_cons, if_pos rfl]
              congr 1
              exact map_lookup_tails hlt (fun x hx => (lookup_cons_of_lt hx).symm) (fun _ _ => rfl)
          · obtain ⟨ks, hks, hsome, hml, hmr, hj⟩ := ihl hla.2 hrb.2
            have hlt : ∀ x ∈ ks, key a < x := fun x hx =>
              (hsome x hx).elim (lt_of_isSome hla.1) (lt_of_isSome (h ▸ hrb.1))
            refine ⟨key a :: ks, List.pairwise_cons.mpr ⟨hlt, hks⟩, ?_, ?_, ?_, ?_⟩
            · rw [List.forall_mem_cons]
              refine ⟨Or.inl (by simp [lookup_cons]), fun x hx => ?_⟩
              rw [lookup_cons_of_lt (hlt x hx), lookup_cons_of_lt (h ▸ hlt x hx)]
              exact hsome x hx
            · rw [List.forall_mem_cons]
              exact ⟨List.mem_cons_self, fun c hc => List.mem_cons_of_mem _ (hml c hc)⟩
            · rw [List.forall_mem_cons]
              exact ⟨h ▸ List.mem_cons_self, fun c hc => List.mem_cons_of_mem _ (hmr c hc)⟩
            · rw [outerJoin_eq h, hj, List.map_cons, lookup_cons, if_pos rfl, lookup_cons,
                if_pos h.symm]
              congr 1
              exact map_lookup_tails hlt (fun x hx => (lookup_cons_of_lt hx).symm)
                (fun x hx => (lookup_cons_of_lt (h ▸ hx)).symm)
          · obtain ⟨ks, hks, hsome, hml, hmr, hj⟩ := ihr hrb.2
            have hleft := forall_lt_cons h hla.1
            have hlt : ∀ x ∈ ks, key b < x := fun x hx =>
              (hsome x hx).elim (lt_of_isSome hleft) (lt_of_isSome hrb.1)
            refine ⟨key b :: ks, List.pairwise_cons.mpr ⟨hlt, hks⟩, ?_, ?_, ?_, ?_⟩
            · rw [List.forall_mem_cons]
              refine ⟨Or.inr (by simp [lookup_cons]), fun x hx => ?_⟩
              rw [lookup_cons_of_lt (a := b) (hlt x hx)]
              exact hsome x hx
            · exact fun c hc => List.mem_cons_of_mem _ (hml c hc)
            · rw [List.forall_mem_cons]
              exact ⟨List.mem_cons_self, fun c hc => List.mem_cons_of_mem _ (hmr c hc)⟩
            · rw [outerJoin_gt h, hj, List.map_cons, lookup_eq_none_of_lt hleft, lookup_cons, if_pos rfl]
              congr 1
              exact map_lookup_tails hlt (fun _ _ => rfl) (fun x hx => (lookup_cons_of_lt hx).symm)

end joins

/-! ### The first element at or past a bound -/

/-- The first element that `before` does not hold of, and whether it is the last one; failing
that, unless `after`, the last element. -/
def choose (before : α → Bool) (after : Bool) (l : List α) : Option (α × Bool) :=
  match l.dropWhile before with
  | x :: rest => some (x, rest.isEmpty)
  | [] => if after then none else l.getLast?.map (fun x => (x, true))

section choosing
omit [LinearOrder K]
variable {before : α → Bool} {after : Bool}

theorem choose_split {l pre post : List α} {x : α} (hl : l = pre ++ x :: post)
    (hpre : ∀ y ∈ pre, before y = true) (hx : before x = false) :
    choose before after l = some (x, post.isEmpty) := by
  unfold choose
  rw [hl, List.dropWhile_append_of_pos hpre, List.dropWhile_cons_of_neg (by simp [hx])]

theorem choose_past {l pre : List α} {x : α} (hl : l = pre ++ [x])
    (hall : ∀ y ∈ l, before y = true) :
    choose before after l = if after then none else some (x, true) := by
  have hdrop : l.dropWhile before = [] := by
    have h := @List.dropWhile_append_of_pos _ before l [] hall
    simpa using h
  unfold choose
  rw [hdrop, hl]
  simp

/-- Every nonempty list splits where `before` first fails, if it does. -/
theorem split_before (before : α → Bool) (l : List α) :
    (∀ y ∈ l, before y = true) ∨
      ∃ pre x post, l = pre ++ x :: post ∧ (∀ y ∈ pre, before y = true) ∧ before x = false := by
  induction l with
  | nil => exact Or.inl (by simp)
  | cons a l ih =>
      cases ha : before a with
      | false => exact Or.inr ⟨[], a, l, rfl, by simp, ha⟩
      | true =>
          rcases ih with h | ⟨pre, x, post, rfl, hpre, hx⟩
          · exact Or.inl (by simpa [ha] using h)
          · exact Or.inr ⟨a :: pre, x, post, rfl, by simpa [ha] using hpre, hx⟩

/-- The choice in a list of lists is the choice in the chosen list, when `P` tests the last
element of a list and `before` holds of a first part. -/
theorem choose_flatten {P : List α → Bool} {L : List (List α)}
    (hP : ∀ c ∈ L, ∀ x, c.getLast? = some x → P c = before x) (hne : ∀ c ∈ L, c ≠ [])
    (hmono : L.flatten.Pairwise (fun x y => before y = true → before x = true)) :
    choose before after L.flatten =
      (choose P after L).bind
        (fun c => (choose before after c.1).map (fun x => (x.1, c.2 && x.2))) := by
  have hlast : ∀ c ∈ L, ∃ init x, c = init ++ [x] ∧ P c = before x := by
    intro c hc
    obtain ⟨init, x, rfl⟩ := (List.eq_nil_or_concat c).resolve_left (hne c hc)
    rw [List.concat_eq_append] at hc ⊢
    exact ⟨init, x, rfl, hP _ hc x (by simp)⟩
  rcases split_before P L with hall | ⟨pre, c, post, rfl, hpre, hc⟩
  · have hflat : ∀ y ∈ L.flatten, before y = true := by
      intro y hy
      obtain ⟨c, hc, hyc⟩ := List.mem_flatten.mp hy
      obtain ⟨init, x, rfl, hx⟩ := hlast c hc
      rw [hall _ hc] at hx
      rcases List.mem_append.mp hyc with hyi | hyx
      · have hp := hmono.sublist (List.sublist_flatten_of_mem hc)
        exact (List.pairwise_append.mp hp).2.2 y hyi x (by simp) hx.symm
      · rw [List.mem_singleton.mp hyx]; exact hx.symm
    rcases List.eq_nil_or_concat L with rfl | ⟨Li, c, rfl⟩
    · simp [choose]
    · rw [List.concat_eq_append] at *
      obtain ⟨init, x, rfl, hx⟩ := hlast c (by simp)
      have hsplit : (Li ++ [init ++ [x]]).flatten = (Li.flatten ++ init) ++ [x] := by simp
      have h1 : choose before after (Li ++ [init ++ [x]]).flatten =
          if after then none else some (x, true) := choose_past hsplit hflat
      have h2 : choose P after (Li ++ [init ++ [x]]) =
          if after then none else some (init ++ [x], true) := choose_past rfl hall
      have h3 : choose before after (init ++ [x]) = if after then none else some (x, true) :=
        choose_past rfl (fun y hy => hflat y (List.mem_flatten.mpr ⟨_, by simp, hy⟩))
      rw [h1, h2]
      cases after with
      | true => rfl
      | false =>
          rw [if_neg (by simp), if_neg (by simp), Option.bind_some, h3]
          rfl
  · obtain ⟨init, x, hcx, hx⟩ := hlast c (by simp)
    have hbpre : ∀ y ∈ pre.flatten, before y = true := by
      intro y hy
      obtain ⟨d, hd, hyd⟩ := List.mem_flatten.mp hy
      obtain ⟨init', x', rfl, hx'⟩ := hlast d (by simp [hd])
      rw [hpre _ hd] at hx'
      rcases List.mem_append.mp hyd with hyi | hyx
      · have hp := hmono.sublist (List.sublist_flatten_of_mem (l := init' ++ [x']) (by simp [hd]))
        exact (List.pairwise_append.mp hp).2.2 y hyi x' (by simp) hx'.symm
      · rw [List.mem_singleton.mp hyx]; exact hx'.symm
    rcases split_before before c with hallc | ⟨ci, z, cp, hcz, hci, hz⟩
    · rw [hcx] at hallc
      rw [hc, hallc x (by simp)] at hx
      cases hx
    · have hsplit : (pre ++ c :: post).flatten = (pre.flatten ++ ci) ++ z :: (cp ++ post.flatten) := by
        simp [hcz]
      rw [choose_split rfl hpre hc, Option.bind_some, choose_split hcz hci hz]
      rw [choose_split hsplit ?_ hz]
      · have hpost : (cp ++ post.flatten).isEmpty = (post.isEmpty && cp.isEmpty) := by
          cases cp with
          | cons _ _ => simp
          | nil =>
              cases post with
              | nil => rfl
              | cons d post =>
                  have := hne d (by simp)
                  cases d with
                  | nil => exact absurd rfl this
                  | cons _ _ => simp
        simp [hpost]
      · intro y hy
        rcases List.mem_append.mp hy with hy | hy
        · exact hbpre y hy
        · exact hci y hy

theorem choose_eq_none {l : List α} :
    choose before after l = none ↔ l = [] ∨ (after = true ∧ ∀ y ∈ l, before y = true) := by
  rcases split_before before l with hall | ⟨pre, x, post, rfl, hpre, hx⟩
  · rcases List.eq_nil_or_concat l with rfl | ⟨init, x, rfl⟩
    · simp [choose]
    · rw [List.concat_eq_append] at *
      rw [choose_past rfl hall]
      cases after
      · simp
      · simpa using hall
  · rw [choose_split rfl hpre hx]
    constructor
    · intro h; cases h
    · rintro (h | ⟨_, h⟩)
      · simp at h
      · rw [h x (by simp)] at hx
        cases hx

theorem mem_of_choose {l : List α} {x : α} {b : Bool} (h : choose before after l = some (x, b)) :
    x ∈ l := by
  rcases split_before before l with hall | ⟨pre, y, post, rfl, hpre, hy⟩
  · rcases List.eq_nil_or_concat l with rfl | ⟨init, y, rfl⟩
    · simp [choose] at h
    · rw [List.concat_eq_append] at *
      rw [choose_past rfl hall] at h
      cases after
      · simp at h; simp [h.1]
      · simp at h
  · rw [choose_split rfl hpre hy] at h
    simp at h
    simp [h.1]

/-- With `after`, nothing before the bound is chosen. -/
theorem not_before_of_choose {l : List α} {x : α} {b : Bool}
    (h : choose before true l = some (x, b)) : before x = false := by
  rcases split_before before l with hall | ⟨pre, y, post, rfl, hpre, hy⟩
  · rw [choose_eq_none.mpr (Or.inr ⟨rfl, hall⟩)] at h
    cases h
  · rw [choose_split rfl hpre hy] at h
    simp at h
    rw [← h.1]
    exact hy

theorem choose_map {β : Type} {f : α → β} {p : β → Bool} (l : List α) :
    choose p after (l.map f) = (choose (fun a => p (f a)) after l).map (fun x => (f x.1, x.2)) := by
  unfold choose
  rw [List.dropWhile_map]
  have hcomp : (p ∘ f) = fun a => p (f a) := rfl
  rw [hcomp]
  cases l.dropWhile (fun a => p (f a)) with
  | nil =>
      cases after
      · simp [List.getLast?_map, Function.comp_def]
      · rfl
  | cons x rest => simp

end choosing

/-! ### Ordered maps -/

/-- A finite map kept as a list of pairs in key order. -/
structure SortedMap (K V : Type) [LinearOrder K] where
  toList : List (K × V)
  ascending : Ascending Prod.fst toList
deriving DecidableEq

namespace SortedMap

/-- The map with no entry. -/
def empty : SortedMap K V := ⟨[], ascending_nil⟩

instance : EmptyCollection (SortedMap K V) := ⟨empty⟩
instance : Inhabited (SortedMap K V) := ⟨empty⟩

/-- The value at `k`. -/
def get? (m : SortedMap K V) (k : K) : Option V := (lookup Prod.fst k m.toList).map Prod.snd

/-- The keys, ascending. -/
def keys (m : SortedMap K V) : List K := m.toList.map Prod.fst

/-- Sets or removes the value at one key. -/
def set (m : SortedMap K V) (k : K) (v : Option V) : SortedMap K V :=
  ⟨mergeEdits Prod.fst m.toList [(k, v.map (fun v => (k, v)))],
    ascending_mergeEdits m.ascending (ascending_singleton _) (by
      rw [wellKeyed_cons]
      refine ⟨fun a ha => ?_, wellKeyed_nil⟩
      obtain ⟨v, _, rfl⟩ := Option.map_eq_some_iff.mp ha
      rfl)⟩

/-- Sets the value at `k`. -/
def insert (m : SortedMap K V) (k : K) (v : V) : SortedMap K V := m.set k (some v)

/-- Removes the value at `k`. -/
def erase (m : SortedMap K V) (k : K) : SortedMap K V := m.set k none

/-- Later pairs win. -/
def ofList (l : List (K × V)) : SortedMap K V := l.foldl (fun m e => m.insert e.1 e.2) empty

@[simp] theorem get?_empty (k : K) : (empty : SortedMap K V).get? k = none := rfl

theorem get?_eq_some {m : SortedMap K V} {k : K} {v : V} :
    m.get? k = some v ↔ (k, v) ∈ m.toList := by
  unfold get?
  constructor
  · intro h
    obtain ⟨e, he, rfl⟩ := Option.map_eq_some_iff.mp h
    obtain ⟨hmem, rfl⟩ := mem_of_lookup he
    exact hmem
  · intro h
    rw [show k = Prod.fst (k, v) from rfl, m.ascending.lookup_of_mem h]
    rfl

theorem get?_eq_none {m : SortedMap K V} {k : K} : m.get? k = none ↔ k ∉ m.keys := by
  unfold get? keys
  rw [Option.map_eq_none_iff, lookup_eq_none]
  simp only [List.mem_map, not_exists, not_and]

theorem mem_keys {m : SortedMap K V} {k : K} : k ∈ m.keys ↔ (m.get? k).isSome := by
  rw [← not_iff_not, Bool.not_eq_true, Option.isSome_eq_false_iff, Option.isNone_iff_eq_none,
    get?_eq_none]

theorem ext {m m' : SortedMap K V} (h : ∀ k, m.get? k = m'.get? k) : m = m' := by
  obtain ⟨l, hl⟩ := m
  obtain ⟨l', hl'⟩ := m'
  have hmem : ∀ e, e ∈ l ↔ e ∈ l' := by
    rintro ⟨k, v⟩
    have := h k
    constructor
    · intro he
      exact get?_eq_some.mp (this.symm.trans (get?_eq_some (m := ⟨l, hl⟩).mpr he))
    · intro he
      exact get?_eq_some.mp (this.trans (get?_eq_some (m := ⟨l', hl'⟩).mpr he))
  obtain rfl := hl.ext_mem hl' hmem
  rfl

theorem get?_set (m : SortedMap K V) (k k' : K) (v : Option V) :
    (m.set k v).get? k' = if k = k' then v else m.get? k' := by
  unfold set get?
  rw [lookup_mergeEdits m.ascending (ascending_singleton _) (by
    rw [wellKeyed_cons]
    refine ⟨fun a ha => ?_, wellKeyed_nil⟩
    obtain ⟨v, _, rfl⟩ := Option.map_eq_some_iff.mp ha
    rfl), lookup_cons]
  by_cases h : k = k'
  · cases v <;> simp [h]
  · simp [h]

@[simp] theorem get?_insert (m : SortedMap K V) (k k' : K) (v : V) :
    (m.insert k v).get? k' = if k = k' then some v else m.get? k' := get?_set m k k' (some v)

@[simp] theorem get?_erase (m : SortedMap K V) (k k' : K) :
    (m.erase k).get? k' = if k = k' then none else m.get? k' := get?_set m k k' none

/-- A map made of pairs without repeated keys holds these pairs. -/
theorem get?_ofList {l : List (K × V)} (hn : (l.map Prod.fst).Nodup)
    (k : K) (v : V) : (ofList l).get? k = some v ↔ (k, v) ∈ l := by
  have key : ∀ (l : List (K × V)), (l.map Prod.fst).Nodup → ∀ m : SortedMap K V,
      (l.foldl (fun m e => m.insert e.1 e.2) m).get? k = some v ↔
        (k, v) ∈ l ∨ (k ∉ l.map Prod.fst ∧ m.get? k = some v) := by
    intro l
    induction l with
    | nil => simp
    | cons e l ih =>
        intro hn m
        rw [List.map_cons, List.nodup_cons] at hn
        rw [List.foldl_cons, ih hn.2, get?_insert, List.map_cons, List.mem_cons,
          List.mem_cons]
        by_cases he : e.1 = k
        · subst he
          have hnot : (e.1, v) ∉ l := fun hm => hn.1 (List.mem_map.mpr ⟨_, hm, rfl⟩)
          simp only [if_true, Option.some.injEq, hnot, false_or, hn.1, not_false_eq_true, true_and,
            or_false, not_true_eq_false, false_and, or_false]
          constructor
          · rintro rfl; rfl
          · intro h; rw [← h]
        · rw [if_neg he]
          have hne : (k, v) ≠ e := by
            rintro rfl
            exact he rfl
          simp [hne, Ne.symm he]
  have h := key l hn empty
  simpa [ofList] using h

/-- The keys of such a map are keys of the pairs. -/
theorem mem_keys_ofList {l : List (K × V)} {k : K} (h : k ∈ (ofList l).keys) : k ∈ l.map Prod.fst := by
  have key : ∀ (l : List (K × V)) (m : SortedMap K V),
      k ∈ (l.foldl (fun m e => m.insert e.1 e.2) m).keys → k ∈ l.map Prod.fst ∨ k ∈ m.keys := by
    intro l
    induction l with
    | nil => exact fun m h => Or.inr h
    | cons e l ih =>
        intro m hm
        rw [List.foldl_cons] at hm
        rw [List.map_cons, List.mem_cons]
        rcases ih _ hm with hl | hk
        · exact Or.inl (Or.inr hl)
        · rw [mem_keys, get?_insert] at hk
          by_cases he : e.1 = k
          · exact Or.inl (Or.inl he.symm)
          · rw [if_neg he, ← mem_keys] at hk
            exact Or.inr hk
  exact (key l empty h).resolve_right (by simp [keys, empty])

/-- Every key of the pairs is a key of such a map. -/
theorem mem_keys_ofList_of_mem {l : List (K × V)} {k : K} (h : k ∈ l.map Prod.fst) :
    k ∈ (ofList l).keys := by
  have key : ∀ (l : List (K × V)) (m : SortedMap K V), k ∈ l.map Prod.fst ∨ k ∈ m.keys →
      k ∈ (l.foldl (fun m e => m.insert e.1 e.2) m).keys := by
    intro l
    induction l with
    | nil =>
        intro m h
        exact h.resolve_left (by simp)
    | cons e l ih =>
        intro m h
        apply ih
        rw [mem_keys, get?_insert]
        by_cases he : e.1 = k
        · exact Or.inr (by rw [if_pos he]; rfl)
        · rw [if_neg he, ← mem_keys]
          rcases h with h | h
          · exact Or.inl ((List.mem_cons.mp h).resolve_left (Ne.symm he))
          · exact Or.inr h
  exact key l empty (Or.inl h)

/-- The last pair is the one with the largest key. -/
theorem getLast?_toList {m : SortedMap K V} {k : K} {v : V} :
    m.toList.getLast? = some (k, v) ↔ m.get? k = some v ∧ ∀ k' v', m.get? k' = some v' → k' ≤ k := by
  have hlast : ∀ e, m.toList.getLast? = some e →
      m.get? e.1 = some e.2 ∧ ∀ k' v', m.get? k' = some v' → k' ≤ e.1 := by
    intro e he
    obtain ⟨l, hl⟩ := List.getLast?_eq_some_iff.mp he
    have hasc := m.ascending
    rw [hl, ascending_append] at hasc
    refine ⟨get?_eq_some.mpr (by rw [hl]; simp), fun k' v' hget => ?_⟩
    have hm := get?_eq_some.mp hget
    rw [hl, List.mem_append, List.mem_singleton] at hm
    rcases hm with hm | rfl
    · exact (hasc.2.2 _ hm e List.mem_cons_self).le
    · exact le_refl _
  constructor
  · exact hlast (k, v)
  · rintro ⟨hget, hmax⟩
    have hne : m.toList ≠ [] := List.ne_nil_of_mem (get?_eq_some.mp hget)
    obtain ⟨⟨k', v'⟩, he⟩ : ∃ e, m.toList.getLast? = some e := ⟨_, List.getLast?_eq_some_getLast hne⟩
    obtain ⟨hget', hmax'⟩ := hlast _ he
    obtain rfl : k = k' := le_antisymm (hmax' k v hget) (hmax k' v' hget')
    obtain rfl := Option.some.inj (hget.symm.trans hget')
    exact he

theorem keys_nodup (m : SortedMap K V) : m.keys.Nodup := by
  unfold keys
  have h := m.ascending
  refine List.Pairwise.map Prod.fst (fun a b hlt => hlt.ne) h

end SortedMap

/-- A finite set kept in order. -/
abbrev SortedSet (K : Type) [LinearOrder K] := SortedMap K Unit

namespace SortedSet

instance : Membership K (SortedSet K) := ⟨fun s k => (s.get? k).isSome⟩

theorem mem_iff {s : SortedSet K} {k : K} : k ∈ s ↔ (s.get? k).isSome := Iff.rfl

instance (s : SortedSet K) (k : K) : Decidable (k ∈ s) := inferInstanceAs (Decidable ((s.get? k).isSome = true))

@[simp] theorem not_mem_empty (k : K) : k ∉ (SortedMap.empty : SortedSet K) := by
  rw [mem_iff, SortedMap.get?_empty]
  exact Bool.false_ne_true

theorem keys_eq_nil {s : SortedSet K} : s.keys = [] ↔ ∀ k, k ∉ s := by
  rw [List.eq_nil_iff_forall_not_mem]
  exact forall_congr' (fun k => not_congr SortedMap.mem_keys)

/-- Adds one element. -/
def add (s : SortedSet K) (k : K) : SortedSet K := SortedMap.insert s k ()

/-- Adds every element of a list. -/
def addAll (s : SortedSet K) (l : List K) : SortedSet K := l.foldl add s

@[simp] theorem mem_add {s : SortedSet K} {k k' : K} : k' ∈ s.add k ↔ k = k' ∨ k' ∈ s := by
  rw [mem_iff, mem_iff, add, SortedMap.get?_insert]
  split <;> simp_all

@[simp] theorem mem_addAll {s : SortedSet K} {l : List K} {k : K} :
    k ∈ s.addAll l ↔ k ∈ l ∨ k ∈ s := by
  induction l generalizing s with
  | nil => simp [addAll]
  | cons a l ih =>
      rw [addAll, List.foldl_cons, ← addAll, ih, mem_add, List.mem_cons]
      constructor
      · rintro (h | rfl | h)
        · exact Or.inl (Or.inr h)
        · exact Or.inl (Or.inl rfl)
        · exact Or.inr h
      · rintro ((rfl | h) | h)
        · exact Or.inr (Or.inl rfl)
        · exact Or.inl h
        · exact Or.inr (Or.inr h)

/-- Sets with the same elements are equal. -/
theorem ext {s s' : SortedSet K} (h : ∀ k, k ∈ s ↔ k ∈ s') : s = s' := by
  apply SortedMap.ext
  intro k
  have hk := h k
  rw [mem_iff, mem_iff] at hk
  cases hs : s.get? k <;> cases hs' : s'.get? k <;> simp_all

end SortedSet

end KeyedList
