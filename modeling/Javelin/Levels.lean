import Javelin.Trees

/-! # Levels of one directory

The canonical prolly tree of one directory is determined by its items: `levelItems items k` is
what level `k` lists, `levelChunks items k` is its cut, and the root is the only chunk of the
first level that has one chunk (`IsRoot`).  Every level is in name order, its chunks are well
formed, and the number of chunks never grows from one level to the next.  The root determines
the items (`IsRoot.items_eq`), since a chunk's items name its children by injective IDs. -/

namespace Javelin

open KeyedList

variable {Id : Type}

/-- The items of consecutive chunks. -/
def chunkItems (cs : List (Chunk Id)) : List (Item Id) := (cs.map Chunk.items).flatten

@[simp] theorem chunkItems_nil : chunkItems ([] : List (Chunk Id)) = [] := rfl

@[simp] theorem chunkItems_cons (c : Chunk Id) (cs : List (Chunk Id)) :
    chunkItems (c :: cs) = c.items ++ chunkItems cs := rfl

@[simp] theorem chunkItems_append (cs ds : List (Chunk Id)) :
    chunkItems (cs ++ ds) = chunkItems cs ++ chunkItems ds := by
  simp [chunkItems]

theorem mem_chunkItems {cs : List (Chunk Id)} {item : Item Id} :
    item ∈ chunkItems cs ↔ ∃ c ∈ cs, item ∈ c.items := by
  simp [chunkItems]

/-! ### Last names -/

theorem Chunk.last_eq {c : Chunk Id} {init : List (Item Id)} {x : Item Id}
    (h : c.items = init ++ [x]) : c.last = x.name := by
  unfold Chunk.last
  rw [h, List.getLast?_append]
  rfl

theorem Chunk.exists_last {c : Chunk Id} (h : c.items ≠ []) :
    ∃ init x, c.items = init ++ [x] ∧ c.last = x.name := by
  obtain ⟨init, x, hx⟩ := (List.eq_nil_or_concat c.items).resolve_left h
  rw [List.concat_eq_append] at hx
  exact ⟨init, x, hx, Chunk.last_eq hx⟩

theorem Chunk.name_le_last {c : Chunk Id} (ha : Ascending Item.name c.items) {x : Item Id}
    (hx : x ∈ c.items) : x.name ≤ c.last := by
  obtain ⟨init, y, hy, hl⟩ := Chunk.exists_last (List.ne_nil_of_mem hx)
  rw [hl]
  rw [hy] at ha hx
  rcases List.mem_append.mp hx with hx | hx
  · exact ((ascending_append.mp ha).2.2 x hx y (by simp)).le
  · rw [List.mem_singleton.mp hx]

theorem Chunk.exists_name_eq_last {c : Chunk Id} (h : c.items ≠ []) :
    ∃ x ∈ c.items, x.name = c.last := by
  obtain ⟨init, x, hx, hl⟩ := Chunk.exists_last h
  exact ⟨x, by rw [hx]; simp, hl.symm⟩

/-- Consecutive nonempty chunks in name order. -/
structure Run (cs : List (Chunk Id)) : Prop where
  ne_nil : ∀ c ∈ cs, c.items ≠ []
  ascending : Ascending Item.name (chunkItems cs)

namespace Run
variable {cs ds : List (Chunk Id)} {c : Chunk Id}

theorem of_append_left (h : Run (cs ++ ds)) : Run cs := by
  refine ⟨fun c hc => h.ne_nil c (List.mem_append_left _ hc), ?_⟩
  have ha := h.ascending
  rw [chunkItems_append, ascending_append] at ha
  exact ha.1

theorem of_append_right (h : Run (cs ++ ds)) : Run ds := by
  refine ⟨fun c hc => h.ne_nil c (List.mem_append_right _ hc), ?_⟩
  have ha := h.ascending
  rw [chunkItems_append, ascending_append] at ha
  exact ha.2.1

theorem items (h : Run cs) (hc : c ∈ cs) : Ascending Item.name c.items := by
  obtain ⟨s, t, rfl⟩ := List.append_of_mem hc
  have ha := h.of_append_right.ascending
  rw [chunkItems_cons, ascending_append] at ha
  exact ha.1

/-- Names of later chunks are past the last name of earlier ones. -/
theorem last_lt (h : Run (cs ++ ds)) (hc : c ∈ cs) {x : Item Id} (hx : x ∈ chunkItems ds) :
    c.last < x.name := by
  obtain ⟨y, hy, hl⟩ := Chunk.exists_name_eq_last (h.ne_nil c (List.mem_append_left _ hc))
  have ha := h.ascending
  rw [chunkItems_append, ascending_append] at ha
  rw [← hl]
  exact ha.2.2 y (mem_chunkItems.mpr ⟨c, hc, hy⟩) x hx

theorem last_lt_last (h : Run (cs ++ ds)) (hc : c ∈ cs) {d : Chunk Id} (hd : d ∈ ds) :
    c.last < d.last := by
  obtain ⟨y, hy, hl⟩ := Chunk.exists_name_eq_last (h.ne_nil d (List.mem_append_right _ hd))
  rw [← hl]
  exact h.last_lt hc (mem_chunkItems.mpr ⟨d, hd, hy⟩)

theorem ascending_last (h : Run cs) : Ascending Chunk.last cs := by
  induction cs with
  | nil => exact ascending_nil
  | cons c cs ih =>
      have h' : Run ([c] ++ cs) := h
      rw [ascending_cons]
      refine ⟨fun d hd => ?_, ih h'.of_append_right⟩
      exact h'.last_lt_last (by simp) hd

theorem nodup (h : Run cs) : cs.Nodup := h.ascending_last.nodup

end Run

/-! ### Cutting one level -/

section hashing
variable [Hashing Id]

/-- The chunks of a complete level. -/
def cutLevel (level : ℕ) (items : List (Item Id)) : List (Chunk Id) :=
  (Cutting.cut (chunkEnds level) items).map (Chunk.mk level)

/-- The item that names a chunk one level up. -/
def Chunk.item (c : Chunk Id) : Item Id := ⟨c.last, .child, c.id⟩

@[simp] theorem Chunk.name_item (c : Chunk Id) : c.item.name = c.last := rfl

theorem Chunk.item_injective : Function.Injective (Chunk.item : Chunk Id → Item Id) := by
  intro c d h
  exact Chunk.id_inj.mp (congrArg Item.id h)

theorem mem_cutLevel {level : ℕ} {items : List (Item Id)} {c : Chunk Id} :
    c ∈ cutLevel level items ↔ c.level = level ∧ c.items ∈ Cutting.cut (chunkEnds level) items := by
  unfold cutLevel
  rw [List.mem_map]
  constructor
  · rintro ⟨p, hp, rfl⟩
    exact ⟨rfl, hp⟩
  · rintro ⟨rfl, hp⟩
    exact ⟨c.items, hp, rfl⟩

@[simp] theorem chunkItems_cutLevel (level : ℕ) (items : List (Item Id)) :
    chunkItems (cutLevel level items) = items := by
  unfold chunkItems cutLevel
  rw [List.map_map]
  show ((Cutting.cut (chunkEnds level) items).map id).flatten = items
  rw [List.map_id, Cutting.flatten_cut]

theorem cutLevel_eq_nil {level : ℕ} {items : List (Item Id)} :
    cutLevel level items = [] ↔ items = [] := by
  unfold cutLevel
  rw [List.map_eq_nil_iff, Cutting.cut_eq_nil]

theorem run_cutLevel {level : ℕ} {items : List (Item Id)} (h : Ascending Item.name items) :
    Run (cutLevel level items) := by
  refine ⟨fun c hc => Cutting.cut_ne_nil (mem_cutLevel.mp hc).2, ?_⟩
  rw [chunkItems_cutLevel]
  exact h

theorem length_cutLevel_le (level : ℕ) (items : List (Item Id)) :
    (cutLevel level items).length ≤ items.length := by
  unfold cutLevel
  rw [List.length_map]
  exact Cutting.length_cut_le items

theorem length_cutLevel_halves (level : ℕ) (items : List (Item Id)) :
    2 * (cutLevel level items).length ≤ items.length + 1 := by
  unfold cutLevel
  rw [List.length_map]
  exact Cutting.length_cut_halves (chunkEnds_nil level) items

/-- What the chunker returns for a complete level. -/
theorem pushAll_new (level : ℕ) (items : List (Item Id)) :
    ((Chunker.new level).pushAll items).1 ++ ((Chunker.new level).pushAll items).2.finish.toList =
      cutLevel level items := by
  have h := pushAll_eq level [] items
  rw [show chunkerOf level ([] : List (Item Id)) = Chunker.new level from rfl] at h
  rw [h, finish_chunkerOf]
  unfold cutLevel Cutting.cut
  rw [List.map_append]

/-- An open chunk is smaller than `FORCE`. -/
theorem size_lt_of_open {level : ℕ} {p : List (Item Id)} (hb : ∀ item ∈ p, item.name.1.length ≤ MAX_PATH)
    (h : Cutting.feed (chunkEnds level) [] p = ([], p)) : (p.map Item.len).sum < FORCE := by
  rcases List.eq_nil_or_concat p with rfl | ⟨init, x, rfl⟩
  · show 0 < FORCE
    decide
  rw [List.concat_eq_append] at h hb ⊢
  have he := Cutting.ends_of_open h
  unfold chunkEnds at he
  cases init with
  | nil =>
      have hx := hb x (by simp)
      have hl : x.len = ITEM + x.name.1.length := rfl
      have h1 : ITEM = 35 := rfl
      have h2 : MAX_PATH = 4096 := rfl
      have h3 : FORCE = 65536 := rfl
      simp only [List.nil_append, List.map_cons, List.map_nil, List.sum_cons, List.sum_nil]
      omega
  | cons a init =>
      simp only [List.isEmpty_cons, Bool.not_false, Bool.true_and, Bool.or_eq_false_iff,
        decide_eq_false_iff_not, not_le] at he
      rw [List.map_append, List.sum_append]
      simpa using he.1

theorem size_le_of_mem_cutLevel {level : ℕ} {items : List (Item Id)} {c : Chunk Id}
    (hb : ∀ item ∈ items, item.name.1.length ≤ MAX_PATH) (hc : c ∈ cutLevel level items) :
    c.size ≤ MAX_CHUNK := by
  obtain ⟨_, hp⟩ := mem_cutLevel.mp hc
  obtain ⟨init, x, hx, _⟩ := Chunk.exists_last (Cutting.cut_ne_nil hp)
  have hmem : ∀ item ∈ c.items, item ∈ items := by
    intro item hi
    rw [← chunkItems_cutLevel level items]
    exact mem_chunkItems.mpr ⟨c, hc, hi⟩
  rw [hx] at hp hmem
  have hopen := Cutting.open_init_of_mem_cut hp
  have hsize := size_lt_of_open (fun i hi => hb i (hmem i (List.mem_append_left _ hi))) hopen
  have hxb := hb x (hmem x (by simp))
  have hl : x.len = ITEM + x.name.1.length := rfl
  unfold Chunk.size MAX_CHUNK
  rw [hx, List.map_append, List.sum_append]
  simp only [List.map_cons, List.map_nil, List.sum_cons, List.sum_nil]
  omega

/-! ### All levels -/

/-- What level `k` lists. -/
def levelItems (items : List (Item Id)) : ℕ → List (Item Id)
  | 0 => items
  | k + 1 => (cutLevel k (levelItems items k)).map Chunk.item

/-- The chunks of level `k`. -/
def levelChunks (items : List (Item Id)) (k : ℕ) : List (Chunk Id) :=
  cutLevel k (levelItems items k)

theorem levelItems_zero (items : List (Item Id)) : levelItems items 0 = items := rfl

theorem levelItems_succ (items : List (Item Id)) (k : ℕ) :
    levelItems items (k + 1) = (levelChunks items k).map Chunk.item := rfl

/-- Items a directory can list: in name order, tagged as leaves, with bounded names. -/
structure Clean (items : List (Item Id)) : Prop where
  ascending : Ascending Item.name items
  tags : ∀ item ∈ items, item.tag ≠ .child
  names : ∀ item ∈ items, item.name.1.length ≤ MAX_PATH

section levels
variable {items : List (Item Id)}

theorem ascending_map_item {cs : List (Chunk Id)} (h : Run cs) :
    Ascending Item.name (cs.map Chunk.item) :=
  h.ascending_last.map (fun _ _ => rfl)

theorem ascending_levelItems (h : Ascending Item.name items) (k : ℕ) :
    Ascending Item.name (levelItems items k) := by
  induction k with
  | zero => exact h
  | succ k ih => exact ascending_map_item (run_cutLevel ih)

theorem run_levelChunks (h : Ascending Item.name items) (k : ℕ) : Run (levelChunks items k) :=
  run_cutLevel (ascending_levelItems h k)

theorem level_of_mem {k : ℕ} {c : Chunk Id} (h : c ∈ levelChunks items k) : c.level = k :=
  (mem_cutLevel.mp h).1

theorem items_ne_nil_of_mem {k : ℕ} {c : Chunk Id} (h : c ∈ levelChunks items k) : c.items ≠ [] :=
  Cutting.cut_ne_nil (mem_cutLevel.mp h).2

theorem mem_levelItems_of_mem {k : ℕ} {c : Chunk Id} {item : Item Id}
    (h : c ∈ levelChunks items k) (hi : item ∈ c.items) : item ∈ levelItems items k := by
  rw [← chunkItems_cutLevel k (levelItems items k)]
  exact mem_chunkItems.mpr ⟨c, h, hi⟩

/-- An item above the leaves names a chunk of the level below. -/
theorem exists_child {k : ℕ} {item : Item Id} (h : item ∈ levelItems items (k + 1)) :
    ∃ d ∈ levelChunks items k, d.item = item := List.mem_map.mp h

theorem names_levelItems (h : Clean items) (k : ℕ) :
    ∀ item ∈ levelItems items k, item.name.1.length ≤ MAX_PATH := by
  induction k with
  | zero => exact h.names
  | succ k ih =>
      intro item hi
      obtain ⟨d, hd, rfl⟩ := exists_child hi
      obtain ⟨x, hx, hl⟩ := Chunk.exists_name_eq_last (items_ne_nil_of_mem hd)
      rw [Chunk.name_item, ← hl]
      exact ih x (mem_levelItems_of_mem hd hx)

theorem tags_levelItems (h : Clean items) (k : ℕ) :
    ∀ item ∈ levelItems items k, k = 0 ↔ item.tag ≠ .child := by
  cases k with
  | zero =>
      intro item hi
      exact ⟨fun _ => h.tags item hi, fun _ => rfl⟩
  | succ k =>
      intro item hi
      obtain ⟨d, _, rfl⟩ := exists_child hi
      simp [Chunk.item]

/-- Chunks of a canonical level pass the decoder. -/
theorem wellFormed_of_mem (h : Clean items) {k : ℕ} (hk : k ≤ MAX_LEVEL) {c : Chunk Id}
    (hc : c ∈ levelChunks items k) : c.WellFormed where
  size := size_le_of_mem_cutLevel (names_levelItems h k) hc
  level := (level_of_mem hc).trans_le hk
  ascending := (run_levelChunks h.ascending k).items hc
  tags := by
    intro item hi
    rw [level_of_mem hc]
    exact tags_levelItems h k item (mem_levelItems_of_mem hc hi)
  nonempty := fun _ => items_ne_nil_of_mem hc

theorem levelItems_eq_nil {k : ℕ} : levelItems items k = [] ↔ items = [] := by
  induction k with
  | zero => rfl
  | succ k ih =>
      rw [levelItems_succ, List.map_eq_nil_iff, levelChunks, cutLevel_eq_nil, ih]

theorem levelChunks_eq_nil {k : ℕ} : levelChunks items k = [] ↔ items = [] := by
  rw [levelChunks, cutLevel_eq_nil, levelItems_eq_nil]

theorem levelItems_nil (k : ℕ) : levelItems ([] : List (Item Id)) k = [] := levelItems_eq_nil.mpr rfl

theorem length_levelItems_succ (items : List (Item Id)) (k : ℕ) :
    (levelItems items (k + 1)).length = (levelChunks items k).length := by
  rw [levelItems_succ, List.length_map]

@[simp] theorem chunkItems_levelChunks (items : List (Item Id)) (k : ℕ) :
    chunkItems (levelChunks items k) = levelItems items k := chunkItems_cutLevel _ _

/-- The only chunk of a level has all its items. -/
theorem items_of_only {k : ℕ} {c : Chunk Id} (h : levelChunks items k = [c]) :
    c.items = levelItems items k := by
  rw [← chunkItems_levelChunks, h]
  simp

theorem length_levelChunks_anti (items : List (Item Id)) {j k : ℕ} (h : j ≤ k) :
    (levelChunks items k).length ≤ (levelChunks items j).length := by
  induction k, h using Nat.le_induction with
  | base => exact le_refl _
  | succ k _ ih =>
      have hstep := length_cutLevel_le (k + 1) (levelItems items (k + 1))
      rw [length_levelItems_succ] at hstep
      exact hstep.trans ih

/-- Equal levels have equal levels below. -/
theorem levelItems_inj {items' : List (Item Id)} {k : ℕ}
    (h : levelItems items k = levelItems items' k) : items = items' := by
  induction k with
  | zero => exact h
  | succ k ih =>
      rw [levelItems_succ, levelItems_succ] at h
      have hc := List.map_injective_iff.mpr (@Chunk.item_injective Id _) h
      refine ih ?_
      rw [← chunkItems_cutLevel k (levelItems items k), ← chunkItems_cutLevel k (levelItems items' k)]
      exact congrArg chunkItems hc

/-! ### The root -/

/-- `c` is the root of the directory with these items, at the first level with one chunk. -/
structure IsRoot (items : List (Item Id)) (h : ℕ) (c : Chunk Id) : Prop where
  only : levelChunks items h = [c]
  first : ∀ k < h, 1 < (levelChunks items k).length

namespace IsRoot
variable {h h' : ℕ} {c c' : Chunk Id}

theorem mem (hr : IsRoot items h c) : c ∈ levelChunks items h := by
  rw [hr.only]; simp

theorem level (hr : IsRoot items h c) : c.level = h := level_of_mem hr.mem

theorem items_eq_levelItems (hr : IsRoot items h c) : c.items = levelItems items h :=
  items_of_only hr.only

theorem ne_nil (hr : IsRoot items h c) : items ≠ [] := by
  intro hnil
  have hmem := hr.mem
  rw [levelChunks_eq_nil.mpr hnil] at hmem
  cases hmem

/-- The root chunk determines the directory. -/
theorem items_eq {items' : List (Item Id)} (hr : IsRoot items h c) (hr' : IsRoot items' h' c) :
    items = items' := by
  obtain rfl : h = h' := hr.level.symm.trans hr'.level
  exact levelItems_inj (hr.items_eq_levelItems.symm.trans hr'.items_eq_levelItems)

/-- The directory determines the root chunk. -/
theorem unique (hr : IsRoot items h c) (hr' : IsRoot items h' c') : h = h' ∧ c = c' := by
  have hle : ∀ {a b : ℕ} {d e : Chunk Id}, IsRoot items a d → IsRoot items b e → a ≤ b := by
    intro a b d e ha hb
    by_contra hlt
    have := ha.first b (not_le.mp hlt)
    rw [hb.only] at this
    simp at this
  obtain rfl := le_antisymm (hle hr hr') (hle hr' hr)
  refine ⟨rfl, ?_⟩
  have := hr.only.symm.trans hr'.only
  simpa using this

end IsRoot

/-- A level with one chunk of several items, or of leaves, is the root. -/
theorem isRoot_of_only {k : ℕ} {c : Chunk Id} (h : levelChunks items k = [c])
    (h0 : k = 0 ∨ 1 < c.items.length) : IsRoot items k c := by
  refine ⟨h, fun j hj => ?_⟩
  have hk : 1 < c.items.length := h0.resolve_left (by omega)
  have hitems := items_of_only h
  obtain ⟨m, rfl⟩ : ∃ m, k = m + 1 := ⟨k - 1, by omega⟩
  rw [hitems, length_levelItems_succ] at hk
  have := length_levelChunks_anti items (show j ≤ m by omega)
  omega

end levels

end hashing

end Javelin
