import Javelin.Build
import Mathlib.Data.List.TakeWhile

/-! # Updating one directory

`updateLevel` re-cuts a level only around its edits.  One run (`recut`) starts at the chunk an
edit falls in and goes on until a new boundary meets an old one; what it re-cut is the cut of the
edited items there, because the chunks before it end at boundaries and nothing is open after it
(`post_recut`).  So the
invariant from level to level is `mergeEdits (levelItems old k) edits = levelItems new k`, and
`update` ends at the canonical root of the edited directory (`post_update`). -/

namespace Javelin

open KeyedList

variable {σ Id : Type} [DecidableEq Id] [Hashing Id] [Store σ Id]

/-- Edits in name order, each under its own name. -/
structure Edited (edits : Edits Id) : Prop where
  ascending : Ascending Prod.fst edits
  wellKeyed : WellKeyed Item.name edits

omit [DecidableEq Id] [Hashing Id] in
theorem Edited.sublist {edits edits' : Edits Id} (h : Edited edits') (hs : edits.Sublist edits') :
    Edited edits := ⟨h.ascending.sublist hs, h.wellKeyed.sublist hs⟩

section levels
omit [DecidableEq Id]

/-- All chunks of a level but the last end at boundaries. -/
theorem closed_of_split {items : List (Item Id)} {k : ℕ} {pre post : List (Chunk Id)} {c : Chunk Id}
    (h : cutLevel k items = pre ++ c :: post) :
    ∀ d ∈ pre, Cutting.Closed (chunkEnds k) d.items := by
  have hp := @Cutting.piecesOf_cut _ (chunkEnds k) items
  have hmap : Cutting.cut (chunkEnds k) items = (pre ++ c :: post).map Chunk.items := by
    rw [← h]
    unfold cutLevel
    rw [List.map_map]
    exact (List.map_id _).symm
  rw [hmap] at hp
  intro d hd
  obtain ⟨s, u, rfl⟩ := List.append_of_mem hd
  simp only [List.append_assoc, List.cons_append, List.map_append, List.map_cons] at hp
  cases u with
  | nil => exact hp.closed_of_append
  | cons e u => exact hp.closed_of_append

/-- The last chunks of a level are the cut of their items. -/
theorem cutLevel_suffix {items : List (Item Id)} {k : ℕ} {pre post : List (Chunk Id)}
    (h : levelChunks items k = pre ++ post) : cutLevel k (chunkItems post) = post := by
  have hp := @Cutting.piecesOf_cut _ (chunkEnds k) (levelItems items k)
  have hmap : Cutting.cut (chunkEnds k) (levelItems items k) = (pre ++ post).map Chunk.items := by
    rw [← h]
    unfold levelChunks cutLevel
    rw [List.map_map]
    exact (List.map_id _).symm
  rw [hmap, List.map_append] at hp
  unfold cutLevel chunkItems
  rw [hp.of_append.cut_flatten, List.map_map]
  have hlevel : ∀ c ∈ post, (Chunk.mk k ∘ Chunk.items) c = c := by
    intro c hc
    have hk : c.level = k := level_of_mem (h ▸ List.mem_append_right _ hc)
    show Chunk.mk k c.items = c
    rw [← hk]
  rw [List.map_congr_left hlevel, List.map_id']

end levels

/-! ### The edits handed up -/

/-- The map `out` turns the summaries of `old` into those of `new`. -/
def Replaces (old new : List (Chunk Id)) (out : SortedMap Name (Option (Item Id))) : Prop :=
  ∀ n, KeyedList.lookup Item.name n (new.map Chunk.item) =
    match out.get? n with
    | some e => e
    | none => KeyedList.lookup Item.name n (old.map Chunk.item)

/-- Neither the new chunks nor the map go beyond the old chunks. -/
structure Within (old new : List (Chunk Id)) (out : SortedMap Name (Option (Item Id))) : Prop where
  chunks : ∀ d ∈ new, ∃ c ∈ old, d.last ≤ c.last
  keys : ∀ n, out.get? n ≠ none → ∃ c ∈ old, n ≤ c.last

section replaces
variable {old new old' new' : List (Chunk Id)} {out out' : SortedMap Name (Option (Item Id))}
omit [DecidableEq Id]

theorem replaces_nil : Replaces ([] : List (Chunk Id)) [] SortedMap.empty := fun _ => rfl

theorem lookup_map_item_eq_none {cs : List (Chunk Id)} {n : Name} :
    KeyedList.lookup Item.name n (cs.map Chunk.item) = none ↔ ∀ c ∈ cs, c.last ≠ n := by
  rw [lookup_eq_none]
  simp

/-- One run replaces the chunks `old'`, which come after `old`, by `new'`. -/
theorem Replaces.append (h : Replaces old new out) (hw : Within old new out)
    (hold : ∀ c ∈ old, ∀ d ∈ old', c.last < d.last) (hnew : ∀ c ∈ old, ∀ d ∈ new', c.last < d.last)
    (hout : ∀ n, out'.get? n =
      if (∃ d ∈ new', d.last = n) then some (KeyedList.lookup Item.name n (new'.map Chunk.item))
      else if (∃ d ∈ old', d.last = n) then some none else out.get? n) :
    Replaces (old ++ old') (new ++ new') out' := by
  intro n
  rw [List.map_append, List.map_append, lookup_append, lookup_append, hout]
  have hnewNone : (∀ c ∈ old, c.last < n) →
      KeyedList.lookup Item.name n (new.map Chunk.item) = none := by
    intro hlt
    rw [lookup_map_item_eq_none]
    rintro d hd rfl
    obtain ⟨c, hc, hle⟩ := hw.chunks d hd
    exact absurd (hlt c hc) (not_lt.mpr hle)
  by_cases h1 : ∃ d ∈ new', d.last = n
  · rw [if_pos h1]
    obtain ⟨d, hd, rfl⟩ := h1
    rw [hnewNone (fun c hc => hnew c hc d hd), Option.none_or]
  · rw [if_neg h1]
    have hn' : KeyedList.lookup Item.name n (new'.map Chunk.item) = none :=
      lookup_map_item_eq_none.mpr (fun d hd heq => h1 ⟨d, hd, heq⟩)
    rw [hn', Option.or_none]
    by_cases h2 : ∃ d ∈ old', d.last = n
    · rw [if_pos h2]
      obtain ⟨d, hd, rfl⟩ := h2
      exact hnewNone (fun c hc => hold c hc d hd)
    · rw [if_neg h2]
      have ho' : KeyedList.lookup Item.name n (old'.map Chunk.item) = none :=
        lookup_map_item_eq_none.mpr (fun d hd heq => h2 ⟨d, hd, heq⟩)
      rw [ho', Option.or_none]
      exact h n

/-- Chunks no run touches stay. -/
theorem Replaces.skip (h : Replaces old new out) (hw : Within old new out)
    (hold : ∀ c ∈ old, ∀ d ∈ old', c.last < d.last) :
    Replaces (old ++ old') (new ++ old') out := by
  intro n
  rw [List.map_append, List.map_append, lookup_append, lookup_append, h n]
  cases ho : out.get? n with
  | none => rfl
  | some e =>
      have hn : KeyedList.lookup Item.name n (old'.map Chunk.item) = none := by
        rw [lookup_map_item_eq_none]
        rintro d hd rfl
        obtain ⟨c, hc, hle⟩ := hw.keys d.last (by rw [ho]; simp)
        exact absurd (hold c hc d hd) (not_lt.mpr hle)
      rw [hn, Option.or_none]

omit [Hashing Id] in
theorem Within.skip (hw : Within old new out) : Within (old ++ old') (new ++ old') out where
  chunks := by
    intro d hd
    rcases List.mem_append.mp hd with hd | hd
    · obtain ⟨c, hc, hle⟩ := hw.chunks d hd
      exact ⟨c, List.mem_append_left _ hc, hle⟩
    · exact ⟨d, List.mem_append_right _ hd, le_refl _⟩
  keys := by
    intro n hn
    obtain ⟨c, hc, hle⟩ := hw.keys n hn
    exact ⟨c, List.mem_append_left _ hc, hle⟩

/-- The map as a list of edits one level up. -/
theorem Replaces.mergeEdits_eq (h : Replaces old new out) (ho : Run old) (hn : Run new) :
    Edited out.toList ∧
      mergeEdits Item.name (old.map Chunk.item) out.toList = new.map Chunk.item := by
  have hkeyed : WellKeyed Item.name out.toList := by
    rintro ⟨n, e⟩ he item rfl
    have hl := h n
    rw [SortedMap.get?_eq_some.mpr he] at hl
    exact (mem_of_lookup hl).2
  refine ⟨⟨out.ascending, hkeyed⟩, ?_⟩
  apply mergeEdits_eq_of_lookup (ascending_map_item ho) out.ascending hkeyed (ascending_map_item hn)
  intro n
  rw [h n]
  unfold SortedMap.get?
  cases KeyedList.lookup Prod.fst n out.toList with
  | none => rfl
  | some e => rfl

end replaces

namespace Trees
variable [LawfulStore σ Id] {t : Trees σ Id} {E : Chunk Id → Prop}

/-! ### One run -/

/-- What re-cutting does to the first chunks of `cs`: the chunks of `replaced`, with the edits
`used`, are cut into `pieces` with `pending` left open. -/
structure Swept (k : ℕ) (cs : List (Chunk Id)) (p : List (Item Id)) (run run' : Recut Id)
    (replaced post : List (Chunk Id)) (used : Edits Id) (pieces : List (List (Item Id)))
    (pending : List (Item Id)) : Prop where
  split : cs = replaced ++ post
  ne_nil : replaced ≠ []
  edits : run.edits = used ++ run'.edits
  used_le : ∀ e ∈ used, post = [] ∨ ∃ r ∈ replaced, e.1 ≤ r.last
  past : ∀ e ∈ run'.edits, post ≠ [] ∧ ∀ r ∈ replaced, r.last < e.1
  feed : Cutting.feed (chunkEnds k) p (mergeEdits Item.name (chunkItems replaced) used) =
    (pieces, pending)
  cut : run'.cut = chunkerOf k pending
  added : run'.added = run.added ++ (pieces.map (Chunk.mk k)).map Chunk.item
  out : ∀ n, run'.out.get? n = if (∃ r ∈ replaced, r.last = n) then some none else run.out.get? n

namespace Swept
variable {k : ℕ} {cs : List (Chunk Id)} {p : List (Item Id)} {run run₁ run₂ : Recut Id}
  {replaced post replaced₂ post₂ : List (Chunk Id)} {used used₂ : Edits Id}
  {pieces pieces₂ : List (List (Item Id))} {pending pending₂ : List (Item Id)}
omit [DecidableEq Id] [Store σ Id] [LawfulStore σ Id]

/-- The edits after the used ones go on with the chunks after the replaced ones. -/
theorem merge_eq (h : Swept k cs p run run₁ replaced post used pieces pending) (hrun : Run cs)
    {mid rest : List (Chunk Id)} (hm : post = mid ++ rest) {es es' : Edits Id}
    (he : run₁.edits = es ++ es') :
    mergeEdits Item.name (chunkItems (replaced ++ mid)) (used ++ es) =
      mergeEdits Item.name (chunkItems replaced) used ++ mergeEdits Item.name (chunkItems mid) es := by
  have hrun' : Run (replaced ++ post) := h.split ▸ hrun
  rw [chunkItems_append]
  apply mergeEdits_append
  · intro a ha e hmem
    obtain ⟨r, hr, har⟩ := mem_chunkItems.mp ha
    have hle := Chunk.name_le_last (hrun'.of_append_left.items hr) har
    refine hle.trans_lt ((h.past e ?_).2 r hr)
    rw [he]
    exact List.mem_append_left _ hmem
  · intro e hmem a ha
    have hap : a ∈ chunkItems post := by
      rw [hm, chunkItems_append]
      exact List.mem_append_left _ ha
    have hpost : post ≠ [] := by
      rintro rfl
      cases hap
    obtain ⟨r, hr, hle⟩ := (h.used_le e hmem).resolve_left hpost
    exact hle.trans_lt (hrun'.last_lt hr hap)

theorem trans (h : Swept k cs p run run₁ replaced post used pieces pending) (hrun : Run cs)
    (h₂ : Swept k post pending run₁ run₂ replaced₂ post₂ used₂ pieces₂ pending₂) :
    Swept k cs p run run₂ (replaced ++ replaced₂) post₂ (used ++ used₂) (pieces ++ pieces₂)
      pending₂ where
  split := by rw [h.split, h₂.split, List.append_assoc]
  ne_nil := by simp [h.ne_nil]
  edits := by rw [h.edits, h₂.edits, List.append_assoc]
  used_le := by
    intro e he
    have hpost : post ≠ [] := by
      rw [h₂.split]
      simp [h₂.ne_nil]
    rcases List.mem_append.mp he with he | he
    · obtain ⟨r, hr, hle⟩ := (h.used_le e he).resolve_left hpost
      exact Or.inr ⟨r, List.mem_append_left _ hr, hle⟩
    · refine (h₂.used_le e he).imp_right ?_
      rintro ⟨r, hr, hle⟩
      exact ⟨r, List.mem_append_right _ hr, hle⟩
  past := by
    intro e he
    refine ⟨(h₂.past e he).1, fun r hr => ?_⟩
    rcases List.mem_append.mp hr with hr | hr
    · refine (h.past e ?_).2 r hr
      rw [h₂.edits]
      exact List.mem_append_right _ he
    · exact (h₂.past e he).2 r hr
  feed := by
    rw [h.merge_eq hrun h₂.split h₂.edits, Cutting.feed_append, h.feed, h₂.feed]
  cut := h₂.cut
  added := by
    rw [h₂.added, h.added, List.map_append, List.map_append, List.append_assoc]
  out := by
    intro n
    rw [h₂.out, h.out]
    by_cases h1 : ∃ r ∈ replaced₂, r.last = n
    · obtain ⟨r, hr, hn⟩ := h1
      rw [if_pos ⟨r, hr, hn⟩, if_pos ⟨r, List.mem_append_right _ hr, hn⟩]
    · rw [if_neg h1]
      by_cases h2 : ∃ r ∈ replaced, r.last = n
      · obtain ⟨r, hr, hn⟩ := h2
        rw [if_pos ⟨r, hr, hn⟩, if_pos ⟨r, List.mem_append_left _ hr, hn⟩]
      · rw [if_neg h2, if_neg]
        rintro ⟨r, hr, hn⟩
        rcases List.mem_append.mp hr with hr | hr
        · exact h2 ⟨r, hr, hn⟩
        · exact h1 ⟨r, hr, hn⟩

end Swept

theorem dropWhile_of_true {α : Type} {p : α → Bool} {l : List α} (h : ∀ a, p a = true) :
    l.dropWhile p = [] := by
  have hd := @List.dropWhile_append_of_pos _ p l [] (fun a _ => h a)
  rwa [List.append_nil, List.dropWhile_nil] at hd

/-- Re-cutting one chunk, the first of `c :: post`. -/
theorem post_recutChunk (hr : Ready E t) {k : ℕ} {c : Chunk Id} {post : List (Chunk Id)}
    {p : List (Item Id)} {run : Recut Id} (hcut : run.cut = chunkerOf k p)
    (hed : Ascending Prod.fst run.edits) (hrun : Run (c :: post))
    (hE : ∀ q ∈ (Cutting.feed (chunkEnds k) p
      (mergeEdits Item.name (chunkItems (c :: post)) run.edits)).1, E ⟨k, q⟩)
    {R : Error Id → Prop} :
    Post E (recutChunk c post.isEmpty run) t (fun run₁ t₁ => ∃ used pieces pending,
      Swept k (c :: post) p run run₁ [c] post used pieces pending ∧ ∀ q ∈ pieces, t₁.Has ⟨k, q⟩)
      R := by
  let here := fun e : Name × Option (Item Id) => post.isEmpty || decide (e.1 ≤ c.last)
  have hused : ∀ e ∈ run.edits.takeWhile here, post = [] ∨ ∃ r ∈ [c], e.1 ≤ r.last := by
    intro e he
    have hp := List.mem_takeWhile_imp he
    simp only [here, Bool.or_eq_true, List.isEmpty_iff, decide_eq_true_eq] at hp
    exact hp.imp_right (fun hle => ⟨c, by simp, hle⟩)
  have hpast : ∀ e ∈ run.edits.dropWhile here, post ≠ [] ∧ ∀ r ∈ [c], r.last < e.1 := by
    intro e he
    by_cases hpost : post = []
    · have htrue : ∀ e, here e = true := fun e => by simp [here, hpost]
      rw [dropWhile_of_true htrue] at he
      cases he
    · have hhere : here = fun e => decide (e.1 ≤ c.last) := by
        funext e
        simp [here, hpost]
      rw [hhere] at he
      refine ⟨hpost, fun r hrm => ?_⟩
      rw [List.mem_singleton.mp hrm]
      exact lt_of_mem_dropWhile hed he
  let used := run.edits.takeWhile here
  let fed := Cutting.feed (chunkEnds k) p (mergeEdits Item.name c.items used)
  let run₁ : Recut Id := ⟨run.edits.dropWhile here, chunkerOf k fed.2,
    run.added ++ (fed.1.map (Chunk.mk k)).map Chunk.item, run.out.insert c.last none⟩
  have hswept : Swept k (c :: post) p run run₁ [c] post used fed.1 fed.2 := by
    refine ⟨rfl, by simp, List.takeWhile_append_dropWhile.symm, hused, hpast, ?_, rfl, rfl, ?_⟩
    · simp [fed]
    · intro n
      rw [SortedMap.get?_insert]
      simp
  have hput : ∀ d ∈ fed.1.map (Chunk.mk k), E d := by
    intro d hd
    obtain ⟨q, hq, rfl⟩ := List.mem_map.mp hd
    apply hE q
    have hmerge := hswept.merge_eq hrun (List.append_nil post).symm (List.append_nil _).symm
    rw [List.singleton_append, ← hswept.edits] at hmerge
    rw [hmerge, Cutting.feed_append, hswept.feed]
    exact List.mem_append_left _ hq
  unfold recutChunk
  simp only [hcut, pushAll_eq]
  refine Post.bind (post_summaries hr hput) ?_
  rintro is t' hs ⟨rfl, hall⟩
  exact Post.pure hs.coherent ⟨used, fed.1, fed.2, hswept, fun q hq => hall _ (List.mem_map_of_mem hq)⟩

section directory
variable {items : List (Item Id)} {h : ℕ} {root : Chunk Id}

/-- One run of re-cutting from the chunk `c` on. -/
theorem post_recut (ha : Ascending Item.name items) (hroot : IsRoot items h root) {k : ℕ}
    (hk : k ≤ h) {bound : ℕ} {pre post : List (Chunk Id)} {c : Chunk Id} {p : List (Item Id)}
    {run : Recut Id} (hr : Ready E t) (hhas : ∀ j ≤ h, ∀ d ∈ levelChunks items j, t.Has d)
    (hcs : levelChunks items k = pre ++ c :: post) (hb : post.length < bound)
    (hcut : run.cut = chunkerOf k p) (hed : Ascending Prod.fst run.edits)
    (hE : ∀ q ∈ (Cutting.feed (chunkEnds k) p
      (mergeEdits Item.name (chunkItems (c :: post)) run.edits)).1, E ⟨k, q⟩)
    {R : Error Id → Prop} :
    Post E (recut root.id k bound c post.isEmpty run) t (fun run' t' =>
      ∃ replaced post' used pieces pending,
        Swept k (c :: post) p run run' replaced post' used pieces pending ∧
          (post' ≠ [] → pending = []) ∧ ∀ q ∈ pieces, t'.Has ⟨k, q⟩) R := by
  induction bound generalizing pre post c p run t with
  | zero => omega
  | succ bound ih =>
      have hrun : Run (c :: post) := (hcs ▸ run_levelChunks ha k : Run (pre ++ c :: post)).of_append_right
      unfold recut
      refine Post.bind (post_recutChunk hr hcut hed hrun hE) ?_
      rintro run₁ t₁ hs₁ ⟨used, pieces, pending, hsw, hpieces⟩
      have hempty : run₁.cut.isEmpty = pending.isEmpty := by rw [hsw.cut]; rfl
      rw [hempty]
      by_cases hdone : (post.isEmpty || pending.isEmpty) = true
      · rw [if_pos hdone]
        refine Post.pure hs₁.coherent ⟨[c], post, used, pieces, pending, hsw, ?_, hpieces⟩
        intro hpost
        simpa [hpost] using hdone
      · rw [if_neg hdone]
        rw [Bool.or_eq_true, not_or] at hdone
        obtain ⟨c₂, post₂, rfl⟩ := List.exists_cons_of_ne_nil
          (show post ≠ [] by simpa using hdone.1)
        have hcs₂ : levelChunks items k = (pre ++ [c]) ++ c₂ :: post₂ := by
          rw [hcs, List.append_assoc]; rfl
        have hhas₁ : ∀ j ≤ h, ∀ d ∈ levelChunks items j, t₁.Has d := fun j hj d hd =>
          hs₁.has d (hhas j hj d hd)
        have hpick : pick c.last true (levelChunks items k) = some (c₂, post₂.isEmpty) := by
          have hall : Run ((pre ++ [c]) ++ c₂ :: post₂) := hcs₂ ▸ run_levelChunks ha k
          apply choose_split hcs₂
          · intro d hd
            have hle : d.last ≤ c.last := by
              rcases List.mem_append.mp hd with hd | hd
              · have hpre : Run (pre ++ [c]) := hall.of_append_left
                exact (hpre.last_lt_last hd (by simp)).le
              · rw [List.mem_singleton.mp hd]
            simpa [isBefore] using hle
          · have hlt : c.last < c₂.last := hall.last_lt_last (by simp) (by simp)
            simpa [isBefore] using hlt
        have hseek := runs_seek (E := E) ha hs₁.coherent hroot hhas₁ hk c.last true
        rw [hpick] at hseek
        refine Runs.bind_post hseek ?_
        intro t₂ hs₂
        have hb₂ : post₂.length < bound := by
          rw [List.length_cons] at hb
          omega
        have hed₁ : Ascending Prod.fst run₁.edits := by
          rw [hsw.edits, ascending_append] at hed
          exact hed.2.1
        refine Post.mono (ih (hr.step (hs₁.trans hs₂)) (fun j hj d hd => hs₂.has d (hhas₁ j hj d hd))
          hcs₂ hb₂ hsw.cut hed₁ ?_) ?_ (fun _ h => h)
        · intro q hq
          apply hE q
          have hmerge := hsw.merge_eq hrun (List.append_nil _).symm (List.append_nil _).symm
          rw [List.singleton_append, ← hsw.edits] at hmerge
          rw [hmerge, Cutting.feed_append, hsw.feed]
          exact List.mem_append_right _ hq
        · rintro run₂ t₃ hs₃ ⟨replaced, post', used₂, pieces₂, pending₂, hsw₂, hstop, hpieces₂⟩
          refine ⟨[c] ++ replaced, post', used ++ used₂, pieces ++ pieces₂, pending₂,
            hsw.trans hrun hsw₂, hstop, ?_⟩
          intro q hq
          rcases List.mem_append.mp hq with hq | hq
          · exact hs₃.has _ (hs₂.has _ (hpieces q hq))
          · exact hpieces₂ q hq

/-! ### One level -/

omit [DecidableEq Id] [Store σ Id] [LawfulStore σ Id] in
/-- Chunks before every edit stay when a level is cut again. -/
theorem cutLevel_skip {k : ℕ} {skip cs : List (Chunk Id)} {es : Edits Id}
    (hlevel : ∀ d ∈ skip, d.level = k) (hclosed : ∀ d ∈ skip, Cutting.Closed (chunkEnds k) d.items)
    (hrun : Run skip) (hpast : ∀ d ∈ skip, ∀ e ∈ es, d.last < e.1) :
    cutLevel k (mergeEdits Item.name (chunkItems (skip ++ cs)) es) =
      skip ++ cutLevel k (mergeEdits Item.name (chunkItems cs) es) := by
  rw [chunkItems_append, mergeEdits_append_left]
  · have hfeed : Cutting.feed (chunkEnds k) [] (chunkItems skip) = (skip.map Chunk.items, []) :=
      Cutting.feed_flatten_closed (by simpa using hclosed)
    unfold cutLevel
    rw [Cutting.cut_append hfeed, List.map_append, List.map_map]
    congr 1
    conv_rhs => rw [← List.map_id skip]
    refine List.map_congr_left (fun d hd => ?_)
    show Chunk.mk k d.items = d
    rw [← hlevel d hd]
  · intro a ha e he
    obtain ⟨d, hd, had⟩ := mem_chunkItems.mp ha
    exact (Chunk.name_le_last (hrun.items hd) had).trans_lt (hpast d hd e he)

section swept
variable {k : ℕ} {cs pre new : List (Chunk Id)} {run run' : Recut Id}
  {replaced post : List (Chunk Id)} {used : Edits Id} {pieces : List (List (Item Id))}
  {pending : List (Item Id)}
omit [DecidableEq Id] [Store σ Id] [LawfulStore σ Id]

theorem Swept.chunks_eq (h : Swept k cs [] run run' replaced post used pieces pending) :
    (pieces ++ Cutting.finish pending).map (Chunk.mk k) =
      cutLevel k (mergeEdits Item.name (chunkItems replaced) used) := by
  unfold cutLevel Cutting.cut
  rw [h.feed]

/-- A run that leaves nothing open, or reaches the end, cuts its part of the level. -/
theorem Swept.cutLevel_eq (h : Swept k cs [] run run' replaced post used pieces pending)
    (hrun : Run cs) (hstop : post ≠ [] → pending = []) :
    cutLevel k (mergeEdits Item.name (chunkItems cs) run.edits) =
      cutLevel k (mergeEdits Item.name (chunkItems replaced) used) ++
        cutLevel k (mergeEdits Item.name (chunkItems post) run'.edits) := by
  have hmerge := h.merge_eq hrun (List.append_nil post).symm (List.append_nil run'.edits).symm
  rw [← h.split, ← h.edits] at hmerge
  have hfeed := h.feed
  rw [hmerge]
  by_cases hpost : post = []
  · have hedits : run'.edits = [] := by
      rw [List.eq_nil_iff_forall_not_mem]
      intro e he
      exact (h.past e he).1 hpost
    rw [hpost, hedits]
    simp [cutLevel]
  · rw [hstop hpost] at hfeed
    unfold cutLevel
    rw [Cutting.cut_append hfeed, List.map_append]
    congr 2
    unfold Cutting.cut
    rw [hfeed]
    simp

/-- Edits a run uses are edits of the level. -/
theorem Swept.used_edited (h : Swept k cs [] run run' replaced post used pieces pending)
    (hed : Edited run.edits) : Edited used :=
  hed.sublist (h.edits ▸ List.sublist_append_left _ _)

end swept

omit [DecidableEq Id] [Store σ Id] [LawfulStore σ Id] [Hashing Id] in
theorem get?_foldl_insert {is : List (Item Id)} (ha : Ascending Item.name is)
    (out : SortedMap Name (Option (Item Id))) (n : Name) :
    (is.foldl (fun out item => out.insert item.name (some item)) out).get? n =
      match KeyedList.lookup Item.name n is with
      | some item => some (some item)
      | none => out.get? n := by
  induction is generalizing out with
  | nil => rfl
  | cons a is ih =>
      rw [ascending_cons] at ha
      rw [List.foldl_cons, ih ha.2, lookup_cons, SortedMap.get?_insert]
      by_cases h : a.name = n
      · have hnone : KeyedList.lookup Item.name n is = none := lookup_eq_none_of_lt (h ▸ ha.1)
        rw [hnone, if_pos h, if_pos h]
      · rw [if_neg h, if_neg h]

omit [DecidableEq Id] [Store σ Id] [LawfulStore σ Id] in
/-- The map after a run: new summaries, then removed ones, then what it held before. -/
theorem get?_added {cs : List (Chunk Id)} (hrun : Run cs)
    (out : SortedMap Name (Option (Item Id))) (n : Name) :
    ((cs.map Chunk.item).foldl (fun out item => out.insert item.name (some item)) out).get? n =
      if (∃ d ∈ cs, d.last = n) then some (KeyedList.lookup Item.name n (cs.map Chunk.item))
      else out.get? n := by
  rw [get?_foldl_insert (ascending_map_item hrun)]
  cases hl : KeyedList.lookup Item.name n (cs.map Chunk.item) with
  | none =>
      rw [if_neg]
      rintro ⟨d, hd, hn⟩
      exact lookup_map_item_eq_none.mp hl d hd hn
  | some item =>
      obtain ⟨hm, hn⟩ := mem_of_lookup hl
      obtain ⟨d, hd, rfl⟩ := List.mem_map.mp hm
      rw [if_pos ⟨d, hd, hn⟩]

omit [DecidableEq Id] [Hashing Id] in
/-- The chunk `seek` finds for a name past `pre`. -/
theorem exists_pick {pre rest : List (Chunk Id)} {name : Name} (hpre : ∀ c ∈ pre, c.last < name)
    (hne : rest ≠ []) :
    ∃ skip c post, rest = skip ++ c :: post ∧ (∀ d ∈ skip, d.last < name) ∧
      (post = [] ∨ name ≤ c.last) ∧ pick name false (pre ++ rest) = some (c, post.isEmpty) := by
  have hbefore : ∀ d : Chunk Id, isBefore name false d.last = true ↔ d.last < name := by
    intro d
    simp [isBefore]
  rcases split_before (fun c : Chunk Id => isBefore name false c.last) rest with
    hall | ⟨skip, c, post, hs, hskip, hc⟩
  · obtain ⟨skip, c, rfl⟩ := (List.eq_nil_or_concat rest).resolve_left hne
    rw [List.concat_eq_append] at *
    refine ⟨skip, c, [], rfl, fun d hd => ?_, Or.inl rfl, ?_⟩
    · exact (hbefore d).mp (hall d (List.mem_append_left _ hd))
    · have hsplit : pre ++ (skip ++ [c]) = (pre ++ skip) ++ [c] := (List.append_assoc _ _ _).symm
      unfold pick
      rw [choose_past hsplit]
      · rfl
      · intro d hd
        rcases List.mem_append.mp hd with hd | hd
        · exact (hbefore d).mpr (hpre d hd)
        · exact hall d hd
  · refine ⟨skip, c, post, hs, fun d hd => (hbefore d).mp (hskip d hd), Or.inr ?_, ?_⟩
    · by_contra hlt
      have hlt' := (hbefore c).mpr (not_le.mp hlt)
      rw [hlt'] at hc
      cases hc
    · have hsplit : pre ++ rest = (pre ++ skip) ++ c :: post := by rw [hs, List.append_assoc]
      apply choose_split hsplit _ hc
      intro d hd
      rcases List.mem_append.mp hd with hd | hd
      · exact (hbefore d).mpr (hpre d hd)
      · exact hskip d hd

omit [DecidableEq Id] [Store σ Id] [LawfulStore σ Id] in
theorem exists_name_of_mem_cut {k : ℕ} {is : List (Item Id)} {d : Chunk Id}
    (hd : d ∈ cutLevel k is) : ∃ x ∈ is, x.name = d.last := by
  obtain ⟨x, hx, hl⟩ := Chunk.exists_name_eq_last (Cutting.cut_ne_nil (mem_cutLevel.mp hd).2)
  refine ⟨x, ?_, hl⟩
  rw [← chunkItems_cutLevel k is]
  exact mem_chunkItems.mpr ⟨d, hd, hx⟩

section swept
variable {k : ℕ} {cs pre new : List (Chunk Id)} {run run' : Recut Id}
  {replaced post : List (Chunk Id)} {used : Edits Id} {pieces : List (List (Item Id))}
  {pending : List (Item Id)}
omit [DecidableEq Id] [Store σ Id] [LawfulStore σ Id]

theorem Swept.run_new (h : Swept k cs [] run run' replaced post used pieces pending)
    (hrun : Run cs) (hed : Edited run.edits) :
    Run (cutLevel k (mergeEdits Item.name (chunkItems replaced) used)) := by
  have hr : Run (replaced ++ post) := h.split ▸ hrun
  have hu := h.used_edited hed
  exact run_cutLevel (ascending_mergeEdits hr.of_append_left.ascending hu.ascending hu.wellKeyed)

/-- A run after the chunks `pre`, which have become `new`. -/
theorem Swept.replaces (h : Swept k cs [] run run' replaced post used pieces pending)
    (hall : Run (pre ++ cs)) (hed : Edited run.edits) (hpast : ∀ c ∈ pre, ∀ e ∈ run.edits, c.last < e.1)
    (hrep : Replaces pre new run.out) (hw : Within pre new run.out)
    {out : SortedMap Name (Option (Item Id))}
    (hout : out = ((cutLevel k (mergeEdits Item.name (chunkItems replaced) used)).map
      Chunk.item).foldl (fun out item => out.insert item.name (some item)) run'.out) :
    Replaces (pre ++ replaced)
      (new ++ cutLevel k (mergeEdits Item.name (chunkItems replaced) used)) out ∧
    (post ≠ [] → Within (pre ++ replaced)
      (new ++ cutLevel k (mergeEdits Item.name (chunkItems replaced) used)) out) := by
  have hrunD := h.run_new hall.of_append_right hed
  have hu := h.used_edited hed
  have hall' : Run (pre ++ (replaced ++ post)) := h.split ▸ hall
  have hget : ∀ n, out.get? n =
      if (∃ d ∈ cutLevel k (mergeEdits Item.name (chunkItems replaced) used), d.last = n) then
        some (KeyedList.lookup Item.name n
          ((cutLevel k (mergeEdits Item.name (chunkItems replaced) used)).map Chunk.item))
      else if (∃ d ∈ replaced, d.last = n) then some none else run.out.get? n := by
    intro n
    rw [hout, get?_added hrunD, h.out]
  constructor
  · apply hrep.append hw _ _ hget
    · intro c hc d hd
      exact hall'.last_lt_last hc (List.mem_append_left _ hd)
    · intro c hc d hd
      obtain ⟨x, hx, hl⟩ := exists_name_of_mem_cut hd
      rw [← hl]
      apply lt_key_mergeEdits _ _ hu.wellKeyed x hx
      · intro a ha
        exact hall'.last_lt hc (by rw [chunkItems_append]; exact List.mem_append_left _ ha)
      · intro e he
        exact hpast c hc e (h.edits ▸ List.mem_append_left _ he)
  · intro hpost
    have hbound : ∀ d ∈ cutLevel k (mergeEdits Item.name (chunkItems replaced) used),
        ∃ c ∈ replaced, d.last ≤ c.last := by
      intro d hd
      obtain ⟨x, hx, hl⟩ := exists_name_of_mem_cut hd
      rw [← hl]
      rcases mem_of_mem_mergeEdits hx with hx | ⟨n, hx⟩
      · obtain ⟨c, hc, hxc⟩ := mem_chunkItems.mp hx
        exact ⟨c, hc, Chunk.name_le_last (hall'.of_append_right.of_append_left.items hc) hxc⟩
      · obtain ⟨c, hc, hle⟩ := (h.used_le _ hx).resolve_left hpost
        rw [hu.wellKeyed _ hx x rfl]
        exact ⟨c, hc, hle⟩
    constructor
    · intro d hd
      rcases List.mem_append.mp hd with hd | hd
      · obtain ⟨c, hc, hle⟩ := hw.chunks d hd
        exact ⟨c, List.mem_append_left _ hc, hle⟩
      · obtain ⟨c, hc, hle⟩ := hbound d hd
        exact ⟨c, List.mem_append_right _ hc, hle⟩
    · intro n hn
      rw [hget] at hn
      split at hn
      · rename_i hex
        obtain ⟨d, hd, rfl⟩ := hex
        obtain ⟨c, hc, hle⟩ := hbound d hd
        exact ⟨c, List.mem_append_right _ hc, hle⟩
      · split at hn
        · rename_i hex
          obtain ⟨d, hd, rfl⟩ := hex
          exact ⟨d, List.mem_append_right _ hd, le_refl _⟩
        · obtain ⟨c, hc, hle⟩ := hw.keys n hn
          exact ⟨c, List.mem_append_left _ hc, hle⟩

end swept

/-- Without edits left the rest of the level stays. -/
theorem recutAll_done (hr : Ready E t) {k bound : ℕ} (hk : k ≤ h)
    (hhas : ∀ j ≤ h, ∀ d ∈ levelChunks items j, t.Has d) {pre rest new : List (Chunk Id)}
    {out : SortedMap Name (Option (Item Id))} (ha : Ascending Item.name items)
    (hcs : levelChunks items k = pre ++ rest) (hrep : Replaces pre new out)
    (hw : rest ≠ [] → Within pre new out) {R : Error Id → Prop} :
    Post E (recutAll root.id k bound [] out) t (fun out' t' =>
      Replaces (pre ++ rest) (new ++ cutLevel k (mergeEdits Item.name (chunkItems rest) [])) out' ∧
        ∀ d ∈ cutLevel k (mergeEdits Item.name (chunkItems rest) []), t'.Has d) R := by
  rw [mergeEdits_nil_right, cutLevel_suffix hcs]
  unfold recutAll
  refine Post.pure hr.coherent ⟨?_, fun d hd => hhas k hk d (hcs ▸ List.mem_append_right _ hd)⟩
  by_cases hrest : rest = []
  · rw [hrest, List.append_nil, List.append_nil]
    exact hrep
  · apply hrep.skip (hw hrest)
    intro c hc d hd
    exact (hcs ▸ run_levelChunks ha k : Run (pre ++ rest)).last_lt_last hc hd

/-- All runs over the chunks `rest`, after the chunks `pre` have become `new`. -/
theorem post_recutAll (ha : Ascending Item.name items) (hroot : IsRoot items h root) {k : ℕ}
    (hk : k ≤ h) {bound : ℕ} {pre rest new : List (Chunk Id)} {es : Edits Id}
    {out : SortedMap Name (Option (Item Id))} (hr : Ready E t)
    (hhas : ∀ j ≤ h, ∀ d ∈ levelChunks items j, t.Has d)
    (hcs : levelChunks items k = pre ++ rest) (hb : es.length ≤ bound) (hed : Edited es)
    (hpast : ∀ c ∈ pre, ∀ e ∈ es, c.last < e.1) (hrest : rest = [] → es = [])
    (hrep : Replaces pre new out) (hw : rest ≠ [] → Within pre new out)
    (hE : ∀ d ∈ cutLevel k (mergeEdits Item.name (chunkItems rest) es), E d)
    {R : Error Id → Prop} :
    Post E (recutAll root.id k bound es out) t (fun out' t' =>
      Replaces (pre ++ rest) (new ++ cutLevel k (mergeEdits Item.name (chunkItems rest) es)) out' ∧
        ∀ d ∈ cutLevel k (mergeEdits Item.name (chunkItems rest) es), t'.Has d) R := by
  induction bound generalizing pre rest new es out t with
  | zero =>
      obtain rfl : es = [] := List.length_eq_zero_iff.mp (by omega)
      exact recutAll_done hr hk hhas ha hcs hrep hw
  | succ bound ih =>
      cases es with
      | nil => exact recutAll_done hr hk hhas ha hcs hrep hw
      | cons e es =>
          have hne : rest ≠ [] := fun hnil => by simpa using hrest hnil
          obtain ⟨skip, c, post, rfl, hskip, hc, hpick⟩ :=
            exists_pick (fun c hc => hpast c hc e (by simp)) hne
          have hcs' : levelChunks items k = (pre ++ skip) ++ c :: post := by
            rw [hcs, List.append_assoc]
          have hall : Run ((pre ++ skip) ++ c :: post) := hcs' ▸ run_levelChunks ha k
          have hrun : Run (c :: post) := hall.of_append_right
          have hea := ascending_cons.mp hed.ascending
          have hpast' : ∀ d ∈ pre ++ skip, ∀ e' ∈ e :: es, d.last < e'.1 := by
            intro d hd e' he'
            rcases List.mem_append.mp hd with hd | hd
            · exact hpast d hd e' he'
            · rcases List.mem_cons.mp he' with rfl | he'
              · exact hskip d hd
              · exact (hskip d hd).trans (hea.1 e' he')
          have hcut : cutLevel k (mergeEdits Item.name (chunkItems (skip ++ c :: post)) (e :: es)) =
              skip ++ cutLevel k (mergeEdits Item.name (chunkItems (c :: post)) (e :: es)) := by
            apply cutLevel_skip
            · intro d hd
              have hmem : d ∈ levelChunks items k := by
                rw [hcs']
                simp [hd]
              exact level_of_mem hmem
            · intro d hd
              exact closed_of_split hcs' d (List.mem_append_right _ hd)
            · exact (hall.of_append_left : Run (pre ++ skip)).of_append_right
            · exact fun d hd => hpast' d (List.mem_append_right _ hd)
          rw [hcut] at hE ⊢
          have hrep' : Replaces (pre ++ skip) (new ++ skip) out :=
            hrep.skip (hw hne) (fun a ha' d hd =>
              (hall.of_append_left : Run (pre ++ skip)).last_lt_last ha' hd)
          have hw' : Within (pre ++ skip) (new ++ skip) out := (hw hne).skip
          unfold recutAll
          have hseek := runs_seek (E := E) ha hr.coherent hroot hhas hk e.1 false
          rw [hcs, hpick] at hseek
          refine Runs.bind_post hseek ?_
          intro t₁ hs₁
          have hhas₁ : ∀ j ≤ h, ∀ d ∈ levelChunks items j, t₁.Has d := fun j hj d hd =>
            hs₁.has d (hhas j hj d hd)
          have hlen : post.length < t₁.len := by
            have hmem : ∀ d ∈ c :: post, t₁.Has d := fun d hd =>
              hhas₁ k hk d (by rw [hcs']; exact List.mem_append_right _ hd)
            have hle := length_le_len hrun.nodup hmem
            rw [List.length_cons] at hle
            omega
          let run : Recut Id := ⟨e :: es, Chunker.new k, [], out⟩
          have hput : ∀ q ∈ (Cutting.feed (chunkEnds k) []
              (mergeEdits Item.name (chunkItems (c :: post)) run.edits)).1, E ⟨k, q⟩ := fun q hq =>
            hE ⟨k, q⟩ (List.mem_append_right _ (mem_cutLevel.mpr ⟨rfl, List.mem_append_left _ hq⟩))
          refine Post.bind (post_recut ha hroot hk (hr.step hs₁) hhas₁ hcs' hlen
            (rfl : run.cut = chunkerOf k []) hed.ascending hput) ?_
          rintro run' t₂ hs₂ ⟨replaced, post', used, pieces, pending, hsw, hstop, hpieces⟩
          have hcutc : cutLevel k (mergeEdits Item.name (chunkItems (c :: post)) (e :: es)) =
              cutLevel k (mergeEdits Item.name (chunkItems replaced) used) ++
                cutLevel k (mergeEdits Item.name (chunkItems post') run'.edits) :=
            hsw.cutLevel_eq hrun hstop
          rw [hcutc] at hE ⊢
          have hchunks := hsw.chunks_eq
          have hfinish : run'.cut.finish.toList = (Cutting.finish pending).map (Chunk.mk k) := by
            rw [hsw.cut]
            exact finish_chunkerOf k pending
          have hputf : ∀ d ∈ run'.cut.finish.toList, E d := by
            intro d hd
            apply hE d
            rw [List.mem_append, List.mem_append, ← hchunks, List.map_append, ← hfinish]
            exact Or.inr (Or.inl (List.mem_append_right _ hd))
          refine Post.bind (post_summaries (hr.step (hs₁.trans hs₂)) hputf) ?_
          rintro is t₃ hs₃ ⟨rfl, hfin⟩
          have hadded : run'.added ++ run'.cut.finish.toList.map Chunk.item =
              (cutLevel k (mergeEdits Item.name (chunkItems replaced) used)).map Chunk.item := by
            rw [hsw.added, hfinish, ← hchunks, List.map_append, List.map_append]
            rfl
          obtain ⟨hrep₂, hw₂⟩ := hsw.replaces hall hed hpast' hrep' hw'
            (congrArg (fun l => l.foldl (fun out item => out.insert item.name (some item)) run'.out)
              hadded.symm).symm
          have hedits : e :: es = used ++ run'.edits := hsw.edits
          have hed₂ : Edited run'.edits := hed.sublist (hedits ▸ List.sublist_append_right _ _)
          have hused : used ≠ [] := by
            rintro rfl
            rw [List.nil_append] at hedits
            obtain ⟨hpost', hlt⟩ := hsw.past e (by rw [← hedits]; simp)
            obtain ⟨r, rs, rfl⟩ := List.exists_cons_of_ne_nil hsw.ne_nil
            have hsplit := hsw.split
            rw [List.cons_append, List.cons.injEq] at hsplit
            have hcr : c.last < e.1 := hsplit.1 ▸ hlt r (by simp)
            rcases hc with rfl | hle
            · have hnil := hsplit.2
              simp at hnil
              exact hpost' hnil.2
            · exact absurd hcr (not_lt.mpr hle)
          have hb₂ : run'.edits.length ≤ bound := by
            have hlen₂ := congrArg List.length hedits
            have hpos := List.length_pos_iff.mpr hused
            rw [List.length_append, List.length_cons] at hlen₂
            rw [List.length_cons] at hb
            omega
          have hhas₃ : ∀ j ≤ h, ∀ d ∈ levelChunks items j, t₃.Has d := fun j hj d hd =>
            hs₃.has d (hs₂.has d (hhas₁ j hj d hd))
          have hcs₃ : levelChunks items k = ((pre ++ skip) ++ replaced) ++ post' := by
            rw [hcs', hsw.split, List.append_assoc _ replaced]
          have hpast₃ : ∀ d ∈ (pre ++ skip) ++ replaced, ∀ e' ∈ run'.edits, d.last < e'.1 := by
            intro d hd e' he'
            rcases List.mem_append.mp hd with hd | hd
            · exact hpast' d hd e' (hedits ▸ List.mem_append_right _ he')
            · exact (hsw.past e' he').2 d hd
          have hrest₃ : post' = [] → run'.edits = [] := by
            intro hnil
            rw [List.eq_nil_iff_forall_not_mem]
            intro e' he'
            exact (hsw.past e' he').1 hnil
          refine Post.mono (ih (hr.step ((hs₁.trans hs₂).trans hs₃)) hhas₃ hcs₃ hb₂ hed₂ hpast₃ hrest₃
            hrep₂ hw₂ (fun d hd => hE d (List.mem_append_right _ (List.mem_append_right _ hd))))
            ?_ (fun _ h => h)
          rintro out' t₄ hs₄ ⟨hrep₄, hhas₄⟩
          constructor
          · rw [← hcs, hcs₃]
            simpa only [List.append_assoc] using hrep₄
          · intro d hd
            rcases List.mem_append.mp hd with hd | hd
            · refine hs₄.has d (hs₃.has d (hs₂.has d (hhas₁ k hk d ?_)))
              rw [hcs]
              simp [hd]
            rcases List.mem_append.mp hd with hd | hd
            · rw [← hchunks, List.map_append, ← hfinish] at hd
              rcases List.mem_append.mp hd with hd | hd
              · obtain ⟨q, hq, rfl⟩ := List.mem_map.mp hd
                exact hs₄.has _ (hs₃.has _ (hpieces q hq))
              · exact hs₄.has d (hfin d hd)
            · exact hhas₄ d hd

/-! ### The whole directory -/

variable {new : List (Item Id)}

/-- One level: its chunks become those of the new directory, and the edits handed up do the same
one level up. -/
theorem post_updateLevel (ha : Ascending Item.name items) (hn : Ascending Item.name new)
    (hroot : IsRoot items h root) {k : ℕ} (hk : k ≤ h) (hr : Ready E t)
    (hhas : ∀ j ≤ h, ∀ d ∈ levelChunks items j, t.Has d) {es : Edits Id} (hed : Edited es)
    (hmerge : mergeEdits Item.name (levelItems items k) es = levelItems new k)
    (hE : ∀ d ∈ levelChunks new k, E d) {R : Error Id → Prop} :
    Post E (updateLevel root.id k es) t (fun es' t' => Edited es' ∧
      mergeEdits Item.name (levelItems items (k + 1)) es' = levelItems new (k + 1) ∧
        ∀ d ∈ levelChunks new k, t'.Has d) R := by
  have hcut : cutLevel k (mergeEdits Item.name (chunkItems (levelChunks items k)) es) =
      levelChunks new k := by
    rw [chunkItems_levelChunks, hmerge]
    rfl
  have hne : levelChunks items k ≠ [] := fun hnil => hroot.ne_nil (levelChunks_eq_nil.mp hnil)
  have hwithin : Within ([] : List (Chunk Id)) [] SortedMap.empty := by
    constructor
    · intro d hd
      cases hd
    · intro n hnn
      exact absurd rfl hnn
  unfold updateLevel
  refine Post.bind (post_recutAll ha hroot hk hr hhas (List.nil_append _).symm (le_refl _) hed
    (by simp) (fun hnil => absurd hnil hne) replaces_nil (fun _ => hwithin) ?_) ?_
  · rw [hcut]
    exact hE
  · rintro out t' hs ⟨hrep, hhas'⟩
    rw [hcut] at hrep hhas'
    have hlevel := hrep.mergeEdits_eq (run_levelChunks ha k) (run_levelChunks hn k)
    exact Post.pure hs.coherent ⟨hlevel.1, hlevel.2, hhas'⟩

theorem post_updateLevels (ha : Ascending Item.name items) (hn : Ascending Item.name new)
    (hroot : IsRoot items h root) {k n : ℕ} (hkn : k + n ≤ h) (hr : Ready E t)
    (hhas : ∀ j ≤ h, ∀ d ∈ levelChunks items j, t.Has d) {es : Edits Id} (hed : Edited es)
    (hmerge : mergeEdits Item.name (levelItems items k) es = levelItems new k)
    (hE : ∀ j < k + n, ∀ d ∈ levelChunks new j, E d) {R : Error Id → Prop} :
    Post E (updateLevels root.id (List.range' k n) es) t (fun es' t' => Edited es' ∧
      mergeEdits Item.name (levelItems items (k + n)) es' = levelItems new (k + n) ∧
        ∀ j, k ≤ j → j < k + n → ∀ d ∈ levelChunks new j, t'.Has d) R := by
  induction n generalizing k es t with
  | zero =>
      refine Post.pure hr.coherent ⟨hed, hmerge, fun j h1 h2 => ?_⟩
      omega
  | succ n ih =>
      rw [List.range'_succ]
      unfold updateLevels
      refine Post.bind (post_updateLevel ha hn hroot (by omega) hr hhas hed hmerge
        (hE k (by omega))) ?_
      rintro es₁ t₁ hs₁ ⟨hed₁, hmerge₁, hhas₁⟩
      have harith : k + (n + 1) = (k + 1) + n := by omega
      rw [harith] at hkn hE ⊢
      refine Post.mono (ih hkn (hr.step hs₁) (fun j hj d hd => hs₁.has d (hhas j hj d hd)) hed₁
        hmerge₁ hE) ?_ (fun _ h => h)
      rintro es₂ t₂ hs₂ ⟨hed₂, hmerge₂, hhas₂⟩
      refine ⟨hed₂, hmerge₂, fun j hkj hj d hd => ?_⟩
      rcases Nat.lt_or_ge k j with hlt | hge
      · exact hhas₂ j hlt hj d hd
      · obtain rfl : j = k := by omega
        exact hs₂.has d (hhas₁ d hd)

end directory

/-- `update` ends at the canonical root of the edited directory. -/
theorem post_update {items new : List (Item Id)} {h : ℕ} {dir : Option Id} (hr : Ready E t)
    (hdir : Rooted t.Has items h dir) (ha : Ascending Item.name items)
    (hn : Ascending Item.name new) {es : Edits Id} (hed : Edited es)
    (hmerge : mergeEdits Item.name items es = new) (hE : ∀ d, Derives h new d → E d) :
    Post E (update dir es) t (fun dir' t' => Derived t'.Has new dir')
      (fun e => e = tooHigh ∧ TooHigh new) := by
  have hbuild : ∀ t' : Trees σ Id, Ready E t' → items = [] →
      Post E (buildLevel 0 (es.filterMap Prod.snd)) t' (fun dir' t' => Derived t'.Has new dir')
        (fun e => e = tooHigh ∧ TooHigh new) := by
    intro t' hr' hnil
    rw [hnil, mergeEdits_nil_left] at hmerge
    rw [hmerge]
    exact post_buildLevel (k := 0) hr' (Nat.zero_le _) (fun j hj => absurd hj (Nat.not_lt_zero j)) hE
  unfold update
  rcases hdir with ⟨hnil, _, rfl | rfl⟩ | ⟨c, rfl, hroot, hm, hhas⟩
  · exact hbuild t hr hnil
  · have hget : Runs E (get emptyId) t .emptyLeaf := runs_get hr.coherent hr.coherent.has_emptyLeaf
    refine Runs.bind_post hget ?_
    intro t' hs
    rw [if_pos (show (Chunk.emptyLeaf : Chunk Id).items = [] from rfl)]
    exact hbuild t' (hr.step hs) hnil
  · refine Runs.bind_post (runs_get hr.coherent (hhas h (le_refl _) c hroot.mem)) ?_
    intro t₁ hs₁
    rw [if_neg (items_ne_nil_of_mem hroot.mem), hroot.level]
    have hhas₁ : ∀ j ≤ h, ∀ d ∈ levelChunks items j, t₁.Has d := fun j hj d hd =>
      hs₁.has d (hhas j hj d hd)
    have hlow : ∀ j < 0 + h, ∀ d ∈ levelChunks new j, E d := by
      intro j hj d hd
      rw [Nat.zero_add] at hj
      exact hE d ⟨j, by omega, hd, Or.inl hj⟩
    rw [List.range_eq_range']
    refine Post.bind (post_updateLevels ha hn hroot (k := 0) (by omega) (hr.step hs₁) hhas₁ hed
      hmerge hlow) ?_
    rintro es' t₂ hs₂ ⟨hed₂, hmerge₂, hhas₂⟩
    rw [Nat.zero_add] at hmerge₂ hhas₂
    rw [hroot.items_eq_levelItems, hmerge₂]
    exact post_buildLevel (hr.step (hs₁.trans hs₂)) hm
      (fun j hj d hd => hhas₂ j (Nat.zero_le _) hj d hd) hE

end Trees

end Javelin
