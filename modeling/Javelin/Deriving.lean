import Javelin.Intact
import Javelin.Snapshots

/-! # Deriving from an intact table

Applying changes to a present tree leaves the table intact, if the content of every file that the
changes write is present: `ends_apply`, `ends_build`.  The specifications go along the definitions,
from finding a chunk over re-cutting a level to a whole directory; each says that what its input
names is present, and then so is what its output names. -/

namespace Javelin

open KeyedList Upkeep

variable {Id : Type} [DecidableEq Id] [ObjectHash Id]

namespace Trees
variable {t : SqlTrees Id}

/-- The root chunk of a directory that may be absent is present. -/
def DirPresent (dir : Option Id) (t : SqlTrees Id) : Prop := ∀ id, dir = some id → t.Present (id, .tree)

/-- All that edits put in is present. -/
def EditsHeld (t : SqlTrees Id) (edits : Edits Id) : Prop :=
  ∀ name item, (name, some item) ∈ edits → t.Present item.node.reference

section held
variable {t' : SqlTrees Id} {items items' : List (Item Id)} {edits edits' : Edits Id}
omit [ObjectHash Id]

theorem DirPresent.onward {dir : Option Id} (h : DirPresent dir t) (hle : Onward t t') : DirPresent dir t' :=
  fun id hid => hle.present _ (h id hid)

theorem DirPresent.known {id : Id} (h : DirPresent (some id) t) : t.Known id := ⟨.tree, h id rfl⟩

theorem EditsHeld.onward (h : t.EditsHeld edits) (hle : Onward t t') : t'.EditsHeld edits :=
  fun name item hm => hle.present _ (h name item hm)

theorem EditsHeld.subset (h : t.EditsHeld edits) (hs : edits' ⊆ edits) : t.EditsHeld edits' :=
  fun name item hm => h name item (hs hm)

theorem Held.append (h : t.Held items) (h' : t.Held items') : t.Held (items ++ items') := by
  intro item hi
  cases List.mem_append.mp hi with
  | inl hi => exact h item hi
  | inr hi => exact h' item hi

theorem Held.mergeEdits (h : t.Held items) (he : t.EditsHeld edits) :
    t.Held (KeyedList.mergeEdits Item.name items edits) := by
  intro item hi
  cases mem_of_mem_mergeEdits hi with
  | inl hi => exact h item hi
  | inr hi =>
      obtain ⟨name, hm⟩ := hi
      exact he name item hm

theorem EditsHeld.put_in (h : t.EditsHeld edits) : t.Held (edits.filterMap Prod.snd) := by
  intro item hi
  obtain ⟨⟨name, e⟩, hm, he⟩ := List.mem_filterMap.mp hi
  have hsome : e = some item := he
  rw [hsome] at hm
  exact h name item hm

end held

/-! ### Finding -/

theorem ends_descend {level : ℕ} {name : Name} {after : Bool} {bound : ℕ} {c : Chunk Id} {rightmost : Bool}
    (h : t.Intact) (hc : t.Held c.items) :
    (intact Id).Ends (descend level name after bound c rightmost) t
      (fun r t' => ∀ c b, r = some (c, b) → t'.Held c.items) := by
  have hfound : ∀ (t : SqlTrees Id) (c : Chunk Id) (rightmost : Bool), t.Intact → t.Held c.items →
      (intact Id).Ends (descend.found level name after c rightmost) t
        (fun r t' => ∀ c b, r = some (c, b) → t'.Held c.items) := by
    intro t c rightmost h hc
    unfold descend.found
    refine Ends.ite (fun _ => Ends.pure h ?_) (fun _ => Ends.pure h ?_)
    · intro c' b he
      cases he
    · intro c' b he
      cases he
      exact hc
  induction bound generalizing t c rightmost with
  | zero => exact hfound t c rightmost h hc
  | succ bound ih =>
      unfold descend
      refine Ends.ite (fun _ => ?_) (fun _ => hfound t c rightmost h hc)
      split
      · rename_i item last hchoose
        refine Ends.bind (ends_child h (hc.known (mem_of_choose hchoose)) true) (fun d t₁ h₁ _ hd => ?_)
        exact ih h₁ hd.2
      · refine Ends.pure h ?_
        intro c' b he
        cases he

theorem ends_seek {root : Id} {level : ℕ} {name : Name} {after : Bool} (h : t.Intact) (hroot : t.Known root) :
    (intact Id).Ends (seek root level name after) t
      (fun r t' => ∀ c b, r = some (c, b) → t'.Held c.items) := by
  unfold seek
  exact Ends.bind (ends_get h hroot) (fun c t₁ h₁ _ hc => ends_descend h₁ hc.2.2)

theorem ends_findIn {dir : Option Id} {name : Name} (h : t.Intact) (hdir : DirPresent dir t) :
    (intact Id).Ends (findIn dir name) t (fun node t' => ∀ n, node = some n → t'.Present n.reference) := by
  cases dir with
  | none =>
      refine Ends.pure h ?_
      intro n hn
      cases hn
  | some id =>
      show (intact Id).Ends (find id name) t _
      unfold find
      refine Ends.bind (ends_seek h hdir.known) (fun r t₁ h₁ _ hr => ?_)
      split
      · refine Ends.pure h₁ ?_
        intro n hn
        cases hn
      · rename_i leaf b
        refine Ends.pure h₁ ?_
        intro n hn
        obtain ⟨item, hl, rfl⟩ := Option.map_eq_some_iff.mp hn
        exact hr leaf b rfl item (mem_of_lookup hl).1

/-! ### Building -/

theorem ends_summary {c : Chunk Id} (h : t.Intact) (hc : t.Held c.items) :
    (intact Id).Ends (summary c) t (fun item t' => t'.Present item.node.reference) := by
  unfold summary
  refine Ends.bind (ends_put h hc) (fun id t₁ h₁ _ hid => Ends.pure h₁ ?_)
  exact hid.2

/-- The summaries of chunks, one after the other. -/
theorem ends_summaries {cs : List (Chunk Id)} (h : t.Intact) (hcs : ∀ c ∈ cs, t.Held c.items) :
    (intact Id).Ends (cs.mapM summary) t (fun items t' => t'.Held items) :=
  Ends.mapM (fun item => stable_present item.node.reference) h
    (fun c hc _ h' hle => ends_summary h' ((hcs c hc).onward hle))

theorem ends_shrink {bound : ℕ} {root : Id} (h : t.Intact) (hroot : t.Known root) :
    (intact Id).Ends (shrink bound root) t DirPresent := by
  induction bound generalizing t root with
  | zero =>
      refine Ends.throw ?_
      intro id he
      cases he
  | succ bound ih =>
      have hself : ∀ (t₁ : SqlTrees Id), t₁.Intact → t₁.Present (root, .tree) →
          (intact Id).Ends (pure (some root)) t₁ DirPresent := by
        intro t₁ h₁ hp
        refine Ends.pure h₁ ?_
        intro id hid
        cases hid
        exact hp
      unfold shrink
      refine Ends.bind (ends_get h hroot) (fun c t₁ h₁ _ hc => ?_)
      split
      · rename_i item hitems
        refine Ends.ite (fun _ => hself t₁ h₁ hc.2.1) (fun _ => ih h₁ ?_)
        exact hc.2.2.known (hitems ▸ List.mem_singleton_self item)
      · exact hself t₁ h₁ hc.2.1

theorem ends_top {c : Chunk Id} (h : t.Intact) (hc : t.Held c.items) :
    (intact Id).Ends (top c) t DirPresent := by
  have hput : (intact Id).Ends (do return some (← put c)) t DirPresent := by
    refine Ends.bind (ends_put h hc) (fun id t₁ h₁ _ hid => Ends.pure h₁ ?_)
    intro id' he
    cases he
    exact hid.2
  unfold top
  split
  · rename_i item hitems
    refine Ends.ite (fun _ => ?_) (fun _ => hput)
    have hknown : t.Known item.id := hc.known (hitems ▸ List.mem_singleton_self item)
    have hshrink : (intact Id).Ends (shrink t.len item.id) t DirPresent := ends_shrink h hknown
    exact hshrink
  · exact hput

/-- The chunker keeps no item and cuts none but what it held or was given. -/
theorem held_pushAll {cut : Chunker Id} {items : List (Item Id)} (hcut : t.Held cut.items) (hitems : t.Held items) :
    (∀ c ∈ (cut.pushAll items).1, t.Held c.items) ∧ t.Held (cut.pushAll items).2.items := by
  induction items generalizing cut with
  | nil => exact ⟨by simp [Chunker.pushAll], hcut⟩
  | cons item items ih =>
      have hone : t.Held (cut.items ++ [item]) :=
        hcut.append (fun i hi => hitems i (by rw [List.mem_singleton.mp hi]; exact List.mem_cons_self))
      have hpush : (∀ c ∈ (cut.push item).1.toList, t.Held c.items) ∧ t.Held (cut.push item).2.items := by
        unfold Chunker.push
        dsimp only
        split
        · refine ⟨fun c hc => ?_, held_nil⟩
          have hceq : c = ⟨cut.level, cut.items ++ [item]⟩ := by simpa using hc
          rw [hceq]
          exact hone
        · exact ⟨by simp, hone⟩
      obtain ⟨hdone, hrest⟩ := ih hpush.2 (fun i hi => hitems i (List.mem_cons_of_mem _ hi))
      refine ⟨fun c hc => ?_, hrest⟩
      cases List.mem_append.mp hc with
      | inl hc => exact hpush.1 c hc
      | inr hc => exact hdone c hc

omit [ObjectHash Id] in
theorem held_finish {cut : Chunker Id} (hcut : t.Held cut.items) : ∀ c ∈ cut.finish.toList, t.Held c.items := by
  intro c hc
  unfold Chunker.finish at hc
  split at hc
  · cases hc
  · have hceq : c = ⟨cut.level, cut.items⟩ := by simpa using hc
    rw [hceq]
    exact hcut

theorem ends_buildLevels {bound level : ℕ} {items : List (Item Id)} (h : t.Intact) (hitems : t.Held items) :
    (intact Id).Ends (buildLevels bound level items) t DirPresent := by
  induction bound generalizing t level items with
  | zero =>
      refine Ends.throw ?_
      intro id he
      cases he
  | succ bound ih =>
      have hnew : t.Held (Chunker.new level : Chunker Id).items := held_nil
      obtain ⟨hdone, hrest⟩ := held_pushAll hnew hitems
      have hall : ∀ c ∈ (((Chunker.new level).pushAll items).1 ++
          ((Chunker.new level).pushAll items).2.finish.toList), t.Held c.items := by
        intro c hc
        cases List.mem_append.mp hc with
        | inl hc => exact hdone c hc
        | inr hc => exact held_finish hrest c hc
      unfold buildLevels
      dsimp only
      split
      · refine Ends.pure h ?_
        intro id hid
        cases hid
      · rename_i c heq
        exact ends_top h (hall c (heq ▸ List.mem_singleton_self c))
      · exact Ends.bind (ends_summaries h hall) (fun items t₁ h₁ _ hi => ih h₁ hi)

/-! ### Re-cutting -/

/-- All that a run of re-cutting holds is present. -/
structure RecutHeld (run : Recut Id) (t : SqlTrees Id) : Prop where
  edits : t.EditsHeld run.edits
  cut : t.Held run.cut.items
  added : t.Held run.added
  out : t.EditsHeld run.out.toList

omit [ObjectHash Id] in
theorem RecutHeld.onward {t' : SqlTrees Id} {run : Recut Id} (h : RecutHeld run t) (hle : Onward t t') :
    RecutHeld run t' :=
  ⟨h.edits.onward hle, h.cut.onward hle, h.added.onward hle, h.out.onward hle⟩

theorem ends_recutChunk {c : Chunk Id} {rightmost : Bool} {run : Recut Id} (h : t.Intact) (hc : t.Held c.items)
    (hrun : RecutHeld run t) : (intact Id).Ends (recutChunk c rightmost run) t RecutHeld := by
  unfold recutChunk
  dsimp only
  have hmerged := hc.mergeEdits (hrun.edits.subset
    (List.takeWhile_prefix (fun e : Name × Option (Item Id) => rightmost || decide (e.1 ≤ c.last))).subset)
  obtain ⟨hdone, hrest⟩ := held_pushAll hrun.cut hmerged
  refine Ends.bind (ends_summaries h hdone) (fun added t₁ h₁ hle hadded => Ends.pure h₁ ?_)
  refine ⟨?_, hrest.onward hle, (hrun.added.onward hle).append hadded, ?_⟩
  · exact (hrun.edits.subset (List.dropWhile_suffix _).subset).onward hle
  · intro name item hm
    have hget := SortedMap.get?_eq_some.mpr hm
    rw [SortedMap.get?_insert] at hget
    split at hget
    · cases hget
    · exact hle.present _ (hrun.out name item (SortedMap.get?_eq_some.mp hget))

theorem ends_recut {root : Id} {level bound : ℕ} {c : Chunk Id} {rightmost : Bool} {run : Recut Id}
    (h : t.Intact) (hroot : t.Known root) (hc : t.Held c.items) (hrun : RecutHeld run t) :
    (intact Id).Ends (recut root level bound c rightmost run) t RecutHeld := by
  induction bound generalizing t c rightmost run with
  | zero =>
      refine Ends.throw ?_
      intro id he
      cases he
  | succ bound ih =>
      unfold recut
      refine Ends.bind (ends_recutChunk h hc hrun) (fun run' t₁ h₁ hle hrun' => ?_)
      refine Ends.ite (fun _ => Ends.pure h₁ hrun') (fun _ => ?_)
      have hroot₁ := hroot.onward hle
      refine Ends.bind (ends_seek h₁ hroot₁) (fun r t₂ h₂ hle₂ hr => ?_)
      split
      · rename_i c' rightmost'
        exact ih h₂ (hroot₁.onward hle₂) (hr c' rightmost' rfl) (hrun'.onward hle₂)
      · refine Ends.throw ?_
        intro id he
        cases he

omit [ObjectHash Id] in
theorem EditsHeld.added {out : SortedMap Name (Option (Item Id))} (h : t.EditsHeld out.toList)
    {items : List (Item Id)} (hitems : t.Held items) :
    t.EditsHeld (items.foldl (fun out item => out.insert item.name (some item)) out).toList := by
  induction items generalizing out with
  | nil => exact h
  | cons item items ih =>
      rw [List.foldl_cons]
      refine ih ?_ (fun i hi => hitems i (List.mem_cons_of_mem _ hi))
      intro name i hm
      have hget := SortedMap.get?_eq_some.mpr hm
      rw [SortedMap.get?_insert] at hget
      split at hget
      · cases hget
        exact hitems _ List.mem_cons_self
      · exact h name i (SortedMap.get?_eq_some.mp hget)

theorem ends_recutAll {root : Id} {level bound : ℕ} {edits : Edits Id} {out : SortedMap Name (Option (Item Id))}
    (h : t.Intact) (hroot : t.Known root) (hedits : t.EditsHeld edits) (hout : t.EditsHeld out.toList) :
    (intact Id).Ends (recutAll root level bound edits out) t (fun out t' => t'.EditsHeld out.toList) := by
  induction bound generalizing t edits out with
  | zero =>
      cases edits with
      | nil => exact Ends.pure h hout
      | cons edit edits =>
          refine Ends.throw ?_
          intro id he
          cases he
  | succ bound ih =>
      cases edits with
      | nil => exact Ends.pure h hout
      | cons edit edits =>
          unfold recutAll
          refine Ends.bind (ends_seek h hroot) (fun r t₁ h₁ hle₁ hr => ?_)
          split
          · refine Ends.throw ?_
            intro id he
            cases he
          · rename_i c rightmost
            have hroot₁ := hroot.onward hle₁
            have hrun : RecutHeld ⟨edit :: edits, Chunker.new level, [], out⟩ t₁ :=
              ⟨hedits.onward hle₁, held_nil, held_nil, hout.onward hle₁⟩
            have hrecut : (intact Id).Ends (recut root level t₁.len c rightmost
                ⟨edit :: edits, Chunker.new level, [], out⟩) t₁ RecutHeld :=
              ends_recut h₁ hroot₁ (hr c rightmost rfl) hrun
            have hloop : (intact Id).Ends (fun t => recut root level t.len c rightmost
                ⟨edit :: edits, Chunker.new level, [], out⟩ t) t₁ RecutHeld := hrecut
            refine Ends.bind hloop (fun run t₂ h₂ hle₂ hrun' => ?_)
            refine Ends.bind (ends_summaries h₂ (held_finish hrun'.cut)) (fun added t₃ h₃ hle₃ hadded => ?_)
            have hrun₃ := hrun'.onward hle₃
            exact ih h₃ ((hroot₁.onward hle₂).onward hle₃) hrun₃.edits
              (hrun₃.out.added (hrun₃.added.append hadded))

theorem ends_updateLevel {root : Id} {level : ℕ} {edits : Edits Id} (h : t.Intact) (hroot : t.Known root)
    (hedits : t.EditsHeld edits) :
    (intact Id).Ends (updateLevel root level edits) t (fun edits t' => t'.EditsHeld edits) := by
  unfold updateLevel
  have hnone : t.EditsHeld (SortedMap.empty : SortedMap Name (Option (Item Id))).toList := by
    intro name item hm
    cases hm
  exact Ends.bind (ends_recutAll h hroot hedits hnone) (fun out t₁ h₁ _ hout => Ends.pure h₁ hout)

theorem ends_updateLevels {root : Id} {levels : List ℕ} {edits : Edits Id} (h : t.Intact) (hroot : t.Known root)
    (hedits : t.EditsHeld edits) :
    (intact Id).Ends (updateLevels root levels edits) t (fun edits t' => t'.EditsHeld edits) := by
  induction levels generalizing t edits with
  | nil => exact Ends.pure h hedits
  | cons level levels ih =>
      unfold updateLevels
      exact Ends.bind (ends_updateLevel h hroot hedits)
        (fun edits t₁ h₁ hle hedits' => ih h₁ (hroot.onward hle) hedits')

theorem ends_update {dir : Option Id} {edits : Edits Id} (h : t.Intact) (hdir : DirPresent dir t)
    (hedits : t.EditsHeld edits) : (intact Id).Ends (update dir edits) t DirPresent := by
  cases dir with
  | none => exact ends_buildLevels h hedits.put_in
  | some root =>
      show (intact Id).Ends (do
        let chunk ← get root
        if chunk.items = [] then buildLevel 0 (edits.filterMap Prod.snd)
        else
          let edits ← updateLevels root (List.range chunk.level) edits
          buildLevel chunk.level (mergeEdits Item.name chunk.items edits)) t _
      refine Ends.bind (ends_get h hdir.known) (fun c t₁ h₁ hle hc => ?_)
      refine Ends.ite (fun _ => ends_buildLevels h₁ (hedits.onward hle).put_in) (fun _ => ?_)
      refine Ends.bind (ends_updateLevels h₁ (hdir.known.onward hle) (hedits.onward hle))
        (fun edits' t₂ h₂ hle₂ hedits' => ?_)
      exact ends_buildLevels h₂ ((hc.2.2.onward hle₂).mergeEdits hedits')

/-! ### Directories -/

/-- The content of every file that the changes write is present; no path is changed twice. -/
structure ChangesHeld (t : SqlTrees Id) (changes : List (Change Id)) : Prop where
  nodup : (changes.map Prod.fst).Nodup
  contents : ∀ path entry, (path, some entry) ∈ changes → t.Present (entry.content, .blob)

omit [ObjectHash Id] in
theorem ChangesHeld.onward {t' : SqlTrees Id} {changes : List (Change Id)} (h : t.ChangesHeld changes)
    (hle : Onward t t') : t'.ChangesHeld changes :=
  ⟨h.nodup, fun path entry hm => hle.present _ (h.contents path entry hm)⟩

/-- What an action on a subdirectory must keep. -/
def KeepsDir (into : Option Id → List (Change Id) → TreesM (Sql Id) Id (Option Id)) : Prop :=
  ∀ (t : SqlTrees Id) dir changes, t.Intact → DirPresent dir t → t.ChangesHeld changes →
    (intact Id).Ends (into dir changes) t DirPresent

theorem ends_groupEdit {into : Option Id → List (Change Id) → TreesM (Sql Id) Id (Option Id)}
    (hinto : KeepsDir into) {dir : Option Id} {changes : List (Change Id)} {name : Name}
    {g : Group (Option (FileEntry Id))} (h : t.Intact) (hdir : DirPresent dir t) (hchanges : t.ChangesHeld changes)
    (hg : GroupOf changes name g) :
    (intact Id).Ends (groupEdit into dir name g) t (fun edits t' => t'.EditsHeld edits) := by
  unfold groupEdit
  refine Ends.bind (ends_findIn h hdir) (fun current t₁ h₁ hle₁ hcurrent => ?_)
  dsimp only
  refine Ends.ite (fun _ => Ends.throw ?_) (fun _ => ?_)
  · intro id he
    cases he
  have hsub : DirPresent (current.bind Node.dir?) t₁ := by
    intro id hid
    obtain ⟨node, hnode, hn⟩ := Option.bind_eq_some_iff.mp hid
    cases node with
    | file entry => cases hn
    | dir id' =>
        cases hn
        exact hcurrent _ hnode
  have hdeeper : t₁.ChangesHeld g.deeper :=
    ⟨hg.nodup, fun path entry hm => hle₁.present _
      (hchanges.contents _ entry ((hg.mem_deeper path (some entry)).mp hm).2)⟩
  have hfile : ∀ entry, g.exact.getD (current.bind Node.file?) = some entry →
      t₁.Present (entry.content, .blob) := by
    intro entry he
    cases hexact : g.exact with
    | none =>
        rw [hexact] at he
        obtain ⟨node, hnode, hn⟩ := Option.bind_eq_some_iff.mp he
        cases node with
        | dir id => cases hn
        | file entry' =>
            cases hn
            exact hcurrent _ hnode
    | some e =>
        rw [hexact] at he
        have hsome : e = some entry := he
        rw [hg.exact, flatOf_eq_some hchanges.nodup, hsome] at hexact
        exact hle₁.present _ (hchanges.contents _ entry hexact)
  have hnext : ∀ t₂ : SqlTrees Id, t₂.Intact → Onward t₁ t₂ → ∀ sub, DirPresent sub t₂ →
      (intact Id).Ends (nextNode (g.exact.getD (current.bind Node.file?)) sub) t₂
        (fun node t' => ∀ n, node = some n → t'.Present n.reference) := by
    intro t₂ h₂ hle₂ sub hs
    unfold nextNode
    split
    · refine Ends.throw ?_
      intro id he
      cases he
    · rename_i file hf
      refine Ends.pure h₂ ?_
      intro n hn
      cases hn
      exact hle₂.present _ (hfile _ hf)
    · refine Ends.pure h₂ ?_
      intro n hn
      cases hn
      exact hs _ rfl
    · refine Ends.pure h₂ ?_
      intro n hn
      cases hn
  have hinto' : (intact Id).Ends (applyDeeper into (current.bind Node.dir?) g.deeper) t₁ DirPresent := by
    unfold applyDeeper
    exact Ends.ite (fun _ => Ends.pure h₁ hsub) (fun _ => hinto t₁ _ _ h₁ hsub hdeeper)
  refine Ends.bind hinto' (fun sub t₂ h₂ hle₂ hs => ?_)
  refine Ends.bind (hnext t₂ h₂ hle₂ sub hs) (fun next t₃ h₃ _ hn => ?_)
  refine Ends.ite (fun _ => Ends.pure h₃ ?_) (fun _ => Ends.pure h₃ ?_)
  · intro n item hm
    cases hm
  · intro n item hm
    have heq := List.mem_singleton.mp hm
    obtain ⟨_, hitem⟩ := Prod.mk.inj heq
    obtain ⟨node, hnode, rfl⟩ := Option.map_eq_some_iff.mp hitem.symm
    rw [Item.node_ofNode]
    exact hn node hnode

theorem keepsDir_applyDir (bound : ℕ) :
    KeepsDir (applyDir bound : Option Id → List (Change Id) → TreesM (Sql Id) Id (Option Id)) := by
  induction bound with
  | zero => exact fun t dir changes h hdir _ => Ends.pure h hdir
  | succ bound ih =>
      intro t dir changes h hdir hchanges
      unfold applyDir
      have hstable : ∀ edits : Edits Id, (intact Id).Stable (fun t => t.EditsHeld edits) :=
        fun edits => fun hle he => he.onward hle
      refine Ends.bind (Ends.mapM hstable h (fun g hg t' h' hle => ?_)) (fun edits t₁ h₁ hle₁ hedits => ?_)
      · have hget := SortedMap.get?_eq_some.mpr hg
        exact ends_groupEdit ih h' (hdir.onward hle) (hchanges.onward hle)
          (groups_some hchanges.nodup hget)
      · have hflat : t₁.EditsHeld edits.flatten := by
          intro name item hm
          obtain ⟨es, hes, hm⟩ := List.mem_flatten.mp hm
          exact hedits es hes name item hm
        exact Ends.ite (fun _ => Ends.pure h₁ (hdir.onward hle₁))
          (fun _ => ends_update h₁ (hdir.onward hle₁) hflat)

theorem ends_root {dir : Option Id} (h : t.Intact) (hdir : DirPresent dir t) :
    (intact Id).Ends (root dir) t (fun id t' => t'.Present (id, .tree)) := by
  cases dir with
  | some id => exact Ends.pure h (hdir id rfl)
  | none =>
      have hput := ends_put h (c := Chunk.emptyLeaf) held_nil
      exact Ends.mono hput (fun id t' _ _ hid => hid.2)

/-- Building the tree of a snapshot whose contents are present. -/
theorem ends_build {manifest : Manifest Id} (h : t.Intact)
    (hcontents : ∀ entry ∈ manifest.entries.toList.map Prod.snd, t.Present (entry.content, .blob)) :
    (intact Id).Ends (build manifest) t (fun id t' => t'.Present (id, .tree)) := by
  unfold build
  have hheld : t.ChangesHeld (manifest.files.map (fun e => (e.1, some e.2))) := by
    refine ⟨manifest.additions_valid.nodup, fun path entry hm => ?_⟩
    obtain ⟨e, he, heq⟩ := List.mem_map.mp hm
    obtain ⟨_, hentry⟩ := Prod.mk.inj heq
    have hfile : entry ∈ manifest.entries.toList.map Prod.snd := by
      unfold Manifest.files at he
      obtain ⟨p, hp, rfl⟩ := List.mem_map.mp he
      exact List.mem_map.mpr ⟨p, hp, Option.some.inj hentry⟩
    exact hcontents entry hfile
  have hnone : DirPresent none t := by
    intro id hid
    cases hid
  exact Ends.bind (keepsDir_applyDir MAX_DEPTH t none _ h hnone hheld)
    (fun dir t₁ h₁ _ hdir => ends_root h₁ hdir)

/-- Applying changes whose contents are present to a present tree. -/
theorem ends_apply {base : Id} {changes : SparseChanges Id} (h : t.Intact) (hbase : t.Present (base, .tree))
    (hcontents : ∀ entry ∈ changes.entries.toList.filterMap Prod.snd, t.Present (entry.content, .blob)) :
    (intact Id).Ends (apply base changes) t (fun id t' => t'.Present (id, .tree)) := by
  unfold apply
  have hheld : t.ChangesHeld changes.changes := by
    refine ⟨changes.changes_valid.nodup, fun path entry hm => ?_⟩
    unfold SparseChanges.changes at hm
    obtain ⟨p, hp, heq⟩ := List.mem_map.mp hm
    obtain ⟨_, hentry⟩ := Prod.mk.inj heq
    exact hcontents entry (List.mem_filterMap.mpr ⟨p, hp, hentry⟩)
  have hsome : DirPresent (some base) t := by
    intro id hid
    cases hid
    exact hbase
  exact Ends.bind (keepsDir_applyDir MAX_DEPTH t (some base) _ h hsome hheld)
    (fun dir t₁ h₁ _ hdir => ends_root h₁ hdir)

/-! ### Walking -/

theorem ends_leaves {level : ℕ} {c : Chunk Id} (h : t.Intact) (hc : t.Held c.items) :
    (intact Id).Ends (leaves level c) t (fun items t' => t'.Held items) := by
  induction level generalizing t c with
  | zero => exact Ends.pure h hc
  | succ level ih =>
      unfold leaves
      refine Ends.bind (Ends.mapM stable_held h (fun item hi t₁ h₁ hle => ?_)) (fun parts t₂ h₂ _ hparts => ?_)
      · exact Ends.bind (ends_child h₁ ((hc.known hi).onward hle) false) (fun d t₂ h₂ _ hd => ih h₂ hd.2)
      · refine Ends.pure h₂ ?_
        intro item hi
        obtain ⟨part, hp, hi⟩ := List.mem_flatten.mp hi
        exact hparts part hp item hi

/-- Walking a present directory reports no missing object, and every file found is present. -/
theorem ends_walk {bound : ℕ} {dir : Id} {pre : List Name} (h : t.Intact) (hdir : t.Known dir) :
    (intact Id).Ends (walk bound dir pre) t
      (fun files t' => ∀ e ∈ files, t'.Present (e.2.content, .blob)) := by
  induction bound generalizing t dir pre with
  | zero =>
      refine Ends.throw ?_
      intro id he
      cases he
  | succ bound ih =>
      unfold walk
      refine Ends.bind (ends_chunk h hdir false) (fun c t₁ h₁ _ hc => ?_)
      refine Ends.bind (ends_leaves h₁ hc.2.2) (fun items t₂ h₂ _ hitems => ?_)
      have hstable : ∀ files : List (RepoPath × FileEntry Id),
          (intact Id).Stable (fun t => ∀ e ∈ files, t.Present (e.2.content, .blob)) :=
        fun files => fun hle hf e he => hle.present _ (hf e he)
      refine Ends.bind (Ends.mapM hstable h₂ (fun item hi t₃ h₃ hle => ?_)) (fun parts t₄ h₄ _ hparts => ?_)
      · have hjoined : (intact Id).Ends (joined pre item.name) t₃ (fun _ _ => True) := by
          unfold joined
          refine Ends.ite (fun _ => Ends.throw ?_) (fun _ => Ends.pure h₃ trivial)
          intro id he
          cases he
        refine Ends.bind hjoined (fun path t₄ h₄ hle₄ _ => ?_)
        have hitem := hle₄.present _ (hle.present _ (hitems item hi))
        split
        · rename_i entry hnode
          rw [hnode] at hitem
          refine Ends.pure h₄ ?_
          intro e he
          rw [List.mem_singleton.mp he]
          exact hitem
        · rename_i id hnode
          rw [hnode] at hitem
          exact ih h₄ ⟨.tree, hitem⟩
      · refine Ends.pure h₄ ?_
        intro e he
        obtain ⟨part, hp, he⟩ := List.mem_flatten.mp he
        exact hparts part hp e he

/-- Reading the snapshot of a present tree reports no missing object. -/
theorem ends_entries {root : Id} (h : t.Intact) (hroot : t.Known root) :
    (intact Id).Ends (entries root) t (fun _ _ => True) := by
  unfold entries
  exact Ends.bind (ends_walk h hroot) (fun files t₁ h₁ _ _ => Ends.pure h₁ trivial)

end Trees

end Javelin
