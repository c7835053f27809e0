import Javelin.Diff3
import Javelin.Myers
import Javelin.ObjectClosure
import Javelin.Tracking
import Javelin.Versions

/-! # Blame

Path blame is the last row of a path in the changesets of the World.  Line blame walks the rows of a path since
it was last created and carries the owner of each line along a matching of the lines of one version with those
of the next.

In a reachable repository both always answer.  Path blame names the last version that
differs from its predecessor (`Chain.blamePath_spec`), and a line stands in every version of the file from its
owner on, in the order of the other lines that survive (`Chain.blameLines_spec`).  `Reachable.blame_agrees` says
both of every reachable repository. -/

namespace Javelin

open KeyedList

variable {Id : Type} [LinearOrder Id] [Encoding Id]

/-! ### Reports -/

namespace Blame

/-- The World version that made a change, and the Layer checkpoint and session behind it. -/
structure Origin (Id : Type) where
  version : WorldVersion Id
  layer : Option LayerId
  checkpoint : Option Id
  provenance : Option Provenance

/-- The last change to a path; `entry` is `none` if it deleted the path. -/
structure PathBlame (Id : Type) where
  path : RepoPath
  entry : Option (FileEntry Id)
  origin : Origin Id

structure BlameLine where
  /-- From 1 on. -/
  number : ℕ
  origin : ℕ
  text : Str
deriving DecidableEq

structure LineBlame (Id : Type) where
  path : RepoPath
  version : VersionNumber
  /-- Lines refer to their origins by index. -/
  origins : List (Origin Id)
  lines : List BlameLine

/-! ### Lines -/

/-- The owners of the lines of one more version. -/
def carry {α : Type} [DecidableEq α] (index : ℕ) (old : List α) (owners : List ℕ) (new : List α) : List ℕ :=
  (matching old new).map (fun slot =>
    match slot with
    | none => index
    | some i => owners.getD i 0)

/-- The index after the last deletion in a history. -/
def liveFrom (history : List (VersionNumber × Option (FileEntry Id))) : ℕ :=
  history.length - (history.reverse.takeWhile (fun e => e.2.isSome)).length

/-- A line without its newline. -/
def stripNewline (line : Str) : Str := if line.getLast? = some 10 then line.dropLast else line

end Blame

/-! ### Reading -/

namespace Repository
variable (r : Repository Id)

open Blame

/-- The version asked for, or the head. -/
def blameVersion (version : Option VersionNumber) : Except (Error Id) VersionNumber := do
  match version with
  | some version => return (← r.versionIn version).number
  | none => return (← r.headIn).number

/-- The change rows of a path up to a version, in World order. -/
def pathRows (path : RepoPath) (last : VersionNumber) : List (VersionNumber × Option (FileEntry Id)) :=
  r.changes.toList.filterMap (fun e => if e.1 ≤ last then (e.2.get? path).map (fun entry => (e.1, entry)) else none)

/-- `origin_in`. -/
def originIn (path : RepoPath) (version : VersionNumber) : Except (Error Id) (Origin Id) := do
  let version ← r.versionIn version
  let layer := version.operation.bind (fun operation =>
    (r.publications.get? operation).bind (fun row => if row.outcome = .published then some row.layer else none))
  match (r.blame.get? version.number).bind (fun rows => rows.get? path) with
  | some ⟨checkpoint, some id⟩ => do
      let provenance ← r.objects.readProvenance id
      return ⟨version, layer, some checkpoint, some provenance⟩
  | some ⟨checkpoint, none⟩ => return ⟨version, layer, some checkpoint, none⟩
  | none => return ⟨version, layer, none, none⟩

/-- `blame`: the last change to a path at or before a version. -/
def blamePath (path : RepoPath) (version : Option VersionNumber) : Except (Error Id) (Option (PathBlame Id)) := do
  let last ← r.blameVersion version
  match (r.pathRows path last).getLast? with
  | none => return none
  | some (version, entry) => do
      let origin ← r.originIn path version
      return some ⟨path, entry, origin⟩

/-- Reads one more version; its lines go to their owners. -/
def carryVersion (state : Str × List ℕ) (e : (VersionNumber × Option (FileEntry Id)) × ℕ) :
    Except (Error Id) (Str × List ℕ) := do
  match e.1.2 with
  | none => throw (corrupt "live after last deletion")
  | some entry => do
      let bytes ← r.objects.readBlob entry.content
      return (bytes, carry e.2 (lines state.1) state.2 (lines bytes))

/-- `blame_lines`: the origins of each line of a file.  `fromUtf8Lossy` shows the bytes of a line. -/
def blameLines (fromUtf8Lossy : Str → Str) (path : RepoPath) (version : Option VersionNumber) :
    Except (Error Id) (Option (LineBlame Id)) := do
  let last ← r.blameVersion version
  let history := r.pathRows path last
  match history.getLast? with
  | some (_, some _) => do
      let (bytes, owners) ← (history.zipIdx.drop (liveFrom history)).foldlM r.carryVersion ([], [])
      -- Only origins that still own a line, in World order.
      let owned := (owners.mergeSort (fun a b => decide (a ≤ b))).dedup
      let origins ← owned.mapM (fun owner => r.originIn path ((history.map Prod.fst).getD owner 0))
      return some ⟨path, last, origins, ((lines bytes).zip owners).zipIdx.map (fun e =>
        ⟨e.2 + 1, owned.idxOf e.1.2, fromUtf8Lossy (stripNewline e.1.1)⟩)⟩
  | _ => return none

end Repository

/-! ### Contents -/

namespace Objects
variable {objects : Objects Id}

omit [LinearOrder Id] in
theorem mem_levelChunks {items : List (Item Id)} {item : Item Id} (hm : item ∈ items) :
    ∃ c ∈ Javelin.levelChunks items 0, item ∈ c.items := by
  have hleaf : item ∈ chunkItems (Javelin.levelChunks items 0) := by
    rw [chunkItems_levelChunks]
    exact hm
  exact mem_chunkItems.mp hleaf

/-- The content of every file in a stored tree is stored. -/
theorem Ordered.contents (h : objects.Ordered) {d : ℕ} {S : Flat (FileEntry Id)} {dir : Option Id}
    (hd : IsDir objects.Readable d S dir) {p : List Name} {entry : FileEntry Id} (hp : S p = some entry) :
    objects.HasKind (entry.content, .blob) := by
  induction d generalizing S dir p with
  | zero =>
      rw [hd.1 p] at hp
      cases hp
  | succ d ih =>
      obtain ⟨items, height, hl, hr⟩ := hd
      cases p with
      | nil =>
          rw [hl.nil] at hp
          cases hp
      | cons n q =>
          have hnode := hl.node n
          cases hlook : lookup Item.name n items with
          | none =>
              rw [hlook] at hnode
              obtain ⟨hfile, hbelow⟩ := hnode
              by_cases hq : q = []
              · rw [hq, hfile] at hp
                cases hp
              · rw [show S (n :: q) = S.inner n q from (Flat.inner_of_ne hq).symm, hbelow q] at hp
                cases hp
          | some item =>
              rw [hlook, Option.map_some] at hnode
              obtain ⟨hm, _⟩ := mem_of_lookup hlook
              match hn : item.node, hnode with
              | .dir sub, hnode =>
                  by_cases hq : q = []
                  · rw [hq, hnode.1] at hp
                    cases hp
                  · rw [show S (n :: q) = S.inner n q from (Flat.inner_of_ne hq).symm] at hp
                    exact ih hnode.2.2 hp
              | .file e, hnode =>
                  by_cases hq : q = []
                  · rw [hq, hnode.1] at hp
                    obtain rfl := Option.some.inj hp
                    obtain ⟨c, hc, hmc⟩ := mem_levelChunks hm
                    have href : (e.content, ObjectKind.blob) ∈ c.references :=
                      Chunk.mem_references.mpr ⟨item, hmc, by rw [hn]; rfl⟩
                    cases hr with
                    | inl hempty =>
                        rw [hempty.1] at hm
                        cases hm
                    | inr hrooted =>
                        obtain ⟨_, _, _, _, hall⟩ := hrooted
                        cases (hall 0 (Nat.zero_le _) c hc).2 with
                        | inl he =>
                            rw [he] at hmc
                            cases hmc
                        | inr hstored => exact h.references (stored_iff.mp hstored) _ href
                  · rw [show S (n :: q) = S.inner n q from (Flat.inner_of_ne hq).symm, hnode.2 q] at hp
                    cases hp

end Objects

namespace Repository
variable {r : Repository Id} {S : VersionNumber → Manifest Id}

/-- The contents of the files of every version are stored. -/
theorem Chain.contents (h : Chain r S) (hw : r.objects.Whole) {n : VersionNumber} (hn : n < r.versions.length)
    {p : RepoPath} {entry : FileEntry Id} (hp : (S n).entries.get? p = some entry) :
    ∃ bytes, r.objects.readBlob entry.content = .ok bytes :=
  (hw.ordered.contents (h.tree n _ (List.getElem?_eq_getElem hn)) (p := p.names) hp).readBlob h.honest

/-! ### Rows -/

/-- What a path is in a snapshot. -/
def fileAt (S : VersionNumber → Manifest Id) (path : RepoPath) (n : VersionNumber) : Option (FileEntry Id) :=
  (S n).entries.get? path

/-- A path has a row in a version exactly if it differs from the version before. -/
theorem Chain.mem_pathRows (h : Chain r S) {path : RepoPath} {last : ℕ} (hlast : last < r.versions.length)
    {n : ℕ} {entry : Option (FileEntry Id)} : (n, entry) ∈ r.pathRows path last ↔
      (0 < n ∧ n ≤ last) ∧ fileAt S path (n - 1) ≠ fileAt S path n ∧ entry = fileAt S path n := by
  have hrow : ∀ k : ℕ, k + 1 ≤ last → ∀ entry,
      ((r.changes.get? (k + 1)).bind (fun rows => rows.get? path) = some entry ↔
        fileAt S path k ≠ fileAt S path (k + 1) ∧ entry = fileAt S path (k + 1)) := by
    intro k hk entry
    have hv := List.getElem?_eq_getElem (l := r.versions) (i := k) (by omega)
    have hw := List.getElem?_eq_getElem (l := r.versions) (i := k + 1) (by omega)
    obtain ⟨c, hl⟩ := h.link k _ _ hv hw
    rw [hl.rows]
    show c.flat path.names = some entry ↔ _
    rw [hl.exact]
    exact Flat.diff_eq_some
  unfold pathRows
  rw [List.mem_filterMap]
  constructor
  · intro hm
    obtain ⟨⟨m, rows⟩, hm, he⟩ := hm
    split at he
    · rename_i hle
      obtain ⟨entry', hget, he⟩ := Option.map_eq_some_iff.mp he
      obtain ⟨rfl, rfl⟩ := Prod.mk.inj he
      have hrows := SortedMap.get?_eq_some.mpr hm
      cases m with
      | zero =>
          rw [h.rows 0 (.inl rfl)] at hrows
          cases hrows
      | succ k => exact ⟨⟨Nat.succ_pos k, hle⟩, (hrow k hle entry').mp (by rw [hrows]; exact hget)⟩
    · cases he
  · intro hm
    obtain ⟨⟨hpos, hle⟩, hrest⟩ := hm
    cases n with
    | zero => exact absurd hpos (Nat.lt_irrefl 0)
    | succ k =>
        obtain ⟨rows, hrows, hget⟩ := Option.bind_eq_some_iff.mp ((hrow k hle entry).mpr hrest)
        refine ⟨(k + 1, rows), SortedMap.get?_eq_some.mp hrows, ?_⟩
        rw [if_pos hle, hget]
        rfl

omit [LinearOrder Id] [Encoding Id] in
theorem pathRows_ascending (r : Repository Id) (path : RepoPath) (last : VersionNumber) :
    Ascending Prod.fst (r.pathRows path last) := by
  refine r.changes.ascending.filterMap (fun e _ e' he => ?_)
  split at he
  · obtain ⟨entry, _, rfl⟩ := Option.map_eq_some_iff.mp he
    rfl
  · cases he

omit [LinearOrder Id] [Encoding Id] in
/-- The last key of an ascending list is the greatest. -/
theorem le_of_getLast? {K α : Type} [LinearOrder K] {key : α → K} {l : List α} (h : Ascending key l) {x y : α}
    (hx : l.getLast? = some x) (hy : y ∈ l) : key y ≤ key x := by
  obtain ⟨before, rfl⟩ := List.getLast?_eq_some_iff.mp hx
  rw [ascending_append] at h
  rw [List.mem_append, List.mem_singleton] at hy
  cases hy with
  | inl hy => exact (h.2.2 y hy x (List.mem_singleton_self x)).le
  | inr he => rw [he]

omit [LinearOrder Id] [Encoding Id] in
/-- Positions in an ascending list compare as their keys do. -/
theorem le_iff_key_le {K α : Type} [LinearOrder K] {key : α → K} {l : List α} (h : Ascending key l)
    {a b : ℕ} {x y : α} (hx : l[a]? = some x) (hy : l[b]? = some y) : a ≤ b ↔ key x ≤ key y := by
  obtain ⟨ha, rfl⟩ := List.getElem?_eq_some_iff.mp hx
  obtain ⟨hb, rfl⟩ := List.getElem?_eq_some_iff.mp hy
  have hlt := List.pairwise_iff_getElem.mp h
  constructor
  · intro hle
    cases hle.lt_or_eq with
    | inl hab => exact (hlt a b ha hb hab).le
    | inr hab =>
        subst hab
        exact le_refl _
  · intro hle
    by_contra hba
    exact absurd (hlt b a hb ha (by omega)) (not_lt.mpr hle)

omit [LinearOrder Id] [Encoding Id] in
/-- A path that no version changes stays what it was. -/
theorem fileAt_eq {path : RepoPath} {m n : ℕ} (hle : m ≤ n)
    (h : ∀ u, m < u → u ≤ n → fileAt S path (u - 1) = fileAt S path u) : fileAt S path n = fileAt S path m := by
  induction n, hle using Nat.le_induction with
  | base => rfl
  | succ n hmn ih =>
      have hstep := h (n + 1) (by omega) (le_refl _)
      rw [Nat.add_sub_cancel] at hstep
      rw [← hstep]
      exact ih (fun u hlo hhi => h u hlo (by omega))

/-! ### Origins -/

theorem Chain.provenance_attributionIn (h : Chain r S) {layer : LayerId} {n : ℕ}
    {attribution : SortedMap RepoPath (Tracked Id)} (hok : r.attributionIn r.checkpointIn layer n = .ok attribution)
    {path : RepoPath} {t : Tracked Id} (ht : attribution.get? path = some t) :
    r.checkProvenance t.provenance = .ok () := by
  have hstep : ∀ (a b : SortedMap RepoPath (Tracked Id)) m, r.attributeRevision r.checkpointIn layer a m = .ok b →
      (∀ path t, a.get? path = some t → r.checkProvenance t.provenance = .ok ()) →
      ∀ path t, b.get? path = some t → r.checkProvenance t.provenance = .ok () := by
    intro a b m hok ha path t ht
    obtain ⟨e, checkpoint, _, hread, rfl⟩ := attributeRevision_eq_ok.mp hok
    rw [get?_attributeHead, Option.map_eq_some_iff] at ht
    obtain ⟨entry, _, rfl⟩ := ht
    have hprovenance := ((checkpointIn_eq_ok h).mp hread).provenance
    unfold origin
    split
    · rename_i before hbefore
      split
      · exact ha path before hbefore
      · exact hprovenance
    · exact hprovenance
  induction n generalizing attribution path t with
  | zero =>
      rw [attributionIn_zero] at hok
      exact hstep _ _ _ hok (fun _ _ h => by cases h) path t ht
  | succ n ih =>
      rw [attributionIn_succ] at hok
      obtain ⟨a, ha, hlast⟩ := except_bind_eq_ok.mp hok
      exact hstep a _ _ hlast (fun path t ht => ih ha ht) path t ht

theorem Indexed.blame_provenance (hi : Indexed r) (h : Chain r S) {n : VersionNumber}
    {rows : SortedMap RepoPath (BlameRow Id)} (hrows : r.blame.get? n = some rows) {path : RepoPath}
    {row : BlameRow Id} (hrow : rows.get? path = some row) : r.checkProvenance row.provenance = .ok () := by
  obtain ⟨op, publication, hpub, houtcome, hresult⟩ := hi.blamed.only n rows hrows
  obtain ⟨attribution, rows', hattribution, hrows', has⟩ :=
    hi.blamed.published op publication n hpub houtcome hresult
  obtain rfl := Option.some.inj (hrows.symm.trans hrows')
  rw [has path, Option.map_eq_some_iff] at hrow
  obtain ⟨t, ht, rfl⟩ := hrow
  exact h.provenance_attributionIn hattribution ht

/-- Every version has its origin. -/
theorem Indexed.exists_originIn (hi : Indexed r) (h : Chain r S) {n : VersionNumber} {v : WorldVersion Id}
    (hv : r.versions[n]? = some v) (path : RepoPath) :
    ∃ origin, r.originIn path n = .ok origin ∧ origin.version = v := by
  unfold originIn
  rw [except_bind_of_ok (h.versionIn_eq_ok.mpr hv)]
  dsimp only
  split
  · rename_i checkpoint id hrow
    obtain ⟨rows, hrows, hrow⟩ := Option.bind_eq_some_iff.mp hrow
    have hcheck := hi.blame_provenance h hrows hrow
    obtain ⟨provenance, hread, _⟩ := except_bind_eq_ok.mp hcheck
    rw [rewrap_eq_ok] at hread
    rw [except_bind_of_ok hread]
    exact ⟨_, rfl, rfl⟩
  · exact ⟨_, rfl, rfl⟩
  · exact ⟨_, rfl, rfl⟩

/-! ### Path blame -/

theorem Chain.blameVersion_eq (h : Chain r S) {n : VersionNumber} (hn : n < r.versions.length) :
    r.blameVersion (some n) = .ok n := by
  have hv := List.getElem?_eq_getElem hn
  show (r.versionIn n >>= fun v => pure v.number) = _
  rw [except_bind_of_ok (h.versionIn_eq_ok.mpr hv), h.contiguous n _ hv]
  rfl

theorem Chain.getLast?_pathRows (h : Chain r S) {path : RepoPath} {last : ℕ} (hlast : last < r.versions.length)
    {w : ℕ} {entry : Option (FileEntry Id)} (hrow : (r.pathRows path last).getLast? = some (w, entry)) :
    (0 < w ∧ w ≤ last) ∧ fileAt S path (w - 1) ≠ fileAt S path w ∧
      (∀ u, w < u → u ≤ last → fileAt S path (u - 1) = fileAt S path u) ∧ entry = fileAt S path last := by
  have hm := List.mem_of_getLast? hrow
  obtain ⟨hrange, hne, hentry⟩ := (h.mem_pathRows hlast).mp hm
  have hlater : ∀ u, w < u → u ≤ last → fileAt S path (u - 1) = fileAt S path u := by
    intro u hlo hhi
    by_contra hchanged
    have hu := (h.mem_pathRows hlast).mpr ⟨⟨by omega, hhi⟩, hchanged, rfl⟩
    have hle := le_of_getLast? (pathRows_ascending r path last) hrow hu
    exact absurd (show u ≤ w from hle) (by omega)
  exact ⟨hrange, hne, hlater, hentry.trans (fileAt_eq hrange.2 hlater).symm⟩

/-- Path blame answers with the last change. -/
theorem Chain.blamePath_spec (h : Chain r S) (hi : Indexed r) {path : RepoPath} {last : ℕ}
    (hlast : last < r.versions.length) : ∃ result, r.blamePath path (some last) = .ok result ∧
      (result = none ↔ ∀ u, 0 < u → u ≤ last → fileAt S path (u - 1) = fileAt S path u) ∧
      ∀ b, result = some b → b.path = path ∧ b.entry = fileAt S path last ∧
        ∃ w : ℕ, r.versions[w]? = some b.origin.version ∧ (0 < w ∧ w ≤ last) ∧
          fileAt S path (w - 1) ≠ fileAt S path w ∧
          ∀ u, w < u → u ≤ last → fileAt S path (u - 1) = fileAt S path u := by
  unfold blamePath
  rw [except_bind_of_ok (h.blameVersion_eq hlast)]
  cases hrow : (r.pathRows path last).getLast? with
  | none =>
      refine ⟨none, rfl, ⟨fun _ u hpos hle => ?_, fun _ => rfl⟩, fun b hb => by cases hb⟩
      by_contra hchanged
      have hu := (h.mem_pathRows hlast).mpr ⟨⟨hpos, hle⟩, hchanged, rfl⟩
      rw [List.getLast?_eq_none_iff.mp hrow] at hu
      cases hu
  | some row =>
      obtain ⟨w, entry⟩ := row
      obtain ⟨hrange, hne, hlater, hentry⟩ := h.getLast?_pathRows hlast hrow
      have hv := List.getElem?_eq_getElem (l := r.versions) (i := w) (by omega)
      obtain ⟨origin, horigin, hversion⟩ := hi.exists_originIn h hv path
      refine ⟨some ⟨path, entry, origin⟩, ?_, ⟨fun hnone => (by cases hnone), fun hall => ?_⟩, fun b hb => ?_⟩
      · show (r.originIn path w >>= fun origin => pure (some _)) = _
        rw [except_bind_of_ok horigin]
        rfl
      · exact absurd (hall w hrange.1 hrange.2) hne
      · obtain rfl := Option.some.inj hb
        exact ⟨rfl, hentry, w, by rw [hversion]; exact hv, hrange, hne, hlater⟩

end Repository

/-! ### Line blame -/

namespace Blame

section owned
variable {α : Type} [DecidableEq α]

/-- The elements of a newer list that satisfy `keep` stand in an older one, in the same order. -/
def Survive (older newer : List α) (keep : ℕ → Prop) : Prop :=
  ∃ at' : ℕ → ℕ, (∀ i j, i < j → j < newer.length → keep i → keep j → at' i < at' j) ∧
    ∀ i < newer.length, keep i → older[at' i]? = newer[i]?

omit [DecidableEq α] in
theorem Survive.congr {older newer : List α} {keep keep' : ℕ → Prop} (h : Survive older newer keep)
    (hkeep : ∀ i < newer.length, keep' i → keep i) : Survive older newer keep' := by
  obtain ⟨at', hascending, hsame⟩ := h
  exact ⟨at', fun i j hlt hj hi' hj' => hascending i j hlt hj (hkeep i (by omega) hi') (hkeep j hj hj'),
    fun i hi hi' => hsame i hi (hkeep i hi hi')⟩

/-- Lines and their owners, after the versions numbered from `first` and before `next`. -/
structure Owned (texts : ℕ → List α) (first next : ℕ) (current : List α) (owners : List ℕ) : Prop where
  length : owners.length = current.length
  range : ∀ i < current.length, first ≤ owners.getD i 0 ∧ owners.getD i 0 < next
  survive : ∀ u, first ≤ u → u < next → Survive (texts u) current (fun i => owners.getD i 0 ≤ u)

omit [DecidableEq α] in
theorem owned_nil (texts : ℕ → List α) (first : ℕ) : Owned texts first first [] [] where
  length := rfl
  range i hi := absurd hi (Nat.not_lt_zero i)
  survive u hlo hhi := absurd hlo (by omega)

/-- One more version keeps what the owners say. -/
theorem Owned.carry {texts : ℕ → List α} {first next : ℕ} {current : List α} {owners : List ℕ}
    (h : Owned texts first next current owners) (hle : first ≤ next) :
    Owned texts first (next + 1) (texts next) (carry next current owners (texts next)) := by
  have halign := alignment_matching current (texts next)
  have hslot : ∀ i < (texts next).length, (Blame.carry next current owners (texts next)).getD i 0 = next ∨
      ∃ k, (matching current (texts next))[i]? = some (some k) ∧ k < current.length ∧
        (Blame.carry next current owners (texts next)).getD i 0 = owners.getD k 0 := by
    intro i hi
    obtain ⟨slot, hget⟩ : ∃ slot, (matching current (texts next))[i]? = some slot :=
      ⟨_, List.getElem?_eq_getElem (by rw [halign.length]; exact hi)⟩
    unfold Blame.carry
    rw [List.getD_eq_getElem?_getD, List.getElem?_map, hget]
    cases slot with
    | none => exact .inl rfl
    | some k =>
        obtain ⟨x, _, hk⟩ := halign.equal i k hget
        obtain ⟨hlt, _⟩ := List.getElem?_eq_some_iff.mp hk
        exact .inr ⟨k, rfl, hlt, rfl⟩
  refine ⟨?_, fun i hi => ?_, fun u hlo hhi => ?_⟩
  · unfold Blame.carry
    rw [List.length_map, halign.length]
  · cases hslot i hi with
    | inl hnew => omega
    | inr hold =>
        obtain ⟨k, _, hk, ho⟩ := hold
        have hrange := h.range k hk
        omega
  · by_cases hu : u = next
    · rw [hu]
      exact ⟨id, fun i j hlt _ _ _ => hlt, fun i _ _ => rfl⟩
    · obtain ⟨at', hascending, hsame⟩ := h.survive u hlo (by omega)
      -- A line that is older than this version continues one of the version before.
      have hkept : ∀ i < (texts next).length, (Blame.carry next current owners (texts next)).getD i 0 ≤ u →
          ∃ k, (matching current (texts next))[i]? = some (some k) ∧ k < current.length ∧ owners.getD k 0 ≤ u := by
        intro i hi hkeep
        cases hslot i hi with
        | inl hnew => omega
        | inr hold =>
            obtain ⟨k, hget, hk, ho⟩ := hold
            exact ⟨k, hget, hk, ho ▸ hkeep⟩
      refine ⟨fun i => at' (((matching current (texts next))[i]?.getD none).getD 0), ?_, ?_⟩
      · intro i j hlt hj hi' hj'
        obtain ⟨k, hget, hk, hkeep⟩ := hkept i (by omega) hi'
        obtain ⟨k', hget', hk', hkeep'⟩ := hkept j hj hj'
        dsimp only
        rw [hget, hget']
        exact hascending k k' (halign.ascending i j k k' hlt hget hget') hk' hkeep hkeep'
      · intro i hi hi'
        obtain ⟨k, hget, hk, hkeep⟩ := hkept i hi hi'
        obtain ⟨x, hnew, hold⟩ := halign.equal i k hget
        dsimp only
        rw [hget, hnew, ← hold]
        exact hsame k hk hkeep

end owned

section history
variable {history : List (VersionNumber × Option (FileEntry Id))}

omit [LinearOrder Id] [Encoding Id] in
/-- After the last deletion every row has an entry. -/
theorem isSome_of_liveFrom {u : ℕ} (hlo : liveFrom history ≤ u) {row : VersionNumber × Option (FileEntry Id)}
    (hrow : history[u]? = some row) : row.2.isSome := by
  obtain ⟨hu, _⟩ := List.getElem?_eq_some_iff.mp hrow
  have hreverse : history.reverse[history.length - 1 - u]? = some row := by
    rw [List.getElem?_reverse (by omega), ← hrow]
    congr 1
    omega
  have hprefix := List.takeWhile_prefix (l := history.reverse)
    (fun e : VersionNumber × Option (FileEntry Id) => e.2.isSome)
  have hlt : history.length - 1 - u < (history.reverse.takeWhile (fun e => e.2.isSome)).length := by
    unfold liveFrom at hlo
    omega
  have hmem : row ∈ history.reverse.takeWhile (fun e => e.2.isSome) := by
    have hget := hprefix.getElem hlt
    rw [List.getElem?_eq_getElem (hlt.trans_le hprefix.length_le), ← hget] at hreverse
    rw [← Option.some.inj hreverse]
    exact List.getElem_mem hlt
  exact List.all_eq_true.mp List.all_takeWhile row hmem

omit [LinearOrder Id] [Encoding Id] in
/-- The row that was deleted last is not among them. -/
theorem liveFrom_lt {w : VersionNumber} {entry : FileEntry Id} (hlast : history.getLast? = some (w, some entry)) :
    liveFrom history < history.length := by
  obtain ⟨before, rfl⟩ := List.getLast?_eq_some_iff.mp hlast
  unfold liveFrom
  rw [List.reverse_append, List.reverse_singleton, List.singleton_append, List.takeWhile_cons_of_pos rfl,
    List.length_cons, List.length_append, List.length_singleton]
  omega

end history

end Blame

namespace Repository
variable {r : Repository Id} {S : VersionNumber → Manifest Id}

open Blame

/-- The text of a row. -/
def textOf (r : Repository Id) (history : List (VersionNumber × Option (FileEntry Id))) (u : ℕ) : List Str :=
  match history[u]? with
  | some (_, some entry) => lines ((r.objects.readBlob entry.content).toOption.getD [])
  | _ => []

theorem textOf_eq {history : List (VersionNumber × Option (FileEntry Id))} {u : ℕ}
    {row : VersionNumber × Option (FileEntry Id)} (hrow : history[u]? = some row) {entry : FileEntry Id}
    (hentry : row.2 = some entry) {bytes : Str} (hread : r.objects.readBlob entry.content = .ok bytes) :
    r.textOf history u = lines bytes := by
  unfold textOf
  obtain ⟨n, e⟩ := row
  cases hentry
  rw [hrow]
  dsimp only
  rw [hread]
  rfl

/-- The walk over the rows since a path was last created. -/
theorem exists_carried {history : List (VersionNumber × Option (FileEntry Id))} {first next : ℕ}
    (hread : ∀ u, first ≤ u → ∀ row, history[u]? = some row → ∃ entry bytes, row.2 = some entry ∧
      r.objects.readBlob entry.content = .ok bytes)
    (hle : first ≤ next) (hnext : next ≤ history.length) {bytes : Str} {owners : List ℕ}
    (howned : Owned (r.textOf history) first next (lines bytes) owners)
    (hbytes : first < next → ∃ n entry, history[next - 1]? = some (n, some entry) ∧
      r.objects.readBlob entry.content = .ok bytes) :
    ∃ bytes' owners', (history.zipIdx.drop next).foldlM r.carryVersion (bytes, owners) = .ok (bytes', owners') ∧
      Owned (r.textOf history) first history.length (lines bytes') owners' ∧
      (first < history.length → ∃ n entry, history[history.length - 1]? = some (n, some entry) ∧
        r.objects.readBlob entry.content = .ok bytes') := by
  obtain ⟨k, hk⟩ := Nat.exists_eq_add_of_le hnext
  induction k generalizing next bytes owners with
  | zero =>
      rw [Nat.add_zero] at hk
      rw [List.drop_eq_nil_of_le (by rw [List.length_zipIdx, hk]), hk]
      exact ⟨bytes, owners, rfl, howned, hbytes⟩
  | succ k ih =>
      obtain ⟨row, hrow⟩ : ∃ row, history[next]? = some row := ⟨_, List.getElem?_eq_getElem (by omega)⟩
      obtain ⟨entry, bytes', hentry, hcontent⟩ := hread next hle row hrow
      have hdrop : history.zipIdx.drop next = (row, next) :: history.zipIdx.drop (next + 1) := by
        obtain ⟨hlt, hget⟩ := List.getElem?_eq_some_iff.mp hrow
        rw [List.drop_eq_getElem_cons (by rw [List.length_zipIdx]; exact hlt), List.getElem_zipIdx, hget,
          Nat.zero_add]
      have htext := textOf_eq hrow hentry hcontent
      have hstep : r.carryVersion (bytes, owners) (row, next) =
          .ok (bytes', carry next (lines bytes) owners (lines bytes')) := by
        unfold carryVersion
        dsimp only
        rw [hentry]
        show (r.objects.readBlob entry.content >>= fun bytes => _) = _
        rw [except_bind_of_ok hcontent]
        rfl
      have hcarry := howned.carry hle
      rw [htext] at hcarry
      rw [hdrop, List.foldlM_cons, except_bind_of_ok hstep]
      refine ih (by omega) (by omega) hcarry (fun _ => ⟨row.1, entry, ?_, hcontent⟩) (by omega)
      rw [Nat.add_sub_cancel, hrow, ← hentry]

omit [LinearOrder Id] [Encoding Id] in
theorem exists_mapM {α β : Type} {f : α → Except (Error Id) β} {P : α → β → Prop} {l : List α}
    (h : ∀ a ∈ l, ∃ b, f a = .ok b ∧ P a b) :
    ∃ bs, l.mapM f = .ok bs ∧ ∀ (i : ℕ) a, l[i]? = some a → ∃ b, bs[i]? = some b ∧ P a b := by
  induction l with
  | nil => exact ⟨[], rfl, fun i a ha => by cases ha⟩
  | cons x l ih =>
      obtain ⟨b, hb, hP⟩ := h x List.mem_cons_self
      obtain ⟨bs, hbs, hall⟩ := ih (fun a ha => h a (List.mem_cons_of_mem x ha))
      refine ⟨b :: bs, ?_, fun i a ha => ?_⟩
      · rw [List.mapM_cons, except_bind_of_ok hb, except_bind_of_ok hbs]
        rfl
      · cases i with
        | zero =>
            obtain rfl := Option.some.inj ha
            exact ⟨b, rfl, hP⟩
        | succ i => exact hall i a ha

/-- What line blame says of a file: each line has its owner, and it stands in every version from there on. -/
structure LinesBlamed (r : Repository Id) (S : VersionNumber → Manifest Id) (fromUtf8Lossy : Str → Str)
    (path : RepoPath) (last : ℕ) (text : List Str) (owner : ℕ → ℕ) (b : LineBlame Id) : Prop where
  named : b.path = path
  asked : b.version = last
  length : b.lines.length = text.length
  owned : ∀ i < text.length, owner i ≤ last ∧ ∃ line origin, b.lines[i]? = some line ∧ line.number = i + 1 ∧
    text[i]?.map (fun l => fromUtf8Lossy (stripNewline l)) = some line.text ∧
    b.origins[line.origin]? = some origin ∧ r.versions[owner i]? = some origin.version
  survive : ∀ n ≤ last, ∀ i < text.length, owner i ≤ n → ∃ entry bytes, fileAt S path n = some entry ∧
    r.objects.readBlob entry.content = .ok bytes ∧ Survive (lines bytes) text (fun i => owner i ≤ n)

/-- The row behind an owner. -/
theorem Chain.exists_row (h : Chain r S) {path : RepoPath} {last : ℕ} (hlast : last < r.versions.length) {o : ℕ}
    (ho : o < (r.pathRows path last).length) : ∃ row, (r.pathRows path last)[o]? = some row ∧
      ((r.pathRows path last).map Prod.fst).getD o 0 = row.1 ∧ row.1 ≤ last ∧
      ∀ n ≤ last, row.1 ≤ n → row ∈ r.pathRows path n := by
  have hrow := List.getElem?_eq_getElem ho
  obtain ⟨hin, hchanged⟩ := (h.mem_pathRows hlast).mp (List.getElem_mem ho)
  refine ⟨_, hrow, ?_, hin.2, fun n hn hle => (h.mem_pathRows (hn.trans_lt hlast)).mpr ⟨⟨hin.1, hle⟩, hchanged⟩⟩
  rw [List.getD_eq_getElem?_getD, List.getElem?_map, hrow]
  rfl

/-- The rows since a path was last created can be read. -/
theorem Chain.read_live (h : Chain r S) (hw : r.objects.Whole) {path : RepoPath} {last : ℕ}
    (hlast : last < r.versions.length) (u : ℕ) (hu : liveFrom (r.pathRows path last) ≤ u)
    (row : VersionNumber × Option (FileEntry Id)) (hrow : (r.pathRows path last)[u]? = some row) :
    ∃ entry bytes, row.2 = some entry ∧ r.objects.readBlob entry.content = .ok bytes := by
  obtain ⟨entry, hsome⟩ := Option.isSome_iff_exists.mp (isSome_of_liveFrom hu hrow)
  obtain ⟨hin, _, hfile⟩ := (h.mem_pathRows hlast).mp (List.mem_of_getElem? hrow)
  obtain ⟨bytes, hbytes⟩ := h.contents hw (hin.2.trans_lt hlast) (hfile.symm.trans hsome)
  exact ⟨entry, bytes, hsome, hbytes⟩

/-- Up to each version the lines that are owned by then survive. -/
theorem Chain.survive_of_owned (h : Chain r S) (hw : r.objects.Whole) {path : RepoPath} {last : ℕ}
    (hlast : last < r.versions.length) {text : List Str} {owners : List ℕ}
    (howned : Owned (r.textOf (r.pathRows path last)) (liveFrom (r.pathRows path last))
      (r.pathRows path last).length text owners) {n : ℕ} (hn : n ≤ last) {i : ℕ} (hi : i < text.length)
    (hkeep : ((r.pathRows path last).map Prod.fst).getD (owners.getD i 0) 0 ≤ n) :
    ∃ entry bytes, fileAt S path n = some entry ∧ r.objects.readBlob entry.content = .ok bytes ∧
      Survive (lines bytes) text (fun i => ((r.pathRows path last).map Prod.fst).getD (owners.getD i 0) 0 ≤ n) := by
  have hrows := pathRows_ascending r path last
  have hrowOf := fun j (hj : j < text.length) => h.exists_row hlast (howned.range j hj).2
  obtain ⟨row, hget, hkey, _, hupto⟩ := hrowOf i hi
  have hrow := hupto n hn (hkey ▸ hkeep)
  cases hfinal : (r.pathRows path n).getLast? with
  | none =>
      rw [List.getLast?_eq_none_iff.mp hfinal] at hrow
      cases hrow
  | some final =>
      obtain ⟨hin, _, _, hfile⟩ := h.getLast?_pathRows (hn.trans_lt hlast) hfinal
      have hmem := (h.mem_pathRows (hn.trans_lt hlast)).mp (List.mem_of_getLast? hfinal)
      -- The last row up to `n` is one of the history.
      obtain ⟨u, hu, hget⟩ := List.mem_iff_getElem.mp
        ((h.mem_pathRows hlast).mpr ⟨⟨hin.1, hin.2.trans hn⟩, hmem.2⟩)
      have hat := List.getElem?_eq_some_iff.mpr ⟨hu, hget⟩
      have hbelow : ∀ j < text.length,
          ((r.pathRows path last).map Prod.fst).getD (owners.getD j 0) 0 ≤ n → owners.getD j 0 ≤ u := by
        intro j hj hle
        obtain ⟨row, hget, hkey, _, hupto⟩ := hrowOf j hj
        have hrow := hupto n hn (hkey ▸ hle)
        exact (le_iff_key_le hrows hget hat).mpr (le_of_getLast? (pathRows_ascending r path n) hfinal hrow)
      have hfirst := (howned.range i hi).1.trans (hbelow i hi hkeep)
      obtain ⟨entry, bytes, hentry, hbytes⟩ := h.read_live hw hlast u hfirst _ hat
      have hsurvive := howned.survive u hfirst hu
      rw [textOf_eq hat hentry hbytes] at hsurvive
      exact ⟨entry, bytes, hfile.symm.trans hentry, hbytes, hsurvive.congr hbelow⟩

theorem Chain.blameLines_spec (h : Chain r S) (hw : r.objects.Whole) (hi : Indexed r) (fromUtf8Lossy : Str → Str)
    {path : RepoPath} {last : ℕ} (hlast : last < r.versions.length) :
    ∃ result, r.blameLines fromUtf8Lossy path (some last) = .ok result ∧
      (result = none ↔ fileAt S path last = none) ∧
      ∀ b, result = some b → ∃ entry bytes owner, fileAt S path last = some entry ∧
        r.objects.readBlob entry.content = .ok bytes ∧
        LinesBlamed r S fromUtf8Lossy path last (lines bytes) owner b := by
  unfold blameLines
  rw [except_bind_of_ok (h.blameVersion_eq hlast)]
  dsimp only
  cases hrow : (r.pathRows path last).getLast? with
  | none =>
      have hnever : ∀ u, 0 < u → u ≤ last → fileAt S path (u - 1) = fileAt S path u := by
        intro u hpos hle
        by_contra hchanged
        have hu := (h.mem_pathRows hlast).mpr ⟨⟨hpos, hle⟩, hchanged, rfl⟩
        rw [List.getLast?_eq_none_iff.mp hrow] at hu
        cases hu
      have hfirst : fileAt S path 0 = none := by
        unfold fileAt
        rw [h.genesis]
        rfl
      exact ⟨none, rfl, ⟨fun _ => (fileAt_eq (Nat.zero_le _) hnever).trans hfirst, fun _ => rfl⟩,
        fun b hb => (by cases hb)⟩
  | some row =>
      obtain ⟨w, entry⟩ := row
      obtain ⟨hrange, hne, hlater, hentry⟩ := h.getLast?_pathRows hlast hrow
      cases entry with
      | none => exact ⟨none, rfl, ⟨fun _ => hentry.symm, fun _ => rfl⟩, fun b hb => (by cases hb)⟩
      | some entry =>
          have hlive := liveFrom_lt hrow
          have hnil : Owned (r.textOf (r.pathRows path last)) (liveFrom (r.pathRows path last))
              (liveFrom (r.pathRows path last)) (lines []) [] := owned_nil _ _
          obtain ⟨bytes, owners, hfold, howned, hbytes⟩ := exists_carried (h.read_live hw hlast) (le_refl _)
            hlive.le hnil (fun hlt => absurd hlt (lt_irrefl _))
          obtain ⟨n, entry', hfinal, hcontent⟩ := hbytes hlive
          rw [List.getLast?_eq_getElem?, hfinal] at hrow
          obtain ⟨rfl, he⟩ := Prod.mk.inj (Option.some.inj hrow)
          obtain rfl := Option.some.inj he
          have hrange : ∀ o ∈ owners, o < (r.pathRows path last).length := by
            intro o ho
            obtain ⟨i, hi, rfl⟩ := List.mem_iff_getElem.mp ho
            have hin := howned.range i (howned.length ▸ hi)
            rw [List.getD_eq_getElem?_getD, List.getElem?_eq_getElem hi] at hin
            exact hin.2
          obtain ⟨origins, horigins, horigin⟩ := exists_mapM
            (f := fun owner => r.originIn path (((r.pathRows path last).map Prod.fst).getD owner 0))
            (P := fun owner origin => r.versions[((r.pathRows path last).map Prod.fst).getD owner 0]? =
              some origin.version)
            (l := (owners.mergeSort (fun a b => decide (a ≤ b))).dedup) (by
              intro o ho
              obtain ⟨row, _, hkey, hle, _⟩ :=
                h.exists_row hlast (hrange o (List.mem_mergeSort.mp (List.mem_dedup.mp ho)))
              rw [hkey]
              have hv := List.getElem?_eq_getElem (l := r.versions) (i := row.1) (hle.trans_lt hlast)
              obtain ⟨origin, hok, hversion⟩ := hi.exists_originIn h hv path
              exact ⟨origin, hok, hversion ▸ hv⟩)
          refine ⟨some _, by rw [except_bind_of_ok hfold]; dsimp only; rw [except_bind_of_ok horigins]; rfl,
            ⟨fun hnone => (by cases hnone), fun hnone => ?_⟩, fun b hb => ?_⟩
          · rw [hnone] at hentry
            cases hentry
          · obtain rfl := Option.some.inj hb
            refine ⟨entry', bytes, fun i => ((r.pathRows path last).map Prod.fst).getD (owners.getD i 0) 0,
              hentry.symm, hcontent, ⟨rfl, rfl, ?_, fun i hi => ?_, fun n hn i hi hkeep => ?_⟩⟩
            · rw [List.length_map, List.length_zipIdx, List.length_zip, howned.length, Nat.min_self]
            · obtain ⟨o, ho⟩ : ∃ o, owners[i]? = some o := ⟨_, List.getElem?_eq_getElem (howned.length.symm ▸ hi)⟩
              have hline := List.getElem?_eq_getElem hi
              have hgetD : owners.getD i 0 = o := by rw [List.getD_eq_getElem?_getD, ho]; rfl
              have hmem := List.mem_of_getElem? ho
              obtain ⟨row, _, hkey, hle, _⟩ := h.exists_row hlast (hrange o hmem)
              have hownedIn : o ∈ (owners.mergeSort (fun a b => decide (a ≤ b))).dedup :=
                List.mem_dedup.mpr (List.mem_mergeSort.mpr hmem)
              obtain ⟨origin, hget, hversion⟩ := horigin _ o (List.getElem?_idxOf hownedIn)
              dsimp only
              rw [hgetD]
              refine ⟨hkey ▸ hle, ⟨i + 1, _, fromUtf8Lossy (stripNewline (lines bytes)[i])⟩, origin, ?_, rfl, ?_,
                hget, hversion⟩
              · rw [List.getElem?_map, List.getElem?_zipIdx,
                  show ((lines bytes).zip owners)[i]? = some ((lines bytes)[i], o) from
                    List.getElem?_zip_eq_some.mpr ⟨hline, ho⟩]
                dsimp only [Option.map_some]
                rw [Nat.zero_add]
                rfl
              · rw [hline]
                rfl
            · exact h.survive_of_owned hw hlast howned hn hi hkeep

end Repository

namespace System

open Repository Blame

/-- Blame agrees with the trees.  `S` reads the snapshots.  Path blame names the last version that changed the
path, and is nothing iff none did; line blame is nothing iff the path is no file, and otherwise gives each line
an owner from which on it stands in every version. -/
theorem Reachable.blame_agrees {s : System Id} (h : Reachable s) (fromUtf8Lossy : Str → Str) :
    ∃ S : ℕ → Manifest Id, (∀ n < s.repository.versions.length, s.repository.manifestAt n = .ok (S n)) ∧
      ∀ (path : RepoPath) (last : ℕ), last < s.repository.versions.length →
        (∃ result, s.repository.blamePath path (some last) = .ok result ∧
          (result = none ↔ ∀ u, 0 < u → u ≤ last → fileAt S path (u - 1) = fileAt S path u) ∧
          ∀ b, result = some b → b.path = path ∧ b.entry = fileAt S path last ∧
            ∃ w : ℕ, s.repository.versions[w]? = some b.origin.version ∧ (0 < w ∧ w ≤ last) ∧
              fileAt S path (w - 1) ≠ fileAt S path w ∧
              ∀ u, w < u → u ≤ last → fileAt S path (u - 1) = fileAt S path u) ∧
        ∃ result, s.repository.blameLines fromUtf8Lossy path (some last) = .ok result ∧
          (result = none ↔ fileAt S path last = none) ∧
          ∀ b, result = some b → ∃ entry bytes owner, fileAt S path last = some entry ∧
            s.repository.objects.readBlob entry.content = .ok bytes ∧
            LinesBlamed s.repository S fromUtf8Lossy path last (lines bytes) owner b := by
  obtain ⟨S, hs⟩ := h.sound.repository
  have hc := hs.chain
  refine ⟨S, fun n hn => hc.manifestAt_eq (List.getElem?_eq_getElem hn), fun path last hlast => ⟨?_, ?_⟩⟩
  · exact hc.blamePath_spec h.indexed hlast
  · exact hc.blameLines_spec h.whole.objects h.indexed fromUtf8Lossy hlast

/-- A published version of a numbered repository blames every path. -/
theorem blame_agrees_published : ∃ (r : Repository ℕ) (n : ℕ), 0 < n ∧ n < r.versions.length ∧
    ∀ path, (∃ result, r.blamePath path (some n) = .ok result) ∧
      ∃ result, r.blameLines id path (some n) = .ok result := by
  obtain ⟨_, _, _, _, _, r', _, _, _, _, _, hreach, row, hrow, _, htag⟩ := exists_published (0 : ℕ) ⟨[97]⟩ ⟨[49]⟩
  obtain ⟨S, hs⟩ := hreach.sound.repository
  obtain ⟨_, version, hsucc⟩ := hs.succeeded hrow htag
  obtain ⟨hlast, _⟩ := List.getElem?_eq_some_iff.mp hsucc.stored
  obtain ⟨_, _, hblame⟩ := hreach.blame_agrees id
  refine ⟨r', version.number, hsucc.against ▸ Nat.succ_pos _, hlast, fun path => ?_⟩
  obtain ⟨⟨result, hpath, _⟩, lines, hlines, _⟩ := hblame path version.number hlast
  exact ⟨⟨result, hpath⟩, lines, hlines⟩

end System

end Javelin
