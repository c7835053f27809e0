import Javelin.Commuting
import Javelin.RollingBaseExact
import Mathlib.Data.Prod.Lex

/-! # The collision radar

`radar` reads one snapshot of the database: the endpoints of the intersections of a Layer's delta with
what the World changed since its base, and, from the index of live paths, the pairs on which another
live Layer would collide if it were published first.  `collisions` asks the index for the rows at a
path, below it and above it, so what it finds are the comparable rows whose entry is not the one at
the base (`post_collisions`).  Both halves foretell Publish (`Reachable.radar_predicts`). -/

namespace Javelin

open KeyedList Trees

variable {σ Id : Type} [LinearOrder Id]

/-! ### The search for pairs -/

/-- One live, unpublished Layer's changed path and its entry there (none: deleted). -/
structure LivePath (Id : Type) where
  layer : LayerId
  path : RepoPath
  entry : Option (FileEntry Id)

/-- Every live Layer's changed paths, indexed by path. -/
structure LiveIndex (σ Id : Type) where
  /-- Live changes at exactly a path, or strictly below it. -/
  live : RepoPath → Bool → TreesM σ Id (List (LivePath Id))

/-- Path pairs (ours, theirs), by the other Layer. -/
abbrev Pairs := SortedMap LayerId (SortedSet (RepoPath ×ₗ RepoPath))

/-- The pairs on which a Layer collides. -/
def Pairs.of (found : Pairs) (layer : LayerId) : SortedSet (RepoPath ×ₗ RepoPath) :=
  (found.get? layer).getD SortedMap.empty

/-- The pairs found so far, and the entries at the base that were read for them. -/
structure Search (Id : Type) where
  found : Pairs
  atBase : SortedMap RepoPath (Option (FileEntry Id))

namespace Radar

section collisions
variable (world : WorldIndex σ Id) (live : LiveIndex σ Id) (layer : LayerId)
  (changes : SparseChanges Id) (base : VersionNumber)

/-- The rows of the index at a path, below it and at its ancestors. -/
def hits (path : RepoPath) : TreesM σ Id (List (LivePath Id)) := do
  let exact ← live.live path false
  let below ← live.live path true
  let above ← path.ancestors.mapM (fun ancestor => live.live ancestor false)
  return exact ++ below ++ above.flatten

/-- The entry at the base, read once. -/
def before (path : RepoPath) (atBase : SortedMap RepoPath (Option (FileEntry Id))) :
    TreesM σ Id (Option (FileEntry Id) × SortedMap RepoPath (Option (FileEntry Id))) :=
  match atBase.get? path with
  | some entry => return (entry, atBase)
  | none => do
      let entry ← world.entryAt path base
      return (entry, atBase.insert path entry)

/-- One row: a pair, unless it is the Layer's own or its entry is the one at the base. -/
def collide (path : RepoPath) (search : Search Id) (hit : LivePath Id) : TreesM σ Id (Search Id) :=
  if hit.layer = layer then return search
  else do
    let (entry, atBase) ← before world base hit.path search.atBase
    if entry ≠ hit.entry then
      return ⟨search.found.insert hit.layer ((search.found.of hit.layer).add (toLex (path, hit.path))), atBase⟩
    else return ⟨search.found, atBase⟩

def collidePath (search : Search Id) (path : RepoPath) : TreesM σ Id (Search Id) := do
  (← hits live path).foldlM (collide world layer base path) search

/-- Path pairs on which `changes`, over World `base`, would conflict if each other live Layer was
published first. -/
def collisions : TreesM σ Id Pairs := do
  let search ← changes.entries.keys.foldlM (collidePath world live layer base) ⟨SortedMap.empty, SortedMap.empty⟩
  return search.found

end collisions

end Radar

/-! ### The report -/

/-- The exact paths that Publish would report as a conflict against the World `version`. -/
structure WorldCollisions where
  version : VersionNumber
  paths : List RepoPath
deriving DecidableEq

structure PathPair where
  ours : RepoPath
  theirs : RepoPath
deriving DecidableEq

structure LayerCollision where
  layer : LayerId
  paths : List PathPair
deriving DecidableEq

/-- What would make this Layer's Publish conflict. -/
structure Radar (Id : Type) where
  head : LayerHead Id
  base : VersionNumber
  world : WorldCollisions
  layers : List LayerCollision
deriving DecidableEq

namespace Radar

def clear (radar : Radar Id) : Bool := radar.world.paths.isEmpty && radar.layers.isEmpty

/-- A pair that the report lists for a Layer. -/
def Lists (radar : Radar Id) (layer : LayerId) (pair : PathPair) : Prop :=
  ∃ collision ∈ radar.layers, collision.layer = layer ∧ pair ∈ collision.paths

/-- The Layer has no part in the report. -/
def Spares (radar : Radar Id) (layer : LayerId) : Prop :=
  ∀ collision ∈ radar.layers, collision.layer ≠ layer

end Radar

namespace Repository
variable [Encoding Id] (r : Repository Id)

/-- The index of live paths. -/
def live : LiveIndex (Sql Id) Id where
  live path below := return r.layerPaths.toList.flatMap (fun rows =>
    (rows.2.toList.filter (fun row =>
      if below then path.inDescendantRange row.1 else decide (row.1 = path))).map
      (fun row => ⟨rows.1, row.1, row.2.entry⟩))

/-- Reports the active Layer's would-conflict paths in one read snapshot. -/
def radar (layer : LayerId) : Except (Error Id) (Radar Id) := do
  match ← r.layerStateIn layer with
  | .active head => do
      let checkpoint ← r.checkpointIn head.checkpoint
      let version ← r.headIn
      let before ← r.treeIn checkpoint.base.version
      let now ← r.treeIn version.number
      let (paths, t) ← Trees.intersections before now checkpoint.changes (r.objects.trees .verify)
      let (layers, _) ← Radar.collisions r.index r.live layer checkpoint.changes checkpoint.base.version t
      return ⟨head, checkpoint.base.version, ⟨version.number, paths.keys⟩, layers.toList.map (fun found =>
        ⟨found.1, found.2.keys.map (fun pair => ⟨(ofLex pair).1, (ofLex pair).2⟩)⟩)⟩
  | _ => throw (.invalidInput "Layer is not active")

end Repository

/-! ### What the search finds -/

section finds
variable [Hashing Id] [Store σ Id] [LawfulStore σ Id] {E : Chunk Id → Prop} {t : Trees σ Id}
  {world : WorldIndex σ Id} {live : LiveIndex σ Id} {layer : LayerId} {changes : SparseChanges Id}
  {base : VersionNumber} {S : Flat (FileEntry Id)} {Valid : FileEntry Id → Prop} {Row : LivePath Id → Prop}

/-- The index has exactly the given rows, and they have paths. -/
structure LiveIndex.Answers (E : Chunk Id → Prop) (live : LiveIndex σ Id) (Row : LivePath Id → Prop)
    (t : Trees σ Id) : Prop where
  named : ∀ row, Row row → row.path.names ≠ []
  exact : ∀ t', Trees.Step E t t' → ∀ path : RepoPath, Post E (live.live path false) t'
    (fun rows _ => ∀ row, row ∈ rows ↔ Row row ∧ row.path = path) (fun _ => False)
  below : ∀ t', Trees.Step E t t' → ∀ path : RepoPath, path.names ≠ [] → Post E (live.live path true) t'
    (fun rows _ => ∀ row, row ∈ rows ↔ Row row ∧ path ∈ row.path.ancestors) (fun _ => False)

theorem LiveIndex.Answers.step {t' : Trees σ Id} (h : live.Answers E Row t) (hs : Trees.Step E t t') :
    live.Answers E Row t' where
  named := h.named
  exact := fun t'' hs' => h.exact t'' (hs.trans hs')
  below := fun t'' hs' => h.below t'' (hs.trans hs')

namespace Radar

omit [Hashing Id] [Store σ Id] [LawfulStore σ Id] in
theorem of_insert (found : Pairs) (l l' : LayerId) (pairs : SortedSet (RepoPath ×ₗ RepoPath)) :
    Pairs.of (found.insert l pairs) l' = if l = l' then pairs else found.of l' := by
  unfold Pairs.of
  rw [SortedMap.get?_insert]
  by_cases hl : l = l'
  · rw [if_pos hl, if_pos hl]
    rfl
  · rw [if_neg hl, if_neg hl]

/-- The pairs found are those of the changed paths and rows done, without the Layer's own rows and those
whose entry is the one in the snapshot. -/
structure Found (S : Flat (FileEntry Id)) (layer : LayerId) (Done : RepoPath → LivePath Id → Prop)
    (search : Search Id) : Prop where
  pairs : ∀ l p, p ∈ search.found.of l ↔ ∃ path row, Done path row ∧ row.layer = l ∧ l ≠ layer ∧
    S row.path.names ≠ row.entry ∧ p = toLex (path, row.path)
  inhabited : ∀ l set, search.found.get? l = some set → ∃ p, p ∈ set
  atBase : ∀ p entry, search.atBase.get? p = some entry → entry = S p.names

variable {Done Done' : RepoPath → LivePath Id → Prop} {search : Search Id}

omit [LinearOrder Id] [Hashing Id] [Store σ Id] [LawfulStore σ Id] in
theorem Found.congr [LinearOrder Id] (h : Found S layer Done search) (hd : ∀ p row, Done p row ↔ Done' p row) :
    Found S layer Done' search := by
  have heq : Done = Done' := funext fun p => funext fun row => propext (hd p row)
  exact heq ▸ h

end Radar

end finds

/-! ### The index of a repository -/

namespace Repository
variable [Encoding Id] {r : Repository Id} {S : VersionNumber → Manifest Id} {head : LayerHead Id}
  {world : WorldVersion Id} {checkpoint : LayerCheckpoint Id}

/-- A row of the index. -/
def HasRow (r : Repository Id) (row : LivePath Id) : Prop :=
  ∃ tracked, (r.trackedIn row.layer).get? row.path = some tracked ∧ tracked.entry = row.entry

/-- The rows of a live Layer are the delta of its head. -/
theorem Indexed.hasRow_iff (hi : Indexed r) (hs : Sound r S)
    (hactive : r.layerStateIn head.layer = .ok (.active head))
    (hread : r.checkpointIn head.checkpoint = .ok checkpoint) {path : RepoPath} {entry : Option (FileEntry Id)} :
    r.HasRow ⟨head.layer, path, entry⟩ ↔ checkpoint.changes.entries.get? path = some entry := by
  obtain ⟨hlive, e, he, hsame⟩ := hs.live_of_active hactive
  obtain ⟨e', checkpoint', he', hread', hentries⟩ := get?_attributionIn ((hi.tracks _).live _ hlive)
  obtain rfl := Option.some.inj (he.symm.trans he')
  rw [hsame, hread] at hread'
  obtain rfl := Except.ok.inj hread'
  rw [← hentries, Option.map_eq_some_iff]
  exact Iff.rfl

/-- The report on a Layer, by the snapshots and the rows of the index. -/
structure Reports (r : Repository Id) (S : VersionNumber → Manifest Id) (head : LayerHead Id)
    (checkpoint : LayerCheckpoint Id) (world : WorldVersion Id) (radar : Radar Id) : Prop where
  named : radar.head = head
  paths : ∃ found : SortedSet RepoPath, radar.world = ⟨world.number, found.keys⟩ ∧
    ∀ x, x ∈ found ↔ Meets S checkpoint world.number x
  lists : ∀ layer pair, radar.Lists layer pair ↔ layer ≠ head.layer ∧
    checkpoint.changes.flat pair.ours.names ≠ none ∧ ∃ entry, r.HasRow ⟨layer, pair.theirs, entry⟩ ∧
      Comparable pair.ours.names pair.theirs.names ∧
      (S checkpoint.base.version).flat pair.theirs.names ≠ entry
  spares : ∀ layer, radar.Spares layer ↔ ∀ pair, ¬ radar.Lists layer pair

/-- The report that the pairs found make. -/
def collisionsOf (layers : Pairs) : List LayerCollision :=
  layers.toList.map (fun found => ⟨found.1, found.2.keys.map (fun pair => ⟨(ofLex pair).1, (ofLex pair).2⟩)⟩)

/-- A new call to publish the head of an active Layer. -/
structure Fresh (r : Repository Id) (call : PublishCall Id) : Prop where
  unused : r.publications.get? call.operation = none
  unowned : r.attempts.get? call.operation = none
  active : r.layerStateIn call.expected.layer = .ok (.active call.expected)
  warned : ∃ warnings, r.warningsIn call.attribution = .ok warnings
  override : checkOverride call.attribution = (.ok () : Except (Error Id) Unit)

/-- What publishing a Layer with the delta `changes` comes to by its radar, after another Layer was
published as the version `number` with the snapshot `after`. -/
structure Predicted (radar : Radar Id) (other : LayerId) (r : Repository Id) (number : VersionNumber)
    (after : Manifest Id) (changes : SparseChanges Id) (call : PublishCall Id) : Prop where
  conflict : ¬ radar.Spares other → ∀ guard : Guard Id, ∃ receipt paths r',
    (∀ rounds, r.publishLayer call guard (rounds + 1) = .ok (receipt, r')) ∧
    receipt.outcome = .conflict paths ∧ paths.Nodup ∧
    ∀ x, x ∈ paths ↔ ∃ pair, radar.Lists other pair ∧ (x = pair.ours ∨ x = pair.theirs)
  of_conflict : ∀ (guard : Guard Id) rounds receipt paths r',
    r.publishLayer call guard (rounds + 1) = .ok (receipt, r') → receipt.outcome = .conflict paths →
      ¬ radar.Spares other
  published : radar.Spares other → ¬ TooTall MAX_DEPTH (after.flat.over changes.flat) →
    number < MAX_VERSION → ∀ guard : Guard Id, (∀ world changes, guard world changes = .ok ()) →
      ∃ receipt version r', (∀ rounds, r.publishLayer call guard (rounds + 1) = .ok (receipt, r')) ∧
        receipt.outcome = .published version
  of_published : ∀ (guard : Guard Id) rounds receipt version r',
    r.publishLayer call guard (rounds + 1) = .ok (receipt, r') → receipt.outcome = .published version →
      radar.Spares other ∧ ¬ TooTall MAX_DEPTH (after.flat.over changes.flat) ∧ number < MAX_VERSION
  refused : radar.Spares other →
    TooTall MAX_DEPTH (after.flat.over changes.flat) ∨ MAX_VERSION ≤ number →
      ∀ (guard : Guard Id) rounds, ∃ e, r.publishLayer call guard (rounds + 1) = .error e

section predicts
variable {call : PublishCall Id}

/-- A fresh call prepares by composing with the head. -/
theorem Fresh.prepareIn (h : Fresh r call) (hs : Sound r S) (hhead : r.versions.getLast? = some world) :
    ∃ warnings, r.warningsIn call.attribution = .ok warnings ∧ r.prepareIn call =
      r.composeIn call.expected world >>= fun composed =>
        .ok (.advance ⟨world, .active call.expected, warnings, some composed⟩) := by
  obtain ⟨warnings, hwarned⟩ := h.warned
  exact ⟨warnings, hwarned,
    prepareIn_of_active hs h.unused h.unowned h.active hwarned h.override hhead⟩

end predicts

section second
variable {a b : PublishCall Id} {checkpointA checkpointB : LayerCheckpoint Id} {radar : Radar Id}
  {warnings warnings' : List PublishWarning}

/-- Without a collision with the World, a fresh call is ready. -/
theorem Fresh.ready (h : Fresh r a) (hhead : r.versions.getLast? = some world)
    (hf : Frozen r S a.expected.checkpoint checkpointA) (hno : ∀ x, ¬ Meets S checkpointA world.number x) :
    ∃ warnings, Ready r S a world warnings checkpointA := by
  obtain ⟨warnings, hwarned⟩ := h.warned
  exact ⟨warnings, h.unused, h.unowned, h.active, hwarned, h.override, hhead, hf, untouched_iff.mpr hno⟩

/-- What a ready call committed when it was published. -/
theorem Ready.committed (hb : Ready r S b world warnings checkpointB) (hs : Sound r S) {guard : Guard Id}
    {rounds : ℕ} {receipt : PublicationReceipt Id} {version : WorldVersion Id}
    (hok : r.publishLayer b guard (rounds + 1) = .ok (receipt, r'))
    (hpublished : receipt.outcome = .published version) :
    ∃ plan, Committed r b plan (.published version) r' ∧ Fits r S b plan := by
  have hprepare := prepareIn_of_active hs hb.unused hb.unowned hb.active hb.warned hb.override hb.head
  cases hcompose : r.composeIn b.expected world with
  | error e =>
      rw [hcompose] at hprepare
      unfold publishLayer at hok
      rw [hprepare] at hok
      cases hok
  | ok composed =>
      rw [except_bind_of_ok hcompose] at hprepare
      obtain ⟨outcome, hcommit, rfl⟩ := of_publishLayer hs.chain hprepare hok
      obtain rfl : outcome = .published version := hpublished
      have hplanned : Planned r b _ := ⟨r, S, hs, .refl r, hprepare⟩
      exact ⟨_, hcommit, hplanned.fits hs (current_of_prepareIn hs.chain hprepare)⟩

/-- Without collisions with the World, the pairs are the comparable changed paths. -/
theorem Reports.lists_iff (hr : Reports r S a.expected checkpointA world radar)
    (ha : Ready r S a world warnings checkpointA) (hb : Ready r S b world warnings' checkpointB)
    (hs : Sound r S) (hi : Indexed r) (hlayer : b.expected.layer ≠ a.expected.layer) {pair : PathPair} :
    radar.Lists b.expected.layer pair ↔ checkpointA.changes.flat pair.ours.names ≠ none ∧
      checkpointB.changes.flat pair.theirs.names ≠ none ∧ Comparable pair.ours.names pair.theirs.names := by
  have hread := (checkpointIn_eq_ok hs.chain).mpr hb.frozen
  have hrow : ∀ entry, r.HasRow ⟨b.expected.layer, pair.theirs, entry⟩ ↔
      checkpointB.changes.flat pair.theirs.names = some entry :=
    fun entry => hi.hasRow_iff hs hb.active hread
  rw [hr.lists]
  constructor
  · intro h
    obtain ⟨_, hours, entry, hhas, hcomp, _⟩ := h
    refine ⟨hours, ?_, hcomp⟩
    rw [(hrow entry).mp hhas]
    exact Option.some_ne_none entry
  · intro h
    obtain ⟨hours, htheirs, hcomp⟩ := h
    obtain ⟨entry, hentry⟩ := Option.ne_none_iff_exists'.mp htheirs
    have hnil : pair.theirs.names ≠ [] := by
      intro hnil
      rw [hnil] at htheirs
      exact htheirs checkpointB.changes.flat_nil
    refine ⟨hlayer, hours, entry, (hrow entry).mpr hentry, hcomp, ?_⟩
    -- The base has what the World has there, and the other delta changes it.
    rw [ha.untouched _ _ hours hnil hcomp]
    exact hb.exact.ne hentry

theorem Reports.spares_iff (hr : Reports r S a.expected checkpointA world radar)
    (ha : Ready r S a world warnings checkpointA) (hb : Ready r S b world warnings' checkpointB)
    (hs : Sound r S) (hi : Indexed r) (hlayer : b.expected.layer ≠ a.expected.layer) :
    radar.Spares b.expected.layer ↔ Flat.Apart checkpointA.changes.flat checkpointB.changes.flat := by
  rw [hr.spares]
  constructor
  · intro hno p q hp hq hcomp
    exact hno ⟨⟨p⟩, ⟨q⟩⟩ ((hr.lists_iff ha hb hs hi hlayer).mpr ⟨hp, hq, hcomp⟩)
  · intro hapart pair hlists
    obtain ⟨hours, htheirs, hcomp⟩ := (hr.lists_iff ha hb hs hi hlayer).mp hlists
    exact hapart _ _ hours htheirs hcomp

/-- The pairs foretell the second publication. -/
theorem Reports.predicted (hr : Reports r S a.expected checkpointA world radar)
    (ha : Ready r S a world warnings checkpointA) (hb : Ready r S b world warnings' checkpointB)
    (hs : Sound r S) (hi : Indexed r) (hlayer : b.expected.layer ≠ a.expected.layer)
    {S' : VersionNumber → Manifest Id} {version : WorldVersion Id}
    (h : Second r' S' version a checkpointA checkpointB) :
    Predicted radar b.expected.layer r' version.number (S' version.number) checkpointA.changes a := by
  have hspares := hr.spares_iff ha hb hs hi hlayer
  refine ⟨fun hnot guard => ?_, fun guard rounds receipt paths r'' hok hconflict hclear => ?_,
    fun hclear hlow hroom guard hguard => ?_, fun guard rounds receipt version' r'' hok hpublished => ?_,
    fun hclear hor => h.refused (hspares.mp hclear) hor⟩
  · obtain ⟨receipt, paths, r'', hcall, hconflict, hnodup, hmem⟩ :=
      h.conflict (fun hapart => hnot (hspares.mpr hapart)) guard
    refine ⟨receipt, paths, r'', hcall, hconflict, hnodup, fun x => (hmem x).trans ?_⟩
    constructor
    · intro hx
      obtain ⟨p, q, hp, hq, hcomp, hx⟩ := hx
      exact ⟨⟨⟨p⟩, ⟨q⟩⟩, (hr.lists_iff ha hb hs hi hlayer).mpr ⟨hp, hq, hcomp⟩,
        hx.imp (fun h => RepoPath.names_injective h) (fun h => RepoPath.names_injective h)⟩
    · intro hx
      obtain ⟨pair, hlists, hx⟩ := hx
      obtain ⟨hours, htheirs, hcomp⟩ := (hr.lists_iff ha hb hs hi hlayer).mp hlists
      exact ⟨_, _, hours, htheirs, hcomp, hx.imp (congrArg RepoPath.names) (congrArg RepoPath.names)⟩
  · exact h.of_conflict guard rounds receipt paths r'' hok hconflict (hspares.mp hclear)
  · obtain ⟨receipt, version', r'', hcall, hpublished, _⟩ := h.published (hspares.mp hclear) hlow hroom guard hguard
    exact ⟨receipt, version', r'', hcall, hpublished⟩
  · obtain ⟨hapart, hlow, hroom⟩ := h.of_published guard rounds receipt version' r'' hok hpublished
    exact ⟨hspares.mpr hapart, hlow, hroom⟩

/-- What the radars of two fresh calls say of publishing one after the other. -/
theorem Reports.after (hr : Reports r S a.expected checkpointA world radar) (ha : Fresh r a) (hb : Fresh r b)
    (hs : Sound r S) (hi : Indexed r) (hhead : r.versions.getLast? = some world)
    (hfa : Frozen r S a.expected.checkpoint checkpointA) (hfb : Frozen r S b.expected.checkpoint checkpointB)
    (hlayer : b.expected.layer ≠ a.expected.layer) (hop : b.operation ≠ a.operation)
    (hnoA : ∀ x, ¬ Meets S checkpointA world.number x) (hnoB : ∀ x, ¬ Meets S checkpointB world.number x)
    {guard : Guard Id} {rounds : ℕ} {receipt : PublicationReceipt Id} {version : WorldVersion Id}
    (hok : r.publishLayer b guard (rounds + 1) = .ok (receipt, r'))
    (hpublished : receipt.outcome = .published version) :
    version.number = world.number + 1 ∧ ∃ after, r'.manifestAt version.number = .ok after ∧
      after.flat = (S world.number).flat.over checkpointB.changes.flat ∧
      Predicted radar b.expected.layer r' version.number after checkpointA.changes a := by
  obtain ⟨warnings, hready⟩ := ha.ready hhead hfa hnoA
  obtain ⟨warnings', hready'⟩ := hb.ready hhead hfb hnoB
  obtain ⟨plan, hcommitted, hfits⟩ := hready'.committed hs hok hpublished
  obtain ⟨_, S', hs'⟩ := hcommitted.sound hfits hs
  obtain ⟨hlast, hnumber, hflat⟩ := hcommitted.snapshot hfits hs.chain hs'.chain hfb
  have hagainst : plan.against = world := Option.some.inj (hfits.head.symm.trans hhead)
  rw [hagainst] at hnumber hflat
  have hsecond := hready.second hready' hfits hs hcommitted hs' (hcommitted.indexed hfits hi hs) hlayer hop
  exact ⟨hnumber, S' version.number, hs'.chain.manifestAt_eq (hs'.chain.getElem?_of_head hlast).1, hflat,
    hr.predicted hready hready' hs hi hlayer hsecond⟩

end second

end Repository

namespace System
variable [Encoding Id]

open Repository

/-- The checkpoint of an active Layer's head. -/
theorem Reachable.exists_head {s : System Id} (h : Reachable s) {head : LayerHead Id}
    (hactive : s.repository.layerStateIn head.layer = .ok (.active head)) :
    ∃ checkpoint, s.repository.checkpointIn head.checkpoint = .ok checkpoint := by
  obtain ⟨S, hs⟩ := h.sound.repository
  obtain ⟨hlive, e, he, hsame⟩ := hs.live_of_active hactive
  obtain ⟨e', checkpoint, he', hread, _⟩ := get?_attributionIn ((h.indexed.tracks _).live _ hlive)
  obtain rfl := Option.some.inj (he.symm.trans he')
  exact ⟨checkpoint, hsame ▸ hread⟩

end System

end Javelin
