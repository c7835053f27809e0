import Javelin.HostedWrites
import Javelin.Imports
import Javelin.Stored
import Javelin.Texts

/-! # Forks

`fork` copies a source's World up to a version into a target of its own: first the objects of each version and then
the version, then the traces that publications named, and last the origin.  The source is another node, held by its
lock, so it is a parameter; each transaction and each row of the target is one write (`Durable`).

A fork that stops is taken up again: trees that are stored are complete, and the loop starts behind the target's
head.  A target that is ahead of the requested version stays ahead: a fork returns what was asked for if and only if
the target was not (`fork_newly_returns`). -/

namespace Javelin

open KeyedList Bytes Collaboration Identity Protocol Codec Repository

variable {Id : Type} [LinearOrder Id] [Encoding Id]

namespace Repository

/-- `tree_bytes_bounded`, up to the largest chunk. -/
def treeBytesBounded (r : Repository Id) (id : Id) : Except (Error Id) (Chunk Id) := do
  let chunk ← r.objects.readTree id
  if chunk.fault.isSome = true then throw (.corruptObject id) else return chunk

end Repository

/-- A finished fork.  `omitted` lists the traces the reader could not see. -/
structure Forked (Id : Type) where
  origin : Origin Id
  omitted : List Id
deriving DecidableEq

/-- The operation that copies a version. -/
def forkOperation (number : VersionNumber) : OperationId := ⟨text "fork-" ++ showNumber number⟩

namespace FileWorldLog

/-- A question to the other node. -/
def asking {α : Type} (x : Except (Error Id) α) : NodeM Id α := native (fun _ => x)

/-! ### Objects -/

/-- `copy_blob`. -/
def copyBlob (source : Repository Id) (id : Id) : NodeM Id Unit := do
  if ← native (fun r => r.hasBlob id) then return ()
  else do
    let bytes ← asking (source.objects.readBlob id)
    let _ ← store (fun r => r.putBlob bytes)
    return ()

/-- Copies so many items of a chunk, one after the other. -/
def copyAll {α : Type} (copy : α → NodeM Id Unit) : List α → NodeM Id Unit
  | [] => return ()
  | a :: rest => do
      copy a
      copyAll copy rest

/-- Copies what an entry names. -/
def copyNode (source : Repository Id) (copyTree : Id → NodeM Id Unit) : Node Id → NodeM Id Unit
  | .file entry => copyBlob source entry.content
  | .dir child => copyTree child

/-- `copy_tree`, at most so many chunks deep: one chunk and everything under it. -/
def copyTree (source : Repository Id) : ℕ → Id → NodeM Id Unit
  | 0, _ => Durable.fail (.native (.storage "stack overflow"))
  | bound + 1, root => do
      if ← native (fun r => r.hasTree root) then return ()
      else do
        let chunk ← asking (source.treeBytesBounded root)
        copyAll (fun entry => copyNode source (copyTree source bound) entry.2) chunk.entries
        copyAll (copyTree source bound) chunk.children
        let _ ← store (fun r => r.putTree chunk)
        return ()

/-! ### Traces -/

/-- Keeps the earliest version that named `trace`. -/
def note (earliest : SortedMap Id VersionNumber) (named : Id × VersionNumber) : SortedMap Id VersionNumber :=
  earliest.insert named.1 (min ((earliest.get? named.1).getD named.2) named.2)

/-- The trace that a decided request named, with the version it published. -/
def namedTrace (decided : PublishLayer Id × Codec.PublishOutcome Id) : Option (Id × VersionNumber) :=
  match decided.2, decided.1.attribution with
  | .published number _ _, .agent (some trace) _ => some (trace, number)
  | _, _ => none

/-- `inherited_traces`: the traces up to `upto`, each with the earliest version that named it. -/
def inheritedTraces (source : FileWorldLog Id) (upto : VersionNumber) : List (Id × VersionNumber) :=
  let own := (source.decided.toList.filterMap (fun row => namedTrace row.2)).filter (fun named => named.2 ≤ upto)
  let earliest := (own ++ source.forkTraces.toList).foldl note SortedMap.empty
  earliest.toList.filter (fun named => named.2 ≤ upto)

/-- `INSERT OR IGNORE` of a trace. -/
def insertNew (traces : List Id) (trace : Id) : List Id := if traces.contains trace then traces else traces ++ [trace]

/-- Marks a trace that is restricted in the source. -/
def copyMark (source : FileWorldLog Id) (trace : Id) : NodeM Id Unit :=
  if source.restricted.contains trace then update (fun n => { n with restricted := insertNew n.restricted trace })
  else return ()

/-- Copies one trace, or marks it as left out; returns whether it is copied. -/
def copyTrace (source : FileWorldLog Id) (reader : Role) (named : Id × VersionNumber) : NodeM Id Bool := do
  update (fun n => { n with forkTraces :=
    if (n.forkTraces.get? named.1).isSome then n.forkTraces else n.forkTraces.insert named.1 named.2 })
  if source.omitted.contains named.1 ∨ (source.restricted.contains named.1 ∧ reader < .maintain) then do
    update (fun n => { n with omitted := insertNew n.omitted named.1 })
    return false
  else do
    copyBlob source.repo named.1
    copyMark source named.1
    return true

/-- The loop of `copy_traces`: returns the traces that are left out. -/
def copyEachTrace (source : FileWorldLog Id) (reader : Role) : List (Id × VersionNumber) → NodeM Id (List Id)
  | [] => return []
  | named :: rest => do
      let copied ← copyTrace source reader named
      let omitted ← copyEachTrace source reader rest
      return if copied = true then omitted else named.1 :: omitted

/-- `copy_traces`. -/
def copyTraces (source : FileWorldLog Id) (upto : VersionNumber) (reader : Role) : NodeM Id (List Id) :=
  copyEachTrace source reader (inheritedTraces source upto)

/-! ### The fork -/

/-- Copies one version. -/
def copyVersion (source : Repository Id) (bound : ℕ) (number : VersionNumber) : NodeM Id Unit := do
  let version ← asking (source.versionIn number)
  copyTree source bound version.tree
  match ← store (fun r => r.advanceToTree (forkOperation number) (number - 1) version.tree) with
  | .accepted copied =>
      if copied.id ≠ version.id then throwNew "invalid_input" "copied version does not match the source"
      else return ()
  | .stale _ => throwNew "invalid_input" "target head moved during the fork"

/-- Writes the origin, unless there is one. -/
def insertOrigin (origin : Origin Id) : NodeM Id Unit :=
  Durable.transact (fun n =>
    match n.origin with
    | some _ => .error (.protocol ⟨"storage", "UNIQUE constraint failed: fork_origin.singleton"⟩)
    | none => .ok ((), { n with origin := some origin }))

/-- A fork of a target without an origin. -/
def forkAnew (source : FileWorldLog Id) (sourceName : Str) (bound : ℕ) (upto : VersionNumber) (reader : Role) :
    NodeM Id (Forked Id) := do
  let head ← asking source.repo.headIn
  if head.number < upto then
    throwNew "invalid_input" ("fork point " ++ toString upto ++ " is past the source's head")
  else do
    let start ← native (fun r => r.headIn)
    let expected ← asking (source.repo.versionIn start.number)
    if start.id ≠ expected.id then throwNew "invalid_input" "target does not match the source at its head"
    else do
      copyAll (copyVersion source.repo bound) (List.range' (start.number + 1) (upto - start.number))
      let omitted ← copyTraces source upto reader
      let version ← asking (source.repo.versionIn upto)
      insertOrigin ⟨sourceName, upto, version.id⟩
      return ⟨⟨sourceName, upto, version.id⟩, omitted⟩

/-- `fork`: copies `source`'s log up to `upto` into the node. -/
def fork (source : FileWorldLog Id) (sourceName : Str) (bound : ℕ) (upto : VersionNumber) (reader : Role) :
    NodeM Id (Forked Id) := do
  match ← look (fun n => n.origin) with
  | some origin =>
      if origin.source = sourceName ∧ origin.number = upto then do
        let omitted ← look (fun n => n.omitted)
        return ⟨origin, omitted⟩
      else throwNew "invalid_input" ("repository is already forked from " ++ (ofText origin.source).getD "" ++
        " at " ++ toString origin.number)
  | none => forkAnew source sourceName bound upto reader

/-! ### What a fork writes -/

section leaves
variable {n n' : FileWorldLog Id} {source : Repository Id}

omit [Encoding Id] in
@[simp] theorem leaves_asking_bind {α β : Type} {x : Except (Error Id) α} {g : α → NodeM Id β} :
    (asking x >>= g).Leaves n n' ↔ n' = n ∨ ∃ a, x = .ok a ∧ (g a).Leaves n n' := leaves_native_bind

omit [Encoding Id] in
@[simp] theorem answers_asking_bind {α β : Type} {x : Except (Error Id) α} {g : α → NodeM Id β} {b : β} :
    (asking x >>= g).Answers n b n' ↔ ∃ a, x = .ok a ∧ (g a).Answers n b n' := answers_native_bind

omit [Encoding Id] in
/-- A relation that every copy keeps is kept by all of them. -/
theorem leaves_copyAll {α : Type} {R : FileWorldLog Id → FileWorldLog Id → Prop} {copy : α → NodeM Id Unit}
    (hrefl : ∀ n, R n n) (htrans : ∀ {n₁ n₂ n₃}, R n₁ n₂ → R n₂ n₃ → R n₁ n₃)
    (hcopy : ∀ a n n', (copy a).Leaves n n' → R n n') {l : List α} (h : (copyAll copy l).Leaves n n') : R n n' := by
  induction l generalizing n with
  | nil => exact Durable.leaves_pure.mp h ▸ hrefl n
  | cons a l ih =>
      obtain hfirst | ⟨_, n₁, hfirst, hrest⟩ := Durable.leaves_bind.mp h
      · exact hcopy a n n' hfirst
      · exact htrans (hcopy a n n₁ hfirst.leaves) (ih hrest)

theorem since_copyBlob {id : Id} (h : (copyBlob source id).Leaves n n') : Since n n' := by
  unfold copyBlob at h
  obtain rfl | ⟨there, _, h⟩ := leaves_native_bind.mp h
  · exact .refl _
  split at h
  · exact Durable.leaves_pure.mp h ▸ .refl n
  obtain rfl | ⟨bytes, _, h⟩ := leaves_asking_bind.mp h
  · exact .refl _
  obtain hput | ⟨_, n₁, hput, h⟩ := Durable.leaves_bind.mp h
  · obtain rfl | ⟨_, r, hok, rfl⟩ := leaves_store.mp hput
    · exact .refl _
    · exact .repo (quiet_putBlob hok)
  · obtain ⟨r, hok, rfl⟩ := answers_store.mp hput
    exact Durable.leaves_pure.mp h ▸ .repo (quiet_putBlob hok)

theorem since_copyTree {bound : ℕ} {root : Id} (h : (copyTree source bound root).Leaves n n') : Since n n' := by
  induction bound generalizing root n n' with
  | zero => exact Durable.leaves_fail.mp h ▸ .refl n
  | succ bound ih =>
      unfold copyTree at h
      obtain rfl | ⟨there, _, h⟩ := leaves_native_bind.mp h
      · exact .refl _
      split at h
      · exact Durable.leaves_pure.mp h ▸ .refl n
      obtain rfl | ⟨chunk, _, h⟩ := leaves_asking_bind.mp h
      · exact .refl _
      have hnode : ∀ (entry : Name × Node Id) (n n' : FileWorldLog Id),
          (copyNode source (copyTree source bound) entry.2).Leaves n n' → Since n n' := by
        intro entry n n' hcopy
        cases hentry : entry.2 with
        | file file =>
            rw [hentry] at hcopy
            exact since_copyBlob hcopy
        | dir child =>
            rw [hentry] at hcopy
            exact ih hcopy
      obtain hentries | ⟨_, n₁, hentries, h⟩ := Durable.leaves_bind.mp h
      · exact leaves_copyAll Since.refl Since.trans hnode hentries
      have hsince₁ := leaves_copyAll Since.refl Since.trans hnode hentries.leaves
      obtain hchildren | ⟨_, n₂, hchildren, h⟩ := Durable.leaves_bind.mp h
      · exact hsince₁.trans (leaves_copyAll Since.refl Since.trans (fun _ _ _ => ih) hchildren)
      have hsince₂ := hsince₁.trans (leaves_copyAll Since.refl Since.trans (fun _ _ _ => ih) hchildren.leaves)
      obtain hput | ⟨_, n₃, hput, h⟩ := Durable.leaves_bind.mp h
      · obtain rfl | ⟨_, r, hok, rfl⟩ := leaves_store.mp hput
        · exact hsince₂
        · exact hsince₂.trans (.repo (quiet_putTree hok))
      · obtain ⟨r, hok, rfl⟩ := answers_store.mp hput
        exact Durable.leaves_pure.mp h ▸ hsince₂.trans (.repo (quiet_putTree hok))

/-- Apart from trace tables, only quiet writes lie between. -/
structure Traced (n₀ n : FileWorldLog Id) : Prop where
  quiet : Quiet n₀.repo n.repo
  same : n = { n₀ with
    repo := n.repo, restricted := n.restricted, forkTraces := n.forkTraces, omitted := n.omitted }

theorem Traced.refl (n : FileWorldLog Id) : Traced n n := ⟨.refl _, rfl⟩

theorem Traced.trans {n₀ n₁ n₂ : FileWorldLog Id} (h : Traced n₀ n₁) (h' : Traced n₁ n₂) : Traced n₀ n₂ := by
  refine ⟨h.quiet.trans h'.quiet, ?_⟩
  have h₂ := h'.same
  rw [h.same] at h₂
  exact h₂

theorem Since.traced {n₀ n : FileWorldLog Id} (h : Since n₀ n) : Traced n₀ n := by
  obtain ⟨r, hq, rfl⟩ := h
  exact ⟨hq, rfl⟩

theorem Traced.origin {n₀ n : FileWorldLog Id} (h : Traced n₀ n) : n.origin = n₀.origin := by rw [h.same]

omit [Encoding Id] in
/-- What leaves a row behind leaves the state before it or after it. -/
theorem leaves_update_bind {β : Type} {f : FileWorldLog Id → FileWorldLog Id} {g : Unit → NodeM Id β} :
    (update f >>= g).Leaves n n' ↔ n' = n ∨ (g ()).Leaves (f n) n' := by
  rw [Durable.leaves_bind, leaves_update]
  constructor
  · rintro ((h | rfl) | ⟨_, n₁, h, hrest⟩)
    · exact .inl h
    · exact .inr (leaves_self _)
    · rw [answers_update.mp h] at hrest
      exact .inr hrest
  · rintro (h | h)
    · exact .inl (.inl h)
    · exact .inr ⟨(), f n, answers_update.mpr rfl, h⟩

theorem traced_copyTrace {source : FileWorldLog Id} {reader : Role} {named : Id × VersionNumber}
    (h : (copyTrace source reader named).Leaves n n') : Traced n n' := by
  unfold copyTrace at h
  obtain rfl | h := leaves_update_bind.mp h
  · exact .refl _
  have hnoted : Traced n { n with forkTraces :=
      if (n.forkTraces.get? named.1).isSome then n.forkTraces else n.forkTraces.insert named.1 named.2 } :=
    ⟨.refl _, rfl⟩
  refine hnoted.trans ?_
  split at h
  · obtain rfl | h := leaves_update_bind.mp h
    · exact .refl _
    · rw [Durable.leaves_pure.mp h]
      exact ⟨.refl _, rfl⟩
  · obtain hblob | ⟨_, n₁, hblob, h⟩ := Durable.leaves_bind.mp h
    · exact (since_copyBlob hblob).traced
    refine (since_copyBlob hblob.leaves).traced.trans ?_
    have hmark : ∀ {n₂ : FileWorldLog Id}, (copyMark source named.1).Leaves n₁ n₂ → Traced n₁ n₂ := by
      intro n₂ hmark
      unfold copyMark at hmark
      split at hmark
      · obtain rfl | rfl := leaves_update.mp hmark
        · exact .refl _
        · exact ⟨.refl _, rfl⟩
      · exact Durable.leaves_pure.mp hmark ▸ .refl _
    obtain h | ⟨_, n₂, h, hpure⟩ := Durable.leaves_bind.mp h
    · exact hmark h
    · exact Durable.leaves_pure.mp hpure ▸ hmark h.leaves

theorem traced_copyEachTrace {source : FileWorldLog Id} {reader : Role} {l : List (Id × VersionNumber)}
    (h : (copyEachTrace source reader l).Leaves n n') : Traced n n' := by
  induction l generalizing n n' with
  | nil => exact Durable.leaves_pure.mp h ▸ .refl _
  | cons named l ih =>
      obtain hfirst | ⟨_, n₁, hfirst, h⟩ := Durable.leaves_bind.mp h
      · exact traced_copyTrace hfirst
      refine (traced_copyTrace hfirst.leaves).trans ?_
      obtain hrest | ⟨_, n₂, hrest, hpure⟩ := Durable.leaves_bind.mp h
      · exact ih hrest
      · exact Durable.leaves_pure.mp hpure ▸ ih hrest.leaves

end leaves

/-! ### What a fork answers -/

section answers
variable {n n' : FileWorldLog Id} {source : Repository Id}

/-- An accepted version stands behind the expected one, whether it is new or was recorded before. -/
theorem of_accepted {r r' : Repository Id} {S : VersionNumber → Manifest Id} (hc : Chain r S) {op : OperationId}
    {expected : VersionNumber} {tree : Id} {v : WorldVersion Id}
    (hok : r.advanceToTree op expected tree = .ok (.accepted v, r')) :
    v.number = expected + 1 ∧ v ∈ r'.versions ∧ (r' = r ∨ r'.versions = r.versions ++ [v]) := by
  obtain ⟨rfl, a, hattempt, hexpected, htree, hout⟩ | ⟨hused, _, world, hlast, hadvance⟩ := of_advanceIn hc hok
  · unfold attemptOutcome at hout
    obtain ⟨actual, hactual, h₁⟩ := except_bind_eq_ok.mp hout
    by_cases hacc : a.accepted = true
    · rw [if_pos hacc] at h₁
      obtain ⟨_, hrefuse, hpure⟩ := except_bind_eq_ok.mp h₁
      obtain rfl := AdvanceOutcome.accepted.inj (Except.ok.inj hpure)
      rw [refuse_eq_ok, not_or, not_not, not_not] at hrefuse
      unfold resultVersion at hactual
      cases hv : r'.versionIn a.result with
      | error e =>
          rw [hv] at hactual
          cases hactual
      | ok version =>
          rw [hv] at hactual
          obtain rfl := Except.ok.inj hactual
          have hn := hc.versionIn_eq_ok.mp hv
          refine ⟨?_, List.mem_of_getElem? hn, .inl rfl⟩
          rw [hc.contiguous _ _ hn, hrefuse.1, hexpected]
    · rw [if_neg hacc] at h₁
      obtain ⟨_, _, hpure⟩ := except_bind_eq_ok.mp h₁
      cases hpure
  · obtain ⟨objects, T, _, _, _, ha⟩ := of_advanceNew hc hlast (by simp) hadvance
    cases ha with
    | accepted c he hlt hc' =>
        exact ⟨congrArg (· + 1) he.symm, List.mem_append_right _ List.mem_cons_self, .inr rfl⟩

/-- A copy of the version behind the head makes it the head. -/
theorem answers_copyVersion (hn : n.repo.Hosted) {world : WorldVersion Id}
    (hlast : n.repo.versions.getLast? = some world) {bound : ℕ} {u : Unit}
    (h : (copyVersion source bound (world.number + 1)).Answers n u n') :
    n'.repo.Hosted ∧ n'.origin = n.origin ∧ ∃ version v, source.versionIn (world.number + 1) = .ok version ∧
      n'.repo.versions.getLast? = some v ∧ v.number = world.number + 1 ∧ v.id = version.id := by
  unfold copyVersion at h
  obtain ⟨version, hversion, h⟩ := answers_asking_bind.mp h
  obtain ⟨_, n₁, htree, h⟩ := Durable.answers_bind.mp h
  have hsince := since_copyTree htree.leaves
  have hn₁ := hn.quiet hsince.quiet
  obtain ⟨S, hs⟩ := hn₁.sound
  have hlast₁ : n₁.repo.versions.getLast? = some world := by rw [hsince.quiet.versions, hlast]
  obtain ⟨outcome, n₂, hstore, h⟩ := Durable.answers_bind.mp h
  obtain ⟨r, hok, rfl⟩ := answers_store.mp hstore
  cases outcome with
  | stale actual => exact absurd h answers_throwNew
  | accepted v =>
      dsimp only at h
      split at h
      · exact absurd h answers_throwNew
      rename_i hid
      obtain ⟨_, rfl⟩ := Durable.answers_pure.mp h
      obtain ⟨hnum, hmem, hrepo⟩ := of_accepted hs.chain hok
      rw [Nat.add_sub_cancel] at hnum
      obtain ⟨plans, hreach⟩ := hn₁
      refine ⟨⟨plans, hreach.run (.single (.transact (.advanceToTree hok)))⟩, ?_, version, v, hversion, ?_, hnum,
        not_not.mp hid⟩
      · exact hsince.traced.origin
      · rcases hrepo with rfl | happend
        · -- a recorded copy would stand behind the head
          obtain ⟨k, hk⟩ := List.getElem?_of_mem hmem
          obtain ⟨hlt, _⟩ := List.getElem?_eq_some_iff.mp hk
          have hlength := (hs.chain.getElem?_of_head hlast₁).2
          rw [hlength, ← hnum, hs.chain.contiguous k v hk] at hlt
          exact absurd hlt (lt_irrefl _)
        · show r.versions.getLast? = _
          rw [happend, List.getLast?_concat]

/-- What the loop leaves at the head: the last version it copied, or the head it found. -/
theorem answers_copyVersions (hn : n.repo.Hosted) {world : WorldVersion Id}
    (hlast : n.repo.versions.getLast? = some world) {bound k : ℕ} {u : Unit}
    (h : (copyAll (copyVersion source bound) (List.range' (world.number + 1) k)).Answers n u n')
    (hid : ∃ version, source.versionIn world.number = .ok version ∧ world.id = version.id) :
    n'.repo.Hosted ∧ n'.origin = n.origin ∧ ∃ version v, source.versionIn (world.number + k) = .ok version ∧
      n'.repo.versions.getLast? = some v ∧ v.number = world.number + k ∧ v.id = version.id := by
  induction k generalizing n world with
  | zero =>
      obtain ⟨_, rfl⟩ := Durable.answers_pure.mp h
      obtain ⟨version, hversion, hsame⟩ := hid
      exact ⟨hn, rfl, version, world, hversion, hlast, rfl, hsame⟩
  | succ k ih =>
      rw [List.range'_succ] at h
      obtain ⟨_, n₁, hcopy, hrest⟩ := Durable.answers_bind.mp h
      obtain ⟨hn₁, horigin, version, v, hversion, hlast₁, hnum, hsame⟩ := answers_copyVersion hn hlast hcopy
      rw [← hnum] at hrest hversion
      obtain ⟨hn', horigin', version', v', hversion', hlast', hnum', hsame'⟩ :=
        ih hn₁ hlast₁ hrest ⟨version, hversion, hsame⟩
      have hshift : v.number + k = world.number + (k + 1) := by
        rw [hnum, Nat.add_assoc, Nat.add_comm 1 k]
      rw [hshift] at hversion' hnum'
      exact ⟨hn', horigin'.trans horigin, version', v', hversion', hlast', hnum', hsame'⟩

omit [Encoding Id] in
theorem answers_insertOrigin {origin : Origin Id} {u : Unit} :
    (insertOrigin origin).Answers n u n' ↔ n.origin = none ∧ n' = { n with origin := some origin } := by
  unfold insertOrigin
  rw [Durable.answers_transact]
  cases horigin : n.origin with
  | some o => simp
  | none => simp [eq_comm]

end answers

/-- A fork that newly returns: the target's head is the requested version, or stays where it was before it. -/
theorem of_forkAnew {source n n' : FileWorldLog Id} {name : Str} {bound : ℕ} {upto : VersionNumber} {reader : Role}
    {forked : Forked Id} (hn : n.repo.Hosted) (h : (forkAnew source name bound upto reader).Answers n forked n') :
    ∃ start version at_ head, n.repo.headIn = .ok start ∧ source.repo.versionIn upto = .ok version ∧
      source.repo.versionIn (max start.number upto) = .ok at_ ∧ n'.repo.headIn = .ok head ∧
      head.number = max start.number upto ∧ head.id = at_.id ∧
      forked.origin = ⟨name, upto, version.id⟩ ∧ n'.origin = some forked.origin := by
  unfold forkAnew at h
  obtain ⟨sourceHead, hhead, h⟩ := answers_asking_bind.mp h
  split at h
  · exact absurd h answers_throwNew
  obtain ⟨start, hstart, h⟩ := answers_native_bind.mp h
  obtain ⟨expected, hexpected, h⟩ := answers_asking_bind.mp h
  split at h
  · exact absurd h answers_throwNew
  rename_i hid
  obtain ⟨S, hs⟩ := hn.sound
  obtain ⟨_, n₁, hloop, h⟩ := Durable.answers_bind.mp h
  obtain ⟨hn₁, _, at_, head, hat, hlast₁, hnum, hsame⟩ := answers_copyVersions hn (hs.chain.headIn_eq_ok.mp hstart)
    hloop ⟨expected, hexpected, not_not.mp hid⟩
  obtain ⟨omitted, n₂, htraces, h⟩ := Durable.answers_bind.mp h
  have htraced := traced_copyEachTrace htraces.leaves
  obtain ⟨version, hversion, h⟩ := answers_asking_bind.mp h
  obtain ⟨_, n₃, hinsert, hpure⟩ := Durable.answers_bind.mp h
  obtain ⟨_, rfl⟩ := answers_insertOrigin.mp hinsert
  obtain ⟨rfl, rfl⟩ := Durable.answers_pure.mp hpure
  have hmax : start.number + (upto - start.number) = max start.number upto := add_tsub_eq_max
  rw [hmax] at hat hnum
  obtain ⟨S₂, hs₂⟩ := (hn₁.quiet htraced.quiet).sound
  refine ⟨start, version, at_, head, hstart, hversion, hat, ?_, hnum, hsame, rfl, rfl⟩
  rw [hs₂.chain.headIn_eq_ok, htraced.quiet.versions, hlast₁]

theorem answers_fork {source n n' : FileWorldLog Id} {name : Str} {bound : ℕ} {upto : VersionNumber} {reader : Role}
    {forked : Forked Id} (hnew : n.origin = none) : (fork source name bound upto reader).Answers n forked n' ↔
      (forkAnew source name bound upto reader).Answers n forked n' := by
  unfold fork
  rw [answers_look_bind, hnew]

theorem leaves_fork {source n n' : FileWorldLog Id} {name : Str} {bound : ℕ} {upto : VersionNumber} {reader : Role}
    (hnew : n.origin = none) : (fork source name bound upto reader).Leaves n n' ↔
      (forkAnew source name bound upto reader).Leaves n n' := by
  unfold fork
  rw [leaves_look_bind, hnew]

/-- A fork that newly returns success for a version has brought the target to that version, with the identity it has
in the source and in the recorded origin, if and only if the target was not ahead of it. -/
theorem fork_newly_returns {source n n' : FileWorldLog Id} {name : Str} {bound : ℕ} {upto : VersionNumber}
    {reader : Role} {forked : Forked Id} (hn : n.repo.Hosted) (hnew : n.origin = none)
    (h : (fork source name bound upto reader).Answers n forked n') :
    (∃ head version, n'.repo.headIn = .ok head ∧ source.repo.versionIn upto = .ok version ∧ head.number = upto ∧
      head.id = version.id ∧ n'.origin = some ⟨name, upto, head.id⟩ ∧ forked.origin = ⟨name, upto, head.id⟩) ↔
    ∃ start, n.repo.headIn = .ok start ∧ start.number ≤ upto := by
  obtain ⟨start, version, at_, head, hstart, hversion, hat, hhead, hnum, hid, hforked, horigin⟩ :=
    of_forkAnew hn ((answers_fork hnew).mp h)
  constructor
  · rintro ⟨head', version', hhead', _, hnum', _⟩
    obtain rfl := Except.ok.inj (hhead.symm.trans hhead')
    exact ⟨start, hstart, hnum.symm.trans hnum' ▸ le_max_left _ _⟩
  · rintro ⟨start', hstart', hle⟩
    obtain rfl := Except.ok.inj (hstart.symm.trans hstart')
    rw [max_eq_right hle] at hat hnum
    obtain rfl := Except.ok.inj (hversion.symm.trans hat)
    rw [hforked] at horigin
    exact ⟨head, version, hhead, hversion, hnum, hid, by rw [hid]; exact horigin, by rw [hid]; exact hforked⟩

/-- A target that is as its source has nothing left to copy. -/
theorem exists_fork_done {n : FileWorldLog ℕ} (hn : n.repo.Hosted) (hnew : n.origin = none)
    (hdecided : n.decided = SortedMap.empty) (htraces : n.forkTraces = SortedMap.empty) {head : WorldVersion ℕ}
    (hlast : n.repo.versions.getLast? = some head) {upto : VersionNumber} (hle : upto ≤ head.number) (name : Str)
    (bound : ℕ) (reader : Role) : ∃ forked n', (fork n name bound upto reader).Answers n forked n' := by
  obtain ⟨S, hs⟩ := hn.sound
  have hhead := hs.chain.headIn_eq_ok.mpr hlast
  obtain ⟨hat, hlength⟩ := hs.chain.getElem?_of_head hlast
  have hlt : upto < n.repo.versions.length := hlength ▸ Nat.lt_succ_of_le hle
  obtain ⟨version, hversion⟩ : ∃ version, n.repo.versionIn upto = .ok version :=
    ⟨_, hs.chain.versionIn_eq_ok.mpr (List.getElem?_eq_getElem hlt)⟩
  have hnone : inheritedTraces n upto = [] := by
    unfold inheritedTraces
    rw [hdecided, htraces]
    rfl
  refine ⟨⟨⟨name, upto, version.id⟩, []⟩, { n with origin := some ⟨name, upto, version.id⟩ }, ?_⟩
  refine (answers_fork hnew).mpr (answers_asking_bind.mpr ⟨head, hhead, ?_⟩)
  rw [if_neg (not_lt.mpr hle)]
  refine answers_native_bind.mpr ⟨head, hhead, ?_⟩
  refine answers_asking_bind.mpr ⟨head, hs.chain.versionIn_eq_ok.mpr hat, ?_⟩
  rw [if_neg (not_not.mpr rfl), Nat.sub_eq_zero_of_le hle]
  refine Durable.answers_bind.mpr ⟨(), n, Durable.answers_pure.mpr ⟨rfl, rfl⟩, ?_⟩
  refine Durable.answers_bind.mpr ⟨[], n, ?_, ?_⟩
  · unfold copyTraces
    rw [hnone]
    exact Durable.answers_pure.mpr ⟨rfl, rfl⟩
  refine answers_asking_bind.mpr ⟨version, hversion, ?_⟩
  exact Durable.answers_bind.mpr ⟨(), _, answers_insertOrigin.mpr ⟨hnew, rfl⟩, Durable.answers_pure.mpr ⟨rfl, rfl⟩⟩

theorem hosted_new : (initial 0 : FileWorldLog ℕ).repo.Hosted := ⟨[], 0, .refl⟩

/-- A fork of a new repository at its first version. -/
theorem fork_newly_returns_new : ∃ n' : FileWorldLog ℕ, ∃ forked : Forked ℕ,
    ∃ head version, n'.repo.headIn = .ok head ∧ (initial 0 : FileWorldLog ℕ).repo.versionIn 0 = .ok version ∧
      head.number = 0 ∧ head.id = version.id ∧ n'.origin = some ⟨[1], 0, head.id⟩ ∧
      forked.origin = ⟨[1], 0, head.id⟩ := by
  obtain ⟨S, hs⟩ := hosted_new.sound
  obtain ⟨forked, n', hfork⟩ := exists_fork_done hosted_new rfl rfl rfl rfl (le_refl 0) [1] 1 .maintain
  have hhead := hs.chain.headIn_eq_ok.mpr rfl
  exact ⟨n', forked, (fork_newly_returns hosted_new rfl hfork).mpr ⟨_, hhead, le_refl 0⟩⟩

/-- An earlier fork to a later version that was stopped before its origin: the target is ahead of what is asked for
now, and stays ahead. -/
theorem fork_ahead : ∃ (source n n' : FileWorldLog ℕ) (forked : Forked ℕ), source.repo.Hosted ∧
    (fork source [1] 1 1 .maintain).Leaves (initial 0) n ∧ n.origin = none ∧
    (fork source [1] 1 0 .maintain).Answers n forked n' ∧ forked.origin.number = 0 ∧
    ∃ head, n'.repo.headIn = .ok head ∧ head.number = 1 := by
  obtain ⟨S, hs⟩ := hosted_new.sound
  have hlast : (Repository.initial 0 : Repository ℕ).versions.getLast? =
      some ⟨0, versionId none emptyId SparseChanges.empty, emptyId, none⟩ := rfl
  obtain ⟨v, r, hok, happend, htree, _⟩ : ∃ v r, (Repository.initial 0).advanceToTree (forkOperation 1) 0 emptyId =
      .ok (.accepted v, r) ∧ r.versions = (Repository.initial 0).versions ++ [v] ∧ v.tree = emptyId ∧ _ ∧ _ :=
    exists_advanceToTree hs hlast (by decide) rfl rfl (treeStored_empty _)
  -- the source, and the target once its version is copied
  have hosted : Repository.Hosted r := ⟨[], 0, .single (.transact (.advanceToTree hok))⟩
  have hlast₁ : r.versions.getLast? = some v := by rw [happend, List.getLast?_concat]
  obtain ⟨S₁, hs₁⟩ := hosted.sound
  have hnum : v.number = 1 := (of_accepted hs.chain hok).1
  have hat : r.versions[1]? = some v := by rw [← hnum]; exact (hs₁.chain.getElem?_of_head hlast₁).1
  obtain ⟨forked, n', hfork⟩ := exists_fork_done (n := { initial 0 with repo := r }) hosted rfl rfl rfl hlast₁
    (Nat.zero_le _) [1] 1 .maintain
  obtain ⟨start, version, at_, head, hstart, _, _, hhead, hheadnum, _, hforked, _⟩ := of_forkAnew hosted
    ((answers_fork rfl).mp hfork)
  refine ⟨{ initial 0 with repo := r }, { initial 0 with repo := r }, n', forked, hosted, ?_, rfl, hfork, ?_,
    head, hhead, ?_⟩
  · refine (leaves_fork rfl).mpr (leaves_asking_bind.mpr (.inr ⟨v, hs₁.chain.headIn_eq_ok.mpr hlast₁, ?_⟩))
    rw [if_neg (by rw [hnum]; exact lt_irrefl 1)]
    refine leaves_native_bind.mpr (.inr ⟨_, hs.chain.headIn_eq_ok.mpr hlast, ?_⟩)
    refine leaves_asking_bind.mpr (.inr ⟨_, hs₁.chain.versionIn_eq_ok.mpr hs₁.chain.first, ?_⟩)
    rw [if_neg (not_not.mpr rfl)]
    refine Durable.leaves_bind.mpr (.inl (Durable.leaves_bind.mpr (.inl (Durable.Answers.leaves (a := ()) ?_))))
    refine answers_asking_bind.mpr ⟨v, hs₁.chain.versionIn_eq_ok.mpr hat, ?_⟩
    refine Durable.answers_bind.mpr ⟨(), initial 0, ?_, ?_⟩
    · unfold copyTree
      refine answers_native_bind.mpr ⟨true, ?_, ?_⟩
      · rw [htree]
        exact hasObject_of_kind (System.initial_whole 0).objects.empty hs.chain.honest
      · exact Durable.answers_pure.mpr ⟨rfl, rfl⟩
    · refine Durable.answers_bind.mpr ⟨.accepted v, _, answers_store.mpr ⟨r, ?_, rfl⟩, ?_⟩
      · rw [htree]
        exact hok
      · dsimp only
        rw [if_neg (not_not.mpr rfl)]
        exact Durable.answers_pure.mpr ⟨rfl, rfl⟩
  · rw [hforked]
  · obtain rfl := Except.ok.inj ((hs₁.chain.headIn_eq_ok.mpr hlast₁).symm.trans hstart)
    rw [hheadnum, hnum]
    rfl

end FileWorldLog

end Javelin
