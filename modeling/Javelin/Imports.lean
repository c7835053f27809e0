import Javelin.NumberedRecords
import Javelin.ObjectClosure

/-! # Imports

Trees that arrive from another store: `importTree` when a local store is attached to a hosted one,
`copyTree` and `copyBlob` when a repository is forked.  Both stop at a chunk that is stored already and
store children before parents, one transaction for each object.  An import that fails leaves what it
has stored, so the state is kept in an error too (`ImportM`).

Whatever the other store answers, an import is a run of single transactions (`run_of_importTree`,
`run_of_copyTree`), so it leads from a reachable state to a reachable one and object closure holds
throughout (`stored_trees_are_closed`). -/

namespace Javelin

open KeyedList Upkeep

variable {Id : Type} [LinearOrder Id] [Encoding Id]

/-- Computations that commit one transaction after the other; an error keeps those before it. -/
abbrev ImportM (Id : Type) := ExceptT (Error Id) (StateM (Repository Id))

namespace Repository

/-- Commits one transaction. -/
def transact {α : Type} (f : Repository Id → Except (Error Id) (α × Repository Id)) : ImportM Id α := fun r =>
  match f r with
  | .ok (a, r') => (.ok a, r')
  | .error e => (.error e, r)

/-- `has_object`: a missing object is no error. -/
def hasObject (r : Repository Id) (id : Id) (kind : ObjectKind) : Except (Error Id) Bool :=
  match r.objects.read id kind with
  | .ok _ => return true
  | .error (.missingObject missing) => if missing = id then return false else throw (.missingObject missing)
  | .error e => throw e

def hasTree (r : Repository Id) (id : Id) : Except (Error Id) Bool := r.hasObject id .tree

def hasBlob (r : Repository Id) (id : Id) : Except (Error Id) Bool := r.hasObject id .blob

theorem hasObject_of_kind {r : Repository Id} {id : Id} {kind : ObjectKind} (h : r.objects.HasKind (id, kind))
    (hh : r.objects.Honest) : r.hasObject id kind = .ok true := by
  obtain ⟨o, ho⟩ := h.read hh
  unfold hasObject
  rw [ho]
  rfl

/-- Reads from the repository. -/
def asks {α : Type} (f : Repository Id → Except (Error Id) α) : ImportM Id α := fun r => (f r, r)

/-- The subdirectories among the entries of a chunk. -/
def subdirectories (chunk : Chunk Id) : List Id := chunk.entries.filterMap (fun e => e.2.dir?)

/-- `import_tree` from a store that answers `load`, at most so many chunks deep. -/
def importTree (load : Id → Except (Error Id) (Chunk Id)) : ℕ → Id → ImportM Id Unit
  | 0, _ => throw (.storage "stack overflow")
  | bound + 1, root => do
      if ← asks (hasTree · root) then return ()
      else do
        let bytes ← asks (fun _ => load root)
        let chunk ← asks (fun _ => bytes.decode)
        (chunk.children ++ subdirectories chunk).forM (importTree load bound)
        let _ ← transact (putTree · bytes)
        return ()

/-- `copy_blob` from a repository whose blobs read as `readBlob` says. -/
def copyBlob (readBlob : Id → Except (Error Id) Str) (id : Id) : ImportM Id Unit := do
  if ← asks (hasBlob · id) then return ()
  else do
    let bytes ← asks (fun _ => readBlob id)
    let _ ← transact (putBlob · bytes)
    return ()

/-- `copy_tree` from a repository whose objects read as `treeBytes` and `readBlob` say, at most so many
chunks deep. -/
def copyTree (treeBytes : Id → Except (Error Id) (Chunk Id)) (readBlob : Id → Except (Error Id) Str) :
    ℕ → Id → ImportM Id Unit
  | 0, _ => throw (.storage "stack overflow")
  | bound + 1, root => do
      if ← asks (hasTree · root) then return ()
      else do
        let bytes ← asks (fun _ => treeBytes root)
        let chunk ← asks (fun _ => bytes.decode)
        chunk.entries.forM (fun e => match e.2 with
          | .file entry => copyBlob readBlob entry.content
          | .dir child => copyTree treeBytes readBlob bound child)
        chunk.children.forM (copyTree treeBytes readBlob bound)
        let _ ← transact (putTree · bytes)
        return ()

/-! ### Imports are runs -/

/-- Whatever comes of it, the action is a run of transactions. -/
def Commits {α : Type} (x : ImportM Id α) : Prop :=
  ∀ r : Repository Id, Relation.ReflTransGen Transaction r (x r).2

namespace Commits
variable {α β : Type}

omit [LinearOrder Id] [Encoding Id] in
theorem pure_eq (a : α) (r : Repository Id) : ((pure a : ImportM Id α) r).2 = r := rfl

theorem pure (a : α) : Commits (pure a : ImportM Id α) := fun _ => .refl

theorem throw (e : Error Id) : Commits (throw e : ImportM Id α) := fun _ => .refl

theorem asks (f : Repository Id → Except (Error Id) α) : Commits (asks f) := fun _ => .refl

theorem transact {f : Repository Id → Except (Error Id) (α × Repository Id)}
    (hf : ∀ r a r', f r = .ok (a, r') → Transaction r r') : Commits (transact f) := by
  intro r
  unfold Repository.transact
  split
  · rename_i a r' h
    exact .single (hf r a r' h)
  · exact .refl

theorem bind {x : ImportM Id α} {f : α → ImportM Id β} (hx : Commits x) (hf : ∀ a, Commits (f a)) :
    Commits (x >>= f) := by
  intro r
  have hbind : (x >>= f) r = match x r with
      | (.ok a, r') => f a r'
      | (.error e, r') => (.error e, r') := by
    show (ExceptT.bind x f) r = _
    unfold ExceptT.bind ExceptT.mk
    show (match x r with
      | (v, r') => ExceptT.bindCont f v r') = _
    cases hxr : x r with
    | mk v r' => cases v <;> rfl
  have hfirst := hx r
  rw [hbind]
  split
  · rename_i a r' h
    rw [h] at hfirst
    exact hfirst.trans (hf a r')
  · rename_i e r' h
    rw [h] at hfirst
    exact hfirst

theorem forM {f : α → ImportM Id PUnit} (hf : ∀ a, Commits (f a)) (l : List α) : Commits (l.forM f) := by
  induction l with
  | nil => exact pure PUnit.unit
  | cons a l ih => exact (hf a).bind (fun _ => ih)

theorem ite {p : Prop} [Decidable p] {x y : ImportM Id α} (hx : Commits x) (hy : Commits y) :
    Commits (if p then x else y) := by
  split
  · exact hx
  · exact hy

end Commits

/-- An import is a run of transactions, whatever the other store answers. -/
theorem run_of_importTree (load : Id → Except (Error Id) (Chunk Id)) (bound : ℕ) (root : Id) :
    Commits (importTree load bound root) := by
  induction bound generalizing root with
  | zero => exact Commits.throw _
  | succ bound ih =>
      unfold importTree
      refine (Commits.asks _).bind (fun stored => Commits.ite (Commits.pure ()) ?_)
      refine (Commits.asks _).bind (fun bytes => (Commits.asks _).bind (fun chunk => ?_))
      refine (Commits.forM ih _).bind (fun _ => ?_)
      exact (Commits.transact (fun _ _ _ h => .putTree h)).bind (fun _ => Commits.pure ())

theorem run_of_copyBlob (readBlob : Id → Except (Error Id) Str) (id : Id) : Commits (copyBlob readBlob id) := by
  unfold copyBlob
  refine (Commits.asks _).bind (fun stored => Commits.ite (Commits.pure ()) ?_)
  refine (Commits.asks _).bind (fun bytes => ?_)
  exact (Commits.transact (fun _ _ _ h => .putBlob h)).bind (fun _ => Commits.pure ())

/-- A copy is a run of transactions, whatever the other repository answers. -/
theorem run_of_copyTree (treeBytes : Id → Except (Error Id) (Chunk Id)) (readBlob : Id → Except (Error Id) Str)
    (bound : ℕ) (root : Id) : Commits (copyTree treeBytes readBlob bound root) := by
  induction bound generalizing root with
  | zero => exact Commits.throw _
  | succ bound ih =>
      unfold copyTree
      refine (Commits.asks _).bind (fun stored => Commits.ite (Commits.pure ()) ?_)
      refine (Commits.asks _).bind (fun bytes => (Commits.asks _).bind (fun chunk => ?_))
      refine (Commits.forM (fun e => ?_) _).bind (fun _ => (Commits.forM ih _).bind (fun _ => ?_))
      · split
        · exact run_of_copyBlob readBlob _
        · exact ih _
      · exact (Commits.transact (fun _ _ _ h => .putTree h)).bind (fun _ => Commits.pure ())

end Repository

/-! ### Closure -/

namespace System

/-- A step of any client, or an import from another store, complete or not. -/
inductive ImportStep : System Id → System Id → Prop
  | step {s s'} : Step s s' → ImportStep s s'
  | importTree {r plans} (load : Id → Except (Error Id) (Chunk Id)) (bound : ℕ) (root : Id) :
      ImportStep ⟨r, plans⟩ ⟨(Repository.importTree load bound root r).2, plans⟩
  | copyTree {r plans} (treeBytes : Id → Except (Error Id) (Chunk Id)) (readBlob : Id → Except (Error Id) Str)
      (bound : ℕ) (root : Id) :
      ImportStep ⟨r, plans⟩ ⟨(Repository.copyTree treeBytes readBlob bound root r).2, plans⟩

theorem run_of_transactions {r r' : Repository Id} {plans : List (PublishCall Id × Plan Id)}
    (h : Relation.ReflTransGen Transaction r r') : Run (⟨r, plans⟩ : System Id) ⟨r', plans⟩ := by
  induction h with
  | refl => exact .refl
  | tail _ ht ih => exact ih.tail (.transact ht)

theorem ImportStep.run {s s' : System Id} (h : ImportStep s s') : Run s s' := by
  cases h with
  | step h => exact .single h
  | importTree load bound root => exact run_of_transactions (Repository.run_of_importTree load bound root _)
  | copyTree treeBytes readBlob bound root =>
      exact run_of_transactions (Repository.run_of_copyTree treeBytes readBlob bound root _)

/-- Imports lead to no state that the steps alone do not reach. -/
theorem reachable_of_imports {identity : Id} {s : System Id}
    (h : Relation.ReflTransGen ImportStep (System.initial identity) s) : Reachable s := by
  refine ⟨identity, ?_⟩
  induction h with
  | refl => exact .refl
  | tail _ hstep ih => exact ih.trans hstep.run

/-- After any steps and imports, all that a stored tree chunk names is stored with the kind it must
have; the walk over everything below a stored tree finds it all; and reading the snapshot of a stored
tree reports no missing object. -/
theorem stored_trees_are_closed {identity : Id} {s : System Id}
    (h : Relation.ReflTransGen ImportStep (System.initial identity) s) :
    (∀ id c, s.repository.objects.lookup id = some (.tree c) →
      ∀ ref ∈ c.references, s.repository.objects.HasKind ref) ∧
    (∀ root, s.repository.objects.HasKind (root, .tree) →
      s.repository.objects.walkReferences s.repository.objects.length root = .ok ()) ∧
    ∀ root e, s.repository.objects.HasKind (root, .tree) →
      Trees.entries root (s.repository.objects.trees .verify) = .error e → ∀ id, e ≠ .missingObject id := by
  have hwhole := (reachable_of_imports h).whole.objects
  refine ⟨fun id c hc => hwhole.ordered.references hc, fun root hroot => hwhole.ordered.walkReferences hroot, ?_⟩
  intro root e hroot herr
  have hintact : (s.repository.objects.trees .verify).Intact := hwhole.intact rfl (Trees.Coherent.new _)
  exact Ends.of_error (Trees.ends_entries hintact ⟨.tree, Or.inl hroot⟩) herr

/-- A directory with an empty subdirectory. -/
def nested : Chunk ℕ := ⟨0, [⟨⟨[97], validName_a⟩, .dir, emptyId⟩]⟩

/-- A new repository with `nested` imported. -/
def withNested : Repository ℕ := (Repository.importTree (fun _ => .ok nested) 2 7 (Repository.initial 0)).2

theorem stored_trees_are_closed_with_nested :
    withNested.objects.walkReferences withNested.objects.length nested.id = .ok () := by
  have hrun : Relation.ReflTransGen ImportStep (System.initial 0) ⟨withNested, []⟩ :=
    .single (.importTree (fun _ => .ok nested) 2 7)
  have hstored : withNested.objects.HasKind (nested.id, .tree) := ⟨.tree nested, by decide +kernel, rfl⟩
  generalize withNested = r at hrun hstored ⊢
  exact (stored_trees_are_closed hrun).2.1 nested.id hstored

end System

end Javelin
