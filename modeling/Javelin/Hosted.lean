import Javelin.AppendReplays
import Javelin.Reviewing

/-! # A node and its messages

`Input` is whatever a node is sent, with the caller and the gate of that moment, and `Input.run` the program
that handles it.  A run is a list of inputs, each handled to its end or stopped after any of its writes
(`Step`); `P` limits which inputs come in which states.

`Quiet r r'`: the World and the publications are as before. -/

namespace Javelin

open KeyedList Collaboration Identity Protocol Codec

variable {Id : Type} [LinearOrder Id] [Encoding Id]

/-! ### Inputs -/

/-- What a node is sent. -/
inductive Input (Id : Type) [LinearOrder Id] where
  | review (caller : Caller) (message : ReviewMessage Id)
  | publishLayer (request : PublishLayer Id)
  | append (operation : OperationId) (layer : LayerId) (parent : Option Id) (changes : Id)
  | storeChanges (id : Id) (changes : SparseChanges Id)
  | report (caller : Caller) (report : CheckReport Id)
  | setRequired (required : List RequiredCheck)
  | putBlob (bytes : Str)
  | putTree (chunk : Chunk Id)
  | createLayer (layer : LayerId) (base : VersionNumber)
  | seed (operation : OperationId) (layer : LayerId) (changes : SparseChanges Id)
  /-- A version that a fork copies. -/
  | advance (operation : OperationId) (expected : VersionNumber) (tree : Id)
  /-- What a fork and the trace store write to their tables. -/
  | traces (restricted : List Id) (origin : Option (Origin Id)) (forkTraces : SortedMap Id VersionNumber)
      (omitted : List Id)

namespace FileWorldLog

/-- `LayerAppend`. -/
def appendCheckpoint (operation : OperationId) (layer : LayerId) (parent : Option Id) (changes : Id) :
    NodeM Id (LayerOutcome Id) :=
  Durable.transact (fun n =>
    match n.repo.appendCheckpoint n.changes operation layer parent changes with
    | .ok (answer, r) => .ok (answer, { n with repo := r })
    | .error (.native error) => .error (.native error)
    | .error (.storage detail) => .error (.protocol ⟨"storage", detail⟩)
    | .error (.notUploaded _) => .error (.protocol ⟨"missing_object", "changes are not uploaded"⟩))

/-- `store_changes`: one that is there stays. -/
def storeChanges (id : Id) (changes : SparseChanges Id) : NodeM Id Unit :=
  update (fun n => if (n.changes.get? id).isSome then n else { n with changes := n.changes.insert id changes })

/-- `create_layer`: an empty Layer over a version. -/
def createLayer (layer : LayerId) (base : VersionNumber) : NodeM Id (LayerHead Id) := do
  let base ← native (fun r => r.layerBase base)
  store (fun r => r.createLayer layer base)

/-- `append` of the log: records changes as the next checkpoint of an active Layer. -/
def seed (operation : OperationId) (layer : LayerId) (changes : SparseChanges Id) : NodeM Id (LayerHead Id) := do
  match ← native (fun r => r.layerStateIn layer) with
  | .active head => do
      match ← store (fun r => r.captureLayer operation head changes none) with
      | .applied (.active head) => return head
      | _ => Durable.fail (.native (.invalidInput "append did not apply"))
  | _ => Durable.fail (.native (.invalidInput "Layer is not active"))

end FileWorldLog

open FileWorldLog

/-- Handles an input. -/
def Input.run [IdBytes Id] : Input Id → NodeM Id Unit
  | .review caller message => do let _ ← Reviewing.handle caller message
  | .publishLayer request => do let _ ← FileWorldLog.publishLayer request
  | .append operation layer parent changes => do let _ ← appendCheckpoint operation layer parent changes
  | .storeChanges id changes => FileWorldLog.storeChanges id changes
  | .report caller result => do let _ ← Checks.report caller result
  | .setRequired required => Checks.setRequired required
  | .putBlob bytes => do let _ ← store (fun r => r.putBlob bytes)
  | .putTree chunk => do let _ ← store (fun r => r.putTree chunk)
  | .createLayer layer base => do let _ ← FileWorldLog.createLayer layer base
  | .seed operation layer changes => do let _ ← FileWorldLog.seed operation layer changes
  | .advance operation expected tree => do let _ ← store (fun r => r.advanceToTree operation expected tree)
  | .traces restricted origin forkTraces omitted => update (fun n => { n with
      restricted := restricted, origin := origin, forkTraces := forkTraces, omitted := omitted })

namespace FileWorldLog

/-- One input that meets `P`, handled to its end or stopped. -/
def Step [IdBytes Id] (P : FileWorldLog Id → Input Id → Prop) (n n' : FileWorldLog Id) : Prop :=
  ∃ input, P n input ∧ (Input.run input).Leaves n n'

/-- A run whose inputs meet `P`. -/
abbrev Run [IdBytes Id] (P : FileWorldLog Id → Input Id → Prop) (n n' : FileWorldLog Id) : Prop :=
  Relation.ReflTransGen (Step P) n n'

/-- A state that a run from a new node leads to. -/
def Reachable [IdBytes Id] (P : FileWorldLog Id → Input Id → Prop) (n : FileWorldLog Id) : Prop :=
  ∃ identity, Run P (initial identity) n

/-- No condition on the inputs. -/
def anyInput (_ : FileWorldLog Id) (_ : Input Id) : Prop := True

/-! ### Laws of the single steps -/

section laws
variable {α : Type} {n n' : FileWorldLog Id}

omit [Encoding Id] in
@[simp] theorem answers_look {f : FileWorldLog Id → α} {a : α} :
    (look f).Answers n a n' ↔ a = f n ∧ n' = n := by
  unfold look
  rw [Durable.answers_read, Except.ok.injEq, eq_comm]

omit [Encoding Id] in
@[simp] theorem leaves_look {f : FileWorldLog Id → α} : (look f).Leaves n n' ↔ n' = n := Durable.leaves_read

omit [Encoding Id] in
@[simp] theorem answers_update {f : FileWorldLog Id → FileWorldLog Id} {u : Unit} :
    (update f).Answers n u n' ↔ n' = f n := by
  unfold update
  rw [Durable.answers_transact, Except.ok.injEq, Prod.mk.injEq, eq_comm (a := f n)]
  exact ⟨fun h => h.2, fun h => ⟨rfl, h⟩⟩

omit [Encoding Id] in
@[simp] theorem leaves_update {f : FileWorldLog Id → FileWorldLog Id} :
    (update f).Leaves n n' ↔ n' = n ∨ n' = f n := by
  unfold update
  rw [Durable.leaves_transact]
  simp [eq_comm]

omit [Encoding Id] in
@[simp] theorem answers_native {f : Repository Id → Except (Error Id) α} {a : α} :
    (native f).Answers n a n' ↔ f n.repo = .ok a ∧ n' = n := by
  unfold native
  rw [Durable.answers_read]
  cases f n.repo <;> simp [Except.mapError]

omit [Encoding Id] in
@[simp] theorem leaves_native {f : Repository Id → Except (Error Id) α} : (native f).Leaves n n' ↔ n' = n :=
  Durable.leaves_read

omit [Encoding Id] in
@[simp] theorem answers_tryNative {f : Repository Id → Except (Error Id) α} {a : Except (Error Id) α} :
    (tryNative f).Answers n a n' ↔ a = f n.repo ∧ n' = n := by
  unfold tryNative
  rw [Durable.answers_read, Except.ok.injEq, eq_comm]

omit [Encoding Id] in
@[simp] theorem leaves_tryNative {f : Repository Id → Except (Error Id) α} :
    (tryNative f).Leaves n n' ↔ n' = n := Durable.leaves_read

omit [Encoding Id] in
@[simp] theorem answers_encoded {x : Except ProtocolError α} {a : α} :
    (encoded x : NodeM Id α).Answers n a n' ↔ x = .ok a ∧ n' = n := by
  unfold encoded
  rw [Durable.answers_read]
  cases x <;> simp [Except.mapError]

omit [Encoding Id] in
@[simp] theorem leaves_encoded {x : Except ProtocolError α} :
    (encoded x : NodeM Id α).Leaves n n' ↔ n' = n := Durable.leaves_read

omit [Encoding Id] in
@[simp] theorem answers_store {f : Repository Id → Except (Error Id) (α × Repository Id)} {a : α} :
    (store f).Answers n a n' ↔ ∃ r, f n.repo = .ok (a, r) ∧ n' = { n with repo := r } := by
  unfold store withRepo
  rw [Durable.answers_transact]
  cases f n.repo with
  | error e => simp [Except.mapError, Except.map]
  | ok p => simp [Except.mapError, Except.map, Prod.ext_iff, eq_comm]

omit [Encoding Id] in
@[simp] theorem leaves_store {f : Repository Id → Except (Error Id) (α × Repository Id)} :
    (store f).Leaves n n' ↔ n' = n ∨ ∃ a r, f n.repo = .ok (a, r) ∧ n' = { n with repo := r } := by
  unfold store withRepo
  rw [Durable.leaves_transact]
  cases f n.repo with
  | error e => simp [Except.mapError, Except.map]
  | ok p => simp [Except.mapError, Except.map, Prod.ext_iff, eq_comm]

omit [Encoding Id] in
@[simp] theorem answers_tryStore {f : Repository Id → Except (Error Id) (α × Repository Id)}
    {a : Except (Error Id) α} : (tryStore f).Answers n a n' ↔
      (∃ v r, a = .ok v ∧ f n.repo = .ok (v, r) ∧ n' = { n with repo := r }) ∨
        ∃ e, a = .error e ∧ f n.repo = .error e ∧ n' = n := by
  unfold tryStore withRepo
  rw [Durable.answers_attempt]
  cases f n.repo with
  | error e => simp [Except.map]
  | ok p => simp [Except.map, Prod.ext_iff, eq_comm, and_assoc, and_left_comm]

omit [Encoding Id] in
@[simp] theorem leaves_tryStore {f : Repository Id → Except (Error Id) (α × Repository Id)} :
    (tryStore f).Leaves n n' ↔ n' = n ∨ ∃ a r, f n.repo = .ok (a, r) ∧ n' = { n with repo := r } := by
  unfold tryStore withRepo
  rw [Durable.leaves_attempt]
  cases f n.repo with
  | error e => simp [Except.map]
  | ok p => simp [Except.map, Prod.ext_iff, eq_comm]

omit [Encoding Id] in
@[simp] theorem answers_throwNew {code detail : String} {a : α} :
    ¬ (throwNew code detail : NodeM Id α).Answers n a n' := Durable.answers_fail

omit [Encoding Id] in
@[simp] theorem leaves_throwNew {code detail : String} :
    (throwNew code detail : NodeM Id α).Leaves n n' ↔ n' = n := Durable.leaves_fail

/-! A question, and then the rest of the program. -/

variable {β : Type} {b : β} {e : NodeError Id}

omit [Encoding Id] in
theorem leaves_self (x : NodeM Id α) : x.Leaves n n := .inl rfl

omit [Encoding Id] in
@[simp] theorem answers_look_bind {f : FileWorldLog Id → α} {g : α → NodeM Id β} :
    (look f >>= g).Answers n b n' ↔ (g (f n)).Answers n b n' := by
  unfold look
  simp [Durable.answers_read_bind]

omit [Encoding Id] in
@[simp] theorem leaves_look_bind {f : FileWorldLog Id → α} {g : α → NodeM Id β} :
    (look f >>= g).Leaves n n' ↔ (g (f n)).Leaves n n' := by
  unfold look
  simp only [Durable.leaves_read_bind, Except.ok.injEq, exists_eq_left']
  constructor
  · intro h
    obtain rfl | hrest := h
    · exact leaves_self _
    · exact hrest
  · exact .inr

omit [Encoding Id] in
@[simp] theorem answers_tryNative_bind {f : Repository Id → Except (Error Id) α}
    {g : Except (Error Id) α → NodeM Id β} :
    (tryNative f >>= g).Answers n b n' ↔ (g (f n.repo)).Answers n b n' := answers_look_bind

omit [Encoding Id] in
@[simp] theorem leaves_tryNative_bind {f : Repository Id → Except (Error Id) α}
    {g : Except (Error Id) α → NodeM Id β} :
    (tryNative f >>= g).Leaves n n' ↔ (g (f n.repo)).Leaves n n' := leaves_look_bind

omit [Encoding Id] in
@[simp] theorem answers_native_bind {f : Repository Id → Except (Error Id) α} {g : α → NodeM Id β} :
    (native f >>= g).Answers n b n' ↔ ∃ a, f n.repo = .ok a ∧ (g a).Answers n b n' := by
  unfold native
  rw [Durable.answers_read_bind]
  cases f n.repo <;> simp [Except.mapError]

omit [Encoding Id] in
@[simp] theorem leaves_native_bind {f : Repository Id → Except (Error Id) α} {g : α → NodeM Id β} :
    (native f >>= g).Leaves n n' ↔ n' = n ∨ ∃ a, f n.repo = .ok a ∧ (g a).Leaves n n' := by
  unfold native
  rw [Durable.leaves_read_bind]
  cases f n.repo <;> simp [Except.mapError]

omit [Encoding Id] in
@[simp] theorem answers_encoded_bind {x : Except ProtocolError α} {g : α → NodeM Id β} :
    (encoded x >>= g : NodeM Id β).Answers n b n' ↔ ∃ a, x = .ok a ∧ (g a).Answers n b n' := by
  unfold encoded
  rw [Durable.answers_read_bind]
  cases x <;> simp [Except.mapError]

omit [Encoding Id] in
@[simp] theorem leaves_encoded_bind {x : Except ProtocolError α} {g : α → NodeM Id β} :
    (encoded x >>= g : NodeM Id β).Leaves n n' ↔ n' = n ∨ ∃ a, x = .ok a ∧ (g a).Leaves n n' := by
  unfold encoded
  rw [Durable.leaves_read_bind]
  cases x <;> simp [Except.mapError]

end laws

end FileWorldLog

/-! ### Quiet writes -/

namespace Repository
variable {r r' : Repository Id}

/-- The World and the publications are as before. -/
structure Quiet (r r' : Repository Id) : Prop where
  versions : r'.versions = r.versions
  publications : r'.publications = r.publications
  run : ∀ plans, System.Run (⟨r, plans⟩ : System Id) ⟨r', plans⟩

theorem Quiet.refl (r : Repository Id) : Quiet r r := ⟨rfl, rfl, fun _ => .refl⟩

theorem Quiet.trans {r'' : Repository Id} (h : Quiet r r') (h' : Quiet r' r'') : Quiet r r'' :=
  ⟨h'.versions.trans h.versions, h'.publications.trans h.publications,
    fun plans => (h.run plans).trans (h'.run plans)⟩

theorem Quiet.single (hversions : r'.versions = r.versions) (hpublications : r'.publications = r.publications)
    (h : Transaction r r') : Quiet r r' := ⟨hversions, hpublications, fun _ => .single (.transact h)⟩

theorem quiet_store {object : Object Id} {id : Id} (hok : r.store object = .ok (id, r')) :
    r'.versions = r.versions ∧ r'.publications = r.publications := by
  unfold store at hok
  obtain ⟨⟨_, objects⟩, _, hpure⟩ := except_bind_eq_ok.mp hok
  obtain ⟨_, rfl⟩ := Prod.mk.inj (Except.ok.inj hpure)
  exact ⟨rfl, rfl⟩

theorem quiet_putBlob {bytes : Str} {id : Id} (hok : r.putBlob bytes = .ok (id, r')) : Quiet r r' := by
  obtain ⟨hversions, hpublications⟩ := quiet_store hok
  exact .single hversions hpublications (.putBlob hok)

theorem quiet_putTree {chunk : Chunk Id} {id : Id} (hok : r.putTree chunk = .ok (id, r')) : Quiet r r' := by
  have hstored := hok
  unfold putTree at hstored
  obtain ⟨_, _, h₁⟩ := except_bind_eq_ok.mp hstored
  obtain ⟨_, _, hstore⟩ := except_bind_eq_ok.mp h₁
  obtain ⟨hversions, hpublications⟩ := quiet_store hstore
  exact .single hversions hpublications (.putTree hok)

theorem quiet_putSnapshot {manifest : Manifest Id} {id : Id} (hok : r.putSnapshot manifest = .ok (id, r')) :
    Quiet r r' := by
  have hstored := hok
  unfold putSnapshot at hstored
  obtain ⟨_, _, h₁⟩ := except_bind_eq_ok.mp hstored
  obtain ⟨⟨root, t⟩, _, hpure⟩ := except_bind_eq_ok.mp h₁
  obtain ⟨_, rfl⟩ := Prod.mk.inj (Except.ok.inj hpure)
  exact .single rfl rfl (.putSnapshot hok)

omit [Encoding Id] in
theorem quiet_createIn {layer : LayerId} {candidate : LayerCandidate Id} {head : LayerHead Id}
    (hok : r.createIn layer candidate = .ok (head, r')) :
    r'.versions = r.versions ∧ r'.publications = r.publications := by
  obtain ⟨_, h⟩ := of_createIn hok
  obtain ⟨rfl, _⟩ | ⟨_, rfl⟩ := h
  · exact ⟨rfl, rfl⟩
  · exact ⟨rfl, rfl⟩

theorem quiet_createLayer {layer : LayerId} {base : LayerBase Id} {head : LayerHead Id}
    (hok : r.createLayer layer base = .ok (head, r')) : Quiet r r' := by
  have hcreated := hok
  unfold createLayer at hcreated
  obtain ⟨⟨empty, r₁⟩, hprep, hcreate⟩ := except_bind_eq_ok.mp hcreated
  obtain ⟨objects, rfl, _⟩ := of_prepareCheckpoint hprep
  obtain ⟨hversions, hpublications⟩ := quiet_createIn hcreate
  exact .single hversions hpublications (.createLayer hok)

theorem quiet_cloneLayer {layer : LayerId} {checkpoint : Id} {head : LayerHead Id}
    (hok : r.cloneLayer layer checkpoint = .ok (head, r')) : Quiet r r' := by
  have hcloned := hok
  unfold cloneLayer at hcloned
  obtain ⟨frozen, _, hcreate⟩ := except_bind_eq_ok.mp hcloned
  obtain ⟨hversions, hpublications⟩ := quiet_createIn hcreate
  exact .single hversions hpublications (.cloneLayer hok)

theorem quiet_captureLayer {op : OperationId} {expected : LayerHead Id} {changes : SparseChanges Id}
    {outcome : LayerUpdate Id} (hok : r.captureLayer op expected changes none = .ok (outcome, r')) :
    Quiet r r' := by
  have hcaptured := hok
  unfold captureLayer at hcaptured
  obtain ⟨_, _, h₁⟩ := except_bind_eq_ok.mp hcaptured
  obtain ⟨_, _, h₂⟩ := except_bind_eq_ok.mp h₁
  obtain ⟨before, _, h₃⟩ := except_bind_eq_ok.mp h₂
  obtain ⟨⟨candidate, r₀⟩, hprep, h₄⟩ := except_bind_eq_ok.mp h₃
  obtain ⟨objects, rfl, _⟩ := of_prepareCheckpoint hprep
  cases of_updateIn h₄ with
  | inl h =>
      obtain ⟨rfl, _⟩ := h
      exact .single rfl rfl (.captureLayer hok)
  | inr h =>
      obtain ⟨_, _, _, _, hrec⟩ := h
      exact .single hrec.only.versions hrec.only.publications (.captureLayer hok)

theorem quiet_appendCheckpoint {table : ChangesTable Id} {op : OperationId} {layer : LayerId}
    {parent : Option Id} {changes : Id} {answer : LayerOutcome Id}
    (hok : r.appendCheckpoint table op layer parent changes = .ok (answer, r')) : Quiet r r' := by
  unfold appendCheckpoint at hok
  split at hok
  · obtain ⟨_, rfl⟩ := Prod.mk.inj (Except.ok.inj hok)
    exact .refl _
  unfold append at hok
  split at hok
  · cases hok
  split at hok
  · obtain ⟨_, rfl⟩ := Prod.mk.inj (Except.ok.inj hok)
    exact .refl _
  · cases hok
  obtain ⟨history, _, hanswer⟩ := except_bind_eq_ok.mp hok
  cases repository_of_answerAppend hanswer with
  | inl h => exact h ▸ .refl _
  | inr h =>
      obtain ⟨outcome, htried⟩ := h
      obtain ⟨head, _, hcapture⟩ := of_tryHeads _ _ htried (by simp)
      exact quiet_captureLayer hcapture

end Repository

end Javelin
