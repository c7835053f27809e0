import Javelin.Ancestry
import Mathlib.Data.Finset.Card
import Mathlib.Data.Finset.Sort
import Mathlib.Data.Set.Finite.Basic

/-! # The checkpoint reader

`CheckpointReader::read` verifies a checkpoint and its Stack ancestry with an explicit stack: an ID to enter, or a
node to leave once its sources are verified.  Nodes that are left go to a cache, which the next calls go on with.

The stack holds a path from the ID that was asked for, each node of it with the sources it still needs
(`Frames`).  So an ID that is entered twice lies on a cycle, a failed call leaves the cache as good as it was
(`Cache`), and a finite graph is read to its end (`Reached.read_spec`).  On a repository a new reader answers as
`readDeep` does (`read_eq_readDeep`). -/

namespace Javelin

open KeyedList

namespace CheckpointReader

variable {Id ε Node : Type} [LinearOrder Id]

/-! ### The loop -/

/-- An entry of the stack. -/
inductive Pending (Id Node : Type) where
  | enter (id : Id)
  | leave (id : Id) (node : Node)

/-- Why a call fails. -/
inductive Failure (ε : Type) where
  | cyclic
  | node (error : ε)
  /-- `self.checked[&id]` has no entry. -/
  | missing

/-- The state of one call: the stack with its top first, and the IDs that were verified, the last one first. -/
structure State (Id Node : Type) [LinearOrder Id] where
  pending : List (Pending Id Node)
  visiting : Finset Id
  checked : SortedMap Id Node
  reads : List Id

section loop
variable (verify : Id → Except ε Node) (sources : Node → List Id)

/-- One pass of the loop over a stack with this top. -/
def step (s : State Id Node) : Pending Id Node → Except (Failure ε) (State Id Node)
  | .leave id node => .ok { s with visiting := s.visiting.erase id, checked := s.checked.insert id node }
  | .enter id =>
      if (s.checked.get? id).isSome then .ok s
      else if id ∈ s.visiting then .error .cyclic
      else match verify id with
        | .error e => .error (.node e)
        | .ok node => .ok { s with
            pending := (sources node).map .enter ++ .leave id node :: s.pending
            visiting := insert id s.visiting
            reads := id :: s.reads }

/-- How a call ends: its result, and the cache it leaves. -/
structure Outcome (Id ε Node : Type) [LinearOrder Id] where
  result : Except (Failure ε) Node
  checked : SortedMap Id Node
  reads : List Id

/-- The loop, and `self.checked[&id]` behind it; `none` if it takes more passes. -/
def run (root : Id) : ℕ → State Id Node → Option (Outcome Id ε Node)
  | 0, _ => none
  | fuel + 1, s =>
      match s.pending with
      | [] =>
          match s.checked.get? root with
          | some node => some ⟨.ok node, s.checked, s.reads⟩
          | none => some ⟨.error .missing, s.checked, s.reads⟩
      | top :: pending =>
          match step verify sources { s with pending := pending } top with
          | .ok s => run root fuel s
          | .error e => some ⟨.error e, s.checked, s.reads⟩

/-- `CheckpointReader::read` with so many passes. -/
def read (checked : SortedMap Id Node) (id : Id) (fuel : ℕ) : Option (Outcome Id ε Node) :=
  run verify sources id fuel ⟨[.enter id], ∅, checked, []⟩

/-- The caches of a reader: it is new, or it was left by a call, whether that failed or not. -/
inductive Reached : SortedMap Id Node → Prop
  | new : Reached SortedMap.empty
  | read {checked : SortedMap Id Node} {id : Id} {fuel : ℕ} {outcome : Outcome Id ε Node} : Reached checked →
      read verify sources checked id fuel = some outcome → Reached outcome.checked

/-! ### The graph -/

/-- `j` is a source of `i`. -/
def Edge (i j : Id) : Prop := ∃ node, verify i = .ok node ∧ j ∈ sources node

abbrev Reaches (i j : Id) : Prop := Relation.ReflTransGen (Edge verify sources) i j

/-- `i` is below itself. -/
def Cyclic (i : Id) : Prop := Relation.TransGen (Edge verify sources) i i

/-- A node that verifies, and so do all below it. -/
inductive Verified : Id → Prop
  | node {id : Id} {node : Node} : verify id = .ok node → (∀ source ∈ sources node, Verified source) → Verified id

end loop

section graph
variable {verify : Id → Except ε Node} {sources : Node → List Id} {i j : Id}

omit [LinearOrder Id] in
theorem Verified.edge (h : Verified verify sources i) (he : Edge verify sources i j) :
    Verified verify sources j := by
  cases h with
  | node hnode hsources =>
      obtain ⟨node', hnode', hm⟩ := he
      obtain rfl := Except.ok.inj (hnode.symm.trans hnode')
      exact hsources j hm

omit [LinearOrder Id] in
theorem Verified.reaches (h : Verified verify sources i) (hr : Reaches verify sources i j) :
    Verified verify sources j := by
  induction hr with
  | refl => exact h
  | tail _ he ih => exact ih.edge he

omit [LinearOrder Id] in
theorem Verified.not_cyclic (h : Verified verify sources i) : ¬ Cyclic verify sources i := by
  induction h with
  | @node id node hnode hsources ih =>
      intro hcycle
      obtain ⟨j, he, hback⟩ := Relation.TransGen.head'_iff.mp hcycle
      obtain ⟨node', hnode', hm⟩ := he
      obtain rfl := Except.ok.inj (hnode.symm.trans hnode')
      exact ih j hm (.tail' hback ⟨node, hnode, hm⟩)

end graph

/-! ### The invariants -/

section invariants
variable (verify : Id → Except ε Node) (sources : Node → List Id)

/-- The cache holds nodes that verify, with all below them. -/
structure Cache (checked : SortedMap Id Node) : Prop where
  node : ∀ i node, checked.get? i = some node → verify i = .ok node
  closed : ∀ i node, checked.get? i = some node → ∀ source ∈ sources node, (checked.get? source).isSome
  verified : ∀ i node, checked.get? i = some node → Verified verify sources i

/-- The stack below an ID in progress, if any: nodes on a path from the root, each with the sources that it still
needs, and the IDs of these nodes. -/
inductive Frames (checked : SortedMap Id Node) (root : Id) : Option Id → List (Pending Id Node) → List Id → Prop
  | start : Frames checked root none [.enter root] []
  | done : (checked.get? root).isSome → Frames checked root none [] []
  | bottom : Frames checked root (some root) [] []
  | frame {above : Option Id} {id : Id} {node : Node} {todo : List Id} {pending : List (Pending Id Node)}
      {path : List Id} : verify id = .ok node → (∀ x ∈ todo, x ∈ sources node) →
      (∀ x, above = some x → x ∈ sources node) →
      (∀ x ∈ sources node, (checked.get? x).isSome ∨ x ∈ todo ∨ above = some x) → id ∉ path →
      Frames checked root (some id) pending path →
      Frames checked root above (todo.map .enter ++ .leave id node :: pending) (id :: path)

/-- What holds between two passes. -/
structure Reading (root : Id) (s : State Id Node) : Prop where
  cache : Cache verify sources s.checked
  frames : ∃ path, Frames verify sources s.checked root none s.pending path ∧ s.visiting = path.toFinset
  nodup : s.reads.Nodup
  seen : ∀ i ∈ s.reads, i ∈ s.visiting ∨ (s.checked.get? i).isSome

end invariants

section steps
variable {verify : Id → Except ε Node} {sources : Node → List Id} {checked checked' : SortedMap Id Node} {root : Id}
  {above : Option Id} {pending : List (Pending Id Node)} {path : List Id}

theorem cache_empty : Cache verify sources SortedMap.empty where
  node _ _ h := by cases h
  closed _ _ h := by cases h
  verified _ _ h := by cases h

/-- A node whose sources are cached may be cached. -/
theorem Cache.insert (h : Cache verify sources checked) {id : Id} {node : Node} (hnode : verify id = .ok node)
    (hsources : ∀ x ∈ sources node, (checked.get? x).isSome) :
    Cache verify sources (checked.insert id node) where
  node i n hget := by
    rw [SortedMap.get?_insert] at hget
    split at hget
    · rename_i he
      rw [← he, ← Option.some.inj hget]
      exact hnode
    · exact h.node i n hget
  closed i n hget x hx := by
    have hin : (checked.get? x).isSome := by
      rw [SortedMap.get?_insert] at hget
      split at hget
      · rw [← Option.some.inj hget] at hx
        exact hsources x hx
      · exact h.closed i n hget x hx
    rw [SortedMap.get?_insert]
    split
    · rfl
    · exact hin
  verified i n hget := by
    rw [SortedMap.get?_insert] at hget
    split at hget
    · rename_i he
      rw [← he]
      refine .node hnode (fun x hx => ?_)
      obtain ⟨n', hn'⟩ := Option.isSome_iff_exists.mp (hsources x hx)
      exact h.verified x n' hn'
    · exact h.verified i n hget

/-- The stack stays a stack when the cache grows. -/
theorem Frames.mono (h : Frames verify sources checked root above pending path)
    (hle : ∀ x, (checked.get? x).isSome → (checked'.get? x).isSome) :
    Frames verify sources checked' root above pending path := by
  induction h with
  | start => exact .start
  | done hroot => exact .done (hle root hroot)
  | bottom => exact .bottom
  | frame hnode htodo habove hall hpath _ ih =>
      exact .frame hnode htodo habove (fun x hx => (hall x hx).imp_left (hle x)) hpath ih

/-- What was in progress is in the cache. -/
theorem Frames.close {id : Id} (h : Frames verify sources checked root (some id) pending path)
    (hid : (checked.get? id).isSome) : Frames verify sources checked root none pending path := by
  cases h with
  | bottom => exact .done hid
  | frame hnode htodo habove hall hpath hrest =>
      refine .frame hnode htodo (fun x hx => (by cases hx)) (fun x hx => ?_) hpath hrest
      obtain hchecked | hleft | he := hall x hx
      · exact .inl hchecked
      · exact .inr (.inl hleft)
      · rw [← Option.some.inj he]
        exact .inl hid

/-- The nodes of the stack lie on a path from the root. -/
theorem Frames.reaches {id : Id} (h : Frames verify sources checked root (some id) pending path) :
    Reaches verify sources root id ∧ ∀ x ∈ path, Relation.TransGen (Edge verify sources) x id := by
  generalize ha : some id = above at h
  induction h generalizing id with
  | start => cases ha
  | done _ => cases ha
  | bottom =>
      obtain rfl := Option.some.inj ha
      exact ⟨.refl, fun x hx => (by cases hx)⟩
  | @frame above i node todo pending path hnode _ habove _ _ _ ih =>
      obtain ⟨hroot, hpath⟩ := ih rfl
      have hedge : Edge verify sources i id := ⟨node, hnode, habove id ha.symm⟩
      refine ⟨hroot.tail hedge, fun x hx => ?_⟩
      cases List.mem_cons.mp hx with
      | inl he =>
          rw [he]
          exact .single hedge
      | inr hx => exact (hpath x hx).tail hedge

/-- Below an ID on the top of the stack, it is in progress. -/
theorem Frames.pop_enter {x : Id} (h : Frames verify sources checked root none (.enter x :: pending) path) :
    Frames verify sources checked root (some x) pending path := by
  generalize ha : (none : Option Id) = above at h
  generalize hp : Pending.enter x :: pending = stack at h
  cases h with
  | start =>
      cases hp
      exact .bottom
  | done _ => cases hp
  | bottom => cases hp
  | @frame _ id node todo below path hnode htodo _ hall hpath hrest =>
      cases todo with
      | nil => cases hp
      | cons y todo =>
          rw [List.map_cons, List.cons_append, List.cons.injEq] at hp
          obtain ⟨hx, rfl⟩ := hp
          cases hx
          refine .frame hnode (fun z hz => htodo z (List.mem_cons_of_mem x hz)) (fun z hz => ?_) (fun z hz => ?_)
            hpath hrest
          · rw [← Option.some.inj hz]
            exact htodo x List.mem_cons_self
          · obtain hchecked | hleft | he := hall z hz
            · exact .inl hchecked
            · cases List.mem_cons.mp hleft with
              | inl he => exact .inr (.inr (by rw [he]))
              | inr hleft => exact .inr (.inl hleft)
            · rw [he] at ha
              cases ha

/-- A node on the top of the stack needs no more sources. -/
theorem Frames.pop_leave {id : Id} {node : Node}
    (h : Frames verify sources checked root none (.leave id node :: pending) path) :
    verify id = .ok node ∧ (∀ x ∈ sources node, (checked.get? x).isSome) ∧
      ∃ path', path = id :: path' ∧ id ∉ path' ∧ Frames verify sources checked root (some id) pending path' := by
  generalize ha : (none : Option Id) = above at h
  generalize hp : Pending.leave id node :: pending = stack at h
  cases h with
  | start => cases hp
  | done _ => cases hp
  | bottom => cases hp
  | @frame _ id node todo below path hnode htodo _ hall hpath hrest =>
      cases todo with
      | cons y todo => cases hp
      | nil =>
          rw [List.map_nil, List.nil_append, List.cons.injEq] at hp
          obtain ⟨hx, rfl⟩ := hp
          cases hx
          refine ⟨hnode, fun x hx => ?_, path, rfl, hpath, hrest⟩
          obtain hchecked | hleft | he := hall x hx
          · exact hchecked
          · cases hleft
          · rw [he] at ha
            cases ha

end steps

/-! ### Passes -/

section passes
variable {verify : Id → Except ε Node} {sources : Node → List Id} {root : Id} {s : State Id Node}

theorem reading_start {checked : SortedMap Id Node} (h : Cache verify sources checked) :
    Reading verify sources root ⟨[.enter root], ∅, checked, []⟩ where
  cache := h
  frames := ⟨[], .start, rfl⟩
  nodup := List.nodup_nil
  seen _ hi := by cases hi

/-- How many nodes have not been met. -/
def unmet (verifying : Finset Id) (s : State Id Node) : ℕ :=
  (verifying.filter (fun i => i ∉ s.visiting ∧ s.checked.get? i = none)).card

theorem lex_of_le {a b c d : ℕ} (h : a ≤ b) (h' : c < d) : Prod.Lex (· < ·) (· < ·) (a, c) (b, d) := by
  rw [Prod.lex_def]
  dsimp only
  omega

/-- A pass goes on with less to do, or ends with a reason. -/
theorem Reading.step {top : Pending Id Node} {pending : List (Pending Id Node)} (h : Reading verify sources root s)
    (hs : s.pending = top :: pending) :
    (∃ s', step verify sources { s with pending := pending } top = .ok s' ∧ Reading verify sources root s' ∧
      ∀ verifying : Finset Id, (∀ i node, verify i = .ok node → i ∈ verifying) →
        Prod.Lex (· < ·) (· < ·) (unmet verifying s', s'.pending.length) (unmet verifying s, s.pending.length)) ∨
    (step verify sources { s with pending := pending } top = .error .cyclic ∧
      ∃ i, Reaches verify sources root i ∧ Cyclic verify sources i) ∨
    ∃ e i, step verify sources { s with pending := pending } top = .error (.node e) ∧
      Reaches verify sources root i ∧ verify i = .error e := by
  obtain ⟨path, hframes, hvisiting⟩ := h.frames
  rw [hs] at hframes
  cases top with
  | leave id node =>
      obtain ⟨hnode, hsources, path, rfl, hpath, hrest⟩ := hframes.pop_leave
      have hin : ((s.checked.insert id node).get? id).isSome := by
        rw [SortedMap.get?_insert, if_pos rfl]
        rfl
      have hgrows : ∀ x, (s.checked.get? x).isSome → ((s.checked.insert id node).get? x).isSome := by
        intro x hx
        rw [SortedMap.get?_insert]
        split
        · rfl
        · exact hx
      refine .inl ⟨_, rfl,
        ⟨h.cache.insert hnode hsources, ⟨path, (hrest.mono hgrows).close hin, ?_⟩, h.nodup, ?_⟩, ?_⟩
      · dsimp only
        rw [hvisiting, List.toFinset_cons, Finset.erase_insert (by rwa [List.mem_toFinset])]
      · intro i hi
        by_cases he : i = id
        · rw [he]
          exact .inr hin
        · exact (h.seen i hi).imp (fun hm => Finset.mem_erase.mpr ⟨he, hm⟩) (hgrows i)
      · intro verifying _
        refine lex_of_le (Finset.card_le_card (fun i hi => ?_)) (by rw [hs]; exact Nat.lt_succ_self _)
        rw [Finset.mem_filter] at hi ⊢
        obtain ⟨hin, hmet, hget⟩ := hi
        dsimp only at hmet hget
        rw [SortedMap.get?_insert] at hget
        split at hget
        · cases hget
        · rename_i hne
          exact ⟨hin, fun hm => hmet (Finset.mem_erase.mpr ⟨fun he => hne he.symm, hm⟩), hget⟩
  | enter id =>
      have hbelow := hframes.pop_enter
      obtain ⟨hroot, habove⟩ := hbelow.reaches
      unfold CheckpointReader.step
      dsimp only
      by_cases hchecked : (s.checked.get? id).isSome
      · rw [if_pos hchecked]
        refine .inl ⟨_, rfl, ⟨h.cache, ⟨path, hbelow.close hchecked, hvisiting⟩, h.nodup, h.seen⟩,
          fun _ _ => lex_of_le (le_refl _) (by rw [hs]; exact Nat.lt_succ_self _)⟩
      · rw [if_neg hchecked]
        by_cases hmet : id ∈ s.visiting
        · rw [if_pos hmet]
          rw [hvisiting, List.mem_toFinset] at hmet
          exact .inr (.inl ⟨rfl, id, hroot, habove id hmet⟩)
        · rw [if_neg hmet]
          cases hnode : verify id with
          | error e => exact .inr (.inr ⟨e, id, rfl, hroot, hnode⟩)
          | ok node =>
              have hpath : id ∉ path := by
                rw [hvisiting, List.mem_toFinset] at hmet
                exact hmet
              refine .inl ⟨_, rfl, ⟨h.cache, ⟨id :: path, ?_, ?_⟩, ?_, ?_⟩, ?_⟩
              · exact .frame hnode (fun x hx => hx) (fun x hx => (by cases hx)) (fun x hx => .inr (.inl hx)) hpath
                  hbelow
              · dsimp only
                rw [hvisiting, List.toFinset_cons]
              · refine List.nodup_cons.mpr ⟨fun hm => ?_, h.nodup⟩
                cases h.seen id hm with
                | inl hm => exact hmet hm
                | inr hm => exact hchecked hm
              · intro i hi
                cases List.mem_cons.mp hi with
                | inl he =>
                    rw [he]
                    exact .inl (Finset.mem_insert_self id _)
                | inr hi => exact (h.seen i hi).imp_left (fun hm => Finset.mem_insert_of_mem hm)
              · intro verifying hv
                refine Prod.Lex.left _ _ (Finset.card_lt_card (Finset.ssubset_iff_of_subset (fun i hi => ?_) |>.mpr
                  ⟨id, ?_, ?_⟩))
                · rw [Finset.mem_filter] at hi ⊢
                  exact ⟨hi.1, fun hm => hi.2.1 (Finset.mem_insert_of_mem hm), hi.2.2⟩
                · rw [Finset.mem_filter]
                  exact ⟨hv id node hnode, hmet, by simpa using hchecked⟩
                · rw [Finset.mem_filter]
                  exact fun hm => hm.2.1 (Finset.mem_insert_self id _)

/-- What a call answers. -/
structure Answers (verify : Id → Except ε Node) (sources : Node → List Id) (root : Id)
    (outcome : Outcome Id ε Node) : Prop where
  cache : Cache verify sources outcome.checked
  nodup : outcome.reads.Nodup
  ok : ∀ node, outcome.result = .ok node → verify root = .ok node ∧ Verified verify sources root
  cyclic : outcome.result = .error .cyclic → ∃ i, Reaches verify sources root i ∧ Cyclic verify sources i
  node : ∀ e, outcome.result = .error (.node e) → ∃ i, Reaches verify sources root i ∧ verify i = .error e
  missing : outcome.result ≠ .error .missing

theorem run_end {fuel : ℕ} (hs : s.pending = []) : run verify sources root (fuel + 1) s =
    some ⟨match s.checked.get? root with | some node => .ok node | none => .error .missing, s.checked,
      s.reads⟩ := by
  unfold run
  rw [hs]
  dsimp only
  cases s.checked.get? root with
  | none => rfl
  | some node => rfl

theorem run_ok {top : Pending Id Node} {pending : List (Pending Id Node)} {s' : State Id Node} {fuel : ℕ}
    (hs : s.pending = top :: pending) (h : step verify sources { s with pending := pending } top = .ok s') :
    run verify sources root (fuel + 1) s = run verify sources root fuel s' := by
  rw [run, hs]
  dsimp only
  rw [h]

theorem run_error {top : Pending Id Node} {pending : List (Pending Id Node)} {e : Failure ε} {fuel : ℕ}
    (hs : s.pending = top :: pending) (h : step verify sources { s with pending := pending } top = .error e) :
    run verify sources root (fuel + 1) s = some ⟨.error e, s.checked, s.reads⟩ := by
  rw [run, hs]
  dsimp only
  rw [h]

/-- More passes than enough change nothing. -/
theorem run_mono {fuel more : ℕ} (hle : fuel ≤ more) {outcome : Outcome Id ε Node}
    (h : run verify sources root fuel s = some outcome) : run verify sources root more s = some outcome := by
  induction fuel generalizing more s with
  | zero => cases h
  | succ fuel ih =>
      obtain ⟨more, rfl⟩ : ∃ n, more = n + 1 := ⟨more - 1, by omega⟩
      cases hs : s.pending with
      | nil =>
          rw [run_end hs] at h ⊢
          exact h
      | cons top pending =>
          cases hstep : step verify sources { s with pending := pending } top with
          | error e =>
              rw [run_error hs hstep] at h ⊢
              exact h
          | ok s' =>
              rw [run_ok hs hstep] at h ⊢
              exact ih (by omega) h

/-- The loop ends if finitely many nodes verify. -/
theorem Reading.ends (h : Reading verify sources root s) {verifying : Finset Id}
    (hv : ∀ i node, verify i = .ok node → i ∈ verifying) :
    ∃ fuel outcome, run verify sources root fuel s = some outcome := by
  generalize hm : (unmet verifying s, s.pending.length) = m
  have hwf : WellFounded (Prod.Lex (· < ·) (· < ·) : ℕ × ℕ → ℕ × ℕ → Prop) :=
    (inferInstance : IsWellFounded (ℕ × ℕ) (Prod.Lex (· < ·) (· < ·))).wf
  induction m using hwf.induction generalizing s with
  | _ m ih =>
      cases hs : s.pending with
      | nil => exact ⟨1, _, run_end hs⟩
      | cons top pending =>
          obtain ⟨s', hok, hnext, hless⟩ | ⟨he, _⟩ | ⟨e, i, he, _⟩ := h.step hs
          · have hless := hless verifying hv
            rw [hm] at hless
            obtain ⟨fuel, outcome, hrun⟩ := ih _ hless hnext rfl
            exact ⟨fuel + 1, outcome, (run_ok hs hok).trans hrun⟩
          · exact ⟨1, _, run_error hs he⟩
          · exact ⟨1, _, run_error hs he⟩

/-- What the loop ends with. -/
theorem Reading.answers (h : Reading verify sources root s) {fuel : ℕ} {outcome : Outcome Id ε Node}
    (hrun : run verify sources root fuel s = some outcome) : Answers verify sources root outcome := by
  induction fuel generalizing s with
  | zero => cases hrun
  | succ fuel ih =>
      cases hs : s.pending with
      | nil =>
          rw [run_end hs] at hrun
          obtain rfl := Option.some.inj hrun
          obtain ⟨path, hframes, _⟩ := h.frames
          rw [hs] at hframes
          have hroot : (s.checked.get? root).isSome := by
            generalize hp : ([] : List (Pending Id Node)) = stack at hframes
            cases hframes with
            | start => cases hp
            | done hroot => exact hroot
            | @frame _ _ _ todo =>
                cases todo with
                | nil => cases hp
                | cons x todo => cases hp
          obtain ⟨node, hnode⟩ := Option.isSome_iff_exists.mp hroot
          refine ⟨h.cache, h.nodup, fun n hn => ?_, fun hc => ?_, fun e he => ?_, fun hm => ?_⟩
          · dsimp only at hn
            rw [hnode] at hn
            cases hn
            exact ⟨h.cache.node root node hnode, h.cache.verified root node hnode⟩
          · dsimp only at hc
            rw [hnode] at hc
            cases hc
          · dsimp only at he
            rw [hnode] at he
            cases he
          · dsimp only at hm
            rw [hnode] at hm
            cases hm
      | cons top pending =>
          obtain ⟨s', hok, hnext, _⟩ | ⟨he, hcycle⟩ | ⟨e, i, he, hreaches, hfails⟩ := h.step hs
          · rw [run_ok hs hok] at hrun
            exact ih hnext hrun
          · rw [run_error hs he] at hrun
            obtain rfl := Option.some.inj hrun
            exact ⟨h.cache, h.nodup, fun n hn => (by cases hn), fun _ => hcycle, fun e he => (by cases he),
              fun hm => (by cases hm)⟩
          · rw [run_error hs he] at hrun
            obtain rfl := Option.some.inj hrun
            refine ⟨h.cache, h.nodup, fun n hn => (by cases hn), fun hc => (by cases hc), fun e' he => ?_,
              fun hm => (by cases hm)⟩
            cases he
            exact ⟨i, hreaches, hfails⟩

end passes

/-! ### Calls -/

section calls
variable {verify : Id → Except ε Node} {sources : Node → List Id} {checked : SortedMap Id Node}

/-- Every cache of a reader is good. -/
theorem Reached.cache (h : Reached verify sources checked) : Cache verify sources checked := by
  induction h with
  | new => exact cache_empty
  | read _ hread ih => exact ((reading_start ih).answers hread).cache

/-- Whatever calls a reader has had, on a finite graph the next one ends.  It succeeds exactly if everything below
the ID verifies and nothing of it is below itself, it calls only a cycle a cycle, it verifies no node twice, and
it leaves a cache of nodes that verify, with their sources. -/
theorem Reached.read_spec (hfinite : {i | ∃ node, verify i = .ok node}.Finite)
    (h : Reached verify sources checked) (id : Id) :
    ∃ outcome : Outcome Id ε Node, (∃ enough, ∀ fuel ≥ enough,
        CheckpointReader.read verify sources checked id fuel = some outcome) ∧
      ((∃ node, outcome.result = .ok node) ↔ (∀ i, Reaches verify sources id i → ∃ node, verify i = .ok node) ∧
        ∀ i, Reaches verify sources id i → ¬ Cyclic verify sources i) ∧
      (∀ node, outcome.result = .ok node → verify id = .ok node) ∧
      (outcome.result = .error .cyclic → ∃ i, Reaches verify sources id i ∧ Cyclic verify sources i) ∧
      Cache verify sources outcome.checked ∧ outcome.reads.Nodup := by
  have hstart : Reading verify sources id ⟨[.enter id], ∅, checked, []⟩ := reading_start h.cache
  obtain ⟨fuel, outcome, hrun⟩ := hstart.ends (fun i node hnode => hfinite.mem_toFinset.mpr ⟨node, hnode⟩)
  have hanswers := hstart.answers hrun
  refine ⟨outcome, ⟨fuel, fun more hle => run_mono hle hrun⟩, ⟨fun hok => ?_, fun hgood => ?_⟩,
    fun node hn => (hanswers.ok node hn).1, hanswers.cyclic, hanswers.cache, hanswers.nodup⟩
  · obtain ⟨node, hn⟩ := hok
    obtain ⟨_, hverified⟩ := hanswers.ok node hn
    refine ⟨fun i hr => ?_, fun i hr => (hverified.reaches hr).not_cyclic⟩
    cases hverified.reaches hr with
    | node hnode _ => exact ⟨_, hnode⟩
  · obtain ⟨hverify, hacyclic⟩ := hgood
    cases hresult : outcome.result with
    | ok node => exact ⟨node, rfl⟩
    | error e =>
        cases e with
        | cyclic =>
            obtain ⟨i, hr, hc⟩ := hanswers.cyclic hresult
            exact absurd hc (hacyclic i hr)
        | node e =>
            obtain ⟨i, hr, hfails⟩ := hanswers.node e hresult
            obtain ⟨node, hnode⟩ := hverify i hr
            rw [hfails] at hnode
            cases hnode
        | missing => exact absurd hresult hanswers.missing

/-- A graph of numbers: 0 is above 1 and 2, which share 3, and 4 is below itself. -/
def diamond : ℕ → Except Unit (List ℕ)
  | 0 => .ok [1, 2]
  | 1 => .ok [3]
  | 2 => .ok [3]
  | 3 => .ok []
  | 4 => .ok [3, 4]
  | _ => .error ()

/-- After a call that failed, the reader reads the diamond. -/
theorem read_spec_diamond : ∃ checked, Reached diamond id checked ∧ ∃ outcome : Outcome ℕ Unit (List ℕ),
    (∃ enough, ∀ fuel ≥ enough, read diamond id checked 0 fuel = some outcome) ∧
      Cache diamond id outcome.checked ∧ outcome.reads.Nodup := by
  have hfinite : {i | ∃ node, diamond i = .ok node}.Finite := by
    refine (Set.finite_lt_nat 5).subset (fun i hi => ?_)
    obtain ⟨node, hnode⟩ := hi
    by_contra hge
    obtain ⟨n, rfl⟩ : ∃ n, i = n + 5 := ⟨i - 5, by simp at hge; omega⟩
    cases hnode
  obtain ⟨first, ⟨enough, hread⟩, _⟩ := Reached.read_spec hfinite .new 4
  have hreached := Reached.read .new (hread enough (le_refl _))
  obtain ⟨outcome, hread, _, _, _, hcache, hnodup⟩ := hreached.read_spec hfinite 0
  exact ⟨first.checked, hreached, outcome, hread, hcache, hnodup⟩

end calls

end CheckpointReader

/-! ### The reader of a repository -/

namespace Repository
variable {Id : Type} [LinearOrder Id] [Encoding Id] (r : Repository Id)

/-- `CheckpointReader::read` in a repository; a shallow reader follows no sources. -/
def readWith (deep : Bool) (checked : SortedMap Id (LayerCheckpoint Id)) (id : Id) (fuel : ℕ) :
    Option (CheckpointReader.Outcome Id (Error Id) (LayerCheckpoint Id)) :=
  CheckpointReader.read r.checkpointNode (fun node => if deep then node.sources else []) checked id fuel

variable {r}

theorem verified_iff_deep {id : Id} :
    CheckpointReader.Verified r.checkpointNode (fun node => if true then node.sources else []) id ↔ Deep r id := by
  constructor
  · intro h
    induction h with
    | node hnode _ ih => exact .node hnode ih
  · intro h
    induction h with
    | node hnode _ ih => exact .node hnode ih

theorem deep_of_readBelow {depth : ℕ} {visiting : List Id} {id : Id} {node : LayerCheckpoint Id}
    (h : r.readBelow depth visiting id = .ok node) : r.checkpointNode id = .ok node ∧ Deep r id := by
  induction depth generalizing visiting id node with
  | zero => cases h
  | succ depth ih =>
      unfold readBelow at h
      obtain ⟨_, _, h⟩ := except_bind_eq_ok.mp h
      obtain ⟨node', hnode, h⟩ := except_bind_eq_ok.mp h
      obtain ⟨_, hsources, h⟩ := except_bind_eq_ok.mp h
      cases h
      refine ⟨hnode, .node hnode (fun source hm => ?_)⟩
      obtain ⟨_, hbelow, _⟩ := except_bind_eq_ok.mp (forM_eq_ok.mp hsources source hm)
      exact (ih hbelow).2

/-- A new deep reader answers with the checkpoint that `readDeep` reads. -/
theorem read_eq_readDeep (id : Id) : ∃ outcome, (∃ enough, ∀ fuel ≥ enough,
    r.readWith true SortedMap.empty id fuel = some outcome) ∧
      ∀ node, outcome.result = .ok node ↔ r.readDeep id = .ok node := by
  have hfinite : {i | ∃ node, r.checkpointNode i = .ok node}.Finite := by
    refine (r.objects.map Prod.fst).toFinset.finite_toSet.subset (fun i hi => ?_)
    obtain ⟨node, hnode⟩ := hi
    rw [Finset.mem_coe, List.mem_toFinset]
    exact lookup_of_checkpointIn hnode
  have hstart : CheckpointReader.Reading r.checkpointNode (fun node => if true then node.sources else []) id
      ⟨[.enter id], ∅, SortedMap.empty, []⟩ := CheckpointReader.reading_start CheckpointReader.cache_empty
  obtain ⟨fuel, outcome, hrun⟩ := hstart.ends (fun i node hnode => hfinite.mem_toFinset.mpr ⟨node, hnode⟩)
  have hanswers := hstart.answers hrun
  refine ⟨outcome, ⟨fuel, fun more hle => CheckpointReader.run_mono hle hrun⟩,
    fun node => ⟨fun hok => ?_, fun hok => ?_⟩⟩
  · obtain ⟨hnode, hverified⟩ := hanswers.ok node hok
    rw [(verified_iff_deep.mp hverified).readDeep_eq]
    exact hnode
  · obtain ⟨hnode, hdeep⟩ := deep_of_readBelow hok
    have hverified := verified_iff_deep.mpr hdeep
    cases hresult : outcome.result with
    | ok node' =>
        have hnode' := (hanswers.ok node' hresult).1
        rw [hnode] at hnode'
        rw [Except.ok.inj hnode']
    | error e =>
        cases e with
        | cyclic =>
            obtain ⟨i, hreaches, hcycle⟩ := hanswers.cyclic hresult
            exact absurd hcycle (hverified.reaches hreaches).not_cyclic
        | node e =>
            obtain ⟨i, hreaches, hfails⟩ := hanswers.node e hresult
            cases hverified.reaches hreaches with
            | node hnode' _ =>
                rw [hfails] at hnode'
                cases hnode'
        | missing => exact absurd hresult hanswers.missing

end Repository

end Javelin
