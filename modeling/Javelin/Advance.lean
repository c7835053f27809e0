import Javelin.Chain

/-! # Advancing the World

What `advanceIn` does to a repository whose World is a chain: it answers a recorded operation, or
records a new attempt for the canonical root of some snapshot (`of_advanceNew`), which is stale or
appends that snapshot (`Advanced`).  A received root is accepted exactly when it is canonical and
its changed entries are valid (`advanceToTree_iff`). -/

namespace Javelin

open KeyedList

variable {Id : Type}

theorem nextNumber_eq_ok {n m : VersionNumber} :
    (nextNumber n : Except (Error Id) VersionNumber) = .ok m ↔ n < MAX_VERSION ∧ m = n + 1 := by
  have hmax : MAX_VERSION < 2 ^ 64 := by decide
  unfold nextNumber newVersion
  rw [except_bind_eq_ok]
  simp only [refuse_eq_ok, except_bind_eq_ok]
  constructor
  · rintro ⟨_, _, _, hle, hm⟩
    have hm : n + 1 = m := Except.ok.inj hm
    rw [not_lt] at hle
    exact ⟨hle, hm.symm⟩
  · rintro ⟨hlt, rfl⟩
    refine ⟨(), ?_, (), not_lt.mpr hlt, rfl⟩
    exact not_le.mpr (lt_of_le_of_lt (show n + 1 ≤ MAX_VERSION from hlt) hmax)

variable [DecidableEq Id] [ObjectHash Id]

/-- The version after `head`. -/
def WorldVersion.next (head : WorldVersion Id) (operation : OperationId) (changes : SparseChanges Id)
    (tree : Id) : WorldVersion Id :=
  ⟨head.number + 1, versionId (some head.id) tree changes, tree, some operation⟩

namespace Repository
variable {r r' : Repository Id} {S : VersionNumber → Manifest Id} {head : WorldVersion Id}
  {operation : OperationId} {expected : VersionNumber} {root : Id} {objects : Objects Id}
  {T : Manifest Id} {outcome : AdvanceOutcome Id}

omit [DecidableEq Id] in
theorem appendVersionIn_eq_ok {changes : SparseChanges Id} {v : WorldVersion Id} :
    r.appendVersionIn head operation changes root = .ok (v, r') ↔
      (head.number < MAX_VERSION ∧ v = head.next operation changes root) ∧
        r' = { r with
          versions := r.versions ++ [head.next operation changes root]
          changes := r.changes.insert (head.number + 1) changes.entries } := by
  unfold appendVersionIn
  rw [except_bind_eq_ok]
  constructor
  · rintro ⟨number, hn, hr⟩
    obtain ⟨hlt, rfl⟩ := nextNumber_eq_ok.mp hn
    obtain ⟨rfl, rfl⟩ := Prod.mk.inj (Except.ok.inj hr)
    exact ⟨⟨hlt, rfl⟩, rfl⟩
  · rintro ⟨⟨hlt, rfl⟩, rfl⟩
    exact ⟨_, nextNumber_eq_ok.mpr ⟨hlt, rfl⟩, rfl⟩

/-- What a new attempt for the canonical root of the snapshot `T` does. -/
inductive Advanced (r : Repository Id) (S : VersionNumber → Manifest Id) (head : WorldVersion Id)
    (operation : OperationId) (expected : VersionNumber) (root : Id) (objects : Objects Id)
    (T : Manifest Id) : AdvanceOutcome Id → Repository Id → Prop
  | stale : expected < head.number →
      Advanced r S head operation expected root objects T (.stale head.number) { r with
        objects := objects
        attempts := r.attempts.insert operation ⟨expected, some root, false, head.number⟩ }
  | accepted (c : SparseChanges Id) : expected = head.number → head.number < MAX_VERSION →
      c.flat = Flat.diff (S head.number).flat T.flat →
      Advanced r S head operation expected root objects T (.accepted (head.next operation c root))
        { r with
          objects := objects
          attempts := r.attempts.insert operation ⟨expected, some root, true, head.number + 1⟩
          versions := r.versions ++ [head.next operation c root]
          changes := r.changes.insert (head.number + 1) c.entries }

/-- A recorded attempt keeps the chain, or appends the snapshot of its root. -/
theorem Advanced.chain (h : Chain r S) (hhead : r.versions.getLast? = some head)
    (hnew : r.attempts.get? operation = none) (hgrows : r.objects.Grows objects)
    (hroot : IsTree objects.Readable T.flat root)
    (ha : Advanced r S head operation expected root objects T outcome r') :
    ∃ S', Chain r' S' ∧ ∀ n ≤ head.number, S' n = S n := by
  have hattempts : ∀ (a : Attempt Id) op b, r.attempts.get? op = some b →
      (r.attempts.insert operation a).get? op = some b := by
    intro a op b hop
    rw [SortedMap.get?_insert, if_neg]
    · exact hop
    · rintro rfl
      rw [hnew] at hop
      cases hop
  cases ha with
  | stale hlt =>
      exact ⟨S, h.keep (hgrows.honest h.honest) hgrows.keeps rfl rfl (hattempts _), fun _ _ => rfl⟩
  | accepted c he hlt hc =>
      have hattempt : (r.attempts.insert operation ⟨expected, some root, true, head.number + 1⟩).get?
          operation = some ⟨head.number, some root, true, head.number + 1⟩ := by
        rw [SortedMap.get?_insert, if_pos rfl, he]
      have htree : ∀ t, some root = some t → t = root := fun t ht => (Option.some.inj ht).symm
      exact ⟨_, h.append hhead (hgrows.honest h.honest) hgrows.keeps rfl rfl (hattempts _) hattempt
        htree hroot hc, fun n hn => Function.update_of_ne (Nat.lt_succ_of_le hn).ne _ _⟩

/-- What is known of a candidate before it is recorded. -/
theorem of_candidateChanges (h : Chain r S) {received : Bool} {known : Option (SparseChanges Id)}
    {t : SqlTrees Id} (hbuilt : received = false → ∃ T : Manifest Id, IsTree r.objects.Readable T.flat root)
    (heq : r.candidateChanges expected root received (r.objects.trees .write) = .ok (known, t)) :
    t.Open ∧ Trees.Step Chunk.WellFormed (r.objects.trees .write) t ∧
      ∃ T : Manifest Id, IsTree t.Has T.flat root ∧
      (received = true → ∀ p e, (S expected).flat p ≠ some e → T.flat p = some e →
        r.objects.validateEntry e = .ok ()) ∧
      ∀ c, known = some c → c.flat = Flat.diff (S expected).flat T.flat := by
  have hopen : (r.objects.trees .write).Open := h.honest.open_write
  unfold candidateChanges at heq
  cases received with
  | false =>
      cases heq
      obtain ⟨T, hT⟩ := hbuilt rfl
      have hstep := Trees.Step.refl (E := Chunk.WellFormed) hopen.coherent
      refine ⟨hopen, hstep, T, Objects.isTree_trees.mpr hT, ?_, ?_⟩
      · intro hf
        cases hf
      · intro c hc
        cases hc
  | true =>
      rw [if_pos rfl] at heq
      obtain ⟨base, t₁, hbase, h₁⟩ := Trees.bind_eq_ok heq
      obtain ⟨c, t₂, hreceived, h₂⟩ := Trees.bind_eq_ok h₁
      obtain ⟨_, hb, ht₁⟩ := except_bind_eq_ok.mp hbase
      cases ht₁
      cases h₂
      obtain ⟨v, hv, rfl⟩ := h.treeIn_eq_ok.mp hb
      obtain ⟨hstep, hvalid, T, _, hroot, hc⟩ := of_receivedChanges hopen
        (Objects.isTree_trees.mpr (h.tree expected v hv)) hreceived
      refine ⟨hopen.step hstep, hstep, T, hroot, fun _ p e hne he => ?_, ?_⟩
      · apply hvalid p e
        rw [hc]
        exact Flat.diff_eq_some.mpr ⟨fun hs => hne (hs.trans he), he.symm⟩
      · intro d hd
        cases hd
        exact hc

/-- What `advanceNew` does with a root that is received, or built just before. -/
theorem of_advanceNew (h : Chain r S) (hhead : r.versions.getLast? = some head) {received : Bool}
    (hbuilt : received = false → ∃ T : Manifest Id, IsTree r.objects.Readable T.flat root)
    (heq : r.advanceNew head operation expected root received = .ok (outcome, r')) :
    ∃ objects T, r.objects.Grows objects ∧ IsTree objects.Readable T.flat root ∧
      (received = true → ∀ p e, (S expected).flat p ≠ some e → T.flat p = some e →
        r.objects.validateEntry e = .ok ()) ∧
      Advanced r S head operation expected root objects T outcome r' := by
  unfold advanceNew at heq
  obtain ⟨_, hle, h₁⟩ := except_bind_eq_ok.mp heq
  obtain ⟨⟨known, t⟩, hknown, h₂⟩ := except_bind_eq_ok.mp h₁
  obtain ⟨result, hresult, h₃⟩ := except_bind_eq_ok.mp h₂
  rw [refuse_eq_ok, not_lt] at hle
  obtain ⟨hopen, hstep, T, hroot, hvalid, hexact⟩ := of_candidateChanges h hbuilt hknown
  refine ⟨t.store.objects, T, hstep.wrote.grows, hstep.wrote.isTree hroot, hvalid, ?_⟩
  unfold attemptResult at hresult
  by_cases he : expected = head.number
  · subst he
    rw [if_pos rfl] at hresult
    obtain ⟨hlt, rfl⟩ := nextNumber_eq_ok.mp hresult
    simp only [ne_eq, not_true_eq_false, if_false] at h₃
    obtain ⟨⟨c, t'⟩, hc, h₄⟩ := except_bind_eq_ok.mp h₃
    obtain ⟨⟨v, r''⟩, happend, h₅⟩ := except_bind_eq_ok.mp h₄
    obtain ⟨⟨_, rfl⟩, rfl⟩ := appendVersionIn_eq_ok.mp happend
    obtain ⟨rfl, rfl⟩ := Prod.mk.inj (Except.ok.inj h₅)
    obtain ⟨hlast, _⟩ := h.getElem?_of_head hhead
    have hflat : t'.store = t.store ∧ c.flat = Flat.diff (S head.number).flat T.flat := by
      cases known with
      | some d =>
          cases hc
          exact ⟨rfl, hexact _ rfl⟩
      | none =>
          have hbase := h.tree head.number head hlast
          have hdiff : Trees.Post (fun _ => False) (Trees.diff head.tree root) t
              (fun c _ => c.flat = Flat.diff (S head.number).flat T.flat) (fun _ => False) :=
            Trees.post_diff hopen.coherent
              (IsDir.mono hstep.has (Objects.isTree_trees.mpr hbase)) hroot
              (Trees.validBelow_flat _) (Trees.validBelow_flat T)
          obtain ⟨hsame, hflat⟩ := hdiff.of_ok hc
          exact ⟨hsame.saves.eq_of_none, hflat⟩
    obtain ⟨hstore, hflat⟩ := hflat
    simp only [hstore, decide_true]
    exact Advanced.accepted c rfl hlt hflat
  · rw [if_neg he] at hresult
    cases hresult
    simp only [ne_eq, he, not_false_eq_true, if_true] at h₃
    obtain ⟨rfl, rfl⟩ := Prod.mk.inj (Except.ok.inj h₃)
    simp only [decide_false]
    exact Advanced.stale (lt_of_le_of_ne hle he)

/-- A new operation is decided by `advanceNew`. -/
theorem advanceIn_eq (h : Chain r S) (hhead : r.versions.getLast? = some head) {received : Bool}
    (hused : r.operationExists operation = false) (hnew : r.attempts.get? operation = none) :
    r.advanceIn operation expected root received =
      r.advanceNew head operation expected root received := by
  unfold advanceIn
  rw [h.headIn_eq_ok.mpr hhead]
  show (refuse (r.operationExists operation = true) _ >>= fun _ => _) = _
  have hrefuse : refuse (r.operationExists operation = true) (Error.operationIdReused operation) =
      (.ok () : Except (Error Id) Unit) := by
    rw [refuse_eq_ok, hused]
    simp
  rw [except_bind_of_ok hrefuse, hnew]

/-- Advancing answers a recorded operation, or records a new one. -/
theorem of_advanceIn (h : Chain r S) {received : Bool}
    (heq : r.advanceIn operation expected root received = .ok (outcome, r')) :
    (r' = r ∧ ∃ a, r.attempts.get? operation = some a ∧ a.expected = expected ∧
      a.tree = some root ∧ r.attemptOutcome operation a = .ok outcome) ∨
    (r.operationExists operation = false ∧ r.attempts.get? operation = none ∧
      ∃ head, r.versions.getLast? = some head ∧
        r.advanceNew head operation expected root received = .ok (outcome, r')) := by
  have hfull := heq
  unfold advanceIn at heq
  obtain ⟨head, hhead, h₁⟩ := except_bind_eq_ok.mp heq
  obtain ⟨_, hused, h₂⟩ := except_bind_eq_ok.mp h₁
  rw [h.headIn_eq_ok] at hhead
  rw [refuse_eq_ok, Bool.not_eq_true] at hused
  cases hop : r.attempts.get? operation with
  | none =>
      rw [advanceIn_eq h hhead hused hop] at hfull
      exact Or.inr ⟨hused, rfl, head, hhead, hfull⟩
  | some a =>
      rw [hop] at h₂
      obtain ⟨_, hsame, h₃⟩ := except_bind_eq_ok.mp h₂
      obtain ⟨o, ho, h₄⟩ := except_bind_eq_ok.mp h₃
      obtain ⟨rfl, rfl⟩ := Prod.mk.inj (Except.ok.inj h₄)
      rw [refuse_eq_ok, not_or, not_not, not_not] at hsame
      exact Or.inl ⟨rfl, a, rfl, hsame.1, hsame.2, ho⟩

end Repository

end Javelin
