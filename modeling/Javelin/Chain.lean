import Javelin.Received

/-! # The World chain

`Chain r S` says that the World of `r` is the chain of the snapshots `S 0`, `S 1`, …: numbers
without a gap from the empty World on, each tree the readable canonical tree of its snapshot, each
changeset the exact difference from the snapshot before, each identity the hash of its parent's
identity, root and changeset, and each version bound to its accepted attempt.

Every write keeps the chain (`Chain.keep`) or appends to it (`Chain.append`). -/

namespace Javelin

open KeyedList

variable {Id : Type} [DecidableEq Id] [ObjectHash Id]

namespace Repository
variable {r r' : Repository Id} {S : VersionNumber → Manifest Id}

/-- The changeset of version `n + 1` leads from the version before to it. -/
structure Link (r : Repository Id) (S : VersionNumber → Manifest Id) (n : ℕ)
    (v w : WorldVersion Id) (c : SparseChanges Id) : Prop where
  rows : r.changes.get? (n + 1) = some c.entries
  exact : c.flat = Flat.diff (S n).flat (S (n + 1)).flat
  id : w.id = versionId (some v.id) w.tree c

/-- The attempt that appended version `n`. -/
structure Bound (r : Repository Id) (n : ℕ) (v : WorldVersion Id) (op : OperationId)
    (tree : Option Id) : Prop where
  operation : v.operation = some op
  attempt : r.attempts.get? op = some ⟨n - 1, tree, true, n⟩
  tree : ∀ t, tree = some t → t = v.tree

/-- The World of `r` is the chain of the snapshots `S`. -/
structure Chain (r : Repository Id) (S : VersionNumber → Manifest Id) : Prop where
  honest : r.objects.Honest
  contiguous : ∀ (n : ℕ) (v : WorldVersion Id), r.versions[n]? = some v → v.number = n
  first : r.versions[0]? = some ⟨0, versionId none emptyId SparseChanges.empty, emptyId, none⟩
  genesis : S 0 = Manifest.empty
  tree : ∀ (n : ℕ) (v : WorldVersion Id), r.versions[n]? = some v → IsTree r.objects.Readable (S n).flat v.tree
  link : ∀ (n : ℕ) (v w : WorldVersion Id), r.versions[n]? = some v → r.versions[n + 1]? = some w → ∃ c, Link r S n v w c
  bound : ∀ (n : ℕ) (v : WorldVersion Id), r.versions[n]? = some v → 0 < n → ∃ operation tree, Bound r n v operation tree
  rows : ∀ n : ℕ, n = 0 ∨ r.versions.length ≤ n → r.changes.get? n = none

namespace Chain

/-! ### Reading the chain -/

theorem length_pos (h : Chain r S) : 0 < r.versions.length := by
  obtain ⟨hlt, _⟩ := List.getElem?_eq_some_iff.mp h.first
  exact hlt

theorem row_eq (h : Chain r S) (n : VersionNumber) : r.row n = r.versions[n]? := by
  unfold row
  cases hn : r.versions[n]? with
  | some v =>
      rw [List.find?_eq_some_iff_getElem]
      obtain ⟨hlt, hv⟩ := List.getElem?_eq_some_iff.mp hn
      refine ⟨decide_eq_true (h.contiguous n v hn), n, hlt, hv, fun j hj => ?_⟩
      have hjv := h.contiguous j r.versions[j] (List.getElem?_eq_getElem _)
      rw [Bool.not_eq_true', decide_eq_false_iff_not, hjv]
      exact hj.ne
  | none =>
      rw [List.find?_eq_none]
      intro v hv hnum
      obtain ⟨j, hj⟩ := List.mem_iff_getElem?.mp hv
      rw [← h.contiguous j v hj, of_decide_eq_true hnum, hn] at hj
      cases hj

theorem decode_eq (h : Chain r S) {n : ℕ} {v : WorldVersion Id} (hv : r.versions[n]? = some v) :
    v.decode = .ok v := by
  have hnum := h.contiguous n v hv
  have hiff : (v.number = 0) = (v.operation = none) := by
    rw [hnum]
    by_cases hn : n = 0
    · subst hn
      have hfirst := hv.symm.trans h.first
      cases hfirst
      simp
    · obtain ⟨operation, _, hb⟩ := h.bound n v hv (Nat.pos_of_ne_zero hn)
      rw [hb.operation]
      simp [hn]
  unfold WorldVersion.decode
  rw [refuse, if_neg (not_not.mpr hiff)]
  rfl

theorem bindAttempt_eq (h : Chain r S) {n : ℕ} {v : WorldVersion Id} (hv : r.versions[n]? = some v) :
    r.bindAttempt v = .ok () := by
  have hnum := h.contiguous n v hv
  unfold bindAttempt
  by_cases hn : n = 0
  · subst hn
    have hfirst := hv.symm.trans h.first
    cases hfirst
    rfl
  · obtain ⟨operation, tree, hb⟩ := h.bound n v hv (Nat.pos_of_ne_zero hn)
    rw [hb.operation]
    simp only
    rw [hb.attempt]
    simp only
    rw [refuse_eq_ok]
    simp [hnum]

/-- A version is read as its row. -/
theorem versionIn_eq_ok (h : Chain r S) {n : VersionNumber} {v : WorldVersion Id} :
    r.versionIn n = .ok v ↔ r.versions[n]? = some v := by
  unfold versionIn
  rw [h.row_eq n]
  cases hn : r.versions[n]? with
  | none =>
      constructor
      · intro hf
        cases hf
      · intro hf
        cases hf
  | some w =>
      simp only
      rw [h.decode_eq hn]
      show (r.bindAttempt w >>= fun _ => pure w) = .ok v ↔ _
      rw [h.bindAttempt_eq hn, Option.some.injEq]
      exact ⟨fun he => Except.ok.inj he, fun he => congrArg Except.ok he⟩

theorem headIn_eq_ok (h : Chain r S) {v : WorldVersion Id} :
    r.headIn = .ok v ↔ r.versions.getLast? = some v := by
  unfold headIn
  cases hn : r.versions.getLast? with
  | none =>
      constructor
      · intro hf
        cases hf
      · intro hf
        cases hf
  | some w =>
      have hw : r.versions[r.versions.length - 1]? = some w := by
        rw [← List.getLast?_eq_getElem?]
        exact hn
      simp only
      rw [h.decode_eq hw]
      show (r.bindAttempt w >>= fun _ => pure w) = .ok v ↔ _
      rw [h.bindAttempt_eq hw, Option.some.injEq]
      exact ⟨fun he => Except.ok.inj he, fun he => congrArg Except.ok he⟩

/-- The head is the last version. -/
theorem getElem?_of_head (h : Chain r S) {head : WorldVersion Id}
    (hhead : r.versions.getLast? = some head) :
    r.versions[head.number]? = some head ∧ r.versions.length = head.number + 1 := by
  rw [List.getLast?_eq_getElem?] at hhead
  have hnum := h.contiguous _ _ hhead
  have hpos := h.length_pos
  rw [hnum]
  exact ⟨hhead, by omega⟩

theorem exists_head (h : Chain r S) : ∃ head, r.versions.getLast? = some head := by
  have hpos := h.length_pos
  exact ⟨_, List.getLast?_eq_some_getLast (List.length_pos_iff.mp hpos)⟩

theorem treeIn_eq_ok (h : Chain r S) {n : VersionNumber} {root : Id} :
    r.treeIn n = .ok root ↔ ∃ v, r.versions[n]? = some v ∧ v.tree = root := by
  unfold treeIn
  rw [h.row_eq n]
  cases hn : r.versions[n]? with
  | none =>
      constructor
      · intro hf
        cases hf
      · rintro ⟨v, hv, _⟩
        cases hv
  | some w =>
      constructor
      · intro he
        exact ⟨w, rfl, Except.ok.inj he⟩
      · rintro ⟨v, hv, rfl⟩
        cases hv
        rfl

/-- The operation of a version is bound to the attempt that appended it. -/
theorem attempt_of_operation (h : Chain r S) {n : ℕ} {v : WorldVersion Id} (hv : r.versions[n]? = some v)
    {operation : OperationId} (hop : v.operation = some operation) : ∃ tree, Bound r n v operation tree := by
  have hpos : 0 < n := by
    rcases Nat.eq_zero_or_pos n with rfl | hpos
    · obtain rfl := Option.some.inj (h.first.symm.trans hv)
      cases hop
    · exact hpos
  obtain ⟨operation', tree, hb⟩ := h.bound n v hv hpos
  obtain rfl := Option.some.inj (hop.symm.trans hb.operation)
  exact ⟨tree, hb⟩

/-- A new repository is the chain of the empty World. -/
theorem initial (identity : Id) : Chain (Repository.initial identity) (fun _ => Manifest.empty) where
  honest := by
    have hnil : Objects.Honest ([] : Objects Id) := fun e he => by cases he
    exact hnil.add _
  contiguous n v hv := by
    obtain ⟨hlt, hv⟩ := List.getElem?_eq_some_iff.mp hv
    obtain rfl : n = 0 := Nat.lt_one_iff.mp hlt
    subst hv
    rfl
  first := rfl
  genesis := rfl
  tree n v hv := by
    obtain ⟨hlt, hv⟩ := List.getElem?_eq_some_iff.mp hv
    obtain rfl : n = 0 := Nat.lt_one_iff.mp hlt
    subst hv
    exact isDir_empty (fun _ => rfl) (Or.inr rfl)
  link n v w _ hw := by
    obtain ⟨hlt, _⟩ := List.getElem?_eq_some_iff.mp hw
    exact absurd hlt (Nat.not_lt.mpr (Nat.le_add_left 1 n))
  bound n v hv hn := by
    obtain ⟨hlt, _⟩ := List.getElem?_eq_some_iff.mp hv
    exact absurd (Nat.lt_one_iff.mp hlt) hn.ne'
  rows _ _ := rfl

/-! ### Keeping and extending the chain -/

/-- A write that leaves the World's rows keeps the chain. -/
theorem keep (h : Chain r S) (hhonest : r'.objects.Honest) (hobjects : r.objects.Extends r'.objects)
    (hversions : r'.versions = r.versions) (hchanges : r'.changes = r.changes)
    (hattempts : ∀ op a, r.attempts.get? op = some a → r'.attempts.get? op = some a) :
    Chain r' S where
  honest := hhonest
  contiguous := by
    rw [hversions]
    exact h.contiguous
  first := by
    rw [hversions]
    exact h.first
  genesis := h.genesis
  tree := by
    rw [hversions]
    exact fun n v hv => IsDir.mono (fun _ => hobjects.readable) (h.tree n v hv)
  link := by
    rw [hversions]
    intro n v w hv hw
    obtain ⟨c, hc⟩ := h.link n v w hv hw
    exact ⟨c, hchanges ▸ hc.rows, hc.exact, hc.id⟩
  bound := by
    rw [hversions]
    intro n v hv hn
    obtain ⟨operation, tree, hb⟩ := h.bound n v hv hn
    exact ⟨operation, tree, hb.operation, hattempts _ _ hb.attempt, hb.tree⟩
  rows := by
    rw [hversions, hchanges]
    exact h.rows

/-- Appending a version with its canonical tree and exact changeset extends the chain. -/
theorem append (h : Chain r S) {head : WorldVersion Id} (hhead : r.versions.getLast? = some head)
    {T : Manifest Id} {c : SparseChanges Id} {root : Id} {operation : OperationId} {tree : Option Id}
    (hhonest : r'.objects.Honest) (hobjects : r.objects.Extends r'.objects)
    (hversions : r'.versions = r.versions ++
      [⟨head.number + 1, versionId (some head.id) root c, root, some operation⟩])
    (hchanges : r'.changes = r.changes.insert (head.number + 1) c.entries)
    (hattempts : ∀ op a, r.attempts.get? op = some a → r'.attempts.get? op = some a)
    (hattempt : r'.attempts.get? operation = some ⟨head.number, tree, true, head.number + 1⟩)
    (htree : ∀ t, tree = some t → t = root)
    (hroot : IsTree r'.objects.Readable T.flat root)
    (hc : c.flat = Flat.diff (S head.number).flat T.flat) :
    Chain r' (Function.update S (head.number + 1) T) := by
  obtain ⟨hlast, hlen⟩ := h.getElem?_of_head hhead
  have hcases : ∀ (n : ℕ) (v : WorldVersion Id), r'.versions[n]? = some v → (n ≤ head.number ∧ r.versions[n]? = some v) ∨
      (n = head.number + 1 ∧
        v = ⟨head.number + 1, versionId (some head.id) root c, root, some operation⟩) := by
    intro n v hv
    rw [hversions] at hv
    rcases Nat.lt_or_ge n r.versions.length with hn | hn
    · rw [List.getElem?_append_left hn] at hv
      exact Or.inl ⟨by omega, hv⟩
    · rw [List.getElem?_append_right hn] at hv
      obtain ⟨hlt, hv⟩ := List.getElem?_eq_some_iff.mp hv
      rw [List.length_singleton] at hlt
      refine Or.inr ⟨by omega, ?_⟩
      rw [← hv, List.getElem_singleton]
  have hold : ∀ n : ℕ, n ≤ head.number → Function.update S (head.number + 1) T n = S n := by
    intro n hn
    exact Function.update_of_ne (Nat.lt_succ_of_le hn).ne _ _
  have hnew : Function.update S (head.number + 1) T (head.number + 1) = T := Function.update_self ..
  have hrow : ∀ n : ℕ, n ≠ head.number + 1 → r'.changes.get? n = r.changes.get? n := by
    intro n hn
    rw [hchanges, SortedMap.get?_insert, if_neg (Ne.symm hn)]
  refine ⟨hhonest, ?_, ?_, ?_, ?_, ?_, ?_, ?_⟩
  · intro n v hv
    rcases hcases n v hv with ⟨_, hv⟩ | ⟨rfl, rfl⟩
    · exact h.contiguous n v hv
    · rfl
  · rw [hversions, List.getElem?_append_left h.length_pos]
    exact h.first
  · rw [hold 0 (Nat.zero_le _)]
    exact h.genesis
  · intro n v hv
    rcases hcases n v hv with ⟨hn, hv⟩ | ⟨rfl, rfl⟩
    · rw [hold n hn]
      exact IsDir.mono (fun _ => hobjects.readable) (h.tree n v hv)
    · rw [hnew]
      exact hroot
  · intro n v w hv hw
    rcases hcases (n + 1) w hw with ⟨hn, hw⟩ | ⟨hn, rfl⟩
    · rcases hcases n v hv with ⟨_, hv⟩ | ⟨hn', _⟩
      · obtain ⟨d, hd⟩ := h.link n v w hv hw
        refine ⟨d, ?_, ?_, hd.id⟩
        · rw [hrow (n + 1) (by omega)]
          exact hd.rows
        · rw [hold n (by omega), hold (n + 1) hn]
          exact hd.exact
      · omega
    · obtain rfl : n = head.number := by omega
      rcases hcases _ v hv with ⟨_, hv⟩ | ⟨hn', _⟩
      · obtain rfl := Option.some.inj (hv.symm.trans hlast)
        refine ⟨c, ?_, ?_, rfl⟩
        · rw [hchanges, SortedMap.get?_insert, if_pos rfl]
        · rw [hold _ (Nat.le_refl _), hnew]
          exact hc
      · omega
  · intro n v hv hn
    rcases hcases n v hv with ⟨_, hv⟩ | ⟨rfl, rfl⟩
    · obtain ⟨op, tree', hb⟩ := h.bound n v hv hn
      exact ⟨op, tree', hb.operation, hattempts _ _ hb.attempt, hb.tree⟩
    · exact ⟨operation, tree, rfl, hattempt, htree⟩
  · intro n hn
    have hlen' : r'.versions.length = head.number + 2 := by
      rw [hversions, List.length_append, List.length_singleton, hlen]
    rw [hlen'] at hn
    rw [hrow n (by omega)]
    exact h.rows n (by omega)

end Chain

end Repository

end Javelin
