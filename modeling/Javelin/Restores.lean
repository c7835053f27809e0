import Javelin.HostedWrites
import Javelin.ReviewReplays

/-! # Restored requests

What a request is rebuilt from.  `restore_invariant` proves a property of restored states row by row;
`exists_row_of_restore` finds the row that brought a revision. -/

namespace Javelin

open KeyedList Collaboration

variable {Id : Type} [LinearOrder Id]

namespace Collaboration

omit [LinearOrder Id] in
/-- An action that brings a revision. -/
def Action.Brings (action : Action Id) (revision : RevisionRef Id) : Prop :=
  action = .open revision ∨ ∃ expected, action = .revise expected revision

omit [LinearOrder Id] in
/-- A revision is an old one, maybe with an approval more, or the action brings it. -/
theorem Review.Acted.revisions {r next : Review Id} {actor : PrincipalId} {action : Action Id}
    (h : Acted r actor action next) {revision : Revision Id} (hm : revision ∈ next.revisions) :
    (∃ old ∈ r.revisions, old.revision = revision.revision) ∨ action.Brings revision.revision := by
  cases h with
  | «open» =>
      cases List.mem_append.mp hm with
      | inl hold => exact .inl ⟨revision, hold, rfl⟩
      | inr hnew =>
          obtain rfl := List.mem_singleton.mp hnew
          exact .inr (.inl rfl)
  | revise =>
      cases List.mem_append.mp hm with
      | inl hold => exact .inl ⟨revision, hold, rfl⟩
      | inr hnew =>
          obtain rfl := List.mem_singleton.mp hnew
          exact .inr (.inr ⟨_, rfl⟩)
  | @approve _ _ current hopen hcurrent =>
      rw [revisions_approveLast hcurrent] at hm
      have hlast : current ∈ r.revisions := by
        rw [revisions_of_current hcurrent]
        simp
      cases List.mem_append.mp hm with
      | inl hold => exact .inl ⟨revision, List.mem_of_mem_dropLast hold, rfl⟩
      | inr happroved =>
          obtain rfl := List.mem_singleton.mp happroved
          exact .inl ⟨current, hlast, rfl⟩
  | comment => exact .inl ⟨revision, hm, rfl⟩
  | publish => exact .inl ⟨revision, hm, rfl⟩
  | close => exact .inl ⟨revision, hm, rfl⟩

end Collaboration

namespace Reviewing

variable {n n' : FileWorldLog Id} {id : RequestId}

theorem of_replayRow {review next : Review Id} {row : ReviewRow Id} (h : replayRow review row = .ok next) :
    row.epoch < 2 ^ 63 ∧ review.replay row.command row.epoch = .ok next := by
  unfold replayRow at h
  split at h
  · cases h
  · rename_i hepoch
    refine ⟨not_le.mp hepoch, ?_⟩
    split at h
    · rename_i hreplay
      rw [hreplay, Except.ok.inj h]
    · cases h
    · cases h

/-- What replaying does to a request. -/
theorem acted_of_replay {review next : Review Id} {command : Command Id} {epoch : ℕ}
    (h : review.replay command epoch = .ok next) :
    ∃ acted, Review.Acted review command.actor command.action acted ∧ next = acted.stamp command epoch := by
  obtain ⟨acted, hact, hpure⟩ := except_bind_eq_ok.mp h
  exact ⟨acted, Review.of_act hact, (Except.ok.inj hpure).symm⟩

/-- What holds of a new request and is kept by every row, holds of a restored one. -/
theorem restore_invariant {I : Review Id → Prop} {repository : RepositoryId} {review : Review Id}
    (h : restore n repository id = .ok review) (hnew : I (Review.new repository id))
    (hrow : ∀ review row next, row ∈ n.rows → row.request = id → I review → replayRow review row = .ok next →
      I next) : I review := by
  have hrows : ∀ (rows : List (ReviewRow Id)) (start : Review Id), (∀ row ∈ rows, row ∈ n.rows ∧ row.request = id) →
      I start → rows.foldlM replayRow start = .ok review → I review := by
    intro rows
    induction rows with
    | nil =>
        intro start _ hstart hfold
        exact Except.ok.inj hfold ▸ hstart
    | cons row rows ih =>
        intro start hmem hstart hfold
        rw [List.foldlM_cons] at hfold
        obtain ⟨next, hreplay, hrest⟩ := except_bind_eq_ok.mp hfold
        obtain ⟨hm, hid⟩ := hmem row List.mem_cons_self
        exact ih next (fun row' hrow' => hmem row' (List.mem_cons_of_mem row hrow'))
          (hrow start row next hm hid hstart hreplay) hrest
  refine hrows _ _ (fun row hm => ?_) hnew h
  obtain ⟨hm, hid⟩ := List.mem_filter.mp hm
  exact ⟨hm, of_decide_eq_true hid⟩

/-- A revision of a restored request was brought by a row. -/
theorem exists_row_of_restore {repository : RepositoryId} {review : Review Id}
    (h : restore n repository id = .ok review) {revision : Revision Id} (hm : revision ∈ review.revisions) :
    ∃ row ∈ n.rows, row.request = id ∧ row.command.action.Brings revision.revision := by
  have hall := restore_invariant (I := fun review => ∀ revision ∈ review.revisions,
    ∃ row ∈ n.rows, row.request = id ∧ row.command.action.Brings revision.revision) h (fun _ hm => by cases hm) ?_
  · exact hall revision hm
  · intro review row next hmem hid ih hreplay revision hm
    obtain ⟨_, hreplay⟩ := of_replayRow hreplay
    obtain ⟨acted, hacted, rfl⟩ := acted_of_replay hreplay
    cases hacted.revisions hm with
    | inl hold =>
        obtain ⟨old, hold, hsame⟩ := hold
        rw [← hsame]
        exact ih old hold
    | inr hbrings => exact ⟨row, hmem, hid, hbrings⟩

/-- What a Publish names is the current revision of an open request. -/
theorem current_of_publish {review : Review Id} {command : Command Id} {permissions : AppliedPermissions}
    {applied : Applied Id} {index : ℕ} {revision : RevisionRef Id}
    (hok : review.apply command permissions = .ok applied) (haction : command.action = .publish index revision)
    (hfresh : ∀ c ∈ review.history, c.operation ≠ command.operation) :
    review.state = .open ∧ ∃ current, review.current = some current ∧ index = current.index ∧
      revision = current.revision := by
  cases Review.of_apply hok with
  | inl h => exact absurd rfl (hfresh command h.2)
  | inr h =>
      obtain ⟨_, hcheck, _⟩ := h
      obtain ⟨_, hpublishable⟩ := Review.publishable_of_check hcheck haction
      obtain ⟨_, current, hopen, hcurrent, hindex, hrevision, _⟩ := Review.of_checkPublishable hpublishable
      exact ⟨hopen, current, hcurrent, hindex, hrevision⟩

/-- The commands of a restored request are its rows'. -/
theorem exists_row_of_history {repository : RepositoryId} {review : Review Id}
    (h : restore n repository id = .ok review) {command : Command Id} (hm : command ∈ review.history) :
    ∃ row ∈ n.rows, row.request = id ∧ row.command = command := by
  have hall := restore_invariant (I := fun review => ∀ command ∈ review.history,
    ∃ row ∈ n.rows, row.request = id ∧ row.command = command) h (fun _ hm => by cases hm) ?_
  · exact hall command hm
  · intro review row next hmem hid ih hreplay command hm
    obtain ⟨_, hreplay⟩ := of_replayRow hreplay
    obtain ⟨acted, hacted, rfl⟩ := acted_of_replay hreplay
    have hm : command ∈ acted.history ++ [row.command] := hm
    rw [hacted.keeps.1] at hm
    cases List.mem_append.mp hm with
    | inl hold => exact ih command hold
    | inr hlast => exact ⟨row, hmem, hid, (List.mem_singleton.mp hlast).symm⟩

/-- An operation without a row is in no request's history. -/
theorem fresh_of_recorded {repository : RepositoryId} {review : Review Id} {op : OperationId}
    (h : restore n repository id = .ok review) (hfresh : recorded n op = none) :
    ∀ c ∈ review.history, c.operation ≠ op := by
  intro c hm hop
  obtain ⟨row, hrow, _, rfl⟩ := exists_row_of_history h hm
  have hnone := List.find?_eq_none.mp hfresh row hrow
  exact hnone (decide_eq_true hop)

end Reviewing

namespace FileWorldLog

open Reviewing

variable {n : FileWorldLog Id} {id : RequestId} {permissions : AppliedPermissions} {command : Command Id}
  {index : ℕ} {revision : RevisionRef Id} {review : Review Id}

/-- What is published is the current revision of an open request. -/
theorem Approved.current (h : Approved n permissions id command index revision review) : review.state = .open ∧
    ∃ current, review.current = some current ∧ index = current.index ∧ revision = current.revision := by
  obtain ⟨applied, hok⟩ := h.accepted
  exact current_of_publish hok h.action (fresh_of_recorded h.restored h.fresh)

/-- A row brought the revision that is published. -/
theorem Approved.exists_row (h : Approved n permissions id command index revision review) :
    ∃ row ∈ n.rows, row.command.action.Brings revision := by
  obtain ⟨_, current, hcurrent, _, rfl⟩ := h.current
  have hm : current ∈ review.revisions := List.mem_of_getLast? hcurrent
  obtain ⟨row, hrow, _, hbrings⟩ := exists_row_of_restore h.restored hm
  exact ⟨row, hrow, hbrings⟩

end FileWorldLog

end Javelin
