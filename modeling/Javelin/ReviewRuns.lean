import Javelin.Reviews

/-! # Runs of a Publish Request

`of_apply` says what an accepted command did, and `of_act` what its action did to the state.  From them
every run keeps `Sound`: revisions are numbered from one, no author approves, and every approval was
given by an accepted command for that very revision.  `publish_safe` draws the safety of publishing
from it. -/

namespace Javelin.Collaboration

open KeyedList

variable {Id : Type} [DecidableEq Id]

/-! ### What a command does -/

namespace Review
variable {r next : Review Id} {command : Command Id} {permissions : AppliedPermissions}
  {applied : Applied Id} {actor : PrincipalId} {action : Action Id}

omit [DecidableEq Id] in
theorem openRevision_eq_ok {current : Revision Id} :
    r.openRevision = .ok current ↔ r.state = .open ∧ r.current = some current := by
  unfold openRevision
  cases r.state <;> cases r.current <;> simp [refuse]

/-- The state after an accepted command that is not a retry. -/
def stamp (next : Review Id) (command : Command Id) (epoch : ℕ) : Review Id :=
  { next with epoch := epoch, history := next.history ++ [command] }

/-- An accepted command is a retry, or it was checked and its action is done. -/
theorem of_apply (hok : r.apply command permissions = .ok applied) :
    (applied = ⟨r, true⟩ ∧ command ∈ r.history) ∨
      ((∀ c ∈ r.history, c.operation ≠ command.operation) ∧ r.check command permissions = .ok () ∧
        ∃ next, r.act command.actor command.action = .ok next ∧
          applied = ⟨next.stamp command permissions.epoch, false⟩) := by
  unfold apply at hok
  split at hok
  · cases hok
  split at hok
  · rename_i prior hfind
    split at hok
    · rename_i hsame
      obtain rfl := Except.ok.inj hok
      exact Or.inl ⟨rfl, hsame ▸ List.mem_of_find?_eq_some hfind⟩
    · cases hok
  · rename_i hnone
    obtain ⟨_, hcheck, h⟩ := except_bind_eq_ok.mp hok
    obtain ⟨review, htransition, h⟩ := except_bind_eq_ok.mp h
    obtain rfl := Except.ok.inj h
    obtain ⟨next, hact, h⟩ := except_bind_eq_ok.mp htransition
    obtain rfl := Except.ok.inj h
    refine Or.inr ⟨fun c hc => ?_, hcheck, next, hact, rfl⟩
    simpa using List.find?_eq_none.mp hnone c hc

/-- The permissions of a checked command are for this repository, and not older than the last ones. -/
theorem epoch_of_check (hok : r.check command permissions = .ok ()) : r.epoch ≤ permissions.epoch := by
  obtain ⟨_, hpermissions, _⟩ := except_bind_eq_ok.mp hok
  unfold checkPermissions at hpermissions
  split at hpermissions
  · cases hpermissions
  split at hpermissions
  · cases hpermissions
  · omega

omit [DecidableEq Id] in
theorem pushRevision_eq_ok {revision : RevisionRef Id} : r.pushRevision revision = .ok next ↔
    r.revisions.length + 1 < 2 ^ 32 ∧
      next = { r with revisions := r.revisions ++ [⟨r.revisions.length + 1, revision, []⟩] } := by
  unfold pushRevision
  by_cases h : r.revisions.length + 1 < 2 ^ 32
  · rw [if_pos h, Except.ok.injEq, eq_comm]
    exact ⟨fun hnext => ⟨h, hnext⟩, fun hnext => hnext.2⟩
  · rw [if_neg h]
    exact ⟨fun herror => (by cases herror), fun hnext => absurd hnext.1 h⟩

/-- What an action does to a request. -/
inductive Acted (r : Review Id) (actor : PrincipalId) : Action Id → Review Id → Prop
  | open {revision} : r.author = none →
      Acted r actor (.open revision)
        { r with author := some actor, revisions := r.revisions ++ [⟨r.revisions.length + 1, revision, []⟩] }
  | revise {expected revision current} : r.state = .open → r.current = some current →
      r.author = some actor → expected = current.index →
      Acted r actor (.revise expected revision)
        { r with revisions := r.revisions ++ [⟨r.revisions.length + 1, revision, []⟩] }
  | approve {index revision current} : r.state = .open → r.current = some current →
      r.author ≠ some actor → index = current.index → revision = current.revision →
      actor ∉ current.approvals → Acted r actor (.approve index revision) (r.approveLast actor)
  | comment {index body current} : r.state = .open → r.current = some current →
      Acted r actor (.comment index body) { r with comments := r.comments ++ [⟨actor, index, body⟩] }
  | publish {index revision current} : r.state = .open → r.current = some current →
      Acted r actor (.publish index revision) { r with state := .published }
  | close {index current} : r.state = .open → r.current = some current → index = current.index →
      Acted r actor (.close index) { r with state := .closed }

theorem of_act (hok : r.act actor action = .ok next) : Acted r actor action next := by
  unfold act at hok
  cases action with
  | «open» revision =>
      simp only at hok
      split at hok
      · cases hok
      · rename_i hauthor
        obtain ⟨_, rfl⟩ := pushRevision_eq_ok.mp hok
        exact .open (by simpa using hauthor)
  | revise expected revision =>
      obtain ⟨current, hcurrent, h⟩ := except_bind_eq_ok.mp hok
      obtain ⟨hopen, hlast⟩ := openRevision_eq_ok.mp hcurrent
      simp only [ne_eq, ite_not] at h
      split at h
      · rename_i hauthor
        split at h
        · rename_i hindex
          split at h
          · cases h
          · obtain ⟨_, rfl⟩ := pushRevision_eq_ok.mp h
            exact .revise hopen hlast hauthor hindex
        · cases h
      · cases h
  | approve index revision =>
      obtain ⟨current, hcurrent, h⟩ := except_bind_eq_ok.mp hok
      obtain ⟨hopen, hlast⟩ := openRevision_eq_ok.mp hcurrent
      simp only [ne_eq, ite_not] at h
      split at h
      · cases h
      rename_i hauthor
      split at h
      · rename_i hindex
        split at h
        · rename_i hrevision
          split at h
          · cases h
          · rename_i happroved
            obtain rfl := Except.ok.inj h
            exact .approve hopen hlast hauthor hindex hrevision.symm happroved
        · cases h
      · cases h
  | comment index body =>
      obtain ⟨current, hcurrent, h⟩ := except_bind_eq_ok.mp hok
      obtain ⟨hopen, hlast⟩ := openRevision_eq_ok.mp hcurrent
      split at h
      · cases h
      · obtain rfl := Except.ok.inj h
        exact .comment hopen hlast
  | publish index revision =>
      obtain ⟨current, hcurrent, h⟩ := except_bind_eq_ok.mp hok
      obtain ⟨hopen, hlast⟩ := openRevision_eq_ok.mp hcurrent
      obtain rfl := Except.ok.inj h
      exact .publish hopen hlast
  | close index =>
      obtain ⟨current, hcurrent, h⟩ := except_bind_eq_ok.mp hok
      obtain ⟨hopen, hlast⟩ := openRevision_eq_ok.mp hcurrent
      simp only [ne_eq, ite_not] at h
      split at h
      · rename_i hindex
        obtain rfl := Except.ok.inj h
        exact .close hopen hlast hindex
      · cases h

/-- What may be published, and who approved it. -/
theorem of_checkPublishable {index : ℕ} {exact : RevisionRef Id} {publisher : PrincipalId} {p : Publishable}
    (hok : r.checkPublishable index exact permissions publisher = .ok p) :
    permissions.has publisher .maintain = true ∧ ∃ current, r.state = .open ∧ r.current = some current ∧
      index = current.index ∧ exact = current.revision ∧ permissions.requiredApprovals ≤
        (current.approvals.filter (fun p => decide (r.author ≠ some p) && permissions.has p .review)).length := by
  obtain ⟨_, _, h⟩ := except_bind_eq_ok.mp hok
  split at h
  · cases h
  split at h
  · cases h
  rename_i hmaintain
  obtain ⟨current, hcurrent, h⟩ := except_bind_eq_ok.mp h
  obtain ⟨hopen, hlast⟩ := openRevision_eq_ok.mp hcurrent
  simp only [ne_eq, ite_not] at h
  split at h
  · rename_i hindex
    split at h
    · rename_i hrevision
      split at h
      · cases h
      · rename_i hcount
        refine ⟨by simpa using hmaintain, current, hopen, hlast, hindex, hrevision.symm, ?_⟩
        have hsmall := permissions.small
        simp only [ne_eq] at hcount ⊢
        omega
    · cases h
  · cases h

theorem has_of_check {index : ℕ} {revision : RevisionRef Id} (hok : r.check command permissions = .ok ())
    (haction : command.action = .approve index revision) : permissions.has command.actor .review = true := by
  obtain ⟨_, _, h⟩ := except_bind_eq_ok.mp hok
  split at h
  · cases h
  rw [haction] at h
  simp only at h
  split at h
  · cases h
  · rename_i hhas
    simpa using hhas

theorem publishable_of_check {index : ℕ} {revision : RevisionRef Id} (hok : r.check command permissions = .ok ())
    (haction : command.action = .publish index revision) :
    ∃ p, r.checkPublishable index revision permissions command.actor = .ok p := by
  obtain ⟨_, _, h⟩ := except_bind_eq_ok.mp hok
  split at h
  · cases h
  rw [haction] at h
  obtain ⟨p, hp, _⟩ := except_bind_eq_ok.mp h
  exact ⟨p, hp⟩

/-! ### Revisions -/

omit [DecidableEq Id] in
theorem revisions_of_current {current : Revision Id} (h : r.current = some current) :
    r.revisions = r.revisions.dropLast ++ [current] := by
  obtain ⟨l, hl⟩ := List.getLast?_eq_some_iff.mp h
  rw [hl, List.dropLast_concat]

omit [DecidableEq Id] in
theorem revisions_approveLast {current : Revision Id} (h : r.current = some current) (actor : PrincipalId) :
    (r.approveLast actor).revisions =
      r.revisions.dropLast ++ [{ current with approvals := current.approvals ++ [actor] }] := by
  unfold approveLast
  rw [h]

omit [DecidableEq Id] in
@[simp] theorem author_approveLast (actor : PrincipalId) : (r.approveLast actor).author = r.author := by
  unfold approveLast
  split <;> rfl

omit [DecidableEq Id] in
@[simp] theorem state_approveLast (actor : PrincipalId) : (r.approveLast actor).state = r.state := by
  unfold approveLast
  split <;> rfl

/-! ### Runs -/

theorem run_append (log log' : List (Command Id × AppliedPermissions)) :
    r.run (log ++ log') = (r.run log).run log' := Trail.after_append log log'

theorem run_concat (log : List (Command Id × AppliedPermissions)) (attempt : Command Id × AppliedPermissions) :
    r.run (log ++ [attempt]) = (r.run log).after attempt := Trail.after_concat

end Review

open Review

/-- The command approves the revision, which is the current one, while its actor holds `review`. -/
def Approves (revision : Revision Id) (p : PrincipalId) (r : Review Id)
    (attempt : Command Id × AppliedPermissions) : Prop :=
  attempt.1.actor = p ∧ attempt.1.action = .approve revision.index revision.revision ∧
    attempt.2.has p .review = true ∧ (∃ next, r.apply attempt.1 attempt.2 = .ok ⟨next, false⟩) ∧
    ∃ current, r.current = some current ∧ current.index = revision.index ∧ current.revision = revision.revision

/-- A command of the run approved the revision. -/
def Approved (start : Review Id) (log : List (Command Id × AppliedPermissions)) (revision : Revision Id)
    (p : PrincipalId) : Prop :=
  Trail.Occurs (fun r attempt => r.after attempt) start (Approves revision p) log

/-- What every run keeps. -/
structure Sound (start : Review Id) (log : List (Command Id × AppliedPermissions)) (r : Review Id) : Prop where
  numbered : ∀ i revision, r.revisions[i]? = some revision → revision.index = i + 1
  unopened : r.author = none → r.revisions = []
  begun : r.state ≠ .open → r.author ≠ none
  distinct : ∀ revision ∈ r.revisions, revision.approvals.Nodup
  approved : ∀ revision ∈ r.revisions, ∀ p ∈ revision.approvals,
    r.author ≠ some p ∧ Approved start log revision p

section steps
variable {start r next : Review Id} {log : List (Command Id × AppliedPermissions)}
  {attempt : Command Id × AppliedPermissions}

/-- An open request has an author. -/
theorem Sound.author_of_current (h : Sound start log r) {current : Revision Id}
    (hcurrent : r.current = some current) : r.author ≠ none := by
  intro hnone
  unfold Review.current at hcurrent
  rw [h.unopened hnone] at hcurrent
  cases hcurrent

/-- A step that changes neither revisions nor the author. -/
theorem Sound.keep (h : Sound start log r) (hrevisions : next.revisions = r.revisions)
    (hauthor : next.author = r.author) (hstate : next.state = r.state ∨ r.author ≠ none) :
    Sound start (log ++ [attempt]) next := by
  refine ⟨?_, ?_, ?_, ?_, ?_⟩
  · rw [hrevisions]
    exact h.numbered
  · rw [hrevisions, hauthor]
    exact h.unopened
  · rw [hauthor]
    cases hstate with
    | inl hsame =>
        rw [hsame]
        exact h.begun
    | inr hauthor => exact fun _ => hauthor
  · rw [hrevisions]
    exact h.distinct
  · rw [hrevisions, hauthor]
    intro revision hm p hp
    obtain ⟨hne, happroved⟩ := h.approved revision hm p hp
    exact ⟨hne, happroved.concat⟩

/-- A new revision has no approvals yet. -/
theorem Sound.push (h : Sound start log r) {revision : RevisionRef Id}
    (hrevisions : next.revisions = r.revisions ++ [⟨r.revisions.length + 1, revision, []⟩])
    (hauthor : next.author = r.author ∨ r.author = none) (hopened : next.author ≠ none) :
    Sound start (log ++ [attempt]) next := by
  refine ⟨?_, fun hnone => absurd hnone hopened, fun _ => hopened, ?_, ?_⟩
  · intro i revision' hi
    rw [hrevisions, List.getElem?_append] at hi
    split at hi
    · exact h.numbered i revision' hi
    · rename_i hge
      have hzero : i - r.revisions.length = 0 := by
        by_contra hne
        rw [List.getElem?_eq_none (by simp; omega)] at hi
        cases hi
      rw [hzero] at hi
      obtain rfl := Option.some.inj hi
      show r.revisions.length + 1 = i + 1
      omega
  · intro revision' hm
    rw [hrevisions, List.mem_append, List.mem_singleton] at hm
    cases hm with
    | inl hm => exact h.distinct revision' hm
    | inr hm =>
        rw [hm]
        exact List.nodup_nil
  · intro revision' hm p hp
    rw [hrevisions, List.mem_append, List.mem_singleton] at hm
    cases hm with
    | inl hm =>
        obtain ⟨hne, happroved⟩ := h.approved revision' hm p hp
        cases hauthor with
        | inl hsame => exact ⟨hsame ▸ hne, happroved.concat⟩
        | inr hnone =>
            rw [h.unopened hnone] at hm
            cases hm
    | inr hm =>
        rw [hm] at hp
        cases hp

/-- An approval is added to the current revision only. -/
theorem Sound.approve (h : Sound start log r) {current : Revision Id} {p : PrincipalId}
    (hcurrent : r.current = some current) (hauthor : r.author ≠ some p) (hfresh : p ∉ current.approvals)
    (happroved : Approved start (log ++ [attempt]) current p)
    (hrevisions : next.revisions = (r.approveLast p).revisions) (hsame : next.author = r.author) :
    Sound start (log ++ [attempt]) next := by
  have hsplit := revisions_of_current hcurrent
  rw [revisions_approveLast hcurrent] at hrevisions
  have hmem : ∀ revision ∈ next.revisions, revision ∈ r.revisions ∨
      revision = { current with approvals := current.approvals ++ [p] } := by
    intro revision hm
    rw [hrevisions, List.mem_append, List.mem_singleton] at hm
    exact hm.imp (fun hm => List.mem_of_mem_dropLast hm) id
  have hlast : current ∈ r.revisions := by
    rw [hsplit]
    simp
  refine ⟨?_, ?_, fun _ => hsame ▸ h.author_of_current hcurrent, ?_, ?_⟩
  · intro i revision hi
    by_cases hlt : i < r.revisions.dropLast.length
    · rw [hrevisions, List.getElem?_append_left hlt] at hi
      apply h.numbered i revision
      rw [hsplit, List.getElem?_append_left hlt]
      exact hi
    · rw [hrevisions, List.getElem?_append_right (not_lt.mp hlt)] at hi
      obtain ⟨hzero, hval⟩ : i - r.revisions.dropLast.length = 0 ∧
          revision = { current with approvals := current.approvals ++ [p] } := by
        cases hk : i - r.revisions.dropLast.length with
        | zero =>
            rw [hk] at hi
            exact ⟨rfl, (Option.some.inj hi).symm⟩
        | succ k =>
            rw [hk] at hi
            cases hi
      rw [hval]
      apply h.numbered i current
      rw [hsplit, List.getElem?_append_right (not_lt.mp hlt), hzero]
      rfl
  · intro hnone
    rw [hsame] at hnone
    rw [h.unopened hnone] at hlast
    cases hlast
  · intro revision hm
    cases hmem revision hm with
    | inl hm => exact h.distinct revision hm
    | inr heq =>
        rw [heq]
        have hconcat := List.Nodup.concat hfresh (h.distinct current hlast)
        rw [List.concat_eq_append] at hconcat
        exact hconcat
  · intro revision hm q hq
    rw [hsame]
    cases hmem revision hm with
    | inl hm =>
        obtain ⟨hne, happroved⟩ := h.approved revision hm q hq
        exact ⟨hne, happroved.concat⟩
    | inr heq =>
        rw [heq] at hq ⊢
        rw [List.mem_append, List.mem_singleton] at hq
        cases hq with
        | inl hq =>
            obtain ⟨hne, happroved⟩ := h.approved current hlast q hq
            exact ⟨hne, happroved.concat⟩
        | inr hq =>
            rw [hq]
            exact ⟨hauthor, happroved⟩

/-- One command keeps the invariant. -/
theorem Sound.after (h : Sound start log r) (hrun : r = start.run log) :
    Sound start (log ++ [attempt]) (r.after attempt) := by
  unfold Review.after
  split
  · rename_i applied hok
    have happly := hok
    cases of_apply hok with
    | inl hreplay =>
        obtain ⟨rfl, _⟩ := hreplay
        exact h.keep rfl rfl (Or.inl rfl)
    | inr hnew =>
        obtain ⟨_, hcheck, next, hact, rfl⟩ := hnew
        obtain ⟨action, haction⟩ : ∃ action, attempt.1.action = action := ⟨_, rfl⟩
        rw [haction] at hact
        cases of_act hact with
        | «open» hauthor => exact h.push rfl (Or.inr hauthor) (by simp [stamp])
        | revise _ _ hauthor _ => exact h.push rfl (Or.inl rfl) (by simp [stamp, hauthor])
        | approve hopen hcurrent hauthor hindex hrevision hfresh =>
            rename_i index revision current
            have happroved : Approved start (log ++ [attempt]) current attempt.1.actor := by
              refine Trail.Occurs.now ?_
              show Approves current attempt.1.actor (start.run log) attempt
              rw [← hrun]
              exact ⟨rfl, by rw [haction, hindex, hrevision], has_of_check hcheck haction, ⟨_, happly⟩,
                current, hcurrent, rfl, rfl⟩
            exact h.approve hcurrent hauthor hfresh happroved rfl (author_approveLast _)
        | comment => exact h.keep rfl rfl (Or.inl rfl)
        | publish _ hcurrent => exact h.keep rfl rfl (Or.inr (h.author_of_current hcurrent))
        | close _ hcurrent => exact h.keep rfl rfl (Or.inr (h.author_of_current hcurrent))
  · exact h.keep rfl rfl (Or.inl rfl)

theorem Sound.run (h : Sound start [] start) (log : List (Command Id × AppliedPermissions)) :
    Sound start log (start.run log) :=
  Trail.invariant h (fun _ _ ih => ih.after rfl) log

theorem sound_new (repository : RepositoryId) (request : RequestId) :
    Sound (Review.new repository request : Review Id) [] (Review.new repository request) :=
  ⟨fun _ _ h => (by cases h), fun _ => rfl, fun h => absurd rfl h, fun _ h => (by cases h),
    fun _ h => (by cases h)⟩

/-! ### Ends and epochs -/

/-- The epoch does not decrease. -/
theorem epoch_le_after : r.epoch ≤ (r.after attempt).epoch := by
  unfold Review.after
  split
  · rename_i applied hok
    cases of_apply hok with
    | inl h =>
        obtain ⟨rfl, _⟩ := h
        exact le_refl _
    | inr h =>
        obtain ⟨_, hcheck, next, _, rfl⟩ := h
        exact epoch_of_check hcheck
  · exact le_refl _

theorem epoch_le_run (log : List (Command Id × AppliedPermissions)) : r.epoch ≤ (r.run log).epoch := by
  induction log using List.reverseRecOn with
  | nil => exact le_refl _
  | append_singleton log attempt ih =>
      rw [run_concat]
      exact ih.trans epoch_le_after

/-- No command but a retry is accepted by a request that has been opened and is not open any more. -/
theorem replayed_of_ended {applied : Applied Id} {command : Command Id} {permissions : AppliedPermissions}
    (hauthor : r.author ≠ none) (hended : r.state ≠ .open)
    (hok : r.apply command permissions = .ok applied) : applied = ⟨r, true⟩ := by
  cases of_apply hok with
  | inl h => exact h.1
  | inr h =>
      obtain ⟨_, _, next, hact, _⟩ := h
      obtain ⟨action, haction⟩ : ∃ action, command.action = action := ⟨_, rfl⟩
      rw [haction] at hact
      cases of_act hact with
      | «open» hnone => exact absurd hnone hauthor
      | revise hopen => exact absurd hopen hended
      | approve hopen => exact absurd hopen hended
      | comment hopen => exact absurd hopen hended
      | publish hopen => exact absurd hopen hended
      | close hopen => exact absurd hopen hended

theorem after_of_ended (hauthor : r.author ≠ none) (hended : r.state ≠ .open) : r.after attempt = r := by
  unfold Review.after
  split
  · rename_i applied hok
    rw [replayed_of_ended hauthor hended hok]
  · rfl

/-- A request that is published or closed stays as it is. -/
theorem run_of_ended (hauthor : r.author ≠ none) (hended : r.state ≠ .open)
    (log : List (Command Id × AppliedPermissions)) : r.run log = r := by
  induction log using List.reverseRecOn with
  | nil => rfl
  | append_singleton log attempt ih =>
      rw [run_concat, ih]
      exact after_of_ended hauthor hended

end steps

/-! ### Publishing -/

/-- What a command that publishes a request must be, after a run. -/
structure Publishes (start : Review Id) (log : List (Command Id × AppliedPermissions)) (command : Command Id)
    (permissions : AppliedPermissions) (current : Revision Id) : Prop where
  last : (start.run log).current = some current
  named : command.action = .publish current.index current.revision
  maintains : permissions.has command.actor .maintain = true
  approvers : ∃ approvers : List PrincipalId, approvers.Nodup ∧
    permissions.requiredApprovals ≤ approvers.length ∧ ∀ p ∈ approvers, (start.run log).author ≠ some p ∧
      permissions.has p .review = true ∧ Approved start log current p

/-- Every run of a request: what publishes it is fully approved, the author approves nothing, revisions are
numbered from one, the epoch does not decrease, and an end is an end. -/
theorem publish_safe (repository : RepositoryId) (request : RequestId)
    (log : List (Command Id × AppliedPermissions)) :
    (∀ command permissions applied,
      ((Review.new repository request).run log).apply command permissions = .ok applied →
      ((Review.new repository request).run log).state ≠ .published → applied.review.state = .published →
      ∃ current, Publishes (Review.new repository request) log command permissions current) ∧
    (∀ revision ∈ ((Review.new repository request : Review Id).run log).revisions,
      ∀ p ∈ revision.approvals, ((Review.new repository request : Review Id).run log).author ≠ some p) ∧
    (∀ i revision, ((Review.new repository request : Review Id).run log).revisions[i]? = some revision →
      revision.index = i + 1) ∧
    ∀ log', ((Review.new repository request : Review Id).run log).epoch ≤
        ((Review.new repository request).run (log ++ log')).epoch ∧
      (((Review.new repository request : Review Id).run log).state ≠ .open →
        (Review.new repository request).run (log ++ log') = (Review.new repository request : Review Id).run log) := by
  have hsound := (sound_new repository request : Sound (Review.new repository request : Review Id) _ _).run log
  refine ⟨?_, fun revision hm p hp => (hsound.approved revision hm p hp).1, hsound.numbered, fun log' => ?_⟩
  · intro command permissions applied hok hbefore hafter
    cases of_apply hok with
    | inl h =>
        obtain ⟨rfl, _⟩ := h
        exact absurd hafter hbefore
    | inr h =>
        obtain ⟨_, hcheck, next, hact, rfl⟩ := h
        have hafter : next.state = .published := hafter
        obtain ⟨action, haction⟩ : ∃ action, command.action = action := ⟨_, rfl⟩
        rw [haction] at hact
        cases of_act hact with
        | «open» => exact absurd hafter hbefore
        | revise => exact absurd hafter hbefore
        | approve =>
            rw [state_approveLast] at hafter
            exact absurd hafter hbefore
        | comment => exact absurd hafter hbefore
        | close => cases hafter
        | publish =>
            obtain ⟨_, hpublishable⟩ := publishable_of_check hcheck haction
            obtain ⟨hmaintain, current, _, hlast, hindex, hrevision, hcount⟩ := of_checkPublishable hpublishable
            have hmem : current ∈ ((Review.new repository request).run log).revisions := by
              rw [revisions_of_current hlast]
              simp
            refine ⟨current, hlast, by rw [haction, hindex, hrevision], hmaintain, _,
              (hsound.distinct current hmem).filter _, hcount, fun p hp => ?_⟩
            obtain ⟨hp, hcounted⟩ := List.mem_filter.mp hp
            simp only [ne_eq, Bool.and_eq_true, decide_eq_true_eq] at hcounted
            exact ⟨hcounted.1, hcounted.2, (hsound.approved current hmem p hp).2⟩
  · rw [run_append]
    exact ⟨epoch_le_run log', fun hended => run_of_ended (hsound.begun hended) hended log'⟩

/-! ### A published request -/

/-- A principal named by one letter. -/
def letter (b : UInt8) (h : opaqueByte b = true) : PrincipalId :=
  ⟨[b], by simp, by simp, by simpa using h⟩

/-- The maintainer `c` of a public repository, with the reviewer `b`, needs one approval. -/
def reviewed : AppliedPermissions where
  repository := ⟨[114], opaqueId_r⟩
  epoch := 1
  visibility := .«public»
  roles := SortedMap.ofList [(letter 98 rfl, .review), (letter 99 rfl, .maintain)]
  requiredApprovals := 1
  small := by decide

/-- `a` opens a request and `b` approves it. -/
def approvedLog : List (Command ℕ × AppliedPermissions) :=
  [(⟨⟨[49]⟩, letter 97 rfl, .open ⟨0, 5, 6, none⟩⟩, reviewed),
    (⟨⟨[50]⟩, letter 98 rfl, .approve 1 ⟨0, 5, 6, none⟩⟩, reviewed)]

/-- `c` publishes it. -/
def publishing : Command ℕ := ⟨⟨[51]⟩, letter 99 rfl, .publish 1 ⟨0, 5, 6, none⟩⟩

theorem publish_safe_reviewed : ∃ applied current,
    ((Review.new ⟨[114], by decide⟩ ⟨[113], by decide⟩).run approvedLog).apply publishing reviewed =
      .ok applied ∧ applied.review.state = .published ∧
    Publishes (Review.new ⟨[114], by decide⟩ ⟨[113], by decide⟩) approvedLog publishing reviewed current := by
  have hbefore : ((Review.new ⟨[114], by decide⟩ ⟨[113], by decide⟩).run approvedLog).state = .open := by
    decide +kernel
  obtain ⟨applied, hok, hafter⟩ : ∃ applied,
      ((Review.new ⟨[114], by decide⟩ ⟨[113], by decide⟩).run approvedLog).apply publishing reviewed =
        .ok applied ∧ applied.review.state = .published := ⟨_, rfl, rfl⟩
  obtain ⟨current, hpublishes⟩ := (publish_safe ⟨[114], by decide⟩ ⟨[113], by decide⟩ approvedLog).1
    publishing reviewed applied hok (by rw [hbefore]; decide) hafter
  exact ⟨applied, current, hok, hafter, hpublishes⟩

end Javelin.Collaboration
