import Javelin.ReviewRuns

/-! # Replays of a request

`Review.recorded` is what a run leaves in the store: each new command that was accepted, with the epoch it was
accepted under.  Replaying the records, which sees no grants, gives the state of the run (`replay_recorded`,
`replay_exact`). -/

namespace Javelin.Collaboration

variable {Id : Type} [DecidableEq Id]

namespace Review

/-- The record of one command, if it is new and accepted. -/
def record (r : Review Id) (attempt : Command Id × AppliedPermissions) : Option (Command Id × ℕ) :=
  match r.apply attempt.1 attempt.2 with
  | .ok applied => if applied.replayed = true then none else some (attempt.1, attempt.2.epoch)
  | .error _ => none

/-- The records of a run. -/
def recorded (r : Review Id) : List (Command Id × AppliedPermissions) → List (Command Id × ℕ)
  | [] => []
  | attempt :: log => (r.record attempt).toList ++ recorded (r.after attempt) log

/-- Replays records one after another. -/
def restored (r : Review Id) (records : List (Command Id × ℕ)) : Except Failure (Review Id) :=
  records.foldlM (fun r record => r.replay record.1 record.2) r

variable {r : Review Id} {attempt : Command Id × AppliedPermissions}

/-! ### One command -/

omit [DecidableEq Id] in
/-- An action leaves the names and the history. -/
theorem Acted.keeps {actor : PrincipalId} {action : Action Id} {next : Review Id} (h : Acted r actor action next) :
    next.history = r.history ∧ next.repository = r.repository ∧ next.request = r.request := by
  cases h with
  | approve =>
      unfold approveLast
      split <;> exact ⟨rfl, rfl, rfl⟩
  | «open» => exact ⟨rfl, rfl, rfl⟩
  | revise => exact ⟨rfl, rfl, rfl⟩
  | comment => exact ⟨rfl, rfl, rfl⟩
  | publish => exact ⟨rfl, rfl, rfl⟩
  | close => exact ⟨rfl, rfl, rfl⟩

/-- A command changes nothing, or it is new and recorded, and the record replays what it did. -/
theorem of_after (attempt : Command Id × AppliedPermissions) :
    (r.record attempt = none ∧ r.after attempt = r) ∨
      (r.record attempt = some (attempt.1, attempt.2.epoch) ∧
        r.replay attempt.1 attempt.2.epoch = .ok (r.after attempt) ∧
        (∀ c ∈ r.history, c.operation ≠ attempt.1.operation) ∧
        (r.after attempt).history = r.history ++ [attempt.1]) := by
  unfold record Review.after
  cases hok : r.apply attempt.1 attempt.2 with
  | error failure => exact .inl ⟨rfl, rfl⟩
  | ok applied =>
      cases of_apply hok with
      | inl h =>
          obtain ⟨rfl, _⟩ := h
          exact .inl ⟨rfl, rfl⟩
      | inr h =>
          obtain ⟨hnew, _, next, hact, rfl⟩ := h
          have hhistory := (of_act hact).keeps.1
          refine .inr ⟨rfl, ?_, hnew, ?_⟩
          · unfold replay transition
            rw [hact]
            rfl
          · show next.history ++ [attempt.1] = _
            rw [hhistory]

theorem repository_after (attempt : Command Id × AppliedPermissions) :
    (r.after attempt).repository = r.repository := by
  unfold Review.after
  cases hok : r.apply attempt.1 attempt.2 with
  | error failure => rfl
  | ok applied =>
      cases of_apply hok with
      | inl h =>
          obtain ⟨rfl, _⟩ := h
          rfl
      | inr h =>
          obtain ⟨_, _, next, hact, rfl⟩ := h
          exact (of_act hact).keeps.2.1

/-! ### Runs -/

theorem repository_run (log : List (Command Id × AppliedPermissions)) :
    (r.run log).repository = r.repository := by
  induction log generalizing r with
  | nil => rfl
  | cons attempt log ih => exact ih.trans (repository_after attempt)

theorem recorded_append (log log' : List (Command Id × AppliedPermissions)) :
    r.recorded (log ++ log') = r.recorded log ++ (r.run log).recorded log' := by
  induction log generalizing r with
  | nil => rfl
  | cons attempt log ih =>
      show (r.record attempt).toList ++ (r.after attempt).recorded (log ++ log') =
        (r.record attempt).toList ++ (r.after attempt).recorded log ++ ((r.after attempt).run log).recorded log'
      rw [ih, List.append_assoc]

/-- Replaying the records of a run gives its state. -/
theorem replay_recorded (log : List (Command Id × AppliedPermissions)) :
    r.restored (r.recorded log) = .ok (r.run log) := by
  induction log generalizing r with
  | nil => rfl
  | cons attempt log ih =>
      show r.restored ((r.record attempt).toList ++ (r.after attempt).recorded log) =
        .ok ((r.after attempt).run log)
      obtain ⟨hnone, hsame⟩ | ⟨hsome, hreplay, _⟩ := of_after (r := r) attempt
      · rw [hnone, hsame]
        exact ih
      · rw [hsome]
        show (r.replay attempt.1 attempt.2.epoch >>= fun r => r.restored _) = _
        rw [hreplay]
        exact ih

/-- The history is what was recorded. -/
theorem history_run (log : List (Command Id × AppliedPermissions)) :
    (r.run log).history = r.history ++ (r.recorded log).map Prod.fst := by
  induction log generalizing r with
  | nil => simp [run, recorded]
  | cons attempt log ih =>
      show ((r.after attempt).run log).history =
        r.history ++ ((r.record attempt).toList ++ (r.after attempt).recorded log).map Prod.fst
      rw [ih]
      obtain ⟨hnone, hsame⟩ | ⟨hsome, _, _, hhistory⟩ := of_after (r := r) attempt
      · rw [hnone, hsame]
        rfl
      · rw [hsome, hhistory]
        simp

/-- The commands of a history have distinct operations. -/
def Distinct (r : Review Id) : Prop := (r.history.map Command.operation).Nodup

theorem Distinct.after (h : r.Distinct) : (r.after attempt).Distinct := by
  obtain ⟨_, hsame⟩ | ⟨_, _, hnew, hhistory⟩ := of_after (r := r) attempt
  · rw [hsame]
    exact h
  · unfold Distinct at h ⊢
    rw [hhistory, List.map_append, List.nodup_append]
    refine ⟨h, by simp, ?_⟩
    intro op hop op' hop'
    obtain ⟨c, hc, rfl⟩ := List.mem_map.mp hop
    obtain rfl := List.mem_singleton.mp hop'
    exact hnew c hc

theorem Distinct.run (h : r.Distinct) (log : List (Command Id × AppliedPermissions)) : (r.run log).Distinct := by
  induction log generalizing r with
  | nil => exact h
  | cons attempt log ih => exact ih h.after

/-- A recorded operation is answered from the history. -/
theorem Distinct.apply (h : r.Distinct) {prior command : Command Id} (hprior : prior ∈ r.history)
    (hop : prior.operation = command.operation) (permissions : AppliedPermissions)  :
    r.apply command permissions =
      if permissions.repository ≠ r.repository then refuse .repositoryMismatch
      else if prior = command then .ok ⟨r, true⟩ else refuse (.operationIdReused command.operation) := by
  have hfind : r.history.find? (fun c => decide (c.operation = command.operation)) = some prior := by
    cases hfound : r.history.find? (fun c => decide (c.operation = command.operation)) with
    | none => simpa [hop] using List.find?_eq_none.mp hfound prior hprior
    | some found =>
        have hsame : found.operation = command.operation := by simpa using List.find?_some hfound
        have hmem := List.mem_of_find?_eq_some hfound
        rw [List.inj_on_of_nodup_map h hmem hprior (hsame.trans hop.symm)]
  unfold Review.apply
  rw [hfind]

end Review

/-- After every prefix of a run, replaying what was recorded so far gives the live state.  A recorded
operation again changes nothing, and with another content it is refused. -/
theorem replay_exact (repository : RepositoryId) (request : RequestId)
    (log : List (Command Id × AppliedPermissions)) :
    (∀ earlier later, log = earlier ++ later →
      (Review.new repository request).restored ((Review.new repository request).recorded earlier) =
        .ok ((Review.new repository request).run earlier) ∧
      ∃ rest, (Review.new repository request).recorded log = (Review.new repository request).recorded earlier ++ rest) ∧
    ((Review.new repository request).run log).history =
      ((Review.new repository request).recorded log).map Prod.fst ∧
    ∀ prior ∈ ((Review.new repository request).run log).history, ∀ command permissions,
      prior.operation = command.operation →
      ((Review.new repository request).run log).after (command, permissions) =
          (Review.new repository request).run log ∧
        (prior = command → permissions.repository = repository →
          ((Review.new repository request).run log).apply command permissions =
            .ok ⟨(Review.new repository request).run log, true⟩) ∧
        (prior ≠ command → ∃ refusal,
          ((Review.new repository request).run log).apply command permissions = .error (.refused refusal)) := by
  have hdistinct : ((Review.new repository request).run log : Review Id).Distinct :=
    Review.Distinct.run (r := Review.new repository request) List.nodup_nil log
  have hrepository : ((Review.new repository request).run log : Review Id).repository = repository :=
    Review.repository_run log
  refine ⟨?_, Review.history_run log, ?_⟩
  · intro earlier later hlog
    refine ⟨Review.replay_recorded earlier, ((Review.new repository request).run earlier).recorded later, ?_⟩
    rw [hlog]
    exact Review.recorded_append earlier later
  · intro prior hprior command permissions hop
    have happly := hdistinct.apply hprior hop permissions
    rw [hrepository] at happly
    refine ⟨?_, ?_, ?_⟩
    · show (match ((Review.new repository request).run log).apply command permissions with
        | .ok applied => applied.review
        | .error _ => (Review.new repository request).run log) = _
      rw [happly]
      by_cases hother : permissions.repository = repository
      · by_cases hsame : prior = command <;> simp [hother, hsame, refuse]
      · simp [hother, refuse]
    · intro hsame hother
      rw [happly, if_neg (not_not.mpr hother), if_pos hsame]
    · intro hne
      rw [happly, if_neg hne]
      by_cases hother : permissions.repository = repository
      · exact ⟨_, if_neg (not_not.mpr hother)⟩
      · exact ⟨_, if_pos hother⟩

end Javelin.Collaboration
