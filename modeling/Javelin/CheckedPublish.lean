import Javelin.PublishAnswers
import Javelin.Restores

/-! # Every publish is checked

`Checks.Passed` says, by sequence numbers, that the latest result for a tree and a required check is a success.
A node only ever writes a version through a publish message after that (`Write.made`, `Writes.made`):
`no_unchecked_publish`. -/

namespace Javelin

open KeyedList Collaboration Identity Protocol Codec Repository

variable {Id : Type} [LinearOrder Id]

namespace Checks

/-- The result is for the tree and the check. -/
def For (tree : Id) (check : RequiredCheck) (result : CheckResult Id) : Prop :=
  result.subject = tree ∧ result.name = check.name ∧
    ∀ reporter, check.reporter = some reporter → result.reporter = reporter

/-- The result of the highest sequence number for a tree and a check. -/
structure Latest (results : List (CheckResult Id)) (tree : Id) (check : RequiredCheck) (i : ℕ)
    (result : CheckResult Id) : Prop where
  stored : results[i]? = some result
  concerned : For tree check result
  last : ∀ (j : ℕ) result', results[j]? = some result' → For tree check result' → j ≤ i

/-- The latest result for a tree and a check is a success, of a reporter with a role if there are permissions. -/
def Passed (results : List (CheckResult Id)) (tree : Id) (permissions : Option AppliedPermissions)
    (check : RequiredCheck) : Prop :=
  ∃ i result, Latest results tree check i result ∧ result.conclusion = .success ∧
    ∀ p, permissions = some p → ∃ principal role, PrincipalId.parse result.reporter = some principal ∧
      p.role principal = some role

theorem concerns_iff {tree : Id} {check : RequiredCheck} {result : CheckResult Id} :
    concerns tree check result = true ↔ For tree check result := by
  unfold concerns For
  cases check.reporter <;> simp [and_assoc]

/-- The last element of a list that meets a condition. -/
theorem exists_last_of_filter {α : Type} {p : α → Bool} {l : List α} {a : α}
    (h : (l.filter p).getLast? = some a) :
    ∃ i : ℕ, l[i]? = some a ∧ p a = true ∧ ∀ (j : ℕ) b, l[j]? = some b → p b = true → j ≤ i := by
  induction l using List.reverseRecOn with
  | nil => cases h
  | append_singleton l x ih =>
      rw [List.filter_append] at h
      by_cases hx : p x = true
      · rw [List.filter_singleton, hx] at h
        simp only [cond_true, List.getLast?_append, List.getLast?_singleton, Option.some_or] at h
        obtain rfl := Option.some.inj h
        refine ⟨l.length, by simp, hx, fun j b hj _ => ?_⟩
        have hlt := (List.getElem?_eq_some_iff.mp hj).1
        rw [List.length_append, List.length_singleton] at hlt
        omega
      · rw [List.filter_singleton, Bool.eq_false_iff.mpr hx] at h
        simp only [cond_false, List.append_nil] at h
        obtain ⟨i, hi, hpa, hlast⟩ := ih h
        have hlt := (List.getElem?_eq_some_iff.mp hi).1
        refine ⟨i, by rw [List.getElem?_append_left hlt, hi], hpa, fun j b hj hpb => ?_⟩
        by_cases hjl : j < l.length
        · rw [List.getElem?_append_left hjl] at hj
          exact hlast j b hj hpb
        · rw [List.getElem?_append_right (not_lt.mp hjl), List.getElem?_singleton] at hj
          split at hj
          · obtain rfl := Option.some.inj hj
            exact absurd hpb hx
          · cases hj

theorem latest_spec {results : List (CheckResult Id)} {tree : Id} {check : RequiredCheck}
    {result : CheckResult Id} (h : latest results tree check = some result) :
    ∃ i, Latest results tree check i result := by
  obtain ⟨i, hi, hp, hlast⟩ := exists_last_of_filter h
  exact ⟨i, hi, concerns_iff.mp hp, fun j result' hj hfor => hlast j result' hj (concerns_iff.mpr hfor)⟩

theorem passed_of_unmet {n : FileWorldLog Id} {required : List RequiredCheck} {tree : Id}
    {permissions : Option AppliedPermissions} (h : unmet n required tree permissions = none) :
    ∀ check ∈ required, Passed n.results tree permissions check := by
  intro check hm
  have hcheck := List.findSome?_eq_none_iff.mp h check hm
  unfold unmetCheck at hcheck
  split at hcheck
  · cases hcheck
  rename_i result hlatest
  split at hcheck
  · cases hcheck
  rename_i hrole
  split at hcheck
  · cases hcheck
  rename_i hsuccess
  rw [not_not] at hsuccess
  obtain ⟨i, hlatest⟩ := latest_spec hlatest
  refine ⟨i, result, hlatest, hsuccess, fun p hp => ?_⟩
  rw [hp, Option.any_some, Bool.not_eq_true, Bool.not_eq_false'] at hrole
  unfold holdsRole at hrole
  obtain ⟨role, hrole⟩ := Option.isSome_iff_exists.mp hrole
  obtain ⟨principal, hprincipal, hrole⟩ := Option.bind_eq_some_iff.mp hrole
  exact ⟨principal, role, hprincipal, hrole⟩

end Checks

namespace FileWorldLog

open Reviewing Checks

variable [Encoding Id]

/-- Every required check has passed for the tree of a checkpoint. -/
def Checked (n : FileWorldLog Id) (r : Repository Id) (checkpoint : Id)
    (permissions : Option AppliedPermissions) : Prop :=
  ∀ check ∈ n.policy, ∃ tree, TreeOf r checkpoint tree ∧ Passed n.results tree permissions check

theorem Checked.later {n : FileWorldLog Id} {r r' : Repository Id} {checkpoint : Id}
    {permissions : Option AppliedPermissions} (h : Checked n r checkpoint permissions) (hl : Later r r')
    (hr : r.Hosted) (hr' : r'.Hosted) : Checked n r' checkpoint permissions := by
  obtain ⟨S, hs⟩ := hr.sound
  obtain ⟨S', hs'⟩ := hr'.sound
  intro check hm
  obtain ⟨tree, htree, hpassed⟩ := h check hm
  exact ⟨tree, htree.later hl hs hs', hpassed⟩

theorem Gated.checked {n : FileWorldLog Id} {checkpoint : Id} (h : Gated n checkpoint) :
    Checked n n.repo checkpoint none := by
  intro check hm
  obtain hnone | ⟨tree, htree, hunmet⟩ := h
  · rw [hnone] at hm
    cases hm
  · exact ⟨tree, htree, passed_of_unmet hunmet check hm⟩

/-- Only the repository is another one. -/
theorem Since.tables {n₀ n : FileWorldLog Id} (h : Since n₀ n) : n.policy = n₀.policy ∧ n.results = n₀.results := by
  obtain ⟨r, _, rfl⟩ := h
  exact ⟨rfl, rfl⟩

theorem Checked.since {n₀ n : FileWorldLog Id} {r : Repository Id} {checkpoint : Id}
    {permissions : Option AppliedPermissions} (h : Checked n r checkpoint permissions) (hsince : Since n₀ n) :
    Checked n₀ r checkpoint permissions := by
  obtain ⟨hpolicy, hresults⟩ := hsince.tables
  unfold Checked at h ⊢
  rw [hpolicy, hresults] at h
  exact h

/-- The revisions of accepted commands have the trees of their checkpoints. -/
def Treed (n : FileWorldLog Id) : Prop :=
  ∀ row ∈ n.rows, ∀ revision, row.command.action.Brings revision →
    TreeOf n.repo revision.checkpoint revision.tree

variable [IdBytes Id] {P : FileWorldLog Id → Input Id → Prop} {n n' : FileWorldLog Id}

/-- What made a version: an input, and the checks of that moment. -/
inductive Made (P : FileWorldLog Id → Input Id → Prop) (r : Repository Id) (version : WorldVersion Id) : Prop
  | publishLayer {n₀ request receipt} : P n₀ (.publishLayer request) →
      r.publication request.operation = .ok (some receipt) → receipt.outcome = .published version →
      Checked n₀ r receipt.expected.checkpoint none → Made P r version
  | publishRequest {n₀ caller op id index base permissions receipt} :
      P n₀ (.review caller (.publishRequest op id index base)) → caller.gate.permissions = some permissions →
      r.publication op = .ok (some receipt) → receipt.outcome = .published version →
      Checked n₀ r receipt.expected.checkpoint (some permissions) → Made P r version
  | advance {n₀ op expected tree} : P n₀ (.advance op expected tree) → Made P r version

omit [IdBytes Id] in
theorem Made.later {r r' : Repository Id} {version : WorldVersion Id} (h : Made P r version) (hl : Later r r')
    (hr : r.Hosted) (hr' : r'.Hosted) : Made P r' version := by
  obtain ⟨S, hs⟩ := hr.sound
  obtain ⟨S', hs'⟩ := hr'.sound
  cases h with
  | publishLayer hinput hreceipt houtcome hchecked =>
      exact .publishLayer hinput (hl.publication hs.chain hs'.chain hreceipt) houtcome (hchecked.later hl hr hr')
  | publishRequest hinput hpermissions hreceipt houtcome hchecked =>
      exact .publishRequest hinput hpermissions (hl.publication hs.chain hs'.chain hreceipt) houtcome
        (hchecked.later hl hr hr')
  | advance hinput => exact .advance hinput

theorem Write.treed (h : Write P n n') (hn : n.repo.Hosted) (htreed : Treed n) : Treed n' := by
  have hl := h.later hn
  have hn' := h.hosted hn
  obtain ⟨S, hs⟩ := hn.sound
  obtain ⟨S', hs'⟩ := hn'.sound
  have hold : ∀ row ∈ n.rows, ∀ revision, row.command.action.Brings revision →
      TreeOf n'.repo revision.checkpoint revision.tree :=
    fun row hm revision hbrings => (htreed row hm revision hbrings).later hl hs hs'
  have hnew : ∀ row, n'.rows = n.rows ++ [row] → (∀ revision, row.command.action.Brings revision →
      TreeOf n'.repo revision.checkpoint revision.tree) → Treed n' := by
    intro row hrows hrow row' hm
    rw [hrows] at hm
    cases List.mem_append.mp hm with
    | inl hm => exact hold row' hm
    | inr hm => exact List.mem_singleton.mp hm ▸ hrow
  cases h with
  | quiet | advance | changes | policy | traces | result | publishLayer | decided | publishRequest => exact hold
  | published =>
      refine hnew _ rfl (fun revision hbrings => ?_)
      obtain hopen | ⟨expected, hrevise⟩ := hbrings
      · cases hopen
      · cases hrevise
  | opened _ _ _ hreviewed _ => exact hnew _ rfl hreviewed.tree
  | reviewed _ _ _ _ _ hreviewed _ => exact hnew _ rfl hreviewed.tree

/-- One write adds no version but one that was made by an input and checked. -/
theorem Write.made (h : Write P n n') (hn : n.repo.Hosted) (htreed : Treed n) {version : WorldVersion Id}
    (hm : version ∈ n'.repo.versions) : version ∈ n.repo.versions ∨ Made P n'.repo version := by
  cases h with
  | changes | policy | traces | result | decided | published | opened | reviewed => exact .inl hm
  | quiet hq => exact .inl (hq.versions ▸ hm)
  | advance hinput _ => exact .inr (.advance hinput)
  | @publishLayer n₀ _ request head receipt r hinput hready hp =>
      obtain ⟨hop, hexpected, _⟩ := hp.named hn
      obtain ⟨made, houtcome, hversions, _⟩ | ⟨_, hsame⟩ := hp.versions hn
      · have hm : version ∈ n.repo.versions ++ [made] := hversions ▸ hm
        cases List.mem_append.mp hm with
        | inl hold => exact .inl hold
        | inr hlast =>
            obtain rfl := List.mem_singleton.mp hlast
            have hchecked := (hready.gated.checked.since hready.since).later (hp.later hn) hn (hn.publishes hp)
            refine .inr (.publishLayer hinput (hp.publication hn) houtcome ?_)
            rw [hexpected]
            exact hchecked
      · have hm : version ∈ r.versions := hm
        exact .inl (hsame ▸ hm)
  | @publishRequest n₀ _ caller op id index base actor permissions revision review head receipt r hinput hsince
      hpermissions happroved hunmet hlayer hcheckpoint hp =>
      obtain ⟨hop, hexpected, _⟩ := hp.named hn
      obtain ⟨made, houtcome, hversions, _⟩ | ⟨_, hsame⟩ := hp.versions hn
      · have hm : version ∈ n.repo.versions ++ [made] := hversions ▸ hm
        cases List.mem_append.mp hm with
        | inl hold => exact .inl hold
        | inr hlast =>
            obtain rfl := List.mem_singleton.mp hlast
            have htree : TreeOf n.repo revision.checkpoint revision.tree := by
              obtain ⟨row, hrow, hbrings⟩ := happroved.exists_row
              exact htreed row hrow revision hbrings
            have hchecked : Checked n n.repo revision.checkpoint (some permissions) :=
              fun check hm => ⟨revision.tree, htree, passed_of_unmet hunmet check hm⟩
            have hchecked := (hchecked.since hsince).later (hp.later hn) hn (hn.publishes hp)
            refine .inr (.publishRequest hinput hpermissions (hp.publication hn) houtcome ?_)
            rw [hexpected, hcheckpoint]
            exact hchecked
      · have hm : version ∈ r.versions := hm
        exact .inl (hsame ▸ hm)

theorem Reachable.treed (h : Reachable P n) : Treed n :=
  h.invariant (fun _ row hm => by cases hm) (fun _ _ hn htreed hwrite => hwrite.treed hn htreed)

/-- Whatever an input leaves, its new versions were made by it and checked. -/
theorem Writes.made (h : Writes P n n') (hn : n.repo.Hosted) (htreed : Treed n) {version : WorldVersion Id}
    (hm : version ∈ n'.repo.versions) : version ∈ n.repo.versions ∨ Made P n'.repo version := by
  induction h with
  | refl => exact .inl hm
  | @tail m n' hwrites hwrite ih =>
      have hm' := Writes.hosted hwrites hn
      have htreed' : Treed m := Writes.invariant hwrites hn htreed (fun _ _ hn ht hw => hw.treed hn ht)
      cases hwrite.made hm' htreed' hm with
      | inr hmade => exact .inr hmade
      | inl hold => exact (ih hold).imp_right (fun hmade => hmade.later (hwrite.later hm') hm' (hwrite.hosted hm'))

/-- Every result has an operation of its own. -/
theorem Reachable.results_nodup (h : Reachable P n) : (n.results.map CheckResult.operation).Nodup := by
  refine h.invariant (I := fun n => (n.results.map CheckResult.operation).Nodup) (fun _ => List.nodup_nil) ?_
  intro n n' _ hnodup hwrite
  cases hwrite with
  | quiet | advance | changes | policy | traces | publishLayer | decided | publishRequest | published | opened |
    reviewed => exact hnodup
  | @result n result hnew =>
      show ((n.results ++ [result]).map CheckResult.operation).Nodup
      rw [List.map_append, List.nodup_append]
      refine ⟨hnodup, by simp, ?_⟩
      intro op hop op' hop'
      obtain ⟨stored, hstored, rfl⟩ := List.mem_map.mp hop
      obtain rfl := List.mem_singleton.mp hop'
      exact hnew stored hstored

/-- In every state that any inputs lead to, however handling them was stopped: a version that a `PublishLayer`
or a `PublishRequest` makes is that of the operation's receipt, and each check that the policy then requires had
passed for the tree of the published checkpoint, for `PublishRequest` from a reporter with a role.  No operation
has two results. -/
theorem no_unchecked_publish (h : Reachable anyInput n) :
    (∀ request n' version, (Input.run (.publishLayer request)).Leaves n n' → version ∈ n'.repo.versions →
      version ∉ n.repo.versions → ∃ receipt, n'.repo.publication request.operation = .ok (some receipt) ∧
        receipt.outcome = .published version ∧ Checked n n'.repo receipt.expected.checkpoint none) ∧
    (∀ caller op id index base n' version,
      (Input.run (.review caller (.publishRequest op id index base))).Leaves n n' → version ∈ n'.repo.versions →
      version ∉ n.repo.versions → ∃ receipt permissions, n'.repo.publication op = .ok (some receipt) ∧
        receipt.outcome = .published version ∧ caller.gate.permissions = some permissions ∧
        Checked n n'.repo receipt.expected.checkpoint (some permissions)) ∧
    (n.results.map CheckResult.operation).Nodup := by
  have hmade : ∀ {input n' version}, (Input.run input).Leaves n n' → version ∈ n'.repo.versions →
      version ∉ n.repo.versions → Made (fun m i => m = n ∧ i = input) n'.repo version := by
    intro input n' version hleaves hm hnew
    exact ((writes_of_leaves hleaves h.hosted ⟨rfl, rfl⟩).made h.hosted h.treed hm).resolve_left hnew
  refine ⟨?_, ?_, h.results_nodup⟩
  · intro request n' version hleaves hm hnew
    cases hmade hleaves hm hnew with
    | publishLayer hinput hreceipt houtcome hchecked =>
        obtain ⟨rfl, hinput⟩ := hinput
        obtain rfl := Input.publishLayer.inj hinput
        exact ⟨_, hreceipt, houtcome, hchecked⟩
    | publishRequest hinput => cases hinput.2
    | advance hinput => cases hinput.2
  · intro caller op id index base n' version hleaves hm hnew
    cases hmade hleaves hm hnew with
    | publishLayer hinput => cases hinput.2
    | publishRequest hinput hpermissions hreceipt houtcome hchecked =>
        obtain ⟨rfl, hinput⟩ := hinput
        obtain ⟨rfl, hmessage⟩ := Input.review.inj hinput
        obtain ⟨rfl, rfl, rfl, rfl⟩ := ReviewMessage.publishRequest.inj hmessage
        exact ⟨_, _, hreceipt, houtcome, hpermissions, hchecked⟩
    | advance hinput => cases hinput.2

/-- A node whose operation `1` publishes a Layer `a`. -/
theorem no_unchecked_publish_layer : ∃ (n n' : FileWorldLog ℕ) (version : WorldVersion ℕ)
    (receipt : PublicationReceipt ℕ), version ∈ n'.repo.versions ∧ version ∉ n.repo.versions ∧
      n'.repo.publication ⟨[49]⟩ = .ok (some receipt) ∧ receipt.outcome = .published version ∧
      Checked n n'.repo receipt.expected.checkpoint none := by
  obtain ⟨n, head, hreach, hn, hstate, hlayer, hbase, version, r, hp⟩ :=
    exists_ready (P := anyInput) 0 ⟨[97]⟩ ⟨[49]⟩ (fun _ => trivial)
  have hpolicy : n.policy = [] := by
    rw [hn]
    rfl
  have hundecided : n.decided.get? ⟨[49]⟩ = none := by
    rw [hn]
    rfl
  have hpublished : n.repo.Hosted := hreach.hosted
  have hreview : isReviewLayer ⟨[97]⟩ = false := by decide
  have hanswers := answers_publishLayer ⟨⟨[49]⟩, ⟨[97]⟩, head.checkpoint, 0, .human⟩ rfl hreview hundecided hstate
    rfl hbase hpolicy hp rfl
  obtain ⟨made, houtcome, hversions, hop, _⟩ | ⟨hnone, _⟩ := hp.versions hpublished
  · obtain rfl := PublishOutcome.published.inj houtcome
    have hnew : version ∉ n.repo.versions := by
      intro hm
      obtain ⟨S, hs⟩ := hpublished.sound
      obtain ⟨S', hs'⟩ := (hpublished.publishes hp).sound
      obtain ⟨i, hi⟩ := List.mem_iff_getElem?.mp hm
      have hlt := (List.getElem?_eq_some_iff.mp hi).1
      have hold : r.versions[i]? = some version := by rw [hversions, List.getElem?_append_left hlt, hi]
      have hlast : r.versions[n.repo.versions.length]? = some version := by rw [hversions]; simp
      have hsame := System.version_of_operation hs'.chain hold hlast hop hop
      omega
    obtain ⟨receipt, hreceipt, hreceived, hchecked⟩ := (no_unchecked_publish hreach).1 _ _ version
      (answers_dropped hanswers) (by show version ∈ r.versions; rw [hversions]; simp) hnew
    refine ⟨n, _, version, receipt, ?_, hnew, hreceipt, hreceived, hchecked⟩
    show version ∈ r.versions
    rw [hversions]
    simp
  · exact absurd rfl (hnone version)

end FileWorldLog

end Javelin
