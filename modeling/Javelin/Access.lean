import Javelin.Tokens
import Javelin.Trails

/-! # Access decisions

What a node knows of one repository: the keys it trusts, the applied permissions and what is revoked.
`Access.apply` takes a permissions push and `Access.revoke` a revocation; `Access.authorize` decides one
request.

Deliveries in any order end in the same `Access` (`Access.deliveries_agree`). -/

namespace Javelin.Identity

open KeyedList Collaboration

/-- What one request needs: a scope, and the Layer it acts on. -/
structure Need where
  scope : Scope
  layer : Option Str
deriving DecidableEq

/-- Who a request runs as. -/
structure Grant where
  principal : Option Str
  role : Role
  checks : List Str
deriving DecidableEq

/-- A control-plane revocation. -/
inductive Revocation where
  | token (jti : Str)
  | device (device : Str)
deriving DecidableEq

/-- Scopes each role may exercise. -/
def roleAllows (role : Role) : Scope → Bool
  | .read | .layerWrite | .reviewWrite | .checkReport => true
  | .reviewApprove => decide (.review ≤ role)
  | .publish | .import => decide (.maintain ≤ role)
  | .repoCreate => false

/-- The node's view of one repository. -/
structure Access (Key : Type) where
  repository : RepositoryId
  keys : KeySet Key
  permissions : Option AppliedPermissions
  revokedTokens : SortedSet Str
  revokedDevices : SortedSet Str

namespace Access

/-- A refusal, with its protocol code. -/
inductive Refusal where
  | unauthorized (reason : String)
  | forbidden (reason : String)
  | stalePermissions (seen : ℕ)
deriving DecidableEq

def Refusal.code : Refusal → String
  | .unauthorized _ => "unauthorized"
  | .forbidden _ => "forbidden"
  | .stalePermissions _ => "stale_permissions"

/-- Why the request was refused, without the code. -/
def Refusal.detail : Refusal → String
  | .unauthorized reason => reason
  | .forbidden reason => reason
  | .stalePermissions seen => "epoch " ++ toString seen ++ " was already applied"

variable {Key : Type} (a : Access Key)

def new (repository : RepositoryId) (keys : KeySet Key) : Access Key :=
  ⟨repository, keys, none, SortedMap.empty, SortedMap.empty⟩

/-- The applied epoch. -/
def epoch : Option ℕ := a.permissions.map AppliedPermissions.epoch

/-- A newer epoch replaces the state; the applied epoch again must be identical. -/
def apply (next : AppliedPermissions) : Except Refusal (Access Key) :=
  if next.repository ≠ a.repository then .error (.forbidden "permissions are for another repository")
  else
    match a.permissions with
    | none => .ok { a with permissions := some next }
    | some current =>
        if next.epoch < current.epoch then .error (.stalePermissions current.epoch)
        else if next.epoch = current.epoch then
          if current = next then .ok a else .error (.stalePermissions current.epoch)
        else .ok { a with permissions := some next }

def revoke : Revocation → Access Key
  | .token jti => { a with revokedTokens := a.revokedTokens.add jti }
  | .device device => { a with revokedDevices := a.revokedDevices.add device }

/-- An anonymous caller may only read a public repository. -/
def anonymous (need : Need) : Except Refusal Grant :=
  match a.permissions with
  | some permissions =>
      if permissions.visibility = .public ∧ need.scope = .read then .ok ⟨none, .read, []⟩
      else .error (.unauthorized "a token is required")
  | none => .error (.unauthorized "a token is required")

/-- Decides one request.  No token is an anonymous caller. -/
def authorize (jws : Jws Key) (token : Option Str) (now : UInt64) (need : Need) : Except Refusal Grant :=
  match token with
  | none => a.anonymous need
  | some token => do
      let claims ← (verify jws a.keys token now).mapError (fun error => .unauthorized error.reason)
      if claims.jti ∈ a.revokedTokens ∨ claims.dev ∈ a.revokedDevices then
        throw (.unauthorized "token is revoked")
      else if claims.repo ≠ a.repository.text then throw (.forbidden "token is for another repository")
      else do
        let permissions ← a.permissions.elim (.error (.forbidden "no permissions are applied yet")) .ok
        let principal ← (PrincipalId.parse claims.sub).elim
          (.error (.unauthorized "token subject is not an opaque ID")) .ok
        let role ← (permissions.role principal).elim
          (.error (.forbidden "caller has no role in this repository")) .ok
        if need.scope ∉ claims.scopes then throw (.forbidden "token does not carry this scope")
        else if roleAllows role need.scope = false then
          throw (.forbidden "caller's role does not allow this scope")
        else if claims.layer ≠ none ∧ need.layer ≠ claims.layer then
          throw (.forbidden "token is limited to another Layer")
        else return ⟨some claims.sub, role, claims.checks⟩

/-! ### Deliveries -/

/-- What the control plane delivers. -/
inductive Delivery where
  | push (next : AppliedPermissions)
  | revoke (target : Revocation)

/-- One delivery; a refused push changes nothing. -/
def deliver (a : Access Key) : Delivery → Access Key
  | .push next => ((a.apply next).toOption).getD a
  | .revoke target => a.revoke target

/-- Deliveries one after another. -/
def run (l : List Delivery) : Access Key := Trail.after deliver a l

/-- The push or revocation is one of these, or a push that is refused. -/
def Expected (pushes : Set AppliedPermissions) (revocations : Set Revocation) (a : Access Key) : Delivery → Prop
  | .push next => next ∈ pushes ∨ ∃ refusal, a.apply next = .error refusal
  | .revoke target => target ∈ revocations

/-- All of these pushes and revocations arrive, and nothing else but refused pushes. -/
structure Receives (pushes : Set AppliedPermissions) (revocations : Set Revocation) (l : List Delivery) : Prop where
  pushed : ∀ next ∈ pushes, .push next ∈ l
  revoked : ∀ target ∈ revocations, .revoke target ∈ l
  expected : Trail.Always deliver a (Expected pushes revocations) l

variable {a}

/-! ### One delivery -/

/-- The permissions of the second are those of the first, or of a newer epoch. -/
def Newer (p q : Option AppliedPermissions) : Prop :=
  ∀ current, p = some current → ∃ next, q = some next ∧ (next = current ∨ current.epoch < next.epoch)

theorem Newer.refl (p : Option AppliedPermissions) : Newer p p := fun current h => ⟨current, h, .inl rfl⟩

theorem Newer.trans {p q s : Option AppliedPermissions} (h : Newer p q) (h' : Newer q s) : Newer p s := by
  intro current hp
  obtain ⟨next, hq, hnext⟩ := h current hp
  obtain ⟨last, hs, hlast⟩ := h' next hq
  refine ⟨last, hs, ?_⟩
  obtain rfl | hlt := hnext
  · exact hlast
  · obtain rfl | hlt' := hlast
    · exact .inr hlt
    · exact .inr (hlt.trans hlt')

/-- What an accepted push does. -/
theorem of_apply {a' : Access Key} {next : AppliedPermissions} (h : a.apply next = .ok a') :
    next.repository = a.repository ∧ a' = { a with permissions := some next } ∧
      Newer a.permissions (some next) := by
  unfold apply at h
  split at h
  · cases h
  rename_i hrepository
  rw [not_not] at hrepository
  refine ⟨hrepository, ?_⟩
  split at h
  · rename_i hnone
    obtain rfl := Except.ok.inj h
    exact ⟨rfl, fun current hcurrent => by rw [hnone] at hcurrent; cases hcurrent⟩
  · rename_i current hcurrent
    have hfound : ∀ p, a.permissions = some p → p = current := fun p hp => Option.some.inj (hp.symm.trans hcurrent)
    split at h
    · cases h
    split at h
    · split at h
      · rename_i hsame
        obtain rfl := Except.ok.inj h
        obtain rfl := hsame
        refine ⟨?_, fun p hp => ⟨current, rfl, .inl (hfound p hp).symm⟩⟩
        rw [← hcurrent]
      · cases h
    · rename_i hless hequal
      obtain rfl := Except.ok.inj h
      refine ⟨rfl, fun p hp => ⟨next, rfl, .inr ?_⟩⟩
      rw [hfound p hp]
      omega

/-- A refused push for the repository is not newer than what is applied. -/
theorem epoch_le_of_refused {next : AppliedPermissions} {refusal : Refusal} (h : a.apply next = .error refusal)
    (hrepository : next.repository = a.repository) : ∃ current, a.permissions = some current ∧
      next.epoch ≤ current.epoch := by
  unfold apply at h
  rw [if_neg (not_not.mpr hrepository)] at h
  split at h
  · cases h
  · rename_i current hcurrent
    refine ⟨current, hcurrent, ?_⟩
    split at h
    · omega
    split at h
    · omega
    · cases h

theorem deliver_push_of_ok {a' : Access Key} {next : AppliedPermissions} (h : a.apply next = .ok a') :
    a.deliver (.push next) = a' := by
  show ((a.apply next).toOption).getD a = a'
  rw [h]
  rfl

theorem deliver_push_of_error {next : AppliedPermissions} {refusal : Refusal}
    (h : a.apply next = .error refusal) : a.deliver (.push next) = a := by
  show ((a.apply next).toOption).getD a = a
  rw [h]
  rfl

theorem deliver_repository (d : Delivery) : (a.deliver d).repository = a.repository := by
  cases d with
  | push next =>
      cases h : a.apply next with
      | error refusal => rw [deliver_push_of_error h]
      | ok a' =>
          rw [deliver_push_of_ok h]
          obtain ⟨_, rfl, _⟩ := of_apply h
          rfl
  | revoke target => cases target <;> rfl

theorem deliver_keys (d : Delivery) : (a.deliver d).keys = a.keys := by
  cases d with
  | push next =>
      cases h : a.apply next with
      | error refusal => rw [deliver_push_of_error h]
      | ok a' =>
          rw [deliver_push_of_ok h]
          obtain ⟨_, rfl, _⟩ := of_apply h
          rfl
  | revoke target => cases target <;> rfl

/-- Permissions are only replaced by newer ones. -/
theorem deliver_newer (d : Delivery) : Newer a.permissions (a.deliver d).permissions := by
  cases d with
  | push next =>
      cases h : a.apply next with
      | error refusal =>
          rw [deliver_push_of_error h]
          exact .refl _
      | ok a' =>
          rw [deliver_push_of_ok h]
          obtain ⟨_, rfl, hnewer⟩ := of_apply h
          exact hnewer
  | revoke target => cases target <;> exact .refl _

theorem mem_deliver_tokens {d : Delivery} {jti : Str} :
    jti ∈ (a.deliver d).revokedTokens ↔ d = .revoke (.token jti) ∨ jti ∈ a.revokedTokens := by
  cases d with
  | push next =>
      cases h : a.apply next with
      | error refusal => simp [deliver_push_of_error h]
      | ok a' =>
          obtain ⟨_, rfl, _⟩ := of_apply h
          simp [deliver_push_of_ok h]
  | revoke target => cases target <;> simp [deliver, revoke]

theorem mem_deliver_devices {d : Delivery} {device : Str} :
    device ∈ (a.deliver d).revokedDevices ↔ d = .revoke (.device device) ∨ device ∈ a.revokedDevices := by
  cases d with
  | push next =>
      cases h : a.apply next with
      | error refusal => simp [deliver_push_of_error h]
      | ok a' =>
          obtain ⟨_, rfl, _⟩ := of_apply h
          simp [deliver_push_of_ok h]
  | revoke target => cases target <;> simp [deliver, revoke]

/-! ### Runs of deliveries -/

variable {l l' : List Delivery}

theorem run_append (l l' : List Delivery) : a.run (l ++ l') = (a.run l).run l' := Trail.after_append l l'

theorem run_concat (l : List Delivery) (d : Delivery) : a.run (l ++ [d]) = (a.run l).deliver d :=
  Trail.after_concat

theorem run_repository (l : List Delivery) : (a.run l).repository = a.repository :=
  Trail.invariant (I := fun _ (b : Access Key) => b.repository = a.repository) rfl (fun _ d ih => (deliver_repository d).trans ih) l

theorem run_keys (l : List Delivery) : (a.run l).keys = a.keys :=
  Trail.invariant (I := fun _ (b : Access Key) => b.keys = a.keys) rfl (fun _ d ih => (deliver_keys d).trans ih) l

theorem run_newer (l : List Delivery) : Newer a.permissions (a.run l).permissions :=
  Trail.invariant (I := fun _ (b : Access Key) => Newer a.permissions b.permissions) (Newer.refl _)
    (fun _ d ih => ih.trans (deliver_newer d)) l

theorem mem_run_tokens {jti : Str} :
    jti ∈ (a.run l).revokedTokens ↔ .revoke (.token jti) ∈ l ∨ jti ∈ a.revokedTokens := by
  induction l using List.reverseRecOn with
  | nil => simp [run]
  | append_singleton l d ih =>
      rw [run_concat, mem_deliver_tokens, ih, List.mem_append, List.mem_singleton, eq_comm]
      exact or_left_comm.trans or_assoc.symm

theorem mem_run_devices {device : Str} :
    device ∈ (a.run l).revokedDevices ↔ .revoke (.device device) ∈ l ∨ device ∈ a.revokedDevices := by
  induction l using List.reverseRecOn with
  | nil => simp [run]
  | append_singleton l d ih =>
      rw [run_concat, mem_deliver_devices, ih, List.mem_append, List.mem_singleton, eq_comm]
      exact or_left_comm.trans or_assoc.symm

section receives
variable {pushes : Set AppliedPermissions} {revocations : Set Revocation}

/-- Nothing but an expected push is ever applied. -/
theorem run_permissions (h : Trail.Always deliver a (Expected pushes revocations) l) :
    (a.run l).permissions = a.permissions ∨
      ∃ p ∈ pushes, p.repository = a.repository ∧ (a.run l).permissions = some p := by
  induction l using List.reverseRecOn with
  | nil => exact .inl rfl
  | append_singleton l d ih =>
      obtain ⟨hl, hd⟩ := Trail.always_concat.mp h
      rw [run_concat]
      cases d with
      | push next =>
          cases happly : (a.run l).apply next with
          | error refusal =>
              rw [deliver_push_of_error happly]
              exact ih hl
          | ok a' =>
              rw [deliver_push_of_ok happly]
              obtain ⟨hrepository, rfl, _⟩ := of_apply happly
              rw [run_repository] at hrepository
              obtain hmem | ⟨refusal, hrefused⟩ := hd
              · exact .inr ⟨next, hmem, hrepository, rfl⟩
              · cases happly.symm.trans hrefused
      | revoke target =>
          have hsame : ((a.run l).deliver (.revoke target)).permissions = (a.run l).permissions := by
            cases target <;> rfl
          rw [hsame]
          exact ih hl

/-- What was pushed is not newer than what is applied. -/
theorem epoch_le_run {next : AppliedPermissions} (hmem : .push next ∈ l)
    (hrepository : next.repository = a.repository) :
    ∃ current, (a.run l).permissions = some current ∧ next.epoch ≤ current.epoch := by
  obtain ⟨earlier, later, rfl⟩ := List.append_of_mem hmem
  have happlied : ∃ current, ((a.run earlier).deliver (.push next)).permissions = some current ∧
      next.epoch ≤ current.epoch := by
    cases happly : (a.run earlier).apply next with
    | error refusal =>
        rw [deliver_push_of_error happly]
        exact epoch_le_of_refused happly (hrepository.trans (run_repository earlier).symm)
    | ok a' =>
        rw [deliver_push_of_ok happly]
        obtain ⟨_, rfl, _⟩ := of_apply happly
        exact ⟨next, rfl, le_refl _⟩
  obtain ⟨current, hcurrent, hle⟩ := happlied
  have hsplit : a.run (earlier ++ .push next :: later) = ((a.run earlier).deliver (.push next)).run later :=
    run_append earlier (.push next :: later)
  rw [hsplit]
  obtain ⟨last, hlast, hnewer⟩ := run_newer later current hcurrent
  refine ⟨last, hlast, hle.trans ?_⟩
  obtain rfl | hlt := hnewer
  · exact le_refl _
  · exact le_of_lt hlt

/-- Two orders of delivery leave permissions of which neither is newer. -/
theorem Receives.permissions_eq (hconsistent : ∀ p ∈ pushes, ∀ q ∈ pushes, p.epoch = q.epoch → p = q)
    (h : a.Receives pushes revocations l) (h' : a.Receives pushes revocations l') :
    (a.run l).permissions = (a.run l').permissions := by
  have hold : ∀ {l₁ l₂}, a.Receives pushes revocations l₁ → a.Receives pushes revocations l₂ →
      (a.run l₁).permissions = a.permissions → ∀ p ∈ pushes, p.repository = a.repository →
      (a.run l₂).permissions = some p → some p = a.permissions := by
    intro l₁ l₂ h₁ h₂ hsame p hp hrepository hfinal
    -- `p` was delivered first too, and was not applied over what was there
    obtain ⟨current, hcurrent, hle⟩ := epoch_le_run (h₁.pushed p hp) hrepository
    rw [hsame] at hcurrent
    obtain ⟨last, hlast, hnewer⟩ := run_newer (a := a) l₂ current hcurrent
    obtain rfl := Option.some.inj (hfinal.symm.trans hlast)
    obtain rfl | hlt := hnewer
    · exact hcurrent.symm
    · omega
  obtain hsame | ⟨p, hp, hprepository, hpfinal⟩ := run_permissions h.expected
  · obtain hsame' | ⟨q, hq, hqrepository, hqfinal⟩ := run_permissions h'.expected
    · rw [hsame, hsame']
    · rw [hsame, hqfinal, hold h h' hsame q hq hqrepository hqfinal]
  · obtain hsame' | ⟨q, hq, hqrepository, hqfinal⟩ := run_permissions h'.expected
    · rw [hsame', hpfinal, hold h' h hsame' p hp hprepository hpfinal]
    · obtain ⟨last', hlast', hple⟩ := epoch_le_run (h'.pushed p hp) hprepository
      obtain ⟨last, hlast, hqle⟩ := epoch_le_run (h.pushed q hq) hqrepository
      rw [Option.some.inj (hlast'.symm.trans hqfinal)] at hple
      rw [Option.some.inj (hlast.symm.trans hpfinal)] at hqle
      rw [hpfinal, hqfinal, hconsistent p hp q hq (by omega)]

end receives

/-! ### Decisions -/

/-- The three segments of a token, signed by a trusted key. -/
def Signed (jws : Jws Key) (keys : KeySet Key) (token : Str) (claims : Claims) : Prop :=
  ∃ head body signature header key bytes, token.splitOn dot = [head, body, signature] ∧
    (jws.decode64 head).bind jws.readHeader = some header ∧ header.alg = ALG ∧
    SortedMap.get? keys header.kid = some key ∧ jws.decode64 signature = some bytes ∧
    jws.verifyStrict key (head ++ dot :: body) bytes = true ∧
    (jws.decode64 body).bind jws.readClaims = some claims

theorem of_validate {claims claims' : Claims} {now : UInt64} (h : claims.validate now = .ok claims') :
    claims' = claims ∧ now < claims.exp := by
  unfold Claims.validate at h
  split at h
  · cases h
  split at h
  · cases h
  split at h
  · cases h
  split at h
  · cases h
  rename_i hexp
  split at h
  · cases h
  · exact ⟨(Except.ok.inj h).symm, UInt64.not_le.mp hexp⟩

theorem elim_eq_ok {α ε : Type} {x : Option α} {e : ε} {v : α} :
    x.elim (.error e) .ok = (.ok v : Except ε α) ↔ x = some v := by
  cases x <;> simp

/-- A token that verifies is signed and current. -/
theorem of_verify {jws : Jws Key} {keys : KeySet Key} {token : Str} {now : UInt64} {claims : Claims}
    (h : verify jws keys token now = .ok claims) : Signed jws keys token claims ∧ now < claims.exp := by
  unfold verify at h
  split at h
  · cases h
  split at h
  · rename_i head body signature hsplit
    obtain ⟨header, hheader, h₁⟩ := except_bind_eq_ok.mp h
    split at h₁
    · cases h₁
    rename_i halg
    obtain ⟨key, hkey, h₂⟩ := except_bind_eq_ok.mp h₁
    obtain ⟨bytes, hbytes, h₃⟩ := except_bind_eq_ok.mp h₂
    split at h₃
    · cases h₃
    rename_i hsigned
    obtain ⟨claims', hclaims, hvalid⟩ := except_bind_eq_ok.mp h₃
    obtain ⟨rfl, hexp⟩ := of_validate hvalid
    rw [not_not] at halg
    rw [Bool.not_eq_false] at hsigned
    exact ⟨⟨head, body, signature, header, key, bytes, hsplit, elim_eq_ok.mp hheader, halg, elim_eq_ok.mp hkey,
      elim_eq_ok.mp hbytes, hsigned, elim_eq_ok.mp hclaims⟩, hexp⟩
  · cases h

/-- What a decision in favour of a request rests on. -/
inductive Allowed (jws : Jws Key) (a : Access Key) (token : Option Str) (now : UInt64) (need : Need) :
    Grant → Prop
  | anonymous {permissions} : token = none → a.permissions = some permissions →
      permissions.visibility = .public → need.scope = .read → Allowed jws a token now need ⟨none, .read, []⟩
  | token {bearer claims permissions principal role} : token = some bearer → Signed jws a.keys bearer claims →
      now < claims.exp → claims.jti ∉ a.revokedTokens → claims.dev ∉ a.revokedDevices →
      claims.repo = a.repository.text → need.scope ∈ claims.scopes →
      (claims.layer = none ∨ need.layer = claims.layer) → a.permissions = some permissions →
      PrincipalId.parse claims.sub = some principal → permissions.role principal = some role →
      roleAllows role need.scope = true → Allowed jws a token now need ⟨some claims.sub, role, claims.checks⟩

theorem allowed_of_authorize {jws : Jws Key} {token : Option Str} {now : UInt64} {need : Need} {grant : Grant}
    (h : a.authorize jws token now need = .ok grant) : Allowed jws a token now need grant := by
  cases token with
  | none =>
      have hanonymous : a.anonymous need = .ok grant := h
      unfold anonymous at hanonymous
      split at hanonymous
      · rename_i permissions hpermissions
        split at hanonymous
        · rename_i hread
          obtain rfl := Except.ok.inj hanonymous
          exact .anonymous rfl hpermissions hread.1 hread.2
        · cases hanonymous
      · cases hanonymous
  | some bearer =>
      unfold authorize at h
      obtain ⟨claims, hverify, h₁⟩ := except_bind_eq_ok.mp h
      have hverified : verify jws a.keys bearer now = .ok claims := by
        cases hv : verify jws a.keys bearer now with
        | error e =>
            rw [hv] at hverify
            cases hverify
        | ok claims' =>
            rw [hv] at hverify
            exact congrArg Except.ok (Except.ok.inj hverify)
      obtain ⟨hsigned, hexp⟩ := of_verify hverified
      split at h₁
      · cases h₁
      rename_i hrevoked
      rw [not_or] at hrevoked
      split at h₁
      · cases h₁
      rename_i hrepo
      rw [not_not] at hrepo
      obtain ⟨permissions, hpermissions, h₂⟩ := except_bind_eq_ok.mp h₁
      obtain ⟨principal, hprincipal, h₃⟩ := except_bind_eq_ok.mp h₂
      obtain ⟨role, hrole, h₄⟩ := except_bind_eq_ok.mp h₃
      split at h₄
      · cases h₄
      rename_i hscope
      rw [not_not] at hscope
      split at h₄
      · cases h₄
      rename_i hallows
      rw [Bool.not_eq_false] at hallows
      split at h₄
      · cases h₄
      rename_i hlayer
      obtain rfl := Except.ok.inj h₄
      have hlimit : claims.layer = none ∨ need.layer = claims.layer := by
        by_cases hnone : claims.layer = none
        · exact .inl hnone
        · exact .inr (by_contra fun hother => hlayer ⟨hnone, hother⟩)
      exact .token rfl hsigned hexp hrevoked.1 hrevoked.2 hrepo hscope hlimit (elim_eq_ok.mp hpermissions)
        (elim_eq_ok.mp hprincipal) (elim_eq_ok.mp hrole) hallows

/-- Deliveries in any order, with any repetitions and refused pushes between them, end in the same state, so
every request gets the same decision.  Decisions never go back to an older epoch, and a revocation is never
undone.  A decision in favour of a request is allowed by the token, the role and what is revoked. -/
theorem deliveries_agree (jws : Jws Key) (a : Access Key) :
    (∀ (pushes : Set AppliedPermissions) (revocations : Set Revocation) l l',
      (∀ p ∈ pushes, ∀ q ∈ pushes, p.epoch = q.epoch → p = q) →
      a.Receives pushes revocations l → a.Receives pushes revocations l' →
      a.run l = a.run l' ∧
        (∀ token now need, (a.run l).authorize jws token now need = (a.run l').authorize jws token now need) ∧
        (∀ p ∈ pushes, p.repository = a.repository →
          ∃ current, (a.run l).permissions = some current ∧ p.epoch ≤ current.epoch) ∧
        ((a.run l).permissions = a.permissions ∨ ∃ p ∈ pushes, (a.run l).permissions = some p) ∧
        (∀ jti, jti ∈ (a.run l).revokedTokens ↔ .token jti ∈ revocations ∨ jti ∈ a.revokedTokens) ∧
        ∀ device, device ∈ (a.run l).revokedDevices ↔ .device device ∈ revocations ∨ device ∈ a.revokedDevices) ∧
    (∀ l l', Newer (a.run l).permissions (a.run (l ++ l')).permissions ∧
      (∀ jti ∈ (a.run l).revokedTokens, jti ∈ (a.run (l ++ l')).revokedTokens) ∧
      ∀ device ∈ (a.run l).revokedDevices, device ∈ (a.run (l ++ l')).revokedDevices) ∧
    ∀ l token now need grant, (a.run l).authorize jws token now need = .ok grant →
      Allowed jws (a.run l) token now need grant := by
  refine ⟨?_, ?_, fun l token now need grant => allowed_of_authorize⟩
  · intro pushes revocations l l' hconsistent h h'
    have hrevoked : ∀ {l} target, a.Receives pushes revocations l → (.revoke target ∈ l ↔ target ∈ revocations) := by
      intro l target hl
      constructor
      · intro hmem
        obtain ⟨earlier, later, rfl⟩ := List.append_of_mem hmem
        exact hl.expected earlier (.revoke target) later rfl
      · exact hl.revoked target
    have htokens : ∀ {l} jti, a.Receives pushes revocations l →
        (jti ∈ (a.run l).revokedTokens ↔ .token jti ∈ revocations ∨ jti ∈ a.revokedTokens) :=
      fun jti hl => mem_run_tokens.trans (or_congr (hrevoked (.token jti) hl) Iff.rfl)
    have hdevices : ∀ {l} device, a.Receives pushes revocations l →
        (device ∈ (a.run l).revokedDevices ↔ .device device ∈ revocations ∨ device ∈ a.revokedDevices) :=
      fun device hl => mem_run_devices.trans (or_congr (hrevoked (.device device) hl) Iff.rfl)
    have hsame : a.run l = a.run l' := by
      have hrepository := (run_repository (a := a) l).trans (run_repository l').symm
      have hkeys := (run_keys (a := a) l).trans (run_keys l').symm
      have hpermissions := h.permissions_eq hconsistent h'
      have hsets := SortedSet.ext (fun jti => (htokens jti h).trans (htokens jti h').symm)
      have hsets' := SortedSet.ext (fun device => (hdevices device h).trans (hdevices device h').symm)
      cases hl : a.run l
      cases hl' : a.run l'
      rw [hl, hl'] at hrepository hkeys hpermissions hsets hsets'
      simp only at hrepository hkeys hpermissions hsets hsets'
      rw [hrepository, hkeys, hpermissions, hsets, hsets']
    refine ⟨hsame, fun token now need => by rw [hsame], fun p hp => epoch_le_run (h.pushed p hp), ?_,
      fun jti => htokens jti h, fun device => hdevices device h⟩
    exact (run_permissions h.expected).imp_right (fun ⟨p, hp, _, hfinal⟩ => ⟨p, hp, hfinal⟩)
  · intro l l'
    rw [run_append]
    exact ⟨run_newer l', fun jti h => mem_run_tokens.mpr (.inr h), fun device h => mem_run_devices.mpr (.inr h)⟩

/-- The permissions of a public repository at an epoch. -/
def publicAt (epoch : ℕ) : AppliedPermissions :=
  ⟨⟨[114], opaqueId_r⟩, epoch, .public, SortedMap.empty, 0, zero_small⟩

/-- Two epochs and a revocation, in two orders, the second with refused pushes: everyone may read, at the
newer epoch. -/
theorem deliveries_agree_public : ∃ (jws : Jws Str) (a : Access Str) (l l' : List Delivery) (grant : Grant),
    a.run l = a.run l' ∧ (a.run l).permissions = some (publicAt 2) ∧ [1] ∈ (a.run l').revokedTokens ∧
      Allowed jws (a.run l) none 0 ⟨.read, none⟩ grant := by
  let jws : Jws Str := ⟨id, some, fun _ => [], fun _ => none, fun _ => [], fun _ => none, id, fun _ _ => [],
    fun _ _ _ => false⟩
  let a : Access Str := Access.new ⟨[114], by decide⟩ SortedMap.empty
  let first : List Delivery := [.push (publicAt 1), .revoke (.token [1]), .push (publicAt 2)]
  let second : List Delivery :=
    [.push (publicAt 2), .push (publicAt 1), .push (publicAt 0), .push (publicAt 1), .revoke (.token [1])]
  have hagree := deliveries_agree jws a
  have hexpected : ∀ l, (∀ d ∈ l, d ∈ first) → Trail.Always deliver a
      (Expected {publicAt 1, publicAt 2} {.token [1]}) l := by
    intro l hl earlier d later hsplit
    have hmem := hl d (by rw [hsplit]; simp)
    simp only [first, List.mem_cons, List.not_mem_nil, or_false] at hmem
    obtain rfl | rfl | rfl := hmem
    · exact .inl (.inl rfl)
    · exact rfl
    · exact .inl (.inr rfl)
  have hfirst : a.Receives {publicAt 1, publicAt 2} {.token [1]} first := by
    refine ⟨?_, ?_, hexpected first (fun d hd => hd)⟩
    · intro next hnext
      obtain rfl | rfl := hnext <;> simp [first]
    · intro target htarget
      obtain rfl := htarget
      simp [first]
  have hsecond : a.Receives {publicAt 1, publicAt 2} {.token [1]} second := by
    refine ⟨?_, ?_, ?_⟩
    · intro next hnext
      obtain rfl | rfl := hnext <;> simp [second]
    · intro target htarget
      obtain rfl := htarget
      simp [second]
    · -- the push of epoch 0 is refused, and the others are expected
      have hstale : Expected {publicAt 1, publicAt 2} {.token [1]}
          (a.run [.push (publicAt 2), .push (publicAt 1)]) (.push (publicAt 0)) :=
        .inr ⟨.stalePermissions 2, rfl⟩
      have hbefore := hexpected [.push (publicAt 2), .push (publicAt 1)] (by simp [first])
      have hmiddle := Trail.always_concat.mpr ⟨hbefore, hstale⟩
      have hagain : Expected {publicAt 1, publicAt 2} {.token [1]}
          (a.run [.push (publicAt 2), .push (publicAt 1), .push (publicAt 0)]) (.push (publicAt 1)) :=
        .inl (.inl rfl)
      have hnext := Trail.always_concat.mpr ⟨hmiddle, hagain⟩
      have hrevoke : Expected {publicAt 1, publicAt 2} {.token [1]}
          (a.run [.push (publicAt 2), .push (publicAt 1), .push (publicAt 0), .push (publicAt 1)])
          (.revoke (.token [1])) := rfl
      exact Trail.always_concat.mpr ⟨hnext, hrevoke⟩
  have hconsistent : ∀ p ∈ ({publicAt 1, publicAt 2} : Set AppliedPermissions),
      ∀ q ∈ ({publicAt 1, publicAt 2} : Set AppliedPermissions), p.epoch = q.epoch → p = q := by
    intro p hp q hq hepoch
    obtain rfl | rfl := hp <;> obtain rfl | rfl := hq <;> first | rfl | cases hepoch
  obtain ⟨hsame, _, _, _, htokens, _⟩ := hagree.1 _ _ first second hconsistent hfirst hsecond
  refine ⟨jws, a, first, second, ⟨none, .read, []⟩, hsame, rfl, ?_, hagree.2.2 first none 0 _ _ rfl⟩
  rw [← hsame]
  exact (htokens [1]).mpr (.inl rfl)

end Access

end Javelin.Identity
