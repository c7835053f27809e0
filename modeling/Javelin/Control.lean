import Javelin.Tokens

/-! # The control plane's state

The control plane keeps one document, `State`.  A call reads it (`Store.read`) or changes it and saves it
whole (`Store.update`): a call that fails saves nothing.  `authenticate` resolves a bearer token, `issue`
signs an access token.

SHA-256 (`Crates`) and passkey verification (`WebAuthn`) are parameters, and so are the bytes a call draws
from the random source.  A `Fault` says where storage fails. -/

namespace KeyedList.SortedMap

variable {K V : Type} [LinearOrder K]

/-- The entries whose value passes the test. -/
def retain (p : V → Bool) (m : SortedMap K V) : SortedMap K V :=
  ⟨m.toList.filter (fun e => p e.2), m.ascending.sublist List.filter_sublist⟩

theorem get?_retain {p : V → Bool} {m : SortedMap K V} {k : K} {v : V} :
    (m.retain p).get? k = some v ↔ m.get? k = some v ∧ p v = true := by
  rw [get?_eq_some, get?_eq_some]
  simp only [retain, List.mem_filter]

/-- The first entry, in key order, whose value passes the test. -/
def findValue (p : V → Bool) (m : SortedMap K V) : Option (K × V) := m.toList.find? (fun e => p e.2)

theorem get?_of_findValue {p : V → Bool} {m : SortedMap K V} {k : K} {v : V} (h : m.findValue p = some (k, v)) :
    m.get? k = some v ∧ p v = true :=
  ⟨get?_eq_some.mpr (List.mem_of_find?_eq_some h), by simpa using List.find?_some h⟩

end KeyedList.SortedMap

namespace Javelin.Control

open KeyedList Bytes Collaboration Identity

/-! ### Errors and secrets -/

inductive ControlError where
  | notInitialized
  | alreadyInitialized
  | unauthorized (detail : String)
  | forbidden (detail : String)
  | invalidInput (detail : String)
  | notFound (detail : String)
  | expired (detail : String)
  | redeemed
  | nameTaken
  | operationReused
  | node (detail : String)
  | refused (code detail : String)
  | storage (detail : String)
deriving DecidableEq

/-- What the control plane uses of the token crates and SHA-256. -/
structure Crates (Key : Type) extends Jws Key where
  sha256 : Str → Str

/-- The lower-case hex digit of a number below 16. -/
def hexDigit (n : ℕ) : UInt8 := if n < 10 then UInt8.ofNat (48 + n) else UInt8.ofNat (87 + n)

/-- Two hex digits for each byte. -/
def hex (bytes : Str) : Str := bytes.flatMap (fun b => [hexDigit (b.toNat / 16), hexDigit (b.toNat % 16)])

namespace secret
variable {Key : Type} (crates : Crates Key)

/-- Alphabet for user codes. -/
def USER_CODE_ALPHABET : Str := text "BCDFGHJKLMNPQRSTVWXZ23456789"

/-- A bearer secret from drawn bytes, behind a readable prefix. -/
def token (lead draw : Str) : Str := lead ++ crates.encode64 draw

/-- An opaque ID from drawn bytes, behind a prefix. -/
def id (lead draw : Str) : Str := lead ++ hex draw

/-- A user code from drawn bytes, shown with a dash in the middle. -/
def userCode (draw : Str) : Str :=
  let code := draw.map (fun b => USER_CODE_ALPHABET.getD (b.toNat % USER_CODE_ALPHABET.length) 0)
  code.take 4 ++ text "-" ++ code.drop 4

/-- `char::is_whitespace`: the Unicode property White_Space. -/
def isWhitespace (c : Char) : Bool :=
  let n := c.toNat
  (9 ≤ n && n ≤ 13) || n = 32 || n = 0x85 || n = 0xA0 || n = 0x1680 || (0x2000 ≤ n && n ≤ 0x200A) ||
    n = 0x2028 || n = 0x2029 || n = 0x202F || n = 0x205F || n = 0x3000

/-- `to_ascii_uppercase`. -/
def asciiUpper (c : Char) : Char := if 97 ≤ c.toNat ∧ c.toNat ≤ 122 then Char.ofNat (c.toNat - 32) else c

/-- The canonical form of a typed user code. -/
def canonicalUserCode (typed : List Char) : Option Str :=
  let code := text (String.ofList ((typed.filter (fun c => c ≠ '-' && !isWhitespace c)).map asciiUpper))
  if code.length = 8 ∧ ∀ b ∈ code, b ∈ USER_CODE_ALPHABET then some code else none

/-- The SHA-256 of a secret, hex. -/
def hash (secret : Str) : Str := hex (crates.sha256 secret)

end secret

/-! ### The document -/

/-- The WebAuthn library: its records, and what starts and finishes a ceremony. -/
structure WebAuthn where
  Rp : Type
  Passkey : Type
  Registration : Type
  Authentication : Type
  Creation : Type
  Request : Type
  Created : Type
  Asserted : Type
  Result : Type
  startRegistration : Rp → (draw handle name displayName : Str) → List Str → Except String (Creation × Registration)
  finishRegistration : Rp → Created → Registration → Option Passkey
  startAuthentication : Rp → (draw : Str) → List Passkey → Except String (Request × Authentication)
  finishAuthentication : Rp → Asserted → Authentication → Option Result
  credentialId : Passkey → Str
  resultId : Result → Str
  updateCredential : Passkey → Result → Passkey

structure DeviceRecord where
  userHash : Str
  expiresAt : UInt64
  approvedBy : Option Str
  device : Option Str
  redeemed : Bool
deriving DecidableEq

structure SessionRecord where
  principal : Str
  device : Str
  expiresAt : UInt64
deriving DecidableEq

inductive Phase where
  | provisioning
  | ready
deriving DecidableEq

/-- Where a fork came from. -/
structure ForkOf where
  source : Str
  number : ℕ
deriving DecidableEq

structure RepositoryRecord where
  owner : Str
  name : Str
  «public» : Bool
  publish : Str
  creator : Str
  operation : Str
  phase : Phase
  epoch : ℕ
  provider : Str
  nodeUrl : Option Str
  fork : Option ForkOf
deriving DecidableEq

structure PasskeyRecord (web : WebAuthn) where
  principal : Str
  passkey : web.Passkey

/-- What a ceremony was started for. -/
inductive Ceremony (web : WebAuthn) where
  | enroll (principal : Str) (registration : web.Registration)
  | signIn (authentication : web.Authentication)

structure CeremonyRecord (web : WebAuthn) where
  expiresAt : UInt64
  step : Ceremony web

structure BrowserRecord where
  principal : Str
  expiresAt : UInt64
deriving DecidableEq

structure State (web : WebAuthn) where
  signingSeed : Str
  adminTokenHash : Str
  deviceCodes : SortedMap Str DeviceRecord
  sessions : SortedMap Str SessionRecord
  repositories : SortedMap Str RepositoryRecord
  operations : SortedMap Str Str
  passkeys : SortedMap Str (PasskeyRecord web)
  ceremonies : SortedMap Str (CeremonyRecord web)
  browserSessions : SortedMap Str BrowserRecord

variable {web : WebAuthn} {Key : Type}

/-- `State::default`. -/
def State.initial : State web := ⟨[], [], ∅, ∅, ∅, ∅, ∅, ∅, ∅⟩

def State.initialized (state : State web) : Bool := !state.adminTokenHash.isEmpty

/-! ### The store -/

/-- Where storage fails in a call: nowhere, on taking the lock and loading the document, or on saving it. -/
inductive Fault where
  | none
  | load (detail : String)
  | save (detail : String)
deriving DecidableEq

namespace Store
variable {σ α : Type}

/-- Runs a reader on the document. -/
def read (fault : Fault) (read : σ → Except ControlError α) (state : σ) : Except ControlError α :=
  match fault with
  | .load detail => .error (.storage detail)
  | _ => read state

/-- Runs a change on the document and saves the result.  If the change fails, nothing is saved. -/
def update (fault : Fault) (change : σ → Except ControlError (α × σ)) (state : σ) : Except ControlError α × σ :=
  match fault with
  | .load detail => (.error (.storage detail), state)
  | .save detail =>
      match change state with
      | .error e => (.error e, state)
      | .ok _ => (.error (.storage detail), state)
  | .none =>
      match change state with
      | .error e => (.error e, state)
      | .ok (value, next) => (.ok value, next)

/-- An update keeps the document and fails, or it is the change. -/
theorem update_cases (fault : Fault) (change : σ → Except ControlError (α × σ)) (state : σ) :
    (∃ e, update fault change state = (.error e, state)) ∨
      ∃ value next, fault = .none ∧ change state = .ok (value, next) ∧
        update fault change state = (.ok value, next) := by
  cases fault with
  | load detail => exact Or.inl ⟨_, rfl⟩
  | save detail =>
      cases h : change state with
      | error e => exact Or.inl ⟨e, by simp only [update, h]⟩
      | ok result => exact Or.inl ⟨.storage detail, by simp only [update, h]⟩
  | none =>
      cases h : change state with
      | error e => exact Or.inl ⟨e, by simp only [update, h]⟩
      | ok result => exact Or.inr ⟨_, _, rfl, rfl, by simp only [update, h]⟩

theorem of_update {fault : Fault} {change : σ → Except ControlError (α × σ)} {state : σ} {value : α}
    (h : (update fault change state).1 = .ok value) :
    fault = .none ∧ change state = .ok (value, (update fault change state).2) := by
  cases update_cases fault change state with
  | inl hkept =>
      obtain ⟨e, he⟩ := hkept
      rw [he] at h
      cases h
  | inr hchanged =>
      obtain ⟨value', next, hfault, hchange, hu⟩ := hchanged
      rw [hu] at h
      cases h
      exact ⟨hfault, by rw [hu]; exact hchange⟩

theorem of_read {fault : Fault} {f : σ → Except ControlError α} {state : σ} {value : α}
    (h : read fault f state = .ok value) : f state = .ok value := by
  cases fault <;> first | exact h | cases h

end Store

/-! ### Callers and tokens -/

/-- The principal the bootstrap admin token acts as. -/
def ADMIN_PRINCIPAL : Str := text "admin"
def ADMIN_DEVICE : Str := text "dev_admin"
def KID : Str := text "control-1"
def ADMIN_PREFIX : Str := text "jav_admin_"

def SESSION_SCOPES : List Scope :=
  [.read, .layerWrite, .publish, .reviewWrite, .reviewApprove, .repoCreate, .«import»]

/-- Who a bearer token speaks for, what it may do, and for which repository. -/
structure Caller where
  principal : Str
  device : Str
  scopes : List Scope
  repo : Str
  admin : Bool
deriving DecidableEq

def Caller.require (caller : Caller) (scope : Scope) (detail : String) : Except ControlError Unit :=
  if scope ∈ caller.scopes then .ok () else .error (.forbidden detail)

/-- The byte `*`, for every repository. -/
def everyRepo : Str := text "*"

def Caller.mayActOn (caller : Caller) (repository : Str) : Bool :=
  decide (caller.repo = everyRepo) || decide (caller.repo = repository)

def requireInitialized (state : State web) : Except ControlError Unit :=
  if state.initialized then .ok () else .error .notInitialized

variable (crates : Crates Key)

/-- The seed of the signing key. -/
def signingKey (state : State web) : Except ControlError Str := do
  requireInitialized state
  match crates.decode64 state.signingSeed with
  | some seed =>
      if seed.length = 32 then .ok seed else .error (.storage "signing key is missing or corrupt")
  | none => .error (.storage "signing key is missing or corrupt")

/-- Creates the signing key and the admin token, once. -/
def bootstrap (drawnToken drawnSeed : Str) (state : State web) : Except ControlError (Str × State web) :=
  let token := secret.token crates ADMIN_PREFIX drawnToken
  if state.initialized then .error .alreadyInitialized
  else
    .ok (token, { state with signingSeed := crates.encode64 drawnSeed, adminTokenHash := secret.hash crates token })

/-- Resolves a bearer token: the admin token by its hash, anything else as a signed access token whose
sign-in is still live. -/
def authenticate (state : State web) (bearer : Str) (now : UInt64) : Except ControlError Caller := do
  requireInitialized state
  if ADMIN_PREFIX.isPrefixOf bearer then
    if secret.hash crates bearer ≠ state.adminTokenHash then throw (.unauthorized "admin token is not valid")
    else return ⟨ADMIN_PRINCIPAL, ADMIN_DEVICE, SESSION_SCOPES, everyRepo, true⟩
  else do
    let key ← signingKey crates state
    let keys ← (KeySet.trust SortedMap.empty KID (crates.verifyingKey key)).mapError (fun e => .storage e.reason)
    let claims ← (verify crates.toJws keys bearer now).mapError (fun e => .unauthorized e.reason)
    if state.sessions.toList.any (fun e =>
        decide (e.2.device = claims.dev) && decide (e.2.principal = claims.sub) && decide (now < e.2.expiresAt)) then
      return ⟨claims.sub, claims.dev, claims.scopes, claims.repo, false⟩
    else throw (.unauthorized "sign-in has ended; sign in again")

/-- Signs a one-hour access token for a session. -/
def issue (state : State web) (principal device repo : Str) (now : UInt64) (draw : Str) :
    Except ControlError Str := do
  let key ← signingKey crates state
  let issuer ← (Issuer.new KID key).mapError (fun e => .storage e.reason)
  return issuer.issue crates.toJws ⟨principal, device, repo, SESSION_SCOPES, none, [], now, now + MAX_LIFETIME,
    secret.id (text "jti_") draw⟩

/-- Only the admin token makes an admin of its bearer. -/
theorem of_authenticate_admin {state : State web} {bearer : Str} {now : UInt64} {caller : Caller}
    (h : authenticate crates state bearer now = .ok caller) (hadmin : caller.admin = true) :
    caller.principal = ADMIN_PRINCIPAL ∧ ADMIN_PREFIX.isPrefixOf bearer = true ∧
      secret.hash crates bearer = state.adminTokenHash ∧ state.initialized = true := by
  unfold authenticate at h
  obtain ⟨_, hinit, h⟩ := except_bind_eq_ok.mp h
  have hstate : state.initialized = true := by
    unfold requireInitialized at hinit
    by_contra hnot
    rw [if_neg hnot] at hinit
    cases hinit
  by_cases hmark : ADMIN_PREFIX.isPrefixOf bearer = true
  · rw [if_pos hmark] at h
    by_cases hhash : secret.hash crates bearer ≠ state.adminTokenHash
    · rw [if_pos hhash] at h
      cases h
    · rw [if_neg hhash] at h
      cases h
      exact ⟨rfl, hmark, not_not.mp hhash, hstate⟩
  · rw [if_neg hmark] at h
    obtain ⟨key, _, h⟩ := except_bind_eq_ok.mp h
    obtain ⟨keys, _, h⟩ := except_bind_eq_ok.mp h
    obtain ⟨claims, _, h⟩ := except_bind_eq_ok.mp h
    split at h
    · cases h
      cases hadmin
    · cases h

end Javelin.Control
