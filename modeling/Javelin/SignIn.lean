import Javelin.Control
import Javelin.Trails

/-! # Passkeys and device codes

The calls that sign a person in.  A passkey ceremony has a start and a finish; a finished sign-in gives a browser
session.  A device code is started, approved by the admin token or by a live browser session, and polled; the first poll after the approval gives a
session, whose refresh token `refresh` exchanges for access tokens.

`perform` is one call on the stored document, at a time of its own. -/

namespace Javelin.Control

open KeyedList Bytes Collaboration Identity

/-- Ceremonies last five minutes. -/
def CEREMONY_TTL : UInt64 := 300
/-- Browser sign-ins last 15 minutes. -/
def BROWSER_TTL : UInt64 := 900
/-- Prefix that marks a browser sign-in token. -/
def BROWSER_PREFIX : Str := text "jav_web_"
/-- How long a device code can wait for approval, in seconds. -/
def DEVICE_CODE_TTL : UInt64 := 900
/-- Seconds a device should wait between polls. -/
def POLL_INTERVAL : UInt64 := 5
/-- Refresh tokens last 30 days. -/
def REFRESH_TTL : UInt64 := 30 * 24 * 3600
/-- Access tokens last one hour. -/
def ACCESS_TTL : UInt64 := MAX_LIFETIME

variable {web : WebAuthn} {Key : Type} (crates : Crates Key)

/-! ### Passkeys -/

/-- A browser sign-in that the caller keeps as a cookie. -/
structure BrowserSession where
  token : Str
  expiresIn : UInt64
deriving DecidableEq

/-- The principal behind a live browser sign-in token. -/
def browserPrincipal (state : State web) (token : Str) (now : UInt64) : Option Str :=
  ((state.browserSessions.get? (secret.hash crates token)).filter (fun session => decide (now < session.expiresAt))).map
    BrowserRecord.principal

/-- Who may enroll a passkey: a live browser sign-in, or the admin token. -/
def enroller (state : State web) (bearer : Str) (now : UInt64) : Except ControlError Str :=
  if BROWSER_PREFIX.isPrefixOf bearer then
    (browserPrincipal crates state bearer now).elim (.error (.unauthorized "sign in with your passkey first")) .ok
  else do
    let caller ← authenticate crates state bearer now
    if caller.admin then return caller.principal
    else throw (.forbidden "only the admin token or a passkey sign-in can enroll a passkey")

/-- Spends a ceremony: it must exist and not have expired. -/
def takeCeremony (state : State web) (ceremony : Str) (now : UInt64) :
    Except ControlError (Ceremony web × State web) :=
  match state.ceremonies.get? ceremony with
  | none => .error (.notFound "this ceremony is not known or was already used")
  | some record =>
      if record.expiresAt ≤ now then .error (.expired "this ceremony has expired; start again")
      else .ok (record.step, { state with ceremonies := state.ceremonies.erase ceremony })

def insertCeremony (state : State web) (ceremony : Str) (now : UInt64) (step : Ceremony web) : State web :=
  { state with
    ceremonies := (state.ceremonies.retain (fun record => decide (now < record.expiresAt))).insert ceremony
      ⟨now + CEREMONY_TTL, step⟩ }

/-- The key for a credential in the document: its ID, base64url. -/
def credentialKey (id : Str) : Str := crates.encode64 id

/-- A stable WebAuthn user handle for a principal. -/
def userHandle (principal : Str) : Str := (crates.sha256 principal).take 16

/-- Starts enrolling a passkey for the caller. -/
def passkeyEnrollStart (rp : web.Rp) (bearer : Str) (now : UInt64) (challenge draw : Str) (fault : Fault) :
    State web → Except ControlError (Str × web.Creation) × State web :=
  Store.update fault (fun state => do
    let principal ← enroller crates state bearer now
    let exclude := (state.passkeys.toList.filter (fun e => decide (e.2.principal = principal))).map
      (fun e => web.credentialId e.2.passkey)
    let (options, registration) ←
      (web.startRegistration rp challenge (userHandle crates principal) principal principal exclude).mapError
        .invalidInput
    let ceremony := secret.id (text "cer_") draw
    return ((ceremony, options), insertCeremony state ceremony now (.enroll principal registration)))

/-- Any verification failure reads the same to the caller. -/
def verifyError : ControlError := .unauthorized "the passkey response did not verify"

/-- Finishes an enrollment. -/
def passkeyEnrollFinish (rp : web.Rp) (ceremony : Str) (credential : web.Created) (now : UInt64) (fault : Fault) :
    State web → Except ControlError Unit × State web :=
  Store.update fault (fun state => do
    match ← takeCeremony state ceremony now with
    | (.signIn _, _) => throw (.invalidInput "this ceremony is a sign-in, not an enrollment")
    | (.enroll principal registration, state) =>
        let passkey ← (web.finishRegistration rp credential registration).elim (.error verifyError) .ok
        let id := credentialKey crates (web.credentialId passkey)
        if (state.passkeys.get? id).isSome then throw (.invalidInput "this passkey is already enrolled")
        else return ((), { state with passkeys := state.passkeys.insert id ⟨principal, passkey⟩ }))

/-- Starts a sign-in with any enrolled passkey. -/
def passkeySigninStart (rp : web.Rp) (now : UInt64) (challenge draw : Str) (fault : Fault) :
    State web → Except ControlError (Str × web.Request) × State web :=
  Store.update fault (fun state => do
    requireInitialized state
    if state.passkeys.toList.isEmpty then throw (.notFound "no passkey is enrolled yet")
    else
      let passkeys := state.passkeys.toList.map (fun e => e.2.passkey)
      let (options, authentication) ← (web.startAuthentication rp challenge passkeys).mapError .invalidInput
      let ceremony := secret.id (text "cer_") draw
      return ((ceremony, options), insertCeremony state ceremony now (.signIn authentication)))

/-- Finishes a sign-in and returns a browser session for the passkey's principal. -/
def passkeySigninFinish (rp : web.Rp) (ceremony : Str) (credential : web.Asserted) (now : UInt64) (draw : Str)
    (fault : Fault) : State web → Except ControlError BrowserSession × State web :=
  Store.update fault (fun state => do
    match ← takeCeremony state ceremony now with
    | (.enroll _ _, _) => throw (.invalidInput "this ceremony is an enrollment, not a sign-in")
    | (.signIn authentication, state) =>
        let result ← (web.finishAuthentication rp credential authentication).elim (.error verifyError) .ok
        let id := credentialKey crates (web.resultId result)
        let record ← (state.passkeys.get? id).elim (.error (.unauthorized "this passkey is not enrolled")) .ok
        let token := secret.token crates BROWSER_PREFIX draw
        return (⟨token, BROWSER_TTL⟩,
          { state with
            passkeys := state.passkeys.insert id { record with passkey := web.updateCredential record.passkey result }
            browserSessions := state.browserSessions.insert (secret.hash crates token)
              ⟨record.principal, now + BROWSER_TTL⟩ }))

/-! ### Device codes -/

structure DeviceStart where
  deviceCode : Str
  userCode : Str
  expiresAt : UInt64
  interval : UInt64
deriving DecidableEq

structure Session where
  principal : Str
  device : Str
  accessToken : Str
  refreshToken : Str
  expiresIn : UInt64
deriving DecidableEq

inductive Poll where
  | pending
  | approved (session : Session)
deriving DecidableEq

structure AccessToken where
  accessToken : Str
  expiresIn : UInt64
deriving DecidableEq

/-- Starts a device code.  Expired codes are dropped on the way. -/
def deviceStart (now : UInt64) (drawnCode drawnUser : Str) (fault : Fault) :
    State web → Except ControlError DeviceStart × State web :=
  let deviceCode := secret.token crates [] drawnCode
  let userCode := secret.userCode drawnUser
  let expiresAt := now + DEVICE_CODE_TTL
  let canonical := userCode.filter (fun b => decide (b ≠ 45))
  Store.update fault (fun state => do
    requireInitialized state
    return (⟨deviceCode, userCode, expiresAt, POLL_INTERVAL⟩,
      { state with
        deviceCodes := (state.deviceCodes.retain (fun record => decide (now < record.expiresAt))).insert
          (secret.hash crates deviceCode) ⟨secret.hash crates canonical, expiresAt, none, none, false⟩ }))

/-- Marks the device code with this user hash as approved by a principal. -/
def approve (state : State web) (principal userHash : Str) (now : UInt64) (draw : Str) :
    Except ControlError (Unit × State web) :=
  match state.deviceCodes.findValue (fun record => decide (record.userHash = userHash)) with
  | none => .error (.notFound "no pending device code has this user code")
  | some (hash, record) =>
      if record.expiresAt ≤ now ∧ record.approvedBy.isNone then .error (.expired "this device code has expired")
      else if record.approvedBy.isNone then
        .ok ((), { state with
          deviceCodes := state.deviceCodes.insert hash
            { record with approvedBy := some principal, device := some (secret.id (text "dev_") draw) } })
      else .ok ((), state)

/-- The hash of a typed user code. -/
def userCodeHash (userCode : List Char) : Except ControlError Str :=
  match secret.canonicalUserCode userCode with
  | none => .error (.invalidInput "a user code is eight letters and digits, as XXXX-XXXX")
  | some canonical => .ok (secret.hash crates canonical)

/-- Approves a device code with the admin token. -/
def deviceApprove (adminToken : Str) (userCode : List Char) (now : UInt64) (draw : Str) (fault : Fault)
    (state : State web) : Except ControlError Unit × State web :=
  match userCodeHash crates userCode with
  | .error e => (.error e, state)
  | .ok userHash =>
      Store.update fault (fun state => do
        let caller ← authenticate crates state adminToken now
        if caller.admin then approve state caller.principal userHash now draw
        else throw (.forbidden "only the admin token can approve a device")) state

/-- Approves a device code with a browser sign-in or the admin token. -/
def deviceApproveAs (bearer : Str) (userCode : List Char) (now : UInt64) (draw : Str) (fault : Fault)
    (state : State web) : Except ControlError Unit × State web :=
  if BROWSER_PREFIX.isPrefixOf bearer = false then deviceApprove crates bearer userCode now draw fault state
  else
    match userCodeHash crates userCode with
    | .error e => (.error e, state)
    | .ok userHash =>
        Store.update fault (fun state => do
          let principal ← (browserPrincipal crates state bearer now).elim
            (.error (.unauthorized "sign in with your passkey first")) .ok
          approve state principal userHash now draw) state

/-- Polls a device code.  The first poll after the approval returns the session. -/
def devicePoll (deviceCode : Str) (now : UInt64) (drawnToken drawnJti : Str) (fault : Fault) :
    State web → Except ControlError Poll × State web :=
  let hash := secret.hash crates deviceCode
  Store.update fault (fun state =>
    match state.deviceCodes.get? hash with
    | none => .error (.notFound "this device code is not known")
    | some record =>
        if record.redeemed then .error .redeemed
        else if record.expiresAt ≤ now then .error (.expired "this device code has expired")
        else
          match record.approvedBy, record.device with
          | some principal, some device => do
              let refreshToken := secret.token crates (text "jav_refresh_") drawnToken
              let state := { state with
                deviceCodes := state.deviceCodes.insert hash { record with redeemed := true }
                sessions := state.sessions.insert (secret.hash crates refreshToken)
                  ⟨principal, device, now + REFRESH_TTL⟩ }
              let accessToken ← issue crates state principal device everyRepo now drawnJti
              return (.approved ⟨principal, device, accessToken, refreshToken, ACCESS_TTL⟩, state)
          | _, _ => .ok (.pending, state))

/-- Exchanges a refresh token for a new access token. -/
def refresh (refreshToken : Str) (now : UInt64) (draw : Str) (fault : Fault) :
    State web → Except ControlError AccessToken :=
  Store.read fault (fun state =>
    match state.sessions.get? (secret.hash crates refreshToken) with
    | none => .error (.unauthorized "refresh token is not valid")
    | some session =>
        if session.expiresAt ≤ now then .error (.unauthorized "refresh token has expired")
        else do
          let accessToken ← issue crates state session.principal session.device everyRepo now draw
          return ⟨accessToken, ACCESS_TTL⟩)

/-! ### Calls -/

/-- A call, with the bytes it draws. -/
inductive Call (web : WebAuthn) where
  | bootstrap (drawnToken drawnSeed : Str)
  | enrollStart (rp : web.Rp) (bearer challenge draw : Str)
  | enrollFinish (rp : web.Rp) (ceremony : Str) (credential : web.Created)
  | signinStart (rp : web.Rp) (challenge draw : Str)
  | signinFinish (rp : web.Rp) (ceremony : Str) (credential : web.Asserted) (draw : Str)
  | deviceStart (drawnCode drawnUser : Str)
  | deviceApprove (adminToken : Str) (userCode : List Char) (draw : Str)
  | deviceApproveAs (bearer : Str) (userCode : List Char) (draw : Str)
  | devicePoll (deviceCode drawnToken drawnJti : Str)
  | refresh (refreshToken draw : Str)

/-- What a call gives back. -/
inductive Answer (web : WebAuthn) where
  | done
  | adminToken (token : Str)
  | creation (ceremony : Str) (options : web.Creation)
  | request (ceremony : Str) (options : web.Request)
  | browser (session : BrowserSession)
  | started (start : DeviceStart)
  | poll (poll : Poll)
  | access (token : AccessToken)

/-- A call at a time, and where storage fails in it. -/
structure Input (web : WebAuthn) where
  now : UInt64
  fault : Fault
  call : Call web

/-- The answer of a call, from the value its function returns. -/
def answering {α : Type} (f : α → Answer web) (result : Except ControlError α × State web) :
    Except ControlError (Answer web) × State web := (result.1.map f, result.2)

def perform (x : Input web) (state : State web) : Except ControlError (Answer web) × State web :=
  match x.call with
  | .bootstrap drawnToken drawnSeed =>
      answering .adminToken (Store.update x.fault (bootstrap crates drawnToken drawnSeed) state)
  | .enrollStart rp bearer challenge draw =>
      answering (fun v => .creation v.1 v.2) (passkeyEnrollStart crates rp bearer x.now challenge draw x.fault state)
  | .enrollFinish rp ceremony credential =>
      answering (fun _ => .done) (passkeyEnrollFinish crates rp ceremony credential x.now x.fault state)
  | .signinStart rp challenge draw =>
      answering (fun v => .request v.1 v.2) (passkeySigninStart rp x.now challenge draw x.fault state)
  | .signinFinish rp ceremony credential draw =>
      answering .browser (passkeySigninFinish crates rp ceremony credential x.now draw x.fault state)
  | .deviceStart drawnCode drawnUser =>
      answering .started (deviceStart crates x.now drawnCode drawnUser x.fault state)
  | .deviceApprove adminToken userCode draw =>
      answering (fun _ => .done) (deviceApprove crates adminToken userCode x.now draw x.fault state)
  | .deviceApproveAs bearer userCode draw =>
      answering (fun _ => .done) (deviceApproveAs crates bearer userCode x.now draw x.fault state)
  | .devicePoll deviceCode drawnToken drawnJti =>
      answering .poll (devicePoll crates deviceCode x.now drawnToken drawnJti x.fault state)
  | .refresh refreshToken draw =>
      answering .access (refresh crates refreshToken x.now draw x.fault state, state)

/-- The document after a call. -/
def after (state : State web) (x : Input web) : State web := (perform crates x state).2

/-- The document after calls one after another, from an empty directory. -/
def run (l : List (Input web)) : State web := Trail.after (after crates) State.initial l

end Javelin.Control
