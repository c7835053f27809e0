import Javelin.SignIn

/-! # One-shot records

What a call can do is said once, by `of_perform`.  From it `ceremonies_after`, `deviceCodes_after`,
`sessions_after` and `browserSessions_after` say where the entries of each map come from, and `recorded` what
the maps remember of a whole run. -/

namespace Javelin.Control

open KeyedList Bytes Collaboration Identity

variable {web : WebAuthn} {Key : Type} (crates : Crates Key)

/-! ### What a call does -/

/-- The ceremony ID made of drawn bytes. -/
def ceremonyId (draw : Str) : Str := secret.id (text "cer_") draw

/-- The key of the device code made of drawn bytes. -/
def codeHash (draw : Str) : Str := secret.hash crates (secret.token crates [] draw)

/-- The bearer, the typed user code and the drawn bytes of an approval. -/
def Call.approval : Call web → Option (Str × List Char × Str)
  | .deviceApprove adminToken userCode draw => some (adminToken, userCode, draw)
  | .deviceApproveAs bearer userCode draw => some (bearer, userCode, draw)
  | _ => none

/-- The bearer is the admin token. -/
def IsAdmin (s : State web) (bearer : Str) : Prop :=
  ADMIN_PREFIX.isPrefixOf bearer = true ∧ secret.hash crates bearer = s.adminTokenHash ∧ s.initialized = true

/-- The bearer speaks for a principal: as the admin token, or as a browser sign-in that is live. -/
def Speaks (s : State web) (bearer : Str) (now : UInt64) (principal : Str) : Prop :=
  (IsAdmin crates s bearer ∧ principal = ADMIN_PRINCIPAL) ∨
    (BROWSER_PREFIX.isPrefixOf bearer = true ∧ browserPrincipal crates s bearer now = some principal)

/-- A user code names a device code: the first one with its hash. -/
def Names (s : State web) (userCode : List Char) (hash : Str) (record : DeviceRecord) : Prop :=
  ∃ userHash, userCodeHash crates userCode = .ok userHash ∧
    s.deviceCodes.findValue (fun record => decide (record.userHash = userHash)) = some (hash, record)

/-- A call that is answered, and the document it leaves. -/
inductive Effect (s : State web) : Input web → Answer web → State web → Prop where
  | bootstrap {now : UInt64} {drawnToken drawnSeed token seed hash : Str} :
      Effect s ⟨now, .none, .bootstrap drawnToken drawnSeed⟩ (.adminToken token)
        { s with signingSeed := seed, adminTokenHash := hash }
  | enrollStart {now : UInt64} {rp : web.Rp} {bearer challenge draw principal : Str} {options : web.Creation}
      {registration : web.Registration} (hwho : enroller crates s bearer now = .ok principal) :
      Effect s ⟨now, .none, .enrollStart rp bearer challenge draw⟩ (.creation (ceremonyId draw) options)
        (insertCeremony s (ceremonyId draw) now (.enroll principal registration))
  | enrollFinish {now : UInt64} {rp : web.Rp} {ceremony : Str} {credential : web.Created} {expiresAt : UInt64}
      {principal : Str} {registration : web.Registration} {passkey : web.Passkey}
      (hrecord : s.ceremonies.get? ceremony = some ⟨expiresAt, .enroll principal registration⟩)
      (hlive : now < expiresAt) :
      Effect s ⟨now, .none, .enrollFinish rp ceremony credential⟩ .done
        { s with
          ceremonies := s.ceremonies.erase ceremony
          passkeys := s.passkeys.insert (credentialKey crates (web.credentialId passkey)) ⟨principal, passkey⟩ }
  | signinStart {now : UInt64} {rp : web.Rp} {challenge draw : Str} {options : web.Request}
      {authentication : web.Authentication} :
      Effect s ⟨now, .none, .signinStart rp challenge draw⟩ (.request (ceremonyId draw) options)
        (insertCeremony s (ceremonyId draw) now (.signIn authentication))
  | signinFinish {now : UInt64} {rp : web.Rp} {ceremony draw token : Str} {credential : web.Asserted}
      {expiresAt : UInt64} {authentication : web.Authentication} {result : web.Result} {record : PasskeyRecord web}
      {passkeys : SortedMap Str (PasskeyRecord web)}
      (hrecord : s.ceremonies.get? ceremony = some ⟨expiresAt, .signIn authentication⟩) (hlive : now < expiresAt)
      (hverified : web.finishAuthentication rp credential authentication = some result)
      (hpasskey : s.passkeys.get? (credentialKey crates (web.resultId result)) = some record) :
      Effect s ⟨now, .none, .signinFinish rp ceremony credential draw⟩ (.browser ⟨token, BROWSER_TTL⟩)
        { s with
          ceremonies := s.ceremonies.erase ceremony
          passkeys := passkeys
          browserSessions := s.browserSessions.insert (secret.hash crates token)
            ⟨record.principal, now + BROWSER_TTL⟩ }
  | deviceStart {now : UInt64} {drawnCode drawnUser userCode userHash : Str} :
      Effect s ⟨now, .none, .deviceStart drawnCode drawnUser⟩
        (.started ⟨secret.token crates [] drawnCode, userCode, now + DEVICE_CODE_TTL, POLL_INTERVAL⟩)
        { s with
          deviceCodes := (s.deviceCodes.retain (fun record => decide (now < record.expiresAt))).insert
            (codeHash crates drawnCode) ⟨userHash, now + DEVICE_CODE_TTL, none, none, false⟩ }
  | approve {now : UInt64} {call : Call web} {bearer draw principal hash : Str} {userCode : List Char}
      {record : DeviceRecord} (hcall : call.approval = some (bearer, userCode, draw))
      (hspeaks : Speaks crates s bearer now principal) (hnames : Names crates s userCode hash record)
      (hpending : record.approvedBy = none) (hlive : now < record.expiresAt) :
      Effect s ⟨now, .none, call⟩ .done
        { s with
          deviceCodes := s.deviceCodes.insert hash
            { record with approvedBy := some principal, device := some (secret.id (text "dev_") draw) } }
  | approveAgain {now : UInt64} {call : Call web} {bearer draw principal hash : Str} {userCode : List Char}
      {record : DeviceRecord} (hcall : call.approval = some (bearer, userCode, draw))
      (hspeaks : Speaks crates s bearer now principal) (hnames : Names crates s userCode hash record)
      (happroved : record.approvedBy ≠ none) :
      Effect s ⟨now, .none, call⟩ .done s
  | pollPending {now : UInt64} {deviceCode drawnToken drawnJti : Str} {record : DeviceRecord}
      (hrecord : s.deviceCodes.get? (secret.hash crates deviceCode) = some record) (hlive : now < record.expiresAt) :
      Effect s ⟨now, .none, .devicePoll deviceCode drawnToken drawnJti⟩ (.poll .pending) s
  | pollApproved {now : UInt64} {deviceCode drawnToken drawnJti : Str} {record : DeviceRecord} {session : Session}
      (hrecord : s.deviceCodes.get? (secret.hash crates deviceCode) = some record) (hlive : now < record.expiresAt)
      (hredeemed : record.redeemed = false) (happroved : record.approvedBy = some session.principal)
      (hdevice : record.device = some session.device) :
      Effect s ⟨now, .none, .devicePoll deviceCode drawnToken drawnJti⟩ (.poll (.approved session))
        { s with
          deviceCodes := s.deviceCodes.insert (secret.hash crates deviceCode) { record with redeemed := true }
          sessions := s.sessions.insert (secret.hash crates session.refreshToken)
            ⟨session.principal, session.device, now + REFRESH_TTL⟩ }
  | refresh {now : UInt64} {fault : Fault} {refreshToken draw : Str} {session : SessionRecord} {token : AccessToken}
      (hsession : s.sessions.get? (secret.hash crates refreshToken) = some session)
      (hlive : now < session.expiresAt) :
      Effect s ⟨now, fault, .refresh refreshToken draw⟩ (.access token) s

variable {crates} {s : State web} {x : Input web} {answer : Answer web}

theorem of_elim_error {ε α : Type} {o : Option α} {e : ε} {a : α}
    (h : o.elim (Except.error e) Except.ok = Except.ok a) : o = some a := by
  cases o with
  | none => cases h
  | some b =>
      cases h
      rfl

theorem of_takeCeremony {ceremony : Str} {now : UInt64} {step : Ceremony web} {s' : State web}
    (h : takeCeremony s ceremony now = .ok (step, s')) :
    ∃ expiresAt, s.ceremonies.get? ceremony = some ⟨expiresAt, step⟩ ∧ now < expiresAt ∧
      s' = { s with ceremonies := s.ceremonies.erase ceremony } := by
  unfold takeCeremony at h
  cases hrecord : s.ceremonies.get? ceremony with
  | none => simp [hrecord] at h
  | some record =>
      rw [hrecord] at h
      simp only at h
      split at h
      · cases h
      · rename_i hlive
        cases h
        exact ⟨record.expiresAt, rfl, UInt64.not_le.mp hlive, rfl⟩

theorem of_approve {principal userHash draw : Str} {now : UInt64} {s' : State web}
    (h : approve s principal userHash now draw = .ok ((), s')) :
    ∃ hash record, s.deviceCodes.findValue (fun record => decide (record.userHash = userHash)) = some (hash, record) ∧
      ((record.approvedBy = none ∧ now < record.expiresAt ∧
          s' = { s with
            deviceCodes := s.deviceCodes.insert hash
              { record with approvedBy := some principal, device := some (secret.id (text "dev_") draw) } }) ∨
        (record.approvedBy ≠ none ∧ s' = s)) := by
  unfold approve at h
  cases hfound : s.deviceCodes.findValue (fun record => decide (record.userHash = userHash)) with
  | none => simp [hfound] at h
  | some found =>
      obtain ⟨hash, record⟩ := found
      refine ⟨hash, record, rfl, ?_⟩
      rw [hfound] at h
      simp only at h
      split at h
      · cases h
      · rename_i hlive
        split at h
        · rename_i hpending
          have hnow : now < record.expiresAt := UInt64.not_le.mp (fun hle => hlive ⟨hle, hpending⟩)
          cases h
          exact Or.inl ⟨Option.isNone_iff_eq_none.mp hpending, hnow, rfl⟩
        · rename_i happroved
          cases h
          exact Or.inr ⟨fun hnone => happroved (by rw [hnone]; rfl), rfl⟩

theorem of_answering {α : Type} {f : α → Answer web} {result : Except ControlError α × State web}
    (h : (answering f result).1 = .ok answer) : ∃ value, result.1 = .ok value ∧ answer = f value := by
  unfold answering at h
  cases hr : result.1 with
  | error e =>
      rw [hr] at h
      cases h
  | ok value =>
      rw [hr] at h
      cases h
      exact ⟨value, rfl, rfl⟩

theorem of_enrollStart {rp : web.Rp} {bearer challenge draw : Str} {now : UInt64} {fault : Fault}
    {value : Str × web.Creation}
    (h : (passkeyEnrollStart crates rp bearer now challenge draw fault s).1 = .ok value) :
    Effect crates s ⟨now, fault, .enrollStart rp bearer challenge draw⟩ (.creation value.1 value.2)
      (passkeyEnrollStart crates rp bearer now challenge draw fault s).2 := by
  obtain ⟨rfl, h⟩ := Store.of_update h
  obtain ⟨principal, hwho, h⟩ := except_bind_eq_ok.mp h
  obtain ⟨⟨options, registration⟩, _, h⟩ := except_bind_eq_ok.mp h
  obtain ⟨hvalue, hs⟩ := Prod.mk.inj (Except.ok.inj h)
  unfold passkeyEnrollStart
  rw [← hvalue, ← hs]
  exact .enrollStart hwho

theorem of_enrollFinish {rp : web.Rp} {ceremony : Str} {credential : web.Created} {now : UInt64} {fault : Fault}
    {value : Unit} (h : (passkeyEnrollFinish crates rp ceremony credential now fault s).1 = .ok value) :
    Effect crates s ⟨now, fault, .enrollFinish rp ceremony credential⟩ .done
      (passkeyEnrollFinish crates rp ceremony credential now fault s).2 := by
  obtain ⟨rfl, h⟩ := Store.of_update h
  obtain ⟨⟨step, s'⟩, htake, h⟩ := except_bind_eq_ok.mp h
  obtain ⟨expiresAt, hrecord, hlive, rfl⟩ := of_takeCeremony htake
  cases step with
  | signIn authentication => cases h
  | enroll principal registration =>
      obtain ⟨passkey, _, h⟩ := except_bind_eq_ok.mp h
      simp only at h
      split at h
      · cases h
      · obtain ⟨_, hs⟩ := Prod.mk.inj (Except.ok.inj h)
        unfold passkeyEnrollFinish
        rw [← hs]
        exact .enrollFinish hrecord hlive

theorem of_signinStart {rp : web.Rp} {challenge draw : Str} {now : UInt64} {fault : Fault}
    {value : Str × web.Request} (h : (passkeySigninStart rp now challenge draw fault s).1 = .ok value) :
    Effect crates s ⟨now, fault, .signinStart rp challenge draw⟩ (.request value.1 value.2)
      (passkeySigninStart rp now challenge draw fault s).2 := by
  obtain ⟨rfl, h⟩ := Store.of_update h
  obtain ⟨_, _, h⟩ := except_bind_eq_ok.mp h
  split at h
  · cases h
  · obtain ⟨⟨options, authentication⟩, _, h⟩ := except_bind_eq_ok.mp h
    obtain ⟨hvalue, hs⟩ := Prod.mk.inj (Except.ok.inj h)
    unfold passkeySigninStart
    rw [← hvalue, ← hs]
    exact .signinStart

theorem of_signinFinish {rp : web.Rp} {ceremony draw : Str} {credential : web.Asserted} {now : UInt64}
    {fault : Fault} {value : BrowserSession}
    (h : (passkeySigninFinish crates rp ceremony credential now draw fault s).1 = .ok value) :
    Effect crates s ⟨now, fault, .signinFinish rp ceremony credential draw⟩ (.browser value)
      (passkeySigninFinish crates rp ceremony credential now draw fault s).2 := by
  obtain ⟨rfl, h⟩ := Store.of_update h
  obtain ⟨⟨step, s'⟩, htake, h⟩ := except_bind_eq_ok.mp h
  obtain ⟨expiresAt, hrecord, hlive, rfl⟩ := of_takeCeremony htake
  cases step with
  | enroll principal registration => cases h
  | signIn authentication =>
      obtain ⟨result, hverified, h⟩ := except_bind_eq_ok.mp h
      obtain ⟨record, hpasskey, h⟩ := except_bind_eq_ok.mp h
      obtain ⟨hvalue, hs⟩ := Prod.mk.inj (Except.ok.inj h)
      unfold passkeySigninFinish
      rw [← hvalue, ← hs]
      exact .signinFinish hrecord hlive (of_elim_error hverified) (of_elim_error hpasskey)

theorem of_deviceStart {drawnCode drawnUser : Str} {now : UInt64} {fault : Fault} {value : DeviceStart}
    (h : (deviceStart crates now drawnCode drawnUser fault s).1 = .ok value) :
    Effect crates s ⟨now, fault, .deviceStart drawnCode drawnUser⟩ (.started value)
      (deviceStart crates now drawnCode drawnUser fault s).2 := by
  obtain ⟨rfl, h⟩ := Store.of_update h
  obtain ⟨_, _, h⟩ := except_bind_eq_ok.mp h
  obtain ⟨hvalue, hs⟩ := Prod.mk.inj (Except.ok.inj h)
  unfold deviceStart
  rw [← hvalue, ← hs]
  exact .deviceStart

/-- What `approve` does, for whoever the bearer speaks for. -/
theorem effect_of_approve {call : Call web} {bearer userHash draw principal : Str} {userCode : List Char}
    {now : UInt64} {s' : State web} (hcall : call.approval = some (bearer, userCode, draw))
    (hcode : userCodeHash crates userCode = .ok userHash) (hspeaks : Speaks crates s bearer now principal)
    (h : approve s principal userHash now draw = .ok ((), s')) : Effect crates s ⟨now, .none, call⟩ .done s' := by
  obtain ⟨hash, record, hfound, h⟩ := of_approve h
  have hnames : Names crates s userCode hash record := ⟨userHash, hcode, hfound⟩
  cases h with
  | inl h =>
      obtain ⟨hpending, hlive, rfl⟩ := h
      exact .approve hcall hspeaks hnames hpending hlive
  | inr h =>
      obtain ⟨happroved, rfl⟩ := h
      exact .approveAgain hcall hspeaks hnames happroved

theorem of_deviceApprove {call : Call web} {adminToken draw : Str} {userCode : List Char} {now : UInt64}
    {fault : Fault} {value : Unit} (hcall : call.approval = some (adminToken, userCode, draw))
    (h : (deviceApprove crates adminToken userCode now draw fault s).1 = .ok value) :
    Effect crates s ⟨now, fault, call⟩ .done (deviceApprove crates adminToken userCode now draw fault s).2 := by
  unfold deviceApprove at h ⊢
  cases hcode : userCodeHash crates userCode with
  | error e => simp [hcode] at h
  | ok userHash =>
      rw [hcode] at h
      obtain ⟨rfl, h⟩ := Store.of_update h
      obtain ⟨caller, hcaller, h⟩ := except_bind_eq_ok.mp h
      split at h
      · rename_i hadmin
        obtain ⟨hprincipal, hmark, hhash, hinit⟩ := of_authenticate_admin crates hcaller hadmin
        exact effect_of_approve hcall hcode (Or.inl ⟨⟨hmark, hhash, hinit⟩, hprincipal⟩) h
      · cases h

theorem of_deviceApproveAs {bearer draw : Str} {userCode : List Char} {now : UInt64} {fault : Fault} {value : Unit}
    (h : (deviceApproveAs crates bearer userCode now draw fault s).1 = .ok value) :
    Effect crates s ⟨now, fault, .deviceApproveAs bearer userCode draw⟩ .done
      (deviceApproveAs crates bearer userCode now draw fault s).2 := by
  unfold deviceApproveAs at h ⊢
  split at h
  · rename_i hmark
    rw [if_pos hmark]
    exact of_deviceApprove rfl h
  · rename_i hmark
    rw [if_neg hmark]
    cases hcode : userCodeHash crates userCode with
    | error e => simp [hcode] at h
    | ok userHash =>
        rw [hcode] at h
        obtain ⟨rfl, h⟩ := Store.of_update h
        obtain ⟨principal, hwho, h⟩ := except_bind_eq_ok.mp h
        have hspeaks : Speaks crates s bearer now principal := Or.inr ⟨by simpa using hmark, of_elim_error hwho⟩
        exact effect_of_approve rfl hcode hspeaks h

theorem of_devicePoll {deviceCode drawnToken drawnJti : Str} {now : UInt64} {fault : Fault} {value : Poll}
    (h : (devicePoll crates deviceCode now drawnToken drawnJti fault s).1 = .ok value) :
    Effect crates s ⟨now, fault, .devicePoll deviceCode drawnToken drawnJti⟩ (.poll value)
      (devicePoll crates deviceCode now drawnToken drawnJti fault s).2 := by
  unfold devicePoll at h ⊢
  obtain ⟨rfl, h⟩ := Store.of_update h
  generalize (Store.update _ _ s).2 = s' at h ⊢
  cases hrecord : s.deviceCodes.get? (secret.hash crates deviceCode) with
  | none => simp [hrecord] at h
  | some record =>
      simp only [hrecord] at h
      split at h
      · cases h
      rename_i hredeemed
      split at h
      · cases h
      rename_i hexpired
      have hlive := UInt64.not_le.mp hexpired
      split at h
      · rename_i principal device happroved hdevice
        obtain ⟨accessToken, _, h⟩ := except_bind_eq_ok.mp h
        obtain ⟨rfl, rfl⟩ := Prod.mk.inj (Except.ok.inj h)
        exact .pollApproved hrecord hlive (by simpa using hredeemed) happroved hdevice
      · obtain ⟨rfl, rfl⟩ := Prod.mk.inj (Except.ok.inj h)
        exact .pollPending hrecord hlive

theorem of_refresh {refreshToken draw : Str} {now : UInt64} {fault : Fault} {value : AccessToken}
    (h : refresh crates refreshToken now draw fault s = .ok value) :
    Effect crates s ⟨now, fault, .refresh refreshToken draw⟩ (.access value) s := by
  have h := Store.of_read h
  cases hsession : s.sessions.get? (secret.hash crates refreshToken) with
  | none => simp [hsession] at h
  | some session =>
      simp only [hsession] at h
      split at h
      · cases h
      · rename_i hexpired
        exact .refresh hsession (UInt64.not_le.mp hexpired)

/-- A call that is answered has its effect. -/
theorem of_perform (h : (perform crates x s).1 = .ok answer) : Effect crates s x answer (after crates s x) := by
  obtain ⟨now, fault, call⟩ := x
  cases call with
  | bootstrap drawnToken drawnSeed =>
      obtain ⟨token, hvalue, rfl⟩ := of_answering h
      obtain ⟨rfl, hvalue⟩ := Store.of_update hvalue
      change Effect crates s _ _ (Store.update .none (Control.bootstrap crates drawnToken drawnSeed) s).2
      generalize (Store.update .none (Control.bootstrap crates drawnToken drawnSeed) s).2 = s' at hvalue ⊢
      unfold Control.bootstrap at hvalue
      split at hvalue
      · cases hvalue
      · obtain ⟨_, rfl⟩ := Prod.mk.inj (Except.ok.inj hvalue)
        exact .bootstrap
  | enrollStart rp bearer challenge draw =>
      obtain ⟨value, hvalue, rfl⟩ := of_answering h
      exact of_enrollStart hvalue
  | enrollFinish rp ceremony credential =>
      obtain ⟨value, hvalue, rfl⟩ := of_answering h
      exact of_enrollFinish hvalue
  | signinStart rp challenge draw =>
      obtain ⟨value, hvalue, rfl⟩ := of_answering h
      exact of_signinStart hvalue
  | signinFinish rp ceremony credential draw =>
      obtain ⟨value, hvalue, rfl⟩ := of_answering h
      exact of_signinFinish hvalue
  | deviceStart drawnCode drawnUser =>
      obtain ⟨value, hvalue, rfl⟩ := of_answering h
      exact of_deviceStart hvalue
  | deviceApprove adminToken userCode draw =>
      obtain ⟨value, hvalue, rfl⟩ := of_answering h
      exact of_deviceApprove rfl hvalue
  | deviceApproveAs bearer userCode draw =>
      obtain ⟨value, hvalue, rfl⟩ := of_answering h
      exact of_deviceApproveAs hvalue
  | devicePoll deviceCode drawnToken drawnJti =>
      obtain ⟨value, hvalue, rfl⟩ := of_answering h
      exact of_devicePoll hvalue
  | refresh refreshToken draw =>
      obtain ⟨value, hvalue, rfl⟩ := of_answering h
      exact of_refresh hvalue

theorem answering_error {α : Type} {f : α → Answer web} {fault : Fault}
    {change : State web → Except ControlError (α × State web)} {e : ControlError}
    (h : (answering f (Store.update fault change s)).1 = .error e) : (Store.update fault change s).2 = s := by
  cases Store.update_cases fault change s with
  | inl hkept =>
      obtain ⟨_, hu⟩ := hkept
      rw [hu]
  | inr hchanged =>
      obtain ⟨value, next, _, _, hu⟩ := hchanged
      rw [hu] at h
      cases h

/-- A call that fails keeps the document. -/
theorem after_of_error {e : ControlError} (h : (perform crates x s).1 = .error e) : after crates s x = s := by
  obtain ⟨now, fault, call⟩ := x
  have happrove : ∀ bearer userCode draw,
      (answering (fun _ => Answer.done) (deviceApprove crates bearer userCode now draw fault s)).1 = .error e →
      (deviceApprove crates bearer userCode now draw fault s).2 = s := by
    intro bearer userCode draw h
    unfold deviceApprove at h ⊢
    cases hcode : userCodeHash crates userCode with
    | error _ => rfl
    | ok userHash =>
        rw [hcode] at h
        exact answering_error h
  cases call with
  | deviceApprove adminToken userCode draw => exact happrove adminToken userCode draw h
  | deviceApproveAs bearer userCode draw =>
      change (deviceApproveAs crates bearer userCode now draw fault s).2 = s
      change (answering _ (deviceApproveAs crates bearer userCode now draw fault s)).1 = .error e at h
      unfold deviceApproveAs at h ⊢
      split at h
      · rename_i hmark
        rw [if_pos hmark]
        exact happrove bearer userCode draw h
      · rename_i hmark
        rw [if_neg hmark]
        cases hcode : userCodeHash crates userCode with
        | error _ => rfl
        | ok userHash =>
            rw [hcode] at h
            exact answering_error h
  | refresh refreshToken draw => rfl
  | _ => exact answering_error h

/-- A call keeps the document, or it is answered and has its effect. -/
theorem after_cases (crates : Crates Key) (s : State web) (x : Input web) :
    after crates s x = s ∨ ∃ answer, (perform crates x s).1 = .ok answer ∧ Effect crates s x answer (after crates s x) := by
  cases h : (perform crates x s).1 with
  | error e => exact Or.inl (after_of_error h)
  | ok answer => exact Or.inr ⟨answer, rfl, of_perform h⟩

/-! ### What happened -/

variable (crates)

/-- A call starts a ceremony. -/
def Begins (ceremony : Str) (start : UInt64) (s : State web) (x : Input web) : Prop :=
  x.now = start ∧ ((∃ options, (perform crates x s).1 = .ok (.creation ceremony options)) ∨
    ∃ options, (perform crates x s).1 = .ok (.request ceremony options))

/-- A finish call takes its ceremony and goes on to verify the response. -/
def Reaches (ceremony : Str) (s : State web) (x : Input web) : Prop :=
  (∀ detail, x.fault ≠ .load detail) ∧
    match x.call with
    | .enrollFinish _ id _ =>
        id = ceremony ∧ ∃ principal registration s', takeCeremony s id x.now = .ok (.enroll principal registration, s')
    | .signinFinish _ id _ _ =>
        id = ceremony ∧ ∃ authentication s', takeCeremony s id x.now = .ok (.signIn authentication, s')
    | _ => False

/-- The response verifies against the ceremony, for a passkey that is not enrolled yet or, in a sign-in, that
is enrolled; and the document is saved. -/
def Completes (s : State web) (x : Input web) : Prop :=
  x.fault = .none ∧
    match x.call with
    | .enrollFinish rp id credential =>
        ∃ expiresAt principal registration passkey,
          s.ceremonies.get? id = some ⟨expiresAt, .enroll principal registration⟩ ∧
          web.finishRegistration rp credential registration = some passkey ∧
          s.passkeys.get? (credentialKey crates (web.credentialId passkey)) = none
    | .signinFinish rp id credential _ =>
        ∃ expiresAt authentication result,
          s.ceremonies.get? id = some ⟨expiresAt, .signIn authentication⟩ ∧
          web.finishAuthentication rp credential authentication = some result ∧
          (s.passkeys.get? (credentialKey crates (web.resultId result))).isSome = true
    | _ => True

/-- A device code is started. -/
def Starts (hash : Str) (start : UInt64) (s : State web) (x : Input web) : Prop :=
  x.now = start ∧ ∃ started, (perform crates x s).1 = .ok (.started started) ∧
    secret.hash crates started.deviceCode = hash

/-- A device code is approved, perhaps again, by a bearer that speaks for a principal. -/
def Approval (hash principal : Str) (s : State web) (x : Input web) : Prop :=
  (perform crates x s).1 = .ok .done ∧ ∃ bearer userCode draw record, x.call.approval = some (bearer, userCode, draw) ∧
    Speaks crates s bearer x.now principal ∧ Names crates s userCode hash record

/-- A poll of a device code gives a session. -/
def Redeems (hash : Str) (session : Session) (s : State web) (x : Input web) : Prop :=
  (perform crates x s).1 = .ok (.poll (.approved session)) ∧ ∃ deviceCode drawnToken drawnJti,
    x.call = .devicePoll deviceCode drawnToken drawnJti ∧ secret.hash crates deviceCode = hash

/-- A verified passkey of a principal gives a browser session. -/
def SignsIn (hash principal : Str) (start : UInt64) (s : State web) (x : Input web) : Prop :=
  x.now = start ∧ ∃ session rp id credential draw expiresAt authentication result record,
    (perform crates x s).1 = .ok (.browser session) ∧ secret.hash crates session.token = hash ∧
    x.call = .signinFinish rp id credential draw ∧
    s.ceremonies.get? id = some ⟨expiresAt, .signIn authentication⟩ ∧
    web.finishAuthentication rp credential authentication = some result ∧
    s.passkeys.get? (credentialKey crates (web.resultId result)) = some record ∧ record.principal = principal

variable {crates}

/-! ### Where records come from -/

theorem get?_insertCeremony {c ceremony : Str} {now : UInt64} {step : Ceremony web} {record : CeremonyRecord web}
    (h : (insertCeremony s ceremony now step).ceremonies.get? c = some record) :
    s.ceremonies.get? c = some record ∨ (ceremony = c ∧ record.expiresAt = now + CEREMONY_TTL) := by
  unfold insertCeremony at h
  rw [SortedMap.get?_insert] at h
  split at h
  · rename_i hc
    cases h
    exact Or.inr ⟨hc, rfl⟩
  · exact Or.inl (SortedMap.get?_retain.mp h).1

theorem ceremonies_after {c : Str} {record : CeremonyRecord web}
    (h : (after crates s x).ceremonies.get? c = some record) :
    s.ceremonies.get? c = some record ∨
      (Begins crates c x.now s x ∧ record.expiresAt = x.now + CEREMONY_TTL) := by
  have herased : ∀ id : Str, (s.ceremonies.erase id).get? c = some record → s.ceremonies.get? c = some record := by
    intro id h
    rw [SortedMap.get?_erase] at h
    split at h
    · cases h
    · exact h
  cases after_cases crates s x with
  | inl hkept =>
      rw [hkept] at h
      exact Or.inl h
  | inr hanswered =>
      obtain ⟨answer, hanswer, heffect⟩ := hanswered
      generalize after crates s x = s' at h heffect
      cases heffect with
      | enrollStart _ =>
          cases get?_insertCeremony h with
          | inl h => exact Or.inl h
          | inr h =>
              obtain ⟨rfl, hexpires⟩ := h
              exact Or.inr ⟨⟨rfl, Or.inl ⟨_, hanswer⟩⟩, hexpires⟩
      | signinStart =>
          cases get?_insertCeremony h with
          | inl h => exact Or.inl h
          | inr h =>
              obtain ⟨rfl, hexpires⟩ := h
              exact Or.inr ⟨⟨rfl, Or.inr ⟨_, hanswer⟩⟩, hexpires⟩
      | enrollFinish _ _ => exact Or.inl (herased _ h)
      | signinFinish _ _ _ _ => exact Or.inl (herased _ h)
      | _ => exact Or.inl h

theorem browserSessions_after {hash : Str} {record : BrowserRecord}
    (h : (after crates s x).browserSessions.get? hash = some record) :
    s.browserSessions.get? hash = some record ∨
      (SignsIn crates hash record.principal x.now s x ∧ record.expiresAt = x.now + BROWSER_TTL) := by
  cases after_cases crates s x with
  | inl hkept =>
      rw [hkept] at h
      exact Or.inl h
  | inr hanswered =>
      obtain ⟨answer, hanswer, heffect⟩ := hanswered
      generalize after crates s x = s' at h heffect
      cases heffect with
      | signinFinish hrecord _ hverified hpasskey =>
          rw [SortedMap.get?_insert] at h
          split at h
          · rename_i hhash
            cases h
            exact Or.inr ⟨⟨rfl, _, _, _, _, _, _, _, _, _, hanswer, hhash, rfl, hrecord, hverified, hpasskey, rfl⟩, rfl⟩
          · exact Or.inl h
      | _ => exact Or.inl h

theorem sessions_after {hash : Str} {record : SessionRecord}
    (h : (after crates s x).sessions.get? hash = some record) :
    s.sessions.get? hash = some record ∨
      ∃ code session, Redeems crates code session s x ∧ secret.hash crates session.refreshToken = hash ∧
        record = ⟨session.principal, session.device, x.now + REFRESH_TTL⟩ := by
  cases after_cases crates s x with
  | inl hkept =>
      rw [hkept] at h
      exact Or.inl h
  | inr hanswered =>
      obtain ⟨answer, hanswer, heffect⟩ := hanswered
      generalize after crates s x = s' at h heffect
      cases heffect with
      | pollApproved _ _ _ _ _ =>
          rw [SortedMap.get?_insert] at h
          split at h
          · rename_i hhash
            cases h
            exact Or.inr ⟨_, _, ⟨hanswer, _, _, _, rfl, rfl⟩, hhash, rfl⟩
          · exact Or.inl h
      | _ => exact Or.inl h

/-- A device code's entry is an old one, or it was started, approved for the first time or redeemed just now. -/
theorem deviceCodes_after {hash : Str} {record : DeviceRecord}
    (h : (after crates s x).deviceCodes.get? hash = some record) :
    s.deviceCodes.get? hash = some record ∨
      (Starts crates hash x.now s x ∧ record.expiresAt = x.now + DEVICE_CODE_TTL ∧ record.approvedBy = none) ∨
      (∃ old principal, s.deviceCodes.get? hash = some old ∧ old.approvedBy = none ∧ x.now < old.expiresAt ∧
        Approval crates hash principal s x ∧ record.approvedBy = some principal ∧
        record.expiresAt = old.expiresAt ∧ record.redeemed = old.redeemed) ∨
      ∃ old, s.deviceCodes.get? hash = some old ∧ record = { old with redeemed := true } := by
  cases after_cases crates s x with
  | inl hkept =>
      rw [hkept] at h
      exact Or.inl h
  | inr hanswered =>
      obtain ⟨answer, hanswer, heffect⟩ := hanswered
      generalize after crates s x = s' at h heffect
      cases heffect with
      | deviceStart =>
          rw [SortedMap.get?_insert] at h
          split at h
          · rename_i hhash
            cases h
            exact Or.inr (Or.inl ⟨⟨rfl, _, hanswer, hhash⟩, rfl, rfl⟩)
          · exact Or.inl (SortedMap.get?_retain.mp h).1
      | approve hcall hspeaks hnames hpending hlive =>
          rw [SortedMap.get?_insert] at h
          split at h
          · rename_i hhash
            subst hhash
            cases h
            have hold := (SortedMap.get?_of_findValue hnames.choose_spec.2).1
            exact Or.inr (Or.inr (Or.inl ⟨_, _, hold, hpending, hlive,
              ⟨hanswer, _, _, _, _, hcall, hspeaks, hnames⟩, rfl, rfl, rfl⟩))
          · exact Or.inl h
      | pollApproved hrecord _ _ _ _ =>
          rw [SortedMap.get?_insert] at h
          split at h
          · rename_i hhash
            subst hhash
            cases h
            exact Or.inr (Or.inr (Or.inr ⟨_, hrecord, rfl⟩))
          · exact Or.inl h
      | _ => exact Or.inl h

theorem Names.eq {userCode : List Char} {hash hash' : Str} {record record' : DeviceRecord}
    (h : Names crates s userCode hash record) (h' : Names crates s userCode hash' record') :
    hash = hash' ∧ record = record' := by
  obtain ⟨userHash, hcode, hfound⟩ := h
  obtain ⟨userHash', hcode', hfound'⟩ := h'
  obtain rfl := Except.ok.inj (hcode.symm.trans hcode')
  exact Prod.mk.inj (Option.some.inj (hfound.symm.trans hfound'))

theorem Approval.after {hash principal : Str} (h : Approval crates hash principal s x) :
    (∃ old, s.deviceCodes.get? hash = some old) ∧
      ∃ record, (after crates s x).deviceCodes.get? hash = some record ∧ record.approvedBy ≠ none := by
  obtain ⟨hanswer, bearer, userCode, draw, old, hcall, hspeaks, hnames⟩ := h
  have hold := (SortedMap.get?_of_findValue hnames.choose_spec.2).1
  refine ⟨⟨old, hold⟩, ?_⟩
  have heffect := of_perform hanswer
  generalize Control.after crates s x = s' at heffect
  cases heffect with
  | enrollFinish _ _ => cases hcall
  | approve hcall' _ hnames' _ _ =>
      simp only at hcall
      rw [hcall'] at hcall
      cases hcall
      obtain ⟨rfl, rfl⟩ := hnames.eq hnames'
      exact ⟨_, by rw [SortedMap.get?_insert, if_pos rfl], by simp⟩
  | approveAgain hcall' _ hnames' happroved =>
      simp only at hcall
      rw [hcall'] at hcall
      cases hcall
      obtain ⟨rfl, rfl⟩ := hnames.eq hnames'
      exact ⟨old, hold, happroved⟩

/-- A code is redeemed once it is approved, before it expires; then it is marked. -/
theorem Redeems.after {hash : Str} {session : Session} (h : Redeems crates hash session s x) :
    ∃ old, s.deviceCodes.get? hash = some old ∧ x.now < old.expiresAt ∧ old.redeemed = false ∧
      old.approvedBy = some session.principal ∧
      ∃ record, (after crates s x).deviceCodes.get? hash = some record ∧ record.redeemed = true := by
  obtain ⟨hanswer, deviceCode, drawnToken, drawnJti, hcall, rfl⟩ := h
  have heffect := of_perform hanswer
  generalize Control.after crates s x = s' at heffect
  cases heffect with
  | pollApproved hrecord hlive hredeemed happroved _ =>
      cases hcall
      exact ⟨_, hrecord, hlive, hredeemed, happroved, _, by rw [SortedMap.get?_insert, if_pos rfl], rfl⟩

/-- A call that reaches verification finds its ceremony, before it expires. -/
theorem Reaches.record {c : Str} (h : Reaches c s x) :
    ∃ record, s.ceremonies.get? c = some record ∧ x.now < record.expiresAt := by
  obtain ⟨_, h⟩ := h
  split at h
  · obtain ⟨rfl, principal, registration, s', htake⟩ := h
    obtain ⟨expiresAt, hrecord, hlive, _⟩ := of_takeCeremony htake
    exact ⟨_, hrecord, hlive⟩
  · obtain ⟨rfl, authentication, s', htake⟩ := h
    obtain ⟨expiresAt, hrecord, hlive, _⟩ := of_takeCeremony htake
    exact ⟨_, hrecord, hlive⟩
  · cases h

/-- A call that reaches verification and completes spends its ceremony. -/
theorem Reaches.spent {c : Str} (h : Reaches c s x) (hcompletes : Completes crates s x) :
    (after crates s x).ceremonies.get? c = none := by
  obtain ⟨now, fault, call⟩ := x
  obtain ⟨_, h⟩ := h
  obtain ⟨rfl, hcompletes⟩ := hcompletes
  have herased : ∀ answer, (perform crates ⟨now, .none, call⟩ s).1 = .ok answer →
      (∃ rp credential, call = .enrollFinish rp c credential) ∨
        (∃ rp credential draw, call = .signinFinish rp c credential draw) →
      (after crates s ⟨now, .none, call⟩).ceremonies.get? c = none := by
    intro answer hanswer hcall
    have heffect := of_perform hanswer
    generalize after crates s ⟨now, .none, call⟩ = s' at heffect
    cases hcall with
    | inl hcall =>
        obtain ⟨rp, credential, rfl⟩ := hcall
        cases heffect with
        | enrollFinish _ _ => rw [SortedMap.get?_erase, if_pos rfl]
        | approve hcall _ _ _ _ => cases hcall
        | approveAgain hcall _ _ _ => cases hcall
    | inr hcall =>
        obtain ⟨rp, credential, draw, rfl⟩ := hcall
        cases heffect with
        | signinFinish _ _ _ _ => rw [SortedMap.get?_erase, if_pos rfl]
        | approve hcall _ _ _ _ => cases hcall
        | approveAgain hcall _ _ _ => cases hcall
  cases call with
  | enrollFinish rp id credential =>
      obtain ⟨rfl, principal, registration, s', htake⟩ := h
      obtain ⟨expiresAt, principal', registration', passkey, hrecord, hverified, hnew⟩ := hcompletes
      obtain ⟨_, hrecord', _, rfl⟩ := of_takeCeremony htake
      obtain ⟨rfl, hstep⟩ := CeremonyRecord.mk.inj (Option.some.inj (hrecord.symm.trans hrecord'))
      cases hstep
      refine herased .done ?_ (Or.inl ⟨rp, credential, rfl⟩)
      simp only [perform, answering, passkeyEnrollFinish, Store.update, htake, except_bind_of_ok rfl, hverified,
        Option.elim_some, hnew, Option.isSome_none, Bool.false_eq_true, if_false]
      rfl
  | signinFinish rp id credential draw =>
      obtain ⟨rfl, authentication, s', htake⟩ := h
      obtain ⟨expiresAt, authentication', result, hrecord, hverified, hknown⟩ := hcompletes
      obtain ⟨_, hrecord', _, rfl⟩ := of_takeCeremony htake
      obtain ⟨rfl, hstep⟩ := CeremonyRecord.mk.inj (Option.some.inj (hrecord.symm.trans hrecord'))
      cases hstep
      obtain ⟨record, hpasskey⟩ := Option.isSome_iff_exists.mp hknown
      refine herased (.browser ⟨secret.token crates BROWSER_PREFIX draw, BROWSER_TTL⟩) ?_
        (Or.inr ⟨rp, credential, draw, rfl⟩)
      simp only [perform, answering, passkeySigninFinish, Store.update, htake, except_bind_of_ok rfl, hverified,
        Option.elim_some, hpasskey]
      rfl
  | _ => cases h

end Javelin.Control
