import Javelin.OneShot

/-! # Sign-in over whole runs

`recorded` says what the control plane's maps remember of a run: every ceremony, device code, session and
browser session stands there because of a call of the run, with the expiry that call gave it, and a device
code's approval and redemption are as the run had them.  `oneShot` draws from it that device codes give one
session each, for their first approver, and that nothing is used past its expiry.

A finish call saves the document only when it succeeds, so a response that does not verify leaves its ceremony
to be tried again (`ceremony_tried_twice`); a ceremony is verified once where every response that is verified
completes its ceremony. -/

namespace Javelin.Control

open KeyedList Bytes Collaboration Identity

variable {web : WebAuthn} {Key : Type} (crates : Crates Key)

/-! ### Runs -/

/-- Some call of the run was such. -/
abbrev Occurs (P : State web → Input web → Prop) (l : List (Input web)) : Prop :=
  Trail.Occurs (after crates) State.initial P l

/-- At most one call of the run was such. -/
abbrev Once (P : State web → Input web → Prop) (l : List (Input web)) : Prop :=
  Trail.Once (after crates) State.initial P l

/-- The key of the device code a call draws. -/
def Input.drawnCode (x : Input web) : Option Str :=
  match x.call with
  | .deviceStart drawnCode _ => some (codeHash crates drawnCode)
  | _ => none

/-- The ceremony ID a call draws. -/
def Input.drawnCeremony (x : Input web) : Option Str :=
  match x.call with
  | .enrollStart _ _ _ draw => some (ceremonyId draw)
  | .signinStart _ _ draw => some (ceremonyId draw)
  | _ => none

/-- The random source draws no device code and no ceremony ID twice. -/
structure Fresh (l : List (Input web)) : Prop where
  codes : (l.filterMap (Input.drawnCode crates)).Nodup
  ceremonies : (l.filterMap Input.drawnCeremony).Nodup

/-- The first approval of a device code that was started at a time: by a bearer that speaks for the principal,
before the code expired. -/
def FirstApproval (hash principal : Str) (start : UInt64) (l : List (Input web)) : Prop :=
  Trail.OccursFirst (after crates) State.initial
    (fun s x => Approval crates hash principal s x ∧ x.now.toNat < start.toNat + DEVICE_CODE_TTL.toNat)
    (fun s x => ∃ p, Approval crates hash p s x) l

/-- What a device code's entry remembers of the run. -/
structure DeviceLog (l : List (Input web)) (hash : Str) (record : DeviceRecord) (start : UInt64) : Prop where
  started : Occurs crates (Starts crates hash start) l
  expires : record.expiresAt = start + DEVICE_CODE_TTL
  approved : ∀ principal, record.approvedBy = some principal → FirstApproval crates hash principal start l
  pending : record.approvedBy = none → ¬ Occurs crates (fun s x => ∃ p, Approval crates hash p s x) l
  unredeemed : record.redeemed = false → ¬ Occurs crates (fun s x => ∃ session, Redeems crates hash session s x) l

/-- What the document remembers of the run. -/
structure Recorded (l : List (Input web)) (s : State web) : Prop where
  ceremony : ∀ c record, s.ceremonies.get? c = some record →
    ∃ start, Occurs crates (Begins crates c start) l ∧ record.expiresAt = start + CEREMONY_TTL
  browser : ∀ hash record, s.browserSessions.get? hash = some record →
    ∃ start, Occurs crates (SignsIn crates hash record.principal start) l ∧ record.expiresAt = start + BROWSER_TTL
  session : ∀ hash record, s.sessions.get? hash = some record →
    ∃ start code session, Occurs crates (fun s x => Redeems crates code session s x ∧ x.now = start) l ∧
      secret.hash crates session.refreshToken = hash ∧
      record = ⟨session.principal, session.device, start + REFRESH_TTL⟩
  device : ∀ hash record, s.deviceCodes.get? hash = some record → ∃ start, DeviceLog crates l hash record start
  /-- What was approved or redeemed had been started. -/
  code : ∀ hash, Occurs crates (fun s x => (∃ p, Approval crates hash p s x) ∨
    ∃ session, Redeems crates hash session s x) l → ∃ start, Occurs crates (Starts crates hash start) l
  reached : ∀ c, Occurs crates (Reaches c) l → ∃ start, Occurs crates (Begins crates c start) l

variable {crates} {s : State web} {x : Input web} {l : List (Input web)}

theorem toNat_lt_of_lt_add {now start ttl : UInt64} (h : now < start + ttl) :
    now.toNat < start.toNat + ttl.toNat := by
  rw [UInt64.lt_iff_toNat_lt, UInt64.toNat_add] at h
  have := Nat.mod_le (start.toNat + ttl.toNat) (2 ^ 64)
  omega

/-! ### Draws -/

theorem Starts.drawn {hash : Str} {start : UInt64} (h : Starts crates hash start s x) :
    x.drawnCode crates = some hash := by
  obtain ⟨_, started, hanswer, rfl⟩ := h
  have heffect := of_perform hanswer
  generalize after crates s x = s' at heffect
  cases heffect with
  | deviceStart => rfl

theorem Begins.drawn {c : Str} {start : UInt64} (h : Begins crates c start s x) : x.drawnCeremony = some c := by
  obtain ⟨_, h⟩ := h
  cases h with
  | inl h =>
      obtain ⟨options, hanswer⟩ := h
      have heffect := of_perform hanswer
      generalize after crates s x = s' at heffect
      cases heffect with
      | enrollStart _ => rfl
  | inr h =>
      obtain ⟨options, hanswer⟩ := h
      have heffect := of_perform hanswer
      generalize after crates s x = s' at heffect
      cases heffect with
      | signinStart => rfl

theorem Fresh.concat (h : Fresh crates (l ++ [x])) : Fresh crates l := by
  have hcodes := h.codes
  have hceremonies := h.ceremonies
  rw [List.filterMap_append] at hcodes hceremonies
  exact ⟨hcodes.of_append_left, hceremonies.of_append_left⟩

/-- What drew `a` did so before no other input that draws it. -/
theorem not_occurs_of_drawn {f : Input web → Option Str} {a : Str} {P : State web → Input web → Prop}
    (hf : ((l ++ [x]).filterMap f).Nodup) (hx : f x = some a) (hP : ∀ s y, P s y → f y = some a) :
    ¬ Occurs crates P l := by
  intro hoccurs
  obtain ⟨earlier, y, later, rfl, hy⟩ := hoccurs
  rw [List.filterMap_append, List.filterMap_cons_some hx] at hf
  refine List.disjoint_of_nodup_append hf ?_ List.mem_cons_self
  exact List.mem_filterMap.mpr ⟨y, by simp, hP _ _ hy⟩

/-! ### One call -/

theorem DeviceLog.concat {hash : Str} {record : DeviceRecord} {start : UInt64}
    (h : DeviceLog crates l hash record start)
    (happroval : record.approvedBy = none → ∀ p, ¬ Approval crates hash p (run crates l) x)
    (hredeems : record.redeemed = false → ∀ session, ¬ Redeems crates hash session (run crates l) x) :
    DeviceLog crates (l ++ [x]) hash record start where
  started := h.started.concat
  expires := h.expires
  approved p hp := (h.approved p hp).concat
  pending hnone hoccurs := by
    cases Trail.occurs_concat.mp hoccurs with
    | inl hbefore => exact h.pending hnone hbefore
    | inr hnow =>
        obtain ⟨p, hp⟩ := hnow
        exact happroval hnone p hp
  unredeemed hfalse hoccurs := by
    cases Trail.occurs_concat.mp hoccurs with
    | inl hbefore => exact h.unredeemed hfalse hbefore
    | inr hnow =>
        obtain ⟨session, hsession⟩ := hnow
        exact hredeems hfalse session hsession

/-- A device code's log goes on. -/
theorem Recorded.device_concat (h : Recorded crates l (run crates l)) (hfresh : Fresh crates (l ++ [x]))
    {hash : Str} {record : DeviceRecord}
    (hget : (after crates (run crates l) x).deviceCodes.get? hash = some record) :
    ∃ start, DeviceLog crates (l ++ [x]) hash record start := by
  -- after an approval or a redemption the entry says so
  have happroval : record.approvedBy = none → ∀ p, ¬ Approval crates hash p (run crates l) x := by
    intro hnone p hp
    obtain ⟨_, record', hget', happroved⟩ := hp.after
    rw [hget] at hget'
    cases hget'
    exact happroved hnone
  have hredeems : record.redeemed = false → ∀ session, ¬ Redeems crates hash session (run crates l) x := by
    intro hfalse session hsession
    obtain ⟨_, _, _, _, _, record', hget', hredeemed⟩ := hsession.after
    rw [hget] at hget'
    cases hget'
    rw [hfalse] at hredeemed
    cases hredeemed
  cases deviceCodes_after hget with
  | inl hsame =>
      obtain ⟨start, hlog⟩ := h.device hash record hsame
      exact ⟨start, hlog.concat happroval hredeems⟩
  | inr hnew =>
      cases hnew with
      | inl hstarted =>
          obtain ⟨hstarts, hexpires, hnone⟩ := hstarted
          have hnever : ¬ Occurs crates (fun s x => (∃ p, Approval crates hash p s x) ∨
              ∃ session, Redeems crates hash session s x) l := by
            intro hoccurs
            obtain ⟨start, hbefore⟩ := h.code hash hoccurs
            exact not_occurs_of_drawn hfresh.codes hstarts.drawn (fun _ _ hy => hy.drawn) hbefore
          have hlog : DeviceLog crates (l ++ [x]) hash record x.now :=
            { started := Trail.Occurs.now hstarts
              expires := hexpires
              approved := fun p hp => by rw [hnone] at hp; cases hp
              pending := fun _ hoccurs => by
                cases Trail.occurs_concat.mp hoccurs with
                | inl hbefore => exact hnever (hbefore.mono (fun _ _ hy => Or.inl hy))
                | inr hnow =>
                    obtain ⟨p, hp⟩ := hnow
                    exact happroval hnone p hp
              unredeemed := fun hfalse hoccurs => by
                cases Trail.occurs_concat.mp hoccurs with
                | inl hbefore => exact hnever (hbefore.mono (fun _ _ hy => Or.inr hy))
                | inr hnow =>
                    obtain ⟨session, hsession⟩ := hnow
                    exact hredeems hfalse session hsession }
          exact ⟨x.now, hlog⟩
      | inr hchanged =>
          cases hchanged with
          | inl hfirst =>
              obtain ⟨old, principal, hold, hnone, hlive, happroves, hby, hexpires, hsame⟩ := hfirst
              obtain ⟨start, hlog⟩ := h.device hash old hold
              rw [hlog.expires] at hlive
              have hfirst : FirstApproval crates hash principal start (l ++ [x]) :=
                Trail.OccursFirst.now ⟨happroves, toNat_lt_of_lt_add hlive⟩ (hlog.pending hnone)
              refine ⟨start, hlog.started.concat, hexpires.trans hlog.expires, ?_, ?_, ?_⟩
              · intro p hp
                rw [hby] at hp
                cases hp
                exact hfirst
              · intro hp
                rw [hby] at hp
                cases hp
              · intro hfalse hoccurs
                cases Trail.occurs_concat.mp hoccurs with
                | inl hbefore => exact hlog.unredeemed (hsame.symm.trans hfalse) hbefore
                | inr hnow =>
                    obtain ⟨session, hsession⟩ := hnow
                    exact hredeems hfalse session hsession
          | inr hmarked =>
              obtain ⟨old, hold, rfl⟩ := hmarked
              obtain ⟨start, hlog⟩ := h.device hash old hold
              refine ⟨start, hlog.started.concat, hlog.expires, fun p hp => (hlog.approved p hp).concat, ?_, ?_⟩
              · intro hnone hoccurs
                cases Trail.occurs_concat.mp hoccurs with
                | inl hbefore => exact hlog.pending hnone hbefore
                | inr hnow =>
                    obtain ⟨p, hp⟩ := hnow
                    exact happroval hnone p hp
              · intro hfalse
                cases hfalse

/-- One more call is remembered too. -/
theorem Recorded.concat (h : Recorded crates l (run crates l)) (hfresh : Fresh crates (l ++ [x])) :
    Recorded crates (l ++ [x]) (after crates (run crates l) x) where
  ceremony c record hget := by
    cases ceremonies_after hget with
    | inl hsame =>
        obtain ⟨start, hbegins, hexpires⟩ := h.ceremony c record hsame
        exact ⟨start, hbegins.concat, hexpires⟩
    | inr hnew => exact ⟨x.now, Trail.Occurs.now hnew.1, hnew.2⟩
  browser hash record hget := by
    cases browserSessions_after hget with
    | inl hsame =>
        obtain ⟨start, hsigns, hexpires⟩ := h.browser hash record hsame
        exact ⟨start, hsigns.concat, hexpires⟩
    | inr hnew => exact ⟨x.now, Trail.Occurs.now hnew.1, hnew.2⟩
  session hash record hget := by
    cases sessions_after hget with
    | inl hsame =>
        obtain ⟨start, code, session, hredeems, hhash, hrecord⟩ := h.session hash record hsame
        exact ⟨start, code, session, hredeems.concat, hhash, hrecord⟩
    | inr hnew =>
        obtain ⟨code, session, hredeems, hhash, hrecord⟩ := hnew
        exact ⟨x.now, code, session, Trail.Occurs.now ⟨hredeems, rfl⟩, hhash, hrecord⟩
  device hash record hget := h.device_concat hfresh hget
  code hash hoccurs := by
    cases Trail.occurs_concat.mp hoccurs with
    | inl hbefore =>
        obtain ⟨start, hstarts⟩ := h.code hash hbefore
        exact ⟨start, hstarts.concat⟩
    | inr hnow =>
        have hold : ∃ old, (run crates l).deviceCodes.get? hash = some old := by
          cases hnow with
          | inl happroval => exact happroval.choose_spec.after.1
          | inr hredeems =>
              obtain ⟨old, hget, _⟩ := hredeems.choose_spec.after
              exact ⟨old, hget⟩
        obtain ⟨old, hget⟩ := hold
        obtain ⟨start, hlog⟩ := h.device hash old hget
        exact ⟨start, hlog.started.concat⟩
  reached c hoccurs := by
    cases Trail.occurs_concat.mp hoccurs with
    | inl hbefore =>
        obtain ⟨start, hbegins⟩ := h.reached c hbefore
        exact ⟨start, hbegins.concat⟩
    | inr hnow =>
        obtain ⟨record, hget, _⟩ := hnow.record
        obtain ⟨start, hbegins, _⟩ := h.ceremony c record hget
        exact ⟨start, hbegins.concat⟩

/-- The document remembers the run. -/
theorem recorded (l : List (Input web)) (hfresh : Fresh crates l) : Recorded crates l (run crates l) := by
  refine Trail.invariant (I := fun l s => Fresh crates l → Recorded crates l s) ?_ ?_ l hfresh
  · intro _
    refine ⟨?_, ?_, ?_, ?_, ?_, ?_⟩
    iterate 4
      intro key record hget
      cases hget
    all_goals exact fun _ hoccurs => absurd hoccurs Trail.not_occurs_nil
  · intro l x ih hfresh
    exact (ih hfresh.concat).concat hfresh

/-! ### One use each -/

theorem once_redeemed (hfresh : Fresh crates l) (hash : Str) :
    Once crates (fun s x => ∃ session, Redeems crates hash session s x) l := by
  induction l using List.reverseRecOn with
  | nil => exact Trail.once_nil
  | append_singleton l x ih =>
      apply (ih hfresh.concat).concat
      intro hnow
      obtain ⟨session, hredeems⟩ := hnow
      obtain ⟨old, hget, _, hfalse, _⟩ := hredeems.after
      obtain ⟨start, hlog⟩ := (recorded l hfresh.concat).device hash old hget
      exact hlog.unredeemed hfalse

/-- A spent ceremony is gone, and its ID is not drawn again. -/
theorem ceremony_gone (hfresh : Fresh crates l) {c : Str}
    (hcompletes : Trail.Always (after crates) State.initial (fun s x => ∀ c, Reaches c s x → Completes crates s x) l)
    (hreached : Occurs crates (Reaches c) l) : (run crates l).ceremonies.get? c = none := by
  induction l using List.reverseRecOn with
  | nil => exact absurd hreached Trail.not_occurs_nil
  | append_singleton l x ih =>
      obtain ⟨hbefore, hlast⟩ := Trail.always_concat.mp hcompletes
      have hrun : run crates (l ++ [x]) = after crates (run crates l) x := Trail.after_concat
      rw [hrun]
      cases Trail.occurs_concat.mp hreached with
      | inr hnow => exact hnow.spent (hlast c hnow)
      | inl hearlier =>
          have hgone := ih hfresh.concat hbefore hearlier
          cases hget : (after crates (run crates l) x).ceremonies.get? c with
          | none => rfl
          | some record =>
              cases ceremonies_after hget with
              | inl hsame =>
                  rw [hgone] at hsame
                  cases hsame
              | inr hnew =>
                  obtain ⟨start, hbegins⟩ := (recorded l hfresh.concat).reached c hearlier
                  refine absurd hbegins (not_occurs_of_drawn hfresh.ceremonies hnew.1.drawn ?_)
                  exact fun _ _ hy => hy.drawn

theorem once_reached (hfresh : Fresh crates l)
    (hcompletes : Trail.Always (after crates) State.initial (fun s x => ∀ c, Reaches c s x → Completes crates s x) l)
    (c : Str) : Once crates (Reaches c) l := by
  induction l using List.reverseRecOn with
  | nil => exact Trail.once_nil
  | append_singleton l x ih =>
      obtain ⟨hbefore, _⟩ := Trail.always_concat.mp hcompletes
      apply (ih hfresh.concat hbefore).concat
      intro hnow hearlier
      obtain ⟨record, hget, _⟩ := hnow.record
      have hgone := ceremony_gone hfresh.concat hbefore hearlier
      have hrun : Trail.after (after crates) State.initial l = run crates l := rfl
      rw [hrun, hgone] at hget
      cases hget

/-- The bearer a call presents. -/
def Call.bearer : Call web → Option Str
  | .enrollStart _ bearer _ _ => some bearer
  | call => call.approval.map Prod.fst

/-- No token is both an admin token and a browser sign-in. -/
theorem not_both_prefixes {bearer : Str} (hadmin : ADMIN_PREFIX.isPrefixOf bearer = true)
    (hbrowser : BROWSER_PREFIX.isPrefixOf bearer = true) : False := by
  obtain ⟨rest, rfl⟩ := List.isPrefixOf_iff_prefix.mp hadmin
  rw [List.isPrefixOf_iff_prefix] at hbrowser
  have hmark : BROWSER_PREFIX <+: ADMIN_PREFIX :=
    List.prefix_of_prefix_length_le hbrowser (List.prefix_append ADMIN_PREFIX rest) (by decide)
  revert hmark
  decide

/-- A call answered for a browser sign-in found it live. -/
theorem live_of_bearer {bearer : Str} {answer : Answer web} (hbearer : x.call.bearer = some bearer)
    (hbrowser : BROWSER_PREFIX.isPrefixOf bearer = true) (h : (perform crates x s).1 = .ok answer) :
    ∃ principal, browserPrincipal crates s bearer x.now = some principal := by
  have heffect := of_perform h
  generalize after crates s x = s' at heffect
  have hspoken : ∀ {b : Str} {now : UInt64} {principal : Str}, b = bearer → Speaks crates s b now principal →
      ∃ principal, browserPrincipal crates s bearer now = some principal := by
    intro b now principal hb hspeaks
    subst hb
    cases hspeaks with
    | inl hadmin => exact (not_both_prefixes hadmin.1.1 hbrowser).elim
    | inr hlive => exact ⟨principal, hlive.2⟩
  have hspeaker : ∀ {call : Call web} {now : UInt64} {b draw principal : Str} {userCode : List Char},
      call.bearer = some bearer → call.approval = some (b, userCode, draw) → Speaks crates s b now principal →
      ∃ principal, browserPrincipal crates s bearer now = some principal := by
    intro call now b draw principal userCode hbearer happroval hspeaks
    cases call with
    | deviceApprove _ _ _ =>
        cases happroval
        exact hspoken (Option.some.inj hbearer) hspeaks
    | deviceApproveAs _ _ _ =>
        cases happroval
        exact hspoken (Option.some.inj hbearer) hspeaks
    | _ => cases happroval
  cases heffect with
  | enrollStart hwho =>
      cases hbearer
      unfold enroller at hwho
      rw [if_pos hbrowser] at hwho
      exact ⟨_, of_elim_error hwho⟩
  | approve hcall hspeaks _ _ _ => exact hspeaker hbearer hcall hspeaks
  | approveAgain hcall hspeaks _ _ => exact hspeaker hbearer hcall hspeaks
  | _ => cases hbearer

variable (crates)

/-- Ceremonies and device codes are one-shot in a run, and what the run may do next respects every expiry. -/
structure OneShot (l : List (Input web)) : Prop where
  /-- Each ceremony lets at most one finish call reach verification. -/
  ceremony : ∀ c, Once crates (Reaches c) l
  finish : ∀ c x, Reaches c (run crates l) x →
    ∃ start, Occurs crates (Begins crates c start) l ∧ x.now.toNat < start.toNat + CEREMONY_TTL.toNat
  /-- Each device code yields at most one session. -/
  code : ∀ hash, Once crates (fun s x => ∃ session, Redeems crates hash session s x) l
  /-- A session was given for a code that had been approved, and its principal is the first approver. -/
  session : ∀ key record, (run crates l).sessions.get? key = some record →
    ∃ earlier x later hash session start, l = earlier ++ x :: later ∧
      Redeems crates hash session (run crates earlier) x ∧ secret.hash crates session.refreshToken = key ∧
      record = ⟨session.principal, session.device, x.now + REFRESH_TTL⟩ ∧
      Occurs crates (Starts crates hash start) earlier ∧ FirstApproval crates hash session.principal start earlier
  redeemed : ∀ hash session x, Redeems crates hash session (run crates l) x →
    ∃ start, Occurs crates (Starts crates hash start) l ∧ FirstApproval crates hash session.principal start l
  poll : ∀ x deviceCode drawnToken drawnJti answer, x.call = .devicePoll deviceCode drawnToken drawnJti →
    (perform crates x (run crates l)).1 = .ok answer →
    ∃ start, Occurs crates (Starts crates (secret.hash crates deviceCode) start) l ∧
      x.now.toNat < start.toNat + DEVICE_CODE_TTL.toNat
  refresh : ∀ x refreshToken draw answer, x.call = .refresh refreshToken draw →
    (perform crates x (run crates l)).1 = .ok answer →
    ∃ start hash session, Occurs crates (fun s x => Redeems crates hash session s x ∧ x.now = start) l ∧
      secret.hash crates session.refreshToken = secret.hash crates refreshToken ∧
      x.now.toNat < start.toNat + REFRESH_TTL.toNat
  /-- A browser sign-in is live only until 15 minutes after a verified passkey gave it. -/
  live : ∀ bearer now principal, browserPrincipal crates (run crates l) bearer now = some principal →
    ∃ start, Occurs crates (SignsIn crates (secret.hash crates bearer) principal start) l ∧
      now.toNat < start.toNat + BROWSER_TTL.toNat
  browser : ∀ x bearer answer, x.call.bearer = some bearer → BROWSER_PREFIX.isPrefixOf bearer = true →
    (perform crates x (run crates l)).1 = .ok answer →
    ∃ principal start, Occurs crates (SignsIn crates (secret.hash crates bearer) principal start) l ∧
      x.now.toNat < start.toNat + BROWSER_TTL.toNat

variable {crates}

theorem of_browserPrincipal {bearer principal : Str} {now : UInt64}
    (h : browserPrincipal crates s bearer now = some principal) :
    ∃ record, s.browserSessions.get? (secret.hash crates bearer) = some record ∧ now < record.expiresAt ∧
      record.principal = principal := by
  unfold browserPrincipal at h
  obtain ⟨record, hrecord, rfl⟩ := Option.map_eq_some_iff.mp h
  obtain ⟨hget, hlive⟩ := Option.filter_eq_some_iff.mp hrecord
  exact ⟨record, hget, by simpa using hlive, rfl⟩

theorem live_browser (hfresh : Fresh crates l) {bearer principal : Str} {now : UInt64}
    (h : browserPrincipal crates (run crates l) bearer now = some principal) :
    ∃ start, Occurs crates (SignsIn crates (secret.hash crates bearer) principal start) l ∧
      now.toNat < start.toNat + BROWSER_TTL.toNat := by
  obtain ⟨record, hget, hlive, rfl⟩ := of_browserPrincipal h
  obtain ⟨start, hsigns, hexpires⟩ := (recorded l hfresh).browser _ record hget
  rw [hexpires] at hlive
  exact ⟨start, hsigns, toNat_lt_of_lt_add hlive⟩

theorem first_approved (hfresh : Fresh crates l) {hash : Str} {session : Session}
    (h : Redeems crates hash session (run crates l) x) :
    ∃ start, Occurs crates (Starts crates hash start) l ∧ FirstApproval crates hash session.principal start l := by
  obtain ⟨old, hget, _, _, happroved, _⟩ := h.after
  obtain ⟨start, hlog⟩ := (recorded l hfresh).device hash old hget
  exact ⟨start, hlog.started, hlog.approved _ happroved⟩

theorem Fresh.append {l' : List (Input web)} (h : Fresh crates (l ++ l')) : Fresh crates l := by
  induction l' using List.reverseRecOn with
  | nil => rwa [List.append_nil] at h
  | append_singleton l' x ih =>
      rw [← List.append_assoc] at h
      exact ih h.concat

/-- Where every response that is verified completes its ceremony, ceremonies and device codes are one-shot. -/
theorem oneShot (l : List (Input web)) (hfresh : Fresh crates l)
    (hcompletes : Trail.Always (after crates) State.initial (fun s x => ∀ c, Reaches c s x → Completes crates s x) l) :
    OneShot crates l where
  ceremony := once_reached hfresh hcompletes
  finish c x hreaches := by
    obtain ⟨record, hget, hlive⟩ := hreaches.record
    obtain ⟨start, hbegins, hexpires⟩ := (recorded l hfresh).ceremony c record hget
    rw [hexpires] at hlive
    exact ⟨start, hbegins, toNat_lt_of_lt_add hlive⟩
  code := once_redeemed hfresh
  session key record hget := by
    obtain ⟨start, hash, session, hoccurs, hkey, rfl⟩ := (recorded l hfresh).session key record hget
    obtain ⟨earlier, x, later, rfl, hredeems, rfl⟩ := hoccurs
    obtain ⟨start, hstarts, hfirst⟩ := first_approved hfresh.append hredeems
    exact ⟨earlier, x, later, hash, session, start, rfl, hredeems, hkey, rfl, hstarts, hfirst⟩
  redeemed hash session x hredeems := first_approved hfresh hredeems
  poll x deviceCode drawnToken drawnJti answer hcall hanswer := by
    have heffect := of_perform hanswer
    generalize after crates (run crates l) x = s' at heffect
    have hlog : ∀ record, (run crates l).deviceCodes.get? (secret.hash crates deviceCode) = some record →
        x.now < record.expiresAt → ∃ start, Occurs crates (Starts crates (secret.hash crates deviceCode) start) l ∧
          x.now.toNat < start.toNat + DEVICE_CODE_TTL.toNat := by
      intro record hget hlive
      obtain ⟨start, hlog⟩ := (recorded l hfresh).device _ record hget
      rw [hlog.expires] at hlive
      exact ⟨start, hlog.started, toNat_lt_of_lt_add hlive⟩
    cases heffect with
    | pollPending hget hlive =>
        cases hcall
        exact hlog _ hget hlive
    | pollApproved hget hlive _ _ _ =>
        cases hcall
        exact hlog _ hget hlive
    | approve happroval _ _ _ _ =>
        obtain rfl := hcall
        cases happroval
    | approveAgain happroval _ _ _ =>
        obtain rfl := hcall
        cases happroval
    | _ => cases hcall
  refresh x refreshToken draw answer hcall hanswer := by
    have heffect := of_perform hanswer
    generalize after crates (run crates l) x = s' at heffect
    cases heffect with
    | refresh hget hlive =>
        cases hcall
        obtain ⟨start, hash, session, hredeems, hkey, rfl⟩ := (recorded l hfresh).session _ _ hget
        exact ⟨start, hash, session, hredeems, hkey, toNat_lt_of_lt_add hlive⟩
    | approve happroval _ _ _ _ =>
        obtain rfl := hcall
        cases happroval
    | approveAgain happroval _ _ _ =>
        obtain rfl := hcall
        cases happroval
    | _ => cases hcall
  live bearer now principal h := live_browser hfresh h
  browser x bearer answer hbearer hmark hanswer := by
    obtain ⟨principal, hlive⟩ := live_of_bearer hbearer hmark hanswer
    obtain ⟨start, hsigns, hbefore⟩ := live_browser hfresh hlive
    exact ⟨principal, start, hsigns, hbefore⟩

/-! ### An authenticator -/

/-- An authenticator that repeats the challenge it was given, with the ID of its credential. -/
def echo : WebAuthn where
  Rp := Unit
  Passkey := Str
  Registration := Str
  Authentication := Str × List Str
  Creation := Str
  Request := Str
  Created := Str × Str
  Asserted := Str × Str
  Result := Str
  startRegistration _ draw _ _ _ _ := .ok (draw, draw)
  finishRegistration _ credential challenge := if credential.1 = challenge then some credential.2 else none
  startAuthentication _ draw passkeys := .ok (draw, draw, passkeys)
  finishAuthentication _ credential challenge :=
    if credential.1 = challenge.1 ∧ credential.2 ∈ challenge.2 then some credential.2 else none
  credentialId passkey := passkey
  resultId result := result
  updateCredential passkey _ := passkey

/-- Bytes stand for their own encoding and hash. -/
def plain : Crates Unit where
  encode64 := id
  decode64 := some
  writeHeader header := header.kid
  readHeader bytes := some ⟨ALG, bytes⟩
  writeClaims claims := claims.sub
  readClaims _ := none
  verifyingKey _ := ()
  sign _ message := message
  verifyStrict _ _ _ := false
  sha256 := id

/-- The admin token is made, and an enrollment started. -/
def enrolling : List (Input echo) :=
  [⟨100, .none, .bootstrap [1] (List.replicate 32 7)⟩, ⟨100, .none, .enrollStart () (ADMIN_PREFIX ++ [1]) [5] [6]⟩]

/-- The enrollment is finished with a response to some challenge. -/
def finishing (challenge : Str) : Input echo := ⟨101, .none, .enrollFinish () (ceremonyId [6]) (challenge, [9])⟩

/-- A passkey is enrolled and signs in; the sign-in approves a device code, which is polled. -/
def signedIn : List (Input echo) :=
  enrolling ++ [finishing [5], ⟨102, .none, .signinStart () [8] [10]⟩,
    ⟨103, .none, .signinFinish () (ceremonyId [10]) ([8], [9]) [11]⟩,
    ⟨104, .none, .deviceStart [12] [0, 1, 2, 3, 4, 5, 6, 7]⟩,
    ⟨105, .none, .deviceApproveAs (BROWSER_PREFIX ++ [11]) "BCDF-GHJK".toList [13]⟩,
    ⟨106, .none, .devicePoll [12] [14] [15]⟩]

theorem oneShot_signedIn : OneShot plain signedIn ∧ (run plain signedIn).sessions.toList.map (fun e => e.2) =
    [⟨ADMIN_PRINCIPAL, secret.id (text "dev_") [13], 106 + REFRESH_TTL⟩] := by
  refine ⟨oneShot signedIn ⟨by decide +kernel, by decide +kernel⟩ ?_, by decide +kernel⟩
  simp only [signedIn, enrolling, List.cons_append, List.nil_append, Trail.always_cons, Trail.always_nil, and_true]
  refine ⟨?_, ?_, ?_, ?_, ?_, ?_, ?_, ?_⟩
  · exact fun _ h => h.2.elim
  · exact fun _ h => h.2.elim
  · exact fun _ _ => ⟨rfl, 400, ADMIN_PRINCIPAL, [5], [9], rfl, rfl, rfl⟩
  · exact fun _ h => h.2.elim
  · exact fun _ _ => ⟨rfl, 402, ([8], [[9]]), [9], rfl, rfl, rfl⟩
  · exact fun _ h => h.2.elim
  · exact fun _ h => h.2.elim
  · exact fun _ h => h.2.elim

/-- A response that does not verify leaves the ceremony, and the next one is verified against it again. -/
theorem ceremony_tried_twice : ¬ ∀ l : List (Input echo), Fresh plain l → OneShot plain l := by
  intro h
  have hfresh : Fresh plain (enrolling ++ [finishing [4], finishing [5]]) := ⟨by decide +kernel, by decide +kernel⟩
  have honce := (h _ hfresh).ceremony (ceremonyId [6])
  have hreaches : ∀ challenge l, (run plain l).ceremonies.get? (ceremonyId [6]) =
      some ⟨400, .enroll ADMIN_PRINCIPAL [5]⟩ → Reaches (ceremonyId [6]) (run plain l) (finishing challenge) := by
    intro challenge l hget
    refine ⟨(fun _ hdetail => by cases hdetail), rfl, ADMIN_PRINCIPAL, [5],
      { run plain l with ceremonies := (run plain l).ceremonies.erase (ceremonyId [6]) }, ?_⟩
    unfold takeCeremony
    rw [hget]
    rfl
  have hfirst := hreaches [4] enrolling rfl
  have hsecond := hreaches [5] (enrolling ++ [finishing [4]]) rfl
  exact honce enrolling (finishing [4]) [] (finishing [5]) [] rfl hfirst hsecond

end Javelin.Control
