import Javelin.Journals

/-! # Failed appends and crashes

A `Call` is one `enqueue` or one `acknowledge` of a pending record.  `Run` is any sequence of calls
whose appends may fail anywhere, with reopens between them; it keeps the records whose append
returned `Ok` and the record, if any, that the last append wrote whole without returning `Ok`.
Since an append neither truncates what a failed one left nor moves it aside, a shorter frame can
leave a caller's bytes to be read behind it (`leaves_a_trace`); as long as every append is `Clean`
a reopen shows exactly the successful appends (`clean_appends_leave_no_trace`).

When calls either succeed or crash, what was cut off is exactly what is lost (`crash_recovery_exact`). -/

namespace Javelin

open KeyedList Bytes

namespace Outbox

/-- One request to the outbox that appends a record. -/
inductive Call where
  | enqueue (kind : Kind) (scope : String) (operation : Operation) (payload : Str)
  | acknowledge (seq : ℕ) (outcome : Str)

namespace Call

/-- The record the call appends. -/
def record (o : Outbox) : Call → Record
  | enqueue kind scope operation payload => .queued o.nextSeq kind scope operation payload
  | acknowledge seq outcome => .acked seq outcome

/-- The outbox after the call. -/
def outbox (sha : Str → Digest) (stop : Option Stop) (o : Outbox) : Call → Outbox
  | enqueue kind scope operation payload => (Outbox.enqueue sha stop kind scope operation payload o).2
  | acknowledge seq outcome => (Outbox.acknowledge sha stop seq outcome o).2

/-- Only pending records are acknowledged. -/
def Due (o : Outbox) : Call → Prop
  | enqueue .. => True
  | acknowledge seq _ => ∃ entry, o.entries.get? seq = some entry ∧ entry.outcome = none

/-- The call is not refused before it appends. -/
def Appends (o : Outbox) (c : Call) : Prop :=
  (c.record o).body.length ≤ MAX_BODY ∧ match c with
    | enqueue _ scope _ _ => scope ≠ ""
    | acknowledge .. => True

end Call

section digest
variable {sha : Str → Digest} {o : Outbox} {log : List Record} {flight : Option Record} {tail : Str}

/-- An append changes nothing of what the handle keeps in memory of the records. -/
theorem append_memory (stop : Option Stop) (body : Str) (o : Outbox) :
    (append sha stop body o).2.entries = o.entries ∧ (append sha stop body o).2.nextSeq = o.nextSeq := by
  have hwrite : ∀ o : Outbox, (writeFrame sha stop body o).2.entries = o.entries ∧
      (writeFrame sha stop body o).2.nextSeq = o.nextSeq := by
    intro o
    unfold writeFrame
    simp only
    split
    · exact ⟨rfl, rfl⟩
    · split <;> exact ⟨rfl, rfl⟩
  unfold append
  by_cases hd : (o.damage.isSome && !o.repaired) = true
  · rw [if_pos hd]
    have hsome : o.damage.isSome := by
      rw [Bool.and_eq_true] at hd
      exact hd.1
    obtain ⟨d, hdamage⟩ := Option.isSome_iff_exists.mp hsome
    obtain ⟨aside, hmove⟩ := Holding.moveDamageAside_cases hdamage stop
    obtain hmove | hmove | hmove := hmove
    · rw [hmove]
      exact ⟨rfl, rfl⟩
    · rw [hmove]
      exact ⟨rfl, rfl⟩
    · rw [hmove]
      exact hwrite _
  · rw [if_neg hd]
    exact hwrite o

/-- A call that appends is an append of its record. -/
theorem Call.outbox_eq {c : Call} (h : c.Appends o) (hdue : c.Due o) (stop : Option Stop) :
    c.outbox sha stop o = (perform sha stop (c.record o) o).2 := by
  obtain ⟨hlen, hscope⟩ := h
  obtain ⟨hentries, hnext⟩ := @append_memory sha stop (c.record o).body o
  cases c with
  | enqueue kind scope operation payload =>
      have hle : ¬ MAX_BODY < (queuedBody o.nextSeq kind scope operation payload).length := not_lt.mpr hlen
      change (append sha stop (queuedBody o.nextSeq kind scope operation payload) o).2.entries = _ at hentries
      change (append sha stop (queuedBody o.nextSeq kind scope operation payload) o).2.nextSeq = _ at hnext
      show (Outbox.enqueue sha stop kind scope operation payload o).2 =
        (settle (.queued o.nextSeq kind scope operation payload)
          (append sha stop (queuedBody o.nextSeq kind scope operation payload) o)).2
      unfold Outbox.enqueue
      rw [if_neg hscope]
      simp only [if_neg hle]
      cases ha : append sha stop (queuedBody o.nextSeq kind scope operation payload) o with
      | mk res o' => cases res <;> rfl
  | acknowledge seq outcome =>
      have hle : ¬ MAX_BODY < (ackedBody seq outcome).length := not_lt.mpr hlen
      obtain ⟨entry, hget, _⟩ := hdue
      change (append sha stop (ackedBody seq outcome) o).2.entries = _ at hentries
      show (Outbox.acknowledge sha stop seq outcome o).2 =
        (settle (.acked seq outcome) (append sha stop (ackedBody seq outcome) o)).2
      unfold Outbox.acknowledge
      simp only [if_neg hle]
      cases ha : append sha stop (ackedBody seq outcome) o with
      | mk res o' =>
          rw [ha] at hentries
          cases res with
          | ok =>
              change o'.entries = o.entries at hentries
              have hget' : o'.entries.get? seq = some entry := by rw [hentries, hget]
              simp only [settle, remember, Record.effect_acked hget']
              rw [hget']
              rfl
          | unsynced => rfl
          | failed => rfl

theorem Call.outbox_of_refused {c : Call} (h : ¬ c.Appends o) (stop : Option Stop) :
    c.outbox sha stop o = o := by
  unfold Call.Appends at h
  cases c with
  | enqueue kind scope operation payload =>
      show (Outbox.enqueue sha stop kind scope operation payload o).2 = o
      unfold Outbox.enqueue
      by_cases hs : scope = ""
      · rw [if_pos hs]
      · rw [if_neg hs]
        have hle : MAX_BODY < (queuedBody o.nextSeq kind scope operation payload).length := by
          by_contra hc
          exact h ⟨not_lt.mp hc, hs⟩
        simp only [if_pos hle]
  | acknowledge seq outcome =>
      show (Outbox.acknowledge sha stop seq outcome o).2 = o
      unfold Outbox.acknowledge
      have hle : MAX_BODY < (ackedBody seq outcome).length := by
        by_contra hc
        exact h ⟨not_lt.mp hc, trivial⟩
      simp only [if_pos hle]

/-- The record of a call has its turn. -/
theorem Holding.next (h : Holding sha o log flight tail) {c : Call} (happ : c.Appends o) (hdue : c.Due o) :
    Next o log (c.record o) := by
  have hlt := h.nextSeq_lt
  have hranged := h.ranged
  obtain ⟨hlen, hscope⟩ := happ
  cases c with
  | enqueue kind scope operation payload =>
      refine ⟨⟨hlen, hlt, hscope, ?_⟩, h.nextSeq, trivial⟩
      have hk := hranged o.nextSeq
      rw [h.nextSeq] at hk ⊢
      cases hg : o.entries.get? (count log + 1) with
      | none => rfl
      | some entry =>
          rw [hg] at hk
          have hin := hk.mp rfl
          omega
  | acknowledge seq outcome =>
      obtain ⟨entry, hget, hnone⟩ := hdue
      have hk := (hranged seq).mp (by rw [hget]; rfl)
      have hn := h.nextSeq
      exact ⟨⟨hlen, by omega, entry, hget, hnone⟩, trivial⟩

variable (sha) in
/-- Calls whose appends may fail, with reopens between them.  `log` are the records whose append
returned `Ok`; `last` is the record that the last append wrote whole and did not return `Ok` for.
Each append meets `cond`. -/
inductive Run (cond : Option Stop → Record → Outbox → Prop) : Outbox → List Record → Option Record → Prop
  | create : Run cond create [] none
  | call {o : Outbox} {log : List Record} {last : Option Record} (h : Run cond o log last)
      (stop : Option Stop) (c : Call) (hdue : c.Due o) (happ : c.Appends o)
      (hcond : cond stop (c.record o) o) :
      Run cond (c.outbox sha stop o) ((perform sha stop (c.record o) o).1.log log (c.record o))
        ((perform sha stop (c.record o) o).1.flight (c.record o))
  | refused {o : Outbox} {log : List Record} {last : Option Record} (h : Run cond o log last)
      (stop : Option Stop) (c : Call) (happ : ¬ c.Appends o) : Run cond (c.outbox sha stop o) log last
  | reopen {o o' : Outbox} {log : List Record} {last : Option Record} (h : Run cond o log last)
      (hopen : openJournal sha o.file o.aside = .ok o')
      (hlog : o'.entries = entriesOf (log ++ last.toList)) : Run cond o' (log ++ last.toList) none

variable (sha) in
/-- A reopen recovers the records of `log` in order, and at most the record `last` after them. -/
def Recovers (o : Outbox) (log : List Record) (last : Option Record) : Prop :=
  ∃ o' recovered, openJournal sha o.file o.aside = .ok o' ∧
    (recovered = log ∨ ∃ r ∈ last, recovered = log ++ [r]) ∧ o'.entries = entriesOf recovered ∧
    o'.file.take o'.validLen = MAGIC ++ (format sha).frames recovered

theorem Holding.recovers (h : Holding sha o log flight tail) : Recovers sha o log flight := by
  obtain ⟨o', hopen, hheld, _⟩ := h.reopen o.aside
  refine ⟨o', log ++ flight.toList, hopen, ?_, hheld.entries, ?_⟩
  · cases flight with
    | none => exact Or.inl (List.append_nil _)
    | some r => exact Or.inr ⟨r, rfl, rfl⟩
  · obtain ⟨bytes, hf, hb⟩ := hheld.file
    rw [hheld.validLen, hf, List.take_length_add_append, hb.split, List.take_left]

/-- The invariant of a run of clean appends. -/
theorem Run.holding {last : Option Record} (h : Run sha (Clean sha) o log last) :
    ∃ tail, Holding sha o log last tail := by
  induction h with
  | create => exact ⟨[], Holding.create⟩
  | call h stop c hdue happ hclean ih =>
      obtain ⟨tail, hheld⟩ := ih
      rw [Call.outbox_eq happ hdue]
      exact hheld.perform (hheld.next happ hdue) hclean rfl
  | refused h stop c happ ih =>
      rw [Call.outbox_of_refused happ]
      exact ih
  | reopen h hopen hlog ih =>
      obtain ⟨tail, hheld⟩ := ih
      obtain ⟨o', hopen', hheld', _⟩ := hheld.reopen _
      rw [hopen] at hopen'
      injection hopen' with ho
      subst ho
      exact ⟨tail, hheld'⟩

/-! ### A frame inside a payload -/

/-- An append that completes. -/
theorem perform_none (hd : o.dirty = false) {r : Record}
    (hfit : o.validLen + (frame sha r.body).length ≤ MAX_FILE) :
    perform sha none r o = (.ok, remember r
      { o with
        file := Framing.overwrite o.file o.validLen (frame sha r.body)
        validLen := o.validLen + (frame sha r.body).length }) := by
  have hd' : ¬ (o.damage.isSome && !o.repaired) = true := by
    change ¬ o.dirty = true
    rw [hd]
    simp
  have hpart : written none o (frame sha r.body) = frame sha r.body := by
    apply List.take_of_length_le
    exact le_min le_rfl (by omega)
  unfold perform append writeFrame
  rw [if_neg hd']
  simp only [hpart, lt_self_iff_false, if_false, Bool.not_true, Bool.false_eq_true]
  rfl

/-- An append that fails after its whole frame is written. -/
theorem perform_writing (hd : o.dirty = false) {r : Record} {n : ℕ} (hn : (frame sha r.body).length ≤ n)
    (hfit : o.validLen + (frame sha r.body).length ≤ MAX_FILE) :
    perform sha (some (.writing n)) r o = (.unsynced,
      { o with file := Framing.overwrite o.file o.validLen (frame sha r.body) }) := by
  have hd' : ¬ (o.damage.isSome && !o.repaired) = true := by
    change ¬ o.dirty = true
    rw [hd]
    simp
  have hpart : written (some (.writing n)) o (frame sha r.body) = frame sha r.body := by
    apply List.take_of_length_le
    exact le_min hn (by omega)
  unfold perform append writeFrame
  rw [if_neg hd']
  simp only [hpart, lt_self_iff_false, if_false, Bool.not_true, Bool.false_eq_true]
  rfl

/-- An append that fails with a part of its frame written. -/
theorem perform_part (hd : o.dirty = false) {r : Record} {n : ℕ} (hn : n < (frame sha r.body).length)
    (hfit : o.validLen + n ≤ MAX_FILE) :
    perform sha (some (.writing n)) r o = (.failed,
      { o with file := Framing.overwrite o.file o.validLen ((frame sha r.body).take n) }) := by
  have hd' : ¬ (o.damage.isSome && !o.repaired) = true := by
    change ¬ o.dirty = true
    rw [hd]
    simp
  have hpart : written (some (.writing n)) o (frame sha r.body) = (frame sha r.body).take n := by
    have hmin : min n (MAX_FILE - o.validLen) = n := Nat.min_eq_left (by omega)
    show (frame sha r.body).take (min n (MAX_FILE - o.validLen)) = _
    rw [hmin]
  have hlen : ((frame sha r.body).take n).length = n := by
    rw [List.length_take]
    omega
  unfold perform append writeFrame
  rw [if_neg hd']
  simp only [hpart, hlen, hn, if_true, Bool.not_true, Bool.false_eq_true, if_false]
  rfl

/-- The operation ID `a`. -/
def operationA : Operation := ⟨⟨[97]⟩, by decide⟩

variable (sha) in
/-- A payload that is itself the frame of a reply to record 1. -/
def forged : Str := frame sha (ackedBody 1 [7])

variable (sha) in
/-- The request that carries it. -/
def carrier : Record := .queued 1 .upload "a" operationA (forged sha)

/-- The request queued in its place. -/
def small : Record := .queued 1 .upload "a" operationA []

theorem length_forged : (forged sha).length = 50 := by
  unfold forged
  rw [length_frame, length_ackedBody]
  rfl

theorem text_a : text "a" = [97] := by decide

theorem length_small : (frame sha small.body).length = 60 := by
  rw [length_frame]
  show HEADER + (queuedBody 1 .upload "a" operationA []).length = 60
  rw [length_queuedBody, text_a]
  rfl

theorem length_carrier : (frame sha (carrier sha).body).length = 110 := by
  rw [length_frame]
  show HEADER + (queuedBody 1 .upload "a" operationA (forged sha)).length = 110
  rw [length_queuedBody, text_a, length_forged]
  rfl

/-- The payload begins where the smaller frame ends. -/
theorem drop_carrier : (frame sha (carrier sha).body).drop 60 = forged sha := by
  have hd := (sha (carrier sha).body).2
  have hsplit : frame sha (carrier sha).body =
      (toLe 4 (carrier sha).body.length ++ (sha (carrier sha).body).1 ++
        (QUEUED :: (toLe 8 1 ++ Kind.upload.tag :: (put (text "a") ++ put operationA.1.text ++
          toLe 4 (forged sha).length)))) ++ forged sha := by
    show toLe 4 (carrier sha).body.length ++ (sha (carrier sha).body).1 ++
      queuedBody 1 .upload "a" operationA (forged sha) = _
    simp only [queuedBody, put, List.append_assoc, List.cons_append]
  rw [hsplit]
  apply List.drop_left'
  simp only [List.length_append, List.length_cons, length_toLe, length_put, hd, text_a]
  rfl

theorem small_fits : small.Fits SortedMap.empty := by
  refine ⟨?_, by decide, by decide, rfl⟩
  show (queuedBody 1 .upload "a" operationA []).length ≤ MAX_BODY
  rw [length_queuedBody, text_a]
  decide

theorem carrier_appends : Call.Appends create (.enqueue .upload "a" operationA (forged sha)) := by
  have hscope : "a" ≠ "" := by decide
  refine ⟨?_, hscope⟩
  show (queuedBody 1 .upload "a" operationA (forged sha)).length ≤ MAX_BODY
  rw [length_queuedBody, text_a, length_forged]
  decide

variable (sha) in
/-- The journal after the first append failed with its whole frame written. -/
def afterCarrier : Outbox := { create with file := MAGIC ++ frame sha (carrier sha).body }

theorem perform_carrier : perform sha (some (.writing 110)) (carrier sha) create =
    (.unsynced, afterCarrier sha) := by
  have hl := @length_carrier sha
  have hw := @perform_writing sha create rfl (carrier sha) 110 hl.le (by rw [hl]; decide)
  rw [hw]
  have ho := Framing.overwrite_append MAGIC [] (frame sha (carrier sha).body)
  rw [List.append_nil, List.drop_nil, List.append_nil] at ho
  exact congrArg (fun file => (Appended.unsynced, { create with file := file })) ho

variable (sha) in
/-- The journal after the second append succeeded. -/
def afterSmall : Outbox :=
  remember small
    { afterCarrier sha with
      file := MAGIC ++ frame sha small.body ++ forged sha
      validLen := MAGIC.length + 60 }

theorem perform_small : perform sha none small (afterCarrier sha) = (.ok, afterSmall sha) := by
  have hl := @length_small sha
  have hfit : (afterCarrier sha).validLen + (frame sha small.body).length ≤ MAX_FILE := by
    rw [hl]
    show MAGIC.length + 60 ≤ MAX_FILE
    decide
  have hw := @perform_none sha (afterCarrier sha) rfl small hfit
  have ho := Framing.overwrite_append MAGIC (frame sha (carrier sha).body) (frame sha small.body)
  rw [hl, drop_carrier] at ho
  rw [hw, hl]
  exact congrArg (fun file => (Appended.ok, remember small
    { afterCarrier sha with file := file, validLen := MAGIC.length + 60 })) ho

/-- A reopen reads the payload of the first request as a reply to the second. -/
theorem open_afterSmall : ∃ o', openJournal sha (afterSmall sha).file [] = .ok o' ∧
    o'.entries = entriesOf [small, .acked 1 [7]] := by
  have hack : (Record.acked 1 [7]).Fits (small.effect SortedMap.empty) := by
    refine ⟨?_, by decide, ⟨1, .upload, "a", operationA, [], none⟩, ?_, rfl⟩
    · show (ackedBody 1 [7]).length ≤ MAX_BODY
      rw [length_ackedBody]
      decide
    · show (SortedMap.insert SortedMap.empty 1 _).get? 1 = _
      rw [SortedMap.get?_insert, if_pos rfl]
  have hb : (format sha).Holds SortedMap.empty (frame sha small.body ++ forged sha)
      [small, .acked 1 [7]] none [] := by
    refine ⟨?_, ⟨small_fits, hack, trivial⟩, Or.inl rfl⟩
    show _ = frame sha small.body ++ (frame sha (Record.acked 1 [7]).body ++ []) ++ []
    simp [forged, Record.body]
  have hf : (afterSmall sha).file = MAGIC ++ (frame sha small.body ++ forged sha) :=
    List.append_assoc _ _ _
  obtain ⟨o', hopen, hopened⟩ := openJournal_eq hf hb ⟨rfl, trivial⟩ []
  exact ⟨o', hopen, hopened.entries⟩

/-- Whatever the digest, an append that failed after its whole frame can come back as a record
behind a shorter frame that was written over it. -/
theorem leaves_a_trace : ¬ ∃ sha : Str → Digest, ∀ o log last,
    Run sha (fun _ _ _ => True) o log last → Recovers sha o log last := by
  intro h
  obtain ⟨sha, hall⟩ := h
  have hstart : Run sha (fun _ _ _ => True) create [] none := Run.create
  have hfirst := hstart.call (some (.writing 110)) (.enqueue .upload "a" operationA (forged sha)) trivial
    carrier_appends trivial
  rw [Call.outbox_eq carrier_appends trivial] at hfirst
  change Run sha _ (perform sha (some (.writing 110)) (carrier sha) create).2
    ((perform sha (some (.writing 110)) (carrier sha) create).1.log [] (carrier sha)) _ at hfirst
  rw [perform_carrier] at hfirst
  have happ : Call.Appends (afterCarrier sha) (.enqueue .upload "a" operationA []) :=
    ⟨small_fits.1, small_fits.2.2.1⟩
  have hsecond := hfirst.call none (.enqueue .upload "a" operationA []) trivial happ trivial
  rw [Call.outbox_eq happ trivial] at hsecond
  change Run sha _ (perform sha none small (afterCarrier sha)).2
    ((perform sha none small (afterCarrier sha)).1.log [] small)
    ((perform sha none small (afterCarrier sha)).1.flight small) at hsecond
  rw [perform_small] at hsecond
  obtain ⟨o', recovered, hopen, hlog, hentries, _⟩ := hall _ _ _ hsecond
  obtain ⟨o'', hopen', hentries'⟩ := @open_afterSmall sha
  change openJournal sha (afterSmall sha).file [] = _ at hopen
  rw [hopen] at hopen'
  injection hopen' with ho
  subst ho
  have hrec : recovered = [small] := by
    obtain hlog | hlog := hlog
    · exact hlog
    · obtain ⟨r, hr, _⟩ := hlog
      cases hr
  rw [hentries, hrec] at hentries'
  have hget := congrArg (fun m => (SortedMap.get? m 1).map Entry.outcome) hentries'
  revert hget
  decide

/-- As long as nothing can be read behind what each append writes, a reopen shows exactly the
records whose append returned `Ok`, and at most the last failed one after them. -/
theorem clean_appends_leave_no_trace {last : Option Record} (h : Run sha (Clean sha) o log last) :
    Recovers sha o log last := by
  obtain ⟨tail, hheld⟩ := h.holding
  exact hheld.recovers

/-- SHA-256 on the body of `small`. -/
def sampleDigest (body : Str) : Digest :=
  if body = small.body then
    ⟨[21, 4, 52, 39, 100, 128, 21, 108, 165, 151, 198, 8, 209, 210, 33, 58,
      98, 215, 218, 164, 196, 131, 179, 90, 140, 182, 234, 75, 72, 77, 137, 2], rfl⟩
  else ⟨List.replicate 32 0, rfl⟩

/-- The journal after an append of `small` failed with 10 bytes written. -/
def afterPart : Outbox := { create with file := MAGIC ++ (frame sampleDigest small.body).take 10 }

/-- The journal after the append was made again. -/
def afterRetry : Outbox :=
  remember small { create with file := MAGIC ++ frame sampleDigest small.body, validLen := MAGIC.length + 60 }

theorem perform_afterPart : perform sampleDigest (some (.writing 10)) small create = (.failed, afterPart) := by
  have hl := @length_small sampleDigest
  rw [perform_part rfl (by rw [hl]; decide) (by decide)]
  have ho := Framing.overwrite_append MAGIC [] ((frame sampleDigest small.body).take 10)
  rw [List.append_nil, List.drop_nil, List.append_nil] at ho
  exact congrArg (fun file => (Appended.failed, { create with file := file })) ho

theorem perform_afterRetry : perform sampleDigest none small afterPart = (.ok, afterRetry) := by
  have hl := @length_small sampleDigest
  have hfit : afterPart.validLen + (frame sampleDigest small.body).length ≤ MAX_FILE := by
    rw [hl]
    show MAGIC.length + 60 ≤ MAX_FILE
    decide
  have ho := Framing.overwrite_append MAGIC ((frame sampleDigest small.body).take 10)
    (frame sampleDigest small.body)
  have hdrop : ((frame sampleDigest small.body).take 10).drop (frame sampleDigest small.body).length = [] := by
    apply List.drop_eq_nil_of_le
    rw [List.length_take]
    exact Nat.min_le_right _ _
  rw [hdrop, List.append_nil] at ho
  rw [perform_none rfl hfit, hl]
  exact congrArg (fun file => (Appended.ok, remember small
    { afterPart with file := file, validLen := MAGIC.length + 60 })) ho

theorem small_appends {o : Outbox} (ho : o.nextSeq = 1) :
    Call.Appends o (.enqueue .upload "a" operationA []) := by
  refine ⟨?_, small_fits.2.2.1⟩
  show (queuedBody o.nextSeq .upload "a" operationA []).length ≤ MAX_BODY
  rw [ho]
  exact small_fits.1

theorem clean_afterPart : Clean sampleDigest none small afterPart := by
  have hl := @length_small sampleDigest
  have hpart : (written none afterPart (frame sampleDigest small.body)).length =
      (frame sampleDigest small.body).length := by
    unfold written
    rw [List.length_take, hl]
    rfl
  unfold Clean
  simp only [hpart, lt_self_iff_false, if_false]
  refine Or.inl (List.drop_eq_nil_of_le ?_)
  have hleft : afterPart.leftover = (frame sampleDigest small.body).take 10 := List.drop_left
  rw [hleft, List.length_take]
  exact Nat.min_le_right _ _

/-- A run with a failed append, made again. -/
theorem run_afterRetry : Run sampleDigest (Clean sampleDigest) afterRetry [small] none := by
  have hstart : Run sampleDigest (Clean sampleDigest) create [] none := Run.create
  have hfirst := hstart.call (some (.writing 10)) (.enqueue .upload "a" operationA []) trivial
    (small_appends rfl) (clean_of_leftover rfl small_fits _)
  rw [Call.outbox_eq (small_appends rfl) trivial] at hfirst
  change Run sampleDigest _ (perform sampleDigest (some (.writing 10)) small create).2
    ((perform sampleDigest (some (.writing 10)) small create).1.log [] small)
    ((perform sampleDigest (some (.writing 10)) small create).1.flight small) at hfirst
  rw [perform_afterPart] at hfirst
  have hsecond := hfirst.call none (.enqueue .upload "a" operationA []) trivial (small_appends rfl) clean_afterPart
  rw [Call.outbox_eq (small_appends rfl) trivial] at hsecond
  change Run sampleDigest _ (perform sampleDigest none small afterPart).2
    ((perform sampleDigest none small afterPart).1.log [] small)
    ((perform sampleDigest none small afterPart).1.flight small) at hsecond
  rw [perform_afterRetry] at hsecond
  exact hsecond

theorem clean_appends_leave_no_trace_retry : Recovers sampleDigest afterRetry [small] none :=
  clean_appends_leave_no_trace run_afterRetry

/-! ### Truncation and crashes -/

variable (sha) in
/-- Successful appends on a new journal, with the records they appended. -/
inductive Written : Outbox → List Record → Prop
  | create : Written create []
  | call {o : Outbox} {log : List Record} (h : Written o log) (stop : Option Stop) (c : Call)
      (hdue : c.Due o) (happ : c.Appends o) (hok : (perform sha stop (c.record o) o).1 = .ok) :
      Written (c.outbox sha stop o) (log ++ [c.record o])

variable (sha) in
/-- What can follow an open: appends that succeed, and crashes at any point of an append, each with
a reopen.  `new` are the records appended since, those of a crashed append included when their whole
frame was written. -/
inductive Survives (start : Outbox) : Outbox → List Record → Prop
  | start : Survives start start []
  | call {o : Outbox} {new : List Record} (h : Survives start o new) (stop : Option Stop) (c : Call)
      (hdue : c.Due o) (happ : c.Appends o) (hok : (perform sha stop (c.record o) o).1 = .ok) :
      Survives start (c.outbox sha stop o) (new ++ [c.record o])
  | crash {o o' : Outbox} {new : List Record} (h : Survives start o new) (stop : Option Stop) (c : Call)
      (hdue : c.Due o) (happ : c.Appends o)
      (hopen : openJournal sha (c.outbox sha stop o).file (c.outbox sha stop o).aside = .ok o') :
      Survives start o'
        (new ++ if (perform sha stop (c.record o) o).1 = .failed then [] else [c.record o])
  | reopen {o o' : Outbox} {new : List Record} (h : Survives start o new)
      (hopen : openJournal sha o.file o.aside = .ok o') : Survives start o' new

/-- A call on a journal with nothing left behind the log. -/
theorem Holding.call (h : Holding sha o log none tail) (hl : o.leftover = []) (stop : Option Stop) {c : Call}
    (hdue : c.Due o) (happ : c.Appends o) :
    ∃ tail', Holding sha (c.outbox sha stop o) ((Outbox.perform sha stop (c.record o) o).1.log log (c.record o))
      ((Outbox.perform sha stop (c.record o) o).1.flight (c.record o)) tail' ∧
      ((Outbox.perform sha stop (c.record o) o).1 = .ok → (c.outbox sha stop o).leftover = []) := by
  have hnext := h.next happ hdue
  obtain ⟨tail', hheld⟩ := h.perform hnext (clean_of_leftover hl hnext.fits stop) rfl
  rw [Call.outbox_eq happ hdue]
  exact ⟨tail', hheld, fun hok => h.leftover_perform hl rfl hok⟩

/-- No damage appears while a journal is open. -/
theorem damage_perform (hd : o.damage = none) (stop : Option Stop) (r : Record) :
    (perform sha stop r o).2.damage = none := by
  have hclean : ¬ (o.damage.isSome && !o.repaired) = true := by
    rw [hd]
    simp
  unfold perform append writeFrame
  rw [if_neg hclean]
  simp only [Bool.not_true, Bool.false_eq_true, if_false]
  split
  · exact hd
  · split <;> exact hd

/-- A journal that is clean to its end holds nothing but the log. -/
theorem Holding.tail_eq (h : Holding sha o log none tail) (hd : o.damage = none) (hl : o.leftover = []) :
    tail = [] := by
  obtain ⟨bytes, hf, hb⟩ := h.file
  unfold leftover dirty at hl
  rw [hd, if_neg (by simp), h.validLen, hf, List.drop_length_add_append, hb.split, List.drop_left] at hl
  simpa using hl

/-- A journal written by successful appends holds nothing but its records. -/
theorem Written.holding (h : Written sha o log) :
    o.damage = none ∧ o.leftover = [] ∧ Holding sha o log none [] := by
  induction h with
  | create => exact ⟨rfl, rfl, Holding.create⟩
  | @call o₁ log₁ h stop c hdue happ hok ih =>
      obtain ⟨hd, hl, hheld⟩ := ih
      obtain ⟨tail', hheld', hleft⟩ := hheld.call hl stop hdue happ
      have hl' := hleft hok
      have hd' : (c.outbox sha stop o₁).damage = none := by
        rw [Call.outbox_eq happ hdue]
        exact damage_perform hd stop _
      rw [hok] at hheld'
      have ht := Holding.tail_eq hheld' hd' hl'
      subst ht
      exact ⟨hd', hl', hheld'⟩

/-- After an open, successful appends and crashes add to the log and leave nothing behind it. -/
theorem Survives.holding {start : Outbox} {kept new : List Record} (hs : Holding sha start kept none tail)
    (hl : start.leftover = []) (h : Survives sha start o new) :
    o.leftover = [] ∧ ∃ tail', Holding sha o (kept ++ new) none tail' := by
  induction h with
  | start => exact ⟨hl, tail, by rw [List.append_nil]; exact hs⟩
  | call h stop c hdue happ hok ih =>
      obtain ⟨hl, tail', hheld⟩ := ih
      obtain ⟨tail'', hheld', hleft⟩ := hheld.call hl stop hdue happ
      rw [hok] at hheld'
      refine ⟨hleft hok, tail'', ?_⟩
      rw [← List.append_assoc]
      exact hheld'
  | crash h stop c hdue happ hopen ih =>
      obtain ⟨hl, tail', hheld⟩ := ih
      obtain ⟨tail'', hheld', _⟩ := hheld.call hl stop hdue happ
      obtain ⟨o', hopen', hheld'', hleft⟩ := hheld'.reopen _
      rw [hopen] at hopen'
      injection hopen' with ho
      subst ho
      refine ⟨hleft, tail'', ?_⟩
      rw [← List.append_assoc]
      cases hres : (perform sha stop (c.record _) _).1 with
      | ok =>
          rw [hres] at hheld''
          simpa [Appended.log, Appended.flight] using hheld''
      | unsynced =>
          rw [hres] at hheld''
          simpa [Appended.log, Appended.flight] using hheld''
      | failed =>
          rw [hres] at hheld''
          simpa [Appended.log, Appended.flight] using hheld''
  | reopen h hopen ih =>
      obtain ⟨_, tail', hheld⟩ := ih
      obtain ⟨o', hopen', hheld', hleft⟩ := hheld.reopen _
      rw [hopen] at hopen'
      injection hopen' with ho
      subst ho
      refine ⟨hleft, tail', ?_⟩
      rw [Option.toList_none, List.append_nil] at hheld'
      exact hheld'

/-- Opening what a cut inside the header leaves writes the header again. -/
theorem openJournal_of_header {file : Str} (hp : file <+: MAGIC) (hlt : file.length < MAGIC.length)
    (aside : List Str) : openJournal sha file aside = .ok { create with aside := aside } := by
  have h1 : ¬ (file.length < MAGIC.length ∧ ¬ file <+: MAGIC) := by simp [hp]
  have h2 : ¬ (MAGIC.length ≤ file.length ∧ file.take MAGIC.length ≠ MAGIC) := by omega
  unfold openJournal
  rw [if_neg h1, if_neg h2]
  simp only [if_pos hlt, List.drop_length]
  rfl

variable (sha) in
/-- A journal opened after a crash shows exactly these records. -/
structure Shows (o : Outbox) (log : List Record) : Prop where
  entries : o.entries = entriesOf log
  nextSeq : o.nextSeq = count log + 1
  valid : o.file.take o.validLen = MAGIC ++ (format sha).frames log

theorem Holding.shows (h : Holding sha o log none tail) : Shows sha o log where
  entries := h.entries
  nextSeq := h.nextSeq
  valid := by
    obtain ⟨bytes, hf, hb⟩ := h.file
    rw [h.validLen, hf, List.take_length_add_append, hb.split, List.take_left]

variable (sha) in
/-- A journal of these records, cut to `n` bytes, opens as its longest prefix of whole records and
reports the rest as damage; that prefix and every later record stay through any further crashes. -/
def SurvivesCut (o : Outbox) (log : List Record) (n : ℕ) : Prop :=
  ∃ kept lost opened, log = kept ++ lost ∧ openJournal sha (o.file.take n) o.aside = .ok opened ∧
    (kept ≠ [] → MAGIC.length + ((format sha).frames kept).length ≤ n) ∧
    (∀ r more, lost = r :: more → n < MAGIC.length + ((format sha).frames (kept ++ [r])).length) ∧
    Shows sha opened kept ∧
    (if (o.file.take n).length ≤ opened.validLen then opened.damage = none
      else ∃ reason, opened.damage =
        some ⟨opened.validLen, (o.file.take n).length - opened.validLen, reason⟩) ∧
    ∀ later new, Survives sha opened later new →
      ∃ reopened, openJournal sha later.file later.aside = .ok reopened ∧ Shows sha reopened (kept ++ new)

theorem crash_recovery_exact (h : Written sha o log) (n : ℕ) : SurvivesCut sha o log n := by
  obtain ⟨_, _, hheld⟩ := h.holding
  obtain ⟨bytes, hf, hb⟩ := hheld.file
  have hafter : ∀ {opened : Outbox} {kept : List Record} {tail : Str}, Holding sha opened kept none tail →
      opened.leftover = [] → ∀ later new, Survives sha opened later new →
        ∃ reopened, openJournal sha later.file later.aside = .ok reopened ∧ Shows sha reopened (kept ++ new) := by
    intro opened kept tail hopened hleft later new hs
    obtain ⟨_, tail', hlater⟩ := hs.holding hopened hleft
    obtain ⟨reopened, hopen, hre, _⟩ := hlater.reopen later.aside
    rw [Option.toList_none, List.append_nil] at hre
    exact ⟨reopened, hopen, hre.shows⟩
  by_cases hn : n < MAGIC.length
  · have hlen : (o.file.take n).length = n := by
      rw [List.length_take, hf, List.length_append]
      omega
    have hp : o.file.take n <+: MAGIC := by
      rw [hf, List.take_append_of_le_length hn.le]
      exact List.take_prefix _ _
    have hcreate : Holding sha { create with aside := o.aside } [] none [] := Holding.create.of_aside o.aside
    refine ⟨[], log, { create with aside := o.aside }, rfl,
      openJournal_of_header hp (by omega) o.aside, fun hc => absurd rfl hc, ?_, hcreate.shows, ?_,
      hafter hcreate rfl⟩
    · intro r more _
      omega
    · rw [if_pos (by rw [hlen]; exact hn.le)]
      rfl
  · obtain ⟨kept, lost, rest, hsplit, hcut, _, hlost⟩ := hb.cut rfl (n - MAGIC.length)
    have htake : o.file.take n = MAGIC ++ bytes.take (n - MAGIC.length) := by
      rw [hf, List.take_append, List.take_of_length_le (by omega)]
    have hnum : NumberedFrom 0 kept := by
      have hnumbered := hheld.numbered
      rw [Option.toList_none, List.append_nil, hsplit] at hnumbered
      exact (numberedFrom_append.mp hnumbered).1
    obtain ⟨opened, hopen, hop⟩ := openJournal_eq htake hcut hnum o.aside
    have hsize : (o.file.take n).length ≤ MAX_FILE := by
      have hs := hheld.size
      rw [List.length_take]
      omega
    have hheld' := hop.holding htake hcut hnum hsize
    have hkept : ((format sha).frames kept).length ≤ n - MAGIC.length := by
      have hle : ((format sha).frames kept).length ≤ (bytes.take (n - MAGIC.length)).length := by
        rw [hcut.split]
        simp only [List.length_append]
        omega
      rw [List.length_take] at hle
      omega
    refine ⟨kept, lost, opened, hsplit, hopen, fun _ => by omega, ?_, hheld'.shows, ?_, hafter hheld' hop.leftover_eq⟩
    · intro r more hm
      have hlt := hlost r more hm
      omega
    · have hl := hop.length_eq
      have hd := hop.damage
      by_cases hrest : rest = []
      · rw [if_pos hrest] at hd
        rw [if_pos (by rw [hl, hrest]; simp)]
        exact hd
      · have hpos := List.length_pos_of_ne_nil hrest
        rw [if_neg hrest] at hd
        obtain ⟨reason, hd⟩ := hd
        rw [if_neg (by omega)]
        refine ⟨reason, ?_⟩
        rw [hd, hl, Nat.add_sub_cancel_left]

theorem written_small : Written sampleDigest
    (Call.outbox sampleDigest none create (.enqueue .upload "a" operationA [])) [small] := by
  have hl := @length_small sampleDigest
  have hok : (perform sampleDigest none small create).1 = .ok := by
    rw [perform_none rfl (by rw [hl]; decide)]
  exact Written.create.call none (.enqueue .upload "a" operationA []) trivial (small_appends rfl) hok

theorem crash_recovery_exact_small : SurvivesCut sampleDigest
    (Call.outbox sampleDigest none create (.enqueue .upload "a" operationA [])) [small] 40 :=
  crash_recovery_exact written_small 40

end digest

end Outbox

end Javelin
