import Javelin.JournalRuns
import Mathlib.Logic.Relation

/-! # Replay

A `Client` is an outbox with what the outside has seen of it: the records `enqueue` returned `Ok`
for, and the deliveries made, each with the journal at that moment.  A `Step` is an `enqueue`, a
pass of `replay` or a crash with a reopen; any append may fail, and a pass may be cut off anywhere.

`Consistent` relates the entries to that history and is kept by every step whose appends are clean
(`Step.inv`).  It gives the order of the deliveries and the single outcome of each record
(`replay_is_faithful`).  A failed append
that comes back behind a shorter frame breaks it (`replay_reads_forged_outcome`). -/

namespace Javelin

open KeyedList Bytes

namespace Outbox

/-- What is delivered of an entry. -/
def Entry.request (e : Entry) : Entry := { e with outcome := none }

/-- An outbox and what the outside has seen of it. -/
structure Client where
  outbox : Outbox
  queued : List Entry
  sent : List Delivery

namespace Client

/-- A client with a new journal. -/
def start : Client := ⟨create, [], []⟩

end Client

section digest
variable {sha : Str → Digest}

variable (sha) in
/-- Every append of a pass meets `cond`. -/
def AllMeet (cond : Option Stop → Record → Outbox → Prop) : List ℕ → List Turn → Outbox → Prop
  | seq :: due, turn :: turns, o =>
      match turn.answer with
      | .error _ => True
      | .ok outcome =>
          ((Call.acknowledge seq outcome).Appends o → cond turn.stop (.acked seq outcome) o) ∧
            AllMeet cond due turns (acknowledge sha turn.stop seq outcome o).2
  | _, _, _ => True

variable (sha) in
/-- One step of a client whose appends meet `cond`. -/
inductive Step (cond : Option Stop → Record → Outbox → Prop) : Client → Client → Prop
  | enqueue (c : Client) (stop : Option Stop) (kind : Kind) (scope : String) (operation : Operation)
      (payload : Str)
      (hcond : (Call.enqueue kind scope operation payload).Appends c.outbox →
        cond stop (.queued c.outbox.nextSeq kind scope operation payload) c.outbox) :
      Step cond c
        { outbox := (enqueue sha stop kind scope operation payload c.outbox).2
          queued := match (enqueue sha stop kind scope operation payload c.outbox).1 with
            | .ok seq => c.queued ++ [⟨seq, kind, scope, operation, payload, none⟩]
            | .error _ => c.queued
          sent := c.sent }
  | replay (c : Client) (turns : List Turn)
      (hcond : AllMeet sha cond (c.outbox.pending.map Entry.seq) turns c.outbox) :
      Step cond c ⟨(replay sha turns c.outbox).outbox, c.queued, c.sent ++ (replay sha turns c.outbox).sent⟩
  | crash (c : Client) (o : Outbox) (hopen : openJournal sha c.outbox.file c.outbox.aside = .ok o) :
      Step cond c ⟨o, c.queued, c.sent⟩

/-! ### Entries and their history -/

/-- The record is in the entries, under its own request. -/
def Has (entries : Entries) (e : Entry) : Prop :=
  ∃ e', entries.get? e.seq = some e' ∧ e'.request = e.request

/-- Every record before number `n` has an outcome. -/
def Settled (entries : Entries) (n : ℕ) : Prop :=
  ∀ k e, entries.get? k = some e → k < n → e.outcome ≠ none

/-- Entries stay, with their requests, and outcomes stay as they are. -/
def Keeps (entries entries' : Entries) : Prop :=
  ∀ k e, entries.get? k = some e → ∃ e', entries'.get? k = some e' ∧ e'.request = e.request ∧
    (e.outcome ≠ none → e'.outcome = e.outcome)

theorem Keeps.refl (entries : Entries) : Keeps entries entries := fun _ e h => ⟨e, h, rfl, fun _ => rfl⟩

theorem Keeps.trans {a b c : Entries} (h : Keeps a b) (h' : Keeps b c) : Keeps a c := by
  intro k e hget
  obtain ⟨e₁, hget₁, hreq₁, hout₁⟩ := h k e hget
  obtain ⟨e₂, hget₂, hreq₂, hout₂⟩ := h' k e₁ hget₁
  refine ⟨e₂, hget₂, hreq₂.trans hreq₁, fun hne => ?_⟩
  have h1 := hout₁ hne
  rw [hout₂ (by rw [h1]; exact hne), h1]

/-- The entries as the history explains them. -/
structure Consistent (entries : Entries) (queued : List Entry) (sent : List Delivery) : Prop where
  keyed : ∀ k e, entries.get? k = some e → e.seq = k
  ordered : sent.Pairwise (fun d e => d.entry.seq ≤ e.entry.seq)
  delivered : ∀ d ∈ sent, Has entries d.entry ∧ Settled entries d.entry.seq
  outcomes : ∀ k e x, entries.get? k = some e → e.outcome = some x →
    ∃ d ∈ sent, d.entry.seq = k ∧ d.answer = .ok x
  queued : ∀ e ∈ queued, Has entries e

/-- A record joins the entries: queued under a number after all others, or as the reply of the node
to a pending record. -/
structure Joins (entries : Entries) (sent : List Delivery) (r : Record) : Prop where
  fits : r.Fits entries
  next : ∀ seq kind scope operation payload, r = .queued seq kind scope operation payload →
    ∀ k e, entries.get? k = some e → k < seq
  replied : ∀ seq outcome, r = .acked seq outcome → ∃ d ∈ sent, d.entry.seq = seq ∧ d.answer = .ok outcome

section joins
variable {entries : Entries} {queued : List Entry} {sent : List Delivery} {r : Record}

/-- Entries stay, with their requests and outcomes, when a record joins. -/
theorem Record.Fits.keeps (h : r.Fits entries) : Keeps entries (r.effect entries) := by
  intro k e hget
  cases r with
  | queued seq kind scope operation payload =>
      obtain ⟨_, _, _, hnone⟩ := h
      have hne : k ≠ seq := by
        intro he
        rw [he, hnone] at hget
        cases hget
      refine ⟨e, ?_, rfl, fun _ => rfl⟩
      show (entries.insert seq _).get? k = some e
      rw [SortedMap.get?_insert, if_neg (Ne.symm hne)]
      exact hget
  | acked seq outcome =>
      obtain ⟨_, _, entry, hentry, hnone⟩ := h
      rw [Record.effect_acked hentry]
      by_cases hk : seq = k
      · subst hk
        rw [hentry] at hget
        injection hget with hget
        subst hget
        refine ⟨{ entry with outcome := some outcome }, ?_, rfl, fun hne => absurd hnone hne⟩
        rw [SortedMap.get?_insert, if_pos rfl]
      · refine ⟨e, ?_, rfl, fun _ => rfl⟩
        rw [SortedMap.get?_insert, if_neg hk]
        exact hget

theorem Has.effect {e : Entry} (h : Has entries e) (hr : r.Fits entries) : Has (r.effect entries) e := by
  obtain ⟨e', hget, hreq⟩ := h
  obtain ⟨e'', hget', hreq', _⟩ := hr.keeps _ _ hget
  exact ⟨e'', hget', hreq'.trans hreq⟩

theorem Settled.effect {e : Entry} (h : Settled entries e.seq) (he : Has entries e)
    (hr : Joins entries sent r) : Settled (r.effect entries) e.seq := by
  intro k e₁ hget hlt
  cases hold : entries.get? k with
  | some e₀ =>
      obtain ⟨e₂, hget', _, hout⟩ := hr.fits.keeps _ _ hold
      rw [hget] at hget'
      injection hget' with hget'
      subst hget'
      have hne := h k e₀ hold hlt
      rw [hout hne]
      exact hne
  | none =>
      -- Only a queued record is new, and its number is after that of `e`.
      obtain ⟨e', hhas, _⟩ := he
      cases r with
      | queued seq kind scope operation payload =>
          have hk := hr.next seq kind scope operation payload rfl e.seq e' hhas
          change (entries.insert seq _).get? k = some e₁ at hget
          rw [SortedMap.get?_insert, if_neg (by omega), hold] at hget
          cases hget
      | acked seq outcome =>
          obtain ⟨_, _, entry, hentry, _⟩ := hr.fits
          rw [Record.effect_acked hentry, SortedMap.get?_insert] at hget
          split at hget
          · rename_i hs
            subst hs
            rw [hentry] at hold
            cases hold
          · rw [hold] at hget
            cases hget

theorem Consistent.effect (h : Consistent entries queued sent) (hr : Joins entries sent r) :
    Consistent (r.effect entries) queued sent where
  keyed := by
    intro k e hget
    cases r with
    | queued seq kind scope operation payload =>
        change (entries.insert seq _).get? k = some e at hget
        rw [SortedMap.get?_insert] at hget
        split at hget
        · rename_i hs
          subst hs
          injection hget with hget
          rw [← hget]
        · exact h.keyed k e hget
    | acked seq outcome =>
        obtain ⟨_, _, entry, hentry, _⟩ := hr.fits
        rw [Record.effect_acked hentry, SortedMap.get?_insert] at hget
        split at hget
        · rename_i hs
          subst hs
          injection hget with hget
          rw [← hget]
          exact h.keyed _ entry hentry
        · exact h.keyed k e hget
  ordered := h.ordered
  delivered := by
    intro d hd
    obtain ⟨hhas, hsettled⟩ := h.delivered d hd
    exact ⟨hhas.effect hr.fits, hsettled.effect hhas hr⟩
  outcomes := by
    intro k e x hget hout
    cases r with
    | queued seq kind scope operation payload =>
        change (entries.insert seq _).get? k = some e at hget
        rw [SortedMap.get?_insert] at hget
        split at hget
        · injection hget with hget
          subst hget
          cases hout
        · exact h.outcomes k e x hget hout
    | acked seq outcome =>
        obtain ⟨_, _, entry, hentry, _⟩ := hr.fits
        rw [Record.effect_acked hentry, SortedMap.get?_insert] at hget
        split at hget
        · rename_i hs
          subst hs
          injection hget with hget
          subst hget
          injection hout with hout
          subst hout
          exact hr.replied seq outcome rfl
        · exact h.outcomes k e x hget hout
  queued := by
    intro e he
    exact (h.queued e he).effect hr.fits

end joins

/-! ### Clients -/

variable (sha) in
/-- A delivery was made when every record before it was durably settled, and itself durable. -/
def Timely (d : Delivery) : Prop :=
  ∃ o, openJournal sha d.journal [] = .ok o ∧ Has o.entries d.entry ∧ Settled o.entries d.entry.seq ∧
    ∀ k, 1 ≤ k → k < d.entry.seq → (o.entries.get? k).isSome

variable (sha) in
/-- The invariant of a client. -/
structure Inv (c : Client) (log : List Record) (flight : Option Record) (tail : Str) : Prop where
  held : Holding sha c.outbox log flight tail
  consistent : Consistent c.outbox.entries c.queued c.sent
  timely : ∀ d ∈ c.sent, Timely sha d
  replied : ∀ seq outcome, flight = some (.acked seq outcome) →
    ∃ d ∈ c.sent, d.entry.seq = seq ∧ d.answer = .ok outcome

namespace Inv
variable {c : Client} {log : List Record} {flight : Option Record} {tail : Str}

theorem start : Inv sha Client.start [] none [] where
  held := Holding.create
  consistent :=
    { keyed := fun k e h => by cases h
      ordered := List.Pairwise.nil
      delivered := fun d hd => by cases hd
      outcomes := fun k e x h => by cases h
      queued := fun e he => by cases he }
  timely := fun d hd => by cases hd
  replied := fun seq outcome h => by cases h

/-- A numbered record that fits joins the entries. -/
theorem joins (h : Inv sha c log flight tail) {r : Record} (hfits : r.Fits c.outbox.entries)
    (hnum : NumberedFrom (count log) [r])
    (hreplied : ∀ seq outcome, r = .acked seq outcome →
      ∃ d ∈ c.sent, d.entry.seq = seq ∧ d.answer = .ok outcome) : Joins c.outbox.entries c.sent r where
  fits := hfits
  next := by
    intro seq kind scope operation payload hr k e hget
    subst hr
    have hk := (h.held.ranged k).mp (by rw [hget]; rfl)
    have hs := hnum.1
    omega
  replied := hreplied

theorem joins_flight {r : Record} (h : Inv sha c log (some r) tail) :
    Joins c.outbox.entries c.sent r := by
  have hfits := (Framing.Format.fitsAll_append.mp h.held.fits).2
  have hnum := (numberedFrom_append.mp h.held.numbered).2
  rw [run_eq, ← h.held.entries] at hfits
  rw [Nat.zero_add] at hnum
  refine h.joins (Framing.Format.fitsAll_singleton.mp hfits) hnum ?_
  intro seq outcome hr
  exact h.replied seq outcome (by rw [hr])

theorem reopen (h : Inv sha c log flight tail) (aside : List Str) :
    ∃ o, openJournal sha c.outbox.file aside = .ok o ∧ Keeps c.outbox.entries o.entries ∧
      Inv sha ⟨o, c.queued, c.sent⟩ (log ++ flight.toList) none tail := by
  obtain ⟨o, hopen, hheld, _⟩ := h.held.reopen aside
  have hentries := hheld.entries
  have hold := h.held.entries
  have hnone : ∀ seq outcome, (none : Option Record) = some (.acked seq outcome) →
      ∃ d ∈ c.sent, d.entry.seq = seq ∧ d.answer = .ok outcome := by
    intro seq outcome hc
    cases hc
  cases flight with
  | none =>
      rw [Option.toList_none, List.append_nil, ← hold] at hentries
      refine ⟨o, hopen, ?_, hheld, ?_, h.timely, hnone⟩
      · rw [hentries]
        exact Keeps.refl _
      · show Consistent o.entries _ _
        rw [hentries]
        exact h.consistent
  | some r =>
      have hjoins := h.joins_flight
      have heffect : o.entries = r.effect c.outbox.entries := by
        rw [hentries, hold]
        unfold entriesOf
        rw [Option.toList_some, List.foldl_append]
        rfl
      refine ⟨o, hopen, ?_, hheld, ?_, h.timely, hnone⟩
      · rw [heffect]
        exact hjoins.fits.keeps
      · show Consistent o.entries _ _
        rw [heffect]
        exact h.consistent.effect hjoins

/-- A clean append. -/
theorem perform (h : Inv sha c log flight tail) {stop : Option Stop} {r : Record}
    (hnext : Next c.outbox log r) (hclean : Clean sha stop r c.outbox)
    (hreplied : ∀ seq outcome, r = .acked seq outcome →
      ∃ d ∈ c.sent, d.entry.seq = seq ∧ d.answer = .ok outcome) :
    (∃ log' flight' tail',
      Inv sha ⟨(Outbox.perform sha stop r c.outbox).2, c.queued, c.sent⟩ log' flight' tail') ∧
    (Outbox.perform sha stop r c.outbox).2.entries =
      if (Outbox.perform sha stop r c.outbox).1 = .ok then r.effect c.outbox.entries else c.outbox.entries := by
  obtain ⟨tail', hheld⟩ := h.held.perform hnext hclean rfl
  have hjoins := h.joins hnext.fits hnext.numbered hreplied
  have hentries := hheld.entries
  have hold := h.held.entries
  cases hres : (Outbox.perform sha stop r c.outbox).1 with
  | ok =>
      rw [hres] at hheld hentries
      have heffect : (Outbox.perform sha stop r c.outbox).2.entries = r.effect c.outbox.entries := by
        rw [hentries, hold]
        show entriesOf (log ++ [r]) = _
        unfold entriesOf
        rw [List.foldl_append]
        rfl
      refine ⟨⟨_, _, _, hheld, ?_, h.timely, fun seq outcome hc => by cases hc⟩, by rw [if_pos rfl, heffect]⟩
      show Consistent (Outbox.perform sha stop r c.outbox).2.entries _ _
      rw [heffect]
      exact h.consistent.effect hjoins
  | unsynced =>
      rw [hres] at hheld hentries
      have hsame : (Outbox.perform sha stop r c.outbox).2.entries = c.outbox.entries := hentries.trans hold.symm
      refine ⟨⟨_, _, _, hheld, ?_, h.timely, ?_⟩, by rw [if_neg (by simp), hsame]⟩
      · show Consistent (Outbox.perform sha stop r c.outbox).2.entries _ _
        rw [hsame]
        exact h.consistent
      · intro seq outcome hr
        injection hr with hr
        exact hreplied seq outcome hr
  | failed =>
      rw [hres] at hheld hentries
      have hsame : (Outbox.perform sha stop r c.outbox).2.entries = c.outbox.entries := hentries.trans hold.symm
      refine ⟨⟨_, _, _, hheld, ?_, h.timely, fun seq outcome hc => by cases hc⟩, by rw [if_neg (by simp), hsame]⟩
      show Consistent (Outbox.perform sha stop r c.outbox).2.entries _ _
      rw [hsame]
      exact h.consistent

/-- Delivering the first pending record. -/
theorem deliver (h : Inv sha c log flight tail) {seq : ℕ} {entry : Entry}
    (hget : c.outbox.entries.get? seq = some entry) (hnone : entry.outcome = none)
    (hfirst : ∀ k e, c.outbox.entries.get? k = some e → e.outcome = none → seq ≤ k)
    (answer : Except Fault Str) :
    Inv sha ⟨c.outbox, c.queued, c.sent ++ [⟨entry, c.outbox.file, answer⟩]⟩ log flight tail := by
  have hseq := h.consistent.keyed seq entry hget
  have hhas : Has c.outbox.entries entry := ⟨entry, by rw [hseq]; exact hget, rfl⟩
  have hsettled : Settled c.outbox.entries entry.seq := by
    intro k e hk hlt hout
    have hle := hfirst k e hk hout
    omega
  have hmono : ∀ {d : Delivery}, d ∈ c.sent → d ∈ c.sent ++ [⟨entry, c.outbox.file, answer⟩] :=
    fun hd => List.mem_append_left _ hd
  refine ⟨h.held, ?_, ?_, ?_⟩
  · refine ⟨h.consistent.keyed, ?_, ?_, ?_, h.consistent.queued⟩
    · rw [List.pairwise_append]
      refine ⟨h.consistent.ordered, List.pairwise_singleton _ _, ?_⟩
      intro d hd e he
      rw [List.mem_singleton.mp he]
      show d.entry.seq ≤ entry.seq
      by_contra hlt
      exact (h.consistent.delivered d hd).2 seq entry hget (by omega) hnone
    · intro d hd
      obtain hd | hd := List.mem_append.mp hd
      · exact h.consistent.delivered d hd
      · rw [List.mem_singleton.mp hd]
        exact ⟨hhas, hsettled⟩
    · intro k e x hk hout
      obtain ⟨d, hd, hdk⟩ := h.consistent.outcomes k e x hk hout
      exact ⟨d, hmono hd, hdk⟩
  · intro d hd
    obtain hd | hd := List.mem_append.mp hd
    · exact h.timely d hd
    · rw [List.mem_singleton.mp hd]
      obtain ⟨o, hopen, hkeeps, hinv⟩ := h.reopen []
      have hranged := h.held.ranged
      refine ⟨o, hopen, ?_, ?_, ?_⟩
      · obtain ⟨e', hget', hreq, _⟩ := hkeeps seq entry hget
        exact ⟨e', by rw [hseq]; exact hget', hreq⟩
      · cases flight with
        | none =>
            have hsame : o.entries = c.outbox.entries := by
              rw [hinv.held.entries, h.held.entries, Option.toList_none, List.append_nil]
            rw [hsame]
            exact hsettled
        | some r =>
            have hsame : o.entries = r.effect c.outbox.entries := by
              rw [hinv.held.entries, h.held.entries]
              unfold entriesOf
              rw [Option.toList_some, List.foldl_append]
              rfl
            rw [hsame]
            exact hsettled.effect hhas h.joins_flight
      · intro k h1 hlt
        have hmax := (hranged seq).mp (by rw [hget]; rfl)
        have hlt' : k < entry.seq := hlt
        have hk := (hranged k).mpr ⟨h1, by omega⟩
        obtain ⟨e, he⟩ := Option.isSome_iff_exists.mp hk
        obtain ⟨e', he', _⟩ := hkeeps k e he
        rw [he']
        rfl
  · intro seq' outcome hf
    obtain ⟨d, hd, hdk⟩ := h.replied seq' outcome hf
    exact ⟨d, hmono hd, hdk⟩

end Inv

/-! ### Steps -/

theorem enqueue_result {o : Outbox} {kind : Kind} {scope : String} {operation : Operation} {payload : Str}
    (stop : Option Stop) (seq : ℕ) : (enqueue sha stop kind scope operation payload o).1 = .ok seq ↔
      seq = o.nextSeq ∧ (Call.enqueue kind scope operation payload).Appends o ∧
        (perform sha stop (.queued o.nextSeq kind scope operation payload) o).1 = .ok := by
  unfold enqueue
  by_cases hs : scope = ""
  · rw [if_pos hs]
    constructor
    · intro h
      cases h
    · intro h
      exact absurd hs h.2.1.2
  · rw [if_neg hs]
    by_cases hl : MAX_BODY < (queuedBody o.nextSeq kind scope operation payload).length
    · simp only [if_pos hl]
      constructor
      · intro h
        cases h
      · intro h
        exact absurd h.2.1.1 (not_le.mpr hl)
    · simp only [if_neg hl]
      have happ : (Call.enqueue kind scope operation payload).Appends o := ⟨not_lt.mp hl, hs⟩
      show _ ↔ _ ∧ _ ∧ (settle _ (append sha stop (queuedBody o.nextSeq kind scope operation payload) o)).1 = .ok
      cases ha : append sha stop (queuedBody o.nextSeq kind scope operation payload) o with
      | mk res o' => cases res <;> simp [settle, happ, eq_comm]

theorem acknowledge_result {o : Outbox} {seq : ℕ} {outcome : Str} (stop : Option Stop) :
    (acknowledge sha stop seq outcome o).1 = .ok () ↔
      (Call.acknowledge seq outcome).Appends o ∧ (perform sha stop (.acked seq outcome) o).1 = .ok := by
  unfold acknowledge
  by_cases hl : MAX_BODY < (ackedBody seq outcome).length
  · simp only [if_pos hl]
    constructor
    · intro h
      cases h
    · intro h
      exact absurd h.1.1 (not_le.mpr hl)
  · simp only [if_neg hl]
    have happ : (Call.acknowledge seq outcome).Appends o := ⟨not_lt.mp hl, trivial⟩
    show _ ↔ _ ∧ (settle _ (append sha stop (ackedBody seq outcome) o)).1 = .ok
    cases ha : append sha stop (ackedBody seq outcome) o with
    | mk res o' => cases res <;> simp [settle, happ]

theorem mem_pending {o : Outbox} {e : Entry} :
    e ∈ o.pending ↔ (∃ k, o.entries.get? k = some e) ∧ e.outcome = none := by
  unfold pending
  rw [List.mem_filter, List.mem_map, Option.isNone_iff_eq_none]
  constructor
  · intro h
    obtain ⟨⟨⟨k, e'⟩, hmem, he⟩, hnone⟩ := h
    change e' = e at he
    subst he
    exact ⟨⟨k, SortedMap.get?_eq_some.mpr hmem⟩, hnone⟩
  · intro h
    obtain ⟨⟨k, hget⟩, hnone⟩ := h
    exact ⟨⟨(k, e), SortedMap.get?_eq_some.mp hget, rfl⟩, hnone⟩

namespace Inv
variable {c : Client} {log : List Record} {flight : Option Record} {tail : Str}

/-- The acknowledgement of a pending record by the reply to its delivery. -/
theorem acknowledge (h : Inv sha c log flight tail) {seq : ℕ} {entry : Entry} {outcome : Str}
    (hget : c.outbox.entries.get? seq = some entry) (hnone : entry.outcome = none)
    (hreplied : ∃ d ∈ c.sent, d.entry.seq = seq ∧ d.answer = .ok outcome) {stop : Option Stop}
    (hclean : (Call.acknowledge seq outcome).Appends c.outbox → Clean sha stop (.acked seq outcome) c.outbox)
    {res : Except Failure Unit} {o : Outbox} (ho : Outbox.acknowledge sha stop seq outcome c.outbox = (res, o)) :
    (∃ log' flight' tail', Inv sha ⟨o, c.queued, c.sent⟩ log' flight' tail') ∧
      Keeps c.outbox.entries o.entries ∧
      (res = .ok () → o.entries = c.outbox.entries.insert seq { entry with outcome := some outcome }) := by
  have hresult := @acknowledge_result sha c.outbox seq outcome stop
  rw [ho] at hresult
  have houtbox : (Call.acknowledge seq outcome).outbox sha stop c.outbox = o := by
    show (Outbox.acknowledge sha stop seq outcome c.outbox).2 = o
    rw [ho]
  by_cases happ : (Call.acknowledge seq outcome).Appends c.outbox
  · have hdue : (Call.acknowledge seq outcome).Due c.outbox := ⟨entry, hget, hnone⟩
    have hnext := h.held.next happ hdue
    obtain ⟨hinv, hentries⟩ := h.perform hnext (hclean happ) (by
      intro seq' outcome' hr
      injection hr with h1 h2
      subst h1 h2
      exact hreplied)
    rw [Call.outbox_eq happ hdue] at houtbox
    subst houtbox
    refine ⟨hinv, ?_, ?_⟩
    · show Keeps _ (Outbox.perform sha stop _ c.outbox).2.entries
      rw [hentries]
      split
      · exact hnext.fits.keeps
      · exact Keeps.refl _
    · intro hres
      have hok := (hresult.mp hres).2
      show (Outbox.perform sha stop (.acked seq outcome) c.outbox).2.entries = _
      change (Outbox.perform sha stop (.acked seq outcome) c.outbox).2.entries =
        if (Outbox.perform sha stop (.acked seq outcome) c.outbox).1 = .ok then
          Record.effect c.outbox.entries (.acked seq outcome) else c.outbox.entries at hentries
      rw [hentries, if_pos hok, Record.effect_acked hget]
  · rw [Call.outbox_of_refused happ] at houtbox
    subst houtbox
    refine ⟨⟨log, flight, tail, h⟩, Keeps.refl _, ?_⟩
    intro hres
    exact absurd (hresult.mp hres).1 happ

/-- A pass of replay: the records of `due` are the pending ones, in order. -/
theorem replayDue {due : List ℕ} {turns : List Turn} {report : Replay}
    (h : Inv sha c log flight tail)
    (hmeet : AllMeet sha (Clean sha) due turns c.outbox) (hasc : due.Pairwise (· < ·))
    (hdue : ∀ k, k ∈ due ↔ ∃ e, c.outbox.entries.get? k = some e ∧ e.outcome = none)
    {pass : Pass} (hp : pass = Outbox.replayDue sha due turns c.outbox report) :
    Keeps c.outbox.entries pass.outbox.entries ∧
      ∃ log' flight' tail', Inv sha ⟨pass.outbox, c.queued, c.sent ++ pass.sent⟩ log' flight' tail' := by
  have hstay : Keeps c.outbox.entries c.outbox.entries ∧
      ∃ log' flight' tail', Inv sha ⟨c.outbox, c.queued, c.sent ++ []⟩ log' flight' tail' := by
    rw [List.append_nil]
    exact ⟨Keeps.refl _, log, flight, tail, h⟩
  induction due generalizing c log flight tail turns report pass with
  | nil =>
      subst hp
      exact hstay
  | cons seq due ih =>
      cases turns with
      | nil =>
          subst hp
          exact hstay
      | cons turn turns =>
          obtain ⟨entry, hget, hnone⟩ := (hdue seq).mp List.mem_cons_self
          rw [Outbox.replayDue, hget] at hp
          have hfirst : ∀ k e, c.outbox.entries.get? k = some e → e.outcome = none → seq ≤ k := by
            intro k e hk hout
            obtain hk | hk := List.mem_cons.mp ((hdue k).mpr ⟨e, hk, hout⟩)
            · exact hk.ge
            · exact (List.rel_of_pairwise_cons hasc hk).le
          have hdeliver := h.deliver hget hnone hfirst turn.answer
          cases hans : turn.answer with
          | error fault =>
              rw [hans] at hp hdeliver
              subst hp
              exact ⟨Keeps.refl _, log, flight, tail, hdeliver⟩
          | ok outcome =>
              rw [hans] at hp hdeliver
              rw [AllMeet, hans] at hmeet
              obtain ⟨hclean, hmeet⟩ := hmeet
              have hseq := h.consistent.keyed seq entry hget
              cases hack : Outbox.acknowledge sha turn.stop seq outcome c.outbox with
              | mk res o =>
                  have hreplied : ∃ d ∈ c.sent ++ [⟨entry, c.outbox.file, .ok outcome⟩],
                      d.entry.seq = seq ∧ d.answer = .ok outcome :=
                    ⟨_, List.mem_append_right _ List.mem_cons_self, hseq, rfl⟩
                  obtain ⟨hinv, hkeeps, hentries⟩ := hdeliver.acknowledge hget hnone hreplied hclean hack
                  obtain ⟨log', flight', tail', hinv⟩ := hinv
                  simp only [hack] at hp
                  cases res with
                  | error failure =>
                      subst hp
                      exact ⟨hkeeps, log', flight', tail', hinv⟩
                  | ok _ =>
                      have hentries := hentries rfl
                      rw [hack] at hmeet
                      have hdue' : ∀ k, k ∈ due ↔ ∃ e, o.entries.get? k = some e ∧ e.outcome = none := by
                        intro k
                        rw [hentries, SortedMap.get?_insert]
                        by_cases hk : seq = k
                        · rw [if_pos hk]
                          subst hk
                          constructor
                          · intro hmem
                            exact absurd (List.rel_of_pairwise_cons hasc hmem) (lt_irrefl _)
                          · intro he
                            obtain ⟨e, he, hout⟩ := he
                            injection he with he
                            subst he
                            cases hout
                        · rw [if_neg hk, ← hdue k, List.mem_cons]
                          constructor
                          · exact Or.inr
                          · intro hmem
                            exact hmem.resolve_left (Ne.symm hk)
                      obtain ⟨hkeeps', log'', flight'', tail'', hinv''⟩ := ih (c := ⟨o, c.queued, _⟩) hinv hmeet
                        hasc.of_cons hdue' rfl ⟨Keeps.refl _, log', flight', tail', by
                          rw [List.append_nil]; exact hinv⟩
                      subst hp
                      refine ⟨hkeeps.trans hkeeps', log'', flight'', tail'', ?_⟩
                      rw [List.append_assoc] at hinv''
                      exact hinv''

/-- A record that is in the entries was queued. -/
theorem queue (h : Inv sha c log flight tail) {e : Entry} (he : Has c.outbox.entries e) :
    Inv sha ⟨c.outbox, c.queued ++ [e], c.sent⟩ log flight tail where
  held := h.held
  consistent :=
    { keyed := h.consistent.keyed
      ordered := h.consistent.ordered
      delivered := h.consistent.delivered
      outcomes := h.consistent.outcomes
      queued := by
        intro e' hmem
        obtain hmem | hmem := List.mem_append.mp hmem
        · exact h.consistent.queued e' hmem
        · rw [List.mem_singleton.mp hmem]
          exact he }
  timely := h.timely
  replied := h.replied

/-- The numbers of the pending records, in order. -/
theorem pending (h : Inv sha c log flight tail) :
    (c.outbox.pending.map Entry.seq).Pairwise (· < ·) ∧
      ∀ k, k ∈ c.outbox.pending.map Entry.seq ↔
        ∃ e, c.outbox.entries.get? k = some e ∧ e.outcome = none := by
  constructor
  · rw [List.pairwise_map]
    apply List.Pairwise.filter
    rw [List.pairwise_map]
    refine List.Pairwise.imp_of_mem ?_ c.outbox.entries.ascending
    intro a b ha hb hlt
    have h1 := h.consistent.keyed a.1 a.2 (SortedMap.get?_eq_some.mpr ha)
    have h2 := h.consistent.keyed b.1 b.2 (SortedMap.get?_eq_some.mpr hb)
    show a.2.seq < b.2.seq
    rw [h1, h2]
    exact hlt
  · intro k
    rw [List.mem_map]
    constructor
    · intro hk
      obtain ⟨e, he, hseq⟩ := hk
      obtain ⟨⟨k', hget⟩, hnone⟩ := mem_pending.mp he
      have hkey := h.consistent.keyed k' e hget
      refine ⟨e, ?_, hnone⟩
      rw [← hseq, hkey]
      exact hget
    · intro hk
      obtain ⟨e, hget, hnone⟩ := hk
      exact ⟨e, mem_pending.mpr ⟨⟨k, hget⟩, hnone⟩, h.consistent.keyed k e hget⟩

end Inv

/-- A step whose appends are clean keeps the invariant, every entry and every outcome. -/
theorem Step.inv {c c' : Client} (hs : Step sha (Clean sha) c c') {log : List Record} {flight : Option Record}
    {tail : Str} (h : Inv sha c log flight tail) :
    Keeps c.outbox.entries c'.outbox.entries ∧ ∃ log' flight' tail', Inv sha c' log' flight' tail' := by
  cases hs with
  | enqueue stop kind scope operation payload hclean =>
      have hresult := @enqueue_result sha c.outbox kind scope operation payload stop
      by_cases happ : (Call.enqueue kind scope operation payload).Appends c.outbox
      · have hnext := h.held.next happ trivial
        have hnone : ∀ seq outcome, Call.record c.outbox (.enqueue kind scope operation payload) =
            .acked seq outcome → ∃ d ∈ c.sent, d.entry.seq = seq ∧ d.answer = .ok outcome := by
          intro seq outcome hr
          cases hr
        obtain ⟨hinv, hentries⟩ := h.perform hnext (hclean happ) hnone
        obtain ⟨log', flight', tail', hinv⟩ := hinv
        have houtbox := @Call.outbox_eq sha c.outbox (.enqueue kind scope operation payload) happ trivial stop
        change (Outbox.enqueue sha stop kind scope operation payload c.outbox).2 = _ at houtbox
        refine ⟨?_, ?_⟩
        · show Keeps _ (Outbox.enqueue sha stop kind scope operation payload c.outbox).2.entries
          rw [houtbox, hentries]
          split
          · exact hnext.fits.keeps
          · exact Keeps.refl _
        · cases hres : (Outbox.enqueue sha stop kind scope operation payload c.outbox).1 with
          | error failure =>
              rw [houtbox]
              exact ⟨log', flight', tail', hinv⟩
          | ok seq =>
              obtain ⟨_, _, hok⟩ := (hresult seq).mp hres
              rw [houtbox]
              refine ⟨log', flight', tail', hinv.queue ?_⟩
              subst seq
              refine ⟨⟨c.outbox.nextSeq, kind, scope, operation, payload, none⟩, ?_, rfl⟩
              show (perform sha stop _ c.outbox).2.entries.get? c.outbox.nextSeq = _
              rw [hentries]
              change (if (perform sha stop (.queued c.outbox.nextSeq kind scope operation payload)
                c.outbox).1 = .ok then _ else _ : Entries).get? c.outbox.nextSeq = _
              rw [if_pos hok]
              show (c.outbox.entries.insert c.outbox.nextSeq _).get? c.outbox.nextSeq = _
              rw [SortedMap.get?_insert, if_pos rfl]
      · have houtbox := @Call.outbox_of_refused sha c.outbox (.enqueue kind scope operation payload) happ stop
        change (Outbox.enqueue sha stop kind scope operation payload c.outbox).2 = _ at houtbox
        rw [houtbox]
        cases hres : (Outbox.enqueue sha stop kind scope operation payload c.outbox).1 with
        | error failure => exact ⟨Keeps.refl _, log, flight, tail, h⟩
        | ok seq => exact absurd ((hresult seq).mp hres).2.1 happ
  | replay turns hmeet =>
      obtain ⟨hasc, hdue⟩ := h.pending
      exact h.replayDue hmeet hasc hdue rfl
  | crash o hopen =>
      obtain ⟨o', hopen', hkeeps, hinv⟩ := h.reopen c.outbox.aside
      rw [hopen] at hopen'
      injection hopen' with ho
      subst ho
      exact ⟨hkeeps, _, _, _, hinv⟩

theorem Inv.of_steps {c c' : Client} (hs : Relation.ReflTransGen (Step sha (Clean sha)) c c')
    (h : ∃ log flight tail, Inv sha c log flight tail) :
    Keeps c.outbox.entries c'.outbox.entries ∧ ∃ log flight tail, Inv sha c' log flight tail := by
  induction hs with
  | refl => exact ⟨Keeps.refl _, h⟩
  | tail _ hstep ih =>
      obtain ⟨hkeeps, log, flight, tail, hinv⟩ := ih
      obtain ⟨hkeeps', hinv'⟩ := hstep.inv hinv
      exact ⟨hkeeps.trans hkeeps', hinv'⟩

variable (sha) in
/-- What the outside can rely on: every delivery was timely, deliveries of one record are alike, and
the entries are explained by the history, in memory as well as after a reopen. -/
structure Faithful (c : Client) : Prop where
  timely : ∀ d ∈ c.sent, Timely sha d
  same : ∀ d ∈ c.sent, ∀ e ∈ c.sent, d.entry.seq = e.entry.seq → d.entry.request = e.entry.request
  shown : Consistent c.outbox.entries c.queued c.sent
  reopened : ∃ o, openJournal sha c.outbox.file c.outbox.aside = .ok o ∧
    Keeps c.outbox.entries o.entries ∧ Consistent o.entries c.queued c.sent

theorem Inv.faithful {c : Client} {log : List Record} {flight : Option Record} {tail : Str}
    (h : Inv sha c log flight tail) : Faithful sha c where
  timely := h.timely
  same := by
    intro d hd e he hseq
    obtain ⟨d', hget, hreq⟩ := (h.consistent.delivered d hd).1
    obtain ⟨e', hget', hreq'⟩ := (h.consistent.delivered e he).1
    rw [hseq, hget'] at hget
    injection hget with hsame
    rw [← hreq, ← hreq', hsame]
  shown := h.consistent
  reopened := by
    obtain ⟨o, hopen, hkeeps, hinv⟩ := h.reopen c.outbox.aside
    exact ⟨o, hopen, hkeeps, hinv.consistent⟩

/-- An `enqueue` whose append ends as `perform` says. -/
theorem Step.enqueued {cond : Option Stop → Record → Outbox → Prop} {c : Client} {stop : Option Stop}
    {kind : Kind} {scope : String} {operation : Operation} {payload : Str} {res : Appended} {o : Outbox}
    (happ : (Call.enqueue kind scope operation payload).Appends c.outbox)
    (hcond : cond stop (.queued c.outbox.nextSeq kind scope operation payload) c.outbox)
    (hp : perform sha stop (.queued c.outbox.nextSeq kind scope operation payload) c.outbox = (res, o)) :
    Step sha cond c ⟨o,
      if res = .ok then c.queued ++ [⟨c.outbox.nextSeq, kind, scope, operation, payload, none⟩] else c.queued,
      c.sent⟩ := by
  have hstep := @Step.enqueue sha cond c stop kind scope operation payload (fun _ => hcond)
  have hresult := @enqueue_result sha c.outbox kind scope operation payload stop
  have houtbox := @Call.outbox_eq sha c.outbox (.enqueue kind scope operation payload) happ trivial stop
  change (Outbox.enqueue sha stop kind scope operation payload c.outbox).2 =
    (perform sha stop (.queued c.outbox.nextSeq kind scope operation payload) c.outbox).2 at houtbox
  rw [hp] at houtbox hresult
  rw [houtbox] at hstep
  by_cases hok : res = .ok
  · rw [(hresult _).mpr ⟨rfl, happ, hok⟩] at hstep
    rw [if_pos hok]
    exact hstep
  · rw [if_neg hok]
    cases hres : (Outbox.enqueue sha stop kind scope operation payload c.outbox).1 with
    | ok seq => exact absurd ((hresult seq).mp hres).2.2 hok
    | error failure =>
        rw [hres] at hstep
        exact hstep

/-- Whatever the digest, an append that failed after its whole frame can come back as a reply that
was never given. -/
theorem replay_reads_forged_outcome : ¬ ∃ sha : Str → Digest, ∀ c,
    Relation.ReflTransGen (Step sha (fun _ _ _ => True)) Client.start c → Faithful sha c := by
  intro h
  obtain ⟨sha, hall⟩ := h
  have hfirst := @Step.enqueued sha (fun _ _ _ => True) Client.start (some (.writing 110)) .upload "a" operationA
    (forged sha) .unsynced (afterCarrier sha) carrier_appends trivial perform_carrier
  have happ : Call.Appends (afterCarrier sha) (.enqueue .upload "a" operationA []) :=
    ⟨small_fits.1, small_fits.2.2.1⟩
  have hsecond := @Step.enqueued sha (fun _ _ _ => True) ⟨afterCarrier sha, [], []⟩ none .upload "a" operationA
    [] .ok (afterSmall sha) happ trivial perform_small
  obtain ⟨o, hopen, _, hconsistent⟩ := (hall _ ((Relation.ReflTransGen.single hfirst).tail hsecond)).reopened
  obtain ⟨o', hopen', hentries⟩ := @open_afterSmall sha
  change openJournal sha (afterSmall sha).file [] = _ at hopen
  rw [hopen] at hopen'
  injection hopen' with ho
  subst ho
  -- The reopen shows `[7]` as the outcome of record 1, and nothing was delivered.
  have hget : o.entries.get? 1 = some ⟨1, .upload, "a", operationA, [], some [7]⟩ := by
    rw [hentries]
    decide
  obtain ⟨d, hd, _⟩ := hconsistent.outcomes 1 _ [7] hget rfl
  cases hd

/-- As long as nothing can be read behind what each append writes: deliveries are made in order,
each when every record before it is durably settled, and again only as they were; an outcome is the
node's reply to its record, and once recorded it and the record stay. -/
theorem replay_is_faithful {c : Client}
    (h : Relation.ReflTransGen (Step sha (Clean sha)) Client.start c) :
    Faithful sha c ∧ ∀ c', Relation.ReflTransGen (Step sha (Clean sha)) c c' →
      Keeps c.outbox.entries c'.outbox.entries := by
  obtain ⟨_, hinv⟩ := Inv.of_steps h ⟨_, _, _, Inv.start⟩
  refine ⟨?_, fun c' h' => (Inv.of_steps h' hinv).1⟩
  obtain ⟨log, flight, tail, hinv⟩ := hinv
  exact hinv.faithful

/-- The record whose append was made again. -/
theorem replay_is_faithful_retry :
    Faithful sampleDigest ⟨afterRetry, [⟨1, .upload, "a", operationA, [], none⟩], []⟩ := by
  have hfirst := @Step.enqueued sampleDigest (Clean sampleDigest) Client.start (some (.writing 10)) .upload "a"
    operationA [] .failed afterPart (small_appends rfl) (clean_of_leftover rfl small_fits _) perform_afterPart
  have hsecond := @Step.enqueued sampleDigest (Clean sampleDigest) ⟨afterPart, [], []⟩ none .upload "a" operationA
    [] .ok afterRetry (small_appends rfl) clean_afterPart perform_afterRetry
  exact (replay_is_faithful ((Relation.ReflTransGen.single hfirst).tail hsecond)).1

end digest

end Outbox

end Javelin
