import Javelin.JournalRecords

/-! # What a journal holds

`Holding sha o log flight tail` is the invariant of an open outbox: the file is the magic, the
frames of `log`, the frame of a record whose append was not confirmed, if any, and clear bytes;
what the handle keeps in memory is the state after `log`.  Opening the file confirms what is in
flight (`Holding.reopen`).  An append writes over what lies behind the log without truncating it,
so it keeps the invariant when it is `Clean`, that is when nothing can be read behind the bytes it
writes (`Holding.perform`); a handle with nothing left behind the log makes clean appends only
(`clean_of_leftover`). -/

namespace Javelin

open KeyedList Bytes

namespace Outbox

/-! ### Logs -/

/-- The entries after a log. -/
def entriesOf (log : List Record) : Entries := log.foldl Record.effect SortedMap.empty

/-- How many records a log queues. -/
def count : List Record → ℕ
  | [] => 0
  | .queued .. :: log => count log + 1
  | .acked .. :: log => count log

/-- Records are queued under the numbers from `n + 1` on, in order. -/
def NumberedFrom : ℕ → List Record → Prop
  | _, [] => True
  | n, .queued seq .. :: log => seq = n + 1 ∧ NumberedFrom (n + 1) log
  | n, .acked .. :: log => NumberedFrom n log

theorem count_append (log log' : List Record) : count (log ++ log') = count log + count log' := by
  induction log with
  | nil => simp [count]
  | cons r log ih =>
      cases r
      · simp only [List.cons_append, count, ih]
        omega
      · simp only [List.cons_append, count, ih]

theorem numberedFrom_append {n : ℕ} {log log' : List Record} :
    NumberedFrom n (log ++ log') ↔ NumberedFrom n log ∧ NumberedFrom (n + count log) log' := by
  induction log generalizing n with
  | nil => simp [NumberedFrom, count]
  | cons r log ih =>
      cases r with
      | queued seq kind scope operation payload =>
          have hn : n + 1 + count log = n + (count log + 1) := by omega
          simp only [List.cons_append, NumberedFrom, count, ih, and_assoc, hn]
      | acked seq outcome => simp only [List.cons_append, NumberedFrom, count, ih]

/-- The entries are numbered from 1 to `n`. -/
def Ranged (n : ℕ) (entries : Entries) : Prop := ∀ k, (entries.get? k).isSome ↔ 1 ≤ k ∧ k ≤ n

theorem ranged_empty : Ranged 0 SortedMap.empty := by
  intro k
  simp only [SortedMap.get?_empty, Option.isSome_none, Bool.false_eq_true, false_iff]
  omega

theorem Ranged.queued {n seq : ℕ} {entries : Entries} (h : Ranged n entries) (hs : seq = n + 1)
    (entry : Entry) : Ranged (n + 1) (entries.insert seq entry) := by
  subst hs
  intro k
  rw [SortedMap.get?_insert]
  split
  · rename_i hk
    subst hk
    simp
  · have hk := h k
    rw [hk]
    omega

theorem Ranged.acked {n seq : ℕ} {entries : Entries} {entry : Entry} (h : Ranged n entries)
    (hget : entries.get? seq = some entry) (entry' : Entry) : Ranged n (entries.insert seq entry') := by
  intro k
  rw [SortedMap.get?_insert]
  split
  · rename_i hk
    subst hk
    rw [← h, hget]
    simp
  · exact h k

/-- The next sequence number follows the last key. -/
theorem Ranged.next {n : ℕ} {entries : Entries} (h : Ranged n entries) :
    (entries.keys.getLast?).elim 1 (· + 1) = n + 1 := by
  unfold SortedMap.keys
  rw [List.getLast?_map]
  cases hl : entries.toList.getLast? with
  | none =>
      have hnil := List.getLast?_eq_none_iff.mp hl
      have h1 := h 1
      unfold SortedMap.get? at h1
      rw [hnil] at h1
      have hn : ¬ (1 ≤ 1 ∧ 1 ≤ n) := by
        intro hc
        exact absurd (h1.mpr hc) (by simp [lookup])
      show 1 = n + 1
      omega
  | some e =>
      obtain ⟨k, entry⟩ := e
      obtain ⟨hget, hmax⟩ := SortedMap.getLast?_toList.mp hl
      have hk := (h k).mp (by rw [hget]; rfl)
      have hlast := (h n).mpr ⟨by omega, le_refl _⟩
      obtain ⟨entry', hn⟩ := Option.isSome_iff_exists.mp hlast
      have hle := hmax n entry' hn
      show k + 1 = n + 1
      omega

section digest
variable {sha : Str → Digest}

theorem run_eq (log : List Record) : (format sha).run log SortedMap.empty = entriesOf log := rfl

/-- A numbered log that fits leaves entries numbered in order. -/
theorem Ranged.run {n : ℕ} {entries : Entries} (h : Ranged n entries) {log : List Record}
    (hfits : (format sha).FitsAll log entries) (hnum : NumberedFrom n log) :
    Ranged (n + count log) ((format sha).run log entries) := by
  induction log generalizing n entries with
  | nil => exact h
  | cons r log ih =>
      obtain ⟨hr, hlog⟩ := hfits
      cases r with
      | queued seq kind scope operation payload =>
          obtain ⟨hs, hnum⟩ := hnum
          have hn := ih (h.queued hs _) hlog hnum
          have hc : n + 1 + count log = n + count (.queued seq kind scope operation payload :: log) := by
            simp only [count]
            omega
          rw [← hc]
          exact hn
      | acked seq outcome =>
          obtain ⟨_, _, entry, hget, _⟩ := hr
          refine ih ?_ hlog hnum
          show Ranged n (Record.effect entries (.acked seq outcome))
          rw [Record.effect_acked hget]
          exact h.acked hget _

theorem count_le_length (log : List Record) : count log ≤ ((format sha).frames log).length := by
  induction log with
  | nil => simp [count]
  | cons r log ih =>
      have hpos := List.length_pos_of_ne_nil ((format sha).frame_ne_nil r)
      rw [Framing.Format.frames_cons, List.length_append]
      cases r
      · simp only [count]
        omega
      · simp only [count]
        omega

/-! ### The invariant -/

/-- A damaged tail is still to be moved aside. -/
def dirty (o : Outbox) : Bool := o.damage.isSome && !o.repaired

/-- What an append finds behind the log. -/
def leftover (o : Outbox) : Str := if o.dirty then [] else o.file.drop o.validLen

variable (sha) in
/-- Nothing is read behind the bytes this append writes. -/
def Clean (stop : Option Stop) (r : Record) (o : Outbox) : Prop :=
  let part := written stop o (frame sha r.body)
  if part.length < (frame sha r.body).length then
    (format sha).Clear (part ++ o.leftover.drop part.length) o.entries
  else (format sha).Clear (o.leftover.drop part.length) (r.effect o.entries)

variable (sha) in
/-- The file holds the log, a record in flight and clear bytes; the memory is that of the log. -/
structure Holding (o : Outbox) (log : List Record) (flight : Option Record) (tail : Str) : Prop where
  file : ∃ bytes, o.file = MAGIC ++ bytes ∧
    (format sha).Holds (SortedMap.empty : Entries) bytes log flight tail
  size : o.file.length ≤ MAX_FILE
  numbered : NumberedFrom 0 (log ++ flight.toList)
  entries : o.entries = entriesOf log
  nextSeq : o.nextSeq = count log + 1
  validLen : o.validLen = MAGIC.length + ((format sha).frames log).length
  damage : o.dirty = true → flight = none ∧ ∃ d, o.damage = some d ∧ d.offset = o.validLen ∧
    0 < d.bytes ∧ (o.file.length = o.validLen + d.bytes ∨ o.file.length = o.validLen)

variable (sha) in
/-- What opening a file that holds a log gives. -/
structure Opened (file : Str) (log : List Record) (tail : Str) (o : Outbox) : Prop where
  file_eq : o.file = file
  length_eq : file.length = o.validLen + tail.length
  entries : o.entries = entriesOf log
  nextSeq : o.nextSeq = count log + 1
  validLen : o.validLen = MAGIC.length + ((format sha).frames log).length
  repaired : o.repaired = false
  damage : if tail = [] then o.damage = none
    else ∃ reason, o.damage = some ⟨o.validLen, tail.length, reason⟩

theorem openJournal_eq {file bytes tail : Str} {log : List Record} (hf : file = MAGIC ++ bytes)
    (hb : (format sha).Holds (SortedMap.empty : Entries) bytes log none tail)
    (hnum : NumberedFrom 0 log) (aside : List Str) :
    ∃ o, openJournal sha file aside = .ok o ∧ Opened sha file log tail o := by
  have hlog : log ++ (none : Option Record).toList = log := List.append_nil _
  have hlen : MAGIC.length ≤ file.length := by
    rw [hf, List.length_append]
    omega
  have hmagic : file.take MAGIC.length = MAGIC := by rw [hf, List.take_left]
  have hdrop : file.drop MAGIC.length = bytes := by rw [hf, List.drop_left]
  have hfuel : bytes.length ≤ file.length := by
    rw [hf, List.length_append]
    omega
  obtain ⟨why, hscan, hwhy⟩ := hb.scan_eq MAGIC.length hfuel
  rw [hlog] at hscan
  have hfits := hb.fits
  rw [hlog] at hfits
  have hranged := ranged_empty.run hfits hnum
  rw [Nat.zero_add] at hranged
  have hbytes : file.length = MAGIC.length + ((format sha).frames log).length + tail.length := by
    rw [hf, hb.bytes_eq, hlog]
    simp only [List.length_append]
    omega
  have h1 : ¬ (file.length < MAGIC.length ∧ ¬ file <+: MAGIC) := by omega
  have h2 : ¬ (MAGIC.length ≤ file.length ∧ file.take MAGIC.length ≠ MAGIC) := by
    rw [hmagic]
    simp
  have h3 : ¬ file.length < MAGIC.length := by omega
  have hscan' : Framing.scan (readRecord sha) file.length bytes MAGIC.length SortedMap.empty = _ := hscan
  unfold openJournal
  rw [if_neg h1, if_neg h2, if_neg h3]
  simp only [hdrop, hscan', hranged.next]
  refine ⟨_, rfl, rfl, hbytes, rfl, rfl, rfl, rfl, ?_⟩
  by_cases ht : tail = []
  · rw [if_pos ht, hwhy.mpr ht]
    rfl
  · rw [if_neg ht]
    cases hw : why with
    | none => exact absurd (hwhy.mp hw) ht
    | some reason =>
        refine ⟨reason, ?_⟩
        have hsub : file.length - (MAGIC.length + ((format sha).frames log).length) = tail.length := by omega
        show some (Damage.mk _ (file.length - (MAGIC.length + ((format sha).frames log).length)) reason) = _
        rw [hsub]

namespace Opened
variable {file bytes tail : Str} {log : List Record} {o : Outbox}

/-- A handle just opened has nothing behind the log that an append would not move aside first. -/
theorem leftover_eq (h : Opened sha file log tail o) : o.leftover = [] := by
  have hd := h.damage
  unfold leftover dirty
  by_cases ht : tail = []
  · rw [if_pos ht] at hd
    rw [hd, if_neg (by simp)]
    apply List.drop_eq_nil_of_le
    rw [h.file_eq, h.length_eq, ht]
    simp
  · rw [if_neg ht] at hd
    obtain ⟨reason, hd⟩ := hd
    rw [hd, h.repaired, if_pos (by simp)]

theorem holding (h : Opened sha file log tail o) (hf : file = MAGIC ++ bytes)
    (hb : (format sha).Holds (SortedMap.empty : Entries) bytes log none tail)
    (hnum : NumberedFrom 0 log) (hsize : file.length ≤ MAX_FILE) : Holding sha o log none tail where
  file := ⟨bytes, h.file_eq.trans hf, hb⟩
  size := by rw [h.file_eq]; exact hsize
  numbered := by rw [Option.toList_none, List.append_nil]; exact hnum
  entries := h.entries
  nextSeq := h.nextSeq
  validLen := h.validLen
  damage := by
    intro hdirty
    have hd := h.damage
    by_cases ht : tail = []
    · rw [if_pos ht] at hd
      unfold dirty at hdirty
      rw [hd] at hdirty
      cases hdirty
    · rw [if_neg ht] at hd
      obtain ⟨reason, hd⟩ := hd
      refine ⟨rfl, _, hd, rfl, List.length_pos_of_ne_nil ht, Or.inl ?_⟩
      rw [h.file_eq]
      exact h.length_eq

end Opened

/-- A record that has its turn after a log. -/
structure Next (o : Outbox) (log : List Record) (r : Record) : Prop where
  fits : r.Fits o.entries
  numbered : NumberedFrom (count log) [r]

namespace Holding
variable {o : Outbox} {log : List Record} {flight : Option Record} {tail : Str}

theorem fits (h : Holding sha o log flight tail) :
    (format sha).FitsAll (log ++ flight.toList) SortedMap.empty := by
  obtain ⟨bytes, _, hb⟩ := h.file
  exact hb.fits

theorem ranged (h : Holding sha o log flight tail) : Ranged (count log) o.entries := by
  have hfits := (Framing.Format.fitsAll_append.mp h.fits).1
  have hr := ranged_empty.run hfits (numberedFrom_append.mp h.numbered).1
  rw [Nat.zero_add] at hr
  rw [h.entries]
  exact hr

theorem validLen_le (h : Holding sha o log flight tail) : o.validLen ≤ o.file.length := by
  obtain ⟨bytes, hf, hb⟩ := h.file
  have hs := hb.split
  rw [h.validLen, hf, hs]
  simp only [List.length_append]
  omega

theorem nextSeq_lt (h : Holding sha o log flight tail) : o.nextSeq < 256 ^ 8 := by
  have hc := @count_le_length sha log
  have hv := h.validLen
  have hle := h.validLen_le
  have hsize := h.size
  have hn := h.nextSeq
  have hmax : MAX_FILE = 2 ^ 63 - 1 := rfl
  omega

theorem create : Holding sha create [] none [] where
  file := ⟨[], rfl, Framing.Format.Holds.nil _⟩
  size := by decide
  numbered := trivial
  entries := rfl
  nextSeq := rfl
  validLen := rfl
  damage := by
    intro h
    cases h

/-- Opening the file confirms what is in flight, and leaves nothing behind the log. -/
theorem reopen (h : Holding sha o log flight tail) (aside : List Str) :
    ∃ o', openJournal sha o.file aside = .ok o' ∧ Holding sha o' (log ++ flight.toList) none tail ∧
      o'.leftover = [] := by
  obtain ⟨bytes, hf, hb⟩ := h.file
  obtain ⟨o', hopen, hopened⟩ := openJournal_eq hf hb.confirm h.numbered aside
  exact ⟨o', hopen, hopened.holding hf hb.confirm h.numbered h.size, hopened.leftover_eq⟩

theorem take_length_take {α : Type} (l : List α) (n : ℕ) : l.take (l.take n).length = l.take n := by
  rw [List.length_take, List.take_eq_take_iff]
  omega

/-- A handle whose file no append has to repair, after a write behind the log. -/
theorem write (h : Holding sha o log flight tail) (hd : o.dirty = false) {stop : Option Stop} {r : Record}
    (hnext : Next o log r) (hclean : Clean sha stop r o) :
    let part := written stop o (frame sha r.body)
    let o' := { o with file := Framing.overwrite o.file o.validLen part }
    if part.length < (frame sha r.body).length then ∃ tail', Holding sha o' log none tail'
    else ∃ tail', Holding sha o' log (some r) tail' := by
  intro part o'
  obtain ⟨bytes, hf, hb⟩ := h.file
  have hv := h.validLen
  have hlog : ((format sha).frames log).length ≤ bytes.length := by
    rw [hb.split]
    simp only [List.length_append]
    omega
  have hleft : o.leftover = bytes.drop ((format sha).frames log).length := by
    unfold leftover
    rw [hd, if_neg (by simp), hv, hf, List.drop_length_add_append]
  have hfile : o'.file = MAGIC ++ Framing.overwrite bytes ((format sha).frames log).length part := by
    show Framing.overwrite o.file o.validLen part = _
    rw [hv, hf, Framing.overwrite_prefix _ _ _ hlog]
  have hpart : part.length ≤ MAX_FILE - o.validLen := by
    show (written stop o (frame sha r.body)).length ≤ _
    simp only [written, List.length_take]
    omega
  have hle := h.validLen_le
  have hsize : o'.file.length ≤ MAX_FILE := by
    have hl : (Framing.overwrite o.file o.validLen part).length = _ := Framing.length_overwrite hle
    have hs := h.size
    show (Framing.overwrite o.file o.validLen part).length ≤ MAX_FILE
    omega
  have hfits : (format sha).Fits r ((format sha).run log SortedMap.empty) := by
    rw [run_eq, ← h.entries]
    exact hnext.fits
  have hnumbered := numberedFrom_append.mp h.numbered
  have hdirty : o'.dirty = true → False := by
    intro h'
    have h'' : o.dirty = true := h'
    rw [hd] at h''
    cases h''
  unfold Clean at hclean
  by_cases hshort : part.length < (frame sha r.body).length
  · rw [if_pos hshort]
    rw [if_pos hshort, hleft, h.entries] at hclean
    have hp : ((format sha).frame r).take part.length = part := take_length_take _ _
    change (format sha).Clear (part ++ (bytes.drop ((format sha).frames log).length).drop part.length) _ at hclean
    have hw := hb.write_part hshort.le (by rw [hp]; exact hclean)
    change (format sha).Holds _ (Framing.overwrite _ _ (((format sha).frame r).take part.length)) _ _ _ at hw
    rw [hp] at hw
    refine ⟨_, ⟨⟨_, hfile, hw⟩, hsize, ?_, h.entries, h.nextSeq, hv, fun h' => (hdirty h').elim⟩⟩
    rw [Option.toList_none, List.append_nil]
    exact hnumbered.1
  · rw [if_neg hshort]
    rw [if_neg hshort, hleft, h.entries] at hclean
    have hp : part = (format sha).frame r := by
      apply List.take_of_length_le
      have hlen : part.length = min _ (frame sha r.body).length := List.length_take
      show ((format sha).frame r).length ≤ _
      change ¬ part.length < ((format sha).frame r).length at hshort
      change part.length = min _ ((format sha).frame r).length at hlen
      omega
    change (format sha).Clear ((bytes.drop ((format sha).frames log).length).drop part.length) _ at hclean
    rw [hp] at hfile hclean
    have hw := hb.write hfits hclean
    refine ⟨_, ⟨⟨_, hfile, hw⟩, hsize, ?_, h.entries, h.nextSeq, hv, fun h' => (hdirty h').elim⟩⟩
    rw [numberedFrom_append, Nat.zero_add]
    exact ⟨hnumbered.1, hnext.numbered⟩

/-- Moving the damaged tail aside fails and leaves the journal, fails after truncating it, or
repairs it. -/
theorem moveDamageAside_cases {d : Damage} (hd : o.damage = some d) (stop : Option Stop) :
    ∃ aside, moveDamageAside stop o = (false, { o with aside := aside }) ∨
      moveDamageAside stop o = (false, { o with aside := aside, file := o.file.take o.validLen }) ∨
      moveDamageAside stop o =
        (true, { o with aside := aside, file := o.file.take o.validLen, repaired := true }) := by
  unfold moveDamageAside
  rw [hd]
  simp only
  by_cases hread : o.file.length < d.offset + d.bytes
  · exact ⟨o.aside, Or.inl (by rw [if_pos hread, ← hd])⟩
  · rw [if_neg hread]
    match stop with
    | some .saving => exact ⟨o.aside, Or.inl (by rw [← hd])⟩
    | some .saved => exact ⟨_, Or.inl (by rw [← hd])⟩
    | some .truncated => exact ⟨_, Or.inr (Or.inl (by rw [← hd]))⟩
    | some (.writing n) => exact ⟨_, Or.inr (Or.inr (by rw [← hd]))⟩
    | none => exact ⟨_, Or.inr (Or.inr (by rw [← hd]))⟩

/-- Nothing of the handle but the copies of damaged tails has changed. -/
theorem of_aside (h : Holding sha o log flight tail) (aside : List Str) :
    Holding sha { o with aside := aside } log flight tail := ⟨h.file, h.size, h.numbered, h.entries,
  h.nextSeq, h.validLen, h.damage⟩

/-- Dropping the bytes behind the log. -/
theorem truncate (h : Holding sha o log flight tail) (aside : List Str) {repaired : Bool}
    (hrep : repaired = o.repaired ∨ repaired = true) :
    Holding sha { o with aside := aside, file := o.file.take o.validLen, repaired := repaired } log none [] := by
  obtain ⟨bytes, hf, hb⟩ := h.file
  have hle := h.validLen_le
  have hfile : o.file.take o.validLen = MAGIC ++ bytes.take ((format sha).frames log).length := by
    rw [h.validLen, hf, List.take_length_add_append]
  have hlen : (o.file.take o.validLen).length = o.validLen := by
    rw [List.length_take]
    omega
  refine ⟨⟨_, hfile, hb.truncate⟩, ?_, ?_, h.entries, h.nextSeq, h.validLen, ?_⟩
  · have hs := h.size
    show (o.file.take o.validLen).length ≤ MAX_FILE
    omega
  · rw [Option.toList_none, List.append_nil]
    exact (numberedFrom_append.mp h.numbered).1
  · intro hd
    have hd' : o.dirty = true := by
      obtain hr | hr := hrep
      · subst hr
        exact hd
      · subst hr
        simp [dirty] at hd
    obtain ⟨_, d, hsome, hoff, hpos, _⟩ := h.damage hd'
    exact ⟨rfl, d, hsome, hoff, hpos, Or.inr hlen⟩

end Holding

/-- What a handle keeps in memory of a durable record. -/
def remember (r : Record) (o : Outbox) : Outbox :=
  { o with
    entries := r.effect o.entries
    nextSeq := o.nextSeq + count [r] }

/-- What the handle does once an append has returned. -/
def settle (r : Record) : Appended × Outbox → Appended × Outbox
  | (.ok, o) => (.ok, remember r o)
  | (.unsynced, o) => (.unsynced, o)
  | (.failed, o) => (.failed, o)

variable (sha) in
/-- An append and, when it is durable, what the handle remembers of it. -/
def perform (stop : Option Stop) (r : Record) (o : Outbox) : Appended × Outbox :=
  settle r (append sha stop r.body o)

/-- The log after an append. -/
def Appended.log (log : List Record) (r : Record) : Appended → List Record
  | ok => log ++ [r]
  | unsynced => log
  | failed => log

/-- The record in flight after an append. -/
def Appended.flight (r : Record) : Appended → Option Record
  | ok => none
  | unsynced => some r
  | failed => none

namespace Holding
variable {o : Outbox} {log : List Record} {flight : Option Record} {tail : Str}

theorem remember (h : Holding sha o log (some r) tail) {o' : Outbox}
    (ho : o' = Outbox.remember r { o with validLen := o.validLen + (frame sha r.body).length })
    (hd : o.dirty = false) : Holding sha o' (log ++ [r]) none tail := by
  subst ho
  obtain ⟨bytes, hf, hb⟩ := h.file
  refine ⟨⟨bytes, hf, hb.confirm⟩, h.size, ?_, ?_, ?_, ?_, ?_⟩
  · rw [Option.toList_none, List.append_nil]
    exact h.numbered
  · show Record.effect o.entries r = _
    rw [h.entries]
    unfold entriesOf
    rw [List.foldl_append]
    rfl
  · show o.nextSeq + count [r] = _
    rw [h.nextSeq, count_append]
    omega
  · show o.validLen + (frame sha r.body).length = _
    rw [h.validLen, Framing.Format.frames_append]
    simp only [List.length_append, Framing.Format.frames_cons, Framing.Format.frames_nil, List.append_nil]
    show _ = _ + (_ + (frame sha r.body).length)
    omega
  · intro hd'
    change o.dirty = true at hd'
    rw [hd] at hd'
    cases hd'

/-- Writing a frame on a journal that needs no repair. -/
theorem writeFrame (h : Holding sha o log flight tail) (hd : o.dirty = false) {stop : Option Stop} {r : Record}
    (hnext : Next o log r) (hclean : Clean sha stop r o) {p : Appended × Outbox}
    (hp : p = settle r (Outbox.writeFrame sha stop r.body o)) :
    ∃ tail', Holding sha p.2 (p.1.log log r) (p.1.flight r) tail' := by
  have hwrite := h.write hd hnext hclean
  unfold Outbox.writeFrame at hp
  simp only at hp hwrite
  by_cases hshort : (written stop o (frame sha r.body)).length < (frame sha r.body).length
  · rw [if_pos hshort] at hp hwrite
    subst hp
    exact hwrite
  · rw [if_neg hshort] at hp hwrite
    obtain ⟨tail', hheld⟩ := hwrite
    match stop with
    | some (.writing n) =>
        subst hp
        exact ⟨tail', hheld⟩
    | some .saving | some .saved | some .truncated | none =>
        subst hp
        exact ⟨tail', hheld.remember rfl hd⟩

/-- A clean append keeps the invariant: the log grows exactly when it succeeds, and only a whole
frame stays in flight. -/
theorem perform (h : Holding sha o log flight tail) {stop : Option Stop} {r : Record}
    (hnext : Next o log r) (hclean : Clean sha stop r o) {p : Appended × Outbox}
    (hp : p = Outbox.perform sha stop r o) :
    ∃ tail', Holding sha p.2 (p.1.log log r) (p.1.flight r) tail' := by
  unfold Outbox.perform append at hp
  by_cases hd : o.dirty = true
  · obtain ⟨hflight, d, hsome, _⟩ := h.damage hd
    subst hflight
    have hd' : (o.damage.isSome && !o.repaired) = true := hd
    rw [if_pos hd'] at hp
    obtain ⟨aside, hmove⟩ := moveDamageAside_cases hsome stop
    obtain hmove | hmove | hmove := hmove
    · rw [hmove] at hp
      subst hp
      exact ⟨tail, h.of_aside aside⟩
    · rw [hmove] at hp
      subst hp
      exact ⟨[], h.truncate aside (Or.inl rfl)⟩
    · rw [hmove] at hp
      have htrue : true = o.repaired ∨ true = true := Or.inr rfl
      have hrepaired := h.truncate aside htrue
      have hleft : o.leftover = [] := by
        unfold leftover
        rw [if_pos hd]
      have hleft' : leftover { o with aside := aside, file := o.file.take o.validLen, repaired := true } = [] := by
        unfold leftover dirty
        rw [if_neg (by simp)]
        apply List.drop_eq_nil_of_le
        rw [List.length_take]
        exact Nat.min_le_left _ _
      have hclean' : Clean sha stop r
          { o with aside := aside, file := o.file.take o.validLen, repaired := true } := by
        unfold Clean at hclean ⊢
        rw [hleft] at hclean
        rw [hleft']
        exact hclean
      exact hrepaired.writeFrame (by simp [dirty]) ⟨hnext.fits, hnext.numbered⟩ hclean' hp
  · have hd' : ¬ (o.damage.isSome && !o.repaired) = true := hd
    rw [if_neg hd'] at hp
    simp only [Bool.not_eq_true] at hd
    exact h.writeFrame hd hnext hclean hp

end Holding

/-- A handle with nothing left behind the log makes clean appends. -/
theorem clean_of_leftover {o : Outbox} {r : Record} (h : o.leftover = []) (hfits : r.Fits o.entries)
    (stop : Option Stop) : Clean sha stop r o := by
  unfold Clean
  simp only [h, List.drop_nil, List.append_nil]
  by_cases hshort : (written stop o (frame sha r.body)).length < (frame sha r.body).length
  · rw [if_pos hshort]
    have hpart : ((format sha).frame r).take (written stop o (frame sha r.body)).length =
        written stop o (frame sha r.body) := Holding.take_length_take _ _
    rw [← hpart]
    exact Framing.Format.clear_part hfits hshort
  · rw [if_neg hshort]
    exact Or.inl rfl

/-- A whole frame at the end of the journal leaves nothing behind it. -/
theorem leftover_writeFrame {o : Outbox} (hd : o.dirty = false) (hl : o.leftover = [])
    (hle : o.validLen ≤ o.file.length) {stop : Option Stop} {r : Record} {p : Appended × Outbox}
    (hp : p = settle r (writeFrame sha stop r.body o)) (hok : p.1 = .ok) : p.2.leftover = [] := by
  have hend : o.file.length ≤ o.validLen := by
    unfold leftover at hl
    rw [hd, if_neg (by simp)] at hl
    exact List.drop_eq_nil_iff.mp hl
  unfold writeFrame at hp
  simp only at hp
  by_cases hshort : (written stop o (frame sha r.body)).length < (frame sha r.body).length
  · rw [if_pos hshort] at hp
    subst hp
    cases hok
  · rw [if_neg hshort] at hp
    have hpart : (written stop o (frame sha r.body)).length = (frame sha r.body).length := by
      have hlen : (written stop o (frame sha r.body)).length ≤ (frame sha r.body).length := by
        simp only [written, List.length_take]
        omega
      omega
    have hdrop : (Framing.overwrite o.file o.validLen (written stop o (frame sha r.body))).drop
        (o.validLen + (frame sha r.body).length) = [] := by
      rw [← hpart, Framing.drop_overwrite hle]
      apply List.drop_eq_nil_of_le
      omega
    match stop with
    | some (.writing n) =>
        subst hp
        cases hok
    | some .saving | some .saved | some .truncated | none =>
        subst hp
        unfold leftover
        have hd' : o.dirty = true ↔ False := by rw [hd]; simp
        show (if o.dirty = true then [] else List.drop _ _) = []
        rw [if_neg hd'.mp]
        exact hdrop

/-- A successful append at the end of the journal leaves nothing behind it. -/
theorem Holding.leftover_perform {o : Outbox} {log : List Record} {flight : Option Record} {tail : Str}
    (h : Holding sha o log flight tail) (hl : o.leftover = []) {stop : Option Stop} {r : Record}
    {p : Appended × Outbox} (hp : p = Outbox.perform sha stop r o) (hok : p.1 = .ok) : p.2.leftover = [] := by
  have hle := h.validLen_le
  unfold Outbox.perform append at hp
  by_cases hd : o.dirty = true
  · obtain ⟨_, d, hsome, _⟩ := h.damage hd
    have hd' : (o.damage.isSome && !o.repaired) = true := hd
    rw [if_pos hd'] at hp
    obtain ⟨aside, hmove⟩ := moveDamageAside_cases hsome stop
    obtain hmove | hmove | hmove := hmove
    · rw [hmove] at hp
      subst hp
      cases hok
    · rw [hmove] at hp
      subst hp
      cases hok
    · rw [hmove] at hp
      have hlen : (o.file.take o.validLen).length = o.validLen := by
        rw [List.length_take]
        omega
      have hclean : dirty { o with aside := aside, file := o.file.take o.validLen, repaired := true } = false := by
        simp [dirty]
      refine leftover_writeFrame hclean ?_ hlen.ge hp hok
      unfold leftover
      rw [hclean, if_neg (by simp)]
      exact List.drop_eq_nil_of_le hlen.le
  · have hd' : ¬ (o.damage.isSome && !o.repaired) = true := hd
    rw [if_neg hd'] at hp
    simp only [Bool.not_eq_true] at hd
    exact leftover_writeFrame hd hl hle hp hok

end digest

end Outbox

end Javelin
