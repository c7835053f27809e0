import Javelin.Bytes
import Mathlib.Data.List.Induction

/-! # Logs of framed records

A `Format` says how a record is framed in a byte log, what it does to a state, when it fits the
state, and how one frame is read: a whole frame of a fitting record is read with anything behind
it, and no proper prefix of one is.  `scan` reads frames until one cannot be read.

`Holds bytes log flight` says that the bytes are the frames of `log`, then the frame of a record
whose write was never confirmed, if any, then bytes from which nothing is read.  It determines
what a scan returns (`Holds.scan_eq`).  Writing a frame over what lies behind the log keeps it,
provided nothing is read from what is left behind the written bytes (`Holds.write`,
`Holds.write_part`); cutting the log anywhere keeps it for the records that are left whole
(`Holds.cut`). -/

namespace Framing

/-- A record format: frames, effects on a state, and the reader of one frame. -/
structure Format (R S ε : Type) where
  frame : R → List UInt8
  effect : R → S → S
  Fits : R → S → Prop
  read : List UInt8 → S → Except ε (S × ℕ)
  frame_ne_nil : ∀ r, frame r ≠ []
  read_frame : ∀ r s, Fits r s → ∀ rest, read (frame r ++ rest) s = .ok (effect r s, (frame r).length)
  read_part : ∀ r s n, Fits r s → n < (frame r).length → ∃ e, read ((frame r).take n) s = .error e

variable {R S ε : Type}

/-- Reads frames from the front of `rest` until one cannot be read.  Returns the state, the offset
after the last frame, and why the scan stopped before the end. -/
def scan (read : List UInt8 → S → Except ε (S × ℕ)) : ℕ → List UInt8 → ℕ → S → S × ℕ × Option ε
  | 0, _, offset, s => (s, offset, none)
  | fuel + 1, rest, offset, s =>
      if rest = [] then (s, offset, none)
      else match read rest s with
        | .ok (s, used) => scan read fuel (rest.drop used) (offset + used) s
        | .error e => (s, offset, some e)

/-- The bytes with `part` written at `pos`. -/
def overwrite (bytes : List UInt8) (pos : ℕ) (part : List UInt8) : List UInt8 :=
  bytes.take pos ++ List.replicate (pos - bytes.length) 0 ++ part ++ bytes.drop (pos + part.length)

/-- Writing behind `pre`. -/
theorem overwrite_append (pre tail part : List UInt8) :
    overwrite (pre ++ tail) pre.length part = pre ++ part ++ tail.drop part.length := by
  unfold overwrite
  have h0 : pre.length - (pre ++ tail).length = 0 := by
    rw [List.length_append]
    omega
  rw [List.take_left, h0, List.replicate_zero, List.append_nil, List.drop_length_add_append]

theorem overwrite_prefix (magic bytes part : List UInt8) {pos : ℕ} (h : pos ≤ bytes.length) :
    overwrite (magic ++ bytes) (magic.length + pos) part = magic ++ overwrite bytes pos part := by
  have hs := (List.take_append_drop pos bytes).symm
  have hl : (bytes.take pos).length = pos := by
    rw [List.length_take]
    omega
  have h1 := overwrite_append (magic ++ bytes.take pos) (bytes.drop pos) part
  have h2 := overwrite_append (bytes.take pos) (bytes.drop pos) part
  rw [List.append_assoc, ← hs, List.length_append, hl] at h1
  rw [← hs, hl] at h2
  rw [h1, h2]
  simp only [List.append_assoc]

theorem length_overwrite {bytes part : List UInt8} {pos : ℕ} (h : pos ≤ bytes.length) :
    (overwrite bytes pos part).length = max bytes.length (pos + part.length) := by
  unfold overwrite
  simp only [List.length_append, List.length_take, List.length_replicate, List.length_drop]
  omega

/-- What lies behind the written part stays. -/
theorem drop_overwrite {bytes part : List UInt8} {pos : ℕ} (h : pos ≤ bytes.length) :
    (overwrite bytes pos part).drop (pos + part.length) = bytes.drop (pos + part.length) := by
  have hl : (bytes.take pos ++ part).length = pos + part.length := by
    rw [List.length_append, List.length_take]
    omega
  unfold overwrite
  have h0 : pos - bytes.length = 0 := by omega
  rw [h0, List.replicate_zero, List.append_nil, List.drop_left' hl]

namespace Format
variable (F : Format R S ε)

/-- The frames of a log. -/
def frames (log : List R) : List UInt8 := (log.map F.frame).flatten

/-- The state after a log. -/
def run (log : List R) (s : S) : S := log.foldl (fun s r => F.effect r s) s

/-- Each record fits the state the ones before it leave. -/
def FitsAll : List R → S → Prop
  | [], _ => True
  | r :: log, s => F.Fits r s ∧ FitsAll log (F.effect r s)

/-- Nothing is read from these bytes. -/
def Clear (tail : List UInt8) (s : S) : Prop := tail = [] ∨ ∃ e, F.read tail s = .error e

@[simp] theorem frames_nil : F.frames [] = [] := rfl

@[simp] theorem frames_cons (r : R) (log : List R) : F.frames (r :: log) = F.frame r ++ F.frames log := rfl

@[simp] theorem frames_append (log log' : List R) :
    F.frames (log ++ log') = F.frames log ++ F.frames log' := by
  simp [frames]

@[simp] theorem run_nil (s : S) : F.run [] s = s := rfl

@[simp] theorem run_cons (r : R) (log : List R) (s : S) : F.run (r :: log) s = F.run log (F.effect r s) := rfl

@[simp] theorem run_append (log log' : List R) (s : S) : F.run (log ++ log') s = F.run log' (F.run log s) := by
  simp [run]

variable {F}

theorem fitsAll_append {log log' : List R} {s : S} :
    F.FitsAll (log ++ log') s ↔ F.FitsAll log s ∧ F.FitsAll log' (F.run log s) := by
  induction log generalizing s with
  | nil => simp [FitsAll]
  | cons r log ih => simp [FitsAll, ih, and_assoc]

theorem fitsAll_singleton {r : R} {s : S} : F.FitsAll [r] s ↔ F.Fits r s := by simp [FitsAll]

/-- A proper prefix of a frame is clear. -/
theorem clear_part {r : R} {s : S} (h : F.Fits r s) {n : ℕ} (hn : n < (F.frame r).length) :
    F.Clear ((F.frame r).take n) s := Or.inr (F.read_part r s n h hn)

/-- Scanning the frames of a log and clear bytes behind them. -/
theorem scan_frames {log : List R} {s : S} {tail : List UInt8} {fuel : ℕ} (offset : ℕ)
    (hfit : F.FitsAll log s) (hclear : F.Clear tail (F.run log s))
    (hfuel : (F.frames log ++ tail).length ≤ fuel) :
    ∃ why, scan F.read fuel (F.frames log ++ tail) offset s =
        (F.run log s, offset + (F.frames log).length, why) ∧
      (why = none ↔ tail = []) ∧ ∀ e ∈ why, F.read tail (F.run log s) = .error e := by
  induction log generalizing s fuel offset with
  | nil =>
      simp only [frames_nil, List.nil_append, run_nil, List.length_nil, Nat.add_zero] at *
      by_cases ht : tail = []
      · refine ⟨none, ?_, by simp [ht], by simp⟩
        cases fuel with
        | zero => rfl
        | succ fuel => rw [scan, if_pos ht]
      · obtain ⟨e, he⟩ := hclear.resolve_left ht
        have hpos := List.length_pos_of_ne_nil ht
        obtain ⟨fuel, rfl⟩ : ∃ m, fuel = m + 1 := ⟨fuel - 1, by omega⟩
        refine ⟨some e, ?_, by simp [ht], ?_⟩
        · rw [scan, if_neg ht, he]
        · intro e' he'
          rw [Option.mem_some_iff] at he'
          rw [← he']
          exact he
  | cons r log ih =>
      obtain ⟨hr, hlog⟩ := hfit
      have hpos := List.length_pos_of_ne_nil (F.frame_ne_nil r)
      rw [frames_cons, List.append_assoc] at hfuel ⊢
      rw [List.length_append] at hfuel
      obtain ⟨fuel, rfl⟩ : ∃ m, fuel = m + 1 := ⟨fuel - 1, by omega⟩
      have hne : F.frame r ++ (F.frames log ++ tail) ≠ [] := by simp [F.frame_ne_nil r]
      have hrest : (F.frames log ++ tail).length ≤ fuel := by omega
      obtain ⟨why, hscan, hwhy⟩ := ih (offset + (F.frame r).length) hlog hclear hrest
      refine ⟨why, ?_, hwhy⟩
      rw [scan, if_neg hne, F.read_frame r s hr]
      simp only [List.drop_left]
      rw [hscan, run_cons, List.length_append, Nat.add_assoc]

/-- The bytes are the frames of `log`, of an unconfirmed record if any, and clear bytes. -/
structure Holds (F : Format R S ε) (s : S) (bytes : List UInt8) (log : List R) (flight : Option R)
    (tail : List UInt8) : Prop where
  bytes_eq : bytes = F.frames (log ++ flight.toList) ++ tail
  fits : F.FitsAll (log ++ flight.toList) s
  clear : F.Clear tail (F.run (log ++ flight.toList) s)

namespace Holds
variable {s : S} {bytes tail : List UInt8} {log : List R} {flight : Option R}

theorem nil (s : S) : Holds F s [] [] none [] := ⟨rfl, trivial, Or.inl rfl⟩

/-- An unconfirmed record that a scan has read is a record of the log. -/
theorem confirm (h : Holds F s bytes log flight tail) : Holds F s bytes (log ++ flight.toList) none tail := by
  have he : log ++ flight.toList ++ (none : Option R).toList = log ++ flight.toList := List.append_nil _
  exact ⟨by rw [he]; exact h.bytes_eq, by rw [he]; exact h.fits, by rw [he]; exact h.clear⟩

theorem scan_eq (h : Holds F s bytes log flight tail) (offset : ℕ) {fuel : ℕ}
    (hfuel : bytes.length ≤ fuel) :
    ∃ why, scan F.read fuel bytes offset s = (F.run (log ++ flight.toList) s,
        offset + (F.frames (log ++ flight.toList)).length, why) ∧ (why = none ↔ tail = []) := by
  rw [h.bytes_eq] at hfuel ⊢
  obtain ⟨why, hscan, hwhy, _⟩ := scan_frames offset h.fits h.clear hfuel
  exact ⟨why, hscan, hwhy⟩

/-- What lies behind the log. -/
theorem split (h : Holds F s bytes log flight tail) :
    bytes = F.frames log ++ (F.frames flight.toList ++ tail) := by
  rw [h.bytes_eq, frames_append, List.append_assoc]

/-- Dropping what lies behind the log. -/
theorem truncate (h : Holds F s bytes log flight tail) :
    Holds F s (bytes.take (F.frames log).length) log none [] := by
  have he : log ++ (none : Option R).toList = log := List.append_nil _
  refine ⟨?_, by rw [he]; exact (fitsAll_append.mp h.fits).1, Or.inl rfl⟩
  rw [h.split, List.take_left, he, List.append_nil]

/-- A whole frame written behind the log, over clear bytes. -/
theorem write (h : Holds F s bytes log flight tail) {r : R} (hr : F.Fits r (F.run log s))
    (hclear : F.Clear ((bytes.drop (F.frames log).length).drop (F.frame r).length)
      (F.effect r (F.run log s))) :
    Holds F s (overwrite bytes (F.frames log).length (F.frame r)) log (some r)
      ((bytes.drop (F.frames log).length).drop (F.frame r).length) := by
  have hb := h.split
  have hd : bytes.drop (F.frames log).length = F.frames flight.toList ++ tail := by
    rw [hb, List.drop_left]
  refine ⟨?_, ?_, ?_⟩
  · rw [hd, hb, overwrite_append, frames_append]
    simp [frames]
  · rw [fitsAll_append]
    exact ⟨(fitsAll_append.mp h.fits).1, fitsAll_singleton.mpr hr⟩
  · rw [run_append]
    exact hclear

/-- A part of a frame written behind the log. -/
theorem write_part (h : Holds F s bytes log flight tail) {r : R} {n : ℕ} (hn : n ≤ (F.frame r).length)
    (hclear : F.Clear ((F.frame r).take n ++ (bytes.drop (F.frames log).length).drop n) (F.run log s)) :
    Holds F s (overwrite bytes (F.frames log).length ((F.frame r).take n)) log none
      ((F.frame r).take n ++ (bytes.drop (F.frames log).length).drop n) := by
  have hb := h.split
  have hd : bytes.drop (F.frames log).length = F.frames flight.toList ++ tail := by
    rw [hb, List.drop_left]
  have he : log ++ (none : Option R).toList = log := List.append_nil _
  have hl : ((F.frame r).take n).length = n := by rw [List.length_take]; omega
  refine ⟨?_, by rw [he]; exact (fitsAll_append.mp h.fits).1, by rw [he]; exact hclear⟩
  rw [hd, hb, overwrite_append, he, hl, List.append_assoc]

/-- A log cut at any offset holds the records that are left whole. -/
theorem cut (h : Holds F s bytes log none tail) (htail : tail = []) (n : ℕ) :
    ∃ kept lost rest, log = kept ++ lost ∧ Holds F s (bytes.take n) kept none rest ∧
      (rest ≠ [] → lost ≠ []) ∧ ∀ r more, lost = r :: more → n < (F.frames (kept ++ [r])).length := by
  have he : ∀ l : List R, l ++ (none : Option R).toList = l := fun l => List.append_nil l
  have hb : bytes = F.frames log := by
    rw [h.bytes_eq, htail, he, List.append_nil]
  have hfit : F.FitsAll log s := by
    have hf := h.fits
    rwa [he] at hf
  subst hb
  clear h
  -- By induction from the end of the log: either the cut spares it all or it falls in front.
  induction log using List.reverseRecOn with
  | nil =>
      refine ⟨[], [], [], rfl, ?_, by simp, by simp⟩
      rw [frames_nil, List.take_nil]
      exact Holds.nil s
  | append_singleton log r ih =>
      obtain ⟨hlog, hr⟩ := fitsAll_append.mp hfit
      by_cases hall : (F.frames (log ++ [r])).length ≤ n
      · refine ⟨log ++ [r], [], [], (List.append_nil _).symm, ?_, by simp, by simp⟩
        rw [List.take_of_length_le hall]
        exact ⟨by rw [he, List.append_nil], by rw [he]; exact hfit, Or.inl rfl⟩
      · by_cases hin : (F.frames log).length ≤ n
        · have htake : (F.frames (log ++ [r])).take n =
              F.frames log ++ (F.frame r).take (n - (F.frames log).length) := by
            rw [frames_append, List.take_append, List.take_of_length_le hin]
            simp [frames]
          refine ⟨log, [r], (F.frame r).take (n - (F.frames log).length), rfl, ?_, by simp, ?_⟩
          · rw [htake]
            refine ⟨by rw [he], by rw [he]; exact hlog, ?_⟩
            rw [he]
            apply clear_part (fitsAll_singleton.mp hr)
            have hlen : (F.frames (log ++ [r])).length = (F.frames log).length + (F.frame r).length := by
              simp [frames]
            omega
          · intro r' more hm
            injection hm with h1 h2
            subst h1
            omega
        · obtain ⟨kept, lost, rest, hsplit, hholds, hne, hcut⟩ := ih hlog
          have htake : (F.frames (log ++ [r])).take n = (F.frames log).take n := by
            rw [frames_append, List.take_append_of_le_length (by omega)]
          refine ⟨kept, lost ++ [r], rest, by rw [hsplit, List.append_assoc], by rw [htake]; exact hholds,
            by simp, ?_⟩
          intro r' more hm
          cases lost with
          | nil =>
              rw [List.nil_append] at hm
              injection hm with h1 h2
              subst h1
              rw [List.append_nil] at hsplit
              subst hsplit
              omega
          | cons x xs =>
              rw [List.cons_append] at hm
              injection hm with h1 h2
              subst h1
              exact hcut x xs rfl

end Holds

end Format

end Framing
