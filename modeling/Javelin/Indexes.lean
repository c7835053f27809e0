import Javelin.Receipts

/-! # The indexes of a reachable repository

In every reachable repository `layerPaths` holds the attribution of every active Layer's head and
nothing else, `blame` the attribution of every published version, and `checkRadar` and
`checkBlame` accept (`Reachable.indexes_match_history`). -/

namespace Javelin

open KeyedList

variable {Id : Type} [LinearOrder Id] [Encoding Id]

namespace System

open Repository

/-- In every reachable repository both indexes match the history, and the checks accept. -/
theorem Reachable.indexes_match_history {s : System Id} (h : Reachable s) :
    (∀ layer head, s.repository.layerStateIn layer = .ok (.active head) →
      s.repository.attributionIn s.repository.readDeep layer head.revision =
        .ok (s.repository.trackedIn layer) ∧
      ∃ checkpoint, s.repository.checkpointIn head.checkpoint = .ok checkpoint ∧
        (s.repository.trackedIn layer).keys = checkpoint.changes.entries.keys ∧
        ∀ p t, (s.repository.trackedIn layer).get? p = some t →
          checkpoint.changes.entries.get? p = some t.entry ∧
            ∃ m, LastChangedBy s.repository layer head.revision p t m) ∧
    (∀ layer, (∀ head, s.repository.layerStateIn layer ≠ .ok (.active head)) →
      s.repository.trackedIn layer = SortedMap.empty) ∧
    (∀ op row n, s.repository.publications.get? op = some row → row.outcome = .published →
      row.result = some n → ∃ attribution rows,
        s.repository.attributionIn s.repository.readDeep row.layer row.expected = .ok attribution ∧
        s.repository.blame.get? n = some rows ∧ BlamedAs rows attribution) ∧
    (∀ n rows, s.repository.blame.get? n = some rows → ∃ op row,
      s.repository.publications.get? op = some row ∧ row.outcome = .published ∧ row.result = some n) ∧
    s.repository.checkRadar = .ok () ∧ s.repository.checkBlame = .ok () := by
  obtain ⟨S, hs⟩ := h.sound.repository
  have hi := h.indexed
  have hd := h.allDeep
  refine ⟨?_, ?_, ?_, hi.blamed.only, hi.checkRadar hd hs, hi.checkBlame hd hs⟩
  · intro layer head hactive
    obtain ⟨hlive, e, he, hcheckpoint⟩ := hs.live_of_active hactive
    have hatt := (hi.tracks layer).live _ hlive
    obtain ⟨e', checkpoint, he', hread, hkeys⟩ := get?_attributionIn hatt
    obtain rfl := Option.some.inj (he.symm.trans he')
    refine ⟨hd.attributionIn hatt, checkpoint, hcheckpoint ▸ hread, ?_, fun p t ht => ⟨?_, ?_⟩⟩
    · apply SortedMap.keys_congr
      intro p
      rw [← hkeys, Option.isSome_map]
    · rw [← hkeys, ht]
      rfl
    · exact exists_lastChangedBy hatt ht
  · intro layer hno
    apply (hi.tracks layer).dead
    intro n hlive
    obtain ⟨head, hactive, _⟩ := active_of_live hlive
    exact hno head hactive
  · intro op row n hrow htag hn
    obtain ⟨attribution, rows, hatt, hget, has⟩ := hi.blamed.published op row n hrow htag hn
    exact ⟨attribution, rows, hd.attributionIn hatt, hget, has⟩

/-- A published version of a numbered repository, with its blame. -/
theorem indexes_match_published : ∃ (s : System ℕ) (op : OperationId) (row : PublicationRow ℕ) (n : ℕ),
    s.repository.publications.get? op = some row ∧ row.result = some n ∧
      (∃ attribution rows,
        s.repository.attributionIn s.repository.readDeep row.layer row.expected = .ok attribution ∧
        s.repository.blame.get? n = some rows ∧ BlamedAs rows attribution) ∧
      s.repository.checkRadar = .ok () ∧ s.repository.checkBlame = .ok () := by
  obtain ⟨s, _, _, _, _, r', _, _, _, _, _, hreach, row, hrow, _, htag⟩ :=
    exists_published 0 ⟨[97]⟩ ⟨[49]⟩
  obtain ⟨S, hs⟩ := hreach.sound.repository
  obtain ⟨_, version, hsucc⟩ := hs.succeeded hrow htag
  obtain ⟨_, _, hblamed, _, hchecks⟩ := hreach.indexes_match_history
  exact ⟨_, _, row, _, hrow, hsucc.result, hblamed _ row _ hrow htag hsucc.result, hchecks⟩

end System

end Javelin
