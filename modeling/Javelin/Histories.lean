import Javelin.Later

/-! # Layer histories

`Sound r S` is what every reachable repository satisfies besides the World chain `S`: the events of
a Layer are a `History`, every recorded Layer outcome and every receipt reads back, and a Layer has
one successful publication at most.

Over a sound repository the state of a Layer is that of its success, or that of its latest event
(`layerStateIn_of_success`, `layerStateIn_of_open`). -/

namespace Javelin

open KeyedList

variable {Id : Type} [LinearOrder Id] [Encoding Id]

namespace Repository
variable {r r' : Repository Id} {S S' : VersionNumber → Manifest Id}

/-! ### Events -/

omit [LinearOrder Id] [Encoding Id] in
theorem eventIn_eq_ok {layer : LayerId} {n : ℕ} {e : Event Id} :
    r.eventIn layer n = .ok e ↔ (r.events layer).get? n = some e := by
  unfold eventIn
  cases (r.events layer).get? n with
  | none =>
      constructor
      · intro h
        cases h
      · intro h
        cases h
  | some e' =>
      rw [Option.some.injEq]
      exact ⟨fun h => Except.ok.inj h, fun h => congrArg Except.ok h⟩

omit [LinearOrder Id] [Encoding Id] in
/-- The latest event is the one with the largest revision. -/
theorem latestIn_eq_ok {layer : LayerId} {n : ℕ} {e : Event Id} :
    r.latestIn layer = .ok (n, e) ↔
      (r.events layer).get? n = some e ∧ ∀ m e', (r.events layer).get? m = some e' → m ≤ n := by
  rw [← SortedMap.getLast?_toList]
  unfold latestIn
  cases (r.events layer).toList.getLast? with
  | none =>
      constructor
      · intro h
        cases h
      · intro h
        cases h
  | some latest =>
      rw [Option.some.injEq]
      exact ⟨fun h => Except.ok.inj h, fun h => congrArg Except.ok h⟩

omit [LinearOrder Id] [Encoding Id] in
theorem eventStateIn_eq_ok {layer : LayerId} {n : ℕ} {state : LayerState Id} :
    r.eventStateIn layer n = .ok state ↔
      ∃ e, (r.events layer).get? n = some e ∧ state = e.state r.identity layer n := by
  unfold eventStateIn
  simp only [except_bind_eq_ok, eventIn_eq_ok]
  constructor
  · rintro ⟨e, he, hs⟩
    exact ⟨e, he, (Except.ok.inj hs).symm⟩
  · rintro ⟨e, he, rfl⟩
    exact ⟨e, he, rfl⟩

omit [LinearOrder Id] [Encoding Id] in
/-- A head is an event that is no discard. -/
theorem layerHeadIn_eq_ok {layer : LayerId} {n : ℕ} {head : LayerHead Id} :
    r.layerHeadIn layer n = .ok head ↔
      ∃ e, (r.events layer).get? n = some e ∧ e.discarded = false ∧
        head = ⟨r.identity, layer, n, e.checkpoint⟩ := by
  unfold layerHeadIn
  rw [except_bind_eq_ok]
  simp only [eventStateIn_eq_ok]
  constructor
  · rintro ⟨_, ⟨e, he, rfl⟩, hs⟩
    unfold Event.state at hs
    cases hd : e.discarded with
    | true =>
        rw [hd] at hs
        cases hs
    | false =>
        rw [hd] at hs
        exact ⟨e, he, hd, (Except.ok.inj hs).symm⟩
  · rintro ⟨e, he, hd, rfl⟩
    refine ⟨_, ⟨e, he, rfl⟩, ?_⟩
    unfold Event.state
    rw [hd]
    rfl

omit [LinearOrder Id] [Encoding Id] in
theorem latestEventStateIn_eq_ok {layer : LayerId} {state : LayerState Id} :
    r.latestEventStateIn layer = .ok state ↔
      ∃ n e, r.latestIn layer = .ok (n, e) ∧ state = e.state r.identity layer n := by
  unfold latestEventStateIn
  rw [except_bind_eq_ok]
  constructor
  · rintro ⟨⟨n, e⟩, h, hs⟩
    exact ⟨n, e, h, (Except.ok.inj hs).symm⟩
  · rintro ⟨n, e, h, rfl⟩
    exact ⟨(n, e), h, rfl⟩

/-- The events of a Layer: an initial one, then accepted attempts, each of the event before. -/
structure History (r : Repository Id) (S : VersionNumber → Manifest Id) (layer : LayerId) : Prop where
  contiguous : ∀ n m e, (r.events layer).get? m = some e → n ≤ m →
    ∃ e', (r.events layer).get? n = some e'
  first : ∀ e, (r.events layer).get? 0 = some e → e.discarded = false ∧ e.operation = none
  later : ∀ n e, (r.events layer).get? (n + 1) = some e → ∃ op a, e.operation = some op ∧
    r.layerAttempts.get? op = some a ∧ a.accepted = true ∧ a.layer = layer ∧ a.expected = n ∧
    a.result = n + 1
  live : ∀ n e e', (r.events layer).get? n = some e → (r.events layer).get? (n + 1) = some e' →
    e.discarded = false
  small : ∀ n e, (r.events layer).get? n = some e → n < REVISIONS
  based : ∃ base, ∀ n e, (r.events layer).get? n = some e →
    ∃ checkpoint, Frozen r S e.checkpoint checkpoint ∧ checkpoint.base = base

/-- A Layer whose events stayed has the same history later. -/
theorem History.later_of_eq {layer : LayerId} (hh : History r S layer) (h : Later r r') (hc : Chain r S)
    (hc' : Chain r' S') (he : r'.events layer = r.events layer) : History r' S' layer := by
  obtain ⟨base, hbase⟩ := hh.based
  refine ⟨?_, ?_, ?_, ?_, ?_, ⟨base, ?_⟩⟩
  · rw [he]
    exact hh.contiguous
  · rw [he]
    exact hh.first
  · rw [he]
    intro n e hn
    obtain ⟨op, a, hop, ha, hrest⟩ := hh.later n e hn
    exact ⟨op, a, hop, h.layerAttempts op a ha, hrest⟩
  · rw [he]
    exact hh.live
  · rw [he]
    exact hh.small
  · rw [he]
    intro n e hn
    obtain ⟨checkpoint, hf, hb⟩ := hbase n e hn
    exact ⟨checkpoint, hf.later h hc hc', hb⟩

omit [LinearOrder Id] [Encoding Id] in
/-- A Layer with an event has a latest one. -/
theorem exists_latest {layer : LayerId} {n : ℕ} {e : Event Id} (he : (r.events layer).get? n = some e) :
    ∃ m e', r.latestIn layer = .ok (m, e') := by
  have hne : (r.events layer).toList ≠ [] := List.ne_nil_of_mem (SortedMap.get?_eq_some.mp he)
  obtain ⟨⟨m, e'⟩, hlast⟩ : ∃ x, (r.events layer).toList.getLast? = some x :=
    ⟨_, List.getLast?_eq_some_getLast hne⟩
  exact ⟨m, e', latestIn_eq_ok.mpr (SortedMap.getLast?_toList.mp hlast)⟩

/-! ### Soundness -/

/-- What every reachable repository satisfies. -/
structure Sound (r : Repository Id) (S : VersionNumber → Manifest Id) : Prop where
  chain : Chain r S
  bounded : r.versions.length ≤ MAX_VERSION + 1
  history : ∀ layer, History r S layer
  outcomes : ∀ op a, r.layerAttempts.get? op = some a → ∃ outcome, r.layerOutcome op = .ok outcome
  bindings : ∀ op row, r.stackRows.get? op = some row → ∃ a, r.layerAttempts.get? op = some a
  receipts : ∀ op row, r.publications.get? op = some row → ∃ receipt, r.receiptIn op row = .ok receipt
  once : ∀ op op' row row', r.publications.get? op = some row → r.publications.get? op' = some row' →
    row.layer = row'.layer → row.outcome = .published → row'.outcome = .published → op = op'

/-- A later state is sound if what it adds is. -/
theorem Sound.later (hs : Sound r S) (h : Later r r') (hc' : Chain r' S')
    (hbounded : r'.versions.length ≤ MAX_VERSION + 1)
    (hhistory : ∀ layer, r'.events layer = r.events layer ∨ History r' S' layer)
    (houtcomes : ∀ op a, r'.layerAttempts.get? op = some a →
      r.layerAttempts.get? op = some a ∨ ∃ outcome, r'.layerOutcome op = .ok outcome)
    (hbindings : ∀ op row, r'.stackRows.get? op = some row →
      r.stackRows.get? op = some row ∨ ∃ a, r'.layerAttempts.get? op = some a)
    (hreceipts : ∀ op row, r'.publications.get? op = some row →
      r.publications.get? op = some row ∨ ∃ receipt, r'.receiptIn op row = .ok receipt)
    (honce : ∀ op op' row row', r'.publications.get? op = some row →
      r'.publications.get? op' = some row' → row.layer = row'.layer → row.outcome = .published →
      row'.outcome = .published → op = op') : Sound r' S' where
  chain := hc'
  bounded := hbounded
  history layer := by
    rcases hhistory layer with he | hh
    · exact (hs.history layer).later_of_eq h hs.chain hc' he
    · exact hh
  outcomes op a ha := by
    rcases houtcomes op a ha with hold | hnew
    · obtain ⟨outcome, ho⟩ := hs.outcomes op a hold
      exact ⟨outcome, h.layerOutcome hs.chain hc' op outcome ho⟩
    · exact hnew
  bindings op row hrow := by
    rcases hbindings op row hrow with hold | hnew
    · obtain ⟨a, ha⟩ := hs.bindings op row hold
      exact ⟨a, h.layerAttempts op a ha⟩
    · exact hnew
  receipts op row hrow := by
    rcases hreceipts op row hrow with hold | hnew
    · obtain ⟨receipt, hr⟩ := hs.receipts op row hold
      exact ⟨receipt, h.receiptIn hs.chain hc' hold receipt hr⟩
    · exact hnew
  once := honce

/-! ### Receipts and Layer states -/

/-- What a receipt that reads back has been checked for. -/
theorem receiptIn_eq_ok (hc : Chain r S) {op : OperationId} {row : PublicationRow Id}
    {receipt : PublicationReceipt Id} :
    r.receiptIn op row = .ok receipt ↔ ∃ expected against checkpoint warnings observed outcome,
      r.layerHeadIn row.layer row.expected = .ok expected ∧
      (expected.checkpoint = row.checkpoint ∧ row.expected ≤ row.observed) ∧
      r.versions[row.against]? = some against ∧ Frozen r S expected.checkpoint checkpoint ∧
      checkpoint.base.version ≤ row.against ∧ r.warningsIn row.attribution = .ok warnings ∧
      r.observedIn op row = .ok observed ∧ ¬ r.ignoresTerminal row = true ∧
      r.outcomeIn op row expected against observed = .ok outcome ∧
      r.objects.readBlob row.receipt = .ok (receiptBytes receipt) ∧
      receipt = ⟨op, expected, row.attribution, against, warnings, outcome⟩ := by
  unfold receiptIn
  simp only [except_bind_eq_ok, refuse_eq_ok, worldAt_eq_ok hc, checkpointIn_eq_ok hc]
  constructor
  · rintro ⟨expected, hexpected, _, hle, against, hagainst, checkpoint, hf, _, hbase, warnings, hw,
      observed, ho, _, hterm, outcome, hout, bytes, hbytes, _, hsame, hpure⟩
    obtain rfl := Except.ok.inj hpure
    have hnum := hc.contiguous _ _ hagainst
    rw [not_or, not_not, not_lt] at hle
    rw [not_lt, hnum] at hbase
    rw [not_not.mp hsame] at hbytes
    exact ⟨expected, against, checkpoint, warnings, observed, outcome, hexpected, hle, hagainst, hf,
      hbase, hw, ho, hterm, hout, hbytes, rfl⟩
  · rintro ⟨expected, against, checkpoint, warnings, observed, outcome, hexpected, hle, hagainst, hf,
      hbase, hw, ho, hterm, hout, hbytes, rfl⟩
    have hnum := hc.contiguous _ _ hagainst
    refine ⟨expected, hexpected, (), ?_, against, hagainst, checkpoint, hf, (), ?_, warnings, hw,
      observed, ho, (), hterm, outcome, hout, _, hbytes, (), not_not.mpr rfl, rfl⟩
    · rw [not_or, not_not, not_lt]
      exact hle
    · rw [not_lt, hnum]
      exact hbase

/-- What a successful publication has been checked for. -/
theorem publishedOutcome_eq_ok (hc : Chain r S) {op : OperationId} {row : PublicationRow Id}
    {expected : LayerHead Id} {against : WorldVersion Id} {observed : LayerState Id}
    {outcome : PublishOutcome Id} :
    r.publishedOutcome op row expected against observed = .ok outcome ↔
      ∃ result version composition, row.result = some result ∧
        (observed = .active expected ∧ row.worldOperation = some op ∧ r.attempts.get? op ≠ none ∧
          row.against + 1 = result) ∧
        r.latestEventStateIn row.layer = .ok observed ∧
        r.composeIn expected against = .ok (.inr composition) ∧
        r.versions[result]? = some version ∧
        (version.operation = some op ∧ version.tree = composition.tree ∧
          version.id = versionId (some against.id) composition.tree composition.changes) ∧
        r.changesetIn version.number = .ok composition.changes ∧ outcome = .published version := by
  unfold publishedOutcome
  cases row.result with
  | none =>
      constructor
      · intro h
        cases h
      · rintro ⟨_, _, _, h, _⟩
        cases h
  | some result =>
      simp only [except_bind_eq_ok, refuse_eq_ok, not_or, not_not, Option.some.injEq]
      constructor
      · rintro ⟨_, ⟨hobs, hop, hatt, hres⟩, latest, hlatest, _, rfl, composed, hcomposed, hrest⟩
        cases composed with
        | inl paths => cases hrest
        | inr composition =>
            simp only [except_bind_eq_ok, refuse_eq_ok, not_or, not_not, worldAt_eq_ok hc] at hrest
            obtain ⟨version, hv, _, hver, changes, hch, _, rfl, hpure⟩ := hrest
            exact ⟨result, version, composition, rfl, ⟨hobs, hop, hatt, hres⟩, hlatest, hcomposed, hv,
              hver, hch, (Except.ok.inj hpure).symm⟩
      · rintro ⟨_, version, composition, rfl, ⟨hobs, hop, hatt, hres⟩, hlatest, hcomposed, hv, hver,
          hch, rfl⟩
        refine ⟨(), ⟨hobs, hop, hatt, hres⟩, observed, hlatest, (), rfl, _, hcomposed, ?_⟩
        simp only [except_bind_eq_ok, refuse_eq_ok, not_or, not_not, worldAt_eq_ok hc]
        exact ⟨version, hv, (), hver, _, hch, (), rfl, rfl⟩

/-- What the success of a Layer is. -/
structure Succeeded (r : Repository Id) (op : OperationId) (row : PublicationRow Id)
    (head : LayerHead Id) (version : WorldVersion Id) : Prop where
  expected : r.layerHeadIn row.layer row.expected = .ok head
  latest : r.latestEventStateIn row.layer = .ok (.active head)
  result : row.result = some version.number
  stored : r.versions[version.number]? = some version
  against : row.against + 1 = version.number
  operation : version.operation = some op

theorem Sound.succeeded (hs : Sound r S) {op : OperationId} {row : PublicationRow Id}
    (hrow : r.publications.get? op = some row) (htag : row.outcome = .published) :
    ∃ head version, Succeeded r op row head version := by
  obtain ⟨receipt, hreceipt⟩ := hs.receipts op row hrow
  obtain ⟨expected, against, _, _, observed, outcome, hexpected, _, _, _, _, _, _, _, hout, _, _⟩ :=
    (receiptIn_eq_ok hs.chain).mp hreceipt
  unfold outcomeIn at hout
  rw [htag] at hout
  obtain ⟨result, version, _, hres, ⟨rfl, _, _, hag⟩, hlatest, _, hv, ⟨hop, _⟩, _⟩ :=
    (publishedOutcome_eq_ok hs.chain).mp hout
  have hnum := hs.chain.contiguous _ _ hv
  subst hnum
  exact ⟨expected, version, hexpected, hlatest, hres, hv, hag, hop⟩

theorem Succeeded.successState (hc : Chain r S) {op : OperationId} {row : PublicationRow Id}
    {head : LayerHead Id} {version : WorldVersion Id} (h : Succeeded r op row head version)
    (htag : row.outcome = .published) :
    r.successState op row = .ok (.published head op version) := by
  unfold Repository.successState
  have htag' : refuse (row.outcome ≠ .published)
      (corrupt "observation is not a successful publication" : Error Id) = .ok () := by
    rw [refuse_eq_ok, not_not]
    exact htag
  rw [except_bind_of_ok htag', except_bind_of_ok h.expected, h.result]
  simp only
  rw [except_bind_of_ok ((worldAt_eq_ok hc).mpr h.stored)]
  rfl

/-- The success of a Layer is found. -/
theorem Sound.successOf_eq (hs : Sound r S) {op : OperationId} {row : PublicationRow Id}
    (hrow : r.publications.get? op = some row) (htag : row.outcome = .published) :
    r.successOf row.layer = some (op, row) := by
  unfold successOf
  cases hfind : r.publications.toList.find?
      (fun e => decide (e.2.layer = row.layer) && decide (e.2.outcome = .published)) with
  | none =>
      rw [List.find?_eq_none] at hfind
      have hno := hfind (op, row) (SortedMap.get?_eq_some.mp hrow)
      simp [htag] at hno
  | some found =>
      obtain ⟨op', row'⟩ := found
      have hp := List.find?_some hfind
      simp only [Bool.and_eq_true, decide_eq_true_eq] at hp
      have hget := SortedMap.get?_eq_some.mpr (List.mem_of_find?_eq_some hfind)
      obtain rfl := hs.once _ _ _ _ hget hrow hp.1 hp.2 htag
      rw [Option.some.inj (hget.symm.trans hrow)]

omit [LinearOrder Id] [Encoding Id] in
theorem successOf_eq_none {layer : LayerId} : r.successOf layer = none ↔
    ∀ op row, r.publications.get? op = some row → row.layer = layer → row.outcome ≠ .published := by
  unfold successOf
  rw [List.find?_eq_none]
  constructor
  · intro h op row hrow hlayer htag
    have hno := h (op, row) (SortedMap.get?_eq_some.mp hrow)
    simp [hlayer, htag] at hno
  · rintro h ⟨op, row⟩ hm
    simp only [Bool.and_eq_true, decide_eq_true_eq, not_and]
    exact h op row (SortedMap.get?_eq_some.mpr hm)

theorem Sound.publishedStateIn_of_success (hs : Sound r S) {op : OperationId} {row : PublicationRow Id}
    (hrow : r.publications.get? op = some row) (htag : row.outcome = .published) :
    ∃ head version, Succeeded r op row head version ∧
      r.publishedStateIn row.layer = .ok (some (.published head op version)) := by
  obtain ⟨head, version, hsucc⟩ := hs.succeeded hrow htag
  obtain ⟨receipt, hreceipt⟩ := hs.receipts op row hrow
  refine ⟨head, version, hsucc, ?_⟩
  unfold publishedStateIn
  rw [hs.successOf_eq hrow htag]
  simp only
  rw [except_bind_of_ok hreceipt, except_bind_of_ok (hsucc.successState hs.chain htag)]
  rfl

theorem Sound.layerStateIn_of_success (hs : Sound r S) {op : OperationId} {row : PublicationRow Id}
    (hrow : r.publications.get? op = some row) (htag : row.outcome = .published) :
    ∃ head version, Succeeded r op row head version ∧
      r.layerStateIn row.layer = .ok (.published head op version) := by
  obtain ⟨head, version, hsucc, hstate⟩ := hs.publishedStateIn_of_success hrow htag
  refine ⟨head, version, hsucc, ?_⟩
  unfold layerStateIn
  rw [except_bind_of_ok hstate]
  rfl

/-- Without a success a Layer is in the state of its latest event. -/
theorem layerStateIn_of_open {layer : LayerId} (hopen : r.successOf layer = none) :
    r.layerStateIn layer = r.latestEventStateIn layer := by
  unfold layerStateIn publishedStateIn
  rw [hopen]
  rfl

end Repository

end Javelin
