import Javelin.Ancestry

/-! # Checking the indexes

`checkRadar` and `checkBlame` accept every reachable repository.  Both compare rows with an
attribution that is folded anew from the history, then count rows: the counts agree because
every row belongs to a live Layer or to a published version.

`LastChanged` says what an attribution means without the fold: the revision since which a path
has had its entry. -/

namespace Javelin

open KeyedList

variable {Id : Type} [LinearOrder Id] [Encoding Id]

/-! ### Counting rows -/

section rows
variable {K V W : Type} [LinearOrder K]

omit [LinearOrder Id] [Encoding Id] in
/-- Maps that are set at the same keys have the same list of keys. -/
theorem SortedMap.keys_congr {m : SortedMap K V} {m' : SortedMap K W}
    (h : ∀ k, (m.get? k).isSome = (m'.get? k).isSome) : m.keys = m'.keys := by
  have hkeys : ∀ {U : Type} (m : SortedMap K U), Ascending id m.keys := by
    intro U m
    exact m.ascending.map (fun _ _ => rfl)
  apply (hkeys m).ext_mem (hkeys m')
  intro k
  rw [SortedMap.mem_keys, SortedMap.mem_keys, h k]

omit [LinearOrder Id] [Encoding Id] in
theorem SortedMap.length_keys (m : SortedMap K V) : m.keys.length = m.toList.length :=
  List.length_map _

omit [LinearOrder K] [LinearOrder Id] [Encoding Id] in
/-- A sum over keys only depends on those that count. -/
theorem sum_map_congr {f : K → ℕ} {l l' : List K} (hn : l.Nodup) (hn' : l'.Nodup)
    (h : ∀ k, f k ≠ 0 → (k ∈ l ↔ k ∈ l')) : (l.map f).sum = (l'.map f).sum := by
  have hfilter : ∀ l : List K, (l.map f).sum = ((l.filter (fun k => decide (f k ≠ 0))).map f).sum := by
    intro l
    induction l with
    | nil => rfl
    | cons k l ih =>
        by_cases hk : f k = 0
        · simp [hk, ih]
        · simp [hk, ih]
  have hperm : (l.filter (fun k => decide (f k ≠ 0))).Perm (l'.filter (fun k => decide (f k ≠ 0))) := by
    rw [List.perm_ext_iff_of_nodup (hn.filter _) (hn'.filter _)]
    intro k
    simp only [List.mem_filter, decide_eq_true_eq]
    constructor
    · exact fun hk => ⟨(h k hk.2).mp hk.1, hk.2⟩
    · exact fun hk => ⟨(h k hk.2).mpr hk.1, hk.2⟩
  rw [hfilter l, hfilter l', (hperm.map f).sum_nat]

omit [LinearOrder Id] [Encoding Id] in
/-- The rows of a table of tables, counted through its keys. -/
theorem sum_lengths (m : SortedMap K (SortedMap RepoPath V)) :
    (m.toList.map (fun e => e.2.toList.length)).sum =
      (m.keys.map (fun k => ((m.get? k).getD SortedMap.empty).toList.length)).sum := by
  unfold SortedMap.keys
  rw [List.map_map]
  congr 1
  apply List.map_congr_left
  rintro ⟨k, rows⟩ he
  show rows.toList.length = ((m.get? k).getD SortedMap.empty).toList.length
  rw [SortedMap.get?_eq_some.mpr he]
  rfl

end rows

namespace Repository
variable {r r' : Repository Id} {S : VersionNumber → Manifest Id}

/-! ### What an attribution says -/

/-- The head delta of revision `n` sets the path to the entry. -/
def ChangesTo (r : Repository Id) (layer : LayerId) (n : ℕ) (p : RepoPath)
    (entry : Option (FileEntry Id)) : Prop :=
  ∃ e checkpoint, (r.events layer).get? n = some e ∧ r.checkpointIn e.checkpoint = .ok checkpoint ∧
    checkpoint.changes.entries.get? p = some entry

/-- Of revision `n`, the path was last changed by revision `m`, whose checkpoint and provenance it
is attributed to. -/
structure LastChangedBy (r : Repository Id) (layer : LayerId) (n : ℕ) (p : RepoPath) (t : Tracked Id)
    (m : ℕ) : Prop where
  le : m ≤ n
  since : ∀ k, m ≤ k → k ≤ n → ChangesTo r layer k p t.entry
  before : ∀ k, k + 1 = m → ¬ ChangesTo r layer k p t.entry
  attributed : ∃ e checkpoint, (r.events layer).get? m = some e ∧
    r.checkpointIn e.checkpoint = .ok checkpoint ∧ t.checkpoint = e.checkpoint ∧
    t.provenance = checkpoint.provenance

theorem checkpointIn_id {id : Id} {checkpoint : LayerCheckpoint Id}
    (h : r.checkpointIn id = .ok checkpoint) : checkpoint.id = id := by
  unfold checkpointIn checkpointNode at h
  obtain ⟨c, _, h₁⟩ := except_bind_eq_ok.mp h
  obtain ⟨_, _, h₂⟩ := except_bind_eq_ok.mp h₁
  obtain ⟨_, _, h₃⟩ := except_bind_eq_ok.mp h₂
  obtain ⟨_, _, h₄⟩ := except_bind_eq_ok.mp h₃
  obtain ⟨_, _, h₅⟩ := except_bind_eq_ok.mp h₄
  obtain ⟨_, _, hpure⟩ := except_bind_eq_ok.mp h₅
  obtain rfl := Except.ok.inj hpure
  rfl

/-- An attribution has the paths and entries of the head delta. -/
theorem get?_attributionIn {layer : LayerId} {n : ℕ} {a : SortedMap RepoPath (Tracked Id)}
    (hok : r.attributionIn r.checkpointIn layer n = .ok a) :
    ∃ e checkpoint, (r.events layer).get? n = some e ∧ r.checkpointIn e.checkpoint = .ok checkpoint ∧
      ∀ p, (a.get? p).map Tracked.entry = checkpoint.changes.entries.get? p := by
  obtain ⟨b, e, checkpoint, he, hread, rfl⟩ := of_attributionIn hok
  refine ⟨e, checkpoint, he, hread, fun p => ?_⟩
  rw [get?_attributeHead, Option.map_map]
  cases checkpoint.changes.entries.get? p with
  | none => rfl
  | some entry => exact congrArg some origin_entry

/-- An attribution names the revision that last changed each path. -/
theorem exists_lastChangedBy {layer : LayerId} {n : ℕ} {a : SortedMap RepoPath (Tracked Id)}
    (hok : r.attributionIn r.checkpointIn layer n = .ok a) {p : RepoPath} {t : Tracked Id}
    (ht : a.get? p = some t) : ∃ m, LastChangedBy r layer n p t m := by
  -- A head that sets the path anew is the revision that last changed it.
  have hnew : ∀ {n e checkpoint entry}, (r.events layer).get? n = some e →
      r.checkpointIn e.checkpoint = .ok checkpoint →
      checkpoint.changes.entries.get? p = some entry →
      (∀ k, k + 1 = n → ¬ ChangesTo r layer k p entry) →
      LastChangedBy r layer n p ⟨entry, checkpoint.id, checkpoint.provenance⟩ n := by
    intro n e checkpoint entry he hread hentry hbefore
    refine ⟨le_refl n, fun k hm hn => ?_, hbefore, e, checkpoint, he, hread, checkpointIn_id hread, rfl⟩
    obtain rfl := le_antisymm hn hm
    exact ⟨e, checkpoint, he, hread, hentry⟩
  induction n generalizing a t with
  | zero =>
      rw [attributionIn_zero, attributeRevision_eq_ok] at hok
      obtain ⟨e, checkpoint, he, hread, rfl⟩ := hok
      rw [get?_attributeHead, Option.map_eq_some_iff] at ht
      obtain ⟨entry, hentry, rfl⟩ := ht
      exact ⟨0, hnew he hread hentry (fun k hk => absurd hk (Nat.succ_ne_zero k))⟩
  | succ n ih =>
      rw [attributionIn_succ] at hok
      obtain ⟨b, hb, hlast⟩ := except_bind_eq_ok.mp hok
      obtain ⟨e, checkpoint, he, hread, rfl⟩ := attributeRevision_eq_ok.mp hlast
      rw [get?_attributeHead, Option.map_eq_some_iff] at ht
      obtain ⟨entry, hentry, rfl⟩ := ht
      obtain ⟨e', checkpoint', he', hread', hkeys⟩ := get?_attributionIn hb
      -- The revision before says whether the entry is a new one.
      have hbefore : ChangesTo r layer n p entry ↔ (b.get? p).map Tracked.entry = some entry := by
        rw [hkeys]
        constructor
        · rintro ⟨e'', checkpoint'', he'', hread'', hentry''⟩
          obtain rfl := Option.some.inj (he'.symm.trans he'')
          obtain rfl := Except.ok.inj (hread'.symm.trans hread'')
          exact hentry''
        · exact fun h => ⟨e', checkpoint', he', hread', h⟩
      by_cases hsame : ChangesTo r layer n p entry
      · obtain ⟨t, ht, hte⟩ := Option.map_eq_some_iff.mp (hbefore.mp hsame)
        obtain ⟨m, hm⟩ := ih hb ht
        have horigin : origin (b.get? p) checkpoint.id checkpoint.provenance entry = t := by
          unfold origin
          rw [ht]
          exact if_pos hte
        rw [horigin]
        refine ⟨m, Nat.le_succ_of_le hm.le, fun k hk hkn => ?_, hm.before, hm.attributed⟩
        rcases Nat.of_le_succ hkn with hkn | rfl
        · exact hm.since k hk hkn
        · exact ⟨e, checkpoint, he, hread, hte ▸ hentry⟩
      · refine ⟨n + 1, ?_⟩
        have horigin : origin (b.get? p) checkpoint.id checkpoint.provenance entry =
            ⟨entry, checkpoint.id, checkpoint.provenance⟩ := by
          unfold origin
          cases hb' : b.get? p with
          | none => rfl
          | some t =>
              refine if_neg (fun hte => hsame (hbefore.mpr ?_))
              rw [hb', ← hte]
              rfl
        rw [horigin]
        apply hnew he hread hentry
        intro k hk
        obtain rfl := Nat.succ.inj hk
        exact hsame

/-! ### Radar -/

/-- Reading every checkpoint with its ancestry gives the same attribution. -/
theorem AllDeep.attributionIn (hd : AllDeep r) {layer : LayerId} {n : ℕ}
    {a : SortedMap RepoPath (Tracked Id)} (hok : r.attributionIn r.checkpointIn layer n = .ok a) :
    r.attributionIn r.readDeep layer n = .ok a := by
  have hrevision : ∀ {a b m}, r.attributeRevision r.checkpointIn layer a m = .ok b →
      r.attributeRevision r.readDeep layer a m = .ok b := by
    intro a b m h
    obtain ⟨e, checkpoint, he, hread, hb⟩ := attributeRevision_eq_ok.mp h
    rw [attributeRevision_eq_ok]
    exact ⟨e, checkpoint, he, (hd.deep hread).readDeep_eq.trans hread, hb⟩
  induction n generalizing a with
  | zero =>
      rw [attributionIn_zero] at hok ⊢
      exact hrevision hok
  | succ n ih =>
      rw [attributionIn_succ] at hok ⊢
      obtain ⟨b, hb, hlast⟩ := except_bind_eq_ok.mp hok
      rw [except_bind_of_ok (ih hb)]
      exact hrevision hlast

theorem Sound.live_of_active (hs : Sound r S) {layer : LayerId} {head : LayerHead Id}
    (hok : r.layerStateIn layer = .ok (.active head)) : Live r layer head.revision ∧
      ∃ e, (r.events layer).get? head.revision = some e ∧ e.checkpoint = head.checkpoint := by
  obtain ⟨hopen, hevent⟩ := (hs.observes hok).observed rfl
  rw [layerStateIn_of_open hopen] at hok
  obtain ⟨n, e, hlatest, hstate⟩ := latestEventStateIn_eq_ok.mp hok
  unfold Event.state at hstate
  cases hlive : e.discarded with
  | true =>
      rw [hlive] at hstate
      cases hstate
  | false =>
      rw [hlive] at hstate
      obtain rfl := LayerState.active.inj hstate
      exact ⟨⟨e, hlatest, hlive, hopen⟩, e, (latestIn_eq_ok.mp hlatest).1, rfl⟩

omit [LinearOrder Id] in
theorem active_of_live [LinearOrder Id] {layer : LayerId} {n : ℕ} (h : Live r layer n) :
    ∃ head, r.layerStateIn layer = .ok (.active head) ∧ head.revision = n := by
  obtain ⟨e, hlatest, hlive, hopen⟩ := h
  refine ⟨⟨r.identity, layer, n, e.checkpoint⟩, ?_, rfl⟩
  rw [layerStateIn_of_open hopen, latestEventStateIn_eq_ok]
  refine ⟨n, e, hlatest, ?_⟩
  unfold Event.state
  rw [hlive]
  rfl

theorem Sound.exists_layerStateIn (hs : Sound r S) {layer : LayerId} (hm : layer ∈ r.layers) :
    ∃ state, r.layerStateIn layer = .ok state := by
  unfold layers at hm
  rw [List.mem_filter, decide_eq_true_eq] at hm
  cases hfind : r.successOf layer with
  | some found =>
      obtain ⟨op, row⟩ := found
      have hp := List.find?_some hfind
      simp only [Bool.and_eq_true, decide_eq_true_eq] at hp
      have hrow := SortedMap.get?_eq_some.mpr (List.mem_of_find?_eq_some hfind)
      obtain ⟨rfl, htag⟩ := hp
      obtain ⟨head, version, _, hstate⟩ := hs.layerStateIn_of_success hrow htag
      exact ⟨_, hstate⟩
  | none =>
      obtain ⟨⟨n, e⟩, l, hl⟩ := List.exists_cons_of_ne_nil hm.2
      have he : (r.events layer).get? n = some e := SortedMap.get?_eq_some.mpr (by rw [hl]; simp)
      obtain ⟨m, e', hlatest⟩ := exists_latest he
      rw [layerStateIn_of_open hfind]
      exact ⟨_, latestEventStateIn_eq_ok.mpr ⟨m, e', hlatest, rfl⟩⟩

/-- The rows that a Layer must have are the rows it has. -/
theorem Indexed.derivedIn (hi : Indexed r) (hd : AllDeep r) (hs : Sound r S) {layer : LayerId}
    (hm : layer ∈ r.layers) : r.derivedIn layer = .ok (r.trackedIn layer) := by
  obtain ⟨state, hstate⟩ := hs.exists_layerStateIn hm
  have hdead : (∀ head, state ≠ .active head) → r.trackedIn layer = SortedMap.empty := by
    intro hno
    apply (hi.tracks layer).dead
    intro n hlive
    obtain ⟨head, hactive, _⟩ := active_of_live hlive
    exact hno head (Except.ok.inj (hstate.symm.trans hactive))
  unfold Repository.derivedIn
  rw [except_bind_of_ok hstate]
  cases state with
  | active head =>
      obtain ⟨hlive, _⟩ := hs.live_of_active hstate
      exact hd.attributionIn ((hi.tracks layer).live _ hlive)
  | published head op version =>
      rw [hdead (by simp)]
      rfl
  | discarded layer' n checkpoint =>
      rw [hdead (by simp)]
      rfl

/-- A Layer that has rows has an event. -/
theorem Indexed.mem_layers (hi : Indexed r) {layer : LayerId}
    (hrows : (r.trackedIn layer).toList.length ≠ 0) :
    layer ∈ r.layers ∧ layer ∈ r.layerPaths.keys := by
  constructor
  · by_contra hno
    have hempty : (r.events layer).toList = [] := by
      by_contra hne
      refine hno (List.mem_filter.mpr ⟨?_, decide_eq_true hne⟩)
      rw [SortedMap.mem_keys]
      unfold events at hne
      cases hl : r.layerHeads.get? layer with
      | some m => rfl
      | none =>
          rw [hl] at hne
          exact absurd rfl hne
    rw [(hi.tracks layer).dead] at hrows
    · exact hrows rfl
    · rintro n ⟨e, hlatest, _⟩
      have he := SortedMap.get?_eq_some.mp (latestIn_eq_ok.mp hlatest).1
      rw [hempty] at he
      cases he
  · rw [SortedMap.mem_keys]
    unfold trackedIn at hrows
    cases hl : r.layerPaths.get? layer with
    | some rows => rfl
    | none =>
        rw [hl] at hrows
        exact absurd rfl hrows

theorem Indexed.checkRadar (hi : Indexed r) (hd : AllDeep r) (hs : Sound r S) :
    r.checkRadar = .ok () := by
  have hstep : ∀ n layer, layer ∈ r.layers →
      r.checkTracked n layer = .ok (n + (r.trackedIn layer).toList.length) := by
    intro n layer hm
    have hsame : refuse ((r.trackedIn layer).toList.length ≠ (r.trackedIn layer).toList.length ∨
        (r.trackedIn layer).toList.any
          (fun e => decide ((r.trackedIn layer).get? e.1 ≠ some e.2)) = true)
        (corrupt "Layer path index disagrees with Layer" : Error Id) = .ok () := by
      rw [refuse_eq_ok, not_or]
      refine ⟨by simp, ?_⟩
      rw [List.any_eq_true]
      rintro ⟨e, he, hne⟩
      exact of_decide_eq_true hne (SortedMap.get?_eq_some.mpr he)
    unfold checkTracked
    rw [except_bind_of_ok (hi.derivedIn hd hs hm), except_bind_of_ok hsame]
    rfl
  have hrun : ∀ (l : List LayerId) n, (∀ layer ∈ l, layer ∈ r.layers) →
      l.foldlM r.checkTracked n =
        .ok (n + (l.map (fun layer => (r.trackedIn layer).toList.length)).sum) := by
    intro l
    induction l with
    | nil => exact fun n _ => rfl
    | cons layer l ih =>
        intro n hl
        rw [List.forall_mem_cons] at hl
        rw [List.foldlM_cons, except_bind_of_ok (hstep n layer hl.1), ih _ hl.2, List.map_cons,
          List.sum_cons, Nat.add_assoc]
  have hcount : (r.layerPaths.toList.map (fun e => e.2.toList.length)).sum =
      (r.layers.map (fun layer => (r.trackedIn layer).toList.length)).sum := by
    rw [sum_lengths]
    apply sum_map_congr r.layerPaths.keys_nodup (r.layerHeads.keys_nodup.filter _)
    intro layer hrows
    obtain ⟨hm, hm'⟩ := hi.mem_layers hrows
    exact ⟨fun _ => hm, fun _ => hm'⟩
  unfold Repository.checkRadar
  rw [except_bind_of_ok (hrun r.layers 0 (fun _ h => h))]
  rw [refuse_eq_ok, not_not, hcount, Nat.zero_add]

/-! ### Blame -/

/-- What a published version records of its Layer's head. -/
theorem Sound.published_changes (hs : Sound r S) {op : OperationId} {row : PublicationRow Id}
    (hrow : r.publications.get? op = some row) (htag : row.outcome = .published) :
    ∃ head version checkpoint, Succeeded r op row head version ∧
      r.checkpointIn head.checkpoint = .ok checkpoint ∧
      r.changesetIn version.number = .ok checkpoint.changes := by
  obtain ⟨receipt, hreceipt⟩ := hs.receipts op row hrow
  obtain ⟨expected, against, _, _, observed, outcome, hexpected, _, hagainst, _, _, _, _, _, hout, _⟩ :=
    (receiptIn_eq_ok hs.chain).mp hreceipt
  unfold outcomeIn at hout
  rw [htag] at hout
  obtain ⟨result, version, composition, hres, ⟨rfl, _, _, hag⟩, hlatest, hcomposed, hv, ⟨hop, _⟩, hch,
    _⟩ := (publishedOutcome_eq_ok hs.chain).mp hout
  have hnum := hs.chain.contiguous _ _ hv
  subst hnum
  have hworld : r.versions[against.number]? = some against := by
    rw [hs.chain.contiguous _ _ hagainst]
    exact hagainst
  obtain ⟨checkpoint, hf, _, hcomp⟩ := of_composeIn hs.chain hworld hcomposed
  have hcomp : Composes r S checkpoint against.number composition := hcomp
  rw [hcomp.changes] at hch
  exact ⟨expected, version, checkpoint, ⟨hexpected, hlatest, hres, hv, hag, hop⟩,
    (checkpointIn_eq_ok hs.chain).mpr hf, hch⟩

/-- The blame of a published version has the paths of its changes. -/
theorem Indexed.published_rows (hi : Indexed r) (hs : Sound r S) {op : OperationId}
    {row : PublicationRow Id} (hrow : r.publications.get? op = some row)
    (htag : row.outcome = .published) : ∃ n changes attribution rows, row.result = some n ∧
      r.changesetIn n = .ok changes ∧
      r.attributionIn r.checkpointIn row.layer row.expected = .ok attribution ∧
      r.blame.get? n = some rows ∧ BlamedAs rows attribution ∧
      ∀ p, (attribution.get? p).map Tracked.entry = changes.entries.get? p := by
  obtain ⟨head, version, checkpoint, hsucc, hread, hchanges⟩ := hs.published_changes hrow htag
  obtain ⟨attribution, rows, hatt, hget, has⟩ := hi.blamed.published op row _ hrow htag hsucc.result
  refine ⟨_, _, attribution, rows, hsucc.result, hchanges, hatt, hget, has, ?_⟩
  obtain ⟨e, checkpoint', he, hread', hkeys⟩ := get?_attributionIn hatt
  obtain ⟨e', he', _, hhead⟩ := layerHeadIn_eq_ok.mp hsucc.expected
  obtain rfl := Option.some.inj (he.symm.trans he')
  rw [hhead] at hread
  obtain rfl := Except.ok.inj (hread.symm.trans hread')
  exact hkeys

/-- One successful publication passes, and expects as many rows as its version has. -/
theorem Indexed.checkPublished (hi : Indexed r) (hd : AllDeep r) (hs : Sound r S) {op : OperationId}
    {row : PublicationRow Id} (hrow : r.publications.get? op = some row)
    (htag : row.outcome = .published) (expected : ℕ) : r.checkPublished expected row =
      .ok (expected + ((r.blame.get? (row.result.getD 0)).getD SortedMap.empty).toList.length) := by
  obtain ⟨n, changes, attribution, rows, hres, hchanges, hatt, hget, has, hkeys⟩ :=
    hi.published_rows hs hrow htag
  have hrows : (r.blame.get? n).getD SortedMap.empty = rows := by
    rw [hget]
    rfl
  have hpaths : changes.entries.keys.forM (checkBlamed attribution rows) = .ok () := by
    rw [forM_eq_ok]
    intro p hp
    rw [SortedMap.mem_keys, ← hkeys, Option.isSome_map, Option.isSome_iff_exists] at hp
    obtain ⟨t, ht⟩ := hp
    unfold checkBlamed
    rw [ht]
    show refuse _ _ = _
    rw [refuse_eq_ok, not_not, has, ht]
    rfl
  have hlength : changes.entries.toList.length = rows.toList.length := by
    rw [← SortedMap.length_keys, ← SortedMap.length_keys]
    congr 1
    apply SortedMap.keys_congr
    intro p
    rw [has, Option.isSome_map, ← hkeys, Option.isSome_map]
  unfold Repository.checkPublished
  rw [hres]
  show (r.attributionIn r.readDeep row.layer row.expected >>= fun _ => _) = _
  rw [except_bind_of_ok (hd.attributionIn hatt), except_bind_of_ok hchanges, hrows,
    except_bind_of_ok hpaths, hlength, Option.getD_some, hrows]
  rfl

/-- Every version that has blame was published once. -/
theorem Indexed.successes (hi : Indexed r) (hs : Sound r S) :
    ((r.successes.map (fun row => row.result.getD 0)).Perm r.blame.keys) ∧
      ∀ row ∈ r.successes, ∃ op, r.publications.get? op = some row ∧ row.outcome = .published := by
  have hentry : ∀ e ∈ r.publications.toList.filter (fun e => decide (e.2.outcome = .published)),
      r.publications.get? e.1 = some e.2 ∧ e.2.outcome = .published := by
    intro e he
    rw [List.mem_filter, decide_eq_true_eq] at he
    exact ⟨SortedMap.get?_eq_some.mpr he.1, he.2⟩
  have hperm : r.successes.Perm
      ((r.publications.toList.filter (fun e => decide (e.2.outcome = .published))).map Prod.snd) := by
    unfold Repository.successes
    refine (List.mergeSort_perm _ _).trans (List.Perm.of_eq ?_)
    rw [List.filter_map]
    rfl
  refine ⟨?_, ?_⟩
  · have hmap := hperm.map (fun row => row.result.getD 0)
    rw [List.map_map] at hmap
    refine hmap.trans ?_
    rw [List.perm_ext_iff_of_nodup ?_ r.blame.keys_nodup]
    · intro n
      rw [List.mem_map, SortedMap.mem_keys, Option.isSome_iff_exists]
      constructor
      · rintro ⟨e, he, rfl⟩
        obtain ⟨hrow, htag⟩ := hentry e he
        obtain ⟨n, _, _, rows, hres, _, _, hget, _⟩ := hi.published_rows hs hrow htag
        refine ⟨rows, ?_⟩
        show r.blame.get? (e.2.result.getD 0) = some rows
        rw [hres]
        exact hget
      · rintro ⟨rows, hget⟩
        obtain ⟨op, row, hrow, htag, hres⟩ := hi.blamed.only n rows hget
        refine ⟨(op, row), ?_, by simp [hres]⟩
        rw [List.mem_filter]
        exact ⟨SortedMap.get?_eq_some.mp hrow, decide_eq_true htag⟩
    · refine List.Nodup.map_on ?_ (r.publications.ascending.nodup.filter _)
      -- A version names the operation that published it.
      intro e he e' he' hsame
      obtain ⟨hrow, htag⟩ := hentry e he
      obtain ⟨hrow', htag'⟩ := hentry e' he'
      obtain ⟨_, version, hsucc⟩ := hs.succeeded hrow htag
      obtain ⟨_, version', hsucc'⟩ := hs.succeeded hrow' htag'
      simp only [Function.comp_apply, hsucc.result, hsucc'.result, Option.getD_some] at hsame
      have hversion := hsucc.stored
      rw [hsame, hsucc'.stored] at hversion
      obtain rfl := Option.some.inj hversion
      have hop := Option.some.inj (hsucc.operation.symm.trans hsucc'.operation)
      rw [hop, hrow'] at hrow
      exact Prod.ext hop (Option.some.inj hrow).symm
  · intro row hm
    obtain ⟨e, he, rfl⟩ := List.mem_map.mp (hperm.mem_iff.mp hm)
    exact ⟨e.1, hentry e he⟩

theorem Indexed.checkBlame (hi : Indexed r) (hd : AllDeep r) (hs : Sound r S) :
    r.checkBlame = .ok () := by
  obtain ⟨hperm, hrows⟩ := hi.successes hs
  have hrun : ∀ (l : List (PublicationRow Id)) n, (∀ row ∈ l, row ∈ r.successes) →
      l.foldlM r.checkPublished n = .ok (n + (l.map (fun row =>
        ((r.blame.get? (row.result.getD 0)).getD SortedMap.empty).toList.length)).sum) := by
    intro l
    induction l with
    | nil => exact fun n _ => rfl
    | cons row l ih =>
        intro n hl
        rw [List.forall_mem_cons] at hl
        obtain ⟨op, hrow, htag⟩ := hrows row hl.1
        rw [List.foldlM_cons, except_bind_of_ok (hi.checkPublished hd hs hrow htag n), ih _ hl.2,
          List.map_cons, List.sum_cons, Nat.add_assoc]
  have hcount : (r.blame.toList.map (fun e => e.2.toList.length)).sum =
      (r.successes.map (fun row =>
        ((r.blame.get? (row.result.getD 0)).getD SortedMap.empty).toList.length)).sum := by
    rw [sum_lengths, ← (hperm.map _).sum_nat, List.map_map]
    rfl
  unfold Repository.checkBlame
  rw [except_bind_of_ok (hrun r.successes 0 (fun _ h => h))]
  rw [refuse_eq_ok, not_not, hcount, Nat.zero_add]

end Repository

end Javelin
