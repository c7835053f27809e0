import Javelin.Bytes
import Javelin.IndexChecks
import Javelin.LayerRequests

/-! # Hosted appends

A client names the parent of an append by its checkpoint, the Layer store by its revision, and a
checkpoint can recur in a history.  `append` tries every revision of the Layer that holds the parent,
the latest first, and goes on only while the operation ID is refused as reused.

`layerHistory_eq_ok`: the history of a Layer always reads back, so the tried heads are exactly the
live ones at the parent (`HeadsAt`), and `append` is what `tryHeads` answers over them
(`append_eq`). -/

namespace KeyedList

/-- Ascending numbers without gaps are a range. -/
theorem eq_range'_of_contiguous {l : List ℕ} : ∀ i, l.Pairwise (· < ·) → (∀ k ∈ l, i ≤ k) →
    (∀ k ∈ l, ∀ n, i ≤ n → n ≤ k → n ∈ l) → l = List.range' i l.length := by
  induction l with
  | nil => exact fun _ _ _ _ => rfl
  | cons a l ih =>
      intro i hsorted hlow hclosed
      obtain ⟨hlt, hsorted'⟩ := List.pairwise_cons.mp hsorted
      have hfirst : a = i := by
        have hle := hlow a List.mem_cons_self
        have hmem := hclosed a List.mem_cons_self i le_rfl hle
        cases List.mem_cons.mp hmem with
        | inl h => exact h.symm
        | inr h =>
            have hbelow := hlt i h
            omega
      subst hfirst
      have htail := ih (a + 1) hsorted' hlt (by
        intro k hk n hn hnk
        have hmem := hclosed k (List.mem_cons_of_mem a hk) n (by omega) hnk
        cases List.mem_cons.mp hmem with
        | inl h => omega
        | inr h => exact h)
      rw [List.length_cons, List.range'_succ, ← htail]

/-- The keys of a map without gaps are the numbers below its length. -/
theorem SortedMap.keys_eq_range {V : Type} {m : SortedMap ℕ V}
    (hclosed : ∀ n k v, m.get? k = some v → n ≤ k → ∃ v', m.get? n = some v') :
    m.keys = List.range m.toList.length := by
  have hsorted : m.keys.Pairwise (· < ·) := pairwise_map_key m.ascending
  have hrange := eq_range'_of_contiguous 0 hsorted (fun _ _ => Nat.zero_le _) (by
    intro k hk n _ hnk
    obtain ⟨v, hv⟩ := Option.isSome_iff_exists.mp (SortedMap.mem_keys.mp hk)
    obtain ⟨v', hv'⟩ := hclosed n k v hv hnk
    rw [SortedMap.mem_keys, hv']
    rfl)
  rw [hrange, List.range_eq_range']
  unfold SortedMap.keys
  rw [List.length_map]

end KeyedList

namespace Javelin

open KeyedList

/-- `Error::code`. -/
def Error.code {Id : Type} : Error Id → String
  | invalidInput _ => "invalid_input"
  | missingObject _ => "missing_object"
  | corruptObject _ => "corrupt_object"
  | wrongObjectKind _ => "wrong_object_kind"
  | missingVersion _ => "missing_version"
  | corruptRepository _ => "corrupt_repository"
  | layerPublished _ _ => "layer_published"
  | missingAgentTrace => "missing_agent_trace"
  | operationIdReused _ => "operation_id_reused"
  | storage _ => "storage_error"

/-- The decision about an append. -/
inductive LayerOutcome (Id : Type) where
  | accepted (seq : ℕ) (checkpoint : Id)
  | stale (head : Id)
  | refused (code : String)
deriving DecidableEq

/-- Why an append was not decided. -/
inductive AppendError (Id : Type) where
  | notUploaded (changes : Id)
  | storage (detail : String)
  | native (error : Error Id)
deriving DecidableEq

/-- The stable code of a failure. -/
def AppendError.code {Id : Type} : AppendError Id → String
  | notUploaded _ => "missing_object"
  | storage _ => "storage"
  | native error => error.code

/-- The changes objects that are uploaded. -/
abbrev ChangesTable (Id : Type) [LinearOrder Id] := SortedMap Id (SparseChanges Id)

/-- The Layers of revisions under review start with this. -/
def REVIEW_LAYER_PREFIX : Str := Bytes.text "review-"

/-- Whether only a review may publish the Layer. -/
def isReviewLayer (layer : LayerId) : Bool := REVIEW_LAYER_PREFIX.isPrefixOf layer.text

/-- The reply for a parent that is not current. -/
def staleOrRefused {Id : Type} : LayerState Id → LayerOutcome Id
  | .active head => .stale head.checkpoint
  | .published _ _ _ => .refused "layer_published"
  | .discarded _ _ _ => .refused "layer_discarded"

variable {Id : Type} [LinearOrder Id] [Encoding Id]

namespace Repository
variable (r : Repository Id)

/-! ### The history of a Layer -/

/-- An event against the one before. -/
def checkEvent (layer : LayerId) (revision : ℕ) (event : Event Id) :
    Option (Event Id) → Except (Error Id) Unit
  | none => refuse (event.operation.isSome = true ∨ event.discarded = true) (corrupt "invalid initial Layer")
  | some previous => do
      refuse (previous.discarded = true ∨ (event.discarded = true ∧ previous.checkpoint ≠ event.checkpoint))
        (corrupt "invalid discard history")
      match event.operation with
      | none => throw (corrupt "missing Layer head operation")
      | some operation => do
          let outcome ← r.layerOutcome operation
          refuse (outcome ≠ .applied (event.state r.identity layer revision))
            (corrupt "Layer head operation disagrees")

/-- The events from the given index on. -/
def checkEvents (layer : LayerId) (index : ℕ) (base : Option (LayerBase Id)) (previous : Option (Event Id)) :
    List (ℕ × Event Id) → Except (Error Id) Unit
  | [] => return ()
  | (revision, event) :: rest => do
      refuse (revision ≠ index) (corrupt "Layer head history is not contiguous")
      let snapshot ← r.checkpointIn event.checkpoint
      refuse (base.getD snapshot.base ≠ snapshot.base) (corrupt "Layer base changed")
      r.checkEvent layer revision event previous
      checkEvents layer (index + 1) (some snapshot.base) (some event) rest

/-- One Layer's complete event and attempt history. -/
def checkLayer (layer : LayerId) : Except (Error Id) Unit := do
  r.checkEvents layer 0 none none (r.events layer).toList
  (r.layerAttempts.toList.filter (fun e => e.2.layer = layer)).forM (fun e => do
    let _ ← r.layerOutcome e.1
    return ())

/-- The states a Layer has been in. -/
def layerHistory (layer : LayerId) : Except (Error Id) (List (LayerState Id)) := do
  r.checkLayer layer
  let (latest, _) ← r.latestIn layer
  let history ← (List.range (latest + 1)).mapM (r.eventStateIn layer)
  match ← r.publishedStateIn layer with
  | some published => return history ++ [published]
  | none => return history

/-! ### Appending -/

/-- The head of an active state at the parent. -/
def headAt (parent : Option Id) : LayerState Id → Option (LayerHead Id)
  | .active head => if some head.checkpoint = parent then some head else none
  | _ => none

/-- Captures against one head after another, while the operation ID is refused as reused. -/
def tryHeads (operation : OperationId) (changes : SparseChanges Id) : List (LayerHead Id) →
    Option (Except (Error Id) (LayerUpdate Id × Repository Id)) →
    Option (Except (Error Id) (LayerUpdate Id × Repository Id))
  | [], update => update
  | head :: heads, _ =>
      match r.captureLayer operation head changes none with
      | .error (.operationIdReused reused) => tryHeads operation changes heads (some (.error (.operationIdReused reused)))
      | update => some update

/-- The answer to a failed capture. -/
def refuseAppend (error : Error Id) : Except (AppendError Id) (LayerOutcome Id × Repository Id) :=
  if error.code ∈ ["operation_id_reused", "missing_agent_trace", "layer_published", "missing_object",
      "invalid_input"] then return (.refused error.code, r)
  else throw (.native error)

/-- The answer to a capture. -/
def answerAppend (state : LayerState Id) : Option (Except (Error Id) (LayerUpdate Id × Repository Id)) →
    Except (AppendError Id) (LayerOutcome Id × Repository Id)
  | none => return (staleOrRefused state, r)
  | some (.ok (.applied (.active head), r)) => return (.accepted head.revision head.checkpoint, r)
  | some (.ok (.stale state, r)) => return (staleOrRefused state, r)
  | some (.ok (.applied _, _)) => throw (.storage "append applied without an active Layer head")
  | some (.error error) => r.refuseAppend error

/-- One append of uploaded changes. -/
def append (table : ChangesTable Id) (operation : OperationId) (layer : LayerId) (parent : Option Id)
    (changes : Id) : Except (AppendError Id) (LayerOutcome Id × Repository Id) :=
  match table.get? changes with
  | none => throw (.notUploaded changes)
  | some changes =>
      match r.layerStateIn layer with
      | .error (.invalidInput _) => return (.refused "unknown_layer", r)
      | .error error => throw (.native error)
      | .ok state => do
          let history ← (r.layerHistory layer).mapError AppendError.native
          r.answerAppend state (r.tryHeads operation changes (history.reverse.filterMap (headAt parent)) none)

/-- One append, unless the Layer is reserved for a review. -/
def appendCheckpoint (table : ChangesTable Id) (operation : OperationId) (layer : LayerId)
    (parent : Option Id) (changes : Id) : Except (AppendError Id) (LayerOutcome Id × Repository Id) :=
  if isReviewLayer layer = true then return (.refused "layer_reserved", r)
  else r.append table operation layer parent changes

/-! ### The history reads back -/

variable {r : Repository Id} {S : VersionNumber → Manifest Id} {layer : LayerId}

/-- An accepted event was made from a live one, and a discard keeps its checkpoint. -/
theorem Sound.checkEvent (hs : Sound r S) {n : ℕ} {e : Event Id} {previous : Option (Event Id)}
    (he : (r.events layer).get? n = some e)
    (hprevious : n = 0 ∧ previous = none ∨
      ∃ m e', n = m + 1 ∧ previous = some e' ∧ (r.events layer).get? m = some e') :
    r.checkEvent layer n e previous = .ok () := by
  cases hprevious with
  | inl h =>
      obtain ⟨rfl, rfl⟩ := h
      obtain ⟨hlive, hinitial⟩ := (hs.history layer).first e he
      unfold Repository.checkEvent
      rw [refuse_eq_ok, hlive, hinitial]
      simp
  | inr h =>
      obtain ⟨m, e', rfl, rfl, he'⟩ := h
      obtain ⟨op, a, hop, ha, haccepted, hlayer, hexpected, hresult⟩ := (hs.history layer).later m e he
      obtain ⟨outcome, hout⟩ := hs.outcomes op a ha
      obtain ⟨a', before, after, candidate, base, hv⟩ := of_layerOutcome hout
      obtain rfl : a = a' := Option.some.inj (ha.symm.trans hv.attempt)
      have hbefore := hv.expected
      have hafter := hv.result
      rw [hlayer, hexpected, he'] at hbefore
      rw [hlayer, hresult, he] at hafter
      obtain rfl := Option.some.inj hbefore
      obtain rfl := Option.some.inj hafter
      have hupdate := hv.update
      unfold attemptUpdate at hupdate
      rw [if_pos haccepted] at hupdate
      obtain ⟨_, hchecks, hstate⟩ := except_bind_eq_ok.mp hupdate
      simp only [refuse_eq_ok, not_or, not_not] at hchecks
      obtain ⟨_, hcandidate, hdiscarded, _⟩ := hchecks
      rw [hlayer, hresult] at hstate
      have hsame := Except.ok.inj hstate
      unfold Repository.checkEvent
      have hno : refuse (e'.discarded = true ∨ (e.discarded = true ∧ e'.checkpoint ≠ e.checkpoint))
          (corrupt "invalid discard history" : Error Id) = .ok () := by
        rw [refuse_eq_ok, hv.live]
        intro h
        cases h with
        | inl h => cases h
        | inr h => exact h.2 ((hv.discard (hdiscarded ▸ h.1)).symm.trans hcandidate.symm)
      simp only
      rw [except_bind_of_ok hno, hop]
      simp only
      rw [except_bind_of_ok hout, refuse_eq_ok, hsame, not_not]

/-- The events of a Layer from any index on read back. -/
theorem Sound.checkEvents (hs : Sound r S) {base : LayerBase Id}
    (hbase : ∀ n e, (r.events layer).get? n = some e →
      ∃ checkpoint, r.checkpointIn e.checkpoint = .ok checkpoint ∧ checkpoint.base = base) :
    ∀ rest done : List (ℕ × Event Id), (r.events layer).toList = done ++ rest →
      ∀ b : Option (LayerBase Id), (b = none ∨ b = some base) →
        r.checkEvents layer done.length b (done.getLast?.map Prod.snd) rest = .ok () := by
  have hkeys := SortedMap.keys_eq_range (m := r.events layer)
    (fun n k e he hle => (hs.history layer).contiguous n k e he hle)
  have hindex : ∀ (i : ℕ) (entry : ℕ × Event Id), (r.events layer).toList[i]? = some entry →
      entry.1 = i := by
    intro i entry hentry
    have hkey : (r.events layer).keys[i]? = some entry.1 := by
      unfold SortedMap.keys
      rw [List.getElem?_map, hentry]
      rfl
    rw [hkeys] at hkey
    obtain ⟨_, hkey'⟩ := List.getElem?_eq_some_iff.mp hkey
    rw [List.getElem_range] at hkey'
    exact hkey'.symm
  intro rest
  induction rest with
  | nil => exact fun _ _ _ _ => rfl
  | cons entry rest ih =>
      intro done hlist b hb
      obtain ⟨n, e⟩ := entry
      have hn : n = done.length := hindex done.length (n, e) (by
        rw [hlist, List.getElem?_append_right le_rfl, Nat.sub_self]
        rfl)
      subst hn
      have he : (r.events layer).get? done.length = some e := by
        rw [SortedMap.get?_eq_some, hlist]
        simp
      obtain ⟨checkpoint, hread, hsame⟩ := hbase _ e he
      have hbased : ¬ b.getD checkpoint.base ≠ checkpoint.base := by
        rw [hsame]
        cases hb with
        | inl h => simp [h]
        | inr h => simp [h]
      have hevent : r.checkEvent layer done.length e (done.getLast?.map Prod.snd) = .ok () := by
        apply hs.checkEvent he
        cases hlast : done.getLast? with
        | none =>
            rw [List.getLast?_eq_none_iff] at hlast
            exact .inl ⟨by rw [hlast]; rfl, rfl⟩
        | some last =>
            obtain ⟨m, e'⟩ := last
            obtain ⟨front, rfl⟩ := List.getLast?_eq_some_iff.mp hlast
            have hm : m = front.length := hindex front.length (m, e') (by
              rw [hlist]
              simp)
            refine .inr ⟨m, e', by rw [hm, List.length_append]; rfl, rfl, ?_⟩
            rw [SortedMap.get?_eq_some, hlist]
            simp
      have hrest := ih (done ++ [(done.length, e)]) (by rw [hlist]; simp) (some checkpoint.base)
        (.inr (by rw [hsame]))
      rw [List.length_append, List.getLast?_append] at hrest
      have hindexed : refuse (done.length ≠ done.length)
          (corrupt "Layer head history is not contiguous" : Error Id) = .ok () :=
        refuse_eq_ok.mpr (not_not.mpr rfl)
      have hsnapshot : refuse (b.getD checkpoint.base ≠ checkpoint.base)
          (corrupt "Layer base changed" : Error Id) = .ok () := refuse_eq_ok.mpr hbased
      unfold Repository.checkEvents
      rw [except_bind_of_ok hindexed, except_bind_of_ok hread, except_bind_of_ok hsnapshot,
        except_bind_of_ok hevent]
      exact hrest

theorem Sound.checkLayer (hs : Sound r S) (layer : LayerId) : r.checkLayer layer = .ok () := by
  obtain ⟨base, hbase⟩ := (hs.history layer).based
  have hevents : r.checkEvents layer 0 none none (r.events layer).toList = .ok () :=
    hs.checkEvents (fun n e he => by
      obtain ⟨checkpoint, hf, hsame⟩ := hbase n e he
      exact ⟨checkpoint, (checkpointIn_eq_ok hs.chain).mpr hf, hsame⟩) _ [] rfl none (.inl rfl)
  unfold Repository.checkLayer
  rw [except_bind_of_ok hevents]
  apply forM_eq_ok.mpr
  intro entry hentry
  obtain ⟨hmem, _⟩ := List.mem_filter.mp hentry
  obtain ⟨outcome, hout⟩ := hs.outcomes entry.1 entry.2 (SortedMap.get?_eq_some.mpr hmem)
  rw [except_bind_of_ok hout]
  rfl

/-- The events of a Layer are numbered without gaps up to the latest one. -/
theorem Sound.mapM_eventStateIn (hs : Sound r S) {latest : ℕ} {current : Event Id}
    (hlatest : r.latestIn layer = .ok (latest, current)) : ∀ n ≤ latest + 1, ∃ states : List (LayerState Id),
      (List.range n).mapM (r.eventStateIn layer) = .ok states ∧ states.length = n ∧
      ∀ m state, states[m]? = some state → r.eventStateIn layer m = .ok state := by
  obtain ⟨hlast, _⟩ := latestIn_eq_ok.mp hlatest
  intro n
  induction n with
  | zero => exact fun _ => ⟨[], rfl, rfl, fun m state h => by simp at h⟩
  | succ n ih =>
      intro hle
      obtain ⟨states, hstates, hlength, hall⟩ := ih (by omega)
      obtain ⟨e, he⟩ := (hs.history layer).contiguous n latest current hlast (by omega)
      have hstate : r.eventStateIn layer n = .ok (e.state r.identity layer n) :=
        eventStateIn_eq_ok.mpr ⟨e, he, rfl⟩
      refine ⟨states ++ [e.state r.identity layer n], ?_, by simp [hlength], fun m state hm => ?_⟩
      · rw [List.range_succ, List.mapM_append, except_bind_of_ok hstates, List.mapM_cons,
          List.mapM_nil, except_bind_of_ok hstate]
        rfl
      · by_cases hlt : m < n
        · rw [List.getElem?_append_left (by omega)] at hm
          exact hall m state hm
        · obtain ⟨hbound, hget⟩ := List.getElem?_eq_some_iff.mp hm
          rw [List.length_append, List.length_singleton] at hbound
          obtain rfl : m = n := by omega
          rw [List.getElem_append_right (by omega)] at hget
          simp only [hlength, Nat.sub_self, List.getElem_cons_zero] at hget
          rw [← hget]
          exact hstate

/-- The live heads of a Layer at the parent. -/
structure HeadsAt (r : Repository Id) (layer : LayerId) (parent : Option Id)
    (heads : List (LayerHead Id)) : Prop where
  mem : ∀ head, head ∈ heads ↔
    r.verifyHead head = .ok () ∧ head.layer = layer ∧ some head.checkpoint = parent

omit [Encoding Id] in
theorem headAt_eq_some {parent : Option Id} {state : LayerState Id} {head : LayerHead Id} :
    headAt parent state = some head ↔ state = .active head ∧ some head.checkpoint = parent := by
  cases state with
  | active head' =>
      unfold headAt
      by_cases h : some head'.checkpoint = parent
      · simp only [if_pos h, Option.some.injEq, LayerState.active.injEq]
        constructor
        · intro he
          exact ⟨he, he ▸ h⟩
        · intro he
          exact he.1
      · simp only [if_neg h, LayerState.active.injEq]
        constructor
        · intro he
          cases he
        · intro he
          exact absurd (he.1 ▸ he.2) h
  | published _ _ _ =>
      constructor
      · intro h
        cases h
      · intro h
        cases h.1
  | discarded _ _ _ =>
      constructor
      · intro h
        cases h
      · intro h
        cases h.1

/-- A live head is the active state of its revision. -/
theorem Sound.verifyHead_iff (hs : Sound r S) {head : LayerHead Id} :
    r.verifyHead head = .ok () ↔ r.eventStateIn head.layer head.revision = .ok (.active head) := by
  rw [verifyHead_eq_ok, eventStateIn_eq_ok]
  constructor
  · intro h
    obtain ⟨hid, _, e, he, hlive, hsame⟩ := h
    refine ⟨e, he, ?_⟩
    unfold Event.state
    rw [hlive, hsame, ← hid]
    rfl
  · intro h
    obtain ⟨e, he, hstate⟩ := h
    unfold Event.state at hstate
    cases hd : e.discarded with
    | true =>
        rw [hd] at hstate
        cases hstate
    | false =>
        rw [hd] at hstate
        have hhead := LayerState.active.inj hstate
        exact ⟨congrArg LayerHead.repository hhead, (hs.history _).small _ _ he, e, he, hd,
          (congrArg LayerHead.checkpoint hhead).symm⟩

/-- A Layer that has a state has a latest event, and its terminal state is not an active one. -/
theorem Sound.of_layerStateIn (hs : Sound r S) {state : LayerState Id}
    (hstate : r.layerStateIn layer = .ok state) :
    (∃ latest current, r.latestIn layer = .ok (latest, current)) ∧
      ∃ published, r.publishedStateIn layer = .ok published ∧
        ∀ head, published ≠ some (.active head) := by
  obtain ⟨published, hpublished, hrest⟩ := except_bind_eq_ok.mp hstate
  cases hsuccess : r.successOf layer with
  | none =>
      have hnone : r.publishedStateIn layer = .ok none := by
        unfold publishedStateIn
        rw [hsuccess]
        rfl
      rw [layerStateIn_of_open hsuccess, latestEventStateIn_eq_ok] at hstate
      obtain ⟨latest, current, hlatest, _⟩ := hstate
      exact ⟨⟨latest, current, hlatest⟩, none, hnone, fun head h => by cases h⟩
  | some success =>
      obtain ⟨op, row⟩ := success
      have hfound := List.find?_some hsuccess
      have hrow := SortedMap.get?_eq_some.mpr (List.mem_of_find?_eq_some hsuccess)
      simp only [Bool.and_eq_true, decide_eq_true_eq] at hfound
      obtain ⟨rfl, htag⟩ := hfound
      obtain ⟨head, version, hsucc, hterminal⟩ := hs.publishedStateIn_of_success hrow htag
      obtain ⟨latest, current, hlatest, _⟩ := latestEventStateIn_eq_ok.mp hsucc.latest
      exact ⟨⟨latest, current, hlatest⟩, _, hterminal, fun head' h => by cases h⟩

/-- The history of a Layer reads back, and its live states at the parent are the heads there. -/
theorem Sound.exists_headsAt (hs : Sound r S) {state : LayerState Id}
    (hstate : r.layerStateIn layer = .ok state) (parent : Option Id) :
    ∃ history, r.layerHistory layer = .ok history ∧
      HeadsAt r layer parent (history.reverse.filterMap (headAt parent)) := by
  obtain ⟨⟨latest, current, hlatest⟩, published, hpublished, hterminal⟩ := hs.of_layerStateIn hstate
  obtain ⟨_, hmax⟩ := latestIn_eq_ok.mp hlatest
  obtain ⟨states, hstates, hlength, hall⟩ := hs.mapM_eventStateIn hlatest (latest + 1) le_rfl
  have hactive : ∀ head, LayerState.active head ∈ states ↔ r.verifyHead head = .ok () ∧ head.layer = layer := by
    intro head
    rw [hs.verifyHead_iff]
    constructor
    · intro hmem
      obtain ⟨n, hn⟩ := List.mem_iff_getElem?.mp hmem
      have hevent := hall n _ hn
      obtain ⟨e, _, hsame⟩ := eventStateIn_eq_ok.mp hevent
      unfold Event.state at hsame
      cases hd : e.discarded with
      | true =>
          rw [hd] at hsame
          cases hsame
      | false =>
          rw [hd] at hsame
          have hhead := LayerState.active.inj hsame
          rw [hhead]
          rw [hhead] at hevent
          exact ⟨hevent, rfl⟩
    · intro h
      obtain ⟨hevent, rfl⟩ := h
      obtain ⟨e, he, _⟩ := eventStateIn_eq_ok.mp hevent
      have hle := hmax _ _ he
      obtain ⟨state', hget⟩ : ∃ state', states[head.revision]? = some state' :=
        ⟨states[head.revision], List.getElem?_eq_getElem (by omega)⟩
      have hsame := (hall _ _ hget).symm.trans hevent
      rw [Except.ok.inj hsame] at hget
      exact List.mem_of_getElem? hget
  have hheads : ∀ tail : List (LayerState Id), (∀ head, LayerState.active head ∉ tail) →
      HeadsAt r layer parent ((states ++ tail).reverse.filterMap (headAt parent)) := by
    intro tail htail
    refine ⟨fun head => ?_⟩
    simp only [List.mem_filterMap, List.mem_reverse, List.mem_append, headAt_eq_some]
    constructor
    · intro h
      obtain ⟨state', hmem, rfl, hparent⟩ := h
      cases hmem with
      | inl hmem => exact ⟨((hactive head).mp hmem).1, ((hactive head).mp hmem).2, hparent⟩
      | inr hmem => exact absurd hmem (htail head)
    · intro h
      exact ⟨_, .inl ((hactive head).mpr ⟨h.1, h.2.1⟩), rfl, h.2.2⟩
  unfold layerHistory
  rw [except_bind_of_ok (hs.checkLayer layer), except_bind_of_ok hlatest]
  simp only
  rw [except_bind_of_ok hstates, except_bind_of_ok hpublished]
  cases published with
  | none =>
      refine ⟨states, rfl, ?_⟩
      have h := hheads [] (fun head => List.not_mem_nil)
      rwa [List.append_nil] at h
  | some terminal =>
      refine ⟨states ++ [terminal], rfl, hheads [terminal] (fun head hmem => ?_)⟩
      rw [List.mem_singleton] at hmem
      exact hterminal head (by rw [hmem])

end Repository

end Javelin
