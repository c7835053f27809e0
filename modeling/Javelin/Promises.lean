import Javelin.ObjectClosure
import Javelin.Receiving
import Javelin.Stored

/-! # What a session promises

`Answered` is what the repository records of a World attempt that was answered.  It stays, and decides the operation
from then on (`Answered.again`, `Reachable.publish_again`).  `Promised` is what every reply of a receiver says of its
repository.  A session keeps its promises (`promised_of_serveOne`), and whatever comes after it, they stay kept
(`Promised.later`, `Reachable.session_promises`). -/

namespace Javelin

open KeyedList

variable {Id : Type} [LinearOrder Id] [Encoding Id]

namespace Objects
variable {objects : Objects Id} {root : Id}

/-- What is named by the chunk of the root or by a chunk below it. -/
inductive Under (objects : Objects Id) (root : Id) : Id × ObjectKind → Prop
  | root : Under objects root (root, .tree)
  | named {id : Id} {c : Chunk Id} {ref : Id × ObjectKind} : Under objects root (id, .tree) →
      objects.readTree id = .ok c → ref ∈ c.references → Under objects root ref

/-- All that lies under a stored root is stored. -/
theorem Ordered.under (h : objects.Ordered) (hroot : objects.HasKind (root, .tree)) {ref : Id × ObjectKind}
    (hu : objects.Under root ref) : objects.HasKind ref := by
  induction hu with
  | root => exact hroot
  | named _ hread href _ => exact h.references (readTree_eq_ok.mp hread).1 _ href

end Objects

namespace Repository
variable {r r' : Repository Id} {S S' : VersionNumber → Manifest Id} {op : OperationId} {expected : VersionNumber}
  {tree : Id} {outcome : AdvanceOutcome Id}

/-! ### World attempts -/

/-- The recorded attempt to advance version `expected` to `tree`, and the version it led to. -/
inductive Answered (r : Repository Id) (op : OperationId) (expected : VersionNumber) (tree : Id) :
    AdvanceOutcome Id → Prop
  | accepted {v : WorldVersion Id} : r.attempts.get? op = some ⟨expected, some tree, true, expected + 1⟩ →
      r.versions[expected + 1]? = some v → v.tree = tree → v.operation = some op → Answered r op expected tree (.accepted v)
  | stale {actual : VersionNumber} : r.attempts.get? op = some ⟨expected, some tree, false, actual⟩ →
      expected < actual → actual < r.versions.length → Answered r op expected tree (.stale actual)

omit [Encoding Id] in
theorem Answered.later (h : Answered r op expected tree outcome) (hl : Later r r') :
    Answered r' op expected tree outcome := by
  cases h with
  | accepted ha hv ht ho => exact .accepted (hl.attempts _ _ ha) (hl.versions _ _ hv) ht ho
  | stale ha hlt hlen => exact .stale (hl.attempts _ _ ha) hlt (Nat.lt_of_lt_of_le hlen hl.length_le)

omit [LinearOrder Id] [Encoding Id] in
theorem operationExists_eq_false : r.operationExists op = false ↔ r.publications.get? op = none := by
  unfold operationExists
  rw [Option.isSome_eq_false_iff, Option.isNone_iff_eq_none]

theorem answered_of_attemptOutcome (h : Chain r S) {a : Attempt Id} (ha : r.attempts.get? op = some a)
    (htree : a.tree = some tree) (hok : r.attemptOutcome op a = .ok outcome) :
    Answered r op a.expected tree outcome := by
  unfold attemptOutcome at hok
  obtain ⟨actual, hactual, hok⟩ := except_bind_eq_ok.mp hok
  have hv : r.versions[a.result]? = some actual := by
    unfold resultVersion at hactual
    split at hactual
    · rename_i v hv
      obtain rfl := Except.ok.inj hactual
      exact h.versionIn_eq_ok.mp hv
    · cases hactual
  obtain ⟨aexpected, atree, accepted, result⟩ := a
  dsimp only at *
  obtain rfl := htree
  cases accepted with
  | true =>
      obtain ⟨_, hcheck, hpure⟩ := except_bind_eq_ok.mp hok
      obtain rfl := Except.ok.inj hpure
      rw [refuse_eq_ok, not_or, not_not, not_not] at hcheck
      obtain ⟨rfl, hop⟩ := hcheck
      obtain ⟨tree', hb⟩ := h.attempt_of_operation hv hop
      obtain ⟨rfl⟩ := Option.some.inj (ha.symm.trans hb.attempt)
      exact .accepted ha hv (hb.tree tree rfl).symm hop
  | false =>
      obtain ⟨_, hcheck, hpure⟩ := except_bind_eq_ok.mp hok
      obtain rfl := Except.ok.inj hpure
      rw [refuse_eq_ok, not_le] at hcheck
      obtain ⟨hlen, _⟩ := List.getElem?_eq_some_iff.mp hv
      exact .stale ha hcheck hlen

/-- What was answered is recorded. -/
theorem answered_of_advanceToTree (h : Chain r S) (hok : r.advanceToTree op expected tree = .ok (outcome, r')) :
    Answered r' op expected tree outcome ∧ r'.publications.get? op = none := by
  have hfull := hok
  rcases of_advanceIn h hok with ⟨rfl, a, ha, rfl, htree, hout⟩ | ⟨hused, hnew, head, hhead, hadvance⟩
  · refine ⟨answered_of_attemptOutcome h ha htree hout, ?_⟩
    unfold advanceToTree advanceIn at hfull
    obtain ⟨_, _, hfull⟩ := except_bind_eq_ok.mp hfull
    obtain ⟨_, hused, _⟩ := except_bind_eq_ok.mp hfull
    rw [refuse_eq_ok, Bool.not_eq_true] at hused
    exact operationExists_eq_false.mp hused
  · obtain ⟨objects, T, _, _, _, hadvanced⟩ := of_advanceNew h hhead (by simp) hadvance
    obtain ⟨_, hlen⟩ := h.getElem?_of_head hhead
    have hunused := operationExists_eq_false.mp hused
    cases hadvanced with
    | stale hlt =>
        refine ⟨.stale ?_ hlt ?_, hunused⟩
        · show (r.attempts.insert op _).get? op = _
          rw [SortedMap.get?_insert, if_pos rfl]
        · show head.number < r.versions.length
          rw [hlen]
          exact Nat.lt_succ_self _
    | accepted c he hlt hc =>
        obtain rfl := he
        refine ⟨.accepted ?_ ?_ rfl rfl, hunused⟩
        · show (r.attempts.insert op _).get? op = _
          rw [SortedMap.get?_insert, if_pos rfl]
        · show (r.versions ++ [_])[head.number + 1]? = _
          rw [← hlen, List.getElem?_concat_length]

/-- An operation with a recorded World attempt does not publish a Layer later. -/
theorem Answered.unpublished (h : Answered r op expected tree outcome) (hpub : r.publications.get? op = none)
    (hl : Later r r') (hs : Sound r' S') : r'.publications.get? op = none := by
  by_contra hne
  obtain ⟨row, hrow⟩ := Option.ne_none_iff_exists'.mp hne
  obtain ⟨receipt, hreceipt⟩ := hs.receipts op row hrow
  obtain ⟨expected', against, _, _, observed, outcome', _, _, _, _, _, _, _, _, hout, _, _⟩ :=
    (receiptIn_eq_ok hs.chain).mp hreceipt
  have hattempt : r'.attempts.get? op ≠ none := by
    cases h.later hl with
    | accepted ha _ _ _ => simp [ha]
    | stale ha _ _ => simp [ha]
  unfold outcomeIn at hout
  cases htag : row.outcome with
  | published =>
      rw [htag] at hout
      obtain ⟨result, version, _, hresult, _, _, _, hv, ⟨hop, _⟩, _⟩ := (publishedOutcome_eq_ok hs.chain).mp hout
      obtain ⟨tree', hb⟩ := hs.chain.attempt_of_operation hv hop
      rcases hl.published op row hrow htag with hold | ⟨n, hn, hlen⟩
      · rw [hpub] at hold
        cases hold
      · obtain rfl := Option.some.inj (hresult.symm.trans hn)
        cases h with
        | accepted ha hv' _ _ =>
            obtain ⟨hlt, _⟩ := List.getElem?_eq_some_iff.mp hv'
            have hsame := Option.some.inj (hb.attempt.symm.trans (hl.attempts _ _ ha))
            have heq : result = expected + 1 := congrArg Attempt.result hsame
            rw [heq] at hlen
            exact absurd hlt (Nat.not_lt.mpr hlen)
        | stale ha _ _ =>
            have hsame := Option.some.inj (hb.attempt.symm.trans (hl.attempts _ _ ha))
            cases congrArg Attempt.accepted hsame
  | conflict =>
      rw [htag] at hout
      obtain ⟨_, hrefuse, _⟩ := except_bind_eq_ok.mp hout
      rw [refuse_eq_ok, not_or, not_not] at hrefuse
      exact hattempt hrefuse.1
  | layerStale =>
      rw [htag] at hout
      obtain ⟨_, hrefuse, _⟩ := except_bind_eq_ok.mp hout
      rw [refuse_eq_ok, not_or, not_not] at hrefuse
      exact hattempt hrefuse.1

/-- The recorded attempt decides: the same input is answered the same again, another input is refused. -/
theorem Answered.again (h : Answered r op expected tree outcome) (hpub : r.publications.get? op = none)
    (hc : Chain r S) (expected' : VersionNumber) (tree' : Id) : r.advanceToTree op expected' tree' =
      if expected' = expected ∧ tree' = tree then .ok (outcome, r) else .error (.operationIdReused op) := by
  obtain ⟨head, hhead⟩ := hc.exists_head
  have hunused : refuse (r.operationExists op = true) (Error.operationIdReused op : Error Id) = .ok () := by
    rw [refuse_eq_ok, operationExists_eq_false.mpr hpub]
    exact Bool.false_ne_true
  have hresult : ∀ {n : ℕ} {v : WorldVersion Id}, r.versions[n]? = some v → r.resultVersion n = .ok v := by
    intro n v hv
    unfold resultVersion
    rw [hc.versionIn_eq_ok.mpr hv]
    rfl
  obtain ⟨a, ha, rfl, htree, hout⟩ : ∃ a, r.attempts.get? op = some a ∧ a.expected = expected ∧
      a.tree = some tree ∧ r.attemptOutcome op a = .ok outcome := by
    cases h with
    | accepted ha hv ht ho =>
        refine ⟨_, ha, rfl, rfl, ?_⟩
        unfold attemptOutcome
        rw [except_bind_of_ok (hresult hv), if_pos rfl]
        refine except_bind_of_ok ((refuse_eq_ok (u := ())).mpr ?_)
        simp [ho]
    | stale ha hlt hlen =>
        refine ⟨_, ha, rfl, rfl, ?_⟩
        unfold attemptOutcome
        rw [except_bind_of_ok (hresult (List.getElem?_eq_getElem hlen))]
        refine except_bind_of_ok ((refuse_eq_ok (u := ())).mpr ?_)
        exact Nat.not_le.mpr hlt
  unfold advanceToTree advanceIn
  rw [except_bind_of_ok (hc.headIn_eq_ok.mpr hhead), except_bind_of_ok hunused, ha]
  dsimp only
  by_cases hsame : expected' = a.expected ∧ tree' = tree
  · have hrefuse : refuse (a.expected ≠ expected' ∨ a.tree ≠ some tree') (Error.operationIdReused op : Error Id) =
        .ok () := by
      rw [refuse_eq_ok, not_or, not_not, not_not]
      exact ⟨hsame.1.symm, by rw [htree, hsame.2]⟩
    rw [if_pos hsame, except_bind_of_ok hrefuse, except_bind_of_ok hout]
    rfl
  · have hrefuse : a.expected ≠ expected' ∨ a.tree ≠ some tree' := by
      rw [htree, Ne, Ne, Option.some_inj, ← not_and_or]
      exact fun h => hsame ⟨h.1.symm, h.2.symm⟩
    rw [if_neg hsame, refuse, if_pos hrefuse]
    rfl

end Repository

/-! ### Replies -/

namespace Protocol

open Repository

/-- The stored kind. -/
def Kind.stored : Kind → ObjectKind
  | .blob => .blob
  | .checkpoint => .checkpoint
  | .tree => .tree

/-- An item on the wire as a reference. -/
def objectRef (item : Kind × Id) : Id × ObjectKind := (item.2, item.1.stored)

/-- Bytes of the objects in a frame. -/
def framed (objects : List (Id × Payload Id)) : ℕ := (objects.map (fun o => OBJECT_OVERHEAD + o.2.len)).sum

/-- The payload is stored under its ID. -/
def Kept (r : Repository Id) (object : Id × Payload Id) : Prop :=
  match object.2 with
  | .blob bytes => r.objects.readBlob object.1 = .ok bytes
  | .tree chunk => r.objects.readTree object.1 = .ok chunk
  | .checkpoint _ => False

/-- What a reply says of the repository. -/
inductive Promised (f : Format Id) (r : Repository Id) : Message Id → Message Id → Prop
  | helloOk {min max : ℕ} : min ≤ VERSION → VERSION ≤ max → Promised f r (.hello min max) (.helloOk VERSION)
  /-- What is not reported missing is stored. -/
  | missing {items lacked : List (Kind × Id)} : lacked.Sublist items →
      (∀ x ∈ items, x ∉ lacked → r.objects.HasKind (objectRef x)) → Promised f r (.want items) (.missing lacked)
  | stored {objects : List (Id × Payload Id)} : (∀ o ∈ objects, Kept r o) →
      Promised f r (.objects objects) (.stored objects.length)
  | accepted {operation : OperationId} {expected : VersionNumber} {tree : Id} {v : WorldVersion Id} :
      Answered r operation expected tree (.accepted v) →
      Promised f r (.publish operation expected tree) (.outcome (.accepted (expected + 1) tree operation))
  | stale {operation : OperationId} {expected actual : VersionNumber} {tree : Id} :
      Answered r operation expected tree (.stale actual) →
      Promised f r (.publish operation expected tree) (.outcome (.stale actual))
  | resolved {version : Option VersionNumber} {v : WorldVersion Id} : r.versions[v.number]? = some v →
      (∀ n, version = some n → v.number = n) → Promised f r (.resolve version) (.resolved v.number v.id v.tree)
  | part {version : VersionNumber} {offset : ℕ} {changes : SparseChanges Id} : r.changeset version = .ok changes →
      offset ≤ (f.canonicalBytes changes).length →
      Promised f r (.changeset version offset) (.changesetPart (f.canonicalBytes changes).length
        (((f.canonicalBytes changes).drop offset).take MAX_CHANGESET_PART))
  /-- The objects that were asked for first, at least one, in a frame within the limit. -/
  | objects {items : List (Kind × Id)} {objects : List (Id × Payload Id)} : objects.map itemOf <+: items →
      (items ≠ [] → objects ≠ []) → (∀ o ∈ objects, Kept r o) → objects.length ≤ MAX_OBJECTS →
      5 + framed objects ≤ MAX_FRAME → Promised f r (.get items) (.objects objects)

section promises
variable {f : Format Id} {r r' : Repository Id} {S S' : VersionNumber → Manifest Id} {message reply : Message Id}

theorem Kept.later {object : Id × Payload Id} (h : Kept r object) (hl : Later r r') : Kept r' object := by
  obtain ⟨id, payload⟩ := object
  cases payload with
  | blob bytes => exact hl.objects.readBlob id bytes h
  | checkpoint bytes => exact h
  | tree chunk =>
      obtain ⟨hlook, hid⟩ := Objects.readTree_eq_ok.mp h
      exact Objects.readTree_eq_ok.mpr ⟨hl.objects _ _ hlook, hid⟩

/-- A promise stays kept. -/
theorem Promised.later (h : Promised f r message reply) (hl : Later r r') (hc : Chain r S) (hc' : Chain r' S') :
    Promised f r' message reply := by
  cases h with
  | helloOk hmin hmax => exact .helloOk hmin hmax
  | missing hsub hall => exact .missing hsub (fun x hx hn => (hall x hx hn).extends hl.objects)
  | stored hall => exact .stored (fun o ho => (hall o ho).later hl)
  | accepted ha => exact .accepted (ha.later hl)
  | stale ha => exact .stale (ha.later hl)
  | resolved hv hn => exact .resolved (hl.versions _ _ hv) hn
  | part hchanges hoffset =>
      refine .part ?_ hoffset
      obtain ⟨v, hv, hok⟩ := except_bind_eq_ok.mp hchanges
      unfold Repository.changeset
      rw [except_bind_of_ok (hl.versionIn hc hc' _ v hv), hl.changesetIn (hc.versionIn_eq_ok.mp hv)]
      exact hok
  | objects hfront hne hall hlen hfits => exact .objects hfront hne (fun o ho => (hall o ho).later hl) hlen hfits

/-! ### The handler -/

theorem readBlobBounded_eq_ok {r : Repository Id} {id : Id} {limit : ℕ} {bytes : Str} :
    r.readBlobBounded id limit = .ok bytes ↔ r.objects.readBlob id = .ok bytes ∧ bytes.length ≤ limit := by
  unfold Repository.readBlobBounded
  cases r.objects.readBlob id with
  | error e => simp
  | ok found =>
      dsimp only
      split
      · simp
        rintro rfl
        omega
      · simp
        rintro rfl
        omega

theorem treeBytes_eq_ok {r : Repository Id} {id : Id} {limit : ℕ} {c : Chunk Id} :
    r.treeBytes id limit = .ok c ↔ r.objects.readTree id = .ok c ∧ c.WellFormed ∧ c.size ≤ limit := by
  unfold Repository.treeBytes
  cases r.objects.readTree id with
  | error e => simp
  | ok d =>
      rw [Chunk.wellFormed_iff]
      dsimp only
      split
      · rename_i hlt
        simp
        rintro rfl _
        omega
      · rename_i hle
        cases hf : d.fault with
        | some why =>
            simp
            rintro rfl h
            rw [h] at hf
            cases hf
        | none =>
            simp
            rintro rfl
            exact ⟨hf, by omega⟩

theorem hasKind_of_hasItem {x : Kind × Id} (hok : hasItem f r x = .ok true) : r.objects.HasKind (objectRef x) := by
  have hread : ∀ {id kind}, r.hasObject id kind = .ok true → r.objects.HasKind (id, kind) := by
    intro id kind h
    unfold hasObject at h
    split at h
    · rename_i o ho
      obtain ⟨hlook, _, hkind⟩ := Objects.read_eq_ok.mp ho
      exact ⟨o, hlook, hkind⟩
    · split at h
      · cases h
      · cases h
    · cases h
  obtain ⟨kind, id⟩ := x
  cases kind with
  | blob => exact hread (mapError_eq_ok.mp hok)
  | tree => exact hread (mapError_eq_ok.mp hok)
  | checkpoint => cases hok

theorem of_missingItems {items lacked : List (Kind × Id)} (hok : missingItems f r items = .ok lacked) :
    lacked.Sublist items ∧ ∀ x ∈ items, x ∉ lacked → r.objects.HasKind (objectRef x) := by
  induction items generalizing lacked with
  | nil =>
      obtain rfl := Except.ok.inj hok
      exact ⟨List.Sublist.refl _, by simp⟩
  | cons item items ih =>
      obtain ⟨found, hfound, hok⟩ := except_bind_eq_ok.mp hok
      obtain ⟨rest, hrest, hpure⟩ := except_bind_eq_ok.mp hok
      obtain rfl := Except.ok.inj hpure
      obtain ⟨hsub, hall⟩ := ih hrest
      cases found with
      | true =>
          refine ⟨hsub.cons _, fun x hx hn => ?_⟩
          rcases List.mem_cons.mp hx with rfl | hx
          · exact hasKind_of_hasItem hfound
          · exact hall x hx hn
      | false =>
          refine ⟨hsub.cons_cons _, fun x hx hn => ?_⟩
          rw [if_neg Bool.false_ne_true, List.mem_cons, not_or] at hn
          rcases List.mem_cons.mp hx with rfl | hx
          · exact absurd rfl hn.1
          · exact hall x hx hn.2

/-- A stored object is a transaction that writes objects only, and is kept. -/
theorem of_storeObject {claimed : Id} {payload : Payload Id} (hok : storeObject f claimed payload r = .ok r') :
    Transaction r r' ∧ (∃ objects, r' = { r with objects := objects }) ∧ Kept r' (claimed, payload) := by
  cases payload with
  | checkpoint _ => cases hok
  | blob bytes =>
      unfold storeObject at hok
      dsimp only at hok
      split at hok
      · cases hok
      · rename_i hid
        obtain ⟨⟨id, stored⟩, hput, hsnd⟩ := map_eq_ok.mp (mapError_eq_ok.mp hok)
        obtain rfl : stored = r' := hsnd
        refine ⟨.putBlob hput, ?_⟩
        obtain ⟨⟨id', objects⟩, hinsert, hpure⟩ := except_bind_eq_ok.mp hput
        obtain ⟨rfl, rfl⟩ := Prod.mk.inj (Except.ok.inj hpure)
        obtain ⟨⟨rfl, _⟩, _⟩ := Objects.insert_eq_ok.mp hinsert
        rw [← not_not.mp hid]
        exact ⟨⟨_, rfl⟩, Objects.readBlob_of_insert hinsert⟩
  | tree chunk =>
      unfold storeObject at hok
      dsimp only at hok
      split at hok
      · cases hok
      · rename_i hid
        obtain ⟨⟨id, stored⟩, hput, hsnd⟩ := map_eq_ok.mp (mapError_eq_ok.mp hok)
        obtain rfl : stored = r' := hsnd
        refine ⟨.putTree hput, ?_⟩
        obtain ⟨c, hdecode, hstore⟩ := except_bind_eq_ok.mp hput
        obtain ⟨_, rfl⟩ := Chunk.decode_eq_ok.mp hdecode
        obtain ⟨_, _, hstore⟩ := except_bind_eq_ok.mp hstore
        obtain ⟨⟨id', objects⟩, hinsert, hpure⟩ := except_bind_eq_ok.mp hstore
        obtain ⟨rfl, rfl⟩ := Prod.mk.inj (Except.ok.inj hpure)
        obtain ⟨hlook, hself, _⟩ := Objects.read_eq_ok.mp (Objects.read_of_insert hinsert)
        rw [ObjectHash.objectId_tree] at hself
        rw [← not_not.mp hid]
        obtain rfl : chunk.id = id' := hself
        exact ⟨⟨_, rfl⟩, Objects.readTree_eq_ok.mpr ⟨hlook, rfl⟩⟩

theorem sound_of_transactions (h : Relation.ReflTransGen Transaction r r') (hs : Sound r S) :
    Later r r' ∧ ∃ S', Sound r' S' := by
  induction h with
  | refl => exact ⟨.refl _, S, hs⟩
  | tail _ ht ih =>
      obtain ⟨hl, S₁, hs₁⟩ := ih
      obtain ⟨hl', hs'⟩ := System.sound_of_transaction ht hs₁
      exact ⟨hl.trans hl', hs'⟩

/-- A batch is a run of transactions, also one that is refused, and writes objects only. -/
theorem commits_storeObjects (f : Format Id) (objects : List (Id × Payload Id)) (r : Repository Id) :
    Relation.ReflTransGen Transaction r (storeObjects f objects r).2 ∧
      ∃ stored, (storeObjects f objects r).2 = { r with objects := stored } := by
  induction objects generalizing r with
  | nil => exact ⟨.refl, r.objects, rfl⟩
  | cons object objects ih =>
      unfold storeObjects
      split
      · exact ⟨.refl, r.objects, rfl⟩
      · rename_i r₁ hok
        obtain ⟨ht, ⟨_, rfl⟩, _⟩ := of_storeObject hok
        obtain ⟨hrun, hrest⟩ := ih { r with objects := _ }
        exact ⟨.head ht hrun, hrest⟩

theorem kept_of_storeObjects (hs : Sound r S) {objects : List (Id × Payload Id)}
    (hok : storeObjects f objects r = (.ok (), r')) : ∀ o ∈ objects, Kept r' o := by
  induction objects generalizing r S with
  | nil => simp
  | cons object objects ih =>
      unfold storeObjects at hok
      split at hok
      · cases hok
      · rename_i r₁ hfirst
        obtain ⟨ht, _, hkept⟩ := of_storeObject hfirst
        obtain ⟨_, S₁, hs₁⟩ := System.sound_of_transaction ht hs
        obtain ⟨hrest, _⟩ := commits_storeObjects f objects r₁
        rw [hok] at hrest
        rw [List.forall_mem_cons]
        exact ⟨hkept.later (sound_of_transactions hrest hs₁).1, ih hs₁ hok⟩

/-- A message is a run of transactions, also one that is refused. -/
theorem commits_serveOne (f : Format Id) (negotiated : Bool) (message : Message Id) (r : Repository Id) :
    Relation.ReflTransGen Transaction r (serveOne f negotiated message r).2 := by
  unfold serveOne
  split
  · unfold Receiver.handle
    split
    · rename_i objects
      split
      · exact .refl
      · obtain ⟨hcommits, _⟩ := commits_storeObjects f objects r
        split
        · rename_i r' hok
          rw [hok] at hcommits
          exact hcommits
        · rename_i e r' hok
          rw [hok] at hcommits
          exact hcommits
    · split
      · exact .refl
      · rename_i outcome r' hok
        exact .single (.advanceToTree hok)
    · exact .refl
  · exact .refl

/-- An object that is read is kept, and fits a frame alone. -/
theorem of_readItem {x : Kind × Id} {payload : Payload Id} (hok : readItem f r x = .ok payload) :
    itemOf (x.2, payload) = x ∧ Kept r (x.2, payload) ∧ 5 + (OBJECT_OVERHEAD + payload.len) ≤ MAX_FRAME := by
  have hblob : 5 + (OBJECT_OVERHEAD + MAX_BLOB) ≤ MAX_FRAME := by decide
  have htree : 5 + (OBJECT_OVERHEAD + MAX_TREE) ≤ MAX_FRAME := by decide
  obtain ⟨kind, id⟩ := x
  cases kind with
  | checkpoint => cases hok
  | blob =>
      obtain ⟨bytes, hread, rfl⟩ := map_eq_ok.mp (mapError_eq_ok.mp hok)
      obtain ⟨hread, hlen⟩ := readBlobBounded_eq_ok.mp hread
      refine ⟨rfl, hread, ?_⟩
      show 5 + (OBJECT_OVERHEAD + bytes.length) ≤ MAX_FRAME
      omega
  | tree =>
      obtain ⟨chunk, hread, rfl⟩ := map_eq_ok.mp (mapError_eq_ok.mp hok)
      obtain ⟨hread, _, hsize⟩ := treeBytes_eq_ok.mp hread
      refine ⟨rfl, hread, ?_⟩
      show 5 + (OBJECT_OVERHEAD + chunk.size) ≤ MAX_FRAME
      omega

/-- What is read fits the frame. -/
theorem of_readItems {first : Bool} {size : ℕ} {items : List (Kind × Id)} {objects : List (Id × Payload Id)}
    (hsize : size ≤ MAX_FRAME) (hfirst : first = true → size = 5)
    (hok : readItems f r first size items = .ok objects) :
    objects.map itemOf <+: items ∧ (first = true → items ≠ [] → objects ≠ []) ∧ (∀ o ∈ objects, Kept r o) ∧
      size + framed objects ≤ MAX_FRAME := by
  induction items generalizing first size objects with
  | nil =>
      obtain rfl := Except.ok.inj hok
      exact ⟨List.nil_prefix, fun _ h => absurd rfl h, by simp, by simpa [framed] using hsize⟩
  | cons item items ih =>
      obtain ⟨payload, hpayload, hok⟩ := except_bind_eq_ok.mp hok
      obtain ⟨hitem, hkept, hcost⟩ := of_readItem hpayload
      dsimp only at hok
      split at hok
      · rename_i hfull
        obtain rfl := Except.ok.inj hok
        refine ⟨List.nil_prefix, fun hf => ?_, by simp, by simpa [framed] using hsize⟩
        rw [hfull.1] at hf
        cases hf
      · rename_i hroom
        obtain ⟨rest, hrest, hpure⟩ := except_bind_eq_ok.mp hok
        obtain rfl := Except.ok.inj hpure
        have hfits : size + (OBJECT_OVERHEAD + payload.len) ≤ MAX_FRAME := by
          cases first with
          | true =>
              rw [hfirst rfl]
              exact hcost
          | false =>
              rw [not_and, not_lt] at hroom
              exact hroom rfl
        obtain ⟨hfront, _, hall, htotal⟩ := ih hfits (by simp) hrest
        refine ⟨?_, fun _ _ => List.cons_ne_nil _ _, ?_, ?_⟩
        · rw [List.map_cons, hitem]
          exact (List.prefix_cons_inj _).mpr hfront
        · rw [List.forall_mem_cons]
          exact ⟨hkept, hall⟩
        · unfold framed at htotal ⊢
          rw [List.map_cons, List.sum_cons, ← Nat.add_assoc]
          exact htotal

/-- An answered message promises what its reply says. -/
theorem promised_of_answer (hs : Sound r S) (hok : answer f r message = .ok reply) : Promised f r message reply := by
  cases message with
  | want items =>
      dsimp only [answer] at hok
      split at hok
      · obtain ⟨lacked, hlacked, rfl⟩ := map_eq_ok.mp hok
        obtain ⟨hsub, hall⟩ := of_missingItems hlacked
        exact .missing hsub hall
      · cases hok
  | changeset version offset =>
      obtain ⟨changes, hchanges, hpart⟩ := except_bind_eq_ok.mp hok
      unfold changesetPart at hpart
      split at hpart
      · cases hpart
      · rename_i hoffset
        obtain rfl := Except.ok.inj hpart
        exact .part (mapError_eq_ok.mp hchanges) (Nat.not_lt.mp hoffset)
  | resolve version =>
      obtain ⟨world, hworld, hpure⟩ := except_bind_eq_ok.mp hok
      obtain rfl := Except.ok.inj hpure
      have hworld := mapError_eq_ok.mp hworld
      cases version with
      | none =>
          have hhead := hs.chain.headIn_eq_ok.mp hworld
          exact .resolved (hs.chain.getElem?_of_head hhead).1 (by simp)
      | some number =>
          have hv := hs.chain.versionIn_eq_ok.mp hworld
          have hnumber := hs.chain.contiguous _ _ hv
          refine .resolved (hnumber.symm ▸ hv) (fun n hn => ?_)
          rw [hnumber, Option.some.inj hn]
  | get items =>
      dsimp only [answer] at hok
      split at hok
      · obtain ⟨objects, hobjects, rfl⟩ := map_eq_ok.mp hok
        obtain ⟨hfront, hne, hall, hfits⟩ := of_readItems (by decide : 5 ≤ MAX_FRAME) (fun _ => rfl) hobjects
        have hlen := hfront.length_le
        rw [List.length_map, List.length_take] at hlen
        refine .objects (hfront.trans (List.take_prefix _ _)) (fun hitems => hne rfl ?_) hall (by omega) hfits
        rw [Ne, List.take_eq_nil_iff, not_or]
        exact ⟨by decide, hitems⟩
      · cases hok
  | _ => cases hok

theorem fromNative_accepted (h : Chain r S) {operation : OperationId} {expected : VersionNumber} {tree : Id}
    {v : WorldVersion Id} (ha : Answered r operation expected tree (.accepted v)) :
    Outcome.fromNative (.accepted v) = .ok (.accepted (expected + 1) tree operation) := by
  cases ha with
  | accepted hattempt hv htree hop =>
      unfold Outcome.fromNative
      dsimp only
      rw [hop, htree, h.contiguous _ _ hv]

/-- A recorded attempt, as `Publish` answers it. -/
theorem fromNative_of_answered (h : Chain r S) {operation : OperationId} {expected : VersionNumber} {tree : Id}
    {outcome : AdvanceOutcome Id} (ha : Answered r operation expected tree outcome) :
    ∃ answer, Outcome.fromNative outcome = .ok answer ∧
      Promised f r (.publish operation expected tree) (.outcome answer) := by
  cases outcome with
  | accepted v => exact ⟨_, fromNative_accepted h ha, .accepted ha⟩
  | stale actual => exact ⟨.stale actual, rfl, .stale ha⟩

/-- An answered `Publish` is the recorded attempt of its operation. -/
theorem publish_of_serveOne {begun : Bool} {operation : OperationId} {expected : VersionNumber} {tree : Id}
    (hok : serveOne f begun (.publish operation expected tree) r = (.ok reply, r')) :
    ∃ outcome answer, r.advanceToTree operation expected tree = .ok (outcome, r') ∧
      Outcome.fromNative outcome = .ok answer ∧ reply = .outcome answer := by
  cases begun with
  | false =>
      obtain ⟨hnegotiate, _⟩ := Prod.mk.inj hok
      cases hnegotiate
  | true =>
      dsimp only [serveOne, Receiver.handle] at hok
      rw [if_pos rfl] at hok
      split at hok
      · cases hok
      · rename_i outcome r₁ hadvance
        obtain ⟨hreply, rfl⟩ := Prod.mk.inj hok
        obtain ⟨answer, hnative, rfl⟩ := map_eq_ok.mp hreply
        exact ⟨outcome, answer, hadvance, hnative, rfl⟩

/-- A session promises what its replies say. -/
theorem promised_of_serveOne (hs : Sound r S) {negotiated : Bool}
    (hok : serveOne f negotiated message r = (.ok reply, r')) : Promised f r' message reply := by
  have hanswer : (answer f r message, r) = (.ok reply, r') → Promised f r' message reply := by
    intro h
    obtain ⟨hreply, rfl⟩ := Prod.mk.inj h
    exact promised_of_answer hs hreply
  cases negotiated with
  | false =>
      obtain ⟨hnegotiate, rfl⟩ := Prod.mk.inj hok
      cases message with
      | hello min max =>
          dsimp only [negotiate] at hnegotiate
          split at hnegotiate
          · rename_i h
            obtain rfl := Except.ok.inj hnegotiate
            exact .helloOk h.1 h.2
          · cases hnegotiate
      | _ => cases hnegotiate
  | true =>
      cases message with
      | objects objects =>
          dsimp only [serveOne, Receiver.handle] at hok
          rw [if_pos rfl] at hok
          split at hok
          · cases hok
          · split at hok
            · rename_i hstore
              obtain ⟨hreply, rfl⟩ := Prod.mk.inj hok
              obtain rfl := Except.ok.inj hreply
              exact .stored (kept_of_storeObjects hs hstore)
            · cases hok
      | publish operation expected tree =>
          obtain ⟨outcome, answer, hadvance, hnative, rfl⟩ := publish_of_serveOne hok
          obtain ⟨ha, _⟩ := answered_of_advanceToTree hs.chain hadvance
          obtain ⟨_, S', hs'⟩ := System.sound_of_transaction (.advanceToTree hadvance) hs
          obtain ⟨answer', hanswer', hpromised⟩ := fromNative_of_answered hs'.chain ha
          obtain rfl := Except.ok.inj (hnative.symm.trans hanswer')
          exact hpromised
      | _ => exact hanswer hok

/-- A message appends no version, or publishes one and says so. -/
theorem versions_of_serveOne (hs : Sound r S) {negotiated : Bool} {result : Except ProtocolError (Message Id)}
    (hok : serveOne f negotiated message r = (result, r')) : r'.versions = r.versions ∨
      ∃ v operation expected, message = .publish operation expected v.tree ∧ v.operation = some operation ∧
        result = .ok (.outcome (.accepted v.number v.tree operation)) ∧ r'.versions = r.versions ++ [v] := by
  unfold serveOne at hok
  split at hok
  · unfold Receiver.handle at hok
    split at hok
    · rename_i objects
      obtain ⟨_, stored, hstored⟩ := commits_storeObjects f objects r
      refine .inl ?_
      split at hok
      · obtain ⟨_, rfl⟩ := Prod.mk.inj hok
        rfl
      · split at hok
        all_goals
          rename_i hstore
          obtain ⟨_, rfl⟩ := Prod.mk.inj hok
          rw [hstore] at hstored
          have hversions := congrArg Repository.versions hstored
          exact hversions
    · rename_i operation expected tree
      split at hok
      · obtain ⟨_, rfl⟩ := Prod.mk.inj hok
        exact .inl rfl
      · rename_i outcome r₁ hadvance
        obtain ⟨rfl, rfl⟩ := Prod.mk.inj hok
        rcases of_advanceIn hs.chain hadvance with ⟨rfl, _⟩ | ⟨_, _, head, hhead, hadvanced⟩
        · exact .inl rfl
        · obtain ⟨_, _, _, _, _, ha⟩ := of_advanceNew hs.chain hhead (by simp) hadvanced
          cases ha with
          | stale _ => exact .inl rfl
          | accepted c he _ _ => exact .inr ⟨_, operation, expected, rfl, rfl, rfl, rfl⟩
    · obtain ⟨_, rfl⟩ := Prod.mk.inj hok
      exact .inl rfl
  · obtain ⟨_, rfl⟩ := Prod.mk.inj hok
    exact .inl rfl

/-- A session is a run of transactions, whatever messages come. -/
theorem commits_serve (f : Format Id) (negotiated : Bool) (messages : List (Message Id)) (r : Repository Id) :
    Relation.ReflTransGen Transaction r (serve f negotiated messages r).2 := by
  induction messages generalizing negotiated r with
  | nil => exact .refl
  | cons message messages ih =>
      have hfirst := commits_serveOne f negotiated message r
      unfold serve
      split
      · rename_i hone
        rw [hone] at hfirst
        exact hfirst
      · rename_i r' hone
        rw [hone] at hfirst
        exact hfirst.trans (ih true r')

/-- An answered message of a session, between the transactions before and after it. -/
theorem exists_serveOne {negotiated : Bool} {messages : List (Message Id)} {i : ℕ}
    (hmessage : messages[i]? = some message) (hreply : (serve f negotiated messages r).1[i]? = some (.ok reply)) :
    ∃ begun r₁ r₂, Relation.ReflTransGen Transaction r r₁ ∧ serveOne f begun message r₁ = (.ok reply, r₂) ∧
      Relation.ReflTransGen Transaction r₂ (serve f negotiated messages r).2 := by
  induction messages generalizing negotiated r i with
  | nil => cases hmessage
  | cons first messages ih =>
      have hcommits := commits_serveOne f negotiated first r
      unfold serve at hreply ⊢
      split at hreply
      · cases i with
        | zero => cases hreply
        | succ i => cases hreply
      · rename_i reply' r₁ hone
        rw [hone] at hcommits
        dsimp only at hreply ⊢
        cases i with
        | zero =>
            obtain rfl := Option.some.inj hmessage
            obtain rfl := Except.ok.inj (Option.some.inj hreply)
            exact ⟨negotiated, r, r₁, .refl, hone, commits_serve f true messages r₁⟩
        | succ i =>
            obtain ⟨begun, r₂, r₃, hbefore, hserve, hafter⟩ := ih hmessage hreply
            exact ⟨begun, r₂, r₃, hcommits.trans hbefore, hserve, hafter⟩

/-- A session appends the versions that it published and answered so. -/
theorem versions_of_serve (hs : Sound r S) (negotiated : Bool) (messages : List (Message Id)) :
    ∃ vs : List (WorldVersion Id), (serve f negotiated messages r).2.versions = r.versions ++ vs ∧
      ∀ v ∈ vs, ∃ (i : ℕ) (operation : OperationId) (expected : VersionNumber),
        messages[i]? = some (.publish operation expected v.tree) ∧ v.operation = some operation ∧ (serve f negotiated messages r).1[i]? =
          some (.ok (.outcome (.accepted v.number v.tree operation))) := by
  induction messages generalizing negotiated r S with
  | nil => exact ⟨[], (List.append_nil _).symm, by simp⟩
  | cons first messages ih =>
      have hcommits := commits_serveOne f negotiated first r
      unfold serve
      split
      · rename_i e r₁ hone
        rcases versions_of_serveOne hs hone with hsame | ⟨_, _, _, _, _, hreply, _⟩
        · exact ⟨[], by rw [hsame, List.append_nil], by simp⟩
        · cases hreply
      · rename_i reply' r₁ hone
        rw [hone] at hcommits
        obtain ⟨_, S₁, hs₁⟩ := sound_of_transactions hcommits hs
        obtain ⟨vs, hvs, hall⟩ := ih hs₁ true
        have hlater : ∀ v ∈ vs, ∃ (i : ℕ) (operation : OperationId) (expected : VersionNumber),
            (first :: messages)[i]? = some (.publish operation expected v.tree) ∧ v.operation = some operation ∧
            (.ok reply' :: (serve f true messages r₁).1)[i]? =
              some (.ok (.outcome (.accepted v.number v.tree operation))) := by
          intro v hv
          obtain ⟨i, operation, expected, hi⟩ := hall v hv
          exact ⟨i + 1, operation, expected, hi⟩
        rcases versions_of_serveOne hs hone with hsame | ⟨v, operation, expected, rfl, hop, hreply, hv⟩
        · exact ⟨vs, by rw [hvs, hsame], hlater⟩
        · refine ⟨v :: vs, by rw [hvs, hv, List.append_assoc, List.singleton_append], ?_⟩
          rw [List.forall_mem_cons]
          exact ⟨⟨0, operation, expected, rfl, hop, congrArg some hreply⟩, hlater⟩

end promises

end Protocol

namespace System

open Repository Protocol

/-- A session with a peer is a run, whatever messages come.  It appends exactly the versions that it answers as
accepted; whatever any client does after it, every one of its replies stays true; and who has a tree has all that lies
under it. -/
theorem Reachable.session_promises {s s' : System Id} (h : Reachable s) (f : Format Id) (messages : List (Message Id))
    (hrun : Run ⟨(serve f false messages s.repository).2, s.plans⟩ s') :
    Run s ⟨(serve f false messages s.repository).2, s.plans⟩ ∧
    (∃ vs : List (WorldVersion Id), (serve f false messages s.repository).2.versions = s.repository.versions ++ vs ∧
      ∀ v ∈ vs, ∃ (i : ℕ) (operation : OperationId) (expected : VersionNumber),
        messages[i]? = some (.publish operation expected v.tree) ∧ v.operation = some operation ∧
        (serve f false messages s.repository).1[i]? =
          some (.ok (.outcome (.accepted v.number v.tree operation)))) ∧
    (∀ (i : ℕ) (message reply : Message Id), messages[i]? = some message →
      (serve f false messages s.repository).1[i]? = some (.ok reply) → Promised f s'.repository message reply) ∧
    ∀ root, s'.repository.objects.HasKind (root, .tree) → ∀ ref, s'.repository.objects.Under root ref →
      s'.repository.objects.HasKind ref := by
  obtain ⟨S, hs⟩ := h.sound.repository
  have hcommits := commits_serve f false messages s.repository
  obtain ⟨_, S₁, hs₁⟩ := sound_of_transactions hcommits hs
  have hsession : Run s ⟨(serve f false messages s.repository).2, s.plans⟩ := run_of_transactions hcommits
  have hreach := h.run hsession
  obtain ⟨hl, hsound⟩ := hrun.later hreach.sound
  obtain ⟨S₂, hs₂⟩ := hsound.repository
  refine ⟨hsession, versions_of_serve hs false messages, ?_, ?_⟩
  · intro i message reply hmessage hreply
    obtain ⟨begun, r₁, r₂, hbefore, hserve, hafter⟩ := exists_serveOne hmessage hreply
    obtain ⟨_, T₁, ht₁⟩ := sound_of_transactions hbefore hs
    have hone := commits_serveOne f begun message r₁
    rw [hserve] at hone
    obtain ⟨_, T₂, ht₂⟩ := sound_of_transactions hone ht₁
    obtain ⟨hl', _⟩ := sound_of_transactions hafter ht₂
    exact (promised_of_serveOne ht₁ hserve).later (hl'.trans hl) ht₂.chain hs₂.chain
  · intro root hroot ref href
    exact (hreach.run hrun).whole.objects.ordered.under hroot href

/-- A session that publishes the empty tree. -/
def emptySession : List (Message ℕ) := [.hello VERSION VERSION, .publish (operationNumber 1) 0 emptyId]

/-- Numbers print as numerals. -/
def numerals : Format ℕ := ⟨toString, fun _ => []⟩

/-- The version that the session publishes is accepted. -/
theorem serve_emptySession : (serve numerals false emptySession (Repository.initial 0)).1[1]? =
    some (.ok (.outcome (.accepted 1 emptyId (operationNumber 1)))) := by
  obtain ⟨S, hs⟩ := (System.initial_sound (0 : ℕ)).repository
  have hlast : (Repository.initial (0 : ℕ)).versions.getLast? =
      some ⟨0, versionId none emptyId SparseChanges.empty, emptyId, none⟩ := rfl
  obtain ⟨v, r, hadvance, _⟩ : ∃ v r, (Repository.initial 0).advanceToTree (operationNumber 1) 0 emptyId =
      .ok (.accepted v, r) ∧ r.versions = (Repository.initial 0).versions ++ [v] ∧ v.tree = emptyId ∧ _ ∧ _ :=
    exists_advanceToTree hs hlast (by decide) rfl rfl (treeStored_empty _)
  obtain ⟨hanswered, _⟩ := answered_of_advanceToTree hs.chain hadvance
  obtain ⟨_, S', hs'⟩ := sound_of_transaction (.advanceToTree hadvance) hs
  have hnative := fromNative_accepted hs'.chain hanswered
  simp [emptySession, serve, serveOne, negotiate, Receiver.handle, hadvance, hnative, Except.map]

theorem session_promises_published :
    Promised numerals (serve numerals false emptySession (Repository.initial 0)).2
      (.publish (operationNumber 1) 0 emptyId) (.outcome (.accepted 1 emptyId (operationNumber 1))) := by
  have hreach : Reachable (System.initial (0 : ℕ)) := ⟨0, .refl⟩
  exact (hreach.session_promises numerals emptySession .refl).2.2.1 1 _ _ rfl serve_emptySession

/-- Whatever happens after an answered `Publish`, the same one is answered the same again and changes nothing, and its
operation is refused to any other. -/
theorem Reachable.publish_again {s s' : System Id} (h : Reachable s) (f : Format Id) {messages : List (Message Id)}
    {i : ℕ} {operation : OperationId} {expected : VersionNumber} {tree : Id} {reply : Message Id}
    (hmessage : messages[i]? = some (.publish operation expected tree))
    (hreply : (serve f false messages s.repository).1[i]? = some (.ok reply))
    (hrun : Run ⟨(serve f false messages s.repository).2, s.plans⟩ s') (expected' : VersionNumber) (tree' : Id) :
    serveOne f true (.publish operation expected' tree') s'.repository =
      (if expected' = expected ∧ tree' = tree then .ok reply else .error (f.native (.operationIdReused operation)),
        s'.repository) := by
  obtain ⟨S, hs⟩ := h.sound.repository
  obtain ⟨_, r₁, r₂, hbefore, hserve, hafter⟩ := exists_serveOne hmessage hreply
  obtain ⟨_, T₁, ht₁⟩ := sound_of_transactions hbefore hs
  obtain ⟨outcome, answer, hadvance, hnative, rfl⟩ := publish_of_serveOne hserve
  obtain ⟨hanswered, hunpublished⟩ := answered_of_advanceToTree ht₁.chain hadvance
  obtain ⟨_, T₂, ht₂⟩ := sound_of_transaction (.advanceToTree hadvance) ht₁
  obtain ⟨hl₂, _⟩ := sound_of_transactions hafter ht₂
  have hreach : Reachable ⟨(serve f false messages s.repository).2, s.plans⟩ :=
    h.run (run_of_transactions (commits_serve f false messages s.repository))
  obtain ⟨hl₃, hsound⟩ := hrun.later hreach.sound
  obtain ⟨T₃, ht₃⟩ := hsound.repository
  have hl := hl₂.trans hl₃
  have hagain := (hanswered.later hl).again (hanswered.unpublished hunpublished hl ht₃) ht₃.chain expected' tree'
  unfold serveOne Receiver.handle
  dsimp only
  rw [if_pos rfl, hagain]
  by_cases hsame : expected' = expected ∧ tree' = tree
  · simp only [if_pos hsame, hnative]
    rfl
  · simp only [if_neg hsame]

theorem publish_again_published :
    serveOne numerals true (.publish (operationNumber 1) 0 emptyId)
        (serve numerals false emptySession (Repository.initial 0)).2 =
      (.ok (.outcome (.accepted 1 emptyId (operationNumber 1))),
        (serve numerals false emptySession (Repository.initial 0)).2) := by
  have hreach : Reachable (System.initial (0 : ℕ)) := ⟨0, .refl⟩
  exact hreach.publish_again numerals rfl serve_emptySession .refl 0 emptyId

end System

end Javelin
