import Javelin.Protocol
import Javelin.ChunkCodec

/-! # Verifying the version chain

`verifyChain` asks a server for every version up to the one it named, streams each changeset in
parts of the server's choice, and hashes parent, root and changeset into the version's identity.
What it hashed of each version is a `Checked`.

Whatever the server answers, it ends (`ends_verifyVersions`), and the identities it accepts are
linked by their hashes (`Linked`).  So with an honest identity that no other bytes hash to, all it
hashed is honest, root and changesets included (`Linked.honest`).  An honest server is always
accepted. -/

namespace Javelin

open Bytes Sessions

namespace Protocol

/-- The hash of identities and what it is fed: the bytes of an ID, and the root of the empty World. -/
structure Hashes (Id : Type) where
  bytes : Id → Str
  sha : Str → Id
  empty : Id

/-- `b"javelin-version-v2\0"`. -/
def VERSION_DOMAIN : Str := text "javelin-version-v2" ++ [0]

/-- Version identity in parts: the bytes before the changeset, and those of the changeset so far. -/
structure VersionHasher where
  header : Str
  changes : Str
deriving DecidableEq

namespace Hashes
variable {Id : Type} (h : Hashes Id)

/-- `VersionHasher::new`, over `parent` (`none` for World 0) with root `tree`. -/
def newHasher (parent : Option Id) (tree : Id) : VersionHasher :=
  ⟨VERSION_DOMAIN ++ (match parent with
      | some p => h.bytes p
      | none => List.replicate 32 0) ++ h.bytes tree, []⟩

/-- `VersionHasher::finish`. -/
def finish (hash : VersionHasher) : Id := h.sha (hash.header ++ hash.changes)

end Hashes

/-- `VersionHasher::update`. -/
def VersionHasher.update (hash : VersionHasher) (changes : Str) : VersionHasher :=
  { hash with changes := hash.changes ++ changes }

namespace Hashes
variable {Id : Type} (h : Hashes Id)

/-- `version_id`, of canonical changeset bytes. -/
def versionId (parent : Option Id) (tree : Id) (changes : Str) : Id :=
  h.finish ((h.newHasher parent tree).update changes)

/-- `genesis_version_id`: the empty root, no parent, and the empty changeset. -/
def genesisVersionId : Id := h.versionId none h.empty (text "\x7b\x7d")

end Hashes

/-- `CHAIN_MISMATCH`. -/
def mismatch (version : ℕ) : ProtocolError :=
  ⟨"chain_mismatch", "version " ++ toString version ++ " does not commit to the tree its server named"⟩

/-- What was hashed of one version, and the identity it was compared with. -/
structure Checked (Id : Type) where
  id : Id
  tree : Id
  changes : Str
deriving DecidableEq

section verify
variable {σ Id : Type} [DecidableEq Id] (h : Hashes Id) (server : Server Id σ)

/-- The inner loop of `verify_chain`: hashes the parts of one changeset as they arrive. -/
def hashChangeset (version : ℕ) : ℕ → VersionHasher → ℕ → Option ℕ → SessionM σ VersionHasher
  | 0, _, _, _ => stuck
  | bound + 1, hash, offset, total => do
      match ← call server (.changeset version offset) with
      | .changesetPart whole bytes =>
          if MAX_CHANGESET < whole then
            throw ⟨"limit_exceeded", "changeset of version " ++ toString version ++ " exceeds " ++
              toString MAX_CHANGESET ++ " bytes"⟩
          else if total.getD whole ≠ whole ∨ whole < offset + bytes.length then
            throw ⟨"malformed", "changeset part of version " ++ toString version ++
              " disagrees with its length"⟩
          else if bytes = [] ∧ offset < whole then
            throw ⟨"malformed", "empty changeset part of version " ++ toString version⟩
          else if offset + bytes.length = whole then return hash.update bytes
          else hashChangeset version bound (hash.update bytes) (offset + bytes.length) (some whole)
      | _ => throw unexpected

/-- The identity and root a version is claimed to have. -/
def claim (number : ℕ) (id tree : Id) (version : ℕ) : SessionM σ (Id × Id) :=
  if version = number then return (id, tree)
  else do
    match ← call server (.resolve (some version)) with
    | .resolved got id tree => if got = version then return (id, tree) else throw unexpected
    | _ => throw unexpected

/-- The loop of `verify_chain` over the versions.  `bound` is that of its inner loop. -/
def verifyVersions (bound number : ℕ) (id tree : Id) : List ℕ → Id → SessionM σ (List (Checked Id))
  | [], _ => return []
  | version :: versions, parent => do
      let (claimed, root) ← claim server number id tree version
      let hash ← hashChangeset server version bound (h.newHasher (some parent) root) 0 none
      if h.finish hash ≠ claimed then throw (mismatch version)
      else
        let rest ← verifyVersions bound number id tree versions claimed
        return ⟨claimed, root, hash.changes⟩ :: rest

/-- What `verify_chain` hashed once it accepts. -/
def checkChain (bound number : ℕ) (id tree : Id) : SessionM σ (List (Checked Id)) :=
  if number = 0 then
    if id = h.genesisVersionId ∧ tree = h.empty then return [] else throw (mismatch 0)
  else verifyVersions h server bound number id tree (List.range' 1 number) h.genesisVersionId

/-- Checks that `tree` is the root that version `number` commits to. -/
def verifyChain (bound number : ℕ) (id tree : Id) : SessionM σ Unit := do
  let _ ← checkChain h server bound number id tree
  return ()

end verify

/-! ### Any server -/

section any
variable {σ Id : Type} [DecidableEq Id] {h : Hashes Id} {server : Server Id σ}

/-- The identity of each version hashes the one before it. -/
def Linked (h : Hashes Id) : Id → List (Checked Id) → Prop
  | _, [] => True
  | parent, c :: cs => h.versionId (some parent) c.tree c.changes = c.id ∧ Linked h c.id cs

/-- How much of a changeset can still come. -/
def remaining (offset : ℕ) : Option ℕ → ℕ
  | none => MAX_CHANGESET
  | some whole => whole - offset

omit [DecidableEq Id] in
/-- Every part but the last is counted off, so the bound is not used up. -/
theorem ends_hashChangeset {version bound offset : ℕ} {total : Option ℕ} {hash : VersionHasher} {s : σ}
    (hb : remaining offset total < bound) :
    Ends (hashChangeset server version bound hash offset total) s
      (fun hash' _ => hash'.header = hash.header) (fun _ => True) := by
  induction bound generalizing offset total hash s with
  | zero => omega
  | succ bound ih =>
      unfold hashChangeset
      refine Ends.bind (Q := fun _ _ => True) (Ends.call (fun _ _ _ => trivial) (fun _ _ => trivial)) ?_
      intro reply s' _
      cases reply with
      | changesetPart whole bytes =>
          by_cases hlimit : MAX_CHANGESET < whole
          · simp only [if_pos hlimit]
            exact Ends.throw trivial
          simp only [if_neg hlimit]
          by_cases hwhole : total.getD whole ≠ whole ∨ whole < offset + bytes.length
          · simp only [if_pos hwhole]
            exact Ends.throw trivial
          simp only [if_neg hwhole]
          by_cases hempty : bytes = [] ∧ offset < whole
          · simp only [if_pos hempty]
            exact Ends.throw trivial
          simp only [if_neg hempty]
          by_cases hdone : offset + bytes.length = whole
          · simp only [if_pos hdone]
            exact Ends.pure rfl
          simp only [if_neg hdone]
          refine ih ?_
          rw [not_or, not_not] at hwhole
          have hpos : 0 < bytes.length := by
            apply List.length_pos_iff.mpr
            intro hnil
            apply hempty
            rw [hnil, List.length_nil] at hwhole hdone
            exact ⟨hnil, by omega⟩
          show whole - (offset + bytes.length) < bound
          cases total with
          | none =>
              change MAX_CHANGESET < bound + 1 at hb
              omega
          | some w =>
              change w - offset < bound + 1 at hb
              have hw : w = whole := hwhole.1
              omega
      | _ => exact Ends.throw trivial

omit [DecidableEq Id] in
theorem ends_claim {number version : ℕ} {id tree : Id} {s : σ} :
    Ends (claim server number id tree version) s
      (fun p _ => version = number → p = (id, tree)) (fun _ => True) := by
  unfold claim
  by_cases hv : version = number
  · rw [if_pos hv]
    exact Ends.pure (fun _ => rfl)
  · rw [if_neg hv]
    refine Ends.bind (Q := fun _ _ => True) (Ends.call (fun _ _ _ => trivial) (fun _ _ => trivial)) ?_
    intro reply s' _
    cases reply with
    | resolved got id' tree' =>
        by_cases hg : got = version
        · simp only [if_pos hg]
          exact Ends.pure (fun he => absurd he hv)
        · simp only [if_neg hg]
          exact Ends.throw trivial
    | _ => exact Ends.throw trivial

/-- Whatever the server answers, the loop ends; what it accepts is linked, and has the named
identity and root at the named version. -/
theorem ends_verifyVersions {bound number : ℕ} {id tree parent : Id} {versions : List ℕ} {s : σ}
    (hb : MAX_CHANGESET < bound) :
    Ends (verifyVersions h server bound number id tree versions parent) s
      (fun cs _ => Linked h parent cs ∧ List.Forall₂ (fun version c =>
        version = number → c.id = id ∧ c.tree = tree) versions cs) (fun _ => True) := by
  induction versions generalizing parent s with
  | nil => exact Ends.pure ⟨trivial, .nil⟩
  | cons version versions ih =>
      unfold verifyVersions
      refine Ends.bind ends_claim ?_
      intro p s₁ hp
      obtain ⟨claimed, root⟩ := p
      refine Ends.bind (ends_hashChangeset hb) ?_
      intro hash s₂ hheader
      by_cases hne : h.finish hash ≠ claimed
      · simp only [if_pos hne]
        exact Ends.throw trivial
      simp only [if_neg hne]
      refine Ends.bind ih ?_
      intro rest s₃ hrest
      rw [not_not] at hne
      refine Ends.pure ⟨⟨?_, hrest.1⟩, .cons ?_ hrest.2⟩
      · show h.sha ((h.newHasher (some parent) root).header ++ ([] ++ hash.changes)) = claimed
        rw [← hheader, List.nil_append]
        exact hne
      · intro hv
        have hpair := hp hv
        injection hpair with h1 h2
        exact ⟨h1, h2⟩

end any

/-! ### Honest chains -/

/-- A World: the root and the canonical changeset of each version from 1 to `last`. -/
structure WorldChain (Id : Type) where
  last : ℕ
  root : ℕ → Id
  changeset : ℕ → Str

/-- A version's identity, root and canonical changeset. -/
def WorldChain.version {Id : Type} (h : Hashes Id) (w : WorldChain Id) : ℕ → Checked Id
  | 0 => ⟨h.genesisVersionId, h.empty, text "\x7b\x7d"⟩
  | n + 1 =>
      ⟨h.versionId (some (w.version h n).id) (w.root (n + 1)) (w.changeset (n + 1)),
        w.root (n + 1), w.changeset (n + 1)⟩

/-- A server that answers from the World, a changeset in parts of any size. -/
structure Honest {σ Id : Type} (h : Hashes Id) (w : WorldChain Id) (server : Server Id σ) : Prop where
  resolve : ∀ s version, version ≤ w.last → ∃ s', server (.resolve (some version)) s =
    .ok (.resolved version (w.version h version).id (w.version h version).tree, s')
  changeset : ∀ s version offset, version ≤ w.last → offset ≤ (w.version h version).changes.length →
    ∃ bytes s', server (.changeset version offset) s =
        .ok (.changesetPart (w.version h version).changes.length bytes, s') ∧
      bytes <+: (w.version h version).changes.drop offset ∧
      (offset < (w.version h version).changes.length → bytes ≠ [])

/-- `Error::MissingVersion`. -/
def missingVersion (number : ℕ) : ProtocolError :=
  ⟨"missing_version", "World version " ++ toString number ++ " does not exist"⟩

/-- What `receiver::handle` answers to the messages of `verify_chain`, with parts of `part` bytes
(`MAX_CHANGESET_PART` in the source). -/
def serveChain {Id : Type} (h : Hashes Id) (w : WorldChain Id) (part : ℕ) : Server Id Unit
  | .resolve version, s =>
      let number := version.getD w.last
      if w.last < number then .error (missingVersion number)
      else .ok (.resolved number (w.version h number).id (w.version h number).tree, s)
  | .changeset version offset, s =>
      if w.last < version then .error (missingVersion version)
      else
        let bytes := (w.version h version).changes
        if bytes.length < offset then .error ⟨"malformed", "changeset offset is past its end"⟩
        else .ok (.changesetPart bytes.length ((bytes.drop offset).take part), s)
  | _, _ => .error unexpected

theorem honest_serveChain {Id : Type} (h : Hashes Id) (w : WorldChain Id) {part : ℕ} (hp : 0 < part) :
    Honest h w (serveChain h w part) where
  resolve := by
    intro s version hv
    refine ⟨s, ?_⟩
    simp only [serveChain, Option.getD_some, if_neg (not_lt.mpr hv)]
  changeset := by
    intro s version offset hv ho
    refine ⟨_, s, ?_, List.take_prefix part _, ?_⟩
    · simp only [serveChain, if_neg (not_lt.mpr hv), if_neg (not_lt.mpr ho)]
    · intro hlt hnil
      have hl := congrArg List.length hnil
      rw [List.length_take, List.length_drop, List.length_nil] at hl
      omega

section honest
variable {σ Id : Type} {h : Hashes Id} {w : WorldChain Id} {server : Server Id σ}

/-- The parts of an honest changeset come to the whole. -/
theorem Honest.ends_hashChangeset (hs : Honest h w server) {version bound offset : ℕ} {total : Option ℕ}
    {hash : VersionHasher} {s : σ} (hv : version ≤ w.last)
    (hmax : (w.version h version).changes.length ≤ MAX_CHANGESET)
    (hsofar : hash.changes ++ (w.version h version).changes.drop offset = (w.version h version).changes)
    (ho : offset ≤ (w.version h version).changes.length)
    (htotal : total.getD (w.version h version).changes.length = (w.version h version).changes.length)
    (hb : (w.version h version).changes.length - offset < bound) :
    Ends (hashChangeset server version bound hash offset total) s
      (fun hash' _ => hash' = ⟨hash.header, (w.version h version).changes⟩) (fun _ => False) := by
  induction bound generalizing offset total hash s with
  | zero => omega
  | succ bound ih =>
      obtain ⟨bytes, s', hreply, hprefix, hne⟩ := hs.changeset s version offset hv ho
      unfold hashChangeset
      refine Ends.bind (Q := fun reply _ =>
        reply = .changesetPart (w.version h version).changes.length bytes) (Ends.call ?_ ?_) ?_
      · intro reply s'' hr
        rw [hreply] at hr
        injection hr with hr
        injection hr with hr
        exact hr.symm
      · intro e hr
        rw [hreply] at hr
        cases hr
      intro reply s'' hr
      subst hr
      have hl := hprefix.length_le
      rw [List.length_drop] at hl
      have hwhole : ¬ (total.getD (w.version h version).changes.length ≠ (w.version h version).changes.length ∨
          (w.version h version).changes.length < offset + bytes.length) := by
        rw [not_or, not_not]
        exact ⟨htotal, by omega⟩
      have hempty : ¬ (bytes = [] ∧ offset < (w.version h version).changes.length) :=
        fun he => hne he.2 he.1
      simp only [if_neg (not_lt.mpr hmax), if_neg hwhole, if_neg hempty]
      obtain ⟨rest, hrest⟩ := hprefix
      have hdrop : (w.version h version).changes.drop (offset + bytes.length) = rest := by
        rw [← List.drop_drop, ← hrest, List.drop_left]
      by_cases hdone : offset + bytes.length = (w.version h version).changes.length
      · simp only [if_pos hdone]
        refine Ends.pure ?_
        have hnil : rest = [] := by
          rw [← hdrop, hdone, List.drop_length]
        rw [hnil, List.append_nil] at hrest
        unfold VersionHasher.update
        rw [hrest, hsofar]
      · simp only [if_neg hdone]
        have hpos : 0 < bytes.length := by
          apply List.length_pos_iff.mpr
          intro hnil
          rw [hnil, List.length_nil] at hdone
          exact hne (by omega) hnil
        have hnext : (hash.update bytes).changes ++
            (w.version h version).changes.drop (offset + bytes.length) = (w.version h version).changes := by
          show (hash.changes ++ bytes) ++ _ = _
          rw [hdrop, List.append_assoc, hrest, hsofar]
        exact ih hnext (by omega) rfl (by omega)

theorem Honest.ends_claim (hs : Honest h w server) {number version : ℕ} {s : σ} (hv : version ≤ w.last) :
    Ends (claim server number (w.version h number).id (w.version h number).tree version) s
      (fun p _ => p = ((w.version h version).id, (w.version h version).tree)) (fun _ => False) := by
  unfold claim
  by_cases he : version = number
  · rw [if_pos he]
    subst he
    exact Ends.pure rfl
  · rw [if_neg he]
    obtain ⟨s', hreply⟩ := hs.resolve s version hv
    refine Ends.bind (Q := fun reply _ => reply =
      .resolved version (w.version h version).id (w.version h version).tree) (Ends.call ?_ ?_) ?_
    · intro reply s'' hr
      rw [hreply] at hr
      injection hr with hr
      injection hr with hr
      exact hr.symm
    · intro e hr
      rw [hreply] at hr
      cases hr
    · intro reply s'' hr
      subst hr
      simp only [if_pos]
      exact Ends.pure rfl

variable [DecidableEq Id]

/-- An honest server is accepted version after version, and all that is hashed is the World's. -/
theorem Honest.ends_verifyVersions (hs : Honest h w server) {number k m : ℕ} {s : σ}
    (hm : k + m ≤ w.last)
    (hmax : ∀ version ≤ w.last, (w.version h version).changes.length ≤ MAX_CHANGESET) :
    Ends (verifyVersions h server (MAX_CHANGESET + 1) number (w.version h number).id
        (w.version h number).tree (List.range' (k + 1) m) (w.version h k).id) s
      (fun cs _ => cs = (List.range' (k + 1) m).map (w.version h)) (fun _ => False) := by
  induction m generalizing k s with
  | zero => exact Ends.pure rfl
  | succ m ih =>
      rw [List.range'_succ]
      unfold verifyVersions
      have hv : k + 1 ≤ w.last := by omega
      refine Ends.bind (hs.ends_claim hv) ?_
      intro p s₁ hp
      subst hp
      have hlen := hmax (k + 1) hv
      refine Ends.bind (hs.ends_hashChangeset hv hlen rfl (Nat.zero_le _) rfl (by omega)) ?_
      intro hash s₂ hhash
      subst hhash
      have hid : h.finish ⟨(h.newHasher (some (w.version h k).id) (w.version h (k + 1)).tree).header,
          (w.version h (k + 1)).changes⟩ = (w.version h (k + 1)).id := rfl
      simp only [hid, ne_eq, not_true_eq_false, if_false]
      refine Ends.bind (ih (by omega)) ?_
      intro rest s₃ hrest
      subst hrest
      exact Ends.pure rfl

end honest

/-! ### What an accepted root is bound by -/

/-- The bytes a version's identity hashes. -/
def Hashes.preimage {Id : Type} (h : Hashes Id) (parent : Option Id) (tree : Id) (changes : Str) : Str :=
  (h.newHasher parent tree).header ++ changes

theorem Hashes.versionId_eq {Id : Type} (h : Hashes Id) (parent : Option Id) (tree : Id) (changes : Str) :
    h.versionId parent tree changes = h.sha (h.preimage parent tree changes) := rfl

/-- No other bytes hash to the identity of a version up to `n`, as when hashing is injective. -/
def Binding {Id : Type} (h : Hashes Id) (w : WorldChain Id) (n : ℕ) : Prop :=
  ∀ k < n, ∀ x, h.sha x = (w.version h (k + 1)).id →
    x = h.preimage (some (w.version h k).id) (w.root (k + 1)) (w.changeset (k + 1))

/-- The identity a list of versions ends with. -/
def lastId {Id : Type} (parent : Id) (cs : List (Checked Id)) : Id := (cs.getLast?.map Checked.id).getD parent

theorem linked_append {Id : Type} {h : Hashes Id} {parent : Id} {cs : List (Checked Id)} {c : Checked Id} :
    Linked h parent (cs ++ [c]) ↔
      Linked h parent cs ∧ h.versionId (some (lastId parent cs)) c.tree c.changes = c.id := by
  induction cs generalizing parent with
  | nil =>
      constructor
      · intro hl
        exact ⟨trivial, hl.1⟩
      · intro hl
        exact ⟨hl.2, trivial⟩
  | cons d cs ih =>
      have hlast : lastId parent (d :: cs) = lastId d.id cs := by
        unfold lastId
        rw [List.getLast?_cons]
        cases cs.getLast? <;> rfl
      rw [hlast]
      constructor
      · intro hl
        obtain ⟨hd, hrest⟩ := hl
        obtain ⟨hcs, hc⟩ := ih.mp hrest
        exact ⟨⟨hd, hcs⟩, hc⟩
      · intro hl
        obtain ⟨⟨hd, hcs⟩, hc⟩ := hl
        exact ⟨hd, ih.mpr ⟨hcs, hc⟩⟩

/-- `ObjectId::hash` and the version hash over one SHA-256. -/
def objectHashes (sha : Str → ObjectId) : Hashes ObjectId where
  bytes := Subtype.val
  sha := sha
  -- `b"javelin-object-v1\0"`, the tag of a tree and its one byte.
  empty := sha (text "javelin-object-v1" ++ [0] ++ [4] ++ [0])

section binding
variable {sha : Str → ObjectId} {w : WorldChain ObjectId}

/-- IDs have a fixed length, so the bytes of a version show where its parent, root and changeset
are. -/
theorem preimage_inj {parent parent' tree tree' : ObjectId} {changes changes' : Str}
    (h : (objectHashes sha).preimage (some parent) tree changes =
      (objectHashes sha).preimage (some parent') tree' changes') :
    parent = parent' ∧ tree = tree' ∧ changes = changes' := by
  change VERSION_DOMAIN ++ parent.1 ++ tree.1 ++ changes = VERSION_DOMAIN ++ parent'.1 ++ tree'.1 ++ changes' at h
  rw [List.append_assoc, List.append_assoc, List.append_assoc, List.append_assoc] at h
  have h1 := List.append_cancel_left h
  obtain ⟨hp, h2⟩ := List.append_inj h1 (parent.2.trans parent'.2.symm)
  obtain ⟨ht, hc⟩ := List.append_inj h2 (tree.2.trans tree'.2.symm)
  exact ⟨Subtype.ext hp, Subtype.ext ht, hc⟩

/-- Linked versions that end with an honest identity are the World's. -/
theorem Linked.honest {cs : List (Checked ObjectId)}
    (hl : Linked (objectHashes sha) (objectHashes sha).genesisVersionId cs)
    (hlast : lastId (objectHashes sha).genesisVersionId cs = (w.version (objectHashes sha) cs.length).id)
    (hb : Binding (objectHashes sha) w cs.length) :
    cs = (List.range' 1 cs.length).map (w.version (objectHashes sha)) := by
  induction cs using List.reverseRecOn with
  | nil => rfl
  | append_singleton cs c ih =>
      obtain ⟨hcs, hc⟩ := linked_append.mp hl
      have hid : c.id = (w.version (objectHashes sha) (cs.length + 1)).id := by
        rw [List.length_append, List.length_singleton] at hlast
        rw [← hlast]
        unfold lastId
        rw [List.getLast?_append]
        rfl
      have hlt : cs.length < (cs ++ [c]).length := by
        rw [List.length_append, List.length_singleton]
        omega
      rw [Hashes.versionId_eq, hid] at hc
      obtain ⟨hparent, htree, hchanges⟩ := preimage_inj (hb cs.length hlt _ hc)
      have hprefix := ih hcs hparent (fun k hk => hb k (by omega))
      have hc' : c = w.version (objectHashes sha) (cs.length + 1) := by
        show c = ⟨_, _, _⟩
        obtain ⟨id, tree, changes⟩ := c
        simp only at hid htree hchanges
        rw [hid, htree, hchanges]
        rfl
      rw [List.length_append, List.length_singleton, List.range'_concat, List.map_append, ← hprefix,
        List.map_singleton, Nat.one_mul, Nat.add_comm 1, ← hc']

theorem ends_checkChain {σ : Type} {server : Server ObjectId σ} {n : ℕ} {id tree : ObjectId} {s : σ} :
    Ends (checkChain (objectHashes sha) server (MAX_CHANGESET + 1) n id tree) s
      (fun cs _ => Linked (objectHashes sha) (objectHashes sha).genesisVersionId cs ∧ cs.length = n ∧
        (n = 0 → tree = (objectHashes sha).empty) ∧
        ∀ c ∈ cs.getLast?, c.id = id ∧ c.tree = tree) (fun _ => True) := by
  unfold checkChain
  by_cases hn : n = 0
  · rw [if_pos hn]
    by_cases hg : id = (objectHashes sha).genesisVersionId ∧ tree = (objectHashes sha).empty
    · rw [if_pos hg]
      refine Ends.pure ⟨trivial, hn.symm, fun _ => hg.2, ?_⟩
      intro c hc
      cases hc
    · rw [if_neg hg]
      exact Ends.throw trivial
  · rw [if_neg hn]
    refine (ends_verifyVersions (Nat.lt_succ_self _)).mono ?_ (fun _ h => h)
    intro cs s' hcs
    obtain ⟨hlinked, hall⟩ := hcs
    have hlen := hall.length_eq
    rw [List.length_range'] at hlen
    refine ⟨hlinked, hlen.symm, fun h0 => absurd h0 hn, ?_⟩
    intro c hc
    have hrange : List.range' 1 n = List.range' 1 (n - 1) ++ [n] := by
      obtain ⟨m, rfl⟩ : ∃ m, n = m + 1 := ⟨n - 1, by omega⟩
      rw [List.range'_concat, Nat.add_sub_cancel, Nat.one_mul, Nat.add_comm 1]
    rw [Option.mem_def, List.getLast?_eq_some_iff] at hc
    obtain ⟨init, hinit⟩ := hc
    rw [hrange, hinit] at hall
    have hl : (List.range' 1 (n - 1)).length = init.length := by
      have h1 := hall.length_eq
      rw [List.length_append, List.length_append, List.length_singleton, List.length_singleton] at h1
      omega
    have hlast := List.forall₂_drop_append _ _ _ hall
    rw [List.drop_left' hl, List.forall₂_cons] at hlast
    exact hlast.1 rfl

theorem verifyChain_eq_ok {σ : Type} {server : Server ObjectId σ} {n : ℕ} {id tree : ObjectId} {s s' : σ}
    (h : verifyChain (objectHashes sha) server (MAX_CHANGESET + 1) n id tree s = some (.ok ((), s'))) :
    ∃ cs, checkChain (objectHashes sha) server (MAX_CHANGESET + 1) n id tree s = some (.ok (cs, s')) := by
  change (ExceptT.bind (checkChain (objectHashes sha) server (MAX_CHANGESET + 1) n id tree s) _ :
    Option _) = _ at h
  cases hc : checkChain (objectHashes sha) server (MAX_CHANGESET + 1) n id tree s with
  | none =>
      rw [hc] at h
      cases h
  | some r =>
      rw [hc] at h
      cases r with
      | error e => cases h
      | ok p =>
          injection h with h
          injection h with h
          injection h with _ hs
          rw [← hs]
          exact ⟨p.1, rfl⟩

/-- What is checked under an honest identity is honest. -/
theorem checkChain_honest {σ : Type} {server : Server ObjectId σ} {n : ℕ} {tree : ObjectId} {s s' : σ}
    {cs : List (Checked ObjectId)} (hb : Binding (objectHashes sha) w n)
    (h : checkChain (objectHashes sha) server (MAX_CHANGESET + 1) n
      (w.version (objectHashes sha) n).id tree s = some (.ok (cs, s'))) :
    cs = (List.range' 1 n).map (w.version (objectHashes sha)) ∧
      tree = (w.version (objectHashes sha) n).tree := by
  obtain ⟨hlinked, hlen, hzero, hlast⟩ := ends_checkChain.of_ok h
  subst hlen
  cases hg : cs.getLast? with
  | none =>
      rw [List.getLast?_eq_none_iff] at hg
      subst hg
      exact ⟨rfl, hzero rfl⟩
  | some c =>
      have hid : lastId (objectHashes sha).genesisVersionId cs =
          (w.version (objectHashes sha) cs.length).id := by
        unfold lastId
        rw [hg]
        exact (hlast c hg).1
      have hcs := hlinked.honest hid hb
      refine ⟨hcs, ?_⟩
      obtain ⟨init, hinit⟩ := List.getLast?_eq_some_iff.mp hg
      have hl : cs.length = init.length + 1 := by
        rw [hinit, List.length_append, List.length_singleton]
      rw [hl, List.range'_concat, List.map_append, Nat.one_mul, Nat.add_comm 1, hinit] at hcs
      have hc := (List.append_inj' hcs rfl).2
      rw [List.map_singleton] at hc
      injection hc with hc
      rw [hl, ← hc]
      exact (hlast _ hg).2.symm

theorem Honest.ends_verifyChain {σ : Type} {server : Server ObjectId σ}
    (hs : Honest (objectHashes sha) w server)
    (hmax : ∀ version ≤ w.last, (w.version (objectHashes sha) version).changes.length ≤ MAX_CHANGESET)
    {n : ℕ} (hn : n ≤ w.last) (s : σ) :
    Ends (verifyChain (objectHashes sha) server (MAX_CHANGESET + 1) n (w.version (objectHashes sha) n).id
      (w.version (objectHashes sha) n).tree) s (fun _ _ => True) (fun _ => False) := by
  refine Ends.bind (Q := fun _ _ => True) ?_ (fun _ _ _ => Ends.pure trivial)
  unfold checkChain
  by_cases h0 : n = 0
  · subst h0
    rw [if_pos rfl, if_pos ⟨rfl, rfl⟩]
    exact Ends.pure trivial
  · rw [if_neg h0]
    exact (hs.ends_verifyVersions (k := 0) (by omega) hmax).mono (fun _ _ _ => trivial) (fun _ h => h)

/-- An honest server is accepted, whatever parts it serves; a session with any server ends; and an
accepted honest identity binds the root, and every identity, root and changeset hashed on the way. -/
theorem chain_verification_binds_root (sha : Str → ObjectId) (w : WorldChain ObjectId) :
    (∀ (σ : Type) (server : Server ObjectId σ), Honest (objectHashes sha) w server →
      (∀ version ≤ w.last, (w.version (objectHashes sha) version).changes.length ≤ MAX_CHANGESET) →
      ∀ n ≤ w.last, ∀ s, ∃ s', verifyChain (objectHashes sha) server (MAX_CHANGESET + 1) n
        (w.version (objectHashes sha) n).id (w.version (objectHashes sha) n).tree s = some (.ok ((), s'))) ∧
    (∀ (σ : Type) (server : Server ObjectId σ) n id tree s,
      verifyChain (objectHashes sha) server (MAX_CHANGESET + 1) n id tree s ≠ none) ∧
    (∀ (σ : Type) (server : Server ObjectId σ), ∀ n ≤ w.last, Binding (objectHashes sha) w n →
      ∀ tree s s', verifyChain (objectHashes sha) server (MAX_CHANGESET + 1) n
        (w.version (objectHashes sha) n).id tree s = some (.ok ((), s')) →
      tree = (w.version (objectHashes sha) n).tree ∧
        checkChain (objectHashes sha) server (MAX_CHANGESET + 1) n
          (w.version (objectHashes sha) n).id tree s =
            some (.ok ((List.range' 1 n).map (w.version (objectHashes sha)), s'))) := by
  refine ⟨?_, ?_, ?_⟩
  · intro σ server hs hmax n hn s
    obtain ⟨_, s', hrun, _⟩ := (hs.ends_verifyChain hmax hn s).exists_ok
    exact ⟨s', hrun⟩
  · intro σ server n id tree s
    have hverify : Ends (verifyChain (objectHashes sha) server (MAX_CHANGESET + 1) n id tree) s
        (fun _ _ => True) (fun _ => True) :=
      Ends.bind (ends_checkChain.mono (fun _ _ _ => trivial) (fun _ h => h)) (fun _ _ _ => Ends.pure trivial)
    exact hverify.ne_none
  · intro σ server n _ hb tree s s' hrun
    obtain ⟨cs, hchecked⟩ := verifyChain_eq_ok hrun
    obtain ⟨hcs, htree⟩ := checkChain_honest hb hchecked
    subst hcs
    exact ⟨htree, hchecked⟩

end binding

/-! ### A World of one version -/

def zeros : ObjectId := ⟨List.replicate 32 0, length_zeros⟩
def ones : ObjectId := ⟨List.replicate 32 1, rfl⟩

/-- A hash with the value `ones` at one place. -/
def sampleSha (x : Str) : ObjectId :=
  if x = VERSION_DOMAIN ++ zeros.1 ++ ones.1 ++ text "\x7b\x7d" then ones else zeros

def sampleWorld : WorldChain ObjectId := ⟨1, fun _ => ones, fun _ => text "\x7b\x7d"⟩

theorem sample_genesis : (objectHashes sampleSha).genesisVersionId = zeros := by decide

theorem sample_binding : Binding (objectHashes sampleSha) sampleWorld 1 := by
  intro k hk x hx
  obtain rfl : k = 0 := by omega
  have hid : (sampleWorld.version (objectHashes sampleSha) 1).id = ones := by decide
  rw [hid] at hx
  change sampleSha x = ones at hx
  unfold sampleSha at hx
  split at hx
  · rename_i he
    rw [he]
    show _ = VERSION_DOMAIN ++ (objectHashes sampleSha).genesisVersionId.1 ++ ones.1 ++ text "\x7b\x7d"
    rw [sample_genesis]
  · exact absurd hx (by decide)

/-- A server that sends single bytes is accepted, and binds the root. -/
theorem chain_verification_binds_root_one_version :
    checkChain (objectHashes sampleSha) (serveChain (objectHashes sampleSha) sampleWorld 1) (MAX_CHANGESET + 1) 1
      (sampleWorld.version (objectHashes sampleSha) 1).id ones () =
        some (.ok ([sampleWorld.version (objectHashes sampleSha) 1], ())) := by
  obtain ⟨haccept, _, hbind⟩ := chain_verification_binds_root sampleSha sampleWorld
  have hmax : ∀ version ≤ sampleWorld.last,
      (sampleWorld.version (objectHashes sampleSha) version).changes.length ≤ MAX_CHANGESET := by
    have htext : (text "\x7b\x7d").length ≤ MAX_CHANGESET := by decide
    intro version _
    cases version with
    | zero => exact htext
    | succ n => exact htext
  obtain ⟨s', hrun⟩ := haccept Unit _ (honest_serveChain (objectHashes sampleSha) sampleWorld one_pos) hmax 1
    (le_refl _) ()
  exact (hbind Unit _ 1 (le_refl _) sample_binding _ () s' hrun).2

end Protocol

end Javelin
