import Javelin.ChunkCodec
import Javelin.StatCache

/-! # The stat cache file

`encode` writes a cache, in whatever order its entries come, behind a magic and a count and before a checksum;
`decode` reads it back.  A field is read only if the bytes for it are there, so a count or a length that claims
too much discards the cache and no index is out of range (`Failure`).

`readRecord` reads exactly what `record` writes (`reads_record`), so decoding undoes encoding, and whatever is accepted was encoded
(`cache_round_trip`). -/

namespace Javelin

open KeyedList Bytes

namespace CacheFile

/-- `JVSTAT`, a zero byte and the version. -/
def MAGIC : Str := [74, 86, 83, 84, 65, 84, 0, 50]

/-- Why no cache is read: the code gives up, or an index would be out of range. -/
inductive Failure where
  | discarded
  | outOfRange
deriving DecidableEq

abbrev Entries := List (Str × Cached ObjectId)

/-! ### Writing -/

/-- `to_le_bytes` of an `i128` -/
def toI128 (i : ℤ) : Str := toLe 16 (i % 2 ^ 128).toNat

/-- `from_le_bytes` of an `i128` -/
def ofI128 (bs : Str) : ℤ := if ofLe bs < 2 ^ 127 then ofLe bs else (ofLe bs : ℤ) - 2 ^ 128

def kind : FileEntry ObjectId → UInt8
  | .regular _ false => 0
  | .regular _ true => 1
  | .symlink _ => 2

def flag (trusted : Bool) : UInt8 := if trusted then 1 else 0

def writeStat (s : Stat) : Str :=
  toLe 8 s.size ++ (toI128 s.mtime ++ (toI128 s.ctime ++ (toLe 8 s.ino ++ toLe 4 s.mode)))

def record (e : Str × Cached ObjectId) : Str :=
  toLe 4 e.1.length ++ e.1 ++ (writeStat e.2.stat ++ ([kind e.2.entry, flag e.2.trusted] ++ e.2.entry.content.1))

section encode
variable (digest : Str → { s : Str // s.length = 32 })

/-- What the checksum is over. -/
def body (entries : Entries) : Str := MAGIC ++ (toLe 8 entries.length ++ entries.flatMap record)

/-- `encode` of a map whose iteration gives these entries. -/
def encode (entries : Entries) : Str := body entries ++ (digest (body entries)).1

end encode

/-! ### Reading -/

abbrev Reading := Reader Failure

def readStat : Reading Stat := do
  let size ← readLe .discarded 8
  let mtime ← decoded (take .discarded 16) (fun bs => .ok (ofI128 bs))
  let ctime ← decoded (take .discarded 16) (fun bs => .ok (ofI128 bs))
  let ino ← readLe .discarded 8
  let mode ← readLe .discarded 4
  return ⟨size, mtime, ctime, ino, mode⟩

/-- `flags[i]` -/
def flagAt (flags : Str) (i : ℕ) : Except Failure UInt8 :=
  match flags[i]? with
  | some b => .ok b
  | none => .error .outOfRange

def readId : Reading ObjectId :=
  decoded (take .discarded 32) (fun bs => if h : bs.length = 32 then .ok ⟨bs, h⟩ else .error .discarded)

def entryOf (flags : Str) (id : ObjectId) : Except Failure (FileEntry ObjectId) := do
  let kind ← flagAt flags 0
  if kind = 0 ∨ kind = 1 then return .regular id (decide (kind = 1))
  else if kind = 2 then return .symlink id
  else throw .discarded

def trustedOf (flags : Str) : Except Failure Bool := do
  let trusted ← flagAt flags 1
  if trusted = 0 ∨ trusted = 1 then return decide (trusted = 1) else throw .discarded

/-- A path that is text and valid. -/
def checkPath (path : Str) : Except Failure Str :=
  if ofText path = none then .error .discarded
  else if RepoPath.parse path = none then .error .discarded
  else .ok path

def readRecord : Reading (Str × Cached ObjectId) := do
  let path ← decoded (sized .discarded (readLe .discarded 4)) checkPath
  let stat ← readStat
  let flags ← take .discarded 2
  let id ← readId
  let entry ← entryOf flags id
  let trusted ← trustedOf flags
  return (path, ⟨stat, entry, trusted⟩)

/-- The entries that are left to read. -/
def readEntries : ℕ → CacheEntries ObjectId → Reading (CacheEntries ObjectId)
  | 0, entries => pure entries
  | n + 1, entries => do
      let (path, cached) ← readRecord
      readEntries n (entries.insert path cached)

/-- The body behind its magic. -/
def readBody (input : Str) : Except Failure (CacheEntries ObjectId) := do
  let (count, input) ← readLe .discarded 8 input
  let (entries, input) ← readEntries count SortedMap.empty input
  if input = [] ∧ entries.toList.length = count then return entries else throw .discarded

section decode
variable (digest : Str → { s : Str // s.length = 32 })

def decode (bytes : Str) : Except Failure (CacheEntries ObjectId) :=
  if bytes.length < 32 then .error .discarded
  else
    let (content, sum) := bytes.splitAt (bytes.length - 32)
    if (digest content).1 ≠ sum then .error .discarded
    else if MAGIC.isPrefixOf content then readBody (content.drop MAGIC.length)
    else .error .discarded

end decode

/-! ### Fields -/

/-- The fields fit their types. -/
structure StatFits (s : Stat) : Prop where
  size : s.size < 2 ^ 64
  mtime : -2 ^ 127 ≤ s.mtime ∧ s.mtime < 2 ^ 127
  ctime : -2 ^ 127 ≤ s.ctime ∧ s.ctime < 2 ^ 127
  ino : s.ino < 2 ^ 64
  mode : s.mode < 2 ^ 32

/-- A valid path in text, with fields of their types. -/
structure EntryFits (e : Str × Cached ObjectId) : Prop where
  text : ofText e.1 ≠ none
  path : RepoPath.parse e.1 ≠ none
  stat : StatFits e.2.stat

theorem reads_i128 : Reads (decoded (take Failure.discarded 16) (fun bs => .ok (ofI128 bs))) toI128
    (fun i => -2 ^ 127 ≤ i ∧ i < 2 ^ 127) := by
  apply (reads_take _ 16).decoded
  · intro i hi
    refine ⟨length_toLe 16 _, congrArg Except.ok ?_⟩
    have hlt : (i % 2 ^ 128).toNat < 256 ^ 16 := by
      norm_num
      omega
    unfold ofI128
    rw [ofLe_toLe hlt]
    omega
  · intro bs i hl h
    cases h
    have hlt := ofLe_lt bs
    rw [hl] at hlt
    norm_num at hlt
    have hback : (ofI128 bs % 2 ^ 128).toNat = ofLe bs := by
      unfold ofI128
      split
      · omega
      · omega
    refine ⟨?_, ?_⟩
    · unfold ofI128
      split
      · omega
      · omega
    · rw [hback, ← hl]
      exact toLe_ofLe bs

theorem reads_stat : Reads readStat writeStat StatFits where
  read := by
    intro s h rest
    unfold readStat writeStat
    simp only [List.append_assoc]
    rw [(reads_le _ 8).bind_eq h.size, Reads.bind_eq reads_i128 h.mtime, Reads.bind_eq reads_i128 h.ctime,
      (reads_le _ 8).bind_eq h.ino, (reads_le _ 4).bind_eq h.mode]
    rfl
  sound := by
    intro bytes s rest h
    obtain ⟨size, _, hsize, hbytes, h1⟩ := (reads_le _ 8).bind_eq_ok h
    obtain ⟨mtime, _, hmtime, rfl, h2⟩ := Reads.bind_eq_ok reads_i128 h1
    obtain ⟨ctime, _, hctime, rfl, h3⟩ := Reads.bind_eq_ok reads_i128 h2
    obtain ⟨ino, _, hino, rfl, h4⟩ := (reads_le _ 8).bind_eq_ok h3
    obtain ⟨mode, _, hmode, rfl, h5⟩ := (reads_le _ 4).bind_eq_ok h4
    cases h5
    refine ⟨⟨hsize, hmtime, hctime, hino, hmode⟩, ?_⟩
    rw [hbytes]
    unfold writeStat
    simp only [List.append_assoc]

theorem reads_id : Reads readId (fun id : ObjectId => id.1) (fun _ => True) := by
  apply (reads_take _ 32).decoded
  · intro id _
    exact ⟨id.2, dif_pos id.2⟩
  · intro bs id hl h
    rw [dif_pos hl] at h
    cases h
    exact ⟨trivial, rfl⟩

theorem reads_path : Reads (decoded (sized Failure.discarded (readLe .discarded 4)) checkPath)
    (fun path => toLe 4 path.length ++ path) (fun path => ofText path ≠ none ∧ RepoPath.parse path ≠ none) := by
  apply (reads_sized _ (reads_le _ 4)).decoded
  · intro path h
    obtain ⟨htext, hpath⟩ := h
    unfold checkPath
    rw [if_neg htext, if_neg hpath]
    refine ⟨?_, rfl⟩
    obtain ⟨p, hp⟩ := Option.ne_none_iff_exists'.mp hpath
    obtain ⟨⟨_, _, hlength⟩, hvalue⟩ := RepoPath.parse_eq_ok.mp hp
    rw [hvalue] at hlength
    exact hlength.trans_lt (by decide)
  · intro bs path _ h
    unfold checkPath at h
    split at h
    · cases h
    · rename_i htext
      split at h
      · cases h
      · rename_i hpath
        cases h
        exact ⟨⟨htext, hpath⟩, rfl⟩

/-- The two flags of an entry. -/
theorem flags_eq (e : Cached ObjectId) :
    entryOf [kind e.entry, flag e.trusted] e.entry.content = .ok e.entry ∧
      trustedOf [kind e.entry, flag e.trusted] = .ok e.trusted := by
  obtain ⟨stat, entry, trusted⟩ := e
  constructor
  · cases entry with
    | regular content executable =>
        cases executable with
        | false => rfl
        | true => rfl
    | symlink content => rfl
  · cases trusted with
    | false => rfl
    | true => rfl

theorem flags_of_ok {flags : Str} (hl : flags.length = 2) {id : ObjectId} {entry : FileEntry ObjectId}
    {trusted : Bool} (he : entryOf flags id = .ok entry) (ht : trustedOf flags = .ok trusted) :
    flags = [kind entry, flag trusted] ∧ entry.content = id := by
  obtain ⟨a, b, rfl⟩ := List.length_eq_two.mp hl
  have hb : b = flag trusted := by
    change (if b = 0 ∨ b = 1 then .ok (decide (b = 1)) else .error .discarded : Except Failure Bool) = _ at ht
    split at ht
    · rename_i hflag
      cases ht
      cases hflag with
      | inl h0 => rw [h0]; rfl
      | inr h1 => rw [h1]; rfl
    · cases ht
  change (if a = 0 ∨ a = 1 then .ok (.regular id (decide (a = 1)))
    else if a = 2 then .ok (.symlink id) else .error .discarded : Except Failure (FileEntry ObjectId)) = _ at he
  split at he
  · rename_i hkind
    cases he
    refine ⟨?_, rfl⟩
    rw [hb]
    cases hkind with
    | inl h0 => rw [h0]; rfl
    | inr h1 => rw [h1]; rfl
  · split at he
    · rename_i hkind
      cases he
      rw [hb, hkind]
      exact ⟨rfl, rfl⟩
    · cases he

theorem reads_record : Reads readRecord record EntryFits where
  read := by
    intro e h rest
    obtain ⟨hentry, htrusted⟩ := flags_eq e.2
    unfold readRecord record
    rw [List.append_assoc, Reads.bind_eq reads_path ⟨h.text, h.path⟩, List.append_assoc,
      Reads.bind_eq reads_stat h.stat, List.append_assoc]
    refine ((reads_take _ 2).bind_eq (a := [kind e.2.entry, flag e.2.trusted]) rfl _ _).trans ?_
    rw [Reads.bind_eq reads_id trivial]
    rw [lift_bind_eq hentry, lift_bind_eq htrusted]
    rfl
  sound := by
    intro bytes e rest h
    obtain ⟨path, _, hpath, hbytes, h1⟩ := Reads.bind_eq_ok reads_path h
    obtain ⟨stat, _, hstat, rfl, h2⟩ := Reads.bind_eq_ok reads_stat h1
    obtain ⟨flags, _, hflags, rfl, h3⟩ := (reads_take _ 2).bind_eq_ok h2
    obtain ⟨id, rest', _, rfl, h4⟩ := Reads.bind_eq_ok reads_id h3
    obtain ⟨entry, hentry, h5⟩ := lift_bind_eq_ok h4
    obtain ⟨trusted, htrusted, h6⟩ := lift_bind_eq_ok h5
    cases h6
    obtain ⟨rfl, rfl⟩ := flags_of_ok hflags hentry htrusted
    refine ⟨⟨hpath.1, hpath.2, hstat⟩, ?_⟩
    rw [hbytes]
    unfold record
    simp only [List.append_assoc]
    rfl

/-! ### Entries -/

theorem readEntries_eq {l : Entries} (h : ∀ e ∈ l, EntryFits e) (m : CacheEntries ObjectId) (rest : Str) :
    readEntries l.length m (l.flatMap record ++ rest) =
      .ok (l.foldl (fun m e => m.insert e.1 e.2) m, rest) := by
  induction l generalizing m with
  | nil => rfl
  | cons e l ih =>
      rw [List.length_cons, readEntries, List.flatMap_cons, List.append_assoc,
        Reads.bind_eq reads_record (h e List.mem_cons_self)]
      exact ih (fun e he => h e (List.mem_cons_of_mem _ he)) _

theorem of_readEntries {n : ℕ} {m m' : CacheEntries ObjectId} {bytes rest : Str}
    (h : readEntries n m bytes = .ok (m', rest)) : ∃ l : Entries, l.length = n ∧ (∀ e ∈ l, EntryFits e) ∧
      bytes = l.flatMap record ++ rest ∧ m' = l.foldl (fun m e => m.insert e.1 e.2) m := by
  induction n generalizing m bytes with
  | zero =>
      cases h
      exact ⟨[], rfl, fun e he => (by cases he), rfl, rfl⟩
  | succ n ih =>
      obtain ⟨e, bytes', hfits, rfl, hrest⟩ := Reads.bind_eq_ok reads_record h
      obtain ⟨l, rfl, hall, rfl, rfl⟩ := ih hrest
      refine ⟨e :: l, rfl, fun e' he => ?_, ?_, rfl⟩
      · cases List.mem_cons.mp he with
        | inl he => rw [he]; exact hfits
        | inr he => exact hall e' he
      · rw [List.flatMap_cons, List.append_assoc]

/-! ### Maps and their entries -/

theorem nodup_keys (m : CacheEntries ObjectId) : (m.toList.map Prod.fst).Nodup :=
  List.pairwise_map.mpr (m.ascending.imp (fun hlt => hlt.ne))

/-- Any order of a map's entries gives the map. -/
theorem ofList_of_perm {m : CacheEntries ObjectId} {l : Entries} (h : l.Perm m.toList) :
    SortedMap.ofList l = m := by
  have hnodup : (l.map Prod.fst).Nodup := (h.map Prod.fst).nodup_iff.mpr (nodup_keys m)
  refine SortedMap.ext (fun path => Option.ext (fun cached => ?_))
  rw [SortedMap.get?_ofList hnodup, SortedMap.get?_eq_some]
  exact h.mem_iff

/-- A map with as many entries as went into it has them all. -/
theorem perm_of_length {l : Entries} (h : (SortedMap.ofList l).toList.length = l.length) :
    l.Perm (SortedMap.ofList l).toList := by
  have hkeys : (SortedMap.ofList l).keys.Perm (l.map Prod.fst) := by
    have hsub : (SortedMap.ofList l).keys ⊆ l.map Prod.fst := fun _ hk => SortedMap.mem_keys_ofList hk
    refine ((nodup_keys _).subperm hsub).perm_of_length_le ?_
    rw [List.length_map, List.length_map, h]
  have hnodup : (l.map Prod.fst).Nodup := hkeys.nodup_iff.mp (nodup_keys _)
  refine (List.perm_ext_iff_of_nodup hnodup.of_map (nodup_keys _).of_map).mpr (fun e => ?_)
  rw [← SortedMap.get?_eq_some (k := e.1) (v := e.2), SortedMap.get?_ofList hnodup]

/-! ### No index out of range -/

/-- No index was out of range. -/
def Safe {α : Type} (x : Except Failure α) : Prop := x ≠ .error .outOfRange

/-- Reads no index out of range, whatever the bytes. -/
def Within {α : Type} (r : Reading α) : Prop := ∀ s, Safe (r s)

section safe
variable {α β : Type}

theorem Safe.bind {x : Except Failure α} {f : α → Except Failure β} (hx : Safe x)
    (hf : ∀ a, x = .ok a → Safe (f a)) : Safe (x >>= f) := by
  cases x with
  | ok a => exact hf a rfl
  | error e =>
      intro h
      cases h
      exact hx rfl

theorem Within.bind {r : Reading α} {k : α → Reading β} (hr : Within r)
    (hk : ∀ s a s', r s = .ok (a, s') → Within (k a)) : Within (r >>= k) :=
  fun s => (hr s).bind (fun p hp => hk s p.1 p.2 hp p.2)

theorem within_pure (a : α) : Within (pure a : Reading α) := fun _ h => by cases h

theorem within_lift {x : Except Failure α} (hx : Safe x) : Within (liftM x : Reading α) :=
  fun _ => hx.bind (fun _ _ h => by cases h)

theorem within_take (n : ℕ) : Within (take .discarded n) := by
  intro s h
  unfold take at h
  split at h
  · cases h
  · cases h

theorem within_decoded {r : Reading Str} (hr : Within r) {f : Str → Except Failure α} (hf : ∀ bs, Safe (f bs)) :
    Within (decoded r f) := hr.bind (fun _ bs _ _ => within_lift (hf bs))

theorem within_readLe (w : ℕ) : Within (readLe .discarded w) :=
  within_decoded (within_take w) (fun _ h => by cases h)

theorem within_readStat : Within readStat := by
  have hi128 : Within (decoded (take .discarded 16) (fun bs => .ok (ofI128 bs))) :=
    within_decoded (within_take 16) (fun _ h => by cases h)
  refine (within_readLe 8).bind (fun _ _ _ _ => ?_)
  refine hi128.bind (fun _ _ _ _ => ?_)
  refine hi128.bind (fun _ _ _ _ => ?_)
  refine (within_readLe 8).bind (fun _ _ _ _ => ?_)
  exact (within_readLe 4).bind (fun _ _ _ _ => within_pure _)

theorem safe_flagAt {flags : Str} {i : ℕ} (h : i < flags.length) : Safe (flagAt flags i) := by
  unfold flagAt
  rw [List.getElem?_eq_getElem h]
  exact fun h => by cases h

/-- Both flags are there once two bytes are. -/
theorem within_readRecord : Within readRecord := by
  have hpath : Within (decoded (sized Failure.discarded (readLe .discarded 4)) checkPath) := by
    refine within_decoded ((within_readLe 4).bind (fun _ n _ _ => within_take n)) (fun path h => ?_)
    unfold checkPath at h
    split at h
    · cases h
    · split at h
      · cases h
      · cases h
  have hid : Within readId := by
    refine within_decoded (within_take 32) (fun bs h => ?_)
    split at h
    · cases h
    · cases h
  refine hpath.bind (fun _ _ _ _ => ?_)
  refine within_readStat.bind (fun _ _ _ _ => ?_)
  refine (within_take 2).bind (fun _ flags _ hflags => ?_)
  obtain ⟨_, hl⟩ := take_eq_ok.mp hflags
  refine hid.bind (fun _ _ _ _ => ?_)
  refine (within_lift ((safe_flagAt (by omega)).bind (fun kind _ h => ?_))).bind (fun _ _ _ _ => ?_)
  · split at h
    · cases h
    · split at h
      · cases h
      · cases h
  refine (within_lift ((safe_flagAt (by omega)).bind (fun trusted _ h => ?_))).bind (fun _ _ _ _ => within_pure _)
  split at h
  · cases h
  · cases h

theorem within_readEntries (n : ℕ) (m : CacheEntries ObjectId) : Within (readEntries n m) := by
  induction n generalizing m with
  | zero => exact within_pure m
  | succ n ih => exact within_readRecord.bind (fun _ e _ _ => ih (m.insert e.1 e.2))

theorem safe_readBody (input : Str) : Safe (readBody input) := by
  refine (within_readLe 8 input).bind (fun count _ => ?_)
  refine (within_readEntries count.1 SortedMap.empty count.2).bind (fun entries _ h => ?_)
  dsimp only at h
  split at h
  · cases h
  · cases h

end safe

/-! ### The file -/

theorem readBody_eq {m : CacheEntries ObjectId} (hfits : ∀ e ∈ m.toList, EntryFits e)
    (hcount : m.toList.length < 2 ^ 64) {l : Entries} (hl : l.Perm m.toList) :
    readBody (toLe 8 l.length ++ l.flatMap record) = .ok m := by
  have hcount' : l.length < 256 ^ 8 := by
    rw [hl.length_eq]
    exact hcount.trans_le (by decide)
  have hentries := readEntries_eq (fun e he => hfits e (hl.mem_iff.mp he)) SortedMap.empty []
  rw [List.append_nil] at hentries
  change _ = Except.ok (SortedMap.ofList l, []) at hentries
  rw [ofList_of_perm hl] at hentries
  unfold readBody
  rw [(reads_le Failure.discarded 8).read l.length hcount']
  show (readEntries l.length SortedMap.empty _ >>= _) = _
  rw [hentries]
  show (if [] = ([] : Str) ∧ m.toList.length = l.length then Except.ok m else _) = _
  rw [if_pos ⟨rfl, hl.length_eq.symm⟩]

theorem of_readBody {input : Str} {m : CacheEntries ObjectId} (h : readBody input = .ok m) :
    ∃ l : Entries, l.Perm m.toList ∧ (∀ e ∈ l, EntryFits e) ∧ input = toLe 8 l.length ++ l.flatMap record := by
  unfold readBody at h
  obtain ⟨⟨count, rest⟩, hcount, hread⟩ := except_bind_eq_ok.mp h
  obtain ⟨_, hinput⟩ := (reads_le Failure.discarded 8).sound _ _ _ hcount
  obtain ⟨⟨entries, rest'⟩, hentries, hend⟩ := except_bind_eq_ok.mp hread
  obtain ⟨l, rfl, hfits, rfl, rfl⟩ := of_readEntries hentries
  dsimp only at hend
  split at hend
  · rename_i hall
    cases hend
    refine ⟨l, perm_of_length hall.2, hfits, ?_⟩
    rw [hinput, hall.1, List.append_nil]
  · cases hend

section file
variable (digest : Str → { s : Str // s.length = 32 })

theorem safe_decode (bytes : Str) : Safe (decode digest bytes) := by
  intro h
  unfold decode at h
  split at h
  · cases h
  · dsimp only at h
    split at h
    · cases h
    · split at h
      · exact safe_readBody _ h
      · cases h

theorem decode_encode {m : CacheEntries ObjectId} (hfits : ∀ e ∈ m.toList, EntryFits e)
    (hcount : m.toList.length < 2 ^ 64) {l : Entries} (hl : l.Perm m.toList) :
    decode digest (encode digest l) = .ok m := by
  have hsum := (digest (body l)).2
  have hlength : (encode digest l).length = (body l).length + 32 := by
    unfold encode
    rw [List.length_append, hsum]
  unfold decode
  rw [if_neg (by omega), hlength, Nat.add_sub_cancel]
  unfold encode
  rw [List.splitAt_eq, List.take_left, List.drop_left]
  dsimp only
  rw [if_neg (fun hne => hne rfl)]
  unfold body
  rw [if_pos (List.isPrefixOf_iff_prefix.mpr (List.prefix_append _ _)), List.drop_left]
  exact readBody_eq hfits hcount hl

theorem of_decode {bytes : Str} {m : CacheEntries ObjectId} (h : decode digest bytes = .ok m) :
    ∃ l : Entries, l.Perm m.toList ∧ (∀ e ∈ l, EntryFits e) ∧ encode digest l = bytes := by
  unfold decode at h
  split at h
  · cases h
  · rename_i hlength
    rw [List.splitAt_eq] at h
    dsimp only at h
    split at h
    · cases h
    · rename_i hsum
      rw [not_not] at hsum
      split at h
      · rename_i hmagic
        obtain ⟨input, hinput⟩ := List.isPrefixOf_iff_prefix.mp hmagic
        rw [← hinput, List.drop_left] at h
        obtain ⟨l, hperm, hfits, rfl⟩ := of_readBody h
        refine ⟨l, hperm, hfits, ?_⟩
        change body l = _ at hinput
        unfold encode
        rw [hinput, hsum, List.take_append_drop]
      · cases h

/-- Decoding the encoding of a cache, in any order, gives the cache; and whatever bytes are decoded, they are
discarded or encode the cache they give in the order of the file, and no index is out of range. -/
theorem cache_round_trip :
    (∀ m : CacheEntries ObjectId, (∀ e ∈ m.toList, EntryFits e) → m.toList.length < 2 ^ 64 →
      ∀ l : Entries, l.Perm m.toList → decode digest (encode digest l) = .ok m) ∧
    ∀ bytes, decode digest bytes = .error .discarded ∨
      ∃ m l, decode digest bytes = .ok m ∧ l.Perm m.toList ∧ (∀ e ∈ l, EntryFits e) ∧ encode digest l = bytes := by
  refine ⟨fun m hfits hcount l hl => decode_encode digest hfits hcount hl, fun bytes => ?_⟩
  cases hd : decode digest bytes with
  | error e =>
      cases e with
      | discarded => exact .inl rfl
      | outOfRange => exact absurd hd (safe_decode digest bytes)
  | ok m =>
      obtain ⟨l, hl⟩ := of_decode digest hd
      exact .inr ⟨m, l, rfl, hl⟩

end file

end CacheFile

end Javelin
