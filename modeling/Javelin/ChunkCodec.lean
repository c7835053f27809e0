import Javelin.Bytes
import Javelin.Height

/-! # Encoded chunks

`Chunk.encode` writes a chunk as its level and its items, each a tag, a length, a name and an ID of
32 bytes; `Chunk.decodeBytes` parses it.  The parser accepts exactly the encodings of chunks that
are well formed and whose names are text of at most 65535 bytes (`decodeBytes_eq_ok`).

`Agrees` says of the chunks of one level that the reader takes back what the writer encodes, and
that only the last of them may have one item.  Every level that `buildLevel` cuts, and every level
that `updateLevel` re-cuts, agrees (`writer_and_reader_agree`). -/

namespace Javelin

open KeyedList Bytes

/-- An object ID, 32 bytes. -/
abbrev ObjectId := { s : Str // s.length = 32 }

theorem length_zeros : (List.replicate 32 (0 : UInt8)).length = 32 := rfl

namespace Tag

/-- `CHILD` to `DIR`. -/
def byte : Tag → UInt8
  | child => 0
  | regular => 1
  | executable => 2
  | symlink => 3
  | dir => 4

/-- The tag of a byte; none is above `DIR`. -/
def ofByte : UInt8 → Option Tag
  | 0 => some child
  | 1 => some regular
  | 2 => some executable
  | 3 => some symlink
  | 4 => some dir
  | _ => none

theorem ofByte_eq_some {b : UInt8} {tag : Tag} : ofByte b = some tag ↔ b = tag.byte := by
  constructor
  · intro h
    unfold ofByte at h
    split at h <;> cases h <;> rfl
  · intro h
    subst h
    cases tag <;> rfl

end Tag

/-- The name is text, with a length of two bytes. -/
structure Spelled (n : Name) : Prop where
  text : ofText n.1 ≠ none
  short : n.1.length < 2 ^ 16

/-! ### Items -/

namespace Item

def encode (item : Item ObjectId) : Str :=
  item.tag.byte :: (toBe 2 item.name.1.length ++ item.name.1 ++ item.id.1)

theorem length_encode (item : Item ObjectId) : item.encode.length = item.len := by
  have hid := item.id.2
  unfold encode len ITEM
  rw [List.length_cons, List.length_append, List.length_append, length_toBe, hid]
  omega

/-- The item that starts with `tag`, with a name of `a`, `b` bytes in `tail`, and what follows it. -/
def unpack (level : ℕ) (before : Option Name) (tag a b : UInt8) (tail : Str) :
    Except String (Item ObjectId × Str) :=
  let len := ofBe [a, b]
  if h : tail.length < len + 32 then .error "truncated item"
  else if ofText (tail.take len) = none then .error "name is not UTF-8"
  else match RepoPath.toName (tail.take len) with
    | none => .error "invalid name"
    | some name =>
        if before.any (fun b => decide (name ≤ b)) then .error "names are not strictly ascending"
        else match Tag.ofByte tag with
          | none => .error "tag invalid for level"
          | some tag =>
              if (level == 0) = (tag == .child) then .error "tag invalid for level"
              else .ok (⟨name, tag, ⟨(tail.drop len).take 32, by
                rw [List.length_take, List.length_drop]; omega⟩⟩, tail.drop (len + 32))

/-- An item the reader takes after a name. -/
structure Readable (level : ℕ) (before : Option Name) (item : Item ObjectId) : Prop where
  spelled : Spelled item.name
  after : ∀ b ∈ before, b < item.name
  tag : level = 0 ↔ item.tag ≠ .child

theorem tag_iff {level : ℕ} {tag : Tag} :
    ¬((level == 0) = (tag == .child)) ↔ (level = 0 ↔ tag ≠ .child) := by
  rw [Bool.eq_iff_iff, beq_iff_eq, beq_iff_eq]
  tauto

theorem any_le_iff {before : Option Name} {name : Name} :
    before.any (fun b => decide (name ≤ b)) = true ↔ ¬ ∀ b ∈ before, b < name := by
  cases before with
  | none => simp
  | some b => simp

theorem unpack_encode {level : ℕ} {before : Option Name} {item : Item ObjectId}
    (h : item.Readable level before) (rest : Str) :
    ∃ a b tail, item.encode ++ rest = item.tag.byte :: a :: b :: tail ∧
      unpack level before item.tag.byte a b tail = .ok (item, rest) := by
  have hlen := length_toBe 2 item.name.1.length
  obtain ⟨a, b, hab⟩ := List.length_eq_two.mp hlen
  have hof : ofBe [a, b] = item.name.1.length := by
    rw [← hab]
    exact ofBe_toBe h.spelled.short
  refine ⟨a, b, item.name.1 ++ item.id.1 ++ rest, ?_, ?_⟩
  · unfold encode
    rw [hab]
    simp
  · have hid := item.id.2
    have htail : ¬ (item.name.1 ++ item.id.1 ++ rest).length < item.name.1.length + 32 := by
      rw [List.length_append, List.length_append]
      omega
    have hname : (item.name.1 ++ item.id.1 ++ rest).take item.name.1.length = item.name.1 := by
      rw [List.append_assoc, List.take_left]
    have hdrop : (item.name.1 ++ item.id.1 ++ rest).drop item.name.1.length = item.id.1 ++ rest := by
      rw [List.append_assoc, List.drop_left]
    have htake : (item.id.1 ++ rest).take 32 = item.id.1 := List.take_left' hid
    have hrest : (item.name.1 ++ item.id.1 ++ rest).drop (item.name.1.length + 32) = rest := by
      rw [← List.drop_drop, hdrop, List.drop_left' hid]
    have hafter : ¬ before.any (fun b => decide (item.name ≤ b)) = true := by
      rw [any_le_iff, not_not]
      exact h.after
    have htag := tag_iff.mpr h.tag
    unfold unpack
    simp only [hof]
    rw [dif_neg htail, hname, if_neg h.spelled.text, RepoPath.toName_val]
    simp only [if_neg hafter, Tag.ofByte_eq_some.mpr rfl, if_neg htag, hrest, hdrop, htake]

theorem of_unpack {level : ℕ} {before : Option Name} {tag a b : UInt8} {tail rest : Str}
    {item : Item ObjectId} (h : unpack level before tag a b tail = .ok (item, rest)) :
    item.Readable level before ∧ tag :: a :: b :: tail = item.encode ++ rest := by
  unfold unpack at h
  simp only at h
  split at h
  · cases h
  rename_i hlen
  split at h
  · cases h
  rename_i htext
  cases hname : RepoPath.toName (tail.take (ofBe [a, b])) with
  | none =>
      rw [hname] at h
      cases h
  | some name =>
      rw [hname] at h
      simp only at h
      split at h
      · cases h
      rename_i hafter
      cases htag : Tag.ofByte tag with
      | none =>
          rw [htag] at h
          cases h
      | some tag' =>
          rw [htag] at h
          simp only at h
          split at h
          · cases h
          rename_i hlevel
          injection h with h
          injection h with h1 h2
          subst h1 h2
          have hval : name.1 = tail.take (ofBe [a, b]) := by
            unfold RepoPath.toName at hname
            split at hname
            · injection hname with hname
              rw [← hname]
            · cases hname
          have hab : ofBe [a, b] < 256 ^ 2 := ofBe_lt [a, b]
          have hnl : name.1.length = ofBe [a, b] := by
            rw [hval, List.length_take]
            omega
          rw [any_le_iff, not_not] at hafter
          refine ⟨⟨⟨?_, ?_⟩, hafter, tag_iff.mp hlevel⟩, ?_⟩
          · show ofText name.1 ≠ none
            rw [hval]
            exact htext
          · show name.1.length < 2 ^ 16
            omega
          · have hbe : toBe 2 (ofBe [a, b]) = [a, b] := toBe_ofBe [a, b]
            have hsplit : tail.take (ofBe [a, b]) ++ ((tail.drop (ofBe [a, b])).take 32 ++
                tail.drop (ofBe [a, b] + 32)) = tail := by
              rw [← List.drop_drop, List.take_append_drop, List.take_append_drop]
            show tag :: a :: b :: tail = tag'.byte :: (toBe 2 name.1.length ++ name.1 ++
              (tail.drop (ofBe [a, b])).take 32) ++ tail.drop (ofBe [a, b] + 32)
            rw [hnl, hbe, hval, ← Tag.ofByte_eq_some.mp htag, List.cons_append, List.append_assoc,
              List.append_assoc, hsplit]
            rfl

end Item

/-! ### Chunks -/

/-- The items of `rest`, after the name `before`; every item takes bytes from the bound. -/
def unpackItems (level : ℕ) : ℕ → Option Name → Str → Except String (List (Item ObjectId))
  | 0, _, _ => .error "trailing bytes"
  | bound + 1, before, tag :: a :: b :: tail => do
      let (item, rest) ← Item.unpack level before tag a b tail
      let items ← unpackItems level bound (some item.name) rest
      .ok (item :: items)
  | _ + 1, _, [] => .ok []
  | _ + 1, _, _ => .error "trailing bytes"

/-- Items the reader takes after a name. -/
structure ReadableItems (level : ℕ) (before : Option Name) (items : List (Item ObjectId)) : Prop where
  spelled : ∀ item ∈ items, Spelled item.name
  ascending : Ascending Item.name items
  after : ∀ b ∈ before, ∀ item ∈ items, b < item.name
  tags : ∀ item ∈ items, level = 0 ↔ item.tag ≠ .child

/-- The encodings of the items, one after the other. -/
def encodeItems (items : List (Item ObjectId)) : Str := (items.map Item.encode).flatten

section items
variable {level : ℕ} {before : Option Name} {item : Item ObjectId} {items : List (Item ObjectId)}

theorem readableItems_cons : ReadableItems level before (item :: items) ↔
    item.Readable level before ∧ ReadableItems level (some item.name) items := by
  constructor
  · intro h
    have hasc := ascending_cons.mp h.ascending
    refine ⟨⟨h.spelled item List.mem_cons_self, ?_, h.tags item List.mem_cons_self⟩, ?_, hasc.2, ?_, ?_⟩
    · exact fun b hb => h.after b hb item List.mem_cons_self
    · exact fun i hi => h.spelled i (List.mem_cons_of_mem _ hi)
    · intro b hb i hi
      obtain rfl := Option.some.inj hb
      exact hasc.1 i hi
    · exact fun i hi => h.tags i (List.mem_cons_of_mem _ hi)
  · intro h
    obtain ⟨hitem, h⟩ := h
    have hlt : ∀ i ∈ items, item.name < i.name := h.after item.name rfl
    refine ⟨?_, ascending_cons.mpr ⟨hlt, h.ascending⟩, ?_, ?_⟩
    · exact List.forall_mem_cons.mpr ⟨hitem.spelled, h.spelled⟩
    · intro b hb
      refine List.forall_mem_cons.mpr ⟨hitem.after b hb, fun i hi => ?_⟩
      exact (hitem.after b hb).trans (hlt i hi)
    · exact List.forall_mem_cons.mpr ⟨hitem.tag, h.tags⟩

theorem unpackItems_cons {bound : ℕ} {tag a b : UInt8} {tail rest : Str}
    (h : Item.unpack level before tag a b tail = .ok (item, rest)) :
    unpackItems level (bound + 1) before (tag :: a :: b :: tail) =
      (unpackItems level bound (some item.name) rest >>= fun items => .ok (item :: items)) := by
  rw [unpackItems, h]
  rfl

/-- The reader takes exactly the encodings of readable items. -/
theorem unpackItems_eq_ok {bound : ℕ} {rest : Str} (hb : rest.length < bound) :
    unpackItems level bound before rest = .ok items ↔
      ReadableItems level before items ∧ rest = encodeItems items := by
  induction bound generalizing before rest items with
  | zero => omega
  | succ bound ih =>
      constructor
      · intro h
        match rest, hb, h with
        | [], _, h =>
            injection h with h
            subst h
            exact ⟨⟨by simp, ascending_nil, by simp, by simp⟩, rfl⟩
        | [_], _, h => cases h
        | [_, _], _, h => cases h
        | tag :: a :: b :: tail, hb, h =>
            rw [unpackItems] at h
            cases hu : Item.unpack level before tag a b tail with
            | error why =>
                rw [hu] at h
                cases h
            | ok p =>
                obtain ⟨item, rest'⟩ := p
                rw [hu] at h
                obtain ⟨hitem, hsplit⟩ := Item.of_unpack hu
                have hl := congrArg List.length hsplit
                rw [List.length_append, Item.length_encode] at hl
                have hlen : rest'.length < bound := by
                  unfold Item.len ITEM at hl
                  omega
                cases hi : unpackItems level bound (some item.name) rest' with
                | error why =>
                    change (unpackItems level bound (some item.name) rest' >>= _) = _ at h
                    rw [hi] at h
                    cases h
                | ok items' =>
                    change (unpackItems level bound (some item.name) rest' >>= _) = _ at h
                    rw [hi] at h
                    injection h with h
                    subst h
                    obtain ⟨hread, hrest⟩ := (ih hlen).mp hi
                    refine ⟨readableItems_cons.mpr ⟨hitem, hread⟩, ?_⟩
                    rw [hsplit, hrest]
                    rfl
      · intro h
        obtain ⟨hread, hrest⟩ := h
        cases items with
        | nil =>
            subst hrest
            rfl
        | cons item items =>
            obtain ⟨hitem, hread⟩ := readableItems_cons.mp hread
            obtain ⟨a, b, tail, hsplit, hu⟩ := Item.unpack_encode hitem (encodeItems items)
            have hcons : encodeItems (item :: items) = item.encode ++ encodeItems items := rfl
            rw [hcons] at hrest
            have hl := congrArg List.length hrest
            rw [List.length_append, Item.length_encode] at hl
            have hlen : (encodeItems items).length < bound := by
              unfold Item.len ITEM at hl
              omega
            rw [hrest, hsplit, unpackItems_cons hu, (ih hlen).mpr ⟨hread, rfl⟩]
            rfl

end items

namespace Chunk

def encode (c : Chunk ObjectId) : Str := UInt8.ofNat c.level :: encodeItems c.items

theorem length_encode (c : Chunk ObjectId) : c.encode.length = c.size := by
  have h : ∀ items : List (Item ObjectId), (encodeItems items).length = (items.map Item.len).sum := by
    intro items
    induction items with
    | nil => rfl
    | cons item items ih =>
        have hcons : encodeItems (item :: items) = item.encode ++ encodeItems items := rfl
        rw [hcons, List.length_append, Item.length_encode, ih]
        rfl
  unfold encode size
  rw [List.length_cons, h]
  omega

/-- The parser, with the reason of a refusal. -/
def unpack (bytes : Str) : Except String (Chunk ObjectId) :=
  if MAX_CHUNK < bytes.length then .error "too large"
  else match bytes with
    | [] => .error "empty"
    | level :: rest =>
        if MAX_LEVEL < level.toNat then .error "level too high"
        else do
          let items ← unpackItems level.toNat (rest.length + 1) none rest
          if 0 < level.toNat ∧ items = [] then .error "empty internal chunk"
          else .ok ⟨level.toNat, items⟩

/-- `Chunk::decode` on bytes. -/
def decodeBytes (bytes : Str) : Except (Error ObjectId) (Chunk ObjectId) :=
  match unpack bytes with
  | .ok c => .ok c
  | .error why => .error (.invalidInput ("malformed tree chunk: " ++ why))

theorem unpack_eq_ok {bytes : Str} {c : Chunk ObjectId} : unpack bytes = .ok c ↔
    c.WellFormed ∧ (∀ item ∈ c.items, Spelled item.name) ∧ bytes = c.encode := by
  constructor
  · intro h
    unfold unpack at h
    split at h
    · cases h
    rename_i hsize
    cases bytes with
    | nil => cases h
    | cons level rest =>
        simp only at h
        split at h
        · cases h
        rename_i hlevel
        cases hi : unpackItems level.toNat (rest.length + 1) none rest with
        | error why =>
            rw [hi] at h
            cases h
        | ok items =>
            rw [hi] at h
            change (if 0 < level.toNat ∧ items = [] then _ else _) = _ at h
            split at h
            · cases h
            rename_i hempty
            injection h with h
            subst h
            obtain ⟨hread, hrest⟩ := (unpackItems_eq_ok (Nat.lt_succ_self _)).mp hi
            have hbytes : level :: rest = encode ⟨level.toNat, items⟩ := by
              rw [hrest]
              unfold encode
              rw [UInt8.ofNat_toNat]
            refine ⟨⟨?_, not_lt.mp hlevel, hread.ascending, hread.tags, ?_⟩, hread.spelled, hbytes⟩
            · rw [← length_encode, ← hbytes]
              exact not_lt.mp hsize
            · exact fun hpos hnil => hempty ⟨hpos, hnil⟩
  · intro h
    obtain ⟨hw, hspelled, hbytes⟩ := h
    subst hbytes
    have hlevel : (UInt8.ofNat c.level).toNat = c.level := by
      have hl := hw.level
      have h32 : MAX_LEVEL = 32 := rfl
      rw [UInt8.toNat_ofNat']
      omega
    have hsize : ¬ MAX_CHUNK < c.encode.length := by
      rw [length_encode]
      exact not_lt.mpr hw.size
    have hitems : unpackItems c.level ((encodeItems c.items).length + 1) none (encodeItems c.items) =
        .ok c.items := by
      apply (unpackItems_eq_ok (Nat.lt_succ_self _)).mpr
      exact ⟨⟨hspelled, hw.ascending, by simp, hw.tags⟩, rfl⟩
    unfold unpack
    rw [if_neg hsize]
    unfold encode
    simp only [hlevel, if_neg (not_lt.mpr hw.level), hitems]
    show (if 0 < c.level ∧ c.items = [] then _ else _) = _
    rw [if_neg (fun hp => hw.nonempty hp.1 hp.2)]

/-- The reader accepts exactly the encodings of well-formed chunks with spelled names. -/
theorem decodeBytes_eq_ok {bytes : Str} {c : Chunk ObjectId} : decodeBytes bytes = .ok c ↔
    c.WellFormed ∧ (∀ item ∈ c.items, Spelled item.name) ∧ bytes = c.encode := by
  rw [← unpack_eq_ok]
  unfold decodeBytes
  cases unpack bytes with
  | error why => simp
  | ok d => simp

end Chunk

/-! ### What the writer emits -/

variable {Id : Type}

/-- The item with the bytes of its ID. -/
def Item.withBytes (bytes : Id → ObjectId) (item : Item Id) : Item ObjectId :=
  ⟨item.name, item.tag, bytes item.id⟩

/-- The chunk with the bytes of its IDs. -/
def Chunk.withBytes (bytes : Id → ObjectId) (c : Chunk Id) : Chunk ObjectId :=
  ⟨c.level, c.items.map (Item.withBytes bytes)⟩

theorem Chunk.WellFormed.withBytes {c : Chunk Id} (h : c.WellFormed) (bytes : Id → ObjectId) :
    (c.withBytes bytes).WellFormed where
  size := by
    show 1 + ((c.items.map (Item.withBytes bytes)).map Item.len).sum ≤ MAX_CHUNK
    rw [List.map_map]
    exact h.size
  level := h.level
  ascending := h.ascending.map (fun _ _ => rfl)
  tags := by
    intro item hi
    obtain ⟨item', hi', he⟩ := List.mem_map.mp hi
    subst he
    exact h.tags item' hi'
  nonempty := by
    intro hpos hnil
    exact h.nonempty hpos (List.map_eq_nil_iff.mp hnil)

/-- Items that one level may list: in name order, tagged for the level, with names that are text of
at most `MAX_PATH` bytes. -/
structure Listing (level : ℕ) (items : List (Item Id)) : Prop where
  ascending : Ascending Item.name items
  tags : ∀ item ∈ items, level = 0 ↔ item.tag ≠ .child
  names : ∀ item ∈ items, item.name.1.length ≤ MAX_PATH
  text : ∀ item ∈ items, ofText item.name.1 ≠ none

/-- The reader takes back the chunks of one level as the writer encodes them, and all but the last
have two items. -/
structure Agrees (bytes : Id → ObjectId) (chunks : List (Chunk Id)) : Prop where
  size : ∀ c ∈ chunks, (c.withBytes bytes).encode.length ≤ MAX_CHUNK
  decode : ∀ c ∈ chunks, Chunk.decodeBytes (c.withBytes bytes).encode = .ok (c.withBytes bytes)
  pairs : ∀ pre c post, chunks = pre ++ c :: post → post ≠ [] → 2 ≤ c.items.length

section hashing
variable [Hashing Id] {level : ℕ} {items : List (Item Id)}

/-- The chunks of a level that lists such items pass the decoder. -/
theorem Listing.wellFormed (h : Listing level items) (hl : level ≤ MAX_LEVEL) {c : Chunk Id}
    (hc : c ∈ cutLevel level items) : c.WellFormed where
  size := size_le_of_mem_cutLevel h.names hc
  level := (mem_cutLevel.mp hc).1.trans_le hl
  ascending := (run_cutLevel h.ascending).items hc
  tags := by
    intro item hi
    rw [(mem_cutLevel.mp hc).1]
    apply h.tags
    rw [← chunkItems_cutLevel level items]
    exact mem_chunkItems.mpr ⟨c, hc, hi⟩
  nonempty := fun _ => Cutting.cut_ne_nil (mem_cutLevel.mp hc).2

theorem Listing.agrees (h : Listing level items) (hl : level ≤ MAX_LEVEL) (bytes : Id → ObjectId) :
    Agrees bytes (cutLevel level items) where
  size := by
    intro c hc
    rw [Chunk.length_encode]
    exact ((h.wellFormed hl hc).withBytes bytes).size
  decode := by
    intro c hc
    apply Chunk.decodeBytes_eq_ok.mpr
    refine ⟨(h.wellFormed hl hc).withBytes bytes, ?_, rfl⟩
    intro item hi
    obtain ⟨item', hi', he⟩ := List.mem_map.mp hi
    subst he
    have hmem : item' ∈ items := by
      rw [← chunkItems_cutLevel level items]
      exact mem_chunkItems.mpr ⟨c, hc, hi'⟩
    have hname := h.names item' hmem
    have hmax : MAX_PATH = 4096 := rfl
    refine ⟨h.text item' hmem, ?_⟩
    show item'.name.1.length < 2 ^ 16
    omega
  pairs := by
    intro pre c post hsplit hpost
    obtain ⟨d, post, rfl⟩ := List.exists_cons_of_ne_nil hpost
    have hsplit' : cutLevel level items = (pre ++ [c]) ++ d :: post := by
      rw [hsplit, List.append_assoc]
      rfl
    exact (closed_of_split hsplit' c (by simp)).two_le (chunkEnds_nil level)

/-- What the next level lists. -/
theorem Listing.succ (h : Listing level items) :
    Listing (level + 1) ((cutLevel level items).map Chunk.item) where
  ascending := ascending_map_item (run_cutLevel h.ascending)
  tags := by
    intro item hi
    obtain ⟨c, _, he⟩ := List.mem_map.mp hi
    subst he
    simp [Chunk.item]
  names := by
    intro item hi
    obtain ⟨c, hc, he⟩ := List.mem_map.mp hi
    subst he
    obtain ⟨x, hx, hlast⟩ := Chunk.exists_name_eq_last (Cutting.cut_ne_nil (mem_cutLevel.mp hc).2)
    rw [Chunk.name_item, ← hlast]
    apply h.names
    rw [← chunkItems_cutLevel level items]
    exact mem_chunkItems.mpr ⟨c, hc, hx⟩
  text := by
    intro item hi
    obtain ⟨c, hc, he⟩ := List.mem_map.mp hi
    subst he
    obtain ⟨x, hx, hlast⟩ := Chunk.exists_name_eq_last (Cutting.cut_ne_nil (mem_cutLevel.mp hc).2)
    rw [Chunk.name_item, ← hlast]
    apply h.text
    rw [← chunkItems_cutLevel level items]
    exact mem_chunkItems.mpr ⟨c, hc, hx⟩

/-- What `build_level` lists `k` levels above a level with these items. -/
def itemsAbove (level : ℕ) (items : List (Item Id)) : ℕ → List (Item Id)
  | 0 => items
  | k + 1 => itemsAbove (level + 1) ((cutLevel level items).map Chunk.item) k

/-- The chunks the chunker emits there. -/
def chunksAbove (level : ℕ) (items : List (Item Id)) (k : ℕ) : List (Chunk Id) :=
  let (done, cut) := (Chunker.new (level + k)).pushAll (itemsAbove level items k)
  done ++ cut.finish.toList

theorem chunksAbove_eq (level : ℕ) (items : List (Item Id)) (k : ℕ) :
    chunksAbove level items k = cutLevel (level + k) (itemsAbove level items k) :=
  pushAll_new _ _

theorem chunksAbove_succ (level : ℕ) (items : List (Item Id)) (k : ℕ) :
    chunksAbove (level + 1) ((cutLevel level items).map Chunk.item) k = chunksAbove level items (k + 1) := by
  rw [chunksAbove_eq, chunksAbove_eq, Nat.add_right_comm, Nat.add_assoc]
  rfl

theorem Listing.above (h : Listing level items) (k : ℕ) : Listing (level + k) (itemsAbove level items k) := by
  induction k generalizing level items with
  | zero => exact h
  | succ k ih =>
      have hk := ih h.succ
      rw [Nat.add_right_comm] at hk
      exact hk

theorem itemsAbove_succ (level : ℕ) (items : List (Item Id)) (k : ℕ) :
    itemsAbove level items (k + 1) = (chunksAbove level items k).map Chunk.item := by
  induction k generalizing level items with
  | zero =>
      rw [chunksAbove_eq]
      rfl
  | succ k ih =>
      rw [← chunksAbove_succ, ← ih]
      rfl

end hashing

/-! ### The writing operations -/

section writing
variable {σ : Type} [DecidableEq Id] [Hashing Id] [Store σ Id]

/-- What `build_level` emits from a level with these items, level after level. -/
def Emitted (level : ℕ) (items : List (Item Id)) (c : Chunk Id) : Prop :=
  ∃ k, level + k ≤ MAX_LEVEL ∧ c ∈ chunksAbove level items k

namespace Trees
variable {E : Chunk Id → Prop} {t t' : Trees σ Id}

theorem get_store {id : Id} {c : Chunk Id} (h : get id t = .ok (c, t')) : t'.store = t.store := by
  unfold get chunk at h
  cases hc : t.cached id with
  | some d =>
      rw [hc] at h
      injection h with h
      injection h with _ h
      rw [h]
  | none =>
      rw [hc] at h
      cases hf : fetch t.store id with
      | error e =>
          rw [hf] at h
          cases h
      | ok d =>
          rw [hf] at h
          injection h with h
          injection h with _ h
          rw [← h]
          rfl

theorem shrink_store {bound : ℕ} {root : Id} {dir : Option Id}
    (h : shrink bound root t = .ok (dir, t')) : t'.store = t.store := by
  induction bound generalizing root t with
  | zero => cases h
  | succ bound ih =>
      unfold shrink at h
      obtain ⟨c, t₁, hget, h⟩ := bind_eq_ok h
      have hstore := get_store hget
      have hstay : ∀ {r : Id}, (Pure.pure (some r) : TreesM σ Id (Option Id)) t₁ = .ok (dir, t') →
          t'.store = t.store := by
        intro r h
        injection h with h
        injection h with _ h
        rw [← h, hstore]
      cases hitems : c.items with
      | nil =>
          rw [hitems] at h
          exact hstay h
      | cons item rest =>
          rw [hitems] at h
          cases rest with
          | nil =>
              by_cases hl : c.level = 0
              · simp only [if_pos hl] at h
                exact hstay h
              · simp only [if_neg hl] at h
                rw [ih h, hstore]
          | cons _ _ => exact hstay h

theorem saves_put {c : Chunk Id} {id : Id} (h : put c t = .ok (id, t')) (hE : E c) :
    id = c.id ∧ Saves E t.store t'.store := by
  unfold put at h
  cases hc : t.cached c.id with
  | some d =>
      rw [hc] at h
      injection h with h
      injection h with h1 h2
      rw [← h1, ← h2]
      exact ⟨rfl, .refl _⟩
  | none =>
      rw [hc] at h
      cases hs : Store.save t.store c.id c with
      | error e =>
          rw [hs] at h
          cases h
      | ok s =>
          rw [hs] at h
          injection h with h
          injection h with h1 h2
          rw [← h1, ← h2]
          exact ⟨rfl, .tail (.refl _) hE hs⟩

theorem saves_summaries {cs : List (Chunk Id)} {is : List (Item Id)}
    (h : cs.mapM summary t = .ok (is, t')) (hE : ∀ c ∈ cs, E c) :
    is = cs.map Chunk.item ∧ Saves E t.store t'.store := by
  induction cs generalizing t is with
  | nil =>
      rw [List.mapM_nil] at h
      injection h with h
      injection h with h1 h2
      rw [← h1, ← h2]
      exact ⟨rfl, .refl _⟩
  | cons c cs ih =>
      rw [List.mapM_cons] at h
      obtain ⟨item, t₁, hitem, h⟩ := bind_eq_ok h
      obtain ⟨is', t₂, his, h⟩ := bind_eq_ok h
      unfold summary at hitem
      obtain ⟨id, t₀, hput, hitem⟩ := bind_eq_ok hitem
      obtain ⟨hid, hsaves⟩ := saves_put hput (hE c List.mem_cons_self)
      injection hitem with hitem
      injection hitem with h1 h2
      injection h with h
      injection h with h3 h4
      subst h1 h2 h3 h4 hid
      obtain ⟨his, hsaves'⟩ := ih his (fun d hd => hE d (List.mem_cons_of_mem _ hd))
      rw [his]
      exact ⟨rfl, hsaves.trans hsaves'⟩

theorem saves_top {c : Chunk Id} {dir : Option Id} (h : top c t = .ok (dir, t')) (hE : E c) :
    Saves E t.store t'.store := by
  have hput : ∀ {dir : Option Id}, (do return some (← put c) : TreesM σ Id (Option Id)) t = .ok (dir, t') →
      Saves E t.store t'.store := by
    intro dir h
    obtain ⟨id, t₁, hput, h⟩ := bind_eq_ok h
    injection h with h
    injection h with _ h
    rw [← h]
    exact (saves_put hput hE).2
  unfold top at h
  match c.items, h with
  | [], h => exact hput h
  | [item], h =>
      by_cases hl : 0 < c.level
      · simp only [if_pos hl] at h
        rw [shrink_store h]
        exact .refl _
      · simp only [if_neg hl] at h
        exact hput h
  | _ :: _ :: _, h => exact hput h

/-- `build_level` stores only chunks it emits. -/
theorem saves_buildLevels {bound level : ℕ} {items : List (Item Id)} {dir : Option Id}
    (h : buildLevels bound level items t = .ok (dir, t')) (hb : level + bound = MAX_LEVEL + 1) :
    Saves (Emitted level items) t.store t'.store := by
  induction bound generalizing level items t with
  | zero => cases h
  | succ bound ih =>
      have hzero : ∀ c ∈ cutLevel level items, Emitted level items c := by
        intro c hc
        refine ⟨0, by omega, ?_⟩
        rw [chunksAbove_eq]
        exact hc
      unfold buildLevels at h
      have hcut := pushAll_new level items
      simp only [hcut] at h
      match hcs : cutLevel level items, h with
      | [], h =>
          injection h with h
          injection h with _ h
          rw [← h]
          exact .refl _
      | [c], h => exact saves_top h (hzero c (by rw [hcs]; exact List.mem_cons_self))
      | c :: d :: rest, h =>
          obtain ⟨is, t₁, his, h⟩ := bind_eq_ok h
          rw [← hcs] at his
          obtain ⟨his, hsaves⟩ := saves_summaries his hzero
          subst his
          refine hsaves.trans ((ih h (by omega)).mono ?_)
          intro e he
          obtain ⟨k, hk, hmem⟩ := he
          rw [chunksAbove_succ] at hmem
          exact ⟨k + 1, by omega, hmem⟩

end Trees

/-! ### Agreement -/

variable (σ) in
/-- Every level `build_level` emits agrees, from a level with these items on, and has no more
chunks than half its items; it stores nothing else. -/
structure BuildAgrees (bytes : Id → ObjectId) (level : ℕ) (items : List (Item Id)) : Prop where
  agrees : ∀ k, level + k ≤ MAX_LEVEL → Agrees bytes (chunksAbove level items k)
  halves : ∀ k, 2 * (itemsAbove level items (k + 1)).length ≤ (itemsAbove level items k).length + 1
  saves : ∀ (t t' : Trees σ Id) (dir : Option Id),
    Trees.buildLevel level items t = .ok (dir, t') → Saves (Emitted level items) t.store t'.store

variable {bytes : Id → ObjectId} {level : ℕ} {items : List (Item Id)}

theorem Listing.buildAgrees (h : Listing level items) (hl : level ≤ MAX_LEVEL) :
    BuildAgrees σ bytes level items where
  agrees := by
    intro k hk
    rw [chunksAbove_eq]
    exact (h.above k).agrees hk bytes
  halves := by
    intro k
    rw [itemsAbove_succ, List.length_map, chunksAbove_eq]
    exact length_cutLevel_halves _ _
  saves := by
    intro t t' dir hbuild
    exact Trees.saves_buildLevels hbuild (by omega)

variable [LawfulStore σ Id]

variable (σ) in
/-- Whenever `update_level` turns a level of a stored directory into one that lists these items,
it hands up and stores only chunks of that level, which agree. -/
def UpdateAgrees (bytes : Id → ObjectId) (level : ℕ) (items : List (Item Id)) : Prop :=
  ∀ (t : Trees σ Id) (old : List (Item Id)) (h : ℕ) (root : Chunk Id) (edits : Edits Id),
    Ascending Item.name old → IsRoot old h root → level ≤ h →
    t.Coherent → (∀ j ≤ h, ∀ c ∈ levelChunks old j, t.Has c) →
    Edited edits → mergeEdits Item.name (levelItems old level) edits = items →
    (∀ c ∈ cutLevel level items, Accepts t.store c) →
    ∃ edits' t', Trees.updateLevel root.id level edits t = .ok (edits', t') ∧
      Saves (· ∈ cutLevel level items) t.store t'.store ∧
      (∀ n item, (n, some item) ∈ edits' → ∃ c ∈ cutLevel level items, c.item = item) ∧
      Agrees bytes (cutLevel level items)

variable (σ) in
/-- A directory with these items is never too high to be built or to be reached by an update. -/
structure NeverTooHigh (items : List (Item Id)) : Prop where
  build : ∀ t : Trees σ Id, t.Coherent → (∀ c, Derives 0 items c → Accepts t.store c) →
    ∃ dir t', Trees.buildLevel 0 items t = .ok (dir, t')
  update : ∀ (t : Trees σ Id) (old : List (Item Id)) (h : ℕ) (dir : Option Id) (edits : Edits Id),
    t.Coherent → Rooted t.Has old h dir → Ascending Item.name old → Edited edits →
    mergeEdits Item.name old edits = items → (∀ c, Derives h items c → Accepts t.store c) →
    ∃ dir' t', Trees.update dir edits t = .ok (dir', t')


theorem Listing.updateAgrees (hs : Listing level items) (hl : level ≤ MAX_LEVEL) :
    UpdateAgrees σ bytes level items := by
  intro t old h root edits hold hroot hh ht hhas hed hmerge haccepts
  have hready : Trees.Ready (· ∈ cutLevel level items) t :=
    ⟨ht, fun c hc => hs.wellFormed hl hc, haccepts⟩
  have hne : levelChunks old level ≠ [] := fun hnil => hroot.ne_nil (levelChunks_eq_nil.mp hnil)
  have hwithin : Within ([] : List (Chunk Id)) [] SortedMap.empty := by
    constructor
    · intro d hd
      cases hd
    · intro n hn
      exact absurd rfl hn
  have hcut : cutLevel level (mergeEdits Item.name (chunkItems (levelChunks old level)) edits) =
      cutLevel level items := by
    rw [chunkItems_levelChunks, hmerge]
  have hpost := Trees.post_recutAll (R := fun _ => False) hold hroot hh hready hhas
    (List.nil_append _).symm (le_refl _) hed (by simp) (fun hnil => absurd hnil hne) replaces_nil
    (fun _ => hwithin) (by rw [hcut]; exact fun d hd => hd)
  obtain ⟨out, t', hrun, hstep, hrep, _⟩ := hpost.exists_ok
  rw [hcut, List.nil_append, List.nil_append] at hrep
  refine ⟨out.toList, t', ?_, hstep.saves, ?_, hs.agrees hl bytes⟩
  · unfold Trees.updateLevel
    show (Trees.recutAll root.id level edits.length edits SortedMap.empty t >>= _) = _
    rw [hrun]
    rfl
  · intro n item hitem
    have hl' := hrep n
    rw [SortedMap.get?_eq_some.mpr hitem] at hl'
    exact List.mem_map.mp (mem_of_lookup hl').1

omit [DecidableEq Id] [Hashing Id] in
theorem Listing.clean (h : Listing 0 items) : Clean items where
  ascending := h.ascending
  tags := fun item hi => (h.tags item hi).mp rfl
  names := h.names

theorem Listing.neverTooHigh (h : Listing 0 items) (hl : items.length < 2 ^ 32) :
    NeverTooHigh σ items := by
  have hnot : ¬ TooHigh items := not_tooHigh_of_le (hl.le.trans (by decide))
  have hready : ∀ {n : ℕ} {t : Trees σ Id}, t.Coherent → (∀ c, Derives n items c → Accepts t.store c) →
      Trees.Ready (Derives n items) t := by
    intro n t ht haccepts
    refine ⟨ht, ?_, haccepts⟩
    intro c hc
    obtain ⟨k, hk, hmem, _⟩ := hc
    exact wellFormed_of_mem h.clean hk hmem
  constructor
  · intro t ht haccepts
    have hpost := Trees.post_buildLevel (k := 0) (hready ht haccepts) (Nat.zero_le _)
      (fun j hj => absurd hj (Nat.not_lt_zero j)) (fun _ hd => hd)
    have hok := Trees.Post.mono hpost (fun _ _ _ hq => hq) (fun _ he => hnot he.2)
    obtain ⟨dir, t', hrun, _⟩ := hok.exists_ok
    exact ⟨dir, t', hrun⟩
  · intro t old n dir edits ht hrooted hold hed hmerge haccepts
    have hnew : Ascending Item.name items := h.ascending
    have hpost := Trees.post_update (hready ht haccepts) hrooted hold hnew hed hmerge (fun _ hd => hd)
    have hok := Trees.Post.mono hpost (fun _ _ _ hq => hq) (fun _ he => hnot he.2)
    obtain ⟨dir', t', hrun, _⟩ := hok.exists_ok
    exact ⟨dir', t', hrun⟩

variable (σ) in
/-- The chunk writer and the chunk reader agree, at every level and in every tree they write, and
the reader accepts nothing that the writer would have written otherwise. -/
theorem writer_and_reader_agree (bytes : Id → ObjectId) {level : ℕ} {items : List (Item Id)}
    (hitems : Listing level items) (hlevel : level ≤ MAX_LEVEL) :
    BuildAgrees σ bytes level items ∧ UpdateAgrees σ bytes level items ∧
      (level = 0 → items.length < 2 ^ 32 → NeverTooHigh σ items) ∧
      ∀ b c, Chunk.decodeBytes b = .ok c → c.encode = b := by
  refine ⟨hitems.buildAgrees hlevel, hitems.updateAgrees hlevel, ?_, ?_⟩
  · intro h0 hl
    subst h0
    exact hitems.neverTooHigh hl
  · intro b c hdec
    exact (Chunk.decodeBytes_eq_ok.mp hdec).2.2.symm

end writing

/-- The bytes of a number. -/
def numberBytes (n : ℕ) : ObjectId := ⟨toBe 32 n, length_toBe 32 n⟩

/-- A directory with the file `a`. -/
def listA : List (Item ℕ) := [⟨⟨[97], validName_a⟩, .regular, 0⟩]

theorem listing_listA : Listing 0 listA := by
  have htext : ofText [97] ≠ none := by
    have h : text "a" = [97] := by decide
    rw [← h, ofText_text]
    simp
  exact ⟨ascending_singleton _, by simp [listA], by simp [listA, MAX_PATH], by simpa [listA] using htext⟩

theorem writer_and_reader_agree_one_file : BuildAgrees (MemoryStore ℕ) numberBytes 0 listA ∧
    UpdateAgrees (MemoryStore ℕ) numberBytes 0 listA ∧ NeverTooHigh (MemoryStore ℕ) listA := by
  obtain ⟨hbuild, hupdate, hhigh, _⟩ :=
    writer_and_reader_agree (MemoryStore ℕ) numberBytes listing_listA (Nat.zero_le _)
  exact ⟨hbuild, hupdate, hhigh rfl (by decide)⟩

end Javelin
