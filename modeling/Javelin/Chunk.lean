import Javelin.Domain
import Javelin.Cutting
import Mathlib.Data.Nat.Notation

/-! # Tree chunks

A directory is a prolly tree over its entries sorted by name.  An `Item` of a leaf names a file
or the root chunk of a subdirectory; above the leaves it names a child chunk by that chunk's last
name.  `Chunk.decode` is the check every stored chunk passes when it is read (`WellFormed`);
`Chunker` cuts one level's items, and is the automaton of `Cutting` (`pushAll_eq`).

`Hashing` holds the two uses of SHA-256: the object ID of a chunk, taken to be injective, and the
boundary test, an arbitrary function of level, name, item length and chunk size.  `boundary` is
the test the library computes from a 32-bit digest of level and name. -/

namespace Javelin

open KeyedList

/-- Expected encoded chunk size in bytes. -/
def TARGET : ℕ := 2048
/-- A chunk is cut once its items reach this many encoded bytes. -/
def FORCE : ℕ := 64 * 1024
/-- Highest chunk level. -/
def MAX_LEVEL : ℕ := 32
/-- Bytes of an item besides its name: tag, name length and ID. -/
def ITEM : ℕ := 35
/-- Upper bound on one encoded chunk. -/
def MAX_CHUNK : ℕ := 1 + FORCE + ITEM + MAX_PATH

/-- The tag byte of an item, `0` to `4`. -/
inductive Tag where
  | child
  | regular
  | executable
  | symlink
  | dir
deriving DecidableEq

/-- What a directory entry names: a file, or a subdirectory by its root chunk. -/
inductive Node (Id : Type) where
  | file (entry : FileEntry Id)
  | dir (id : Id)
deriving DecidableEq

namespace Node
variable {Id : Type}

/-- `Node::file`. -/
def file? : Node Id → Option (FileEntry Id)
  | file entry => some entry
  | dir _ => none

/-- `Node::dir`. -/
def dir? : Node Id → Option Id
  | dir id => some id
  | file _ => none

end Node

structure Item (Id : Type) where
  name : Name
  tag : Tag
  id : Id
deriving DecidableEq

namespace Item
variable {Id : Type}

/-- `Item::new`. -/
def ofNode (name : Name) : Node Id → Item Id
  | .file (.regular content executable) =>
      ⟨name, if executable then .executable else .regular, content⟩
  | .file (.symlink target) => ⟨name, .symlink, target⟩
  | .dir id => ⟨name, .dir, id⟩

def node (item : Item Id) : Node Id :=
  match item.tag with
  | .regular => .file (.regular item.id false)
  | .executable => .file (.regular item.id true)
  | .symlink => .file (.symlink item.id)
  | .child | .dir => .dir item.id

/-- Encoded bytes of the item. -/
def len (item : Item Id) : ℕ := ITEM + item.name.1.length

@[simp] theorem name_ofNode (name : Name) (node : Node Id) : (ofNode name node).name = name := by
  unfold ofNode; split <;> rfl

theorem tag_ofNode (name : Name) (node : Node Id) : (ofNode name node).tag ≠ .child := by
  unfold ofNode; split
  · split <;> simp
  · simp
  · simp

@[simp] theorem node_ofNode (name : Name) (node : Node Id) : (ofNode name node).node = node := by
  match node with
  | .file (.regular content executable) => cases executable <;> rfl
  | .file (.symlink target) => rfl
  | .dir id => rfl

theorem ofNode_node {item : Item Id} (h : item.tag ≠ .child) : ofNode item.name item.node = item := by
  obtain ⟨name, tag, id⟩ := item
  cases tag
  · exact absurd rfl h
  all_goals rfl

end Item

/-- One decoded tree object. -/
structure Chunk (Id : Type) where
  level : ℕ
  items : List (Item Id)
deriving DecidableEq

namespace Chunk
variable {Id : Type}

/-- The last name in this chunk; only chunks with items are asked for it. -/
def last (c : Chunk Id) : Name :=
  match c.items.getLast? with
  | some item => item.name
  | none => ⟨[97], validName_a⟩

/-- The chunk of the empty World, `[0]`. -/
def emptyLeaf : Chunk Id := ⟨0, []⟩

/-- Child chunk IDs, for a chunk above the leaves. -/
def children (c : Chunk Id) : List Id := (c.items.filter (fun item => item.tag = .child)).map Item.id

/-- Directory entries, for a leaf chunk. -/
def entries (c : Chunk Id) : List (Name × Node Id) :=
  (c.items.filter (fun item => item.tag ≠ .child)).map (fun item => (item.name, item.node))

/-- Each child chunk with the last name its parent files it under, above the leaves. -/
def childLinks (c : Chunk Id) : List (Name × Id) :=
  (c.items.filter (fun item => item.tag = .child)).map (fun item => (item.name, item.id))

/-- The child chunk that holds `name` if anything does, for a chunk above the leaves: the first
whose last name is at least `name`. -/
def childFor (c : Chunk Id) (name : Name) : Option (Name × Id) :=
  ((c.items.find? (fun item => decide (name ≤ item.name))).filter (fun item => item.tag = .child)).map
    (fun item => (item.name, item.id))

/-- Bytes of the encoded chunk. -/
def size (c : Chunk Id) : ℕ := 1 + (c.items.map Item.len).sum

/-- The first item that is out of order or whose tag does not fit the level. -/
def itemFault (level : ℕ) : Option Name → List (Item Id) → Option String
  | _, [] => none
  | before, item :: items =>
      if before.any (fun b => decide (item.name ≤ b)) then some "names are not strictly ascending"
      else if (level == 0) = (item.tag == .child) then some "tag invalid for level"
      else itemFault level (some item.name) items

/-- Why `Chunk::decode` refuses the chunk.  Its names are valid by their type. -/
def fault (c : Chunk Id) : Option String :=
  if MAX_CHUNK < c.size then some "too large"
  else if MAX_LEVEL < c.level then some "level too high"
  else match itemFault c.level none c.items with
    | some why => some why
    | none => if 0 < c.level ∧ c.items = [] then some "empty internal chunk" else none

/-- The check on a stored chunk. -/
def decode (c : Chunk Id) : Except (Error Id) (Chunk Id) :=
  match c.fault with
  | some why => .error (.invalidInput ("malformed tree chunk: " ++ why))
  | none => .ok c

/-- What `decode` accepts. -/
structure WellFormed (c : Chunk Id) : Prop where
  size : c.size ≤ MAX_CHUNK
  level : c.level ≤ MAX_LEVEL
  ascending : Ascending Item.name c.items
  tags : ∀ item ∈ c.items, c.level = 0 ↔ item.tag ≠ .child
  nonempty : 0 < c.level → c.items ≠ []

theorem itemFault_eq_none {level : ℕ} {before : Option Name} {items : List (Item Id)} :
    itemFault level before items = none ↔
      Ascending Item.name items ∧ (∀ b ∈ before, ∀ item ∈ items, b < item.name) ∧
        ∀ item ∈ items, level = 0 ↔ item.tag ≠ .child := by
  induction items generalizing before with
  | nil => simp [itemFault]
  | cons item items ih =>
      rw [itemFault, ascending_cons, List.forall_mem_cons]
      have htag : (level == 0) = (item.tag == .child) ↔ ¬(level = 0 ↔ item.tag ≠ .child) := by
        rw [Bool.eq_iff_iff, beq_iff_eq, beq_iff_eq]
        tauto
      split
      · rename_i hb
        cases before with
        | none => simp at hb
        | some b =>
            have hle : item.name ≤ b := by simpa using hb
            simp only [reduceCtorEq, false_iff]
            rintro ⟨_, h, _⟩
            exact absurd (h b rfl item List.mem_cons_self) (not_lt.mpr hle)
      · rename_i hb
        split
        · rename_i ht
          simp only [reduceCtorEq, false_iff]
          rintro ⟨_, _, h, _⟩
          exact htag.mp ht h
        · rename_i ht
          rw [htag, not_not] at ht
          rw [ih]
          constructor
          · rintro ⟨h1, h2, h3⟩
            refine ⟨⟨h2 item.name rfl, h1⟩, ?_, ht, h3⟩
            intro b hbm i hi
            have hlt : b < item.name := by
              rw [Option.mem_def] at hbm
              subst hbm
              simpa using hb
            rcases List.mem_cons.mp hi with rfl | hi
            · exact hlt
            · exact hlt.trans (h2 item.name rfl i hi)
          · rintro ⟨⟨h1, h2⟩, _, _, h3⟩
            refine ⟨h2, ?_, h3⟩
            intro b hbm i hi
            rw [Option.mem_def, Option.some.injEq] at hbm
            subst hbm
            exact h1 i hi

theorem wellFormed_iff {c : Chunk Id} : c.WellFormed ↔ c.fault = none := by
  unfold fault
  constructor
  · intro h
    have hi : itemFault c.level none c.items = none :=
      itemFault_eq_none.mpr ⟨h.ascending, by simp, h.tags⟩
    rw [if_neg (not_lt.mpr h.size), if_neg (not_lt.mpr h.level), hi]
    simp only [ite_eq_right_iff, reduceCtorEq, imp_false, not_and]
    exact h.nonempty
  · intro h
    split at h
    · cases h
    rename_i hs
    split at h
    · cases h
    rename_i hl
    split at h
    · cases h
    rename_i hi
    obtain ⟨ha, _, ht⟩ := itemFault_eq_none.mp hi
    simp only [ite_eq_right_iff, reduceCtorEq, imp_false, not_and] at h
    exact ⟨not_lt.mp hs, not_lt.mp hl, ha, ht, h⟩

instance (c : Chunk Id) : Decidable c.WellFormed := decidable_of_iff _ wellFormed_iff.symm

theorem decode_of_wellFormed {c : Chunk Id} (h : c.WellFormed) : c.decode = .ok c := by
  unfold decode
  rw [wellFormed_iff.mp h]

theorem decode_eq_ok {c d : Chunk Id} : c.decode = .ok d ↔ c.WellFormed ∧ c = d := by
  constructor
  · intro h
    unfold decode at h
    cases hf : c.fault with
    | some why => rw [hf] at h; cases h
    | none =>
        rw [hf] at h
        injection h with h
        exact ⟨wellFormed_iff.mpr hf, h⟩
  · rintro ⟨h, rfl⟩
    exact decode_of_wellFormed h

theorem emptyLeaf_wellFormed : (emptyLeaf : Chunk Id).WellFormed where
  size := by show 1 ≤ MAX_CHUNK; decide
  level := Nat.zero_le _
  ascending := ascending_nil
  tags := by simp [emptyLeaf]
  nonempty := by simp [emptyLeaf]

end Chunk

/-! ### Boundaries -/

/-- `TARGET² · 2/π`. -/
def SPREAD : ℕ := TARGET * TARGET * 7 / 11

/-- The boundary test of the library, from a 32-bit digest of level and name. -/
def boundary (digest : ℕ → Name → ℕ) (level : ℕ) (name : Name) (len size : ℕ) : Bool :=
  decide (digest level name * SPREAD < (len * size) <<< 32)

/-- Once `len · size` reaches `SPREAD` every digest of 32 bits passes the test. -/
theorem boundary_of_spread_le {digest : ℕ → Name → ℕ} {level : ℕ} {name : Name} {len size : ℕ}
    (hd : digest level name < 2 ^ 32) (h : SPREAD ≤ len * size) :
    boundary digest level name len size = true := by
  unfold boundary
  rw [decide_eq_true_iff, Nat.shiftLeft_eq]
  have hpos : 0 < SPREAD := by decide
  calc digest level name * SPREAD < 2 ^ 32 * SPREAD := Nat.mul_lt_mul_of_pos_right hd hpos
    _ ≤ 2 ^ 32 * (len * size) := Nat.mul_le_mul_left _ h
    _ = len * size * 2 ^ 32 := Nat.mul_comm _ _

/-- Object IDs of chunks and the boundary test. -/
class Hashing (Id : Type) where
  /-- `ObjectId::hash` of an encoded chunk. -/
  treeId : Chunk Id → Id
  treeId_injective : Function.Injective treeId
  /-- Whether a boundary follows an item, by level, name, item length and chunk size. -/
  cutAfter : ℕ → Name → ℕ → ℕ → Bool

section hashing
variable {Id : Type} [Hashing Id]

/-- The ID of a chunk. -/
abbrev Chunk.id (c : Chunk Id) : Id := Hashing.treeId c

theorem Chunk.id_inj {c d : Chunk Id} : c.id = d.id ↔ c = d := Hashing.treeId_injective.eq_iff

/-- The root of the empty World. -/
def emptyId : Id := (Chunk.emptyLeaf : Chunk Id).id

/-! ### The chunker -/

/-- Cuts one level's items into chunks. -/
structure Chunker (Id : Type) where
  level : ℕ
  items : List (Item Id)
  size : ℕ

namespace Chunker

def new (level : ℕ) : Chunker Id := ⟨level, [], 0⟩

def isEmpty (cut : Chunker Id) : Bool := cut.items.isEmpty

/-- Adds one item; a chunk comes back when the item ends it.  A chunk holds at least two items. -/
def push (cut : Chunker Id) (item : Item Id) : Option (Chunk Id) × Chunker Id :=
  let size := cut.size + item.len
  let ends := !cut.items.isEmpty &&
    (decide (FORCE ≤ size) || Hashing.cutAfter Id cut.level item.name item.len size)
  let items := cut.items ++ [item]
  if ends then (some ⟨cut.level, items⟩, ⟨cut.level, [], 0⟩) else (none, ⟨cut.level, items, size⟩)

/-- Pushes items in order; returns the chunks they complete. -/
def pushAll (cut : Chunker Id) : List (Item Id) → List (Chunk Id) × Chunker Id
  | [] => ([], cut)
  | item :: items =>
      let (done, cut) := cut.push item
      let (chunks, cut) := cut.pushAll items
      (done.toList ++ chunks, cut)

/-- The open rest as a last chunk. -/
def finish (cut : Chunker Id) : Option (Chunk Id) :=
  if cut.items.isEmpty then none else some ⟨cut.level, cut.items⟩

end Chunker

/-- When an item ends the chunk that `pending` began, as an automaton of `Cutting`. -/
def chunkEnds (level : ℕ) (pending : List (Item Id)) (item : Item Id) : Bool :=
  let size := (pending.map Item.len).sum + item.len
  !pending.isEmpty && (decide (FORCE ≤ size) || Hashing.cutAfter Id level item.name item.len size)

theorem chunkEnds_nil (level : ℕ) (item : Item Id) : chunkEnds level [] item = false := rfl

/-- The chunker holding `pending`. -/
def chunkerOf (level : ℕ) (pending : List (Item Id)) : Chunker Id :=
  ⟨level, pending, (pending.map Item.len).sum⟩

theorem push_chunkerOf (level : ℕ) (pending : List (Item Id)) (item : Item Id) :
    (chunkerOf level pending).push item =
      if chunkEnds level pending item then (some ⟨level, pending ++ [item]⟩, chunkerOf level [])
      else (none, chunkerOf level (pending ++ [item])) := by
  unfold Chunker.push chunkerOf chunkEnds
  simp only [List.map_append, List.map_cons, List.map_nil, List.sum_append, List.sum_cons,
    List.sum_nil, Nat.add_zero]

/-- The chunker is the cutting automaton of its level. -/
theorem pushAll_eq (level : ℕ) (pending items : List (Item Id)) :
    (chunkerOf level pending).pushAll items =
      ((Cutting.feed (chunkEnds level) pending items).1.map (Chunk.mk level),
        chunkerOf level (Cutting.feed (chunkEnds level) pending items).2) := by
  induction items generalizing pending with
  | nil => rfl
  | cons item items ih =>
      rw [Chunker.pushAll, push_chunkerOf, Cutting.feed]
      by_cases h : chunkEnds level pending item = true
      · rw [if_pos h, if_pos h]; simp only [ih]; rfl
      · rw [if_neg h, if_neg h]; simp only [ih]; rfl

omit [Hashing Id] in
theorem finish_chunkerOf (level : ℕ) (pending : List (Item Id)) :
    (chunkerOf level pending).finish.toList = (Cutting.finish pending).map (Chunk.mk level) := by
  unfold Chunker.finish chunkerOf
  cases pending <;> rfl

end hashing

end Javelin
