import Javelin.TreeContract
import Mathlib.Data.Nat.Bitwise

/-! # The limit on height

A directory of at most `2 ^ 33` entries never needs a level above `MAX_LEVEL`, since every level
at most halves the number of chunks (`not_tooHigh_of_le`).  Names of `LONG` bytes or more reach
the limit: with them every chunk is a pair, so `2 ^ 33` is also the most such a directory may hold
(`tooHigh_of_long`).  `longFiles n` adds `n` files with such names, and `tooTall_longSnapshot`
says that no tree holds more than `2 ^ 33` of them. -/

namespace Javelin

open KeyedList

/-- From this length on, two items always end a chunk. -/
def LONG : ℕ := 1121

section levels
variable {Id : Type} [Hashing Id]

/-- A directory of at most `2 ^ (MAX_LEVEL + 1)` entries is not too high. -/
theorem not_tooHigh_of_le {items : List (Item Id)} (h : items.length ≤ 2 ^ (MAX_LEVEL + 1)) :
    ¬ TooHigh items := by
  have hlevel : ∀ k ≤ MAX_LEVEL, (levelChunks items k).length ≤ 2 ^ (MAX_LEVEL - k) := by
    intro k
    induction k with
    | zero =>
        intro _
        have hhalf := length_cutLevel_halves 0 (levelItems items 0)
        rw [levelItems_zero] at hhalf
        have hpow : 2 ^ (MAX_LEVEL + 1) = 2 * 2 ^ MAX_LEVEL := Nat.pow_succ'
        show (cutLevel 0 items).length ≤ 2 ^ MAX_LEVEL
        omega
    | succ k ih =>
        intro hk
        have hhalf := length_cutLevel_halves (k + 1) (levelItems items (k + 1))
        have hbelow := ih (by omega)
        rw [levelItems_succ, List.length_map, ← levelItems_succ] at hhalf
        have hexp : MAX_LEVEL - k = MAX_LEVEL - (k + 1) + 1 := by omega
        rw [hexp, Nat.pow_succ'] at hbelow
        show (cutLevel (k + 1) (levelItems items (k + 1))).length ≤ _
        omega
  intro hh
  have htop := hlevel MAX_LEVEL (le_refl _)
  have hone := hh MAX_LEVEL (le_refl _)
  rw [Nat.sub_self, Nat.pow_zero] at htop
  omega

/-- A boundary always follows a second item whose length times the chunk size is `SPREAD`. -/
def LongCut (Id : Type) [Hashing Id] : Prop :=
  ∀ level name len size, SPREAD ≤ len * size → Hashing.cutAfter Id level name len size = true

/-- Two items with long names end a chunk. -/
theorem chunkEnds_long (hcut : LongCut Id) {level : ℕ} {a b : Item Id} (ha : LONG ≤ a.name.1.length)
    (hb : LONG ≤ b.name.1.length) : chunkEnds level [a] b = true := by
  have hla : a.len = ITEM + a.name.1.length := rfl
  have hlb : b.len = ITEM + b.name.1.length := rfl
  have hsum : ([a].map Item.len).sum = a.len := by simp
  have h1 : ITEM = 35 := rfl
  have h2 : LONG = 1121 := rfl
  have hprod : 1156 * 2312 ≤ b.len * (a.len + b.len) := Nat.mul_le_mul (by omega) (by omega)
  have hspread : SPREAD ≤ 1156 * 2312 := by decide
  unfold chunkEnds
  rw [hsum]
  simp only [List.isEmpty_cons, Bool.not_false, Bool.true_and, Bool.or_eq_true]
  exact Or.inr (hcut level b.name b.len (a.len + b.len) (hspread.trans hprod))

theorem long_levelItems {items : List (Item Id)} (h : ∀ i ∈ items, LONG ≤ i.name.1.length) (k : ℕ) :
    ∀ i ∈ levelItems items k, LONG ≤ i.name.1.length := by
  induction k with
  | zero => exact h
  | succ k ih =>
      intro i hi
      obtain ⟨d, hd, rfl⟩ := exists_child hi
      obtain ⟨x, hx, hl⟩ := Chunk.exists_name_eq_last (items_ne_nil_of_mem hd)
      rw [Chunk.name_item, ← hl]
      exact ih x (mem_levelItems_of_mem hd hx)

/-- A directory of more than `2 ^ (MAX_LEVEL + 1)` entries with long names is too high. -/
theorem tooHigh_of_long (hcut : LongCut Id) {items : List (Item Id)}
    (hlong : ∀ i ∈ items, LONG ≤ i.name.1.length) (h : 2 ^ (MAX_LEVEL + 1) < items.length) :
    TooHigh items := by
  have hpairs : ∀ k, (levelItems items k).length ≤ 2 * (levelChunks items k).length := by
    intro k
    have hl := long_levelItems hlong k
    unfold levelChunks cutLevel
    rw [List.length_map]
    apply Cutting.length_le_two_mul_cut
    · exact fun x _ => chunkEnds_nil k x
    · exact fun x hx y hy => chunkEnds_long hcut (hl x hx) (hl y hy)
  have hlevel : ∀ k, items.length ≤ 2 ^ (k + 1) * (levelChunks items k).length := by
    intro k
    induction k with
    | zero =>
        have h0 := hpairs 0
        rw [levelItems_zero] at h0
        rw [Nat.zero_add, Nat.pow_one]
        exact h0
    | succ k ih =>
        have hk := hpairs (k + 1)
        rw [levelItems_succ, List.length_map] at hk
        have hmul := Nat.mul_le_mul_left (2 ^ (k + 1)) hk
        have hpow : 2 ^ (k + 1 + 1) * (levelChunks items (k + 1)).length =
            2 ^ (k + 1) * (2 * (levelChunks items (k + 1)).length) := by
          rw [Nat.pow_succ, Nat.mul_assoc]
        omega
  intro k hk
  by_contra hone
  have hk' := hlevel k
  have hle : 2 ^ (k + 1) ≤ 2 ^ (MAX_LEVEL + 1) := Nat.pow_le_pow_right (by decide) (by omega)
  have hmul : 2 ^ (k + 1) * (levelChunks items k).length ≤ 2 ^ (k + 1) * 1 :=
    Nat.mul_le_mul_left _ (by omega)
  omega

end levels

/-! ### Files with long names -/

/-- A name without a forbidden byte is valid once it is longer than `.javelin`. -/
theorem validName_of_long {s : Str} (hl : 8 < s.length) (h : ∀ b ∈ s, b ∉ forbidden) :
    validName s = true := by
  have hne : ∀ t : Str, t.length ≤ 8 → (s != t) = true := by
    intro t ht
    rw [bne_iff_ne]
    rintro rfl
    omega
  have hempty : s.isEmpty = false := by
    cases s with
    | nil => simp at hl
    | cons b s => rfl
  have hdot : eqIgnoreAsciiCase s dotJavelin = false := by
    unfold eqIgnoreAsciiCase
    rw [beq_eq_false_iff_ne]
    intro heq
    have hlen := congrArg List.length heq
    rw [List.length_map, List.length_map] at hlen
    have hd : dotJavelin.length = 8 := rfl
    omega
  have hany : s.any (fun b => forbidden.contains b) = false := by
    rw [List.any_eq_false]
    intro b hb hc
    exact h b hb (by simpa using hc)
  unfold validName
  rw [hempty, hne [46] (by decide), hne [46, 46] (by decide), hdot, hany]
  rfl

/-- The binary digits of a number as bytes. -/
def digits (len i : ℕ) : Str := (List.range len).map (fun j => if i.testBit j then 98 else 97)

theorem digits_injective {len i j : ℕ} (hi : i < 2 ^ len) (hj : j < 2 ^ len)
    (h : digits len i = digits len j) : i = j := by
  apply Nat.eq_of_testBit_eq
  intro k
  by_cases hk : k < len
  · have hbyte := List.map_inj_left.mp h k (List.mem_range.mpr hk)
    by_cases hik : i.testBit k <;> by_cases hjk : j.testBit k
    · rw [hik, hjk]
    · simp [hik, hjk] at hbyte
    · simp [hik, hjk] at hbyte
    · simp [hik, hjk]
  · have hle : 2 ^ len ≤ 2 ^ k := Nat.pow_le_pow_right (by decide) (by omega)
    rw [Nat.testBit_lt_two_pow (lt_of_lt_of_le hi hle), Nat.testBit_lt_two_pow (lt_of_lt_of_le hj hle)]

/-- A number of 34 digits, filled up to 1200 bytes. -/
def longBytes (i : ℕ) : Str := digits 34 i ++ List.replicate 1166 97

theorem length_longBytes (i : ℕ) : (longBytes i).length = 1200 := by
  unfold longBytes digits
  rw [List.length_append, List.length_map, List.length_range, List.length_replicate]

/-- A number of 34 digits as a name of 1200 bytes. -/
def longName (i : ℕ) : Name :=
  ⟨longBytes i, by
    apply validName_of_long
    · rw [length_longBytes]
      decide
    · intro b hb
      rcases List.mem_append.mp hb with hb | hb
      · obtain ⟨j, _, rfl⟩ := List.mem_map.mp hb
        split <;> decide
      · rw [List.eq_of_mem_replicate hb]
        decide⟩

theorem longName_injective {i j : ℕ} (hi : i < 2 ^ 34) (hj : j < 2 ^ 34)
    (h : longName i = longName j) : i = j :=
  digits_injective hi hj (List.append_cancel_right (congrArg Subtype.val h))

/-- A path of one component. -/
def single (n : Name) : RepoPath := ⟨[n]⟩

theorem single_valid {n : Name} (h : n.1.length ≤ MAX_PATH) : (single n).Valid :=
  ⟨by simp [single], by show 1 ≤ MAX_DEPTH; decide, h⟩

/-- The long names below `count`, as the keys of a map. -/
def longKeys (count : ℕ) : List Name := (List.range count).map longName

theorem longKeys_nodup {count : ℕ} (h : count ≤ 2 ^ 34) : (longKeys count).Nodup := by
  apply List.Nodup.map_on _ List.nodup_range
  intro i hi j hj heq
  rw [List.mem_range] at hi hj
  exact longName_injective (by omega) (by omega) heq

/-- The entry of each of these files. -/
def sameFile : FileEntry ℕ := .regular 0 false

/-- The changeset that adds `count` files with long names. -/
def longFiles (count : ℕ) (entry : FileEntry ℕ) : SparseChanges ℕ where
  entries := SortedMap.ofList ((longKeys count).map (fun n => (single n, some entry)))
  valid := by
    intro p hp
    have hkey := SortedMap.mem_keys_ofList hp
    rw [List.map_map, List.mem_map] at hkey
    obtain ⟨n, hn, rfl⟩ := hkey
    obtain ⟨j, _, rfl⟩ := List.mem_map.mp hn
    apply single_valid
    rw [show (longName j).1 = longBytes j from rfl, length_longBytes]
    decide

variable {entry : FileEntry ℕ}

theorem longFiles_flat {count : ℕ} (h : count ≤ 2 ^ 34) (p : List Name) (e : Option (FileEntry ℕ)) :
    (longFiles count entry).flat p = some e ↔ ∃ n ∈ longKeys count, p = [n] ∧ e = some entry := by
  have hnodup : ((((longKeys count).map (fun n => (single n, some entry)))).map Prod.fst).Nodup := by
    rw [List.map_map]
    apply List.Nodup.map _ (longKeys_nodup h)
    intro a b hab
    have hnames := congrArg RepoPath.names hab
    simpa [single] using hnames
  show (SortedMap.ofList _).get? (⟨p⟩ : RepoPath) = some e ↔ _
  rw [SortedMap.get?_ofList hnodup, List.mem_map]
  constructor
  · rintro ⟨n, hn, heq⟩
    rw [Prod.mk.injEq] at heq
    exact ⟨n, hn, (congrArg RepoPath.names heq.1).symm, heq.2.symm⟩
  · rintro ⟨n, hn, rfl, rfl⟩
    exact ⟨n, hn, rfl⟩

/-- The snapshot with these files, alone. -/
def longSnapshot (count : ℕ) (entry : FileEntry ℕ) : Flat (FileEntry ℕ) :=
  Flat.over (fun _ => none) (longFiles count entry).flat

theorem longSnapshot_eq_some {count : ℕ} (h : count ≤ 2 ^ 34) {p : List Name} {e : FileEntry ℕ} :
    longSnapshot count entry p = some e ↔ (∃ n ∈ longKeys count, p = [n]) ∧ e = entry := by
  unfold longSnapshot
  cases hc : (longFiles count entry).flat p with
  | none =>
      rw [Flat.over_of_none hc]
      refine iff_of_false (by simp) ?_
      rintro ⟨⟨n, hn, rfl⟩, _⟩
      have hsome := (longFiles_flat h [n] (some entry)).mpr ⟨n, hn, rfl, rfl⟩
      rw [hc] at hsome
      cases hsome
  | some x =>
      rw [Flat.over_of_some hc]
      obtain ⟨n, hn, rfl, rfl⟩ := (longFiles_flat h p x).mp hc
      constructor
      · rintro ⟨⟩
        exact ⟨⟨n, hn, rfl⟩, rfl⟩
      · rintro ⟨_, rfl⟩
        rfl

/-- No file of the snapshot has a descendant. -/
theorem longSnapshot_prefixFree {count : ℕ} (h : count ≤ 2 ^ 34) :
    (longSnapshot count entry).PrefixFree := by
  intro p hp hs
  rintro ⟨q, hq, hsq⟩
  obtain ⟨e, he⟩ := Option.ne_none_iff_exists'.mp hsq
  obtain ⟨⟨n, _, heq⟩, _⟩ := (longSnapshot_eq_some h).mp he
  have hlen := congrArg List.length heq
  rw [List.length_append, List.length_singleton] at hlen
  have h1 := List.length_pos_iff.mpr hp
  have h2 := List.length_pos_iff.mpr hq
  omega

/-- The items of the snapshot's only directory. -/
def longItems (count : ℕ) (entry : FileEntry ℕ) : List (Item ℕ) :=
  (SortedMap.ofList ((longKeys count).map (fun n => (n, entry)))).toList.map
    (fun e => Item.ofNode e.1 (.file e.2))

theorem longItems_keys {count : ℕ} (h : count ≤ 2 ^ 34) (entry : FileEntry ℕ) :
    (((longKeys count).map (fun n => (n, entry))).map Prod.fst).Nodup := by
  rw [List.map_map]
  exact (List.map_id _).symm ▸ longKeys_nodup h

theorem lookup_longItems {count : ℕ} (h : count ≤ 2 ^ 34) (n : Name) :
    (lookup Item.name n (longItems count entry)).map Item.node =
      if n ∈ longKeys count then some (.file entry) else none := by
  have hlk : lookup Item.name n (longItems count entry) =
      (lookup Prod.fst n (SortedMap.ofList ((longKeys count).map (fun n => (n, entry)))).toList).map
        (fun e => Item.ofNode e.1 (.file e.2)) :=
    lookup_map (fun e => by rw [Item.name_ofNode])
  have hget := SortedMap.get?_ofList (longItems_keys h entry) n
  rw [hlk, Option.map_map]
  unfold SortedMap.get? at hget
  cases hm : lookup Prod.fst n (SortedMap.ofList ((longKeys count).map (fun n => (n, entry)))).toList with
  | none =>
      rw [hm] at hget
      rw [if_neg]
      · rfl
      · intro hn
        have hmem := (hget entry).mpr (List.mem_map.mpr ⟨n, hn, rfl⟩)
        cases hmem
  | some e =>
      rw [hm] at hget
      obtain ⟨m, hm', heq⟩ := List.mem_map.mp ((hget e.2).mp rfl)
      rw [Prod.mk.injEq] at heq
      obtain ⟨rfl, he⟩ := heq
      rw [if_pos hm', Option.map_some, Function.comp_apply, Item.node_ofNode, he]

theorem mem_longItems {count : ℕ} {i : Item ℕ} (hi : i ∈ longItems count entry) :
    i.name ∈ longKeys count ∧ i.tag ≠ .child := by
  obtain ⟨e, he, rfl⟩ := List.mem_map.mp hi
  refine ⟨?_, Item.tag_ofNode _ _⟩
  have hkey := SortedMap.mem_keys_ofList (List.mem_map_of_mem he)
  rw [List.map_map] at hkey
  rw [Item.name_ofNode]
  simpa using hkey

theorem length_name_longKeys {count : ℕ} {n : Name} (h : n ∈ longKeys count) : n.1.length = 1200 := by
  obtain ⟨j, _, rfl⟩ := List.mem_map.mp h
  exact length_longBytes j

theorem length_longItems {count : ℕ} (h : count ≤ 2 ^ 34) :
    (longItems count entry).length = count := by
  have hperm : (SortedMap.ofList ((longKeys count).map (fun n => (n, entry)))).keys.Perm
      (longKeys count) := by
    apply (List.perm_ext_iff_of_nodup (SortedMap.keys_nodup _) (longKeys_nodup h)).mpr
    intro n
    rw [SortedMap.mem_keys, Option.isSome_iff_exists]
    constructor
    · rintro ⟨e, he⟩
      obtain ⟨m, hm, heq⟩ := List.mem_map.mp ((SortedMap.get?_ofList (longItems_keys h entry) n e).mp he)
      rw [Prod.mk.injEq] at heq
      exact heq.1 ▸ hm
    · intro hn
      exact ⟨entry, (SortedMap.get?_ofList (longItems_keys h entry) n _).mpr (List.mem_map.mpr ⟨n, hn, rfl⟩)⟩
  have hlen := hperm.length_eq
  unfold longItems
  rw [List.length_map]
  unfold SortedMap.keys at hlen
  rw [List.length_map] at hlen
  rw [hlen]
  unfold longKeys
  rw [List.length_map, List.length_range]

/-- They all lie at the top. -/
theorem longSnapshot_eq_none {count : ℕ} (h : count ≤ 2 ^ 34) {p : List Name} (hp : p.length ≠ 1) :
    longSnapshot count entry p = none := by
  by_contra hne
  obtain ⟨e, he⟩ := Option.ne_none_iff_exists'.mp hne
  obtain ⟨⟨n, _, rfl⟩, _⟩ := (longSnapshot_eq_some h).mp he
  exact hp rfl

theorem inner_longSnapshot {count : ℕ} (h : count ≤ 2 ^ 34) (n : Name) :
    (Flat.inner (longSnapshot count entry) n).Empty := by
  intro q
  by_cases hq : q = []
  · subst hq; rfl
  · rw [Flat.inner_of_ne hq]
    apply longSnapshot_eq_none h
    have := List.length_pos_iff.mpr hq
    rw [List.length_cons]
    omega

theorem listed_longItems {count : ℕ} (h : count ≤ 2 ^ 34) (sub : Flat (FileEntry ℕ) → ℕ → Prop) :
    Listed sub (longSnapshot count entry) (longItems count entry) := by
  refine ⟨longSnapshot_eq_none h (by simp), ⟨?_, ?_, ?_⟩, fun n => ?_⟩
  · exact (SortedMap.ascending _).map (fun e _ => Item.name_ofNode _ _)
  · exact fun i hi => (mem_longItems hi).2
  · intro i hi
    rw [length_name_longKeys (mem_longItems hi).1]
    decide
  · rw [lookup_longItems h n]
    by_cases hn : n ∈ longKeys count
    · rw [if_pos hn]
      exact ⟨(longSnapshot_eq_some h).mpr ⟨⟨n, hn, rfl⟩, rfl⟩, inner_longSnapshot h n⟩
    · rw [if_neg hn]
      refine ⟨?_, inner_longSnapshot h n⟩
      by_contra hne
      obtain ⟨e, he⟩ := Option.ne_none_iff_exists'.mp hne
      obtain ⟨⟨m, hm, heq⟩, _⟩ := (longSnapshot_eq_some h).mp he
      rw [List.cons.injEq] at heq
      exact hn (heq.1 ▸ hm)

theorem longCut_numbered : LongCut ℕ := fun _ _ _ _ h => boundary_of_spread_le (by decide) h

/-- No tree holds more than `2 ^ 33` files with long names. -/
theorem tooTall_longSnapshot {count : ℕ} (h : count ≤ 2 ^ 34) (hlarge : 2 ^ 33 < count) :
    TooTall MAX_DEPTH (longSnapshot count entry) := by
  refine Or.inl ⟨longItems count entry, listed_longItems h _, ?_⟩
  apply tooHigh_of_long longCut_numbered
  · intro i hi
    rw [length_name_longKeys (mem_longItems hi).1]
    decide
  · rw [length_longItems h]
    exact hlarge

/-- Up to that number they have a tree. -/
theorem not_tooTall_longSnapshot {count : ℕ} (h : count ≤ 2 ^ 33) :
    ¬ TooTall MAX_DEPTH (longSnapshot count entry) := by
  have hcount : count ≤ 2 ^ 34 := by omega
  rintro (⟨items, hl, hh⟩ | ⟨n, hn⟩)
  · have hlong : Listed (SubDir (fun _ => True) (MAX_DEPTH - 1)) (longSnapshot count entry) (longItems count entry) :=
      listed_longItems hcount _
    have hsub : ∀ (T : Flat (FileEntry ℕ)) (a b : ℕ), ¬ T.Empty → SubDir (fun _ => True) (MAX_DEPTH - 1) T a →
        SubDir (fun _ => True) (MAX_DEPTH - 1) T b → a = b := fun _ _ _ _ hd hd' => IsDir.unique hd hd'
    rw [hl.unique hsub hlong] at hh
    refine not_tooHigh_of_le ?_ hh
    rw [length_longItems hcount]
    exact h
  · exact tooTall_empty (inner_longSnapshot hcount n) hn

end Javelin
