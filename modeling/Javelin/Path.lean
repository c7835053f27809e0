import Javelin.KeyedList
import Mathlib.Algebra.Ring.Nat
import Mathlib.Data.List.Lex

/-! # Names and paths

A string is the list of its UTF-8 bytes, ordered bytewise as `str` is.  A `Name` is one path
component with the proof that `validName` accepts it.  A `RepoPath` is kept as its components;
`asStr` writes them with `/` between, and `RepoPath.parse` is the checked constructor, whose
successes are exactly the `Valid` paths (`parse_eq_ok`).

Paths are ordered by their strings, so `descendantRange` bounds exactly the strict descendants
of a path (`inDescendantRange_iff`). -/

namespace Javelin

/-- A string as its UTF-8 bytes. -/
abbrev Str := List UInt8

instance byteOrder : LinearOrder UInt8 where
  le_refl := UInt8.le_refl
  le_trans _ _ _ := UInt8.le_trans
  le_antisymm _ _ := UInt8.le_antisymm
  le_total := UInt8.le_total
  lt_iff_le_not_ge a b := by
    rw [UInt8.lt_iff_toNat_lt, UInt8.le_iff_toNat_le, UInt8.le_iff_toNat_le]; omega
  toDecidableLE := inferInstance
  toDecidableLT := inferInstance

/-- What a rule says of every byte of a string is decided byte by byte. -/
instance decidableBytes (P : UInt8 → Prop) [DecidablePred P] (s : Str) : Decidable (∀ b ∈ s, P b) :=
  List.decidableBAll P s

instance lawfulBEq_str : LawfulBEq Str := inferInstance

/-- Longest repository path in bytes. -/
def MAX_PATH : ℕ := 4096
/-- Most components in one path. -/
def MAX_DEPTH : ℕ := 256

/-- The byte `/`. -/
def slash : UInt8 := 47

def asciiLower (b : UInt8) : UInt8 := if 65 ≤ b ∧ b ≤ 90 then b + 32 else b

def eqIgnoreAsciiCase (a b : Str) : Bool := a.map asciiLower == b.map asciiLower

/-- The bytes of `.javelin`. -/
def dotJavelin : Str := [46, 106, 97, 118, 101, 108, 105, 110]

/-- The bytes `\`, `:`, NUL and `/`, which no component contains. -/
def forbidden : List UInt8 := [92, 58, 0, slash]

/-- One path component: a file or directory name inside its parent. -/
def validName (name : Str) : Bool :=
  !name.isEmpty && name != [46] && name != [46, 46] && !eqIgnoreAsciiCase name dotJavelin &&
    !name.any (fun b => forbidden.contains b)

/-- A component that `validName` accepts. -/
abbrev Name := { s : Str // validName s = true }

theorem validName_a : validName [97] = true := by decide
theorem validName_b : validName [98] = true := by decide

theorem Name.ne_nil (n : Name) : n.1 ≠ [] := by
  intro h
  have := n.2
  simp [validName, h] at this

theorem Name.slash_not_mem (n : Name) : slash ∉ n.1 := by
  intro h
  have := n.2
  simp only [validName, Bool.and_eq_true, Bool.not_eq_true', List.any_eq_false] at this
  exact this.2 slash h (by decide)

/-! ### Component lists and strings -/

/-- The components with `/` between. -/
def joinNames : List Name → Str
  | [] => []
  | [n] => n.1
  | n :: m :: rest => n.1 ++ slash :: joinNames (m :: rest)

theorem joinNames_cons (n : Name) {rest : List Name} (h : rest ≠ []) :
    joinNames (n :: rest) = n.1 ++ slash :: joinNames rest := by
  cases rest with
  | nil => exact absurd rfl h
  | cons m rest => rfl

theorem joinNames_eq_nil {ns : List Name} (h : joinNames ns = []) : ns = [] := by
  match ns, h with
  | [], _ => rfl
  | [n], h => exact absurd h n.ne_nil
  | _ :: _ :: _, h => exact absurd h (List.append_ne_nil_of_right_ne_nil _ (List.cons_ne_nil _ _))

/-- Up to the first `/`, two strings that start with `/`-free parts split alike. -/
theorem append_slash_inj {a b s t : Str} (ha : slash ∉ a) (hb : slash ∉ b)
    (h : a ++ slash :: s = b ++ slash :: t) : a = b ∧ s = t := by
  induction a generalizing b with
  | nil =>
      cases b with
      | nil => simpa using h
      | cons c b =>
          rw [List.nil_append, List.cons_append, List.cons.injEq] at h
          exact absurd (by rw [h.1]; exact List.mem_cons_self) hb
  | cons c a ih =>
      cases b with
      | nil =>
          rw [List.nil_append, List.cons_append, List.cons.injEq] at h
          exact absurd (by rw [← h.1]; exact List.mem_cons_self) ha
      | cons d b =>
          rw [List.cons_append, List.cons_append, List.cons.injEq] at h
          obtain ⟨rfl, rfl⟩ := ih (fun hm => ha (List.mem_cons_of_mem _ hm))
            (fun hm => hb (List.mem_cons_of_mem _ hm)) h.2
          exact ⟨by rw [h.1], rfl⟩

/-- A string that goes on with `/` after a joined path goes on with more components. -/
theorem joinNames_append_slash {ps qs : List Name} {t : Str} (hp : ps ≠ [])
    (h : joinNames ps ++ slash :: t = joinNames qs) :
    ∃ rest, rest ≠ [] ∧ qs = ps ++ rest ∧ t = joinNames rest := by
  induction ps generalizing qs with
  | nil => exact absurd rfl hp
  | cons n ps ih =>
      cases qs with
      | nil => exact absurd h (List.append_ne_nil_of_right_ne_nil _ (List.cons_ne_nil _ _))
      | cons m qs =>
          by_cases hqs : qs = []
          · subst hqs
            refine absurd ?_ m.slash_not_mem
            rw [show joinNames [m] = m.1 from rfl] at h
            rw [← h]
            simp
          rw [joinNames_cons m hqs] at h
          by_cases hps : ps = []
          · subst hps
            obtain ⟨h1, h2⟩ := append_slash_inj n.slash_not_mem m.slash_not_mem h
            obtain rfl := Subtype.ext h1
            exact ⟨qs, hqs, rfl, h2⟩
          rw [joinNames_cons n hps, List.append_assoc] at h
          obtain ⟨h1, h2⟩ := append_slash_inj n.slash_not_mem m.slash_not_mem h
          obtain rfl := Subtype.ext h1
          obtain ⟨rest, hrest, rfl, ht⟩ := ih hps h2
          exact ⟨rest, hrest, rfl, ht⟩

theorem joinNames_append (ps : List Name) {rest : List Name} (hp : ps ≠ []) (hr : rest ≠ []) :
    joinNames (ps ++ rest) = joinNames ps ++ slash :: joinNames rest := by
  induction ps with
  | nil => exact absurd rfl hp
  | cons n ps ih =>
      by_cases hps : ps = []
      · subst hps
        exact joinNames_cons n hr
      · rw [List.cons_append, joinNames_cons n (by simp [hps]), joinNames_cons n hps, ih hps]
        simp

theorem joinNames_injective : Function.Injective joinNames := by
  intro ps
  induction ps with
  | nil => intro qs h; exact (joinNames_eq_nil h.symm).symm
  | cons n ps ih =>
      intro qs h
      cases qs with
      | nil => exact joinNames_eq_nil h
      | cons m qs =>
          by_cases hps : ps = [] <;> by_cases hqs : qs = []
          · subst hps hqs
            exact congrArg (fun x => [x]) (Subtype.ext h)
          · subst hps
            rw [joinNames_cons m hqs] at h
            exact absurd (by rw [show n.1 = _ from h]; simp) n.slash_not_mem
          · subst hqs
            rw [joinNames_cons n hps] at h
            exact absurd (by rw [show m.1 = _ from h.symm]; simp) m.slash_not_mem
          · rw [joinNames_cons n hps, joinNames_cons m hqs] at h
            obtain ⟨h1, h2⟩ := append_slash_inj n.slash_not_mem m.slash_not_mem h
            rw [Subtype.ext h1, ih h2]

/-- The parts of a string between its `/` bytes. -/
def splitSlash : Str → List Str
  | [] => [[]]
  | b :: s =>
      if b = slash then [] :: splitSlash s
      else match splitSlash s with
        | [] => [[b]]
        | part :: parts => (b :: part) :: parts

theorem splitSlash_cons (b : UInt8) (s : Str) :
    splitSlash (b :: s) =
      if b = slash then [] :: splitSlash s
      else match splitSlash s with
        | [] => [[b]]
        | part :: parts => (b :: part) :: parts := rfl

theorem splitSlash_ne_nil (s : Str) : splitSlash s ≠ [] := by
  cases s with
  | nil => exact List.cons_ne_nil _ _
  | cons b s =>
      rw [splitSlash_cons]
      split
      · simp
      · split <;> simp

theorem splitSlash_append {a : Str} (ha : slash ∉ a) (s : Str) :
    splitSlash (a ++ slash :: s) = a :: splitSlash s := by
  induction a with
  | nil => rw [List.nil_append, splitSlash_cons, if_pos rfl]
  | cons b a ih =>
      rw [List.mem_cons, not_or] at ha
      rw [List.cons_append, splitSlash_cons, if_neg (Ne.symm ha.1), ih ha.2]

theorem splitSlash_of_not_mem {a : Str} (ha : slash ∉ a) : splitSlash a = [a] := by
  induction a with
  | nil => rfl
  | cons b a ih =>
      rw [List.mem_cons, not_or] at ha
      rw [splitSlash_cons, if_neg (Ne.symm ha.1), ih ha.2]

theorem splitSlash_joinNames {ns : List Name} (h : ns ≠ []) :
    splitSlash (joinNames ns) = ns.map Subtype.val := by
  induction ns with
  | nil => exact absurd rfl h
  | cons n ns ih =>
      by_cases hns : ns = []
      · subst hns
        exact splitSlash_of_not_mem n.slash_not_mem
      · rw [joinNames_cons n hns, splitSlash_append n.slash_not_mem, ih hns, List.map_cons]

/-- The string from its parts. -/
def joinParts : List Str → Str
  | [] => []
  | [a] => a
  | a :: b :: rest => a ++ slash :: joinParts (b :: rest)

theorem joinParts_splitSlash (s : Str) : joinParts (splitSlash s) = s := by
  induction s with
  | nil => rfl
  | cons b s ih =>
      obtain ⟨part, parts, hs⟩ := List.exists_cons_of_ne_nil (splitSlash_ne_nil s)
      rw [splitSlash_cons]
      rw [hs] at ih ⊢
      split
      · rename_i hb
        rw [joinParts, ih, hb]; rfl
      · cases parts with
        | nil => rw [joinParts] at ih ⊢; rw [ih]
        | cons p ps => rw [joinParts] at ih ⊢; rw [List.cons_append, ih]

theorem joinParts_map_val (ns : List Name) : joinParts (ns.map Subtype.val) = joinNames ns := by
  match ns with
  | [] => rfl
  | [_] => rfl
  | n :: m :: rest =>
      have ih := joinParts_map_val (m :: rest)
      rw [joinNames, ← ih]; rfl

/-! ### Repository paths -/

/-- A slash-separated path, by its components. -/
structure RepoPath where
  names : List Name

namespace RepoPath

theorem names_injective : Function.Injective names := by
  rintro ⟨a⟩ ⟨b⟩ h
  exact congrArg RepoPath.mk h

def asStr (p : RepoPath) : Str := joinNames p.names

theorem asStr_injective : Function.Injective asStr :=
  Function.Injective.comp joinNames_injective names_injective

/-- Paths are ordered as their strings. -/
instance : LinearOrder RepoPath := LinearOrder.lift' asStr asStr_injective

instance lawfulBEq : LawfulBEq RepoPath := inferInstance

theorem lt_iff {p q : RepoPath} : p < q ↔ p.asStr < q.asStr := Iff.rfl

/-- The limits `RepoPath.parse` checks besides the components. -/
def Valid (p : RepoPath) : Prop :=
  p.names ≠ [] ∧ p.names.length ≤ MAX_DEPTH ∧ p.asStr.length ≤ MAX_PATH

instance (p : RepoPath) : Decidable p.Valid := inferInstanceAs (Decidable (_ ∧ _ ∧ _))

def toName (s : Str) : Option Name := if h : validName s = true then some ⟨s, h⟩ else none

@[simp] theorem toName_val (n : Name) : toName n.1 = some n := by
  simp [toName, n.2]

/-- `none` stands for the refusal `invalid repository-relative path`. -/
def parse (value : Str) : Option RepoPath :=
  if value.isEmpty || MAX_PATH < value.length || MAX_DEPTH < (splitSlash value).length then none
  else ((splitSlash value).mapM toName).map RepoPath.mk

theorem mapM_toName_eq_some {parts : List Str} {ns : List Name} :
    parts.mapM toName = some ns ↔ parts = ns.map Subtype.val := by
  induction parts generalizing ns with
  | nil => cases ns <;> simp
  | cons a parts ih =>
      rw [List.mapM_cons]
      constructor
      · intro h
        obtain ⟨n, hn, h⟩ := Option.bind_eq_some_iff.mp h
        obtain ⟨ms, hms, h⟩ := Option.bind_eq_some_iff.mp h
        obtain rfl := Option.some.inj h
        unfold toName at hn
        split at hn
        · obtain rfl := Option.some.inj hn
          rw [List.map_cons, ← ih.mp hms]
        · cases hn
      · intro h
        cases ns with
        | nil => cases h
        | cons n ns =>
            rw [List.map_cons, List.cons.injEq] at h
            rw [h.1, toName_val, ih.mpr h.2]
            rfl

/-- `parse` accepts exactly the strings of valid paths. -/
theorem parse_eq_ok {value : Str} {p : RepoPath} :
    parse value = some p ↔ p.Valid ∧ p.asStr = value := by
  unfold parse
  constructor
  · intro h
    split at h
    · cases h
    rename_i hlim
    obtain ⟨ns, hns, rfl⟩ := Option.map_eq_some_iff.mp h
    rw [mapM_toName_eq_some] at hns
    have hstr : joinNames ns = value := by
      rw [← joinParts_map_val, ← hns, joinParts_splitSlash]
    simp only [Bool.or_eq_true, List.isEmpty_iff, decide_eq_true_eq, not_or, not_lt] at hlim
    rw [hns, List.length_map] at hlim
    refine ⟨⟨?_, hlim.2, ?_⟩, hstr⟩
    · rintro rfl
      exact hlim.1.1 hstr.symm
    · show (joinNames ns).length ≤ MAX_PATH
      rw [hstr]
      exact hlim.1.2
  · rintro ⟨⟨hne, hd, hl⟩, rfl⟩
    have hs : splitSlash p.asStr = p.names.map Subtype.val := splitSlash_joinNames hne
    rw [if_neg, hs, mapM_toName_eq_some.mpr rfl]
    · rfl
    · simp only [Bool.or_eq_true, List.isEmpty_iff, decide_eq_true_eq, not_or, not_lt]
      refine ⟨⟨fun h => hne (joinNames_eq_nil h), hl⟩, ?_⟩
      rw [hs, List.length_map]
      exact hd

/-- Every prefix of a valid path is shorter. -/
theorem length_joinNames_prefix {ps rest : List Name} :
    (joinNames ps).length ≤ (joinNames (ps ++ rest)).length := by
  by_cases hp : ps = []
  · subst hp; simp [joinNames]
  by_cases hr : rest = []
  · subst hr; simp
  rw [joinNames_append ps hp hr, List.length_append]
  omega

theorem Valid.prefix {ps rest : List Name} (h : Valid ⟨ps ++ rest⟩) (hp : ps ≠ []) :
    Valid ⟨ps⟩ := by
  obtain ⟨_, hd, hl⟩ := h
  rw [List.length_append] at hd
  exact ⟨hp, by show ps.length ≤ _; omega, le_trans length_joinNames_prefix hl⟩

/-- Components of a valid path are within the path limit. -/
theorem Valid.length_name {p : RepoPath} (h : p.Valid) {n : Name} (hn : n ∈ p.names) :
    n.1.length ≤ MAX_PATH := by
  refine le_trans ?_ h.2.2
  unfold asStr
  generalize p.names = ns at hn
  induction ns with
  | nil => cases hn
  | cons m ns ih =>
      by_cases hns : ns = []
      · subst hns
        rw [List.mem_singleton] at hn
        subst hn; exact le_refl _
      rw [joinNames_cons m hns, List.length_append, List.length_cons]
      rcases List.mem_cons.mp hn with rfl | hn
      · omega
      · have := ih hn
        omega

/-- Proper ancestor directories, nearest last. -/
def ancestors (p : RepoPath) : List RepoPath :=
  (List.range (p.names.length - 1)).map (fun i => ⟨p.names.take (i + 1)⟩)

theorem mem_ancestors {p a : RepoPath} :
    a ∈ p.ancestors ↔ a.names ≠ [] ∧ ∃ rest, rest ≠ [] ∧ p.names = a.names ++ rest := by
  unfold ancestors
  rw [List.mem_map]
  constructor
  · rintro ⟨i, hi, rfl⟩
    rw [List.mem_range] at hi
    refine ⟨?_, p.names.drop (i + 1), ?_, (List.take_append_drop _ _).symm⟩
    · rw [← List.length_pos_iff, List.length_take]; omega
    · rw [← List.length_pos_iff, List.length_drop]; omega
  · rintro ⟨hne, rest, hr, hp⟩
    have h1 := List.length_pos_iff.mpr hne
    have h2 := List.length_pos_iff.mpr hr
    refine ⟨a.names.length - 1, ?_, ?_⟩
    · rw [List.mem_range, hp, List.length_append]; omega
    · refine names_injective ?_
      show p.names.take (a.names.length - 1 + 1) = a.names
      rw [Nat.sub_add_cancel h1, hp, List.take_left]

/-- Bounds of every path strictly below this one: from `self/` up to `self0`. -/
def descendantRange (p : RepoPath) : Str × Str := (p.asStr ++ [slash], p.asStr ++ [slash + 1])

/-- Whether `q` is in the range a map query with `descendantRange` visits. -/
def inDescendantRange (p q : RepoPath) : Bool :=
  decide (p.descendantRange.1 ≤ q.asStr) && decide (q.asStr < p.descendantRange.2)

theorem between_iff {a s : Str} :
    (a ++ [slash] ≤ s ∧ s < a ++ [slash + 1]) ↔ ∃ t, s = a ++ slash :: t := by
  induction a generalizing s with
  | nil =>
      cases s with
      | nil => simp [slash, List.nil_lt_cons, not_le]
      | cons b s =>
          rw [List.nil_append, List.nil_append, ← not_lt, List.cons_lt_cons_iff,
            List.cons_lt_cons_iff]
          constructor
          · rintro ⟨h1, h2⟩
            rw [not_or] at h1
            have hb : b = slash := by
              rcases h2 with h2 | ⟨_, h2⟩
              · refine le_antisymm ?_ (not_lt.mp h1.1)
                rw [UInt8.lt_iff_toNat_lt] at h2
                rw [UInt8.le_iff_toNat_le]
                simp [slash] at h2 ⊢
                omega
              · exact absurd h2 (by simp)
            exact ⟨s, by rw [hb]; rfl⟩
          · rintro ⟨t, h⟩
            rw [List.nil_append, List.cons.injEq] at h
            obtain ⟨rfl, rfl⟩ := h
            refine ⟨?_, Or.inl (by decide)⟩
            rw [not_or]
            refine ⟨lt_irrefl _, fun h => ?_⟩
            exact absurd h.2 (by simp)
  | cons b a ih =>
      cases s with
      | nil => simp [List.nil_lt_cons, not_le]
      | cons c s =>
          rw [List.cons_append, List.cons_append, ← not_lt, List.cons_lt_cons_iff,
            List.cons_lt_cons_iff, not_or, not_lt]
          constructor
          · rintro ⟨⟨h1, h2⟩, h3⟩
            rcases h3 with h3 | ⟨rfl, h3⟩
            · exact absurd h3 (not_lt.mpr h1)
            · have h4 : ¬ s < a ++ [slash] := fun h => h2 ⟨rfl, h⟩
              obtain ⟨t, rfl⟩ := ih.mp ⟨not_lt.mp h4, h3⟩
              exact ⟨t, rfl⟩
          · rintro ⟨t, h⟩
            rw [List.cons_append, List.cons.injEq] at h
            obtain ⟨rfl, rfl⟩ := h
            obtain ⟨h1, h2⟩ := ih.mpr ⟨t, rfl⟩
            exact ⟨⟨le_refl _, fun h => absurd h.2 (not_lt.mpr h1)⟩, Or.inr ⟨rfl, h2⟩⟩

/-- The range query finds exactly the strict descendants. -/
theorem inDescendantRange_iff {p q : RepoPath} (hp : p.names ≠ []) :
    p.inDescendantRange q = true ↔ ∃ rest, rest ≠ [] ∧ q.names = p.names ++ rest := by
  unfold inDescendantRange descendantRange
  rw [Bool.and_eq_true, decide_eq_true_iff, decide_eq_true_iff, between_iff]
  constructor
  · rintro ⟨t, ht⟩
    obtain ⟨rest, hr, hq, _⟩ := joinNames_append_slash hp ht.symm
    exact ⟨rest, hr, hq⟩
  · rintro ⟨rest, hr, hq⟩
    exact ⟨joinNames rest, by rw [asStr, hq, joinNames_append _ hp hr]; rfl⟩

end RepoPath

end Javelin
