import Javelin.LineTables
import Javelin.MergeSymmetry

/-! # The resources of a merge

`merge_resolved` on machine words: every `usize` and `u64` computation is checked, lines are matched on flat
tables of 32-bit cells, and the run records when tables were built.  An overflow or an index out of
range would end it (`Halt.fault`).

The limits that were checked before bound the factors of every product (`sideWork_eq`, `linesWork_eq`), so a
run never faults and is the merge of unbounded numbers.  Work is reserved before tables are built, and covers
their cells (`Kept`).  `mergeResolved_accounted` says so for every run, however it ends. -/

namespace Javelin

open KeyedList

namespace Merge

namespace Words

/-! ### Runs -/

/-- What ends a run early. -/
inductive Halt (E : Type) where
  | fault
  | error (e : MergeError E)
deriving DecidableEq

/-- Tables that were built, and the usage at that time. -/
structure Built where
  rows : ℕ
  lines : ℕ
  usage : Usage
deriving DecidableEq

/-- The cells of the prefix table and of the two rows of the suffix table. -/
def Built.cells (t : Built) : ℕ := (t.rows + 1) * (t.lines + 1) + 2 * (t.lines + 1)

/-- The caller's state, the usage, and the tables that were built so far. -/
structure Machine (σ : Type) where
  caller : σ
  usage : Usage
  built : List Built

abbrev WordM (σ E : Type) := ExceptT (Halt E) (StateM (Machine σ))

/-- A manifest in memory, where an entry takes more than eight bytes. -/
def InMemory (Id : Type) := { m : Manifest Id // m.entries.keys.length ≤ 2 ^ 61 }

section definitions
variable {σ E : Type}

/-- A `u64` or `usize`. -/
def u64 (n : ℕ) : Except (Halt E) ℕ := if n < 2 ^ 64 then .ok n else .error .fault

/-- `saturating_add` -/
def saturatingAdd (x y : ℕ) : ℕ := min (x + y) (2 ^ 64 - 1)

/-- A check of the source's, as a computation on words. -/
def lower {α : Type} : Except (MergeError E) α → Except (Halt E) α
  | .ok a => .ok a
  | .error e => .error (.error e)

def check (resource : Resource) (required : ℕ) : Except (Halt E) Unit := lower (resource.check required)

def reserve (usage : Usage) (units : ℕ) : Except (Halt E) Usage := do
  let required := saturatingAdd usage.workUnits units
  check .work required
  return { usage with workUnits := required }

def loaded (usage : Usage) (bytes : ℕ) : Except (Halt E) Usage := do
  check .blobBytes bytes
  let required := saturatingAdd usage.loadedBytes bytes
  check .loadedBytes required
  let usage' ← reserve usage (← u64 ((← u64 (4 * bytes)) + 32))
  return { usage' with loadedBytes := required }

/-! ### Paths -/

/-- The loop over all paths: their bytes, and the work they cost. -/
def admitPath (total : ℕ × ℕ) (path : RepoPath) : Except (Halt E) (ℕ × ℕ) := do
  let len := path.asStr.length
  check .pathBytes len
  let bytes ← u64 (total.1 + len)
  check .totalPathBytes bytes
  let work ← u64 ((← u64 (64 * (← u64 (len + 1)))) * (← u64 (len + 1)))
  return (bytes, ← u64 (total.2 + work))

def admission {Id : Type} (base ours theirs : InMemory Id) : Except (Halt E) Usage := do
  let entries ← u64 ((← u64 (base.1.entries.keys.length + ours.1.entries.keys.length)) +
    theirs.1.entries.keys.length)
  check .entries entries
  let total ← (base.1.entries.keys ++ ours.1.entries.keys ++ theirs.1.entries.keys).foldlM admitPath (0, 0)
  reserve ⟨0, 0⟩ total.2

/-! ### Lines -/

def countLines (bytes : Str) : Except (Halt E) ℕ :=
  u64 (bytes.count 10 + if bytes ≠ [] ∧ bytes.getLast? ≠ some 10 then 1 else 0)

/-- The work so far and that of matching one side. -/
def sideWork (work n b m o : ℕ) : Except (Halt E) ℕ := do
  let cells ← u64 ((← u64 (n + 1)) * (← u64 (m + 1)))
  check .tableCells cells
  let table ← u64 (5 * cells)
  let equal ← u64 (3 * min (← u64 (n * o)) (← u64 (m * b)))
  let sum ← u64 (table + equal)
  let linear ← u64 (4 * (← u64 ((← u64 (n + m)) + 1)))
  let side ← u64 (sum + linear)
  u64 (work + side)

/-- `n + m + k + b + o + t` -/
def textSize (n m k b o t : ℕ) : Except (Halt E) ℕ := do
  let counts ← u64 ((← u64 (n + m)) + k)
  u64 ((← u64 ((← u64 (counts + b)) + o)) + t)

def linesWork (base ours theirs : Str) : Except (Halt E) ℕ := do
  let n ← countLines base
  check .lines n
  let m ← countLines ours
  check .lines m
  let k ← countLines theirs
  check .lines k
  let b := base.length
  let o := ours.length
  let t := theirs.length
  let work ← sideWork 0 n b m o
  let work ← sideWork work n b k t
  let scans ← u64 (n * (← textSize n m k b o t))
  let output ← u64 (16 * (← u64 ((← textSize n m k b o t) + 1)))
  let region ← u64 (scans + output)
  u64 (work + region)

/-- `diff3` from two matchings. -/
def diff3By {α : Type} [DecidableEq α] (base ours theirs : List α) (a b : List (Option ℕ) × List Bool) :
    Option (List α) := do
  let steps ← steps base ours theirs (anchors 0 a.1 b.1) 0 0 0
  join base (fun i => base[i]?.any (unique base ours theirs) && (a.2.getD i false && b.2.getD i false))
    steps none false

variable {Id : Type}

/-- A computation that leaves the machine alone. -/
def compute {α : Type} (x : Except (Halt E) α) : WordM σ E α := fun s => (x, s)

/-- Counts usage. -/
def spend (f : Usage → Except (Halt E) Usage) : WordM σ E Unit := fun s =>
  match f s.usage with
  | .ok usage => (.ok (), { s with usage := usage })
  | .error e => (.error e, s)

/-- Steps that neither compute on words nor build tables. -/
def lift {α : Type} (x : MergeM σ E α) : WordM σ E α := fun s =>
  match x (s.caller, s.usage) with
  | .ok (a, caller, usage) => (.ok a, ⟨caller, usage, s.built⟩)
  | .error e => (.error (.error e), s)

/-- The tables of `matches` are allocated. -/
def allocate (rows lines : ℕ) : WordM σ E Unit := fun s =>
  (.ok (), { s with built := s.built ++ [⟨rows, lines, s.usage⟩] })

/-- `matches` -/
def matchLines (base other : List Str) : WordM σ E (List (Option ℕ) × List Bool) := do
  allocate base.length other.length
  compute (match LineTables.matchRows base other with
    | some found => .ok found
    | none => .error .fault)

def mergeLines (base ours theirs : Str) : WordM σ E (Option Str) := do
  let work ← compute (linesWork base ours theirs)
  spend (fun usage => reserve usage work)
  let a ← matchLines (lines base) (lines ours)
  let b ← matchLines (lines base) (lines theirs)
  return (diff3By (lines base) (lines ours) (lines theirs) a b).map List.flatten

/-! ### One path -/

def boundedLoad (load : Id → Caller σ E Str) (id : Id) : WordM σ E Str := do
  let bytes ← lift (call (load id))
  spend (fun usage => loaded usage bytes.length)
  return bytes

def mergeContent (load : Id → Caller σ E Str) (base ours theirs : Id) (executable : Bool) :
    WordM σ E (Path Id) := do
  let b ← boundedLoad load base
  let o ← boundedLoad load ours
  let t ← boundedLoad load theirs
  if 0 ∈ b ∨ 0 ∈ o ∨ 0 ∈ t then return .unresolved .binary
  else
    match ← mergeLines b o t with
    | some bytes => return .resolved (.content bytes executable)
    | none => return .unresolved .content

variable [DecidableEq Id]

def mergePath (load : Id → Caller σ E Str) (sides : Sides Id) : WordM σ E (Path Id) :=
  if sides.ours = sides.theirs ∨ sides.theirs = sides.base then return take sides.ours
  else if sides.ours = sides.base then return take sides.theirs
  else
    match sides.base, sides.ours, sides.theirs with
    | some (.regular b bx), some (.regular o ox), some (.regular t tx) =>
        let executable := if ox = bx then tx else ox
        if o = t ∨ t = b then return .resolved (.retained (.regular o executable))
        else if o = b then return .resolved (.retained (.regular t executable))
        else mergeContent load b o t executable
    | some _, some _, some _ => return .unresolved .entryType
    | none, _, _ => return .unresolved .addAdd
    | _, _, _ => return .unresolved .modifyDelete

/-! ### All paths -/

def mergeRow (load : Id → Caller σ E Str) (base ours theirs : Manifest Id) (path : RepoPath) :
    WordM σ E (Row Id) := do
  let sides := sidesOf base ours theirs path
  let result ← mergePath load sides
  return ⟨path, result, sides⟩

def threeWay (load : Id → Caller σ E Str) (base ours theirs : Manifest Id) : WordM σ E (List (Row Id)) := do
  let rows ← (allPaths base ours theirs).mapM (mergeRow load base ours theirs)
  return rows.map (Row.withPartner (partnersOf base ours theirs))

/-- What follows the admission of the paths. -/
def mergeAdmitted (base ours theirs : Manifest Id) (choices : SortedMap RepoPath Choice)
    (aliases : List RepoPath → Caller σ E (List RepoPath)) (load : Id → Caller σ E Str) :
    WordM σ E (MergeOutcome Id) := do
  let rows ← threeWay load base ours theirs
  let usage ← lift (fun s => .ok (s.2, s))
  let (rows, applied, analysis) ← lift (settle choices aliases choices.toList.length rows [])
  return outcomeOf choices (partnersOf base ours theirs) usage rows applied analysis

/-- `merge_resolved` -/
def mergeResolved (base ours theirs : InMemory Id) (choices : SortedMap RepoPath Choice)
    (aliases : List RepoPath → Caller σ E (List RepoPath)) (load : Id → Caller σ E Str) :
    WordM σ E (MergeOutcome Id) := do
  spend (fun _ => admission base ours theirs)
  mergeAdmitted base.1 ours.1 theirs.1 choices aliases load

end definitions

/-! ### Nothing overflows -/

section computations
variable {E : Type}

theorem u64_of_lt {n : ℕ} (h : n < 2 ^ 64) : (u64 n : Except (Halt E) ℕ) = .ok n := if_pos h

theorem lower_bind {α β : Type} (x : Except (MergeError E) α) (f : α → Except (MergeError E) β) :
    lower (x >>= f) = lower x >>= fun a => lower (f a) := by
  cases x <;> rfl

/-- After a check that both computations make, the number is within the limit. -/
theorem check_bind {α : Type} {resource : Resource} {n : ℕ} {f : Unit → Except (Halt E) α}
    {g : Unit → Except (MergeError E) α} (h : n ≤ resource.limit → f () = lower (g ())) :
    check resource n >>= f = lower (resource.check n >>= g) := by
  rw [lower_bind]
  unfold check
  cases hc : (resource.check n : Except (MergeError E) Unit) with
  | error e => rfl
  | ok u => exact h (check_eq_ok.mp hc)

variable {usage : Usage} {n m b o : ℕ}

theorem saturatingAdd_of_lt {x y : ℕ} (h : x + y < 2 ^ 64) : saturatingAdd x y = x + y := by
  unfold saturatingAdd
  omega

theorem reserve_eq (h : usage.workUnits + n < 2 ^ 64) :
    (reserve usage n : Except (Halt E) Usage) = lower (usage.reserve n) := by
  unfold reserve Usage.reserve
  rw [saturatingAdd_of_lt h]
  exact check_bind (fun _ => rfl)

theorem loaded_eq (hwork : usage.workUnits ≤ Resource.work.limit)
    (hloaded : usage.loadedBytes ≤ Resource.loadedBytes.limit) (n : ℕ) :
    (loaded usage n : Except (Halt E) Usage) = lower (usage.loaded n) := by
  have hwork' : usage.workUnits ≤ 536870912 := hwork
  have hloaded' : usage.loadedBytes ≤ 8388608 := hloaded
  unfold loaded Usage.loaded
  refine check_bind fun hn => ?_
  have hn' : n ≤ 1048576 := hn
  rw [saturatingAdd_of_lt (by omega)]
  refine check_bind fun _ => ?_
  rw [except_bind_of_ok (u64_of_lt (by omega)), except_bind_of_ok (u64_of_lt (by omega)),
    reserve_eq (by omega), lower_bind]
  rfl

/-! ### Paths -/

/-- The most work of one path. -/
def PATH_WORK : ℕ := 64 * 1025 * 1025

theorem admitPath_eq {total : ℕ × ℕ} (hbytes : total.1 ≤ Resource.totalPathBytes.limit)
    (hwork : total.2 ≤ 4096 * PATH_WORK) (path : RepoPath) :
    (admitPath total path : Except (Halt E) (ℕ × ℕ)) = lower (Merge.admitPath total path) := by
  have hbytes' : total.1 ≤ 131072 := hbytes
  have hwork' : total.2 ≤ 4096 * (64 * 1025 * 1025) := hwork
  unfold admitPath Merge.admitPath
  refine check_bind fun hlen => ?_
  have hlen' : path.asStr.length + 1 ≤ 1025 := Nat.succ_le_succ hlen
  have hsquare : 64 * (path.asStr.length + 1) * (path.asStr.length + 1) ≤ 64 * 1025 * 1025 :=
    Nat.mul_le_mul (Nat.mul_le_mul_left 64 hlen') hlen'
  rw [except_bind_of_ok (u64_of_lt (by omega))]
  refine check_bind fun _ => ?_
  rw [except_bind_of_ok (u64_of_lt (by omega)), except_bind_of_ok (u64_of_lt (by omega)),
    except_bind_of_ok (u64_of_lt (by omega)), except_bind_of_ok (u64_of_lt (by omega)),
    except_bind_of_ok (u64_of_lt (by omega))]
  rfl

theorem of_admitPath {total total' : ℕ × ℕ} {path : RepoPath}
    (h : (Merge.admitPath total path : Except (MergeError E) (ℕ × ℕ)) = .ok total') :
    total'.1 ≤ Resource.totalPathBytes.limit ∧ total'.2 ≤ total.2 + PATH_WORK := by
  obtain ⟨_, hlen, h⟩ := except_bind_eq_ok.mp h
  obtain ⟨_, hbytes, h⟩ := except_bind_eq_ok.mp h
  obtain rfl := Except.ok.inj h
  have hlen' : path.asStr.length + 1 ≤ 1025 := Nat.succ_le_succ (check_eq_ok.mp hlen)
  exact ⟨check_eq_ok.mp hbytes,
    Nat.add_le_add_left (Nat.mul_le_mul (Nat.mul_le_mul_left 64 hlen') hlen') total.2⟩

/-- The loop over at most 4096 paths. -/
theorem admitPaths_eq {paths : List RepoPath} {total : ℕ × ℕ} (hbytes : total.1 ≤ Resource.totalPathBytes.limit)
    (hwork : total.2 + paths.length * PATH_WORK ≤ 4096 * PATH_WORK) :
    (paths.foldlM admitPath total : Except (Halt E) (ℕ × ℕ)) = lower (paths.foldlM Merge.admitPath total) ∧
      ∀ total', (paths.foldlM Merge.admitPath total : Except (MergeError E) (ℕ × ℕ)) = .ok total' →
        total'.2 ≤ 4096 * PATH_WORK := by
  induction paths generalizing total with
  | nil =>
      refine ⟨rfl, fun total' h => ?_⟩
      obtain rfl := Except.ok.inj h
      exact (Nat.le_add_right _ _).trans hwork
  | cons path paths ih =>
      rw [List.length_cons, Nat.succ_mul] at hwork
      have hfirst : (admitPath total path : Except (Halt E) (ℕ × ℕ)) = lower (Merge.admitPath total path) :=
        admitPath_eq hbytes (by omega) path
      rw [List.foldlM_cons, List.foldlM_cons, hfirst, lower_bind]
      cases hok : (Merge.admitPath total path : Except (MergeError E) (ℕ × ℕ)) with
      | error e => exact ⟨rfl, fun total' h => by cases h⟩
      | ok next =>
          obtain ⟨hbytes', hwork'⟩ := of_admitPath hok
          exact ih hbytes' (by omega)

/-- The limits that are checked before any path is merged. -/
theorem admission_eq {Id : Type} [DecidableEq Id] (base ours theirs : InMemory Id) :
    (admission base ours theirs : Except (Halt E) Usage) = lower (Merge.admission base.1 ours.1 theirs.1) := by
  have hbase := base.2
  have hours := ours.2
  have htheirs := theirs.2
  unfold admission Merge.admission
  rw [except_bind_of_ok (u64_of_lt (by omega)), except_bind_of_ok (u64_of_lt (by omega))]
  dsimp only
  rw [List.length_append, List.length_append]
  refine check_bind fun hcount => ?_
  have hcount' : (base.1.entries.keys ++ ours.1.entries.keys ++ theirs.1.entries.keys).length ≤ 4096 := by
    rw [List.length_append, List.length_append]
    exact hcount
  obtain ⟨hpaths, hwork⟩ := @admitPaths_eq E (base.1.entries.keys ++ ours.1.entries.keys ++ theirs.1.entries.keys)
    (0, 0) (Nat.zero_le _) (by rw [Nat.zero_add]; exact Nat.mul_le_mul_right PATH_WORK hcount')
  rw [hpaths, lower_bind]
  cases htotal : ((base.1.entries.keys ++ ours.1.entries.keys ++ theirs.1.entries.keys).foldlM Merge.admitPath
      (0, 0) : Except (MergeError E) (ℕ × ℕ)) with
  | error e => rfl
  | ok total =>
      have hle : total.2 ≤ 4096 * (64 * 1025 * 1025) := hwork total htotal
      exact reserve_eq (show 0 + total.2 < 2 ^ 64 by omega)

/-! ### Lines -/

theorem countLines_eq {bytes : Str} (h : bytes.length ≤ Resource.blobBytes.limit) :
    (countLines bytes : Except (Halt E) ℕ) = .ok (Merge.countLines bytes) := by
  have h' : bytes.length ≤ 1048576 := h
  have hcount := List.count_le_length (a := (10 : UInt8)) (l := bytes)
  unfold countLines Merge.countLines
  apply u64_of_lt
  split <;> omega

theorem sideWork_eq {work : ℕ} (hn : n ≤ Resource.lines.limit) (hm : m ≤ Resource.lines.limit)
    (hb : b ≤ Resource.blobBytes.limit) (ho : o ≤ Resource.blobBytes.limit) (hwork : work ≤ 2 ^ 40) :
    (sideWork work n b m o : Except (Halt E) ℕ) =
      lower (Merge.sideWork n b m o) >>= fun side => .ok (work + side) := by
  have hn' : n ≤ 8192 := hn
  have hm' : m ≤ 8192 := hm
  have hcells : (n + 1) * (m + 1) ≤ 8193 * 8193 := Nat.mul_le_mul (Nat.succ_le_succ hn) (Nat.succ_le_succ hm)
  have hno : n * o ≤ 8192 * 1048576 := Nat.mul_le_mul hn ho
  have hmb : m * b ≤ 8192 * 1048576 := Nat.mul_le_mul hm hb
  unfold sideWork Merge.sideWork
  rw [except_bind_of_ok (u64_of_lt (by omega)), except_bind_of_ok (u64_of_lt (by omega)),
    except_bind_of_ok (u64_of_lt (by omega)), lower_bind]
  unfold check
  cases hc : (Resource.tableCells.check ((n + 1) * (m + 1)) : Except (MergeError E) Unit) with
  | error e => rfl
  | ok u =>
      show (u64 (5 * ((n + 1) * (m + 1))) >>= _) = _
      rw [except_bind_of_ok (u64_of_lt (by omega)), except_bind_of_ok (u64_of_lt (by omega)),
        except_bind_of_ok (u64_of_lt (by omega)), except_bind_of_ok (u64_of_lt (by omega)),
        except_bind_of_ok (u64_of_lt (by omega)), except_bind_of_ok (u64_of_lt (by omega)),
        except_bind_of_ok (u64_of_lt (by omega)), except_bind_of_ok (u64_of_lt (by omega)),
        except_bind_of_ok (u64_of_lt (by omega))]
      exact u64_of_lt (by omega)

theorem textSize_eq {k t : ℕ} (h : n + m + k + b + o + t < 2 ^ 64) :
    (textSize n m k b o t : Except (Halt E) ℕ) = .ok (n + m + k + b + o + t) := by
  unfold textSize
  rw [except_bind_of_ok (u64_of_lt (by omega)), except_bind_of_ok (u64_of_lt (by omega)),
    except_bind_of_ok (u64_of_lt (by omega)), except_bind_of_ok (u64_of_lt (by omega))]
  exact u64_of_lt h

theorem side_le {side : ℕ} (hn : n ≤ Resource.lines.limit) (hm : m ≤ Resource.lines.limit)
    (ho : o ≤ Resource.blobBytes.limit)
    (h : (Merge.sideWork n b m o : Except (MergeError E) ℕ) = .ok side) : side ≤ 2 ^ 39 := by
  have hn' : n ≤ 8192 := hn
  have hm' : m ≤ 8192 := hm
  have hno : n * o ≤ 8192 * 1048576 := Nat.mul_le_mul hn ho
  obtain ⟨hcells, rfl⟩ := sideWork_eq_ok.mp h
  have hcells' : (n + 1) * (m + 1) ≤ 4194304 := hcells
  omega

/-- The work of merging three loaded texts. -/
theorem linesWork_eq {base ours theirs : Str} (hb : base.length ≤ Resource.blobBytes.limit)
    (ho : ours.length ≤ Resource.blobBytes.limit) (ht : theirs.length ≤ Resource.blobBytes.limit) :
    (linesWork base ours theirs : Except (Halt E) ℕ) = lower (Merge.linesWork base ours theirs) := by
  have hb' : base.length ≤ 1048576 := hb
  have ho' : ours.length ≤ 1048576 := ho
  have ht' : theirs.length ≤ 1048576 := ht
  unfold linesWork Merge.linesWork
  rw [except_bind_of_ok (countLines_eq hb)]
  refine check_bind fun hn => ?_
  rw [except_bind_of_ok (countLines_eq ho)]
  refine check_bind fun hm => ?_
  rw [except_bind_of_ok (countLines_eq ht)]
  refine check_bind fun hk => ?_
  generalize Merge.countLines base = n at hn ⊢
  generalize Merge.countLines ours = m at hm ⊢
  generalize Merge.countLines theirs = k at hk ⊢
  have hn' : n ≤ 8192 := hn
  have hm' : m ≤ 8192 := hm
  have hk' : k ≤ 8192 := hk
  dsimp only
  rw [sideWork_eq hn hm hb ho (Nat.zero_le _), lower_bind]
  cases hfirst : (Merge.sideWork n base.length m ours.length : Except (MergeError E) ℕ) with
  | error e => rfl
  | ok first =>
      have hle := side_le hn hm ho hfirst
      show (sideWork (0 + first) n base.length k theirs.length >>= _) = _
      rw [sideWork_eq hn hk hb ht (by omega)]
      show _ = lower (Merge.sideWork n base.length k theirs.length >>= _)
      rw [lower_bind]
      cases hsecond : (Merge.sideWork n base.length k theirs.length : Except (MergeError E) ℕ) with
      | error e => rfl
      | ok second =>
          have hle' := side_le hn hk ht hsecond
          have hscans : n * (n + m + k + base.length + ours.length + theirs.length) ≤ 8192 * 4000000 :=
            Nat.mul_le_mul hn (by omega)
          show (textSize n m k base.length ours.length theirs.length >>= _) = _
          rw [except_bind_of_ok (textSize_eq (by omega)), except_bind_of_ok (u64_of_lt (by omega)),
            except_bind_of_ok (textSize_eq (by omega)), except_bind_of_ok (u64_of_lt (by omega)),
            except_bind_of_ok (u64_of_lt (by omega)), except_bind_of_ok (u64_of_lt (by omega)),
            u64_of_lt (by omega)]
          show Except.ok _ = Except.ok _
          congr 1
          omega

theorem linesWork_le {base ours theirs : Str} (hb : base.length ≤ Resource.blobBytes.limit)
    (ho : ours.length ≤ Resource.blobBytes.limit) (ht : theirs.length ≤ Resource.blobBytes.limit) {work : ℕ}
    (h : (Merge.linesWork base ours theirs : Except (MergeError E) ℕ) = .ok work) : work ≤ 2 ^ 41 := by
  have hb' : base.length ≤ 1048576 := hb
  have ho' : ours.length ≤ 1048576 := ho
  have ht' : theirs.length ≤ 1048576 := ht
  unfold Merge.linesWork at h
  simp only [except_bind_eq_ok, check_eq_ok] at h
  obtain ⟨_, hn, _, hm, _, hk, first, hfirst, second, hsecond, hwork⟩ := h
  obtain rfl := Except.ok.inj hwork
  have hn' : Merge.countLines base ≤ 8192 := hn
  have hm' : Merge.countLines ours ≤ 8192 := hm
  have hk' : Merge.countLines theirs ≤ 8192 := hk
  have hle := side_le hn hm ho hfirst
  have hle' := side_le hn hk ht hsecond
  have hscans : Merge.countLines base * (Merge.countLines base + Merge.countLines ours +
      Merge.countLines theirs + base.length + ours.length + theirs.length) ≤ 8192 * 4000000 :=
    Nat.mul_le_mul hn (by omega)
  omega

end computations

/-! ### Work covers the tables -/

/-- The cells of all tables that were built. -/
def allocated (built : List Built) : ℕ := (built.map Built.cells).sum

theorem allocated_concat (built : List Built) (t : Built) :
    allocated (built ++ [t]) = allocated built + t.cells := by
  unfold allocated
  rw [List.map_append, List.sum_append]
  simp

/-- Tables that were built after others, when all limits had admitted them. -/
structure Admitted (earlier : List Built) (t : Built) : Prop where
  rows : t.rows ≤ Resource.lines.limit
  lines : t.lines ≤ Resource.lines.limit
  cells : (t.rows + 1) * (t.lines + 1) ≤ Resource.tableCells.limit
  reserved : allocated (earlier ++ [t]) ≤ t.usage.workUnits
  work : t.usage.workUnits ≤ Resource.work.limit
  loaded : t.usage.loadedBytes ≤ Resource.loadedBytes.limit

/-- What a run keeps: usage is within the limits, work covers the tables, and all were admitted. -/
structure Kept {σ : Type} (s : Machine σ) : Prop where
  work : s.usage.workUnits ≤ Resource.work.limit
  loaded : s.usage.loadedBytes ≤ Resource.loadedBytes.limit
  covered : allocated s.built ≤ s.usage.workUnits
  admitted : ∀ earlier t later, s.built = earlier ++ t :: later → Admitted earlier t

section accounts
variable {σ E α β : Type} {x : WordM σ E α} {y : MergeM σ E α} {s s' : Machine σ} {P Q : α → Prop}

theorem Kept.spend (h : Kept s) (usage : Usage) (hwork : usage.workUnits ≤ Resource.work.limit)
    (hloaded : usage.loadedBytes ≤ Resource.loadedBytes.limit) (hle : s.usage.workUnits ≤ usage.workUnits)
    (caller : σ) : Kept ⟨caller, usage, s.built⟩ :=
  ⟨hwork, hloaded, h.covered.trans hle, h.admitted⟩

/-- Tables are admitted while the reserved work covers them too. -/
theorem Kept.allocate (h : Kept s) {n m : ℕ} (hn : n ≤ Resource.lines.limit) (hm : m ≤ Resource.lines.limit)
    (hcells : (n + 1) * (m + 1) ≤ Resource.tableCells.limit)
    (hwork : allocated s.built + Built.cells ⟨n, m, s.usage⟩ ≤ s.usage.workUnits) :
    Kept { s with built := s.built ++ [⟨n, m, s.usage⟩] } := by
  refine ⟨h.work, h.loaded, by rw [allocated_concat]; exact hwork, fun earlier t later heq => ?_⟩
  by_cases hlast : later = []
  · subst hlast
    obtain ⟨rfl, hsingle⟩ := List.append_inj' heq rfl
    obtain rfl := (List.cons.inj hsingle).1
    exact ⟨hn, hm, hcells, by rw [allocated_concat]; exact hwork, h.work, h.loaded⟩
  · obtain ⟨later', last, rfl⟩ := List.eq_nil_or_concat later |>.resolve_left hlast
    have heq' : s.built ++ [⟨n, m, s.usage⟩] = (earlier ++ t :: later') ++ [last] := by
      refine heq.trans ?_
      rw [List.concat_eq_append, List.append_assoc]
      rfl
    exact h.admitted earlier t later' (List.append_inj' heq' rfl).1

/-- `x` does on words what `y` does on unbounded numbers, and keeps the accounts however it ends. -/
def Accounts (x : WordM σ E α) (y : MergeM σ E α) (Q : α → Prop) : Prop :=
  ∀ s, Kept s → match y (s.caller, s.usage) with
    | .ok (a, caller, usage) => Q a ∧ ∃ built, x s = (.ok a, ⟨caller, usage, built⟩) ∧ Kept ⟨caller, usage, built⟩
    | .error e => ∃ s', x s = (.error (.error e), s') ∧ Kept s'

theorem bind_of_ok {f : α → WordM σ E β} {a : α} (h : x s = (.ok a, s')) : (x >>= f) s = f a s' := by
  show (match x s with
    | (v, s') => ExceptT.bindCont f v s') = _
  rw [h]
  rfl

theorem bind_of_error {f : α → WordM σ E β} {e : Halt E} (h : x s = (.error e, s')) :
    (x >>= f) s = (.error e, s') := by
  show (match x s with
    | (v, s') => ExceptT.bindCont f v s') = _
  rw [h]
  rfl

theorem Accounts.pure {a : α} (h : Q a) : Accounts (Pure.pure a : WordM σ E α) (Pure.pure a) Q :=
  fun s hs => ⟨h, s.built, rfl, hs⟩

theorem Accounts.bind {f : α → WordM σ E β} {g : α → MergeM σ E β} {R : β → Prop} (h : Accounts x y Q)
    (hf : ∀ a, Q a → Accounts (f a) (g a) R) : Accounts (x >>= f) (y >>= g) R := by
  intro s hs
  have hrun := h s hs
  have hbind : (y >>= g) (s.caller, s.usage) = y (s.caller, s.usage) >>= fun r => g r.1 r.2 := rfl
  rw [hbind]
  cases hy : y (s.caller, s.usage) with
  | error e =>
      rw [hy] at hrun
      obtain ⟨s', hx, hkept⟩ := hrun
      exact ⟨s', bind_of_error hx, hkept⟩
  | ok r =>
      obtain ⟨a, caller, usage⟩ := r
      rw [hy] at hrun
      obtain ⟨ha, built, hx, hkept⟩ := hrun
      have hrest := hf a ha _ hkept
      show match g a (caller, usage) with
        | .ok (b, caller, usage) => R b ∧ ∃ built, (x >>= f) s = (.ok b, ⟨caller, usage, built⟩) ∧ Kept _
        | .error e => ∃ s', (x >>= f) s = (.error (.error e), s') ∧ Kept s'
      rw [bind_of_ok hx]
      exact hrest

theorem Accounts.mapM {ι : Type} {f : ι → WordM σ E α} {g : ι → MergeM σ E α}
    (h : ∀ i, Accounts (f i) (g i) (fun _ => True)) (l : List ι) :
    Accounts (l.mapM f) (l.mapM g) (fun _ => True) := by
  induction l with
  | nil => exact Accounts.pure trivial
  | cons i l ih =>
      rw [List.mapM_cons, List.mapM_cons]
      exact (h i).bind (fun _ _ => ih.bind (fun _ _ => Accounts.pure trivial))

/-- Steps that leave the usage alone. -/
theorem Accounts.lift (h : ∀ s a s', y s = .ok (a, s') → s'.2 = s.2) :
    Accounts (Words.lift y) y (fun _ => True) := by
  intro s hs
  unfold Words.lift
  cases hy : y (s.caller, s.usage) with
  | error e => exact ⟨s, rfl, hs⟩
  | ok r =>
      obtain ⟨a, caller, usage⟩ := r
      obtain rfl : usage = s.usage := h _ _ _ hy
      exact ⟨trivial, s.built, rfl, hs.spend s.usage hs.work hs.loaded (le_refl _) caller⟩

/-- Usage that is counted alike, within the limits. -/
theorem Accounts.spend {f : Usage → Except (Halt E) Usage} {g : Usage → Except (MergeError E) Usage}
    {R : Unit → Prop}
    (hfg : ∀ usage : Usage, usage.workUnits ≤ Resource.work.limit →
      usage.loadedBytes ≤ Resource.loadedBytes.limit → f usage = lower (g usage))
    (hg : ∀ usage usage' : Usage, usage.workUnits ≤ Resource.work.limit →
      usage.loadedBytes ≤ Resource.loadedBytes.limit → g usage = .ok usage' →
        usage'.workUnits ≤ Resource.work.limit ∧ usage'.loadedBytes ≤ Resource.loadedBytes.limit ∧
          usage.workUnits ≤ usage'.workUnits ∧ R ()) :
    Accounts (Words.spend f : WordM σ E Unit) (Merge.spend g) R := by
  intro s hs
  have hsame := hfg s.usage hs.work hs.loaded
  unfold Words.spend Merge.spend
  dsimp only
  rw [hsame]
  cases hok : g s.usage with
  | error e => exact ⟨s, rfl, hs⟩
  | ok usage =>
      obtain ⟨hwork, hloaded, hle, hr⟩ := hg s.usage usage hs.work hs.loaded hok
      exact ⟨hr, s.built, rfl, hs.spend usage hwork hloaded hle s.caller⟩

end accounts

/-! ### Merging lines -/

theorem lines_eq_nil {bytes : Str} : lines bytes = [] ↔ bytes = [] := by
  cases bytes with
  | nil => simp [lines]
  | cons b bytes =>
      unfold lines
      by_cases hb : b = 10
      · simp [hb]
      · rw [if_neg hb]
        cases lines bytes <;> simp

/-- The source counts the lines that it then splits off. -/
theorem length_lines (bytes : Str) : (lines bytes).length = Merge.countLines bytes := by
  induction bytes with
  | nil => rfl
  | cons b bytes ih =>
      have hnil := @lines_eq_nil bytes
      have hlast : ∀ c d : UInt8, bytes ≠ [] → (c :: bytes).getLast? = bytes.getLast? := by
        intro c _ hne
        rw [List.getLast?_cons, List.getLast?_eq_some_getLast hne]
        rfl
      unfold Merge.countLines at ih ⊢
      unfold lines
      by_cases hempty : bytes = []
      · subst hempty
        by_cases hb : b = 10
        · simp [hb, lines]
        · simp [hb, lines]
      · rw [hlast b b hempty]
        by_cases hb : b = 10
        · subst hb
          rw [if_pos rfl, List.length_cons, List.count_cons_self, ih]
          simp only [ne_eq, hempty, not_false_eq_true, true_and, reduceCtorEq]
          omega
        · rw [if_neg hb, List.count_cons_of_ne hb]
          cases hl : lines bytes with
          | nil => exact absurd (hnil.mp hl) hempty
          | cons l ls =>
              rw [hl] at ih
              simp only [ne_eq, hempty, not_false_eq_true, true_and, reduceCtorEq, List.length_cons] at ih ⊢
              exact ih

section content
variable {Id σ E : Type} {base ours theirs : Str}

/-- What was reserved for three texts: every limit admits their tables, and the work covers the cells. -/
theorem of_linesWork {work : ℕ} (h : (Merge.linesWork base ours theirs : Except (MergeError E) ℕ) = .ok work) :
    (lines base).length ≤ Resource.lines.limit ∧
      (∀ side ∈ [ours, theirs], (lines side).length ≤ Resource.lines.limit ∧
        ((lines base).length + 1) * ((lines side).length + 1) ≤ Resource.tableCells.limit) ∧
      ∀ usage, Built.cells ⟨(lines base).length, (lines ours).length, usage⟩ +
        Built.cells ⟨(lines base).length, (lines theirs).length, usage⟩ ≤ work := by
  have hcells : ∀ n m : ℕ, (n + 1) * (m + 1) + 2 * (m + 1) ≤ 5 * ((n + 1) * (m + 1)) := by
    intro n m
    have hle : m + 1 ≤ (n + 1) * (m + 1) := Nat.le_mul_of_pos_left _ (Nat.succ_pos n)
    omega
  rw [length_lines, length_lines, length_lines]
  simp only [List.forall_mem_cons, List.not_mem_nil, false_implies, implies_true, and_true, length_lines]
  unfold Merge.linesWork at h
  simp only [except_bind_eq_ok, check_eq_ok, sideWork_eq_ok] at h
  obtain ⟨_, hn, _, hm, _, hk, first, ⟨hfirst, rfl⟩, second, ⟨hsecond, rfl⟩, hwork⟩ := h
  obtain rfl := Except.ok.inj hwork
  refine ⟨hn, ⟨⟨hm, hfirst⟩, hk, hsecond⟩, fun usage => ?_⟩
  have hours := hcells (Merge.countLines base) (Merge.countLines ours)
  have htheirs := hcells (Merge.countLines base) (Merge.countLines theirs)
  unfold Built.cells
  dsimp only
  omega

/-- Lines are matched on tables as on lists, once the limits admitted them. -/
theorem matchLines_eq {s : Machine σ} {base other : List Str} (hbase : base.length ≤ Resource.lines.limit)
    (hother : other.length ≤ Resource.lines.limit) : (matchLines base other : WordM σ E _) s =
      (.ok (matchRows base other), { s with built := s.built ++ [⟨base.length, other.length, s.usage⟩] }) := by
  have hbase' : base.length ≤ 8192 := hbase
  have hsize : (base.length + 1) * (other.length + 1) ≤ 8193 * 8193 :=
    Nat.mul_le_mul (Nat.succ_le_succ hbase) (Nat.succ_le_succ hother)
  have hfits : LineTables.Fits base other := ⟨by omega, by omega⟩
  have hallocate : (allocate base.length other.length : WordM σ E Unit) s =
      (.ok (), { s with built := s.built ++ [⟨base.length, other.length, s.usage⟩] }) := rfl
  unfold matchLines
  rw [bind_of_ok hallocate, LineTables.matchRows_eq hfits]
  rfl

theorem mergeLines_accounts (hb : base.length ≤ Resource.blobBytes.limit)
    (ho : ours.length ≤ Resource.blobBytes.limit) (ht : theirs.length ≤ Resource.blobBytes.limit) :
    Accounts (mergeLines base ours theirs : WordM σ E (Option Str)) (Merge.mergeLines base ours theirs)
      (fun _ => True) := by
  intro s hs
  have hnumbers : (Merge.mergeLines base ours theirs : MergeM σ E (Option Str)) (s.caller, s.usage) =
      Merge.linesWork base ours theirs >>= fun work => s.usage.reserve work >>= fun usage =>
        .ok ((diff3 (lines base) (lines ours) (lines theirs)).map List.flatten, (s.caller, usage)) := by
    show (Merge.spend _ (s.caller, s.usage) >>= _) = _
    unfold Merge.spend
    cases Merge.linesWork base ours theirs with
    | error e => rfl
    | ok work =>
        show ((s.usage.reserve work >>= fun usage => Except.ok ((), s.caller, usage)) >>= _) =
          (s.usage.reserve work >>= _ : Except (MergeError E) (Option Str × σ × Usage))
        cases (s.usage.reserve work : Except (MergeError E) Usage) <;> rfl
  have hwork : (compute (linesWork base ours theirs) : WordM σ E ℕ) s =
      (lower (Merge.linesWork base ours theirs), s) := by
    unfold compute
    rw [linesWork_eq hb ho ht]
  rw [hnumbers]
  unfold mergeLines
  cases hok : (Merge.linesWork base ours theirs : Except (MergeError E) ℕ) with
  | error e =>
      rw [hok] at hwork
      exact ⟨s, bind_of_error hwork, hs⟩
  | ok work =>
      rw [hok] at hwork
      obtain ⟨hn, hsides, hcover⟩ := of_linesWork hok
      obtain ⟨hm, hours⟩ := hsides ours (by simp)
      obtain ⟨hk, htheirs⟩ := hsides theirs (by simp)
      have hbound : s.usage.workUnits + work < 2 ^ 64 := by
        have hle : work ≤ 2 ^ 41 := linesWork_le hb ho ht hok
        have hused : s.usage.workUnits ≤ 536870912 := hs.work
        omega
      have hspend : (spend (fun usage => reserve usage work) : WordM σ E Unit) s =
          match (s.usage.reserve work : Except (MergeError E) Usage) with
          | .ok usage => (.ok (), { s with usage := usage })
          | .error e => (.error (.error e), s) := by
        unfold spend
        dsimp only
        rw [reserve_eq hbound]
        cases (s.usage.reserve work : Except (MergeError E) Usage) <;> rfl
      rw [except_bind_of_ok rfl, bind_of_ok hwork]
      cases hreserve : (s.usage.reserve work : Except (MergeError E) Usage) with
      | error e =>
          rw [hreserve] at hspend
          exact ⟨s, bind_of_error hspend, hs⟩
      | ok usage =>
          rw [hreserve] at hspend
          obtain ⟨hlimit, rfl⟩ := reserve_eq_ok.mp hreserve
          have hcover' := hcover ⟨s.usage.workUnits + work, s.usage.loadedBytes⟩
          have hcovered := hs.covered
          -- first the tables of ours, then those of theirs
          have hkept : Kept (⟨s.caller, ⟨s.usage.workUnits + work, s.usage.loadedBytes⟩, s.built⟩ : Machine σ) :=
            hs.spend ⟨s.usage.workUnits + work, s.usage.loadedBytes⟩ hlimit hs.loaded
              (Nat.le_add_right _ _) s.caller
          have hkept₁ := hkept.allocate hn hm hours (by dsimp only; omega)
          have hkept₂ := hkept₁.allocate hn hk htheirs (by
            dsimp only
            rw [allocated_concat]
            omega)
          refine ⟨trivial, _, ?_, hkept₂⟩
          rw [bind_of_ok hspend, bind_of_ok (matchLines_eq hn hm), bind_of_ok (matchLines_eq hn hk)]
          rfl

/-! ### One path -/

theorem boundedLoad_accounts (load : Id → Caller σ E Str) (id : Id) :
    Accounts (boundedLoad load id) (Merge.boundedLoad load id)
      (fun bytes => bytes.length ≤ Resource.blobBytes.limit) := by
  unfold boundedLoad Merge.boundedLoad
  refine Accounts.bind (Accounts.lift fun s a s' h => (call_eq_ok.mp h).2) fun bytes _ => ?_
  have hspend : Accounts (spend (fun usage => loaded usage bytes.length) : WordM σ E Unit)
      (Merge.spend (fun usage => usage.loaded bytes.length))
      (fun _ => bytes.length ≤ Resource.blobBytes.limit) := by
    refine Accounts.spend (fun usage hwork hloaded => loaded_eq hwork hloaded _)
      fun usage usage' hwork hloaded hok => ?_
    obtain ⟨⟨hblob, hbytes, hunits⟩, rfl⟩ := loaded_eq_ok.mp hok
    exact ⟨hunits, hbytes, Nat.le_add_right _ _, hblob⟩
  exact hspend.bind fun _ hblob => Accounts.pure hblob

theorem mergeContent_accounts (load : Id → Caller σ E Str) (base ours theirs : Id) (executable : Bool) :
    Accounts (mergeContent load base ours theirs executable) (Merge.mergeContent load base ours theirs executable)
      (fun _ => True) := by
  unfold mergeContent Merge.mergeContent
  refine (boundedLoad_accounts load base).bind fun b hb => ?_
  refine (boundedLoad_accounts load ours).bind fun o ho => ?_
  refine (boundedLoad_accounts load theirs).bind fun t ht => ?_
  by_cases hnul : 0 ∈ b ∨ 0 ∈ o ∨ 0 ∈ t
  · rw [if_pos hnul, if_pos hnul]
    exact Accounts.pure trivial
  · rw [if_neg hnul, if_neg hnul]
    refine (mergeLines_accounts hb ho ht).bind fun merged _ => ?_
    cases merged with
    | none => exact Accounts.pure trivial
    | some bytes => exact Accounts.pure trivial

variable [DecidableEq Id]

theorem mergePath_accounts (load : Id → Caller σ E Str) (sides : Sides Id) :
    Accounts (mergePath load sides) (Merge.mergePath load sides) (fun _ => True) := by
  obtain ⟨base, ours, theirs⟩ := sides
  unfold mergePath Merge.mergePath
  by_cases hkeep : ours = theirs ∨ theirs = base
  · simp only [if_pos hkeep]
    exact Accounts.pure trivial
  · simp only [if_neg hkeep]
    by_cases hsame : ours = base
    · simp only [if_pos hsame]
      exact Accounts.pure trivial
    · simp only [if_neg hsame]
      have hdone : ∀ result : Path Id, Accounts (pure result : WordM σ E (Path Id)) (pure result) (fun _ => True) :=
        fun _ => Accounts.pure trivial
      cases base with
      | none => exact hdone _
      | some b =>
          cases ours with
          | none => cases b <;> exact hdone _
          | some o =>
              cases theirs with
              | none => cases b <;> cases o <;> exact hdone _
              | some t =>
                  cases b with
                  | symlink target => exact hdone _
                  | regular b bx =>
                      cases o with
                      | symlink target => exact hdone _
                      | regular o ox =>
                          cases t with
                          | symlink target => exact hdone _
                          | regular t tx =>
                              dsimp only
                              by_cases hours : o = t ∨ t = b
                              · rw [if_pos hours, if_pos hours]
                                exact hdone _
                              · rw [if_neg hours, if_neg hours]
                                by_cases htheirs : o = b
                                · rw [if_pos htheirs, if_pos htheirs]
                                  exact hdone _
                                · rw [if_neg htheirs, if_neg htheirs]
                                  exact mergeContent_accounts load _ _ _ _

theorem threeWay_accounts (load : Id → Caller σ E Str) (base ours theirs : Manifest Id) :
    Accounts (threeWay load base ours theirs) (Merge.threeWay load base ours theirs) (fun _ => True) := by
  unfold threeWay Merge.threeWay
  refine (Accounts.mapM (fun path => ?_) _).bind fun _ _ => Accounts.pure trivial
  unfold mergeRow Merge.mergeRow
  exact (mergePath_accounts load _).bind fun _ _ => Accounts.pure trivial

/-! ### Choices -/

omit [DecidableEq Id] in
theorem usage_of_analyse {aliases : List RepoPath → Caller σ E (List RepoPath)} {rows : List (Row Id)}
    {s s' : σ × Usage} {analysis : Analysis} (h : analyse aliases rows s = .ok (analysis, s')) : s'.2 = s.2 := by
  unfold analyse at h
  split at h
  · obtain ⟨hits, t, hcall, hret⟩ := bind_eq_ok.mp h
    obtain ⟨_, rfl⟩ := pure_eq_ok.mp hret
    exact (call_eq_ok.mp hcall).2
  · obtain ⟨_, rfl⟩ := pure_eq_ok.mp h
    rfl

omit [DecidableEq Id] in
/-- Applying choices costs nothing. -/
theorem usage_of_settle {choices : SortedMap RepoPath Choice} {aliases : List RepoPath → Caller σ E (List RepoPath)}
    {n : ℕ} {rows : List (Row Id)} {applied : List RepoPath} {s s' : σ × Usage}
    {settled : List (Row Id) × List RepoPath × Analysis}
    (h : settle choices aliases n rows applied s = .ok (settled, s')) : s'.2 = s.2 := by
  induction n generalizing rows applied s with
  | zero =>
      obtain ⟨_, t, hanalyse, hret⟩ := bind_eq_ok.mp h
      obtain ⟨_, rfl⟩ := pure_eq_ok.mp hret
      exact usage_of_analyse hanalyse
  | succ n ih =>
      obtain ⟨analysis, t, hanalyse, hrest⟩ := bind_eq_ok.mp h
      have hfirst := usage_of_analyse hanalyse
      split at hrest
      · obtain ⟨_, rfl⟩ := pure_eq_ok.mp hrest
        exact hfirst
      · exact (ih hrest).trans hfirst

/-! ### Whole merges -/

/-- The same on unbounded numbers. -/
def numbers (base ours theirs : Manifest Id) (choices : SortedMap RepoPath Choice)
    (aliases : List RepoPath → Caller σ E (List RepoPath)) (load : Id → Caller σ E Str) :
    MergeM σ E (MergeOutcome Id) := do
  let rows ← Merge.threeWay load base ours theirs
  let usage ← (fun s => .ok (s.2, s) : MergeM σ E Usage)
  let (rows, applied, analysis) ← settle choices aliases choices.toList.length rows []
  return outcomeOf choices (partnersOf base ours theirs) usage rows applied analysis

variable {choices : SortedMap RepoPath Choice} {aliases : List RepoPath → Caller σ E (List RepoPath)}
  {load : Id → Caller σ E Str}

theorem mergeResolved_numbers {base ours theirs : Manifest Id} {usage : Usage}
    (h : (Merge.admission base ours theirs : Except (MergeError E) Usage) = .ok usage) (s : σ) :
    (Merge.mergeResolved base ours theirs choices aliases load s).map Prod.fst =
      (numbers base ours theirs choices aliases load (s, usage)).map Prod.fst := by
  unfold Merge.mergeResolved
  rw [except_bind_of_ok h]
  show ((Merge.threeWay load base ours theirs (s, usage) >>= _ :
      Except (MergeError E) (MergeOutcome Id × σ))).map Prod.fst =
    ((Merge.threeWay load base ours theirs (s, usage) >>= _ :
      Except (MergeError E) (MergeOutcome Id × σ × Usage))).map Prod.fst
  cases Merge.threeWay load base ours theirs (s, usage) with
  | error e => rfl
  | ok r =>
      obtain ⟨rows, t⟩ := r
      show ((settle choices aliases choices.toList.length rows [] t >>= _ :
          Except (MergeError E) (MergeOutcome Id × σ))).map Prod.fst =
        ((settle choices aliases choices.toList.length rows [] t >>= _ :
          Except (MergeError E) (MergeOutcome Id × σ × Usage))).map Prod.fst
      cases settle choices aliases choices.toList.length rows [] t <;> rfl

/-- An outcome has the usage that was counted. -/
theorem usage_of_numbers {base ours theirs : Manifest Id} {outcome : MergeOutcome Id} {s s' : σ × Usage}
    (h : numbers base ours theirs choices aliases load s = .ok (outcome, s')) : outcome.usage = s'.2 := by
  obtain ⟨rows, t₁, _, h⟩ := bind_eq_ok.mp h
  obtain ⟨usage, t₂, husage, h⟩ := bind_eq_ok.mp h
  obtain ⟨⟨settled, applied, analysis⟩, t₃, hsettle, h⟩ := bind_eq_ok.mp h
  obtain ⟨rfl, rfl⟩ := pure_eq_ok.mp h
  obtain ⟨rfl, rfl⟩ := Prod.mk.inj (Except.ok.inj husage)
  exact (usage_of_settle hsettle).symm

theorem mergeAdmitted_accounts (base ours theirs : Manifest Id) :
    Accounts (mergeAdmitted base ours theirs choices aliases load)
      (numbers base ours theirs choices aliases load) (fun _ => True) := by
  unfold mergeAdmitted numbers
  refine (threeWay_accounts load _ _ _).bind fun rows _ => ?_
  refine Accounts.bind (Accounts.lift fun s usage s' h => ?_) fun usage _ => ?_
  · obtain ⟨_, rfl⟩ := Prod.mk.inj (Except.ok.inj h)
    rfl
  · refine Accounts.bind (Accounts.lift fun s settled s' h => usage_of_settle h) fun settled _ => ?_
    exact Accounts.pure trivial

omit [DecidableEq Id] in
theorem of_admission {base ours theirs : Manifest Id} {usage : Usage}
    (h : (Merge.admission base ours theirs : Except (MergeError E) Usage) = .ok usage) :
    usage.workUnits ≤ Resource.work.limit ∧ usage.loadedBytes = 0 := by
  obtain ⟨_, _, h⟩ := except_bind_eq_ok.mp h
  obtain ⟨total, _, h⟩ := except_bind_eq_ok.mp h
  obtain ⟨hle, rfl⟩ := reserve_eq_ok.mp h
  exact ⟨hle, rfl⟩

end content

/-- A merge on machine words never faults: no number overflows and no index of a table is out of range,
so it is the merge of unbounded numbers.  However it ends, tables were built only after the limits on lines,
cells and work had admitted them, and the work reserved then covered their cells and those of all tables
before.  If it ends well, loaded bytes and work are within their limits, and the work covers the cells of
all tables. -/
theorem mergeResolved_accounted {Id σ E : Type} [DecidableEq Id] (base ours theirs : InMemory Id)
    (choices : SortedMap RepoPath Choice) (aliases : List RepoPath → Caller σ E (List RepoPath))
    (load : Id → Caller σ E Str) (s : σ) :
    (mergeResolved base ours theirs choices aliases load ⟨s, ⟨0, 0⟩, []⟩).1 ≠ .error .fault ∧
      (mergeResolved base ours theirs choices aliases load ⟨s, ⟨0, 0⟩, []⟩).1 =
        lower ((Merge.mergeResolved base.1 ours.1 theirs.1 choices aliases load s).map Prod.fst) ∧
      (∀ earlier t later, (mergeResolved base ours theirs choices aliases load ⟨s, ⟨0, 0⟩, []⟩).2.built =
        earlier ++ t :: later → Admitted earlier t) ∧
      ∀ outcome, (mergeResolved base ours theirs choices aliases load ⟨s, ⟨0, 0⟩, []⟩).1 = .ok outcome →
        outcome.usage.loadedBytes ≤ Resource.loadedBytes.limit ∧
          outcome.usage.workUnits ≤ Resource.work.limit ∧
          allocated (mergeResolved base ours theirs choices aliases load ⟨s, ⟨0, 0⟩, []⟩).2.built ≤
            outcome.usage.workUnits := by
  have hempty : ∀ usage : Usage, usage.workUnits ≤ Resource.work.limit → usage.loadedBytes = 0 →
      Kept (⟨s, usage, []⟩ : Machine σ) := by
    intro usage hwork hloaded
    refine ⟨hwork, by rw [hloaded]; exact Nat.zero_le _, Nat.zero_le _, fun earlier t later h => ?_⟩
    exact absurd h.symm (by simp)
  have hspend : (spend (fun _ => admission base ours theirs) : WordM σ E Unit) ⟨s, ⟨0, 0⟩, []⟩ =
      match (Merge.admission base.1 ours.1 theirs.1 : Except (MergeError E) Usage) with
      | .ok usage => (.ok (), ⟨s, usage, []⟩)
      | .error e => (.error (.error e), ⟨s, ⟨0, 0⟩, []⟩) := by
    unfold spend
    dsimp only
    rw [admission_eq]
    cases (Merge.admission base.1 ours.1 theirs.1 : Except (MergeError E) Usage) <;> rfl
  unfold mergeResolved
  cases hadmission : (Merge.admission base.1 ours.1 theirs.1 : Except (MergeError E) Usage) with
  | error e =>
      rw [hadmission] at hspend
      rw [bind_of_error hspend]
      have hnumbers : Merge.mergeResolved base.1 ours.1 theirs.1 choices aliases load s = .error e := by
        unfold Merge.mergeResolved
        rw [hadmission]
        rfl
      rw [hnumbers]
      exact ⟨by simp, rfl, (hempty ⟨0, 0⟩ (Nat.zero_le _) rfl).admitted, fun outcome h => by cases h⟩
  | ok usage =>
      rw [hadmission] at hspend
      obtain ⟨hwork, hloaded⟩ := of_admission hadmission
      have haccounts : Accounts (mergeAdmitted base.1 ours.1 theirs.1 choices aliases load)
          (numbers base.1 ours.1 theirs.1 choices aliases load) (fun _ => True) :=
        mergeAdmitted_accounts base.1 ours.1 theirs.1
      have hrun := haccounts ⟨s, usage, []⟩ (hempty usage hwork hloaded)
      rw [bind_of_ok hspend, mergeResolved_numbers hadmission]
      dsimp only at hrun
      cases hok : numbers base.1 ours.1 theirs.1 choices aliases load (s, usage) with
      | error e =>
          rw [hok] at hrun
          obtain ⟨s', hx, hkept⟩ := hrun
          rw [hx]
          exact ⟨by simp, rfl, hkept.admitted, fun outcome h => by cases h⟩
      | ok r =>
          obtain ⟨outcome, caller, usage'⟩ := r
          rw [hok] at hrun
          obtain ⟨_, built, hx, hkept⟩ := hrun
          have husage : outcome.usage = usage' := usage_of_numbers hok
          rw [hx]
          refine ⟨by simp, rfl, hkept.admitted, fun outcome' h => ?_⟩
          obtain rfl := Except.ok.inj h
          rw [husage]
          exact ⟨hkept.loaded, hkept.work, hkept.covered⟩

end Words

end Merge

end Javelin
