import Javelin.Objects
import Javelin.Numbered
import Mathlib.Data.Nat.Digits.Defs

/-! # Numbered objects

The instance of `ObjectHash` over the numbered chunks: an object that is no tree chunk has an odd
number, which encodes its kind and contents (`objectNumber_injective`). -/

namespace Javelin

open KeyedList

def RepoPath.numbers (p : RepoPath) : List (List ℕ) := p.names.map (fun n => strNumbers n.1)

theorem RepoPath.numbers_injective : Function.Injective RepoPath.numbers := by
  rintro ⟨a⟩ ⟨b⟩ h
  have hinj : Function.Injective (fun n : Name => strNumbers n.1) :=
    fun _ _ h => Subtype.ext (strNumbers_injective h)
  exact congrArg RepoPath.mk (List.map_injective_iff.mpr hinj h)

def FileEntry.numbers : FileEntry ℕ → ℕ × ℕ
  | regular content executable => (content, executable.toNat)
  | symlink target => (target, 2)

theorem FileEntry.numbers_injective : Function.Injective FileEntry.numbers := by
  intro a b h
  cases a with
  | regular c e =>
      cases b with
      | regular c' e' =>
          obtain ⟨rfl, he⟩ := Prod.mk.inj h
          cases e <;> cases e' <;> first | rfl | cases he
      | symlink t => cases e <;> cases (Prod.mk.inj h).2
  | symlink t =>
      cases b with
      | regular c e => cases e <;> cases (Prod.mk.inj h).2
      | symlink t' => rw [(Prod.mk.inj h).1]

/-- The pairs of a map, the values under `f`. -/
def mapNumbers {V C : Type} (f : V → C) (m : SortedMap RepoPath V) : List (List (List ℕ) × C) :=
  m.toList.map (fun e => (e.1.numbers, f e.2))

theorem mapNumbers_injective {V C : Type} {f : V → C} (hf : Function.Injective f) :
    Function.Injective (mapNumbers f) := by
  rintro ⟨l, hl⟩ ⟨l', hl'⟩ h
  have hinj : Function.Injective (fun e : RepoPath × V => (e.1.numbers, f e.2)) := by
    rintro ⟨p, v⟩ ⟨p', v'⟩ he
    obtain ⟨hp, hv⟩ := Prod.mk.inj he
    exact Prod.ext (RepoPath.numbers_injective hp) (hf hv)
  obtain rfl : l = l' := List.map_injective_iff.mpr hinj h
  rfl

def SparseChanges.numbers (c : SparseChanges ℕ) : List (List (List ℕ) × Option (ℕ × ℕ)) :=
  mapNumbers (Option.map FileEntry.numbers) c.entries

theorem SparseChanges.numbers_injective : Function.Injective SparseChanges.numbers := by
  rintro ⟨m, hm⟩ ⟨m', hm'⟩ h
  obtain rfl := mapNumbers_injective (Option.map_injective FileEntry.numbers_injective) h
  rfl

def Manifest.numbers (m : Manifest ℕ) : List (List (List ℕ) × (ℕ × ℕ)) :=
  mapNumbers FileEntry.numbers m.entries

theorem Manifest.numbers_injective : Function.Injective Manifest.numbers := by
  rintro ⟨m, hm, hd⟩ ⟨m', hm', hd'⟩ h
  obtain rfl := mapNumbers_injective FileEntry.numbers_injective h
  rfl

/-- A checkpoint as its base, changes, sources and provenance. -/
def EncodedCheckpoint.numbers (c : EncodedCheckpoint ℕ) :
    (ℕ × ℕ × ℕ) × List (List (List ℕ) × Option (ℕ × ℕ)) × List ℕ × Option ℕ :=
  ((c.base.repository, c.base.version, c.base.world), c.changes.numbers, c.sources, c.provenance)

theorem EncodedCheckpoint.numbers_injective : Function.Injective EncodedCheckpoint.numbers := by
  rintro ⟨⟨a, b, d⟩, c, s, p⟩ ⟨⟨a', b', d'⟩, c', s', p'⟩ h
  simp only [numbers, Prod.mk.injEq] at h
  obtain ⟨⟨rfl, rfl, rfl⟩, hc, rfl, rfl⟩ := h
  rw [SparseChanges.numbers_injective hc]

/-- The number of an object. -/
def objectNumber : Object ℕ → ℕ
  | .blob bytes => 2 * Encodable.encode (0, Encodable.encode (strNumbers bytes)) + 1
  | .manifest manifest => 2 * Encodable.encode (1, Encodable.encode manifest.numbers) + 1
  | .checkpoint checkpoint => 2 * Encodable.encode (2, Encodable.encode checkpoint.numbers) + 1
  | .tree chunk => chunkNumber chunk

theorem encode_pair_inj {a b c d : ℕ}
    (h : 2 * Encodable.encode (a, b) + 1 = 2 * Encodable.encode (c, d) + 1) : a = c ∧ b = d := by
  have hcode : Encodable.encode (a, b) = Encodable.encode (c, d) := by omega
  exact Prod.mk.inj (Encodable.encode_injective hcode)

theorem objectNumber_injective : Function.Injective objectNumber := by
  intro a b h
  have hparity : ∀ (x y : ℕ), 2 * x + 1 ≠ 2 * y := fun x y => by omega
  cases a with
  | blob x =>
      cases b with
      | blob y => rw [strNumbers_injective (Encodable.encode_injective (encode_pair_inj h).2)]
      | manifest y => cases (encode_pair_inj h).1
      | checkpoint y => cases (encode_pair_inj h).1
      | tree y => exact absurd h (hparity _ _)
  | manifest x =>
      cases b with
      | blob y => cases (encode_pair_inj h).1
      | manifest y => rw [Manifest.numbers_injective (Encodable.encode_injective (encode_pair_inj h).2)]
      | checkpoint y => cases (encode_pair_inj h).1
      | tree y => exact absurd h (hparity _ _)
  | checkpoint x =>
      cases b with
      | blob y => cases (encode_pair_inj h).1
      | manifest y => cases (encode_pair_inj h).1
      | checkpoint y =>
          rw [EncodedCheckpoint.numbers_injective (Encodable.encode_injective (encode_pair_inj h).2)]
      | tree y => exact absurd h (hparity _ _)
  | tree x =>
      cases b with
      | blob y => exact absurd h.symm (hparity _ _)
      | manifest y => exact absurd h.symm (hparity _ _)
      | checkpoint y => exact absurd h.symm (hparity _ _)
      | tree y => rw [chunkNumber_injective h]

instance : ObjectHash ℕ where
  objectId := objectNumber
  objectId_injective := objectNumber_injective
  objectId_tree _ := rfl
  versionId parent tree changes := Encodable.encode (parent, tree, changes.numbers)

/-- The operation named by a decimal number. -/
def operationNumber (n : ℕ) : OperationId := ⟨(Nat.digits 10 n).map (fun d => UInt8.ofNat (48 + d))⟩

theorem operationNumber_injective : Function.Injective operationNumber := by
  -- The digits are read back from the bytes.
  have hread : ∀ n, (operationNumber n).text.map (fun b => b.toNat - 48) = Nat.digits 10 n := by
    intro n
    unfold operationNumber
    rw [List.map_map]
    refine (List.map_congr_left (fun d hd => ?_)).trans (List.map_id _)
    have hlt : d < 10 := Nat.digits_lt_base (by decide) hd
    show (UInt8.ofNat (48 + d)).toNat - 48 = d
    rw [UInt8.toNat_ofNat', Nat.mod_eq_of_lt (by omega)]
    omega
  intro a b h
  apply Nat.digits.injective 10
  rw [← hread a, ← hread b, h]

end Javelin
