import Javelin.Chunk
import Mathlib.Logic.Encodable.Basic
import Mathlib.Logic.Equiv.List

/-! # Numbered chunks

An instance of `Hashing` that can be evaluated: the ID of a chunk is the number that encodes its
level and items (`chunkNumber_injective`), and every digest is the largest one, which cuts least.
Chunks take the even numbers; the odd ones are left to other objects. -/

namespace Javelin

def Tag.number : Tag → ℕ
  | child => 0
  | regular => 1
  | executable => 2
  | symlink => 3
  | dir => 4

theorem Tag.number_injective : Function.Injective Tag.number := by
  intro a b h
  cases a <;> cases b <;> first | rfl | cases h

/-- A string as a list of numbers. -/
def strNumbers (s : Str) : List ℕ := s.map UInt8.toNat

theorem strNumbers_injective : Function.Injective strNumbers :=
  List.map_injective_iff.mpr (fun _ _ h => UInt8.toNat.inj h)

def Item.numbers (item : Item ℕ) : List ℕ × ℕ × ℕ :=
  (strNumbers item.name.1, item.tag.number, item.id)

theorem Item.numbers_injective : Function.Injective Item.numbers := by
  rintro ⟨n, t, i⟩ ⟨n', t', i'⟩ h
  simp only [numbers, Prod.mk.injEq] at h
  obtain ⟨hn, ht, hi⟩ := h
  rw [Subtype.ext (strNumbers_injective hn), Tag.number_injective ht, hi]

/-- The number of a chunk. -/
def chunkNumber (c : Chunk ℕ) : ℕ := 2 * Encodable.encode (c.level, c.items.map Item.numbers)

theorem chunkNumber_injective : Function.Injective chunkNumber := by
  rintro ⟨level, items⟩ ⟨level', items'⟩ h
  have hcode : Encodable.encode (level, items.map Item.numbers) =
      Encodable.encode (level', items'.map Item.numbers) := by
    unfold chunkNumber at h
    simp only at h
    omega
  obtain ⟨hl, hi⟩ := Prod.mk.inj (Encodable.encode_injective hcode)
  rw [hl, List.map_injective_iff.mpr Item.numbers_injective hi]

instance : Hashing ℕ where
  treeId := chunkNumber
  treeId_injective := chunkNumber_injective
  cutAfter := boundary (fun _ _ => 2 ^ 32 - 1)

end Javelin
