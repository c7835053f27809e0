import Mathlib.Data.Nat.Notation
import Mathlib.Tactic.Ring
import Mathlib.Data.List.Basic
import Mathlib.Data.List.Induction

/-! # Reading and writing bytes

`toLe w n` writes a number as `w` bytes, least significant first, and `ofLe` reads it back
(`ofLe_toLe`, `toLe_ofLe`); `toBe` and `ofBe` are the big-endian forms.  `text` and `ofText` are
the UTF-8 bytes of a string and their checked inverse.

A `Reader` consumes a prefix of the bytes it is given or fails.  `Reads r write P` says that `r`
and `write` are inverse on the values `P` holds of: what is written is read back with any bytes
behind it, and whatever is read was written so. -/

namespace Bytes

/-! ### Numbers -/

/-- The `w` low bytes of `n`, least significant first. -/
def toLe : ℕ → ℕ → List UInt8
  | 0, _ => []
  | w + 1, n => UInt8.ofNat n :: toLe w (n / 256)

/-- The number with these bytes, least significant first. -/
def ofLe : List UInt8 → ℕ
  | [] => 0
  | b :: bs => b.toNat + 256 * ofLe bs

@[simp] theorem length_toLe (w n : ℕ) : (toLe w n).length = w := by
  induction w generalizing n with
  | zero => rfl
  | succ w ih => exact congrArg (· + 1) (ih _)

theorem ofLe_lt (bs : List UInt8) : ofLe bs < 256 ^ bs.length := by
  induction bs with
  | nil => exact Nat.one_pos
  | cons b bs ih =>
      have hb := b.toNat_lt
      show b.toNat + 256 * ofLe bs < 256 ^ (bs.length + 1)
      rw [pow_succ]
      omega

theorem ofLe_toLe {w n : ℕ} (h : n < 256 ^ w) : ofLe (toLe w n) = n := by
  induction w generalizing n with
  | zero =>
      have h0 : n < 1 := h
      show 0 = n
      omega
  | succ w ih =>
      have hq : n / 256 < 256 ^ w := by
        rw [pow_succ] at h
        exact Nat.div_lt_of_lt_mul (by omega)
      show (UInt8.ofNat n).toNat + 256 * ofLe (toLe w (n / 256)) = n
      rw [ih hq, UInt8.toNat_ofNat']
      omega

theorem toLe_ofLe (bs : List UInt8) : toLe bs.length (ofLe bs) = bs := by
  induction bs with
  | nil => rfl
  | cons b bs ih =>
      have hb := b.toNat_lt
      have hq : (b.toNat + 256 * ofLe bs) / 256 = ofLe bs := by omega
      have hr : UInt8.ofNat (b.toNat + 256 * ofLe bs) = b := by
        apply UInt8.toNat_inj.mp
        rw [UInt8.toNat_ofNat']
        omega
      show UInt8.ofNat (b.toNat + 256 * ofLe bs) :: toLe bs.length ((b.toNat + 256 * ofLe bs) / 256) = b :: bs
      rw [hr, hq, ih]

/-- The `w` low bytes of `n`, most significant first. -/
def toBe (w n : ℕ) : List UInt8 := (toLe w n).reverse

/-- The number with these bytes, most significant first. -/
def ofBe (bs : List UInt8) : ℕ := ofLe bs.reverse

@[simp] theorem length_toBe (w n : ℕ) : (toBe w n).length = w := by simp [toBe]

theorem ofBe_lt (bs : List UInt8) : ofBe bs < 256 ^ bs.length := by
  have h := ofLe_lt bs.reverse
  rwa [List.length_reverse] at h

theorem ofBe_toBe {w n : ℕ} (h : n < 256 ^ w) : ofBe (toBe w n) = n := by
  unfold ofBe toBe
  rw [List.reverse_reverse, ofLe_toLe h]

theorem toBe_ofBe (bs : List UInt8) : toBe bs.length (ofBe bs) = bs := by
  have h := toLe_ofLe bs.reverse
  rw [List.length_reverse] at h
  unfold ofBe toBe
  rw [h, List.reverse_reverse]

/-! ### Text -/

/-- The UTF-8 bytes of a string. -/
def text (s : String) : List UInt8 := s.toByteArray.data.toList

/-- The string with these UTF-8 bytes. -/
def ofText (bs : List UInt8) : Option String := String.fromUTF8? ⟨⟨bs⟩⟩

@[simp] theorem ofText_text (s : String) : ofText (text s) = some s := by
  unfold ofText text String.fromUTF8?
  have h : (⟨⟨s.toByteArray.data.toList⟩⟩ : ByteArray) = s.toByteArray := rfl
  rw [h, dif_pos s.isValidUTF8]
  rfl

theorem ofText_eq_some {bs : List UInt8} {s : String} : ofText bs = some s ↔ bs = text s := by
  constructor
  · intro h
    unfold ofText String.fromUTF8? at h
    split at h
    · injection h with h
      subst h
      rfl
    · cases h
  · intro h
    rw [h, ofText_text]

theorem text_injective : Function.Injective text := by
  intro a b h
  have hb : ofText (text a) = some b := by rw [h, ofText_text]
  rw [ofText_text] at hb
  exact Option.some.inj hb

/-- ASCII bytes are the text of a string. -/
theorem exists_text_of_ascii {bs : List UInt8} (h : ∀ b ∈ bs, b < 128) : ∃ s, bs = text s := by
  have key : (⟨⟨bs⟩⟩ : ByteArray).IsValidUTF8 := by
    induction bs using List.reverseRecOn with
    | nil => exact ByteArray.isValidUTF8_empty
    | append_singleton bs b ih =>
        have hlt : b.toNat < 128 := h b (by simp)
        have hv : b.toUInt32.isValidChar := by
          left
          rw [UInt8.toNat_toUInt32]
          omega
        let c : Char := ⟨b.toUInt32, hv⟩
        have hc : c.utf8Size = 1 := by
          have hle : b.toUInt32 ≤ 127 := by
            rw [UInt32.le_iff_toNat_le, UInt8.toNat_toUInt32]
            show b.toNat ≤ 127
            omega
          unfold Char.utf8Size
          exact if_pos hle
        have hb : c.toUInt8 = b := UInt8.toUInt8_toUInt32 b
        have hp := (ih (fun d hd => h d (by simp [hd]))).push hc
        rw [hb] at hp
        have he : (⟨⟨bs ++ [b]⟩⟩ : ByteArray) = (⟨⟨bs⟩⟩ : ByteArray).push b := by
          show _ = ByteArray.mk ((Array.mk bs).push b)
          rw [List.push_toArray]
        rw [he]
        exact hp
  exact ⟨⟨⟨⟨bs⟩⟩, key⟩, rfl⟩

/-! ### Readers -/

/-- Reads a value from the front of the bytes, or fails. -/
abbrev Reader (ε : Type) := StateT (List UInt8) (Except ε)

section readers
variable {ε α β : Type}

/-- Refuses with `e`. -/
def refuse (e : ε) : Reader ε α := fun _ => .error e

/-- The next `n` bytes. -/
def take (e : ε) (n : ℕ) : Reader ε (List UInt8) := fun s =>
  if s.length < n then .error e else .ok (s.take n, s.drop n)

theorem take_append (e : ε) (bs rest : List UInt8) :
    take e bs.length (bs ++ rest) = .ok (bs, rest) := by
  unfold take
  rw [if_neg (by simp), List.take_left, List.drop_left]

theorem take_eq_ok {e : ε} {n : ℕ} {s bs rest : List UInt8} :
    take e n s = .ok (bs, rest) ↔ s = bs ++ rest ∧ bs.length = n := by
  constructor
  · intro h
    unfold take at h
    split at h
    · cases h
    · rename_i hn
      injection h with h
      injection h with h1 h2
      subst h1 h2
      refine ⟨(List.take_append_drop n s).symm, ?_⟩
      rw [List.length_take]
      omega
  · intro h
    obtain ⟨hs, hn⟩ := h
    subst hs hn
    exact take_append e bs rest

/-- `r` reads exactly what `write` writes, for the values `P` holds of. -/
structure Reads (r : Reader ε α) (write : α → List UInt8) (P : α → Prop) : Prop where
  read : ∀ a, P a → ∀ rest, r (write a ++ rest) = .ok (a, rest)
  sound : ∀ s a rest, r s = .ok (a, rest) → P a ∧ s = write a ++ rest

namespace Reads
variable {r : Reader ε α} {write : α → List UInt8} {P : α → Prop}

/-- Reading a written field and going on. -/
theorem bind_eq (h : Reads r write P) {a : α} (ha : P a) (rest : List UInt8) (k : α → Reader ε β) :
    (r >>= k) (write a ++ rest) = k a rest := by
  show (r (write a ++ rest) >>= fun p => k p.1 p.2) = _
  rw [h.read a ha rest]
  rfl

/-- A reader that succeeds went through a written field. -/
theorem bind_eq_ok (h : Reads r write P) {s : List UInt8} {k : α → Reader ε β} {b : β × List UInt8}
    (hk : (r >>= k) s = .ok b) : ∃ a rest, P a ∧ s = write a ++ rest ∧ k a rest = .ok b := by
  change (r s >>= fun p => k p.1 p.2) = _ at hk
  cases hr : r s with
  | error e =>
      rw [hr] at hk
      cases hk
  | ok p =>
      obtain ⟨a, rest⟩ := p
      obtain ⟨ha, hs⟩ := h.sound s a rest hr
      rw [hr] at hk
      exact ⟨a, rest, ha, hs, hk⟩

end Reads

/-- A check that succeeds reads nothing. -/
theorem lift_bind_eq {x : Except ε α} {a : α} (hx : x = .ok a) (k : α → Reader ε β) (s : List UInt8) :
    ((liftM x : Reader ε α) >>= k) s = k a s := by
  rw [hx]
  rfl

theorem lift_bind_eq_ok {x : Except ε α} {k : α → Reader ε β} {s : List UInt8} {b : β × List UInt8}
    (h : ((liftM x : Reader ε α) >>= k) s = .ok b) : ∃ a, x = .ok a ∧ k a s = .ok b := by
  cases x with
  | error e => cases h
  | ok a => exact ⟨a, rfl, h⟩

/-- `n` bytes as they are. -/
theorem reads_take (e : ε) (n : ℕ) : Reads (take e n) id (fun bs => bs.length = n) where
  read := by
    intro bs hl rest
    subst hl
    exact take_append e bs rest
  sound := by
    intro s bs rest h
    obtain ⟨hs, hl⟩ := take_eq_ok.mp h
    exact ⟨hl, hs⟩

/-- The value that the bytes of a field stand for. -/
def decoded (r : Reader ε (List UInt8)) (f : List UInt8 → Except ε α) : Reader ε α := do
  let bs ← r
  f bs

/-- A checked conversion of what a field holds. -/
theorem Reads.decoded {r : Reader ε (List UInt8)} {w : List UInt8 → List UInt8}
    {P : List UInt8 → Prop} (h : Reads r w P) {f : List UInt8 → Except ε α}
    {write : α → List UInt8} {Q : α → Prop}
    (hread : ∀ a, Q a → P (write a) ∧ f (write a) = .ok a)
    (hsound : ∀ bs a, P bs → f bs = .ok a → Q a ∧ write a = bs) :
    Reads (decoded r f) (fun a => w (write a)) Q where
  read := by
    intro a ha rest
    obtain ⟨hp, hf⟩ := hread a ha
    have hb := h.bind_eq hp rest (fun bs => (liftM (f bs) : Reader ε α))
    refine hb.trans ?_
    show (f (write a) >>= fun b => Except.ok (b, rest)) = _
    rw [hf]
    rfl
  sound := by
    intro s a rest hs
    obtain ⟨bs, rest', hp, hsw, hk⟩ := h.bind_eq_ok hs
    change (f bs >>= fun b => Except.ok (b, rest')) = .ok (a, rest) at hk
    cases hf : f bs with
    | error e =>
        rw [hf] at hk
        cases hk
    | ok b =>
        rw [hf] at hk
        injection hk with hk
        injection hk with h1 h2
        subst h1 h2
        obtain ⟨hq, hw⟩ := hsound bs b hp hf
        refine ⟨hq, ?_⟩
        rw [hsw, hw]

/-- An unsigned number of `w` bytes, least significant first. -/
def readLe (e : ε) (w : ℕ) : Reader ε ℕ := decoded (take e w) (fun bs => .ok (ofLe bs))

theorem reads_le (e : ε) (w : ℕ) : Reads (readLe e w) (toLe w) (fun n => n < 256 ^ w) := by
  apply (reads_take e w).decoded
  · intro n hn
    exact ⟨length_toLe w n, congrArg Except.ok (ofLe_toLe hn)⟩
  · intro bs n hl h
    injection h with h
    subst h hl
    exact ⟨ofLe_lt bs, toLe_ofLe bs⟩

/-- An unsigned number of `w` bytes, most significant first. -/
def readBe (e : ε) (w : ℕ) : Reader ε ℕ := decoded (take e w) (fun bs => .ok (ofBe bs))

theorem reads_be (e : ε) (w : ℕ) : Reads (readBe e w) (toBe w) (fun n => n < 256 ^ w) := by
  apply (reads_take e w).decoded
  · intro n hn
    exact ⟨length_toBe w n, congrArg Except.ok (ofBe_toBe hn)⟩
  · intro bs n hl h
    injection h with h
    subst h hl
    exact ⟨ofBe_lt bs, toBe_ofBe bs⟩

/-- One byte. -/
def readByte (e : ε) : Reader ε UInt8 := fun s =>
  match s with
  | [] => .error e
  | b :: rest => .ok (b, rest)

theorem reads_byte (e : ε) : Reads (readByte e) (fun b => [b]) (fun _ => True) where
  read := fun _ _ _ => rfl
  sound := by
    intro s b rest h
    cases s with
    | nil => cases h
    | cons c s =>
        injection h with h
        injection h with h1 h2
        exact ⟨trivial, by rw [h1, h2]; rfl⟩

/-- A length read by `len`, then that many bytes. -/
def sized (e : ε) (len : Reader ε ℕ) : Reader ε (List UInt8) := do
  let n ← len
  take e n

theorem reads_sized (e : ε) {len : Reader ε ℕ} {write : ℕ → List UInt8} {P : ℕ → Prop}
    (h : Reads len write P) :
    Reads (sized e len) (fun bs => write bs.length ++ bs) (fun bs => P bs.length) where
  read := by
    intro bs hp rest
    have hb := h.bind_eq hp (bs ++ rest) (take e)
    rw [List.append_assoc]
    exact hb.trans (take_append e bs rest)
  sound := by
    intro s bs rest hs
    obtain ⟨n, rest', hp, hsw, hk⟩ := h.bind_eq_ok hs
    obtain ⟨hr, hl⟩ := take_eq_ok.mp hk
    subst hl hr
    exact ⟨hp, by rw [hsw, List.append_assoc]⟩

end readers

end Bytes
