import Javelin.ChunkCodec
import Javelin.WorldLogs

/-! # Numbers and IDs as text

`showNumber` is the decimal text of a number and `parseNumber` the checked inverse, with the bound of the
integer type (`parseNumber_show`).  `unhex` reads hex digits (`unhex_hex`), `parseObjectId` an object ID
(`parseObjectId_idText`).  All of these are `Plain`, visible ASCII, and a line of plain texts with spaces
between is split into them (`line_of_plain`). -/

namespace Javelin

open Bytes Collaboration

/-! ### Numbers -/

/-- The decimal digit of a number below 10. -/
def digitByte (d : ℕ) : UInt8 := UInt8.ofNat (48 + d)

/-- `u64::to_string`. -/
def showNumber (n : ℕ) : Str := if n = 0 then [48] else (Nat.digits 10 n).reverse.map digitByte

/-- The number of these digits behind the ones read; `none` for another byte, or when `bound` is reached. -/
def parseDigits (bound : ℕ) : ℕ → Str → Option ℕ
  | acc, [] => some acc
  | acc, b :: s =>
      if 48 ≤ b ∧ b ≤ 57 then
        if acc * 10 + (b.toNat - 48) < bound then parseDigits bound (acc * 10 + (b.toNat - 48)) s else none
      else none

/-- `str::parse` for an unsigned type of so many values; it takes a sign. -/
def parseNumber (bound : ℕ) : Str → Option ℕ
  | [] => none
  | [43] => none
  | b :: s => if b = 43 then parseDigits bound 0 s else parseDigits bound 0 (b :: s)

theorem toNat_digitByte {d : ℕ} (h : d < 10) : (digitByte d).toNat = 48 + d := by
  unfold digitByte
  rw [UInt8.toNat_ofNat', Nat.mod_eq_of_lt (by omega)]

theorem isDigit_digitByte {d : ℕ} (h : d < 10) : 48 ≤ digitByte d ∧ digitByte d ≤ 57 := by
  rw [UInt8.le_iff_toNat_le, UInt8.le_iff_toNat_le, toNat_digitByte h]
  exact ⟨Nat.le_add_right 48 d, by
    show 48 + d ≤ 57
    omega⟩

/-- The digits stay below a bound that their number is below. -/
theorem le_foldl_digits (ds : List ℕ) (acc : ℕ) : acc ≤ ds.foldl (fun n d => n * 10 + d) acc := by
  induction ds generalizing acc with
  | nil => exact le_refl acc
  | cons d ds ih =>
      have h := ih (acc * 10 + d)
      rw [List.foldl_cons]
      omega

theorem parseDigits_map {bound acc : ℕ} {ds : List ℕ} (hds : ∀ d ∈ ds, d < 10)
    (h : ds.foldl (fun n d => n * 10 + d) acc < bound) :
    parseDigits bound acc (ds.map digitByte) = some (ds.foldl (fun n d => n * 10 + d) acc) := by
  induction ds generalizing acc with
  | nil => rfl
  | cons d ds ih =>
      have hd : d < 10 := hds d List.mem_cons_self
      have hle := le_foldl_digits ds (acc * 10 + d)
      rw [List.foldl_cons] at h
      have hval : acc * 10 + ((digitByte d).toNat - 48) = acc * 10 + d := by
        rw [toNat_digitByte hd]
        omega
      rw [List.map_cons, parseDigits, if_pos (isDigit_digitByte hd), hval, if_pos (lt_of_le_of_lt hle h),
        ih (fun x hx => hds x (List.mem_cons_of_mem d hx)) h]
      rfl

/-- The digits of a number, most significant first. -/
def decimalDigits (n : ℕ) : List ℕ := if n = 0 then [0] else (Nat.digits 10 n).reverse

theorem showNumber_eq (n : ℕ) : showNumber n = (decimalDigits n).map digitByte := by
  unfold showNumber decimalDigits
  split
  · rfl
  · rfl

theorem decimalDigits_lt {n d : ℕ} (h : d ∈ decimalDigits n) : d < 10 := by
  unfold decimalDigits at h
  split at h
  · rw [List.mem_singleton.mp h]
    decide
  · exact Nat.digits_lt_base (by decide) (List.mem_reverse.mp h)

theorem decimalDigits_ne_nil (n : ℕ) : decimalDigits n ≠ [] := by
  unfold decimalDigits
  split
  · simp
  · rename_i hn
    simpa using Nat.digits_ne_nil_iff_ne_zero.mpr hn

theorem foldl_decimalDigits (n : ℕ) : (decimalDigits n).foldl (fun n d => n * 10 + d) 0 = n := by
  unfold decimalDigits
  split
  · rename_i hn
    rw [hn]
    rfl
  · rw [List.foldl_reverse]
    have h := Nat.ofDigits_digits 10 n
    rw [Nat.ofDigits_eq_foldr] at h
    refine Eq.trans (congrArg (fun f => List.foldr f 0 (Nat.digits 10 n)) ?_) h
    funext d m
    rw [Nat.cast_id]
    ring

/-- A number in range is read back. -/
theorem parseNumber_show {bound n : ℕ} (h : n < bound) : parseNumber bound (showNumber n) = some n := by
  rw [showNumber_eq]
  have hdigits : parseDigits bound 0 ((decimalDigits n).map digitByte) = some n := by
    rw [parseDigits_map (fun _ => decimalDigits_lt) (by rwa [foldl_decimalDigits n]), foldl_decimalDigits]
  obtain ⟨d, ds, hds⟩ := List.exists_cons_of_ne_nil (decimalDigits_ne_nil n)
  have hd : d < 10 := decimalDigits_lt (by rw [hds]; exact List.mem_cons_self)
  have hsign : digitByte d ≠ 43 := by
    intro he
    have hnat := toNat_digitByte hd
    rw [he] at hnat
    have h43 : (43 : UInt8).toNat = 43 := rfl
    omega
  rw [hds, List.map_cons] at hdigits ⊢
  unfold parseNumber
  split
  · rename_i he
    cases he
  · rename_i he
    exact absurd (List.cons.inj he).1 hsign
  · rename_i b s _ he
    rw [List.cons.injEq] at he
    rw [← he.1, ← he.2, if_neg hsign, hdigits]

/-- The text of a number is made of digits. -/
theorem isDigit_of_mem_show {n : ℕ} {b : UInt8} (h : b ∈ showNumber n) : 48 ≤ b ∧ b ≤ 57 := by
  rw [showNumber_eq] at h
  obtain ⟨d, hd, rfl⟩ := List.mem_map.mp h
  exact isDigit_digitByte (decimalDigits_lt hd)

/-! ### Hex -/

/-- The value of a hex digit. -/
def hexValue (b : UInt8) : Option ℕ :=
  if 48 ≤ b ∧ b ≤ 57 then some (b.toNat - 48)
  else if 97 ≤ b ∧ b ≤ 102 then some (b.toNat - 87)
  else if 65 ≤ b ∧ b ≤ 70 then some (b.toNat - 55)
  else none

/-- `u8::from_str_radix(pair, 16)`; it takes a sign. -/
def hexPair (a b : UInt8) : Option UInt8 :=
  if a = 43 then (hexValue b).map UInt8.ofNat
  else (hexValue a).bind (fun high => (hexValue b).map (fun low => UInt8.ofNat (16 * high + low)))

def unhex : Str → Option Str
  | [] => some []
  | [_] => none
  | a :: b :: rest => (hexPair a b).bind (fun byte => (unhex rest).map (fun bytes => byte :: bytes))

theorem hexValue_hexDigit : ∀ n < 16, hexValue (Control.hexDigit n) = some n := by decide

theorem hexDigit_ne_plus : ∀ n < 16, Control.hexDigit n ≠ 43 := by decide

theorem hex_cons (b : UInt8) (s : Str) : Control.hex (b :: s) =
    Control.hexDigit (b.toNat / 16) :: Control.hexDigit (b.toNat % 16) :: Control.hex s := rfl

theorem unhex_hex (s : Str) : unhex (Control.hex s) = some s := by
  induction s with
  | nil => rfl
  | cons b s ih =>
      have hb := b.toNat_lt
      have hhigh : b.toNat / 16 < 16 := by omega
      have hlow : b.toNat % 16 < 16 := by omega
      have hbyte : UInt8.ofNat (16 * (b.toNat / 16) + b.toNat % 16) = b := by
        rw [Nat.div_add_mod]
        exact UInt8.ofNat_toNat
      rw [hex_cons, unhex, hexPair, if_neg (hexDigit_ne_plus _ hhigh), hexValue_hexDigit _ hhigh,
        hexValue_hexDigit _ hlow, ih]
      show some (UInt8.ofNat _ :: s) = _
      rw [hbyte]

/-- A byte of lower-case hex. -/
def lowerHex (b : UInt8) : Bool := (48 ≤ b && b ≤ 57) || (97 ≤ b && b ≤ 102)

theorem lowerHex_hexDigit : ∀ n < 16, lowerHex (Control.hexDigit n) = true := by decide

theorem lowerHex_of_mem_hex {s : Str} {b : UInt8} (h : b ∈ Control.hex s) : lowerHex b = true := by
  unfold Control.hex at h
  obtain ⟨c, _, hb⟩ := List.mem_flatMap.mp h
  have hc := c.toNat_lt
  simp only [List.mem_cons, List.not_mem_nil, or_false] at hb
  obtain rfl | rfl := hb
  · exact lowerHex_hexDigit _ (by omega)
  · exact lowerHex_hexDigit _ (by omega)

theorem length_hex (s : Str) : (Control.hex s).length = 2 * s.length := by
  induction s with
  | nil => rfl
  | cons b s ih =>
      rw [hex_cons, List.length_cons, List.length_cons, List.length_cons, ih]
      omega

/-! ### IDs -/

instance : IdBytes ObjectId where
  idBytes := Subtype.val
  idBytes_injective := Subtype.val_injective

/-- `ObjectId::parse`. -/
def parseObjectId (value : Str) : Option ObjectId :=
  if value.length = 64 ∧ ∀ b ∈ value, lowerHex b = true then
    (unhex value).bind (fun bytes => if h : bytes.length = 32 then some ⟨bytes, h⟩ else none)
  else none

theorem parseObjectId_idText (id : ObjectId) : parseObjectId (idText id) = some id := by
  have hid : idText id = Control.hex id.1 := rfl
  have hlen : (Control.hex id.1).length = 64 := by rw [length_hex, id.2]
  unfold parseObjectId
  rw [hid, if_pos ⟨hlen, fun _ => lowerHex_of_mem_hex⟩, unhex_hex]
  exact dif_pos id.2

/-- The bytes of an operation ID: ASCII letters, digits, `-`, `_` or `.`. -/
def operationByte (b : UInt8) : Bool :=
  (48 ≤ b && b ≤ 57) || (65 ≤ b && b ≤ 90) || (97 ≤ b && b ≤ 122) || b = 45 || b = 95 || b = 46

/-- An operation ID has 1 to 128 of these bytes. -/
def OperationText (value : Str) : Prop := value ≠ [] ∧ value.length ≤ 128 ∧ ∀ b ∈ value, operationByte b = true

instance (value : Str) : Decidable (OperationText value) := inferInstanceAs (Decidable (_ ∧ _ ∧ _))

def OperationId.parse (value : Str) : Option OperationId := if OperationText value then some ⟨value⟩ else none

def LayerId.parse (value : Str) : Option LayerId := (OperationId.parse value).map (fun _ => ⟨value⟩)

/-- `RequestId::parse`. -/
def Collaboration.RequestId.parse (value : Str) : Option RequestId :=
  if h : OpaqueId value then some ⟨value, h⟩ else none

/-! ### Visible characters -/

/-- Visible ASCII, so neither a space nor part of a longer character. -/
def Plain (token : Str) : Prop := ∀ b ∈ token, 32 < b ∧ b < 128

instance (token : Str) : Decidable (Plain token) := inferInstanceAs (Decidable (∀ b ∈ token, _))

theorem plain_of_digits {token : Str} (h : ∀ b ∈ token, 48 ≤ b ∧ b ≤ 57) : Plain token := by
  intro b hb
  obtain ⟨hlow, hhigh⟩ := h b hb
  exact ⟨lt_of_lt_of_le (by decide) hlow, lt_of_le_of_lt hhigh (by decide)⟩

theorem plain_showNumber (n : ℕ) : Plain (showNumber n) := plain_of_digits (fun _ => isDigit_of_mem_show)

theorem visible_of_opaqueByte {b : UInt8} (h : opaqueByte b = true) : 32 < b ∧ b < 128 := by
  simp only [opaqueByte, Bool.or_eq_true, Bool.and_eq_true, decide_eq_true_eq, UInt8.le_iff_toNat_le,
    ← UInt8.toNat_inj] at h
  rw [UInt8.lt_iff_toNat_lt, UInt8.lt_iff_toNat_lt]
  simp only [UInt8.reduceToNat] at h ⊢
  omega

theorem opaqueByte_of_lowerHex {b : UInt8} (h : lowerHex b = true) : opaqueByte b = true := by
  simp only [lowerHex, opaqueByte, Bool.or_eq_true, Bool.and_eq_true, decide_eq_true_eq, UInt8.le_iff_toNat_le,
    ← UInt8.toNat_inj] at h ⊢
  simp only [UInt8.reduceToNat] at h ⊢
  omega

theorem opaqueByte_of_operation {b : UInt8} (h : operationByte b = true) : opaqueByte b = true := by
  unfold opaqueByte
  rw [show ((48 ≤ b && b ≤ 57) || (65 ≤ b && b ≤ 90) || (97 ≤ b && b ≤ 122) || b = 45 || b = 95 || b = 46) = true
    from h, Bool.true_or]

theorem plain_hex (bytes : Str) : Plain (Control.hex bytes) :=
  fun _ hb => visible_of_opaqueByte (opaqueByte_of_lowerHex (lowerHex_of_mem_hex hb))

theorem plain_opaqueId {token : Str} (h : OpaqueId token) : Plain token :=
  fun b hb => visible_of_opaqueByte (h.2.2 b hb)

theorem plain_operation {token : Str} (h : OperationText token) : Plain token :=
  fun b hb => visible_of_opaqueByte (opaqueByte_of_operation (h.2.2 b hb))

theorem ascii_of_plain {token : Str} (h : Plain token) : ofText token ≠ none := by
  obtain ⟨s, hs⟩ := exists_text_of_ascii (fun b hb => (h b hb).2)
  rw [hs, ofText_text]
  exact Option.some_ne_none s

/-! ### Lines -/

def space : UInt8 := 32

/-- The texts with a space between two. -/
def spaced : List Str → Str
  | [] => []
  | [a] => a
  | a :: b :: rest => a ++ space :: spaced (b :: rest)

/-- `text.split(' ')`. -/
def tokens (line : Str) : List Str := line.splitOn space

theorem tokens_spaced {ts : List Str} (hts : ∀ t ∈ ts, space ∉ t) (hne : ts ≠ []) : tokens (spaced ts) = ts := by
  have h : ∀ ts : List Str, spaced ts = [space].intercalate ts := by
    intro ts
    induction ts with
    | nil => rfl
    | cons a rest ih =>
        cases rest with
        | nil => simp [spaced]
        | cons b rest =>
            rw [spaced, ih]
            simp
  rw [h]
  exact List.splitOn_intercalate space hts hne

/-- A line in a line. -/
theorem spaced_append {as bs : List Str} (ha : as ≠ []) (hb : bs ≠ []) :
    spaced (as ++ bs) = spaced as ++ space :: spaced bs := by
  induction as with
  | nil => exact absurd rfl ha
  | cons a as ih =>
      cases as with
      | nil =>
          obtain ⟨b, bs, rfl⟩ := List.exists_cons_of_ne_nil hb
          rfl
      | cons c as =>
          rw [List.cons_append, List.cons_append, spaced, spaced, ← List.cons_append,
            ih (List.cons_ne_nil c as), List.append_assoc, List.cons_append]

/-- A line of plain tokens is text, and splits into them. -/
theorem line_of_plain {ts : List Str} (h : ∀ t ∈ ts, Plain t) (hne : ts ≠ []) :
    ofText (spaced ts) ≠ none ∧ tokens (spaced ts) = ts := by
  constructor
  · have hascii : ∀ b ∈ spaced ts, b < 128 := by
      clear hne
      induction ts with
      | nil =>
          intro b hb
          cases hb
      | cons t ts ih =>
          have hrest := ih (fun t ht => h t (List.mem_cons_of_mem _ ht))
          intro b hb
          cases ts with
          | nil => exact (h t List.mem_cons_self b hb).2
          | cons t' ts =>
              rw [spaced, List.mem_append, List.mem_cons] at hb
              obtain hb | rfl | hb := hb
              · exact (h t List.mem_cons_self b hb).2
              · decide
              · exact hrest b hb
    obtain ⟨s, hs⟩ := exists_text_of_ascii hascii
    rw [hs, ofText_text]
    exact Option.some_ne_none s
  · refine tokens_spaced (fun t ht hm => ?_) hne
    exact absurd (h t ht space hm).1 (by decide)

end Javelin
