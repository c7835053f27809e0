import Javelin.NumberedObjects
import Javelin.Checkpoints

/-! # Numbered records

The instance of `Encoding` over the numbered objects: a record is the decimal text of a number that
encodes its fields. -/

namespace Javelin

open KeyedList

/-- A number in decimal. -/
def decimal (n : ℕ) : Str := (Nat.digits 10 n).map (fun d => UInt8.ofNat (48 + d))

/-- The number that a decimal text says. -/
def ofDecimal (s : Str) : ℕ := Nat.ofDigits 10 (s.map (fun b => b.toNat - 48))

theorem ofDecimal_decimal (n : ℕ) : ofDecimal (decimal n) = n := by
  have hdigits : (decimal n).map (fun b => b.toNat - 48) = Nat.digits 10 n := by
    unfold decimal
    rw [List.map_map]
    refine (List.map_congr_left (fun d hd => ?_)).trans (List.map_id _)
    have hlt : d < 10 := Nat.digits_lt_base (by decide) hd
    show (UInt8.ofNat (48 + d)).toNat - 48 = d
    rw [UInt8.toNat_ofNat', Nat.mod_eq_of_lt (by omega)]
    omega
  unfold ofDecimal
  rw [hdigits, Nat.ofDigits_digits]

/-! ### Provenance -/

def textNumbers (s : String) : List ℕ := s.toList.map Char.toNat

def ofTextNumbers (l : List ℕ) : String := String.ofList (l.map Char.ofNat)

theorem ofTextNumbers_textNumbers (s : String) : ofTextNumbers (textNumbers s) = s := by
  unfold ofTextNumbers textNumbers
  rw [List.map_map, show Char.ofNat ∘ Char.toNat = id from funext Char.ofNat_toNat, List.map_id,
    String.ofList_toList]

def Actor.number : Actor → ℕ
  | human => 0
  | agent => 1

def Actor.ofNumber : ℕ → Option Actor
  | 0 => some human
  | 1 => some agent
  | _ => none

def Provenance.numbers (p : Provenance) : ℕ × Option (List ℕ) × Option (List ℕ) × Option (List ℕ) :=
  (p.actor.number, p.agent.map textNumbers, p.session.map textNumbers, p.reference.map textNumbers)

def Provenance.ofNumbers (x : ℕ × Option (List ℕ) × Option (List ℕ) × Option (List ℕ)) :
    Option Provenance :=
  (Actor.ofNumber x.1).map (fun actor => ⟨actor, x.2.1.map ofTextNumbers,
    x.2.2.1.map ofTextNumbers, x.2.2.2.map ofTextNumbers⟩)

theorem Provenance.ofNumbers_numbers (p : Provenance) : ofNumbers p.numbers = some p := by
  have htext : ∀ s : Option String, (s.map textNumbers).map ofTextNumbers = s := by
    intro s
    rw [Option.map_map, show ofTextNumbers ∘ textNumbers = id from funext ofTextNumbers_textNumbers,
      Option.map_id_fun, id]
  obtain ⟨actor, agent, session, reference⟩ := p
  unfold ofNumbers numbers
  rw [htext, htext, htext]
  cases actor with
  | human => rfl
  | agent => rfl

/-! ### Heads, versions and outcomes -/

def LayerHead.numbers (h : LayerHead ℕ) : ℕ × List ℕ × ℕ × ℕ :=
  (h.repository, strNumbers h.layer.text, h.revision, h.checkpoint)

def WorldVersion.numbers (v : WorldVersion ℕ) : ℕ × ℕ × ℕ × Option (List ℕ) :=
  (v.number, v.id, v.tree, v.operation.map (fun op => strNumbers op.text))

def LayerState.code : LayerState ℕ → ℕ
  | active head => Encodable.encode (0, Encodable.encode head.numbers)
  | published head op version =>
      Encodable.encode (1, Encodable.encode (head.numbers, strNumbers op.text, version.numbers))
  | discarded layer revision checkpoint =>
      Encodable.encode (2, Encodable.encode (strNumbers layer.text, revision, checkpoint))

def LayerUpdate.numbers : LayerUpdate ℕ → ℕ × ℕ
  | applied state => (0, state.code)
  | stale state => (1, state.code)

def StackBinding.numbers (b : StackBinding ℕ) :
    Option ℕ × List ℕ × (ℕ × List ℕ × ℕ × ℕ) × ℕ × ℕ × (ℕ × ℕ) :=
  (b.resolution, strNumbers b.operation.text, b.expected.numbers, b.source, b.candidate,
    b.outcome.numbers)

def PublishAttribution.numbers : PublishAttribution ℕ → ℕ × Option ℕ
  | human => (0, none)
  | agent context allowMissingTrace => (1 + allowMissingTrace.toNat, context)

def PublishOutcome.code : PublishOutcome ℕ → ℕ
  | published version => Encodable.encode (0, Encodable.encode version.numbers)
  | conflict paths => Encodable.encode (1, Encodable.encode (paths.map RepoPath.numbers))
  | layerStale actual => Encodable.encode (2, actual.code)

def PublicationReceipt.numbers (receipt : PublicationReceipt ℕ) :
    List ℕ × (ℕ × List ℕ × ℕ × ℕ) × (ℕ × Option ℕ) × (ℕ × ℕ × ℕ × Option (List ℕ)) × ℕ × ℕ :=
  (strNumbers receipt.operation.text, receipt.expected.numbers, receipt.attribution.numbers,
    receipt.against.numbers, receipt.warnings.length, receipt.outcome.code)

instance : Encoding ℕ where
  provenanceBytes p := decimal (Encodable.encode p.numbers)
  decodeProvenance bytes := (Encodable.decode (ofDecimal bytes)).bind Provenance.ofNumbers
  decodeProvenance_bytes p := by
    rw [ofDecimal_decimal, Encodable.encodek, Option.bind_some, Provenance.ofNumbers_numbers]
  bindingBytes b := decimal (Encodable.encode b.numbers)
  storedResolution bytes :=
    (Encodable.decode (α := Option ℕ × List ℕ × (ℕ × List ℕ × ℕ × ℕ) × ℕ × ℕ × (ℕ × ℕ))
      (ofDecimal bytes)).map Prod.fst
  storedResolution_bytes b := by
    rw [ofDecimal_decimal, Encodable.encodek]
    rfl
  receiptBytes receipt := decimal (Encodable.encode receipt.numbers)

end Javelin
