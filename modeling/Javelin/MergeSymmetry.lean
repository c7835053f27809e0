import Javelin.MergeRounds

/-! # The sides of a merge are alike

Exchanging the two sides, and the two kinds of choices, exchanges them in the outcome and changes
nothing else (`mergeResolved_symm`).  The steps may fail in another order, so the parts are
compared where they succeed; a second exchange gives the other direction. -/

namespace Javelin

open KeyedList

/-! ### Lines -/

section lines
variable {α : Type} [DecidableEq α]

/-- A step with the changing side exchanged. -/
def Step.swap (step : Step α) : Step α := { step with side := step.side.map not }

/-- An anchor with the sides exchanged. -/
def swapAnchor (a : ℕ × ℕ × ℕ) : ℕ × ℕ × ℕ := (a.1, a.2.2, a.2.1)

theorem anchors_comm (b : ℕ) (xs ys : List (Option ℕ)) :
    anchors b ys xs = (anchors b xs ys).map swapAnchor := by
  induction xs generalizing b ys with
  | nil =>
      cases ys with
      | nil => rfl
      | cons y ys => cases y <;> rfl
  | cons x xs ih =>
      cases ys with
      | nil => cases x <;> rfl
      | cons y ys =>
          cases x with
          | none => cases y <;> exact ih (b + 1) ys
          | some o =>
              cases y with
              | none => exact ih (b + 1) ys
              | some t => exact congrArg ((b, t, o) :: ·) (ih (b + 1) ys)

theorem region_comm (base ours theirs : List α) :
    region base theirs ours = (region base ours theirs).map (fun r => (r.1.map not, r.2)) := by
  unfold region
  by_cases ho : ours = base
  · by_cases ht : theirs = base <;> simp [ho, ht]
  · by_cases ht : theirs = base <;> simp [ho, ht]

theorem steps_comm (base ours theirs : List α) (as : List (ℕ × ℕ × ℕ)) (b o t : ℕ) :
    steps base theirs ours (as.map swapAnchor) b t o =
      (steps base ours theirs as b o t).map (List.map Step.swap) := by
  induction as generalizing b o t with
  | nil =>
      show (region (base.drop b) (theirs.drop t) (ours.drop o) >>= fun r =>
        return [(⟨r.1, r.2, none⟩ : Step α)]) = _
      rw [region_comm]
      unfold steps
      cases region (base.drop b) (ours.drop o) (theirs.drop t) with
      | none => rfl
      | some r => rfl
  | cons a as ih =>
      obtain ⟨nb, no, nt⟩ := a
      show (region (slice base b nb) (slice theirs t nt) (slice ours o no) >>= fun r => do
        let steps ← steps base theirs ours (as.map swapAnchor) (nb + 1) (nt + 1) (no + 1)
        return ((⟨r.1, r.2, some nb⟩ : Step α) :: steps)) = _
      rw [region_comm, ih]
      show _ = (region (slice base b nb) (slice ours o no) (slice theirs t nt) >>= fun r => do
        let steps ← steps base ours theirs as (nb + 1) (no + 1) (nt + 1)
        return ((⟨r.1, r.2, some nb⟩ : Step α) :: steps)).map (List.map Step.swap)
      cases region (slice base b nb) (slice ours o no) (slice theirs t nt) with
      | none => rfl
      | some r =>
          cases steps base ours theirs as (nb + 1) (no + 1) (nt + 1) with
          | none => rfl
          | some l => rfl

omit [DecidableEq α] in
theorem join_swap (base : List α) (separates : ℕ → Bool) (steps : List (Step α)) (last : Option Bool)
    (separated : Bool) :
    join base separates (steps.map Step.swap) (last.map not) separated =
      join base separates steps last separated := by
  induction steps generalizing last separated with
  | nil => rfl
  | cons step steps ih =>
      obtain ⟨side, taken, line⟩ := step
      have hside : (Option.map not side).isSome = side.isSome := by simp
      have hlast : (Option.map not last).isSome = last.isSome := by simp
      have hne : (Option.map not last ≠ Option.map not side) = (last ≠ side) := by
        rw [ne_eq, ne_eq, (Option.map_injective Bool.involutive_not.injective).eq_iff]
      have hopen : (if side.isSome then side.map not else last.map not) =
          (if side.isSome then side else last).map not := by
        split <;> rfl
      rw [List.map_cons]
      unfold join
      simp only [Step.swap, hside, hlast, hne, hopen, ih]

theorem diff3_comm (base ours theirs : List α) : diff3 base ours theirs = diff3 base theirs ours := by
  have hseparates : separates base theirs ours = separates base ours theirs := by
    funext i
    have hunique : unique base theirs ours = unique base ours theirs := by
      funext x
      unfold unique
      simp only [List.all_cons, List.all_nil, Bool.and_true]
      rw [Bool.and_comm (theirs.count x == 1)]
    unfold separates
    rw [hunique, Bool.and_comm ((mandatory base theirs).getD i false)]
  have hrun : ∀ ours theirs : List α, diff3 base ours theirs =
      (steps base ours theirs (anchors 0 (matchRows base ours).1 (matchRows base theirs).1) 0 0 0).bind
        (fun steps => join base (separates base ours theirs) steps none false) := fun _ _ => rfl
  rw [hrun, hrun, hseparates, anchors_comm 0 (matchRows base ours).1, steps_comm]
  cases steps base ours theirs (anchors 0 (matchRows base ours).1 (matchRows base theirs).1) 0 0 0 with
  | none => rfl
  | some l => exact (join_swap base _ l none false).symm

end lines

/-! ### Exchanging the sides -/

/-- The choice of the other side. -/
def Choice.swap : Choice → Choice
  | .ours => .theirs
  | .theirs => .ours
  | .content bytes executable => .content bytes executable

namespace Merge

section swap
variable {Id : Type}

/-- Choices with the sides exchanged. -/
def swapChoices (choices : SortedMap RepoPath Choice) : SortedMap RepoPath Choice :=
  ⟨choices.toList.map (fun e => (e.1, e.2.swap)), choices.ascending.map (fun _ _ => rfl)⟩

def Sides.swap (sides : Sides Id) : Sides Id := ⟨sides.base, sides.theirs, sides.ours⟩

def Row.swap (row : Row Id) : Row Id := { row with sides := row.sides.swap }

def Conflict.swap (conflict : Conflict Id) : Conflict Id :=
  { conflict with ours := conflict.theirs, theirs := conflict.ours }

def MergeOutcome.swap (outcome : MergeOutcome Id) : MergeOutcome Id :=
  { outcome with conflicts := outcome.conflicts.map Conflict.swap }

@[simp] theorem MergeOutcome.swap_swap (outcome : MergeOutcome Id) : outcome.swap.swap = outcome := by
  obtain ⟨merged, conflicts, unused, usage⟩ := outcome
  unfold MergeOutcome.swap
  simp only [List.map_map]
  have hid : (Conflict.swap ∘ Conflict.swap : Conflict Id → Conflict Id) = id := rfl
  rw [hid, List.map_id]

theorem get?_swapChoices (choices : SortedMap RepoPath Choice) (p : RepoPath) :
    (swapChoices choices).get? p = (choices.get? p).map Choice.swap := by
  unfold swapChoices SortedMap.get?
  rw [lookup_map (fun e => Iff.rfl), Option.map_map, Option.map_map]
  rfl

theorem swapChoices_swapChoices (choices : SortedMap RepoPath Choice) :
    swapChoices (swapChoices choices) = choices := by
  apply SortedMap.ext
  intro p
  rw [get?_swapChoices, get?_swapChoices, Option.map_map]
  have hid : Choice.swap ∘ Choice.swap = id := by
    funext c
    cases c <;> rfl
  rw [hid, Option.map_id]
  rfl

theorem keys_swapChoices (choices : SortedMap RepoPath Choice) :
    (swapChoices choices).keys = choices.keys := by
  unfold swapChoices SortedMap.keys
  rw [List.map_map]
  rfl

/-- A choice of one side takes the same entry from exchanged sides. -/
theorem choose_swap {choice : Choice} (h : choice = .ours ∨ choice = .theirs) (sides : Sides Id) :
    choose choice.swap sides.swap = choose choice sides := by
  rcases h with rfl | rfl <;> rfl

theorem present_swap (rows : List (Row Id)) : present (rows.map Row.swap) = present rows := by
  have hpresent : ∀ row : Row Id, row.swap.present = row.present := by
    intro row
    unfold Row.present Row.swap Sides.swap
    cases row.result with
    | resolved m => rfl
    | deleted => rfl
    | unresolved kind => exact Bool.or_comm _ _
  unfold present
  rw [List.filter_map, List.map_map]
  congr 1
  exact List.filter_congr (fun row _ => hpresent row)

end swap

/-! ### Steps that mirror each other -/

/-- Where `x` succeeds, `y` does, with a related result and the same usage. -/
def Mirrors {E α β : Type} (R : α → β → Prop) (x : MergeM Unit E α) (y : MergeM Unit E β) : Prop :=
  ∀ s a s', x s = .ok (a, s') → ∃ b, y s = .ok (b, s') ∧ R a b

namespace Mirrors
variable {E α β γ δ : Type} {R : α → β → Prop} {Q : γ → δ → Prop} {x : MergeM Unit E α}
  {y : MergeM Unit E β} {f : α → MergeM Unit E γ} {g : β → MergeM Unit E δ}

theorem pure {a : α} {b : β} (h : R a b) : Mirrors R (Pure.pure a : MergeM Unit E α) (Pure.pure b) := by
  intro s a' s' ha
  obtain ⟨rfl, rfl⟩ := pure_eq_ok.mp ha
  exact ⟨b, rfl, h⟩

theorem refl (x : MergeM Unit E α) : Mirrors Eq x x := fun _ a _ h => ⟨a, h, rfl⟩

theorem bind (h : Mirrors R x y) (hf : ∀ a b, R a b → Mirrors Q (f a) (g b)) :
    Mirrors Q (x >>= f) (y >>= g) := by
  intro s c s' hc
  obtain ⟨a, t, ha, hfa⟩ := bind_eq_ok.mp hc
  obtain ⟨b, hb, hab⟩ := h s a t ha
  obtain ⟨d, hd, hcd⟩ := hf a b hab t c s' hfa
  exact ⟨d, bind_eq_ok.mpr ⟨b, t, hb, hd⟩, hcd⟩

theorem mapM {A : Type} {k : A → MergeM Unit E α} {l : A → MergeM Unit E β}
    (h : ∀ a, Mirrors R (k a) (l a)) (as : List A) :
    Mirrors (List.Forall₂ R) (as.mapM k) (as.mapM l) := by
  induction as with
  | nil =>
      rw [List.mapM_nil, List.mapM_nil]
      exact pure List.Forall₂.nil
  | cons a as ih =>
      rw [List.mapM_cons, List.mapM_cons]
      exact (h a).bind (fun _ _ hr => ih.bind (fun _ _ hrs => pure (List.Forall₂.cons hr hrs)))

end Mirrors

/-! ### Loading and matching -/

section content
variable {Id E : Type} {load : Id → Caller Unit E Str} {usage usage' : Usage} {n : ℕ}

theorem check_eq_ok {resource : Resource} {u : Unit} :
    (resource.check n : Except (MergeError E) Unit) = .ok u ↔ n ≤ resource.limit := by
  unfold Resource.check
  by_cases h : resource.limit < n
  · rw [if_pos h]
    simp [h]
  · rw [if_neg h]
    simp [Nat.not_lt.mp h]

theorem reserve_eq_ok : (usage.reserve n : Except (MergeError E) Usage) = .ok usage' ↔
    usage.workUnits + n ≤ Resource.work.limit ∧ usage' = ⟨usage.workUnits + n, usage.loadedBytes⟩ := by
  unfold Usage.reserve
  rw [except_bind_eq_ok]
  constructor
  · rintro ⟨_, hc, hu⟩
    exact ⟨check_eq_ok.mp hc, (Except.ok.inj hu).symm⟩
  · rintro ⟨hle, rfl⟩
    exact ⟨(), check_eq_ok.mpr hle, rfl⟩

theorem loaded_eq_ok : (usage.loaded n : Except (MergeError E) Usage) = .ok usage' ↔
    (n ≤ Resource.blobBytes.limit ∧ usage.loadedBytes + n ≤ Resource.loadedBytes.limit ∧
      usage.workUnits + (4 * n + 32) ≤ Resource.work.limit) ∧
    usage' = ⟨usage.workUnits + (4 * n + 32), usage.loadedBytes + n⟩ := by
  unfold Usage.loaded
  simp only [except_bind_eq_ok, reserve_eq_ok]
  constructor
  · rintro ⟨_, h₁, _, h₂, u, ⟨h₃, rfl⟩, hu⟩
    exact ⟨⟨check_eq_ok.mp h₁, check_eq_ok.mp h₂, h₃⟩, (Except.ok.inj hu).symm⟩
  · rintro ⟨⟨h₁, h₂, h₃⟩, rfl⟩
    exact ⟨(), check_eq_ok.mpr h₁, (), check_eq_ok.mpr h₂, _, ⟨h₃, rfl⟩, rfl⟩

theorem spend_eq_ok {σ : Type} {f : Usage → Except (MergeError E) Usage} {s s' : σ × Usage} {u : Unit} :
    spend f s = .ok (u, s') ↔ f s.2 = .ok s'.2 ∧ s'.1 = s.1 := by
  unfold spend
  rw [except_bind_eq_ok]
  constructor
  · rintro ⟨usage, hf, hs⟩
    cases hs
    exact ⟨hf, rfl⟩
  · rintro ⟨hf, hs⟩
    exact ⟨s'.2, hf, by rw [← hs]; rfl⟩

theorem call_eq_ok {σ α : Type} {f : Caller σ E α} {s s' : σ × Usage} {a : α} :
    call f s = .ok (a, s') ↔ f s.1 = .ok (a, s'.1) ∧ s'.2 = s.2 := by
  unfold call
  cases hf : f s.1 with
  | error e => simp
  | ok r =>
      simp only [Except.ok.injEq]
      constructor
      · rintro h
        cases h
        exact ⟨rfl, rfl⟩
      · rintro ⟨h, h'⟩
        rw [h, ← h']

theorem boundedLoad_eq_ok {id : Id} {bytes : Str} {s s' : Unit × Usage} :
    boundedLoad load id s = .ok (bytes, s') ↔
      load id () = .ok (bytes, ()) ∧ s.2.loaded bytes.length = (.ok s'.2 : Except (MergeError E) Usage) := by
  unfold boundedLoad
  rw [bind_eq_ok]
  constructor
  · rintro ⟨b, t, hcall, h⟩
    obtain ⟨_, t', hspend, hret⟩ := bind_eq_ok.mp h
    obtain ⟨rfl, rfl⟩ := pure_eq_ok.mp hret
    obtain ⟨hl, ht⟩ := call_eq_ok.mp hcall
    obtain ⟨hu, _⟩ := spend_eq_ok.mp hspend
    rw [ht] at hu
    exact ⟨hl, hu⟩
  · rintro ⟨hl, hu⟩
    refine ⟨bytes, ((), s.2), call_eq_ok.mpr ⟨hl, rfl⟩, ?_⟩
    exact bind_eq_ok.mpr ⟨(), s', spend_eq_ok.mpr ⟨hu, rfl⟩, rfl⟩

/-- Two loads may be exchanged. -/
theorem boundedLoad_comm {a b : Id} {u v : Str} {s t s' : Unit × Usage}
    (ha : boundedLoad load a s = .ok (u, t)) (hb : boundedLoad load b t = .ok (v, s')) :
    ∃ t', boundedLoad load b s = .ok (v, t') ∧ boundedLoad load a t' = .ok (u, s') := by
  obtain ⟨hla, hua⟩ := boundedLoad_eq_ok.mp ha
  obtain ⟨hlb, hub⟩ := boundedLoad_eq_ok.mp hb
  obtain ⟨⟨ha₁, ha₂, ha₃⟩, hta⟩ := loaded_eq_ok.mp hua
  rw [hta] at hub
  obtain ⟨⟨hb₁, hb₂, hb₃⟩, htb⟩ := loaded_eq_ok.mp hub
  refine ⟨((), ⟨s.2.workUnits + (4 * v.length + 32), s.2.loadedBytes + v.length⟩),
    boundedLoad_eq_ok.mpr ⟨hlb, loaded_eq_ok.mpr ⟨⟨hb₁, ?_, ?_⟩, rfl⟩⟩,
    boundedLoad_eq_ok.mpr ⟨hla, loaded_eq_ok.mpr ⟨⟨ha₁, ?_, ?_⟩, ?_⟩⟩⟩
  · simp only at hb₂
    omega
  · simp only at hb₃
    omega
  · simp only at hb₂ ⊢
    omega
  · simp only at hb₃ ⊢
    omega
  · rw [htb, Usage.mk.injEq]
    constructor
    · simp only
      omega
    · simp only
      omega

theorem sideWork_eq_ok {b m o w : ℕ} : (sideWork n b m o : Except (MergeError E) ℕ) = .ok w ↔
    (n + 1) * (m + 1) ≤ Resource.tableCells.limit ∧
      w = 5 * ((n + 1) * (m + 1)) + 3 * min (n * o) (m * b) + 4 * (n + m + 1) := by
  unfold sideWork
  simp only [except_bind_eq_ok]
  constructor
  · rintro ⟨_, hc, hw⟩
    exact ⟨check_eq_ok.mp hc, (Except.ok.inj hw).symm⟩
  · rintro ⟨hle, rfl⟩
    exact ⟨(), check_eq_ok.mpr hle, rfl⟩

theorem linesWork_comm {base ours theirs : Str} {w : ℕ}
    (h : linesWork base ours theirs = (.ok w : Except (MergeError E) ℕ)) :
    linesWork base theirs ours = (.ok w : Except (MergeError E) ℕ) := by
  unfold linesWork at h ⊢
  simp only [except_bind_eq_ok, check_eq_ok, sideWork_eq_ok] at h ⊢
  obtain ⟨_, hn, _, hm, _, hk, w₁, ⟨hc₁, hw₁⟩, w₂, ⟨hc₂, hw₂⟩, hw⟩ := h
  refine ⟨(), hn, (), hk, (), hm, w₂, ⟨hc₂, hw₂⟩, w₁, ⟨hc₁, hw₁⟩, ?_⟩
  rw [← hw]
  show Except.ok _ = Except.ok _
  congr 1
  have hsum : countLines base + countLines theirs + countLines ours + base.length + theirs.length +
      ours.length = countLines base + countLines ours + countLines theirs + base.length +
        ours.length + theirs.length := by omega
  rw [hsum, Nat.add_comm w₂ w₁]

/-- Merging lines does not tell the sides apart. -/
theorem mergeLines_mirrors (base ours theirs : Str) :
    Mirrors Eq (mergeLines base ours theirs : MergeM Unit E _) (mergeLines base theirs ours) := by
  unfold mergeLines
  rw [diff3_comm]
  refine Mirrors.bind (R := Eq) ?_ (fun _ _ _ => Mirrors.pure rfl)
  intro s u s' hs
  refine ⟨u, ?_, rfl⟩
  rw [spend_eq_ok] at hs ⊢
  refine ⟨?_, hs.2⟩
  obtain ⟨w, hw, hr⟩ := except_bind_eq_ok.mp hs.1
  exact except_bind_eq_ok.mpr ⟨w, linesWork_comm hw, hr⟩

theorem mergeContent_mirrors (base ours theirs : Id) (executable : Bool) :
    Mirrors Eq (mergeContent load base ours theirs executable) (mergeContent load base theirs ours executable) := by
  unfold mergeContent
  refine (Mirrors.refl (boundedLoad load base)).bind ?_
  rintro b _ rfl s r s' h
  obtain ⟨o, t₁, ho, h⟩ := bind_eq_ok.mp h
  obtain ⟨t, t₂, ht, h⟩ := bind_eq_ok.mp h
  obtain ⟨t', ht', ho'⟩ := boundedLoad_comm ho ht
  have hrest : ∀ f : Option Str → MergeM Unit E (Path Id), Mirrors Eq
      (if 0 ∈ b ∨ 0 ∈ o ∨ 0 ∈ t then pure (.unresolved .binary) else mergeLines b o t >>= f)
      (if 0 ∈ b ∨ 0 ∈ t ∨ 0 ∈ o then pure (.unresolved .binary) else mergeLines b t o >>= f) := by
    intro f
    by_cases h : 0 ∈ b ∨ 0 ∈ o ∨ 0 ∈ t
    · rw [if_pos h, if_pos (h.imp_right Or.symm)]
      exact Mirrors.pure rfl
    · rw [if_neg h, if_neg (fun h' => h (h'.imp_right Or.symm))]
      refine (mergeLines_mirrors b o t).bind ?_
      rintro r _ rfl
      exact Mirrors.refl _
  obtain ⟨r', hr', rfl⟩ := hrest _ t₂ r s' h
  exact ⟨r, bind_eq_ok.mpr ⟨t, t', ht', bind_eq_ok.mpr ⟨o, t₂, ho', hr'⟩⟩, rfl⟩

end content

/-! ### Rows -/

section rows
variable {Id E : Type} [DecidableEq Id] {load : Id → Caller Unit E Str}

/-- The mode that one side changed, whichever it is. -/
theorem executable_comm (b o t : Bool) : (if o = b then t else o) = if t = b then o else t := by
  cases b <;> cases o <;> cases t <;> rfl

/-- Contents that one side changed, and else the merged ones. -/
theorem mergeRegular_mirrors (b o t : Id) (executable : Bool) :
    Mirrors Eq
      (if o = t ∨ t = b then (pure (.resolved (.retained (.regular o executable))) : MergeM Unit E (Path Id))
        else if o = b then pure (.resolved (.retained (.regular t executable)))
        else mergeContent load b o t executable)
      (if t = o ∨ o = b then (pure (.resolved (.retained (.regular t executable))) : MergeM Unit E (Path Id))
        else if t = b then pure (.resolved (.retained (.regular o executable)))
        else mergeContent load b t o executable) := by
  by_cases hot : o = t
  · subst hot
    simp only [true_or, if_true]
    exact Mirrors.refl _
  · by_cases htb : t = b
    · have hob : o ≠ b := fun h => hot (h.trans htb.symm)
      simp only [htb, or_true, if_true, hob, Ne.symm hob, or_self, if_false]
      exact Mirrors.refl _
    · by_cases hob : o = b
      · simp only [hob, Ne.symm htb, htb, or_self, if_false, or_true, if_true]
        exact Mirrors.refl _
      · simp only [hot, Ne.symm hot, htb, hob, or_self, if_false]
        exact mergeContent_mirrors b o t executable

theorem mergePath_mirrors (sides : Sides Id) :
    Mirrors Eq (mergePath load sides : MergeM Unit E _) (mergePath load sides.swap) := by
  obtain ⟨b, o, t⟩ := sides
  unfold mergePath
  simp only [Sides.swap]
  by_cases hot : o = t
  · subst hot
    simp only [true_or, if_true]
    exact Mirrors.refl _
  · by_cases htb : t = b
    · have hob : o ≠ b := fun h => hot (h.trans htb.symm)
      simp only [htb, or_true, if_true, hob, Ne.symm hob, or_self, if_false]
      exact Mirrors.refl _
    · by_cases hob : o = b
      · simp only [hob, Ne.symm htb, htb, or_self, if_false, or_true, if_true]
        exact Mirrors.refl _
      · simp only [hot, Ne.symm hot, htb, hob, or_self, if_false]
        cases b with
        | none => exact Mirrors.refl _
        | some b =>
            cases o with
            | none =>
                cases t with
                | none => exact Mirrors.refl _
                | some t => cases b <;> cases t <;> exact Mirrors.refl _
            | some o =>
                cases t with
                | none => cases b <;> cases o <;> exact Mirrors.refl _
                | some t =>
                    cases b <;> cases o <;> cases t <;> try exact Mirrors.refl _
                    simp only
                    rw [executable_comm]
                    exact mergeRegular_mirrors _ _ _ _

end rows

/-! ### Admission -/

section admission
variable {Id E : Type} {base ours theirs : Manifest Id}

/-- What a path costs before it is merged. -/
def metadataWork (path : RepoPath) : ℕ := 64 * (path.asStr.length + 1) * (path.asStr.length + 1)

theorem admitPath_eq_ok {total total' : ℕ × ℕ} {path : RepoPath} :
    (admitPath total path : Except (MergeError E) _) = .ok total' ↔
      path.asStr.length ≤ Resource.pathBytes.limit ∧
      total.1 + path.asStr.length ≤ Resource.totalPathBytes.limit ∧
      total' = (total.1 + path.asStr.length, total.2 + metadataWork path) := by
  unfold admitPath
  simp only [except_bind_eq_ok, check_eq_ok]
  constructor
  · rintro ⟨_, hlen, _, htotal, h⟩
    exact ⟨hlen, htotal, (Except.ok.inj h).symm⟩
  · rintro ⟨hlen, htotal, rfl⟩
    exact ⟨(), hlen, (), htotal, rfl⟩

/-- Paths are admitted by their own lengths and the sum of them. -/
theorem foldlM_admitPath {paths : List RepoPath} {total total' : ℕ × ℕ}
    (h : total.1 ≤ Resource.totalPathBytes.limit) :
    (paths.foldlM admitPath total : Except (MergeError E) _) = .ok total' ↔
      (∀ p ∈ paths, p.asStr.length ≤ Resource.pathBytes.limit) ∧
      total.1 + (paths.map (fun p => p.asStr.length)).sum ≤ Resource.totalPathBytes.limit ∧
      total' = (total.1 + (paths.map (fun p => p.asStr.length)).sum,
        total.2 + (paths.map metadataWork).sum) := by
  induction paths generalizing total with
  | nil =>
      rw [List.foldlM_nil]
      constructor
      · intro hret
        cases hret
        refine ⟨?_, h, rfl⟩
        simp
      · rintro ⟨_, _, rfl⟩
        rfl
  | cons path paths ih =>
      rw [List.foldlM_cons, except_bind_eq_ok]
      simp only [List.map_cons, List.sum_cons, List.forall_mem_cons, ← Nat.add_assoc]
      constructor
      · rintro ⟨mid, hmid, hrest⟩
        rw [admitPath_eq_ok] at hmid
        obtain ⟨hlen, htotal, rfl⟩ := hmid
        obtain ⟨hlens, hsum, rfl⟩ := (ih htotal).mp hrest
        exact ⟨⟨hlen, hlens⟩, hsum, rfl⟩
      · rintro ⟨⟨hlen, hlens⟩, hsum, rfl⟩
        have htotal : total.1 + path.asStr.length ≤ Resource.totalPathBytes.limit := by omega
        refine ⟨(_, _), ?_, (ih htotal).mpr ⟨hlens, hsum, rfl⟩⟩
        rw [admitPath_eq_ok]
        exact ⟨hlen, htotal, rfl⟩

theorem admission_comm {usage : Usage}
    (h : admission base ours theirs = (.ok usage : Except (MergeError E) Usage)) :
    admission base theirs ours = (.ok usage : Except (MergeError E) Usage) := by
  have hzero : (0, 0).1 ≤ Resource.totalPathBytes.limit := Nat.zero_le _
  have hperm : (base.entries.keys ++ ours.entries.keys ++ theirs.entries.keys).Perm
      (base.entries.keys ++ theirs.entries.keys ++ ours.entries.keys) := by
    rw [List.append_assoc, List.append_assoc]
    exact List.perm_append_comm.append_left _
  unfold admission at h ⊢
  simp only [except_bind_eq_ok, check_eq_ok, foldlM_admitPath hzero] at h ⊢
  obtain ⟨_, hcount, total, ⟨hlens, hsum, rfl⟩, hreserve⟩ := h
  refine ⟨(), ?_, _, ⟨fun p hp => hlens p (hperm.mem_iff.mpr hp), ?_, rfl⟩, ?_⟩
  · rw [← hperm.length_eq]
    exact hcount
  · rw [← (hperm.map _).sum_nat]
    exact hsum
  · rw [← (hperm.map metadataWork).sum_nat]
    exact hreserve

theorem allPaths_comm : allPaths base theirs ours = allPaths base ours theirs := by
  have hascending : ∀ m : SortedMap RepoPath Unit, Ascending id m.keys :=
    fun m => m.ascending.map (fun _ _ => rfl)
  refine (hascending _).ext_mem (hascending _) (fun p => ?_)
  show p ∈ allPaths base theirs ours ↔ p ∈ allPaths base ours theirs
  rw [mem_allPaths, mem_allPaths, or_comm (a := p ∈ theirs.entries.keys)]

end admission

/-! ### Renames -/

/-- The sources that the sides renamed differently, each with its destinations. -/
def divergent (ours theirs : SortedMap RepoPath RepoPath) : List (RepoPath × RepoPath × RepoPath) :=
  ours.toList.filterMap (fun e =>
    match theirs.get? e.1 with
    | some other => if other ≠ e.2 then some (e.1, e.2, other) else none
    | none => none)

theorem mem_divergent {ours theirs : SortedMap RepoPath RepoPath} {source dest other : RepoPath} :
    (source, dest, other) ∈ divergent ours theirs ↔
      ours.get? source = some dest ∧ theirs.get? source = some other ∧ other ≠ dest := by
  unfold divergent
  rw [List.mem_filterMap]
  constructor
  · rintro ⟨⟨p, q⟩, hm, h⟩
    cases ht : theirs.get? p with
    | none => simp [ht] at h
    | some r =>
        by_cases hr : r = q
        · simp [ht, hr] at h
        · simp only [ht, ne_eq, hr, not_false_eq_true, if_true, Option.some.injEq, Prod.mk.injEq] at h
          obtain ⟨rfl, rfl, rfl⟩ := h
          exact ⟨SortedMap.get?_eq_some.mpr hm, ht, hr⟩
  · rintro ⟨ho, ht, hne⟩
    refine ⟨(source, dest), SortedMap.get?_eq_some.mp ho, ?_⟩
    simp [ht, hne]

theorem ascending_divergent (ours theirs : SortedMap RepoPath RepoPath) :
    Ascending Prod.fst (divergent ours theirs) := by
  apply ours.ascending.filterMap
  rintro ⟨p, q⟩ _ d hd
  cases ht : theirs.get? p with
  | none => simp [ht] at hd
  | some r =>
      by_cases hr : r = q
      · simp [ht, hr] at hd
      · simp only [ht, ne_eq, hr, not_false_eq_true, if_true, Option.some.injEq] at hd
        rw [← hd]

/-- A source with its destinations exchanged. -/
def swapDestinations (d : RepoPath × RepoPath × RepoPath) : RepoPath × RepoPath × RepoPath :=
  (d.1, d.2.2, d.2.1)

theorem divergent_comm (ours theirs : SortedMap RepoPath RepoPath) :
    divergent theirs ours = (divergent ours theirs).map swapDestinations := by
  refine (ascending_divergent theirs ours).ext_mem
    ((ascending_divergent ours theirs).map (fun _ _ => rfl)) ?_
  rintro ⟨source, dest, other⟩
  rw [mem_divergent, List.mem_map]
  constructor
  · rintro ⟨ht, ho, hne⟩
    exact ⟨(source, other, dest), mem_divergent.mpr ⟨ho, ht, Ne.symm hne⟩, rfl⟩
  · rintro ⟨⟨p, q, r⟩, hm, hd⟩
    cases hd
    obtain ⟨ho, ht, hne⟩ := mem_divergent.mp hm
    exact ⟨ht, ho, Ne.symm hne⟩

/-- The destinations of a source become partners. -/
def pair (partners : SortedMap RepoPath RepoPath) (d : RepoPath × RepoPath × RepoPath) :
    SortedMap RepoPath RepoPath := (partners.insert d.2.1 d.2.2).insert d.2.2 d.2.1

theorem renamePartners_eq (ours theirs : SortedMap RepoPath RepoPath) :
    renamePartners ours theirs = (divergent ours theirs).foldl pair SortedMap.empty := by
  unfold renamePartners divergent
  rw [List.foldl_filterMap]
  congr 1
  funext partners e
  cases theirs.get? e.1 with
  | none => rfl
  | some other => by_cases h : other ≠ e.2 <;> simp [h, pair]

theorem pair_swapDestinations (partners : SortedMap RepoPath RepoPath)
    (d : RepoPath × RepoPath × RepoPath) : pair partners (swapDestinations d) = pair partners d := by
  obtain ⟨p, q, r⟩ := d
  unfold pair swapDestinations
  apply SortedMap.ext
  intro k
  simp only [SortedMap.get?_insert]
  by_cases hq : q = k
  · by_cases hr : r = k
    · simp [hq, hr]
    · simp [hq, hr]
  · by_cases hr : r = k <;> simp [hq, hr]

theorem partnersOf_comm {Id : Type} [DecidableEq Id] (base ours theirs : Manifest Id) :
    partnersOf base theirs ours = partnersOf base ours theirs := by
  unfold partnersOf
  rw [renamePartners_eq, renamePartners_eq, divergent_comm, List.foldl_map]
  congr 1
  funext partners d
  exact pair_swapDestinations partners d

/-! ### The rows and the rounds -/

section rounds
variable {Id E : Type} {load : Id → Caller Unit E Str}
  {aliases : List RepoPath → Caller Unit E (List RepoPath)} {choices : SortedMap RepoPath Choice}

theorem threeWay_mirrors [DecidableEq Id] (base ours theirs : Manifest Id) :
    Mirrors (fun rows rows' => rows' = rows.map Row.swap) (threeWay load base ours theirs)
      (threeWay load base theirs ours) := by
  have hrow : ∀ path, Mirrors (fun row row' => row' = Row.swap row)
      (mergeRow load base ours theirs path) (mergeRow load base theirs ours path) := by
    intro path
    refine (mergePath_mirrors (sidesOf base ours theirs path)).bind ?_
    rintro result _ rfl
    exact Mirrors.pure rfl
  have hpartner : ∀ (partners : SortedMap RepoPath RepoPath) (row : Row Id),
      row.swap.withPartner partners = (row.withPartner partners).swap := by
    intro partners row
    unfold Row.withPartner
    show (match partners.get? row.path with
      | some _ => _
      | none => _) = _
    cases partners.get? row.path <;> rfl
  unfold threeWay
  rw [allPaths_comm, partnersOf_comm]
  refine (Mirrors.mapM hrow _).bind (fun rows rows' hrows => Mirrors.pure ?_)
  have hmap : rows' = rows.map Row.swap := by
    induction hrows with
    | nil => rfl
    | cons hr _ ih => rw [hr, ih, List.map_cons]
  rw [hmap, List.map_map, List.map_map]
  exact List.map_congr_left (fun row _ => hpartner _ row)

theorem analyse_swap (rows : List (Row Id)) : analyse aliases (rows.map Row.swap) = analyse aliases rows := by
  unfold analyse
  rw [present_swap]

theorem chosen_swap (applied : List RepoPath) (analysis : Analysis) (row : Row Id) :
    row.swap.chosen (swapChoices choices) applied analysis =
      (row.chosen choices applied analysis).map Choice.swap := by
  unfold Row.chosen
  rw [get?_swapChoices]
  show (if row.conflicting analysis ∧ row.path ∉ applied then _ else _) = _
  split <;> rfl

theorem apply_swap (hsides : ∀ p c, choices.get? p = some c → c = .ours ∨ c = .theirs)
    (applied : List RepoPath) (analysis : Analysis) (row : Row Id) :
    row.swap.apply (swapChoices choices) applied analysis = (row.apply choices applied analysis).swap := by
  unfold Row.apply
  rw [chosen_swap]
  cases hc : row.chosen choices applied analysis with
  | none => rfl
  | some c =>
      have hget : choices.get? row.path = some c := by
        unfold Row.chosen at hc
        split at hc
        · exact hc
        · cases hc
      simp only [Option.map_some]
      show ({ row.swap with result := choose c.swap row.sides.swap } : Row Id) = _
      rw [choose_swap (hsides _ _ hget)]
      rfl

theorem taken_swap (applied : List RepoPath) (analysis : Analysis) (rows : List (Row Id)) :
    taken (swapChoices choices) applied analysis (rows.map Row.swap) = taken choices applied analysis rows := by
  unfold taken
  rw [List.filter_map, List.map_map]
  congr 1
  refine List.filter_congr (fun row _ => ?_)
  show (row.swap.chosen (swapChoices choices) applied analysis).isSome = _
  rw [chosen_swap, Option.isSome_map]

/-- The rounds of exchanged rows are the exchanged rounds. -/
theorem settle_swap (hsides : ∀ p c, choices.get? p = some c → c = .ours ∨ c = .theirs) (n : ℕ)
    (rows : List (Row Id)) (applied : List RepoPath) :
    Mirrors (fun x y => y = (x.1.map Row.swap, x.2)) (settle choices aliases n rows applied)
      (settle (swapChoices choices) aliases n (rows.map Row.swap) applied) := by
  induction n generalizing rows applied with
  | zero =>
      unfold settle
      rw [analyse_swap]
      refine (Mirrors.refl _).bind ?_
      rintro analysis _ rfl
      exact Mirrors.pure rfl
  | succ n ih =>
      unfold settle
      rw [analyse_swap]
      refine (Mirrors.refl _).bind ?_
      rintro analysis _ rfl
      simp only [taken_swap]
      split
      · exact Mirrors.pure rfl
      · have hrows : (rows.map Row.swap).map (Row.apply (swapChoices choices) applied analysis) =
            (rows.map (Row.apply choices applied analysis)).map Row.swap := by
          rw [List.map_map, List.map_map]
          exact List.map_congr_left (fun row _ => apply_swap hsides applied analysis row)
        rw [hrows]
        exact ih _ _

/-! ### The outcome -/

theorem outcome_swap (partners : SortedMap RepoPath RepoPath) (analysis : Analysis) (row : Row Id) :
    row.swap.outcome partners analysis =
      (row.outcome partners analysis).map (Sum.map Conflict.swap id) := by
  obtain ⟨path, result, sides⟩ := row
  unfold Row.outcome
  simp only [Row.swap]
  cases result with
  | deleted => rfl
  | unresolved kind => cases kind <;> rfl
  | resolved merged =>
      simp only
      cases analysis.collisions.get? path with
      | some other => rfl
      | none =>
          by_cases hhit : path ∈ analysis.hits
          · simp only [hhit, if_true]
            rfl
          · simp only [hhit, if_false]
            rfl

theorem outcomeOf_swap (partners : SortedMap RepoPath RepoPath) (usage : Usage) (rows : List (Row Id))
    (applied : List RepoPath) (analysis : Analysis) :
    outcomeOf (swapChoices choices) partners usage (rows.map Row.swap) applied analysis =
      (outcomeOf choices partners usage rows applied analysis).swap := by
  have hmerged : ∀ row : Row Id, row.swap.merged? partners analysis = row.merged? partners analysis := by
    intro row
    unfold Row.merged?
    rw [outcome_swap]
    cases row.outcome partners analysis with
    | none => rfl
    | some o => cases o <;> rfl
  have hconflict : ∀ row : Row Id, row.swap.conflict? partners analysis =
      (row.conflict? partners analysis).map Conflict.swap := by
    intro row
    unfold Row.conflict?
    rw [outcome_swap]
    cases row.outcome partners analysis with
    | none => rfl
    | some o => cases o <;> rfl
  unfold outcomeOf MergeOutcome.swap
  simp only [List.filterMap_map, List.map_filterMap, keys_swapChoices]
  congr 1
  · congr 1
    exact List.filterMap_congr (fun row _ => hmerged row)
  · exact List.filterMap_congr (fun row _ => hconflict row)

end rounds

/-! ### Merging -/

section merging
variable {Id E : Type} [DecidableEq Id] {load : Id → Caller Unit E Str}
  {aliases : List RepoPath → Caller Unit E (List RepoPath)} {choices : SortedMap RepoPath Choice}

/-- An outcome is the exchanged one of the exchanged sides. -/
theorem mergeResolved_swap (base ours theirs : Manifest Id)
    (hsides : ∀ p c, choices.get? p = some c → c = .ours ∨ c = .theirs) {outcome : MergeOutcome Id}
    (h : mergeResolved base ours theirs choices aliases load () = .ok (outcome, ())) :
    mergeResolved base theirs ours (swapChoices choices) aliases load () = .ok (outcome.swap, ()) := by
  obtain ⟨usage, husage, h⟩ := except_bind_eq_ok.mp h
  obtain ⟨⟨rows, t⟩, hrows, h⟩ := except_bind_eq_ok.mp h
  obtain ⟨⟨⟨rows', applied, analysis⟩, t'⟩, hsettle, hout⟩ := except_bind_eq_ok.mp h
  cases hout
  obtain ⟨_, hrows', rfl⟩ := threeWay_mirrors base ours theirs _ _ _ hrows
  obtain ⟨_, hsettle', rfl⟩ := settle_swap hsides _ _ _ _ _ _ hsettle
  have hlength : (swapChoices choices).toList.length = choices.toList.length := List.length_map _
  unfold mergeResolved
  rw [admission_comm husage]
  show (threeWay load base theirs ours ((), usage) >>= _) = _
  rw [hrows']
  show (settle (swapChoices choices) aliases _ _ [] t >>= _) = _
  rw [hlength, hsettle']
  show Except.ok _ = Except.ok _
  rw [partnersOf_comm, outcomeOf_swap]

/-- Merging with the sides and the choices exchanged gives the same outcome with the sides
exchanged, or fails as well; lines are merged alike. -/
theorem mergeResolved_symm (base ours theirs : Manifest Id)
    (aliases : List RepoPath → Caller Unit E (List RepoPath)) (load : Id → Caller Unit E Str)
    (hsides : ∀ p c, choices.get? p = some c → c = .ours ∨ c = .theirs) :
    (∀ outcome : MergeOutcome Id,
      mergeResolved base theirs ours (swapChoices choices) aliases load () = .ok (outcome.swap, ()) ↔
        mergeResolved base ours theirs choices aliases load () = .ok (outcome, ())) ∧
      ∀ (α : Type) [DecidableEq α] (b o t : List α), diff3 b o t = diff3 b t o := by
  refine ⟨fun outcome => ⟨fun h => ?_, mergeResolved_swap base ours theirs hsides⟩,
    fun _ _ => diff3_comm⟩
  have hswapped : ∀ p c, (swapChoices choices).get? p = some c → c = .ours ∨ c = .theirs := by
    intro p c hc
    rw [get?_swapChoices] at hc
    obtain ⟨c, hget, rfl⟩ := Option.map_eq_some_iff.mp hc
    rcases hsides p c hget with rfl | rfl
    · exact Or.inr rfl
    · exact Or.inl rfl
  have hback := mergeResolved_swap base theirs ours hswapped h
  rw [swapChoices_swapChoices, MergeOutcome.swap_swap] at hback
  exact hback

end merging

/-- A conflict resolved by ours, and with the sides exchanged by theirs. -/
theorem mergeResolved_symm_choice :
    ∃ outcome : MergeOutcome ℕ, outcome.merged.get? pathX = some (.retained (.regular 1 false)) ∧
      mergeResolved Manifest.empty (fileX 2) (fileX 1) (swapChoices (SortedMap.empty.insert pathX .ours))
        (fun _ s => (.ok ([], s) : Except Unit _)) (fun id s => .ok ([id.toUInt8], s)) () =
          .ok (outcome.swap, ()) := by
  have hsides : ∀ p c, (SortedMap.empty.insert pathX Choice.ours).get? p = some c →
      c = .ours ∨ c = .theirs := by
    intro p c hc
    rw [SortedMap.get?_insert] at hc
    split at hc
    · exact Or.inl (Option.some.inj hc).symm
    · cases hc
  refine ⟨⟨SortedMap.empty.insert pathX (.retained (.regular 1 false)), [], [], ⟨512, 0⟩⟩, by decide, ?_⟩
  refine ((mergeResolved_symm Manifest.empty (fileX 1) (fileX 2) _ _ hsides).1 _).mpr ?_
  decide +kernel

end Merge

end Javelin
