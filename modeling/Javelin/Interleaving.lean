import Javelin.Durable
import Mathlib.Logic.Relation

/-! # Interleaved programs

A `Process` is a program over a state that others change too.  It goes step by step; each step sees the
state of its moment and may replace it.  `Process.alone` runs it without interference.

In a `Pool` any number of processes take their steps in any order, new ones start, and an environment
changes the state in between.  A step may carry a label, and `allowed` limits which labels come in which
states.  `Keeps` is the rely–guarantee judgement: whatever the environment does within `rely`, each step is
within `guar`.  `Pool.Run.kept` puts the processes of a pool together. -/

/-- A program that shares its state. -/
inductive Process (ι σ ε α : Type) where
  | done (result : Except ε α)
  | step (label : ι) (write : σ → σ) (next : σ → Process ι σ ε α)

namespace Process

variable {ι σ ε α β : Type}

def bind : Process ι σ ε α → (α → Process ι σ ε β) → Process ι σ ε β
  | .done (.ok a), f => f a
  | .done (.error e), _ => .done (.error e)
  | .step label write next, f => .step label write (fun s => (next s).bind f)

instance : Monad (Process ι σ ε) where
  pure a := .done (.ok a)
  bind := Process.bind

def fail (e : ε) : Process ι σ ε α := .done (.error e)

/-- A transaction that only reads. -/
def read (label : ι) (f : σ → Except ε α) : Process ι σ ε α := .step label id (fun s => .done (f s))

/-- What a transaction leaves: all of it, or the state before. -/
def written (f : σ → Except ε (α × σ)) (s : σ) : σ :=
  match f s with
  | .ok (_, s') => s'
  | .error _ => s

/-- A transaction. -/
def transact (label : ι) (f : σ → Except ε (α × σ)) : Process ι σ ε α :=
  .step label (written f) (fun s => .done ((f s).map Prod.fst))

/-- Hands the failure of a process to what follows. -/
def caught {ε' : Type} : Process ι σ ε α → Process ι σ ε' (Except ε α)
  | .done result => .done (.ok result)
  | .step label write next => .step label write (fun s => (next s).caught)

/-! ### Without interference -/

/-- Runs a process to its end; returns the answer and the state it leaves. -/
def alone : Process ι σ ε α → σ → Except ε α × σ
  | .done result, s => (result, s)
  | .step _ write next, s => (next s).alone (write s)

@[simp] theorem alone_pure (a : α) (s : σ) : (pure a : Process ι σ ε α).alone s = (.ok a, s) := rfl

@[simp] theorem alone_fail (e : ε) (s : σ) : (fail e : Process ι σ ε α).alone s = (.error e, s) := rfl

@[simp] theorem alone_read (label : ι) (f : σ → Except ε α) (s : σ) : (read label f).alone s = (f s, s) := rfl

@[simp] theorem alone_transact (label : ι) (f : σ → Except ε (α × σ)) (s : σ) :
    (transact label f).alone s = ((f s).map Prod.fst, written f s) := rfl

theorem alone_bind (p : Process ι σ ε α) (f : α → Process ι σ ε β) (s : σ) :
    (p >>= f).alone s = match p.alone s with
      | (.ok a, s') => (f a).alone s'
      | (.error e, s') => (.error e, s') := by
  show (p.bind f).alone s = _
  induction p generalizing s with
  | done result =>
      cases result with
      | ok a => rfl
      | error e => rfl
  | step label write next ih => exact ih s (write s)

theorem alone_bind_of_ok {p : Process ι σ ε α} {f : α → Process ι σ ε β} {s s' : σ} {a : α}
    (h : p.alone s = (.ok a, s')) : (p >>= f).alone s = (f a).alone s' := by
  rw [alone_bind, h]

theorem alone_bind_of_error {p : Process ι σ ε α} {f : α → Process ι σ ε β} {s s' : σ} {e : ε}
    (h : p.alone s = (.error e, s')) : (p >>= f).alone s = (.error e, s') := by
  rw [alone_bind, h]

/-- Two sequences with the same first part show the same if their rests do. -/
theorem alone_bind_congr {γ : Type} {p : Process ι σ ε α} {f f' : α → Process ι σ ε β} {g : β → γ} {s : σ}
    (h : ∀ a s', p.alone s = (.ok a, s') → ((f a).alone s').1.map g = ((f' a).alone s').1.map g) :
    ((p >>= f).alone s).1.map g = ((p >>= f').alone s).1.map g := by
  rw [alone_bind, alone_bind]
  cases hp : p.alone s with
  | mk result s' =>
      cases result with
      | error e => rfl
      | ok a => exact h a s' hp

theorem alone_caught {ε' : Type} (p : Process ι σ ε α) (s : σ) :
    (p.caught : Process ι σ ε' (Except ε α)).alone s = (.ok (p.alone s).1, (p.alone s).2) := by
  induction p generalizing s with
  | done result => rfl
  | step label write next ih => exact ih s (write s)

/-! ### With interference -/

section keeps

/-- The state `s` was seen at the last step.  In every state that the environment leads to, the next step
is within `guar`, and so on; the end meets `post`. -/
def Keeps (inv : σ → Prop) (rely guar : σ → σ → Prop) (allowed : ι → σ → Prop) (post : σ → Except ε α → Prop) :
    Process ι σ ε α → σ → Prop
  | .done result, s => post s result
  | .step label write next, s => ∀ s', inv s' → rely s s' → allowed label s' →
      guar s' (write s') ∧ (next s').Keeps inv rely guar allowed post (write s')

variable {inv : σ → Prop} {rely guar : σ → σ → Prop} {allowed : ι → σ → Prop} {post : σ → Except ε α → Prop}

/-- The environment does not disturb the judgement. -/
theorem Keeps.moved {p : Process ι σ ε α} {s s' : σ} (h : p.Keeps inv rely guar allowed post s)
    (htrans : ∀ s₁ s₂ s₃, rely s₁ s₂ → rely s₂ s₃ → rely s₁ s₃)
    (hpost : ∀ result s s', rely s s' → post s result → post s' result) (hr : rely s s') :
    p.Keeps inv rely guar allowed post s' := by
  cases p with
  | done result => exact hpost result s s' hr h
  | step label write next => exact fun s'' hinv hr' => h s'' hinv (htrans s s' s'' hr hr')

theorem Keeps.imp {post' : σ → Except ε α → Prop} {p : Process ι σ ε α} {s : σ}
    (h : p.Keeps inv rely guar allowed post s) (hpost : ∀ s result, post s result → post' s result) :
    p.Keeps inv rely guar allowed post' s := by
  induction p generalizing s with
  | done result => exact hpost s result h
  | step label write next ih =>
      intro s' hinv hr hallowed
      obtain ⟨hguar, hrest⟩ := h s' hinv hr hallowed
      exact ⟨hguar, ih s' hrest⟩

/-- A sequence keeps what its first part keeps, if the rest does from every state that part answers in. -/
theorem keeps_bind {post : σ → Except ε β → Prop} {p : Process ι σ ε α} {f : α → Process ι σ ε β} {s : σ}
    (h : p.Keeps inv rely guar allowed (fun s result =>
      match result with
      | .ok a => (f a).Keeps inv rely guar allowed post s
      | .error e => post s (.error e)) s) : (p >>= f).Keeps inv rely guar allowed post s := by
  show (p.bind f).Keeps inv rely guar allowed post s
  induction p generalizing s with
  | done result =>
      cases result with
      | ok a => exact h
      | error e => exact h
  | step label write next ih =>
      intro s' hinv hr hallowed
      obtain ⟨hguar, hrest⟩ := h s' hinv hr hallowed
      exact ⟨hguar, ih s' hrest⟩

theorem keeps_caught {ε' : Type} {post : σ → Except ε' (Except ε α) → Prop} {p : Process ι σ ε α} {s : σ}
    (h : p.Keeps inv rely guar allowed (fun s result => post s (.ok result)) s) :
    p.caught.Keeps inv rely guar allowed post s := by
  induction p generalizing s with
  | done result => exact h
  | step label write next ih =>
      intro s' hinv hr hallowed
      obtain ⟨hguar, hrest⟩ := h s' hinv hr hallowed
      exact ⟨hguar, ih s' hrest⟩

/-- Where the process ends has come from where it began, if the environment and its steps lead that way. -/
theorem Keeps.since {R : σ → σ → Prop} {p : Process ι σ ε α} {s : σ}
    (h : p.Keeps inv rely guar allowed post s) (hrefl : ∀ s, R s s)
    (htrans : ∀ s₁ s₂ s₃, R s₁ s₂ → R s₂ s₃ → R s₁ s₃)
    (hrely : ∀ s s', rely s s' → R s s') (hguar : ∀ s s', guar s s' → R s s') :
    p.Keeps inv rely guar allowed (fun s' result => R s s' ∧ post s' result) s := by
  induction p generalizing s with
  | done result => exact ⟨hrefl s, h⟩
  | step label write next ih =>
      intro s' hinv hr hallowed
      obtain ⟨hwithin, hrest⟩ := h s' hinv hr hallowed
      have hto := htrans _ _ _ (hrely _ _ hr) (hguar _ _ hwithin)
      exact ⟨hwithin, (ih s' hrest).imp (fun s'' result hpost => ⟨htrans _ _ _ hto hpost.1, hpost.2⟩)⟩

/-- What the steps keep holds where the process ends. -/
theorem Keeps.kept {p : Process ι σ ε α} {s : σ} (h : p.Keeps inv rely guar allowed post s) (hinv : inv s)
    (hguar : ∀ s s', inv s → guar s s' → inv s') :
    p.Keeps inv rely guar allowed (fun s' result => inv s' ∧ post s' result) s := by
  induction p generalizing s with
  | done result => exact ⟨hinv, h⟩
  | step label write next ih =>
      intro s' hinv' hr hallowed
      obtain ⟨hwithin, hrest⟩ := h s' hinv' hr hallowed
      exact ⟨hwithin, ih s' hrest (hguar _ _ hinv' hwithin)⟩

/-- Of a process that only reads, run without interference, the judgement is about its answer. -/
theorem Keeps.alone {p : Process ι σ ε α} {s : σ}
    (h : p.Keeps (fun _ => True) Eq Eq (fun _ _ => True) post s) : (p.alone s).2 = s ∧ post s (p.alone s).1 := by
  induction p generalizing s with
  | done result => exact ⟨rfl, h⟩
  | step label write next ih =>
      obtain ⟨hwrite, hrest⟩ := h s trivial rfl trivial
      rw [← hwrite] at hrest
      rw [Process.alone, ← hwrite]
      exact ih s hrest

/-- Sequences agree whose rests agree on every answer of the first part. -/
theorem bind_congr {p : Process ι σ ε α} {f g : α → Process ι σ ε β} (s : σ)
    (h : p.Keeps (fun _ => True) (fun _ _ => True) (fun _ _ => True) (fun _ _ => True)
      (fun _ result => ∀ a, result = .ok a → f a = g a) s) : p >>= f = p >>= g := by
  show p.bind f = p.bind g
  induction p generalizing s with
  | done result =>
      cases result with
      | ok a => exact h a rfl
      | error e => rfl
  | step label write next ih =>
      unfold Process.bind
      congr
      funext s'
      exact ih s' (write s') (h s' trivial trivial trivial).2

theorem keeps_read {label : ι} {f : σ → Except ε α} {s : σ} (hrefl : ∀ s, guar s s)
    (h : ∀ s', inv s' → rely s s' → allowed label s' → post s' (f s')) :
    (read label f).Keeps inv rely guar allowed post s :=
  fun s' hinv hr hallowed => ⟨hrefl s', h s' hinv hr hallowed⟩

theorem keeps_transact {label : ι} {f : σ → Except ε (α × σ)} {s : σ} (hrefl : ∀ s, guar s s)
    (herror : ∀ s' e, inv s' → rely s s' → f s' = .error e → post s' (.error e))
    (h : ∀ s' a s'', inv s' → rely s s' → allowed label s' → f s' = .ok (a, s'') →
      guar s' s'' ∧ post s'' (.ok a)) : (transact label f).Keeps inv rely guar allowed post s := by
  intro s' hinv hr hallowed
  show guar s' (written f s') ∧ post (written f s') ((f s').map Prod.fst)
  unfold written
  cases hf : f s' with
  | error e => exact ⟨hrefl s', herror s' e hinv hr hf⟩
  | ok p => exact h s' p.1 p.2 hinv hr hallowed hf

end keeps

/-! ### One process among others -/

section ends

/-- The process ends with an answer.  `own` are its steps, each with the state it saw and the one it left;
between them the environment moves the state. -/
inductive Ends (rely : σ → σ → Prop) : Process ι σ ε α → σ → List (σ × σ) → Except ε α → σ → Prop
  | done {result : Except ε α} {s s' : σ} : rely s s' → Ends rely (.done result) s [] result s'
  | step {label : ι} {write : σ → σ} {next : σ → Process ι σ ε α} {s s₁ : σ} {own : List (σ × σ)}
      {result : Except ε α} {s' : σ} : rely s s₁ → Ends rely (next s₁) (write s₁) own result s' →
      Ends rely (.step label write next) s ((s₁, write s₁) :: own) result s'

variable {rely : σ → σ → Prop} {s s' : σ} {own : List (σ × σ)}

theorem ends_done {result answer : Except ε α} (h : (.done result : Process ι σ ε α).Ends rely s own answer s') :
    answer = result ∧ own = [] ∧ rely s s' := by
  cases h with
  | done hr => exact ⟨rfl, rfl, hr⟩

theorem ends_read {label : ι} {f : σ → Except ε α} {result : Except ε α}
    (h : (read label f).Ends rely s own result s') :
    ∃ s₁, rely s s₁ ∧ rely s₁ s' ∧ own = [(s₁, s₁)] ∧ result = f s₁ := by
  cases h with
  | step hr hrest =>
      obtain ⟨rfl, rfl, hr'⟩ := ends_done hrest
      exact ⟨_, hr, hr', rfl, rfl⟩

theorem ends_transact {label : ι} {f : σ → Except ε (α × σ)} {result : Except ε α}
    (h : (transact label f).Ends rely s own result s') :
    ∃ s₁, rely s s₁ ∧ rely (written f s₁) s' ∧ own = [(s₁, written f s₁)] ∧ result = (f s₁).map Prod.fst := by
  cases h with
  | step hr hrest =>
      obtain ⟨rfl, rfl, hr'⟩ := ends_done hrest
      exact ⟨_, hr, hr', rfl, rfl⟩

/-- A sequence ends in its first part with an error, or in its rest. -/
theorem ends_bind {p : Process ι σ ε α} {f : α → Process ι σ ε β} {result : Except ε β}
    (hrefl : ∀ s, rely s s) (h : (p >>= f).Ends rely s own result s') :
    (∃ e, result = .error e ∧ p.Ends rely s own (.error e) s') ∨
      ∃ a s₁ own₁ own₂, own = own₁ ++ own₂ ∧ p.Ends rely s own₁ (.ok a) s₁ ∧
        (f a).Ends rely s₁ own₂ result s' := by
  change (p.bind f).Ends rely s own result s' at h
  induction p generalizing s own with
  | done answer =>
      cases answer with
      | ok a => exact .inr ⟨a, s, [], own, rfl, .done (hrefl s), h⟩
      | error e =>
          obtain ⟨rfl, rfl, hr⟩ := ends_done h
          exact .inl ⟨e, rfl, .done hr⟩
  | step label write next ih =>
      cases h with
      | step hr hrest =>
          cases ih _ hrest with
          | inl herror =>
              obtain ⟨e, rfl, hp⟩ := herror
              exact .inl ⟨e, rfl, .step hr hp⟩
          | inr hok =>
              obtain ⟨a, s₁, own₁, own₂, rfl, hp, hf⟩ := hok
              exact .inr ⟨a, s₁, _ :: own₁, own₂, rfl, .step hr hp, hf⟩

/-- A process alone is one among others that do nothing. -/
theorem ends_alone (p : Process ι σ ε α) (s : σ) :
    ∃ own, p.Ends Eq s own (p.alone s).1 (p.alone s).2 := by
  induction p generalizing s with
  | done result => exact ⟨[], .done rfl⟩
  | step label write next ih =>
      obtain ⟨own, h⟩ := ih s (write s)
      exact ⟨(s, write s) :: own, .step rfl h⟩

/-- What the environment and each own step are within, the whole is within. -/
theorem Ends.within {p : Process ι σ ε α} {R : σ → σ → Prop} {result : Except ε α}
    (h : p.Ends rely s own result s') (htrans : ∀ s₁ s₂ s₃, R s₁ s₂ → R s₂ s₃ → R s₁ s₃)
    (hrely : ∀ s s', rely s s' → R s s') (hown : ∀ step ∈ own, R step.1 step.2) : R s s' := by
  induction h with
  | done hr => exact hrely _ _ hr
  | step hr _ ih =>
      rw [List.forall_mem_cons] at hown
      exact htrans _ _ _ (hrely _ _ hr) (htrans _ _ _ hown.1 (ih hown.2))

/-- The process takes some of its steps, or all, and is stopped. -/
inductive Reaches (rely : σ → σ → Prop) : Process ι σ ε α → σ → σ → Prop
  | stopped {p : Process ι σ ε α} {s s' : σ} : rely s s' → Reaches rely p s s'
  | step {label : ι} {write : σ → σ} {next : σ → Process ι σ ε α} {s s₁ s' : σ} : rely s s₁ →
      Reaches rely (next s₁) (write s₁) s' → Reaches rely (.step label write next) s s'

/-- Without interference a process can get to its end. -/
theorem reaches_alone (hrefl : ∀ s, rely s s) (p : Process ι σ ε α) (s : σ) : p.Reaches rely s (p.alone s).2 := by
  induction p generalizing s with
  | done result => exact .stopped (hrefl s)
  | step label write next ih => exact .step (hrefl s) (ih s (write s))

section judged
variable {inv : σ → Prop} {guar : σ → σ → Prop} {post : σ → Except ε α → Prop}

/-- What the environment and the steps keep is kept wherever the process is stopped. -/
theorem Keeps.reaches {p : Process ι σ ε α} (h : p.Keeps inv rely guar (fun _ _ => True) post s) (hinv : inv s)
    (hrely : ∀ s s', inv s → rely s s' → inv s') (hguar : ∀ s s', inv s → guar s s' → inv s')
    (hr : p.Reaches rely s s') : inv s' := by
  induction hr with
  | stopped hr => exact hrely _ _ hinv hr
  | step hr _ ih =>
      have hinv₁ := hrely _ _ hinv hr
      obtain ⟨hwithin, hrest⟩ := h _ hinv₁ hr trivial
      exact ih hrest (hguar _ _ hinv₁ hwithin)

/-- Where the process ends, the judgement is about its answer. -/
theorem Keeps.ends {p : Process ι σ ε α} {result : Except ε α}
    (h : p.Keeps inv rely guar (fun _ _ => True) post s) (hinv : inv s)
    (hrely : ∀ s s', inv s → rely s s' → inv s') (hguar : ∀ s s', inv s → guar s s' → inv s')
    (he : p.Ends rely s own result s') : ∃ s₁, inv s₁ ∧ post s₁ result ∧ rely s₁ s' := by
  induction he with
  | done hr => exact ⟨_, hinv, h, hr⟩
  | step hr _ ih =>
      have hinv₁ := hrely _ _ hinv hr
      obtain ⟨hwithin, hrest⟩ := h _ hinv₁ hr trivial
      exact ih hrest (hguar _ _ hinv₁ hwithin)

end judged

end ends

end Process

/-! ### Pools -/

/-- A state and the processes on it. -/
structure Pool (ι σ ε α : Type) where
  state : σ
  processes : List (Process ι σ ε α)

namespace Pool

variable {ι σ ε α : Type}

/-- The environment, a new process, or the next step of a process; one that stopped takes none. -/
inductive Step (env : σ → σ → Prop) (starts : Process ι σ ε α → Prop) (allowed : ι → σ → Prop) :
    Pool ι σ ε α → Pool ι σ ε α → Prop
  | other {s s' : σ} {ps : List (Process ι σ ε α)} : env s s' → Step env starts allowed ⟨s, ps⟩ ⟨s', ps⟩
  | start {s : σ} {ps : List (Process ι σ ε α)} {p : Process ι σ ε α} : starts p →
      Step env starts allowed ⟨s, ps⟩ ⟨s, p :: ps⟩
  | run {s : σ} {before after : List (Process ι σ ε α)} {label : ι} {write : σ → σ}
      {next : σ → Process ι σ ε α} : allowed label s →
      Step env starts allowed ⟨s, before ++ .step label write next :: after⟩
        ⟨write s, before ++ next s :: after⟩

abbrev Run (env : σ → σ → Prop) (starts : Process ι σ ε α → Prop) (allowed : ι → σ → Prop) :
    Pool ι σ ε α → Pool ι σ ε α → Prop :=
  Relation.ReflTransGen (Step env starts allowed)

/-- The environment and each step within `guar` keep `inv` and are within `rely`, which keeps `post`. -/
structure Stable (inv : σ → Prop) (rely guar env : σ → σ → Prop) (post : σ → Except ε α → Prop) : Prop where
  refl : ∀ s, rely s s
  trans : ∀ s₁ s₂ s₃, rely s₁ s₂ → rely s₂ s₃ → rely s₁ s₃
  post : ∀ result s s', rely s s' → post s result → post s' result
  env : ∀ s s', inv s → env s s' → inv s' ∧ rely s s'
  guar : ∀ s s', inv s → guar s s' → inv s' ∧ rely s s'

/-- The state meets `inv`, and every process keeps its part. -/
structure Kept (inv : σ → Prop) (rely guar : σ → σ → Prop) (allowed : ι → σ → Prop)
    (post : σ → Except ε α → Prop) (pool : Pool ι σ ε α) : Prop where
  state : inv pool.state
  processes : ∀ p ∈ pool.processes, p.Keeps inv rely guar allowed post pool.state

variable {inv : σ → Prop} {rely guar env : σ → σ → Prop} {starts : Process ι σ ε α → Prop}
  {allowed : ι → σ → Prop} {post : σ → Except ε α → Prop} {pool pool' : Pool ι σ ε α}

/-- An allowed step of a process is within `guar`. -/
theorem Kept.step {label : ι} {write : σ → σ} {next : σ → Process ι σ ε α}
    (hstable : Stable inv rely guar env post) (hk : pool.Kept inv rely guar allowed post)
    (hm : .step label write next ∈ pool.processes) (hallowed : allowed label pool.state) :
    guar pool.state (write pool.state) ∧
      (next pool.state).Keeps inv rely guar allowed post (write pool.state) :=
  hk.processes _ hm pool.state hk.state (hstable.refl _) hallowed

theorem Step.kept (h : Step env starts allowed pool pool') (hstable : Stable inv rely guar env post)
    (hstarts : ∀ p s, starts p → inv s → p.Keeps inv rely guar allowed post s)
    (hk : pool.Kept inv rely guar allowed post) : pool'.Kept inv rely guar allowed post := by
  have hmoved : ∀ {s'}, rely pool.state s' → ∀ p ∈ pool.processes, p.Keeps inv rely guar allowed post s' :=
    fun hr p hp => (hk.processes p hp).moved hstable.trans hstable.post hr
  cases h with
  | other henv =>
      obtain ⟨hinv, hr⟩ := hstable.env _ _ hk.state henv
      exact ⟨hinv, hmoved hr⟩
  | start hs =>
      refine ⟨hk.state, fun p hp => ?_⟩
      cases List.mem_cons.mp hp with
      | inl he =>
          rw [he]
          exact hstarts _ _ hs hk.state
      | inr hp => exact hk.processes p hp
  | run hallowed =>
      -- The process has seen this state; to the others the step is one of the environment.
      obtain ⟨hguar, hrest⟩ := hk.step hstable (List.mem_append_right _ List.mem_cons_self) hallowed
      obtain ⟨hinv, hr⟩ := hstable.guar _ _ hk.state hguar
      refine ⟨hinv, fun p hp => ?_⟩
      have hothers := hmoved hr
      simp only [List.mem_append, List.mem_cons] at hp hothers
      obtain hp | rfl | hp := hp
      · exact hothers p (.inl hp)
      · exact hrest
      · exact hothers p (.inr (.inr hp))

/-- What holds at the start is kept over a run. -/
theorem Run.kept (h : Run env starts allowed pool pool') (hstable : Stable inv rely guar env post)
    (hstarts : ∀ p s, starts p → inv s → p.Keeps inv rely guar allowed post s)
    (hk : pool.Kept inv rely guar allowed post) : pool'.Kept inv rely guar allowed post := by
  induction h with
  | refl => exact hk
  | tail _ hstep ih => exact hstep.kept hstable hstarts ih

/-- A process may run to its end while nothing else happens. -/
theorem run_alone {s : σ} {ps : List (Process ι σ ε α)} (p : Process ι σ ε α)
    (hallowed : ∀ label s, allowed label s) :
    Run env starts allowed ⟨s, p :: ps⟩ ⟨(p.alone s).2, .done (p.alone s).1 :: ps⟩ := by
  induction p generalizing s with
  | done result => exact .refl
  | step label write next ih =>
      have hstep : Step env starts allowed ⟨s, [] ++ .step label write next :: ps⟩ ⟨write s, [] ++ next s :: ps⟩ :=
        .run (hallowed label s)
      exact .head hstep (ih s)

end Pool
