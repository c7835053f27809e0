import Javelin.Chunk
import Mathlib.Data.List.Nodup
import Mathlib.Data.List.Perm.Subperm

/-! # Stores and the chunk cache

`Store` is raw tree object storage: `load` returns the chunk stored under an ID, `save` records a
new one and may refuse.  `Trees` adds the cache of decoded chunks, and `TreesM` is the monad the
tree operations run in; an error abandons the state, as an error abandons the transaction.

Object bytes are kept parsed.  `Trees.chunk` verifies the hash and the well-formedness of what it
loads, as the source does on bytes, and never of what it finds in its cache.

The laws of a store are in `LawfulStore`.  Facts about an operation are stated with `Runs E x t a`: from the state `t` the
action `x` returns `a`, having saved only chunks in `E` (`Saves`) and lost none (`Step`). -/

namespace Javelin

/-- Raw tree object storage.  `len` counts its objects. -/
class Store (σ : Type) (Id : outParam Type) where
  load : σ → Id → Except (Error Id) (Chunk Id)
  save : σ → Id → Chunk Id → Except (Error Id) σ
  len : σ → ℕ

/-- Tree operations over a store, with a cache of decoded chunks. -/
structure Trees (σ Id : Type) where
  store : σ
  cache : List (Id × Chunk Id)

/-- Computations of the tree operations. -/
abbrev TreesM (σ Id : Type) := StateT (Trees σ Id) (Except (Error Id))

section operations
variable {σ Id : Type} [DecidableEq Id] [Hashing Id] [Store σ Id]

namespace Trees

/-- `Trees::new`. -/
def new (store : σ) : Trees σ Id := ⟨store, []⟩

/-- The cached chunk of an ID. -/
def cached (t : Trees σ Id) (id : Id) : Option (Chunk Id) := t.cache.lookup id

/-- `Trees::forget`. -/
def forget (t : Trees σ Id) : Trees σ Id := { t with cache := [] }

/-- The chunk under `id` in the store, verified.  The empty World needs no stored object. -/
def fetch (store : σ) (id : Id) : Except (Error Id) (Chunk Id) := do
  let c ← if id = emptyId then .ok Chunk.emptyLeaf else Store.load store id
  if c.id ≠ id then .error (.corruptObject id)
  else match c.decode with
    | .error _ => .error (.corruptObject id)
    | .ok c => .ok c

/-- `Trees::chunk`. -/
def chunk (id : Id) (cache : Bool) : TreesM σ Id (Chunk Id) := fun t =>
  match t.cached id with
  | some c => .ok (c, t)
  | none => do
      let c ← fetch t.store id
      .ok (c, if cache then { t with cache := (id, c) :: t.cache } else t)

/-- `Trees::get`. -/
def get (id : Id) : TreesM σ Id (Chunk Id) := chunk id true

/-- The child chunk of an internal item, checked against its parent. -/
def child (parent : Chunk Id) (item : Item Id) (cache : Bool) : TreesM σ Id (Chunk Id) := do
  let c ← chunk item.id cache
  if c.level + 1 ≠ parent.level ∨ c.items = [] ∨ c.last ≠ item.name then
    throw (.corruptObject item.id)
  else return c

/-- `Trees::put`. -/
def put (c : Chunk Id) : TreesM σ Id Id := fun t =>
  match t.cached c.id with
  | some _ => .ok (c.id, t)
  | none => do
      let store ← Store.save t.store c.id c
      .ok (c.id, ⟨store, (c.id, c) :: t.cache⟩)

/-- An upper bound of the chunks that can be read. -/
def len (t : Trees σ Id) : ℕ := Store.len t.store + t.cache.length + 1

end Trees

end operations

/-! ### Laws -/

/-- What the operations rely on of a store. -/
class LawfulStore (σ : Type) (Id : outParam Type) [Hashing Id] [Store σ Id] where
  /-- The chunk can be saved. -/
  Accepts : σ → Chunk Id → Prop
  /-- The chunk is stored or recorded. -/
  Holds : σ → Chunk Id → Prop
  holds_of_load {s : σ} {c : Chunk Id} : Store.load s c.id = .ok c → Holds s c
  save_of_accepts {s : σ} {c : Chunk Id} : Accepts s c → ∃ s', Store.save s c.id c = .ok s'
  load_of_save {s s' : σ} {c d : Chunk Id} :
    Store.save s c.id c = .ok s' → Store.load s d.id = .ok d → Store.load s' d.id = .ok d
  holds_of_save {s s' : σ} {c d : Chunk Id} :
    Store.save s c.id c = .ok s' → Holds s d ∨ d = c → Holds s' d
  accepts_of_save {s s' : σ} {c d : Chunk Id} :
    Store.save s c.id c = .ok s' → Accepts s d → Accepts s' d
  length_le_len {s : σ} {cs : List (Chunk Id)} :
    cs.Nodup → (∀ c ∈ cs, Store.load s c.id = .ok c) → cs.length ≤ Store.len s

export LawfulStore (Accepts Holds)

/-- Saving chunks of `E` turns one store into the other. -/
inductive Saves {σ Id : Type} [Hashing Id] [Store σ Id] (E : Chunk Id → Prop) : σ → σ → Prop
  | refl (s : σ) : Saves E s s
  | tail {s s₁ s₂ : σ} {c : Chunk Id} :
      Saves E s s₁ → E c → Store.save s₁ c.id c = .ok s₂ → Saves E s s₂

namespace Saves
variable {σ Id : Type} [Hashing Id] [Store σ Id] {E F : Chunk Id → Prop} {s s₁ s₂ : σ}

theorem trans (h₁ : Saves E s s₁) (h₂ : Saves E s₁ s₂) : Saves E s s₂ := by
  induction h₂ with
  | refl => exact h₁
  | tail _ hE hs ih => exact .tail ih hE hs

theorem mono (hEF : ∀ c, E c → F c) (h : Saves E s s₁) : Saves F s s₁ := by
  induction h with
  | refl => exact .refl _
  | tail _ hE hs ih => exact .tail ih (hEF _ hE) hs

/-- Saving nothing changes nothing. -/
theorem eq_of_none (h : Saves (fun _ => False) s s₁) : s₁ = s := by
  induction h with
  | refl => rfl
  | tail _ hE => exact absurd hE id

variable [LawfulStore σ Id]

theorem accepts {d : Chunk Id} (h : Saves E s s₁) (hd : Accepts s d) : Accepts s₁ d := by
  induction h with
  | refl => exact hd
  | tail _ _ hs ih => exact LawfulStore.accepts_of_save hs ih

end Saves

namespace Trees
variable {σ Id : Type} [DecidableEq Id] [Hashing Id] [Store σ Id]

/-- Reading the ID of `c` gives `c`. -/
def Has (t : Trees σ Id) (c : Chunk Id) : Prop :=
  t.cached c.id = some c ∨ (t.cached c.id = none ∧ fetch t.store c.id = .ok c)

/-- The cache holds verified chunks that the store keeps. -/
def Coherent [LawfulStore σ Id] (t : Trees σ Id) : Prop :=
  ∀ e ∈ t.cache, e.2.id = e.1 ∧ e.2.WellFormed ∧ (e.2 = .emptyLeaf ∨ Holds t.store e.2)

omit [Hashing Id] [Store σ Id] in
theorem mem_of_cached {t : Trees σ Id} {id : Id} {c : Chunk Id} (h : t.cached id = some c) :
    (id, c) ∈ t.cache := by
  unfold cached at h
  obtain ⟨l₁, l₂, hl, _⟩ := List.lookup_eq_some_iff.mp h
  rw [hl]
  simp

omit [Hashing Id] [Store σ Id] in
theorem cached_cons (s : σ) (id id' : Id) (c : Chunk Id) (cache : List (Id × Chunk Id)) :
    cached ⟨s, (id', c) :: cache⟩ id = if id = id' then some c else cached ⟨s, cache⟩ id := by
  unfold cached
  rw [List.lookup_cons]
  by_cases h : id = id'
  · simp [h]
  · simp [h, beq_eq_false_iff_ne.mpr h]

theorem fetch_eq_ok {s : σ} {id : Id} {c : Chunk Id} :
    fetch s id = .ok c ↔
      c.id = id ∧ c.WellFormed ∧ (c = .emptyLeaf ∨ (c ≠ .emptyLeaf ∧ Store.load s id = .ok c)) := by
  have hempty : ∀ d : Chunk Id, d.id = emptyId ↔ d = .emptyLeaf := fun d => Chunk.id_inj
  unfold fetch
  by_cases hid : id = emptyId
  · subst hid
    simp only [if_true]
    constructor
    · intro h
      have hdec := Chunk.decode_of_wellFormed (@Chunk.emptyLeaf_wellFormed Id)
      simp [hdec, emptyId, Bind.bind, Except.bind] at h
      subst h
      exact ⟨rfl, Chunk.emptyLeaf_wellFormed, Or.inl rfl⟩
    · rintro ⟨hc, hw, _⟩
      rw [hempty] at hc
      subst hc
      simp [Chunk.decode_of_wellFormed hw, emptyId, Bind.bind, Except.bind]
  · rw [if_neg hid]
    constructor
    · intro h
      cases hl : Store.load s id with
      | error e => rw [hl] at h; cases h
      | ok d =>
          rw [hl] at h
          simp only [Bind.bind, Except.bind] at h
          split at h
          · cases h
          rename_i hne
          rw [not_not] at hne
          split at h
          · cases h
          rename_i d' hd
          injection h with h
          subst h
          obtain ⟨hw, rfl⟩ := Chunk.decode_eq_ok.mp hd
          refine ⟨hne, hw, Or.inr ⟨?_, rfl⟩⟩
          rintro rfl
          exact hid hne.symm
    · rintro ⟨rfl, hw, rfl | ⟨_, hl⟩⟩
      · exact absurd rfl hid
      · simp [hl, Chunk.decode_of_wellFormed hw, Bind.bind, Except.bind]

section laws
variable [LawfulStore σ Id] {t t' : Trees σ Id} {c : Chunk Id}

omit [DecidableEq Id] in
theorem Coherent.new (s : σ) : Coherent (Trees.new s : Trees σ Id) := by
  intro e he; cases he

omit [DecidableEq Id] in
theorem Coherent.forget (t : Trees σ Id) : Coherent t.forget := by
  intro e he; cases he

theorem Coherent.cached (h : t.Coherent) {id : Id} (hc : t.cached id = some c) :
    c.id = id ∧ c.WellFormed ∧ (c = .emptyLeaf ∨ Holds t.store c) := h _ (mem_of_cached hc)

/-- What is read is well formed and kept. -/
theorem Coherent.of_has (h : t.Coherent) (hc : t.Has c) :
    c.WellFormed ∧ (c = .emptyLeaf ∨ Holds t.store c) := by
  rcases hc with hc | ⟨_, hc⟩
  · exact (h.cached hc).2
  · rw [fetch_eq_ok] at hc
    obtain ⟨_, hw, rfl | ⟨_, hl⟩⟩ := hc
    · exact ⟨hw, Or.inl rfl⟩
    · exact ⟨hw, Or.inr (LawfulStore.holds_of_load hl)⟩

/-- The empty World is always readable. -/
theorem Coherent.has_emptyLeaf (h : t.Coherent) : t.Has .emptyLeaf := by
  unfold Has
  cases hc : t.cached (Chunk.emptyLeaf : Chunk Id).id with
  | some c =>
      have := Chunk.id_inj.mp (h.cached hc).1
      rw [this]; exact Or.inl rfl
  | none =>
      refine Or.inr ⟨rfl, ?_⟩
      rw [fetch_eq_ok]
      exact ⟨rfl, Chunk.emptyLeaf_wellFormed, Or.inl rfl⟩

/-- Distinct readable chunks are at most `len` many. -/
theorem length_le_len {cs : List (Chunk Id)} (hn : cs.Nodup)
    (hc : ∀ c ∈ cs, t.Has c) : cs.length ≤ t.len := by
  classical
  have hstored : (cs.filter (fun c => decide (Store.load t.store c.id = .ok c))).length ≤
      Store.len t.store := by
    refine LawfulStore.length_le_len (hn.filter _) ?_
    intro c hm
    simpa using (List.mem_filter.mp hm).2
  have hrest : (cs.filter (fun c => !decide (Store.load t.store c.id = .ok c))).length ≤
      (Chunk.emptyLeaf :: t.cache.map Prod.snd).length := by
    refine (List.Nodup.subperm (hn.filter _) ?_).length_le
    intro c hm
    obtain ⟨hm, hl⟩ := List.mem_filter.mp hm
    rcases hc c hm with hcached | ⟨_, hf⟩
    · exact List.mem_cons_of_mem _ (List.mem_map.mpr ⟨_, mem_of_cached hcached, rfl⟩)
    · rw [fetch_eq_ok] at hf
      obtain ⟨_, _, rfl | ⟨_, hload⟩⟩ := hf
      · exact List.mem_cons_self
      · simp [hload] at hl
  have hsplit := List.length_eq_length_filter_add (l := cs)
    (fun c => decide (Store.load t.store c.id = .ok c))
  rw [List.length_cons, List.length_map] at hrest
  unfold len
  omega

/-! ### Steps -/

/-- What running an operation that saves only chunks of `E` does to the state. -/
structure Step (E : Chunk Id → Prop) (t t' : Trees σ Id) : Prop where
  coherent : t'.Coherent
  saves : Saves E t.store t'.store
  has : ∀ c, t.Has c → t'.Has c

namespace Step
variable {E F : Chunk Id → Prop} {t₁ t₂ : Trees σ Id}

theorem refl (h : t.Coherent) : Step E t t := ⟨h, .refl _, fun _ h => h⟩

theorem trans (h₁ : Step E t t₁) (h₂ : Step E t₁ t₂) : Step E t t₂ :=
  ⟨h₂.coherent, h₁.saves.trans h₂.saves, fun c h => h₂.has c (h₁.has c h)⟩

end Step

/-- Chunks of `E` are well formed and can be saved. -/
structure Ready (E : Chunk Id → Prop) (t : Trees σ Id) : Prop where
  coherent : t.Coherent
  wellFormed : ∀ c, E c → c.WellFormed
  accepts : ∀ c, E c → Accepts t.store c

theorem Ready.step {E F : Chunk Id → Prop} (h : Ready E t) (hs : Step F t t') : Ready E t' :=
  ⟨hs.coherent, h.wellFormed, fun c hc => hs.saves.accepts (h.accepts c hc)⟩

/-- From `t`, `x` ends in a value with `Q`, having saved only chunks of `E`, or in an error
with `R`. -/
def Post {α : Type} (E : Chunk Id → Prop) (x : TreesM σ Id α) (t : Trees σ Id)
    (Q : α → Trees σ Id → Prop) (R : Error Id → Prop) : Prop :=
  match x t with
  | .ok (a, t') => Step E t t' ∧ Q a t'
  | .error e => R e

omit [DecidableEq Id] [Hashing Id] [Store σ Id] [LawfulStore σ Id] in
/-- The value of a sequence comes from a value of its first part. -/
theorem bind_eq_ok {α β : Type} {x : TreesM σ Id α} {f : α → TreesM σ Id β} {t t' : Trees σ Id}
    {b : β} (h : (x >>= f) t = .ok (b, t')) : ∃ a t₁, x t = .ok (a, t₁) ∧ f a t₁ = .ok (b, t') := by
  have hbind : (x >>= f) t = x t >>= fun p => f p.1 p.2 := rfl
  rw [hbind] at h
  cases hx : x t with
  | error e =>
      rw [hx] at h
      cases h
  | ok p =>
      rw [hx] at h
      exact ⟨p.1, p.2, rfl, h⟩

/-- From `t`, `x` returns `a`. -/
def Runs {α : Type} (E : Chunk Id → Prop) (x : TreesM σ Id α) (t : Trees σ Id) (a : α) : Prop :=
  Post E x t (fun b _ => b = a) (fun _ => False)

namespace Post
variable {α β : Type} {E F : Chunk Id → Prop} {Q Q' : α → Trees σ Id → Prop}
  {R R' : Error Id → Prop} {x : TreesM σ Id α}

theorem mono (h : Post E x t Q R) (hQ : ∀ a t', Step E t t' → Q a t' → Q' a t')
    (hR : ∀ e, R e → R' e) : Post E x t Q' R' := by
  unfold Post at h ⊢
  split at h
  · exact ⟨h.1, hQ _ _ h.1 h.2⟩
  · exact hR _ h

/-- What a returned value satisfies. -/
theorem of_ok (h : Post E x t Q R) {a : α} {t' : Trees σ Id} (hx : x t = .ok (a, t')) :
    Step E t t' ∧ Q a t' := by
  unfold Post at h
  rw [hx] at h
  exact h

theorem of_error (h : Post E x t Q R) {e : Error Id} (hx : x t = .error e) : R e := by
  unfold Post at h
  rw [hx] at h
  exact h

/-- Without an error there is a value. -/
theorem exists_ok (h : Post E x t Q (fun _ => False)) : ∃ a t', x t = .ok (a, t') ∧ Step E t t' ∧ Q a t' := by
  cases hx : x t with
  | error e => exact (h.of_error hx).elim
  | ok p => exact ⟨p.1, p.2, rfl, h.of_ok hx⟩

theorem pure (ht : t.Coherent) {a : α} (h : Q a t) : Post E (Pure.pure a) t Q R :=
  ⟨Step.refl ht, h⟩

theorem throw {e : Error Id} (h : R e) : Post E (throw e : TreesM σ Id α) t Q R := h

theorem bind {f : α → TreesM σ Id β} {Q' : β → Trees σ Id → Prop} (h : Post E x t Q R)
    (hf : ∀ a t', Step E t t' → Q a t' → Post E (f a) t' Q' R) : Post E (x >>= f) t Q' R := by
  unfold Post at h ⊢
  have hbind : (x >>= f) t = x t >>= fun p => f p.1 p.2 := rfl
  rw [hbind]
  cases hx : x t with
  | error e => rw [hx] at h; exact h
  | ok p =>
      rw [hx] at h
      have hpost := hf p.1 p.2 h.1 h.2
      unfold Post at hpost
      show match f p.1 p.2 with
        | .ok (a, t') => Step E t t' ∧ Q' a t'
        | .error e => R e
      split at hpost
      · exact ⟨h.1.trans hpost.1, hpost.2⟩
      · exact hpost

/-- A step for each element, related to its result. -/
theorem mapM {f : α → TreesM σ Id β} {l : List α} {Rel : α → β → Prop} (ht : t.Coherent)
    (hf : ∀ a ∈ l, ∀ t', Step E t t' → Post E (f a) t' (fun b _ => Rel a b) R) :
    Post E (l.mapM f) t (fun bs _ => List.Forall₂ Rel l bs) R := by
  induction l generalizing t with
  | nil =>
      rw [List.mapM_nil]
      exact Post.pure ht .nil
  | cons a l ih =>
      rw [List.forall_mem_cons] at hf
      rw [List.mapM_cons]
      refine Post.bind (hf.1 t (Step.refl ht)) ?_
      intro b t₁ hs₁ hb
      refine Post.bind (ih hs₁.coherent (fun a' ha' t' hs => hf.2 a' ha' t' (hs₁.trans hs))) ?_
      intro bs t₂ hs₂ hbs
      exact Post.pure hs₂.coherent (.cons hb hbs)

/-- A check of each element. -/
theorem forM {f : α → TreesM σ Id Unit} {l : List α} {P : α → Prop} (ht : t.Coherent)
    (hf : ∀ a ∈ l, ∀ t', Step E t t' → Post E (f a) t' (fun _ _ => P a) R) :
    Post E (l.forM f) t (fun _ _ => ∀ a ∈ l, P a) R := by
  induction l generalizing t with
  | nil => exact Post.pure ht (by simp)
  | cons a l ih =>
      rw [List.forall_mem_cons] at hf
      have hcons : (a :: l).forM f = (f a >>= fun _ => l.forM f) := rfl
      rw [hcons]
      refine Post.bind (hf.1 t (Step.refl ht)) ?_
      intro _ t₁ hs₁ ha
      refine Post.mono (ih hs₁.coherent (fun a' ha' t' hs => hf.2 a' ha' t' (hs₁.trans hs))) ?_
        (fun _ h => h)
      intro _ _ _ hl
      rw [List.forall_mem_cons]
      exact ⟨ha, hl⟩

/-- A fold whose step takes the invariant of the elements done to one element more. -/
theorem foldlM {f : β → α → TreesM σ Id β} {l : List α} {I : List α → β → Prop} {b : β}
    (ht : t.Coherent) (h0 : I [] b)
    (hf : ∀ done a rest, l = done ++ a :: rest → ∀ b t', Step E t t' → I done b →
      Post E (f b a) t' (fun b' _ => I (done ++ [a]) b') R) :
    Post E (l.foldlM f b) t (fun b' _ => I l b') R := by
  have key : ∀ (rest done : List α) (b : β) (t' : Trees σ Id), l = done ++ rest → Step E t t' →
      I done b → Post E (rest.foldlM f b) t' (fun b' _ => I l b') R := by
    intro rest
    induction rest with
    | nil =>
        intro done b t' hl hs hi
        rw [List.append_nil] at hl
        subst hl
        rw [List.foldlM_nil]
        exact Post.pure hs.coherent hi
    | cons a rest ih =>
        intro done b t' hl hs hi
        rw [List.foldlM_cons]
        refine Post.bind (hf done a rest hl b t' hs hi) ?_
        intro b' t'' hs' hi'
        exact ih (done ++ [a]) b' t'' (by rw [hl]; simp) (hs.trans hs') hi'
  exact key l [] b t rfl (Step.refl ht) h0

end Post

namespace Runs
variable {α β : Type} {E F : Chunk Id → Prop} {x : TreesM σ Id α} {a : α}

theorem post {Q : α → Trees σ Id → Prop} {R : Error Id → Prop} (h : Runs E x t a)
    (hQ : ∀ t', Step E t t' → Q a t') : Post E x t Q R :=
  Post.mono h (fun _ _ hs hb => hb ▸ hQ _ hs) (fun _ hf => hf.elim)

theorem pure (ht : t.Coherent) (a : α) : Runs E (Pure.pure a) t a := Post.pure ht rfl

theorem bind {f : α → TreesM σ Id β} {b : β} (h : Runs E x t a)
    (hf : ∀ t', Step E t t' → Runs E (f a) t' b) : Runs E (x >>= f) t b :=
  Post.bind h (fun _ t' hs ha => ha ▸ hf t' hs)

theorem bind_post {f : α → TreesM σ Id β} {Q : β → Trees σ Id → Prop} {R : Error Id → Prop}
    (h : Runs E x t a) (hf : ∀ t', Step E t t' → Post E (f a) t' Q R) :
    Post E (x >>= f) t Q R :=
  Post.bind (h.post (Q := fun b _ => b = a) (fun _ _ => rfl)) (fun _ t' hs ha => ha ▸ hf t' hs)

theorem mapM {γ : Type} {f : γ → TreesM σ Id β} {g : γ → β} {l : List γ} (ht : t.Coherent)
    (hf : ∀ a ∈ l, ∀ t', Step E t t' → Runs E (f a) t' (g a)) : Runs E (l.mapM f) t (l.map g) := by
  induction l generalizing t with
  | nil =>
      rw [List.mapM_nil]
      exact Runs.pure ht []
  | cons a l ih =>
      rw [List.forall_mem_cons] at hf
      rw [List.mapM_cons]
      refine Runs.bind (hf.1 t (Step.refl ht)) ?_
      intro t₁ hs₁
      refine Runs.bind (ih hs₁.coherent (fun a' ha' t' hs => hf.2 a' ha' t' (hs₁.trans hs))) ?_
      intro t₂ hs₂
      exact Runs.pure hs₂.coherent _

theorem exists_ok (h : Runs E x t a) : ∃ t', x t = .ok (a, t') ∧ Step E t t' := by
  unfold Runs Post at h
  split at h
  · rename_i b t' hx
    obtain ⟨hs, rfl⟩ := h
    exact ⟨t', hx, hs⟩
  · exact h.elim

end Runs

/-! ### Reading and writing one chunk -/

variable {E : Chunk Id → Prop}

theorem Step.cache (ht : t.Coherent) (hc : t.cached c.id = none)
    (hf : fetch t.store c.id = .ok c) : Step E t { t with cache := (c.id, c) :: t.cache } := by
  obtain ⟨_, hw, hk⟩ := fetch_eq_ok.mp hf
  refine ⟨?_, .refl _, ?_⟩
  · intro e he
    rcases List.mem_cons.mp he with rfl | he
    · refine ⟨rfl, hw, ?_⟩
      rcases hk with h | ⟨_, hl⟩
      · exact Or.inl h
      · exact Or.inr (LawfulStore.holds_of_load hl)
    · exact ht e he
  · intro d hd
    unfold Has
    rw [cached_cons]
    by_cases hid : d.id = c.id
    · obtain rfl := Chunk.id_inj.mp hid
      exact Or.inl (if_pos rfl)
    · rw [if_neg hid]
      exact hd

theorem runs_chunk (ht : t.Coherent) (h : t.Has c) (cache : Bool) :
    Runs E (chunk c.id cache) t c := by
  unfold Runs Post chunk
  rcases h with h | ⟨hc, hf⟩
  · rw [h]
    exact ⟨Step.refl ht, rfl⟩
  · rw [hc, hf]
    cases cache with
    | true => exact ⟨Step.cache ht hc hf, rfl⟩
    | false => exact ⟨Step.refl ht, rfl⟩

theorem runs_get (ht : t.Coherent) (h : t.Has c) : Runs E (get c.id) t c := runs_chunk ht h true

theorem runs_child (ht : t.Coherent) {parent : Chunk Id} {item : Item Id} (h : t.Has c)
    (hid : item.id = c.id) (hl : c.level + 1 = parent.level) (hne : c.items ≠ [])
    (hn : c.last = item.name) (cache : Bool) : Runs E (child parent item cache) t c := by
  unfold child
  rw [hid]
  refine (runs_chunk ht h cache).bind ?_
  intro t' hs
  rw [if_neg (by simp [hl, hne, hn])]
  exact Runs.pure hs.coherent c

theorem post_put (hr : Ready E t) (hE : E c) {R : Error Id → Prop} :
    Post E (put c) t (fun id t' => id = c.id ∧ t'.Has c) R := by
  have ht := hr.coherent
  have hw := hr.wellFormed c hE
  have ha := hr.accepts c hE
  unfold Post put
  cases hc : t.cached c.id with
  | some d =>
      obtain rfl := Chunk.id_inj.mp (ht.cached hc).1
      exact ⟨Step.refl ht, rfl, Or.inl hc⟩
  | none =>
      obtain ⟨s', hs⟩ := LawfulStore.save_of_accepts ha
      rw [hs]
      refine ⟨⟨?_, .tail (.refl _) hE hs, ?_⟩, rfl, ?_⟩
      · intro e he
        rcases List.mem_cons.mp he with rfl | he
        · exact ⟨rfl, hw, Or.inr (LawfulStore.holds_of_save hs (Or.inr rfl))⟩
        · obtain ⟨h1, h2, h3⟩ := ht e he
          exact ⟨h1, h2, h3.imp_right (fun h => LawfulStore.holds_of_save hs (Or.inl h))⟩
      · intro d hd
        unfold Has
        rw [cached_cons]
        by_cases hid : d.id = c.id
        · obtain rfl := Chunk.id_inj.mp hid
          exact Or.inl (if_pos rfl)
        rw [if_neg hid]
        rcases hd with hd | ⟨hd, hf⟩
        · exact Or.inl hd
        · refine Or.inr ⟨hd, ?_⟩
          obtain ⟨_, hwd, hk⟩ := fetch_eq_ok.mp hf
          refine fetch_eq_ok.mpr ⟨rfl, hwd, hk.imp_right ?_⟩
          exact And.imp_right (fun hl => LawfulStore.load_of_save hs hl)
      · unfold Has
        rw [cached_cons]
        exact Or.inl (if_pos rfl)

end laws

end Trees

/-! ### The in-memory store -/

/-- The in-memory store, its chunks by ID; the latest comes first. -/
structure MemoryStore (Id : Type) where
  objects : List (Id × Chunk Id)

namespace MemoryStore
variable {Id : Type} [DecidableEq Id] [Hashing Id]

def empty : MemoryStore Id := ⟨[]⟩

instance : Store (MemoryStore Id) Id where
  load s id :=
    match s.objects.lookup id with
    | some c => .ok c
    | none => .error (.missingObject id)
  save s id c := .ok ⟨(id, c) :: s.objects.filter (fun e => e.1 ≠ id)⟩
  len s := s.objects.length

omit [Hashing Id] in
theorem load_eq_ok {s : MemoryStore Id} {id : Id} {c : Chunk Id} :
    Store.load s id = .ok c ↔ s.objects.lookup id = some c := by
  show (match s.objects.lookup id with
    | some c => Except.ok c
    | none => Except.error (Error.missingObject id)) = .ok c ↔ _
  cases s.objects.lookup id <;> simp

omit [Hashing Id] in
theorem lookup_filter_ne {id id' : Id} (h : id' ≠ id) (l : List (Id × Chunk Id)) :
    (l.filter (fun e => e.1 ≠ id)).lookup id' = l.lookup id' := by
  induction l with
  | nil => rfl
  | cons e l ih =>
      by_cases he : e.1 = id
      · rw [List.filter_cons_of_neg (by simpa using he), ih, List.lookup_cons]
        rw [he, beq_eq_false_iff_ne.mpr h]
      · rw [List.filter_cons_of_pos (by simpa using he), List.lookup_cons, List.lookup_cons, ih]

instance : LawfulStore (MemoryStore Id) Id where
  Accepts _ _ := True
  Holds s c := Store.load s c.id = .ok c
  holds_of_load h := h
  save_of_accepts _ := ⟨_, rfl⟩
  load_of_save := by
    intro s s' c d hs hd
    injection hs with hs
    subst hs
    rw [load_eq_ok] at hd ⊢
    rw [List.lookup_cons]
    by_cases h : d.id = c.id
    · rw [Chunk.id_inj.mp h]; simp
    · rw [beq_eq_false_iff_ne.mpr h, lookup_filter_ne h]
      exact hd
  holds_of_save := by
    intro s s' c d hs hd
    injection hs with hs
    subst hs
    rw [load_eq_ok] at hd ⊢
    rw [List.lookup_cons]
    by_cases h : d.id = c.id
    · rw [Chunk.id_inj.mp h]; simp
    · rw [beq_eq_false_iff_ne.mpr h, lookup_filter_ne h]
      rcases hd with hd | rfl
      · exact hd
      · exact absurd rfl h
  accepts_of_save _ _ := trivial
  length_le_len := by
    intro s cs hn hc
    have hsub : (cs.map Chunk.id).Nodup := hn.map Hashing.treeId_injective
    have hle : (cs.map Chunk.id).length ≤ (s.objects.map Prod.fst).length := by
      refine (hsub.subperm ?_).length_le
      intro id hid
      obtain ⟨c, hcm, rfl⟩ := List.mem_map.mp hid
      obtain ⟨l₁, l₂, hl, _⟩ := List.lookup_eq_some_iff.mp (load_eq_ok.mp (hc c hcm))
      rw [hl]
      simp
    rwa [List.length_map, List.length_map] at hle

end MemoryStore

end Javelin
