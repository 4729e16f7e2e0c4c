import IqdbPersist.CrashLogic

/-!
# What every run of a program keeps to

`Confined R p` says that wherever `p` is started and however it ends, `R` holds between the state
before and the state after. It has a rule for each way to build a program, so that a relation which
the operations keep to is kept to by all that is made of them.
-/

namespace CrashLogic

variable {ε ε' σ τ α β : Type}

/-- A relation between a state and a later one that can be followed step by step. -/
structure Frame (R : σ → σ → Prop) : Prop where
  refl : ∀ s, R s s
  trans : ∀ {s t u}, R s t → R t u → R s u

/-- Wherever the program starts and however it ends, it keeps to `R`. -/
def Confined (R : σ → σ → Prop) (p : EStateM ε σ α) : Prop :=
  ∀ s, Ends p s (fun _ s' => R s s') (fun _ s' => R s s')

/-- Wherever the program starts it keeps to `R`, and what it returns is as `V` allows. -/
def Yields (R : σ → σ → Prop) (V : α → Prop) (p : EStateM ε σ α) : Prop :=
  ∀ s, Ends p s (fun a s' => R s s' ∧ V a) (fun _ s' => R s s')

variable {R : σ → σ → Prop} {S : τ → τ → Prop} {V : α → Prop} {p : EStateM ε σ α}

theorem Yields.confined (h : Yields R V p) : Confined R p :=
  fun s => (h s).mono (fun _ _ h => h.1) fun _ _ h => h

theorem Confined.error {s s' : σ} {e : ε} (h : Confined R p) (hp : p s = .error e s') : R s s' := by
  have hs := h s
  unfold Ends at hs
  rwa [hp] at hs

theorem Confined.mono {R' : σ → σ → Prop} (h : Confined R p) (hR : ∀ s t, R s t → R' s t) :
    Confined R' p := fun s => (h s).mono (fun _ _ => hR _ _) fun _ _ => hR _ _

theorem Yields.mono {R' : σ → σ → Prop} (h : Yields R V p) (hR : ∀ s t, R s t → R' s t) :
    Yields R' V p := fun s => (h s).mono (fun _ _ h => ⟨hR _ _ h.1, h.2⟩) fun _ _ => hR _ _

section Rules

variable (hR : Frame R)

include hR

theorem confined_pure (a : α) : Confined R (pure a : EStateM ε σ α) := fun s => hR.refl s

theorem confined_throw (e : ε) : Confined R (throw e : EStateM ε σ α) := fun s => hR.refl s

theorem confined_settle (x : Except ε α) : Confined R (settle x : EStateM ε σ α) := by
  cases x with
  | ok a => exact confined_pure hR a
  | error e => exact confined_throw hR e

theorem Confined.bind {f : α → EStateM ε σ β} (hp : Confined R p) (hf : ∀ a, Confined R (f a)) :
    Confined R (p >>= f) := by
  intro s
  rw [ends_bind]
  refine (hp s).mono ?_ fun _ _ h => h
  intro a t hst
  exact (hf a t).mono (fun _ _ => hR.trans hst) fun _ _ => hR.trans hst

theorem yields_pure {a : α} (ha : V a) : Yields R V (pure a : EStateM ε σ α) :=
  fun s => ⟨hR.refl s, ha⟩

theorem yields_throw (e : ε) : Yields R V (throw e : EStateM ε σ α) := fun s => hR.refl s

theorem Confined.bind_yields {V : β → Prop} {f : α → EStateM ε σ β} (hp : Confined R p)
    (hf : ∀ a, Yields R V (f a)) : Yields R V (p >>= f) := by
  intro s
  rw [ends_bind]
  refine (hp s).mono ?_ fun _ _ h => h
  intro a t hst
  exact (hf a t).mono (fun _ _ h => ⟨hR.trans hst h.1, h.2⟩) fun _ _ => hR.trans hst

theorem Yields.bind {W : β → Prop} {f : α → EStateM ε σ β} (hp : Yields R V p)
    (hf : ∀ a, V a → Yields R W (f a)) : Yields R W (p >>= f) := by
  intro s
  rw [ends_bind]
  refine (hp s).mono ?_ fun _ _ h => h
  rintro a t ⟨hst, ha⟩
  exact (hf a ha t).mono (fun _ _ h => ⟨hR.trans hst h.1, h.2⟩) fun _ _ => hR.trans hst

theorem Yields.bind_confined {f : α → EStateM ε σ β} (hp : Yields R V p)
    (hf : ∀ a, V a → Confined R (f a)) : Confined R (p >>= f) := by
  intro s
  rw [ends_bind]
  refine (hp s).mono ?_ fun _ _ h => h
  rintro a t ⟨hst, ha⟩
  exact (hf a ha t).mono (fun _ _ => hR.trans hst) fun _ _ => hR.trans hst

theorem Confined.map (hp : Confined R p) (f : α → β) : Confined R (f <$> p) := by
  rw [map_eq_pure_bind]
  exact hp.bind hR fun a => confined_pure hR (f a)

omit hR in
theorem confined_get_bind {f : σ → EStateM ε σ α} (hf : ∀ s, Confined R (f s)) :
    Confined R (get >>= f) := fun s => hf s s

omit hR in
theorem confined_modify {f : σ → σ} (hf : ∀ s, R s (f s)) :
    Confined R (modify f : EStateM ε σ PUnit) := hf

omit hR in
theorem confined_within {get : τ → σ} {set : σ → τ → τ} (hp : Confined R p)
    (hset : ∀ u t, R (get u) t → S u (set t u)) : Confined S (within get set p) := by
  intro u
  rw [ends_within]
  exact (hp (get u)).mono (fun _ _ => hset u _) fun _ _ => hset u _

omit hR in
theorem confined_uninterrupted (hp : Confined R p) : Confined R (uninterrupted p) := by
  intro s
  rw [ends_uninterrupted]
  exact hp s

theorem confined_onFailure {p : EStateM (Halt ε) σ α} {h : ε → EStateM (Halt ε') σ α}
    (hp : Confined R p) (hh : ∀ e, Confined R (h e)) : Confined R (onFailure p h) := by
  intro s
  rw [ends_onFailure]
  refine (hp s).mono (fun _ _ h => h) ?_
  intro e t hst
  cases e with
  | crashed => exact hst
  | failed e => exact (hh e t).mono (fun _ _ => hR.trans hst) fun _ _ => hR.trans hst

theorem yields_onFailure {p : EStateM (Halt ε) σ α} {h : ε → EStateM (Halt ε') σ α}
    (hp : Yields R V p) (hh : ∀ e, Yields R V (h e)) : Yields R V (onFailure p h) := by
  intro s
  rw [ends_onFailure]
  refine (hp s).mono (fun _ _ h => h) ?_
  intro e t hst
  cases e with
  | crashed => exact hst
  | failed e => exact (hh e t).mono (fun _ _ h => ⟨hR.trans hst h.1, h.2⟩) fun _ _ => hR.trans hst

omit hR in
theorem yields_get_bind {f : σ → EStateM ε σ α} (hf : ∀ s, Yields R V (f s)) :
    Yields R V (get >>= f) := fun s => hf s s

omit hR in
theorem yields_withLocal {T : τ × σ → τ × σ → Prop} {V : τ → Prop}
    {p : EStateM ε (τ × σ) Unit} (hp : Confined T p) (a : τ)
    (hT : ∀ s x, T (a, s) x → R s x.2 ∧ V x.1) : Yields R V (withLocal a p) := by
  intro s
  rw [ends_withLocal]
  exact (hp (a, s)).mono (fun _ _ => hT s _) fun _ _ h => (hT s _ h).1

omit hR in
theorem confined_withLocal {T : τ × σ → τ × σ → Prop} {p : EStateM ε (τ × σ) Unit}
    (hp : Confined T p) (a : τ) (hT : ∀ s x, T (a, s) x → R s x.2) :
    Confined R (withLocal a p) := by
  intro s
  rw [ends_withLocal]
  exact (hp (a, s)).mono (fun _ _ => hT s _) fun _ _ => hT s _

end Rules

end CrashLogic
