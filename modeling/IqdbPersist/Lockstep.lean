import IqdbPersist.CrashLogic

/-!
# Two runs in step

`Lockstep` compares the runs of two programs from two states: both return, with related values and
states, or both halt for the same reason, unless one of them halts in a way that is set aside.
`InStep` says this of one program and a relation that it keeps; it has a rule for each way to build
a program.
-/

namespace CrashLogic

variable {ε ε' σ τ α β γ δ : Type}

/-- From `s` and `t` both programs return as `Q` allows or both halt, for the same reason and in
states related by `R`, unless one of them halts as `Bad` says. -/
def Lockstep (Bad : ε → Prop) (p : EStateM ε σ α) (q : EStateM ε σ β) (s t : σ)
    (Q : α → β → σ → σ → Prop) (R : σ → σ → Prop) : Prop :=
  match p s, q t with
  | .ok a s', .ok c t' => Q a c s' t'
  | .error e s', .error f t' => Bad e ∨ Bad f ∨ e = f ∧ R s' t'
  | .error e _, .ok _ _ | .ok _ _, .error e _ => Bad e

/-- From related states the program returns the same value, or halts for the same reason, in
related states. -/
def InStep (Bad : ε → Prop) (R : σ → σ → Prop) (p : EStateM ε σ α) : Prop :=
  ∀ s t, R s t → Lockstep Bad p p s t (fun a c s' t' => a = c ∧ R s' t') R

/-- The same first component beside related second ones. -/
def Beside (R : σ → σ → Prop) (s t : τ × σ) : Prop := t.1 = s.1 ∧ R s.2 t.2

section Lockstep

variable {Bad : ε → Prop} {p : EStateM ε σ α} {q : EStateM ε σ β} {s t : σ}
  {Q Q' : α → β → σ → σ → Prop} {R : σ → σ → Prop}

theorem Lockstep.bind {f : α → EStateM ε σ γ} {g : β → EStateM ε σ δ} {S : γ → δ → σ → σ → Prop}
    (h : Lockstep Bad p q s t Q R)
    (hf : ∀ a c s' t', Q a c s' t' → Lockstep Bad (f a) (g c) s' t' S R) :
    Lockstep Bad (p >>= f) (q >>= g) s t S R := by
  change match EStateM.bind p f s, EStateM.bind q g t with
    | .ok a s', .ok c t' => S a c s' t'
    | .error e s', .error f t' => Bad e ∨ Bad f ∨ e = f ∧ R s' t'
    | .error e _, .ok _ _ | .ok _ _, .error e _ => Bad e
  unfold Lockstep at h
  unfold EStateM.bind
  cases hp : p s with
  | ok a s' =>
    cases hq : q t with
    | ok c t' =>
      rw [hp, hq] at h
      exact hf a c s' t' h
    | error e t' =>
      rw [hp, hq] at h
      dsimp only
      cases f a s' with
      | ok _ _ => exact h
      | error _ _ => exact .inr (.inl h)
  | error e s' =>
    cases hq : q t with
    | ok c t' =>
      rw [hp, hq] at h
      dsimp only
      cases g c t' with
      | ok _ _ => exact h
      | error _ _ => exact .inl h
    | error f t' =>
      rw [hp, hq] at h
      exact h

theorem lockstep_get_bind {f : σ → EStateM ε σ α} {g : σ → EStateM ε σ β}
    (h : Lockstep Bad (f s) (g t) s t Q R) : Lockstep Bad (get >>= f) (get >>= g) s t Q R := h

theorem lockstep_within {u v : τ} {get get' : τ → σ} {set set' : σ → τ → τ}
    {S : α → β → τ → τ → Prop} {U : τ → τ → Prop} (h : Lockstep Bad p q (get u) (get' v) Q R)
    (hQ : ∀ a c s' t', Q a c s' t' → S a c (set s' u) (set' t' v))
    (hR : ∀ s' t', R s' t' → U (set s' u) (set' t' v)) :
    Lockstep Bad (within get set p) (within get' set' q) u v S U := by
  unfold Lockstep within
  unfold Lockstep at h
  cases hp : p (get u) <;> cases hq : q (get' v) <;> rw [hp, hq] at h
  · exact hQ _ _ _ _ h
  · exact h
  · exact h
  · exact h.imp_right fun h => h.imp_right fun h => ⟨h.1, hR _ _ h.2⟩

theorem lockstep_uninterrupted {Bad : Halt ε → Prop}
    (h : Lockstep (fun _ => False) p q s t Q R) :
    Lockstep Bad (uninterrupted p) (uninterrupted q) s t Q R := by
  unfold Lockstep uninterrupted
  unfold Lockstep at h
  cases hp : p s <;> cases hq : q t <;> rw [hp, hq] at h
  · exact h
  · exact h.elim
  · exact h.elim
  · obtain ⟨rfl, hrel⟩ := (h.resolve_left id).resolve_left id
    exact .inr (.inr ⟨rfl, hrel⟩)

theorem lockstep_onFailure {Bad : Halt ε' → Prop} {p : EStateM (Halt ε) σ α}
    {q : EStateM (Halt ε) σ β} {h₁ : ε → EStateM (Halt ε') σ α} {h₂ : ε → EStateM (Halt ε') σ β}
    (h : Lockstep (fun _ => False) p q s t Q R)
    (hE : ∀ e s' t', R s' t' → Lockstep Bad (h₁ e) (h₂ e) s' t' Q R) :
    Lockstep Bad (onFailure p h₁) (onFailure q h₂) s t Q R := by
  unfold Lockstep onFailure
  unfold Lockstep at h
  cases hp : p s with
  | ok a s' =>
    cases hq : q t with
    | ok c t' =>
      rw [hp, hq] at h
      exact h
    | error f t' =>
      rw [hp, hq] at h
      exact h.elim
  | error e s' =>
    cases hq : q t with
    | ok c t' =>
      rw [hp, hq] at h
      exact h.elim
    | error f t' =>
      rw [hp, hq] at h
      simp only [false_or] at h
      obtain ⟨rfl, h⟩ := h
      cases e with
      | failed e => exact hE e s' t' h
      | crashed => exact .inr (.inr ⟨rfl, h⟩)

theorem Lockstep.of_ends {P : α → σ → Prop} {P' : β → σ → Prop}
    (h : Ends p s P (fun e _ => Bad e)) (h' : Ends q t P' (fun e _ => Bad e))
    (hQ : ∀ a c s' t', P a s' → P' c t' → Q a c s' t') : Lockstep Bad p q s t Q R := by
  unfold Lockstep
  unfold Ends at h h'
  cases hp : p s <;> cases hq : q t <;> rw [hp] at h <;> rw [hq] at h'
  · exact hQ _ _ _ _ h h'
  · exact h'
  · exact h
  · exact .inl h

theorem Lockstep.exists_ok {a : α} {s' : σ} (h : Lockstep (fun _ => False) p q s t Q R)
    (hp : p s = .ok a s') : ∃ c t', q t = .ok c t' ∧ Q a c s' t' := by
  unfold Lockstep at h
  rw [hp] at h
  cases hq : q t with
  | ok c t' =>
    rw [hq] at h
    exact ⟨c, t', rfl, h⟩
  | error f t' =>
    rw [hq] at h
    exact h.elim

end Lockstep

section InStep

variable {Bad : ε → Prop} {R : σ → σ → Prop} {p : EStateM ε σ α}

theorem inStep_eq (p : EStateM ε σ α) : InStep Bad Eq p := by
  rintro s _ rfl
  unfold Lockstep
  cases p s with
  | ok a s' => exact ⟨rfl, rfl⟩
  | error e s' => exact .inr (.inr ⟨rfl, rfl⟩)

theorem inStep_pure (a : α) : InStep Bad R (pure a : EStateM ε σ α) := fun _ _ h => ⟨rfl, h⟩

theorem inStep_throw (e : ε) : InStep Bad R (throw e : EStateM ε σ α) :=
  fun _ _ h => .inr (.inr ⟨rfl, h⟩)

theorem inStep_settle (x : Except ε α) : InStep Bad R (settle x : EStateM ε σ α) := by
  cases x with
  | ok a => exact inStep_pure a
  | error e => exact inStep_throw e

theorem inStep_modify {f : σ → σ} (hf : ∀ s t, R s t → R (f s) (f t)) :
    InStep Bad R (modify f : EStateM ε σ PUnit) := fun s t h => ⟨rfl, hf s t h⟩

theorem InStep.bind {f : α → EStateM ε σ β} (hp : InStep Bad R p) (hf : ∀ a, InStep Bad R (f a)) :
    InStep Bad R (p >>= f) := by
  refine fun s t h => (hp s t h).bind ?_
  rintro a _ s' t' ⟨rfl, h'⟩
  exact hf a s' t' h'

theorem InStep.map (hp : InStep Bad R p) (f : α → β) : InStep Bad R (f <$> p) := by
  rw [map_eq_pure_bind]
  exact hp.bind fun a => inStep_pure (f a)

theorem inStep_get_bind {f : σ → EStateM ε σ α} (hread : ∀ s t, R s t → f t = f s)
    (hf : ∀ s, InStep Bad R (f s)) : InStep Bad R (get >>= f) := by
  refine fun s t h => lockstep_get_bind ?_
  rw [hread s t h]
  exact hf s s t h

theorem inStep_within {S : τ → τ → Prop} {get : τ → σ} {set : σ → τ → τ} (hp : InStep Bad R p)
    (hget : ∀ u v, S u v → R (get u) (get v))
    (hset : ∀ u v s t, S u v → R s t → S (set s u) (set t v)) :
    InStep Bad S (within get set p) :=
  fun u v h => lockstep_within (hp _ _ (hget u v h))
    (fun _ _ s' t' hs => ⟨hs.1, hset u v s' t' h hs.2⟩) (fun s' t' hs => hset u v s' t' h hs)

theorem inStep_snd (hp : InStep Bad R p) :
    InStep Bad (Beside (τ := τ) R) (within Prod.snd (fun w s => (s.1, w)) p) :=
  inStep_within hp (fun _ _ h => h.2) fun _ _ _ _ h h' => ⟨h.1, h'⟩

theorem inStep_fst (p : EStateM ε τ α) :
    InStep Bad (Beside R) (within Prod.fst (fun x s => (x, s.2)) p) :=
  inStep_within (inStep_eq p) (fun _ _ h => h.1.symm) fun _ _ _ _ h h' => ⟨h'.symm, h.2⟩

theorem lockstep_withLocal {a c : τ} {s t : σ} {p : EStateM ε (τ × σ) Unit}
    {S : τ × σ → τ × σ → Prop} {V : τ → τ → Prop} (hp : InStep Bad S p) (h : S (a, s) (c, t))
    (hS : ∀ x y, S x y → V x.1 y.1 ∧ R x.2 y.2) :
    Lockstep Bad (withLocal a p) (withLocal c p) s t (fun x y s' t' => V x y ∧ R s' t') R := by
  have hlock := hp (a, s) (c, t) h
  unfold Lockstep at hlock ⊢
  unfold withLocal
  cases hs : p (a, s) <;> cases ht : p (c, t) <;> rw [hs, ht] at hlock
  · exact hS _ _ hlock.2
  · exact hlock
  · exact hlock
  · exact hlock.imp_right fun h => h.imp_right fun h => ⟨h.1, (hS _ _ h.2).2⟩

theorem inStep_withLocal {p : EStateM ε (τ × σ) Unit} (hp : InStep Bad (Beside R) p) (a : τ) :
    InStep Bad R (withLocal a p) :=
  fun _ _ h => lockstep_withLocal hp ⟨rfl, h⟩ fun _ _ h => ⟨h.1.symm, h.2⟩

theorem inStep_uninterrupted {Bad : Halt ε → Prop} (hp : InStep (fun _ => False) R p) :
    InStep Bad R (uninterrupted p) := fun s t h => lockstep_uninterrupted (hp s t h)

theorem inStep_onFailure {Bad : Halt ε' → Prop} {p : EStateM (Halt ε) σ α}
    {h : ε → EStateM (Halt ε') σ α} (hp : InStep (fun _ => False) R p)
    (hh : ∀ e, InStep Bad R (h e)) : InStep Bad R (onFailure p h) :=
  fun s t hs => lockstep_onFailure (hp s t hs) fun e => hh e

end InStep

end CrashLogic
