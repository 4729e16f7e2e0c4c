import Mathlib.Tactic.Basic

/-!
# A logic of programs that can fail and can be stopped

A program is an `EStateM` computation: it changes a state, and the changes made so far stay when it
returns an error. `Halt` adds a second way not to return, the machine stopping in the middle, which
no program can observe or handle. `Ends` is the two-sided postcondition of a run, with one rule for
each way to build a program; the rules are equivalences, so that `simp` runs a program symbolically.
-/

namespace CrashLogic

variable {ε ε' σ τ α β : Type}

/-- Why a program did not return a value. -/
inductive Halt (ε : Type) where
  | failed (e : ε)
  | crashed
  deriving DecidableEq, Repr

/-- One condition on failures and one on stopping. -/
def Halt.elim (onFailed : ε → Prop) (onCrashed : Prop) : Halt ε → Prop
  | .failed e => onFailed e
  | .crashed => onCrashed

@[simp] theorem Halt.elim_failed (f : ε → Prop) (c : Prop) (e : ε) :
    (Halt.failed e).elim f c = f e := rfl

@[simp] theorem Halt.elim_crashed (f : ε → Prop) (c : Prop) :
    (Halt.crashed : Halt ε).elim f c = c := rfl

/-- From `s` the program returns a value as `Q` allows or halts as `E` allows. -/
def Ends (p : EStateM ε σ α) (s : σ) (Q : α → σ → Prop) (E : ε → σ → Prop) : Prop :=
  match p s with
  | .ok a s' => Q a s'
  | .error e s' => E e s'

/-- Run `p` on the part of the state that `get` selects. -/
def within (get : σ → τ) (set : τ → σ → σ) (p : EStateM ε τ α) : EStateM ε σ α := fun s =>
  match p (get s) with
  | .ok a t => .ok a (set t s)
  | .error e t => .error e (set t s)

/-- Hand an error of `p` to `h`; a machine that stopped stays stopped. -/
def onFailure (p : EStateM (Halt ε) σ α) (h : ε → EStateM (Halt ε') σ α) :
    EStateM (Halt ε') σ α := fun s =>
  match p s with
  | .ok a s' => .ok a s'
  | .error (.failed e) s' => h e s'
  | .error .crashed s' => .error .crashed s'

/-- A program without file operations, among those that can be stopped. -/
def uninterrupted (p : EStateM ε σ α) : EStateM (Halt ε) σ α := fun s =>
  match p s with
  | .ok a s' => .ok a s'
  | .error e s' => .error (.failed e) s'

/-- A result computed beforehand, returned or thrown. -/
def settle : Except ε α → EStateM ε σ α
  | .ok a => pure a
  | .error e => throw e

/-- Go on only if `c` holds. -/
def ensure (c : Prop) [Decidable c] (e : ε) : EStateM ε σ Unit := if c then pure () else throw e

/-- Run `p` with a variable of its own, set to `a`, and return the variable. -/
def withLocal (a : τ) (p : EStateM ε (τ × σ) Unit) : EStateM ε σ τ := fun s =>
  match p (a, s) with
  | .ok _ (a', s') => .ok a' s'
  | .error e (_, s') => .error e s'

/-- How a program that returns nothing ends, and the state after it. -/
def outcome (p : EStateM ε σ Unit) (s : σ) : Except ε Unit × σ :=
  match p s with
  | .ok _ s' => (.ok (), s')
  | .error e s' => (.error e, s')

theorem ok_of_outcome {p : EStateM ε σ Unit} {s : σ} (h : (outcome p s).1 = .ok ()) :
    p s = .ok () (outcome p s).2 := by
  unfold outcome at h ⊢
  split at h
  · rename_i hp
    rw [hp]
  · cases h

theorem error_of_outcome {p : EStateM ε σ Unit} {s : σ} {e : ε}
    (h : (outcome p s).1 = .error e) : p s = .error e (outcome p s).2 := by
  unfold outcome at h ⊢
  split at h
  · cases h
  · rename_i hp
    cases h
    rw [hp]

theorem ends_of_ok {p : EStateM ε σ α} {s s' : σ} {a : α} {Q : α → σ → Prop} {E : ε → σ → Prop}
    (h : Ends p s Q E) (hp : p s = .ok a s') : Q a s' := by
  simpa only [Ends, hp] using h

theorem ends_of_error {p : EStateM ε σ α} {s s' : σ} {e : ε} {Q : α → σ → Prop}
    {E : ε → σ → Prop} (h : Ends p s Q E) (hp : p s = .error e s') : E e s' := by
  simpa only [Ends, hp] using h

theorem ok_of_ends {p : EStateM ε σ α} {s : σ} {Q : α → σ → Prop}
    (h : Ends p s Q (fun _ _ => False)) : ∃ a s', p s = .ok a s' ∧ Q a s' := by
  unfold Ends at h
  split at h
  · exact ⟨_, _, ‹_›, h⟩
  · exact h.elim

theorem error_of_ends {p : EStateM ε σ α} {s : σ} {E : ε → σ → Prop}
    (h : Ends p s (fun _ _ => False) E) : ∃ e s', p s = .error e s' ∧ E e s' := by
  unfold Ends at h
  split at h
  · exact h.elim
  · exact ⟨_, _, ‹_›, h⟩

theorem ok_iff_of_ends {p : EStateM ε σ α} {s : σ} {c : Prop}
    (h : Ends p s (fun _ _ => c) (fun _ _ => ¬ c)) : (∃ a s', p s = .ok a s') ↔ c := by
  unfold Ends at h
  split at h
  · exact ⟨fun _ => h, fun _ => ⟨_, _, ‹_›⟩⟩
  · rename_i e s' heq
    refine ⟨?_, fun hc => absurd hc h⟩
    rintro ⟨a, t, hok⟩
    rw [heq] at hok
    cases hok

theorem Ends.mono {p : EStateM ε σ α} {s : σ} {Q Q' : α → σ → Prop} {E E' : ε → σ → Prop}
    (h : Ends p s Q E) (hQ : ∀ a s', Q a s' → Q' a s') (hE : ∀ e s', E e s' → E' e s') :
    Ends p s Q' E' := by
  unfold Ends at h ⊢
  split at h
  · exact hQ _ _ h
  · exact hE _ _ h

theorem Ends.and {p : EStateM ε σ α} {s : σ} {Q Q' : α → σ → Prop} {E E' : ε → σ → Prop}
    (h : Ends p s Q E) (h' : Ends p s Q' E') :
    Ends p s (fun a s' => Q a s' ∧ Q' a s') (fun e s' => E e s' ∧ E' e s') := by
  unfold Ends at h h' ⊢
  cases hp : p s with
  | ok a s' =>
    rw [hp] at h h'
    exact ⟨h, h'⟩
  | error e s' =>
    rw [hp] at h h'
    exact ⟨h, h'⟩

section Rules

variable {Q : α → σ → Prop} {E : ε → σ → Prop} {s : σ}

@[simp] theorem ends_pure (a : α) : Ends (pure a : EStateM ε σ α) s Q E ↔ Q a s := Iff.rfl

@[simp] theorem ends_bind {Q : β → σ → Prop} (p : EStateM ε σ α) (f : α → EStateM ε σ β) :
    Ends (p >>= f) s Q E ↔ Ends p s (fun a s' => Ends (f a) s' Q E) E := by
  change (match EStateM.bind p f s with | .ok a s' => Q a s' | .error e s' => E e s') ↔ _
  unfold EStateM.bind Ends
  cases p s <;> rfl

@[simp] theorem ends_map {Q : β → σ → Prop} (f : α → β) (p : EStateM ε σ α) :
    Ends (f <$> p) s Q E ↔ Ends p s (fun a s' => Q (f a) s') E := by
  change (match EStateM.map f p s with | .ok a s' => Q a s' | .error e s' => E e s') ↔ _
  unfold EStateM.map Ends
  cases p s <;> rfl

@[simp] theorem ends_throw (e : ε) : Ends (throw e : EStateM ε σ α) s Q E ↔ E e s := Iff.rfl

@[simp] theorem ends_get {Q : σ → σ → Prop} :
    Ends (get : EStateM ε σ σ) s Q E ↔ Q s s := Iff.rfl

@[simp] theorem ends_modify {Q : PUnit → σ → Prop} (f : σ → σ) :
    Ends (modify f : EStateM ε σ PUnit) s Q E ↔ Q ⟨⟩ (f s) := Iff.rfl

@[simp] theorem ends_within {t : τ} {Q : α → τ → Prop} {E : ε → τ → Prop} (get : τ → σ)
    (set : σ → τ → τ) (p : EStateM ε σ α) :
    Ends (within get set p) t Q E ↔
      Ends p (get t) (fun a s' => Q a (set s' t)) (fun e s' => E e (set s' t)) := by
  unfold Ends within
  cases p (get t) <;> rfl

@[simp] theorem ends_onFailure {E : Halt ε' → σ → Prop} (p : EStateM (Halt ε) σ α)
    (h : ε → EStateM (Halt ε') σ α) :
    Ends (onFailure p h) s Q E ↔
      Ends p s Q (fun e s' => e.elim (fun e => Ends (h e) s' Q E) (E .crashed s')) := by
  unfold Ends onFailure
  rcases p s with _ | ⟨_ | _, _⟩ <;> rfl

@[simp] theorem ends_uninterrupted {E : Halt ε → σ → Prop} (p : EStateM ε σ α) :
    Ends (uninterrupted p) s Q E ↔ Ends p s Q (fun e s' => E (.failed e) s') := by
  unfold Ends uninterrupted
  cases p s <;> rfl

@[simp] theorem ends_settle_ok (a : α) :
    Ends (settle (.ok a) : EStateM ε σ α) s Q E ↔ Q a s := Iff.rfl

@[simp] theorem ends_settle_error (e : ε) :
    Ends (settle (.error e) : EStateM ε σ α) s Q E ↔ E e s := Iff.rfl

theorem ends_settle_of {x : Except ε α} (hok : ∀ a, x = .ok a → Q a s)
    (herror : ∀ e, x = .error e → E e s) : Ends (settle x : EStateM ε σ α) s Q E := by
  cases x with
  | ok a => exact hok a rfl
  | error e => exact herror e rfl

@[simp] theorem ends_ensure {Q : Unit → σ → Prop} (c : Prop) [Decidable c] (e : ε) :
    Ends (ensure c e : EStateM ε σ Unit) s Q E ↔ (c → Q () s) ∧ (¬ c → E e s) := by
  unfold ensure
  split <;> simp_all

@[simp] theorem ends_withLocal {Q : τ → σ → Prop} (a : τ) (p : EStateM ε (τ × σ) Unit) :
    Ends (withLocal a p) s Q E ↔
      Ends p (a, s) (fun _ s' => Q s'.1 s'.2) (fun e s' => E e s'.2) := by
  unfold Ends withLocal
  cases p (a, s) <;> rfl

end Rules

end CrashLogic
