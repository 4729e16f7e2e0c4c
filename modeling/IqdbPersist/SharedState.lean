import IqdbPersist.Simulation
import Mathlib.Logic.Function.Basic

/-!
# Components that share a state

Each component has a state of its own and works on one that all of them share. If the steps of each
keep what every other relies on, then each of them behaves as it would alone.
-/

namespace Simulation

variable {ι L σ E A : Type}

/-- The components and the state that they share. -/
structure Shared (ι L σ : Type) where
  own : ι → L
  common : σ

/-- The events of one component. -/
def eventsOf [DecidableEq ι] (i : ι) (es : List (ι × E)) : List E :=
  es.filterMap fun e => if e.1 = i then some e.2 else none

namespace Shared

variable [DecidableEq ι]

/-- One component takes a step of its own. -/
inductive Step (step : ι → L × σ → E → L × σ → Prop) :
    Shared ι L σ → ι × E → Shared ι L σ → Prop where
  | mk {s : Shared ι L σ} {i : ι} {e : E} {l : L} {c : σ}
      (h : step i (s.own i, s.common) e (l, c)) :
      Step step s (i, e) ⟨Function.update s.own i l, c⟩

theorem eventsOf_snoc_self (es : List (ι × E)) (i : ι) (e : E) :
    eventsOf i (es ++ [(i, e)]) = eventsOf i es ++ [e] := by
  simp [eventsOf]

theorem eventsOf_snoc_of_ne (es : List (ι × E)) {i j : ι} (h : j ≠ i) (e : E) :
    eventsOf i (es ++ [(j, e)]) = eventsOf i es := by
  simp [eventsOf, h]

/-- Each component is simulated by an object of its own, if its steps are moves of the object and
the steps of the others leave the relation to the object alone. -/
theorem simulate {step : ι → L × σ → E → L × σ → Prop} (astep : ι → A → E → A → Prop)
    (Rel : ι → L × σ → A → Prop) (Good : ι → E → Prop)
    (hown : ∀ {i l c a e l' c'}, Good i e → Rel i (l, c) a → step i (l, c) e (l', c') →
      ∃ a', astep i a e a' ∧ Rel i (l', c') a')
    (hothers : ∀ {i j l c a m a' e m' c'}, j ≠ i → Good j e → Rel j (m, c) a' →
      step j (m, c) e (m', c') → Rel i (l, c) a → Rel i (l, c') a)
    {s t : Shared ι L σ} {es : List (ι × E)} (hrun : Runs (Step step) s es t)
    (hgood : ∀ e ∈ es, Good e.1 e.2) {a : ι → A} (hstart : ∀ i, Rel i (s.own i, s.common) (a i))
    (i : ι) : ∃ a', Runs (astep i) (a i) (eventsOf i es) a' ∧ Rel i (t.own i, t.common) a' := by
  induction hrun generalizing i with
  | nil => exact ⟨a i, Runs.nil _, hstart i⟩
  | @snoc t u es e hrun hstep ih =>
    have hrest (i : ι) := ih (fun e he => hgood e (List.mem_append_left _ he)) i
    have hlast := hgood e (by simp)
    obtain ⟨a', hmoves, hrel⟩ := hrest i
    cases hstep with
    | @mk j e l c h =>
      by_cases hj : j = i
      · subst hj
        obtain ⟨a'', hmove, hrel'⟩ := hown hlast hrel h
        dsimp only
        rw [eventsOf_snoc_self, Function.update_self]
        exact ⟨a'', hmoves.snoc hmove, hrel'⟩
      · obtain ⟨b, -, hmover⟩ := hrest j
        dsimp only
        rw [eventsOf_snoc_of_ne _ hj, Function.update_of_ne (Ne.symm hj)]
        exact ⟨a', hmoves, hothers hj hlast hmover h hrel⟩

end Shared

end Simulation
