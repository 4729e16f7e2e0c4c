import IqdbPersist.Journal

/-!
# Durable objects

An object has a state in memory, while it is open, and a state that it is recovered with. A change
that was acknowledged is in both; one that was interrupted is in neither, or is recovered. So both
states are explained by the acknowledged changes, in their order, and some of the interrupted ones.
-/

namespace Journal

open Simulation

variable {S R : Type} {step : R → S → Option S}

/-- What happens to an object, as its client sees it. -/
inductive Event (R : Type) where
  | acknowledged (r : R)
  /-- The change was interrupted, and the client does not know whether it was made. -/
  | doubtful (r : R)
  | silent

/-- A choice among the doubtful changes explains what has happened. -/
inductive Explains : List (Event R) → List R → Prop where
  | nil : Explains [] []
  | acknowledged {es : List (Event R)} {rs : List R} {r : R} (h : Explains es rs) :
      Explains (es ++ [.acknowledged r]) (rs ++ [r])
  | made {es : List (Event R)} {rs : List R} {r : R} (h : Explains es rs) :
      Explains (es ++ [.doubtful r]) (rs ++ [r])
  | lost {es : List (Event R)} {rs : List R} {r : R} (h : Explains es rs) :
      Explains (es ++ [.doubtful r]) rs
  | silent {es : List (Event R)} {rs : List R} (h : Explains es rs) :
      Explains (es ++ [.silent]) rs

/-- The state in memory, if the object is open, and the state it is recovered with. -/
structure Durable (S : Type) where
  present : Option S
  durable : S

namespace Durable

inductive Moves (step : R → S → Option S) : Durable S → Event R → Durable S → Prop where
  | acknowledged {x y : S} {r : R} (h : step r x = some y) :
      Moves step ⟨some x, x⟩ (.acknowledged r) ⟨some y, y⟩
  | made {x y : S} {r : R} {present : Option S} (h : step r x = some y)
      (hpresent : present = some x ∨ present = none) :
      Moves step ⟨some x, x⟩ (.doubtful r) ⟨present, y⟩
  | lost {x : S} {r : R} {present : Option S} (hpresent : present = some x ∨ present = none) :
      Moves step ⟨some x, x⟩ (.doubtful r) ⟨present, x⟩
  /-- The present state becomes the one to recover. -/
  | settled {x d : S} {present : Option S} (hpresent : present = some x ∨ present = none) :
      Moves step ⟨some x, d⟩ .silent ⟨present, x⟩
  | recovered {p : Option S} {d : S} : Moves step ⟨p, d⟩ .silent ⟨some d, d⟩
  | closed {p : Option S} {d : S} : Moves step ⟨p, d⟩ .silent ⟨none, d⟩
  | idle {o : Durable S} : Moves step o .silent o

/-- The state is the first one with some changes that explain what has happened. -/
def Explained (step : R → S → Option S) (x₀ : S) (es : List (Event R)) (x : S) : Prop :=
  ∃ rs, Explains es rs ∧ replay step rs x₀ = some x

section Explained

variable {x₀ x y : S} {es : List (Event R)} {r : R}

theorem replay_snoc {rs : List R} (h : replay step rs x₀ = some x) (hstep : step r x = some y) :
    replay step (rs ++ [r]) x₀ = some y := by
  rw [replay_append, h, Option.bind_some, replay, hstep]
  rfl

theorem Explained.silent (h : Explained step x₀ es x) : Explained step x₀ (es ++ [.silent]) x := by
  obtain ⟨rs, hrs, hreplay⟩ := h
  exact ⟨rs, hrs.silent, hreplay⟩

theorem Explained.lost (h : Explained step x₀ es x) :
    Explained step x₀ (es ++ [.doubtful r]) x := by
  obtain ⟨rs, hrs, hreplay⟩ := h
  exact ⟨rs, hrs.lost, hreplay⟩

theorem Explained.made (h : Explained step x₀ es x) (hstep : step r x = some y) :
    Explained step x₀ (es ++ [.doubtful r]) y := by
  obtain ⟨rs, hrs, hreplay⟩ := h
  exact ⟨rs ++ [r], hrs.made, replay_snoc hreplay hstep⟩

theorem Explained.acknowledged (h : Explained step x₀ es x) (hstep : step r x = some y) :
    Explained step x₀ (es ++ [.acknowledged r]) y := by
  obtain ⟨rs, hrs, hreplay⟩ := h
  exact ⟨rs ++ [r], hrs.acknowledged, replay_snoc hreplay hstep⟩

end Explained

/-- Both states of an object are explained at every moment. -/
theorem explained {x₀ : S} {es : List (Event R)} {o : Durable S}
    (h : Runs (Moves step) ⟨some x₀, x₀⟩ es o) :
    Explained step x₀ es o.durable ∧ ∀ x, o.present = some x → Explained step x₀ es x := by
  induction h with
  | nil =>
    have hnone : Explained step x₀ [] x₀ := ⟨[], .nil, rfl⟩
    refine ⟨hnone, fun x hx => ?_⟩
    cases hx
    exact hnone
  | snoc _ hmove ih =>
    obtain ⟨hdurable, hpresent⟩ := ih
    cases hmove with
    | acknowledged hstep =>
      refine ⟨hdurable.acknowledged hstep, fun x hx => ?_⟩
      cases hx
      exact hdurable.acknowledged hstep
    | made hstep hkept =>
      refine ⟨hdurable.made hstep, fun x hx => ?_⟩
      rcases hkept with rfl | rfl
      · exact (hpresent x hx).lost
      · cases hx
    | lost hkept =>
      refine ⟨hdurable.lost, fun x hx => ?_⟩
      rcases hkept with rfl | rfl
      · exact (hpresent x hx).lost
      · cases hx
    | settled hkept =>
      refine ⟨(hpresent _ rfl).silent, fun x hx => ?_⟩
      rcases hkept with rfl | rfl
      · exact (hpresent x hx).silent
      · cases hx
    | recovered =>
      refine ⟨hdurable.silent, fun x hx => ?_⟩
      cases hx
      exact hdurable.silent
    | closed => exact ⟨hdurable.silent, fun _ hx => nomatch hx⟩
    | idle => exact ⟨hdurable.silent, fun x hx => (hpresent x hx).silent⟩

end Durable

/-- Replaying changes once more on what they led to changes nothing. -/
def Repeatable (step : R → S → Option S) : Prop :=
  ∀ rs x y, replay step rs x = some y → replay step rs y = some y

theorem repeatable_of_overwrites {step : R → S → Option S} {f : R → Option S}
    (h : ∀ r x, step r x = f r) : Repeatable step := by
  intro rs x y hreplay
  cases rs with
  | nil => rfl
  | cons r rs =>
    rw [replay, h] at hreplay ⊢
    exact hreplay

end Journal
