import IqdbPersist.DurableObject
import Mathlib.Data.Set.Insert

/-!
# Objects on an uncertain medium

An object is kept as a base and a log of changes, and a medium that loses power may come back with
any of several bases and any of several logs. As long as every log leads from every base to a
possible state, and from every possible state to another, the object can be recovered, and the bases
and the logs can be replaced one at a time.
-/

namespace Journal

open Simulation

variable {S R : Type} {step : R → S → Option S}

/-- The state in memory, if the object is open, and the states it may be recovered with. -/
structure Uncertain (S : Type) where
  present : Option S
  possible : Set S

namespace Uncertain

inductive Moves (step : R → S → Option S) : Uncertain S → Event R → Uncertain S → Prop where
  | acknowledged {x y : S} {r : R} (h : step r x = some y) :
      Moves step ⟨some x, {x}⟩ (.acknowledged r) ⟨some y, {y}⟩
  | doubtful {x y : S} {r : R} {present : Option S} (h : step r x = some y)
      (hpresent : present = some x ∨ present = none) :
      Moves step ⟨some x, {x}⟩ (.doubtful r) ⟨present, {x, y}⟩
  /-- The present state becomes the one to recover. -/
  | settled {x : S} {X : Set S} {present : Option S}
      (hpresent : present = some x ∨ present = none) :
      Moves step ⟨some x, X⟩ .silent ⟨present, {x}⟩
  | recovered {p : Option S} {X : Set S} {x : S} (hx : x ∈ X) :
      Moves step ⟨p, X⟩ .silent ⟨some x, X⟩
  | closed {p : Option S} {X : Set S} : Moves step ⟨p, X⟩ .silent ⟨none, X⟩
  | idle {o : Uncertain S} : Moves step o .silent o

/-- Every state that an object may have or be recovered with is explained at every moment. -/
theorem explained {x₀ : S} {es : List (Event R)} {o : Uncertain S}
    (h : Runs (Moves step) ⟨some x₀, {x₀}⟩ es o) :
    (∀ x ∈ o.possible, Durable.Explained step x₀ es x) ∧
      ∀ x, o.present = some x → Durable.Explained step x₀ es x := by
  induction h with
  | nil =>
    have hnone : Durable.Explained step x₀ [] x₀ := ⟨[], .nil, rfl⟩
    refine ⟨fun x hx => ?_, fun x hx => ?_⟩
    · rwa [Set.mem_singleton_iff.mp hx]
    · cases hx
      exact hnone
  | snoc _ hmove ih =>
    obtain ⟨hpossible, hpresent⟩ := ih
    cases hmove with
    | acknowledged hstep =>
      have hdone := (hpresent _ rfl).acknowledged hstep
      refine ⟨fun x hx => ?_, fun x hx => ?_⟩
      · rwa [Set.mem_singleton_iff.mp hx]
      · cases hx
        exact hdone
    | @doubtful x y r present hstep hkept =>
      have hlost := (hpresent x rfl).lost (r := r)
      have hmade := (hpresent _ rfl).made hstep
      refine ⟨fun x hx => ?_, fun x hx => ?_⟩
      · rcases hx with rfl | rfl
        · exact hlost
        · exact hmade
      · rcases hkept with rfl | rfl
        · cases hx
          exact hlost
        · cases hx
    | settled hkept =>
      have hsilent := (hpresent _ rfl).silent
      refine ⟨fun x hx => ?_, fun x hx => ?_⟩
      · rwa [Set.mem_singleton_iff.mp hx]
      · rcases hkept with rfl | rfl
        · cases hx
          exact hsilent
        · cases hx
    | recovered hmem =>
      refine ⟨fun x hx => (hpossible x hx).silent, fun x hx => ?_⟩
      cases hx
      exact (hpossible _ hmem).silent
    | closed =>
      refine ⟨fun x hx => (hpossible x hx).silent, fun x hx => ?_⟩
      cases hx
    | idle => exact ⟨fun x hx => (hpossible x hx).silent, fun x hx => (hpresent x hx).silent⟩

end Uncertain

/-- Where a log changes nothing, replaying it on the state after one more change gives that state,
or undoes the change. -/
def Resumable (step : R → S → Option S) : Prop :=
  ∀ rs r x y, replay step rs x = some x → step r x = some y →
    replay step rs y = some y ∨ replay step rs y = some x

theorem resumable_of_overwrites {step : R → S → Option S} {f : R → Option S}
    (h : ∀ r x, step r x = f r) : Resumable step := by
  intro rs r x y hreplay _
  cases rs with
  | nil => exact .inl rfl
  | cons r rs =>
    rw [replay, h] at hreplay
    rw [replay, h]
    exact .inr hreplay

/-- Each log leads from each base to a possible state, and from each possible state to another. -/
def Leads (step : R → S → Option S) (bases : Set S) (logs : Set (List R)) (possible : Set S) :
    Prop :=
  ∀ x ∈ bases ∪ possible, ∀ rs ∈ logs, ∃ y ∈ possible, replay step rs x = some y

namespace Leads

variable {bases : Set S} {logs : Set (List R)} {possible : Set S} {rs : List R} {r : R} {x y : S}

theorem rebased (h : Leads step bases logs possible) (hx : x ∈ possible) :
    Leads step {x} logs possible := by
  intro z hz rs hrs
  rcases hz with rfl | hz
  · exact h z (.inr hx) rs hrs
  · exact h z (.inr hz) rs hrs

theorem added (h : Leads step bases logs possible) (hx : x ∈ possible) :
    Leads step (insert x bases) logs possible := by
  intro z hz rs hrs
  rcases hz with (rfl | hz) | hz
  · exact h z (.inr hx) rs hrs
  · exact h z (.inl hz) rs hrs
  · exact h z (.inr hz) rs hrs

theorem emptied (h : Leads step {x} logs possible) (hx : x ∈ possible) :
    Leads step {x} (insert [] logs) possible := by
  intro z hz rs hrs
  rcases hrs with rfl | hrs
  · rcases hz with rfl | hz
    · exact ⟨z, hx, rfl⟩
    · exact ⟨z, hz, rfl⟩
  · exact h z hz rs hrs

theorem settled (step : R → S → Option S) (x : S) : Leads step {x} {[]} {x} := by
  intro z hz rs hrs
  rw [Set.union_self, Set.mem_singleton_iff] at hz
  rw [Set.mem_singleton_iff] at hrs
  subst hz hrs
  exact ⟨z, rfl, rfl⟩

theorem replay_eq (h : Leads step bases {rs} {x}) {z : S} (hz : z ∈ bases ∪ {x}) :
    replay step rs z = some x := by
  obtain ⟨_, rfl, hreplay⟩ := h z hz rs rfl
  exact hreplay

theorem acknowledged (hrepeatable : Repeatable step) (h : Leads step bases {rs} {x})
    (hstep : step r x = some y) : Leads step bases {rs ++ [r]} {y} := by
  have hnext {z : S} (hz : z ∈ bases ∪ {x}) : replay step (rs ++ [r]) z = some y :=
    Durable.replay_snoc (h.replay_eq hz) hstep
  intro z hz log hlog
  rw [Set.mem_singleton_iff.mp hlog]
  refine ⟨y, rfl, ?_⟩
  rcases hz with hz | rfl
  · exact hnext (.inl hz)
  · exact hrepeatable _ _ _ (hnext (.inr rfl))

theorem doubtful (hrepeatable : Repeatable step) (hresumable : Resumable step)
    (h : Leads step bases {rs} {x}) (hstep : step r x = some y) :
    Leads step bases {rs, rs ++ [r]} {x, y} := by
  have hself : replay step rs x = some x := h.replay_eq (.inr rfl)
  have hnext {z : S} (hz : z ∈ bases ∪ {x}) : replay step (rs ++ [r]) z = some y :=
    Durable.replay_snoc (h.replay_eq hz) hstep
  intro z hz log hlog
  have hcases : z ∈ bases ∪ {x} ∨ z = y := by
    rcases hz with hz | rfl | hz
    · exact .inl (.inl hz)
    · exact .inl (.inr rfl)
    · exact .inr hz
  rcases hcases with hz | rfl
  · rcases hlog with rfl | rfl
    · exact ⟨x, .inl rfl, h.replay_eq hz⟩
    · exact ⟨y, .inr rfl, hnext hz⟩
  · rcases hlog with rfl | rfl
    · rcases hresumable log r x z hself hstep with hkept | hundone
      · exact ⟨z, .inr rfl, hkept⟩
      · exact ⟨x, .inl rfl, hundone⟩
    · exact ⟨z, .inr rfl, hrepeatable _ _ _ (hnext (.inr rfl))⟩

end Leads

end Journal
