import Mathlib.Tactic.Common

/-!
# Runs of a labelled system

A run is a finite sequence of labelled steps. What every step does to an abstract state, every run
does, step by step; so an invariant and a refinement are proved of one step.
-/

namespace Simulation

variable {S A L : Type}

/-- From one state to another, by the steps with these labels in this order. -/
inductive Runs (step : S → L → S → Prop) : S → List L → S → Prop where
  | nil (s : S) : Runs step s [] s
  | snoc {s t u : S} {ls : List L} {l : L} :
      Runs step s ls t → step t l u → Runs step s (ls ++ [l]) u

variable {step : S → L → S → Prop}

theorem Runs.map {L' : Type} {f : L' → L} {s t : S} {ls : List L'}
    (h : Runs (fun s l t => step s (f l) t) s ls t) : Runs step s (ls.map f) t := by
  induction h with
  | nil => exact Runs.nil _
  | snoc _ hstep ih =>
    rw [List.map_append]
    exact ih.snoc hstep

/-- A relation kept by the steps with admitted labels is kept by their runs. -/
theorem Runs.simulate {s t : S} {ls : List L} (h : Runs step s ls t) (astep : A → L → A → Prop)
    (Rel : S → A → Prop) (Good : L → Prop)
    (hsim : ∀ {s a l t}, Good l → Rel s a → step s l t → ∃ b, astep a l b ∧ Rel t b)
    (hgood : ∀ l ∈ ls, Good l) {a : A} (ha : Rel s a) : ∃ b, Runs astep a ls b ∧ Rel t b := by
  induction h with
  | nil => exact ⟨a, Runs.nil a, ha⟩
  | snoc _ hstep ih =>
    obtain ⟨b, hruns, hb⟩ := ih fun l hl => hgood l (List.mem_append_left _ hl)
    obtain ⟨c, hastep, hc⟩ := hsim (hgood _ (by simp)) hb hstep
    exact ⟨c, hruns.snoc hastep, hc⟩

theorem Runs.track {s t : S} {ls : List L} (h : Runs step s ls t) (next : A → L → A)
    (Rel : S → A → Prop) (Good : L → Prop)
    (hsim : ∀ {s a l t}, Good l → Rel s a → step s l t → Rel t (next a l))
    (hgood : ∀ l ∈ ls, Good l) {a : A} (ha : Rel s a) : Rel t (ls.foldl next a) := by
  induction h with
  | nil => exact ha
  | snoc _ hstep ih =>
    rw [List.foldl_append]
    exact hsim (hgood _ (by simp)) (ih fun l hl => hgood l (List.mem_append_left _ hl)) hstep

end Simulation
