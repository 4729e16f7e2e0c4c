import IqdbPersist.Simulation

/-!
# Journaled state

A state is kept as a base and the changes made to it since, each of which the state may refuse.
`Journaled` carries the fact that replaying the changes on the base gives the present state; a
change that is accepted is added to the log, and folding makes the present state the new base.
-/

namespace Journal

open Simulation

variable {S R : Type} (step : R → S → Option S)

/-- Make changes in order; one that is refused ends in nothing. -/
def replay : List R → S → Option S
  | [], x => some x
  | r :: rs, x => (step r x).bind (replay rs)

@[simp] theorem replay_nil (x : S) : replay step [] x = some x := rfl

theorem replay_append (rs rs' : List R) (x : S) :
    replay step (rs ++ rs') x = (replay step rs x).bind (replay step rs') := by
  induction rs generalizing x with
  | nil => rfl
  | cons r rs ih =>
    rw [List.cons_append, replay, replay, Option.bind_assoc]
    congr 1
    funext y
    exact ih y

/-- A base, the changes made since, and the state they lead to. -/
structure Journaled where
  base : S
  log : List R
  current : S
  recovers : replay step log base = some current

/-- What happens to a journal. -/
inductive Change (R : Type) where
  | commit (r : R)
  | fold
  | idle

/-- The log after a change. -/
def Change.after (log : List R) : Change R → List R
  | .commit r => log ++ [r]
  | .fold => []
  | .idle => log

section After

variable {cs : List (Change R)}

theorem foldl_after_of_fold (h : .fold ∈ cs) (log log' : List R) :
    cs.foldl Change.after log = cs.foldl Change.after log' := by
  induction cs generalizing log log' with
  | nil => cases h
  | cons c cs ih =>
    rw [List.foldl_cons, List.foldl_cons]
    rcases List.mem_cons.mp h with rfl | h
    · rfl
    · exact ih h _ _

theorem foldl_after_of_not_fold (h : .fold ∉ cs) (log : List R) :
    cs.foldl Change.after log = log ++ cs.foldl Change.after [] := by
  induction cs generalizing log with
  | nil => exact (List.append_nil log).symm
  | cons c cs ih =>
    obtain ⟨hc, hcs⟩ := not_or.mp (mt List.mem_cons.mpr h)
    rw [List.foldl_cons, List.foldl_cons, ih hcs, ih hcs (c.after [])]
    cases c with
    | commit r => simp [Change.after]
    | fold => exact absurd rfl hc
    | idle => rfl

theorem foldl_after_eq_nil_iff (h : .fold ∉ cs) :
    cs.foldl Change.after [] = [] ↔ ∀ r, .commit r ∉ cs := by
  induction cs with
  | nil => simp
  | cons c cs ih =>
    obtain ⟨hc, hcs⟩ := not_or.mp (mt List.mem_cons.mpr h)
    rw [List.foldl_cons, foldl_after_of_not_fold hcs, List.append_eq_nil_iff, ih hcs]
    cases c with
    | commit r => exact iff_of_false (fun h => nomatch h.1) fun h => h r List.mem_cons_self
    | fold => exact absurd rfl hc
    | idle => simp [Change.after]

end After

namespace Journaled

variable {step}

def start (x : S) : Journaled step := ⟨x, [], x, rfl⟩

theorem replay_snoc (j : Journaled step) (r : R) :
    replay step (j.log ++ [r]) j.base = step r j.current := by
  rw [replay_append, j.recovers, Option.bind_some]
  cases h : step r j.current <;> simp [replay, h]

def commit (j : Journaled step) (r : R) (x : S) (h : step r j.current = some x) :
    Journaled step where
  base := j.base
  log := j.log ++ [r]
  current := x
  recovers := by rw [j.replay_snoc, h]

def fold (j : Journaled step) : Journaled step := start j.current

/-- The abstract system: accepted changes are logged, folding empties the log. -/
inductive Moves : Journaled step → Change R → Journaled step → Prop where
  | commit (j : Journaled step) {r : R} {x : S} (h : step r j.current = some x) :
      Moves j (.commit r) (j.commit r x h)
  | fold (j : Journaled step) : Moves j .fold j.fold
  | idle (j : Journaled step) : Moves j .idle j

theorem Moves.log_eq {j j' : Journaled step} {c : Change R} (h : Moves j c j') :
    j'.log = c.after j.log := by
  cases h <;> rfl

theorem Moves.base_eq {j j' : Journaled step} {c : Change R} (h : Moves j c j') (hc : c ≠ .fold) :
    j'.base = j.base := by
  cases h with
  | commit | idle => rfl
  | fold => exact absurd rfl hc

theorem log_of_runs {j j' : Journaled step} {cs : List (Change R)} (h : Runs Moves j cs j') :
    j'.log = cs.foldl Change.after j.log :=
  h.track Change.after (fun j log => j.log = log) (fun _ => True)
    (fun _ hlog hmove => by rw [hmove.log_eq, hlog]) (fun _ _ => trivial) rfl

end Journaled

end Journal
