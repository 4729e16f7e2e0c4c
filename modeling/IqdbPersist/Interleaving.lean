import IqdbPersist.Simulation
import Mathlib.Logic.Function.Basic

/-!
# Threads over one state

A thread asks for operations one after another and goes on with what each returns; threads over one
state are run in any interleaving of their operations. A protocol says what a thread may ask for at
each stage and where an answer takes it. Threads that obey protocols keep whatever holds between
their stages and the state, if every single operation keeps it.
-/

namespace Interleaving

open Simulation

variable {ι O R A σ γ : Type}

inductive Thread (O R A : Type) where
  | done (a : A)
  | ask (o : O) (next : R → Thread O R A)

/-- What an operation answers and makes of the state, or where it stops everything. -/
abbrev Performs (O R σ : Type) := O → σ → Option R × σ

structure Protocol (O R γ : Type) where
  Admits : γ → O → Prop
  next : γ → O → R → γ

namespace Thread

/-- The thread runs alone. -/
def run (perform : Performs O R σ) : Thread O R A → σ → Option A × σ
  | .done a, s => (some a, s)
  | .ask o next, s =>
    match perform o s with
    | (some r, s') => (next r).run perform s'
    | (none, s') => (none, s')

/-- From this stage on the thread keeps to the protocol, and it ends where `Q` allows. -/
def Obeys (protocol : Protocol O R γ) (Q : γ → A → Prop) : γ → Thread O R A → Prop
  | g, .done a => Q g a
  | g, .ask o next => protocol.Admits g o ∧ ∀ r, (next r).Obeys protocol Q (protocol.next g o r)

end Thread

/-- Threads, where they have not been stopped, and their state. -/
structure Pool (ι O R A σ : Type) where
  threads : ι → Option (Thread O R A)
  state : σ

namespace Pool

variable [DecidableEq ι] {perform : Performs O R σ}

/-- One of the threads gets its next operation done, or is stopped in it, maybe with others. -/
inductive Step (perform : Performs O R σ) : Pool ι O R A σ → ι → Pool ι O R A σ → Prop where
  | asked {p : Pool ι O R A σ} {i : ι} {o : O} {next : R → Thread O R A} {r : R} {s : σ}
      (hthread : p.threads i = some (.ask o next)) (hperform : perform o p.state = (some r, s)) :
      Step perform p i ⟨Function.update p.threads i (some (next r)), s⟩
  | stopped {p : Pool ι O R A σ} {i : ι} {o : O} {next : R → Thread O R A} {s : σ}
      {threads : ι → Option (Thread O R A)} (hthread : p.threads i = some (.ask o next))
      (hperform : perform o p.state = (none, s)) (hself : threads i = none)
      (hothers : ∀ j, threads j = none ∨ threads j = p.threads j) :
      Step perform p i ⟨threads, s⟩

/-- The stages at which threads obey their protocols. -/
def At (protocol : ι → Protocol O R γ) (Q : ι → γ → A → Prop) (g : ι → γ)
    (p : Pool ι O R A σ) : Prop :=
  ∀ i t, p.threads i = some t → t.Obeys (protocol i) (Q i) (g i)

variable {protocol : ι → Protocol O R γ} {Q : ι → γ → A → Prop}

/-- An invariant of the stages and the state holds in every interleaving of obeying threads. -/
theorem invariant (Inv : (ι → γ) → σ → Prop)
    (hstep : ∀ {i : ι} {g : ι → γ} {o : O} {s s' : σ} {answer : Option R}, Inv g s →
      (protocol i).Admits (g i) o → perform o s = (answer, s') →
        ∃ c, Inv (Function.update g i c) s' ∧
          ∀ r, answer = some r → (protocol i).next (g i) o r = c)
    {p q : Pool ι O R A σ} {is : List ι} (hrun : Runs (Step perform) p is q) {g : ι → γ}
    (hinv : Inv g p.state) (hat : At protocol Q g p) :
    ∃ g', Inv g' q.state ∧ At protocol Q g' q := by
  induction hrun with
  | nil => exact ⟨g, hinv, hat⟩
  | @snoc _ _ is i _ hmove ih =>
    obtain ⟨g', hinv', hat'⟩ := ih
    cases hmove with
    | @asked o next r s hthread hperform =>
      obtain ⟨hadmits, hnext⟩ := hat' i _ hthread
      obtain ⟨c, hafter, hc⟩ := hstep hinv' hadmits hperform
      refine ⟨_, hafter, fun j t ht => ?_⟩
      dsimp only at ht
      by_cases hj : j = i
      · subst hj
        rw [Function.update_self] at ht ⊢
        cases ht
        rw [← hc r rfl]
        exact hnext r
      · rw [Function.update_of_ne hj] at ht ⊢
        exact hat' j t ht
    | @stopped o next s threads hthread hperform hself hothers =>
      obtain ⟨hadmits, -⟩ := hat' i _ hthread
      obtain ⟨c, hafter, -⟩ := hstep hinv' hadmits hperform
      refine ⟨_, hafter, fun j t ht => ?_⟩
      dsimp only at ht
      have hj : j ≠ i := by
        rintro rfl
        rw [hself] at ht
        cases ht
      rw [Function.update_of_ne hj]
      rcases hothers j with hnone | hsame
      · rw [hnone] at ht
        cases ht
      · exact hat' j t (hsame ▸ ht)

end Pool

end Interleaving
