import IqdbPersist.Persisted

/-!
# One mutation, under any environment

A mutation that returns normally was accepted and its frame is in the log. One that does not was
refused by the encoder, rejected by the index and rolled back, or interrupted, in the append or in
the rollback; each case says what the log file holds and what became of the index.
-/

namespace IqdbPersist

open CrashLogic FileSystem LogState

variable {ε M I : Type} {b : Build M} {T : IndexType ε M I}

namespace PersistedIndex

/-- The session with another index and another state of the log. -/
def withLog (this : PersistedIndex I) (x : I) (log : LogState) : Session I :=
  ({ this with inner := x, wal := some log.1 }, log.2)

/-- How many operations a mutation has up to the end of its append. -/
def loggingOps (log : LogState) : ℕ := 1 + log.skipped.appendOps

/-- How many bytes of the record's frame reach the log when a mutation meets this script. -/
def mutationArrived (b : Build M) (script : List Verdict) (r : WalRecord M) : ℕ :=
  arrived script [0, 8, (recordBody b.metadata r).length]

theorem mutationArrived_of_completes {log : LogState} (h : completes log.2.script 1 = true)
    (r : WalRecord M) :
    mutationArrived b log.2.script r = frameArrived b log.skipped.2.script r := by
  have hv : log.2.verdict = .done := by
    by_contra hne
    rw [completes_of_ne_done hne] at h
    cases h
  rw [mutationArrived, arrived_of_done hv, Nat.zero_add, script_skipped, frameArrived]

theorem mutationArrived_of_not_completes {log : LogState}
    (h : completes log.2.script 1 = false) (r : WalRecord M) :
    mutationArrived b log.2.script r = 0 := by
  cases hv : log.2.verdict with
  | done =>
    rw [completes_of_done hv, completes_zero] at h
    cases h
  | fails n => rw [mutationArrived, arrived_of_fails hv, Nat.min_zero]
  | cut n => rw [mutationArrived, arrived_of_cut hv, Nat.min_zero]

/-- The ways in which a mutation does not return, each with the index and the log afterwards. -/
inductive Halted (b : Build M) (T : IndexType ε M I) (r : WalRecord M) (x : I) (log : LogState)
    (content : Bytes) : Halt (PersistError ε) → I × LogState → Prop where
  | unencodable {e : Halt (PersistError ε)} {log' : LogState} (henv : ¬ ByEnvironment e)
      (happ : ¬ Appendable b r) (hquiet : Quiet log log')
      (hscript : log'.2.script = log.2.script.drop 1) : Halted b T r x log content e (x, log')
  | rejected {source : ε} {log' : LogState} (happ : Appendable b r)
      (hreject : T.apply r x = (.error source, (T.apply r x).2)) (hfollows : Follows log log')
      (hlogged : completes log.2.script (loggingOps log) = true)
      (hat : log'.At content) (hscript : log'.2.script = log.2.script.drop (loggingOps log + 3)) :
      Halted b T r x log content (.failed (.indexBuild source)) ((T.apply r x).2, log')
  | interrupted {e : Halt (PersistError ε)} {log' : LogState} (henv : ByEnvironment e)
      (hfollows : Follows log log')
      (hstop : completes log.2.script (loggingOps log) = false)
      (happ : 0 < mutationArrived b log.2.script r → Appendable b r)
      (hat : log'.At (content ++ (frameOf b r).take (mutationArrived b log.2.script r))) :
      Halted b T r x log content e (x, log')
  | rollbackInterrupted {e : Halt (PersistError ε)} {log' : LogState} (henv : ByEnvironment e)
      (happ : Appendable b r) (hreject : ¬ T.Accepts r x) (hfollows : Follows log log')
      (hlogged : completes log.2.script (loggingOps log) = true)
      (hstop : completes log.2.script (loggingOps log + 3) = false)
      (harrived : mutationArrived b log.2.script r = (frameOf b r).length)
      (hholds : log'.Holds (if takesEffect log.2.script (loggingOps log) then content
        else content ++ frameOf b r)) :
      Halted b T r x log content e ((T.apply r x).2, log')

theorem ends_logged {log : LogState} {content : Bytes} (h : log.At content) (r : WalRecord M)
    (x : I) :
    Ends (logged (Wal.append b r) (T.apply r)) (x, log)
      (fun _ s => T.Accepts r x ∧ Appendable b r ∧ s.1 = (T.apply r x).2 ∧ Follows log s.2 ∧
        s.2.At (content ++ frameOf b r) ∧ completes log.2.script (loggingOps log) = true ∧
        s.2.2.script = log.2.script.drop (loggingOps log) ∧
        mutationArrived b log.2.script r = (frameOf b r).length)
      (Halted b T r x log content) := by
  rw [logged, ends_bind, onLog, ends_within]
  refine ends_mark.mono ?_ ?_
  · rintro mark _ ⟨rfl, rfl, hmarked⟩
    have harrived := mutationArrived_of_completes (b := b) hmarked r
    have hops (n : ℕ) : completes log.2.script (1 + n) = completes log.skipped.2.script n := by
      rw [completes_add, hmarked, Bool.true_and, script_skipped]
    rw [ends_bind, onLog, ends_within]
    refine (ends_append b ((quiet_skipped log).at h) r).mono ?_ ?_
    · rintro _ log₂ ⟨happ, hfollows, hat, hlogged, hscript, hframe⟩
      rw [← harrived] at hframe
      rw [script_skipped, List.drop_drop] at hscript
      have hall : completes log.2.script (loggingOps log) = true := (hops _).trans hlogged
      have heffect : takesEffect log.2.script (loggingOps log) = takesEffect log₂.2.script 0 := by
        have hadd := takesEffect_add log.2.script (loggingOps log) 0
        rwa [hall, Bool.true_and, Nat.add_zero, loggingOps, ← hscript] at hadd
      have hfollows₂ := (quiet_skipped log).follows.trans hfollows
      rw [ends_bind, ends_get]
      rcases happly : T.apply r x with ⟨source | _, x'⟩
      · have hreject : ¬ T.Accepts r x := by
          rw [IndexType.Accepts, happly]
          simp
        rw [h.pos]
        simp only [ends_bind, ends_modify, onLog, ends_within, ends_throw]
        have hx' : x' = (T.apply r x).2 := by rw [happly]
        refine (ends_rollback hat.holds).mono ?_ ?_
        · rintro _ log₃ ⟨hfollows₃, hat₃, -, hscript₃⟩
          rw [hx']
          refine .rejected happ (by rw [happly]) (hfollows₂.trans hfollows₃) hall hat₃ ?_
          rw [hscript₃, hscript, List.drop_drop, loggingOps]
        · rintro e log₃ ⟨henv, hfollows₃, hstop, hholds⟩
          rw [hx']
          refine .rollbackInterrupted henv happ hreject (hfollows₂.trans hfollows₃) hall ?_ hframe
            ?_
          · rw [completes_add, hall, Bool.true_and, loggingOps, ← hscript, hstop]
          · rwa [heffect]
      · simp only [ends_modify]
        exact ⟨by rw [IndexType.Accepts, happly], happ, trivial, hfollows₂, hat, hall, hscript,
          hframe⟩
    · rintro e log₂ (⟨happ, hfollows, henv, hstop, hat⟩ | ⟨happ, hquiet, henv, hscript⟩)
      · refine .interrupted henv ((quiet_skipped log).follows.trans hfollows) ?_ (fun _ => happ) ?_
        · rw [loggingOps, hops, hstop]
        · rwa [harrived]
      · exact .unencodable henv happ ((quiet_skipped log).trans hquiet) (by rw [hscript]; simp)
  · rintro e _ ⟨rfl, hstop, henv⟩
    refine .interrupted henv (quiet_skipped log).follows ?_ ?_ ?_
    · rw [loggingOps, completes_add, hstop, Bool.false_and]
    · rw [mutationArrived_of_not_completes hstop]
      exact fun h => absurd h (Nat.lt_irrefl 0)
    · rw [mutationArrived_of_not_completes hstop, List.take_zero, List.append_nil]
      exact (quiet_skipped log).at h

theorem ends_mutation {this : PersistedIndex I} {log : LogState} {content : Bytes}
    (h : log.At content) (hwal : this.wal = some log.1) (r : WalRecord M) :
    Ends (mutation b T r) (this, log.2)
      (fun _ s => ∃ log', s = withLog this (T.apply r this.inner).2 log' ∧
        T.Accepts r this.inner ∧ Appendable b r ∧ Follows log log' ∧
        log'.At (content ++ frameOf b r) ∧ completes log.2.script (loggingOps log) = true ∧
        log'.2.script = log.2.script.drop (loggingOps log) ∧
        mutationArrived b log.2.script r = (frameOf b r).length)
      (fun e s => ∃ x' log', s = withLog this x' log' ∧
        Halted b T r this.inner log content e (x', log')) := by
  rw [mutation_eq, mutate, ends_bind, ends_get]
  simp only [hwal, ends_within]
  refine (ends_logged h r this.inner).mono ?_ ?_
  · rintro _ ⟨x', log'⟩ ⟨haccepts, happ, rfl, hrest⟩
    exact ⟨log', rfl, haccepts, happ, hrest⟩
  · rintro e ⟨x', log'⟩ hhalted
    exact ⟨x', log', rfl, hhalted⟩

/-- Where nothing fails, a mutation returns or is refused, and a refused one leaves the log. -/
theorem ends_mutation_calm {this : PersistedIndex I} {log : LogState} {content : Bytes}
    (h : log.At content) (hcalm : log.2.Calm) (hwal : this.wal = some log.1) (r : WalRecord M) :
    Ends (mutation b T r) (this, log.2)
      (fun _ s => ∃ log', s = withLog this (T.apply r this.inner).2 log' ∧
        T.Accepts r this.inner ∧ Appendable b r ∧ Follows log log' ∧
        log'.At (content ++ frameOf b r) ∧ log'.2.Calm)
      (fun e s => ∃ x' log', s = withLog this x' log' ∧ ¬ ByEnvironment e ∧ Follows log log' ∧
        log'.At content ∧ log'.2.Calm ∧ ((¬ Appendable b r ∧ x' = this.inner) ∨
          ∃ source, e = .failed (.indexBuild source) ∧
            T.apply r this.inner = (.error source, x'))) := by
  refine (ends_mutation h hwal r).mono ?_ ?_
  · rintro _ _ ⟨log', rfl, haccepts, happ, hfollows, hat, -, hscript, -⟩
    exact ⟨log', rfl, haccepts, happ, hfollows, hat, hcalm.drop hscript⟩
  · rintro e _ ⟨x', log', rfl, hhalted⟩
    refine ⟨x', log', rfl, ?_⟩
    cases hhalted with
    | unencodable henv happ hquiet hscript =>
      exact ⟨henv, hquiet.follows, hquiet.at h, hcalm.drop hscript, .inl ⟨happ, rfl⟩⟩
    | rejected happ hreject hfollows hlogged hat hscript =>
      exact ⟨id, hfollows, hat, hcalm.drop hscript, .inr ⟨_, rfl, hreject⟩⟩
    | interrupted henv hfollows hstop happ hat =>
      rw [hcalm.completes] at hstop
      cases hstop
    | rollbackInterrupted henv happ hreject hfollows hlogged hstop harrived hholds =>
      rw [hcalm.completes] at hstop
      cases hstop

end PersistedIndex

end IqdbPersist
