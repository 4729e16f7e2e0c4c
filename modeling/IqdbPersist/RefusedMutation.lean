import IqdbPersist.RecoveryContract
import IqdbPersist.Reopening
import IqdbPersist.TwinSessions

/-!
# A refused mutation leaves no trace

A mutation that the encoder or the index refuses leaves a twin of the session it was called on. So
whatever is called next comes to what it would have come to without it.
-/

namespace IqdbPersist

open CrashLogic FileSystem LogState Simulation

variable {ε M I : Type}

namespace PersistedIndex

section Calls

variable (b : Build M) (T : IndexType ε M I)

/-- A call on a persisted index, or one that puts another in its place. -/
inductive Call (M I : Type) where
  | mutation (r : WalRecord M)
  | save
  | checkpoint
  /-- The index is changed through `index_mut`. -/
  | indexMut (change : I → I)
  | load (config : PersistConfig)
  | openWith (x : I) (config : PersistConfig)

/-- The index that `p` returns takes the place of this one. -/
def replacing (p : EStateM (Halt (PersistError ε)) (World Path) (PersistedIndex I)) :
    Method ε I Unit := do
  let this ← within Prod.snd (fun w s => (s.1, w)) p
  modify fun s => (this, s.2)

def Call.perform : Call M I → Method ε I Unit
  | .mutation r => PersistedIndex.mutation b T r
  | .save => PersistedIndex.save b T
  | .checkpoint => PersistedIndex.checkpoint b T
  | .indexMut change => modify fun s => ({ s.1 with inner := change s.1.inner }, s.2)
  | .load config => replacing (PersistedIndex.load b T config)
  | .openWith x config => replacing (PersistedIndex.openWith b T x config)

/-- What a call returns, and the session after it. -/
def Call.outcome (call : Call M I) (s : Session I) :
    Except (Halt (PersistError ε)) Unit × Session I :=
  match call.perform b T s with
  | .ok _ s' => (.ok (), s')
  | .error e s' => (.error e, s')

/-- What calls return one after another, and the session after them. -/
def outcomes : List (Call M I) → Session I → List (Except (Halt (PersistError ε)) Unit) × Session I
  | [], s => ([], s)
  | call :: calls, s =>
    let (result, s') := call.outcome b T s
    let (results, s'') := outcomes calls s'
    (result :: results, s'')

/-- No file operation has failed. -/
def Undisturbed (results : List (Except (Halt (PersistError ε)) Unit)) : Prop :=
  ∀ e, .error e ∈ results → ¬ ByEnvironment e

/-- A session in log mode that was opened or loaded, whatever it found, and in whose calls no file
operation has failed. -/
inductive Reached : Session I → Prop where
  | opened {config : PersistConfig} {x : I} {s : Session I} (hstart : Started b T config x s) :
      Reached s
  | loaded {config : PersistConfig} {w w' : World Path} {this : PersistedIndex I}
      (hcalm : w.Calm) (hwal : config.walEnabled = true)
      (hcall : PersistedIndex.load b T config w = .ok this w') : Reached (this, w')
  | called {s s' : Session I} {l : Label M I} (hreached : Reached s) (hstep : Step b T s l s') :
      Reached s'

end Calls

variable {b : Build M} {T : IndexType ε M I} {s t : Session I}

theorem lockstep_replacing {p : EStateM (Halt (PersistError ε)) (World Path) (PersistedIndex I)}
    (h : Twins s t) (hp : Lockstep ByEnvironment p p s.2 t.2
      (fun this that w v => Twins (this, w) (that, v)) FileSystem.Twins) :
    Lockstep ByEnvironment (replacing p) (replacing p) s t
      (fun a c s' t' => a = c ∧ Twins s' t') Twins := by
  refine Lockstep.bind (lockstep_within hp
    (S := fun this that s' t' => Twins (this, s'.2) (that, t'.2)) ?_ ?_) ?_
  · exact fun _ _ _ _ h' => h'
  · exact fun _ _ h' => ⟨h.index, h'⟩
  · exact fun _ _ _ _ h' => ⟨rfl, h'⟩

theorem inStep_perform (call : Call M I) : InStep ByEnvironment Twins (call.perform b T) := by
  cases call with
  | mutation r => exact inStep_mutation r
  | save => exact inStep_save
  | checkpoint => exact inStep_checkpoint
  | indexMut change =>
    refine inStep_modify fun _ _ h => ⟨⟨?_, h.index.config, h.index.wal⟩, h.world⟩
    dsimp only
    rw [h.index.inner]
  | load config =>
    intro s t h
    exact lockstep_replacing h (lockstep_load config h.world)
  | openWith x config =>
    intro s t h
    exact lockstep_replacing h (lockstep_openWith x config h.world)

theorem outcome_of_twins (call : Call M I) (h : Twins s t)
    (hs : ∀ e, (call.outcome b T s).1 = .error e → ¬ ByEnvironment e)
    (ht : ∀ e, (call.outcome b T t).1 = .error e → ¬ ByEnvironment e) :
    (call.outcome b T t).1 = (call.outcome b T s).1 ∧
      Twins (call.outcome b T s).2 (call.outcome b T t).2 := by
  have hcall := inStep_perform (b := b) (T := T) call s t h
  unfold Lockstep at hcall
  unfold Call.outcome at hs ht ⊢
  cases hps : call.perform b T s with
  | ok a s' =>
    cases hpt : call.perform b T t with
    | ok c t' =>
      rw [hps, hpt] at hcall
      exact ⟨rfl, hcall.2⟩
    | error e t' =>
      rw [hps, hpt] at hcall
      rw [hpt] at ht
      exact absurd hcall (ht e rfl)
  | error e s' =>
    rw [hps] at hs
    cases hpt : call.perform b T t with
    | ok c t' =>
      rw [hps, hpt] at hcall
      exact absurd hcall (hs e rfl)
    | error f t' =>
      rw [hps, hpt] at hcall
      rw [hpt] at ht
      obtain ⟨rfl, htwins⟩ := (hcall.resolve_left (hs e rfl)).resolve_left (ht f rfl)
      exact ⟨rfl, htwins⟩

theorem outcomes_of_twins (calls : List (Call M I)) (h : Twins s t)
    (hs : Undisturbed (outcomes b T calls s).1) (ht : Undisturbed (outcomes b T calls t).1) :
    (outcomes b T calls t).1 = (outcomes b T calls s).1 ∧
      Twins (outcomes b T calls s).2 (outcomes b T calls t).2 := by
  induction calls generalizing s t with
  | nil => exact ⟨rfl, h⟩
  | cons call calls ih =>
    simp only [outcomes] at hs ht ⊢
    obtain ⟨hresult, h'⟩ := outcome_of_twins call h
      (fun e he => hs e (by rw [← he]; exact List.mem_cons_self))
      (fun e he => ht e (by rw [← he]; exact List.mem_cons_self))
    obtain ⟨hresults, h''⟩ := ih h' (fun e he => hs e (List.mem_cons_of_mem _ he))
      (fun e he => ht e (List.mem_cons_of_mem _ he))
    exact ⟨by rw [hresult, hresults], h''⟩

theorem recovers_of_twins {w v : World Path} {config : PersistConfig} {x : I}
    (h : FileSystem.Twins w v) (hrecovers : Recovers b T config w x) : Recovers b T config v x := by
  obtain ⟨this, w', hcall, rfl⟩ := hrecovers
  have hworld : FileSystem.Twins (w.withScript []) (v.withScript []) :=
    ⟨h.files, h.dirs, h.permits, rfl, rfl⟩
  obtain ⟨that, v', hcall', htwins⟩ := (lockstep_load config hworld).exists_ok hcall
  exact ⟨that, v', hcall', htwins.index.inner⟩

theorem Reached.run {ls : List (Label M I)} (h : Reached b T s) (hrun : Runs (Step b T) s ls t) :
    Reached b T t := by
  induction hrun with
  | nil => exact h
  | snoc _ hstep ih => exact .called ih hstep

theorem Reached.holding (h : Reached b T s) :
    ∃ path snapshot base rs, Holding b path snapshot base rs s := by
  induction h with
  | opened hstart =>
    obtain ⟨-, -, -, -, full, -, hholding⟩ := hstart.holding
    exact ⟨_, full, _, [], hholding⟩
  | @loaded config w w' this hcalm hwal hcall =>
    obtain ⟨hloads, hcalm', hconfig, wal, hwal', hopened⟩ :=
      ends_of_ok (ends_load_calm hcalm hwal) hcall
    obtain ⟨snapshot, base, hfile, -⟩ := hloads.replays
    refine ⟨config.path, snapshot, (w.files (walPath config.path)).getD walHeader, [],
      by rw [hconfig], ?_, ⟨wal, hwal', hopened.filePath, ?_⟩, by simp, hcalm'⟩
    · rw [hopened.only.files _ (walPath_ne config.path).symm, hfile]
    · rw [recordFrames_nil, List.append_nil]
      exact hopened.holds
  | called _ hstep ih =>
    obtain ⟨path, snapshot, base, rs, hholding⟩ := ih
    obtain ⟨snapshot', hholding'⟩ := hstep.holding hholding
    exact ⟨path, snapshot', _, _, hholding'⟩

/-- Wherever the next write goes behind what the log holds, a refused mutation leaves a twin. -/
theorem ends_refused {wal : Wal} {content : Bytes} (hwal : s.1.wal = some wal)
    (hat : LogState.At (wal, s.2) content) (hcalm : s.2.Calm) (hkeeps : T.KeepsRejected)
    {r : WalRecord M} (hrefused : ¬ Appendable b r ∨ ¬ T.Accepts r s.1.inner) :
    Ends (mutation b T r) s (fun _ _ => False) (fun e s' => ¬ ByEnvironment e ∧ Twins s s') := by
  refine (ends_mutation_calm hat hcalm hwal r).mono ?_ ?_
  · rintro _ _ ⟨log, -, haccepts, happ, -⟩
    exact hrefused.elim (fun hnot => hnot happ) fun hnot => hnot haccepts
  · rintro e _ ⟨x, log, rfl, henv, hfollows, hat', hcalm', hcase⟩
    have hinner : x = s.1.inner := by
      obtain ⟨-, hinner⟩ | ⟨source, -, happly⟩ := hcase
      · exact hinner
      · have hrejects : ¬ T.Accepts r s.1.inner := by
          rw [IndexType.Accepts, happly]
          simp
        rw [← hkeeps r s.1.inner hrejects, happly]
    have hquiet : Quiet (wal, s.2) log := hfollows.quiet hat hat'
    refine ⟨henv, ⟨hinner, rfl, ?_⟩, hquiet.files, hquiet.dirs, hquiet.permits, hcalm, hcalm'⟩
    rw [hwal]
    exact .some ⟨hquiet.file, hquiet.path, hquiet.policy⟩

/-- A refused mutation leaves the files and the place of the next write, and whatever is called next
returns, leaves and recovers what it would have without the mutation. -/
theorem refused_leaves_no_trace (hkeeps : T.KeepsRejected) (hreached : Reached b T s)
    {r : WalRecord M} (hrefused : ¬ Appendable b r ∨ ¬ T.Accepts r s.1.inner) :
    ∃ e s' wal wal', mutation b T r s = .error (.failed e) s' ∧ ¬ e.IsIo ∧
      s.1.wal = some wal ∧ s'.1.wal = some wal' ∧ wal'.file = wal.file ∧
      s'.2.files = s.2.files ∧
      ∀ calls : List (Call M I), Undisturbed (outcomes b T calls s).1 →
        Undisturbed (outcomes b T calls s').1 →
          (outcomes b T calls s').1 = (outcomes b T calls s).1 ∧
          (outcomes b T calls s').2.1.inner = (outcomes b T calls s).2.1.inner ∧
          (outcomes b T calls s').2.1.config = (outcomes b T calls s).2.1.config ∧
          (outcomes b T calls s').2.2.files = (outcomes b T calls s).2.2.files ∧
          ∀ config y, Recovers b T config (outcomes b T calls s').2.2 y ↔
            Recovers b T config (outcomes b T calls s).2.2 y := by
  obtain ⟨path, snapshot, base, rs, hholding⟩ := hreached.holding
  obtain ⟨wal, hwal, -, hat⟩ := hholding.wal
  obtain ⟨e, s', hcall, henv, htwins⟩ :=
    error_of_ends (ends_refused hwal hat hholding.calm hkeeps hrefused)
  have hrel := htwins.index.wal
  rw [hwal] at hrel
  cases hwal' : s'.1.wal with
  | none =>
    rw [hwal'] at hrel
    cases hrel
  | some wal' =>
    rw [hwal'] at hrel
    cases hrel with
    | some hhandles =>
      cases e with
      | crashed => exact absurd trivial henv
      | failed e =>
        refine ⟨e, s', wal, wal', hcall, henv, hwal, hwal', hhandles.file, htwins.world.files, ?_⟩
        intro calls hs ht
        obtain ⟨hresults, hafter⟩ := outcomes_of_twins calls htwins hs ht
        refine ⟨hresults, hafter.index.inner, hafter.index.config, hafter.world.files, ?_⟩
        exact fun config y =>
          ⟨recovers_of_twins hafter.world.symm, recovers_of_twins hafter.world⟩

theorem Holding.undisturbed_delete {path : Path} {snapshot base : Bytes}
    {rs : List (WalRecord (List (String × Value)))} {s : Session (List UInt64)}
    (h : Holding defaultBuild path snapshot base rs s) (hinner : s.1.inner = [7]) :
    Undisturbed (outcomes defaultBuild idIndex [.mutation sampleDelete] s).1 := by
  have haccepts : idIndex.Accepts sampleDelete s.1.inner := by
    rw [hinner]
    rfl
  obtain ⟨_, s', hcall⟩ := (h.mutation_ok_iff
    ⟨sampleDelete_loggable.1, sampleDelete_loggable.length_body⟩).mpr haccepts
  simp [Undisturbed, outcomes, Call.outcome, Call.perform, hcall]

/-- The small index refuses to insert a number twice, and goes on. -/
theorem refused_leaves_no_trace_duplicate : ∃ s s' : Session (List UInt64),
    Reached defaultBuild idIndex s ∧
    (∃ e, mutation defaultBuild idIndex sampleInsert s = .error e s') ∧ s'.2.files = s.2.files ∧
    (outcomes defaultBuild idIndex [.mutation sampleDelete] s').2.2.files =
      (outcomes defaultBuild idIndex [.mutation sampleDelete] s).2.2.files := by
  obtain ⟨s₀, s, hstart, hrun, -, hinner, ⟨snapshot, hholding⟩, -⟩ := exists_sampleRun
  have hrejects : ¬ idIndex.Accepts sampleInsert s.1.inner := by
    rw [hinner]
    rintro ⟨⟩
  have hreached : Reached defaultBuild idIndex s := (Reached.opened hstart).run hrun
  obtain ⟨e, s', wal, wal', hcall, -, -, -, -, hfiles, hafter⟩ :=
    refused_leaves_no_trace idIndex_keepsRejected hreached (.inr hrejects)
  obtain ⟨hholding', -, hkept⟩ := ends_of_error (hholding.mutate sampleInsert) hcall
  have hinner' : s'.1.inner = [7] := by
    obtain ⟨-, hinner'⟩ | ⟨source, -, happly⟩ := hkept
    · rw [hinner', hinner]
    · rw [hinner] at happly
      exact (congrArg Prod.snd happly).symm
  exact ⟨s, s', hreached, ⟨_, hcall⟩, hfiles, (hafter [.mutation sampleDelete]
    (hholding.undisturbed_delete hinner) (hholding'.undisturbed_delete hinner')).2.2.2.1⟩

end PersistedIndex

end IqdbPersist
