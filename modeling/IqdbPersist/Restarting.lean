import IqdbPersist.DurableObject
import IqdbPersist.Lifetime
import IqdbPersist.MutationCrash
import IqdbPersist.Reopening

/-!
# Programs that restart

A program in log mode mutates, saves and checkpoints its index and may be stopped in any operation;
it is started again and loads the index. What was interrupted may have left the end of the log in
ruins, and only a checkpoint clears it away, so a program that has been interrupted checkpoints
before it mutates.
-/

namespace IqdbPersist

open CrashLogic FileSystem LogState Simulation

variable {ε M I : Type} {b : Build M} {T : IndexType ε M I}

section Loading

variable {w : World Path} {snapshot : Path} {policy : FsyncPolicy} {content bytes : Bytes} {x : I}

/-- However reading the log ends, no file changes; where it returns, the log was replayed. -/
theorem ends_replay_read (hbytes : w.files (walPath snapshot) = some bytes) :
    Ends (replay b T snapshot) (x, w)
      (fun _ s => s.2 = w.next ∧ ∃ rs, parseRecords b bytes = (.ok rs : Except (PersistError ε) _) ∧
        Journal.replay T.change rs x = some s.1)
      (fun _ s => s.2 = w.next) := by
  simp only [replay, readFile, ends_bind, ends_within, ends_onFailure, ends_map, ends_observe,
    hbytes, ends_uninterrupted]
  cases w.verdict with
  | done =>
    cases hparse : parseRecords (ε := ε) b bytes with
    | error e => exact rfl
    | ok rs =>
      refine (ends_applyRecords rs 0).mono ?_ fun _ _ _ => rfl
      rintro n x' ⟨-, hreplay⟩
      exact ⟨rfl, rs, rfl, hreplay⟩
  | fails n => exact rfl
  | cut n => trivial

theorem ends_openForAppend_free (hfree : FaultFree w.script)
    (hlog : w.files (walPath snapshot) = some content) :
    Ends (Wal.openForAppend snapshot policy) w
      (fun wal w' => Opened snapshot policy w (wal, w') content ∧ w'.files = w.files)
      (fun (_ : Halt (PersistError ε)) w' => w'.files = w.files) := by
  rw [Wal.openForAppend, ends_bind]
  refine ends_ioAt_of ((ends_existsPath_existing hfree hlog).mono ?_ ?_)
  · rintro _ _ ⟨rfl, rfl⟩
    rw [ends_bind]
    refine ends_ioAt_of ?_
    rw [openOrCreate, ends_bind, ends_get, World.files_next, hlog, if_pos (by simp)]
    refine (ends_observe_next _).mono ?_ ?_
    · rintro file _ ⟨hfile, rfl⟩
      cases hfile
      rw [ends_bind]
      refine ends_ioAt_of ?_
      rw [ends_withLocal, File.seekEnd]
      simp only [ends_bind, ends_get, ends_beside]
      refine (ends_observe_next _).mono ?_ ?_
      · rintro len _ ⟨hlen, rfl⟩
        simp only [World.files_next, hlog, Option.map_some, Option.getD_some] at hlen
        cases hlen
        exact ⟨⟨rfl, rfl, rfl, ⟨hlog, rfl⟩, (Only.refl _ w).next.next.next⟩, rfl⟩
      · rintro _ _ rfl _ _
        rfl
    · rintro _ _ rfl _ _
      rfl
  · rintro _ _ rfl _ _
    rfl

namespace PersistedIndex

variable {config : PersistConfig} {log full : Bytes}

/-- Where no operation fails, loading beside a log changes no file, also when it is stopped; where
it returns, the files stand for the loaded index. -/
theorem ends_load_free (hfree : FaultFree w.script) (hwal : config.walEnabled = true)
    (hsnapshot : w.files config.path = some full)
    (hlog : w.files (walPath config.path) = some log) :
    Ends (load b T config) w
      (fun this w' => validateConfig b config = (.ok () : Except (PersistError ε) Unit) ∧
        Stands b T full log this.inner ∧ this.config = config ∧ w'.files = w.files ∧
        ∃ wal, this.wal = some wal ∧ wal.file.path = walPath config.path ∧
          LogState.At (wal, w') log)
      (fun _ w' => w'.files = w.files) := by
  rw [load, ends_bind, ends_uninterrupted]
  cases hvalid : validateConfig (ε := ε) b config with
  | error e => rfl
  | ok _ =>
    rw [ends_settle_ok, ends_bind]
    refine ends_ioAt_of ((ends_observe_next _).mono ?_ ?_)
    · rintro bytes _ ⟨hread, rfl⟩
      simp only [hsnapshot] at hread
      cases hread
      rw [ends_bind, ends_uninterrupted]
      cases hdecode : decodeSnapshot b T full with
      | error e => rfl
      | ok base =>
        rw [ends_settle_ok]
        simp only [hwal, if_true, ends_bind, ends_withLocal]
        refine (ends_replay_read (w := w.next) hlog).mono ?_ ?_
        · rintro _ ⟨x, _⟩ ⟨rfl, rs, hparse, hreplay⟩
          refine (ends_openForAppend_free hfree.next.next (w := w.next.next) hlog).mono ?_ ?_
          · rintro wal w' ⟨hopened, hfiles⟩
            exact ⟨trivial, ⟨base, rs, hdecode, hparse, hreplay⟩, rfl, hfiles, wal, rfl,
              hopened.filePath, hopened.holds⟩
          · exact fun _ _ hfiles => hfiles
        · rintro _ ⟨x, _⟩ rfl
          rfl
    · rintro _ _ rfl _ _
      rfl

end PersistedIndex

end Loading

namespace PersistedIndex

/-- The operating system has failed an operation, or the program was stopped. -/
def interrupts : Halt (PersistError ε) → Bool
  | .crashed | .failed (.io _ _) => true
  | .failed _ => false

theorem interrupts_iff {e : Halt (PersistError ε)} : interrupts e = true ↔ ByEnvironment e := by
  rcases e with e | _
  · cases e <;> simp [interrupts, ByEnvironment, PersistError.IsIo]
  · exact iff_of_true rfl trivial

/-- Whether the log certainly ends where the next mutation is written, after a call as before. -/
def Call.settles : Call M I → Except (Halt (PersistError ε)) Unit → Bool → Bool
  | .checkpoint, .ok _, _ => true
  | .mutation _, .error e, settled | .checkpoint, .error e, settled => settled && !interrupts e
  | _, _, settled => settled

/-- What the client of an index knows of its changes. -/
def Incident.event : Incident ε M I → Journal.Event (WalRecord M)
  | .called _ (.mutation r) (.ok _) => .acknowledged r
  | .called _ (.mutation r) (.error e) => if interrupts e then .doubtful r else .silent
  | _ => .silent

/-- What is left of a program after a call. -/
def Machine.after (s : Session I) : Except (Halt (PersistError ε)) Unit → Machine I
  | .error .crashed => ⟨none, s.2⟩
  | _ => ⟨some s.1, s.2⟩

variable (b T)

/-- One call, or one start of the program, in any environment. Only loading meets no failure, though
it may be stopped; and only a settled log is mutated. -/
inductive Proceeds : Machine I × Bool → Incident ε M I → Machine I × Bool → Prop where
  | loaded {w w' : World Path} {this : PersistedIndex I} {config : PersistConfig} {settled : Bool}
      (script : List Verdict) (hfree : FaultFree script)
      (hcall : load b T config (w.withScript script) = .ok this w') :
      Proceeds (⟨none, w⟩, settled) (.booted (.load config) (.ok ())) (⟨some this, w'⟩, settled)
  | refused {w w' : World Path} {config : PersistConfig} {e : Halt (PersistError ε)}
      {settled : Bool} (script : List Verdict) (hfree : FaultFree script)
      (hcall : load b T config (w.withScript script) = .error e w') :
      Proceeds (⟨none, w⟩, settled) (.booted (.load config) (.error e)) (⟨none, w'⟩, settled)
  | called {w : World Path} {this : PersistedIndex I} {call : Call M I} {s : Session I}
      {result : Except (Halt (PersistError ε)) Unit} {settled : Bool} (script : List Verdict)
      (hsettled : ∀ r, call = .mutation r → settled = true)
      (hcall : call.outcome b T (this, w.withScript script) = (result, s)) :
      Proceeds (⟨some this, w⟩, settled) (.called this call result)
        (Machine.after s result, call.settles result settled)
  | dropped {m : Machine I} {settled : Bool} :
      Proceeds (m, settled) .dropped (⟨none, m.world⟩, settled)

/-- The incident goes through the log at this path and stays within the limits of the formats. A
mutation that is interrupted is one that the index accepts. -/
def Incident.Sound (path : Path) : Incident ε M I → Prop
  | .booted (.load config) _ => config.path = path ∧ config.walEnabled = true
  | .called this (.mutation r) result => (recordBody b.metadata r).length ≤ maxRecordLen ∧
      ∀ e, result = .error e → ByEnvironment e → T.Accepts r this.inner
  | .called this .save _ | .called this .checkpoint _ => SnapshotInverts b T this.config this.inner
  | .dropped => True
  | .booted (.openWith _ _) _ | .called _ _ _ | .lostPower => False

end PersistedIndex

end IqdbPersist
