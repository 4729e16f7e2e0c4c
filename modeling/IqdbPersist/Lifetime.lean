import IqdbPersist.CrashedWrite
import IqdbPersist.RefusedMutation
import IqdbPersist.UnsyncedFile

/-!
# The life of an index

A program on some machine opens or loads an index, calls it and drops it again, and may be stopped
at any moment, alone or together with the machine. Every call meets an environment of its own, in
which any operation may fail or be cut. A life is any sequence of such incidents.
-/

namespace IqdbPersist

open CrashLogic FileSystem Simulation

variable {ε M I : Type} (b : Build M) (T : IndexType ε M I)

namespace PersistedIndex

/-- A machine: the index that a program on it has open, if any, and the files. -/
structure Machine (I : Type) where
  index : Option (PersistedIndex I)
  world : World Path

/-- How an index comes to be open. -/
inductive Boot (I : Type) where
  | openWith (x : I) (config : PersistConfig)
  | load (config : PersistConfig)

def Boot.config : Boot I → PersistConfig
  | .openWith _ config | .load config => config

def Boot.perform : Boot I → EStateM (Halt (PersistError ε)) (World Path) (PersistedIndex I)
  | .openWith x config => PersistedIndex.openWith b T x config
  | .load config => PersistedIndex.load b T config

/-- What happens on a machine, and what it came to. -/
inductive Incident (ε M I : Type) where
  | booted (boot : Boot I) (result : Except (Halt (PersistError ε)) Unit)
  | called (this : PersistedIndex I) (call : Call M I)
      (result : Except (Halt (PersistError ε)) Unit)
  /-- The program lets go of the index, or is stopped between two calls. -/
  | dropped
  /-- The machine loses power, and with it what was not on the medium. -/
  | lostPower

/-- What an incident does to a machine that loses unsynced data in this way. -/
inductive Happens (loss : Loss) : Machine I → Incident ε M I → Machine I → Prop where
  | opened {w w' : World Path} {boot : Boot I} {this : PersistedIndex I} (script : List Verdict)
      (hcall : boot.perform b T (w.withScript script) = .ok this w') :
      Happens loss ⟨none, w⟩ (.booted boot (.ok ())) ⟨some this, w'⟩
  | refused {w w' : World Path} {boot : Boot I} {e : Halt (PersistError ε)}
      (script : List Verdict) (hcall : boot.perform b T (w.withScript script) = .error e w') :
      Happens loss ⟨none, w⟩ (.booted boot (.error e)) ⟨none, w'⟩
  | called {w : World Path} {this : PersistedIndex I} {call : Call M I} {s : Session I}
      {result : Except (Halt (PersistError ε)) Unit} (script : List Verdict)
      (hcall : call.outcome b T (this, w.withScript script) = (result, s))
      (hup : result ≠ .error .crashed) :
      Happens loss ⟨some this, w⟩ (.called this call result) ⟨some s.1, s.2⟩
  | crashed {w : World Path} {this : PersistedIndex I} {call : Call M I} {s : Session I}
      (script : List Verdict)
      (hcall : call.outcome b T (this, w.withScript script) = (.error .crashed, s)) :
      Happens loss ⟨some this, w⟩ (.called this call (.error .crashed)) ⟨none, s.2⟩
  | dropped {w : World Path} {index : Option (PersistedIndex I)} :
      Happens loss ⟨index, w⟩ .dropped ⟨none, w⟩
  | lostPower {w : World Path} {index : Option (PersistedIndex I)} {files : Files Path}
      (hfiles : files ∈ w.outcomes targetDir loss) :
      Happens loss ⟨index, w⟩ .lostPower ⟨none, w.restarted files⟩

/-- A call that puts another index in place of the present one keeps to this path. -/
def Call.Keeps (path : Path) : Call M I → Prop
  | .load config | .openWith _ config => config.path = path
  | .mutation _ | .save | .checkpoint | .indexMut _ => True

/-- What happens concerns the index at this path. -/
def Incident.Concerns (path : Path) : Incident ε M I → Prop
  | .booted boot _ => boot.config.path = path
  | .called _ call _ => call.Keeps path
  | .dropped | .lostPower => True

/-- The open index is the one at this path, and so is its log. -/
structure Homed (path : Path) (this : PersistedIndex I) : Prop where
  config : this.config.path = path
  wal : ∀ wal, this.wal = some wal → wal.file.path = walPath path

def Machine.Homed (path : Path) (m : Machine I) : Prop :=
  ∀ this, m.index = some this → PersistedIndex.Homed path this

variable {b T} {call : Call M I} {s s' : Session I} {result : Except (Halt (PersistError ε)) Unit}

theorem outcome_of_ends {R : Except (Halt (PersistError ε)) Unit → Session I → Prop}
    (h : Ends (call.perform b T) s (fun _ => R (.ok ())) (fun e => R (.error e)))
    (hcall : call.outcome b T s = (result, s')) : R result s' := by
  unfold Call.outcome at hcall
  unfold Ends at h
  split at hcall
  · rename_i hperform
    rw [hperform] at h
    cases hcall
    exact h
  · rename_i hperform
    rw [hperform] at h
    cases hcall
    exact h

/-- A file beside the snapshot. -/
def neighbourPath : Path := ⟨true, ["d", "y"]⟩

/-- The neighbour is on the medium, and nothing else. -/
def neighbourWorld : World Path :=
  { emptyWorld with base := fun path => if path = neighbourPath then some [1] else none }

/-- The small index, opened beside the neighbour. -/
def openedBeside : Session (List UInt64) :=
  match (Boot.openWith [] alwaysConfig).perform defaultBuild idIndex neighbourWorld with
  | .ok this w => (this, w)
  | .error _ w => (⟨[], alwaysConfig, none⟩, w)

/-- It takes a number past its log. -/
def grownIndex : PersistedIndex (List UInt64) := { openedBeside.1 with inner := [5] }

/-- Saving it is stopped when the rename has taken effect, but is not on the medium. -/
def stoppedWorld : World Path :=
  (Call.save.outcome defaultBuild idIndex (grownIndex, openedBeside.2.withScript renameCut)).2.2

def interruptedLife : List (Incident IdError (List (String × Value)) (List UInt64)) :=
  [.booted (.openWith [] alwaysConfig) (.ok ()),
    .called openedBeside.1 (.indexMut fun _ => [5]) (.ok ()),
    .called grownIndex .save (.error .crashed)]

theorem interruptedLife_concerns : ∀ i ∈ interruptedLife, i.Concerns nestedPath := by
  simp [interruptedLife, Incident.Concerns, Boot.config, Call.Keeps, alwaysConfig]

theorem runs_interruptedLife (loss : Loss) : Runs (Happens defaultBuild idIndex loss)
    ⟨none, neighbourWorld⟩ interruptedLife ⟨none, stoppedWorld⟩ := by
  have hopened : (Boot.openWith [] alwaysConfig).perform defaultBuild idIndex
      (neighbourWorld.withScript []) = .ok openedBeside.1 openedBeside.2 := rfl
  have hgrown : (Call.indexMut fun _ => [5]).outcome defaultBuild idIndex
      (openedBeside.1, openedBeside.2.withScript []) =
        (.ok (), (grownIndex, openedBeside.2.withScript [])) := rfl
  have hstopped : (Call.save.outcome defaultBuild idIndex
      (grownIndex, openedBeside.2.withScript renameCut)).1 = .error .crashed := by decide +kernel
  exact (((Runs.nil _).snoc (.opened [] hopened)).snoc (.called [] hgrown (by simp))).snoc
    (.crashed renameCut (Prod.ext hstopped rfl))

theorem files_stoppedWorld : stoppedWorld.files nestedPath =
    (snapshotBytes defaultBuild idIndex [5] alwaysConfig).toOption := by decide +kernel

end PersistedIndex

end IqdbPersist
