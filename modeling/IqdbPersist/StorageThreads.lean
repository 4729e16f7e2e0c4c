import IqdbPersist.CrashedWrite
import IqdbPersist.Footprint
import IqdbPersist.Interleaving
import IqdbPersist.SampleIndex

/-!
# An atomic write as a thread

An atomic write asks for storage operations one after another. Alone, the thread comes to what
`writeAtomic` does; among others, each of its operations has one of a few effects on the files.
-/

namespace IqdbPersist

open CrashLogic FileSystem Interleaving Simulation

variable {ε : Type}

/-- What a program comes to, where the machine goes on. -/
def attempt {ε σ α : Type} (p : EStateM (Halt ε) σ α) (s : σ) : Option (Except ε α) × σ :=
  match p s with
  | .ok a s' => (some (.ok a), s')
  | .error (.failed e) s' => (some (.error e), s')
  | .error .crashed s' => (none, s')

section Attempt

variable {ε' σ α β : Type} {s s' : σ}

theorem attempt_bind (p : EStateM (Halt ε) σ α) (f : α → EStateM (Halt ε) σ β) :
    attempt (p >>= f) s = match attempt p s with
      | (some (.ok a), s') => attempt (f a) s'
      | (some (.error e), s') => (some (.error e), s')
      | (none, s') => (none, s') := by
  have hbind : (p >>= f) s = EStateM.bind p f s := rfl
  unfold attempt
  rw [hbind, EStateM.bind]
  rcases p s with ⟨a, s'⟩ | ⟨_ | _, s'⟩ <;> rfl

theorem attempt_onFailure (p : EStateM (Halt ε) σ α) (h : ε → EStateM (Halt ε') σ α) :
    attempt (onFailure p h) s = match attempt p s with
      | (some (.ok a), s') => (some (.ok a), s')
      | (some (.error e), s') => attempt (h e) s'
      | (none, s') => (none, s') := by
  unfold attempt onFailure
  rcases p s with ⟨a, s'⟩ | ⟨_ | _, s'⟩ <;> rfl

theorem ok_of_attempt {p : EStateM (Halt ε) σ α} {a : α} (h : attempt p s = (some (.ok a), s')) :
    p s = .ok a s' := by
  unfold attempt at h
  rcases hp : p s with ⟨a', t⟩ | ⟨_ | _, t⟩
  all_goals
    rw [hp] at h
    cases h
  rfl

theorem attempt_discard (p : EStateM (Halt ε) σ α) :
    attempt (do let _value ← p : EStateM (Halt ε) σ Unit) s = match attempt p s with
      | (some (.ok _), s') => (some (.ok ()), s')
      | (some (.error e), s') => (some (.error e), s')
      | (none, s') => (none, s') := by
  rw [attempt_bind]
  rcases attempt p s with ⟨_ | _ | _, s'⟩ <;> rfl

end Attempt

/-- The operations of the storage. A temporary file is written from its start. -/
inductive StorageOp where
  | createNew (path : Path)
  | writeAll (path : Path) (bytes : Bytes)
  | syncAll (path : Path)
  | rename (source target : Path)
  | removeFile (path : Path)
  | openDir (path : Path)
  | syncDir (path : Path)

namespace StorageOp

def program : StorageOp → EStateM (Halt IoError) (World Path) Unit
  | .createNew path => do let _file ← FileSystem.createNew path
  | .writeAll path bytes => do let _file ← withLocal ⟨path, 0⟩ (File.writeAll bytes)
  | .syncAll path => do let _file ← withLocal ⟨path, 0⟩ File.syncAll
  | .rename source target => FileSystem.rename source target
  | .removeFile path => FileSystem.removeFile path
  | .openDir path => FileSystem.openDir path
  | .syncDir path => FileSystem.syncDir path

def perform : Performs StorageOp (Except IoError Unit) (World Path) := fun o => attempt o.program

end StorageOp

/-- A thread of storage operations. -/
abbrev Storing (ε : Type) := Thread StorageOp (Except IoError Unit) (Except (PersistError ε) Unit)

section Threads

variable (unix : Bool) (target : Path) (payload : Bytes) (policy : FsyncPolicy)

def removingTemp (tempPath : Path) (source : IoError) : Storing ε :=
  .ask (.removeFile tempPath) fun _cleanup => .done (.error (.io tempPath source))

def syncingParent (dir : Path) : Storing ε :=
  if unix ∧ policy ≠ .never then
    .ask (.openDir dir) fun
      | .error source => .done (.error (.io dir source))
      | .ok () => .ask (.syncDir dir) fun
        | .error source => .done (.error (.io dir source))
        | .ok () => .done (.ok ())
  else .done (.ok ())

def renamingTemp (tempPath : Path) : Storing ε :=
  .ask (.rename tempPath target) fun
    | .error source => removingTemp tempPath source
    | .ok () => syncingParent unix policy (targetDir target)

def writingTemp (tempPath : Path) : Storing ε :=
  .ask (.createNew tempPath) fun
    | .error source => .done (.error (.io tempPath source))
    | .ok () => .ask (.writeAll tempPath payload) fun
      | .error source => removingTemp tempPath source
      | .ok () =>
        if policy ≠ .never then
          .ask (.syncAll tempPath) fun
            | .error source => removingTemp tempPath source
            | .ok () => renamingTemp unix target policy tempPath
        else renamingTemp unix target policy tempPath

/-- `write_atomic`, by a process with this number and at this reading of the clock. -/
def writingAtomically (pid nanos : ℕ) : Storing ε :=
  match target.fileName with
  | none => .done (.error (.io target .invalidInput))
  | some fileName =>
    writingTemp unix target payload policy ((targetDir target).join (tempName fileName pid nanos))

end Threads

section Alone

open Thread StorageOp

variable {unix : Bool} {target tempPath dir : Path} {payload : Bytes} {policy : FsyncPolicy}
  {w : World Path}

variable {α : Type}

theorem attempt_ioAt_bind (p : EStateM (Halt IoError) (World Path) α)
    (f : α → EStateM (Halt (PersistError ε)) (World Path) Unit) :
    attempt (ioAt dir p >>= f) w = match attempt p w with
      | (some (.ok a), w') => attempt (f a) w'
      | (some (.error source), w') => (some (.error (.io dir source)), w')
      | (none, w') => (none, w') := by
  rw [attempt_bind, ioAt, attempt_onFailure]
  rcases attempt p w with ⟨_ | _ | _, w'⟩ <;> rfl

theorem attempt_cleaningUp_bind (p : EStateM (Halt IoError) (World Path) α)
    (f : α → EStateM (Halt (PersistError ε)) (World Path) Unit) :
    attempt (cleaningUp tempPath p >>= f) w = match attempt p w with
      | (some (.ok a), w') => attempt (f a) w'
      | (some (.error source), w') => (removingTemp tempPath source).run perform w'
      | (none, w') => (none, w') := by
  rw [attempt_bind, cleaningUp, attempt_onFailure]
  rcases attempt p w with ⟨_ | source | a, w'⟩
  · rfl
  · dsimp only
    rw [attempt_bind, attempt_onFailure, removingTemp, Thread.run, perform, program]
    rcases attempt (removeFile tempPath) w' with ⟨_ | _ | _, w''⟩ <;> rfl
  · rfl

theorem attempt_withLocal_syncAll (file : File Path) :
    attempt (do let _file ← withLocal file File.syncAll) w =
      attempt (atomically (.sync file.path)) w := by
  have hget (s : File Path × World Path) :
      (EStateM.get : EStateM (Halt IoError) (File Path × World Path) _) s = .ok s s := rfl
  rw [attempt_bind]
  cases hv : w.verdict <;>
    simp [attempt, withLocal, File.syncAll, File.beside, within, atomically, hv, bind, EStateM.bind,
      get, getThe, MonadStateOf.get, hget, pure, EStateM.pure]

theorem run_syncingParent :
    (syncingParent unix policy dir : Storing ε).run perform w =
      attempt (syncParent unix dir policy) w := by
  unfold syncingParent syncParent
  split
  · rw [attempt_ioAt_bind, Thread.run, perform, program]
    rcases attempt (openDir dir) w with ⟨_ | _ | _, w'⟩
    · rfl
    · rfl
    · dsimp only
      rw [ioAt, attempt_onFailure, Thread.run, perform, program]
      rcases attempt (syncDir dir) w' with ⟨_ | _ | _, w''⟩ <;> rfl
  · rfl

theorem run_renamingTemp :
    (renamingTemp unix target policy tempPath : Storing ε).run perform w =
      attempt (do
        cleaningUp tempPath (rename tempPath target)
        syncParent unix (targetDir target) policy) w := by
  rw [renamingTemp, attempt_cleaningUp_bind, Thread.run, perform, program]
  rcases attempt (rename tempPath target) w with ⟨_ | _ | _, w'⟩
  · rfl
  · rfl
  · exact run_syncingParent

theorem run_writingTemp :
    (writingTemp unix target payload policy tempPath : Storing ε).run perform w =
      attempt (do
        writeTemp tempPath payload policy
        cleaningUp tempPath (rename tempPath target)
        syncParent unix (targetDir target) policy) w := by
  rw [writingTemp, writeTemp, bind_assoc, attempt_ioAt_bind, Thread.run, perform, program,
    attempt_discard]
  cases hcreate : attempt (createNew tempPath) w with
  | mk result w₁ =>
    rcases result with _ | _ | file
    · rfl
    · rfl
    · obtain ⟨rfl, -⟩ := ends_of_ok ends_createNew (ok_of_attempt hcreate)
      dsimp only
      rw [bind_assoc, attempt_cleaningUp_bind, Thread.run, perform, program, attempt_discard]
      cases hwrite : attempt (withLocal ⟨tempPath, 0⟩ (File.writeAll payload)) w₁ with
      | mk result w₂ =>
        rcases result with _ | _ | file
        · rfl
        · rfl
        · obtain ⟨hfile, -⟩ := ends_of_ok (ends_tempWrite_within rfl) (ok_of_attempt hwrite)
          dsimp only
          split
          · rw [bind_assoc, attempt_cleaningUp_bind, Thread.run, perform, program,
              attempt_withLocal_syncAll, ← hfile, ← attempt_withLocal_syncAll, attempt_discard]
            rcases attempt (withLocal file File.syncAll) w₂ with ⟨_ | _ | _, w₃⟩
            · rfl
            · rfl
            · exact run_renamingTemp
          · exact run_renamingTemp

/-- On its own, a thread that writes atomically does what `writeAtomic` does. -/
theorem run_writingAtomically :
    (writingAtomically unix target payload policy w.pid w.systemTime : Storing ε).run perform w =
      attempt (writeAtomic unix target payload policy) w := by
  unfold writingAtomically writeAtomic
  cases target.fileName with
  | none => rfl
  | some name => exact run_writingTemp

end Alone

section Effects

open StorageOp

/-- What the files are when the operation has been done; nothing where it is refused. -/
def StorageOp.applied (files : Files Path) : StorageOp → Option (Files Path)
  | .createNew path =>
    if files path = none then some ((Event.create path).apply files) else none
  | .writeAll path bytes => some ((Event.write path 0 bytes).apply files)
  | .rename source target =>
    if (files source).isSome then some ((Event.rename source target).apply files) else none
  | .removeFile path =>
    if (files path).isSome then some ((Event.remove path).apply files) else none
  | .syncAll _ | .openDir _ | .syncDir _ => some files

/-- What an operation may answer and make of the files. -/
inductive Effect (files : Files Path) (o : StorageOp) :
    Option (Except IoError Unit) → Files Path → Prop where
  | done {files' : Files Path} (happlied : o.applied files = some files') :
      Effect files o (some (.ok ())) files'
  | failed (e : IoError) : Effect files o (some (.error e)) files
  | stopped : Effect files o none files
  | stoppedAfter {files' : Files Path} (happlied : o.applied files = some files') :
      Effect files o none files'
  | cutShort {path : Path} {bytes : Bytes} {r : Option (Except IoError Unit)} (n : ℕ)
      (ho : o = .writeAll path bytes) (hr : r ≠ some (.ok ())) :
      Effect files o r ((Event.write path 0 (bytes.take n)).apply files)

theorem attempt_of_ends {ε σ α : Type} {p : EStateM (Halt ε) σ α} {s : σ}
    {R : Option (Except ε α) → σ → Prop}
    (h : Ends p s (fun a => R (some (.ok a))) (fun e s' => e.elim (fun e => R (some (.error e)) s')
      (R none s'))) : R (attempt p s).1 (attempt p s).2 := by
  unfold Ends at h
  unfold attempt
  rcases hp : p s with ⟨a, s'⟩ | ⟨_ | _, s'⟩
  all_goals
    rw [hp] at h
    exact h

variable {w : World Path}

theorem ends_effect_atomically {o : StorageOp} {e : Event Path}
    (happlied : o.applied w.files = some (e.apply w.files)) :
    Ends (atomically e) w (fun _ w' => Effect w.files o (some (.ok ())) w'.files)
      (fun err w' => err.elim (fun err => Effect w.files o (some (.error err)) w'.files)
        (Effect w.files o none w'.files)) := by
  have hdone : (w.next.emit e).files = e.apply w.files := World.files_emit _ _
  rw [ends_atomically]
  cases w.verdict with
  | done =>
    dsimp only
    rw [hdone]
    exact .done happlied
  | fails n => exact .failed _
  | cut n =>
    dsimp only
    rw [Halt.elim_crashed]
    split
    · exact .stopped
    · rw [hdone]
      exact .stoppedAfter happlied

theorem perform_effect (o : StorageOp) (w : World Path) :
    Effect w.files o (perform o w).1 (perform o w).2.files := by
  refine attempt_of_ends (R := fun r (w' : World Path) => Effect w.files o r w'.files) ?_
  cases o with
  | createNew path =>
    rw [program, ends_bind, FileSystem.createNew, ends_bind, ends_get]
    split
    · exact .failed _
    · rename_i hnone
      rw [FileSystem.create, ends_bind, ends_get]
      split
      · rw [ends_bind]
        refine (ends_effect_atomically ?_).mono (fun _ _ h => h) fun _ _ h => h
        rw [applied, if_pos (by simpa using hnone)]
      · exact .failed _
  | writeAll path bytes =>
    rw [program, ends_bind, ends_withLocal, ends_writeAll]
    have hwritten (n : ℕ) : (w.next.emit (.write path 0 (bytes.take n))).files =
        (Event.write path 0 (bytes.take n)).apply w.files := World.files_emit _ _
    cases w.verdict with
    | done =>
      dsimp only
      have hall := hwritten bytes.length
      rw [List.take_length] at hall
      change Effect _ _ _ (w.next.emit (.write path 0 bytes)).files
      rw [hall]
      exact .done rfl
    | fails n =>
      change Effect _ _ _ (w.next.emit (.write path 0 (bytes.take n))).files
      rw [hwritten]
      exact .cutShort n rfl (by simp)
    | cut n =>
      change Effect _ _ _ (w.next.emit (.write path 0 (bytes.take n))).files
      rw [hwritten]
      exact .cutShort n rfl (by simp)
  | syncAll path =>
    rw [program, ends_bind, ends_withLocal, File.syncAll, ends_bind, ends_get, ends_beside]
    exact (ends_effect_atomically rfl).mono (fun _ _ h => h) fun _ _ h => h
  | rename source target =>
    rw [program, FileSystem.rename, ends_bind, ends_get]
    split
    · rename_i hsome
      exact ends_effect_atomically (by rw [applied, if_pos hsome])
    · exact .failed _
  | removeFile path =>
    rw [program, FileSystem.removeFile, ends_bind, ends_get]
    split
    · rename_i hsome
      exact ends_effect_atomically (by rw [applied, if_pos hsome])
    · exact .failed _
  | openDir path =>
    rw [program, FileSystem.openDir, ends_observe]
    cases w.verdict with
    | done =>
      by_cases hdir : w.dirs path = true
      · rw [if_pos hdir]
        exact .done rfl
      · rw [if_neg hdir]
        exact .failed _
    | fails n => exact .failed _
    | cut n => exact .stopped
  | syncDir path => exact ends_effect_atomically rfl

end Effects

end IqdbPersist
