import IqdbPersist.FileRules
import IqdbPersist.Types

/-!
# Replacing a file

`writeAtomic` writes a temporary file beside the target, renames it over the target and makes the
rename durable. The rename is the one operation that changes the target; until it takes effect only
the temporary file has been touched, and afterwards the target holds the payload.
-/

namespace IqdbPersist

open CrashLogic FileSystem

variable {ε : Type}

/-- A file operation whose error is reported with a path. -/
def ioAt {σ α : Type} (path : Path) (p : EStateM (Halt IoError) σ α) :
    EStateM (Halt (PersistError ε)) σ α :=
  onFailure p fun source => throw (.failed (.io path source))

/-- The environment ended the program: the machine stopped or an operation failed. -/
def ByEnvironment (e : Halt (PersistError ε)) : Prop := e.elim PersistError.IsIo True

@[simp] theorem ends_ioAt {σ α : Type} {t : σ} {Q : α → σ → Prop}
    {E : Halt (PersistError ε) → σ → Prop} (path : Path) (p : EStateM (Halt IoError) σ α) :
    Ends (ioAt path p) t Q E ↔ Ends p t Q (fun e t' =>
      e.elim (fun source => E (.failed (.io path source)) t') (E .crashed t')) := by
  simp only [ioAt, ends_onFailure, ends_throw]

/-- However a file operation ends early, it is the environment that ended the program. -/
theorem ends_ioAt_of {σ α : Type} {t : σ} {Q : α → σ → Prop} {E : Halt (PersistError ε) → σ → Prop}
    {path : Path} {p : EStateM (Halt IoError) σ α}
    (h : Ends p t Q fun _ t' => ∀ e, ByEnvironment e → E e t') : Ends (ioAt path p) t Q E := by
  rw [ends_ioAt]
  refine h.mono (fun _ _ hQ => hQ) ?_
  rintro (source | _) t' hE
  · exact hE _ trivial
  · exact hE _ trivial

namespace Path

/-- `Path::parent` -/
def parent (path : Path) : Option Path :=
  if path.components = [] then none else some ⟨path.absolute, path.components.dropLast⟩

/-- `Path::file_name` -/
def fileName (path : Path) : Option String :=
  match path.components.getLast? with
  | some name => if name = "." ∨ name = ".." then none else some name
  | none => none

def join (path : Path) (name : String) : Path := ⟨path.absolute, path.components ++ [name]⟩

end Path

def tempName (fileName : String) (pid nanos : ℕ) : String :=
  fileName ++ (".tmp." ++ (toString pid ++ ("." ++ toString nanos)))

def targetDir (target : Path) : Path := target.parent.getD ⟨false, ["."]⟩

/-- On a failure, try to remove the temporary file and report the error with its path. -/
def cleaningUp {α : Type} (tempPath : Path) (p : EStateM (Halt IoError) (World Path) α) :
    EStateM (Halt (PersistError ε)) (World Path) α :=
  onFailure p fun source => do
    let _cleanup ← onFailure (removeFile tempPath) fun _ => pure ()
    throw (.failed (.io tempPath source))

/-- Phase 1: the temporary file. -/
def writeTemp (tempPath : Path) (payload : Bytes) (policy : FsyncPolicy) :
    EStateM (Halt (PersistError ε)) (World Path) Unit := do
  let file ← ioAt tempPath (createNew tempPath)
  let file ← cleaningUp tempPath (withLocal file (File.writeAll payload))
  if policy ≠ .never then
    let _file ← cleaningUp tempPath (withLocal file File.syncAll)
  else pure ()

/-- Phase 3: the directory entry. -/
def syncParent (unix : Bool) (dir : Path) (policy : FsyncPolicy) :
    EStateM (Halt (PersistError ε)) (World Path) Unit := do
  if unix ∧ policy ≠ .never then
    ioAt dir (openDir dir)
    ioAt dir (syncDir dir)
  else pure ()

def writeAtomic (unix : Bool) (target : Path) (payload : Bytes) (policy : FsyncPolicy) :
    EStateM (Halt (PersistError ε)) (World Path) Unit := do
  let dir := targetDir target
  match target.fileName with
  | none => throw (.failed (.io target .invalidInput))
  | some fileName => do
    let w ← get
    let tempPath := dir.join (tempName fileName w.pid w.systemTime)
    writeTemp tempPath payload policy
    -- Phase 2: POSIX rename replaces the target atomically.
    cleaningUp tempPath (rename tempPath target)
    syncParent unix dir policy

/-- A new file can be made here. -/
def Creatable (w : World Path) (path : Path) : Prop :=
  w.files path = none ∧ w.permits path = true

def tempOps (policy : FsyncPolicy) : ℕ := if policy ≠ .never then 3 else 2

def dirOps (unix : Bool) (policy : FsyncPolicy) : ℕ := if unix ∧ policy ≠ .never then 2 else 0

/-- The directory can be opened, if phase 3 opens it. -/
def DirOpens (unix : Bool) (policy : FsyncPolicy) (w : World Path) (dir : Path) : Prop :=
  dirOps unix policy = 0 ∨ w.dirs dir = true

section Phases

variable {w : World Path} {tempPath target dir : Path} {payload : Bytes} {policy : FsyncPolicy}

/-- Removing the temporary file touches that file only, and the failure is still reported. -/
theorem ends_cleaningUp {α : Type} {p : EStateM (Halt IoError) (World Path) α}
    {Q : α → World Path → Prop} {E : Halt (PersistError ε) → World Path → Prop}
    (hp : Ends p w Q fun _ w' => ∀ e w'', ByEnvironment e → Only (· = tempPath) w' w'' → E e w'') :
    Ends (cleaningUp tempPath p) w Q E := by
  rw [cleaningUp, ends_onFailure]
  refine hp.mono (fun _ _ h => h) ?_
  rintro (source | _) w' hE
  · have helsewhere : ∀ p, ¬ p = tempPath → (Event.remove tempPath).apply w'.files p = w'.files p :=
      fun _ hp => Function.update_of_ne hp _ _
    rw [Halt.elim_failed, ends_bind, ends_onFailure, removeFile, ends_bind, ends_get]
    split
    · refine ends_atomically_of ?_ ?_
      · exact fun _ => hE _ _ trivial ((Only.refl _ w').next.emit helsewhere)
      · rintro (_ | _) _
        · exact hE _ _ trivial (Only.atomically helsewhere)
        · exact hE _ _ trivial (Only.atomically helsewhere)
    · exact hE _ _ trivial (Only.refl _ w')
  · exact hE _ _ trivial (Only.refl _ w')

theorem ends_createNew : Ends (createNew tempPath) w
    (fun file w' => file = ⟨tempPath, 0⟩ ∧ Creatable w tempPath ∧ completes w.script 1 = true ∧
      w'.script = w.script.drop 1 ∧ w'.files tempPath = some [] ∧ Only (· = tempPath) w w')
    (fun _ w' => ¬ (Creatable w tempPath ∧ completes w.script 1 = true) ∧
      Only (· = tempPath) w w') := by
  have helsewhere : ∀ p, ¬ p = tempPath → (Event.create tempPath).apply w.files p = w.files p :=
    fun _ hp => Function.update_of_ne hp _ _
  rw [createNew, ends_bind, ends_get]
  split
  · rename_i hsome
    refine ⟨fun h => ?_, Only.refl _ w⟩
    rw [h.1.1] at hsome
    cases hsome
  · rename_i hnone
    rw [FileSystem.create, ends_bind, ends_get]
    split
    · rename_i hpermits
      rw [ends_bind]
      refine ends_atomically_of ?_ ?_
      · intro hcompletes
        refine ⟨rfl, ⟨by simpa using hnone, hpermits⟩, hcompletes, List.drop_one.symm, ?_,
          (Only.refl _ w).next.emit helsewhere⟩
        rw [World.files_emit, Event.apply, Function.update_self]
      · exact fun _ hstop => ⟨by simp [hstop], Only.atomically helsewhere⟩
    · rename_i hpermits
      exact ⟨fun h => hpermits h.1.2, Only.refl _ w⟩

theorem ends_tempSync (tempPath : Path) (f : File Path) : Ends (withLocal f File.syncAll) w
    (fun _ w' => completes w.script 1 = true ∧ w'.script = w.script.drop 1 ∧ w'.files = w.files ∧
      Only (· = tempPath) w w')
    (fun _ w' => completes w.script 1 = false ∧ Only (· = tempPath) w w') := by
  have honly : Only (· = tempPath) w (w.next.emit (.sync f.path)) :=
    (Only.refl _ w).next.emit fun _ _ => rfl
  rw [ends_withLocal, File.syncAll, ends_bind, ends_get, ends_beside]
  refine ends_atomically_of ?_ ?_
  · exact fun hcompletes => ⟨hcompletes, List.drop_one.symm, World.files_emit _ _, honly⟩
  · exact fun _ hstop => ⟨hstop, Only.atomically fun _ _ => rfl⟩

theorem ends_tempWrite (hempty : w.files tempPath = some []) :
    Ends (withLocal ⟨tempPath, 0⟩ (File.writeAll payload)) w
      (fun _ w' => completes w.script 1 = true ∧ w'.script = w.script.drop 1 ∧
        w'.files tempPath = some payload ∧ Only (· = tempPath) w w')
      (fun _ w' => completes w.script 1 = false ∧ Only (· = tempPath) w w') := by
  have honly (bytes : Bytes) :
      Only (· = tempPath) w (w.next.emit (.write tempPath 0 bytes)) :=
    (Only.refl _ w).next.emit fun _ hp => Function.update_of_ne hp _ _
  rw [ends_withLocal, ends_writeAll]
  cases hv : w.verdict with
  | fails n => exact ⟨completes_of_ne_done (by simp [hv]) 0, honly _⟩
  | cut n => exact ⟨completes_of_ne_done (by simp [hv]) 0, honly _⟩
  | done =>
    refine ⟨completes_of_done hv 0, List.drop_one.symm, ?_, honly _⟩
    rw [World.files_emit, Event.apply, Function.update_self, World.files_next, hempty,
      Option.map_some]
    exact congrArg some (overwrite_end [] payload)

theorem ends_writeTemp (tempPath : Path) : Ends (writeTemp tempPath payload policy) w
    (fun _ w' => Creatable w tempPath ∧ completes w.script (tempOps policy) = true ∧
      w'.script = w.script.drop (tempOps policy) ∧ w'.files tempPath = some payload ∧
      Only (· = tempPath) w w')
    (fun (e : Halt (PersistError ε)) w' => ByEnvironment e ∧ Only (· = tempPath) w w' ∧
      ¬ (Creatable w tempPath ∧ completes w.script (tempOps policy) = true)) := by
  have hops : tempOps policy = 1 + (1 + if policy ≠ .never then 1 else 0) := by
    unfold tempOps
    split <;> rfl
  rw [hops, writeTemp, ends_bind]
  refine ends_ioAt_of (ends_createNew.mono ?_ ?_)
  · rintro _ w₁ ⟨rfl, hcreatable, hcreated, hscript₁, hempty, honly₁⟩
    rw [ends_bind, completes_add, hcreated, Bool.true_and, completes_add, ← hscript₁]
    refine ends_cleaningUp ((ends_tempWrite hempty).mono ?_ ?_)
    · rintro file w₂ ⟨hwritten, hscript₂, hpayload, honly₂⟩
      rw [hwritten, Bool.true_and, ← hscript₂]
      split
      · rw [ends_bind]
        refine ends_cleaningUp ((ends_tempSync tempPath file).mono ?_ ?_)
        · rintro _ w₃ ⟨hsynced, hscript₃, hfiles, honly₃⟩
          refine ⟨hcreatable, hsynced, ?_, by rw [hfiles, hpayload],
            (honly₁.trans honly₂).trans honly₃⟩
          rw [hscript₃, hscript₂, hscript₁, List.drop_drop, List.drop_drop]
        · rintro _ w₃ ⟨hsynced, honly₃⟩ e w₄ he h₃₄
          exact ⟨he, ((honly₁.trans honly₂).trans honly₃).trans h₃₄, by simp [hsynced]⟩
      · refine ⟨hcreatable, rfl, ?_, hpayload, honly₁.trans honly₂⟩
        rw [hscript₂, hscript₁, List.drop_drop]
    · rintro _ w₂ ⟨hwritten, honly₂⟩ e w₃ he h₂₃
      exact ⟨he, (honly₁.trans honly₂).trans h₂₃, by simp [hwritten]⟩
  · rintro _ w₁ ⟨hnot, honly⟩ e he
    rw [completes_add, Bool.and_eq_true]
    exact ⟨he, honly, fun h => hnot ⟨h.1, h.2.1⟩⟩

/-- The rename decides, in one operation, what the target holds. -/
theorem ends_renameTemp (hne : tempPath ≠ target) (hpayload : w.files tempPath = some payload) :
    Ends (cleaningUp tempPath (rename tempPath target)) w
      (fun _ w' => completes w.script 1 = true ∧ w'.script = w.script.drop 1 ∧
        w'.files target = some payload ∧ w'.files tempPath = none ∧
        Only (fun p => p = target ∨ p = tempPath) w w')
      (fun (e : Halt (PersistError ε)) w' => ByEnvironment e ∧ completes w.script 1 = false ∧
        if takesEffect w.script 0 then
          w'.files target = some payload ∧ Only (fun p => p = target ∨ p = tempPath) w w'
        else Only (· = tempPath) w w') := by
  have hrenamed : (w.next.emit (.rename tempPath target)).files target = some payload := by
    rw [World.files_emit, Event.apply, Function.update_of_ne hne.symm, Function.update_self,
      World.files_next, hpayload]
  have honly : Only (fun p => p = target ∨ p = tempPath) w
      (w.next.emit (.rename tempPath target)) := by
    refine (Only.refl _ w).next.emit fun p hp => ?_
    rw [not_or] at hp
    rw [Event.apply, Function.update_of_ne hp.2, Function.update_of_ne hp.1]
  refine ends_cleaningUp ?_
  rw [rename, ends_bind, ends_get, if_pos (by rw [hpayload]; rfl)]
  refine ends_atomically_of ?_ ?_
  · refine fun hcompletes => ⟨hcompletes, List.drop_one.symm, hrenamed, ?_, honly⟩
    rw [World.files_emit, Event.apply, Function.update_self]
  · intro _ hstop e w' he h'
    refine ⟨he, hstop, ?_⟩
    split
    · rename_i heffect
      rw [if_pos heffect] at h'
      refine ⟨?_, honly.trans (h'.mono fun _ => .inr)⟩
      rw [h'.files target hne.symm, hrenamed]
    · rename_i heffect
      rw [if_neg heffect] at h'
      exact (Only.refl _ w).next.trans h'

theorem ends_syncParent {unix : Bool} : Ends (syncParent unix dir policy) w
    (fun _ w' => DirOpens unix policy w dir ∧ completes w.script (dirOps unix policy) = true ∧
      w'.script = w.script.drop (dirOps unix policy) ∧ Only (fun _ => False) w w')
    (fun (e : Halt (PersistError ε)) w' => ByEnvironment e ∧ Only (fun _ => False) w w' ∧
      ¬ (DirOpens unix policy w dir ∧ completes w.script (dirOps unix policy) = true)) := by
  unfold syncParent DirOpens dirOps
  split
  · rw [ends_bind]
    have hnext : w.next.script = w.script.drop 1 := List.drop_one.symm
    refine ends_ioAt_of (ends_observe_of ?_ ?_ ?_)
    · intro _ hopened hdir
      have hdir : w.dirs dir = true := by
        by_contra hno
        rw [if_neg hno] at hdir
        cases hdir
      refine ends_ioAt_of (ends_atomically_of ?_ ?_)
      · intro hsynced
        refine ⟨.inr hdir, ?_, ?_, (Only.refl _ w).next.next.emit fun _ _ => rfl⟩
        · rw [completes_add _ 1 1, hopened, ← hnext, hsynced]
          rfl
        · rw [World.script_emit, World.script_next, hnext, ← List.drop_one, List.drop_drop]
      · intro _ hstop e he
        have hnot : ¬ ((2 = 0 ∨ w.dirs dir = true) ∧ completes w.script 2 = true) := by
          rw [completes_add _ 1 1, ← hnext, hstop, Bool.and_false]
          simp
        have honly : Only (fun _ => False) w w.next := (Only.refl _ w).next
        exact ⟨he, honly.trans (Only.atomically fun _ _ => rfl), hnot⟩
    · intro _ _ hdir e he
      refine ⟨he, (Only.refl _ w).next, fun h => ?_⟩
      rw [if_pos (h.1.resolve_left (by decide))] at hdir
      cases hdir
    · intro _ hstop e he
      have hnot : ¬ ((2 = 0 ∨ w.dirs dir = true) ∧ completes w.script 2 = true) := by
        rw [completes_add _ 1 1, hstop, Bool.false_and]
        simp
      exact ⟨he, (Only.refl _ w).next, hnot⟩
  · exact ⟨.inl rfl, rfl, rfl, Only.refl _ w⟩

end Phases

end IqdbPersist
