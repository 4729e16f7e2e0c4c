import IqdbPersist.AtomicWrite
import IqdbPersist.SampleIndex

/-!
# An atomic write in which one step fails

A step that fails up to the rename is undone: the temporary file is removed and the target is as it
was. The steps behind the rename come too late for that, and the target keeps the payload.
-/

namespace IqdbPersist

open CrashLogic FileSystem

variable {ε : Type}

/-- At most one operation fails, and all others complete. -/
def FailsOnce : List Verdict → Prop
  | [] => True
  | .done :: script => FailsOnce script
  | .fails _ :: script => script = []
  | .cut _ :: _ => False

section Scripts

variable {w : World Path}

theorem FailsOnce.next (h : FailsOnce w.script) :
    (w.verdict = .done ∧ FailsOnce w.next.script) ∨ ∃ n, w.verdict = .fails n ∧ w.next.Calm := by
  simp only [World.verdict, World.Calm, World.script_next]
  cases hscript : w.script with
  | nil => exact .inl ⟨rfl, trivial⟩
  | cons verdict script =>
    rw [hscript] at h
    cases verdict with
    | done => exact .inl ⟨rfl, h⟩
    | fails n => exact .inr ⟨n, rfl, h⟩
    | cut n => exact h.elim

end Scripts

section Phases

variable {w : World Path} {tempPath target dir : Path} {payload : Bytes} {policy : FsyncPolicy}

theorem ends_cleaningUp_once {α : Type} {p : EStateM (Halt IoError) (World Path) α}
    {Q : α → World Path → Prop}
    (hp : Ends p w Q fun e w' => (∃ source, e = .failed source) ∧ w'.Calm) :
    Ends (cleaningUp tempPath p) w Q
      (fun (_ : Halt (PersistError ε)) w' => w'.files tempPath = none) := by
  rw [cleaningUp, ends_onFailure]
  refine hp.mono (fun _ _ h => h) ?_
  rintro _ w' ⟨⟨source, rfl⟩, hcalm⟩
  rw [Halt.elim_failed, ends_bind, ends_onFailure, removeFile, ends_bind, ends_get]
  split
  · rw [ends_atomically, hcalm.verdict]
    change (w'.next.emit (.remove tempPath)).files tempPath = none
    rw [World.files_emit, Event.apply, Function.update_self]
  · rename_i hnone
    simpa using hnone

theorem ends_atomically_once (hscript : FailsOnce w.script) (e : Event Path) :
    Ends (atomically e) w (fun _ w' => FailsOnce w'.script)
      (fun e w' => ((∃ source, e = .failed source) ∧ w'.Calm) ∧ w'.files = w.files) := by
  rw [ends_atomically]
  obtain ⟨hv, hnext⟩ | ⟨n, hv, hcalm⟩ := hscript.next
  · rw [hv]
    exact hnext
  · rw [hv]
    exact ⟨⟨⟨_, rfl⟩, hcalm⟩, rfl⟩

theorem ends_createNew_once (hscript : FailsOnce w.script) : Ends (createNew tempPath) w
    (fun _ w' => w.files tempPath = none ∧ FailsOnce w'.script)
    (fun _ w' => w'.files tempPath = w.files tempPath) := by
  rw [createNew, ends_bind, ends_get]
  split
  · exact rfl
  · rename_i hnone
    rw [create, ends_bind, ends_get]
    split
    · rw [ends_bind]
      refine (ends_atomically_once hscript _).mono ?_ ?_
      · exact fun _ _ hscript' => ⟨by simpa using hnone, hscript'⟩
      · exact fun _ _ h => congrFun h.2 _
    · exact rfl

theorem ends_tempWrite_once (hscript : FailsOnce w.script) (file : File Path) :
    Ends (withLocal file (File.writeAll payload)) w (fun _ w' => FailsOnce w'.script)
      (fun e w' => (∃ source, e = .failed source) ∧ w'.Calm) := by
  rw [ends_withLocal, ends_writeAll]
  obtain ⟨hv, hnext⟩ | ⟨n, hv, hcalm⟩ := hscript.next
  · rw [hv]
    exact hnext
  · rw [hv]
    exact ⟨⟨_, rfl⟩, hcalm⟩

theorem ends_tempSync_once (hscript : FailsOnce w.script) (file : File Path) :
    Ends (withLocal file File.syncAll) w (fun _ w' => FailsOnce w'.script)
      (fun e w' => (∃ source, e = .failed source) ∧ w'.Calm) := by
  rw [ends_withLocal, File.syncAll, ends_bind, ends_get, ends_beside]
  exact (ends_atomically_once hscript _).mono (fun _ _ h => h) fun _ _ h => h.1

theorem ends_writeTemp_once (hscript : FailsOnce w.script) :
    Ends (writeTemp tempPath payload policy) w
      (fun _ w' => w.files tempPath = none ∧ FailsOnce w'.script)
      (fun (_ : Halt (PersistError ε)) w' => w'.files tempPath = w.files tempPath) := by
  rw [writeTemp, ends_bind]
  refine ends_ioAt_of ((ends_createNew_once hscript).mono ?_ ?_)
  · rintro file w₁ ⟨hnone, hscript₁⟩
    rw [hnone, ends_bind]
    refine ends_cleaningUp_once ((ends_tempWrite_once hscript₁ file).mono ?_ fun _ _ h => h)
    intro file w₂ hscript₂
    split
    · rw [ends_bind]
      refine ends_cleaningUp_once ((ends_tempSync_once hscript₂ file).mono ?_ fun _ _ h => h)
      exact fun _ w₃ hscript₃ => ⟨rfl, hscript₃⟩
    · exact ⟨rfl, hscript₂⟩
  · exact fun _ _ h _ _ => h

end Phases

section Write

variable {w w' : World Path} {target : Path} {payload : Bytes} {policy : FsyncPolicy} {unix : Bool}
  {name : String}

theorem ends_writeAtomic_once (hname : target.fileName = some name)
    (hscript : FailsOnce w.script) : Ends (writeAtomic unix target payload policy) w
      (fun _ _ => True)
      (fun (_ : Halt (PersistError ε)) w' =>
        w'.files (tempPathOf target name w) = w.files (tempPathOf target name w)) := by
  simp only [writeAtomic, hname, ends_bind, ends_get]
  refine ((ends_writeTemp _).and (ends_writeTemp_once hscript)).mono ?_ fun _ _ h => h.2
  rintro _ w₁ ⟨⟨-, -, -, hpayload, -⟩, hnone, hscript₁⟩
  rw [tempPathOf, hnone]
  refine ends_cleaningUp_once ?_
  rw [rename, ends_bind, ends_get, if_pos (by rw [hpayload]; rfl), ends_atomically]
  obtain ⟨hv, hscript₂⟩ | ⟨n, hv, hcalm⟩ := hscript₁.next
  · rw [hv]
    refine ends_syncParent.mono (fun _ _ _ => trivial) ?_
    rintro e w₂ ⟨-, honly, -⟩
    rw [honly.files _ id, World.files_emit, Event.apply, Function.update_self]
  · rw [hv]
    exact ⟨⟨_, rfl⟩, hcalm⟩

/-- Where at most one step fails, a failed atomic write changes nothing, unless the rename took
effect and the payload is not what the target held before. -/
theorem writeAtomic_error_iff (hscript : FailsOnce w.script) {e : Halt (PersistError ε)}
    (hcall : writeAtomic unix target payload policy w = .error e w') :
    w'.files = w.files ↔ ∀ name, target.fileName = some name →
      Installs target name policy w → w.files target = some payload := by
  cases hname : target.fileName with
  | none =>
    obtain ⟨-, rfl⟩ := ends_of_error (ends_writeAtomic_unnamed hname) hcall
    exact iff_of_true rfl fun _ h => nomatch h
  | some name =>
    obtain ⟨-, -, hyes, hno⟩ := ends_of_error (ends_writeAtomic hname) hcall
    have htidy := ends_of_error (ends_writeAtomic_once hname hscript) hcall
    constructor
    · rintro hsame _ ⟨⟩ hinstalls
      rw [← hsame, (hyes hinstalls).1]
    · intro hcond
      by_cases hinstalls : Installs target name policy w
      · obtain ⟨hpayload, honly⟩ := hyes hinstalls
        funext p
        by_cases htarget : p = target
        · rw [htarget, hpayload, hcond name rfl hinstalls]
        · by_cases htemp : p = tempPathOf target name w
          · rw [htemp, htidy]
          · exact honly.files p (by simp [htarget, htemp])
      · funext p
        by_cases htemp : p = tempPathOf target name w
        · rw [htemp, htidy]
        · exact (hno hinstalls).files p htemp

end Write

/-- The temporary file is written, synced and renamed, and then the directory cannot be opened. -/
def openDirFails : List Verdict := [.done, .done, .done, .done, .fails 0]

theorem exists_openDirFails : ∃ e w',
    writeAtomic (ε := IdError) true nestedPath [1] .always (emptyWorld.withScript openDirFails) =
      .error (.failed e) w' ∧ w'.files nestedPath = some [1] :=
  ⟨_, _, rfl, by decide⟩

theorem writeAtomic_error_iff_openDirFails : ∃ e w',
    writeAtomic (ε := IdError) true nestedPath [1] .always (emptyWorld.withScript openDirFails) =
      .error (.failed e) w' ∧
    w'.files nestedPath = some [1] ∧
    (w'.files = (emptyWorld.withScript openDirFails).files ↔
      ∀ name, nestedPath.fileName = some name →
        Installs nestedPath name .always (emptyWorld.withScript openDirFails) →
          (emptyWorld.withScript openDirFails).files nestedPath = some [1]) := by
  obtain ⟨e, w', hcall, hpayload⟩ := exists_openDirFails
  exact ⟨e, w', hcall, hpayload,
    writeAtomic_error_iff (by simp [FailsOnce, openDirFails]) hcall⟩

/-- The call fails and the target, which did not exist, holds the payload. -/
theorem not_unchanged_openDirFails :
    ¬ ∀ (unix : Bool) (target : Path) (payload : Bytes) (policy : FsyncPolicy) (w w' : World Path)
      (e : PersistError IdError), FailsOnce w.script →
        writeAtomic unix target payload policy w = .error (.failed e) w' →
          w'.files = w.files := by
  intro hall
  obtain ⟨e, w', hcall, hpayload⟩ := exists_openDirFails
  have hsame := hall _ _ _ _ _ _ _ (by simp [FailsOnce, openDirFails]) hcall
  rw [hsame] at hpayload
  cases hpayload

end IqdbPersist
