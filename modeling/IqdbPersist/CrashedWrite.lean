import IqdbPersist.AtomicWrite
import IqdbPersist.Durability
import IqdbPersist.SampleIndex

/-!
# An atomic write and a loss of power

The payload is on the medium before the rename, and the rename before the call returns. So whenever
the power is lost, the target is found with its old content or with the payload, and with the
payload once the call has returned.
-/

namespace IqdbPersist

open CrashLogic FileSystem

variable {ε : Type} {loss : Loss}

section Phases

variable {w : World Path} {S : Path → Prop} {tempPath target dir : Path} {payload : Bytes}
  {policy : FsyncPolicy}

theorem ends_atomically_within {e : Event Path} (he : ∀ p, e.Touches p → S p) :
    Ends (atomically e) w (fun _ w' => w' = w.next.emit e) (fun _ w' => Within S w w') := by
  have hemit : Within S w (w.next.emit e) := (Within.refl S w).next.emit he
  refine ends_atomically_of (fun _ => rfl) fun _ _ => ?_
  split
  · exact hemit
  · exact (Within.refl S w).next

theorem ends_cleaningUp_within {α : Type} {p : EStateM (Halt IoError) (World Path) α}
    {Q : α → World Path → Prop} {E : Halt (PersistError ε) → World Path → Prop}
    (hp : Ends p w Q fun e w' => e.elim
      (fun _ => ∀ e w'', Within (· = tempPath) w' w'' → E e w'') (E .crashed w')) :
    Ends (cleaningUp tempPath p) w Q E := by
  rw [cleaningUp, ends_onFailure]
  refine hp.mono (fun _ _ h => h) ?_
  rintro (source | _) w' hE
  · rw [Halt.elim_failed, ends_bind, ends_onFailure, removeFile, ends_bind, ends_get]
    split
    · have hremove : ∀ p, (Event.remove tempPath).Touches p → p = tempPath := fun _ h => h
      refine (ends_atomically_within hremove).mono ?_ ?_
      · rintro _ _ rfl
        exact hE _ _ ((Within.refl _ w').next.emit hremove)
      · rintro (_ | _) w'' h
        · exact hE _ _ h
        · exact hE _ _ h
    · exact hE _ _ (Within.refl _ w')
  · exact hE

theorem ends_createNew_within : Ends (createNew tempPath) w
    (fun file w' => file.path = tempPath ∧ Within (· = tempPath) w w')
    (fun _ w' => Within (· = tempPath) w w') := by
  have hcreate : ∀ p, (Event.create tempPath).Touches p → p = tempPath := fun _ h => h
  rw [createNew, ends_bind, ends_get]
  split
  · exact Within.refl _ w
  · rw [create, ends_bind, ends_get]
    split
    · rw [ends_bind]
      refine (ends_atomically_within hcreate).mono ?_ fun _ _ h => h
      rintro _ _ rfl
      exact ⟨rfl, (Within.refl _ w).next.emit hcreate⟩
    · exact Within.refl _ w

theorem ends_tempWrite_within {file : File Path} (hfile : file.path = tempPath) :
    Ends (withLocal file (File.writeAll payload)) w
      (fun file' w' => file'.path = tempPath ∧ Within (· = tempPath) w w')
      (fun _ w' => Within (· = tempPath) w w') := by
  have hwrite (bytes : Bytes) : Within (· = tempPath) w
      (w.next.emit (.write file.path file.pos bytes)) :=
    (Within.refl _ w).next.emit fun _ h => Eq.trans h hfile
  rw [ends_withLocal, ends_writeAll]
  cases w.verdict with
  | done => exact ⟨hfile, hwrite _⟩
  | fails n => exact hwrite _
  | cut n => exact hwrite _

theorem ends_tempSync_within (loss : Loss) {file : File Path} (hfile : file.path = tempPath) :
    Ends (withLocal file File.syncAll) w
      (fun _ w' => Within (· = tempPath) w w' ∧ (w'.disk targetDir loss).Synced tempPath)
      (fun _ w' => Within (· = tempPath) w w') := by
  have hsync : ∀ p, (Event.sync file.path).Touches p → p = tempPath := fun _ h => h.elim
  rw [ends_withLocal, File.syncAll, ends_bind, ends_get, ends_beside]
  refine (ends_atomically_within hsync).mono ?_ fun _ _ h => h
  rintro _ _ rfl
  refine ⟨(Within.refl _ w).next.emit hsync, ?_⟩
  rw [World.disk_emit, ← hfile]
  exact Disk.synced_flush _ _

/-- The temporary file is on the medium when it has been written, if the policy has it synced. -/
theorem ends_writeTemp_within (loss : Loss) : Ends (writeTemp tempPath payload policy) w
    (fun _ w' => Within (· = tempPath) w w' ∧
      (policy ≠ .never → (w'.disk targetDir loss).Synced tempPath))
    (fun (_ : Halt (PersistError ε)) w' => Within (· = tempPath) w w') := by
  rw [writeTemp, ends_bind]
  refine ends_ioAt_of (ends_createNew_within.mono ?_ fun _ _ h _ _ => h)
  rintro file w₁ ⟨hfile, h₁⟩
  rw [ends_bind]
  refine ends_cleaningUp_within ((ends_tempWrite_within hfile).mono ?_ ?_)
  · rintro file' w₂ ⟨hfile', h₂⟩
    split
    · rw [ends_bind]
      refine ends_cleaningUp_within ((ends_tempSync_within loss hfile').mono ?_ ?_)
      · rintro _ w₃ ⟨h₃, hsynced⟩
        exact ⟨(h₁.trans h₂).trans h₃, fun _ => hsynced⟩
      · rintro (source | _) w₃ h₃
        · exact fun e w₄ h₄ => ((h₁.trans h₂).trans h₃).trans h₄
        · exact (h₁.trans h₂).trans h₃
    · rename_i hpolicy
      exact ⟨h₁.trans h₂, fun h => absurd h hpolicy⟩
  · rintro (source | _) w₂ h₂
    · exact fun e w₃ h₃ => (h₁.trans h₂).trans h₃
    · exact h₁.trans h₂

end Phases

section Write

variable {w w' : World Path} {target tempPath : Path} {payload : Bytes} {policy : FsyncPolicy}
  {name : String}

theorem targetDir_join (dir : Path) (name : String) : targetDir (dir.join name) = dir := by
  simp [targetDir, Path.parent, Path.join]

theorem targetDir_walPath (h : target.fileName = some name) :
    targetDir (walPath target) = targetDir target := by
  rw [← Path.join_wal h, targetDir_join]

/-- After a loss of power, the target holds what it held or the payload, and no other file but the
temporary one has changed. -/
def OldOrNew (loss : Loss) (target tempPath : Path) (payload : Bytes) (w w' : World Path) : Prop :=
  ∀ files ∈ w'.outcomes targetDir loss,
    (files target = w.files target ∨ files target = some payload) ∧
      ∀ p, p ≠ target → p ≠ tempPath → files p = w.files p

/-- After a loss of power, the target holds the payload, and no other file has changed. -/
def New (loss : Loss) (target : Path) (payload : Bytes) (w w' : World Path) : Prop :=
  ∀ files ∈ w'.outcomes targetDir loss, files target = some payload ∧
    ∀ p, p ≠ target → files p = w.files p

theorem New.oldOrNew (h : New loss target payload w w') :
    OldOrNew loss target tempPath payload w w' :=
  fun files hfiles => ⟨.inr (h files hfiles).1, fun p hp _ => (h files hfiles).2 p hp⟩

theorem oldOrNew_of_within (hdurable : ∀ p, w.Durable targetDir loss p) (hne : tempPath ≠ target)
    (h : Within (· = tempPath) w w') : OldOrNew loss target tempPath payload w w' := by
  intro files hfiles
  have hkept (p : Path) (hp : p ≠ tempPath) : files p = w.files p := by
    rw [(h.durable hp (hdurable p)).files hfiles, h.files hp]
  exact ⟨.inl (hkept target hne.symm), fun p _ hp => hkept p hp⟩

theorem durable_of_syncDir (hne : tempPath ≠ target)
    (hsynced : (w.disk targetDir loss).Synced tempPath) :
    ((w.emit (.rename tempPath target)).emit (.syncDir (targetDir target))).Durable targetDir loss
      target := by
  refine ⟨?_, ?_⟩
  · rw [World.disk_emit, Disk.apply]
    exact Disk.anchored_flushDir _ _
  · have hrenamed : ((w.emit (.rename tempPath target)).disk targetDir loss).Synced target := by
      rw [World.disk_emit]
      exact Disk.synced_rename hne hsynced
    rw [World.disk_emit, Disk.apply]
    exact hrenamed

section Rename

variable {w₁ : World Path} (hdurable : ∀ p, w.Durable targetDir loss p) (hne : tempPath ≠ target)
  (hwithin : Within (· = tempPath) w w₁) (hpayload : w₁.files tempPath = some payload)
  (hsynced : (w₁.disk targetDir loss).Synced tempPath)

include hdurable hne hwithin hpayload hsynced

/-- The rename happens wholly or not at all. -/
theorem oldOrNew_of_rename :
    OldOrNew loss target tempPath payload w (w₁.emit (.rename tempPath target)) := by
  intro files hfiles
  rw [World.outcomes, World.disk_emit] at hfiles
  obtain ⟨before, hbefore, htarget, hother⟩ := Disk.outcomes_rename hne hsynced hfiles
  have hbound : OldOrNew loss target tempPath payload w w₁ :=
    oldOrNew_of_within hdurable hne hwithin
  have hkept := (hbound before hbefore).2
  have hold : before target = w.files target := by
    rw [(hwithin.durable hne.symm (hdurable target)).files hbefore, hwithin.files hne.symm]
  refine ⟨?_, fun p hp htemp => ?_⟩
  · rw [World.view_disk, hold, hpayload] at htarget
    exact htarget
  · rw [hother p htemp hp, hkept p hp htemp]

/-- Once the directory is synced, the rename has happened. -/
theorem new_of_syncDir (hdir : targetDir tempPath = targetDir target)
    (hnone : w.files tempPath = none) :
    New loss target payload w
      ((w₁.emit (.rename tempPath target)).emit (.syncDir (targetDir target))) := by
  set w₂ := w₁.emit (.rename tempPath target) with hw₂
  set w₃ := w₂.emit (.syncDir (targetDir target)) with hw₃
  have hdisk₃ : w₃.disk targetDir loss =
      (w₂.disk targetDir loss).flushDir targetDir (targetDir target) := by
    rw [hw₃, World.disk_emit, Disk.apply]
  have hfiles₂ : w₃.files = (Event.rename tempPath target).apply w₁.files := by
    rw [hw₃, hw₂, World.files_emit, World.files_emit]
    rfl
  have hfiles₃ : w₃.files target = some payload ∧ w₃.files tempPath = none := by
    rw [hfiles₂, Event.apply, Function.update_of_ne hne.symm, Function.update_self,
      Function.update_self, hpayload]
    exact ⟨rfl, rfl⟩
  have hrest : Within (fun p => p = tempPath ∨ p = target) w w₃ :=
    ((hwithin.mono fun _ => .inl).emit fun _ h => h).emit fun _ h => h.elim
  have htarget : w₃.Durable targetDir loss target := durable_of_syncDir hne hsynced
  have htemp : w₃.Durable targetDir loss tempPath := by
    refine ⟨?_, fun i hi => ?_⟩
    · rw [hdisk₃, ← hdir]
      exact Disk.anchored_flushDir _ _
    · have hview := congrFun (w₃.view_disk targetDir loss) tempPath
      rw [Disk.view, hi, hfiles₃.2] at hview
      cases hview
  intro files hfiles
  refine ⟨by rw [htarget.files hfiles, hfiles₃.1], fun p hp => ?_⟩
  by_cases hptemp : p = tempPath
  · rw [hptemp, htemp.files hfiles, hfiles₃.2, hnone]
  · have hnot : ¬ (p = tempPath ∨ p = target) := not_or.mpr ⟨hptemp, hp⟩
    rw [(hrest.durable hnot (hdurable p)).files hfiles, hrest.files hnot]

end Rename

/-- Whatever step an atomic write is stopped at, and also when it fails, a loss of power leaves the
old content or the payload in the target; when it has returned, the payload. -/
theorem writeAtomic_power_loss (hdurable : ∀ p, w.Durable targetDir loss p)
    (hpolicy : policy ≠ .never) :
    Ends (writeAtomic true target payload policy) w
      (fun _ w' => New loss target payload w w')
      (fun (_ : Halt (PersistError ε)) w' =>
        OldOrNew loss target (tempPathOf target (target.fileName.getD "") w) payload w w') := by
  cases hname : target.fileName with
  | none =>
    refine (ends_writeAtomic_unnamed hname).mono (fun _ _ h => h.elim) ?_
    rintro _ w' ⟨-, rfl⟩ files hfiles
    exact ⟨.inl ((hdurable target).files hfiles), fun p _ _ => (hdurable p).files hfiles⟩
  | some name =>
    have hne : tempPathOf target name w ≠ target := tempPathOf_ne hname
    rw [Option.getD_some]
    simp only [writeAtomic, hname, ends_bind, ends_get]
    refine ((ends_writeTemp _).and (ends_writeTemp_within loss)).mono ?_ ?_
    · rintro _ w₁ ⟨⟨hcreatable, -, -, hpayload, -⟩, hwithin, hsynced⟩
      have hrenamed := oldOrNew_of_rename hdurable hne hwithin hpayload (hsynced hpolicy)
      refine ends_cleaningUp_within ?_
      rw [rename, ends_bind, ends_get, if_pos (by rw [hpayload]; rfl), ends_atomically]
      cases w₁.verdict with
      | fails n => exact fun e w₂ h₂ => oldOrNew_of_within hdurable hne (hwithin.trans h₂)
      | cut n =>
        dsimp only
        split
        · exact oldOrNew_of_within hdurable hne hwithin
        · exact hrenamed
      | done =>
        have hnew := new_of_syncDir hdurable hne hwithin hpayload (hsynced hpolicy)
          ((targetDir_join _ _).trans rfl) hcreatable.1
        rw [syncParent, if_pos ⟨rfl, hpolicy⟩, ends_bind]
        refine ends_ioAt_of (ends_observe_of ?_ (fun _ _ _ _ _ => hrenamed)
          fun _ _ _ _ => hrenamed)
        intro _ _ _
        refine ends_ioAt_of (ends_atomically_of (fun _ => hnew) fun _ _ _ _ => ?_)
        split
        · exact hnew.oldOrNew
        · exact hrenamed
    · rintro e w₁ ⟨-, hwithin⟩
      exact oldOrNew_of_within hdurable hne hwithin

/-- Once an atomic write has returned, its target is on the medium and so is every entry of the
directory. -/
theorem ends_writeAtomic_durable (loss : Loss) (hname : target.fileName = some name)
    (hpolicy : policy ≠ .never) :
    Ends (writeAtomic true target payload policy) w
      (fun _ w' => w'.Durable targetDir loss target ∧
        ∀ p, targetDir p = targetDir target → (w'.disk targetDir loss).Anchored p)
      (fun (_ : Halt (PersistError ε)) _ => True) := by
  have hne : tempPathOf target name w ≠ target := tempPathOf_ne hname
  simp only [writeAtomic, hname, ends_bind, ends_get]
  refine (ends_writeTemp_within loss).mono ?_ fun _ _ _ => trivial
  rintro _ w₁ ⟨-, hsynced⟩
  refine ends_cleaningUp_within ?_
  rw [rename, ends_bind, ends_get]
  split
  · rw [ends_atomically]
    cases w₁.verdict with
    | fails n => exact fun _ _ _ => trivial
    | cut n => trivial
    | done =>
      rw [syncParent, if_pos ⟨rfl, hpolicy⟩, ends_bind]
      refine ends_ioAt_of (ends_observe_of ?_ (fun _ _ _ _ _ => trivial) fun _ _ _ _ => trivial)
      intro _ _ _
      refine ends_ioAt_of (ends_atomically_of (fun _ => ⟨?_, fun p hp => ?_⟩)
        fun _ _ _ _ => trivial)
      · have hdurable := durable_of_syncDir hne (hsynced hpolicy)
        exact ⟨hdurable.anchored, hdurable.synced⟩
      · rw [World.disk_emit, Disk.apply, ← hp]
        exact Disk.anchored_flushDir _ _
  · exact fun _ _ _ => trivial

end Write

/-- The machine stops in the rename, which has taken effect but is not on the medium. -/
def renameCut : List Verdict := [.done, .done, .done, .cut 1]

theorem writeAtomic_power_loss_renameCut : ∃ w' : World Path,
    writeAtomic (ε := IdError) true nestedPath [1] .always (emptyWorld.withScript renameCut) =
        .error .crashed w' ∧ w'.files nestedPath = some [1] ∧
      OldOrNew .anywhere nestedPath (tempPathOf nestedPath "x" emptyWorld) [1]
        (emptyWorld.withScript renameCut) w' := by
  obtain ⟨w', hcall, hfile⟩ : ∃ w',
      writeAtomic (ε := IdError) true nestedPath [1] .always (emptyWorld.withScript renameCut) =
        .error .crashed w' ∧ w'.files nestedPath = some [1] := ⟨_, rfl, by decide⟩
  have hpower : Ends (writeAtomic true nestedPath [1] .always) (emptyWorld.withScript renameCut)
      (fun _ w' => New .anywhere nestedPath [1] (emptyWorld.withScript renameCut) w')
      (fun (_ : Halt (PersistError IdError)) w' =>
        OldOrNew .anywhere nestedPath (tempPathOf nestedPath "x" emptyWorld) [1]
          (emptyWorld.withScript renameCut) w') :=
    writeAtomic_power_loss (World.durable_of_history rfl) (by decide)
  have hold := ends_of_error hpower hcall
  exact ⟨w', hcall, hfile, hold⟩

end IqdbPersist
