import IqdbPersist.AtomicWrite
import IqdbPersist.SampleIndex

/-!
# The paths that can be saved to

`write_atomic` opens the directory of the target to make the rename durable. It takes that directory
from `Path::parent`, and the parent of a bare file name is the empty path, which does not open: the
fallback to `.` is for paths without a parent, and no path with a file name is without one.
-/

namespace IqdbPersist

open CrashLogic FileSystem

variable {ε : Type}

namespace Path

/-- The empty path. -/
def empty : Path := ⟨false, []⟩

/-- The directory in which a path's last component lies: for a bare name, the working directory. -/
def containingDir (path : Path) : Path :=
  if path.parent = some empty then ⟨false, ["."]⟩ else targetDir path

end Path

/-- Nothing is in the way of saving to the target. -/
structure Usable (target : Path) (name : String) (w : World Path) : Prop where
  fileName : target.fileName = some name
  /-- The containing directory exists and allows new entries. -/
  opens : w.dirs target.containingDir = true
  permits : ∀ entry, w.permits ((targetDir target).join entry) = true
  calm : w.Calm
  /-- Opening the empty path fails. -/
  emptyPath : w.dirs .empty = false

/-- The write returns, the target holds the payload, and no temporary file is left. -/
def Saves (ε : Type) (target : Path) (name : String) (payload : Bytes) (policy : FsyncPolicy)
    (w : World Path) : Prop :=
  Ends (writeAtomic true target payload policy : EStateM (Halt (PersistError ε)) _ _) w
    (fun _ w' => w'.files target = some payload ∧ w'.files (tempPathOf target name w) = none)
    (fun _ _ => False)

section Usable

variable {target : Path} {name : String} {payload : Bytes} {policy : FsyncPolicy} {w : World Path}

theorem saves_iff_dirOpens (h : Usable target name w) :
    Saves ε target name payload policy w ↔
      w.files (tempPathOf target name w) = none ∧ DirOpens true policy w (targetDir target) := by
  have hends : Ends (writeAtomic true target payload policy :
      EStateM (Halt (PersistError ε)) (World Path) Unit) w _ _ := ends_writeAtomic h.fileName
  constructor
  · intro hsaves
    obtain ⟨_, w', hrun, -⟩ := ok_of_ends hsaves
    obtain ⟨hinstalls, hopens, -⟩ := ends_of_ok hends hrun
    exact ⟨hinstalls.1.1, hopens⟩
  · rintro ⟨hfree, hopens⟩
    refine hends.mono ?_ ?_
    · rintro _ w' ⟨-, -, -, -, hpayload, honly⟩
      exact ⟨hpayload, (honly.files _ (tempPathOf_ne h.fileName)).trans hfree⟩
    · rintro e w' ⟨-, hnot, -⟩
      exact hnot ⟨⟨hfree, h.permits _⟩, hopens, h.calm.completes _⟩

theorem dirOpens_iff (h : Usable target name w) :
    DirOpens true policy w (targetDir target) ↔
      policy = .never ∨ target.parent ≠ some .empty := by
  have hops : dirOps true policy = 0 ↔ policy = .never := by
    unfold dirOps
    split_ifs with hpolicy
    · exact iff_of_false (by decide) hpolicy.2
    · exact iff_of_true rfl (by simpa using hpolicy)
  have hdirs : w.dirs (targetDir target) = true ↔ target.parent ≠ some .empty := by
    by_cases hbare : target.parent = some .empty
    · have hdir : targetDir target = .empty := by rw [targetDir, hbare, Option.getD_some]
      rw [hdir, h.emptyPath]
      exact iff_of_false (by decide) (not_not.mpr hbare)
    · have hopens := h.opens
      rw [Path.containingDir, if_neg hbare] at hopens
      exact iff_of_true hopens hbare
  rw [DirOpens, hops, hdirs]

/-- Saving works for every usable path but a bare file name, and for that one without fsync. -/
theorem saves_iff (h : Usable target name w) (payload : Bytes) (policy : FsyncPolicy) :
    Saves ε target name payload policy w ↔
      w.files (tempPathOf target name w) = none ∧
        (policy = .never ∨ target.parent ≠ some .empty) := by
  rw [saves_iff_dirOpens h, dirOpens_iff h]

/-- A working directory. -/
def workingDirectory : World Path := { emptyWorld with dirs := fun path => decide (path ≠ .empty) }

def barePath : Path := ⟨false, ["index.iqdb"]⟩

theorem usable_bare : Usable barePath "index.iqdb" workingDirectory :=
  ⟨rfl, rfl, fun _ => rfl, rfl, rfl⟩

theorem usable_nested : Usable nestedPath "x" workingDirectory :=
  ⟨rfl, rfl, fun _ => rfl, rfl, rfl⟩

theorem saves_iff_nested :
    Saves IdError nestedPath "x" [7] .always workingDirectory ↔
      workingDirectory.files (tempPathOf nestedPath "x" workingDirectory) = none ∧
        (FsyncPolicy.always = .never ∨ nestedPath.parent ≠ some .empty) :=
  saves_iff usable_nested [7] .always

/-- A bare file name is not saved to. -/
theorem not_saves_bare :
    ¬ ∀ (target : Path) (name : String) (w : World Path) (payload : Bytes) (policy : FsyncPolicy),
      Usable target name w → w.files (tempPathOf target name w) = none →
        Saves IdError target name payload policy w := by
  intro hall
  have hsaves := hall barePath "index.iqdb" workingDirectory [7] .always usable_bare rfl
  have hopens := ((saves_iff_dirOpens usable_bare).mp hsaves).2
  rw [DirOpens] at hopens
  exact absurd hopens (by decide)

end Usable

end IqdbPersist
