import IqdbPersist.Storage
import IqdbPersist.Wal

/-!
# What an atomic write leaves behind

The target, its temporary file and its log are three different files of one directory. An atomic
write touches the first two; the target changes exactly when the rename takes effect.
-/

namespace IqdbPersist

open CrashLogic FileSystem

variable {ε : Type}

namespace Path

theorem join_inj {dir : Path} {m n : String} (h : dir.join m = dir.join n) : m = n := by
  have hcomponents := congrArg components h
  simpa [join] using hcomponents

theorem join_fileName {target : Path} {name : String} (h : target.fileName = some name) :
    (targetDir target).join name = target := by
  unfold fileName at h
  split at h
  · rename_i last hlast
    split at h
    · cases h
    · cases h
      obtain ⟨dir, hdir⟩ := List.getLast?_eq_some_iff.mp hlast
      obtain ⟨absolute, components⟩ := target
      subst hdir
      simp [targetDir, parent, join]
  · cases h

theorem join_wal {target : Path} {name : String} (h : target.fileName = some name) :
    (targetDir target).join (name ++ ".wal") = walPath target := by
  have htarget := join_fileName h
  have hlast : target.components.getLast? = some name := by
    rw [← htarget, join, List.getLast?_concat]
  have hdir : (targetDir target).components = target.components.dropLast := by
    conv_rhs => rw [← htarget]
    rw [join, List.dropLast_concat]
  have habsolute : (targetDir target).absolute = target.absolute := by
    conv_rhs => rw [← htarget]
    rfl
  simp only [walPath, hlast, join, hdir, habsolute]

end Path

/-- The temporary file that `write_atomic` would use now. -/
def tempPathOf (target : Path) (name : String) (w : World Path) : Path :=
  (targetDir target).join (tempName name w.pid w.systemTime)

theorem tempName_ne (name : String) (pid nanos : ℕ) : tempName name pid nanos ≠ name := by
  intro h
  have happend : tempName name pid nanos = name ++ "" := h.trans (String.append_empty).symm
  have htoList := congrArg String.toList ((String.append_right_inj name).mp happend)
  simp at htoList

theorem wal_ne (name : String) : name ++ ".wal" ≠ name := by
  intro h
  have happend : name ++ ".wal" = name ++ "" := h.trans (String.append_empty).symm
  exact absurd ((String.append_right_inj name).mp happend) (by decide)

theorem tempName_ne_wal (name : String) (pid nanos : ℕ) :
    tempName name pid nanos ≠ name ++ ".wal" := by
  intro h
  have htoList := congrArg String.toList ((String.append_right_inj name).mp h)
  simp at htoList

theorem walPath_ne (target : Path) : walPath target ≠ target := by
  intro h
  have hcomponents := congrArg Path.components h
  unfold walPath at hcomponents
  split at hcomponents
  · rename_i name hlast
    obtain ⟨dir, hdir⟩ := List.getLast?_eq_some_iff.mp hlast
    rw [hdir, List.dropLast_concat] at hcomponents
    have hnames := List.append_cancel_left hcomponents
    exact wal_ne name (List.singleton_inj.mp hnames)
  · rename_i hlast
    rw [List.getLast?_eq_none_iff.mp hlast] at hcomponents
    cases hcomponents

section Paths

variable {target : Path} {name : String} {w : World Path} (h : target.fileName = some name)

include h

theorem tempPathOf_ne : tempPathOf target name w ≠ target := by
  conv_rhs => rw [← Path.join_fileName h]
  exact fun heq => tempName_ne _ _ _ (Path.join_inj heq)

theorem tempPathOf_ne_walPath : tempPathOf target name w ≠ walPath target := by
  rw [← Path.join_wal h]
  exact fun heq => tempName_ne_wal _ _ _ (Path.join_inj heq)

end Paths

section Write

variable {w : World Path} {target : Path} {payload : Bytes} {policy : FsyncPolicy} {unix : Bool}
  {name : String}

/-- The operations of an atomic write. -/
def writeOps (unix : Bool) (policy : FsyncPolicy) : ℕ := tempOps policy + (1 + dirOps unix policy)

/-- The rename of an atomic write takes effect. -/
def Installs (target : Path) (name : String) (policy : FsyncPolicy) (w : World Path) : Prop :=
  Creatable w (tempPathOf target name w) ∧ takesEffect w.script (tempOps policy) = true

/-- A finished atomic write has changed the target alone. One that ends early has replaced the
target or left it alone, according to whether the rename took effect. -/
theorem ends_writeAtomic (hname : target.fileName = some name) :
    Ends (writeAtomic unix target payload policy) w
      (fun _ w' => Installs target name policy w ∧ DirOpens unix policy w (targetDir target) ∧
        completes w.script (writeOps unix policy) = true ∧
        w'.script = w.script.drop (writeOps unix policy) ∧ w'.files target = some payload ∧
        Only (· = target) w w')
      (fun (e : Halt (PersistError ε)) w' => ByEnvironment e ∧
        ¬ (Creatable w (tempPathOf target name w) ∧ DirOpens unix policy w (targetDir target) ∧
          completes w.script (writeOps unix policy) = true) ∧
        (Installs target name policy w → w'.files target = some payload ∧
          Only (fun p => p = target ∨ p = tempPathOf target name w) w w') ∧
        (¬ Installs target name policy w → Only (· = tempPathOf target name w) w w')) := by
  have hne : tempPathOf target name w ≠ target := tempPathOf_ne hname
  simp only [writeAtomic, hname, ends_bind, ends_get]
  refine (ends_writeTemp (tempPathOf target name w)).mono ?_ ?_
  · rintro _ w₁ ⟨hcreatable, hwritten, hscript₁, hpayload₁, honly₁⟩
    have honly₁' : Only (fun p => p = target ∨ p = tempPathOf target name w) w w₁ :=
      honly₁.mono fun _ => .inr
    have hinstalls : Installs target name policy w ↔ takesEffect w₁.script 0 = true := by
      have hadd := takesEffect_add w.script (tempOps policy) 0
      rw [Nat.add_zero, hwritten, Bool.true_and, ← hscript₁] at hadd
      rw [Installs, hadd, and_iff_right hcreatable]
    refine (ends_renameTemp hne hpayload₁).mono ?_ ?_
    · rintro _ w₂ ⟨hrenamed, hscript₂, hpayload₂, hgone, honly₂⟩
      have honly : Only (· = target) w w₂ := by
        refine ⟨fun p hp => ?_, honly₂.dirs.trans honly₁.dirs, honly₂.permits.trans honly₁.permits⟩
        by_cases htemp : p = tempPathOf target name w
        · rw [htemp, hgone, hcreatable.1]
        · exact (honly₁'.trans honly₂).files p (by simp [hp, htemp])
      have heffect : Installs target name policy w :=
        hinstalls.mpr (takesEffect_of_completes hrenamed Nat.zero_lt_one)
      have hops : completes w.script (writeOps unix policy) =
          completes w₂.script (dirOps unix policy) := by
        rw [writeOps, completes_add, hwritten, completes_add, ← hscript₁, hrenamed, ← hscript₂,
          Bool.true_and, Bool.true_and]
      have hdirs : DirOpens unix policy w₂ (targetDir target) ↔
          DirOpens unix policy w (targetDir target) := by
        rw [DirOpens, DirOpens, honly₂.dirs, honly₁.dirs]
      refine ends_syncParent.mono ?_ ?_
      · rintro _ w₃ ⟨hopens, hsynced, hscript₃, honly₃⟩
        refine ⟨heffect, hdirs.mp hopens, hops.trans hsynced, ?_, ?_,
          honly.trans (honly₃.mono fun _ => False.elim)⟩
        · rw [hscript₃, hscript₂, hscript₁, List.drop_drop, List.drop_drop, writeOps]
        · rw [honly₃.files target id, hpayload₂]
      · rintro e w₃ ⟨he, honly₃, hnot⟩
        rw [hops]
        refine ⟨he, fun hall => hnot ⟨hdirs.mpr hall.2.1, hall.2.2⟩, fun _ => ⟨?_, ?_⟩,
          fun hnone => absurd heffect hnone⟩
        · rw [honly₃.files target id, hpayload₂]
        · exact (honly₁'.trans honly₂).trans (honly₃.mono fun _ => False.elim)
    · rintro e w₂ ⟨he, hstop, hw₂⟩
      have hnot : completes w.script (writeOps unix policy) = false := by
        rw [writeOps, completes_add, hwritten, completes_add, ← hscript₁, hstop]
        rfl
      refine ⟨he, by simp [hnot], fun hyes => ?_, fun hno => ?_⟩
      · rw [if_pos (hinstalls.mp hyes)] at hw₂
        exact ⟨hw₂.1, honly₁'.trans hw₂.2⟩
      · rw [if_neg fun heffect => hno (hinstalls.mpr heffect)] at hw₂
        exact honly₁.trans hw₂
  · rintro e w₁ ⟨he, honly₁, hnot⟩
    have hno : ¬ Installs target name policy w := by
      rintro ⟨hcreatable, heffect⟩
      rw [takesEffect, Bool.and_eq_true] at heffect
      exact hnot ⟨hcreatable, heffect.1⟩
    refine ⟨he, fun hall => hnot ⟨hall.1, ?_⟩, fun hyes => absurd hyes hno, fun _ => honly₁⟩
    have hcompletes := hall.2.2
    rw [writeOps, completes_add, Bool.and_eq_true] at hcompletes
    exact hcompletes.1

theorem ends_writeAtomic_unnamed (hname : target.fileName = none) :
    Ends (writeAtomic unix target payload policy) w (fun _ _ => False)
      (fun (e : Halt (PersistError ε)) w' => ByEnvironment e ∧ w' = w) := by
  simp only [writeAtomic, hname, ends_throw]
  exact ⟨trivial, trivial⟩

end Write

end IqdbPersist
