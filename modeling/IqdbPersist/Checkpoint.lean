import IqdbPersist.Mutation

/-!
# One checkpoint, under any environment

A checkpoint replaces the snapshot by a rename and then empties the log by a truncation. Wherever
it ends, these two operations alone decide what the snapshot and the log hold.
-/

namespace IqdbPersist

open CrashLogic FileSystem LogState

variable {ε M I : Type} {b : Build M} {T : IndexType ε M I}

namespace PersistedIndex

variable {this : PersistedIndex I} {log : LogState} {w : World Path} {content : Bytes}

/-- The rename of a checkpoint takes effect. -/
def Replaces (b : Build M) (T : IndexType ε M I) (this : PersistedIndex I) (w : World Path) :
    Prop :=
  ∃ full name, snapshotBytes b T this.inner this.config = .ok full ∧
    this.config.path.fileName = some name ∧
    Installs this.config.path name this.config.fsyncPolicy w

/-- The truncation of a checkpoint whose rename took effect takes effect as well. -/
def Empties (b : Build M) (this : PersistedIndex I) (w : World Path) : Prop :=
  DirOpens b.unix this.config.fsyncPolicy w (targetDir this.config.path) ∧
    takesEffect w.script (writeOps b.unix this.config.fsyncPolicy) = true

/-- What is on disk when a checkpoint has ended early. -/
inductive CutShort (b : Build M) (T : IndexType ε M I) (this : PersistedIndex I) (w : World Path)
    (content : Bytes) : World Path → Prop
  | kept {w' : World Path} (hno : ¬ Replaces b T this w)
      (hsnapshot : w'.files this.config.path = w.files this.config.path)
      (hlog : w'.files (walPath this.config.path) = some content) : CutShort b T this w content w'
  | replaced {w' : World Path} {full : Bytes} (hreplaces : Replaces b T this w)
      (hfull : snapshotBytes b T this.inner this.config = .ok full) (hno : ¬ Empties b this w)
      (hsnapshot : w'.files this.config.path = some full)
      (hlog : w'.files (walPath this.config.path) = some content) : CutShort b T this w content w'
  | emptied {w' : World Path} {full : Bytes} (n : ℕ) (hreplaces : Replaces b T this w)
      (hfull : snapshotBytes b T this.inner this.config = .ok full) (hempties : Empties b this w)
      (hsnapshot : w'.files this.config.path = some full)
      (hlog : w'.files (walPath this.config.path) = some (walHeader.take n)) :
      CutShort b T this w content w'

theorem ends_writeSnapshot {name : String} (hname : this.config.path.fileName = some name) :
    Ends (writeSnapshot b T this) w
      (fun _ w' => ∃ full, snapshotBytes b T this.inner this.config = .ok full ∧
        Replaces b T this w ∧
        DirOpens b.unix this.config.fsyncPolicy w (targetDir this.config.path) ∧
        completes w.script (writeOps b.unix this.config.fsyncPolicy) = true ∧
        w'.script = w.script.drop (writeOps b.unix this.config.fsyncPolicy) ∧
        w'.files this.config.path = some full ∧ Only (· = this.config.path) w w')
      (fun e w' =>
        (∃ e', snapshotBytes b T this.inner this.config = .error e' ∧ e = .failed e' ∧ w' = w) ∨
        (ByEnvironment e ∧ ¬ Replaces b T this w ∧
          Only (· = tempPathOf this.config.path name w) w w') ∨
        ∃ full, snapshotBytes b T this.inner this.config = .ok full ∧ ByEnvironment e ∧
          Replaces b T this w ∧ ¬ Empties b this w ∧ w'.files this.config.path = some full ∧
          Only (fun p => p = this.config.path ∨ p = tempPathOf this.config.path name w) w w') := by
  rw [writeSnapshot, ends_bind, ends_uninterrupted]
  cases hfull : snapshotBytes b T this.inner this.config with
  | error e => exact .inl ⟨e, rfl, rfl, rfl⟩
  | ok full =>
    have hreplaces : Replaces b T this w ↔
        Installs this.config.path name this.config.fsyncPolicy w := by
      constructor
      · rintro ⟨_, name', -, hname', hinstalls⟩
        rw [hname] at hname'
        cases hname'
        exact hinstalls
      · exact fun hinstalls => ⟨full, name, hfull, hname, hinstalls⟩
    rw [ends_settle_ok, hreplaces]
    refine (ends_writeAtomic hname).mono ?_ ?_
    · rintro _ w' hw'
      exact ⟨full, rfl, hw'⟩
    · rintro e w' ⟨he, hnot, hyes, hno⟩
      by_cases hinstalls : Installs this.config.path name this.config.fsyncPolicy w
      · refine .inr (.inr ⟨full, rfl, he, hinstalls, ?_, hyes hinstalls⟩)
        rintro ⟨hopens, heffect⟩
        rw [takesEffect, Bool.and_eq_true] at heffect
        exact hnot ⟨hinstalls.1, hopens, heffect.1⟩
      · exact .inr (.inl ⟨he, hinstalls, hno hinstalls⟩)

theorem ends_writeSnapshot_unnamed (hname : this.config.path.fileName = none) :
    Ends (writeSnapshot b T this) w (fun _ _ => False)
      (fun e w' => w' = w ∧
        ((∃ e', snapshotBytes b T this.inner this.config = .error e' ∧ e = .failed e') ∨
          ByEnvironment e)) := by
  rw [writeSnapshot, ends_bind, ends_uninterrupted]
  cases snapshotBytes b T this.inner this.config with
  | error e => exact ⟨rfl, .inl ⟨e, rfl, rfl⟩⟩
  | ok full =>
    refine (ends_writeAtomic_unnamed hname).mono (fun _ _ h => h) ?_
    exact fun _ _ h => ⟨h.2, .inr h.1⟩

theorem withLog_self {wal : Wal} (hwal : this.wal = some wal) (w : World Path) :
    (this, w) = withLog this this.inner (wal, w) := by
  rw [withLog, ← hwal]

/-- A finished checkpoint leaves a new snapshot and an empty log, wherever the log was written
next. -/
theorem ends_checkpoint_of_holds {name : String} (hname : this.config.path.fileName = some name)
    (h : log.Holds content) (hwal : this.wal = some log.1)
    (hpath : log.1.file.path = walPath this.config.path) :
    Ends (checkpoint b T) (this, log.2)
      (fun _ s => ∃ full log', s = withLog this this.inner log' ∧
        snapshotBytes b T this.inner this.config = .ok full ∧
        log'.2.files this.config.path = some full ∧ log'.At walHeader ∧
        log'.1.file.path = walPath this.config.path ∧
        completes log.2.script (writeOps b.unix this.config.fsyncPolicy + 4) = true ∧
        log'.2.script = log.2.script.drop (writeOps b.unix this.config.fsyncPolicy + 4))
      (fun e s => ∃ log', s = withLog this this.inner log' ∧
        log'.1.file.path = walPath this.config.path ∧
        ((∃ e', snapshotBytes b T this.inner this.config = .error e' ∧ e = .failed e' ∧
            log' = log) ∨
          ByEnvironment e ∧ CutShort b T this log.2 content log'.2)) := by
  have hne := walPath_ne this.config.path
  have hholds : log.2.files (walPath this.config.path) = some content := hpath ▸ h
  have htemp := tempPathOf_ne_walPath (w := log.2) hname
  rw [checkpoint, ends_bind, ends_get, ends_bind, ends_within]
  refine (ends_writeSnapshot hname).mono ?_ ?_
  · rintro _ w₁ ⟨full, hfull, hreplaces, hopens, hcompletes, hscript, hsnapshot, honly⟩
    have hlog₁ : LogState.Holds (log.1, w₁) content := by
      rw [LogState.Holds, hpath, honly.files _ hne, hholds]
    have hempties : Empties b this log.2 ↔ takesEffect w₁.script 0 = true := by
      have hadd := takesEffect_add log.2.script (writeOps b.unix this.config.fsyncPolicy) 0
      rw [Nat.add_zero, hcompletes, Bool.true_and, ← hscript] at hadd
      rw [Empties, hadd, and_iff_right hopens]
    simp only [hwal, ends_within]
    refine (ends_reset hlog₁).mono ?_ ?_
    · rintro _ log' ⟨hfollows, hat, hreset, hscript'⟩
      refine ⟨full, log', rfl, hfull, ?_, hat, hfollows.filePath.trans hpath, ?_, ?_⟩
      · rw [hfollows.only.files _ (by rw [hpath]; exact hne.symm), hsnapshot]
      · rw [completes_add, hcompletes, ← hscript, hreset]
        rfl
      · rw [hscript', hscript, List.drop_drop]
    · rintro e log' ⟨he, hfollows, -, hlog'⟩
      refine ⟨log', rfl, hfollows.filePath.trans hpath, .inr ⟨he, ?_⟩⟩
      have hsnapshot' : log'.2.files this.config.path = some full := by
        rw [hfollows.only.files _ (by rw [hpath]; exact hne.symm), hsnapshot]
      have hpath' : log'.1.file.path = walPath this.config.path := hfollows.filePath.trans hpath
      split at hlog'
      · rename_i heffect
        obtain ⟨n, hn⟩ := hlog'
        rw [LogState.Holds, hpath'] at hn
        exact .emptied n hreplaces hfull (hempties.mpr heffect) hsnapshot' hn
      · rename_i heffect
        rw [LogState.Holds, hpath'] at hlog'
        exact .replaced hreplaces hfull (fun h => heffect (hempties.mp h)) hsnapshot' hlog'
  · rintro e w₁ (⟨e', he', rfl, rfl⟩ | ⟨he, hno, honly⟩ |
      ⟨full, hfull, he, hreplaces, hno, hsnapshot, honly⟩)
    · exact ⟨log, withLog_self hwal log.2, hpath, .inl ⟨e', he', rfl, rfl⟩⟩
    · refine ⟨(log.1, w₁), withLog_self hwal w₁, hpath, .inr ⟨he, .kept hno ?_ ?_⟩⟩
      · exact honly.files _ (tempPathOf_ne hname).symm
      · exact (honly.files _ htemp.symm).trans hholds
    · refine ⟨(log.1, w₁), withLog_self hwal w₁, hpath,
        .inr ⟨he, .replaced hreplaces hfull hno hsnapshot ?_⟩⟩
      exact (honly.files _ (by simp [hne, htemp.symm])).trans hholds

theorem ends_checkpoint {name : String} (hname : this.config.path.fileName = some name)
    (h : log.At content) (hwal : this.wal = some log.1)
    (hpath : log.1.file.path = walPath this.config.path) :
    Ends (checkpoint b T) (this, log.2)
      (fun _ s => ∃ full log', s = withLog this this.inner log' ∧
        snapshotBytes b T this.inner this.config = .ok full ∧
        log'.2.files this.config.path = some full ∧ log'.At walHeader ∧
        log'.1.file.path = walPath this.config.path ∧
        completes log.2.script (writeOps b.unix this.config.fsyncPolicy + 4) = true ∧
        log'.2.script = log.2.script.drop (writeOps b.unix this.config.fsyncPolicy + 4))
      (fun e s => ∃ log', s = withLog this this.inner log' ∧
        ((∃ e', snapshotBytes b T this.inner this.config = .error e' ∧ e = .failed e' ∧
            log' = log) ∨
          ByEnvironment e ∧ CutShort b T this log.2 content log'.2)) := by
  refine (ends_checkpoint_of_holds hname h.holds hwal hpath).mono (fun _ _ h => h) ?_
  rintro e s ⟨log', hs, -, hcut⟩
  exact ⟨log', hs, hcut⟩

end PersistedIndex

end IqdbPersist
