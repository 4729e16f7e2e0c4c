import IqdbPersist.Restarting

/-!
# Opening and loading, under any environment

Opening in log mode replaces the snapshot by a rename and then truncates or creates the log.
Wherever it ends, these two operations alone decide what the snapshot and the log hold.
-/

namespace FileSystem

open CrashLogic

variable {P : Type} [DecidableEq P] {w : World P}

def Truncates (path : P) (w : World P) : Prop :=
  takesEffect w.script 0 = true ∧ (w.files path ≠ none ∨ w.permits path = true)

/-- Where opening for writing has effect, it leaves an empty file, and elsewhere nothing. -/
theorem ends_openTruncate_cut (path : P) : Ends (openTruncate path) w (fun _ _ => Truncates path w)
    (fun _ w' => Truncates path w ∧ w'.files path = some [] ∨
      ¬ Truncates path w ∧ w'.files path = w.files path) := by
  have hevent {e : Event P} (hopens : w.files path ≠ none ∨ w.permits path = true)
      (hempty : (w.next.emit e).files path = some []) :
      Ends (do atomically e; pure ⟨path, 0⟩ : EStateM (Halt IoError) (World P) (File P)) w
        (fun _ _ => Truncates path w)
        (fun _ w' => Truncates path w ∧ w'.files path = some [] ∨
          ¬ Truncates path w ∧ w'.files path = w.files path) := by
    rw [ends_bind]
    refine ends_atomically_of ?_ fun _ _ => ?_
    · exact fun hdone => ⟨takesEffect_of_completes hdone Nat.zero_lt_one, hopens⟩
    · by_cases heffect : takesEffect w.script 0 = true
      · rw [if_pos heffect]
        exact .inl ⟨⟨heffect, hopens⟩, hempty⟩
      · rw [if_neg heffect]
        exact .inr ⟨fun h => heffect h.1, rfl⟩
  simp only [openTruncate, create, ends_bind, ends_get]
  split
  · rename_i hsome
    obtain ⟨content, hcontent⟩ := Option.isSome_iff_exists.mp hsome
    refine hevent (.inl (by simp [hcontent])) ?_
    rw [World.files_emit, Event.apply, Function.update_self, World.files_next, hcontent,
      Option.map_some, resize_zero]
  · rename_i hnone
    rw [ends_bind, ends_get]
    by_cases hpermits : w.permits path = true
    · rw [if_pos hpermits]
      refine hevent (.inr hpermits) ?_
      rw [World.files_emit, Event.apply, Function.update_self]
    · rw [if_neg hpermits]
      refine .inr ⟨?_, rfl⟩
      rintro ⟨-, hsome | hpermits'⟩
      · simp_all
      · exact hpermits hpermits'

end FileSystem

namespace IqdbPersist

open CrashLogic FileSystem LogState

variable {ε M I : Type} {b : Build M} {T : IndexType ε M I} {w : World Path}

theorem ends_create_cut {snapshot : Path} {policy : FsyncPolicy} :
    Ends (Wal.create snapshot policy) w (fun _ _ => Truncates (walPath snapshot) w)
      (fun (_ : Halt (PersistError ε)) w' =>
        (Truncates (walPath snapshot) w ∧
          ∃ n, w'.files (walPath snapshot) = some (walHeader.take n)) ∨
        ¬ Truncates (walPath snapshot) w ∧
          w'.files (walPath snapshot) = w.files (walPath snapshot)) := by
  rw [Wal.create, ends_bind]
  refine ends_ioAt_of (((ends_openTruncate (walPath snapshot)).and
    (ends_openTruncate_cut (walPath snapshot))).mono ?_ ?_)
  · rintro _ w₁ ⟨⟨rfl, hempty, -⟩, htruncates⟩
    have hempty :
        LogState.At (⟨⟨walPath snapshot, 0⟩, walPath snapshot, policy, none, []⟩, w₁) [] :=
      ⟨hempty, rfl⟩
    rw [ends_withLocal]
    refine (ends_writeHeader_syncNow hempty).mono (fun _ _ _ => htruncates) ?_
    rintro e s' ⟨-, hfollows, -, n, hn⟩
    rw [LogState.Holds, hfollows.filePath] at hn
    exact .inl ⟨htruncates, n, hn⟩
  · rintro _ w' ⟨-, ⟨htruncates, hempty⟩ | hkept⟩ e -
    · exact .inl ⟨htruncates, 0, hempty⟩
    · exact .inr hkept

namespace PersistedIndex

variable {config : PersistConfig} {x : I}

/-- Opening the log of an index that is being opened has effect. -/
def Restarts (b : Build M) (this : PersistedIndex I) (w : World Path) : Prop :=
  Empties b this w ∧ Openable this.config.path w

/-- What is on disk when opening in log mode has ended early. -/
inductive CutOpening (b : Build M) (T : IndexType ε M I) (this : PersistedIndex I)
    (w : World Path) : World Path → Prop
  | kept {w' : World Path} (hno : ¬ Replaces b T this w)
      (hsnapshot : w'.files this.config.path = w.files this.config.path)
      (hlog : w'.files (walPath this.config.path) = w.files (walPath this.config.path)) :
      CutOpening b T this w w'
  | replaced {w' : World Path} {full : Bytes} (hreplaces : Replaces b T this w)
      (hfull : snapshotBytes b T this.inner this.config = .ok full) (hno : ¬ Restarts b this w)
      (hsnapshot : w'.files this.config.path = some full)
      (hlog : w'.files (walPath this.config.path) = w.files (walPath this.config.path)) :
      CutOpening b T this w w'
  | emptied {w' : World Path} {full : Bytes} (n : ℕ) (hreplaces : Replaces b T this w)
      (hfull : snapshotBytes b T this.inner this.config = .ok full) (hyes : Restarts b this w)
      (hsnapshot : w'.files this.config.path = some full)
      (hlog : w'.files (walPath this.config.path) = some (walHeader.take n)) :
      CutOpening b T this w w'

theorem ends_openWith_cut (hwal : config.walEnabled = true) :
    Ends (openWith b T x config) w
      (fun _ _ => Replaces b T ⟨x, config, none⟩ w ∧ Restarts b ⟨x, config, none⟩ w)
      (fun e w' => (w' = w ∧ validateConfig b config ≠ (.ok () : Except (PersistError ε) Unit)) ∨
        (w' = w ∨ ByEnvironment e) ∧ CutOpening b T ⟨x, config, none⟩ w w') := by
  have hunchanged (hno : ¬ Replaces b T ⟨x, config, none⟩ w) :
      CutOpening b T ⟨x, config, none⟩ w w := .kept hno rfl rfl
  rw [openWith, ends_bind, ends_uninterrupted]
  cases validateConfig (ε := ε) b config with
  | error e => exact .inl ⟨rfl, by simp⟩
  | ok _ =>
    simp only [ends_settle_ok, hwal, if_true, ends_bind]
    cases hname : config.path.fileName with
    | none =>
      refine (ends_writeSnapshot_unnamed hname).mono (fun _ _ h => h.elim) ?_
      rintro e w' ⟨rfl, -⟩
      refine .inr ⟨.inl rfl, hunchanged ?_⟩
      rintro ⟨_, name, -, hname', -⟩
      rw [hname] at hname'
      cases hname'
    | some name =>
      have hne := walPath_ne config.path
      have htemp := tempPathOf_ne_walPath (w := w) hname
      refine (ends_writeSnapshot hname).mono ?_ ?_
      · rintro _ w₁ ⟨full, hfull, hreplaces, hopens, hcompletes, hscript, hsnapshot, honly⟩
        have hlog₁ : w₁.files (walPath config.path) = w.files (walPath config.path) :=
          honly.files _ hne
        have hrestarts : Restarts b ⟨x, config, none⟩ w ↔ Truncates (walPath config.path) w₁ := by
          have hadd := takesEffect_add w.script (writeOps b.unix config.fsyncPolicy) 0
          rw [Nat.add_zero, hcompletes, Bool.true_and, ← hscript] at hadd
          rw [Restarts, Empties, hadd, and_iff_right hopens, Truncates, hlog₁, honly.permits,
            Openable]
        refine (ends_create.and ends_create_cut).mono ?_ ?_
        · rintro _ _ ⟨-, htruncates⟩
          exact ⟨hreplaces, hrestarts.mpr htruncates⟩
        rintro e w' ⟨⟨he, honly', -⟩, ⟨htruncates, n, hn⟩ | ⟨hno, hkept⟩⟩
        · have hsnapshot' := (honly'.files _ hne.symm).trans hsnapshot
          exact .inr ⟨.inr he, .emptied n hreplaces hfull (hrestarts.mpr htruncates) hsnapshot' hn⟩
        · have hsnapshot' := (honly'.files _ hne.symm).trans hsnapshot
          refine .inr ⟨.inr he, .replaced hreplaces hfull ?_ hsnapshot' (hkept.trans hlog₁)⟩
          exact fun h => hno (hrestarts.mp h)
      · rintro e w₁ (⟨e', hnone, -, rfl⟩ | ⟨he, hno, honly⟩ |
          ⟨full, hfull, he, hreplaces, hno, hsnapshot, honly⟩)
        · refine .inr ⟨.inl rfl, hunchanged ?_⟩
          rintro ⟨_, _, hsome, -⟩
          rw [hnone] at hsome
          cases hsome
        · refine .inr ⟨.inr he, .kept hno ?_ ?_⟩
          · exact honly.files _ (tempPathOf_ne hname).symm
          · exact honly.files _ htemp.symm
        · refine .inr ⟨.inr he, .replaced hreplaces hfull (fun h => hno h.1) hsnapshot ?_⟩
          exact honly.files _ (by simp [hne, htemp.symm])

theorem ends_replay_missing {snapshot : Path} (hnone : w.files (walPath snapshot) = none) :
    Ends (replay b T snapshot) (x, w) (fun _ s => s = (x, w.next)) (fun _ s => s.2 = w.next) := by
  simp only [replay, readFile, ends_bind, ends_within, ends_onFailure, ends_map, ends_observe,
    hnone]
  cases w.verdict with
  | done => rfl
  | fails n => rfl
  | cut n => trivial

theorem ends_load_absent (hnone : w.files config.path = none) :
    Ends (load b T config) w (fun _ _ => False) (fun _ w' => w'.files = w.files) := by
  rw [load, ends_bind, ends_uninterrupted]
  cases validateConfig (ε := ε) b config with
  | error e => rfl
  | ok _ =>
    rw [ends_settle_ok, ends_bind]
    refine ends_ioAt_of ((ends_observe_next _).mono ?_ ?_)
    · rintro bytes _ ⟨hread, -⟩
      simp only [hnone] at hread
      cases hread
    · rintro _ _ rfl _ _
      rfl

theorem ends_load_missing {full : Bytes} (hwal : config.walEnabled = true)
    (hsnapshot : w.files config.path = some full)
    (hnone : w.files (walPath config.path) = none) :
    Ends (load b T config) w
      (fun this w' => decodeSnapshot b T full = .ok this.inner ∧ this.config = config ∧
        ∃ wal, this.wal = some wal ∧
          Opened config.path config.fsyncPolicy w (wal, w') walHeader)
      (fun _ w' => HeaderBegun config.path w w') := by
  rw [load, ends_bind, ends_uninterrupted]
  cases validateConfig (ε := ε) b config with
  | error e => exact .of_untouched (Untouched.refl w)
  | ok _ =>
    rw [ends_settle_ok, ends_bind]
    refine ends_ioAt_of ((ends_observe_next _).mono ?_ ?_)
    · rintro bytes _ ⟨hread, rfl⟩
      simp only [hsnapshot] at hread
      cases hread
      rw [ends_bind, ends_uninterrupted]
      cases hdecode : decodeSnapshot b T full with
      | error e => exact .of_untouched (Untouched.refl w).next
      | ok base =>
        rw [ends_settle_ok]
        simp only [hwal, if_true, ends_bind, ends_withLocal]
        refine (ends_replay_missing (w := w.next) hnone).mono ?_ ?_
        · rintro _ _ rfl
          have hnext : Only (· = walPath config.path) w w.next.next := (Only.refl _ w).next.next
          refine (ends_openForAppend_missing (w := w.next.next) hnone).mono ?_ ?_
          · rintro wal w' ⟨-, -, hopened⟩
            exact ⟨rfl, rfl, wal, rfl, hopened.filePath, hopened.path, hopened.policy,
              hopened.holds, hnext.trans hopened.only⟩
          · rintro e w' ⟨-, hlog, honly⟩
            exact ⟨hlog, hnext.trans honly⟩
        · rintro _ ⟨_, _⟩ rfl
          exact .of_untouched (Untouched.refl w).next.next
    · rintro _ _ rfl _ _
      exact .of_untouched (Untouched.refl w).next

end PersistedIndex

end IqdbPersist
