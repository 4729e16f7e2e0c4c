import IqdbPersist.RecoveryContract

/-!
# Loading again

Loading changes no log that exists and writes a header where there is none. A part of that header
reads like no log at all, so wherever loading is stopped, and however often it is repeated, the
files stand for the same index.
-/

namespace IqdbPersist

open CrashLogic FileSystem LogState

variable {ε M I : Type} {b : Build M} {T : IndexType ε M I}

/-- No operation fails, though the machine may stop. -/
def FaultFree (script : List Verdict) : Prop := ∀ n, Verdict.fails n ∉ script

theorem FaultFree.next {w : World Path} (h : FaultFree w.script) : FaultFree w.next.script :=
  fun n hn => h n (List.mem_of_mem_tail hn)

theorem FaultFree.verdict {w : World Path} (h : FaultFree w.script) :
    w.verdict = .done ∨ ∃ n, w.verdict = .cut n := by
  rw [World.verdict]
  cases hscript : w.script with
  | nil => exact .inl rfl
  | cons verdict script =>
    rw [FaultFree, hscript] at h
    cases verdict with
    | done => exact .inl rfl
    | cut n => exact .inr ⟨n, rfl⟩
    | fails n => exact absurd List.mem_cons_self (h n)

/-- The records of the log file, if there is one, lead from one index to another. -/
def Replays (b : Build M) (T : IndexType ε M I) : Option Bytes → I → I → Prop
  | none, base, x => x = base
  | some bytes, base, x => ∃ rs n, parseRecords b bytes = (.ok rs : Except (PersistError ε) _) ∧
      applyRecords T 0 rs base = .ok n x

theorem Replays.take_walHeader {base x : I} (h : Replays b T none base x) (n : ℕ) :
    Replays b T (some (walHeader.take n)) base x :=
  ⟨[], 0, parseRecords_take_walHeader b n, congrArg (EStateM.Result.ok 0) (Eq.symm h)⟩

theorem Replays.unique {log : Option Bytes} {base x y : I} (h : Replays b T log base x)
    (h' : Replays b T log base y) : x = y := by
  cases log with
  | none => exact Eq.trans h (Eq.symm h')
  | some bytes =>
    obtain ⟨rs, n, hparse, happly⟩ := h
    obtain ⟨rs', n', hparse', happly'⟩ := h'
    rw [hparse] at hparse'
    cases hparse'
    rw [happly] at happly'
    cases happly'
    rfl

section Programs

variable {w : World Path} {snapshot : Path} {policy : FsyncPolicy} {base : I}

theorem ends_replay_next : Ends (replay b T snapshot) (base, w) (fun _ s => s.2 = w.next)
    (fun _ s => s.2 = w.next) := by
  simp only [replay, readFile, ends_bind, ends_within, ends_onFailure, ends_map]
  refine ends_observe_of ?_ ?_ ?_
  · intro bytes _ _
    rw [ends_uninterrupted]
    cases parseRecords (ε := ε) b bytes with
    | error e => exact rfl
    | ok rs =>
      rw [ends_settle_ok, ends_uninterrupted, ends_within]
      unfold Ends
      cases applyRecords T 0 rs base <;> exact rfl
  · intro source _ _
    rw [Halt.elim_failed]
    split <;> exact rfl
  · rintro (source | _) _
    · rw [Halt.elim_failed]
      split <;> exact rfl
    · exact rfl

theorem ends_replay_calm (hcalm : w.Calm) : Ends (replay b T snapshot) (base, w)
    (fun _ s => Replays b T (w.files (walPath snapshot)) base s.1 ∧ s.2 = w.next)
    (fun _ _ => ∀ x, ¬ Replays b T (w.files (walPath snapshot)) base x) := by
  simp only [replay, readFile, ends_bind, ends_within, ends_onFailure, ends_map, ends_observe,
    hcalm.verdict]
  cases hlog : w.files (walPath snapshot) with
  | none => exact ⟨rfl, rfl⟩
  | some bytes =>
    dsimp only
    rw [ends_uninterrupted]
    cases hparse : parseRecords (ε := ε) b bytes with
    | error e =>
      rintro x ⟨rs, n, hparse', -⟩
      rw [hparse] at hparse'
      cases hparse'
    | ok rs =>
      rw [ends_settle_ok, ends_uninterrupted, ends_within]
      unfold Ends
      cases happly : applyRecords T 0 rs base with
      | ok n x => exact ⟨⟨rs, n, hparse, happly⟩, rfl⟩
      | error e x =>
        rintro y ⟨rs', n, hparse', happly'⟩
        rw [hparse] at hparse'
        cases hparse'
        rw [happly] at happly'
        cases happly'

/-- The log exists, or can be created. -/
def Openable (snapshot : Path) (w : World Path) : Prop :=
  w.files (walPath snapshot) ≠ none ∨ w.permits (walPath snapshot) = true

/-- A log that did not exist holds its header, and nothing else has changed. -/
structure HeaderWritten (snapshot : Path) (w w' : World Path) : Prop where
  log : w'.files (walPath snapshot) = some ((w.files (walPath snapshot)).getD walHeader)
  only : Only (· = walPath snapshot) w w'

theorem Opened.headerWritten {policy : FsyncPolicy} {s : LogState}
    (h : Opened snapshot policy w s ((w.files (walPath snapshot)).getD walHeader)) :
    HeaderWritten snapshot w s.2 :=
  ⟨by rw [← h.holds.holds, h.filePath], h.only⟩

/-- A log that did not exist may hold a part of its header, and nothing else has changed. -/
structure HeaderBegun (snapshot : Path) (w w' : World Path) : Prop where
  log : w'.files (walPath snapshot) = w.files (walPath snapshot) ∨
    w.files (walPath snapshot) = none ∧
      ∃ n, w'.files (walPath snapshot) = some (walHeader.take n)
  only : Only (· = walPath snapshot) w w'

theorem HeaderBegun.of_untouched {w' : World Path} (h : Untouched w w') :
    HeaderBegun snapshot w w' :=
  ⟨.inl ((h.only fun _ => False).files _ id), h.only _⟩

theorem ends_existsPath_missing {path : Path} (hnone : w.files path = none) :
    Ends (existsPath path) w (fun existed w' => existed = false ∧ w' = w.next)
      (fun _ w' => completes w.script 1 = false ∧ w' = w.next) := by
  rw [existsPath, ends_onFailure, ends_observe, hnone]
  cases hv : w.verdict with
  | done => exact ⟨rfl, rfl⟩
  | fails n => exact ⟨rfl, rfl⟩
  | cut n => exact ⟨completes_of_ne_done (by simp [hv]) 0, rfl⟩

theorem ends_existsPath_existing (hfree : FaultFree w.script) {path : Path} {content : Bytes}
    (hcontent : w.files path = some content) :
    Ends (existsPath path) w (fun existed w' => existed = true ∧ w' = w.next)
      (fun _ w' => w' = w.next) := by
  rw [existsPath, ends_onFailure, ends_observe, hcontent]
  obtain hv | ⟨n, hv⟩ := hfree.verdict
  · rw [hv]
    exact ⟨rfl, rfl⟩
  · rw [hv]
    exact rfl

theorem ends_openOrCreate_missing {path : Path} (hnone : w.files path = none) :
    Ends (openOrCreate path) w
      (fun file w' => file = ⟨path, 0⟩ ∧ w.permits path = true ∧ w'.files path = some [] ∧
        w'.script = w.script.drop 1 ∧ Only (· = path) w w')
      (fun _ w' => ¬ (w.permits path = true ∧ completes w.script 1 = true) ∧
        (w'.files path = none ∨ w'.files path = some []) ∧ Only (· = path) w w') := by
  have helsewhere : ∀ p, ¬ p = path → (Event.create path).apply w.files p = w.files p :=
    fun _ hp => Function.update_of_ne hp _ _
  have hcreated : (w.next.emit (.create path)).files path = some [] := by
    rw [World.files_emit, Event.apply, Function.update_self]
  rw [openOrCreate, ends_bind, ends_get, hnone, if_neg (by simp), create, ends_bind, ends_get]
  by_cases hpermits : w.permits path = true
  · rw [if_pos hpermits, ends_bind]
    refine ends_atomically_of ?_ ?_
    · exact fun _ =>
        ⟨rfl, hpermits, hcreated, List.drop_one.symm, (Only.refl _ w).next.emit helsewhere⟩
    · refine fun _ hstop => ⟨by simp [hstop], ?_, Only.atomically helsewhere⟩
      split
      · exact .inr hcreated
      · exact .inl hnone
  · rw [if_neg hpermits]
    exact ⟨fun h => hpermits h.1, .inl hnone, Only.refl _ w⟩

theorem ends_seekEnd_empty {path : Path} (hempty : w.files path = some []) :
    Ends (withLocal ⟨path, 0⟩ (do let _end ← File.seekEnd)) w
      (fun file w' => file = ⟨path, 0⟩ ∧ w' = w.next)
      (fun _ w' => completes w.script 1 = false ∧ w' = w.next) := by
  rw [ends_withLocal, File.seekEnd]
  simp only [ends_bind, ends_get, ends_beside]
  refine ends_observe_of ?_ ?_ ?_
  · rintro len - hlen
    rw [hempty] at hlen
    cases hlen
    exact ⟨rfl, rfl⟩
  · rintro _ - ⟨⟩
  · exact fun _ hstop => ⟨hstop, rfl⟩

theorem ends_openForAppend_missing (hnone : w.files (walPath snapshot) = none) :
    Ends (Wal.openForAppend snapshot policy) w
      (fun wal w' => w.permits (walPath snapshot) = true ∧ w'.script = w.script.drop 5 ∧
        Opened snapshot policy w (wal, w') walHeader)
      (fun (_ : Halt (PersistError ε)) w' =>
        ¬ (w.permits (walPath snapshot) = true ∧ completes w.script 5 = true) ∧
          HeaderBegun snapshot w w') := by
  have hnext : w.next.script = w.script.drop 1 := List.drop_one.symm
  have hstart : Only (· = walPath snapshot) w w.next := (Only.refl _ w).next
  have hstopped {m n : ℕ} (h : completes (w.script.drop m) n = false) (hm : m + n ≤ 5) :
      ¬ (w.permits (walPath snapshot) = true ∧ completes w.script 5 = true) := by
    simp [completes_eq_false_of_drop h hm]
  rw [Wal.openForAppend, ends_bind]
  refine ends_ioAt_of ((ends_existsPath_missing hnone).mono ?_ ?_)
  · rintro _ _ ⟨rfl, rfl⟩
    rw [ends_bind]
    refine ends_ioAt_of ((ends_openOrCreate_missing (w := w.next) hnone).mono ?_ ?_)
    · rintro _ w₁ ⟨rfl, hpermits, hempty, hscript₁, honly₁⟩
      rw [hnext, List.drop_drop] at hscript₁
      rw [ends_bind]
      refine ends_ioAt_of ((ends_seekEnd_empty hempty).mono ?_ ?_)
      · rintro _ _ ⟨rfl, rfl⟩
        have hscript₂ : w₁.next.script = w.script.drop 3 := by
          rw [World.script_next, hscript₁, List.tail_drop]
        rw [ends_withLocal, if_neg (by simp)]
        have hat : LogState.At
            (⟨⟨walPath snapshot, 0⟩, walPath snapshot, policy, none, []⟩, w₁.next) [] :=
          ⟨hempty, rfl⟩
        refine (ends_writeHeader_syncNow hat).mono ?_ ?_
        · rintro _ s ⟨hfollows, hheader, -, hscript⟩
          refine ⟨hpermits, ?_, ⟨hfollows.filePath, hfollows.path, hfollows.policy, hheader,
            hstart.trans (honly₁.next.trans hfollows.only)⟩⟩
          rw [hscript, hscript₂, List.drop_drop]
        · rintro e s ⟨-, hfollows, hstop, n, hholds⟩
          rw [hscript₂] at hstop
          refine ⟨hstopped hstop (by omega), .inr ⟨hnone, n, ?_⟩,
            hstart.trans (honly₁.next.trans hfollows.only)⟩
          rw [← hholds, hfollows.filePath]
      · rintro _ _ ⟨hstop, rfl⟩ _ _
        rw [hscript₁] at hstop
        exact ⟨hstopped hstop (by omega), .inr ⟨hnone, 0, hempty⟩, hstart.trans honly₁.next⟩
    · rintro _ w₁ ⟨hnot, hlog, honly₁⟩ _ _
      refine ⟨?_, ?_, hstart.trans honly₁⟩
      · rintro ⟨hpermits, hcompletes⟩
        refine hnot ⟨hpermits, ?_⟩
        by_contra hstop
        rw [Bool.not_eq_true, hnext] at hstop
        exact hstopped hstop (by omega) ⟨hpermits, hcompletes⟩
      · rw [hnone]
        exact hlog.imp id fun hempty => ⟨rfl, 0, hempty⟩
  · rintro _ _ ⟨hstop, rfl⟩ _ _
    exact ⟨hstopped (m := 0) hstop (by omega), .inl rfl, hstart⟩

theorem ends_openForAppend_calm (hcalm : w.Calm) : Ends (Wal.openForAppend snapshot policy) w
    (fun wal w' => Openable snapshot w ∧ w'.Calm ∧
      Opened snapshot policy w (wal, w') ((w.files (walPath snapshot)).getD walHeader))
    (fun (_ : Halt (PersistError ε)) _ => ¬ Openable snapshot w) := by
  cases hlog : w.files (walPath snapshot) with
  | some content =>
    refine (ends_openForAppend hcalm hlog).mono ?_ fun _ _ h => h.elim
    rintro wal w' ⟨hopened, -, hcalm'⟩
    exact ⟨.inl (by simp [hlog]), hcalm', hopened⟩
  | none =>
    refine (ends_openForAppend_missing hlog).mono ?_ ?_
    · rintro _ w' ⟨hpermits, hscript', hopened⟩
      exact ⟨.inr hpermits, hcalm.drop hscript', hopened⟩
    · rintro e w' ⟨hnot, -⟩ (hsome | hpermits)
      · exact hsome hlog
      · exact hnot ⟨hpermits, hcalm.completes 5⟩

theorem ends_observe_next {α : Type} (look : World Path → Except IoError α) :
    Ends (observe look) w (fun a w' => look w = .ok a ∧ w' = w.next) (fun _ w' => w' = w.next) :=
  ends_observe_of (fun _ _ hlook => ⟨hlook, rfl⟩) (fun _ _ _ => rfl) fun _ _ => rfl

/-- Where nothing fails, opening a log that exists does nothing to the files, also when the machine
stops. -/
theorem ends_openForAppend_existing (hfree : FaultFree w.script) {content : Bytes}
    (hlog : w.files (walPath snapshot) = some content) :
    Ends (Wal.openForAppend snapshot policy) w (fun wal w' => wal.policy = policy ∧ Untouched w w')
      (fun (_ : Halt (PersistError ε)) w' => Untouched w w') := by
  have hnext : Untouched w w.next := (Untouched.refl w).next
  rw [Wal.openForAppend, ends_bind]
  refine ends_ioAt_of ((ends_existsPath_existing hfree hlog).mono ?_ ?_)
  · rintro _ _ ⟨rfl, rfl⟩
    rw [ends_bind]
    refine ends_ioAt_of ?_
    rw [openOrCreate, ends_bind, ends_get, World.files_next, hlog, if_pos (by simp)]
    refine (ends_observe_next _).mono ?_ ?_
    · rintro file _ ⟨-, rfl⟩
      rw [ends_bind]
      refine ends_ioAt_of ?_
      rw [ends_withLocal, File.seekEnd]
      simp only [ends_bind, ends_get, ends_beside]
      refine (ends_observe_next _).mono ?_ ?_
      · rintro len _ ⟨-, rfl⟩
        exact ⟨rfl, hnext.next.next⟩
      · rintro _ _ rfl _ _
        exact hnext.next.next
    · rintro _ _ rfl _ _
      exact hnext.next
  · rintro _ _ rfl _ _
    exact hnext

/-- Where nothing fails, opening the log begins a header at most, and only where there was no log;
this also when the machine stops. -/
theorem ends_openForAppend_begun (hfree : FaultFree w.script) :
    Ends (Wal.openForAppend snapshot policy) w (fun _ _ => True)
      (fun (_ : Halt (PersistError ε)) w' => HeaderBegun snapshot w w') := by
  cases hlog : w.files (walPath snapshot) with
  | none => exact (ends_openForAppend_missing hlog).mono (fun _ _ _ => trivial) fun _ _ h => h.2
  | some content =>
    exact (ends_openForAppend_existing hfree hlog).mono (fun _ _ _ => trivial)
      fun _ _ h => .of_untouched h

end Programs

namespace PersistedIndex

variable {config : PersistConfig} {w w' : World Path} {x y : I}

/-- Loading these files gives the index `x`. -/
structure Loads (b : Build M) (T : IndexType ε M I) (config : PersistConfig) (w : World Path)
    (x : I) : Prop where
  valid : validateConfig b config = (.ok () : Except (PersistError ε) Unit)
  replays : ∃ snapshot base, w.files config.path = some snapshot ∧
    decodeSnapshot b T snapshot = .ok base ∧
    Replays b T (w.files (walPath config.path)) base x
  openable : Openable config.path w

theorem Loads.unique (h : Loads b T config w x) (h' : Loads b T config w y) : x = y := by
  obtain ⟨snapshot, base, hsnapshot, hdecode, hreplays⟩ := h.replays
  obtain ⟨snapshot', base', hsnapshot', hdecode', hreplays'⟩ := h'.replays
  rw [hsnapshot] at hsnapshot'
  cases hsnapshot'
  rw [hdecode] at hdecode'
  cases hdecode'
  exact hreplays.unique hreplays'

theorem Loads.congr (h : Loads b T config w x) (hfiles : w'.files = w.files)
    (hpermits : w'.permits = w.permits) : Loads b T config w' x where
  valid := h.valid
  replays := by
    rw [hfiles]
    exact h.replays
  openable := by
    rw [Openable, hfiles, hpermits]
    exact h.openable

/-- Where nothing goes wrong, loading succeeds exactly when the files stand for an index, and
changes nothing but a log that did not exist. -/
theorem ends_load_calm (hcalm : w.Calm) (hwal : config.walEnabled = true) :
    Ends (load b T config) w
      (fun this w' => Loads b T config w this.inner ∧ w'.Calm ∧ this.config = config ∧
        ∃ wal, this.wal = some wal ∧ Opened config.path config.fsyncPolicy w (wal, w')
          ((w.files (walPath config.path)).getD walHeader))
      (fun _ _ => ∀ x, ¬ Loads b T config w x) := by
  rw [load, ends_bind, ends_uninterrupted]
  cases hvalid : validateConfig (ε := ε) b config with
  | error e =>
    rintro x ⟨hvalid', -, -⟩
    rw [hvalid] at hvalid'
    cases hvalid'
  | ok _ =>
    simp only [hwal, if_true, ends_bind, ends_uninterrupted, ends_settle_ok, ends_ioAt, readFile,
      ends_observe, hcalm.verdict]
    cases hsnapshot : w.files config.path with
    | none =>
      rintro x ⟨-, ⟨snapshot, base, hsnapshot', -⟩, -⟩
      rw [hsnapshot] at hsnapshot'
      cases hsnapshot'
    | some snapshot =>
      dsimp only
      cases hdecode : decodeSnapshot b T snapshot with
      | error e =>
        rintro x ⟨-, ⟨snapshot', base, hsnapshot', hdecode', -⟩, -⟩
        rw [hsnapshot] at hsnapshot'
        cases hsnapshot'
        rw [hdecode] at hdecode'
        cases hdecode'
      | ok base =>
        have hloads (x : I) : Loads b T config w x ↔
            Replays b T (w.files (walPath config.path)) base x ∧ Openable config.path w := by
          constructor
          · rintro ⟨-, ⟨snapshot', base', hsnapshot', hdecode', hreplays⟩, hopenable⟩
            rw [hsnapshot] at hsnapshot'
            cases hsnapshot'
            rw [hdecode] at hdecode'
            cases hdecode'
            exact ⟨hreplays, hopenable⟩
          · exact fun h => ⟨hvalid, ⟨snapshot, base, hsnapshot, hdecode, h.1⟩, h.2⟩
        rw [ends_settle_ok, ends_withLocal, ends_bind]
        refine (ends_replay_calm hcalm.next).mono ?_ ?_
        · rintro _ ⟨x, _⟩ ⟨hreplays, rfl⟩
          rw [ends_pure]
          refine (ends_openForAppend_calm hcalm.next.next).mono ?_ ?_
          · rintro wal w₂ ⟨hopenable, hcalm₂, hopened⟩
            have honly : Only (· = walPath config.path) w w.next.next := (Only.refl _ w).next.next
            exact ⟨(hloads x).mpr ⟨hreplays, hopenable⟩, hcalm₂, rfl, wal, rfl, hopened.filePath,
              hopened.path, hopened.policy, hopened.holds, honly.trans hopened.only⟩
          · exact fun _ _ hnot y hy => hnot ((hloads y).mp hy).2
        · exact fun _ _ hnone y hy => hnone y ((hloads y).mp hy).1

theorem recovers_iff_loads (hwal : config.walEnabled = true) :
    Recovers b T config w x ↔ Loads b T config w x := by
  have hload := ends_load_calm (b := b) (T := T) (w := w.withScript []) rfl hwal
  constructor
  · rintro ⟨this, w', hcall, rfl⟩
    exact (ends_of_ok hload hcall).1.congr rfl rfl
  · intro h
    have h' : Loads b T config (w.withScript []) x := h.congr rfl rfl
    unfold Ends at hload
    split at hload
    · exact ⟨_, _, ‹_›, hload.1.unique h'⟩
    · exact absurd h' (hload x)

theorem ends_load_opening (hwal : config.walEnabled = true)
    {Q : PersistedIndex I → World Path → Prop} {E : Halt (PersistError ε) → World Path → Prop}
    (hread : ∀ e w', Untouched w w' → E e w')
    (hopen : ∀ x, Ends (Wal.openForAppend config.path config.fsyncPolicy) w.next.next
      (fun wal w' => Q ⟨x, config, some wal⟩ w') E) :
    Ends (load b T config) w Q E := by
  have hnext : Untouched w w.next := (Untouched.refl w).next
  rw [load, ends_bind, ends_uninterrupted]
  cases validateConfig (ε := ε) b config with
  | error e => exact hread _ _ (Untouched.refl w)
  | ok _ =>
    rw [ends_settle_ok, ends_bind]
    refine ends_ioAt_of ((ends_observe_next _).mono ?_ ?_)
    · rintro bytes _ ⟨-, rfl⟩
      rw [ends_bind, ends_uninterrupted]
      cases decodeSnapshot b T bytes with
      | error e => exact hread _ _ hnext
      | ok base =>
        rw [ends_settle_ok]
        simp only [hwal, if_true, ends_bind, ends_withLocal]
        refine ends_replay_next.mono ?_ ?_
        · rintro _ ⟨x, _⟩ rfl
          exact hopen x
        · rintro e ⟨x, _⟩ rfl
          exact hread _ _ hnext.next
    · rintro _ _ rfl e _
      exact hread e _ hnext

theorem ends_load_begun (hfree : FaultFree w.script) (hwal : config.walEnabled = true) :
    Ends (load b T config) w (fun _ _ => True) (fun _ w' => HeaderBegun config.path w w') := by
  refine ends_load_opening hwal (fun _ _ h => .of_untouched h) fun x => ?_
  refine (ends_openForAppend_begun hfree.next.next).mono (fun _ _ _ => trivial) ?_
  exact fun e w' h => ⟨h.log, (Only.refl _ w).next.next.trans h.only⟩

/-- Where nothing fails, loading beside a log that exists does nothing to the files, also when the
machine stops. -/
theorem ends_load_existing (hfree : FaultFree w.script) (hwal : config.walEnabled = true)
    {content : Bytes} (hlog : w.files (walPath config.path) = some content) :
    Ends (load b T config) w
      (fun this w' => (∃ wal, this.wal = some wal ∧ wal.policy = config.fsyncPolicy) ∧
        Untouched w w')
      (fun _ w' => Untouched w w') := by
  have hnext : Untouched w w.next.next := (Untouched.refl w).next.next
  refine ends_load_opening hwal (fun _ _ h => h) fun x => ?_
  refine (ends_openForAppend_existing hfree.next.next (w := w.next.next) hlog).mono ?_ ?_
  · exact fun wal w' h => ⟨⟨wal, rfl, h.1⟩, hnext.trans h.2⟩
  · exact fun _ w' h => hnext.trans h

/-- Loading again gives the same index and changes nothing, and so does loading after a first load
that was stopped. -/
theorem load_again (hcalm : w.Calm) (hwal : config.walEnabled = true) {this : PersistedIndex I}
    {w₁ : World Path} (hload : load b T config w = .ok this w₁) :
    w₁.files config.path = w.files config.path ∧
      (∃ this₂ w₂, load b T config w₁ = .ok this₂ w₂ ∧ this₂.inner = this.inner ∧
        w₂.files = w₁.files) ∧
      ∀ script w', FaultFree script → load b T config (w.withScript script) = .error .crashed w' →
        Recovers b T config w' this.inner := by
  obtain ⟨hloads, hcalm₁, -, wal, -, hopened⟩ := ends_of_ok (ends_load_calm hcalm hwal) hload
  obtain ⟨hlog, honly⟩ := hopened.headerWritten
  have hne : config.path ≠ walPath config.path := (walPath_ne config.path).symm
  have hsnapshot : w₁.files config.path = w.files config.path := honly.files _ hne
  obtain ⟨snapshot, base, hfile, hdecode, hreplays⟩ := hloads.replays
  refine ⟨hsnapshot, ?_, ?_⟩
  · have hreplays₁ : Replays b T (w₁.files (walPath config.path)) base this.inner := by
      rw [hlog]
      cases hbefore : w.files (walPath config.path) with
      | some bytes =>
        rw [hbefore] at hreplays
        exact hreplays
      | none =>
        rw [hbefore] at hreplays
        exact hreplays.take_walHeader 12
    have hloads₁ : Loads b T config w₁ this.inner := by
      refine ⟨hloads.valid, ⟨snapshot, base, hsnapshot.trans hfile, hdecode, hreplays₁⟩, .inl ?_⟩
      simp [hlog]
    have hagain := ends_load_calm (b := b) (T := T) hcalm₁ hwal
    unfold Ends at hagain
    split at hagain
    · rename_i this₂ w₂ hcall
      obtain ⟨hloads₂, -, -, wal₂, -, hopened₂⟩ := hagain
      refine ⟨this₂, w₂, hcall, hloads₂.unique hloads₁, ?_⟩
      funext p
      by_cases hp : p = walPath config.path
      · rw [hp, hopened₂.headerWritten.log, hlog, Option.getD_some]
      · exact hopened₂.only.files p hp
    · exact absurd hloads₁ (hagain _)
  · intro script w' hfree hcut
    obtain ⟨hlog', honly'⟩ := ends_of_error (ends_load_begun hfree hwal) hcut
    rw [recovers_iff_loads hwal]
    refine ⟨hloads.valid, ⟨snapshot, base, (honly'.files _ hne).trans hfile, hdecode, ?_⟩, ?_⟩
    · obtain hsame | ⟨hnone, n, hbegun⟩ := hlog'
      · rw [hsame]
        exact hreplays
      · rw [World.files_withScript] at hnone
        rw [hnone] at hreplays
        rw [hbegun]
        exact hreplays.take_walHeader n
    · rw [Openable, honly'.permits]
      refine hloads.openable.imp (fun hsome hnone => hsome ?_) id
      obtain hsame | ⟨hnone', -⟩ := hlog'
      · exact hsame.symm.trans hnone
      · exact hnone'

theorem exists_missingLog : ∃ w this w₁, w.Calm ∧ w.files (walPath sampleConfig.path) = none ∧
    load defaultBuild idIndex sampleConfig w = .ok this w₁ ∧ this.inner = [7] := by
  obtain ⟨snapshot, hfull⟩ : ∃ snapshot,
      snapshotBytes defaultBuild idIndex [7] sampleConfig = .ok snapshot := ⟨_, rfl⟩
  have hdecode := decodeSnapshot_of_inverts idIndex_contract (sampleConfig_inverts [7]) hfull
  let w : World Path :=
    { emptyWorld with base := fun path => if path = sampleConfig.path then some snapshot else none }
  have hloads : Loads defaultBuild idIndex sampleConfig w [7] :=
    ⟨rfl, ⟨snapshot, [7], rfl, hdecode, rfl⟩, .inr rfl⟩
  obtain ⟨this, w₁, hload, hinner⟩ := (recovers_iff_loads rfl).mpr hloads
  exact ⟨w, this, w₁, rfl, rfl, hload, hinner⟩

theorem load_again_missingLog : ∃ w this w₁, w.files (walPath sampleConfig.path) = none ∧
    load defaultBuild idIndex sampleConfig w = .ok this w₁ ∧
    ∃ this₂ w₂, load defaultBuild idIndex sampleConfig w₁ = .ok this₂ w₂ ∧
      this₂.inner = this.inner ∧ w₂.files = w₁.files := by
  obtain ⟨w, this, w₁, hcalm, hnone, hload, -⟩ := exists_missingLog
  exact ⟨w, this, w₁, hnone, hload, (load_again hcalm rfl hload).2.1⟩

end PersistedIndex

end IqdbPersist
