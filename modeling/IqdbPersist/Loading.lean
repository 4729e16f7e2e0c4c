import IqdbPersist.Checkpoint

/-!
# Opening and loading

Opening in log mode leaves a snapshot of the given index and an empty log beside it. In a world
where nothing goes wrong, loading in log mode succeeds exactly when the snapshot decodes, the log
parses and the index accepts its records in order; the result is the index replayed, and the files
stay as they are.
-/

namespace IqdbPersist

open CrashLogic FileSystem LogState

variable {ε M I : Type} {b : Build M} {T : IndexType ε M I}

namespace PersistedIndex

variable {config : PersistConfig} {w : World Path} {snapshot log : Bytes}

theorem ends_openWith {x : I} (hwal : config.walEnabled = true) :
    Ends (openWith b T x config) w
      (fun this w' => this.inner = x ∧ this.config = config ∧
        validateConfig b config = (.ok () : Except (PersistError ε) Unit) ∧
        w'.script = w.script.drop (writeOps b.unix config.fsyncPolicy + 3) ∧
        ∃ name full wal, config.path.fileName = some name ∧
          snapshotBytes b T x config = .ok full ∧ w'.files config.path = some full ∧
          this.wal = some wal ∧ wal.file.path = walPath config.path ∧
          LogState.At (wal, w') walHeader ∧
          Only (fun p => p = config.path ∨ p = walPath config.path) w w')
      (fun _ _ => True) := by
  rw [openWith, ends_bind, ends_uninterrupted]
  cases hvalid : validateConfig (ε := ε) b config with
  | error e => trivial
  | ok _ =>
    simp only [ends_settle_ok, hwal, if_true, ends_bind]
    cases hname : config.path.fileName with
    | none =>
      exact (ends_writeSnapshot_unnamed hname).mono (fun _ _ h => h.elim) fun _ _ _ => trivial
    | some name =>
      refine (ends_writeSnapshot hname).mono ?_ fun _ _ _ => trivial
      rintro _ w₁ ⟨full, hfull, -, -, -, hscript₁, hsnapshot, honly⟩
      refine ends_create.mono ?_ fun _ _ _ => trivial
      rintro wal w₂ ⟨hopened, hscript₂⟩
      refine ⟨rfl, rfl, trivial, ?_, name, full, wal, rfl, hfull, ?_, rfl, hopened.filePath,
        hopened.holds, (honly.mono fun _ => .inl).trans (hopened.only.mono fun _ => .inr)⟩
      · rw [hscript₂, hscript₁, List.drop_drop]
      · rw [hopened.only.files _ (walPath_ne _).symm, hsnapshot]

/-- The index that a snapshot and a log stand for. -/
def Stands (b : Build M) (T : IndexType ε M I) (snapshot log : Bytes) (x : I) : Prop :=
  ∃ base rs, decodeSnapshot b T snapshot = .ok base ∧
    parseRecords b log = (.ok rs : Except (PersistError ε) _) ∧
    Journal.replay T.change rs base = some x

theorem ends_load (hcalm : w.Calm) (hwal : config.walEnabled = true)
    (hsnapshot : w.files config.path = some snapshot)
    (hlog : w.files (walPath config.path) = some log) :
    Ends (load b T config) w
      (fun this w' => validateConfig b config = (.ok () : Except (PersistError ε) Unit) ∧
        Stands b T snapshot log this.inner ∧ this.config = config ∧ w'.Calm ∧
        w'.files = w.files ∧ ∃ wal, this.wal = some wal ∧ wal.file.path = walPath config.path ∧
          LogState.At (wal, w') log)
      (fun _ _ => validateConfig b config = (.ok () : Except (PersistError ε) Unit) →
        T.ChecksDim → ∀ x, ¬ Stands b T snapshot log x) := by
  rw [load, ends_bind, ends_uninterrupted]
  cases hvalid : validateConfig (ε := ε) b config with
  | error e => exact fun h => nomatch h
  | ok _ =>
    simp only [hwal, if_true, ends_bind, ends_uninterrupted, ends_settle_ok, ends_ioAt, readFile,
      ends_observe, hcalm.verdict, hsnapshot]
    cases hdecode : decodeSnapshot b T snapshot with
    | error e =>
      rintro - - x ⟨base, rs, hbase, -⟩
      rw [hdecode] at hbase
      cases hbase
    | ok base =>
      rw [ends_settle_ok, ends_withLocal, ends_bind]
      refine (ends_replay hcalm.next (hlog : w.next.files _ = _)).mono ?_ ?_
      · rintro _ ⟨x, w₁⟩ ⟨rfl, rs, hparse, hreplay⟩
        rw [ends_pure]
        refine (ends_openForAppend hcalm.next.next (hlog : w.next.next.files _ = _)).mono ?_ ?_
        · rintro wal w₂ ⟨hopened, hfiles, hcalm₂⟩
          exact ⟨trivial, ⟨base, rs, hdecode, hparse, hreplay⟩, rfl, hcalm₂, hfiles, wal, rfl,
            hopened.filePath, hopened.holds⟩
        · exact fun _ _ h => h.elim
      · rintro _ _ hnone - hdim x ⟨base', rs, hbase, hparse, hreplay⟩
        rw [hdecode] at hbase
        cases hbase
        rw [hnone hdim rs hparse] at hreplay
        cases hreplay

/-- A snapshot and a log stand for the base with the records of the log replayed. -/
theorem stands_iff {base : I} {rs : List (WalRecord M)}
    (hbase : decodeSnapshot b T snapshot = .ok base)
    (hparse : parseRecords b log = (.ok rs : Except (PersistError ε) _)) (x : I) :
    Stands b T snapshot log x ↔ Journal.replay T.change rs base = some x := by
  constructor
  · rintro ⟨base', rs', hbase', hparse', hreplay⟩
    rw [hbase] at hbase'
    rw [hparse] at hparse'
    cases hbase'
    cases hparse'
    exact hreplay
  · exact fun hreplay => ⟨base, rs, hbase, hparse, hreplay⟩

theorem Stands.unique {x y : I} (h : Stands b T snapshot log x) (h' : Stands b T snapshot log y) :
    x = y := by
  obtain ⟨base, rs, hbase, hparse, hreplay⟩ := h
  rw [stands_iff hbase hparse, hreplay] at h'
  exact Option.some.inj h'

theorem exists_load (hdim : T.ChecksDim) (hcalm : w.Calm)
    (hvalid : validateConfig b config = (.ok () : Except (PersistError ε) Unit))
    (hwal : config.walEnabled = true) (hsnapshot : w.files config.path = some snapshot)
    (hlog : w.files (walPath config.path) = some log) {x : I} (h : Stands b T snapshot log x) :
    ∃ this w', load b T config w = .ok this w' ∧ this.inner = x := by
  have hload := ends_load (b := b) (T := T) hcalm hwal hsnapshot hlog
  unfold Ends at hload
  split at hload
  · exact ⟨_, _, ‹_›, hload.2.1.unique h⟩
  · exact absurd h (hload hvalid hdim x)

/-- Recovery is what the files stand for. -/
theorem recovers_iff (hdim : T.ChecksDim)
    (hvalid : validateConfig b config = (.ok () : Except (PersistError ε) Unit))
    (hwal : config.walEnabled = true) (hsnapshot : w.files config.path = some snapshot)
    (hlog : w.files (walPath config.path) = some log) (x : I) :
    Recovers b T config w x ↔ Stands b T snapshot log x := by
  refine ⟨?_, exists_load (w := w.withScript []) hdim rfl hvalid hwal hsnapshot hlog⟩
  rintro ⟨this, w', hload, rfl⟩
  exact (ends_of_ok (ends_load (w := w.withScript []) rfl hwal hsnapshot hlog) hload).2.1

end PersistedIndex

end IqdbPersist
