import IqdbPersist.RecoveryContract

/-!
# The snapshot round trip

What `write_snapshot` leaves on disk loads as the index it was made of, under any configuration for
the same path that the build accepts: the file says itself how it is compressed.
-/

namespace IqdbPersist

open CrashLogic FileSystem

variable {ε M I : Type} {b : Build M} {T : IndexType ε M I}

/-- A configuration under which a snapshot is written is one under which it can be loaded. -/
theorem validateConfig_of_snapshotBytes {x : I} {config : PersistConfig} {full : Bytes}
    (h : snapshotBytes b T x config = .ok full) :
    validateConfig b config = (.ok () : Except (PersistError ε) Unit) := by
  obtain ⟨raw, data, -, -, hdata, -⟩ := snapshotBytes_eq_ok h
  cases hscheme : config.compression with
  | none => simp [validateConfig, hscheme]
  | zstd level =>
    rw [hscheme] at hdata
    obtain ⟨codec, hcodec, -⟩ := zstd_of_encode hdata
    simp [validateConfig, hscheme, hcodec]
  | lz4 =>
    rw [hscheme] at hdata
    obtain ⟨codec, hcodec, -⟩ := lz4_of_encode hdata
    simp [validateConfig, hscheme, hcodec]

namespace PersistedIndex

variable {this : PersistedIndex I} {config : PersistConfig} {w w' : World Path}

theorem snapshotBytes_of_writeSnapshot (h : writeSnapshot b T this w = .ok () w') :
    ∃ full, snapshotBytes b T this.inner this.config = .ok full ∧
      w'.files this.config.path = some full := by
  cases hname : this.config.path.fileName with
  | none => exact (ends_of_ok (ends_writeSnapshot_unnamed hname) h).elim
  | some name =>
    obtain ⟨full, hfull, -, -, -, -, hfile, -⟩ := ends_of_ok (ends_writeSnapshot hname) h
    exact ⟨full, hfull, hfile⟩

theorem ends_load_snapshot (hcalm : w.Calm) (hwal : config.walEnabled = false) {bytes : Bytes}
    (hbytes : w.files config.path = some bytes) :
    Ends (load b T config) w
      (fun this' _ => validateConfig b config = (.ok () : Except (PersistError ε) Unit) ∧
        ∃ x, decodeSnapshot b T bytes = .ok x ∧ this' = { inner := x, config, wal := none })
      (fun e _ => (∃ e', e = .failed e') ∧
        (validateConfig b config = (.ok () : Except (PersistError ε) Unit) →
          ∀ x, decodeSnapshot b T bytes ≠ .ok x)) := by
  rw [load, ends_bind, ends_uninterrupted]
  cases hvalid : validateConfig (ε := ε) b config with
  | error e =>
    refine ⟨⟨e, rfl⟩, ?_⟩
    intro h
    cases h
  | ok _ =>
    simp only [hwal, Bool.false_eq_true, if_false, ends_bind, ends_uninterrupted, ends_settle_ok,
      ends_ioAt, readFile, ends_observe, hcalm.verdict, hbytes]
    cases hdecode : decodeSnapshot b T bytes with
    | error e =>
      refine ⟨⟨e, rfl⟩, ?_⟩
      rintro - x ⟨⟩
    | ok x => exact ⟨trivial, x, rfl, rfl⟩

theorem exists_load_snapshot {bytes : Bytes} {x : I} (hcalm : w.Calm)
    (hvalid : validateConfig b config = (.ok () : Except (PersistError ε) Unit))
    (hwal : config.walEnabled = false) (hbytes : w.files config.path = some bytes)
    (hdecode : decodeSnapshot b T bytes = .ok x) :
    ∃ w', load b T config w = .ok ⟨x, config, none⟩ w' := by
  have hload := ends_load_snapshot (b := b) (T := T) hcalm hwal hbytes
  unfold Ends at hload
  split at hload
  · rename_i this' w' heq
    obtain ⟨-, x', hx', rfl⟩ := hload
    rw [hdecode] at hx'
    cases hx'
    exact ⟨w', heq⟩
  · exact absurd hdecode (hload.2 hvalid x)

theorem recovers_iff_decodes (hwal : config.walEnabled = false) {bytes : Bytes}
    (hbytes : w.files config.path = some bytes) (x : I) :
    Recovers b T config w x ↔
      validateConfig b config = (.ok () : Except (PersistError ε) Unit) ∧
        decodeSnapshot b T bytes = .ok x := by
  constructor
  · rintro ⟨this, w', hload, rfl⟩
    obtain ⟨hvalid, x, hdecode, rfl⟩ :=
      ends_of_ok (ends_load_snapshot (w := w.withScript []) rfl hwal hbytes) hload
    exact ⟨hvalid, hdecode⟩
  · rintro ⟨hvalid, hdecode⟩
    obtain ⟨w', hload⟩ :=
      exists_load_snapshot (w := w.withScript []) rfl hvalid hwal hbytes hdecode
    exact ⟨_, w', hload, rfl⟩

theorem refuses_iff_decodes (hwal : config.walEnabled = false) {bytes : Bytes}
    (hbytes : w.files config.path = some bytes) :
    Refuses b T config w ↔
      (validateConfig b config = (.ok () : Except (PersistError ε) Unit) →
        ∀ x, decodeSnapshot b T bytes ≠ .ok x) := by
  have hload := ends_load_snapshot (b := b) (T := T) (w := w.withScript []) rfl hwal hbytes
  constructor
  · rintro ⟨e, w', heq⟩
    exact (ends_of_error hload heq).2
  · intro hnone
    unfold Ends at hload
    split at hload
    · obtain ⟨hvalid, x, hdecode, -⟩ := hload
      exact absurd hdecode (hnone hvalid x)
    · rename_i e w' heq
      obtain ⟨⟨e', rfl⟩, -⟩ := hload
      exact ⟨e', w', heq⟩

/-- A written snapshot loads as the index it was made of. -/
theorem load_writeSnapshot (hround : T.RoundTrips this.inner)
    (htype : (utf8 T.indexType).length ≤ maxIndexTypeLen)
    (hinv : SnapshotInverts b T this.config this.inner)
    (hsave : writeSnapshot b T this w = .ok () w') (hpath : config.path = this.config.path)
    (hwal : config.walEnabled = false)
    (hvalid : validateConfig b config = (.ok () : Except (PersistError ε) Unit)) :
    ∃ w'', load b T config (w'.withScript []) =
      .ok { inner := this.inner, config, wal := none } w'' := by
  obtain ⟨full, hfull, hfile⟩ := snapshotBytes_of_writeSnapshot hsave
  rw [← hpath] at hfile
  exact exists_load_snapshot (w := w'.withScript []) rfl hvalid hwal hfile
    (decodeSnapshot_snapshotBytes hround htype hinv hfull)

/-- A configuration for a codec that the default build does not have. -/
def lz4Config : PersistConfig := ⟨⟨false, ["x"]⟩, false, .never, .lz4⟩

theorem exists_sampleSave : ∃ w', writeSnapshot defaultBuild idIndex ⟨[7], sampleConfig, none⟩
    emptyWorld = .ok () w' := ⟨_, rfl⟩

theorem load_writeSnapshot_default : ∃ w',
    writeSnapshot defaultBuild idIndex ⟨[7], sampleConfig, none⟩ emptyWorld = .ok () w' ∧
    ∃ w'', load defaultBuild idIndex { sampleConfig with walEnabled := false }
      (w'.withScript []) = .ok ⟨[7], { sampleConfig with walEnabled := false }, none⟩ w'' := by
  obtain ⟨w', hsave⟩ := exists_sampleSave
  exact ⟨w', hsave, load_writeSnapshot (idIndex_roundTrips [7]) (by decide)
    (sampleConfig_inverts [7]) hsave rfl rfl rfl⟩

/-- The uncompressed snapshot does not load under a configuration that names a missing codec. -/
theorem not_load_lz4 :
    ¬ ∀ (this : PersistedIndex (List UInt64)) (config : PersistConfig) (w w' : World Path),
      idIndex.RoundTrips this.inner → SnapshotInverts defaultBuild idIndex this.config this.inner →
        writeSnapshot defaultBuild idIndex this w = .ok () w' →
        config.path = this.config.path → config.walEnabled = false →
          ∃ this' w'', load defaultBuild idIndex config (w'.withScript []) = .ok this' w'' ∧
            this'.inner = this.inner := by
  intro hall
  obtain ⟨w', hsave⟩ := exists_sampleSave
  obtain ⟨this', w'', hload, -⟩ := hall _ lz4Config _ _ (idIndex_roundTrips [7])
    (sampleConfig_inverts [7]) hsave rfl rfl
  cases hload

end PersistedIndex

end IqdbPersist
