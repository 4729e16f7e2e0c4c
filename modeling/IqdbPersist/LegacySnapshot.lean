import IqdbPersist.SnapshotRoundTrip

/-!
# Snapshots of the first version

Before there was compression, a snapshot was a header of version 1 and the bare payload. Such a file
still loads as its index, and saving that index again gives the file of the current version.
-/

namespace IqdbPersist

open CrashLogic FileSystem

variable {ε M I : Type} (b : Build M) (T : IndexType ε M I)

/-- The header that version 1 wrote in front of a payload. -/
def legacyHeader (inner : I) (raw : Bytes) : FileHeader :=
  { snapshotHeader b T inner raw with version := 1 }

/-- The file that version 1 wrote. -/
def legacyBytes (inner : I) : Except (PersistError ε) Bytes := do
  let raw ← T.saveTo inner
  match writeHeader b.host (legacyHeader b T inner raw) [] with
  | .ok _ full => .ok (full ++ raw)
  | .error e _ => .error e

variable {b T} {x : I} {legacy : Bytes}

theorem legacyBytes_eq_ok (h : legacyBytes b T x = .ok legacy) :
    ∃ raw tag, T.saveTo x = .ok raw ∧ T.dim x ≤ b.host.usizeMax ∧ T.len x ≤ b.host.usizeMax ∧
      metricToTag (ε := ε) (T.metric x) = .ok tag ∧
      legacy = headerBytes (legacyHeader b T x raw) tag ++ raw := by
  unfold legacyBytes at h
  cases hraw : T.saveTo x with
  | error e => rw [hraw] at h; cases h
  | ok raw =>
    simp only [hraw, bind, Except.bind] at h
    split at h
    · rename_i header hheader
      obtain ⟨-, hdim, hn, tag, htag, hbytes⟩ := ends_of_ok (ends_writeHeader _ _ _) hheader
      refine ⟨raw, tag, rfl, hdim, hn, htag, ?_⟩
      rw [← Except.ok.inj h, hbytes, List.nil_append]
    · cases h

theorem readable_legacyHeader {tag : UInt8} {raw : Bytes}
    (htype : (utf8 T.indexType).length ≤ maxIndexTypeLen) (hdim : T.dim x ≤ b.host.usizeMax)
    (hn : T.len x ≤ b.host.usizeMax) (htag : metricToTag (ε := ε) (T.metric x) = .ok tag) :
    Readable ε b.host (legacyHeader b T x raw) tag := by
  have hversion : minSupportedVersion ≤ 1 ∧ 1 ≤ currentVersion := by decide
  exact ⟨rfl, hversion, htype, hdim, hn, htag⟩

theorem decodeSnapshot_legacyBytes (hround : T.RoundTrips x)
    (htype : (utf8 T.indexType).length ≤ maxIndexTypeLen) (h : legacyBytes b T x = .ok legacy) :
    decodeSnapshot b T legacy = .ok x := by
  obtain ⟨raw, tag, hraw, hdim, hn, htag, rfl⟩ := legacyBytes_eq_ok h
  rw [decodeSnapshot_headerBytes (readable_legacyHeader htype hdim hn htag) rfl]
  exact restore_eq_ok_iff.mpr ⟨rfl, raw, decodeRegion_one raw, hround raw hraw, rfl, rfl, rfl⟩

namespace PersistedIndex

theorem save_eq (this : PersistedIndex I) (w : World Path) :
    save b T (this, w) = within Prod.snd (fun w s => (s.1, w)) (writeSnapshot b T this) (this, w) :=
  rfl

/-- The file of version 1 and the files of the current version all load as the index; loaded from
the former and saved, the index gives the file that it is written to now. -/
theorem load_legacy (hround : T.RoundTrips x)
    (htype : (utf8 T.indexType).length ≤ maxIndexTypeLen)
    (hlegacy : legacyBytes b T x = .ok legacy) :
    (∀ (config : PersistConfig) (w : World Path), w.Calm → config.walEnabled = false →
        validateConfig b config = (.ok () : Except (PersistError ε) Unit) →
        w.files config.path = some legacy →
          ∃ w', load b T config w = .ok ⟨x, config, none⟩ w') ∧
      (∀ (saved config : PersistConfig) (w w' : World Path), SnapshotInverts b T saved x →
        writeSnapshot b T ⟨x, saved, none⟩ w = .ok () w' → config.path = saved.path →
        config.walEnabled = false →
        validateConfig b config = (.ok () : Except (PersistError ε) Unit) →
          ∃ w'', load b T config (w'.withScript []) = .ok ⟨x, config, none⟩ w'') ∧
      ∀ (config : PersistConfig) (w w₁ w₂ : World Path), w.Calm → config.walEnabled = false →
        w.files config.path = some legacy →
        writeSnapshot b T ⟨x, config, none⟩ w₁ = .ok () w₂ →
          ∃ this w₃, load b T config w = .ok this w₃ ∧ save b T (this, w₁) = .ok () (this, w₂) ∧
            ∀ w₄ s, save b T (this, w₄) = .ok () s →
              s.2.files config.path = w₂.files config.path := by
  have hdecode := decodeSnapshot_legacyBytes hround htype hlegacy
  refine ⟨?_, ?_, ?_⟩
  · intro config w hcalm hwal hvalid hfile
    exact exists_load_snapshot hcalm hvalid hwal hfile hdecode
  · intro saved config w w' hinv hsave hpath hwal hvalid
    obtain ⟨full, hfull, hfile⟩ := snapshotBytes_of_writeSnapshot hsave
    rw [← hpath] at hfile
    have hfile' : (w'.withScript []).files config.path = some full := hfile
    exact exists_load_snapshot rfl hvalid hwal hfile'
      (decodeSnapshot_snapshotBytes hround htype hinv hfull)
  · intro config w w₁ w₂ hcalm hwal hfile hwrite
    obtain ⟨full, hfull, hwritten⟩ := snapshotBytes_of_writeSnapshot hwrite
    obtain ⟨w₃, hload⟩ := exists_load_snapshot hcalm (validateConfig_of_snapshotBytes hfull) hwal
      hfile hdecode
    refine ⟨_, w₃, hload, ?_, ?_⟩
    · rw [save_eq, within, hwrite]
    · intro w₄ s hsave
      rw [save_eq, within] at hsave
      split at hsave
      · rename_i w₅ hwrite'
        cases hsave
        obtain ⟨full', hfull', hwritten'⟩ := snapshotBytes_of_writeSnapshot hwrite'
        rw [hfull] at hfull'
        cases hfull'
        exact hwritten'.trans hwritten.symm
      · cases hsave

theorem load_legacy_default : ∃ (legacy : Bytes) (w w' : World Path),
    legacyBytes defaultBuild idIndex [7] = .ok legacy ∧
      w.files sampleConfig.path = some legacy ∧
      load defaultBuild idIndex { sampleConfig with walEnabled := false } w =
        .ok ⟨[7], { sampleConfig with walEnabled := false }, none⟩ w' := by
  obtain ⟨legacy, hlegacy⟩ : ∃ legacy, legacyBytes defaultBuild idIndex [7] = .ok legacy :=
    ⟨_, rfl⟩
  let w : World Path := { emptyWorld with base := fun _ => some legacy }
  have hall := load_legacy (idIndex_roundTrips [7]) (by decide) hlegacy
  obtain ⟨w', hload⟩ := hall.1 { sampleConfig with walEnabled := false } w rfl rfl rfl rfl
  exact ⟨legacy, w, w', hlegacy, rfl, hload⟩

end PersistedIndex

end IqdbPersist
