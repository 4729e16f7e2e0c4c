import IqdbPersist.DamagedSnapshot

/-!
# Truncated snapshots

A snapshot cut in its header or in its preamble is refused. Cut in its data it loads if the checksum
does not tell the shorter region from the whole one and the index accepts what is left: the recorded
length is compared with the payload only when the payload was compressed.
-/

namespace IqdbPersist

open CrashLogic FileSystem LittleEndian

variable {ε M I : Type} {b : Build M} {T : IndexType ε M I}

/-- The checksum does not notice that the data was cut behind `k` bytes, and what is left decodes to
an index with the numbers of the header. -/
def CutUnnoticed (b : Build M) (T : IndexType ε M I) (scheme : Compression) (x : I)
    (raw data : Bytes) (k : ℕ) : Prop :=
  b.crc32 (regionBytes scheme raw.length (data.take k)) =
      b.crc32 (regionBytes scheme raw.length data) ∧
    ∃ raw' y, compressionDecode (ε := ε) b (schemeTag scheme) (data.take k) raw.length = .ok raw' ∧
      T.loadFrom raw' = .ok y ∧ T.dim y = T.dim x ∧ T.metric y = T.metric x ∧ T.len y = T.len x

theorem length_regionBytes (scheme : Compression) (len : ℕ) (data : Bytes) :
    (regionBytes scheme len data).length = 9 + data.length := by
  simp only [regionBytes, List.length_cons, List.length_append, length_encode]
  omega

theorem take_regionBytes (scheme : Compression) (len : ℕ) (data : Bytes) (k : ℕ) :
    (regionBytes scheme len data).take (9 + k) = regionBytes scheme len (data.take k) := by
  have hpreamble : (schemeTag scheme :: encode 8 len).length = 9 := by
    rw [List.length_cons, length_encode]
  have hregion : regionBytes scheme len data = (schemeTag scheme :: encode 8 len) ++ data := rfl
  rw [hregion, ← hpreamble, List.take_length_add_append]
  rfl

theorem decodeRegion_of_short {version : UInt32} (hversion : 2 ≤ version) {region : Bytes}
    (hshort : region.length < 9) : decodeRegion (ε := ε) b version region =
      .error (.truncatedPayload 9 region.length) := by
  rw [decodeRegion, if_pos hversion, if_pos hshort]

namespace PersistedIndex

section Decode

variable {x y : I} {config : PersistConfig} {full raw data : Bytes}

theorem drop_header (h : snapshotBytes b T x config = .ok full) (hraw : T.saveTo x = .ok raw)
    (hdata : compressionEncode b config.compression raw = (.ok data : Except (PersistError ε) _)) :
    raw.length ≤ b.host.usizeMax ∧ full.drop (41 + (utf8 T.indexType).length) =
      regionBytes config.compression raw.length data := by
  obtain ⟨raw', data', tag, hraw', hdata', hle, -, -, -, rfl⟩ := snapshotBytes_eq_ok h
  rw [hraw] at hraw'
  cases hraw'
  rw [hdata] at hdata'
  cases hdata'
  exact ⟨hle, List.drop_left' (length_headerBytes _ tag)⟩

/-- Behind its header, a truncated snapshot needs the preamble and a cut that goes unnoticed. -/
theorem decodes_take_header_iff (h : snapshotBytes b T x config = .ok full)
    (hraw : T.saveTo x = .ok raw)
    (hdata : compressionEncode b config.compression raw = (.ok data : Except (PersistError ε) _))
    (htype : (utf8 T.indexType).length ≤ maxIndexTypeLen) (k : ℕ) :
    (∃ y, decodeSnapshot b T (full.take (41 + (utf8 T.indexType).length + k)) = .ok y) ↔
      9 ≤ k ∧ CutUnnoticed b T config.compression x raw data (k - 9) := by
  obtain ⟨hle, hregion⟩ := drop_header h hraw hdata
  have htwo : 2 ≤ currentVersion := by decide
  rw [List.take_add, decodeSnapshot_take_append h htype, hregion]
  simp only [restore_eq_ok_iff]
  by_cases hk : 9 ≤ k
  · obtain ⟨j, rfl⟩ := Nat.exists_eq_add_of_le hk
    have hdecode := decodeRegion_regionBytes (ε := ε) (b := b) config.compression (data.take j)
      htwo hle
    rw [take_regionBytes, Nat.add_sub_cancel_left]
    change (∃ y, _ ∧ ∃ raw', decodeRegion b currentVersion _ = _ ∧ _) ↔ _
    simp only [hdecode]
    constructor
    · rintro ⟨y, hcrc, raw', hraw', hload⟩
      exact ⟨hk, hcrc, raw', y, hraw', hload⟩
    · rintro ⟨-, hcrc, raw', y, hraw', hload⟩
      exact ⟨y, hcrc, raw', hraw', hload⟩
  · have hshort : ((regionBytes config.compression raw.length data).take k).length < 9 := by
      rw [List.length_take]
      omega
    refine iff_of_false ?_ fun hcut => hk hcut.1
    rintro ⟨y, -, raw', hraw', -⟩
    have herror := (decodeRegion_of_short htwo hshort).symm.trans hraw'
    cases herror

/-- A truncated snapshot decodes to something exactly when the cut is in the data and goes
unnoticed. -/
theorem decodes_take_iff (h : snapshotBytes b T x config = .ok full) (hraw : T.saveTo x = .ok raw)
    (hdata : compressionEncode b config.compression raw = (.ok data : Except (PersistError ε) _))
    (t : ℕ) :
    (∃ y, decodeSnapshot b T (full.take t) = .ok y) ↔
      (utf8 T.indexType).length ≤ maxIndexTypeLen ∧ 50 + (utf8 T.indexType).length ≤ t ∧
        CutUnnoticed b T config.compression x raw data (t - (50 + (utf8 T.indexType).length)) := by
  by_cases htype : (utf8 T.indexType).length ≤ maxIndexTypeLen
  · rcases Nat.lt_or_ge t (41 + (utf8 T.indexType).length) with ht | ht
    · refine iff_of_false ?_ fun hcut => absurd hcut.2.1 (by omega)
      rintro ⟨y, hy⟩
      obtain ⟨header, tag, region, -, hheader, hbytes, -⟩ := decodeSnapshot_eq_ok hy
      have hlen := congrArg List.length hbytes
      rw [List.length_append, length_headerBytes, hheader, List.length_take] at hlen
      omega
    · obtain ⟨k, rfl⟩ := Nat.exists_eq_add_of_le ht
      have hsub : 41 + (utf8 T.indexType).length + k - (50 + (utf8 T.indexType).length) =
          k - 9 := by omega
      have hpreamble :
          50 + (utf8 T.indexType).length ≤ 41 + (utf8 T.indexType).length + k ↔ 9 ≤ k := by omega
      rw [decodes_take_header_iff h hraw hdata htype, hsub, hpreamble]
      exact (and_iff_right htype).symm
  · refine iff_of_false ?_ fun hcut => htype hcut.1
    rintro ⟨y, hy⟩
    exact htype (length_indexType_of_decodes hy)

end Decode

variable {this : PersistedIndex I} {config : PersistConfig} {w w' u : World Path}
  {full raw data : Bytes}

/-- A truncated snapshot is refused, unless the cut is in the data and goes unnoticed. -/
theorem refuses_take_iff (hsave : writeSnapshot b T this w = .ok () w')
    (hfull : w'.files this.config.path = some full) (hraw : T.saveTo this.inner = .ok raw)
    (hdata : compressionEncode b this.config.compression raw =
      (.ok data : Except (PersistError ε) _)) (hwal : config.walEnabled = false) {t : ℕ}
    (hu : u.files config.path = some (full.take t)) :
    Refuses b T config u ↔
      (validateConfig b config = (.ok () : Except (PersistError ε) Unit) →
        (utf8 T.indexType).length ≤ maxIndexTypeLen → 50 + (utf8 T.indexType).length ≤ t →
          ¬ CutUnnoticed b T this.config.compression this.inner raw data
            (t - (50 + (utf8 T.indexType).length))) := by
  obtain ⟨full', hbytes, hfull'⟩ := snapshotBytes_of_writeSnapshot hsave
  rw [hfull] at hfull'
  cases hfull'
  have hdecodes := decodes_take_iff hbytes hraw hdata t
  rw [refuses_iff_decodes hwal hu]
  constructor
  · intro hnone hvalid htype ht hcut
    obtain ⟨y, hy⟩ := hdecodes.mpr ⟨htype, ht, hcut⟩
    exact hnone hvalid y hy
  · intro hnone hvalid y hy
    obtain ⟨htype, ht, hcut⟩ := hdecodes.mp ⟨y, hy⟩
    exact hnone hvalid htype ht hcut

theorem refuses_take_plain : ∃ (w' : World Path) (full : Bytes),
    writeSnapshot defaultBuild idIndex ⟨[7], plainConfig, none⟩ emptyWorld = .ok () w' ∧
      w'.files plainConfig.path = some full ∧
      (Refuses defaultBuild idIndex plainConfig (worldOf (full.take 53)) ↔
        (validateConfig defaultBuild plainConfig = (.ok () : Except (PersistError IdError) Unit) →
          (utf8 idIndex.indexType).length ≤ maxIndexTypeLen →
            50 + (utf8 idIndex.indexType).length ≤ 53 →
              ¬ CutUnnoticed defaultBuild idIndex .none [7] (IdIndex.save [7]) (IdIndex.save [7])
                (53 - (50 + (utf8 idIndex.indexType).length)))) := by
  obtain ⟨w', full, hsave, hfull, -⟩ := exists_plainSave
  exact ⟨w', full, hsave, hfull, refuses_take_iff hsave hfull rfl rfl rfl rfl⟩

/-- An index without vectors whose payload is a note, free text. -/
def noteIndex : IndexType IdError (List (String × Value)) Bytes where
  indexType := "note"
  dim _ := 1
  metric _ := .euclidean
  len _ := 0
  insert _ _ _ x := (.error .invalid, x)
  delete _ x := (.error .notFound, x)
  saveTo x := .ok x
  loadFrom bytes := .ok bytes

theorem noteIndex_roundTrips (x : Bytes) : noteIndex.RoundTrips x := by
  rintro _ ⟨⟩
  rfl

/-- Four bytes that leave the checksum as it is behind the preamble of a payload of four bytes. -/
def unnoticedNote : Bytes := [30, 122, 3, 43]

theorem unnoticedNote_cutUnnoticed :
    CutUnnoticed defaultBuild noteIndex .none unnoticedNote unnoticedNote unnoticedNote 0 := by
  refine ⟨?_, [], [], rfl, rfl, rfl, rfl, rfl⟩
  change Crc32.hash (regionBytes .none 4 []) = Crc32.hash (regionBytes .none 4 unnoticedNote)
  decide +kernel

/-- Without its last four bytes, the snapshot of a note loads as the empty note. -/
theorem not_refuses_take_note :
    ¬ ∀ (this : PersistedIndex Bytes) (config : PersistConfig) (w w' u : World Path)
      (full : Bytes) (t : ℕ), (∀ x, noteIndex.RoundTrips x) →
        writeSnapshot defaultBuild noteIndex this w = .ok () w' →
        w'.files this.config.path = some full → config.walEnabled = false → t < full.length →
        u.files config.path = some (full.take t) → Refuses defaultBuild noteIndex config u := by
  intro hall
  obtain ⟨w', hsave⟩ : ∃ w', writeSnapshot defaultBuild noteIndex ⟨unnoticedNote, plainConfig, none⟩
    emptyWorld = .ok () w' := ⟨_, rfl⟩
  obtain ⟨full, hbytes, hfull⟩ := snapshotBytes_of_writeSnapshot hsave
  have hlen : 54 < full.length := by
    obtain ⟨-, hregion⟩ := drop_header hbytes rfl rfl
    have hdrop := congrArg List.length hregion
    rw [List.length_drop, length_regionBytes] at hdrop
    change full.length - 45 = 9 + 4 at hdrop
    omega
  have hu : (worldOf (full.take 54)).files plainConfig.path = some (full.take 54) := rfl
  obtain ⟨y, hy⟩ := (decodes_take_iff hbytes rfl rfl 54).mpr
    ⟨by decide, by decide, unnoticedNote_cutUnnoticed⟩
  have hrefuses := hall _ plainConfig _ _ _ full 54 noteIndex_roundTrips hsave hfull rfl hlen hu
  exact (refuses_iff_decodes rfl hu).mp hrefuses rfl y hy

end PersistedIndex

end IqdbPersist
