import IqdbPersist.LegacySnapshot

/-!
# Damaged snapshots

The checksum of a snapshot does not cover its header. A header over the region of a snapshot
restores an index only if it is the header that was written there, or the header of version 1 over
an index that the region, preamble and all, happens to load as. No single bit leads from the one to
the other.
-/

namespace IqdbPersist

open BitFlip CrashLogic FileSystem LittleEndian

variable {ε M I : Type} {b : Build M} {T : IndexType ε M I}

section Header

variable {x : I} {scheme : Compression} {raw data : Bytes}

/-- A header that restores something from a written region is the header written there or one of
version 1. -/
theorem header_of_restore (hround : T.RoundTrips x) (hzstd : ∀ codec ∈ b.zstd, codec.Lossless)
    (hlz4 : ∀ codec ∈ b.lz4, codec.Lossless) (hraw : T.saveTo x = .ok raw)
    (hdata : compressionEncode b scheme raw = (.ok data : Except (PersistError ε) _))
    (hle : raw.length ≤ b.host.usizeMax) {h : FileHeader} {tag : UInt8} {y : I}
    (hreadable : Readable ε b.host h tag) (htype : h.indexType = T.indexType)
    (hrestore : restore b T h (regionBytes scheme raw.length data) = .ok y) :
    (h = snapshotHeader b T x (regionBytes scheme raw.length data) ∧ y = x ∧
        compressionDecode b (schemeTag scheme) data raw.length =
          (.ok raw : Except (PersistError ε) _)) ∨
      (h = legacyHeader b T y (regionBytes scheme raw.length data) ∧
        T.loadFrom (regionBytes scheme raw.length data) = .ok y) := by
  obtain ⟨hcrc, raw', hregion, hload, hdim, hmetric, hn⟩ := restore_eq_ok_iff.mp hrestore
  have hmagic := hreadable.magic
  rcases hreadable.version_cases with hversion | hversion
  · right
    rw [hversion, decodeRegion_one] at hregion
    cases hregion
    refine ⟨?_, hload⟩
    cases h
    simp_all [legacyHeader, snapshotHeader]
  · left
    have htwo : (2 : UInt32) ≤ h.version := by rw [hversion]; decide
    rw [decodeRegion_regionBytes scheme data htwo hle] at hregion
    obtain rfl := eq_of_compressionDecode hzstd hlz4 hdata hregion
    rw [hround raw' hraw] at hload
    cases hload
    refine ⟨?_, rfl, hregion⟩
    cases h
    simp_all [snapshotHeader, currentVersion]

end Header

theorem getElem?_headerBytes (h : FileHeader) (tag : UInt8) :
    (headerBytes h tag)[8]? = some (UInt8.ofNat h.version.toNat) := by
  have hmagic : h.magic.toList.length ≤ 8 := by rw [Vector.length_toList]
  rw [headerBytes, List.getElem?_append_right hmagic, Vector.length_toList]
  rfl

namespace PersistedIndex

section Decode

variable {x y : I} {config : PersistConfig} {full header : Bytes}

/-- Behind a header of version 1 the region is the payload, whatever it was written as. -/
theorem decodeSnapshot_of_legacyHeader {region : Bytes}
    (htype : (utf8 T.indexType).length ≤ maxIndexTypeLen) (hload : T.loadFrom region = .ok y)
    (hheader : writeHeader b.host (legacyHeader b T y region) [] =
      (.ok () header : EStateM.Result (PersistError ε) _ _)) :
    decodeSnapshot b T (header ++ region) = .ok y := by
  obtain ⟨-, hdim, hn, tag, htag, hbytes⟩ := ends_of_ok (ends_writeHeader _ _ _) hheader
  rw [List.nil_append] at hbytes
  rw [hbytes, decodeSnapshot_headerBytes (readable_legacyHeader htype hdim hn htag) rfl]
  exact restore_eq_ok_iff.mpr ⟨rfl, region, decodeRegion_one region, hload, rfl, rfl, rfl⟩

theorem header_of_decodes (hround : T.RoundTrips x) (hzstd : ∀ codec ∈ b.zstd, codec.Lossless)
    (hlz4 : ∀ codec ∈ b.lz4, codec.Lossless) (h : snapshotBytes b T x config = .ok full)
    (hlen : header.length = 41 + (utf8 T.indexType).length)
    (hdecode : decodeSnapshot b T (header ++ full.drop header.length) = .ok y) :
    (header = full.take header.length ∧ y = x ∧ SnapshotInverts b T config x) ∨
      (T.loadFrom (full.drop header.length) = .ok y ∧ ∃ tag,
        Readable ε b.host (legacyHeader b T y (full.drop header.length)) tag ∧
          header = headerBytes (legacyHeader b T y (full.drop header.length)) tag) := by
  obtain ⟨raw, data, tag₀, hraw, hdata, hle, hdim, hn, htag₀, hbytes⟩ := snapshotBytes_eq_ok h
  obtain ⟨h', tag, region, hreadable, htype, hfile, hrestore⟩ := decodeSnapshot_eq_ok hdecode
  have hlen₀ : header.length = (headerBytes (snapshotHeader b T x
      (regionBytes config.compression raw.length data)) tag₀).length := by
    rw [hlen, length_headerBytes]
    rfl
  have hregion : full.drop header.length = regionBytes config.compression raw.length data := by
    rw [hbytes, List.drop_left' hlen₀.symm]
  obtain ⟨hheader, rfl⟩ := List.append_inj hfile (by rw [hlen, length_headerBytes, htype])
  rw [hregion] at hrestore ⊢
  rcases header_of_restore hround hzstd hlz4 hraw hdata hle hreadable htype hrestore with
    ⟨rfl, rfl, hdec⟩ | ⟨rfl, hload⟩
  · left
    obtain rfl : tag = tag₀ := Except.ok.inj (hreadable.metric.symm.trans htag₀)
    refine ⟨?_, rfl, ?_⟩
    · rw [hbytes, List.take_left' hlen₀.symm, hheader]
    · intro raw' hraw' data' hdata'
      rw [hraw] at hraw'
      cases hraw'
      rw [hdata] at hdata'
      cases hdata'
      exact hdec
  · exact .inr ⟨hload, tag, hreadable, hheader⟩

theorem length_header_le (h : snapshotBytes b T x config = .ok full) :
    41 + (utf8 T.indexType).length ≤ full.length := by
  obtain ⟨raw, data, tag, -, -, -, -, -, -, rfl⟩ := snapshotBytes_eq_ok h
  rw [List.length_append, length_headerBytes]
  exact Nat.le_add_right _ _

theorem getElem?_version (h : snapshotBytes b T x config = .ok full) : full[8]? = some 2 := by
  obtain ⟨raw, data, tag, -, -, -, -, -, -, rfl⟩ := snapshotBytes_eq_ok h
  rw [List.getElem?_append_left, getElem?_headerBytes]
  · rfl
  · rw [length_headerBytes]
    omega

theorem decodeSnapshot_take_append (h : snapshotBytes b T x config = .ok full)
    (htype : (utf8 T.indexType).length ≤ maxIndexTypeLen) (region : Bytes) :
    decodeSnapshot b T (full.take (41 + (utf8 T.indexType).length) ++ region) =
      restore b T (snapshotHeader b T x (full.drop (41 + (utf8 T.indexType).length))) region := by
  obtain ⟨raw, data, tag, -, -, -, hdim, hn, htag, rfl⟩ := snapshotBytes_eq_ok h
  have hlen : (headerBytes (snapshotHeader b T x
      (regionBytes config.compression raw.length data)) tag).length =
        41 + (utf8 T.indexType).length := length_headerBytes _ tag
  rw [List.take_left' hlen, List.drop_left' hlen]
  exact decodeSnapshot_headerBytes (readable_snapshotHeader htype hdim hn htag) rfl region

theorem length_indexType_of_decodes {bytes : Bytes} (h : decodeSnapshot b T bytes = .ok y) :
    (utf8 T.indexType).length ≤ maxIndexTypeLen := by
  obtain ⟨header, tag, region, hreadable, htype, -, -⟩ := decodeSnapshot_eq_ok h
  rw [← htype]
  exact hreadable.indexType

theorem snapshotInverts_of_decodes (hround : T.RoundTrips x)
    (hzstd : ∀ codec ∈ b.zstd, codec.Lossless) (hlz4 : ∀ codec ∈ b.lz4, codec.Lossless)
    (h : snapshotBytes b T x config = .ok full) (hdecode : decodeSnapshot b T full = .ok y) :
    y = x ∧ SnapshotInverts b T config x := by
  have hlen : (full.take (41 + (utf8 T.indexType).length)).length =
      41 + (utf8 T.indexType).length := List.length_take_of_le (length_header_le h)
  rw [← List.take_append_drop (41 + (utf8 T.indexType).length) full] at hdecode
  rcases header_of_decodes hround hzstd hlz4 h hlen (by rwa [hlen]) with
    ⟨-, rfl, hinv⟩ | ⟨-, tag, -, hlegacy⟩
  · exact ⟨rfl, hinv⟩
  · have hversion := getElem?_version h
    rw [← List.getElem?_take_of_lt (Nat.lt_of_lt_of_le (by decide) (Nat.le_add_right 41 _)),
      hlegacy, getElem?_headerBytes] at hversion
    cases hversion

end Decode

variable {this : PersistedIndex I} {config : PersistConfig} {w w' u v : World Path}
  {full header : Bytes}

/-- A snapshot whose header was replaced is refused or loads as the original does, unless the new
header makes a file of version 1 of it whose payload, the preamble included, is another index. -/
theorem load_alteredHeader_iff (hround : T.RoundTrips this.inner)
    (hzstd : ∀ codec ∈ b.zstd, codec.Lossless) (hlz4 : ∀ codec ∈ b.lz4, codec.Lossless)
    (hsave : writeSnapshot b T this w = .ok () w') (hfull : w'.files this.config.path = some full)
    (hlen : header.length = 41 + (utf8 T.indexType).length) (hwal : config.walEnabled = false)
    (hu : u.files config.path = some (header ++ full.drop header.length))
    (hv : v.files config.path = some full) :
    (Refuses b T config u ∨ ∃ y, Recovers b T config u y ∧ Recovers b T config v y) ↔
      (validateConfig b config = (.ok () : Except (PersistError ε) Unit) →
        (utf8 T.indexType).length ≤ maxIndexTypeLen → ∀ y,
          T.loadFrom (full.drop header.length) = .ok y →
          writeHeader b.host (legacyHeader b T y (full.drop header.length)) [] =
            (.ok () header : EStateM.Result (PersistError ε) _ _) →
          y = this.inner ∧ SnapshotInverts b T this.config this.inner) := by
  obtain ⟨full', hbytes, hfull'⟩ := snapshotBytes_of_writeSnapshot hsave
  rw [hfull] at hfull'
  cases hfull'
  constructor
  · intro hload hvalid htype y hregion hheader
    have hdecode := decodeSnapshot_of_legacyHeader htype hregion hheader
    rcases hload with hrefuses | ⟨y', hy', horiginal⟩
    · exact absurd hdecode ((refuses_iff_decodes hwal hu).mp hrefuses hvalid y)
    · rw [recovers_iff_decodes hwal hu, hdecode] at hy'
      obtain ⟨-, rfl⟩ := hy'.imp_right Except.ok.inj
      rw [recovers_iff_decodes hwal hv] at horiginal
      exact snapshotInverts_of_decodes hround hzstd hlz4 hbytes horiginal.2
  · intro hcondition
    by_cases hrefuses : Refuses b T config u
    · exact .inl hrefuses
    · rw [refuses_iff_decodes hwal hu] at hrefuses
      push Not at hrefuses
      obtain ⟨hvalid, y, hdecode⟩ := hrefuses
      refine .inr ⟨y, (recovers_iff_decodes hwal hu y).mpr ⟨hvalid, hdecode⟩,
        (recovers_iff_decodes hwal hv y).mpr ⟨hvalid, ?_⟩⟩
      rcases header_of_decodes hround hzstd hlz4 hbytes hlen hdecode with
        ⟨hheader, -, -⟩ | ⟨hregion, tag, hreadable, hheader⟩
      · rwa [← List.take_append_drop header.length full, ← hheader]
      · obtain ⟨rfl, hinv⟩ := hcondition hvalid hreadable.indexType y hregion
          (by rw [writeHeader_of_readable hreadable, ← hheader])
        exact decodeSnapshot_snapshotBytes hround hreadable.indexType hinv hbytes

/-- Snapshots only, uncompressed. -/
def plainConfig : PersistConfig := { sampleConfig with walEnabled := false }

/-- A world in which every file has these contents. -/
def worldOf (bytes : Bytes) : World Path := { emptyWorld with base := fun _ => some bytes }

/-- The region of the snapshot of `[7]`: a preamble of nine bytes and eight bytes of payload. -/
def sampleRegion : Bytes := regionBytes .none 8 (IdIndex.save [7])

theorem loadFrom_sampleRegion : idIndex.loadFrom sampleRegion = .ok [2048, 1792] := by
  decide +kernel

def disguise : Bytes := headerBytes (legacyHeader defaultBuild idIndex [2048, 1792] sampleRegion) 2

theorem writeHeader_disguise : writeHeader defaultBuild.host
    (legacyHeader defaultBuild idIndex [2048, 1792] sampleRegion) [] =
      (.ok () disguise : EStateM.Result (PersistError IdError) _ _) :=
  writeHeader_of_readable (readable_legacyHeader (by decide) (by decide) (by decide) rfl)

theorem exists_plainSave : ∃ w' full, writeSnapshot defaultBuild idIndex ⟨[7], plainConfig, none⟩
    emptyWorld = .ok () w' ∧ w'.files plainConfig.path = some full ∧
      full.drop disguise.length = sampleRegion := by
  obtain ⟨w', hsave⟩ : ∃ w', writeSnapshot defaultBuild idIndex ⟨[7], plainConfig, none⟩
    emptyWorld = .ok () w' := ⟨_, rfl⟩
  obtain ⟨full, hbytes, hfull⟩ := snapshotBytes_of_writeSnapshot hsave
  obtain ⟨raw, data, tag, hraw, hdata, -, -, -, -, rfl⟩ := snapshotBytes_eq_ok hbytes
  cases hraw
  cases hdata
  refine ⟨w', _, hsave, hfull, List.drop_left' ?_⟩
  rw [disguise, length_headerBytes, length_headerBytes]
  rfl

theorem load_alteredHeader_disguise : ∃ (w' : World Path) (full : Bytes),
    writeSnapshot defaultBuild idIndex ⟨[7], plainConfig, none⟩ emptyWorld = .ok () w' ∧
      w'.files plainConfig.path = some full ∧
      ((Refuses defaultBuild idIndex plainConfig (worldOf (disguise ++ full.drop disguise.length)) ∨
          ∃ y, Recovers defaultBuild idIndex plainConfig
              (worldOf (disguise ++ full.drop disguise.length)) y ∧
            Recovers defaultBuild idIndex plainConfig (worldOf full) y) ↔
        (validateConfig defaultBuild plainConfig = (.ok () : Except (PersistError IdError) Unit) →
          (utf8 idIndex.indexType).length ≤ maxIndexTypeLen → ∀ y,
            idIndex.loadFrom (full.drop disguise.length) = .ok y →
            writeHeader defaultBuild.host
              (legacyHeader defaultBuild idIndex y (full.drop disguise.length)) [] =
                (.ok () disguise : EStateM.Result (PersistError IdError) _ _) →
            y = [7] ∧ SnapshotInverts defaultBuild idIndex plainConfig [7])) := by
  obtain ⟨w', full, hsave, hfull, -⟩ := exists_plainSave
  refine ⟨w', full, hsave, hfull, ?_⟩
  exact load_alteredHeader_iff (idIndex_roundTrips [7]) (by simp [defaultBuild])
    (by simp [defaultBuild]) hsave hfull (length_headerBytes _ _) rfl rfl rfl

/-- A snapshot of `[7]` under a disguise loads as two other numbers. -/
theorem not_caught_disguise :
    ¬ ∀ (this : PersistedIndex (List UInt64)) (config : PersistConfig) (w w' u v : World Path)
      (full header : Bytes), (∀ x, idIndex.RoundTrips x) →
        writeSnapshot defaultBuild idIndex this w = .ok () w' →
        w'.files this.config.path = some full →
        header.length = 41 + (utf8 idIndex.indexType).length → config.walEnabled = false →
        u.files config.path = some (header ++ full.drop header.length) →
        v.files config.path = some full →
          Refuses defaultBuild idIndex config u ∨
            ∃ y, Recovers defaultBuild idIndex config u y ∧
              Recovers defaultBuild idIndex config v y := by
  intro hall
  obtain ⟨w', full, hsave, hfull, hregion⟩ := exists_plainSave
  have hdecode : decodeSnapshot defaultBuild idIndex (disguise ++ full.drop disguise.length) =
      .ok [2048, 1792] := by
    rw [hregion]
    exact decodeSnapshot_of_legacyHeader (by decide) loadFrom_sampleRegion writeHeader_disguise
  let u := worldOf (disguise ++ full.drop disguise.length)
  have hu : u.files plainConfig.path = some (disguise ++ full.drop disguise.length) := rfl
  have hv : (worldOf full).files plainConfig.path = some full := rfl
  rcases hall _ plainConfig _ _ u (worldOf full) full disguise idIndex_roundTrips hsave hfull
    (length_headerBytes _ _) rfl hu hv with hrefuses | ⟨y, hy, horiginal⟩
  · exact absurd hdecode ((refuses_iff_decodes rfl hu).mp hrefuses rfl _)
  · rw [recovers_iff_decodes rfl hu, hdecode] at hy
    obtain ⟨-, rfl⟩ := hy.imp_right Except.ok.inj
    obtain ⟨full', hbytes, hfull'⟩ := snapshotBytes_of_writeSnapshot hsave
    rw [hfull] at hfull'
    cases hfull'
    obtain ⟨hsame, -⟩ := snapshotInverts_of_decodes (idIndex_roundTrips [7])
      (by simp [defaultBuild]) (by simp [defaultBuild]) hbytes
      ((recovers_iff_decodes rfl hv _).mp horiginal).2
    exact absurd hsame (by decide)

/-- A snapshot with one bit inverted is refused. -/
theorem refuses_flipBit (hround : T.RoundTrips this.inner)
    (hzstd : ∀ codec ∈ b.zstd, codec.Lossless) (hlz4 : ∀ codec ∈ b.lz4, codec.Lossless)
    (hcrc : DetectsBitFlips b.crc32) (hsave : writeSnapshot b T this w = .ok () w')
    (hfull : w'.files this.config.path = some full) (hwal : config.walEnabled = false) {i : ℕ}
    (hi : i < 8 * full.length) (hu : u.files config.path = some (flipBit full i)) :
    Refuses b T config u := by
  obtain ⟨full', hbytes, hfull'⟩ := snapshotBytes_of_writeSnapshot hsave
  rw [hfull] at hfull'
  cases hfull'
  refine (refuses_iff_decodes hwal hu).mpr fun _ y hdecode => ?_
  have htype := length_indexType_of_decodes hdecode
  have hlen : (full.take (41 + (utf8 T.indexType).length)).length =
      41 + (utf8 T.indexType).length := List.length_take_of_le (length_header_le hbytes)
  rw [← List.take_append_drop (41 + (utf8 T.indexType).length) full] at hdecode hi
  by_cases hheader : i < 8 * (41 + (utf8 T.indexType).length)
  · rw [← hlen] at hheader
    rw [flipBit_append_left hheader] at hdecode
    have hlen' := (length_flipBit (full.take (41 + (utf8 T.indexType).length)) i).trans hlen
    rcases header_of_decodes hround hzstd hlz4 hbytes hlen' (by rwa [hlen']) with
      ⟨hsame, -⟩ | ⟨-, tag, -, hlegacy⟩
    · rw [hlen'] at hsame
      exact flipBit_ne hheader hsame
    · have hold := getElem?_version hbytes
      rw [← List.getElem?_take_of_lt (Nat.lt_of_lt_of_le (by decide) (Nat.le_add_right 41 _))]
        at hold
      have hnew : (flipBit (full.take (41 + (utf8 T.indexType).length)) i)[8]? = some 1 :=
        (congrArg (·[8]?) hlegacy).trans (getElem?_headerBytes _ tag)
      rcases eq_or_eq_of_flipBit hold hnew with hversion | hversion
      · exact absurd hversion (by decide)
      · exact one_ne_two_xor_bit (Nat.mod_lt i (by decide)) hversion
  · obtain ⟨j, rfl⟩ := Nat.exists_eq_add_of_le (Nat.not_lt.mp hheader)
    have hflip := flipBit_append_right (full.take (41 + (utf8 T.indexType).length))
      (full.drop (41 + (utf8 T.indexType).length)) j
    rw [hlen] at hflip
    rw [hflip, decodeSnapshot_take_append hbytes htype] at hdecode
    rw [List.length_append, hlen] at hi
    exact hcrc _ j (by omega) (restore_eq_ok_iff.mp hdecode).1

/-- A bit of the magic and a bit of the payload. -/
theorem refuses_flipBit_default : ∃ w' full,
    writeSnapshot defaultBuild idIndex ⟨[7], plainConfig, none⟩ emptyWorld = .ok () w' ∧
    w'.files plainConfig.path = some full ∧ full.drop disguise.length = sampleRegion ∧
    Refuses defaultBuild idIndex plainConfig (worldOf (flipBit full 0)) ∧
    Refuses defaultBuild idIndex plainConfig
      (worldOf (flipBit full (8 * disguise.length + 72))) := by
  obtain ⟨w', full, hsave, hfull, hregion⟩ := exists_plainSave
  have hlen : full.length = disguise.length + 17 := by
    have hlength := congrArg List.length hregion
    rw [List.length_drop, show sampleRegion.length = 17 from rfl] at hlength
    omega
  have hrefuses (i : ℕ) (hi : i < 8 * full.length) :
      Refuses defaultBuild idIndex plainConfig (worldOf (flipBit full i)) :=
    refuses_flipBit (idIndex_roundTrips [7]) (by simp [defaultBuild]) (by simp [defaultBuild])
      Crc32.hash_detectsBitFlips hsave hfull rfl hi rfl
  exact ⟨w', full, hsave, hfull, hregion, hrefuses _ (by omega), hrefuses _ (by omega)⟩

end PersistedIndex

end IqdbPersist
