import IqdbPersist.Compression
import IqdbPersist.Format

/-!
# Snapshot files

A snapshot is a header, a compression preamble and the payload; the header's checksum covers what
follows it. What `write_snapshot` puts into the file reads back as the same index, for every host,
payload and compression that can be inverted.
-/

namespace IqdbPersist

open CrashLogic ByteReader LittleEndian

variable {ε M I : Type} (b : Build M) (T : IndexType ε M I)

def validateConfig (config : PersistConfig) : Except (PersistError ε) Unit :=
  match config.compression with
  | .none => .ok ()
  | .zstd _ =>
    if b.zstd.isSome then .ok ()
    else .error (.unsupported "Zstd compression" "the `zstd` cargo feature")
  | .lz4 =>
    if b.lz4.isSome then .ok ()
    else .error (.unsupported "LZ4 compression" "the `lz4` cargo feature")

section Write

/-- The payload region: scheme tag, uncompressed length, data. -/
def regionBytes (scheme : Compression) (rawLen : ℕ) (data : Bytes) : Bytes :=
  schemeTag scheme :: (encode 8 rawLen ++ data)

def snapshotHeader (inner : I) (region : Bytes) : FileHeader where
  magic := magic
  version := currentVersion
  indexType := T.indexType
  dim := T.dim inner
  metric := T.metric inner
  nVectors := T.len inner
  crc32 := b.crc32 region

/-- What `write_snapshot` hands to the storage. -/
def snapshotBytes (inner : I) (config : PersistConfig) : Except (PersistError ε) Bytes := do
  let payloadBuf ← T.saveTo inner
  let scheme := config.compression
  let data ← compressionEncode b scheme payloadBuf
  let uncompressedLen ← usizeToU64 b.host payloadBuf.length .payloadLen
  let region := regionBytes scheme uncompressedLen.toNat data
  match writeHeader b.host (snapshotHeader b T inner region) [] with
  | .ok _ full => .ok (full ++ region)
  | .error e _ => .error e

end Write

section Read

/-- `checksum::verify` -/
def verify (bytes : Bytes) (expected : UInt32) : Except (PersistError ε) Unit :=
  if b.crc32 bytes = expected then .ok ()
  else .error (.checksumMismatch expected (b.crc32 bytes))

/-- The payload region as the version of the file has it. -/
def decodeRegion (version : UInt32) (payload : Bytes) : Except (PersistError ε) Bytes :=
  if 2 ≤ version then
    if payload.length < 9 then .error (.truncatedPayload 9 payload.length)
    else do
      let tag := payload.headD 0
      let lenU64 := UInt64.ofNat (decode ((payload.drop 1).take 8))
      let uncompressedLen ← u64ToUsize b.host lenU64 .uncompressedLen
      compressionDecode b tag (payload.drop 9) uncompressedLen
  else .ok payload

/-- The index behind a header, if it is the one that the header announces. -/
def restore (header : FileHeader) (payload : Bytes) : Except (PersistError ε) I := do
  verify b payload header.crc32
  let raw ← decodeRegion b header.version payload
  let inner ← T.loadFrom raw
  if T.dim inner ≠ header.dim then
    .error (.invalidPayload "header dim disagrees with payload-reconstructed index")
  else if T.metric inner ≠ header.metric then
    .error (.invalidPayload "header metric disagrees with payload-reconstructed index")
  else if T.len inner ≠ header.nVectors then
    .error (.invalidPayload "header n_vectors disagrees with payload-reconstructed index")
  else .ok inner

/-- What `load` makes of the snapshot file, before the log is looked at. -/
def decodeSnapshot (bytes : Bytes) : Except (PersistError ε) I :=
  match readHeader b.host ⟨bytes, 0⟩ with
  | .error e _ => .error e
  | .ok header cursor =>
    let headerEnd := cursor.pos
    if b.host.usizeMax < headerEnd then
      .error (.invalidPayload "header position does not fit in usize")
    else if bytes.length < headerEnd then .error (.truncatedHeader headerEnd bytes.length)
    else if header.indexType ≠ T.indexType then
      .error (.invalidIndexType header.indexType T.indexType)
    else restore b T header (bytes.drop headerEnd)

end Read

section RoundTrip

variable {b T} {x : I} {config : PersistConfig} {full : Bytes}

theorem snapshotBytes_eq_ok (h : snapshotBytes b T x config = .ok full) :
    ∃ raw data tag, T.saveTo x = .ok raw ∧
      compressionEncode b config.compression raw = (.ok data : Except (PersistError ε) _) ∧
      raw.length ≤ b.host.usizeMax ∧ T.dim x ≤ b.host.usizeMax ∧ T.len x ≤ b.host.usizeMax ∧
      metricToTag (ε := ε) (T.metric x) = .ok tag ∧
      full = headerBytes (snapshotHeader b T x (regionBytes config.compression raw.length data)) tag
        ++ regionBytes config.compression raw.length data := by
  unfold snapshotBytes at h
  cases hraw : T.saveTo x with
  | error e => rw [hraw] at h; cases h
  | ok raw =>
    cases hdata : compressionEncode (ε := ε) b config.compression raw with
    | error e => simp only [hraw, hdata, bind, Except.bind] at h; cases h
    | ok data =>
      cases hlen : usizeToU64 (ε := ε) b.host raw.length .payloadLen with
      | error e => simp only [hraw, hdata, hlen, bind, Except.bind] at h; cases h
      | ok len =>
        obtain ⟨hle, htoNat⟩ := usizeToU64_eq_ok hlen
        simp only [hraw, hdata, hlen, htoNat, bind, Except.bind] at h
        split at h
        · rename_i header hheader
          obtain ⟨-, hdim, hn, tag, htag, hbytes⟩ := ends_of_ok (ends_writeHeader _ _ _) hheader
          refine ⟨raw, data, tag, rfl, hdata, hle, hdim, hn, htag, ?_⟩
          rw [← Except.ok.inj h, hbytes, List.nil_append]
        · cases h

theorem decodeRegion_one (region : Bytes) :
    decodeRegion (ε := ε) b 1 region = .ok region := if_neg (by decide)

theorem decodeRegion_regionBytes (scheme : Compression) {raw : Bytes} (data : Bytes)
    {version : UInt32} (hversion : 2 ≤ version) (hle : raw.length ≤ b.host.usizeMax) :
    decodeRegion (ε := ε) b version (regionBytes scheme raw.length data) =
      compressionDecode b (schemeTag scheme) data raw.length := by
  have hlen : ¬ (regionBytes scheme raw.length data).length < 9 := by
    simp only [regionBytes, List.length_cons, List.length_append, length_encode]
    omega
  have htake : ((regionBytes scheme raw.length data).drop 1).take 8 = encode 8 raw.length :=
    List.take_left' (length_encode 8 raw.length)
  have hdrop : (regionBytes scheme raw.length data).drop 9 = data := by
    rw [show (9 : ℕ) = 1 + 8 from rfl, ← List.drop_drop]
    exact List.drop_left' (length_encode 8 raw.length)
  rw [decodeRegion, if_pos hversion, if_neg hlen, htake, hdrop]
  simp only [u64ToUsize_of_encode hle]
  rfl

/-- What a header restores from a region: the checksum, the decoder, the index and the header's
numbers agree. -/
theorem restore_eq_ok_iff {h : FileHeader} {region : Bytes} {y : I} :
    restore b T h region = .ok y ↔
      b.crc32 region = h.crc32 ∧ ∃ raw, decodeRegion (ε := ε) b h.version region = .ok raw ∧
        T.loadFrom raw = .ok y ∧ T.dim y = h.dim ∧ T.metric y = h.metric ∧
        T.len y = h.nVectors := by
  constructor
  · intro hrestore
    by_cases hcrc : b.crc32 region = h.crc32
    · rw [restore, verify, if_pos hcrc] at hrestore
      cases hregion : decodeRegion (ε := ε) b h.version region with
      | error e => rw [hregion] at hrestore; cases hrestore
      | ok raw =>
        cases hload : T.loadFrom raw with
        | error e => simp only [hregion, hload, bind, Except.bind] at hrestore; cases hrestore
        | ok inner =>
          simp only [hregion, hload, bind, Except.bind] at hrestore
          split_ifs at hrestore with hdim hmetric hn
          cases hrestore
          exact ⟨hcrc, raw, rfl, hload, not_not.mp hdim, not_not.mp hmetric, not_not.mp hn⟩
    · rw [restore, verify, if_neg hcrc] at hrestore
      cases hrestore
  · rintro ⟨hcrc, raw, hregion, hload, hdim, hmetric, hn⟩
    simp only [restore, verify, hcrc, if_true, hregion, hload, hdim, hmetric, hn, bind, Except.bind,
      ne_eq, not_true_eq_false, if_false]

theorem restore_snapshotHeader {raw data : Bytes} (hround : T.RoundTrips x)
    (hraw : T.saveTo x = .ok raw) (hle : raw.length ≤ b.host.usizeMax)
    (hdecode : compressionDecode b (schemeTag config.compression) data raw.length =
      (.ok raw : Except (PersistError ε) _)) :
    restore b T (snapshotHeader b T x (regionBytes config.compression raw.length data))
      (regionBytes config.compression raw.length data) = .ok x := by
  have hversion : 2 ≤ currentVersion := by decide
  refine restore_eq_ok_iff.mpr ⟨rfl, raw, ?_, hround raw hraw, rfl, rfl, rfl⟩
  exact (decodeRegion_regionBytes config.compression data hversion hle).trans hdecode

theorem decodeSnapshot_headerBytes {h : FileHeader} {tag : UInt8} (hread : Readable ε b.host h tag)
    (htype : h.indexType = T.indexType) (region : Bytes) :
    decodeSnapshot b T (headerBytes h tag ++ region) = restore b T h region := by
  have hlen : (headerBytes h tag).length ≤ b.host.usizeMax := by
    have hge := b.host.usizeMax_ge
    have hcap : (utf8 h.indexType).length ≤ 4096 := hread.indexType
    rw [length_headerBytes]
    omega
  have hend : ¬ (headerBytes h tag ++ region).length < (headerBytes h tag).length := by
    rw [List.length_append]
    omega
  rw [decodeSnapshot, (consumes_readHeader hread).run hlen region]
  simp only [if_neg (Nat.not_lt.mpr hlen), if_neg hend, List.drop_left]
  rw [if_neg (by simp [htype])]

theorem decodeSnapshot_eq_ok {bytes : Bytes} {y : I} (h : decodeSnapshot b T bytes = .ok y) :
    ∃ header tag region, Readable ε b.host header tag ∧ header.indexType = T.indexType ∧
      bytes = headerBytes header tag ++ region ∧ restore b T header region = .ok y := by
  unfold decodeSnapshot at h
  split at h
  · cases h
  · rename_i header cursor hread
    obtain ⟨tag, hreadable, hreads⟩ := ends_of_ok (ends_readHeader _ _) hread
    obtain ⟨hbytes, hpos⟩ := hreads.bytes_eq
    dsimp only at h
    split_ifs at h with hmax hend htype
    rw [hpos] at h
    exact ⟨header, tag, _, hreadable, not_not.mp htype, hbytes, h⟩

theorem readable_snapshotHeader {tag : UInt8} {region : Bytes}
    (htype : (utf8 T.indexType).length ≤ maxIndexTypeLen) (hdim : T.dim x ≤ b.host.usizeMax)
    (hn : T.len x ≤ b.host.usizeMax) (htag : metricToTag (ε := ε) (T.metric x) = .ok tag) :
    Readable ε b.host (snapshotHeader b T x region) tag := by
  have hversion : minSupportedVersion ≤ currentVersion ∧ currentVersion ≤ currentVersion := by
    decide
  exact ⟨rfl, hversion, htype, hdim, hn, htag⟩

theorem decodeSnapshot_snapshotBytes (hround : T.RoundTrips x)
    (htype : (utf8 T.indexType).length ≤ maxIndexTypeLen)
    (hinv : ∀ raw, T.saveTo x = .ok raw → Invertible (ε := ε) b config.compression raw)
    (h : snapshotBytes b T x config = .ok full) : decodeSnapshot b T full = .ok x := by
  obtain ⟨raw, data, tag, hraw, hdata, hle, hdim, hn, htag, rfl⟩ := snapshotBytes_eq_ok h
  rw [decodeSnapshot_headerBytes (readable_snapshotHeader htype hdim hn htag) rfl]
  exact restore_snapshotHeader hround hraw hle (hinv raw hraw data hdata)

end RoundTrip

end IqdbPersist
