import IqdbPersist.SampleIndex

/-!
# Compressed payloads

The codecs behind their scheme tags. The decoder refuses a payload that claims to expand more than
a fixed ratio before it calls the codec; the encoder has no such limit, so a payload that
compresses better than the ratio is written and cannot be read.
-/

namespace IqdbPersist

variable {ε M : Type}

@[match_pattern] abbrev schemeNone : UInt8 := 0
@[match_pattern] abbrev schemeZstd : UInt8 := 1
@[match_pattern] abbrev schemeLz4 : UInt8 := 2

def maxDecompressRatio : ℕ := 4096

def schemeTag : Compression → UInt8
  | .none => schemeNone
  | .zstd _ => schemeZstd
  | .lz4 => schemeLz4

/-- `saturating_mul` on `usize`. -/
def saturatingMul (host : Host) (m n : ℕ) : ℕ := min (m * n) host.usizeMax

variable (b : Build M)

def encodeZstd (raw : Bytes) (level : ℤ) : Except (PersistError ε) Bytes :=
  match b.zstd with
  | none => .error (.unsupported "Zstd compression" "the `zstd` cargo feature")
  | some codec =>
    if level < 1 ∨ 22 < level then .error (.compression "zstd level must be in 1..=22")
    else match codec.encodeAll raw level with
      | .ok data => .ok data
      | .error _ => .error (.compression "zstd compression failed")

def encodeLz4 (raw : Bytes) : Except (PersistError ε) Bytes :=
  match b.lz4 with
  | none => .error (.unsupported "LZ4 compression" "the `lz4` cargo feature")
  | some codec => .ok (codec.compress raw)

def compressionEncode (scheme : Compression) (raw : Bytes) : Except (PersistError ε) Bytes :=
  match scheme with
  | .none => .ok raw
  | .zstd level => encodeZstd b raw level
  | .lz4 => encodeLz4 b raw

def decodeZstd (data : Bytes) (uncompressedLen : ℕ) : Except (PersistError ε) Bytes :=
  match b.zstd with
  | none => .error (.unsupported "Zstd decompression" "the `zstd` cargo feature")
  | some codec => match codec.decodeAll data with
    | .error _ => .error (.compression "zstd decompression failed")
    | .ok out =>
      if out.length ≠ uncompressedLen then
        .error (.compression "zstd decompressed length does not match the recorded length")
      else .ok out

def decodeLz4 (data : Bytes) (uncompressedLen : ℕ) : Except (PersistError ε) Bytes :=
  match b.lz4 with
  | none => .error (.unsupported "LZ4 decompression" "the `lz4` cargo feature")
  | some codec => match codec.decompress data uncompressedLen with
    | .error _ => .error (.compression "lz4 decompression failed")
    | .ok out =>
      if out.length ≠ uncompressedLen then
        .error (.compression "lz4 decompressed length does not match the recorded length")
      else .ok out

def compressionDecode (tag : UInt8) (data : Bytes) (uncompressedLen : ℕ) :
    Except (PersistError ε) Bytes :=
  if tag ≠ schemeNone ∧
      saturatingMul b.host data.length maxDecompressRatio < uncompressedLen then
    .error (.invalidPayload "declared uncompressed size exceeds the decompression-ratio guard")
  else match tag with
    | schemeNone => .ok data
    | schemeZstd => decodeZstd b data uncompressedLen
    | schemeLz4 => decodeLz4 b data uncompressedLen
    | _ => .error (.invalidPayload "unknown compression scheme tag")

/-- Decoding inverts encoding on this payload. -/
def Invertible (scheme : Compression) (raw : Bytes) : Prop :=
  ∀ data, compressionEncode (ε := ε) b scheme raw = .ok data →
    compressionDecode (ε := ε) b (schemeTag scheme) data raw.length = .ok raw

theorem invertible_none (raw : Bytes) : Invertible (ε := ε) b .none raw := by
  rintro _ ⟨⟩
  rfl

def ZstdCodec.Lossless (codec : ZstdCodec) : Prop :=
  ∀ raw level data, codec.encodeAll raw level = .ok data → codec.decodeAll data = .ok raw

def Lz4Codec.Lossless (codec : Lz4Codec) : Prop :=
  ∀ raw, codec.decompress (codec.compress raw) raw.length = .ok raw

/-- What a linked codec makes of the payload is not smaller than the guard's ratio allows. -/
def WithinRatio : Compression → Bytes → Prop
  | .none, _ => True
  | .zstd level, raw => ∀ codec ∈ b.zstd, ∀ data, codec.encodeAll raw level = .ok data →
      raw.length ≤ saturatingMul b.host data.length maxDecompressRatio
  | .lz4, raw => ∀ codec ∈ b.lz4,
      raw.length ≤ saturatingMul b.host (codec.compress raw).length maxDecompressRatio

/-- The codec behind the guard. -/
def codecDecode (scheme : Compression) (data : Bytes) (len : ℕ) : Except (PersistError ε) Bytes :=
  match scheme with
  | .none => .ok data
  | .zstd _ => decodeZstd b data len
  | .lz4 => decodeLz4 b data len

theorem compressionDecode_schemeTag (scheme : Compression) (data : Bytes) (len : ℕ) :
    compressionDecode (ε := ε) b (schemeTag scheme) data len =
      if scheme ≠ .none ∧ saturatingMul b.host data.length maxDecompressRatio < len then
        .error (.invalidPayload "declared uncompressed size exceeds the decompression-ratio guard")
      else codecDecode b scheme data len := by
  have hzstd : schemeZstd ≠ schemeNone := by decide
  have hlz4 : schemeLz4 ≠ schemeNone := by decide
  cases scheme with
  | none => simp [compressionDecode, schemeTag, codecDecode]; rfl
  | zstd level => simp [compressionDecode, schemeTag, codecDecode, hzstd]; rfl
  | lz4 => simp [compressionDecode, schemeTag, codecDecode, hlz4]; rfl

theorem compressionDecode_eq_ok_iff {scheme : Compression} {data raw : Bytes}
    (hscheme : scheme ≠ .none)
    (hcodec : codecDecode (ε := ε) b scheme data raw.length = .ok raw) :
    compressionDecode (ε := ε) b (schemeTag scheme) data raw.length = .ok raw ↔
      raw.length ≤ saturatingMul b.host data.length maxDecompressRatio := by
  rw [compressionDecode_schemeTag, hcodec]
  split
  · rename_i hguard
    exact iff_of_false (by simp) (Nat.not_le.mpr hguard.2)
  · rename_i hguard
    exact iff_of_true rfl (Nat.not_lt.mp fun hlt => hguard ⟨hscheme, hlt⟩)

section Encoded

variable {b} {raw data : Bytes}

theorem zstd_of_encode {level : ℤ}
    (h : compressionEncode (ε := ε) b (.zstd level) raw = .ok data) :
    ∃ codec, b.zstd = some codec ∧ codec.encodeAll raw level = .ok data := by
  change encodeZstd b raw level = _ at h
  unfold encodeZstd at h
  cases hcodec : b.zstd with
  | none =>
    rw [hcodec] at h
    cases h
  | some codec =>
    rw [hcodec] at h
    dsimp only at h
    split_ifs at h
    split at h
    · rename_i henc
      cases h
      exact ⟨codec, rfl, henc⟩
    · cases h

theorem lz4_of_encode (h : compressionEncode (ε := ε) b .lz4 raw = .ok data) :
    ∃ codec, b.lz4 = some codec ∧ codec.compress raw = data := by
  change encodeLz4 b raw = _ at h
  unfold encodeLz4 at h
  cases hcodec : b.lz4 with
  | none =>
    rw [hcodec] at h
    cases h
  | some codec =>
    rw [hcodec] at h
    exact ⟨codec, rfl, Except.ok.inj h⟩

end Encoded

section Lossless

variable {b} (hzstd : ∀ codec ∈ b.zstd, codec.Lossless) (hlz4 : ∀ codec ∈ b.lz4, codec.Lossless)

include hzstd hlz4

theorem codecDecode_of_encode {scheme : Compression} {raw data : Bytes}
    (h : compressionEncode (ε := ε) b scheme raw = .ok data) :
    codecDecode (ε := ε) b scheme data raw.length = .ok raw := by
  cases scheme with
  | none =>
    cases h
    rfl
  | zstd level =>
    obtain ⟨codec, hcodec, henc⟩ := zstd_of_encode h
    simp [codecDecode, decodeZstd, hcodec, hzstd codec hcodec raw level data henc]
  | lz4 =>
    obtain ⟨codec, hcodec, rfl⟩ := lz4_of_encode h
    have hdec := hlz4 codec hcodec raw
    simp [codecDecode, decodeLz4, hcodec, hdec]

theorem eq_of_compressionDecode {scheme : Compression} {raw raw' data : Bytes}
    (h : compressionEncode (ε := ε) b scheme raw = .ok data)
    (h' : compressionDecode (ε := ε) b (schemeTag scheme) data raw.length = .ok raw') :
    raw' = raw := by
  rw [compressionDecode_schemeTag, codecDecode_of_encode hzstd hlz4 h] at h'
  split at h'
  · cases h'
  · exact (Except.ok.inj h').symm

/-- What the encoder returned reads back exactly when the payload stays within the ratio. -/
theorem compressionDecode_iff {scheme : Compression} {raw data : Bytes}
    (h : compressionEncode (ε := ε) b scheme raw = .ok data) :
    compressionDecode (ε := ε) b (schemeTag scheme) data raw.length = .ok raw ↔
      WithinRatio b scheme raw := by
  have hread := codecDecode_of_encode hzstd hlz4 h
  cases scheme with
  | none =>
    cases h
    exact iff_of_true rfl trivial
  | zstd level =>
    obtain ⟨codec, hcodec, henc⟩ := zstd_of_encode h
    rw [compressionDecode_eq_ok_iff b (by simp) hread]
    simp [WithinRatio, hcodec, henc]
  | lz4 =>
    obtain ⟨codec, hcodec, rfl⟩ := lz4_of_encode h
    rw [compressionDecode_eq_ok_iff b (by simp) hread]
    simp [WithinRatio, hcodec]

end Lossless

/-- A run of zeros as long as one zstd block. -/
def zeroRun : Bytes := List.replicate 131072 0

/-- What `zstd::encode_all` makes of the run at level 3. -/
def runFrame : Bytes :=
  [0x28, 0xB5, 0x2F, 0xFD, 0x00, 0x58, 0x54, 0x00, 0x00, 0x10, 0x00, 0x00, 0x01, 0x00, 0xFB, 0xFF,
    0x39, 0xC0, 0x02, 0x01, 0x00, 0x00]

/-- Magic, descriptor and window of a frame. -/
def frameStart : Bytes := [0x28, 0xB5, 0x2F, 0xFD, 0x00, 0x58]

/-- What zstd makes of a few bytes: one last block that stores them. -/
def storedFrame (raw : Bytes) : Bytes :=
  frameStart ++ (LittleEndian.encode 3 (8 * raw.length + 1) ++ raw)

def runDecode (data : Bytes) : Except Unit Bytes :=
  if data = runFrame then .ok zeroRun
  else if frameStart <+: data then .ok (data.drop 9)
  else .error ()

/-- A lossless codec that does what zstd does to the run and to what does not compress. -/
def runCodec : ZstdCodec where
  encodeAll raw _ := .ok (if raw = zeroRun then runFrame else storedFrame raw)
  decodeAll := runDecode

theorem storedFrame_ne_runFrame (raw : Bytes) : storedFrame raw ≠ runFrame := by
  intro h
  have hhead : (storedFrame raw)[6]? = runFrame[6]? := by rw [h]
  have hbyte : UInt8.ofNat (8 * raw.length + 1) = 0x54 := Option.some.inj hhead
  have hmod := congrArg UInt8.toNat hbyte
  rw [UInt8.toNat_ofNat'] at hmod
  change (8 * raw.length + 1) % 256 = 84 at hmod
  omega

theorem runCodec_lossless : runCodec.Lossless := by
  rintro raw level data ⟨⟩
  by_cases h : raw = zeroRun
  · rw [if_pos h, h]
    change runDecode runFrame = _
    unfold runDecode
    rw [if_pos rfl]
  · rw [if_neg h]
    have hstart : frameStart <+: storedFrame raw := List.prefix_append _ _
    change runDecode (storedFrame raw) = _
    rw [runDecode, if_neg (storedFrame_ne_runFrame raw), if_pos hstart]
    rfl

def zstdBuild : Build (List (String × Value)) := { defaultBuild with zstd := some runCodec }

theorem compressionEncode_zeroRun :
    compressionEncode (ε := IdError) zstdBuild (.zstd 3) zeroRun = .ok runFrame := by
  have hrun : runCodec.encodeAll zeroRun 3 = .ok runFrame := congrArg Except.ok (if_pos rfl)
  simp only [compressionEncode, encodeZstd, zstdBuild, hrun]
  rfl

theorem zstdBuild_lossless : ∀ codec ∈ zstdBuild.zstd, codec.Lossless := by
  rintro _ ⟨⟩
  exact runCodec_lossless

/-- Two bytes are stored in eleven and come back; the run is stored in 22 and does not. -/
theorem compressionDecode_iff_zstd :
    compressionDecode (ε := IdError) zstdBuild (schemeTag (.zstd 3)) (storedFrame [1, 2]) 2 =
      .ok [1, 2] ∧
    compressionDecode (ε := IdError) zstdBuild (schemeTag (.zstd 3)) runFrame zeroRun.length ≠
      .ok zeroRun := by
  have hlz4 : ∀ codec ∈ zstdBuild.lz4, codec.Lossless := by simp [zstdBuild, defaultBuild]
  have hne : [1, 2] ≠ zeroRun := by
    intro h
    have hlength := congrArg List.length h
    rw [zeroRun, List.length_replicate] at hlength
    exact absurd hlength (by decide)
  have hencoded : runCodec.encodeAll [1, 2] 3 = .ok (storedFrame [1, 2]) :=
    congrArg Except.ok (if_neg hne)
  have hstored :
      compressionEncode (ε := IdError) zstdBuild (.zstd 3) [1, 2] = .ok (storedFrame [1, 2]) := by
    simp only [compressionEncode, encodeZstd, zstdBuild, hencoded]
    rfl
  constructor
  · refine (compressionDecode_iff zstdBuild_lossless hlz4 hstored).mpr ?_
    rintro _ ⟨⟩ data hdata
    cases hencoded.symm.trans hdata
    decide
  · rw [Ne, compressionDecode_iff zstdBuild_lossless hlz4 compressionEncode_zeroRun]
    intro hwithin
    have hle := hwithin runCodec rfl runFrame (congrArg Except.ok (if_pos rfl))
    rw [zeroRun, List.length_replicate] at hle
    exact absurd hle (by decide)

/-- The run is compressed and refused by the decoder. -/
theorem compressionDecode_zeroRun :
    ¬ ∀ (b : Build (List (String × Value))) (scheme : Compression) (raw data : Bytes),
      (∀ codec ∈ b.zstd, codec.Lossless) → (∀ codec ∈ b.lz4, codec.Lossless) →
        compressionEncode (ε := IdError) b scheme raw = .ok data →
          compressionDecode (ε := IdError) b (schemeTag scheme) data raw.length = .ok raw := by
  intro hall
  have hread := hall zstdBuild (.zstd 3) zeroRun runFrame zstdBuild_lossless
    (by simp [zstdBuild, defaultBuild]) compressionEncode_zeroRun
  rw [compressionDecode_schemeTag, if_pos] at hread
  · cases hread
  · refine ⟨by simp, ?_⟩
    rw [zeroRun, List.length_replicate]
    decide

end IqdbPersist
