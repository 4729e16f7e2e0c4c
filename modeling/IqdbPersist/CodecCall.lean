import IqdbPersist.Compression

/-!
# The call of the codec

`decode` comes to a codec with the data and the length that the file declares, after the guard has
compared the two. A codec that is told the length produces no more than that; zstd is not told, and
produces the whole content of its frame. So the guard's ratio bounds what is decompressed unless a
zstd frame holds more than it declares.
-/

namespace IqdbPersist

variable {ε M : Type} (b : Build M)

/-- What `decode` has a codec do, if it needs one. -/
inductive CodecCall where
  | verbatim (raw : Bytes)
  | zstd (data : Bytes) (uncompressedLen : ℕ)
  | lz4 (data : Bytes) (uncompressedLen : ℕ)
  deriving DecidableEq

def zstdCall (data : Bytes) (uncompressedLen : ℕ) : Except (PersistError ε) CodecCall :=
  match b.zstd with
  | none => .error (.unsupported "Zstd decompression" "the `zstd` cargo feature")
  | some _ => .ok (.zstd data uncompressedLen)

def lz4Call (data : Bytes) (uncompressedLen : ℕ) : Except (PersistError ε) CodecCall :=
  match b.lz4 with
  | none => .error (.unsupported "LZ4 decompression" "the `lz4` cargo feature")
  | some _ => .ok (.lz4 data uncompressedLen)

/-- `decode` up to the call. -/
def codecCall (tag : UInt8) (data : Bytes) (uncompressedLen : ℕ) :
    Except (PersistError ε) CodecCall :=
  if tag ≠ schemeNone ∧
      saturatingMul b.host data.length maxDecompressRatio < uncompressedLen then
    .error (.invalidPayload "declared uncompressed size exceeds the decompression-ratio guard")
  else match tag with
    | schemeNone => .ok (.verbatim data)
    | schemeZstd => zstdCall b data uncompressedLen
    | schemeLz4 => lz4Call b data uncompressedLen
    | _ => .error (.invalidPayload "unknown compression scheme tag")

namespace CodecCall

/-- What the codec produces, whatever its length. -/
def output : CodecCall → Option Bytes
  | .verbatim raw => some raw
  | .zstd data _ => b.zstd.bind fun codec => (codec.decodeAll data).toOption
  | .lz4 data uncompressedLen =>
      b.lz4.bind fun codec => (codec.decompress data uncompressedLen).toOption

/-- `decode` from the call on. -/
def answer : CodecCall → Except (PersistError ε) Bytes
  | .verbatim raw => .ok raw
  | .zstd data uncompressedLen => decodeZstd b data uncompressedLen
  | .lz4 data uncompressedLen => decodeLz4 b data uncompressedLen

end CodecCall

theorem decodeZstd_eq (data : Bytes) (uncompressedLen : ℕ) :
    decodeZstd (ε := ε) b data uncompressedLen =
      zstdCall b data uncompressedLen >>= CodecCall.answer b := by
  cases hzstd : b.zstd with
  | none =>
    rw [decodeZstd, zstdCall, hzstd]
    rfl
  | some codec =>
    rw [zstdCall, hzstd]
    rfl

theorem decodeLz4_eq (data : Bytes) (uncompressedLen : ℕ) :
    decodeLz4 (ε := ε) b data uncompressedLen =
      lz4Call b data uncompressedLen >>= CodecCall.answer b := by
  cases hlz4 : b.lz4 with
  | none =>
    rw [decodeLz4, lz4Call, hlz4]
    rfl
  | some codec =>
    rw [lz4Call, hlz4]
    rfl

theorem compressionDecode_eq (tag : UInt8) (data : Bytes) (uncompressedLen : ℕ) :
    compressionDecode (ε := ε) b tag data uncompressedLen =
      codecCall b tag data uncompressedLen >>= CodecCall.answer b := by
  fun_cases compressionDecode (ε := ε) b tag data uncompressedLen with
  | case1 _ hguard =>
    unfold codecCall
    rw [if_pos hguard]
    rfl
  | case2 hguard =>
    rw [codecCall, if_neg hguard]
    rfl
  | case3 hguard =>
    rw [codecCall, if_neg hguard]
    exact decodeZstd_eq b data uncompressedLen
  | case4 hguard =>
    rw [codecCall, if_neg hguard]
    exact decodeLz4_eq b data uncompressedLen
  | case5 _ hguard hnone hzstd hlz4 =>
    rw [codecCall, if_neg hguard]
    · rfl
    · exact hnone
    · exact hzstd
    · exact hlz4

/-- The codec returns what the format says a frame holds, and fails on what is no frame. -/
def ZstdCodec.Decodes (codec : ZstdCodec) (content : Bytes → Option Bytes) : Prop :=
  ∀ data, (codec.decodeAll data).toOption = content data

/-- The codec produces no more than it is given room for. -/
def Lz4Codec.Bounded (codec : Lz4Codec) : Prop :=
  ∀ data n out, codec.decompress data n = .ok out → out.length ≤ n

variable {b} {tag : UInt8} {data out : Bytes} {uncompressedLen : ℕ}

theorem codecCall_eq_ok {call : CodecCall}
    (h : codecCall (ε := ε) b tag data uncompressedLen = .ok call) :
    call = .verbatim data ∨
      uncompressedLen ≤ saturatingMul b.host data.length maxDecompressRatio ∧
        (tag = schemeZstd ∧ b.zstd.isSome ∧ call = .zstd data uncompressedLen ∨
          tag = schemeLz4 ∧ b.lz4.isSome ∧ call = .lz4 data uncompressedLen) := by
  unfold codecCall at h
  split at h
  · cases h
  · rename_i hguard
    split at h
    · cases h
      exact .inl rfl
    · refine .inr ⟨Nat.not_lt.mp fun hlt => hguard ⟨by decide, hlt⟩, .inl ⟨rfl, ?_⟩⟩
      cases hzstd : b.zstd with
      | none =>
        rw [zstdCall, hzstd] at h
        cases h
      | some codec =>
        rw [zstdCall, hzstd] at h
        cases h
        exact ⟨rfl, rfl⟩
    · refine .inr ⟨Nat.not_lt.mp fun hlt => hguard ⟨by decide, hlt⟩, .inr ⟨rfl, ?_⟩⟩
      cases hlz4 : b.lz4 with
      | none =>
        rw [lz4Call, hlz4] at h
        cases h
      | some codec =>
        rw [lz4Call, hlz4] at h
        cases h
        exact ⟨rfl, rfl⟩
    · cases h

/-- What is produced stays within the ratio, unless it is a zstd frame that holds more than it
declares. -/
theorem output_le_iff {content : Bytes → Option Bytes}
    (hzstd : ∀ codec ∈ b.zstd, codec.Decodes content) (hlz4 : ∀ codec ∈ b.lz4, codec.Bounded)
    (tag : UInt8) (data : Bytes) (uncompressedLen : ℕ) :
    (∀ call out, codecCall (ε := ε) b tag data uncompressedLen = .ok call →
        call.output b = some out → out.length ≤ maxDecompressRatio * data.length) ↔
      ¬ (tag = schemeZstd ∧ b.zstd.isSome ∧
        uncompressedLen ≤ saturatingMul b.host data.length maxDecompressRatio ∧
        ∃ raw, content data = some raw ∧ maxDecompressRatio * data.length < raw.length) := by
  have hsaturating : saturatingMul b.host data.length maxDecompressRatio ≤
      maxDecompressRatio * data.length := by
    rw [Nat.mul_comm]
    exact Nat.min_le_left _ _
  constructor
  · rintro hbound ⟨rfl, hlinked, hguard, raw, hraw, hlt⟩
    obtain ⟨codec, hcodec⟩ := Option.isSome_iff_exists.mp hlinked
    have hcall : codecCall (ε := ε) b schemeZstd data uncompressedLen =
        .ok (.zstd data uncompressedLen) := by
      have hpass : ¬ (schemeZstd ≠ schemeNone ∧
          saturatingMul b.host data.length maxDecompressRatio < uncompressedLen) :=
        fun h => absurd hguard (Nat.not_le.mpr h.2)
      unfold codecCall
      rw [if_neg hpass]
      change zstdCall b data uncompressedLen = _
      rw [zstdCall, hcodec]
    have hproduced : (CodecCall.zstd data uncompressedLen).output b = some raw := by
      rw [CodecCall.output, hcodec, Option.bind_some, hzstd codec hcodec data, hraw]
    exact Nat.not_lt.mpr (hbound _ raw hcall hproduced) hlt
  · intro hsafe call out hcall hout
    rcases codecCall_eq_ok hcall with rfl | ⟨hguard, ⟨rfl, hlinked, rfl⟩ | ⟨rfl, -, rfl⟩⟩
    · cases hout
      rw [maxDecompressRatio]
      omega
    · obtain ⟨codec, hcodec, hdecode⟩ := Option.bind_eq_some_iff.mp hout
      rw [hzstd codec hcodec data] at hdecode
      exact Nat.not_lt.mp fun hlt => hsafe ⟨rfl, hlinked, hguard, out, hdecode, hlt⟩
    · obtain ⟨codec, hcodec, hdecode⟩ := Option.bind_eq_some_iff.mp hout
      cases hrun : codec.decompress data uncompressedLen with
      | error e =>
        rw [hrun] at hdecode
        cases hdecode
      | ok raw =>
        rw [hrun] at hdecode
        cases hdecode
        calc out.length ≤ uncompressedLen := hlz4 codec hcodec data _ out hrun
          _ ≤ saturatingMul b.host data.length maxDecompressRatio := hguard
          _ ≤ maxDecompressRatio * data.length := hsaturating

/-- Ten bytes that declare to be empty and hold a block of zeros. -/
theorem output_le_iff_runFrame :
    (∀ call out, codecCall (ε := IdError) zstdBuild schemeZstd runFrame 0 = .ok call →
        call.output zstdBuild = some out → out.length ≤ maxDecompressRatio * runFrame.length) ↔
      ¬ (schemeZstd = schemeZstd ∧ zstdBuild.zstd.isSome ∧
        0 ≤ saturatingMul zstdBuild.host runFrame.length maxDecompressRatio ∧
        ∃ raw, (runDecode runFrame).toOption = some raw ∧
          maxDecompressRatio * runFrame.length < raw.length) := by
  have hdecodes : ∀ codec ∈ zstdBuild.zstd,
      codec.Decodes fun data => (runDecode data).toOption := by
    rintro _ ⟨⟩
    exact fun _ => rfl
  exact output_le_iff hdecodes (by rintro _ ⟨⟩) schemeZstd runFrame 0

theorem not_output_le :
    ¬ ∀ (b : Build (List (String × Value))) (tag : UInt8) (data : Bytes) (uncompressedLen : ℕ)
      (call : CodecCall) (out : Bytes), (∀ codec ∈ b.lz4, codec.Bounded) →
        codecCall (ε := IdError) b tag data uncompressedLen = .ok call →
          call.output b = some out → out.length ≤ maxDecompressRatio * data.length := by
  intro hall
  have hle := hall zstdBuild schemeZstd runFrame 0 (.zstd runFrame 0) zeroRun
    (by rintro _ ⟨⟩) rfl rfl
  rw [zeroRun, List.length_replicate] at hle
  exact absurd hle (by decide)

end IqdbPersist
