import IqdbPersist.CheckedOps
import IqdbPersist.Snapshot
import IqdbPersist.WalParse

/-!
# The parsers with their bounds

The parsers of the log and of the snapshot once more, with every index, slice and sum of positions
as an operation that panics when its bound is violated. Each is the plain parser with its errors
reported, and the loop over the frames ends.
-/

namespace IqdbPersist

open CrashLogic ByteReader LittleEndian CheckedOps FramedLog

variable {ε M I : Type} (b : Build M)

section Record

/-- `Cur::u8` -/
def checkedU8 : EStateM (Fault (PersistError ε)) Cursor UInt8 := do
  settle (index (← tame (take b 1)) 0)

/-- `Cur::u32` -/
def checkedU32 : EStateM (Fault (PersistError ε)) Cursor UInt32 := do
  let bytes ← tame (take b 4)
  pure (UInt32.ofNat (decode (← settle (gather b.host.usizeMax bytes 0 [0, 1, 2, 3]))))

/-- `Cur::u64` -/
def checkedU64 : EStateM (Fault (PersistError ε)) Cursor UInt64 := do
  let bytes ← tame (take b 8)
  pure (UInt64.ofNat (decode (← settle (gather b.host.usizeMax bytes 0 [0, 1, 2, 3, 4, 5, 6, 7]))))

/-- `Cur::i64` -/
def checkedI64 : EStateM (Fault (PersistError ε)) Cursor Int64 := do
  pure (← checkedU64 b).toInt64

/-- `Cur::f32` -/
def checkedF32 : EStateM (Fault (PersistError ε)) Cursor F32 := do
  let bytes ← tame (take b 4)
  pure (UInt32.ofNat (decode (← settle (gather b.host.usizeMax bytes 0 [0, 1, 2, 3]))))

/-- `Cur::f64` -/
def checkedF64 : EStateM (Fault (PersistError ε)) Cursor F64 := checkedU64 b

def checkedString (reason : String) : EStateM (Fault (PersistError ε)) Cursor String := do
  let len ← checkedU32 b
  match fromUtf8 (← tame (take b len.toNat)) with
  | some s => pure s
  | none => throw (.error (.invalidPayload reason))

def checkedVectorId : EStateM (Fault (PersistError ε)) Cursor VectorId := do
  match ← checkedU8 b with
  | vidU64 => pure (.u64 (← checkedU64 b))
  | vidBytes => do
    let len ← checkedU64 b
    if b.host.usizeMax < len.toNat then
      throw (.error (.invalidPayload "WAL vector-id length does not fit in usize"))
    else pure (.bytes (← tame (take b len.toNat)))
  | _ => throw (.error (.invalidPayload "unknown WAL vector-id kind"))

def checkedValue : EStateM (Fault (PersistError ε)) Cursor Value := do
  match ← checkedU8 b with
  | valString => pure (.string (← checkedString b "WAL metadata string is not valid UTF-8"))
  | valInt => pure (.int (← checkedI64 b))
  | valFloat => pure (.float (← checkedF64 b))
  | valBool => pure (.bool ((← checkedU8 b) != 0))
  | valNull => pure .null
  | _ => throw (.error (.invalidPayload "unknown WAL metadata value tag"))

def checkedEntry : EStateM (Fault (PersistError ε)) Cursor (String × Value) := do
  let key ← checkedString b "WAL metadata key is not valid UTF-8"
  let value ← checkedValue b
  pure (key, value)

def checkedMetadata : EStateM (Fault (PersistError ε)) Cursor M := do
  let n ← checkedU32 b
  let entries ← times (checkedEntry b) n.toNat
  pure (b.metadata.collect entries)

def checkedBody : EStateM (Fault (PersistError ε)) Cursor (WalRecord M) := do
  match ← checkedU8 b with
  | opInsert => do
    let id ← checkedVectorId b
    let vecLen ← checkedU32 b
    let vector ← times (checkedF32 b) vecLen.toNat
    let hasMeta ← checkedU8 b
    if hasMeta = 1 then
      let m ← checkedMetadata b
      pure (.insert id vector (some m))
    else pure (.insert id vector none)
  | opDelete => pure (.delete (← checkedVectorId b))
  | _ => throw (.error (.invalidPayload "unknown WAL op code"))

def checkedRecord (body : Bytes) : Except (Fault (PersistError ε)) (WalRecord M) :=
  match checkedBody b ⟨body, 0⟩ with
  | .ok r _ => .ok r
  | .error e _ => .error e

theorem take_then {α : Type} {n : ℕ} {f g : Bytes → EStateM (Fault (PersistError ε)) Cursor α}
    (h : ∀ bytes : Bytes, bytes.length = n → f bytes = g bytes) :
    (tame (take b n) >>= f) = tame (take b n) >>= g :=
  tame_bind_congr (fun c => (ends_take b n c).mono (fun _ _ h => h.1) fun _ _ h => h) h

theorem checkedU8_eq : checkedU8 (ε := ε) b = tame (readU8 b) := by
  rw [readU8, tame_bind]
  refine take_then b fun bytes hbytes => ?_
  obtain ⟨byte, rfl⟩ := List.length_eq_one_iff.mp hbytes
  rfl

theorem gather_slice {bytes : Bytes} {n : ℕ} (hn : n ≤ 8) (hbytes : bytes.length = n) :
    (gather b.host.usizeMax bytes 0 (List.range' 0 n) : Except (Fault ε) Bytes) = .ok bytes := by
  have hhost := b.host.usizeMax_ge
  rw [gather_range' (by omega) 0 (by omega), Nat.add_zero, List.drop_zero,
    List.take_of_length_le (Nat.le_of_eq hbytes)]

theorem checkedU32_eq : checkedU32 (ε := ε) b = tame (readU32 b) := by
  rw [readU32, tame_bind]
  refine take_then b fun bytes hbytes => ?_
  rw [show [0, 1, 2, 3] = List.range' 0 4 from rfl, gather_slice b (by decide) hbytes]
  rfl

theorem checkedU64_eq : checkedU64 (ε := ε) b = tame (readU64 b) := by
  rw [readU64, tame_bind]
  refine take_then b fun bytes hbytes => ?_
  rw [show [0, 1, 2, 3, 4, 5, 6, 7] = List.range' 0 8 from rfl, gather_slice b (by decide) hbytes]
  rfl

theorem checkedF32_eq : checkedF32 (ε := ε) b = tame (readF32 b) := checkedU32_eq b

theorem checkedString_eq (reason : String) :
    checkedString (ε := ε) b reason = tame (readString b reason) := by
  rw [checkedString, readString, checkedU32_eq]
  simp only [tame_bind]
  congr 1
  funext len
  congr 1
  funext bytes
  cases fromUtf8 bytes <;> rfl

theorem checkedVectorId_eq : checkedVectorId (ε := ε) b = tame (decodeVectorId b) := by
  rw [checkedVectorId, decodeVectorId, checkedU8_eq, checkedU64_eq]
  simp only [tame_bind]
  congr 1
  funext kind
  split <;> simp only [tame_bind, tame_pure, tame_throw, tame_ite]

theorem checkedValue_eq : checkedValue (ε := ε) b = tame (decodeValue b) := by
  rw [checkedValue, decodeValue, checkedI64, checkedF64, readI64, readF64, checkedU8_eq,
    checkedU64_eq, checkedString_eq]
  simp only [tame_bind]
  congr 1
  funext tag
  split <;> simp only [tame_bind, tame_pure, tame_throw]

theorem checkedEntry_eq : checkedEntry (ε := ε) b = tame (decodeEntry b) := by
  simp only [checkedEntry, decodeEntry, checkedString_eq, checkedValue_eq, tame_bind, tame_pure]

theorem checkedMetadata_eq : checkedMetadata (ε := ε) b = tame (decodeMetadata b) := by
  simp only [checkedMetadata, decodeMetadata, checkedU32_eq, checkedEntry_eq, tame_bind, tame_pure,
    tame_times]

theorem checkedBody_eq : checkedBody (ε := ε) b = tame (decodeBody b) := by
  rw [checkedBody, decodeBody, checkedU8_eq, checkedU32_eq, checkedF32_eq, checkedVectorId_eq,
    checkedMetadata_eq]
  simp only [tame_bind]
  congr 1
  funext op
  split <;> simp only [tame_bind, tame_pure, tame_throw, tame_times, tame_ite]

theorem checkedRecord_eq (body : Bytes) :
    checkedRecord (ε := ε) b body = reported (decodeRecord b body) := by
  rw [checkedRecord, checkedBody_eq, decodeRecord]
  cases h : decodeBody (ε := ε) b ⟨body, 0⟩ <;> simp only [tame, h, reported]

end Record

section Log

def cloneFirst8 (bytes : Bytes) : Except (Fault (PersistError ε)) Bytes := do
  let n := min bytes.length 8
  copyFromSlice (List.replicate 8 0) n (← slice bytes 0 n)

/-- One pass through the `while` of `parse_records`. -/
def checkedRound (bytes : Bytes) (s : ℕ × List (WalRecord M)) :
    Except (Fault (PersistError ε)) (ForInStep (ℕ × List (WalRecord M))) := do
  let (pos, records) := s
  if pos < bytes.length then
    if (← sub bytes.length pos) < 8 then pure (.done s)
    else
      let len := decode (← gather b.host.usizeMax bytes pos [0, 1, 2, 3])
      let crc := UInt32.ofNat (decode (← gather b.host.usizeMax bytes pos [4, 5, 6, 7]))
      if maxRecordLen < len then pure (.done s)
      else
        let bodyStart ← add b.host.usizeMax pos 8
        match checkedAdd b.host.usizeMax bodyStart len with
        | none => pure (.done s)
        | some bodyEnd =>
          if bytes.length < bodyEnd then pure (.done s)
          else
            let body ← slice bytes bodyStart bodyEnd
            if b.crc32 body != crc then pure (.done s)
            else
              let record ← checkedRecord b body
              pure (.yield (bodyEnd, records ++ [record]))
  else pure (.done s)

def checkedParseRecords (fuel : ℕ) (bytes : Bytes) :
    Except (Fault (PersistError ε)) (List (WalRecord M)) := do
  if bytes.length < 12 then pure []
  else if (← slice bytes 0 8) != walMagic then
    throw (.error (.badMagic (← cloneFirst8 bytes)))
  else
    let version := UInt32.ofNat (decode (← gather b.host.usizeMax bytes 0 [8, 9, 10, 11]))
    if version != walVersion then throw (.error (.unsupportedVersion version walVersion))
    else
      let (_, records) ← loop (checkedRound b bytes) fuel (12, [])
      pure records

variable {bytes : Bytes}

theorem cloneFirst8_eq (h : 8 ≤ bytes.length) :
    cloneFirst8 (ε := ε) bytes = .ok (bytes.take 8) := by
  have hmin : min bytes.length 8 = 8 := Nat.min_eq_right h
  have hlen : ((bytes.drop 0).take (8 - 0)).length = 8 := by
    rw [List.length_take, List.drop_zero]
    omega
  rw [cloneFirst8, hmin, slice_eq (Nat.zero_le 8) h]
  exact (copyFromSlice_eq (by decide) hlen).trans (by simp)

theorem gather_field (hbytes : bytes.length ≤ b.host.usizeMax) (pos : ℕ) {i : ℕ}
    (h : pos + i + 4 ≤ bytes.length) :
    (gather b.host.usizeMax bytes pos [i, i + 1, i + 2, i + 3] : Except (Fault ε) Bytes) =
      .ok ((bytes.drop (pos + i)).take 4) :=
  gather_range' hbytes pos h

/-- A round takes one frame or ends the loop, and nothing in it panics. -/
theorem checkedRound_eq (hbytes : bytes.length ≤ b.host.usizeMax) (pos : ℕ)
    (records : List (WalRecord M)) :
    checkedRound (ε := ε) b bytes (pos, records) =
      if pos < bytes.length then
        if bytes.length - pos < 8 then .ok (.done (pos, records))
        else
          let len := decode ((bytes.drop pos).take 4)
          let body := (bytes.drop (pos + 8)).take len
          if maxRecordLen < len then .ok (.done (pos, records))
          else if bytes.length < pos + 8 + len then .ok (.done (pos, records))
          else if b.crc32 body != UInt32.ofNat (decode ((bytes.drop (pos + 4)).take 4)) then
            .ok (.done (pos, records))
          else (reported (decodeRecord b body)).map fun record =>
            .yield (pos + 8 + len, records ++ [record])
      else .ok (.done (pos, records)) := by
  rw [checkedRound]
  dsimp only
  by_cases hpos : pos < bytes.length
  · rw [if_pos hpos, if_pos hpos, sub_eq (Nat.le_of_lt hpos), ok_bind]
    by_cases h8 : bytes.length - pos < 8
    · rw [if_pos h8, if_pos h8]
      rfl
    · have hlen := gather_field (ε := PersistError ε) b hbytes pos (i := 0) (by omega)
      have hcrc := gather_field (ε := PersistError ε) b hbytes pos (i := 4) (by omega)
      rw [if_neg h8, if_neg h8, hlen, hcrc, ok_bind, ok_bind, Nat.add_zero]
      generalize hn : decode ((bytes.drop pos).take 4) = len
      by_cases hmax : maxRecordLen < len
      · rw [if_pos hmax, if_pos hmax]
        rfl
      · rw [if_neg hmax, if_neg hmax, add_eq (by omega), ok_bind]
        by_cases hend : bytes.length < pos + 8 + len
        · rw [if_pos hend, checkedAdd]
          by_cases hfit : pos + 8 + len ≤ b.host.usizeMax
          · rw [if_pos hfit]
            exact if_pos hend
          · rw [if_neg hfit]
            rfl
        · have hslice := slice_eq (ε := PersistError ε) (i := pos + 8) (j := pos + 8 + len)
            (Nat.le_add_right _ _) (Nat.not_lt.mp hend)
          rw [Nat.add_sub_cancel_left] at hslice
          rw [if_neg hend, checkedAdd, if_pos (by omega)]
          dsimp only
          rw [if_neg hend, hslice, ok_bind, checkedRecord_eq]
          split_ifs
          · rfl
          · cases decodeRecord (ε := ε) b ((bytes.drop (pos + 8)).take len) <;> rfl
  · rw [if_neg hpos, if_neg hpos]
    rfl

/-- The loop ends, because every frame that a round takes moves the position. -/
theorem loop_checkedRound (hbytes : bytes.length ≤ b.host.usizeMax) (pos : ℕ)
    (records : List (WalRecord M)) : ∀ fuel, bytes.length - pos < fuel →
      (loop (checkedRound b bytes) fuel (pos, records) >>= fun s => pure s.2) =
        reported (parseFrames (ε := ε) b bytes pos records) := by
  have hstop {pos : ℕ} {records : List (WalRecord M)}
      (hround : checkedRound (ε := ε) b bytes (pos, records) = .ok (.done (pos, records))) :
      ∀ fuel, bytes.length - pos < fuel →
        (loop (checkedRound b bytes) fuel (pos, records) >>= fun s => pure s.2) =
          reported (.ok records : Except (PersistError ε) _) := by
    intro fuel hfuel
    obtain ⟨fuel, rfl⟩ := Nat.exists_eq_add_of_lt hfuel
    rw [loop, hround]
    rfl
  fun_induction parseFrames (ε := ε) b bytes pos records with
  | case1 pos records hpos h8 =>
    apply hstop
    rw [checkedRound_eq b hbytes, if_pos hpos, if_pos h8]
  | case2 pos records hpos h8 len hlen =>
    apply hstop
    rw [checkedRound_eq b hbytes, if_pos hpos, if_neg h8]
    exact if_pos hlen
  | case3 pos records hpos h8 len hlen bodyStart bodyEnd hend =>
    apply hstop
    rw [checkedRound_eq b hbytes, if_pos hpos, if_neg h8]
    exact (if_neg hlen).trans (if_pos hend)
  | case4 pos records hpos h8 len crc hlen bodyStart bodyEnd hend body hcrc =>
    apply hstop
    rw [checkedRound_eq b hbytes, if_pos hpos, if_neg h8]
    exact (if_neg hlen).trans ((if_neg hend).trans (if_pos hcrc))
  | case5 pos records hpos h8 len crc hlen bodyStart bodyEnd hend body hcrc e hdecode =>
    have hround := checkedRound_eq (ε := ε) b hbytes pos records
    intro fuel hfuel
    obtain ⟨fuel, rfl⟩ := Nat.exists_eq_add_of_lt hfuel
    rw [if_pos hpos, if_neg h8] at hround
    replace hround := hround.trans ((if_neg hlen).trans ((if_neg hend).trans (if_neg hcrc)))
    rw [loop, hround, hdecode]
    rfl
  | case6 pos records hpos h8 len crc hlen bodyStart bodyEnd hend body hcrc record hdecode ih =>
    have hround := checkedRound_eq (ε := ε) b hbytes pos records
    intro fuel hfuel
    obtain ⟨fuel, rfl⟩ := Nat.exists_eq_add_of_lt hfuel
    rw [if_pos hpos, if_neg h8] at hround
    replace hround := hround.trans ((if_neg hlen).trans ((if_neg hend).trans (if_neg hcrc)))
    rw [loop, hround, hdecode]
    exact ih _ (by omega)
  | case7 pos records hpos =>
    apply hstop
    rw [checkedRound_eq b hbytes, if_neg hpos]

theorem checkedParseRecords_eq (hbytes : bytes.length ≤ b.host.usizeMax) {fuel : ℕ}
    (hfuel : bytes.length < fuel) :
    checkedParseRecords (ε := ε) b fuel bytes = reported (parseRecords b bytes) := by
  rw [checkedParseRecords, parseRecords]
  by_cases h12 : bytes.length < 12
  · rw [if_pos h12, if_pos h12]
    rfl
  · have h8 : 8 ≤ bytes.length := by omega
    have hversion := gather_field (ε := PersistError ε) b hbytes 0 (i := 8) (by omega)
    rw [if_neg h12, if_neg h12, slice_eq (Nat.zero_le 8) h8, ok_bind, List.drop_zero,
      cloneFirst8_eq h8, ok_bind, hversion, ok_bind]
    split
    · rfl
    · dsimp only
      rw [Nat.zero_add]
      split
      · rfl
      · exact loop_checkedRound b hbytes 12 [] fuel (by omega)

end Log

section Snapshot

/-- `read_header`; the only index is that of the metric's byte. -/
def checkedReadHeader (host : Host) : EStateM (Fault (PersistError ε)) Cursor FileHeader := do
  let found ← tame (readExactOrTruncated 8)
  ensure (found = magic.toList) (.error (.badMagic found))
  let version := UInt32.ofNat (decode (← tame (readExactOrTruncated 4)))
  ensure (minSupportedVersion ≤ version ∧ version ≤ currentVersion)
    (.error (.unsupportedVersion version currentVersion))
  let itLenU64 := UInt64.ofNat (decode (← tame (readExactOrTruncated 8)))
  let itLen ← settle (reported (u64ToUsize host itLenU64 .indexTypeLen))
  ensure (itLen ≤ maxIndexTypeLen)
    (.error (.invalidPayload "index_type length exceeds the 4 KiB cap"))
  let itBytes ← tame (readExactOrTruncated itLen)
  let indexType ← settle (reported (match fromUtf8 itBytes with
    | some s => .ok s
    | none => .error (.invalidPayload "index_type is not valid UTF-8")))
  let dimU64 := UInt64.ofNat (decode (← tame (readExactOrTruncated 8)))
  let dim ← settle (reported (u64ToUsize host dimU64 .dim))
  let metricBuf ← tame (readExactOrTruncated 1)
  let metricTag ← settle (index metricBuf 0)
  let metric ← settle (reported (tagToMetric metricTag))
  let nU64 := UInt64.ofNat (decode (← tame (readExactOrTruncated 8)))
  let nVectors ← settle (reported (u64ToUsize host nU64 .nVectors))
  let crc32 := UInt32.ofNat (decode (← tame (readExactOrTruncated 4)))
  pure { magic, version, indexType, dim, metric, nVectors, crc32 }

def checkedDecodeRegion (version : UInt32) (payload : Bytes) :
    Except (Fault (PersistError ε)) Bytes := do
  if 2 ≤ version then
    if payload.length < 9 then throw (.error (.truncatedPayload 9 payload.length))
    else
      let tag ← index payload 0
      let lenBytes ← copyFromSlice (List.replicate 8 0) 8 (← slice payload 1 9)
      let lenU64 := UInt64.ofNat (decode lenBytes)
      let uncompressedLen ← reported (u64ToUsize b.host lenU64 .uncompressedLen)
      reported (compressionDecode b tag (← sliceFrom payload 9) uncompressedLen)
  else pure payload

/-- `load` on the bytes of the snapshot file, before the log is looked at. -/
def checkedDecodeSnapshot (T : IndexType ε M I) (bytes : Bytes) :
    Except (Fault (PersistError ε)) I :=
  match checkedReadHeader b.host ⟨bytes, 0⟩ with
  | .error e _ => .error e
  | .ok header cursor => do
    let headerEnd := cursor.pos
    if b.host.usizeMax < headerEnd then
      throw (.error (.invalidPayload "header position does not fit in usize"))
    else if bytes.length < headerEnd then
      throw (.error (.truncatedHeader headerEnd bytes.length))
    else if header.indexType ≠ T.indexType then
      throw (.error (.invalidIndexType header.indexType T.indexType))
    else
      let payload ← sliceFrom bytes headerEnd
      reported (verify b payload header.crc32)
      let raw ← checkedDecodeRegion b header.version payload
      let inner ← reported (T.loadFrom raw)
      if T.dim inner ≠ header.dim then
        throw (.error (.invalidPayload
          "header dim disagrees with payload-reconstructed index"))
      else if T.metric inner ≠ header.metric then
        throw (.error (.invalidPayload
          "header metric disagrees with payload-reconstructed index"))
      else if T.len inner ≠ header.nVectors then
        throw (.error (.invalidPayload
          "header n_vectors disagrees with payload-reconstructed index"))
      else pure inner

theorem checkedReadHeader_eq (host : Host) :
    checkedReadHeader (ε := ε) host = tame (readHeader host) := by
  rw [checkedReadHeader, readHeader]
  simp only [tame_bind, tame_settle, tame_ensure, tame_pure]
  iterate 11 refine bind_congr fun _ => ?_
  refine tame_bind_congr
    (fun c => (ends_readExact 1 c).mono (fun _ _ h => h.1) fun _ _ h => h) fun metricBuf hlen => ?_
  obtain ⟨metricTag, rfl⟩ := List.length_eq_one_iff.mp hlen
  rfl

theorem checkedDecodeRegion_eq (version : UInt32) (payload : Bytes) :
    checkedDecodeRegion (ε := ε) b version payload = reported (decodeRegion b version payload) := by
  rw [checkedDecodeRegion, decodeRegion]
  by_cases hversion : 2 ≤ version
  · by_cases h9 : payload.length < 9
    · rw [if_pos hversion, if_pos hversion, if_pos h9, if_pos h9]
      rfl
    · have hle : 9 ≤ payload.length := Nat.not_lt.mp h9
      have hlen : ((payload.drop 1).take (9 - 1)).length = 8 := by
        rw [List.length_take, List.length_drop]
        omega
      have hindex : (index payload 0 : Except (Fault (PersistError ε)) UInt8) =
          .ok (payload.headD 0) := by
        cases payload with
        | nil => cases hle
        | cons tag payload => rfl
      rw [if_pos hversion, if_pos hversion, if_neg h9, if_neg h9, hindex, ok_bind,
        slice_eq (by decide) hle, ok_bind, copyFromSlice_eq (by decide) hlen, ok_bind,
        sliceFrom_eq hle, reported_bind]
      rw [show (List.replicate 8 (0 : UInt8)).drop 8 = [] from rfl, List.append_nil]
      rfl
  · rw [if_neg hversion, if_neg hversion]
    rfl

theorem checkedDecodeSnapshot_eq (T : IndexType ε M I) (bytes : Bytes) :
    checkedDecodeSnapshot b T bytes = reported (decodeSnapshot b T bytes) := by
  rw [checkedDecodeSnapshot, checkedReadHeader_eq, decodeSnapshot]
  cases hread : readHeader (ε := ε) b.host ⟨bytes, 0⟩ with
  | error e c => simp only [tame, hread, reported]
  | ok header cursor =>
    simp only [tame, hread]
    split_ifs with hmax hend htype
    · rfl
    · rfl
    · rfl
    · rw [sliceFrom_eq (Nat.not_lt.mp hend), ok_bind, restore, checkedDecodeRegion_eq]
      simp only [reported_bind, reported_ite, reported_error, reported_ok]
      rfl

end Snapshot

end IqdbPersist
