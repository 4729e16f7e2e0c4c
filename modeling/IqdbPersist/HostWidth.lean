import IqdbPersist.CodecCall
import IqdbPersist.Snapshot
import IqdbPersist.WalParse

/-!
# Hosts of different width

A host with a narrower `usize` refuses what does not fit it and reads everything else as a wider
host does. The fields of a log record fit every host, so a log parses to the same records on all of
them.
-/

namespace IqdbPersist

open CrashLogic ByteReader LittleEndian FramedLog

variable {ε M I : Type}

/-- The same build for another host. -/
def Build.on (b : Build M) (host : Host) : Build M := { b with host := host }

section Region

variable (b : Build M)

/-- The region decode of `load` up to the call of the codec. -/
def regionCall (version : UInt32) (payload : Bytes) : Except (PersistError ε) CodecCall :=
  if 2 ≤ version then
    if payload.length < 9 then .error (.truncatedPayload 9 payload.length)
    else do
      let tag := payload.headD 0
      let lenU64 := UInt64.ofNat (decode ((payload.drop 1).take 8))
      let uncompressedLen ← u64ToUsize b.host lenU64 .uncompressedLen
      codecCall b tag (payload.drop 9) uncompressedLen
  else .ok (.verbatim payload)

theorem decodeRegion_eq (version : UInt32) (payload : Bytes) :
    decodeRegion (ε := ε) b version payload =
      regionCall b version payload >>= CodecCall.answer b := by
  unfold decodeRegion regionCall
  split_ifs
  · rfl
  · simp only [compressionDecode_eq]
    cases u64ToUsize (ε := ε) b.host (UInt64.ofNat (decode ((payload.drop 1).take 8)))
      .uncompressedLen <;> rfl
  · rfl

end Region

section Widen

variable {narrow wide : Host} (h : narrow.usizeMax ≤ wide.usizeMax) {b : Build M}

include h

theorem u64ToUsize_widen {value : UInt64} {what : SizeField} {n : ℕ}
    (hn : u64ToUsize (ε := ε) narrow value what = .ok n) :
    u64ToUsize (ε := ε) wide value what = .ok n := by
  unfold u64ToUsize at hn
  split at hn
  · rename_i hle
    rw [← hn, u64ToUsize, if_pos (Nat.le_trans hle h)]
  · cases hn

theorem codecCall_widen {tag : UInt8} {data : Bytes} {uncompressedLen : ℕ} {call : CodecCall}
    (hcall : codecCall (ε := ε) (b.on narrow) tag data uncompressedLen = .ok call) :
    codecCall (ε := ε) (b.on wide) tag data uncompressedLen = .ok call := by
  have hsaturating : saturatingMul narrow data.length maxDecompressRatio ≤
      saturatingMul wide data.length maxDecompressRatio :=
    Nat.le_min.mpr ⟨Nat.min_le_left _ _, Nat.le_trans (Nat.min_le_right _ _) h⟩
  unfold codecCall at hcall ⊢
  split at hcall
  · cases hcall
  · rename_i hguard
    rw [if_neg fun hwide => hguard ⟨hwide.1, Nat.lt_of_le_of_lt hsaturating hwide.2⟩]
    exact hcall

theorem regionCall_widen {version : UInt32} {payload : Bytes} {call : CodecCall}
    (hcall : regionCall (ε := ε) (b.on narrow) version payload = .ok call) :
    regionCall (ε := ε) (b.on wide) version payload = .ok call := by
  unfold regionCall at hcall ⊢
  split_ifs at hcall ⊢ with hversion h9
  · cases hlen : u64ToUsize (ε := ε) narrow
      (UInt64.ofNat (decode ((payload.drop 1).take 8))) .uncompressedLen with
    | error e =>
      change (u64ToUsize narrow _ _ >>= _) = _ at hcall
      rw [hlen] at hcall
      cases hcall
    | ok n =>
      change (u64ToUsize narrow _ _ >>= _) = _ at hcall
      change (u64ToUsize wide _ _ >>= _) = _
      rw [hlen] at hcall
      rw [u64ToUsize_widen h hlen]
      exact codecCall_widen h hcall
  · exact hcall

theorem readable_widen {header : FileHeader} {tag : UInt8}
    (hreadable : Readable ε narrow header tag) : Readable ε wide header tag :=
  { hreadable with
    dim := Nat.le_trans hreadable.dim h
    nVectors := Nat.le_trans hreadable.nVectors h }

theorem readHeader_widen {bytes : Bytes} {header : FileHeader} {c : Cursor}
    (hread : readHeader narrow ⟨bytes, 0⟩ = (.ok header c : EStateM.Result (PersistError ε) _ _)) :
    readHeader wide ⟨bytes, 0⟩ = (.ok header c : EStateM.Result (PersistError ε) _ _) := by
  obtain ⟨tag, hreadable, hreads⟩ := ends_of_ok (ends_readHeader _ _) hread
  obtain ⟨hbytes, hpos⟩ := hreads.bytes_eq
  have hrun := (consumes_readHeader (readable_widen h hreadable)).run (Nat.le_refl _)
    (bytes.drop (headerBytes header tag).length)
  rw [← hbytes, ← hpos] at hrun
  have hc : c = ⟨bytes, c.pos⟩ := by rw [← show c.bytes = bytes from hreads.bytes]
  rw [hc]
  exact hrun

theorem decodeSnapshot_widen {T : IndexType ε M I} {bytes : Bytes} {y : I}
    (hload : decodeSnapshot (b.on narrow) T bytes = .ok y) :
    decodeSnapshot (b.on wide) T bytes = .ok y := by
  obtain ⟨header, tag, region, hreadable, htype, rfl, hrestore⟩ := decodeSnapshot_eq_ok hload
  obtain ⟨hcrc, raw, hregion, hrest⟩ := restore_eq_ok_iff.mp hrestore
  rw [decodeRegion_eq] at hregion
  cases hcall : regionCall (ε := ε) (b.on narrow) header.version region with
  | error e =>
    rw [hcall] at hregion
    cases hregion
  | ok call =>
    rw [hcall] at hregion
    have hwide : decodeRegion (ε := ε) (b.on wide) header.version region = .ok raw := by
      rw [decodeRegion_eq, regionCall_widen h hcall]
      exact hregion
    rw [decodeSnapshot_headerBytes (b := b.on wide) (readable_widen h hreadable) htype]
    exact restore_eq_ok_iff.mpr ⟨hcrc, raw, hwide, hrest⟩

end Widen

section Records

variable {b : Build M}

theorem decodeRecord_on_iff (host host' : Host) {body : Bytes} (hbody : body.length ≤ maxRecordLen)
    {r : WalRecord M} :
    decodeRecord (b.on host) body = (.ok r : Except (PersistError ε) _) ↔
      decodeRecord (b.on host') body = (.ok r : Except (PersistError ε) _) := by
  have hfits (host : Host) : body.length ≤ (b.on host).host.usizeMax :=
    Nat.le_trans hbody (Nat.le_trans (by decide) host.usizeMax_ge)
  rw [decodeRecord_eq_ok_iff (hfits host), decodeRecord_eq_ok_iff (hfits host')]
  rfl

theorem decodeBodies_on_iff (host host' : Host) {bodies : List Bytes}
    (hbodies : ∀ body ∈ bodies, body.length ≤ maxRecordLen) {rs : List (WalRecord M)} :
    decodeBodies (ε := ε) (b.on host) bodies = .ok rs ↔
      decodeBodies (ε := ε) (b.on host') bodies = .ok rs := by
  rw [decodeBodies_eq_ok_iff, decodeBodies_eq_ok_iff]
  induction bodies generalizing rs with
  | nil => rw [List.forall₂_nil_left_iff, List.forall₂_nil_left_iff]
  | cons body bodies ih =>
    obtain ⟨hbody, hbodies⟩ := List.forall_mem_cons.mp hbodies
    simp only [List.forall₂_cons_left_iff, decodeRecord_on_iff host host' hbody, ih hbodies]

theorem parseRecords_on_iff (host host' : Host) {bytes : Bytes} {rs : List (WalRecord M)} :
    parseRecords (ε := ε) (b.on host) bytes = .ok rs ↔
      parseRecords (ε := ε) (b.on host') bytes = .ok rs := by
  have hwiden (host host' : Host) (h : parseRecords (ε := ε) (b.on host) bytes = .ok rs) :
      parseRecords (ε := ε) (b.on host') bytes = .ok rs := by
    by_cases h12 : bytes.length < 12
    · rw [parseRecords_of_short _ h12] at h ⊢
      exact h
    · obtain ⟨rest, rfl⟩ := walHeader_prefix_of_parseRecords _ h (Nat.not_lt.mp h12)
      rw [parseRecords_walHeader] at h ⊢
      exact (decodeBodies_on_iff host host' fun body hbody => length_le_of_mem_scan _ hbody).mp h
  exact ⟨hwiden host host', hwiden host' host⟩

end Records

/-- What a 32-bit host makes of a header, of a payload region up to the codec and of a log, a 64-bit
host makes of it too; of a log the two make the same. -/
theorem same_on_both_widths (b : Build M) (bytes : Bytes) :
    (∀ header c,
        readHeader .bits32 ⟨bytes, 0⟩ = (.ok header c : EStateM.Result (PersistError ε) _ _) →
          readHeader .bits64 ⟨bytes, 0⟩ = (.ok header c : EStateM.Result (PersistError ε) _ _)) ∧
      (∀ version call, regionCall (ε := ε) (b.on .bits32) version bytes = .ok call →
        regionCall (ε := ε) (b.on .bits64) version bytes = .ok call) ∧
      ∀ rs, parseRecords (ε := ε) (b.on .bits32) bytes = .ok rs ↔
        parseRecords (ε := ε) (b.on .bits64) bytes = .ok rs := by
  have hwiden : Host.bits32.usizeMax ≤ Host.bits64.usizeMax := by decide
  exact ⟨fun _ _ => readHeader_widen hwiden, fun _ _ => regionCall_widen hwiden,
    fun _ => parseRecords_on_iff .bits32 .bits64⟩

end IqdbPersist
