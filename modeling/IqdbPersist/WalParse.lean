import IqdbPersist.FramedLog
import IqdbPersist.RecordRoundTrip
import Mathlib.Data.List.Forall2

/-!
# Parsing a log

`parseRecords` checks the header and then takes frame after frame by position. It is the scan of
the framed log behind the header, with every body decoded; a log written for some records parses
to them, up to the first frame that the scan does not take.
-/

namespace IqdbPersist

open LittleEndian FramedLog

variable {ε M : Type} (b : Build M)

/-- `IQDBWAL\0` -/
def walMagic : Bytes := [0x49, 0x51, 0x44, 0x42, 0x57, 0x41, 0x4C, 0x00]

def walVersion : UInt32 := 1

def maxRecordLen : ℕ := 256 * 1024 * 1024

/-- The frame loop of `parse_records`, from position `pos` with the records read so far. -/
def parseFrames (bytes : Bytes) (pos : ℕ) (records : List (WalRecord M)) :
    Except (PersistError ε) (List (WalRecord M)) :=
  if pos < bytes.length then
    if bytes.length - pos < 8 then .ok records
    else
      let len := decode ((bytes.drop pos).take 4)
      let crc := UInt32.ofNat (decode ((bytes.drop (pos + 4)).take 4))
      if maxRecordLen < len then .ok records
      else
        let bodyStart := pos + 8
        -- A sum that overflows `usize` lies beyond `bytes` too: both checks break the loop.
        let bodyEnd := bodyStart + len
        if bytes.length < bodyEnd then .ok records
        else
          let body := (bytes.drop bodyStart).take len
          if b.crc32 body != crc then .ok records
          else match decodeRecord b body with
            | .error e => .error e
            | .ok record => parseFrames bytes bodyEnd (records ++ [record])
  else .ok records
termination_by bytes.length - pos

def parseRecords (bytes : Bytes) : Except (PersistError ε) (List (WalRecord M)) :=
  if bytes.length < 12 then .ok []
  else if bytes.take 8 != walMagic then .error (.badMagic (bytes.take 8))
  else
    let version := UInt32.ofNat (decode ((bytes.drop 8).take 4))
    if version != walVersion then .error (.unsupportedVersion version walVersion)
    else parseFrames b bytes 12 []

/-- The log format of the crate, as its reader takes it. -/
def logFormat : Format where
  checksum := b.crc32
  limit := maxRecordLen
  limit_lt := by decide

/-- What `write_header` puts at the start of a log. -/
def walHeader : Bytes := walMagic ++ encode 4 walVersion.toNat

/-- The frames of some records, one after another. -/
def recordFrames (rs : List (WalRecord M)) : Bytes :=
  frames (logFormat b) (rs.map (recordBody b.metadata))

/-- The log of some records: the header and their frames. -/
def logOf (rs : List (WalRecord M)) : Bytes := walHeader ++ recordFrames b rs

/-- The record can be logged and read back: its lengths fit their fields, its body the reader's
limit. -/
def Loggable (r : WalRecord M) : Prop :=
  RecordFits b.metadata r ∧ (recordBody b.metadata r).length ≤ maxRecordLen

theorem loggable_nil : ∀ r ∈ ([] : List (WalRecord M)), Loggable b r := fun _ hr => nomatch hr

@[simp] theorem length_walHeader : walHeader.length = 12 := rfl

theorem length_logOf (rs : List (WalRecord M)) :
    (logOf b rs).length = 12 + (recordFrames b rs).length := by
  rw [logOf, List.length_append, length_walHeader]

theorem recordFrames_snoc (rs : List (WalRecord M)) (r : WalRecord M) :
    recordFrames b (rs ++ [r]) =
      recordFrames b rs ++ frame (logFormat b) (recordBody b.metadata r) := by
  rw [recordFrames, List.map_append, List.map_singleton, frames_snoc, recordFrames]

theorem logOf_append (rs rs' : List (WalRecord M)) :
    logOf b (rs ++ rs') = logOf b rs ++ recordFrames b rs' := by
  rw [logOf, logOf, recordFrames, recordFrames, recordFrames, List.map_append, frames_append,
    List.append_assoc]

theorem recordFrames_cons (r : WalRecord M) (rs : List (WalRecord M)) :
    recordFrames b (r :: rs) =
      frame (logFormat b) (recordBody b.metadata r) ++ recordFrames b rs := rfl

theorem logOf_snoc (rs : List (WalRecord M)) (r : WalRecord M) :
    logOf b (rs ++ [r]) = logOf b rs ++ frame (logFormat b) (recordBody b.metadata r) := by
  rw [logOf, recordFrames_snoc, logOf, List.append_assoc]

theorem Loggable.decodeRecord {b : Build M} (hmd : b.metadata.Lawful) {r : WalRecord M}
    (h : Loggable b r) :
    decodeRecord b (recordBody b.metadata r) = (.ok r : Except (PersistError ε) _) := by
  have hhost := b.host.usizeMax_ge
  have hlen : (recordBody b.metadata r).length ≤ b.host.usizeMax :=
    Nat.le_trans h.2 (Nat.le_trans (by decide) hhost)
  simpa only [List.append_nil] using decodeRecord_append (ε := ε) b hmd h.1 hlen []

theorem Loggable.length_body {b : Build M} {r : WalRecord M} (h : Loggable b r) :
    (recordBody b.metadata r).length < 2 ^ 32 :=
  Nat.lt_of_le_of_lt h.2 (by decide)

theorem length_body_le_limit {b : Build M} {rs : List (WalRecord M)}
    (h : ∀ r ∈ rs, Loggable b r) :
    ∀ body ∈ rs.map (recordBody b.metadata), body.length ≤ (logFormat b).limit := by
  intro body hbody
  obtain ⟨r, hr, rfl⟩ := List.mem_map.mp hbody
  exact (h r hr).2

theorem crc_eq_iff {x : UInt32} {c : Bytes} (h : c.length = 4) :
    (x != UInt32.ofNat (decode c)) = false ↔ x.toNat = decode c := by
  have hlt : decode c < 2 ^ 32 := by
    calc decode c < 256 ^ c.length := decode_lt c
      _ = 2 ^ 32 := by rw [h]; rfl
  rw [bne_eq_false_iff_eq, ← UInt32.toNat_inj, encode_ofNat_toNat hlt]

/-- Decode the bodies of a scan, stopping at the first that does not decode. -/
def decodeBodies (bodies : List Bytes) : Except (PersistError ε) (List (WalRecord M)) :=
  bodies.mapM (decodeRecord b)

theorem decodeBodies_cons (body : Bytes) (bodies : List Bytes) :
    decodeBodies (ε := ε) b (body :: bodies) =
      (decodeRecord b body).bind fun r => (decodeBodies b bodies).map (r :: ·) := by
  rw [decodeBodies, List.mapM_cons]
  rfl

theorem decodeBodies_eq_ok_iff {bodies : List Bytes} {rs : List (WalRecord M)} :
    decodeBodies (ε := ε) b bodies = .ok rs ↔
      List.Forall₂ (fun body r => decodeRecord (ε := ε) b body = .ok r) bodies rs := by
  induction bodies generalizing rs with
  | nil =>
    rw [List.forall₂_nil_left_iff]
    exact ⟨fun h => (Except.ok.inj h).symm, fun h => congrArg Except.ok h.symm⟩
  | cons body bodies ih =>
    rw [decodeBodies_cons, List.forall₂_cons_left_iff]
    constructor
    · intro h
      cases hbody : decodeRecord (ε := ε) b body with
      | error e =>
        rw [hbody] at h
        cases h
      | ok r =>
        cases hrest : decodeBodies (ε := ε) b bodies with
        | error e =>
          rw [hbody, hrest] at h
          cases h
        | ok rs' =>
          rw [hbody, hrest] at h
          cases h
          exact ⟨r, rs', rfl, ih.mp hrest, rfl⟩
    · rintro ⟨r, rs', hbody, hrest, rfl⟩
      rw [hbody, ih.mpr hrest]
      rfl

theorem front_drop {bytes : Bytes} {pos : ℕ}
    (hend : ¬ bytes.length < pos + 8 + decode ((bytes.drop pos).take 4))
    (hlen : ¬ maxRecordLen < decode ((bytes.drop pos).take 4)) :
    front (logFormat b) (bytes.drop pos) =
      if b.crc32 ((bytes.drop (pos + 8)).take (decode ((bytes.drop pos).take 4))) !=
          UInt32.ofNat (decode ((bytes.drop (pos + 4)).take 4)) then none
      else some ((bytes.drop (pos + 8)).take (decode ((bytes.drop pos).take 4)),
        bytes.drop (pos + 8 + decode ((bytes.drop pos).take 4))) := by
  have hfour : ((bytes.drop (pos + 4)).take 4).length = 4 := by
    rw [List.length_take, List.length_drop]
    omega
  have hsize : 8 + decode ((bytes.drop pos).take 4) ≤ (bytes.drop pos).length := by
    rw [List.length_drop]
    omega
  have hcrc := crc_eq_iff
    (x := b.crc32 ((bytes.drop (pos + 8)).take (decode ((bytes.drop pos).take 4)))) hfour
  simp only [front, List.drop_drop, logFormat, hsize, Nat.not_lt.mp hlen, true_and, ← hcrc,
    ← Nat.add_assoc]
  split <;> simp_all

/-- The loop is the scan of what lies behind its position. -/
theorem parseFrames_eq (bytes : Bytes) (pos : ℕ) (records : List (WalRecord M)) :
    parseFrames (ε := ε) b bytes pos records =
      (decodeBodies b (scan (logFormat b) (bytes.drop pos))).map (records ++ ·) := by
  have stop {pos : ℕ} {records : List (WalRecord M)}
      (h : front (logFormat b) (bytes.drop pos) = none) :
      Except.ok records =
        (decodeBodies (ε := ε) b (scan (logFormat b) (bytes.drop pos))).map (records ++ ·) := by
    rw [scan_of_front_none _ h]
    exact congrArg Except.ok (List.append_nil records).symm
  fun_induction parseFrames b bytes pos records with
  | case1 pos records _ h8 =>
    apply stop
    apply front_of_short
    rw [List.length_drop]
    exact h8
  | case2 pos records _ _ len hlen => exact stop (front_of_oversized _ hlen)
  | case3 pos records _ _ len _ bodyStart bodyEnd hend =>
    apply stop
    apply front_of_announced
    rw [List.length_drop]
    omega
  | case4 pos records _ _ len crc hlen bodyStart bodyEnd hend body hcrc =>
    apply stop
    rw [front_drop b hend hlen, if_pos hcrc]
  | case5 pos records _ _ len crc hlen bodyStart bodyEnd hend body hcrc e hdecode =>
    have hfront := front_drop b hend hlen
    rw [if_neg hcrc] at hfront
    rw [scan_of_front _ hfront, decodeBodies_cons, hdecode]
    rfl
  | case6 pos records _ _ len crc hlen bodyStart bodyEnd hend body hcrc record hdecode ih =>
    have hfront := front_drop b hend hlen
    rw [if_neg hcrc] at hfront
    rw [ih, scan_of_front _ hfront, decodeBodies_cons, hdecode]
    change _ = Except.map _ (Except.bind (decodeBodies b _) _)
    cases decodeBodies (ε := ε) b (scan (logFormat b) (bytes.drop bodyEnd)) with
    | error e => rfl
    | ok rs => exact congrArg Except.ok (List.append_cons records record rs).symm
  | case7 pos records hpos =>
    apply stop
    rw [List.drop_of_length_le (Nat.not_lt.mp hpos)]
    exact front_of_short _ (by simp)

theorem parseRecords_of_short {bytes : Bytes} (h : bytes.length < 12) :
    parseRecords b bytes = (.ok [] : Except (PersistError ε) _) := if_pos h

theorem parseRecords_walHeader (rest : Bytes) :
    parseRecords (ε := ε) b (walHeader ++ rest) = decodeBodies b (scan (logFormat b) rest) := by
  have hlen : ¬ (walHeader ++ rest).length < 12 := by simp
  have hdrop : (walHeader ++ rest).drop 12 = rest := List.drop_left' length_walHeader
  have hparse : parseRecords (ε := ε) b (walHeader ++ rest) =
      parseFrames b (walHeader ++ rest) 12 [] := by
    rw [parseRecords, if_neg hlen]
    rfl
  rw [hparse, parseFrames_eq, hdrop]
  cases decodeBodies (ε := ε) b (scan (logFormat b) rest) <;> rfl

theorem parseRecords_take_walHeader (n : ℕ) :
    parseRecords b (walHeader.take n) = (.ok [] : Except (PersistError ε) _) := by
  by_cases hn : n < 12
  · refine parseRecords_of_short b ?_
    rw [List.length_take, length_walHeader]
    omega
  · have hempty : front (logFormat b) [] = none := front_of_short _ (by simp)
    rw [List.take_of_length_le (by rw [length_walHeader]; omega), ← List.append_nil walHeader,
      parseRecords_walHeader, scan_of_front_none _ hempty]
    rfl

theorem walHeader_prefix_of_parseRecords {bytes : Bytes} {rs : List (WalRecord M)}
    (h : parseRecords b bytes = (.ok rs : Except (PersistError ε) _)) (hlen : 12 ≤ bytes.length) :
    walHeader <+: bytes := by
  rw [parseRecords, if_neg (Nat.not_lt.mpr hlen)] at h
  split at h
  · cases h
  · rename_i hmagic
    dsimp only at h
    split at h
    · cases h
    · rename_i hversion
      have hfour : ((bytes.drop 8).take 4).length = 4 := by
        rw [List.length_take, List.length_drop]
        omega
      have htag := (crc_eq_iff (x := walVersion) hfour).mp
        (by rw [bne_comm]; exact Bool.eq_false_iff.mpr hversion)
      have hencode := encode_decode_of_length hfour
      rw [← htag] at hencode
      rw [Bool.not_eq_true, bne_eq_false_iff_eq] at hmagic
      refine ⟨bytes.drop 12, ?_⟩
      rw [walHeader, hencode, ← hmagic, ← List.take_add, List.take_append_drop]

section Written

variable {b} (hmd : b.metadata.Lawful)

include hmd

theorem decodeBodies_append {rs : List (WalRecord M)} (h : ∀ r ∈ rs, Loggable b r)
    (rest : List Bytes) :
    decodeBodies (ε := ε) b (rs.map (recordBody b.metadata) ++ rest) =
      (decodeBodies b rest).map (rs ++ ·) := by
  induction rs with
  | nil => cases h : decodeBodies (ε := ε) b rest <;> simp [h, Except.map]
  | cons r rs ih =>
    rw [List.map_cons, List.cons_append, decodeBodies_cons,
      (h r List.mem_cons_self).decodeRecord hmd,
      ih fun r' hr' => h r' (List.mem_cons_of_mem r hr')]
    cases decodeBodies (ε := ε) b rest <;> rfl

theorem decodeBodies_map {rs : List (WalRecord M)} (h : ∀ r ∈ rs, Loggable b r) :
    decodeBodies b (rs.map (recordBody b.metadata)) = (.ok rs : Except (PersistError ε) _) := by
  have happend := decodeBodies_append (ε := ε) hmd h []
  rw [List.append_nil] at happend
  rw [happend]
  exact congrArg Except.ok (List.append_nil rs)

theorem parseRecords_logOf_append {rs : List (WalRecord M)} (h : ∀ r ∈ rs, Loggable b r)
    {tail : Bytes} (htail : front (logFormat b) tail = none) :
    parseRecords b (logOf b rs ++ tail) = (.ok rs : Except (PersistError ε) _) := by
  rw [logOf, List.append_assoc, parseRecords_walHeader, recordFrames,
    scan_frames_of_front_none _ (length_body_le_limit h) htail, decodeBodies_map hmd h]

theorem parseRecords_logOf {rs : List (WalRecord M)} (h : ∀ r ∈ rs, Loggable b r) :
    parseRecords b (logOf b rs) = (.ok rs : Except (PersistError ε) _) := by
  have hempty : front (logFormat b) [] = none := front_of_short _ (by simp)
  simpa only [List.append_nil] using parseRecords_logOf_append (ε := ε) hmd h hempty

end Written

end IqdbPersist
