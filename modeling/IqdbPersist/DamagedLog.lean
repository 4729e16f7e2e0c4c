import IqdbPersist.SampleIndex
import IqdbPersist.WalParse

/-!
# Logs cut short and logs extended

A log cut at any offset parses to the records whose frames lie before the cut. Zeros behind a log
are skipped as long as they are too few for a frame; eight of them are a frame with an empty body,
which no record has.
-/

namespace IqdbPersist

open FramedLog

variable {ε M : Type} {b : Build M}

theorem take_logOf_of_short {rs : List (WalRecord M)} {t : ℕ} (h : t < 12) :
    ((logOf b rs).take t).length < 12 := by
  rw [List.length_take]
  omega

theorem take_logOf {rs : List (WalRecord M)} {t : ℕ} (h : 12 ≤ t) :
    (logOf b rs).take t = walHeader ++ (recordFrames b rs).take (t - 12) := by
  rw [logOf, List.take_append, length_walHeader, List.take_of_length_le]
  rwa [length_walHeader]

/-- Parsing a log cut at offset `t` gives exactly the records whose frames end at or before `t`. -/
theorem parseRecords_take_logOf (hmd : b.metadata.Lawful) {rs : List (WalRecord M)}
    (h : ∀ r ∈ rs, Loggable b r) (t : ℕ) :
    ∃ n ≤ rs.length,
      parseRecords b ((logOf b rs).take t) = (.ok (rs.take n) : Except (PersistError ε) _) ∧
      ∀ i < rs.length, i < n ↔ (logOf b (rs.take (i + 1))).length ≤ t := by
  by_cases ht : t < 12
  · refine ⟨0, Nat.zero_le _, parseRecords_of_short b (take_logOf_of_short ht), ?_⟩
    intro i _
    rw [length_logOf]
    omega
  · have hbodies := length_body_le_limit h
    have htaken (n : ℕ) : ∀ r ∈ rs.take n, Loggable b r := fun r hr => h r (List.mem_of_mem_take hr)
    have hle := wholeFrames_le (rs.map (recordBody b.metadata)) (t - 12)
    rw [List.length_map] at hle
    refine ⟨_, hle, ?_, ?_⟩
    · rw [take_logOf (Nat.not_lt.mp ht), parseRecords_walHeader, recordFrames,
        scan_take_frames _ hbodies, ← List.map_take, decodeBodies_map hmd (htaken _)]
    · intro i hi
      have hi' : i < (rs.map (recordBody b.metadata)).length := by rwa [List.length_map]
      have hend := lt_wholeFrames_iff (logFormat b) (t := t - 12) hi'
      rw [← List.map_take] at hend
      rw [length_logOf, hend, recordFrames]
      omega

theorem singleDelete_loggable : ∀ r ∈ [.delete (.u64 7)], Loggable defaultBuild r :=
  List.forall_mem_singleton.mpr ⟨trivial, by decide⟩

theorem parseRecords_take_logOf_default :
    ∃ n ≤ 1, parseRecords defaultBuild ((logOf defaultBuild [.delete (.u64 7)]).take 20) =
        (.ok (List.take n [.delete (.u64 7)]) : Except (PersistError IdError) _) ∧
      ∀ i < 1, i < n ↔
        (logOf defaultBuild (List.take (i + 1) [.delete (.u64 7)])).length ≤ 20 :=
  parseRecords_take_logOf entryList_lawful singleDelete_loggable 20

theorem scan_zeros_of_lt (F : Format) {k : ℕ} (hk : k < 8) :
    front F (List.replicate k 0) = none := front_of_short F (by simpa using hk)

theorem scan_zeros_of_le {F : Format} (h : F.checksum [] = 0) {k : ℕ} (hk : 8 ≤ k) :
    scan F (List.replicate k 0) = [] :: scan F (List.replicate (k - 8) 0) := by
  obtain ⟨j, rfl⟩ := Nat.exists_eq_add_of_le hk
  rw [scan_of_front F (front_zeros F h j), Nat.add_sub_cancel_left]

theorem decodeRecord_nil : decodeRecord b [] =
    (.error (.invalidPayload "WAL record ended mid-field") : Except (PersistError ε) _) := by
  have hhost : ¬ b.host.usizeMax < 0 + 1 := by
    have hge := b.host.usizeMax_ge
    omega
  have htake : take b 1 ⟨[], 0⟩ =
      .error (.invalidPayload "WAL record ended mid-field" : PersistError ε) ⟨[], 0⟩ := by
    rw [take, if_neg hhost, ByteReader.split_of_short (by simp)]
  have hbody : CrashLogic.Ends (decodeBody b) ⟨[], 0⟩ (fun _ _ => False)
      (fun e _ => e = (.invalidPayload "WAL record ended mid-field" : PersistError ε)) := by
    simp only [decodeBody, readU8, CrashLogic.ends_bind]
    simp only [CrashLogic.Ends, htake]
  unfold CrashLogic.Ends at hbody
  unfold decodeRecord
  split at hbody
  · exact hbody.elim
  · rename_i hdecode
    rw [hdecode, hbody]

/-- Zeros behind a log change nothing while they are fewer than eight and make the log unreadable
from there on. -/
theorem parseRecords_logOf_zeros (hmd : b.metadata.Lawful) (hcrc : b.crc32 [] = 0)
    {rs : List (WalRecord M)} (h : ∀ r ∈ rs, Loggable b r) (k : ℕ) :
    parseRecords b (logOf b rs ++ List.replicate k 0) =
      if k < 8 then .ok rs
      else (.error (.invalidPayload "WAL record ended mid-field") : Except (PersistError ε) _) := by
  split
  · rename_i hk
    exact parseRecords_logOf_append hmd h (scan_zeros_of_lt _ hk)
  · rename_i hk
    have hbodies := length_body_le_limit h
    rw [logOf, List.append_assoc, parseRecords_walHeader, recordFrames, scan_frames _ hbodies,
      scan_zeros_of_le hcrc (Nat.not_lt.mp hk), decodeBodies_append hmd h, decodeBodies_cons,
      decodeRecord_nil]
    rfl

/-- A zero-filled tail is a torn tail exactly when it is shorter than a frame head. -/
theorem parseRecords_logOf_zeros_iff (hmd : b.metadata.Lawful) (hcrc : b.crc32 [] = 0)
    {rs : List (WalRecord M)} (h : ∀ r ∈ rs, Loggable b r) (k : ℕ) :
    parseRecords b (logOf b rs ++ List.replicate k 0) = (.ok rs : Except (PersistError ε) _) ↔
      k < 8 := by
  rw [parseRecords_logOf_zeros hmd hcrc h]
  split <;> simp_all

theorem parseRecords_logOf_zeros_iff_default :
    parseRecords defaultBuild (logOf defaultBuild [.delete (.u64 7)] ++ List.replicate 3 0) =
      (.ok [.delete (.u64 7)] : Except (PersistError IdError) _) ↔ 3 < 8 :=
  parseRecords_logOf_zeros_iff entryList_lawful Crc32.hash_nil singleDelete_loggable 3

/-- Eight zeros behind an empty log make it an error. -/
theorem parseRecords_zeros_default :
    ¬ ∀ (rs : List (WalRecord (List (String × Value)))) (k : ℕ),
      (∀ r ∈ rs, Loggable defaultBuild r) →
        parseRecords defaultBuild (logOf defaultBuild rs ++ List.replicate k 0) =
          (.ok rs : Except (PersistError IdError) _) := by
  intro hall
  have hzeros := parseRecords_logOf_zeros (ε := IdError) (b := defaultBuild) entryList_lawful
    Crc32.hash_nil (loggable_nil defaultBuild) 8
  rw [hall [] 8 (loggable_nil defaultBuild)] at hzeros
  cases hzeros

end IqdbPersist
