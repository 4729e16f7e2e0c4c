import IqdbPersist.RecordSpelling
import IqdbPersist.SampleIndex

/-!
# Records survive the codec

The decoder consumes exactly the string of the grammar and returns the record, so the encoding is
lossless and self-delimiting; a body cut short does not decode.
-/

namespace IqdbPersist

open CrashLogic ByteReader LittleEndian

variable {ε M : Type} (b : Build M)

theorem consumes_recordBody (hmd : b.metadata.Lawful) {r : WalRecord M}
    (h : RecordFits b.metadata r) :
    Consumes b.host.usizeMax (decodeBody b : EStateM (PersistError ε) Cursor (WalRecord M))
      (recordBody b.metadata r) r := by
  have hread := consumes_decodeBody (ε := ε) b (RecordSpelling.fits_of hmd h)
  rwa [RecordSpelling.bytes_of hmd, RecordSpelling.record_of hmd] at hread

theorem decodeRecord_append (hmd : b.metadata.Lawful) {r : WalRecord M}
    (h : RecordFits b.metadata r) (hl : (recordBody b.metadata r).length ≤ b.host.usizeMax)
    (t : Bytes) :
    decodeRecord b (recordBody b.metadata r ++ t) = (.ok r : Except (PersistError ε) _) := by
  simp only [decodeRecord, (consumes_recordBody b hmd h).run hl t]

theorem eq_of_recordBody_prefix (hmd : b.metadata.Lawful) {r r' : WalRecord M}
    (h : RecordFits b.metadata r) (h' : RecordFits b.metadata r')
    (hl' : (recordBody b.metadata r').length ≤ b.host.usizeMax)
    (hpre : recordBody b.metadata r <+: recordBody b.metadata r') : r' = r := by
  have hread := decodeRecord_append (ε := Unit) b hmd h' hl' []
  obtain ⟨t, ht⟩ := hpre
  have hl : (recordBody b.metadata r).length ≤ b.host.usizeMax := by
    have hlength := congrArg List.length ht
    rw [List.length_append] at hlength
    omega
  rw [List.append_nil, ← ht, decodeRecord_append b hmd h hl t] at hread
  exact (Except.ok.inj hread).symm

/-- Encoding is lossless and self-delimiting: whatever follows the encoded body, the record is read
back, and no body is the beginning of another's. The bodies are byte strings of the host. -/
theorem decodeRecord_encodeRecord (hmd : b.metadata.Lawful) {r : WalRecord M}
    (h : RecordFits b.metadata r) (hl : (recordBody b.metadata r).length ≤ b.host.usizeMax) :
    (∀ buf, encodeRecord b.metadata r buf =
      (.ok () (recordBody b.metadata r) : EStateM.Result (PersistError ε) Bytes Unit)) ∧
      (∀ t, decodeRecord b (recordBody b.metadata r ++ t) =
        (.ok r : Except (PersistError ε) _)) ∧
      ∀ r', RecordFits b.metadata r' → (recordBody b.metadata r').length ≤ b.host.usizeMax →
        recordBody b.metadata r <+: recordBody b.metadata r' → r' = r :=
  ⟨fun _ => encodeRecord_eq_ok_iff.mpr ⟨h, rfl⟩, decodeRecord_append b hmd h hl,
    fun _ h' hl' => eq_of_recordBody_prefix b hmd h h' hl'⟩

/-- An insert with a byte id and every kind of value. -/
def richInsert : WalRecord (List (String × Value)) :=
  .insert (.bytes [1, 2, 3]) [0x3F800000, 0x7FC00000]
    (some [("flag", .bool true), ("none", .null), ("size", .int (-1)), ("text", .string "é"),
      ("x", .float 0x3FF0000000000000)])

theorem decodeRecord_encodeRecord_rich :
    (∀ buf, encodeRecord entryList richInsert buf =
      (.ok () (recordBody entryList richInsert) :
        EStateM.Result (PersistError IdError) Bytes Unit)) ∧
      (∀ t, decodeRecord defaultBuild (recordBody entryList richInsert ++ t) =
        (.ok richInsert : Except (PersistError IdError) _)) ∧
      ∀ r', RecordFits entryList r' →
        (recordBody entryList r').length ≤ defaultBuild.host.usizeMax →
        recordBody entryList richInsert <+: recordBody entryList r' → r' = richInsert := by
  have hfits : RecordFits entryList richInsert := by
    refine ⟨by decide, ?_⟩
    rintro m ⟨⟩
    refine ⟨by decide, ?_⟩
    simp only [entryList, id, List.forall_mem_cons, StringFits, ValueFits, and_true]
    exact ⟨by decide, by decide, by decide, by decide, by decide, List.forall_mem_nil _⟩
  exact decodeRecord_encodeRecord defaultBuild entryList_lawful hfits (by decide +kernel)

section Stable

theorem stable_take (n : ℕ) : Stable (take b n : EStateM (PersistError ε) Cursor Bytes) := by
  intro bytes post pos a c hpos h
  unfold take at h
  split at h
  · cases h
  · rename_i hfit
    unfold Cursor.split at h
    split at h
    · rename_i slice r' hsplit
      split at hsplit
      · rename_i hle
        cases hsplit
        cases h
        refine ⟨rfl, hle, ?_⟩
        have hle' : pos + n ≤ (bytes ++ post).length := by
          rw [List.length_append]
          exact Nat.le_trans hle (Nat.le_add_right _ _)
        have htake : ((bytes ++ post).drop pos).take n = (bytes.drop pos).take n := by
          rw [List.drop_append_of_le_length hpos, List.take_append_of_le_length]
          rw [List.length_drop]
          exact Nat.le_sub_of_add_le' hle
        rw [take, if_neg hfit]
        simp only [Cursor.split, Cursor.rest, if_pos hle', htake]
      · cases hsplit
    · cases h

theorem stable_readU8 : Stable (readU8 b : EStateM (PersistError ε) Cursor UInt8) :=
  (stable_take b 1).bind fun _ => stable_pure _

theorem stable_readU32 : Stable (readU32 b : EStateM (PersistError ε) Cursor UInt32) :=
  (stable_take b 4).bind fun _ => stable_pure _

theorem stable_readU64 : Stable (readU64 b : EStateM (PersistError ε) Cursor UInt64) :=
  (stable_take b 8).bind fun _ => stable_pure _

theorem stable_readString (reason : String) :
    Stable (readString b reason : EStateM (PersistError ε) Cursor String) := by
  refine (stable_readU32 b).bind fun len => (stable_take b len.toNat).bind fun bytes => ?_
  split
  · exact stable_pure _
  · exact stable_throw _

theorem stable_decodeVectorId :
    Stable (decodeVectorId b : EStateM (PersistError ε) Cursor VectorId) := by
  refine (stable_readU8 b).bind fun kind => ?_
  split
  · exact (stable_readU64 b).map VectorId.u64
  · refine (stable_readU64 b).bind fun len => ?_
    split
    · exact stable_throw _
    · exact (stable_take b len.toNat).map VectorId.bytes
  · exact stable_throw _

theorem stable_decodeValue : Stable (decodeValue b : EStateM (PersistError ε) Cursor Value) := by
  refine (stable_readU8 b).bind fun tag => ?_
  split
  · exact (stable_readString b _).map Value.string
  · exact ((stable_readU64 b).bind fun n => stable_pure n.toInt64).map Value.int
  · exact (stable_readU64 b).map Value.float
  · exact (stable_readU8 b).map fun n => Value.bool (n != 0)
  · exact stable_pure _
  · exact stable_throw _

theorem stable_decodeMetadata : Stable (decodeMetadata b : EStateM (PersistError ε) Cursor M) := by
  have hentry : Stable (decodeEntry b : EStateM (PersistError ε) Cursor (String × Value)) :=
    (stable_readString b _).bind fun key =>
      (stable_decodeValue b).bind fun value => stable_pure (key, value)
  exact (stable_readU32 b).bind fun n =>
    (hentry.times n.toNat).bind fun entries => stable_pure (b.metadata.collect entries)

theorem stable_decodeBody :
    Stable (decodeBody b : EStateM (PersistError ε) Cursor (WalRecord M)) := by
  refine (stable_readU8 b).bind fun op => ?_
  split
  · refine (stable_decodeVectorId b).bind fun id => (stable_readU32 b).bind fun vecLen => ?_
    refine Stable.bind (Stable.times (stable_readU32 b) vecLen.toNat) fun vector => ?_
    refine (stable_readU8 b).bind fun hasMeta => ?_
    split
    · exact (stable_decodeMetadata b).bind fun m => stable_pure _
    · exact stable_pure _
  · exact (stable_decodeVectorId b).bind fun id => stable_pure _
  · exact stable_throw _

theorem decodeRecord_take (hmd : b.metadata.Lawful) {r : WalRecord M}
    (h : RecordFits b.metadata r) (hl : (recordBody b.metadata r).length ≤ b.host.usizeMax) {n : ℕ}
    (hn : n < (recordBody b.metadata r).length) (r' : WalRecord M) :
    decodeRecord b ((recordBody b.metadata r).take n) ≠
      (.ok r' : Except (PersistError ε) _) := by
  unfold decodeRecord
  split
  · rename_i hrun
    exact absurd hrun
      ((stable_decodeBody b).not_ok_take (consumes_recordBody b hmd h) hl hn _ _)
  · simp

end Stable

end IqdbPersist
