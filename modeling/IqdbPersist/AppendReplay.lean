import IqdbPersist.SampleIndex
import IqdbPersist.WalLifecycle

/-!
# Replaying what was appended

A fresh log to which some records were appended holds the header and their frames. It parses to
those records exactly when no body is longer than the reader's limit: the writer's own limit is
that of a `u32`, and the reader takes a longer body for a torn tail.
-/

namespace IqdbPersist

open CrashLogic FileSystem FramedLog LogState

variable {ε M : Type} {b : Build M}

namespace Wal

/-- Append some records, one after another. -/
def appendAll (b : Build M) : List (WalRecord M) → Method ε Unit
  | [] => pure ()
  | r :: rs => do
    append b r
    appendAll b rs

end Wal

theorem ends_appendAll (rs : List (WalRecord M)) {s : LogState} {content : Bytes}
    (h : s.At content) :
    Ends (Wal.appendAll b rs : Wal.Method ε Unit) s
      (fun _ s' => Follows s s' ∧ s'.At (content ++ recordFrames b rs) ∧ ∀ r ∈ rs, Appendable b r)
      (fun _ _ => s.2.Calm → ¬ ∀ r ∈ rs, Appendable b r) := by
  induction rs generalizing s content with
  | nil =>
    refine ⟨(quiet_scratch s s.1.scratch).follows, ?_, by simp⟩
    rwa [recordFrames, List.map_nil, frames_nil, List.append_nil]
  | cons r rs ih =>
    rw [Wal.appendAll, ends_bind]
    refine (ends_append b h r).mono ?_ ?_
    · rintro _ s₁ ⟨happ, hfollows, hat, -, hscript, -⟩
      refine (ih hat).mono ?_ ?_
      · rintro _ s' ⟨hfollows', hat', hall⟩
        rw [List.append_assoc] at hat'
        exact ⟨hfollows.trans hfollows', hat', List.forall_mem_cons.mpr ⟨happ, hall⟩⟩
      · intro e s' hstop hcalm hall
        exact hstop (hcalm.drop hscript) (List.forall_mem_cons.mp hall).2
    · rintro e s' (⟨-, -, -, hcompletes, -⟩ | ⟨happ, -⟩) hcalm hall
      · rw [hcalm.completes] at hcompletes
        cases hcompletes
      · exact happ (List.forall_mem_cons.mp hall).1

theorem parseRecords_logOf_oversized (hmd : b.metadata.Lawful) {rs rs' : List (WalRecord M)}
    {r : WalRecord M} (h : ∀ r ∈ rs, Loggable b r)
    (hr : (recordBody b.metadata r).length < 2 ^ 32)
    (hlong : maxRecordLen < (recordBody b.metadata r).length) :
    parseRecords b (logOf b (rs ++ r :: rs')) = (.ok rs : Except (PersistError ε) _) := by
  rw [logOf_append, recordFrames_cons]
  exact parseRecords_logOf_append hmd h (front_oversized_frame (logFormat b) hr hlong _)

theorem exists_oversized {rs : List (WalRecord M)} (happ : ∀ r ∈ rs, Appendable b r)
    (h : ¬ ∀ r ∈ rs, (recordBody b.metadata r).length ≤ maxRecordLen) :
    ∃ rs₁ r rs₂, rs = rs₁ ++ r :: rs₂ ∧ (∀ r ∈ rs₁, Loggable b r) ∧
      (recordBody b.metadata r).length < 2 ^ 32 ∧
      maxRecordLen < (recordBody b.metadata r).length := by
  induction rs with
  | nil => exact absurd (by simp) h
  | cons r rs ih =>
    obtain ⟨hr, hrs⟩ := List.forall_mem_cons.mp happ
    by_cases hle : (recordBody b.metadata r).length ≤ maxRecordLen
    · obtain ⟨rs₁, r', rs₂, rfl, hrs₁, hlong⟩ := ih hrs fun hall =>
        h (List.forall_mem_cons.mpr ⟨hle, hall⟩)
      exact ⟨r :: rs₁, r', rs₂, rfl, List.forall_mem_cons.mpr ⟨⟨hr.1, hle⟩, hrs₁⟩, hlong⟩
    · exact ⟨[], r, rs, rfl, by simp, hr.2, Nat.lt_of_not_le hle⟩

theorem parseRecords_logOf_iff (hmd : b.metadata.Lawful) {rs : List (WalRecord M)}
    (happ : ∀ r ∈ rs, Appendable b r) :
    parseRecords b (logOf b rs) = (.ok rs : Except (PersistError ε) _) ↔
      ∀ r ∈ rs, (recordBody b.metadata r).length ≤ maxRecordLen := by
  refine ⟨fun hparse => ?_, fun hle => parseRecords_logOf hmd fun r hr => ⟨(happ r hr).1, hle r hr⟩⟩
  by_contra hle
  obtain ⟨rs₁, r, rs₂, rfl, hrs₁, hr, hlong⟩ := exists_oversized happ hle
  rw [parseRecords_logOf_oversized hmd hrs₁ hr hlong] at hparse
  have hlength := congrArg List.length (Except.ok.inj hparse)
  simp at hlength

/-- Records appended to a fresh log are read back exactly when no body is over the reader's
limit. -/
theorem parseRecords_appendAll_iff (hmd : b.metadata.Lawful) {snapshot : Path}
    {policy : FsyncPolicy} {w w₁ : World Path} {wal : Wal} {s : LogState}
    {rs : List (WalRecord M)} (hcreate : Wal.create (ε := ε) snapshot policy w = .ok wal w₁)
    (happend : Wal.appendAll (ε := ε) b rs (wal, w₁) = .ok () s) :
    ∃ content, s.2.files (walPath snapshot) = some content ∧
      (parseRecords b content = (.ok rs : Except (PersistError ε) _) ↔
        ∀ r ∈ rs, (recordBody b.metadata r).length ≤ maxRecordLen) := by
  obtain ⟨hopened, -⟩ := ends_of_ok (ends_create (ε := ε)) hcreate
  obtain ⟨hfollows, hat, happ⟩ := ends_of_ok (ends_appendAll rs hopened.holds) happend
  have hholds : s.2.files s.1.file.path = some (logOf b rs) := hat.holds
  rw [hfollows.filePath, hopened.filePath] at hholds
  exact ⟨logOf b rs, hholds, parseRecords_logOf_iff hmd happ⟩

theorem exists_appendAll (snapshot : Path) (policy : FsyncPolicy) {w : World Path}
    (hcalm : w.Calm) (hpermits : w.permits (walPath snapshot) = true) {rs : List (WalRecord M)}
    (happ : ∀ r ∈ rs, Appendable b r) :
    ∃ wal w₁ s, Wal.create (ε := ε) snapshot policy w = .ok wal w₁ ∧
      Wal.appendAll (ε := ε) b rs (wal, w₁) = .ok () s := by
  have hcreate : Ends (Wal.create snapshot policy) w
      (fun wal w' => Opened snapshot policy w (wal, w') walHeader ∧ w'.Calm)
      (fun (_ : Halt (PersistError ε)) _ => False) := by
    refine ends_create.mono ?_ ?_
    · rintro wal w₁ ⟨hopened, hscript⟩
      exact ⟨hopened, hcalm.drop hscript⟩
    · rintro e w₁ ⟨-, -, hstop⟩
      exact hstop ⟨hcalm.completes 3, hpermits⟩
  obtain ⟨wal, w₁, hwal, hopened, hcalm₁⟩ := ok_of_ends hcreate
  have happend := (ends_appendAll (ε := ε) rs hopened.holds).mono (fun _ _ h => h)
    fun _ _ hstop => hstop hcalm₁ happ
  obtain ⟨_, s, hs, -⟩ := ok_of_ends happend
  exact ⟨wal, w₁, s, hwal, hs⟩

theorem parseRecords_appendAll_iff_default :
    ∃ wal w₁ s, Wal.create (ε := IdError) ⟨false, ["x"]⟩ .always emptyWorld = .ok wal w₁ ∧
      Wal.appendAll (ε := IdError) defaultBuild [.delete (.u64 7)] (wal, w₁) = .ok () s ∧
      ∃ content, s.2.files (walPath ⟨false, ["x"]⟩) = some content ∧
        (parseRecords defaultBuild content =
            (.ok [.delete (.u64 7)] : Except (PersistError IdError) _) ↔
          ∀ r ∈ [WalRecord.delete (.u64 7)],
            (recordBody entryList r).length ≤ maxRecordLen) := by
  have happ : ∀ r ∈ [WalRecord.delete (.u64 7)], Appendable defaultBuild r :=
    List.forall_mem_singleton.mpr ⟨trivial, by decide⟩
  obtain ⟨wal, w₁, s, hcreate, happend⟩ := exists_appendAll (ε := IdError) ⟨false, ["x"]⟩ .always
    (w := emptyWorld) rfl rfl happ
  exact ⟨wal, w₁, s, hcreate, happend,
    parseRecords_appendAll_iff entryList_lawful hcreate happend⟩

theorem length_components (vector : List F32) :
    (vector.flatMap fun c => LittleEndian.encode 4 c.toNat).length = 4 * vector.length := by
  induction vector with
  | nil => rfl
  | cons c vector ih =>
    rw [List.flatMap_cons, List.length_append, ih, LittleEndian.length_encode, List.length_cons]
    omega

theorem length_recordBody_insert (md : MetadataOps M) (n : UInt64) (vector : List F32) :
    (recordBody md (.insert (.u64 n) vector none)).length = 15 + 4 * vector.length := by
  simp only [recordBody, idBody, vectorBody, List.length_cons, List.length_append,
    LittleEndian.length_encode, length_components, List.length_nil]
  omega

/-- An insert whose body is three bytes over the reader's limit. -/
def longInsert : WalRecord (List (String × Value)) :=
  .insert (.u64 1) (List.replicate 67108861 0) none

theorem length_longInsert : (recordBody entryList longInsert).length = 268435459 := by
  rw [longInsert, length_recordBody_insert, List.length_replicate]

/-- The long insert is appended without an error and not read back. -/
theorem parseRecords_longInsert :
    ¬ ∀ (snapshot : Path) (policy : FsyncPolicy) (w w₁ : World Path) (wal : Wal) (s : LogState)
      (rs : List (WalRecord (List (String × Value)))),
      Wal.create (ε := IdError) snapshot policy w = .ok wal w₁ →
        Wal.appendAll (ε := IdError) defaultBuild rs (wal, w₁) = .ok () s →
          ∃ content, s.2.files (walPath snapshot) = some content ∧
            parseRecords defaultBuild content = (.ok rs : Except (PersistError IdError) _) := by
  intro hall
  have happ : ∀ r ∈ [longInsert], Appendable defaultBuild r := by
    refine List.forall_mem_singleton.mpr ⟨⟨?_, by simp⟩, ?_⟩
    · rw [List.length_replicate]
      decide
    · exact Nat.lt_of_le_of_lt (Nat.le_of_eq length_longInsert) (by decide)
  obtain ⟨wal, w₁, s, hcreate, happend⟩ := exists_appendAll (ε := IdError) ⟨false, ["x"]⟩ .always
    (w := emptyWorld) rfl rfl happ
  obtain ⟨content, hcontent, hparse⟩ := hall _ _ _ _ _ _ _ hcreate happend
  obtain ⟨hopened, -⟩ := ends_of_ok (ends_create (ε := IdError)) hcreate
  obtain ⟨hfollows, hat, -⟩ := ends_of_ok (ends_appendAll _ hopened.holds) happend
  have hholds : s.2.files s.1.file.path = some (logOf defaultBuild [longInsert]) := hat.holds
  rw [hfollows.filePath, hopened.filePath, hcontent] at hholds
  rw [Option.some.inj hholds, parseRecords_logOf_iff entryList_lawful happ] at hparse
  have hle : (recordBody entryList longInsert).length ≤ maxRecordLen :=
    hparse longInsert List.mem_cons_self
  rw [length_longInsert] at hle
  exact absurd hle (by decide)

end IqdbPersist
