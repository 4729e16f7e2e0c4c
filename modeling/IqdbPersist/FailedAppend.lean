import IqdbPersist.RecoveryContract

/-!
# A failed append

Only a rejection by the index is rolled back. When the append itself fails, the index is unchanged,
but the bytes that arrived stay in the log and the next append goes behind them: a whole frame is
read back as if it had been acknowledged, a part of one hides whatever is acknowledged later.
-/

namespace IqdbPersist

open CrashLogic FileSystem LogState Simulation FramedLog Journal

variable {ε M I : Type} {b : Build M} {T : IndexType ε M I}

namespace PersistedIndex

variable {path : Path} {snapshot : Bytes} {rs news : List (WalRecord M)} {s s' : Session I}
  {r : WalRecord M} {script : List Verdict}

/-- An operation of a mutation fails or is cut off before the index is asked. -/
def AppendFails (s : Session I) (script : List Verdict) : Prop :=
  ∃ wal, s.1.wal = some wal ∧
    completes script (loggingOps (wal, s.2.withScript script)) = false

/-- The log reads as exactly these records. -/
def Reads (ε : Type) (b : Build M) (path : Path) (rs : List (WalRecord M)) (s : Session I) : Prop :=
  ∃ log, s.2.files (walPath path) = some log ∧
    parseRecords b log = (.ok rs : Except (PersistError ε) _)

/-- Nothing of the frame arrived, or the log has been reset, or what arrived is not read and nothing
stands behind it. -/
def Traceless (b : Build M) (r : WalRecord M) (arrived : ℕ) (ls : List (Label M I)) : Prop :=
  arrived = 0 ∨ (∃ config x, Label.checkpointed config x ∈ ls) ∨
    ((arrived < (frameOf b r).length ∨ maxRecordLen < (recordBody b.metadata r).length) ∧
      ∀ r', Label.accepted r' ∉ ls)

/-- A failed append leaves the index alone, and in the log what had arrived of the frame. -/
theorem Holding.failAppend (h : Holding b path snapshot walHeader rs s) (hr : Appendable b r)
    (hfails : AppendFails s script) :
    Ends (mutation b T r) (s.1, s.2.withScript script) (fun _ _ => False)
      (fun _ s' => s'.1.inner = s.1.inner ∧
        Holding b path snapshot (logOf b rs ++ (frameOf b r).take (mutationArrived b script r)) []
          (s'.1, s'.2.withScript [])) := by
  obtain ⟨wal, hwal, hpath, hat⟩ := h.wal
  obtain ⟨wal', hwal', hstop⟩ := hfails
  rw [hwal] at hwal'
  cases hwal'
  have hat' := hat.withScript script
  refine (ends_mutation hat' hwal r).mono ?_ ?_
  · rintro _ _ ⟨log', -, -, -, -, -, hlogged, -⟩
    rw [World.script_withScript, hstop] at hlogged
    cases hlogged
  · rintro e _ ⟨x', log', rfl, hhalted⟩
    cases hhalted with
    | unencodable henv happ => exact absurd hr happ
    | rejected happ hreject hfollows hlogged =>
      rw [World.script_withScript, hstop] at hlogged
      cases hlogged
    | rollbackInterrupted henv happ hreject hfollows hlogged =>
      rw [World.script_withScript, hstop] at hlogged
      cases hlogged
    | interrupted henv hfollows hstop' happ hat =>
      refine ⟨rfl, h.configPath, ?_, ⟨log'.1, rfl, hfollows.filePath.trans hpath, ?_⟩, by simp, rfl⟩
      · refine (hfollows.only.files _ ?_).trans h.snapshot
        rw [hpath]
        exact (walPath_ne path).symm
      · rw [recordFrames_nil, List.append_nil]
        exact hat.withScript []

section Reads

variable {n : ℕ}

theorem reads_logOf (hmd : b.metadata.Lawful) (hrs : ∀ r ∈ rs, Loggable b r)
    (hlog : s.2.files (walPath path) = some (logOf b rs)) : Reads ε b path rs s :=
  ⟨_, hlog, parseRecords_logOf hmd hrs⟩

/-- A remainder of a frame is not noticed if it is empty, or unreadable with nothing behind it. -/
theorem reads_of_remainder (hmd : b.metadata.Lawful) (hrs : ∀ r' ∈ rs ++ news, Loggable b r')
    (hr : Appendable b r)
    (hlog : s.2.files (walPath path) =
      some (logOf b rs ++ (frameOf b r).take n ++ recordFrames b news))
    (h : n = 0 ∨ (n < (frameOf b r).length ∨ maxRecordLen < (recordBody b.metadata r).length) ∧
      news = []) : Reads ε b path (rs ++ news) s := by
  rcases h with rfl | ⟨hunread, rfl⟩
  · refine reads_logOf hmd hrs (hlog.trans ?_)
    rw [List.take_zero, List.append_nil, logOf_append]
  · rw [List.append_nil] at hrs ⊢
    rw [recordFrames_nil, List.append_nil] at hlog
    refine ⟨_, hlog, parseRecords_logOf_append hmd hrs ?_⟩
    by_cases hn : n < (frameOf b r).length
    · exact front_take_frame _ hr.2 (by rwa [frameOf, length_frame] at hn)
    · have hfront := front_oversized_frame (logFormat b) hr.2 (hunread.resolve_left hn) []
      rw [List.append_nil] at hfront
      rwa [List.take_of_length_le (Nat.le_of_not_lt hn)]

theorem not_reads_of_remainder (hmd : b.metadata.Lawful) (hrs : ∀ r' ∈ rs ++ news, Loggable b r')
    (hr : Appendable b r)
    (hlog : s.2.files (walPath path) =
      some (logOf b rs ++ (frameOf b r).take n ++ recordFrames b news))
    (hfront : n < (frameOf b r).length →
      front (logFormat b) ((frameOf b r).take n ++ recordFrames b news) = none)
    (h : n < (frameOf b r).length ∨ maxRecordLen < (recordBody b.metadata r).length → news ≠ []) :
    ¬ Reads ε b path (rs ++ news) s := by
  rintro ⟨log, hlog', hparse⟩
  rw [hlog] at hlog'
  cases hlog'
  obtain ⟨hold, hnew⟩ := List.forall_mem_append.mp hrs
  have hlost {tail : Bytes} (htail : front (logFormat b) tail = none)
      (hparse : parseRecords b (logOf b rs ++ tail) =
        (.ok (rs ++ news) : Except (PersistError ε) _)) : news = [] := by
    rw [parseRecords_logOf_append hmd hold htail] at hparse
    have hlength := congrArg List.length (Except.ok.inj hparse)
    rw [List.length_append] at hlength
    exact List.length_eq_zero_iff.mp (by omega)
  rw [List.append_assoc] at hparse
  by_cases hn : n < (frameOf b r).length
  · exact h (.inl hn) (hlost (hfront hn) hparse)
  · rw [List.take_of_length_le (Nat.le_of_not_lt hn)] at hparse
    by_cases hlong : maxRecordLen < (recordBody b.metadata r).length
    · exact h (.inr hlong) (hlost (front_oversized_frame _ hr.2 hlong _) hparse)
    · have hwhole : Loggable b r := ⟨hr.1, Nat.le_of_not_lt hlong⟩
      have hall : ∀ r' ∈ rs ++ r :: news, Loggable b r' :=
        List.forall_mem_append.mpr ⟨hold, List.forall_mem_cons.mpr ⟨hwhole, hnew⟩⟩
      rw [frameOf, ← recordFrames_cons, ← logOf_append, parseRecords_logOf hmd hall] at hparse
      have hlength := congrArg List.length (Except.ok.inj hparse)
      simp at hlength

/-- What a session reads after an append left `n` bytes of a frame behind the records `rs`. -/
theorem Holding.reads_iff (hmd : b.metadata.Lawful) (hr : Appendable b r)
    (happ : ∀ r' ∈ rs, Appendable b r')
    (h : Holding b path snapshot (logOf b rs ++ (frameOf b r).take n) [] s) {ls : List (Label M I)}
    (hrun : Runs (Step b T) s ls s')
    (hshort : ∀ r' ∈ (ls.map Label.change).foldl Change.after rs,
      (recordBody b.metadata r').length ≤ maxRecordLen) :
    (Traceless b r n ls → Reads ε b path ((ls.map Label.change).foldl Change.after rs) s') ∧
      ((n < (frameOf b r).length →
          front (logFormat b) ((frameOf b r).take n ++ recordFrames b (loggedBy ls)) = none) →
        (Reads ε b path ((ls.map Label.change).foldl Change.after rs) s' ↔
          Traceless b r n ls)) := by
  obtain ⟨snapshot', h'⟩ := h.run hrun
  change Holding b path snapshot' _ (loggedBy ls) s' at h'
  have hlog := h'.log
  by_cases hfold : .fold ∈ ls.map Label.change
  · rw [foldl_baseAfter_of_fold hfold] at hlog
    rw [foldl_after_of_fold hfold rs []] at hshort ⊢
    change ∀ r' ∈ loggedBy ls, _ at hshort
    have hreads : Reads ε b path (loggedBy ls) s' :=
      reads_logOf hmd (fun r' hr' => ⟨(h'.appendable r' hr').1, hshort r' hr'⟩) hlog
    have htraceless : Traceless b r n ls := .inr (.inl (fold_mem_change_iff.mp hfold))
    exact ⟨fun _ => hreads, fun _ => iff_of_true hreads htraceless⟩
  · rw [foldl_baseAfter_of_not_fold hfold] at hlog
    rw [foldl_after_of_not_fold hfold rs] at hshort ⊢
    change ∀ r' ∈ rs ++ loggedBy ls, _ at hshort
    have hfits := List.forall_mem_append.mpr ⟨happ, h'.appendable⟩
    have hall : ∀ r' ∈ rs ++ loggedBy ls, Loggable b r' :=
      fun r' hr' => ⟨(hfits r' hr').1, hshort r' hr'⟩
    have hnews : loggedBy ls = [] ↔ ∀ r', Label.accepted r' ∉ ls := by
      simp only [loggedBy, foldl_after_eq_nil_iff hfold, commit_mem_change_iff]
    have htraceless : Traceless b r n ls ↔ n = 0 ∨
        (n < (frameOf b r).length ∨ maxRecordLen < (recordBody b.metadata r).length) ∧
          loggedBy ls = [] := by
      rw [Traceless, ← fold_mem_change_iff, or_iff_right hfold, hnews]
    rw [htraceless]
    refine ⟨reads_of_remainder hmd hall hr hlog, fun hfront => ⟨fun hreads => ?_,
      reads_of_remainder hmd hall hr hlog⟩⟩
    by_contra hnot
    rw [not_or, not_and] at hnot
    exact not_reads_of_remainder hmd hall hr hlog hfront hnot.2 hreads

end Reads

/-- After an append that failed the log reads as the acknowledged records, if and, but for bytes
that happen to complete a frame, only if the failure has left no trace that matters. -/
theorem failed_append (hmd : b.metadata.Lawful) {config : PersistConfig} {x : I} {s₀ : Session I}
    (hstart : Started b T config x s₀) {ls : List (Label M I)} (hrun : Runs (Step b T) s₀ ls s)
    (hr : Appendable b r) (hfails : AppendFails s script) :
    Ends (mutation b T r) (s.1, s.2.withScript script) (fun _ _ => False)
      (fun _ s₁ => s₁.1.inner = s.1.inner ∧
        ∀ (ls' : List (Label M I)) (s' : Session I),
          Runs (Step b T) (s₁.1, s₁.2.withScript []) ls' s' →
          (∀ r' ∈ loggedBy (ls ++ ls'), (recordBody b.metadata r').length ≤ maxRecordLen) →
          (Traceless b r (mutationArrived b script r) ls' →
            Reads ε b config.path (loggedBy (ls ++ ls')) s') ∧
          ((mutationArrived b script r < (frameOf b r).length →
              front (logFormat b) ((frameOf b r).take (mutationArrived b script r) ++
                recordFrames b (loggedBy ls')) = none) →
            (Reads ε b config.path (loggedBy (ls ++ ls')) s' ↔
              Traceless b r (mutationArrived b script r) ls'))) := by
  obtain ⟨-, -, -, -, full, -, hopened⟩ := hstart.holding
  obtain ⟨snapshot, hholding⟩ := hopened.run hrun
  rw [foldl_baseAfter_walHeader] at hholding
  refine (hholding.failAppend hr hfails).mono (fun _ _ h => h) ?_
  rintro e s₁ ⟨hinner, hfailed⟩
  refine ⟨hinner, fun ls' s' hrun' hshort => ?_⟩
  rw [loggedBy, List.map_append, List.foldl_append] at hshort ⊢
  exact hfailed.reads_iff hmd hr hholding.appendable hrun' hshort

/-- The head of a frame is written, and the write of its body fails after four bytes. -/
def bodyFails : List Verdict := [.done, .done, .fails 4]

/-- The small index fails to log an insert, and acknowledges it when it is tried again. -/
theorem exists_sampleFailure : ∃ s e s₁ s', Started defaultBuild idIndex sampleConfig [] s ∧
    AppendFails s bodyFails ∧
    mutation defaultBuild idIndex sampleInsert (s.1, s.2.withScript bodyFails) =
      .error (.failed e) s₁ ∧ e.IsIo ∧
    Runs (Step defaultBuild idIndex) (s₁.1, s₁.2.withScript []) [.accepted sampleInsert] s' :=
  ⟨(_, _), _, _, _, ⟨rfl, emptyWorld, rfl, rfl⟩, ⟨_, rfl, rfl⟩, rfl, trivial,
    (Runs.nil _).snoc (.accepted rfl)⟩

theorem front_sampleFailure : front (logFormat defaultBuild)
    ((frameOf defaultBuild sampleInsert).take
      (mutationArrived defaultBuild bodyFails sampleInsert) ++
        recordFrames defaultBuild [sampleInsert]) = none := by
  decide +kernel

theorem sampleInsert_short : ∀ r' ∈ [sampleInsert],
    (recordBody defaultBuild.metadata r').length ≤ maxRecordLen :=
  List.forall_mem_singleton.mpr sampleInsert_loggable.2

theorem failed_append_default : ∃ s e s₁ s',
    Started defaultBuild idIndex sampleConfig [] s ∧
    mutation defaultBuild idIndex sampleInsert (s.1, s.2.withScript bodyFails) =
      .error (.failed e) s₁ ∧
    Runs (Step defaultBuild idIndex) (s₁.1, s₁.2.withScript []) [.accepted sampleInsert] s' ∧
    s₁.1.inner = s.1.inner ∧
    (Reads IdError defaultBuild sampleConfig.path [sampleInsert] s' ↔
      Traceless defaultBuild sampleInsert (mutationArrived defaultBuild bodyFails sampleInsert)
        [Label.accepted (I := List UInt64) sampleInsert]) := by
  obtain ⟨s, e, s₁, s', hstart, hfails, hcall, -, hrun⟩ := exists_sampleFailure
  obtain ⟨hinner, hreads⟩ := ends_of_error (failed_append entryList_lawful hstart (Runs.nil s)
    ⟨sampleInsert_loggable.1, sampleInsert_loggable.length_body⟩ hfails) hcall
  exact ⟨s, e, s₁, s', hstart, hcall, hrun, hinner,
    (hreads _ s' hrun sampleInsert_short).2 fun _ => front_sampleFailure⟩

/-- The insert that was acknowledged behind the failed one is not read. -/
theorem not_reads_bodyFails :
    ¬ ∀ (config : PersistConfig) (x : List UInt64) (s₀ s s₁ s' : Session (List UInt64))
      (ls ls' : List (Label (List (String × Value)) (List UInt64)))
      (r : WalRecord (List (String × Value))) (script : List Verdict) (e : PersistError IdError),
      Started defaultBuild idIndex config x s₀ → Runs (Step defaultBuild idIndex) s₀ ls s →
        Loggable defaultBuild r → AppendFails s script →
        mutation defaultBuild idIndex r (s.1, s.2.withScript script) = .error (.failed e) s₁ →
        e.IsIo → Runs (Step defaultBuild idIndex) (s₁.1, s₁.2.withScript []) ls' s' →
        (∀ r' ∈ loggedBy (ls ++ ls'), Loggable defaultBuild r') →
          Reads IdError defaultBuild config.path (loggedBy (ls ++ ls')) s' := by
  intro hall
  obtain ⟨s, e, s₁, s', hstart, hfails, hcall, he, hrun⟩ := exists_sampleFailure
  have hreads := hall _ _ _ _ _ _ [] _ _ _ _ hstart (Runs.nil s) sampleInsert_loggable hfails hcall
    he hrun (List.forall_mem_singleton.mpr sampleInsert_loggable)
  have happ : Appendable defaultBuild sampleInsert :=
    ⟨sampleInsert_loggable.1, sampleInsert_loggable.length_body⟩
  obtain ⟨-, -, -, -, full, -, hholding⟩ := hstart.holding
  have hholding' : Holding defaultBuild sampleConfig.path full walHeader [] s := hholding
  obtain ⟨-, hfailed⟩ := ends_of_error
    (hholding'.failAppend happ hfails) hcall
  rcases ((hfailed.reads_iff entryList_lawful happ (by simp) hrun sampleInsert_short).2
    fun _ => front_sampleFailure).mp hreads with hnone | ⟨config, x, hreset⟩ | ⟨-, hnews⟩
  · exact absurd hnone (by decide)
  · simp at hreset
  · exact hnews sampleInsert (by simp)

end PersistedIndex

end IqdbPersist
