import IqdbPersist.RecoveryContract

/-!
# A mutation that crashes

The frame of a mutation is in the log before the index has its say. If the index would reject the
record, then from the last byte of the frame to the truncation that takes it back, the log holds a
record that no load gets past.
-/

namespace IqdbPersist

open CrashLogic FileSystem LogState Simulation FramedLog
open Journal (Journaled)

variable {ε M I : Type} {b : Build M} {T : IndexType ε M I}

namespace PersistedIndex

variable {path : Path} {s : Session I} {j : Journaled T.change} {w : World Path}

/-- Loading gives the index before the mutation or, if the index accepts it, the one after. -/
def CrashAtomic (b : Build M) (T : IndexType ε M I) (r : WalRecord M) (s : Session I)
    (w : World Path) : Prop :=
  Recovers b T s.1.config w s.1.inner ∨
    T.Accepts r s.1.inner ∧ Recovers b T s.1.config w (T.apply r s.1.inner).2

/-- The truncation that takes a rejected record back takes effect. -/
def TakesBack (s : Session I) (script : List Verdict) : Prop :=
  ∃ wal, s.1.wal = some wal ∧
    takesEffect script (loggingOps (wal, s.2.withScript script)) = true

theorem Represents.recovers_tail (hT : Contract b T) (h : Represents b T path j s) {tail : Bytes}
    (htail : front (logFormat b) tail = none)
    (hsnapshot : w.files s.1.config.path = s.2.files s.1.config.path)
    (hlog : w.files (walPath s.1.config.path) = some (logOf b j.log ++ tail)) :
    Recovers b T s.1.config w s.1.inner := by
  have hparse := parseRecords_logOf_append (ε := ε) hT.metadata h.loggable htail
  rw [h.recovers_iff_replay hT hsnapshot hlog hparse, h.inner]
  exact j.recovers

theorem Represents.recovers_log (hT : Contract b T) (h : Represents b T path j s)
    (hsnapshot : w.files s.1.config.path = s.2.files s.1.config.path)
    (hlog : w.files (walPath s.1.config.path) = some (logOf b j.log)) :
    Recovers b T s.1.config w s.1.inner := by
  have hempty : front (logFormat b) [] = none := front_of_short _ (by simp)
  refine h.recovers_tail hT hempty hsnapshot ?_
  rw [List.append_nil, hlog]

theorem Represents.recovers_snoc_iff (hT : Contract b T) (h : Represents b T path j s)
    {r : WalRecord M} (hr : Loggable b r)
    (hsnapshot : w.files s.1.config.path = s.2.files s.1.config.path)
    (hlog : w.files (walPath s.1.config.path) = some (logOf b (j.log ++ [r]))) (x : I) :
    Recovers b T s.1.config w x ↔ T.change r s.1.inner = some x := by
  have hall : ∀ r' ∈ j.log ++ [r], Loggable b r' :=
    List.forall_mem_append.mpr ⟨h.loggable, List.forall_mem_singleton.mpr hr⟩
  rw [h.recovers_iff_replay hT hsnapshot hlog (parseRecords_logOf hT.metadata hall),
    j.replay_snoc, h.inner]

/-- With the whole frame of a mutation behind the log, the crash is atomic exactly if the index
accepts the mutation or the parser overlooks it. -/
theorem Represents.crashAtomic_frame_iff (hT : Contract b T) (h : Represents b T path j s)
    {r : WalRecord M} (hr : Appendable b r)
    (hsnapshot : w.files s.1.config.path = s.2.files s.1.config.path)
    (hlog : w.files (walPath s.1.config.path) = some (logOf b j.log ++ frameOf b r)) :
    CrashAtomic b T r s w ↔
      T.Accepts r s.1.inner ∨ maxRecordLen < (recordBody b.metadata r).length := by
  by_cases hlong : maxRecordLen < (recordBody b.metadata r).length
  · have hfront := front_oversized_frame (logFormat b) hr.2 hlong []
    rw [List.append_nil] at hfront
    exact iff_of_true (.inl (h.recovers_tail hT hfront hsnapshot hlog)) (.inr hlong)
  · rw [frameOf, ← logOf_snoc] at hlog
    have hrecovers := h.recovers_snoc_iff hT ⟨hr.1, Nat.le_of_not_lt hlong⟩ hsnapshot hlog
    rw [or_iff_left hlong, CrashAtomic, hrecovers, hrecovers]
    constructor
    · rintro (hchange | ⟨haccepts, -⟩)
      · by_contra hreject
        rw [IndexType.change_of_rejects hreject] at hchange
        cases hchange
      · exact haccepts
    · exact fun haccepts => .inr ⟨haccepts, IndexType.change_of_accepts haccepts⟩

theorem front_take_frameOf {r : WalRecord M} {n : ℕ} (happ : 0 < n → Appendable b r)
    (hn : n < (frameOf b r).length) : front (logFormat b) ((frameOf b r).take n) = none := by
  rcases Nat.eq_zero_or_pos n with rfl | hpos
  · exact front_of_short _ (by simp)
  · exact front_take_frame _ (happ hpos).2 (by rwa [frameOf, length_frame] at hn)

/-- Stopped by the environment anywhere, a mutation is atomic exactly if the index accepts it, or
its frame had not arrived, or the rollback has taken it back, or the parser overlooks it. -/
theorem Represents.crashAtomic_iff (hT : Contract b T) (h : Represents b T path j s)
    {r : WalRecord M} {script : List Verdict} {e : Halt (PersistError ε)} {s' : Session I}
    (hcall : mutation b T r (s.1, s.2.withScript script) = .error e s') (he : ByEnvironment e) :
    CrashAtomic b T r s s'.2 ↔
      T.Accepts r s.1.inner ∨ mutationArrived b script r < (frameOf b r).length ∨
        TakesBack s script ∨ maxRecordLen < (recordBody b.metadata r).length := by
  obtain ⟨snapshot, hholding, -⟩ := h.holding
  obtain ⟨wal, hwal, hpath, hat⟩ := hholding.wal
  have hat' := hat.withScript script
  have htakesBack : TakesBack s script ↔
      takesEffect script (loggingOps (wal, s.2.withScript script)) = true := by
    simp [TakesBack, hwal]
  rw [← hholding.configPath] at hpath
  have hsnapshot {log' : LogState} (hfollows : Follows (wal, s.2.withScript script) log') :
      log'.2.files s.1.config.path = s.2.files s.1.config.path :=
    hfollows.only.files _ (by rw [hpath]; exact (walPath_ne _).symm)
  have hlog {log' : LogState} (hfollows : Follows (wal, s.2.withScript script) log')
      {content : Bytes} (hholds : log'.Holds content) :
      log'.2.files (walPath s.1.config.path) = some content := by
    rwa [LogState.Holds, hfollows.filePath, hpath] at hholds
  obtain ⟨x', log', rfl, hhalted⟩ := ends_of_error (ends_mutation hat' hwal r) hcall
  change CrashAtomic b T r s log'.2 ↔ _
  cases hhalted with
  | unencodable henv => exact absurd he henv
  | rejected => exact he.elim
  | interrupted henv hfollows hstop happ hat =>
    by_cases harrived : mutationArrived b script r < (frameOf b r).length
    · refine iff_of_true (.inl ?_) (.inr (.inl harrived))
      exact h.recovers_tail hT (front_take_frameOf happ harrived) (hsnapshot hfollows)
        (hlog hfollows hat.holds)
    · have hwhole : (frameOf b r).take (mutationArrived b script r) = frameOf b r :=
        List.take_of_length_le (Nat.le_of_not_lt harrived)
      have hpos : 0 < mutationArrived b script r := by
        refine Nat.lt_of_lt_of_le ?_ (Nat.le_of_not_lt harrived)
        rw [frameOf, length_frame]
        omega
      have hholds : log'.Holds (logOf b j.log ++ (frameOf b r).take (mutationArrived b script r)) :=
        hat.holds
      rw [hwhole] at hholds
      have hkept : ¬ TakesBack s script := by
        rw [htakesBack, takesEffect, Bool.and_eq_true, not_and]
        exact fun hcompletes => absurd hcompletes (by simpa using hstop)
      rw [h.crashAtomic_frame_iff hT (happ hpos) (hsnapshot hfollows) (hlog hfollows hholds),
        or_iff_right harrived, or_iff_right hkept]
  | rollbackInterrupted henv happ hreject hfollows hlogged hstop harrived hholds =>
    have harrived' : ¬ mutationArrived b script r < (frameOf b r).length :=
      Nat.not_lt.mpr (Nat.le_of_eq harrived.symm)
    rw [or_iff_right harrived', htakesBack]
    split at hholds
    · rename_i heffect
      refine iff_of_true (.inl ?_) (.inr (.inl heffect))
      exact h.recovers_log hT (hsnapshot hfollows) (hlog hfollows hholds)
    · rename_i heffect
      rw [h.crashAtomic_frame_iff hT happ (hsnapshot hfollows) (hlog hfollows hholds),
        or_iff_right (a := takesEffect script _ = true) heffect]

/-- In every session within the limits, a crash during a mutation is atomic exactly if the index
accepts the mutation, or the crash comes before the whole frame has arrived or after the rollback
has taken it back, or the body is one that the parser overlooks. -/
theorem mutation_crash_iff (hT : Contract b T) {config : PersistConfig} {x : I} {s₀ : Session I}
    (hstart : Started b T config x s₀) (hinv₀ : SnapshotInverts b T config x)
    {ls : List (Label M I)} (hrun : Runs (Step b T) s₀ ls s) (hsound : ∀ l ∈ ls, l.Sound b T)
    {r : WalRecord M} {script : List Verdict} {s' : Session I}
    (hcall : mutation b T r (s.1, s.2.withScript script) = .error .crashed s') :
    CrashAtomic b T r s s'.2 ↔
      T.Accepts r s.1.inner ∨ mutationArrived b script r < (frameOf b r).length ∨
        TakesBack s script ∨ maxRecordLen < (recordBody b.metadata r).length := by
  obtain ⟨j, -, hj⟩ := hstart.run hT hinv₀ hrun hsound
  exact hj.crashAtomic_iff hT hcall trivial

/-- The append completes and the truncation of the rollback is cut off. -/
def beforeRollback : List Verdict := [.done, .done, .done, .cut 0]

theorem exists_sampleCrash : ∃ s s', Started defaultBuild idIndex sampleConfig [] s ∧
    s.1.inner = [] ∧
    mutation defaultBuild idIndex sampleDelete (s.1, s.2.withScript beforeRollback) =
      .error .crashed s' :=
  ⟨(_, _), _, ⟨rfl, emptyWorld, rfl, rfl⟩, rfl, rfl⟩

theorem mutation_crash_iff_default : ∃ s s' : Session (List UInt64),
    mutation defaultBuild idIndex sampleDelete (s.1, s.2.withScript beforeRollback) =
      .error .crashed s' ∧
    (CrashAtomic defaultBuild idIndex sampleDelete s s'.2 ↔
      idIndex.Accepts sampleDelete s.1.inner ∨
        mutationArrived defaultBuild beforeRollback sampleDelete <
          (frameOf defaultBuild sampleDelete).length ∨
        TakesBack s beforeRollback ∨
        maxRecordLen < (recordBody entryList sampleDelete).length) := by
  obtain ⟨s, s', hstart, -, hcall⟩ := exists_sampleCrash
  exact ⟨s, s', hcall, mutation_crash_iff idIndex_contract hstart (sampleConfig_inverts [])
    (Runs.nil s) (by simp) hcall⟩

/-- The absent delete stays in the log, and loading fails on it. -/
theorem not_crashAtomic_beforeRollback :
    ¬ ∀ (config : PersistConfig) (x : List UInt64) (s₀ s s' : Session (List UInt64))
      (ls : List (Label (List (String × Value)) (List UInt64)))
      (r : WalRecord (List (String × Value))) (script : List Verdict),
      Started defaultBuild idIndex config x s₀ → Runs (Step defaultBuild idIndex) s₀ ls s →
        (∀ l ∈ ls, l.Sound defaultBuild idIndex) → Loggable defaultBuild r →
        mutation defaultBuild idIndex r (s.1, s.2.withScript script) = .error .crashed s' →
          CrashAtomic defaultBuild idIndex r s s'.2 := by
  intro hall
  obtain ⟨s, s', hstart, hinner, hcall⟩ := exists_sampleCrash
  have hatomic := hall _ _ _ _ _ [] _ _ hstart (Runs.nil s) (by simp) sampleDelete_loggable hcall
  obtain ⟨j, -, hj⟩ := hstart.run idIndex_contract (sampleConfig_inverts []) (Runs.nil s) (by simp)
  rw [hj.crashAtomic_iff idIndex_contract hcall trivial, hinner] at hatomic
  rcases hatomic with haccepts | hpartial | ⟨wal, -, heffect⟩ | hlong
  · cases haccepts
  · exact absurd hpartial (by decide)
  · rw [loggingOps, appendOps] at heffect
    split at heffect
    · exact absurd heffect (by decide)
    · exact absurd heffect (by decide)
  · exact absurd sampleDelete_loggable.2 (Nat.not_le_of_lt hlong)

end PersistedIndex

end IqdbPersist
