import IqdbPersist.RecoveryContract

/-!
# An interrupted checkpoint

Between the rename that replaces the snapshot and the truncation that empties the log, the new
snapshot stands beside the old log, and nothing on disk says that the one contains the other. A
checkpoint that is cut short there recovers only if replaying the log once more changes nothing.
-/

namespace IqdbPersist

open CrashLogic FileSystem LogState Simulation
open Journal (Journaled)

variable {ε M I : Type} {b : Build M} {T : IndexType ε M I}

namespace PersistedIndex

variable {path : Path} {s : Session I} {j : Journaled T.change}

/-- What is on disk after an interrupted checkpoint stands for the index in memory, except that the
old log may be replayed on the new snapshot. -/
theorem Represents.recovers_cutShort_iff (hT : Contract b T) (h : Represents b T path j s)
    (hinv : SnapshotInverts b T s.1.config s.1.inner) {w w' : World Path}
    (hfiles : w.files = s.2.files) (hcut : CutShort b T s.1 w (logOf b j.log) w') :
    Recovers b T s.1.config w' s.1.inner ↔
      ¬ (Replaces b T s.1 w ∧ ¬ Empties b s.1 w) ∨
        Journal.replay T.change j.log s.1.inner = some s.1.inner := by
  cases hcut with
  | kept hno hsnapshot hlog =>
    rw [hfiles] at hsnapshot
    refine iff_of_true ?_ (.inl fun hyes => hno hyes.1)
    have hparse := parseRecords_logOf (ε := ε) hT.metadata h.loggable
    rw [h.recovers_iff_replay hT hsnapshot hlog hparse, h.inner]
    exact j.recovers
  | replaced hreplaces hfull hno hsnapshot hlog =>
    have hdecode := decodeSnapshot_of_inverts hT hinv hfull
    rw [recovers_iff hT.checksDim h.valid h.walEnabled hsnapshot hlog,
      stands_iff hdecode (parseRecords_logOf hT.metadata h.loggable)]
    exact ⟨.inr, fun hor => hor.resolve_left fun hnot => hnot ⟨hreplaces, hno⟩⟩
  | emptied n hreplaces hfull hempties hsnapshot hlog =>
    have hdecode := decodeSnapshot_of_inverts hT hinv hfull
    refine iff_of_true ?_ (.inl fun hyes => hyes.2 hempties)
    rw [recovers_iff hT.checksDim h.valid h.walEnabled hsnapshot hlog]
    exact ⟨s.1.inner, [], hdecode, parseRecords_take_walHeader b n, rfl⟩

theorem Represents.recovers_interrupted_iff (hT : Contract b T) (h : Represents b T path j s)
    (hnamed : ∃ name, path.fileName = some name) (hinv : SnapshotInverts b T s.1.config s.1.inner)
    {script : List Verdict} {e : Halt (PersistError ε)} {s' : Session I}
    (hcall : checkpoint b T (s.1, s.2.withScript script) = .error e s') :
    Recovers b T s.1.config s'.2 s.1.inner ↔
      ¬ (Replaces b T s.1 (s.2.withScript script) ∧ ¬ Empties b s.1 (s.2.withScript script)) ∨
        Journal.replay T.change j.log s.1.inner = some s.1.inner := by
  obtain ⟨name, hname⟩ := hnamed
  obtain ⟨snapshot, hholding, -⟩ := h.holding
  obtain ⟨wal, hwal, hpath, hat⟩ := hholding.wal
  rw [← hholding.configPath] at hname hpath
  have hat' := hat.withScript script
  obtain ⟨log', rfl, ⟨e', hfull, -, rfl⟩ | ⟨-, hcut⟩⟩ := ends_of_error
    (ends_checkpoint hname hat' hwal hpath) hcall
  · refine h.recovers_cutShort_iff hT hinv rfl (.kept ?_ rfl ?_)
    · rintro ⟨full, -, hfull', -⟩
      rw [hfull] at hfull'
      cases hfull'
    · rw [hholding.configPath]
      exact hholding.log
  · exact h.recovers_cutShort_iff hT hinv rfl hcut

/-- Cut short by a crash or an I/O error anywhere, a checkpoint recovers exactly if the rename did
not happen, or the truncation did too, or the log can be replayed on its own result. -/
theorem recovers_checkpoint_iff (hT : Contract b T) {config : PersistConfig} {x : I}
    {s₀ : Session I} (hstart : Started b T config x s₀) (hinv₀ : SnapshotInverts b T config x)
    {ls : List (Label M I)} (hrun : Runs (Step b T) s₀ ls s) (hsound : ∀ l ∈ ls, l.Sound b T)
    (hinv : SnapshotInverts b T s.1.config s.1.inner) {script : List Verdict}
    {e : Halt (PersistError ε)} {s' : Session I}
    (hcall : checkpoint b T (s.1, s.2.withScript script) = .error e s') :
    Recovers b T s.1.config s'.2 s.1.inner ↔
      ¬ (Replaces b T s.1 (s.2.withScript script) ∧ ¬ Empties b s.1 (s.2.withScript script)) ∨
        Journal.replay T.change (loggedBy ls) s.1.inner = some s.1.inner := by
  obtain ⟨j, hlog, hj⟩ := hstart.run hT hinv₀ hrun hsound
  obtain ⟨-, -, -, hnamed, -⟩ := hstart.holding
  rw [← hlog]
  exact hj.recovers_interrupted_iff hT hnamed hinv hcall

/-- The rename completes and the truncation of the log is cut off. -/
def betweenSteps : List Verdict := [.done, .done, .done, .cut 0]

/-- The small index acknowledges an insert and is cut off between the two steps of a checkpoint. -/
theorem exists_sampleCut : ∃ s₀ s e s', Started defaultBuild idIndex sampleConfig [] s₀ ∧
    Runs (Step defaultBuild idIndex) s₀ [.accepted sampleInsert] s ∧
    s.1.config = sampleConfig ∧ s.1.inner = [7] ∧
    checkpoint defaultBuild idIndex (s.1, s.2.withScript betweenSteps) = .error e s' ∧
    ByEnvironment e ∧ Replaces defaultBuild idIndex s.1 (s.2.withScript betweenSteps) ∧
    ¬ Empties defaultBuild s.1 (s.2.withScript betweenSteps) := by
  obtain ⟨s₀, s, hstart, hrun, hconfig, hinner, ⟨snapshot, hholding⟩, honly⟩ := exists_sampleRun
  obtain ⟨wal, hwal, hpath, hat⟩ := hholding.wal
  have hat' := hat.withScript betweenSteps
  have hname : s.1.config.path.fileName = some "x" := by
    rw [hconfig]
    rfl
  obtain ⟨full, hfull⟩ : ∃ full,
      snapshotBytes defaultBuild idIndex s.1.inner s.1.config = .ok full := by
    rw [hinner, hconfig]
    exact ⟨_, rfl⟩
  rw [← hholding.configPath] at hpath
  obtain ⟨e, s', hcall, log', -, ⟨e', hfull', -⟩ | ⟨he, -⟩⟩ := error_of_ends
    ((ends_checkpoint (b := defaultBuild) (T := idIndex) hname hat' hwal hpath).mono
      (by
        rintro _ _ ⟨_, _, -, -, -, -, -, hcompletes, -⟩
        rw [hconfig] at hcompletes
        cases hcompletes) fun _ _ h => h)
  · rw [hfull] at hfull'
    cases hfull'
  refine ⟨s₀, s, e, s', hstart, hrun, hconfig, hinner, hcall, he,
    ⟨full, "x", hfull, hname, ⟨?_, ?_⟩, ?_⟩, ?_⟩
  · have htemp := tempPathOf_ne (w := s.2) hname
    have htemp' := tempPathOf_ne_walPath (w := s.2) hname
    rw [hconfig] at htemp htemp'
    have hfiles := honly.files (tempPathOf sampleConfig.path "x" s.2) (by simp [htemp, htemp'])
    rw [hconfig]
    exact hfiles
  · exact congrFun honly.permits _
  · rw [hconfig]
    rfl
  · rw [Empties, hconfig]
    rintro ⟨-, hcompletes⟩
    cases hcompletes

theorem recovers_checkpoint_iff_default :
    ∃ (s : Session (List UInt64)) (e : Halt (PersistError IdError)) (s' : Session (List UInt64)),
    checkpoint defaultBuild idIndex (s.1, s.2.withScript betweenSteps) = .error e s' ∧
    (Recovers defaultBuild idIndex s.1.config s'.2 s.1.inner ↔
      ¬ (Replaces defaultBuild idIndex s.1 (s.2.withScript betweenSteps) ∧
        ¬ Empties defaultBuild s.1 (s.2.withScript betweenSteps)) ∨
        Journal.replay idIndex.change [sampleInsert] s.1.inner = some s.1.inner) := by
  obtain ⟨s₀, s, e, s', hstart, hrun, hconfig, -, hcall, -⟩ := exists_sampleCut
  refine ⟨s, e, s', hcall, ?_⟩
  exact recovers_checkpoint_iff idIndex_contract hstart (sampleConfig_inverts []) hrun
    (List.forall_mem_singleton.mpr sampleInsert_loggable.2)
    (by rw [hconfig]; exact sampleConfig_inverts _) hcall

/-- After the cut the log's insert meets a snapshot that has it already, and loading fails. -/
theorem not_recovers_betweenSteps :
    ¬ ∀ (config : PersistConfig) (x : List UInt64) (s₀ s s' : Session (List UInt64))
      (ls : List (Label (List (String × Value)) (List UInt64))) (script : List Verdict)
      (e : Halt (PersistError IdError)),
      Started defaultBuild idIndex config x s₀ → Runs (Step defaultBuild idIndex) s₀ ls s →
        (∀ l ∈ ls, l.Sound defaultBuild idIndex) →
        checkpoint defaultBuild idIndex (s.1, s.2.withScript script) = .error e s' →
        ByEnvironment e → Recovers defaultBuild idIndex s.1.config s'.2 s.1.inner := by
  intro hall
  obtain ⟨s₀, s, e, s', hstart, hrun, hconfig, hinner, hcall, he, hreplaces, hempties⟩ :=
    exists_sampleCut
  have hsound : ∀ l ∈ [Label.accepted (I := List UInt64) sampleInsert],
      l.Sound defaultBuild idIndex := List.forall_mem_singleton.mpr sampleInsert_loggable.2
  have hrecovers := hall _ _ _ _ _ _ _ _ hstart hrun hsound hcall he
  obtain ⟨j, hlog, hj⟩ := hstart.run idIndex_contract (sampleConfig_inverts []) hrun hsound
  rw [hj.recovers_interrupted_iff idIndex_contract ⟨"x", rfl⟩
    (by rw [hconfig]; exact sampleConfig_inverts _) hcall, hlog, hinner] at hrecovers
  rcases hrecovers with hno | hreplay
  · exact hno ⟨hreplaces, hempties⟩
  · cases hreplay

end PersistedIndex

end IqdbPersist
