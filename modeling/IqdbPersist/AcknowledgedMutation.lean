import IqdbPersist.DurableSession
import IqdbPersist.MutationCrash

/-!
# Acknowledged mutations and a loss of power

The log of a session that syncs every append is on the medium with every mutation that returned
`Ok`, but its name need not be: nothing syncs the directory when the log is created. Until the first
checkpoint a loss of power may take the whole log, and loading takes a missing log for an empty one.
-/

namespace IqdbPersist

open CrashLogic FileSystem LogState Simulation FramedLog
open Journal (Journaled)

variable {ε M I : Type} {b : Build M} {T : IndexType ε M I} {loss : Loss}

namespace PersistedIndex

variable {path : Path} {s : Session I} {j : Journaled T.change} {w : World Path} {S : Set Bytes}
  {indexes : Set I}

/-- Whatever a loss of power leaves of these files, loading it gives one of these indexes. -/
def Outlasts (b : Build M) (T : IndexType ε M I) (loss : Loss) (path : Path) (w : World Path)
    (indexes : Set I) : Prop :=
  ∀ files ∈ w.outcomes targetDir loss, ∀ config : PersistConfig, config.path = path →
    config.walEnabled = true → validateConfig b config = (.ok () : Except (PersistError ε) Unit) →
      ∃ x ∈ indexes, Recovers b T config (w.restarted files) x

/-- The index before a mutation and, if the index accepts it, the one after. -/
def beforeOrAfter (T : IndexType ε M I) (r : WalRecord M) (x : I) : Set I :=
  { y | y = x ∨ T.Accepts r x ∧ y = (T.apply r x).2 }

/-- A mutation that is stopped leaves a log that loads, however data are lost: less of its frame has
arrived than the scan takes for a frame, or the frame is synced and the index accepts the record, or
the rollback is synced too, or the parser overlooks the record. -/
def StoppedSafely (b : Build M) (T : IndexType ε M I) (r : WalRecord M) (x : I)
    (script : List Verdict) : Prop :=
  mutationArrived b script r < 8 ∨ AppendsDurably script ∧
    (T.Accepts r x ∨ TakesBackDurably script ∨ maxRecordLen < (recordBody b.metadata r).length)

/-- There has been a checkpoint, or nothing is lost with the log. -/
def Secured (T : IndexType ε M I) (ls : List (Label M I)) (x : I) : Prop :=
  (∃ config y, Label.checkpointed config y ∈ ls) ∨
    Journal.replay T.change (loggedBy ls) x = some x

theorem Recovers.of_config {config config' : PersistConfig} {x : I}
    (h : Recovers b T config w x) (hwal : config.walEnabled = true)
    (hpath : config'.path = config.path) (hwal' : config'.walEnabled = true)
    (hvalid : validateConfig b config' = (.ok () : Except (PersistError ε) Unit)) :
    Recovers b T config' w x := by
  rw [recovers_iff_loads hwal] at h
  rw [recovers_iff_loads hwal']
  obtain ⟨-, hreplays, hopenable⟩ := h
  rw [← hpath] at hreplays hopenable
  exact ⟨hvalid, hreplays, hopenable⟩

theorem Recovers.unique {config : PersistConfig} {x y : I} (h : Recovers b T config w x)
    (h' : Recovers b T config w y) : x = y := by
  obtain ⟨this, w₁, hload, rfl⟩ := h
  obtain ⟨this', w₂, hload', rfl⟩ := h'
  rw [hload] at hload'
  cases hload'
  rfl

theorem Represents.recovers_missing (h : Represents b T path j s)
    (hsnapshot : w.files s.1.config.path = s.2.files s.1.config.path)
    (hnone : w.files (walPath s.1.config.path) = none)
    (hpermits : w.permits (walPath s.1.config.path) = true) :
    Recovers b T s.1.config w j.base := by
  obtain ⟨snapshot, hholding, hbase⟩ := h.holding
  rw [recovers_iff_loads h.walEnabled]
  refine ⟨h.valid, ⟨snapshot, j.base, ?_, hbase, ?_⟩, .inr hpermits⟩
  · rw [hsnapshot, hholding.configPath, hholding.snapshot]
  · rw [hnone]
    exact rfl

/-- After work on its log alone, a session outlasts a loss of power if it does so with whatever may
be kept of the log and, unless the name of the log is on the medium, without the log. -/
theorem Stored.outlasts (hstored : Stored loss path s) (h : Represents b T path j s)
    (hworks : Works targetDir loss (walPath path) S s.2 w)
    (hmissing : ¬ (s.2.disk targetDir loss).Anchored (walPath path) → j.base ∈ indexes)
    (hkept : ∀ c ∈ S, ∀ w' : World Path,
      w'.files s.1.config.path = s.2.files s.1.config.path →
      w'.files (walPath s.1.config.path) = some c →
        ∃ x ∈ indexes, Recovers b T s.1.config w' x) :
    Outlasts b T loss path w indexes := by
  intro files hfiles config hpath hwal hvalid
  obtain ⟨snapshot, hholding, -⟩ := h.holding
  have hconfig := hholding.configPath
  have hsnapshot : (w.restarted files).files s.1.config.path = s.2.files s.1.config.path := by
    have hsame := hworks.within.files (walPath_ne path).symm
    rw [hconfig, World.files_restarted, ← hsame]
    exact (hworks.within.durable (walPath_ne path).symm hstored.snapshot).files hfiles
  have hlinked : (w.disk targetDir loss).names (walPath path) ≠ none := by
    rw [hworks.directory.1]
    intro hnone
    have hview := congrFun (s.2.view_disk targetDir loss) (walPath path)
    rw [Disk.view, hnone, hholding.log] at hview
    cases hview
  obtain ⟨x, hx, hrecovers⟩ : ∃ x ∈ indexes, Recovers b T s.1.config (w.restarted files) x := by
    obtain ⟨hnone, hnot⟩ | ⟨c, hc, hlog⟩ :=
      (hworks.directory.loose hstored.loose).outcome hworks.keeps hlinked hfiles
    · refine ⟨j.base, hmissing fun hanchored => hnot (hworks.directory.anchored hanchored), ?_⟩
      refine h.recovers_missing hsnapshot (by rw [hconfig]; exact hnone) ?_
      rw [hconfig]
      exact (congrFun hworks.permits _).trans hstored.permits
    · exact hkept c hc _ hsnapshot (by rw [hconfig]; exact hlog)
  exact ⟨x, hx, hrecovers.of_config h.walEnabled (hpath.trans hconfig.symm) hwal hvalid⟩

theorem Stored.outlasts_untouched (hT : Contract b T) (hstored : Stored loss path s)
    (h : Represents b T path j s) (huntouched : Untouched s.2 w)
    (hmissing : ¬ (s.2.disk targetDir loss).Anchored (walPath path) → j.base = s.1.inner) :
    Outlasts b T loss path w {s.1.inner} := by
  obtain ⟨snapshot, hholding, -⟩ := h.holding
  have hview : (s.2.disk targetDir loss).view (walPath path) = some (logOf b j.log) := by
    rw [World.view_disk, hholding.log]
    rfl
  refine hstored.outlasts h (.of_untouched huntouched (hstored.synced.keeps hview)) hmissing ?_
  rintro _ rfl w' hsnapshot hlog
  exact ⟨_, rfl, h.recovers_log hT hsnapshot hlog⟩

/-- When the log may be lost with its name, a session that outlasts this has nothing in its log that
the snapshot does not have. -/
theorem Stored.inner_eq_base (hstored : Stored loss path s) (h : Represents b T path j s)
    (hmiss : (s.2.disk targetDir loss).MayMiss (walPath path))
    (houtlasts : Outlasts b T loss path s.2 {s.1.inner}) : s.1.inner = j.base := by
  obtain ⟨files, hfiles, hnone⟩ := hmiss.outcome (World.wellFormed_disk _ _ _)
  obtain ⟨snapshot, hholding, -⟩ := h.holding
  have hconfig := hholding.configPath
  obtain ⟨_, rfl, hrecovers⟩ := houtlasts files hfiles s.1.config hconfig h.walEnabled h.valid
  refine hrecovers.unique (h.recovers_missing ?_ (by rw [hconfig]; exact hnone) ?_)
  · rw [hconfig]
    exact hstored.snapshot.files hfiles
  · rw [hconfig]
    exact hstored.permits

theorem Halted.appendable {r : WalRecord M} {x : I} {log : LogState} {content : Bytes}
    {t : I × LogState} (h : Halted b T r x log content .crashed t)
    (hpos : 0 < mutationArrived b log.2.script r) : Appendable b r := by
  cases h with
  | unencodable henv => exact absurd trivial henv
  | interrupted _ _ _ happ => exact happ hpos
  | rollbackInterrupted _ happ => exact happ

/-- Less than a head behind the log is not taken for a frame. -/
theorem Represents.recovers_piece (hT : Contract b T) (h : Represents b T path j s)
    {r : WalRecord M} {n : ℕ} (hn : n < 8) {c : Bytes}
    (hc : c ∈ pieces loss (logOf b j.log) (frameOf b r) n)
    (hsnapshot : w.files s.1.config.path = s.2.files s.1.config.path)
    (hlog : w.files (walPath s.1.config.path) = some c) :
    Recovers b T s.1.config w s.1.inner := by
  obtain ⟨tail, hlength, rfl⟩ := exists_tail_of_mem_pieces hc
  exact h.recovers_tail hT (front_of_short _ (by omega)) hsnapshot hlog

/-- What may be left of a synced frame leads to the index before the mutation, or after it. -/
theorem Represents.recovers_cut (hT : Contract b T) (h : Represents b T path j s)
    {r : WalRecord M} (happ : Appendable b r)
    (hcond : T.Accepts r s.1.inner ∨ maxRecordLen < (recordBody b.metadata r).length)
    {c : Bytes} (hc : c ∈ cuts (logOf b j.log) (frameOf b r))
    (hsnapshot : w.files s.1.config.path = s.2.files s.1.config.path)
    (hlog : w.files (walPath s.1.config.path) = some c) :
    ∃ y ∈ beforeOrAfter T r s.1.inner, Recovers b T s.1.config w y := by
  obtain ⟨cut, hcut, rfl⟩ := hc
  by_cases hlength : cut.length < (frameOf b r).length
  · have htorn : front (logFormat b) cut = none := by
      rw [List.prefix_iff_eq_take.mp hcut]
      exact front_take_frameOf (fun _ => happ) hlength
    exact ⟨_, .inl rfl, h.recovers_tail hT htorn hsnapshot hlog⟩
  · have hwhole : cut = frameOf b r := hcut.eq_of_length_le (Nat.le_of_not_lt hlength)
    subst hwhole
    rcases (h.crashAtomic_frame_iff hT happ hsnapshot hlog).mpr hcond with
      hbefore | ⟨haccepts, hafter⟩
    · exact ⟨_, .inl rfl, hbefore⟩
    · exact ⟨_, .inr ⟨haccepts, rfl⟩, hafter⟩

/-- While a mutation is stopped, a session outlasts a loss of power if too little of the frame has
arrived, or all of it is synced and the mutation would be atomic without the loss, its rollback
being finished when it is on the medium. -/
theorem Stored.outlasts_mutation (hT : Contract b T) (hstored : Stored loss path s)
    (h : Represents b T path j s) {r : WalRecord M} {script : List Verdict} {s' : Session I}
    (hcall : mutation b T r (s.1, s.2.withScript script) = .error .crashed s')
    (hsafe : StoppedSafely b T r s.1.inner script)
    (hmissing : ¬ (s.2.disk targetDir loss).Anchored (walPath path) → j.base = s.1.inner) :
    Outlasts b T loss path s'.2 (beforeOrAfter T r s.1.inner) := by
  obtain ⟨snapshot, hholding, -⟩ := h.holding
  obtain ⟨wal, hwal, hpath, hat⟩ := hholding.wal
  have hat' := hat.withScript script
  have hstart := hstored.kept hwal hpath hat.holds
  have hkept : LogState.Kept loss s.2 (walPath path) {walHeader ++ recordFrames b j.log}
      (wal, s.2.withScript script) := ⟨hstart.1, hstart.2, hstart.3.withScript script⟩
  obtain ⟨⟨x', log', rfl, hhalted⟩, x'', log'', heq, hleaves⟩ :=
    ends_of_error ((ends_mutation hat' hwal r).and (ends_mutation_kept hwal hkept hat' r)) hcall
  have hworld : log'.2 = log''.2 := congrArg (fun t : Session I => t.2) heq
  change Outlasts b T loss path log'.2 _
  rw [hworld]
  have hbefore (hnot : ¬ (s.2.disk targetDir loss).Anchored (walPath path)) :
      j.base ∈ beforeOrAfter T r s.1.inner := .inl (hmissing hnot)
  have hback (hkept' : log''.Kept loss s.2 (walPath path) {logOf b j.log}) :
      Outlasts b T loss path log''.2 (beforeOrAfter T r s.1.inner) := by
    refine hstored.outlasts h hkept'.works hbefore ?_
    rintro _ rfl w' hsnapshot hlog
    exact ⟨_, .inl rfl, h.recovers_log hT hsnapshot hlog⟩
  rcases hsafe with hshort | ⟨hsynced, hcond⟩
  · refine hstored.outlasts h hleaves.part.works hbefore ?_
    exact fun c hc w' hsnapshot hlog =>
      ⟨_, .inl rfl, h.recovers_piece hT hshort hc hsnapshot hlog⟩
  · by_cases hdurable : TakesBackDurably script
    · exact hback (hleaves.takenBack hdurable)
    · rw [or_iff_right (a := TakesBackDurably script) hdurable] at hcond
      refine hstored.outlasts h (hleaves.synced hsynced).works hbefore ?_
      have harrived : 0 < mutationArrived b script r := by
        have hwritten : completes script 3 = true := completes_of_takesEffect hsynced
        have hhead : 8 ≤ mutationArrived b script r :=
          le_arrived_of_completes hwritten (by simp)
        omega
      exact fun c hc w' => h.recovers_cut hT (hhalted.appendable harrived) hcond hc

/-- A session in which every append is synced outlasts a loss of power between its calls exactly if
it is secured; and if it is, it does so also while a mutation or a load is stopped. -/
theorem acknowledged_durable_iff (loss : Loss) (hT : Contract b T) (hunix : b.unix = true)
    {config : PersistConfig} {x : I} {s₀ : Session I} (hstart : StartedAfresh b T config x s₀)
    (hinv : SnapshotInverts b T config x) {ls : List (Label M I)}
    (hrun : Runs (Step b T) s₀ ls s) (hsound : ∀ l ∈ ls, l.Sound b T)
    (halways : ∀ l ∈ ls, l.Always) :
    (Outlasts b T loss config.path s.2 {s.1.inner} ↔ Secured T ls x) ∧
      (Secured T ls x →
        (∀ r script s', mutation b T r (s.1, s.2.withScript script) = .error .crashed s' →
          StoppedSafely b T r s.1.inner script →
          Outlasts b T loss config.path s'.2 (beforeOrAfter T r s.1.inner)) ∧
        ∀ (config' : PersistConfig) (script : List Verdict) (w : World Path),
          config'.path = config.path → config'.walEnabled = true → FaultFree script →
          load b T config' (s.2.withScript script) = .error .crashed w →
          Outlasts b T loss config.path w {s.1.inner}) := by
  obtain ⟨j, hlog, hj, hstored, hentry⟩ := hstart.run loss hT hunix hinv hrun hsound halways
  have hmissing (hsecured : Secured T ls x)
      (hnot : ¬ (s.2.disk targetDir loss).Anchored (walPath config.path)) : j.base = s.1.inner := by
    rcases hentry with ⟨-, hanchored⟩ | ⟨hnone, hbase, -⟩
    · exact absurd hanchored hnot
    · rcases hsecured with hcheckpoint | hreplay
      · exact absurd (fold_mem_change_iff.mpr hcheckpoint) hnone
      · have hrecovers := j.recovers
        rw [hlog, hbase, hreplay] at hrecovers
        rw [hbase, hj.inner]
        exact Option.some.inj hrecovers
  refine ⟨⟨fun houtlasts => ?_, ?_⟩, fun hsecured => ⟨?_, ?_⟩⟩
  · rcases hentry with ⟨hfold, -⟩ | ⟨-, hbase, hmiss⟩
    · exact .inl (fold_mem_change_iff.mp hfold)
    · have hreplay := j.recovers
      rw [← hj.inner, hstored.inner_eq_base hj hmiss houtlasts, hlog, hbase] at hreplay
      exact .inr hreplay
  · exact fun hsecured =>
      hstored.outlasts_untouched hT hj (Untouched.refl s.2) (hmissing hsecured)
  · intro r script s' hcall hcond
    exact hstored.outlasts_mutation hT hj hcall hcond (hmissing hsecured)
  · intro config' script w hpath hwal hfree hcall
    obtain ⟨snapshot, hholding, -⟩ := hj.holding
    have hexisting := ends_load_existing (b := b) (T := T) (w := s.2.withScript script) hfree hwal
      (by rw [hpath, World.files_withScript, hholding.log])
    have huntouched := ends_of_error hexisting hcall
    exact hstored.outlasts_untouched hT hj ⟨huntouched.1, huntouched.2, huntouched.3, huntouched.4⟩
      (hmissing hsecured)

/-- The small index, opened empty. -/
def syncedStart : Session (List UInt64) :=
  match openWith defaultBuild idIndex [] alwaysConfig emptyWorld with
  | .ok this w => (this, w)
  | .error _ w => (⟨[], alwaysConfig, none⟩, w)

theorem syncedStart_afresh : StartedAfresh defaultBuild idIndex alwaysConfig [] syncedStart :=
  ⟨rfl, rfl, emptyWorld, rfl, rfl, rfl⟩

def syncedCheckpoint : Session (List UInt64) :=
  (outcome (checkpoint defaultBuild idIndex) syncedStart).2

def syncedInsert : Session (List UInt64) :=
  (outcome (mutation defaultBuild idIndex sampleInsert) syncedCheckpoint).2

def secondInsert : WalRecord (List (String × Value)) := .insert (.u64 8) [0] none

/-- The second insert is stopped here. -/
def stoppedInsert (script : List Verdict) : Session (List UInt64) :=
  (outcome (mutation defaultBuild idIndex secondInsert)
    (syncedInsert.1, syncedInsert.2.withScript script)).2

theorem runs_syncedInsert : Runs (Step defaultBuild idIndex) syncedStart
    [.checkpointed alwaysConfig [], .accepted sampleInsert] syncedInsert := by
  have hcheckpoint : checkpoint defaultBuild idIndex syncedStart = .ok () syncedCheckpoint :=
    ok_of_outcome (by decide +kernel)
  have hinsert : mutation defaultBuild idIndex sampleInsert syncedCheckpoint =
      .ok () syncedInsert := ok_of_outcome (by decide +kernel)
  have hstart : syncedStart.1.config = alwaysConfig ∧ syncedStart.1.inner = [] := ⟨rfl, rfl⟩
  have hfirst := Step.checkpointed hcheckpoint
  rw [hstart.1, hstart.2] at hfirst
  exact ((Runs.nil _).snoc hfirst).snoc (.accepted hinsert)

/-- The second insert is stopped before the last byte of the head of its frame, or when the frame
has been synced. -/
theorem acknowledged_durable_iff_checkpointed :
    StartedAfresh defaultBuild idIndex alwaysConfig [] syncedStart ∧
    Runs (Step defaultBuild idIndex) syncedStart
      [.checkpointed alwaysConfig [], .accepted sampleInsert] syncedInsert ∧
    Outlasts defaultBuild idIndex .anywhere nestedPath syncedInsert.2 {[7]} ∧
    ∀ script ∈ [[.done, .cut 7], [.done, .done, .done, .cut 1]],
      mutation defaultBuild idIndex secondInsert
        (syncedInsert.1, syncedInsert.2.withScript script) =
          .error .crashed (stoppedInsert script) ∧
      Outlasts defaultBuild idIndex .anywhere nestedPath (stoppedInsert script).2
        (beforeOrAfter idIndex secondInsert [7]) := by
  have hsecured : Secured idIndex [.checkpointed alwaysConfig [], .accepted sampleInsert] [] :=
    .inl ⟨alwaysConfig, [], by simp⟩
  obtain ⟨hbetween, hstopped⟩ := acknowledged_durable_iff .anywhere idIndex_contract rfl
    syncedStart_afresh (alwaysConfig_inverts []) runs_syncedInsert
    (by simp [Label.Sound, alwaysConfig_inverts, sampleInsert_loggable.2]) (by simp [Label.Always])
  have hinner : syncedInsert.1.inner = [7] := by decide +kernel
  refine ⟨syncedStart_afresh, runs_syncedInsert, ?_, fun script hscript => ?_⟩
  · have houtlasts := hbetween.mpr hsecured
    rw [hinner] at houtlasts
    exact houtlasts
  · have hcall : mutation defaultBuild idIndex secondInsert
        (syncedInsert.1, syncedInsert.2.withScript script) =
          .error .crashed (stoppedInsert script) := by
      refine error_of_outcome ?_
      simp only [List.mem_cons, List.not_mem_nil, or_false] at hscript
      rcases hscript with rfl | rfl
      · decide +kernel
      · decide +kernel
    have hsafe : StoppedSafely defaultBuild idIndex secondInsert syncedInsert.1.inner script := by
      rw [hinner]
      simp only [List.mem_cons, List.not_mem_nil, or_false] at hscript
      rcases hscript with rfl | rfl
      · exact .inl (by decide)
      · exact .inr ⟨rfl, .inl rfl⟩
    have houtlasts := (hstopped hsecured).1 _ _ _ hcall hsafe
    rw [hinner] at houtlasts
    exact ⟨hcall, houtlasts⟩

/-- The log of the first insert is lost with its name, and the insert with it. -/
theorem not_outlasts_firstInsert :
    ¬ ∀ (config : PersistConfig) (x : List UInt64) (s₀ s : Session (List UInt64))
      (ls : List (Label (List (String × Value)) (List UInt64))),
      StartedAfresh defaultBuild idIndex config x s₀ → Runs (Step defaultBuild idIndex) s₀ ls s →
        (∀ l ∈ ls, l.Sound defaultBuild idIndex) → (∀ l ∈ ls, l.Always) →
          Outlasts defaultBuild idIndex .anywhere config.path s.2 {s.1.inner} := by
  intro hall
  obtain ⟨hinner, -, -, -, full, -, hholding⟩ := syncedStart_afresh.started.holding
  obtain ⟨s, hcall, hinner'⟩ := hholding.exists_insert hinner
  have hrun : Runs (Step defaultBuild idIndex) syncedStart ([] ++ [.accepted sampleInsert]) s :=
    (Runs.nil _).snoc (.accepted hcall)
  have hsound : ∀ l ∈ [] ++ [Label.accepted sampleInsert], Label.Sound defaultBuild idIndex l :=
    List.forall_mem_singleton.mpr sampleInsert_loggable.2
  have halways : ∀ l ∈ [] ++ [Label.accepted (I := List UInt64) sampleInsert], l.Always :=
    List.forall_mem_singleton.mpr trivial
  obtain ⟨j, -, hj, hstored, ⟨hfold, -⟩ | ⟨-, hbase, hmiss⟩⟩ :=
    syncedStart_afresh.run .anywhere idIndex_contract rfl (alwaysConfig_inverts []) hrun hsound
      halways
  · simp [Label.change] at hfold
  · have hsame := hstored.inner_eq_base hj hmiss
      (hall _ _ _ _ _ syncedStart_afresh hrun hsound halways)
    rw [hinner', hbase] at hsame
    cases hsame

end PersistedIndex

end IqdbPersist
