import IqdbPersist.RecoveryContract

/-!
# Life after a torn tail

The parser stops at a torn tail and the re-opened log writes behind it. So a session that was loaded
from a torn log recovers, as long as it acknowledges nothing; what it does acknowledge stands behind
the torn frame, which the parser does not pass unless later bytes complete it to a valid one.
-/

namespace IqdbPersist

open CrashLogic FileSystem Simulation FramedLog

variable {ε M I : Type} {b : Build M} {T : IndexType ε M I}

namespace PersistedIndex

/-- The log reads as the old records and then the new ones, and loading gives the index in
memory. -/
def Continues (b : Build M) (T : IndexType ε M I) (config : PersistConfig)
    (rs news : List (WalRecord M)) (s : Session I) : Prop :=
  (∃ log, s.2.files (walPath config.path) = some log ∧
    parseRecords b log = (.ok (rs ++ news) : Except (PersistError ε) _)) ∧
  Recovers b T config s.2 s.1.inner

section Torn

variable {config : PersistConfig} {w w₁ : World Path} {this : PersistedIndex I} {s : Session I}
  {snapshot torn : Bytes} {rs news : List (WalRecord M)}

theorem holding_of_loaded {content : Bytes} (hcalm : w.Calm) (hwal : config.walEnabled = true)
    (hsnapshot : w.files config.path = some snapshot)
    (hlog : w.files (walPath config.path) = some content)
    (hload : load b T config w = .ok this w₁)
    (hrun : Runs (Step b T) (this, w₁) (news.map Label.accepted) s) :
    validateConfig b config = (.ok () : Except (PersistError ε) Unit) ∧
      Stands b T snapshot content this.inner ∧
      Holding b config.path snapshot content news s ∧
      Journal.replay T.change news this.inner = some s.1.inner := by
  have hframes : content = content ++ recordFrames b [] := by
    rw [recordFrames_nil, List.append_nil]
  rw [hframes] at hlog
  obtain ⟨hvalid, -, hstands, hholding⟩ := ends_of_ok
    (ends_load_holding hcalm hwal hsnapshot hlog (by simp)) hload
  obtain ⟨hholding', -, hreplay⟩ := hholding.acknowledge hrun
  rw [← hframes] at hstands
  exact ⟨hvalid, hstands, hholding', hreplay⟩

theorem not_continues_of_front (hmd : b.metadata.Lawful) (hrs : ∀ r ∈ rs, Loggable b r)
    (hlog : s.2.files (walPath config.path) =
      some (logOf b rs ++ torn ++ recordFrames b news))
    (hfront : front (logFormat b) (torn ++ recordFrames b news) = none) (hnews : news ≠ []) :
    ¬ Continues b T config rs news s := by
  rintro ⟨⟨log, hlog', hparse⟩, -⟩
  rw [hlog] at hlog'
  rw [← Option.some.inj hlog', List.append_assoc,
    parseRecords_logOf_append hmd hrs hfront] at hparse
  have hlength := congrArg List.length (Except.ok.inj hparse)
  rw [List.length_append] at hlength
  exact hnews (List.length_eq_zero_iff.mp (by omega))

/-- With nothing acknowledged a session loaded from a torn log recovers. With anything acknowledged
it does not, unless the new bytes complete the torn frame to a valid one. -/
theorem continues_torn_iff (hmd : b.metadata.Lawful) (hdim : T.ChecksDim) {r : WalRecord M} {n : ℕ}
    (hcalm : w.Calm) (hwal : config.walEnabled = true)
    (hsnapshot : w.files config.path = some snapshot) (hrs : ∀ r ∈ rs, Loggable b r)
    (hr : Loggable b r) (hn : n < (frameOf b r).length)
    (hlog : w.files (walPath config.path) = some (logOf b rs ++ (frameOf b r).take n))
    (hload : load b T config w = .ok this w₁)
    (hrun : Runs (Step b T) (this, w₁) (news.map Label.accepted) s) :
    (news = [] → Continues b T config rs news s) ∧
      (front (logFormat b) ((frameOf b r).take n ++ recordFrames b news) = none →
        (Continues b T config rs news s ↔ news = [])) := by
  obtain ⟨hvalid, hstands, hholding, hreplay⟩ :=
    holding_of_loaded hcalm hwal hsnapshot hlog hload hrun
  have hsufficient : news = [] → Continues b T config rs news s := by
    rintro rfl
    have htorn : front (logFormat b) ((frameOf b r).take n) = none :=
      front_take_frame _ hr.length_body (by rwa [frameOf, length_frame] at hn)
    have hlog' := hholding.log
    rw [recordFrames_nil, List.append_nil] at hlog'
    refine ⟨⟨_, hlog', ?_⟩, ?_⟩
    · rw [List.append_nil]
      exact parseRecords_logOf_append hmd hrs htorn
    · rw [← Option.some.inj hreplay]
      exact (recovers_iff hdim hvalid hwal hholding.snapshot hlog' _).mpr hstands
  refine ⟨hsufficient, fun hfront => ⟨fun hcontinues => ?_, hsufficient⟩⟩
  by_contra hnews
  exact not_continues_of_front hmd hrs hholding.log hfront hnews hcontinues

end Torn

theorem exists_sampleWorld (snapshot log : Bytes) : ∃ w : World Path, w.Calm ∧
    w.files sampleConfig.path = some snapshot ∧ w.files (walPath sampleConfig.path) = some log :=
  ⟨{ emptyWorld with
      base := fun path => if path = sampleConfig.path then some snapshot else some log },
    rfl, rfl, rfl⟩

theorem exists_sampleLoad (log : Bytes)
    (hparse : parseRecords defaultBuild log = (.ok [] : Except (PersistError IdError) _)) :
    ∃ w snapshot this w₁ s, w.Calm ∧ w.files sampleConfig.path = some snapshot ∧
      w.files (walPath sampleConfig.path) = some log ∧
      load defaultBuild idIndex sampleConfig w = .ok this w₁ ∧
      Runs (Step defaultBuild idIndex) (this, w₁) ([sampleInsert].map Label.accepted) s := by
  obtain ⟨snapshot, hfull⟩ : ∃ snapshot,
      snapshotBytes defaultBuild idIndex [] sampleConfig = .ok snapshot := ⟨_, rfl⟩
  have hdecode := decodeSnapshot_of_inverts idIndex_contract (sampleConfig_inverts []) hfull
  have hstands := (stands_iff hdecode hparse []).mpr rfl
  obtain ⟨w, hcalm, hsnapshot, hlog⟩ := exists_sampleWorld snapshot log
  obtain ⟨this, w₁, hload, hinner⟩ :=
    exists_load idIndex_checksDim hcalm rfl rfl hsnapshot hlog hstands
  have hnone : Runs (Step defaultBuild idIndex) (this, w₁) ([].map Label.accepted) (this, w₁) :=
    Runs.nil _
  obtain ⟨-, -, hholding, -⟩ := holding_of_loaded hcalm rfl hsnapshot hlog hload hnone
  have happ : Appendable defaultBuild sampleInsert :=
    ⟨sampleInsert_loggable.1, sampleInsert_loggable.length_body⟩
  have haccepts : idIndex.Accepts sampleInsert this.inner := by
    rw [hinner]
    rfl
  obtain ⟨_, s, hcall⟩ := (hholding.mutation_ok_iff happ).mpr haccepts
  exact ⟨w, snapshot, this, w₁, s, hcalm, hsnapshot, hlog, hload,
    (Runs.nil _).snoc (.accepted hcall)⟩

theorem exists_tornRun : ∃ w snapshot this w₁ s, w.Calm ∧
    w.files sampleConfig.path = some snapshot ∧
    w.files (walPath sampleConfig.path) =
      some (logOf defaultBuild [] ++ (frameOf defaultBuild sampleDelete).take 9) ∧
    load defaultBuild idIndex sampleConfig w = .ok this w₁ ∧
    Runs (Step defaultBuild idIndex) (this, w₁)
      ([sampleInsert].map Label.accepted) s :=
  exists_sampleLoad _ (parseRecords_logOf_append entryList_lawful (loggable_nil defaultBuild)
    (front_take_frame _ sampleDelete_loggable.length_body (by decide)))

theorem front_tornRun : front (logFormat defaultBuild)
    ((frameOf defaultBuild sampleDelete).take 9 ++
      recordFrames defaultBuild [sampleInsert]) = none := by
  decide +kernel

theorem continues_torn_iff_default : ∃ w this w₁ s,
    w.files (walPath sampleConfig.path) =
      some (logOf defaultBuild [] ++ (frameOf defaultBuild sampleDelete).take 9) ∧
    load defaultBuild idIndex sampleConfig w = .ok this w₁ ∧
    Runs (Step defaultBuild idIndex) (this, w₁) ([sampleInsert].map Label.accepted) s ∧
    (Continues defaultBuild idIndex sampleConfig [] [sampleInsert] s ↔
      [sampleInsert] = []) := by
  obtain ⟨w, snapshot, this, w₁, s, hcalm, hsnapshot, hlog, hload, hrun⟩ := exists_tornRun
  have hcontinues := continues_torn_iff entryList_lawful idIndex_checksDim hcalm rfl hsnapshot
    (loggable_nil defaultBuild) sampleDelete_loggable (by decide) hlog hload hrun
  exact ⟨w, this, w₁, s, hlog, hload, hrun, hcontinues.2 front_tornRun⟩

/-- An insert acknowledged behind the torn delete is lost. -/
theorem not_continues_torn :
    ¬ ∀ (config : PersistConfig) (w w₁ : World Path) (this : PersistedIndex (List UInt64))
      (s : Session (List UInt64)) (snapshot : Bytes)
      (rs news : List (WalRecord (List (String × Value))))
      (r : WalRecord (List (String × Value))) (n : ℕ),
      w.Calm → config.walEnabled = true → w.files config.path = some snapshot →
        (∀ r ∈ rs, Loggable defaultBuild r) → Loggable defaultBuild r → 0 < n →
        n < (frameOf defaultBuild r).length →
        w.files (walPath config.path) =
          some (logOf defaultBuild rs ++ (frameOf defaultBuild r).take n) →
        load defaultBuild idIndex config w = .ok this w₁ →
        (∀ r ∈ news, Loggable defaultBuild r) →
        Runs (Step defaultBuild idIndex) (this, w₁) (news.map Label.accepted) s →
          Continues defaultBuild idIndex config rs news s := by
  intro hall
  obtain ⟨w, snapshot, this, w₁, s, hcalm, hsnapshot, hlog, hload, hrun⟩ := exists_tornRun
  obtain ⟨-, -, hholding, -⟩ := holding_of_loaded hcalm rfl hsnapshot hlog hload hrun
  refine not_continues_of_front entryList_lawful (loggable_nil defaultBuild) hholding.log
    front_tornRun (List.cons_ne_nil _ _) (hall _ _ _ _ _ _ [] _ _ _ hcalm rfl hsnapshot
      (loggable_nil defaultBuild) sampleDelete_loggable (by decide) (by decide) hlog hload ?_ hrun)
  exact List.forall_mem_singleton.mpr sampleInsert_loggable

end PersistedIndex

end IqdbPersist
