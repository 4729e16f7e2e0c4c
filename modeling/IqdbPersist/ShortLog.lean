import IqdbPersist.TornTail

/-!
# A log without its header

The parser takes a file shorter than the header for an empty log, and the opener writes a header
only when there was no file. So a session that was loaded from such a file appends its frames to
whatever stands there, and the log it leaves has no header.
-/

namespace IqdbPersist

open CrashLogic FileSystem Simulation FramedLog

variable {ε M I : Type} {b : Build M} {T : IndexType ε M I}

namespace PersistedIndex

/-- The log is the header and the frames of these records, and loading gives the index in
memory. -/
def Headed (b : Build M) (T : IndexType ε M I) (config : PersistConfig) (rs : List (WalRecord M))
    (s : Session I) : Prop :=
  s.2.files (walPath config.path) = some (logOf b rs) ∧ Recovers b T config s.2 s.1.inner

section Short

variable {config : PersistConfig} {w w₁ : World Path} {this : PersistedIndex I} {s : Session I}
  {snapshot short : Bytes} {news : List (WalRecord M)}

theorem not_recovers_of_headless {x : I} (hwal : config.walEnabled = true)
    (hsnapshot : w.files config.path = some snapshot)
    (hlog : w.files (walPath config.path) = some short) (hlen : 12 ≤ short.length)
    (hheader : ¬ walHeader <+: short) : ¬ Recovers b T config w x := by
  rintro ⟨this, w', hload, -⟩
  obtain ⟨-, ⟨base, rs, -, hparse, -⟩, -⟩ := ends_of_ok
    (ends_load (w := w.withScript []) rfl hwal hsnapshot hlog) hload
  exact hheader (walHeader_prefix_of_parseRecords b hparse hlen)

theorem le_length_recordFrames (hnews : news ≠ []) : 12 ≤ (recordFrames b news).length := by
  obtain ⟨r, rs, rfl⟩ := List.exists_cons_of_ne_nil hnews
  have hid (id : VectorId) : 9 ≤ (idBody id).length := by cases id <;> simp [idBody]
  have hbody : 10 ≤ (recordBody b.metadata r).length := by
    cases r with
    | delete id =>
      rw [recordBody, List.length_cons]
      exact Nat.succ_le_succ (hid id)
    | insert id vector metadata =>
      cases metadata <;>
      · rw [recordBody, List.length_cons, List.length_append]
        exact Nat.succ_le_succ (Nat.le_add_right_of_le (hid id))
  rw [recordFrames_cons, List.length_append, length_frame]
  omega

/-- The log of a session that was loaded from a file shorter than the header is that file and the
frames behind it, which is never the header and the frames; with a frame in it, it does not load,
unless the short file and the first frame happen to spell a header. -/
theorem not_headed_of_short (hcalm : w.Calm) (hwal : config.walEnabled = true)
    (hsnapshot : w.files config.path = some snapshot)
    (hlog : w.files (walPath config.path) = some short) (hshort : short.length < 12)
    (hload : load b T config w = .ok this w₁)
    (hrun : Runs (Step b T) (this, w₁) (news.map Label.accepted) s) :
    s.2.files (walPath config.path) = some (short ++ recordFrames b news) ∧
      ¬ Headed b T config news s ∧
      (news ≠ [] → ¬ walHeader <+: short ++ recordFrames b news →
        ∀ x, ¬ Recovers b T config s.2 x) := by
  obtain ⟨-, -, hholding, -⟩ := holding_of_loaded hcalm hwal hsnapshot hlog hload hrun
  refine ⟨hholding.log, ?_, ?_⟩
  · rintro ⟨hheaded, -⟩
    rw [hholding.log] at hheaded
    have hlength := congrArg List.length (Option.some.inj hheaded)
    rw [logOf, List.length_append, List.length_append, length_walHeader] at hlength
    omega
  · intro hnews hheader x
    have hlen := le_length_recordFrames (b := b) hnews
    refine not_recovers_of_headless hwal hholding.snapshot hholding.log ?_ hheader
    rw [List.length_append]
    omega

end Short

theorem not_headed_of_short_empty : ∃ s : Session (List UInt64),
    s.2.files (walPath sampleConfig.path) =
        some ([] ++ recordFrames defaultBuild [sampleInsert]) ∧
      ¬ Headed defaultBuild idIndex sampleConfig [sampleInsert] s ∧
      ∀ x, ¬ Recovers defaultBuild idIndex sampleConfig s.2 x := by
  obtain ⟨w, snapshot, this, w₁, s, hcalm, hsnapshot, hlog, hload, hrun⟩ :=
    exists_sampleLoad [] rfl
  obtain ⟨hfile, hnot, hlost⟩ :=
    not_headed_of_short hcalm rfl hsnapshot hlog (by decide) hload hrun
  refine ⟨s, hfile, hnot, hlost (List.cons_ne_nil _ _) ?_⟩
  decide +kernel

/-- An empty log is loaded and written to, and the insert it acknowledged does not load. -/
theorem not_headed_emptyLog :
    ¬ ∀ (config : PersistConfig) (w w₁ : World Path) (this : PersistedIndex (List UInt64))
      (s : Session (List UInt64)) (short : Bytes)
      (news : List (WalRecord (List (String × Value)))),
      w.Calm → config.walEnabled = true → w.files (walPath config.path) = some short →
        short.length < 12 → load defaultBuild idIndex config w = .ok this w₁ →
        (∀ r ∈ news, Loggable defaultBuild r) →
        Runs (Step defaultBuild idIndex) (this, w₁) (news.map Label.accepted) s →
          Headed defaultBuild idIndex config news s := by
  intro hall
  obtain ⟨w, snapshot, this, w₁, s, hcalm, hsnapshot, hlog, hload, hrun⟩ :=
    exists_sampleLoad [] rfl
  obtain ⟨-, -, hholding, -⟩ := holding_of_loaded hcalm rfl hsnapshot hlog hload hrun
  obtain ⟨-, hrecovers⟩ := hall _ _ _ _ _ _ _ hcalm rfl hlog (by decide) hload
    (List.forall_mem_singleton.mpr sampleInsert_loggable) hrun
  refine not_recovers_of_headless rfl hholding.snapshot hholding.log ?_ ?_ hrecovers
  · exact le_length_recordFrames (List.cons_ne_nil _ _)
  · decide +kernel

end PersistedIndex

end IqdbPersist
