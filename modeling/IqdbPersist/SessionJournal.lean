import IqdbPersist.SampleIndex
import IqdbPersist.SessionLog

/-!
# A session is a journal

The abstract state behind a session is a journal: the snapshot is its base, the parsed log its
changes, the index in memory its present state. Every call of a session without failures is a move
of that journal, so what holds of all journals holds of every session.
-/

namespace IqdbPersist

open CrashLogic FileSystem LogState Simulation
open Journal (Journaled)

variable {ε M I : Type} (b : Build M) (T : IndexType ε M I)

/-- What the crate relies on in the index and in the metadata map. -/
structure Contract : Prop where
  metadata : b.metadata.Lawful
  roundTrips : ∀ x, T.RoundTrips x
  keepsRejected : T.KeepsRejected
  checksDim : T.ChecksDim
  indexType : (utf8 T.indexType).length ≤ maxIndexTypeLen

theorem idIndex_contract : Contract defaultBuild idIndex :=
  ⟨entryList_lawful, idIndex_roundTrips, idIndex_keepsRejected, idIndex_checksDim, by decide⟩

namespace PersistedIndex

/-- The compression of a snapshot can be undone. -/
def SnapshotInverts (config : PersistConfig) (x : I) : Prop :=
  ∀ raw, T.saveTo x = .ok raw → Invertible (ε := ε) b config.compression raw

/-- The call stays within the limits of the formats, and goes through the log. -/
def Label.Sound : Label M I → Prop
  | .accepted r => (recordBody b.metadata r).length ≤ maxRecordLen
  | .checkpointed config x => SnapshotInverts b T config x
  | .refused _ | .declined | .reopened _ => True
  | .saved | .bypassed => False

/-- The journal behind a session. -/
structure Represents (path : Path) (j : Journaled T.change) (s : Session I) : Prop where
  holding : ∃ snapshot, Holding b path snapshot walHeader j.log s ∧
    decodeSnapshot b T snapshot = .ok j.base
  inner : s.1.inner = j.current
  walEnabled : s.1.config.walEnabled = true
  valid : validateConfig b s.1.config = (.ok () : Except (PersistError ε) Unit)
  short : ∀ r ∈ j.log, (recordBody b.metadata r).length ≤ maxRecordLen

variable {b T} {path : Path} {s s' : Session I} {j : Journaled T.change}

theorem Represents.loggable (h : Represents b T path j s) : ∀ r ∈ j.log, Loggable b r := by
  obtain ⟨_, hholding, -⟩ := h.holding
  exact fun r hr => ⟨(hholding.appendable r hr).1, h.short r hr⟩

theorem Represents.recovers (hT : Contract b T) (h : Represents b T path j s)
    {config : PersistConfig} (hpath : config.path = path) (hwal : config.walEnabled = true)
    (hvalid : validateConfig b config = (.ok () : Except (PersistError ε) Unit)) :
    Recovers b T config s.2 s.1.inner := by
  obtain ⟨snapshot, hholding, hbase⟩ := h.holding
  subst hpath
  rw [recovers_iff hT.checksDim hvalid hwal hholding.snapshot hholding.log, h.inner]
  exact (stands_iff hbase (parseRecords_logOf hT.metadata h.loggable) _).mpr j.recovers

/-- With another log beside its snapshot, a session loads as its base with that log replayed. -/
theorem Represents.recovers_iff_replay (hT : Contract b T) (h : Represents b T path j s)
    {w : World Path} {log : Bytes} {rs : List (WalRecord M)}
    (hsnapshot : w.files s.1.config.path = s.2.files s.1.config.path)
    (hlog : w.files (walPath s.1.config.path) = some log)
    (hparse : parseRecords b log = (.ok rs : Except (PersistError ε) _)) (x : I) :
    Recovers b T s.1.config w x ↔ Journal.replay T.change rs j.base = some x := by
  obtain ⟨snapshot, hholding, hbase⟩ := h.holding
  have hsnapshot₀ := hholding.snapshot
  rw [← hholding.configPath, ← hsnapshot] at hsnapshot₀
  rw [recovers_iff hT.checksDim h.valid h.walEnabled hsnapshot₀ hlog, stands_iff hbase hparse]

theorem decodeSnapshot_of_inverts (hT : Contract b T) {config : PersistConfig} {x : I}
    {full : Bytes} (hinv : SnapshotInverts b T config x)
    (hfull : snapshotBytes b T x config = .ok full) : decodeSnapshot b T full = .ok x :=
  decodeSnapshot_snapshotBytes (hT.roundTrips x) hT.indexType hinv hfull

theorem Started.represents (hT : Contract b T) {config : PersistConfig} {x : I}
    (h : Started b T config x s) (hinv : SnapshotInverts b T config x) :
    Represents b T config.path (Journaled.start x) s := by
  obtain ⟨hinner, hconfig, hvalid, -, full, hfull, hholding⟩ := h.holding
  refine ⟨⟨full, hholding, decodeSnapshot_of_inverts hT hinv hfull⟩, hinner, ?_, ?_, ?_⟩
  · rw [hconfig, h.walEnabled]
  · rw [hconfig, hvalid]
  · exact fun _ hr => nomatch hr

/-- Every call is a move of the journal. -/
theorem Step.represents (hT : Contract b T) {l : Label M I} (hsound : l.Sound b T)
    (h : Represents b T path j s) (hstep : Step b T s l s') :
    ∃ j', Journaled.Moves j l.change j' ∧ Represents b T path j' s' := by
  obtain ⟨snapshot, hholding, hbase⟩ := h.holding
  cases hstep with
  | accepted hcall =>
    rename_i r
    obtain ⟨hholding', hconfig, haccepts, hinner, -⟩ := ends_of_ok (hholding.mutate r) hcall
    have hchange : T.change r j.current = some s'.1.inner := by
      rw [hinner, ← h.inner]
      exact IndexType.change_of_accepts haccepts
    refine ⟨j.commit r _ hchange, .commit j hchange, ⟨snapshot, hholding', hbase⟩, rfl, ?_, ?_, ?_⟩
    · rw [hconfig, h.walEnabled]
    · rw [hconfig, h.valid]
    · exact List.forall_mem_append.mpr ⟨h.short, List.forall_mem_singleton.mpr hsound⟩
  | refused hcall he =>
    rename_i r e
    obtain ⟨hholding', hconfig, hrefused⟩ := ends_of_error (hholding.mutate r) hcall
    have hinner : s'.1.inner = s.1.inner := by
      obtain ⟨-, hsame⟩ | ⟨source, -, hreject⟩ := hrefused
      · exact hsame
      · have hkept := hT.keepsRejected r s.1.inner (by simp [IndexType.Accepts, hreject])
        rwa [hreject] at hkept
    exact ⟨j, .idle j, ⟨snapshot, hholding', hbase⟩, by rw [hinner, h.inner],
      by rw [hconfig, h.walEnabled], by rw [hconfig, h.valid], h.short⟩
  | checkpointed hcall =>
    obtain ⟨hconfig, hinner, full, hfull, hholding'⟩ := ends_of_ok hholding.checkpoint hcall
    have hdecode := decodeSnapshot_of_inverts hT hsound hfull
    rw [h.inner] at hdecode
    exact ⟨j.fold, .fold j, ⟨full, hholding', hdecode⟩, by rw [hinner, h.inner]; rfl,
      by rw [hconfig, h.walEnabled], by rw [hconfig, h.valid],
      fun _ hr => absurd hr List.not_mem_nil⟩
  | saved hcall => exact hsound.elim
  | declined hcall he =>
    rw [hholding.declined hcall he]
    exact ⟨j, .idle j, h⟩
  | bypassed x => exact hsound.elim
  | reopened hpath hwal hcall =>
    rename_i this w config
    obtain ⟨hvalid, rfl, hstands, hholding'⟩ :=
      ends_of_ok (hholding.load (hpath.trans hholding.configPath) hwal) hcall
    have hreplay := (stands_iff hbase (parseRecords_logOf hT.metadata h.loggable) _).mp hstands
    rw [j.recovers] at hreplay
    exact ⟨j, .idle j, ⟨snapshot, hholding', hbase⟩, (Option.some.inj hreplay).symm, hwal, hvalid,
      h.short⟩

/-- Every session without failures is a run of its journal. -/
theorem Started.run (hT : Contract b T) {config : PersistConfig} {x : I} {s₀ : Session I}
    (hstart : Started b T config x s₀) (hinv : SnapshotInverts b T config x)
    {ls : List (Label M I)} (hrun : Runs (Step b T) s₀ ls s) (hsound : ∀ l ∈ ls, l.Sound b T) :
    ∃ j : Journaled T.change, j.log = loggedBy ls ∧ Represents b T config.path j s := by
  obtain ⟨j, hmoves, hj⟩ := hrun.simulate (fun j l j' => Journaled.Moves j l.change j')
    (fun s j => Represents b T config.path j s) (fun l => l.Sound b T)
    (fun hl hrep hstep => hstep.represents hT hl hrep) hsound (hstart.represents hT hinv)
  exact ⟨j, Journaled.log_of_runs hmoves.map, hj⟩

end PersistedIndex

end IqdbPersist
