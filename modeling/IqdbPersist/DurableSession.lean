import IqdbPersist.CrashedWrite
import IqdbPersist.Reopening
import IqdbPersist.UnsyncedLog

/-!
# A session and its medium

Between the calls of a session that syncs every append, the snapshot and the data of the log are on
the medium. The name of the log is another matter: the directory is synced before the log is created
and not again until a checkpoint replaces the snapshot.
-/

namespace IqdbPersist

open CrashLogic FileSystem LogState Simulation
open Journal (Journaled)

variable {ε M I : Type} {b : Build M} {T : IndexType ε M I} {loss : Loss}

namespace PersistedIndex

variable {path : Path} {snapshot base : Bytes} {rs : List (WalRecord M)} {s s' : Session I}

/-- What is on the medium between the calls of a session. -/
structure Stored (loss : Loss) (path : Path) (s : Session I) : Prop where
  config : s.1.config.fsyncPolicy = .always
  wal : ∀ wal, s.1.wal = some wal → wal.policy = .always
  permits : s.2.permits (walPath path) = true
  snapshot : s.2.Durable targetDir loss path
  synced : (s.2.disk targetDir loss).Synced (walPath path)
  loose : (s.2.disk targetDir loss).Loose (walPath path)

theorem Stored.kept (h : Stored loss path s) {wal : Wal} (hwal : s.1.wal = some wal)
    (hpath : wal.file.path = walPath path) {content : Bytes}
    (hholds : LogState.Holds (wal, s.2) content) :
    LogState.Kept loss s.2 (walPath path) {content} (wal, s.2) where
  filePath := hpath
  always := h.wal wal hwal
  works := by
    refine Works.refl (h.synced.keeps ?_)
    rw [World.view_disk, ← hpath, hholds]

theorem Stored.follow (h : Stored loss path s) {x : I} {log : LogState} {content : Bytes}
    (hkept : log.Kept loss s.2 (walPath path) {content}) :
    Stored loss path (withLog s.1 x log) where
  config := h.config
  wal _ hwal := by
    cases hwal
    exact hkept.always
  permits := by rw [withLog, hkept.works.permits, h.permits]
  snapshot := hkept.works.within.durable (walPath_ne path).symm h.snapshot
  synced := hkept.works.keeps.synced (World.wellFormed_disk _ _ _)
  loose := hkept.works.directory.loose h.loose

theorem Stored.mutate (h : Stored loss path s) (hholding : Holding b path snapshot base rs s)
    (r : WalRecord M) :
    Ends (mutation b T r) s
      (fun _ s' => Stored loss path s' ∧ SameDirectory targetDir loss s.2 s'.2)
      (fun e s' => ¬ ByEnvironment e →
        Stored loss path s' ∧ SameDirectory targetDir loss s.2 s'.2) := by
  obtain ⟨wal, hwal, hpath, hat⟩ := hholding.wal
  refine (ends_mutation_kept hwal (h.kept hwal hpath hat.holds) hat r).mono ?_ ?_
  · rintro _ _ ⟨x', log', rfl, hkept⟩
    exact ⟨h.follow hkept, hkept.works.directory⟩
  · rintro e _ ⟨x', log', rfl, hleaves⟩ henv
    have hkept := hleaves.refused henv
    exact ⟨h.follow hkept, hkept.works.directory⟩

theorem ends_writeSnapshot_durable (loss : Loss) (hunix : b.unix = true) {this : PersistedIndex I}
    (halways : this.config.fsyncPolicy = .always) {w : World Path} :
    Ends (writeSnapshot b T this) w
      (fun _ w' => w'.Durable targetDir loss this.config.path ∧
        (w'.disk targetDir loss).Anchored (walPath this.config.path) ∧
        Only (· = this.config.path) w w')
      (fun _ _ => True) := by
  cases hname : this.config.path.fileName with
  | none => exact (ends_writeSnapshot_unnamed hname).mono (fun _ _ h => h.elim) fun _ _ _ => trivial
  | some name =>
    have hdurable : Ends (writeSnapshot b T this) w
        (fun _ w' => w'.Durable targetDir loss this.config.path ∧
          ∀ p, targetDir p = targetDir this.config.path → (w'.disk targetDir loss).Anchored p)
        (fun _ _ => True) := by
      rw [writeSnapshot, ends_bind, ends_uninterrupted, hunix]
      cases snapshotBytes b T this.inner this.config with
      | error e => trivial
      | ok full => exact ends_writeAtomic_durable loss hname (by rw [halways]; simp)
    refine (hdurable.and (ends_writeSnapshot hname)).mono ?_ fun _ _ _ => trivial
    rintro _ w' ⟨⟨hsnapshot, hdir⟩, _, -, -, -, -, -, -, honly⟩
    exact ⟨hsnapshot, hdir _ (targetDir_walPath hname), honly⟩

theorem Stored.checkpoint (hunix : b.unix = true) (h : Stored loss path s)
    (hholding : Holding b path snapshot base rs s) :
    Ends (checkpoint b T) s
      (fun _ s' => Stored loss path s' ∧ (s'.2.disk targetDir loss).Anchored (walPath path))
      (fun _ _ => True) := by
  obtain ⟨wal, hwal, hpath, hat⟩ := hholding.wal
  have hconfig := hholding.configPath
  rw [PersistedIndex.checkpoint, ends_bind, ends_get, ends_bind, ends_within]
  refine (ends_writeSnapshot_durable loss hunix h.config).mono ?_ fun _ _ _ => trivial
  rintro _ w₁ ⟨hsnapshot, hanchored, honly⟩
  rw [hconfig] at hsnapshot hanchored honly
  simp only [hwal, ends_within]
  have hkept : LogState.Kept loss w₁ (walPath path) Set.univ (wal, w₁) :=
    ⟨hpath, h.wal wal hwal, Works.refl fun _ _ => Set.subset_univ _⟩
  have hholds : LogState.Holds (wal, w₁) (base ++ recordFrames b rs) := by
    rw [LogState.Holds, hpath, honly.files _ (walPath_ne path), ← hpath]
    exact hat.holds
  refine (ends_reset_kept hkept hholds).mono ?_ fun _ _ _ => trivial
  intro _ log' hkept'
  have hanchored' := hkept'.works.directory.anchored hanchored
  refine ⟨⟨h.config, ?_, ?_, ?_, ?_, hanchored'.loose⟩, hanchored'⟩
  · intro _ hwal'
    cases hwal'
    exact hkept'.always
  · exact (congrFun (hkept'.works.permits.trans honly.permits) _).trans h.permits
  · exact hkept'.works.within.durable (walPath_ne path).symm hsnapshot
  · exact hkept'.works.keeps.synced (World.wellFormed_disk _ _ _)

/-- Opening where there is no log leaves one whose name may be missing on the medium. -/
theorem ends_openWith_stored (loss : Loss) (hunix : b.unix = true) {config : PersistConfig}
    (hwal : config.walEnabled = true) (halways : config.fsyncPolicy = .always) {w : World Path}
    (hnone : w.files (walPath config.path) = none) {x : I} :
    Ends (openWith b T x config) w
      (fun this w' => Stored loss config.path (this, w') ∧
        (w'.disk targetDir loss).MayMiss (walPath config.path))
      (fun _ _ => True) := by
  rw [openWith, ends_bind, ends_uninterrupted]
  cases validateConfig (ε := ε) b config with
  | error e => trivial
  | ok _ =>
    simp only [ends_settle_ok, hwal, if_true, ends_bind]
    refine (ends_writeSnapshot_durable loss hunix halways).mono ?_ fun _ _ _ => trivial
    rintro _ w₁ ⟨hsnapshot, hanchored, honly⟩
    have hnone₁ : w₁.files (walPath config.path) = none := by
      rw [honly.files _ (walPath_ne _), hnone]
    rw [halways]
    refine (ends_create_kept loss hnone₁).mono ?_ fun _ _ _ => trivial
    rintro wal w₂ ⟨hpermits, hkept⟩
    have hname : (w₁.disk targetDir loss).names (walPath config.path) = none := by
      have hview := congrFun (w₁.view_disk targetDir loss) (walPath config.path)
      rw [hnone₁, Disk.view, Option.map_eq_none_iff] at hview
      exact hview
    obtain ⟨hloose, hmiss⟩ := hanchored.create targetDir loss hname (w₁.wellFormed_disk _ _)
    rw [← World.disk_next, ← World.disk_emit] at hloose hmiss
    have hcreated : Within (· = walPath config.path) w₁
        (w₁.next.emit (.create (walPath config.path))) :=
      (Within.refl _ w₁).next.emit fun _ h => h
    refine ⟨⟨halways, ?_, ?_, ?_, ?_, hkept.works.directory.loose hloose⟩,
      hkept.works.directory.mayMiss hmiss⟩
    · intro _ hwal'
      cases hwal'
      exact hkept.always
    · rw [hkept.works.permits]
      exact hpermits
    · exact (hcreated.trans hkept.works.within).durable (walPath_ne _).symm hsnapshot
    · exact hkept.works.keeps.synced (World.wellFormed_disk _ _ _)

/-- Every configuration of a run has each append synced. -/
def Label.Always : Label M I → Prop
  | .reopened config => config.fsyncPolicy = .always
  | .accepted _ | .refused _ | .checkpointed _ _ | .saved | .declined | .bypassed => True

variable {j : Journaled T.change}

theorem Step.stored (hunix : b.unix = true) {l : Label M I} (hsound : l.Sound b T)
    (halways : l.Always) (hholding : Holding b path snapshot base rs s) (h : Stored loss path s)
    (hstep : Step b T s l s') : Stored loss path s' ∧
      (l.change = .fold ∧ (s'.2.disk targetDir loss).Anchored (walPath path) ∨
        l.change ≠ .fold ∧ SameDirectory targetDir loss s.2 s'.2) := by
  cases hstep with
  | accepted hcall =>
    obtain ⟨hstored, hsame⟩ := ends_of_ok (h.mutate hholding _) hcall
    exact ⟨hstored, .inr ⟨by simp [Label.change], hsame⟩⟩
  | refused hcall he =>
    obtain ⟨hstored, hsame⟩ := ends_of_error (h.mutate hholding _) hcall he
    exact ⟨hstored, .inr ⟨by simp [Label.change], hsame⟩⟩
  | checkpointed hcall =>
    obtain ⟨hstored, hanchored⟩ := ends_of_ok (h.checkpoint hunix hholding) hcall
    exact ⟨hstored, .inl ⟨rfl, hanchored⟩⟩
  | saved hcall => exact hsound.elim
  | declined hcall he =>
    rw [hholding.declined hcall he]
    exact ⟨h, .inr ⟨by simp [Label.change], rfl, rfl⟩⟩
  | bypassed x => exact hsound.elim
  | reopened hpath hwal hcall =>
    rename_i this w config
    have hpath' := hpath.trans hholding.configPath
    have hfree : FaultFree s.2.script := by
      rw [show s.2.script = [] from hholding.calm]
      exact fun _ => List.not_mem_nil
    obtain ⟨⟨wal, hwal', hpolicy⟩, huntouched⟩ :=
      ends_of_ok (ends_load_existing hfree hwal (by rw [hpath', hholding.log])) hcall
    obtain ⟨-, rfl, -⟩ := ends_of_ok (hholding.load hpath' hwal) hcall
    have hsame : SameDirectory targetDir loss s.2 w := huntouched.directory
    refine ⟨⟨halways, ?_, ?_, ?_, ?_, hsame.loose h.loose⟩, .inr ⟨by simp [Label.change], hsame⟩⟩
    · intro wal' hwal''
      rw [hwal'] at hwal''
      cases hwal''
      exact hpolicy.trans halways
    · rw [huntouched.permits, h.permits]
    · exact huntouched.durable h.snapshot
    · rw [huntouched.disk]
      exact h.synced

/-- A session just opened in log mode, every append synced, where there was no log. -/
structure StartedAfresh (b : Build M) (T : IndexType ε M I) (config : PersistConfig) (x : I)
    (s : Session I) : Prop where
  walEnabled : config.walEnabled = true
  always : config.fsyncPolicy = .always
  opened : ∃ w, w.Calm ∧ w.files (walPath config.path) = none ∧
    openWith b T x config w = .ok s.1 s.2

theorem StartedAfresh.started {config : PersistConfig} {x : I}
    (h : StartedAfresh b T config x s) : Started b T config x s := by
  obtain ⟨w, hcalm, -, hopened⟩ := h.opened
  exact ⟨h.walEnabled, w, hcalm, hopened⟩

/-- In every session without failures the name of the log is on the medium once there has been a
checkpoint, and may be missing there until then. -/
theorem StartedAfresh.run (loss : Loss) (hT : Contract b T) (hunix : b.unix = true)
    {config : PersistConfig}
    {x : I} {s₀ : Session I} (hstart : StartedAfresh b T config x s₀)
    (hinv : SnapshotInverts b T config x) {ls : List (Label M I)}
    (hrun : Runs (Step b T) s₀ ls s) (hsound : ∀ l ∈ ls, l.Sound b T)
    (halways : ∀ l ∈ ls, l.Always) :
    ∃ j : Journaled T.change, j.log = loggedBy ls ∧ Represents b T config.path j s ∧
      Stored loss config.path s ∧
      (.fold ∈ ls.map Label.change ∧ (s.2.disk targetDir loss).Anchored (walPath config.path) ∨
        .fold ∉ ls.map Label.change ∧ j.base = x ∧
          (s.2.disk targetDir loss).MayMiss (walPath config.path)) := by
  induction hrun with
  | nil =>
    obtain ⟨w, -, hnone, hopened⟩ := hstart.opened
    obtain ⟨hstored, hmiss⟩ :=
      ends_of_ok (ends_openWith_stored loss hunix hstart.walEnabled hstart.always hnone) hopened
    exact ⟨Journaled.start x, rfl, hstart.started.represents hT hinv, hstored,
      .inr ⟨List.not_mem_nil, rfl, hmiss⟩⟩
  | snoc hrun hstep ih =>
    rename_i t u ls l
    obtain ⟨j, hlog, hj, hstored, hentry⟩ :=
      ih (fun l hl => hsound l (List.mem_append_left _ hl))
        fun l hl => halways l (List.mem_append_left _ hl)
    have hl := hsound l (by simp)
    obtain ⟨j', hmove, hj'⟩ := hstep.represents hT hl hj
    obtain ⟨snapshot, hholding, -⟩ := hj.holding
    obtain ⟨hstored', hchange⟩ :=
      hstep.stored hunix hl (halways l (by simp)) hholding hstored
    refine ⟨j', ?_, hj', hstored', ?_⟩
    · rw [hmove.log_eq, hlog, loggedBy, loggedBy, List.map_append, List.foldl_append]
      rfl
    · rw [List.map_append, List.mem_append]
      rcases hchange with ⟨hfold, hanchored⟩ | ⟨hne, hsame⟩
      · exact .inl ⟨.inr (by simp [hfold]), hanchored⟩
      · rcases hentry with ⟨hfold, hanchored⟩ | ⟨hnot, hbase, hmiss⟩
        · exact .inl ⟨.inl hfold, hsame.anchored hanchored⟩
        · refine .inr ⟨not_or.mpr ⟨hnot, ?_⟩, ?_, hsame.mayMiss hmiss⟩
          · simpa using hne.symm
          · rw [hmove.base_eq hne, hbase]

end PersistedIndex

end IqdbPersist
