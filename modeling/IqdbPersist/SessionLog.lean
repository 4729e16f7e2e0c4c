import IqdbPersist.Session

/-!
# The log of a session

What holds of the files of a session between its calls: the log is some bytes and behind them the
frames of some records, and the session writes next to their end. Every call keeps this, whatever
the bytes are, with the records and the bytes that its label tells.
-/

namespace IqdbPersist

open CrashLogic FileSystem LogState Simulation

variable {ε M I : Type}

namespace PersistedIndex

theorem recordFrames_nil (b : Build M) : recordFrames b [] = [] := rfl

variable {b : Build M} {T : IndexType ε M I} {path : Path} {snapshot base : Bytes}
  {rs : List (WalRecord M)} {s s' : Session I}

/-- The files of a session and its place in them: a snapshot, and a log that is `base` and the
frames of some records, with the next write behind them. -/
structure Holding (b : Build M) (path : Path) (snapshot base : Bytes) (rs : List (WalRecord M))
    (s : Session I) : Prop where
  configPath : s.1.config.path = path
  snapshot : s.2.files path = some snapshot
  wal : ∃ wal, s.1.wal = some wal ∧ wal.file.path = walPath path ∧
    LogState.At (wal, s.2) (base ++ recordFrames b rs)
  appendable : ∀ r ∈ rs, Appendable b r
  calm : s.2.Calm

theorem Holding.log (h : Holding b path snapshot base rs s) :
    s.2.files (walPath path) = some (base ++ recordFrames b rs) := by
  obtain ⟨wal, -, hpath, hat⟩ := h.wal
  rw [← hpath]
  exact hat.holds

theorem Holding.follow (h : Holding b path snapshot base rs s) {rs' : List (WalRecord M)} {x : I}
    {log log' : LogState} (hfollows : Follows log log') (hpath : log.1.file.path = walPath path)
    (hworld : log.2 = s.2) (hat : log'.At (base ++ recordFrames b rs'))
    (happ : ∀ r ∈ rs', Appendable b r) (hcalm : log'.2.Calm) :
    Holding b path snapshot base rs' (withLog s.1 x log') where
  configPath := h.configPath
  snapshot := by
    rw [withLog, hfollows.only.files _ (by rw [hpath]; exact (walPath_ne path).symm), hworld,
      h.snapshot]
  wal := ⟨log'.1, rfl, hfollows.filePath.trans hpath, hat⟩
  appendable := happ
  calm := hcalm

theorem Holding.mutate (h : Holding b path snapshot base rs s) (r : WalRecord M) :
    Ends (mutation b T r) s
      (fun _ s' => Holding b path snapshot base (rs ++ [r]) s' ∧ s'.1.config = s.1.config ∧
        T.Accepts r s.1.inner ∧ s'.1.inner = (T.apply r s.1.inner).2 ∧
        Only (· = walPath path) s.2 s'.2)
      (fun e s' => Holding b path snapshot base rs s' ∧ s'.1.config = s.1.config ∧
        ((¬ Appendable b r ∧ s'.1.inner = s.1.inner) ∨
          ∃ source, e = .failed (.indexBuild source) ∧
            T.apply r s.1.inner = (.error source, s'.1.inner))) := by
  obtain ⟨wal, hwal, hpath, hat⟩ := h.wal
  refine (ends_mutation_calm hat h.calm hwal r).mono ?_ ?_
  · rintro _ _ ⟨log', rfl, haccepts, happ, hfollows, hat', hcalm'⟩
    rw [List.append_assoc, frameOf, ← recordFrames_snoc] at hat'
    refine ⟨h.follow hfollows hpath rfl hat' ?_ hcalm', rfl, haccepts, rfl, hpath ▸ hfollows.only⟩
    exact List.forall_mem_append.mpr ⟨h.appendable, List.forall_mem_singleton.mpr happ⟩
  · rintro e _ ⟨x', log', rfl, -, hfollows, hat', hcalm', hrefused⟩
    exact ⟨h.follow hfollows hpath rfl hat' h.appendable hcalm', rfl, hrefused⟩

theorem Holding.checkpoint (h : Holding b path snapshot base rs s) :
    Ends (checkpoint b T) s
      (fun _ s' => s'.1.config = s.1.config ∧ s'.1.inner = s.1.inner ∧
        ∃ full, snapshotBytes b T s.1.inner s.1.config = .ok full ∧
          Holding b path full walHeader [] s')
      (fun e s' => s' = s ∨ ByEnvironment e) := by
  obtain ⟨wal, hwal, hpath, hat⟩ := h.wal
  cases hname : s.1.config.path.fileName with
  | none =>
    rw [PersistedIndex.checkpoint, ends_bind, ends_get, ends_bind, ends_within]
    refine (ends_writeSnapshot_unnamed hname).mono (fun _ _ h => h.elim) ?_
    rintro e w' ⟨rfl, -⟩
    exact .inl rfl
  | some name =>
    rw [← h.configPath] at hpath
    refine (ends_checkpoint hname hat hwal hpath).mono ?_ ?_
    · rintro _ _ ⟨full, log', rfl, hfull, hsnapshot, hat', hpath', -, hscript⟩
      rw [h.configPath] at hsnapshot hpath'
      refine ⟨rfl, rfl, full, hfull, h.configPath, hsnapshot, ⟨log'.1, rfl, hpath', ?_⟩,
        by simp, h.calm.drop hscript⟩
      rwa [recordFrames_nil, List.append_nil]
    · rintro e _ ⟨log', rfl, ⟨e', -, -, rfl⟩ | ⟨he, -⟩⟩
      · exact .inl (withLog_self hwal s.2).symm
      · exact .inr he

theorem Holding.save (h : Holding b path snapshot base rs s) :
    Ends (save b T) s
      (fun _ s' => ∃ full, snapshotBytes b T s.1.inner s.1.config = .ok full ∧
        Holding b path full base rs s')
      (fun e s' => s' = s ∨ ByEnvironment e) := by
  obtain ⟨wal, hwal, hpath, hat⟩ := h.wal
  rw [PersistedIndex.save, ends_bind, ends_get, ends_within]
  cases hname : s.1.config.path.fileName with
  | none =>
    refine (ends_writeSnapshot_unnamed hname).mono (fun _ _ h => h.elim) ?_
    rintro e w' ⟨rfl, -⟩
    exact .inl rfl
  | some name =>
    refine (ends_writeSnapshot hname).mono ?_ ?_
    · rintro _ w' ⟨full, hfull, -, -, -, hscript, hsnapshot, honly⟩
      have hlog := honly.files (walPath path) (by
        rw [h.configPath]
        exact walPath_ne path)
      refine ⟨full, hfull, h.configPath, ?_, ⟨wal, hwal, hpath, ?_, hat.pos⟩, h.appendable,
        h.calm.drop hscript⟩
      · rw [← h.configPath, hsnapshot]
      · rw [LogState.Holds, hpath, hlog, h.log]
    · rintro e w' (⟨e', -, -, rfl⟩ | ⟨he, -⟩ | ⟨full, -, he, -⟩)
      · exact .inl rfl
      · exact .inr he
      · exact .inr he

theorem Holding.declined (h : Holding b path snapshot base rs s) {e : PersistError ε}
    (hcall : PersistedIndex.save b T s = .error (.failed e) s' ∨
      PersistedIndex.checkpoint b T s = .error (.failed e) s') (he : ¬ e.IsIo) : s' = s := by
  rcases hcall with hcall | hcall
  · exact (ends_of_error h.save hcall).resolve_right he
  · exact (ends_of_error h.checkpoint hcall).resolve_right he

theorem ends_load_holding {config : PersistConfig} {w : World Path} (hcalm : w.Calm)
    (hwal : config.walEnabled = true) (hsnapshot : w.files config.path = some snapshot)
    (hlog : w.files (walPath config.path) = some (base ++ recordFrames b rs))
    (happ : ∀ r ∈ rs, Appendable b r) :
    Ends (load b T config) w
      (fun this w' => validateConfig b config = (.ok () : Except (PersistError ε) Unit) ∧
        this.config = config ∧ Stands b T snapshot (base ++ recordFrames b rs) this.inner ∧
        Holding b config.path snapshot base rs (this, w'))
      (fun _ _ => True) := by
  refine (ends_load hcalm hwal hsnapshot hlog).mono ?_ fun _ _ _ => trivial
  rintro this w' ⟨hvalid, hstands, rfl, hcalm', hfiles, hopened⟩
  refine ⟨hvalid, rfl, hstands, rfl, ?_, hopened, happ, hcalm'⟩
  rw [hfiles, hsnapshot]

theorem Holding.load (h : Holding b path snapshot base rs s) {config : PersistConfig}
    (hpath : config.path = path) (hwal : config.walEnabled = true) :
    Ends (load b T config) s.2
      (fun this w' => validateConfig b config = (.ok () : Except (PersistError ε) Unit) ∧
        this.config = config ∧ Stands b T snapshot (base ++ recordFrames b rs) this.inner ∧
        Holding b path snapshot base rs (this, w'))
      (fun _ _ => True) := by
  subst hpath
  exact ends_load_holding h.calm hwal h.snapshot h.log h.appendable

theorem Started.holding {config : PersistConfig} {x : I} (h : Started b T config x s) :
    s.1.inner = x ∧ s.1.config = config ∧
      validateConfig b config = (.ok () : Except (PersistError ε) Unit) ∧
      (∃ name, config.path.fileName = some name) ∧
      ∃ full, snapshotBytes b T x config = .ok full ∧
        Holding b config.path full walHeader [] s := by
  obtain ⟨w, hcalm, hopened⟩ := h.opened
  obtain ⟨hinner, hconfig, hvalid, hscript, name, full, wal, hname, hfull, hsnapshot, hwal, hpath,
    hat, -⟩ := ends_of_ok (ends_openWith h.walEnabled) hopened
  refine ⟨hinner, hconfig, hvalid, ⟨name, hname⟩, full, hfull, by rw [hconfig], hsnapshot,
    ⟨wal, hwal, hpath, ?_⟩, by simp, hcalm.drop hscript⟩
  rwa [recordFrames_nil, List.append_nil]

theorem Step.holding {l : Label M I} (hstep : Step b T s l s')
    (h : Holding b path snapshot base rs s) :
    ∃ snapshot', Holding b path snapshot' (baseAfter base l.change) (l.change.after rs) s' := by
  cases hstep with
  | accepted hcall => exact ⟨_, (ends_of_ok (h.mutate _) hcall).1⟩
  | refused hcall he => exact ⟨_, (ends_of_error (h.mutate _) hcall).1⟩
  | checkpointed hcall =>
    obtain ⟨-, -, full, -, hholding⟩ := ends_of_ok h.checkpoint hcall
    exact ⟨full, hholding⟩
  | saved hcall =>
    obtain ⟨full, -, hholding⟩ := ends_of_ok h.save hcall
    exact ⟨full, hholding⟩
  | declined hcall he =>
    rw [h.declined hcall he]
    exact ⟨_, h⟩
  | bypassed x =>
    exact ⟨_, h.configPath, h.snapshot, h.wal, h.appendable, h.calm⟩
  | reopened hpath hwal hcall =>
    exact ⟨_, (ends_of_ok (h.load (hpath.trans h.configPath) hwal) hcall).2.2.2⟩

/-- What a run of calls leaves in the log, told from its labels. -/
theorem Holding.run {ls : List (Label M I)} (hrun : Runs (Step b T) s ls s')
    (h : Holding b path snapshot base rs s) :
    ∃ snapshot', Holding b path snapshot' ((ls.map Label.change).foldl baseAfter base)
      ((ls.map Label.change).foldl Journal.Change.after rs) s' := by
  induction hrun with
  | nil => exact ⟨snapshot, h⟩
  | snoc _ hstep ih =>
    obtain ⟨snapshot₁, h₁⟩ := ih
    rw [List.map_append, List.foldl_append, List.foldl_append]
    exact hstep.holding h₁

/-- Acknowledged mutations end up behind each other in the log, and one after another in the
index. -/
theorem Holding.acknowledge {news : List (WalRecord M)}
    (hrun : Runs (Step b T) s (news.map Label.accepted) s')
    (h : Holding b path snapshot base rs s) :
    Holding b path snapshot base (rs ++ news) s' ∧ s'.1.config = s.1.config ∧
      Journal.replay T.change news s.1.inner = some s'.1.inner := by
  generalize hls : news.map (Label.accepted (I := I)) = ls at hrun
  induction hrun generalizing news with
  | nil =>
    rw [List.map_eq_nil_iff.mp hls, List.append_nil]
    exact ⟨h, rfl, rfl⟩
  | snoc _ hstep ih =>
    obtain ⟨news₁, news₂, rfl, hnews₁, hnews₂⟩ := List.map_eq_append_iff.mp hls
    obtain ⟨r, rfl, rfl⟩ := List.map_eq_singleton_iff.mp hnews₂
    obtain ⟨h₁, hconfig₁, hreplay₁⟩ := ih hnews₁
    cases hstep with
    | accepted hcall =>
      obtain ⟨h₂, hconfig₂, haccepts, hinner, -⟩ := ends_of_ok (h₁.mutate r) hcall
      rw [← List.append_assoc, Journal.replay_append, hreplay₁, Option.bind_some, Journal.replay,
        IndexType.change_of_accepts haccepts, ← hinner]
      exact ⟨h₂, hconfig₂.trans hconfig₁, rfl⟩

end PersistedIndex

end IqdbPersist
