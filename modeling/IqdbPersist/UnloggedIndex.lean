import IqdbPersist.Lifetime

/-!
# Without a log, and without success

Without a log an index is its bare index, and only `save` and `checkpoint` write: the snapshot, and
nothing else. A call that fails although no file operation has failed leaves the files as they
were, in either mode.
-/

namespace IqdbPersist

open CrashLogic FileSystem LogState

variable {ε M I : Type} {b : Build M} {T : IndexType ε M I}

section Log

variable {σ τ α β : Type}

/-- The program fails only where a file operation does. -/
def Persists (p : EStateM (Halt (PersistError ε)) σ α) : Prop :=
  ∀ s, Ends p s (fun _ _ => True) (fun e _ => ByEnvironment e)

theorem persists_ioAt (path : Path) (p : EStateM (Halt IoError) σ α) :
    Persists (ioAt path p : EStateM (Halt (PersistError ε)) σ α) := by
  intro s
  refine ends_ioAt_of ?_
  unfold Ends
  split
  · trivial
  · exact fun _ he => he

theorem Persists.bind {p : EStateM (Halt (PersistError ε)) σ α}
    {f : α → EStateM (Halt (PersistError ε)) σ β} (hp : Persists p) (hf : ∀ a, Persists (f a)) :
    Persists (p >>= f) := by
  intro s
  rw [ends_bind]
  exact (hp s).mono (fun a s' _ => hf a s') fun _ _ h => h

theorem persists_onFile (p : Proc Path IoError (File Path) α) :
    Persists (Wal.onFile p : Wal.Method ε α) := by
  intro s
  rw [Wal.onFile, ends_bind, ends_get]
  exact persists_ioAt _ _ s

theorem persists_syncNow : Persists (Wal.syncNow : Wal.Method ε Unit) := by
  refine (persists_onFile _).bind fun _ s => ?_
  rw [ends_modify]
  trivial

theorem persists_openForAppend (snapshot : Path) (policy : FsyncPolicy) :
    Persists (Wal.openForAppend snapshot policy :
      EStateM (Halt (PersistError ε)) (World Path) Wal) := by
  refine (persists_ioAt _ _).bind fun existed => (persists_ioAt _ _).bind fun file =>
    (persists_ioAt _ _).bind fun file w => ?_
  rw [ends_withLocal]
  cases existed with
  | true => trivial
  | false =>
    refine ((persists_onFile _).bind (fun _ => persists_syncNow) _).mono ?_ fun _ _ h => h
    exact fun _ _ _ => trivial

end Log

namespace PersistedIndex

variable {config : PersistConfig} {w : World Path} {x : I} {this : PersistedIndex I}

theorem ends_openWith_unlogged (hwal : config.walEnabled = false) :
    Ends (openWith b T x config) w
      (fun this w' => this = ⟨x, config, none⟩ ∧ w' = w) (fun _ w' => w' = w) := by
  rw [openWith, ends_bind, ends_uninterrupted]
  cases validateConfig (ε := ε) b config with
  | error e => exact rfl
  | ok _ =>
    rw [ends_settle_ok]
    simp only [hwal, Bool.false_eq_true, if_false]
    exact ⟨rfl, rfl⟩

theorem ends_load_unlogged (hwal : config.walEnabled = false) :
    Ends (load b T config) w
      (fun this w' => ∃ bytes base, w.files config.path = some bytes ∧
        decodeSnapshot b T bytes = .ok base ∧ this = ⟨base, config, none⟩ ∧ w'.files = w.files)
      (fun _ w' => w'.files = w.files) := by
  rw [load, ends_bind, ends_uninterrupted]
  cases validateConfig (ε := ε) b config with
  | error e => exact rfl
  | ok _ =>
    rw [ends_settle_ok, ends_bind]
    refine ends_ioAt_of ((ends_observe_next _).mono ?_ ?_)
    · rintro bytes _ ⟨hread, rfl⟩
      rw [ends_bind, ends_uninterrupted]
      cases hdecode : decodeSnapshot b T bytes with
      | error e => exact rfl
      | ok base =>
        rw [ends_settle_ok]
        simp only [hwal, Bool.false_eq_true, if_false]
        refine ⟨bytes, base, ?_, hdecode, rfl, rfl⟩
        split at hread
        · rename_i hbytes
          rw [hbytes, Except.ok.inj hread]
        · cases hread
    · rintro _ _ rfl _ _
      exact rfl

theorem ends_load_refused : Ends (load b T config) w (fun _ _ => True)
    (fun e w' => w'.files = w.files ∨ ByEnvironment e) := by
  rw [load, ends_bind, ends_uninterrupted]
  cases validateConfig (ε := ε) b config with
  | error e => exact .inl rfl
  | ok _ =>
    rw [ends_settle_ok, ends_bind]
    refine ends_ioAt_of ((ends_observe_next _).mono ?_ fun _ _ _ _ he => .inr he)
    rintro bytes _ ⟨-, rfl⟩
    rw [ends_bind, ends_uninterrupted]
    cases decodeSnapshot b T bytes with
    | error e => exact .inl rfl
    | ok base =>
      rw [ends_settle_ok]
      by_cases hwal : config.walEnabled = true
      · simp only [hwal, if_true, ends_bind, ends_withLocal]
        refine ends_replay_next.mono ?_ ?_
        · rintro _ ⟨x, _⟩ rfl
          refine (persists_openForAppend _ _ _).mono (fun _ _ _ => trivial) ?_
          exact fun _ _ he => .inr he
        · rintro _ ⟨x, _⟩ rfl
          exact .inl rfl
      · simp only [hwal, Bool.false_eq_true, if_false]
        trivial

theorem ends_mutation_unlogged (hwal : this.wal = none) (r : WalRecord M) :
    Ends (mutation b T r) (this, w)
      (fun _ s' => T.Accepts r this.inner ∧
        s' = ({ this with inner := (T.apply r this.inner).2 }, w))
      (fun _ s' => ¬ T.Accepts r this.inner ∧
        s' = ({ this with inner := (T.apply r this.inner).2 }, w)) := by
  rw [mutation_eq, mutate, ends_bind, ends_get]
  simp only [hwal, ends_uninterrupted, ends_within]
  refine (ends_onIndex (T.apply r)).mono ?_ ?_
  · intro _ x hx
    rw [IndexType.Accepts, hx]
    exact ⟨rfl, rfl⟩
  · rintro _ x ⟨source, -, hx⟩
    rw [IndexType.Accepts, hx]
    exact ⟨by simp, rfl⟩

theorem ends_save_cut : Ends (save b T) (this, w)
    (fun _ s' => s'.1 = this ∧
      s'.2.files (walPath this.config.path) = w.files (walPath this.config.path) ∧
      ∃ full, snapshotBytes b T this.inner this.config = .ok full ∧
        s'.2.files this.config.path = some full)
    (fun e s' => s'.1 = this ∧
      s'.2.files (walPath this.config.path) = w.files (walPath this.config.path) ∧
      (s'.2.files this.config.path = w.files this.config.path ∨
        ByEnvironment e ∧ ∃ full, snapshotBytes b T this.inner this.config = .ok full ∧
          s'.2.files this.config.path = some full)) := by
  have hne := walPath_ne this.config.path
  rw [save, ends_bind, ends_get, ends_within]
  cases hname : this.config.path.fileName with
  | none =>
    refine (ends_writeSnapshot_unnamed hname).mono (fun _ _ h => h.elim) ?_
    rintro e w' ⟨rfl, -⟩
    exact ⟨rfl, rfl, .inl rfl⟩
  | some name =>
    have htemp := tempPathOf_ne_walPath (w := w) hname
    refine (ends_writeSnapshot hname).mono ?_ ?_
    · rintro _ w' ⟨full, hfull, -, -, -, -, hsnapshot, honly⟩
      exact ⟨rfl, honly.files _ hne, full, hfull, hsnapshot⟩
    · rintro e w' (⟨e', -, -, rfl⟩ | ⟨-, -, honly⟩ | ⟨full, hfull, he, -, -, hsnapshot, honly⟩)
      · exact ⟨rfl, rfl, .inl rfl⟩
      · exact ⟨rfl, honly.files _ htemp.symm, .inl (honly.files _ (tempPathOf_ne hname).symm)⟩
      · exact ⟨rfl, honly.files _ (by simp [hne, htemp.symm]), .inr ⟨he, full, hfull, hsnapshot⟩⟩

theorem ends_checkpoint_unlogged (hwal : this.wal = none) {Q : Unit → Session I → Prop}
    {E : Halt (PersistError ε) → Session I → Prop} :
    Ends (checkpoint b T) (this, w) Q E ↔ Ends (save b T) (this, w) Q E := by
  rw [checkpoint, save, ends_bind, ends_get, ends_bind, ends_bind, ends_get]
  simp only [hwal, ends_pure]

end PersistedIndex

end IqdbPersist
