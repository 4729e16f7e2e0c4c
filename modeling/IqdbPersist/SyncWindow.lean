import IqdbPersist.SampleIndex
import IqdbPersist.WalLifecycle
import Mathlib.Order.Monotone.Defs

/-!
# The window of unsynced records

Whether an append ends with an fsync depends on when the handle last made one. So no frame stays
without an fsync beyond the policy's interval: as long as a frame waits, the last fsync was made
before the frame was written, and the append that finds it an interval old makes the next one.
-/

namespace IqdbPersist

open CrashLogic FileSystem LittleEndian Wal LogState

variable {ε M : Type}

/-- `append` up to its `maybe_sync`. -/
def Wal.writeFrame (b : Build M) (r : WalRecord M) : Method ε Unit := do
  onScratch (encodeRecord b.metadata r)
  let scratch := (← get).1.scratch
  let bodyLen ← uninterrupted (settle
    (u32TryFrom scratch.length "WAL record length does not fit in u32"))
  let crc := b.crc32 scratch
  onFile (File.writeAll (encode 4 bodyLen.toNat ++ encode 4 crc.toNat))
  onFile (File.writeAll scratch)

theorem append_eq_writeFrame (b : Build M) (r : WalRecord M) :
    append (ε := ε) b r = (do writeFrame b r; maybeSync) := by
  simp only [append_eq, writeFrame, commitRecord, bind_assoc]

/-- A frame of this handle: how much had happened when it was written, and the clock reading that
its append took. -/
structure WrittenFrame where
  events : ℕ
  reading : ℕ

namespace LogState

/-- The frame that has just been written. -/
def lastFrame (s : LogState) : WrittenFrame := ⟨s.2.history.length, s.2.instant⟩

/-- An fsync of the log has completed since the frame was written. -/
def Covers (s : LogState) (f : WrittenFrame) : Prop :=
  .sync s.1.file.path ∈ s.2.history.drop f.events

/-- The last fsync was made no later than the frame was written. -/
def Awaits (s : LogState) (f : WrittenFrame) : Prop :=
  ∃ last, s.1.lastFsync = some last ∧ last ≤ f.reading

/-- An operation adds to what has happened and lets time pass. -/
structure Advances (s s' : LogState) : Prop where
  filePath : s'.1.file.path = s.1.file.path
  policy : s'.1.policy = s.1.policy
  instants : s'.2.instants = s.2.instants
  ticks : s.2.ticks ≤ s'.2.ticks
  history : s.2.history <+: s'.2.history

/-- An operation without fsync. -/
structure Idles (s s' : LogState) : Prop extends Advances s s' where
  lastFsync : s'.1.lastFsync = s.1.lastFsync

/-- An operation with an fsync, of which it takes the time. -/
structure Fsyncs (s s' : LogState) : Prop extends Advances s s' where
  lastFsync : s'.1.lastFsync = some s'.2.instant
  sync : .sync s.1.file.path ∈ s'.2.history.drop s.2.history.length

variable {s s' s'' : LogState} {f : WrittenFrame}

theorem Advances.trans (h : Advances s s') (h' : Advances s' s'') : Advances s s'' where
  filePath := h'.filePath.trans h.filePath
  policy := h'.policy.trans h.policy
  instants := h'.instants.trans h.instants
  ticks := Nat.le_trans h.ticks h'.ticks
  history := h.history.trans h'.history

theorem Idles.trans (h : Idles s s') (h' : Idles s' s'') : Idles s s'' :=
  ⟨h.toAdvances.trans h'.toAdvances, h'.lastFsync.trans h.lastFsync⟩

theorem Idles.fsyncs (h : Idles s s') (h' : Fsyncs s' s'') : Fsyncs s s'' where
  toAdvances := h.toAdvances.trans h'.toAdvances
  lastFsync := h'.lastFsync
  sync := by
    have hle : s.2.history.length ≤ s'.2.history.length := h.history.length_le
    rw [← h.filePath]
    exact List.drop_subset_drop_left _ hle h'.sync

theorem Advances.instant_le (h : Advances s s') (hmono : Monotone s.2.instants) :
    s.2.instant ≤ s'.2.instant := by
  rw [World.instant, World.instant, h.instants]
  exact hmono h.ticks

theorem Covers.advance (hcovers : s.Covers f) (h : Advances s s') : s'.Covers f := by
  obtain ⟨events, hevents⟩ := h.history
  rw [Covers, h.filePath, ← hevents, List.drop_append]
  exact List.mem_append_left _ hcovers

theorem Fsyncs.covers (h : Fsyncs s s') (hf : f.events ≤ s.2.history.length) : s'.Covers f := by
  rw [Covers, h.filePath]
  exact List.drop_subset_drop_left _ hf h.sync

theorem idles_wrote (s : LogState) (bytes : Bytes) : Idles s (s.wrote bytes) :=
  ⟨⟨rfl, rfl, rfl, Nat.le_succ _, List.prefix_append _ _⟩, rfl⟩

theorem idles_resized (s : LogState) (len : ℕ) : Idles s (s.resized len) :=
  ⟨⟨rfl, rfl, rfl, Nat.le_succ _, List.prefix_append _ _⟩, rfl⟩

theorem idles_sought (s : LogState) (pos : ℕ) : Idles s (s.sought pos) :=
  ⟨⟨rfl, rfl, rfl, Nat.le_succ _, List.prefix_rfl⟩, rfl⟩

theorem idles_skipped (s : LogState) : Idles s s.skipped :=
  ⟨⟨rfl, rfl, rfl, Nat.le_succ _, List.prefix_rfl⟩, rfl⟩

theorem idles_scratch (s : LogState) (body : Bytes) :
    Idles s ({ s.1 with scratch := body }, s.2) :=
  ⟨⟨rfl, rfl, rfl, Nat.le_refl _, List.prefix_rfl⟩, rfl⟩

end LogState

section Methods

variable {s : LogState}

/-- A halt that the environment did not bring about leaves only the buffer changed. -/
def RefusalIdles (s : LogState) (e : Halt (PersistError ε)) (s' : LogState) : Prop :=
  ¬ ByEnvironment e → Idles s s'

theorem ends_onFile_write (bytes : Bytes) : Ends (onFile (File.writeAll bytes)) s
    (fun _ s' => Idles s s') (fun (e : Halt (PersistError ε)) _ => ByEnvironment e) := by
  rw [ends_writeLog]
  cases s.2.verdict with
  | done => exact idles_wrote s bytes
  | fails n => exact trivial
  | cut n => exact trivial

theorem ends_syncNow_fsyncs : Ends (syncNow : Method ε Unit) s
    (fun _ s' => Fsyncs s s') (fun e _ => ByEnvironment e) := by
  simp only [syncNow, ends_bind, ends_syncAll, ends_modify]
  cases s.2.verdict with
  | done =>
    refine ⟨⟨rfl, rfl, rfl, Nat.le_succ _, List.prefix_append _ _⟩, rfl, ?_⟩
    change _ ∈ (s.2.history ++ [Event.sync s.1.file.path]).drop s.2.history.length
    rw [List.drop_left]
    exact List.mem_singleton_self _
  | fails n => exact trivial
  | cut n => exact trivial

theorem ends_maybeSync_window : Ends (maybeSync : Method ε Unit) s
    (fun _ s' => Fsyncs s s' ∨ s' = s ∧ s.1.due s.2.instant = false)
    (fun e _ => ByEnvironment e) := by
  simp only [maybeSync, ends_bind, ends_get]
  cases hdue : s.1.due s.2.instant with
  | true => exact ends_syncNow_fsyncs.mono (fun _ _ h => .inl h) fun _ _ h => h
  | false => exact .inr ⟨rfl, rfl⟩

theorem ends_writeFrame (b : Build M) (r : WalRecord M) : Ends (writeFrame b r : Method ε Unit) s
    (fun _ s' => Idles s s') (RefusalIdles s) := by
  rw [writeFrame, ends_bind, ends_onScratch]
  refine (ends_encodeRecord b.metadata r s.1.scratch).mono ?_
    fun _ body _ _ => idles_scratch s body
  rintro _ body -
  rw [ends_bind, ends_get, ends_bind, ends_uninterrupted]
  refine ends_settle_of (fun bodyLen _ => ?_) fun _ _ _ => idles_scratch s body
  rw [ends_bind]
  refine (ends_onFile_write _).mono ?_ fun _ _ he hno => absurd he hno
  intro _ s₁ h₁
  refine (ends_onFile_write _).mono ?_ fun _ _ he hno => absurd he hno
  exact fun _ s₂ h₂ => ((idles_scratch s body).trans h₁).trans h₂

theorem ends_mark_idles : Ends (mark : Method ε ℕ) s (fun _ s' => Idles s s')
    (fun e _ => ByEnvironment e) := by
  rw [mark, ends_streamPosition]
  cases s.2.verdict with
  | done => exact idles_skipped s
  | fails n => exact trivial
  | cut n => exact trivial

theorem ends_truncate_idles (len : ℕ) {p : Method ε Unit} {Q : LogState → Prop}
    (hp : ∀ s₁, Idles s s₁ → Ends p s₁ (fun _ s' => Q s') (fun e _ => ByEnvironment e)) :
    Ends (do onFile (File.setLen len); let _pos ← onFile (File.seekStart len); p) s
      (fun _ s' => Q s') (fun e _ => ByEnvironment e) := by
  rw [ends_bind, ends_setLen]
  cases s.2.verdict with
  | done =>
    rw [ends_bind, ends_seekStart]
    cases (s.resized len).2.verdict with
    | done => exact hp _ ((idles_resized s len).trans (idles_sought _ len))
    | fails n => exact trivial
    | cut n => exact trivial
  | fails n => exact trivial
  | cut n => exact trivial

theorem ends_rollback_fsyncs (len : ℕ) : Ends (rollback len : Method ε Unit) s
    (fun _ s' => Fsyncs s s') (fun e _ => ByEnvironment e) :=
  ends_truncate_idles len fun _ h₁ =>
    ends_syncNow_fsyncs.mono (fun _ _ h₂ => h₁.fsyncs h₂) fun _ _ he => he

theorem ends_header_fsyncs : Ends (do Wal.writeHeader; syncNow : Method ε Unit) s
    (fun _ s' => Fsyncs s s') (fun e _ => ByEnvironment e) := by
  rw [ends_bind, Wal.writeHeader]
  refine (ends_onFile_write _).mono ?_ fun _ _ he => he
  exact fun _ s₁ h₁ => ends_syncNow_fsyncs.mono (fun _ _ h₂ => h₁.fsyncs h₂) fun _ _ he => he

theorem ends_reset_fsyncs : Ends (reset : Method ε Unit) s
    (fun _ s' => Fsyncs s s') (fun e _ => ByEnvironment e) :=
  ends_truncate_idles 0 fun _ h₁ =>
    ends_header_fsyncs.mono (fun _ _ h₂ => h₁.fsyncs h₂) fun _ _ he => he

theorem ends_append_refused (b : Build M) (r : WalRecord M) : Ends (append b r : Method ε Unit) s
    (fun _ _ => True) (RefusalIdles s) := by
  rw [append_eq_writeFrame, ends_bind]
  refine (ends_writeFrame b r).mono ?_ fun _ _ h => h
  exact fun _ s₁ _ => ends_maybeSync_window.mono (fun _ _ _ => trivial)
    fun _ _ he hno => absurd he hno

end Methods

/-- What the operations of a handle lead to, and the frames that it has written, as long as the
environment lets every operation complete. -/
inductive WalRun (ε : Type) (b : Build M) (s₀ : LogState) : List WrittenFrame → LogState → Prop
  | opened : WalRun ε b s₀ [] s₀
  | append {frames s s₁ s₂} (r : WalRecord M) : WalRun ε b s₀ frames s →
      writeFrame b r s = (.ok () s₁ : EStateM.Result (Halt (PersistError ε)) _ _) →
      Wal.append b r s = (.ok () s₂ : EStateM.Result (Halt (PersistError ε)) _ _) →
      WalRun ε b s₀ (frames ++ [s₁.lastFrame]) s₂
  | refused {frames s s₁} (r : WalRecord M) (e : Halt (PersistError ε)) :
      WalRun ε b s₀ frames s → ¬ ByEnvironment e → Wal.append b r s = .error e s₁ →
      WalRun ε b s₀ frames s₁
  | mark {frames s s₁} (n : ℕ) : WalRun ε b s₀ frames s →
      Wal.mark s = (.ok n s₁ : EStateM.Result (Halt (PersistError ε)) _ _) →
      WalRun ε b s₀ frames s₁
  | rollback {frames s s₁} (n : ℕ) : WalRun ε b s₀ frames s →
      Wal.rollback n s = (.ok () s₁ : EStateM.Result (Halt (PersistError ε)) _ _) →
      WalRun ε b s₀ frames s₁
  | reset {frames s s₁} : WalRun ε b s₀ frames s →
      Wal.reset s = (.ok () s₁ : EStateM.Result (Halt (PersistError ε)) _ _) →
      WalRun ε b s₀ frames s₁

/-- Every frame has its fsync or waits for one as the policy allows. -/
structure Timely (policy : FsyncPolicy) (instants : ℕ → ℕ) (frames : List WrittenFrame)
    (s : LogState) : Prop where
  keeps : s.1.policy = policy
  clock : s.2.instants = instants
  lastFsync : ∀ last, s.1.lastFsync = some last → last ≤ s.2.instant
  events : ∀ f ∈ frames, f.events ≤ s.2.history.length
  always : policy = .always → ∀ f ∈ frames, s.Covers f
  periodic : ∀ d, policy = .periodic d → ∀ f ∈ frames, s.Covers f ∨ s.Awaits f

section Timely

variable {policy : FsyncPolicy} {instants : ℕ → ℕ} {frames frames' : List WrittenFrame}
  {s s' s₀ : LogState}

theorem Timely.idles (h : Timely policy instants frames s) (hmono : Monotone instants)
    (hidles : Idles s s') : Timely policy instants frames s' where
  keeps := hidles.policy.trans h.keeps
  clock := hidles.instants.trans h.clock
  lastFsync last hlast := by
    rw [hidles.lastFsync] at hlast
    exact Nat.le_trans (h.lastFsync last hlast) (hidles.instant_le (by rw [h.clock]; exact hmono))
  events f hf := Nat.le_trans (h.events f hf) hidles.history.length_le
  always hpolicy f hf := (h.always hpolicy f hf).advance hidles.toAdvances
  periodic d hpolicy f hf := by
    rcases h.periodic d hpolicy f hf with hcovers | ⟨last, hlast, hle⟩
    · exact .inl (hcovers.advance hidles.toAdvances)
    · exact .inr ⟨last, hidles.lastFsync.trans hlast, hle⟩

theorem Timely.fsyncs (h : Timely policy instants frames s)
    (hframes : ∀ f ∈ frames', f.events ≤ s.2.history.length) (hfsyncs : Fsyncs s s') :
    Timely policy instants frames' s' where
  keeps := hfsyncs.policy.trans h.keeps
  clock := hfsyncs.instants.trans h.clock
  lastFsync last hlast := by
    rw [hfsyncs.lastFsync] at hlast
    rw [Option.some.inj hlast]
  events f hf := Nat.le_trans (hframes f hf) hfsyncs.history.length_le
  always _ f hf := hfsyncs.covers (hframes f hf)
  periodic _ _ f hf := .inl (hfsyncs.covers (hframes f hf))

theorem Timely.events_snoc (h : Timely policy instants frames s) :
    ∀ f ∈ frames ++ [s.lastFrame], f.events ≤ s.2.history.length :=
  List.forall_mem_append.mpr ⟨h.events, by simp [lastFrame]⟩

theorem Timely.snoc (h : Timely policy instants frames s)
    (hdue : s.1.due s.2.instant = false) :
    Timely policy instants (frames ++ [s.lastFrame]) s where
  keeps := h.keeps
  clock := h.clock
  lastFsync := h.lastFsync
  events := h.events_snoc
  always hpolicy := by
    rw [due, h.keeps, hpolicy] at hdue
    cases hdue
  periodic d hpolicy := by
    refine List.forall_mem_append.mpr ⟨h.periodic d hpolicy, ?_⟩
    rw [List.forall_mem_singleton]
    rw [due, h.keeps, hpolicy] at hdue
    cases hlast : s.1.lastFsync with
    | none =>
      rw [hlast] at hdue
      cases hdue
    | some last => exact .inr ⟨last, hlast, h.lastFsync last hlast⟩

theorem append_cases {b : Build M} {r : WalRecord M} {s₁ : LogState}
    (hframe : writeFrame b r s = (.ok () s₁ : EStateM.Result (Halt (PersistError ε)) _ _))
    (happend : append b r s = (.ok () s' : EStateM.Result (Halt (PersistError ε)) _ _)) :
    Idles s s₁ ∧ (Fsyncs s₁ s' ∨ s' = s₁ ∧ s₁.1.due s₁.2.instant = false) := by
  have hidles := ends_of_ok (ends_writeFrame b r) hframe
  refine ⟨hidles, ?_⟩
  rw [append_eq_writeFrame] at happend
  change EStateM.bind (writeFrame b r) (fun _ => maybeSync) s = _ at happend
  simp only [EStateM.bind, hframe] at happend
  have hcases := ends_of_ok ends_maybeSync_window happend
  exact hcases

/-- Each operation keeps the frames timely. -/
theorem WalRun.timely {b : Build M} (hstart : Timely policy instants [] s₀)
    (hmono : Monotone instants) (hrun : WalRun ε b s₀ frames s) :
    Timely policy instants frames s := by
  induction hrun with
  | opened => exact hstart
  | append r _ hframe happend ih =>
    obtain ⟨hidles, hfsyncs | ⟨rfl, hdue⟩⟩ := append_cases hframe happend
    · have hwritten := ih.idles hmono hidles
      exact hwritten.fsyncs hwritten.events_snoc hfsyncs
    · exact (ih.idles hmono hidles).snoc hdue
  | refused r e _ he happend ih =>
    exact ih.idles hmono (ends_of_error (ends_append_refused b r) happend he)
  | mark n _ hmark ih =>
    have hidles := ends_of_ok ends_mark_idles hmark
    exact ih.idles hmono hidles
  | rollback n _ hrollback ih =>
    have hfsyncs := ends_of_ok (ends_rollback_fsyncs n) hrollback
    exact ih.fsyncs ih.events hfsyncs
  | reset _ hreset ih =>
    have hfsyncs := ends_of_ok ends_reset_fsyncs hreset
    exact ih.fsyncs ih.events hfsyncs

end Timely

section Window

variable {snapshot : Path} {policy : FsyncPolicy} {w w' : World Path} {wal : Wal}

section Clock

variable (path : Path)

theorem ends_atomically_clock (e : Event Path) : Ends (atomically e) w
    (fun _ w' => w'.instants = w.instants) (fun _ _ => True) :=
  ends_atomically_of (fun _ => rfl) fun _ _ => trivial

theorem ends_observe_clock {α : Type} (look : World Path → Except IoError α) :
    Ends (observe look) w (fun _ w' => w'.instants = w.instants)
      (fun _ w' => w'.instants = w.instants) :=
  ends_observe_of (fun _ _ _ => rfl) (fun _ _ _ => rfl) fun _ _ => rfl

theorem ends_createFile_clock : Ends (FileSystem.create path) w
    (fun _ w' => w'.instants = w.instants) (fun _ _ => True) := by
  rw [FileSystem.create, ends_bind, ends_get]
  split
  · rw [ends_bind]
    exact ends_atomically_clock _
  · exact trivial

theorem ends_openTruncate_clock : Ends (openTruncate path) w
    (fun _ w' => w'.instants = w.instants) (fun _ _ => True) := by
  rw [openTruncate, ends_bind, ends_get]
  split
  · rw [ends_bind]
    exact ends_atomically_clock _
  · exact ends_createFile_clock path

theorem ends_openOrCreate_clock : Ends (openOrCreate path) w
    (fun _ w' => w'.instants = w.instants) (fun _ _ => True) := by
  rw [openOrCreate, ends_bind, ends_get]
  split
  · exact (ends_observe_clock _).mono (fun _ _ h => h) fun _ _ _ => trivial
  · exact ends_createFile_clock path

theorem ends_existsPath_clock : Ends (existsPath path) w
    (fun _ w' => w'.instants = w.instants) (fun _ _ => True) := by
  rw [existsPath, ends_onFailure]
  refine (ends_observe_clock _).mono (fun _ _ h => h) ?_
  rintro (e | _) w' h
  · exact h
  · exact trivial

theorem ends_seekEnd_clock (file : File Path) :
    Ends (withLocal file (do let _end ← File.seekEnd)) w
      (fun _ w' => w'.instants = w.instants) (fun _ _ => True) := by
  rw [ends_withLocal, ends_bind, File.seekEnd, ends_bind, ends_get, ends_bind, ends_beside]
  exact (ends_observe_clock _).mono (fun _ _ h => h) fun _ _ _ => trivial

end Clock

theorem timely_unused (snapshot : Path) (policy : FsyncPolicy) (file : File Path)
    (w : World Path) :
    Timely policy w.instants [] (⟨file, walPath snapshot, policy, none, []⟩, w) :=
  ⟨rfl, rfl, by simp, by simp, fun _ => by simp, fun _ _ => by simp⟩

theorem ends_create_timely : Ends (Wal.create snapshot policy) w
    (fun wal w' => Timely policy w.instants [] (wal, w'))
    (fun (_ : Halt (PersistError ε)) _ => True) := by
  rw [Wal.create, ends_bind]
  refine ends_ioAt_of ((ends_openTruncate_clock _).mono ?_ fun _ _ _ _ _ => trivial)
  intro file w₁ hclock
  have htimely := timely_unused snapshot policy file w₁
  rw [ends_withLocal, ← hclock]
  exact ends_header_fsyncs.mono
    (fun _ _ hfsyncs => htimely.fsyncs htimely.events hfsyncs) fun _ _ _ => trivial

theorem ends_openForAppend_timely : Ends (Wal.openForAppend snapshot policy) w
    (fun wal w' => Timely policy w.instants [] (wal, w'))
    (fun (_ : Halt (PersistError ε)) _ => True) := by
  rw [Wal.openForAppend, ends_bind]
  refine ends_ioAt_of ((ends_existsPath_clock _).mono ?_ fun _ _ _ _ _ => trivial)
  intro existed w₁ hclock₁
  rw [ends_bind]
  refine ends_ioAt_of ((ends_openOrCreate_clock _).mono ?_ fun _ _ _ _ _ => trivial)
  intro file w₂ hclock₂
  rw [ends_bind]
  refine ends_ioAt_of ((ends_seekEnd_clock _).mono ?_ fun _ _ _ _ _ => trivial)
  intro file w₃ hclock₃
  have htimely := timely_unused snapshot policy file w₃
  rw [hclock₃, hclock₂, hclock₁] at htimely
  rw [ends_withLocal]
  split
  · exact htimely
  · exact ends_header_fsyncs.mono
      (fun _ _ hfsyncs => htimely.fsyncs htimely.events hfsyncs) fun _ _ _ => trivial

/-- The window of unsynced records, over every run of a handle: with `Always` there is none when an
operation returns, and with `Periodic` it is shorter than the interval when an append returns. -/
theorem unsynced_window {b : Build M} {frames : List WrittenFrame} {s : LogState}
    (hopen : Wal.create snapshot policy w =
        (.ok wal w' : EStateM.Result (Halt (PersistError ε)) _ _) ∨
      Wal.openForAppend snapshot policy w =
        (.ok wal w' : EStateM.Result (Halt (PersistError ε)) _ _))
    (hmono : Monotone w.instants) (hrun : WalRun ε b (wal, w') frames s) :
    (policy = .always → ∀ f ∈ frames, s.Covers f) ∧
      ∀ d, policy = .periodic d → ∀ (r : WalRecord M) (s₁ s₂ : LogState),
        writeFrame b r s = (.ok () s₁ : EStateM.Result (Halt (PersistError ε)) _ _) →
        append b r s = (.ok () s₂ : EStateM.Result (Halt (PersistError ε)) _ _) →
          ∀ f ∈ frames ++ [s₁.lastFrame], s₂.Covers f ∨ s₁.2.instant < f.reading + d := by
  have hstart : Timely policy w.instants [] (wal, w') := by
    rcases hopen with hcreate | hreopen
    · have hstart := ends_of_ok ends_create_timely hcreate
      exact hstart
    · have hstart := ends_of_ok ends_openForAppend_timely hreopen
      exact hstart
  have htimely := hrun.timely hstart hmono
  refine ⟨htimely.always, ?_⟩
  intro d hpolicy r s₁ s₂ hframe happend f hf
  obtain ⟨hidles, hfsyncs | ⟨rfl, hdue⟩⟩ := append_cases hframe happend
  · have hwritten := htimely.idles hmono hidles
    exact .inl (hfsyncs.covers (hwritten.events_snoc f hf))
  · have hwritten := (htimely.idles hmono hidles).snoc hdue
    rcases hwritten.periodic d hpolicy f hf with hcovers | ⟨last, hlast, hle⟩
    · exact .inl hcovers
    · rw [due, hwritten.keeps, hpolicy, hlast] at hdue
      have hrecent : s₂.2.instant - last < d := by simpa using hdue
      exact .inr (by omega)

end Window

theorem exists_append {b : Build M} {s : LogState} {content : Bytes} (hcalm : s.2.Calm)
    (h : s.At content) {r : WalRecord M} (happ : Appendable b r) : ∃ s₁ s₂,
      writeFrame b r s = (.ok () s₁ : EStateM.Result (Halt (PersistError ε)) _ _) ∧
      append b r s = (.ok () s₂ : EStateM.Result (Halt (PersistError ε)) _ _) ∧
      s₂.2.Calm ∧ s₂.At (content ++ frameOf b r) := by
  have happended : Ends (append b r : Method ε Unit) s
      (fun _ s₂ => s₂.2.Calm ∧ s₂.At (content ++ frameOf b r)) (fun _ _ => False) := by
    refine (ends_append b h r).mono ?_ ?_
    · rintro _ s₂ ⟨-, -, hat, -, hscript, -⟩
      exact ⟨hcalm.drop hscript, hat⟩
    · rintro e s₂ (⟨-, -, -, hstop, -⟩ | ⟨hrefused, -⟩)
      · rw [hcalm.completes] at hstop
        cases hstop
      · exact hrefused happ
  obtain ⟨_, s₂, happend, hcalm₂, hat⟩ := ok_of_ends happended
  cases hframe : (writeFrame b r : Method ε Unit) s with
  | error e s₁ =>
    rw [append_eq_writeFrame] at happend
    change EStateM.bind _ _ _ = _ at happend
    simp only [EStateM.bind, hframe] at happend
    cases happend
  | ok _ s₁ => exact ⟨s₁, s₂, rfl, happend, hcalm₂, hat⟩

theorem exists_created (policy : FsyncPolicy) : ∃ wal w',
    Wal.create nestedPath policy emptyWorld =
      (.ok wal w' : EStateM.Result (Halt (PersistError IdError)) _ _) ∧
    w'.Calm ∧ LogState.At (wal, w') walHeader := by
  have hcreated : Ends (Wal.create nestedPath policy) emptyWorld
      (fun wal w' => Opened nestedPath policy emptyWorld (wal, w') walHeader ∧ w'.script = [])
      (fun (_ : Halt (PersistError IdError)) _ => False) :=
    ends_create.mono (fun _ _ h => h) fun _ _ h => h.2.2 ⟨rfl, rfl⟩
  obtain ⟨wal, w', hcreate, hopened, hscript⟩ := ok_of_ends hcreated
  exact ⟨wal, w', hcreate, hscript, hopened.holds⟩

/-- A delete is appended under `Always`, and two under `Periodic`. -/
theorem unsynced_window_created :
    (∃ wal w' s₁ s₂,
      Wal.create nestedPath .always emptyWorld =
        (.ok wal w' : EStateM.Result (Halt (PersistError IdError)) _ _) ∧
      writeFrame defaultBuild (.delete (.u64 7)) (wal, w') =
        (.ok () s₁ : EStateM.Result (Halt (PersistError IdError)) _ _) ∧
      append defaultBuild (.delete (.u64 7)) (wal, w') =
        (.ok () s₂ : EStateM.Result (Halt (PersistError IdError)) _ _) ∧
      s₂.Covers s₁.lastFrame) ∧
    ∃ wal w' s₁ s₂ s₃ s₄,
      Wal.create nestedPath (.periodic 100) emptyWorld =
        (.ok wal w' : EStateM.Result (Halt (PersistError IdError)) _ _) ∧
      writeFrame defaultBuild (.delete (.u64 7)) (wal, w') =
        (.ok () s₁ : EStateM.Result (Halt (PersistError IdError)) _ _) ∧
      append defaultBuild (.delete (.u64 7)) (wal, w') =
        (.ok () s₂ : EStateM.Result (Halt (PersistError IdError)) _ _) ∧
      writeFrame defaultBuild (.delete (.u64 7)) s₂ =
        (.ok () s₃ : EStateM.Result (Halt (PersistError IdError)) _ _) ∧
      append defaultBuild (.delete (.u64 7)) s₂ =
        (.ok () s₄ : EStateM.Result (Halt (PersistError IdError)) _ _) ∧
      ∀ f ∈ [s₁.lastFrame, s₃.lastFrame], s₄.Covers f ∨ s₃.2.instant < f.reading + 100 := by
  have happ : Appendable defaultBuild (.delete (.u64 7)) := ⟨trivial, by decide⟩
  constructor
  · obtain ⟨wal, w', hcreate, hcalm, hat⟩ := exists_created .always
    obtain ⟨s₁, s₂, hframe, happend, -⟩ := exists_append hcalm hat happ
    have hrun := WalRun.append _ .opened hframe happend
    have hcovers := (unsynced_window (.inl hcreate) monotone_id hrun).1 rfl
    exact ⟨wal, w', s₁, s₂, hcreate, hframe, happend, hcovers _ (by simp)⟩
  · obtain ⟨wal, w', hcreate, hcalm, hat⟩ := exists_created (.periodic 100)
    obtain ⟨s₁, s₂, hframe, happend, hcalm₂, hat₂⟩ := exists_append hcalm hat happ
    obtain ⟨s₃, s₄, hframe', happend', -⟩ := exists_append hcalm₂ hat₂ happ
    have hrun := WalRun.append _ .opened hframe happend
    have hwindow := (unsynced_window (.inl hcreate) monotone_id hrun).2 100 rfl _ s₃ s₄ hframe'
      happend'
    exact ⟨wal, w', s₁, s₂, s₃, s₄, hcreate, hframe, happend, hframe', happend', hwindow⟩

end IqdbPersist
