import IqdbPersist.Emissions
import IqdbPersist.Lifetime

/-!
# The footprint of an index

Whatever is called and however it ends, the crate works on three kinds of files beside each other:
the log, temporary files, and the snapshot, which changes only by a rename of a temporary file onto
it. Every other file keeps its content and stays on the medium.
-/

namespace IqdbPersist

open CrashLogic FileSystem Simulation

variable {ε M I : Type} {b : Build M} {T : IndexType ε M I}

/-- A temporary file of this target. -/
def IsTemp (target temp : Path) : Prop :=
  ∃ name pid nanos, target.fileName = some name ∧
    temp = (targetDir target).join (tempName name pid nanos)

theorem IsTemp.ne_walPath {target temp : Path} (h : IsTemp target temp) :
    temp ≠ walPath target := by
  obtain ⟨name, pid, nanos, hname, rfl⟩ := h
  intro heq
  rw [← Path.join_wal hname] at heq
  exact tempName_ne_wal name pid nanos (Path.join_inj heq)

/-- Work on the log of this snapshot. -/
def LogWork (snapshot : Path) (e : Event Path) : Prop :=
  e = .create (walPath snapshot) ∨ e.WorksOn (walPath snapshot)

theorem LogWork.eq_of_touches {snapshot p : Path} {e : Event Path} (h : LogWork snapshot e)
    (hp : e.Touches p) : p = walPath snapshot := by
  rcases h with rfl | h
  · exact hp
  · exact h.eq_of_touches hp

/-- What the crate does to the files for the index at this path. -/
inductive Footprint (path : Path) : Event Path → Prop where
  | log {e : Event Path} (he : LogWork path e) : Footprint path e
  | tempCreated {temp : Path} (htemp : IsTemp path temp) : Footprint path (.create temp)
  | temp {temp : Path} {e : Event Path} (htemp : IsTemp path temp) (he : e.WorksOn temp) :
      Footprint path e
  | tempRemoved {temp : Path} (htemp : IsTemp path temp) : Footprint path (.remove temp)
  | installed {temp : Path} (htemp : IsTemp path temp) : Footprint path (.rename temp path)
  | dirSynced : Footprint path (.syncDir (targetDir path))

/-- The files of the index at this path. -/
def Own (path p : Path) : Prop := p = path ∨ p = walPath path ∨ IsTemp path p

theorem Footprint.own {path p : Path} {e : Event Path} (h : Footprint path e) (hp : e.Touches p) :
    Own path p := by
  cases h with
  | log he => exact .inr (.inl (he.eq_of_touches hp))
  | tempCreated htemp | tempRemoved htemp =>
    have hp : p = _ := hp
    exact .inr (.inr (hp ▸ htemp))
  | temp htemp he => exact .inr (.inr (he.eq_of_touches hp ▸ htemp))
  | installed htemp =>
    rcases hp with rfl | rfl
    · exact .inr (.inr htemp)
    · exact .inl rfl
  | dirSynced => exact hp.elim

section Storage

variable {A : Event Path → Prop} {path tempPath target : Path} {policy : FsyncPolicy}
  {payload : Bytes} {unix : Bool}

theorem confined_ioAt {σ α : Type} {R : σ → σ → Prop} (hR : Frame R)
    {p : EStateM (Halt IoError) σ α} (hp : Confined R p) :
    Confined R (ioAt path p : EStateM (Halt (PersistError ε)) σ α) :=
  confined_onFailure hR hp fun _ => confined_throw hR _

theorem yields_ioAt {σ α : Type} {R : σ → σ → Prop} {V : α → Prop} (hR : Frame R)
    {p : EStateM (Halt IoError) σ α} (hp : Yields R V p) :
    Yields R V (ioAt path p : EStateM (Halt (PersistError ε)) σ α) :=
  yields_onFailure hR hp fun _ => yields_throw hR _

theorem yields_cleaningUp {α : Type} {V : α → Prop} (hremove : A (.remove tempPath))
    {p : EStateM (Halt IoError) (World Path) α} (hp : Yields (Emitted A) V p) :
    Yields (Emitted A) V (cleaningUp tempPath p : EStateM (Halt (PersistError ε)) _ α) := by
  have hR := emitted_frame A
  refine yields_onFailure hR hp fun _ => ?_
  refine (confined_onFailure hR (confined_removeFile hremove) fun _ =>
    confined_pure hR ()).bind_yields hR fun _ => yields_throw hR _

theorem yields_withFile {file : File Path} {p : Proc Path IoError (File Path) Unit}
    (hp : Confined HandleEmitted p) (hA : ∀ e, e.WorksOn file.path → A e) :
    Yields (Emitted A) (·.path = file.path) (withLocal file p) :=
  yields_withLocal hp file fun _ _ h => ⟨h.world.mono hA, h.path⟩

theorem confined_writeTemp (hcreate : A (.create tempPath)) (hremove : A (.remove tempPath))
    (hworks : ∀ e, e.WorksOn tempPath → A e) :
    Confined (Emitted A)
      (writeTemp tempPath payload policy : EStateM (Halt (PersistError ε)) _ Unit) := by
  have hR := emitted_frame A
  refine (yields_ioAt hR (yields_createNew hcreate)).bind_confined hR ?_
  rintro file rfl
  refine (yields_cleaningUp hremove (yields_withFile (File.confined_writeAll payload)
    hworks)).bind_confined hR ?_
  intro file' hfile'
  split
  · refine (yields_cleaningUp hremove (yields_withFile File.confined_syncAll ?_)).bind_confined hR
      fun _ _ => confined_pure hR ()
    exact fun e he => hworks e (hfile' ▸ he)
  · exact confined_pure hR ()

theorem confined_syncParent {dir : Path} (hA : A (.syncDir dir)) :
    Confined (Emitted A) (syncParent unix dir policy : EStateM (Halt (PersistError ε)) _ Unit) := by
  have hR := emitted_frame A
  unfold syncParent
  split
  · exact (confined_ioAt hR (confined_openDir dir)).bind hR fun _ =>
      confined_ioAt hR (confined_syncDir hA)
  · exact confined_pure hR ()

theorem confined_writeAtomic_of (hsync : A (.syncDir (targetDir target)))
    (htemp : ∀ temp, IsTemp target temp → A (.create temp) ∧ A (.remove temp) ∧
      A (.rename temp target) ∧ ∀ e, e.WorksOn temp → A e) :
    Confined (Emitted A)
      (writeAtomic unix target payload policy : EStateM (Halt (PersistError ε)) _ Unit) := by
  have hR := emitted_frame A
  unfold writeAtomic
  cases hname : target.fileName with
  | none => exact confined_throw hR _
  | some name =>
    refine confined_get_bind fun w => ?_
    obtain ⟨hcreate, hremove, hrename, hworks⟩ := htemp _ ⟨name, w.pid, w.systemTime, hname, rfl⟩
    refine (confined_writeTemp hcreate hremove hworks).bind hR fun _ => ?_
    refine (yields_cleaningUp (V := fun _ => True) hremove ?_).confined.bind hR
      fun _ => confined_syncParent hsync
    exact fun s => (confined_rename hrename s).mono (fun _ _ h => ⟨h, trivial⟩)
      fun _ _ h => h

theorem confined_writeAtomic : Confined (Emitted (Footprint target))
    (writeAtomic unix target payload policy : EStateM (Halt (PersistError ε)) _ Unit) :=
  confined_writeAtomic_of .dirSynced fun _ htemp =>
    ⟨.tempCreated htemp, .tempRemoved htemp, .installed htemp, fun _ he => .temp htemp he⟩

end Storage

section Log

variable {snapshot : Path} {policy : FsyncPolicy}

/-- Work on the file of the log. -/
structure LogEmitted (s s' : LogState) : Prop where
  filePath : s'.1.file.path = s.1.file.path
  world : Emitted (·.WorksOn s.1.file.path) s.2 s'.2

theorem logEmitted_frame : Frame LogEmitted where
  refl s := ⟨rfl, .refl _ s.2⟩
  trans := by
    intro s t u h h'
    refine ⟨h'.filePath.trans h.filePath, (emitted_frame _).trans h.world ?_⟩
    rw [← h.filePath]
    exact h'.world

namespace Wal

theorem confined_onFile {α : Type} {p : Proc Path IoError (File Path) α}
    (hp : Confined HandleEmitted p) : Confined LogEmitted (onFile p : Method ε α) :=
  confined_get_bind fun _ => confined_ioAt logEmitted_frame
    (confined_within hp fun _ _ h => ⟨h.path, h.world⟩)

theorem confined_onScratch {α : Type} (p : EStateM (PersistError ε) Bytes α) :
    Confined LogEmitted (onScratch p) := by
  refine confined_uninterrupted (confined_within (R := fun _ _ => True) ?_ ?_)
  · exact fun s => by unfold Ends; split <;> trivial
  · exact fun s _ _ => ⟨rfl, .refl _ s.2⟩

theorem confined_syncNow : Confined LogEmitted (syncNow : Method ε Unit) :=
  (confined_onFile File.confined_syncAll).bind logEmitted_frame fun _ =>
    confined_modify fun s => ⟨rfl, .refl _ s.2⟩

theorem confined_writeHeader : Confined LogEmitted (writeHeader : Method ε Unit) :=
  confined_onFile (File.confined_writeAll walHeader)

theorem confined_maybeSync : Confined LogEmitted (maybeSync : Method ε Unit) := by
  refine confined_get_bind fun s => ?_
  split
  · exact confined_syncNow
  · exact confined_pure logEmitted_frame ()

theorem confined_commitRecord : Confined LogEmitted (commitRecord b : Method ε Unit) := by
  have hR := logEmitted_frame
  exact confined_get_bind fun s => (confined_uninterrupted (confined_settle hR _)).bind hR fun _ =>
    (confined_onFile (File.confined_writeAll _)).bind hR fun _ =>
      (confined_onFile (File.confined_writeAll _)).bind hR fun _ => confined_maybeSync

theorem confined_append (r : WalRecord M) : Confined LogEmitted (append b r : Method ε Unit) := by
  cases r with
  | insert | delete =>
    exact (confined_onScratch _).bind logEmitted_frame fun _ => confined_commitRecord

theorem confined_rollback (mark : ℕ) : Confined LogEmitted (rollback mark : Method ε Unit) := by
  have hR := logEmitted_frame
  exact (confined_onFile (File.confined_setLen mark)).bind hR fun _ =>
    (confined_onFile (File.confined_seekStart mark)).bind hR fun _ => confined_syncNow

theorem confined_reset : Confined LogEmitted (reset : Method ε Unit) := by
  have hR := logEmitted_frame
  exact (confined_onFile (File.confined_setLen 0)).bind hR fun _ =>
    (confined_onFile (File.confined_seekStart 0)).bind hR fun _ =>
      confined_writeHeader.bind hR fun _ => confined_syncNow

theorem yields_withWal {file : File Path} {p : Method ε Unit} (hp : Confined LogEmitted p)
    (hfile : file.path = walPath snapshot) :
    Yields (Emitted (LogWork snapshot)) (·.file.path = walPath snapshot)
      (withLocal ⟨file, walPath snapshot, policy, none, []⟩ p) := by
  refine yields_withLocal hp _ fun _ _ h => ⟨h.world.mono ?_, h.filePath.trans hfile⟩
  exact fun e he => .inr (hfile ▸ he)

theorem yields_create : Yields (Emitted (LogWork snapshot)) (·.file.path = walPath snapshot)
    (create snapshot policy : EStateM (Halt (PersistError ε)) _ Wal) := by
  have hR := emitted_frame (LogWork snapshot)
  refine (yields_ioAt hR (yields_openTruncate (.inl rfl) (.inr rfl))).bind hR ?_
  intro file hfile
  exact yields_withWal (confined_writeHeader.bind logEmitted_frame fun _ => confined_syncNow) hfile

theorem yields_openForAppend :
    Yields (Emitted (LogWork snapshot)) (·.file.path = walPath snapshot)
      (openForAppend snapshot policy : EStateM (Halt (PersistError ε)) _ Wal) := by
  have hR := emitted_frame (LogWork snapshot)
  refine (confined_ioAt hR (confined_existsPath _)).bind_yields hR fun existed => ?_
  refine (yields_ioAt hR (yields_openOrCreate (.inl rfl))).bind hR fun file hfile => ?_
  refine (yields_ioAt hR (yields_withFile (File.confined_seekEnd.map handleEmitted_frame _)
    ?_)).bind hR fun file' hfile' => ?_
  · exact fun e he => .inr (hfile ▸ he)
  · refine yields_withWal ?_ (hfile'.trans hfile)
    split
    · exact confined_pure logEmitted_frame ()
    · exact confined_writeHeader.bind logEmitted_frame fun _ => confined_syncNow

end Wal

end Log

end IqdbPersist
