import IqdbPersist.Storage
import IqdbPersist.WalParse

/-!
# The write-ahead log

The live log: a file handle, the fsync policy and the buffer in which records are framed. Its
methods are programs over the log and the world; the rules at the end say where one file operation
of a method leads under each verdict of the environment.
-/

namespace IqdbPersist

open CrashLogic FileSystem LittleEndian

variable {ε M : Type}

/-- The log path beside a snapshot: `.wal` appended to the file name. -/
def walPath (snapshot : Path) : Path where
  absolute := snapshot.absolute
  components := match snapshot.components.getLast? with
    | some name => snapshot.components.dropLast ++ [name ++ ".wal"]
    | none => [".wal"]

structure Wal where
  file : File Path
  path : Path
  policy : FsyncPolicy
  lastFsync : Option ℕ
  scratch : Bytes

/-- The log and the world it lives in. -/
abbrev LogState := Wal × World Path

namespace Wal

/-- A method of the log. -/
abbrev Method (ε α : Type) := EStateM (Halt (PersistError ε)) LogState α

/-- An operation on the log's file. -/
def onFile {α : Type} (p : Proc Path IoError (File Path) α) : Method ε α := do
  let path := (← get).1.path
  ioAt path (within (fun s => (s.1.file, s.2)) (fun t s => ({ s.1 with file := t.1 }, t.2)) p)

/-- An operation on the scratch buffer. -/
def onScratch {α : Type} (p : EStateM (PersistError ε) Bytes α) : Method ε α :=
  uninterrupted (within (fun s => s.1.scratch) (fun t s => ({ s.1 with scratch := t }, s.2)) p)

def syncNow : Method ε Unit := do
  onFile File.syncAll
  modify fun s => ({ s.1 with lastFsync := some s.2.instant }, s.2)

/-- Whether `maybe_sync` finds an fsync due at the clock reading `now`. -/
def due (wal : Wal) (now : ℕ) : Bool :=
  match wal.policy with
  | .always => true
  | .never => false
  | .periodic interval => match wal.lastFsync with
    | some last => interval ≤ now - last
    | none => true

def maybeSync : Method ε Unit := do
  let s ← get
  if s.1.due s.2.instant then syncNow else pure ()

def writeHeader : Method ε Unit := onFile (File.writeAll walHeader)

def create (snapshot : Path) (policy : FsyncPolicy) :
    EStateM (Halt (PersistError ε)) (World Path) Wal := do
  let path := walPath snapshot
  let file ← ioAt path (openTruncate path)
  withLocal { file, path, policy, lastFsync := none, scratch := [] } do
    writeHeader
    syncNow

def openForAppend (snapshot : Path) (policy : FsyncPolicy) :
    EStateM (Halt (PersistError ε)) (World Path) Wal := do
  let path := walPath snapshot
  let existed ← ioAt path (existsPath path)
  let file ← ioAt path (openOrCreate path)
  let file ← ioAt path (withLocal file (do let _end ← File.seekEnd))
  withLocal { file, path, policy, lastFsync := none, scratch := [] } do
    if existed then pure ()
    else do
      writeHeader
      syncNow

def reset : Method ε Unit := do
  onFile (File.setLen 0)
  let _pos ← onFile (File.seekStart 0)
  writeHeader
  syncNow

variable (b : Build M)

def commitRecord : Method ε Unit := do
  let scratch := (← get).1.scratch
  let bodyLen ← uninterrupted (settle
    (u32TryFrom scratch.length "WAL record length does not fit in u32"))
  let crc := b.crc32 scratch
  onFile (File.writeAll (encode 4 bodyLen.toNat ++ encode 4 crc.toNat))
  onFile (File.writeAll scratch)
  maybeSync

def appendInsert (id : VectorId) (vector : List F32) (metadata : Option M) : Method ε Unit := do
  onScratch (encodeInsert b.metadata id vector metadata)
  commitRecord b

def appendDelete (id : VectorId) : Method ε Unit := do
  onScratch (encodeDelete id)
  commitRecord b

/-- Append either kind of mutation. -/
def append : WalRecord M → Method ε Unit
  | .insert id vector metadata => appendInsert b id vector metadata
  | .delete id => appendDelete b id

def mark : Method ε ℕ := onFile File.streamPosition

def rollback (mark : ℕ) : Method ε Unit := do
  onFile (File.setLen mark)
  let _pos ← onFile (File.seekStart mark)
  syncNow

end Wal

namespace LogState

/-- Where a write of `bytes` leads. -/
def wrote (s : LogState) (bytes : Bytes) : LogState :=
  ({ s.1 with file := ⟨s.1.file.path, s.1.file.pos + bytes.length⟩ },
    s.2.next.emit (.write s.1.file.path s.1.file.pos bytes))

def resized (s : LogState) (len : ℕ) : LogState := (s.1, s.2.next.emit (.setLen s.1.file.path len))

def sought (s : LogState) (pos : ℕ) : LogState :=
  ({ s.1 with file := ⟨s.1.file.path, pos⟩ }, s.2.next)

def synced (s : LogState) : LogState := (s.1, s.2.next.emit (.sync s.1.file.path))

/-- An operation went by without effect. -/
def skipped (s : LogState) : LogState := (s.1, s.2.next)

end LogState

section Operations

open Wal LogState

variable {s : LogState} {E : Halt (PersistError ε) → LogState → Prop}

theorem ends_onFile {α : Type} {Q : α → LogState → Prop} (p : Proc Path IoError (File Path) α) :
    Ends (onFile p) s Q E ↔ Ends p (s.1.file, s.2)
      (fun a t => Q a ({ s.1 with file := t.1 }, t.2))
      (fun e t => e.elim
        (fun source => E (.failed (.io s.1.path source)) ({ s.1 with file := t.1 }, t.2))
        (E .crashed ({ s.1 with file := t.1 }, t.2))) := by
  simp only [onFile, ends_bind, ends_get, ends_ioAt, ends_within]

theorem ends_writeLog {Q : Unit → LogState → Prop} (bytes : Bytes) :
    Ends (onFile (File.writeAll bytes)) s Q E ↔ match s.2.verdict with
      | .done => Q () (s.wrote bytes)
      | .fails n => E (.failed (.io s.1.path .other)) (s.wrote (bytes.take n))
      | .cut n => E .crashed (s.wrote (bytes.take n)) := by
  rw [ends_onFile, ends_writeAll]
  cases s.2.verdict <;> rfl

theorem ends_logEvent {Q : Unit → LogState → Prop} (e : Path → Event Path) :
    Ends (onFile (do File.beside (atomically (e (← get).1.path)))) s Q E ↔
      match s.2.verdict with
      | .done => Q () (s.1, s.2.next.emit (e s.1.file.path))
      | .fails _ => E (.failed (.io s.1.path .other)) s.skipped
      | .cut n => E .crashed
          (if n = 0 then s.skipped else (s.1, s.2.next.emit (e s.1.file.path))) := by
  simp only [ends_onFile, ends_bind, ends_get, ends_beside, ends_atomically]
  cases s.2.verdict with
  | done => rfl
  | fails n => rfl
  | cut n => by_cases hn : n = 0 <;> simp only [hn, if_true, if_false] <;> rfl

theorem ends_setLen {Q : Unit → LogState → Prop} (len : ℕ) :
    Ends (onFile (File.setLen len)) s Q E ↔ match s.2.verdict with
      | .done => Q () (s.resized len)
      | .fails _ => E (.failed (.io s.1.path .other)) s.skipped
      | .cut n => E .crashed (if n = 0 then s.skipped else s.resized len) :=
  ends_logEvent (.setLen · len)

theorem ends_syncAll {Q : Unit → LogState → Prop} :
    Ends (onFile File.syncAll) s Q E ↔ match s.2.verdict with
      | .done => Q () s.synced
      | .fails _ => E (.failed (.io s.1.path .other)) s.skipped
      | .cut n => E .crashed (if n = 0 then s.skipped else s.synced) :=
  ends_logEvent .sync

theorem ends_seekStart {Q : ℕ → LogState → Prop} (pos : ℕ) :
    Ends (onFile (File.seekStart pos)) s Q E ↔ match s.2.verdict with
      | .done => Q pos (s.sought pos)
      | .fails _ => E (.failed (.io s.1.path .other)) s.skipped
      | .cut _ => E .crashed s.skipped := by
  simp only [ends_onFile, File.seekStart, ends_bind, ends_beside, ends_observe, ends_modify,
    ends_pure]
  cases s.2.verdict <;> rfl

theorem ends_streamPosition {Q : ℕ → LogState → Prop} :
    Ends (onFile File.streamPosition) s Q E ↔ match s.2.verdict with
      | .done => Q s.1.file.pos s.skipped
      | .fails _ => E (.failed (.io s.1.path .other)) s.skipped
      | .cut _ => E .crashed s.skipped := by
  simp only [ends_onFile, File.streamPosition, ends_bind, ends_get, ends_beside, ends_observe]
  cases s.2.verdict <;> rfl

@[simp] theorem ends_onScratch {α : Type} {Q : α → LogState → Prop}
    (p : EStateM (PersistError ε) Bytes α) :
    Ends (onScratch p) s Q E ↔ Ends p s.1.scratch
      (fun a t => Q a ({ s.1 with scratch := t }, s.2))
      (fun e t => E (.failed e) ({ s.1 with scratch := t }, s.2)) := by
  simp only [onScratch, ends_uninterrupted, ends_within]

end Operations

end IqdbPersist
