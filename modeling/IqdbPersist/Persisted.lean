import IqdbPersist.AtomicWrite
import IqdbPersist.Recovery
import IqdbPersist.Snapshot
import IqdbPersist.WalLifecycle

/-!
# The persisted index

An index with its configuration and, in log mode, its live log. Opening writes a base snapshot and
a fresh log; a mutation is logged, applied and, if the index rejects it, rolled back; a checkpoint
writes a snapshot and resets the log; loading replays the log onto the snapshot.
-/

namespace IqdbPersist

open CrashLogic FileSystem

variable {ε M I : Type} (b : Build M) (T : IndexType ε M I)

structure PersistedIndex (I : Type) where
  inner : I
  config : PersistConfig
  wal : Option Wal

namespace PersistedIndex

/-- A persisted index and the world it lives in. -/
abbrev Session (I : Type) := PersistedIndex I × World Path

/-- A method of the persisted index. -/
abbrev Method (ε I α : Type) := EStateM (Halt (PersistError ε)) (Session I) α

def writeSnapshot (this : PersistedIndex I) :
    EStateM (Halt (PersistError ε)) (World Path) Unit := do
  let full ← uninterrupted (settle (snapshotBytes b T this.inner this.config))
  writeAtomic b.unix this.config.path full this.config.fsyncPolicy

def openWith (inner : I) (config : PersistConfig) :
    EStateM (Halt (PersistError ε)) (World Path) (PersistedIndex I) := do
  uninterrupted (settle (validateConfig b config))
  let this : PersistedIndex I := { inner, config, wal := none }
  if this.config.walEnabled then do
    writeSnapshot b T this
    let wal ← Wal.create this.config.path this.config.fsyncPolicy
    pure { this with wal := some wal }
  else pure this

def load (config : PersistConfig) :
    EStateM (Halt (PersistError ε)) (World Path) (PersistedIndex I) := do
  uninterrupted (settle (validateConfig b config))
  let bytes ← ioAt config.path (readFile config.path)
  let inner ← uninterrupted (settle (decodeSnapshot b T bytes))
  let this : PersistedIndex I := { inner, config, wal := none }
  if this.config.walEnabled then do
    let inner ← withLocal this.inner (do let _applied ← replay b T this.config.path)
    let wal ← Wal.openForAppend this.config.path this.config.fsyncPolicy
    pure { this with inner, wal := some wal }
  else pure this

/-- A step of a mutation that concerns the log. -/
def onLog {α : Type} (p : Wal.Method ε α) : EStateM (Halt (PersistError ε)) (I × LogState) α :=
  within Prod.snd (fun t s => (s.1, t)) p

/-- The log branch of `insert` and `delete`. -/
def logged (append : Wal.Method ε Unit) (apply : I → Except ε Unit × I) :
    EStateM (Halt (PersistError ε)) (I × LogState) Unit := do
  let mark ← onLog Wal.mark
  onLog append
  match apply (← get).1 with
  | (.ok (), x) => modify fun s => (x, s.2)
  | (.error e, x) => do
    modify fun s => (x, s.2)
    onLog (Wal.rollback mark)
    throw (.failed (.indexBuild e))

/-- What `insert` and `delete` share. -/
def mutate (append : Wal.Method ε Unit) (apply : I → Except ε Unit × I) : Method ε I Unit := do
  match (← get).1.wal with
  | some wal =>
    within (fun s => (s.1.inner, (wal, s.2)))
      (fun t s => ({ s.1 with inner := t.1, wal := some t.2.1 }, t.2.2)) (logged append apply)
  | none =>
    uninterrupted (within (fun s => s.1.inner) (fun x s => ({ s.1 with inner := x }, s.2))
      (onIndex apply))

def insert (id : VectorId) (vector : List F32) (metadata : Option M) : Method ε I Unit :=
  mutate (Wal.appendInsert b id vector metadata) (T.insert id vector metadata)

def delete (id : VectorId) : Method ε I Unit := mutate (Wal.appendDelete b id) (T.delete id)

/-- Either kind of mutation. -/
def mutation : WalRecord M → Method ε I Unit
  | .insert id vector metadata => insert b T id vector metadata
  | .delete id => delete b T id

def save : Method ε I Unit := do
  let this := (← get).1
  within Prod.snd (fun w s => (s.1, w)) (writeSnapshot b T this)

def checkpoint : Method ε I Unit := do
  let this := (← get).1
  within Prod.snd (fun w s => (s.1, w)) (writeSnapshot b T this)
  match this.wal with
  | some wal =>
    within (fun s => (wal, s.2)) (fun t s => ({ s.1 with wal := some t.1 }, t.2)) Wal.reset
  | none => pure ()

/-- Loading from these files succeeds and gives the index `x`. -/
def Recovers (config : PersistConfig) (w : World Path) (x : I) : Prop :=
  ∃ this w', load b T config (w.withScript []) = .ok this w' ∧ this.inner = x

/-- Loading from these files returns an error. -/
def Refuses (config : PersistConfig) (w : World Path) : Prop :=
  ∃ e w', load b T config (w.withScript []) = .error (.failed e) w'

theorem mutation_eq (r : WalRecord M) :
    mutation b T r = mutate (Wal.append b r) (T.apply r) := by
  cases r <;> rfl

end PersistedIndex

end IqdbPersist
