import IqdbPersist.CrashLogic
import IqdbPersist.LittleEndian
import Mathlib.Logic.Function.Basic

/-!
# Files, and an environment that may fail or stop any operation

A world is the files at some starting point and the events that have happened to them since; the
present contents are the events replayed. Before each operation the environment says whether the
operation completes, returns an error, or is cut by the machine stopping, and for a write how many
bytes arrive all the same; an exhausted script lets everything complete. Programs may also look at
clocks, whose readings the world fixes.
-/

namespace FileSystem

open CrashLogic

variable {P : Type}

inductive IoError where
  | notFound
  | alreadyExists
  | invalidInput
  | other
  deriving DecidableEq, Repr

/-- What the environment lets one operation do. The number of a write is how many of its bytes
arrive; any other operation that is cut has taken effect when its number is not zero. -/
inductive Verdict where
  | done
  | fails (n : ℕ)
  | cut (n : ℕ)
  deriving DecidableEq, Repr

/-- Whether an operation other than a write changes the files. -/
def Verdict.effective : Verdict → Bool
  | .done => true
  | .fails _ => false
  | .cut n => n != 0

/-- The next `n` operations complete. -/
def completes : List Verdict → ℕ → Bool
  | _, 0 => true
  | script, n + 1 => script.headD .done == .done && completes script.tail n

/-- Whether a program's operation number `i`, not a write, changes the files: those before it must
have completed. -/
def takesEffect (script : List Verdict) (i : ℕ) : Bool :=
  completes script i && ((script.drop i).headD .done).effective

/-- How many bytes arrive in all when a program's next operations are writes of these lengths. -/
def arrived : List Verdict → List ℕ → ℕ
  | _, [] => 0
  | script, len :: lens =>
    match script.headD .done with
    | .done => len + arrived script.tail lens
    | .fails n | .cut n => min n len

inductive Event (P : Type) where
  | create (path : P)
  | write (path : P) (pos : ℕ) (bytes : Bytes)
  | setLen (path : P) (len : ℕ)
  | sync (path : P)
  | rename (source target : P)
  | remove (path : P)
  | syncDir (path : P)
  deriving DecidableEq

/-- `bytes` written at `pos`; a gap before `pos` reads as zeros. -/
def overwrite (content : Bytes) (pos : ℕ) (bytes : Bytes) : Bytes :=
  (content.take pos ++ List.replicate (pos - content.length) 0) ++ bytes ++
    content.drop (pos + bytes.length)

def resize (content : Bytes) (len : ℕ) : Bytes :=
  content.take len ++ List.replicate (len - content.length) 0

@[simp] theorem overwrite_end (content bytes : Bytes) :
    overwrite content content.length bytes = content ++ bytes := by
  simp [overwrite]

@[simp] theorem resize_zero (content : Bytes) : resize content 0 = [] := by simp [resize]

theorem resize_append (content bytes : Bytes) :
    resize (content ++ bytes) content.length = content := by
  simp [resize]

abbrev Files (P : Type) := P → Option Bytes

def Event.apply [DecidableEq P] (files : Files P) : Event P → Files P
  | .create path => Function.update files path (some [])
  | .write path pos bytes => Function.update files path ((files path).map (overwrite · pos bytes))
  | .setLen path len => Function.update files path ((files path).map (resize · len))
  | .rename source target =>
      Function.update (Function.update files target (files source)) source none
  | .remove path => Function.update files path none
  | .sync _ | .syncDir _ => files

structure World (P : Type) where
  base : Files P
  /-- Paths that open as directories. -/
  dirs : P → Bool
  /-- Paths whose containing directory exists and allows new entries. -/
  permits : P → Bool
  history : List (Event P)
  script : List Verdict
  /-- How many operations have consulted the script. -/
  ticks : ℕ
  instants : ℕ → ℕ
  systemTimes : ℕ → ℕ
  pid : ℕ

namespace World

def verdict (w : World P) : Verdict := w.script.headD .done

def next (w : World P) : World P := { w with script := w.script.tail, ticks := w.ticks + 1 }

def emit (w : World P) (e : Event P) : World P := { w with history := w.history ++ [e] }

/-- The same files, met by another environment. -/
def withScript (w : World P) (script : List Verdict) : World P := { w with script := script }

/-- The environment lets every operation complete. -/
def Calm (w : World P) : Prop := w.script = []

/-- `Instant::now`, as the clock stands after the operations so far. -/
def instant (w : World P) : ℕ := w.instants w.ticks

/-- `SystemTime::now`, likewise. -/
def systemTime (w : World P) : ℕ := w.systemTimes w.ticks

@[simp] theorem script_next (w : World P) : w.next.script = w.script.tail := rfl
@[simp] theorem script_emit (w : World P) (e : Event P) : (w.emit e).script = w.script := rfl
@[simp] theorem dirs_next (w : World P) : w.next.dirs = w.dirs := rfl
@[simp] theorem dirs_emit (w : World P) (e : Event P) : (w.emit e).dirs = w.dirs := rfl
@[simp] theorem permits_next (w : World P) : w.next.permits = w.permits := rfl
@[simp] theorem permits_emit (w : World P) (e : Event P) : (w.emit e).permits = w.permits := rfl

@[simp] theorem script_withScript (w : World P) (v : List Verdict) :
    (w.withScript v).script = v := rfl

theorem Calm.verdict {w : World P} (h : w.Calm) : w.verdict = .done := by
  rw [World.verdict, show w.script = [] from h]
  rfl

theorem Calm.next {w : World P} (h : w.Calm) : w.next.Calm := by
  change w.script.tail = []
  rw [show w.script = [] from h]
  rfl

variable [DecidableEq P]

def files (w : World P) : Files P := w.history.foldl Event.apply w.base

@[simp] theorem files_next (w : World P) : w.next.files = w.files := rfl

@[simp] theorem files_withScript (w : World P) (v : List Verdict) :
    (w.withScript v).files = w.files := rfl

@[simp] theorem files_emit (w : World P) (e : Event P) : (w.emit e).files = e.apply w.files := by
  simp only [files, emit, List.foldl_append, List.foldl_cons, List.foldl_nil]

end World

/-- A program over the file system. -/
abbrev Proc (P ε σ α : Type) := EStateM (Halt ε) (σ × World P) α

/-- An operation that takes effect wholly or not at all. -/
def atomically (e : Event P) : EStateM (Halt IoError) (World P) Unit := fun w =>
  match w.verdict with
  | .done => .ok () (w.next.emit e)
  | .fails _ => .error (.failed .other) w.next
  | .cut n => .error .crashed (if n = 0 then w.next else w.next.emit e)

/-- An operation that changes no file. -/
def observe {α : Type} (look : World P → Except IoError α) : EStateM (Halt IoError) (World P) α :=
  fun w =>
  match w.verdict with
  | .done => uninterrupted (settle (look w)) w.next
  | .fails _ => .error (.failed .other) w.next
  | .cut _ => .error .crashed w.next

/-- An open file: which file, and where the next read or write starts. -/
structure File (P : Type) where
  path : P
  pos : ℕ

namespace File

/-- A file system operation, run beside an open file. -/
def beside {α : Type} (p : EStateM (Halt IoError) (World P) α) : Proc P IoError (File P) α :=
  within Prod.snd (fun w s => (s.1, w)) p

/-- `write_all`: the position moves past the bytes that arrived, also when not all did. -/
def writeAll (bytes : Bytes) : Proc P IoError (File P) Unit := fun s =>
  let arrived (n : ℕ) : File P := { s.1 with pos := s.1.pos + (bytes.take n).length }
  let written (n : ℕ) : World P := s.2.next.emit (.write s.1.path s.1.pos (bytes.take n))
  match s.2.verdict with
  | .done => .ok () (arrived bytes.length, written bytes.length)
  | .fails n => .error (.failed .other) (arrived n, written n)
  | .cut n => .error .crashed (arrived n, written n)

def setLen (len : ℕ) : Proc P IoError (File P) Unit := do
  beside (atomically (.setLen (← get).1.path len))

def syncAll : Proc P IoError (File P) Unit := do
  beside (atomically (.sync (← get).1.path))

def streamPosition : Proc P IoError (File P) ℕ := do
  let pos := (← get).1.pos
  beside (observe fun _ => .ok pos)

def seekStart (pos : ℕ) : Proc P IoError (File P) ℕ := do
  beside (observe fun _ => .ok ())
  modify fun s => ({ s.1 with pos := pos }, s.2)
  pure pos

end File

variable [DecidableEq P]

/-- `fs::read` -/
def readFile (path : P) : EStateM (Halt IoError) (World P) Bytes :=
  observe fun w => match w.files path with
    | some content => .ok content
    | none => .error .notFound

/-- A lookup that fails says that the path does not exist. -/
def existsPath (path : P) : EStateM (Halt IoError) (World P) Bool :=
  onFailure (observe fun w => .ok (w.files path).isSome) fun _ => pure false

/-- Make a new, empty file. -/
def create (path : P) : EStateM (Halt IoError) (World P) (File P) := do
  if (← get).permits path then
    atomically (.create path)
    pure ⟨path, 0⟩
  else throw (.failed .notFound)

/-- `create(true).truncate(true)` -/
def openTruncate (path : P) : EStateM (Halt IoError) (World P) (File P) := do
  if ((← get).files path).isSome then
    atomically (.setLen path 0)
    pure ⟨path, 0⟩
  else create path

/-- `create(true).truncate(false)` -/
def openOrCreate (path : P) : EStateM (Halt IoError) (World P) (File P) := do
  if ((← get).files path).isSome then observe fun _ => .ok ⟨path, 0⟩
  else create path

/-- `create_new(true)` -/
def createNew (path : P) : EStateM (Halt IoError) (World P) (File P) := do
  if ((← get).files path).isSome then throw (.failed .alreadyExists)
  else create path

def openDir (path : P) : EStateM (Halt IoError) (World P) Unit :=
  observe fun w => if w.dirs path then .ok () else .error .notFound

def syncDir (path : P) : EStateM (Halt IoError) (World P) Unit := atomically (.syncDir path)

def rename (source target : P) : EStateM (Halt IoError) (World P) Unit := do
  if ((← get).files source).isSome then atomically (.rename source target)
  else throw (.failed .notFound)

def removeFile (path : P) : EStateM (Halt IoError) (World P) Unit := do
  if ((← get).files path).isSome then atomically (.remove path)
  else throw (.failed .notFound)

namespace File

def seekEnd : Proc P IoError (File P) ℕ := do
  let path := (← get).1.path
  let len ← beside (observe fun w => .ok (((w.files path).map List.length).getD 0))
  modify fun s => ({ s.1 with pos := len }, s.2)
  pure len

end File

end FileSystem
