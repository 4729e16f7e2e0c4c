import IqdbPersist.Restarting

/-!
# The whole interface, in outline

An index that is opened, loaded, called and dropped in any order, in either mode, is an index in
memory, the index of the last snapshot and a list of mutations. A log is neither read nor changed
while the index is open without it, and is replayed, on whatever snapshot stands beside it by then,
by the next load that asks for it. What the environment cuts short has come to one of a few stages.
-/

namespace IqdbPersist

open CrashLogic FileSystem LogState Simulation

variable {ε M I : Type}

namespace PersistedIndex

/-- What there is of an index: what its snapshot is a snapshot of, the mutations in its log, and
the index in memory, with whether it is logged. -/
structure Outline (M I : Type) where
  snapshot : Option I
  log : Option (List (WalRecord M))
  memory : Option (I × Bool)

namespace Outline

variable (T : IndexType ε M I) (o : Outline M I)

/-- What loading makes of the files. -/
def loaded (logged : Bool) : Option I :=
  if logged then o.snapshot.bind (Journal.replay T.change (o.log.getD [])) else o.snapshot

def booted : Boot I → Outline M I
  | .openWith x config =>
    if config.walEnabled then ⟨some x, some [], some (x, true)⟩
    else { o with memory := some (x, false) }
  | .load config =>
    { o with
      log := if config.walEnabled then some (o.log.getD []) else o.log
      memory := (o.loaded T config.walEnabled).map (·, config.walEnabled) }

def called (x : I) (logged : Bool) : Call M I → Outline M I
  | .mutation r =>
    { o with
      log := if logged then o.log.map (· ++ [r]) else o.log
      memory := some ((T.apply r x).2, logged) }
  | .save => { o with snapshot := some x }
  | .checkpoint => { o with snapshot := some x, log := if logged then some [] else o.log }
  | .indexMut change => { o with memory := some (change x, logged) }
  | .load _ | .openWith _ _ => o

/-- A call has not returned: the program goes on, or was stopped. -/
def halted : Halt (PersistError ε) → Outline M I
  | .failed _ => o
  | .crashed => { o with memory := none }

/-- What an incident leaves if a call that did not return has changed nothing. -/
def after : Incident ε M I → Outline M I
  | .booted boot (.ok _) => o.booted T boot
  | .called _ call (.ok _) => match o.memory with
    | some (x, logged) => o.called T x logged call
    | none => o
  | .called _ _ (.error e) => o.halted e
  | .dropped => { o with memory := none }
  | .booted _ (.error _) | .lostPower => o

end Outline

/-- What an incident can leave. A call that the environment has cut short may have replaced the
snapshot, emptied the log or appended its record. -/
inductive Outline.Leads (T : IndexType ε M I) :
    Outline M I → Incident ε M I → Outline M I → Prop where
  | after {o : Outline M I} (i : Incident ε M I) : Outline.Leads T o i (o.after T i)
  | openedOver {o : Outline M I} {x : I} {config : PersistConfig} {e : Halt (PersistError ε)}
      (hwal : config.walEnabled = true) (he : interrupts e = true) :
      Outline.Leads T o (.booted (.openWith x config) (.error e)) { o with snapshot := some x }
  | openedAnew {o : Outline M I} {x : I} {config : PersistConfig} {e : Halt (PersistError ε)}
      (hwal : config.walEnabled = true) (he : interrupts e = true) :
      Outline.Leads T o (.booted (.openWith x config) (.error e))
        { o with snapshot := some x, log := some [] }
  | begun {o : Outline M I} {config : PersistConfig} {e : Halt (PersistError ε)}
      (hwal : config.walEnabled = true) (he : interrupts e = true) (hlog : o.log = none) :
      Outline.Leads T o (.booted (.load config) (.error e)) { o with log := some [] }
  | logged {o : Outline M I} {this : PersistedIndex I} {r : WalRecord M}
      {e : Halt (PersistError ε)} {x : I} {rs : List (WalRecord M)} (he : interrupts e = true)
      (hmemory : o.memory = some (x, true)) (hlog : o.log = some rs) :
      Outline.Leads T o (.called this (.mutation r) (.error e))
        ({ o with log := some (rs ++ [r]) }.halted e)
  | saved {o : Outline M I} {this : PersistedIndex I} {call : Call M I}
      {e : Halt (PersistError ε)} {x : I} {logged : Bool}
      (hcall : call = .save ∨ call = .checkpoint) (he : interrupts e = true)
      (hmemory : o.memory = some (x, logged)) :
      Outline.Leads T o (.called this call (.error e)) ({ o with snapshot := some x }.halted e)
  | emptied {o : Outline M I} {this : PersistedIndex I} {e : Halt (PersistError ε)} {x : I}
      (he : interrupts e = true) (hmemory : o.memory = some (x, true)) :
      Outline.Leads T o (.called this .checkpoint (.error e))
        ({ o with snapshot := some x, log := some [] }.halted e)

def Incident.Interrupted : Incident ε M I → Prop
  | .booted _ (.error e) | .called _ _ (.error e) => interrupts e = true
  | .booted _ (.ok _) | .called _ _ (.ok _) | .dropped | .lostPower => False

/-- Where nothing is cut short, only one outline can follow. -/
theorem Outline.Leads.eq_after {T : IndexType ε M I} {o o' : Outline M I} {i : Incident ε M I}
    (h : Outline.Leads T o i o') (hi : ¬ i.Interrupted) : o' = o.after T i := by
  cases h with
  | after => rfl
  | openedOver hwal he => exact absurd he hi
  | openedAnew hwal he => exact absurd he hi
  | begun hwal he => exact absurd he hi
  | logged he => exact absurd he hi
  | saved hcall he => exact absurd he hi
  | emptied he => exact absurd he hi

section

variable (b : Build M) (T : IndexType ε M I)

/-- Whether the log certainly ends where the next mutation is written, once the index is open. -/
def Boot.settles : Boot I → Bool → Bool
  | .openWith _ config, settled => settled || config.walEnabled
  | .load _, settled => settled

/-- What is known of the end of the log after a call on an index with or without it. -/
def Call.leaves (logged : Bool) : Call M I → Except (Halt (PersistError ε)) Unit → Bool → Bool
  | .checkpoint, .ok _, settled => settled || logged
  | .mutation _, .error e, settled | .checkpoint, .error e, settled =>
    settled && !(logged && interrupts e)
  | _, _, settled => settled

/-- One incident, in any environment. Only loading with a log meets no failure, though it may be
stopped; and only a settled log is mutated. -/
inductive Undergoes : Machine I × Bool → Incident ε M I → Machine I × Bool → Prop where
  | opened {w w' : World Path} {boot : Boot I} {this : PersistedIndex I} {settled : Bool}
      (script : List Verdict)
      (hfree : ∀ config, boot = .load config → config.walEnabled = true → FaultFree script)
      (hcall : boot.perform b T (w.withScript script) = .ok this w') :
      Undergoes (⟨none, w⟩, settled) (.booted boot (.ok ()))
        (⟨some this, w'⟩, boot.settles settled)
  | refused {w w' : World Path} {boot : Boot I} {e : Halt (PersistError ε)} {settled : Bool}
      (script : List Verdict)
      (hfree : ∀ config, boot = .load config → config.walEnabled = true → FaultFree script)
      (hcall : boot.perform b T (w.withScript script) = .error e w') :
      Undergoes (⟨none, w⟩, settled) (.booted boot (.error e))
        (⟨none, w'⟩, settled && !(boot.config.walEnabled && interrupts e))
  | called {w : World Path} {this : PersistedIndex I} {call : Call M I} {s : Session I}
      {result : Except (Halt (PersistError ε)) Unit} {settled : Bool} (script : List Verdict)
      (hsettled : ∀ r, call = .mutation r → this.wal.isSome → settled = true)
      (hcall : call.outcome b T (this, w.withScript script) = (result, s)) :
      Undergoes (⟨some this, w⟩, settled) (.called this call result)
        (Machine.after s result, call.leaves this.wal.isSome result settled)
  | dropped {m : Machine I} {settled : Bool} :
      Undergoes (m, settled) .dropped (⟨none, m.world⟩, settled)

/-- The incident concerns the index at this path, and what it writes is within the limits of the
formats. -/
def Incident.Fits (path : Path) : Incident ε M I → Prop
  | .booted (.openWith x config) _ =>
    config.path = path ∧ (config.walEnabled = true → SnapshotInverts b T config x)
  | .booted (.load config) _ => config.path = path
  | .called this (.mutation r) _ =>
    this.wal.isSome → (recordBody b.metadata r).length ≤ maxRecordLen
  | .called this .save _ | .called this .checkpoint _ => SnapshotInverts b T this.config this.inner
  | .called _ (.indexMut _) _ | .dropped => True
  | .called _ (.load _) _ | .called _ (.openWith _ _) _ | .lostPower => False

/-- The bytes of a log are read as these records, and are nothing else if it is settled. -/
structure ReadAs (ε : Type) (b : Build M) (settled : Bool) (rs : List (WalRecord M))
    (bytes : Bytes) : Prop where
  parses : parseRecords b bytes = (.ok rs : Except (PersistError ε) _)
  loggable : ∀ r ∈ rs, Loggable b r
  whole : settled = true → bytes = logOf b rs

/-- The index that is open is the one at this path, and its handle is the one of its log. -/
structure Handles (path : Path) (settled : Bool) (w : World Path) (this : PersistedIndex I) :
    Prop where
  configPath : this.config.path = path
  wal : ∀ wal, this.wal = some wal → wal.file.path = walPath path ∧
    ∃ content, LogState.Holds (wal, w) content ∧
      (settled = true → LogState.At (wal, w) content)

/-- The files of a machine, and the index that is open on it, are as in the outline. -/
structure Pictures (path : Path) (o : Outline M I) (s : Machine I × Bool) : Prop where
  snapshot : Option.Rel (fun x bytes => decodeSnapshot b T bytes = .ok x) o.snapshot
    (s.1.world.files path)
  log : Option.Rel (ReadAs ε b s.2) o.log (s.1.world.files (walPath path))
  memory : s.1.index.map (fun this => (this.inner, this.wal.isSome)) = o.memory
  handles : ∀ this, s.1.index = some this → Handles path s.2 s.1.world this

/-- The outline leads to one that the machine is in. -/
def Traces (path : Path) (o : Outline M I) (i : Incident ε M I) (s' : Machine I × Bool) : Prop :=
  ∃ o', Outline.Leads T o i o' ∧ Pictures b T path o' s'

end

variable {b : Build M} {T : IndexType ε M I} {path : Path} {o : Outline M I} {settled : Bool}
  {index : Option (PersistedIndex I)} {this : PersistedIndex I} {w w' : World Path}

theorem exists_of_rel_some {α β : Type} {R : α → β → Prop} {a : α} {file : Option β}
    (h : Option.Rel R (some a) file) : ∃ c, file = some c ∧ R a c := by
  cases h with
  | some h => exact ⟨_, rfl, h⟩

theorem exists_of_some_rel {α β : Type} {R : α → β → Prop} {x : Option α} {c : β}
    (h : Option.Rel R x (some c)) : ∃ a, x = some a ∧ R a c := by
  cases h with
  | some h => exact ⟨_, rfl, h⟩

theorem readAs_logOf (hmd : b.metadata.Lawful) {rs : List (WalRecord M)}
    (hloggable : ∀ r ∈ rs, Loggable b r) (settled : Bool) :
    ReadAs ε b settled rs (logOf b rs) :=
  ⟨parseRecords_logOf hmd hloggable, hloggable, fun _ => rfl⟩

theorem readAs_walHeader (hmd : b.metadata.Lawful) (settled : Bool) :
    ReadAs ε b settled [] walHeader := by
  have h : ReadAs ε b settled [] (logOf b []) := readAs_logOf hmd (by simp) settled
  rwa [logOf, recordFrames_nil, List.append_nil] at h

theorem readAs_take_walHeader (b : Build M) (n : ℕ) :
    ReadAs ε b false [] (walHeader.take n) :=
  ⟨parseRecords_take_walHeader b n, by simp, by simp⟩

theorem ReadAs.unsettle {rs : List (WalRecord M)} {bytes : Bytes} (h : ReadAs ε b settled rs bytes)
    (c : Bool) : ReadAs ε b (settled && c) rs bytes :=
  ⟨h.parses, h.loggable, fun hsettled => h.whole (Bool.and_eq_true_iff.mp hsettled).1⟩

theorem Handles.congr (h : Handles path settled w this)
    (hlog : w'.files (walPath path) = w.files (walPath path)) : Handles path settled w' this where
  configPath := h.configPath
  wal := by
    intro wal hwal
    obtain ⟨hpath, content, hholds, hpos⟩ := h.wal wal hwal
    have hholds' : LogState.Holds (wal, w') content := by
      rw [LogState.Holds, hpath, hlog, ← hpath]
      exact hholds
    exact ⟨hpath, content, hholds', fun hsettled => ⟨hholds', (hpos hsettled).pos⟩⟩

theorem Handles.unsettle (h : Handles path settled w this) (c : Bool) :
    Handles path (settled && c) w this where
  configPath := h.configPath
  wal := by
    intro wal hwal
    obtain ⟨hpath, content, hholds, hpos⟩ := h.wal wal hwal
    exact ⟨hpath, content, hholds, fun hsettled => hpos (Bool.and_eq_true_iff.mp hsettled).1⟩

theorem pictures_logged {snapshot : Option I} {rs : List (WalRecord M)} {content : Bytes}
    {wal : Wal}
    (hsnapshot : Option.Rel (fun x bytes => decodeSnapshot b T bytes = .ok x) snapshot
      (w.files path))
    (hreads : ReadAs ε b settled rs content) (hconfig : this.config.path = path)
    (hwal : this.wal = some wal) (hpath : wal.file.path = walPath path)
    (hholds : LogState.Holds (wal, w) content)
    (hpos : settled = true → LogState.At (wal, w) content) :
    Pictures b T path ⟨snapshot, some rs, some (this.inner, true)⟩ (⟨some this, w⟩, settled) where
  snapshot := hsnapshot
  log := by
    rw [LogState.Holds, hpath] at hholds
    rw [hholds]
    exact .some hreads
  memory := by rw [Option.map_some, hwal, Option.isSome_some]
  handles := by
    rintro _ ⟨⟩
    refine ⟨hconfig, ?_⟩
    intro wal' hwal'
    rw [hwal] at hwal'
    cases hwal'
    exact ⟨hpath, content, hholds, hpos⟩

theorem Pictures.log_of_bytes (h : Pictures b T path o (⟨index, w⟩, settled)) {bytes : Bytes}
    (hbytes : w.files (walPath path) = some bytes) :
    ∃ rs, o.log = some rs ∧ ReadAs ε b settled rs bytes := by
  have hlog : Option.Rel _ o.log (w.files (walPath path)) := h.log
  rw [hbytes] at hlog
  exact exists_of_some_rel hlog

theorem Pictures.log_eq_none (h : Pictures b T path o (⟨index, w⟩, settled))
    (hnone : w.files (walPath path) = none) : o.log = none := by
  have hlog : Option.Rel _ o.log (w.files (walPath path)) := h.log
  rw [hnone] at hlog
  generalize o.log = log at hlog
  cases hlog
  rfl

theorem Pictures.logged (h : Pictures b T path o (⟨some this, w⟩, settled)) {wal : Wal}
    (hwal : this.wal = some wal) :
    ∃ rs content, o.log = some rs ∧ o.memory = some (this.inner, true) ∧
      this.config.path = path ∧ wal.file.path = walPath path ∧ ReadAs ε b settled rs content ∧
      LogState.Holds (wal, w) content ∧ (settled = true → LogState.At (wal, w) content) := by
  have hhandles := h.handles this rfl
  obtain ⟨hpath, content, hholds, hpos⟩ := hhandles.wal wal hwal
  have hmemory := h.memory
  rw [Option.map_some, hwal, Option.isSome_some] at hmemory
  have hfile : w.files (walPath path) = some content := by
    rw [← hpath]
    exact hholds
  obtain ⟨rs, hlog, hreads⟩ := h.log_of_bytes hfile
  exact ⟨rs, content, hlog, hmemory.symm, hhandles.configPath, hpath, hreads, hholds, hpos⟩

theorem Pictures.decodes_iff (h : Pictures b T path o (⟨index, w⟩, settled)) (x : I) :
    o.snapshot = some x ↔ ∃ full, w.files path = some full ∧ decodeSnapshot b T full = .ok x := by
  have hsnapshot : Option.Rel _ o.snapshot (w.files path) := h.snapshot
  constructor
  · intro hx
    rw [hx] at hsnapshot
    exact exists_of_rel_some hsnapshot
  · rintro ⟨full, hfull, hdecode⟩
    rw [hfull] at hsnapshot
    obtain ⟨y, hy, hdecode'⟩ := exists_of_some_rel hsnapshot
    rw [hdecode] at hdecode'
    cases hdecode'
    exact hy

theorem decodes_saved (hT : Contract b T) {config : PersistConfig} {x : I} {full : Bytes}
    (hinv : SnapshotInverts b T config x) (hfull : snapshotBytes b T x config = .ok full)
    (hsnapshot : w.files path = some full) :
    Option.Rel (fun x bytes => decodeSnapshot b T bytes = .ok x) (some x) (w.files path) := by
  rw [hsnapshot]
  exact .some (decodeSnapshot_of_inverts hT hinv hfull)

theorem Pictures.resaved (h : Pictures b T path o (⟨index, w⟩, settled)) {snapshot : Option I}
    (hsnapshot : Option.Rel (fun x bytes => decodeSnapshot b T bytes = .ok x) snapshot
      (w'.files path))
    (hlog : w'.files (walPath path) = w.files (walPath path)) :
    Pictures b T path { o with snapshot := snapshot } (⟨index, w'⟩, settled) where
  snapshot := hsnapshot
  log := by
    rw [hlog]
    exact h.log
  memory := h.memory
  handles := fun this hthis => (h.handles this hthis).congr hlog

theorem Pictures.congr (h : Pictures b T path o (⟨index, w⟩, settled))
    (hsnapshot : w'.files path = w.files path)
    (hlog : w'.files (walPath path) = w.files (walPath path)) :
    Pictures b T path o (⟨index, w'⟩, settled) := by
  refine h.resaved ?_ hlog
  rw [hsnapshot]
  exact h.snapshot

theorem Pictures.withScript (h : Pictures b T path o (⟨index, w⟩, settled))
    (script : List Verdict) : Pictures b T path o (⟨index, w.withScript script⟩, settled) :=
  h.congr rfl rfl

theorem Pictures.changed (h : Pictures b T path o (⟨some this, w⟩, settled)) (x : I) :
    Pictures b T path { o with memory := some (x, this.wal.isSome) }
      (⟨some { this with inner := x }, w⟩, settled) where
  snapshot := h.snapshot
  log := h.log
  memory := rfl
  handles := by
    rintro _ ⟨⟩
    have hhandles := h.handles this rfl
    exact ⟨hhandles.configPath, hhandles.wal⟩

theorem Pictures.closed {m : Machine I} (h : Pictures b T path o (m, settled)) :
    Pictures b T path { o with memory := none } (⟨none, m.world⟩, settled) where
  snapshot := h.snapshot
  log := h.log
  memory := rfl
  handles := by
    rintro _ ⟨⟩

theorem Pictures.begun (h : Pictures b T path o (⟨none, w⟩, settled)) {snapshot : Option I}
    (hsnapshot : Option.Rel (fun x bytes => decodeSnapshot b T bytes = .ok x) snapshot
      (w'.files path))
    {n : ℕ} (hlog : w'.files (walPath path) = some (walHeader.take n)) :
    Pictures b T path { o with snapshot := snapshot, log := some [] } (⟨none, w'⟩, false) where
  snapshot := hsnapshot
  log := by
    rw [hlog]
    exact .some (readAs_take_walHeader b n)
  memory := h.memory
  handles := by
    rintro _ ⟨⟩

theorem Pictures.unsettle {m : Machine I} (h : Pictures b T path o (m, settled)) (c : Bool) :
    Pictures b T path o (m, settled && c) where
  snapshot := h.snapshot
  log := by
    have hlog := h.log
    generalize o.log = log, m.world.files (walPath path) = file at hlog ⊢
    cases hlog with
    | none => exact .none
    | some hreads => exact .some (hreads.unsettle c)
  memory := h.memory
  handles := fun this hthis => (h.handles this hthis).unsettle c

theorem Pictures.halted {s : Session I} (h : Pictures b T path o (⟨some s.1, s.2⟩, settled))
    (e : Halt (PersistError ε)) :
    Pictures b T path (o.halted e) (Machine.after s (.error e), settled) := by
  cases e with
  | failed e => exact h
  | crashed => exact h.closed

theorem Pictures.inner_eq (h : Pictures b T path o (⟨some this, w⟩, settled)) {x : I}
    {logged : Bool} (hmemory : o.memory = some (x, logged)) : this.inner = x :=
  congrArg Prod.fst (Option.some.inj (h.memory.trans hmemory))

theorem Pictures.unlogged (h : Pictures b T path o (⟨index, w⟩, settled)) {config : PersistConfig}
    (hpath : config.path = path) (x : I) :
    Pictures b T path { o with memory := some (x, false) }
      (⟨some ⟨x, config, none⟩, w⟩, settled) where
  snapshot := h.snapshot
  log := h.log
  memory := rfl
  handles := by
    rintro _ ⟨⟩
    refine ⟨hpath, ?_⟩
    rintro _ ⟨⟩

end PersistedIndex

end IqdbPersist
