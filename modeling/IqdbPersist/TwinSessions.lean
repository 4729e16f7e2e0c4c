import IqdbPersist.Persisted
import IqdbPersist.TwinLogs

/-!
# Sessions that cannot be told apart

Two sessions are twins when they hold the same index under the same configuration and their logs
are twins. Every call runs in step from twins to twins, unless an operation fails: only the names of
temporary files depend on what twins do not share. So any sequence of calls comes to the same
results.
-/

namespace IqdbPersist

open CrashLogic FileSystem Wal LogState

variable {ε M I α : Type} {Bad : Halt (PersistError ε) → Prop} {b : Build M}
  {T : IndexType ε M I}

theorem ends_writeAtomic_calm {unix : Bool} {target : Path} {payload : Bytes}
    {policy : FsyncPolicy} {name : String} {w : World Path} (hname : target.fileName = some name)
    (hcalm : w.Calm) :
    Ends (writeAtomic unix target payload policy) w
      (fun _ w' => w'.files = Function.update w.files target (some payload) ∧
        w'.dirs = w.dirs ∧ w'.permits = w.permits ∧ w'.Calm)
      (fun (e : Halt (PersistError ε)) _ => ByEnvironment e) := by
  refine (ends_writeAtomic hname).mono ?_ fun _ _ h => h.1
  rintro _ w' ⟨-, -, -, hscript, hfile, honly⟩
  refine ⟨?_, honly.dirs, honly.permits, hcalm.drop hscript⟩
  funext p
  by_cases hp : p = target
  · subst hp
    rw [hfile, Function.update_self]
  · rw [honly.files p hp, Function.update_of_ne hp]

theorem inStep_writeAtomic (unix : Bool) (target : Path) (payload : Bytes) (policy : FsyncPolicy) :
    InStep ByEnvironment FileSystem.Twins
      (writeAtomic (ε := ε) unix target payload policy) := by
  cases hname : target.fileName with
  | none =>
    simp only [writeAtomic, hname]
    exact inStep_throw _
  | some name =>
    intro w v h
    refine .of_ends (ends_writeAtomic_calm hname h.calm) (ends_writeAtomic_calm hname h.calm') ?_
    rintro _ _ w' v' ⟨hfiles, hdirs, hpermits, hcalm⟩ ⟨hfiles', hdirs', hpermits', hcalm'⟩
    refine ⟨rfl, ?_, ?_, ?_, hcalm, hcalm'⟩
    · rw [hfiles, hfiles', h.files]
    · rw [hdirs, hdirs', h.dirs]
    · rw [hpermits, hpermits', h.permits]

theorem inStep_replay (snapshot : Path) :
    InStep Bad (Beside FileSystem.Twins) (replay b T snapshot) := by
  have hread (path : Path) : InStep Bad FileSystem.Twins
      (onFailure (some <$> readFile path) fun source =>
        if source = .notFound then pure none else throw (.failed (.io path source))) := by
    refine inStep_onFailure ((inStep_readFile path).map some) fun source => ?_
    split
    · exact inStep_pure none
    · exact inStep_throw _
  refine (inStep_snd (hread _)).bind fun found => ?_
  cases found with
  | none => exact inStep_pure 0
  | some bytes =>
    refine (inStep_uninterrupted (inStep_settle _)).bind fun records => ?_
    exact inStep_uninterrupted (inStep_fst _)

/-- Opened logs are twins, though each remembers its own fsync. -/
def OpenedTwins (a c : Wal) (w v : World Path) : Prop := Wal.Twins a c ∧ FileSystem.Twins w v

theorem lockstep_opened {wal : Wal} {p : Wal.Method ε Unit} (hp : InStep Bad LogState.Twins p)
    {w v : World Path} (h : FileSystem.Twins w v) :
    Lockstep Bad (withLocal wal p) (withLocal wal p) w v OpenedTwins FileSystem.Twins :=
  lockstep_withLocal hp ⟨⟨rfl, rfl, rfl⟩, h⟩ fun _ _ h => ⟨h.wal, h.world⟩

theorem lockstep_create (snapshot : Path) (policy : FsyncPolicy) {w v : World Path}
    (h : FileSystem.Twins w v) :
    Lockstep Bad (Wal.create snapshot policy) (Wal.create snapshot policy) w v OpenedTwins
      FileSystem.Twins := by
  refine (inStep_ioAt (inStep_openTruncate _) _ w v h).bind ?_
  rintro file _ w' v' ⟨rfl, h'⟩
  exact lockstep_opened (inStep_writeHeader.bind fun _ => inStep_syncNow) h'

theorem lockstep_openForAppend (snapshot : Path) (policy : FsyncPolicy) {w v : World Path}
    (h : FileSystem.Twins w v) :
    Lockstep Bad (openForAppend snapshot policy) (openForAppend snapshot policy) w v OpenedTwins
      FileSystem.Twins := by
  refine (inStep_ioAt (inStep_existsPath _) _ w v h).bind ?_
  rintro existed _ w₁ v₁ ⟨rfl, h₁⟩
  refine (inStep_ioAt (inStep_openOrCreate _) _ w₁ v₁ h₁).bind ?_
  rintro file _ w₂ v₂ ⟨rfl, h₂⟩
  refine (inStep_ioAt (inStep_withLocal (File.inStep_seekEnd.bind fun _ => inStep_pure ()) file)
    _ w₂ v₂ h₂).bind ?_
  rintro file _ w₃ v₃ ⟨rfl, h₃⟩
  refine lockstep_opened ?_ h₃
  split
  · exact inStep_pure ()
  · exact inStep_writeHeader.bind fun _ => inStep_syncNow

namespace PersistedIndex

/-- The same index under the same configuration, with handles at the same place. -/
structure Alike (this that : PersistedIndex I) : Prop where
  inner : that.inner = this.inner
  config : that.config = this.config
  wal : Option.Rel Wal.Twins this.wal that.wal

structure Twins (s t : Session I) : Prop where
  index : Alike s.1 t.1
  world : FileSystem.Twins s.2 t.2

theorem writeSnapshot_congr {this that : PersistedIndex I} (h : Alike this that) :
    writeSnapshot b T that = writeSnapshot b T this := by
  rw [writeSnapshot, writeSnapshot, h.inner, h.config]

theorem inStep_writeSnapshot (this : PersistedIndex I) :
    InStep ByEnvironment FileSystem.Twins (writeSnapshot b T this) :=
  (inStep_uninterrupted (inStep_settle _)).bind fun _ => inStep_writeAtomic _ _ _ _

theorem inStep_onLog {p : Wal.Method ε α} (hp : InStep Bad LogState.Twins p) :
    InStep Bad (Beside LogState.Twins) (onLog (I := I) p) := inStep_snd hp

theorem inStep_logged (r : WalRecord M) :
    InStep Bad (Beside LogState.Twins) (logged (Wal.append b r) (T.apply r)) := by
  refine (inStep_onLog inStep_mark).bind fun mark => (inStep_onLog (inStep_append b r)).bind ?_
  refine fun _ => inStep_get_bind (fun s t h => by rw [h.1]) fun s => ?_
  rcases T.apply r s.1 with ⟨source | _, x⟩
  · refine (inStep_modify fun _ _ h => ⟨rfl, h.2⟩).bind fun _ => ?_
    exact (inStep_onLog (inStep_rollback mark)).bind fun _ => inStep_throw _
  · exact inStep_modify fun _ _ h => ⟨rfl, h.2⟩

/-- The index does not see the log. -/
theorem inStep_mutation (r : WalRecord M) : InStep Bad Twins (mutation b T r) := by
  rw [mutation_eq]
  rintro ⟨⟨_, _, wal⟩, w⟩ ⟨⟨x, config, wal'⟩, v⟩ ⟨⟨rfl, rfl, hwal⟩, h⟩
  refine lockstep_get_bind ?_
  cases hwal with
  | none =>
    refine lockstep_uninterrupted (lockstep_within (inStep_eq _ x x rfl) ?_ ?_)
    · rintro _ _ y _ ⟨rfl, rfl⟩
      exact ⟨rfl, ⟨rfl, rfl, .none⟩, h⟩
    · rintro y _ rfl
      exact ⟨⟨rfl, rfl, .none⟩, h⟩
  | some hlog =>
    refine lockstep_within (inStep_logged r _ _ ⟨rfl, hlog, h⟩) ?_ ?_
    · rintro _ _ ⟨y, log⟩ ⟨_, log'⟩ ⟨rfl, rfl, hlogs⟩
      exact ⟨rfl, ⟨rfl, rfl, .some hlogs.wal⟩, hlogs.world⟩
    · rintro ⟨y, log⟩ ⟨_, log'⟩ ⟨rfl, hlogs⟩
      exact ⟨⟨rfl, rfl, .some hlogs.wal⟩, hlogs.world⟩

theorem inStep_save : InStep ByEnvironment Twins (save b T) := by
  refine inStep_get_bind (fun s t h => ?_) fun s => ?_
  · dsimp only
    rw [writeSnapshot_congr h.index]
  refine inStep_within (inStep_writeSnapshot s.1) (fun _ _ h => h.world) ?_
  exact fun _ _ _ _ h h' => ⟨h.index, h'⟩

theorem inStep_checkpoint : InStep ByEnvironment Twins (checkpoint b T) := by
  rintro ⟨⟨_, _, wal⟩, w⟩ ⟨⟨x, config, wal'⟩, v⟩ ⟨⟨rfl, rfl, hwal⟩, h⟩
  have hsame : writeSnapshot b T ⟨x, config, wal'⟩ = writeSnapshot b T ⟨x, config, wal⟩ :=
    writeSnapshot_congr ⟨rfl, rfl, hwal⟩
  refine lockstep_get_bind ?_
  dsimp only
  rw [hsame]
  refine Lockstep.bind (lockstep_within (inStep_writeSnapshot _ w v h)
    (S := fun _ _ s' t' => s'.1 = ⟨x, config, wal⟩ ∧ t'.1 = ⟨x, config, wal'⟩ ∧
      FileSystem.Twins s'.2 t'.2) ?_ ?_) ?_
  · exact fun _ _ _ _ h' => ⟨rfl, rfl, h'.2⟩
  · exact fun _ _ h' => ⟨⟨rfl, rfl, hwal⟩, h'⟩
  · rintro - - ⟨_, w'⟩ ⟨_, v'⟩ ⟨rfl, rfl, h'⟩
    cases hwal with
    | none => exact ⟨rfl, ⟨rfl, rfl, .none⟩, h'⟩
    | some hlog =>
      refine lockstep_within (inStep_reset _ _ ⟨hlog, h'⟩) ?_ ?_
      · exact fun _ _ log log' hlogs => ⟨hlogs.1, ⟨rfl, rfl, .some hlogs.2.wal⟩, hlogs.2.world⟩
      · exact fun log log' hlogs => ⟨⟨rfl, rfl, .some hlogs.wal⟩, hlogs.world⟩

/-- The results of loading are alike, and so is the index that is loaded. -/
theorem lockstep_load (config : PersistConfig) {w v : World Path} (h : FileSystem.Twins w v) :
    Lockstep Bad (load b T config) (load b T config) w v
      (fun this that w' v' => Twins (this, w') (that, v')) FileSystem.Twins := by
  refine (inStep_uninterrupted (inStep_settle _) w v h).bind ?_
  rintro _ _ w₁ v₁ ⟨-, h₁⟩
  refine (inStep_ioAt (inStep_readFile _) _ w₁ v₁ h₁).bind ?_
  rintro bytes _ w₂ v₂ ⟨rfl, h₂⟩
  refine (inStep_uninterrupted (inStep_settle _) w₂ v₂ h₂).bind ?_
  rintro inner _ w₃ v₃ ⟨rfl, h₃⟩
  dsimp only
  split
  · refine (inStep_withLocal ((inStep_replay _).bind fun _ => inStep_pure ()) _ w₃ v₃ h₃).bind ?_
    rintro inner' _ w₄ v₄ ⟨rfl, h₄⟩
    refine (lockstep_openForAppend _ _ h₄).bind ?_
    rintro wal wal' w₅ v₅ ⟨hwal, h₅⟩
    exact ⟨⟨rfl, rfl, .some hwal⟩, h₅⟩
  · exact ⟨⟨rfl, rfl, .none⟩, h₃⟩

theorem lockstep_openWith (x : I) (config : PersistConfig) {w v : World Path}
    (h : FileSystem.Twins w v) :
    Lockstep ByEnvironment (openWith b T x config) (openWith b T x config) w v
      (fun this that w' v' => Twins (this, w') (that, v')) FileSystem.Twins := by
  refine (inStep_uninterrupted (inStep_settle _) w v h).bind ?_
  rintro _ _ w₁ v₁ ⟨-, h₁⟩
  dsimp only
  split
  · refine (inStep_writeSnapshot _ w₁ v₁ h₁).bind ?_
    rintro _ _ w₂ v₂ ⟨-, h₂⟩
    refine (lockstep_create _ _ h₂).bind ?_
    rintro wal wal' w₃ v₃ ⟨hwal, h₃⟩
    exact ⟨⟨rfl, rfl, .some hwal⟩, h₃⟩
  · exact ⟨⟨rfl, rfl, .none⟩, h₁⟩

end PersistedIndex

end IqdbPersist
