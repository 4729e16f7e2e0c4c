import IqdbPersist.Lockstep
import IqdbPersist.WalLifecycle

/-!
# Logs that cannot be told apart

Two logs are twins when their handles stand at the same place in the same files and nothing fails
around them; what the handles remember of earlier calls, the time of the last fsync and the framing
buffer, may differ. Every method of the log runs in step from twins to twins.
-/

namespace FileSystem

open CrashLogic

variable {P α : Type} [DecidableEq P]

/-- Two worlds with the same files, in which nothing fails. -/
structure Twins (w v : World P) : Prop where
  files : v.files = w.files
  dirs : v.dirs = w.dirs
  permits : v.permits = w.permits
  calm : w.Calm
  calm' : v.Calm

/-- The same file, open at the same place, in such worlds. -/
def FileTwins : File P × World P → File P × World P → Prop := Beside Twins

variable {w v : World P} {Bad : Halt IoError → Prop}

theorem Twins.symm (h : Twins w v) : Twins v w :=
  ⟨h.files.symm, h.dirs.symm, h.permits.symm, h.calm', h.calm⟩

theorem Twins.next (h : Twins w v) : Twins w.next v.next :=
  ⟨h.files, h.dirs, h.permits, h.calm.next, h.calm'.next⟩

theorem Twins.emit (h : Twins w v) (e : Event P) : Twins (w.emit e) (v.emit e) where
  files := by rw [World.files_emit, World.files_emit, h.files]
  dirs := h.dirs
  permits := h.permits
  calm := h.calm
  calm' := h.calm'

theorem inStep_atomically (e : Event P) : InStep Bad Twins (atomically e) := by
  intro w v h
  unfold Lockstep atomically
  rw [h.calm.verdict, h.calm'.verdict]
  exact ⟨rfl, h.next.emit e⟩

theorem inStep_observe {look : World P → Except IoError α}
    (hlook : ∀ w v, Twins w v → look v = look w) : InStep Bad Twins (observe look) := by
  intro w v h
  unfold Lockstep observe
  rw [h.calm.verdict, h.calm'.verdict, hlook w v h]
  cases look w with
  | ok a => exact ⟨rfl, h.next⟩
  | error e => exact .inr (.inr ⟨rfl, h.next⟩)

theorem inStep_readFile (path : P) : InStep Bad Twins (readFile path) :=
  inStep_observe fun _ _ h => by rw [h.files]

namespace File

theorem inStep_beside {p : EStateM (Halt IoError) (World P) α} (hp : InStep Bad Twins p) :
    InStep Bad FileTwins (beside p) := inStep_snd hp

theorem inStep_writeAll (bytes : Bytes) : InStep Bad (FileTwins (P := P)) (writeAll bytes) := by
  rintro ⟨f, w⟩ ⟨g, v⟩ ⟨hfile, h⟩
  change g = f at hfile
  subst hfile
  unfold Lockstep writeAll
  dsimp only
  rw [h.calm.verdict, h.calm'.verdict]
  exact ⟨rfl, rfl, h.next.emit _⟩

theorem inStep_setLen (len : ℕ) : InStep Bad (FileTwins (P := P)) (setLen len) :=
  inStep_get_bind (fun _ _ h => by rw [h.1]) fun _ => inStep_beside (inStep_atomically _)

theorem inStep_syncAll : InStep Bad (FileTwins (P := P)) syncAll :=
  inStep_get_bind (fun _ _ h => by rw [h.1]) fun _ => inStep_beside (inStep_atomically _)

theorem inStep_streamPosition : InStep Bad (FileTwins (P := P)) streamPosition :=
  inStep_get_bind (fun _ _ h => by rw [h.1]) fun _ =>
    inStep_beside (inStep_observe fun _ _ _ => rfl)

theorem inStep_seekStart (pos : ℕ) : InStep Bad (FileTwins (P := P)) (seekStart pos) := by
  refine (inStep_beside (inStep_observe fun _ _ _ => rfl)).bind fun _ => ?_
  refine (inStep_modify fun s t h => ⟨?_, h.2⟩).bind fun _ => inStep_pure pos
  rw [h.1]

theorem inStep_seekEnd : InStep Bad (FileTwins (P := P)) seekEnd := by
  refine inStep_get_bind (fun _ _ h => by rw [h.1]) fun s => ?_
  refine (inStep_beside (inStep_observe fun _ _ h => by rw [h.files])).bind fun len => ?_
  refine (inStep_modify fun s t h => ⟨?_, h.2⟩).bind fun _ => inStep_pure len
  rw [h.1]

end File

theorem inStep_create (path : P) : InStep Bad Twins (create path) := by
  refine inStep_get_bind (fun _ _ h => by rw [h.permits]) fun w => ?_
  split
  · exact (inStep_atomically _).bind fun _ => inStep_pure _
  · exact inStep_throw _

theorem inStep_openTruncate (path : P) : InStep Bad Twins (openTruncate path) := by
  refine inStep_get_bind (fun _ _ h => by rw [h.files]) fun w => ?_
  split
  · exact (inStep_atomically _).bind fun _ => inStep_pure _
  · exact inStep_create path

theorem inStep_openOrCreate (path : P) : InStep Bad Twins (openOrCreate path) := by
  refine inStep_get_bind (fun _ _ h => by rw [h.files]) fun w => ?_
  split
  · exact inStep_observe fun _ _ _ => rfl
  · exact inStep_create path

theorem inStep_existsPath (path : P) : InStep Bad Twins (existsPath path) :=
  inStep_onFailure (inStep_observe fun _ _ h => by rw [h.files]) fun _ => inStep_pure false

end FileSystem

namespace IqdbPersist

open CrashLogic FileSystem Wal LogState

variable {ε M α : Type} {Bad : Halt (PersistError ε) → Prop}

/-- Two handles at the same place of the same file. -/
structure Wal.Twins (a c : Wal) : Prop where
  file : c.file = a.file
  path : c.path = a.path
  policy : c.policy = a.policy

namespace LogState

structure Twins (s t : LogState) : Prop where
  wal : Wal.Twins s.1 t.1
  world : FileSystem.Twins s.2 t.2

variable {s t s' t' : LogState}

theorem Twins.quiet (h : Twins s t) (hs : Quiet s s') (ht : Quiet t t') (hcalm : s'.2.Calm)
    (hcalm' : t'.2.Calm) : Twins s' t' where
  wal := ⟨by rw [ht.file, hs.file, h.wal.file], by rw [ht.path, hs.path, h.wal.path],
    by rw [ht.policy, hs.policy, h.wal.policy]⟩
  world := ⟨by rw [ht.files, hs.files, h.world.files], by rw [ht.dirs, hs.dirs, h.world.dirs],
    by rw [ht.permits, hs.permits, h.world.permits], hcalm, hcalm'⟩

end LogState

theorem inStep_ioAt {σ : Type} {R : σ → σ → Prop} {p : EStateM (Halt IoError) σ α}
    (hp : InStep (fun _ => False) R p) (path : Path) : InStep Bad R (ioAt path p) :=
  inStep_onFailure hp fun _ => inStep_throw _

theorem inStep_onFile {p : Proc Path IoError (File Path) α}
    (hp : InStep (fun _ => False) FileTwins p) : InStep Bad LogState.Twins (onFile p) := by
  refine inStep_get_bind (fun _ _ h => by rw [h.wal.path]) fun s => inStep_ioAt ?_ _
  refine inStep_within hp (fun _ _ h => ⟨h.wal.file, h.world⟩) ?_
  exact fun _ _ _ _ h h' => ⟨⟨h'.1, h.wal.path, h.wal.policy⟩, h'.2⟩

theorem inStep_syncNow : InStep Bad LogState.Twins (syncNow (ε := ε)) :=
  (inStep_onFile File.inStep_syncAll).bind fun _ =>
    inStep_modify fun _ _ h => ⟨⟨h.wal.file, h.wal.path, h.wal.policy⟩, h.world⟩

/-- Where nothing fails, an fsync that may or may not be due changes neither handle nor files. -/
theorem ends_maybeSync_calm {s : LogState} (hcalm : s.2.Calm) :
    Ends (maybeSync (ε := ε)) s (fun _ s' => Quiet s s' ∧ s'.2.Calm) (fun e _ => Bad e) := by
  refine ends_maybeSync.mono ?_ ?_
  · rintro _ s' ⟨hquiet, -, hscript⟩
    exact ⟨hquiet, hcalm.drop hscript⟩
  · rintro e s' ⟨-, hstop, -⟩
    rw [hcalm.completes] at hstop
    cases hstop

theorem inStep_maybeSync : InStep Bad LogState.Twins (maybeSync (ε := ε)) := by
  intro s t h
  refine .of_ends (ends_maybeSync_calm h.world.calm) (ends_maybeSync_calm h.world.calm') ?_
  rintro _ _ s' t' ⟨hs, hcalm⟩ ⟨ht, hcalm'⟩
  exact ⟨rfl, h.quiet hs ht hcalm hcalm'⟩

theorem inStep_writeHeader : InStep Bad LogState.Twins (Wal.writeHeader (ε := ε)) :=
  inStep_onFile (File.inStep_writeAll _)

theorem inStep_reset : InStep Bad LogState.Twins (reset (ε := ε)) :=
  (inStep_onFile (File.inStep_setLen 0)).bind fun _ =>
    (inStep_onFile (File.inStep_seekStart 0)).bind fun _ =>
      inStep_writeHeader.bind fun _ => inStep_syncNow

theorem inStep_mark : InStep Bad LogState.Twins (mark (ε := ε)) :=
  inStep_onFile File.inStep_streamPosition

theorem inStep_rollback (pos : ℕ) : InStep Bad LogState.Twins (rollback (ε := ε) pos) :=
  (inStep_onFile (File.inStep_setLen pos)).bind fun _ =>
    (inStep_onFile (File.inStep_seekStart pos)).bind fun _ => inStep_syncNow

variable (b : Build M)

theorem encodeRecord_clears (md : MetadataOps M) (r : WalRecord M) (xs ys : Bytes) :
    encodeRecord (ε := ε) md r xs = encodeRecord md r ys := by
  cases r <;> rfl

theorem lockstep_encodeRecord {Bad : PersistError ε → Prop} (md : MetadataOps M) (r : WalRecord M)
    (xs ys : Bytes) :
    Lockstep Bad (encodeRecord md r) (encodeRecord md r) xs ys (fun _ _ xs' ys' => ys' = xs')
      fun _ _ => True := by
  unfold Lockstep
  rw [encodeRecord_clears md r xs ys]
  cases encodeRecord md r ys with
  | ok a ys' => rfl
  | error e ys' => exact .inr (.inr ⟨rfl, trivial⟩)

theorem inStep_append (r : WalRecord M) : InStep Bad LogState.Twins (append (ε := ε) b r) := by
  intro s t h
  rw [append_eq]
  have hencode : Lockstep Bad (onScratch (encodeRecord b.metadata r))
      (onScratch (encodeRecord b.metadata r)) s t
      (fun _ _ s' t' => LogState.Twins s' t' ∧ t'.1.scratch = s'.1.scratch) LogState.Twins := by
    have hwal (xs ys : Bytes) : LogState.Twins ({ s.1 with scratch := xs }, s.2)
        ({ t.1 with scratch := ys }, t.2) := ⟨⟨h.wal.file, h.wal.path, h.wal.policy⟩, h.world⟩
    refine lockstep_uninterrupted (lockstep_within (lockstep_encodeRecord _ r _ _) ?_ ?_)
    · exact fun _ _ xs ys hbody => ⟨hwal xs ys, hbody⟩
    · exact fun xs ys _ => hwal xs ys
  refine hencode.bind ?_
  rintro _ _ s' t' ⟨h', hbody⟩
  refine lockstep_get_bind ?_
  rw [hbody]
  refine InStep.bind (inStep_uninterrupted (inStep_settle _)) (fun bodyLen => ?_) s' t' h'
  exact (inStep_onFile (File.inStep_writeAll _)).bind fun _ =>
    (inStep_onFile (File.inStep_writeAll _)).bind fun _ => inStep_maybeSync

end IqdbPersist
