import IqdbPersist.Confinement
import IqdbPersist.UnsyncedFile

/-!
# The events of a program

`Emitted A` relates a world to a later one in which nothing has happened to the files but events
that `A` admits. Each file operation keeps to the event it is named after, so the events of a
program are read off its operations, under every environment.
-/

namespace FileSystem

open CrashLogic

variable {P α : Type}

/-- The second world is the first after events that `A` admits. -/
structure Emitted (A : Event P → Prop) (w w' : World P) : Prop where
  base : w'.base = w.base
  dirs : w'.dirs = w.dirs
  permits : w'.permits = w.permits
  pid : w'.pid = w.pid
  history : ∃ events, w'.history = w.history ++ events ∧ ∀ e ∈ events, A e

/-- The handle stays on its file, and the events are work on the data of that file. -/
structure HandleEmitted (s s' : File P × World P) : Prop where
  path : s'.1.path = s.1.path
  world : Emitted (·.WorksOn s.1.path) s.2 s'.2

variable {A A' : Event P → Prop} {w w' : World P}

theorem emitted_frame (A : Event P → Prop) : Frame (Emitted A) where
  refl w := ⟨rfl, rfl, rfl, rfl, [], (List.append_nil _).symm, by simp⟩
  trans := by
    rintro w w' w'' ⟨hbase, hdirs, hpermits, hpid, events, hhistory, hevents⟩
      ⟨hbase', hdirs', hpermits', hpid', events', hhistory', hevents'⟩
    refine ⟨hbase'.trans hbase, hdirs'.trans hdirs, hpermits'.trans hpermits, hpid'.trans hpid,
      events ++ events', ?_, ?_⟩
    · rw [hhistory', hhistory, List.append_assoc]
    · exact List.forall_mem_append.mpr ⟨hevents, hevents'⟩

theorem handleEmitted_frame : Frame (HandleEmitted (P := P)) where
  refl s := ⟨rfl, (emitted_frame _).refl _⟩
  trans := by
    intro s t u h h'
    refine ⟨h'.path.trans h.path, (emitted_frame _).trans h.world ?_⟩
    rw [← h.path]
    exact h'.world

theorem Emitted.refl (A : Event P → Prop) (w : World P) : Emitted A w w := (emitted_frame A).refl w

theorem Emitted.mono (h : Emitted A w w') (hA : ∀ e, A e → A' e) : Emitted A' w w' := by
  obtain ⟨events, hhistory, hevents⟩ := h.history
  exact ⟨h.base, h.dirs, h.permits, h.pid, events, hhistory, fun e he => hA e (hevents e he)⟩

theorem Emitted.next (h : Emitted A w w') : Emitted A w w'.next := ⟨h.1, h.2, h.3, h.4, h.5⟩

theorem Emitted.of_withScript {script : List Verdict} (h : Emitted A (w.withScript script) w') :
    Emitted A w w' := ⟨h.1, h.2, h.3, h.4, h.5⟩

theorem emitted_emit {e : Event P} (he : A e) : Emitted A w (w.next.emit e) :=
  ⟨rfl, rfl, rfl, rfl, [e], rfl, List.forall_mem_singleton.mpr he⟩

theorem Emitted.within {S : P → Prop} (h : Emitted A w w')
    (hA : ∀ e, A e → ∀ p, e.Touches p → S p) : Within S w w' := by
  obtain ⟨events, hhistory, hevents⟩ := h.history
  exact ⟨h.base, events, hhistory, fun e he => hA e (hevents e he)⟩

section Operations

theorem confined_atomically {e : Event P} (he : A e) : Confined (Emitted A) (atomically e) := by
  intro w
  rw [ends_atomically]
  have hemit : Emitted A w (w.next.emit e) := emitted_emit he
  have hnext : Emitted A w w.next := (Emitted.refl A w).next
  cases w.verdict with
  | done => exact hemit
  | fails n => exact hnext
  | cut n =>
    dsimp only
    split
    · exact hnext
    · exact hemit

theorem yields_observe {V : α → Prop} {look : World P → Except IoError α}
    (hlook : ∀ w a, look w = .ok a → V a) : Yields (Emitted A) V (observe look) := by
  intro w
  rw [ends_observe]
  have hnext : Emitted A w w.next := (Emitted.refl A w).next
  cases w.verdict with
  | done =>
    cases hw : look w with
    | ok a => exact ⟨hnext, hlook w a hw⟩
    | error e => exact hnext
  | fails n => exact hnext
  | cut n => exact hnext

theorem confined_observe (look : World P → Except IoError α) :
    Confined (Emitted A) (observe look) :=
  (yields_observe (V := fun _ => True) fun _ _ _ => trivial).confined

namespace File

theorem confined_beside {p : EStateM (Halt IoError) (World P) α}
    (hp : ∀ path, Confined (Emitted (·.WorksOn path)) p) :
    Confined HandleEmitted (beside p) := by
  rintro ⟨f, w⟩
  rw [ends_beside]
  exact (hp f.path w).mono (fun _ _ h => ⟨rfl, h⟩) fun _ _ h => ⟨rfl, h⟩

theorem confined_writeAll (bytes : Bytes) : Confined HandleEmitted (writeAll (P := P) bytes) := by
  rintro ⟨f, w⟩
  rw [ends_writeAll]
  have hwrite (xs : Bytes) (pos : ℕ) :
      HandleEmitted (f, w) (⟨f.path, pos⟩, w.next.emit (.write f.path f.pos xs)) :=
    ⟨rfl, emitted_emit rfl⟩
  cases w.verdict with
  | done => exact hwrite _ _
  | fails n => exact hwrite _ _
  | cut n => exact hwrite _ _

theorem confined_event (e : P → Event P) (he : ∀ path, (e path).WorksOn path) :
    Confined HandleEmitted (do beside (atomically (e (← get).1.path)) :
      Proc P IoError (File P) Unit) := by
  rintro ⟨f, w⟩
  rw [ends_bind, ends_get, ends_beside]
  exact (confined_atomically (he f.path) w).mono (fun _ _ h => ⟨rfl, h⟩) fun _ _ h => ⟨rfl, h⟩

theorem confined_setLen (len : ℕ) : Confined HandleEmitted (setLen (P := P) len) :=
  confined_event (.setLen · len) fun _ => rfl

theorem confined_syncAll : Confined HandleEmitted (syncAll (P := P)) :=
  confined_event .sync fun _ => rfl

theorem confined_streamPosition : Confined HandleEmitted (streamPosition (P := P)) :=
  confined_get_bind fun _ => confined_beside fun _ => confined_observe _

theorem confined_seek (f : ℕ → File P → File P) (hf : ∀ n file, (f n file).path = file.path)
    (n : ℕ) : Confined HandleEmitted
      (do modify fun s => (f n s.1, s.2); pure n : Proc P IoError (File P) ℕ) :=
  (confined_modify fun s => ⟨hf n s.1, Emitted.refl _ s.2⟩).bind handleEmitted_frame
    fun _ => confined_pure handleEmitted_frame n

theorem confined_seekStart (pos : ℕ) : Confined HandleEmitted (seekStart (P := P) pos) :=
  (confined_beside fun _ => confined_observe _).bind handleEmitted_frame
    fun _ => confined_seek (fun n file => { file with pos := n }) (fun _ _ => rfl) pos

variable [DecidableEq P]

theorem confined_seekEnd : Confined HandleEmitted (seekEnd (P := P)) :=
  confined_get_bind fun _ => (confined_beside fun _ => confined_observe _).bind handleEmitted_frame
    fun len => confined_seek (fun n file => { file with pos := n }) (fun _ _ => rfl) len

end File

theorem confined_openDir (path : P) : Confined (Emitted A) (openDir path) := confined_observe _

theorem confined_syncDir {path : P} (hA : A (.syncDir path)) :
    Confined (Emitted A) (syncDir path) := confined_atomically hA

theorem yields_create {path : P} (hA : A (.create path)) :
    Yields (Emitted A) (·.path = path) (create path) := by
  refine yields_get_bind fun w => ?_
  split
  · exact (confined_atomically hA).bind_yields (emitted_frame A) fun _ =>
      yields_pure (emitted_frame A) rfl
  · exact yields_throw (emitted_frame A) _

variable [DecidableEq P]

theorem confined_readFile (path : P) : Confined (Emitted A) (readFile path) := confined_observe _

theorem confined_existsPath (path : P) : Confined (Emitted A) (existsPath path) :=
  confined_onFailure (emitted_frame A) (confined_observe _) fun _ =>
    confined_pure (emitted_frame A) false

theorem yields_createNew {path : P} (hA : A (.create path)) :
    Yields (Emitted A) (·.path = path) (createNew path) := by
  refine yields_get_bind fun w => ?_
  split
  · exact yields_throw (emitted_frame A) _
  · exact yields_create hA

theorem yields_openOrCreate {path : P} (hA : A (.create path)) :
    Yields (Emitted A) (·.path = path) (openOrCreate path) := by
  refine yields_get_bind fun w => ?_
  split
  · exact yields_observe fun w file hfile => by rw [← Except.ok.inj hfile]
  · exact yields_create hA

theorem yields_openTruncate {path : P} (hcreate : A (.create path))
    (htruncate : A (.setLen path 0)) :
    Yields (Emitted A) (·.path = path) (openTruncate path) := by
  refine yields_get_bind fun w => ?_
  split
  · exact (confined_atomically htruncate).bind_yields (emitted_frame A) fun _ =>
      yields_pure (emitted_frame A) rfl
  · exact yields_create hcreate

theorem confined_rename {source target : P} (hA : A (.rename source target)) :
    Confined (Emitted A) (rename source target) := by
  refine confined_get_bind fun w => ?_
  split
  · exact confined_atomically hA
  · exact confined_throw (emitted_frame A) _

theorem confined_removeFile {path : P} (hA : A (.remove path)) :
    Confined (Emitted A) (removeFile path) := by
  refine confined_get_bind fun w => ?_
  split
  · exact confined_atomically hA
  · exact confined_throw (emitted_frame A) _

end Operations

end FileSystem
