import IqdbPersist.Footprint

/-!
# The files of others

Every call keeps to the footprint of the index it is made on, so a life at one path does nothing to
any other file. What was on the medium there stays there, also when the power is lost.
-/

namespace IqdbPersist

open CrashLogic FileSystem Simulation

variable {ε M I : Type} {b : Build M} {T : IndexType ε M I} {loss : Loss}

namespace PersistedIndex

variable {A : Event Path → Prop} {path : Path} {config : PersistConfig} {s s' : Session I}
  {m m' : Machine I}

theorem confined_replay (A : Event Path → Prop) (snapshot : Path) :
    Confined (fun s s' => Emitted A s.2 s'.2) (replay b T snapshot) := by
  rintro ⟨x, w⟩
  have hnext {s : I × World Path} (hs : s.2 = w.next) : Emitted A w s.2 := by
    rw [hs]
    exact (Emitted.refl A w).next
  exact ends_replay_next.mono (fun _ _ => hnext) fun _ _ => hnext

theorem confined_writeSnapshot (this : PersistedIndex I) :
    Confined (Emitted (Footprint this.config.path)) (writeSnapshot b T this) :=
  (confined_uninterrupted (confined_settle (emitted_frame _) _)).bind (emitted_frame _) fun _ =>
    confined_writeAtomic

theorem yields_openWith (x : I) (config : PersistConfig) :
    Yields (Emitted (Footprint config.path)) (Homed config.path) (openWith b T x config) := by
  have hR := emitted_frame (Footprint config.path)
  refine (confined_uninterrupted (confined_settle hR _)).bind_yields hR fun _ => ?_
  dsimp only
  split
  · refine (confined_writeSnapshot _).bind_yields hR fun _ => ?_
    refine (Wal.yields_create.mono fun _ _ h => h.mono fun _ => .log).bind hR fun wal hwal => ?_
    refine yields_pure hR ⟨rfl, ?_⟩
    rintro _ ⟨⟩
    exact hwal
  · exact yields_pure hR ⟨rfl, fun _ h => nomatch h⟩

theorem yields_load (config : PersistConfig) :
    Yields (Emitted (LogWork config.path)) (Homed config.path) (load b T config) := by
  have hR := emitted_frame (LogWork config.path)
  refine (confined_uninterrupted (confined_settle hR _)).bind_yields hR fun _ => ?_
  refine (confined_ioAt hR (confined_readFile _)).bind_yields hR fun bytes => ?_
  refine (confined_uninterrupted (confined_settle hR _)).bind_yields hR fun inner => ?_
  dsimp only
  split
  · have hreplay : Confined (fun s s' => Emitted (LogWork config.path) s.2 s'.2)
        (do let _applied ← replay b T config.path : EStateM (Halt (PersistError ε)) _ Unit) := by
      have hframe : Frame fun (s s' : I × World Path) =>
          Emitted (LogWork config.path) s.2 s'.2 := ⟨fun s => hR.refl s.2, hR.trans⟩
      exact (confined_replay _ _).bind hframe fun _ => confined_pure hframe ()
    refine (confined_withLocal hreplay inner fun _ _ h => h).bind_yields hR fun x => ?_
    refine Wal.yields_openForAppend.bind hR fun wal hwal => ?_
    refine yields_pure hR ⟨rfl, ?_⟩
    rintro _ ⟨⟩
    exact hwal
  · exact yields_pure hR ⟨rfl, fun _ h => nomatch h⟩

theorem yields_boot (boot : Boot I) : Yields (Emitted (Footprint boot.config.path))
    (Homed boot.config.path) (boot.perform b T) := by
  cases boot with
  | openWith x config => exact yields_openWith x config
  | load config => exact (yields_load config).mono fun _ _ h => h.mono fun _ => .log

/-- A session that stays at home and does only what `A` admits. -/
structure StaysHome (A : Event Path → Prop) (path : Path) (s s' : Session I) : Prop where
  homed : Homed path s.1 → Homed path s'.1
  world : Homed path s.1 → Emitted A s.2 s'.2

theorem StaysHome.mono {A' : Event Path → Prop} (h : StaysHome A path s s')
    (hA : ∀ e, A e → A' e) : StaysHome A' path s s' :=
  ⟨h.homed, fun hs => (h.world hs).mono hA⟩

theorem staysHome_frame (A : Event Path → Prop) (path : Path) :
    Frame (StaysHome (I := I) A path) where
  refl s := ⟨id, fun _ => .refl _ s.2⟩
  trans h h' := ⟨fun hs => h'.homed (h.homed hs),
    fun hs => (emitted_frame _).trans (h.world hs) (h'.world (h.homed hs))⟩

/-- What a method does to its log, it does at home. -/
theorem StaysHome.of_log {this : PersistedIndex I} {w : World Path} {wal : Wal} {log : LogState}
    {x : I} (hwal : this.wal = some wal) (h : LogEmitted (wal, w) log) :
    StaysHome (LogWork path) path (this, w)
      ({ this with inner := x, wal := some log.1 }, log.2) where
  homed hhome := by
    refine ⟨hhome.config, ?_⟩
    rintro _ ⟨⟩
    exact h.filePath.trans (hhome.wal wal hwal)
  world hhome := by
    refine h.world.mono fun e he => .inr ?_
    rw [← hhome.wal wal hwal]
    exact he

theorem StaysHome.of_snapshot {this : PersistedIndex I} {w w' : World Path}
    (h : Emitted (Footprint this.config.path) w w') :
    StaysHome (Footprint path) path (this, w) (this, w') where
  homed hhome := hhome
  world hhome := by
    rw [← hhome.config]
    exact h

theorem confined_onLog {α : Type} {p : Wal.Method ε α} (hp : Confined LogEmitted p) :
    Confined (fun s s' => LogEmitted s.2 s'.2) (onLog p : EStateM _ (I × LogState) α) :=
  confined_within hp fun _ _ h => h

theorem confined_logged (r : WalRecord M) (apply : I → Except ε Unit × I) :
    Confined (fun s s' => LogEmitted s.2 s'.2) (logged (Wal.append b r) apply) := by
  have hR : Frame fun (s s' : I × LogState) => LogEmitted s.2 s'.2 :=
    ⟨fun s => logEmitted_frame.refl s.2, logEmitted_frame.trans⟩
  have happly (x : I) : Confined (fun (s s' : I × LogState) => LogEmitted s.2 s'.2)
      (modify fun s => (x, s.2) : EStateM (Halt (PersistError ε)) _ PUnit) :=
    confined_modify fun s => logEmitted_frame.refl s.2
  refine (confined_onLog (Wal.confined_onFile File.confined_streamPosition)).bind hR fun mark => ?_
  refine (confined_onLog (Wal.confined_append r)).bind hR fun _ => ?_
  refine confined_get_bind fun s => ?_
  split
  · exact happly _
  · refine (happly _).bind hR fun _ => ?_
    exact (confined_onLog (Wal.confined_rollback mark)).bind hR fun _ => confined_throw hR _

theorem confined_mutation (r : WalRecord M) :
    Confined (StaysHome (LogWork path) path) (mutation b T r) := by
  rintro ⟨this, w⟩
  rw [mutation_eq, mutate, ends_bind, ends_get]
  cases hwal : this.wal with
  | some wal =>
    rw [ends_within]
    refine (confined_logged r _ (this.inner, (wal, w))).mono ?_ ?_
    · exact fun _ _ h => .of_log hwal h
    · exact fun _ _ h => .of_log hwal h
  | none =>
    have hsame (x : I) : StaysHome (LogWork path) path (this, w) ({ this with inner := x }, w) :=
      ⟨fun h => ⟨h.config, fun wal h' => h.wal wal h'⟩, fun _ => .refl _ w⟩
    rw [ends_uninterrupted, ends_within]
    exact (ends_onIndex _).mono (fun _ _ _ => hsame _) fun _ _ _ => hsame _

theorem confined_save : Confined (StaysHome (Footprint path) path) (save b T) := by
  rintro ⟨this, w⟩
  rw [save, ends_bind, ends_get, ends_within]
  exact (confined_writeSnapshot this w).mono (fun _ _ => .of_snapshot) fun _ _ => .of_snapshot

theorem confined_checkpoint : Confined (StaysHome (Footprint path) path) (checkpoint b T) := by
  rintro ⟨this, w⟩
  have hR := staysHome_frame (I := I) (Footprint path) path
  rw [checkpoint, ends_bind, ends_get, ends_bind, ends_within]
  refine (confined_writeSnapshot this w).mono ?_ fun _ _ => .of_snapshot
  intro _ w₁ h₁
  cases hwal : this.wal with
  | none => exact .of_snapshot h₁
  | some wal =>
    rw [ends_within]
    have hlog {log : LogState} (h : LogEmitted (wal, w₁) log) :
        StaysHome (Footprint path) path (this, w) ({ this with wal := some log.1 }, log.2) :=
      hR.trans (.of_snapshot h₁)
        ((StaysHome.of_log (x := this.inner) hwal h).mono fun _ => .log)
    exact (Wal.confined_reset (wal, w₁)).mono (fun _ _ => hlog) fun _ _ => hlog

theorem confined_replacing {p : EStateM (Halt (PersistError ε)) (World Path) (PersistedIndex I)}
    (hp : Yields (Emitted A) (Homed path) p) : Confined (StaysHome A path) (replacing p) := by
  rintro ⟨this, w⟩
  rw [replacing, ends_bind, ends_within]
  refine (hp w).mono ?_ fun _ _ h => ⟨id, fun _ => h⟩
  rintro that w' ⟨hworld, hhome⟩
  exact ⟨fun _ => hhome, fun _ => hworld⟩

theorem confined_perform (call : Call M I) (hcall : call.Keeps path) :
    Confined (StaysHome (Footprint path) path) (call.perform b T) := by
  cases call with
  | mutation r => exact (confined_mutation r).mono fun _ _ h => h.mono fun _ => .log
  | save => exact confined_save
  | checkpoint => exact confined_checkpoint
  | indexMut change =>
    exact confined_modify fun s => ⟨fun h => ⟨h.config, fun wal h' => h.wal wal h'⟩,
      fun _ => .refl _ s.2⟩
  | load config =>
    have hpath : config.path = path := hcall
    subst hpath
    exact (confined_replacing (yields_load config)).mono fun _ _ h => h.mono fun _ => .log
  | openWith x config =>
    have hpath : config.path = path := hcall
    subst hpath
    exact confined_replacing (yields_openWith x config)

/-- What a life at this path leaves of a machine: its index at home, and of the files that are not
the index's own, those on the medium as they are there. -/
structure Minds (loss : Loss) (path : Path) (w : World Path) (m : Machine I) : Prop where
  homed : m.Homed path
  others : ∀ p, ¬ Own path p → w.Durable targetDir loss p →
    m.world.files p = w.files p ∧ m.world.Durable targetDir loss p

theorem Minds.emit {w w₁ w₂ : World Path} {index index' : Option (PersistedIndex I)}
    (h : Minds loss path w ⟨index, w₁⟩) (hemitted : Emitted (Footprint path) w₁ w₂)
    (hhome : Machine.Homed path ⟨index', w₂⟩) : Minds loss path w ⟨index', w₂⟩ := by
  refine ⟨hhome, fun p hp hdurable => ?_⟩
  obtain ⟨hfiles, hdurable₁⟩ := h.others p hp hdurable
  have hwithin : Within (Own path) w₁ w₂ := hemitted.within fun _ he _ => he.own
  exact ⟨(hwithin.files hp).trans hfiles, hwithin.durable hp hdurable₁⟩

theorem Happens.staysHome {i : Incident ε M I} (h : Happens b T loss m i m') (hi : i.Concerns path)
    (hpower : i ≠ .lostPower) (hm : m.Homed path) :
    Emitted (Footprint path) m.world m'.world ∧ m'.Homed path := by
  have hdown (w : World Path) : Machine.Homed (I := I) path ⟨none, w⟩ := fun _ h => nomatch h
  cases h with
  | @opened w w' boot this script hcall =>
    obtain ⟨hworld, hhome⟩ := ends_of_ok (yields_boot boot _) hcall
    have hpath : boot.config.path = path := hi
    rw [hpath] at hworld hhome
    exact ⟨hworld.of_withScript, fun _ h => Option.some.inj h ▸ hhome⟩
  | @refused w w' boot e script hcall =>
    have hworld := (yields_boot (b := b) (T := T) boot).confined.error hcall
    have hpath : boot.config.path = path := hi
    rw [hpath] at hworld
    exact ⟨hworld.of_withScript, hdown _⟩
  | @called w this call s result script hcall hup =>
    have hstays : StaysHome (Footprint path) path (this, w.withScript script) s :=
      outcome_of_ends
        (R := fun _ s' => StaysHome (Footprint path) path (this, w.withScript script) s')
        (confined_perform call hi _) hcall
    have hhome := hm this rfl
    exact ⟨(hstays.world hhome).of_withScript, fun _ h => Option.some.inj h ▸ hstays.homed hhome⟩
  | @crashed w this call s script hcall =>
    have hstays : StaysHome (Footprint path) path (this, w.withScript script) s :=
      outcome_of_ends
        (R := fun _ s' => StaysHome (Footprint path) path (this, w.withScript script) s')
        (confined_perform call hi _) hcall
    exact ⟨(hstays.world (hm this rfl)).of_withScript, hdown _⟩
  | dropped => exact ⟨.refl _ _, hdown _⟩
  | lostPower hfiles => exact absurd rfl hpower

theorem Happens.minds {w : World Path} {i : Incident ε M I} (h : Happens b T loss m i m')
    (hi : i.Concerns path) (hm : Minds loss path w m) : Minds loss path w m' := by
  by_cases hpower : i = .lostPower
  · subst hpower
    cases h with
    | lostPower hfiles =>
      refine ⟨fun _ h => (nomatch h), fun p hp hdurable => ?_⟩
      obtain ⟨hsame, hdurable'⟩ := hm.others p hp hdurable
      exact ⟨(hdurable'.files hfiles).trans hsame, World.durable_of_history rfl p⟩
  · obtain ⟨hemitted, hhome⟩ := h.staysHome hi hpower hm.homed
    exact hm.emit hemitted hhome

/-- A life at one path leaves the files of others alone, on the medium too, whatever fails in it;
and until the power is lost its work on the files is in the footprint of the index. -/
theorem life_footprint {is : List (Incident ε M I)} (hlife : Runs (Happens b T loss) m is m')
    (hconcerns : ∀ i ∈ is, i.Concerns path) (hm : m.Homed path) :
    (∀ p, ¬ Own path p → m.world.Durable targetDir loss p →
      m'.world.files p = m.world.files p ∧ m'.world.Durable targetDir loss p) ∧
    (.lostPower ∉ is → Emitted (Footprint path) m.world m'.world) := by
  have hstart : Minds loss path m.world m := ⟨hm, fun _ _ h => ⟨rfl, h⟩⟩
  have hminds : Minds loss path m.world m' :=
    hlife.track (fun _ _ => ()) (fun m' _ => Minds loss path m.world m') (·.Concerns path)
      (fun hi hrel hstep => hstep.minds hi hrel) hconcerns (a := ()) hstart
  refine ⟨hminds.others, fun hpower => ?_⟩
  have hend : Emitted (Footprint path) m.world m'.world ∧ m'.Homed path :=
    hlife.track (fun _ _ => ())
      (fun m' _ => Emitted (Footprint path) m.world m'.world ∧ m'.Homed path)
      (fun i => i.Concerns path ∧ i ≠ .lostPower)
      (fun hi hrel hstep => by
        obtain ⟨hemitted, hhome⟩ := hstep.staysHome hi.1 hi.2 hrel.2
        exact ⟨(emitted_frame _).trans hrel.1 hemitted, hhome⟩)
      (fun i hi => ⟨hconcerns i hi, fun h => hpower (h ▸ hi)⟩) (a := ()) ⟨.refl _ _, hm⟩
  exact hend.1

/-- Up to the loss of power the small index leaves its footprint, and after it the neighbour is what
it was. -/
theorem life_footprint_sample :
    Runs (Happens defaultBuild idIndex .anywhere) ⟨none, neighbourWorld⟩ interruptedLife
      ⟨none, stoppedWorld⟩ ∧
    Emitted (Footprint nestedPath) neighbourWorld stoppedWorld ∧
    ∀ files ∈ stoppedWorld.outcomes targetDir .anywhere,
      Runs (Happens defaultBuild idIndex .anywhere) ⟨none, neighbourWorld⟩
        (interruptedLife ++ [.lostPower]) ⟨none, stoppedWorld.restarted files⟩ ∧
      files neighbourPath = some [1] := by
  have hlife := runs_interruptedLife .anywhere
  have hhomed : Machine.Homed nestedPath (⟨none, neighbourWorld⟩ : Machine (List UInt64)) := by
    rintro _ ⟨⟩
  have hother : ¬ Own nestedPath neighbourPath := by
    rintro (h | h | ⟨name, pid, nanos, hname, h⟩)
    · exact absurd h (by decide)
    · exact absurd h (by decide)
    · cases (show nestedPath.fileName = some "x" from rfl).symm.trans hname
      have hjoin : (targetDir nestedPath).join "y" =
          (targetDir nestedPath).join (tempName "x" pid nanos) := h
      have htoList := congrArg String.toList (Path.join_inj hjoin)
      simp [tempName] at htoList
  refine ⟨hlife, (life_footprint hlife interruptedLife_concerns hhomed).2
    (by simp [interruptedLife]), fun files hfiles => ?_⟩
  have hlost := hlife.snoc (.lostPower hfiles)
  have hconcerns : ∀ i ∈ interruptedLife ++ [.lostPower], i.Concerns nestedPath :=
    List.forall_mem_append.mpr ⟨interruptedLife_concerns, List.forall_mem_singleton.mpr trivial⟩
  obtain ⟨hothers, -⟩ := life_footprint hlost hconcerns hhomed
  exact ⟨hlost, (hothers neighbourPath hother (World.durable_of_history rfl _)).1⟩

end PersistedIndex

end IqdbPersist
