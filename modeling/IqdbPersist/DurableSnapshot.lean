import IqdbPersist.Bystanders
import IqdbPersist.CrashedWrite
import IqdbPersist.DiskRegister
import IqdbPersist.SnapshotRoundTrip

/-!
# The snapshot is a durable register

Through any life of an index, with any failures and any number of losses of power, the snapshot file
may be found to hold one whole snapshot: the last that was acknowledged, or one whose writing has
been interrupted since.
-/

namespace IqdbPersist

open CrashLogic FileSystem Simulation

variable {ε M I : Type} {b : Build M} {T : IndexType ε M I} {loss : Loss}

section Write

variable {w : World Path} {target dir : Path} {payload : Bytes} {policy : FsyncPolicy}
  {C : Set (Option Bytes)}

theorem ends_syncParent_within {unix : Bool} : Ends (syncParent unix dir policy) w
    (fun _ w' => Within (fun _ => False) w w')
    (fun (_ : Halt (PersistError ε)) w' => Within (fun _ => False) w w') := by
  have hconfined : Confined (Emitted (· = Event.syncDir dir))
      (syncParent unix dir policy : EStateM (Halt (PersistError ε)) _ Unit) :=
    confined_syncParent rfl
  have hwithin {w' : World Path} (h : Emitted (· = Event.syncDir dir) w w') :
      Within (fun _ => False) w w' := h.within fun e he _ hp => by subst he; exact hp
  exact (hconfined w).mono (fun _ _ => hwithin) fun _ _ => hwithin

/-- Wherever an atomic write ends, it has added its payload to what the target may hold. -/
theorem ends_writeAtomic_insert (hpolicy : policy ≠ .never)
    (h : (w.disk targetDir loss).Offers target C) :
    Ends (writeAtomic true target payload policy) w
      (fun _ w' => (w'.disk targetDir loss).Offers target (insert (some payload) C))
      (fun (_ : Halt (PersistError ε)) w' =>
        (w'.disk targetDir loss).Offers target (insert (some payload) C)) := by
  have hC : C ⊆ insert (some payload) C := Set.subset_insert _ _
  cases hname : target.fileName with
  | none =>
    refine (ends_writeAtomic_unnamed hname).mono (fun _ _ h => h.elim) ?_
    rintro _ w' ⟨-, rfl⟩
    exact h.mono hC
  | some name =>
    have hne : tempPathOf target name w ≠ target := tempPathOf_ne hname
    have hkept {w' : World Path} (hwithin : Within (· = tempPathOf target name w) w w') :
        (w'.disk targetDir loss).Offers target (insert (some payload) C) :=
      (hwithin.offers hne.symm h).mono hC
    simp only [writeAtomic, hname, ends_bind, ends_get]
    refine ((ends_writeTemp _).and (ends_writeTemp_within loss)).mono ?_ fun _ _ h => hkept h.2
    rintro _ w₁ ⟨⟨-, -, -, hpayload, -⟩, hwithin, hsynced⟩
    have hinstalled : ((w₁.next.emit (.rename (tempPathOf target name w) target)).disk
        targetDir loss).Offers target (insert (some payload) C) := by
      rw [World.disk_emit]
      refine (hwithin.offers hne.symm h).install (w₁.wellFormed_disk _ _) hne (hsynced hpolicy) ?_
      rw [World.view_disk]
      exact hpayload
    refine ends_cleaningUp_within ?_
    rw [rename, ends_bind, ends_get, if_pos (by rw [hpayload]; rfl), ends_atomically]
    cases w₁.verdict with
    | fails n => exact fun e w₂ h₂ => hkept (hwithin.trans h₂)
    | cut n =>
      dsimp only
      split
      · exact hkept hwithin
      · exact hinstalled
    | done =>
      exact ends_syncParent_within.mono (fun _ _ h => h.offers id hinstalled)
        fun _ _ h => h.offers id hinstalled

/-- An atomic write that returns has replaced what the target may hold by its payload. -/
theorem ends_writeAtomic_offers (hpolicy : policy ≠ .never)
    (h : (w.disk targetDir loss).Offers target C) :
    Ends (writeAtomic true target payload policy) w
      (fun _ w' => (w'.disk targetDir loss).Offers target {some payload})
      (fun (_ : Halt (PersistError ε)) w' =>
        (w'.disk targetDir loss).Offers target (insert (some payload) C)) := by
  cases hname : target.fileName with
  | none =>
    exact ((ends_writeAtomic_insert hpolicy h).and (ends_writeAtomic_unnamed hname)).mono
      (fun _ _ h => h.2.elim) fun _ _ h => h.1
  | some name =>
    refine ((ends_writeAtomic_insert hpolicy h).and ((ends_writeAtomic hname).and
      (ends_writeAtomic_durable loss hname hpolicy))).mono ?_ fun _ _ h => h.1
    rintro _ w' ⟨hoffers, ⟨-, -, -, -, hpayload, -⟩, hdurable, -⟩
    refine hoffers.settle hdurable.anchored hdurable.synced ?_
    rw [World.view_disk, hpayload]

end Write

namespace PersistedIndex

/-- The content that writing a snapshot of this index would give. -/
def Written (b : Build M) (T : IndexType ε M I) (snapshot : I × PersistConfig) :
    Set (Option Bytes) :=
  { content | ∃ full, snapshotBytes b T snapshot.1 snapshot.2 = .ok full ∧ content = some full }

section Candidates

/-- The snapshot that bringing up an index writes. -/
def Boot.snapshot : Boot I → Option (I × PersistConfig)
  | .openWith x config => if config.walEnabled then some (x, config) else none
  | .load _ => none

/-- The snapshot that a call on `this` writes. -/
def Call.snapshot (this : PersistedIndex I) : Call M I → Option (I × PersistConfig)
  | .save | .checkpoint => some (this.inner, this.config)
  | .openWith x config => if config.walEnabled then some (x, config) else none
  | .mutation _ | .indexMut _ | .load _ => none

def Incident.snapshot : Incident ε M I → Option (I × PersistConfig)
  | .booted boot _ => boot.snapshot
  | .called this call _ => call.snapshot this
  | .dropped | .lostPower => none

/-- The call returned `Ok`. -/
def Incident.acknowledged : Incident ε M I → Bool
  | .booted _ result | .called _ _ result => result.isOk
  | .dropped | .lostPower => false

/-- The snapshots that may be found after an incident, where `none` stands for what was there from
the start. -/
def Incident.candidates (cs : List (Option (I × PersistConfig))) (i : Incident ε M I) :
    List (Option (I × PersistConfig)) :=
  match i.snapshot with
  | none => cs
  | some snapshot => if i.acknowledged then [some snapshot] else some snapshot :: cs

/-- What the candidates come to in bytes. -/
def Contents (b : Build M) (T : IndexType ε M I) (initial : Option Bytes)
    (cs : List (Option (I × PersistConfig))) : Set (Option Bytes) :=
  { content | (none ∈ cs ∧ content = initial) ∨
    ∃ snapshot, some snapshot ∈ cs ∧ content ∈ Written b T snapshot }

/-- What may be found where `C` might have been, after an attempt at a snapshot. -/
def foundAfter (b : Build M) (T : IndexType ε M I) (C : Set (Option Bytes)) :
    Option (I × PersistConfig) → Bool → Set (Option Bytes)
  | none, _ => C
  | some snapshot, true => Written b T snapshot
  | some snapshot, false => C ∪ Written b T snapshot

/-- A snapshot that the incident writes is synced. -/
def Incident.Syncs (i : Incident ε M I) : Prop :=
  ∀ snapshot, i.snapshot = some snapshot → snapshot.2.fsyncPolicy ≠ .never

variable {initial : Option Bytes} {cs : List (Option (I × PersistConfig))}

theorem contents_candidates (i : Incident ε M I) : Contents b T initial (i.candidates cs) =
    foundAfter b T (Contents b T initial cs) i.snapshot i.acknowledged := by
  rw [Incident.candidates]
  cases i.snapshot with
  | none => rfl
  | some snapshot =>
    cases i.acknowledged with
    | true =>
      ext content
      simp [foundAfter, Contents]
    | false =>
      ext content
      simp only [Bool.false_eq_true, if_false, foundAfter, Contents, List.mem_cons, Set.mem_union,
        Set.mem_ofPred_eq, reduceCtorEq, false_or, Option.some.injEq]
      constructor
      · rintro (hinitial | ⟨_, rfl | hmem, hwritten⟩)
        · exact .inl (.inl hinitial)
        · exact .inr hwritten
        · exact .inl (.inr ⟨_, hmem, hwritten⟩)
      · rintro ((hinitial | ⟨_, hmem, hwritten⟩) | hwritten)
        · exact .inl hinitial
        · exact .inr ⟨_, .inr hmem, hwritten⟩
        · exact .inr ⟨_, .inl rfl, hwritten⟩

end Candidates

variable {path : Path} {C : Set (Option Bytes)} {w w' : World Path} {m m' : Machine I}

theorem offers_of_logWork (h : Emitted (LogWork path) w w')
    (hw : (w.disk targetDir loss).Offers path C) : (w'.disk targetDir loss).Offers path C := by
  have hwithin : Within (· = walPath path) w w' := h.within fun _ he _ hp => he.eq_of_touches hp
  exact hwithin.offers (walPath_ne path).symm hw

section Programs

variable (hunix : b.unix = true)

include hunix

theorem ends_writeSnapshot_offers {this : PersistedIndex I}
    (hpolicy : this.config.fsyncPolicy ≠ .never) (hpath : this.config.path = path)
    (h : (w.disk targetDir loss).Offers path C) :
    Ends (writeSnapshot b T this) w
      (fun _ w' => (w'.disk targetDir loss).Offers path (Written b T (this.inner, this.config)))
      (fun _ w' => (w'.disk targetDir loss).Offers path
        (C ∪ Written b T (this.inner, this.config))) := by
  subst hpath
  rw [writeSnapshot, ends_bind, ends_uninterrupted]
  cases hfull : snapshotBytes b T this.inner this.config with
  | error e => exact h.mono Set.subset_union_left
  | ok full =>
    have hwritten : some full ∈ Written b T (this.inner, this.config) := ⟨full, hfull, rfl⟩
    rw [ends_settle_ok, hunix]
    refine (ends_writeAtomic_offers hpolicy h).mono ?_ ?_
    · exact fun _ _ h => h.mono (Set.singleton_subset_iff.mpr hwritten)
    · refine fun _ _ h => h.mono (Set.insert_subset (.inr hwritten) Set.subset_union_left)

theorem ends_openWith_offers {x : I} {config : PersistConfig} (hwal : config.walEnabled = true)
    (hpolicy : config.fsyncPolicy ≠ .never) (hpath : config.path = path)
    (h : (w.disk targetDir loss).Offers path C) :
    Ends (openWith b T x config) w
      (fun _ w' => (w'.disk targetDir loss).Offers path (Written b T (x, config)))
      (fun _ w' => (w'.disk targetDir loss).Offers path (C ∪ Written b T (x, config))) := by
  rw [openWith, ends_bind, ends_uninterrupted]
  refine ends_settle_of ?_ fun _ _ => h.mono Set.subset_union_left
  intro _ _
  simp only [hwal, if_true, ends_bind]
  have hwrite : Ends (writeSnapshot b T ⟨x, config, none⟩) w _ _ :=
    ends_writeSnapshot_offers hunix hpolicy hpath h
  refine hwrite.mono ?_ fun _ _ h => h
  intro _ w₁ h₁
  subst hpath
  refine (Wal.yields_create w₁).mono ?_ ?_
  · exact fun _ _ h => offers_of_logWork h.1 h₁
  · exact fun _ _ h => (offers_of_logWork h h₁).mono Set.subset_union_right

theorem ends_boot_offers {boot : Boot I} (hpath : boot.config.path = path)
    (hpolicy : ∀ snapshot, boot.snapshot = some snapshot → snapshot.2.fsyncPolicy ≠ .never)
    (h : (w.disk targetDir loss).Offers path C) :
    Ends (boot.perform b T) w
      (fun _ w' => (w'.disk targetDir loss).Offers path (foundAfter b T C boot.snapshot true))
      (fun _ w' =>
        (w'.disk targetDir loss).Offers path (foundAfter b T C boot.snapshot false)) := by
  cases boot with
  | load config =>
    subst hpath
    refine (yields_load config w).mono ?_ ?_
    · exact fun _ _ h' => offers_of_logWork h'.1 h
    · exact fun _ _ h' => offers_of_logWork h' h
  | openWith x config =>
    by_cases hwal : config.walEnabled = true
    · have hsnapshot : (Boot.openWith x config).snapshot = some (x, config) := if_pos hwal
      rw [hsnapshot]
      exact ends_openWith_offers hunix hwal (hpolicy _ hsnapshot) hpath h
    · have hsnapshot : (Boot.openWith x config).snapshot = none := if_neg hwal
      rw [hsnapshot, Boot.perform, openWith, ends_bind, ends_uninterrupted]
      refine ends_settle_of ?_ fun _ _ => h
      intro _ _
      simp only [hwal]
      exact h

theorem ends_perform_offers {this : PersistedIndex I} {call : Call M I}
    (hhome : Homed path this) (hcall : call.Keeps path)
    (hpolicy : ∀ snapshot, call.snapshot this = some snapshot → snapshot.2.fsyncPolicy ≠ .never)
    (h : (w.disk targetDir loss).Offers path C) :
    Ends (call.perform b T) (this, w)
      (fun _ s =>
        (s.2.disk targetDir loss).Offers path (foundAfter b T C (call.snapshot this) true))
      (fun _ s => (s.2.disk targetDir loss).Offers path
        (foundAfter b T C (call.snapshot this) false)) := by
  cases call with
  | mutation r =>
    have hstays : Confined (StaysHome (LogWork path) path) (mutation b T r) := confined_mutation r
    refine (hstays (this, w)).mono ?_ ?_
    · exact fun _ _ h' => offers_of_logWork (h'.world hhome) h
    · exact fun _ _ h' => offers_of_logWork (h'.world hhome) h
  | indexMut change => exact h
  | save =>
    rw [Call.perform, save, ends_bind, ends_get, ends_within]
    exact ends_writeSnapshot_offers hunix (hpolicy _ rfl) hhome.config h
  | checkpoint =>
    rw [Call.perform, checkpoint, ends_bind, ends_get, ends_bind, ends_within]
    refine (ends_writeSnapshot_offers hunix (hpolicy _ rfl) hhome.config h).mono ?_
      fun _ _ h => h
    intro _ w₁ h₁
    cases hwal : this.wal with
    | none => exact h₁
    | some wal =>
      rw [ends_within]
      have hlog {log : LogState} (hemitted : LogEmitted (wal, w₁) log) :
          (log.2.disk targetDir loss).Offers path (Written b T (this.inner, this.config)) := by
        refine offers_of_logWork (hemitted.world.mono fun e he => .inr ?_) h₁
        rw [← hhome.wal wal hwal]
        exact he
      refine (Wal.confined_reset (wal, w₁)).mono (fun _ _ => hlog) ?_
      exact fun _ _ h => (hlog h).mono Set.subset_union_right
  | load config =>
    have hboot : Ends ((Boot.load config).perform b T) w _ _ :=
      ends_boot_offers hunix hcall hpolicy h
    rw [Call.perform, replacing, ends_bind, ends_within]
    exact hboot.mono (fun _ _ h => h) fun _ _ h => h
  | openWith x config =>
    have hboot : Ends ((Boot.openWith x config).perform b T) w _ _ :=
      ends_boot_offers hunix hcall hpolicy h
    rw [Call.perform, replacing, ends_bind, ends_within]
    exact hboot.mono (fun _ _ h => h) fun _ _ h => h

end Programs

/-- A machine whose snapshot file may hold these candidates. -/
structure Register (loss : Loss) (b : Build M) (T : IndexType ε M I) (path : Path)
    (initial : Option Bytes)
    (cs : List (Option (I × PersistConfig))) (m : Machine I) : Prop where
  homed : m.Homed path
  offers : (m.world.disk targetDir loss).Offers path (Contents b T initial cs)

theorem Happens.register (hunix : b.unix = true) {i : Incident ε M I} {initial : Option Bytes}
    {cs : List (Option (I × PersistConfig))} (h : Happens b T loss m i m') (hi : i.Concerns path)
    (hsyncs : i.Syncs) (hm : Register loss b T path initial cs m) :
    Register loss b T path initial (i.candidates cs) m' := by
  have hoffers := hm.offers
  by_cases hpower : i = .lostPower
  · subst hpower
    cases h with
    | @lostPower w index files hfiles =>
      refine ⟨fun _ h => (nomatch h), (offers_of_history rfl path).mono ?_⟩
      rw [World.files_restarted, Set.singleton_subset_iff]
      exact hoffers.outcome hfiles
  · refine ⟨(h.staysHome hi hpower hm.homed).2, ?_⟩
    rw [contents_candidates]
    cases h with
    | @opened w w' boot this script hcall =>
      have hboot : Ends (boot.perform b T) (w.withScript script) _ _ :=
        ends_boot_offers hunix hi hsyncs hoffers
      have hend := ends_of_ok hboot hcall
      exact hend
    | @refused w w' boot e script hcall =>
      have hboot : Ends (boot.perform b T) (w.withScript script) _ _ :=
        ends_boot_offers hunix hi hsyncs hoffers
      have hend := ends_of_error hboot hcall
      exact hend
    | @called w this call s result script hcall hup =>
      have hcalled : Ends (call.perform b T) (this, w.withScript script) _ _ :=
        ends_perform_offers hunix (hm.homed this rfl) hi hsyncs hoffers
      exact outcome_of_ends (R := fun result s => (s.2.disk targetDir loss).Offers path
        (foundAfter b T (Contents b T initial cs) (call.snapshot this) result.isOk)) hcalled hcall
    | @crashed w this call s script hcall =>
      have hcalled : Ends (call.perform b T) (this, w.withScript script) _ _ :=
        ends_perform_offers hunix (hm.homed this rfl) hi hsyncs hoffers
      exact outcome_of_ends (R := fun result s => (s.2.disk targetDir loss).Offers path
        (foundAfter b T (Contents b T initial cs) (call.snapshot this) result.isOk)) hcalled hcall
    | dropped => exact hoffers
    | lostPower hfiles => exact absurd rfl hpower

/-- Whatever has happened since the machine started, a loss of power now leaves one whole snapshot
under the path: the last that was acknowledged, or one attempted since. -/
theorem life_snapshot (hunix : b.unix = true) (hstart : w.history = [])
    {is : List (Incident ε M I)} (hlife : Runs (Happens b T loss) ⟨none, w⟩ is m)
    (hconcerns : ∀ i ∈ is, i.Concerns path) (hsyncs : ∀ i ∈ is, i.Syncs) {files : Files Path}
    (hfiles : files ∈ m.world.outcomes targetDir loss) :
    files path ∈ Contents b T (w.files path) (is.foldl Incident.candidates [none]) := by
  have hregister : Register loss b T path (w.files path) [none] ⟨none, w⟩ := by
    refine ⟨fun _ h => (nomatch h), (offers_of_history hstart path).mono ?_⟩
    exact Set.singleton_subset_iff.mpr (.inl ⟨List.mem_singleton_self _, rfl⟩)
  have hend := hlife.track Incident.candidates
    (fun m cs => Register loss b T path (w.files path) cs m)
    (fun i => i.Concerns path ∧ i.Syncs) (fun hi hrel hstep => hstep.register hunix hi.1 hi.2 hrel)
    (fun i hi => ⟨hconcerns i hi, hsyncs i hi⟩) hregister
  exact hend.offers.outcome hfiles

theorem interruptedLife_syncs : ∀ i ∈ interruptedLife, i.Syncs := by
  have hconfig : grownIndex.config = alwaysConfig := rfl
  simp [interruptedLife, Incident.Syncs, Incident.snapshot, Boot.snapshot, Call.snapshot,
    hconfig, alwaysConfig]

theorem interruptedLife_candidates : interruptedLife.foldl Incident.candidates [none] =
    [some ([5], alwaysConfig), some ([], alwaysConfig)] := rfl

/-- The rename that was stopped may be lost. -/
theorem stoppedWorld_loses (loss : Loss) : ∃ files ∈ stoppedWorld.outcomes targetDir loss,
    files nestedPath = (snapshotBytes defaultBuild idIndex [] alwaysConfig).toOption := by
  obtain ⟨temp, bytes, hhistory⟩ : ∃ temp bytes, stoppedWorld.history = openedBeside.2.history ++
      [.create temp, .write temp 0 bytes, .sync temp, .rename temp nestedPath] :=
    ⟨⟨true, ["d", "x.tmp.1.9"]⟩,
      ((snapshotBytes defaultBuild idIndex [5] alwaysConfig).toOption).getD [], by decide +kernel⟩
  have hbase : stoppedWorld.base = openedBeside.2.base := rfl
  refine ⟨_, World.names_before_mem_outcomes targetDir loss hbase hhistory (by simp), ?_⟩
  cases loss with
  | fromEnd => decide +kernel
  | anywhere => decide +kernel

/-- The new snapshot is in place when the machine stops. A loss of power leaves it or brings back
the one before. -/
theorem life_snapshot_sample :
    Runs (Happens defaultBuild idIndex .anywhere) ⟨none, neighbourWorld⟩ interruptedLife
      ⟨none, stoppedWorld⟩ ∧
    stoppedWorld.files nestedPath =
      (snapshotBytes defaultBuild idIndex [5] alwaysConfig).toOption ∧
    (∃ files ∈ stoppedWorld.outcomes targetDir .anywhere,
      files nestedPath = (snapshotBytes defaultBuild idIndex [] alwaysConfig).toOption) ∧
    ∀ files ∈ stoppedWorld.outcomes targetDir .anywhere, ∃ full,
      files nestedPath = some full ∧
        (snapshotBytes defaultBuild idIndex [5] alwaysConfig = .ok full ∨
          snapshotBytes defaultBuild idIndex [] alwaysConfig = .ok full) := by
  refine ⟨runs_interruptedLife _, files_stoppedWorld, stoppedWorld_loses _, fun files hfiles => ?_⟩
  have hcontent := life_snapshot rfl rfl (runs_interruptedLife .anywhere) interruptedLife_concerns
    interruptedLife_syncs hfiles
  rw [interruptedLife_candidates] at hcontent
  rcases hcontent with ⟨hnone, -⟩ | ⟨snapshot, hmem, full, hfull, hcontent⟩
  · simp at hnone
  · refine ⟨full, hcontent, ?_⟩
    simp only [List.mem_cons, Option.some.injEq, List.not_mem_nil, or_false] at hmem
    rcases hmem with rfl | rfl
    · exact .inl hfull
    · exact .inr hfull

/-- Once a snapshot has been acknowledged, a snapshot-only load after a loss of power gives the
index it was made of, or one whose snapshot was attempted since. -/
theorem life_recovers (hunix : b.unix = true) (hround : ∀ x, T.RoundTrips x)
    (htype : (utf8 T.indexType).length ≤ maxIndexTypeLen) (hstart : w.history = [])
    {is : List (Incident ε M I)} (hlife : Runs (Happens b T loss) ⟨none, w⟩ is m)
    (hconcerns : ∀ i ∈ is, i.Concerns path) (hsyncs : ∀ i ∈ is, i.Syncs)
    (hack : none ∉ is.foldl Incident.candidates [none])
    (hinv : ∀ snapshot, some snapshot ∈ is.foldl Incident.candidates [none] →
      SnapshotInverts b T snapshot.2 snapshot.1)
    {config : PersistConfig} (hpath : config.path = path) (hwal : config.walEnabled = false)
    (hvalid : validateConfig b config = (.ok () : Except (PersistError ε) Unit))
    {files : Files Path} (hfiles : files ∈ m.world.outcomes targetDir loss) :
    ∃ snapshot, some snapshot ∈ is.foldl Incident.candidates [none] ∧
      Recovers b T config (m.world.restarted files) snapshot.1 := by
  subst hpath
  rcases life_snapshot hunix hstart hlife hconcerns hsyncs hfiles with
    ⟨hnone, -⟩ | ⟨snapshot, hmem, full, hfull, hcontent⟩
  · exact absurd hnone hack
  · refine ⟨snapshot, hmem, ?_⟩
    have hdecode := decodeSnapshot_snapshotBytes (hround snapshot.1) htype (hinv snapshot hmem)
      hfull
    obtain ⟨w', hload⟩ := exists_load_snapshot (w := (m.world.restarted files).withScript []) rfl
      hvalid hwal hcontent hdecode
    exact ⟨_, w', hload, rfl⟩

def snapshotOnlyConfig : PersistConfig := { alwaysConfig with walEnabled := false }

/-- After the loss of power the index of the save that was stopped is loaded, or the one before. -/
theorem life_recovers_sample :
    Runs (Happens defaultBuild idIndex .anywhere) ⟨none, neighbourWorld⟩ interruptedLife
      ⟨none, stoppedWorld⟩ ∧
    (∃ files ∈ stoppedWorld.outcomes targetDir .anywhere,
      files nestedPath = (snapshotBytes defaultBuild idIndex [] alwaysConfig).toOption) ∧
    ∀ files ∈ stoppedWorld.outcomes targetDir .anywhere,
      Recovers defaultBuild idIndex snapshotOnlyConfig (stoppedWorld.restarted files) [5] ∨
        Recovers defaultBuild idIndex snapshotOnlyConfig (stoppedWorld.restarted files) [] := by
  refine ⟨runs_interruptedLife _, stoppedWorld_loses _, fun files hfiles => ?_⟩
  have hcandidates (snapshot : List UInt64 × PersistConfig)
      (hmem : some snapshot ∈ interruptedLife.foldl Incident.candidates [none]) :
      snapshot = ([5], alwaysConfig) ∨ snapshot = ([], alwaysConfig) := by
    rw [interruptedLife_candidates] at hmem
    simpa using hmem
  have hinverts (snapshot : List UInt64 × PersistConfig)
      (hmem : some snapshot ∈ interruptedLife.foldl Incident.candidates [none]) :
      SnapshotInverts defaultBuild idIndex snapshot.2 snapshot.1 := by
    rcases hcandidates snapshot hmem with rfl | rfl
    · exact alwaysConfig_inverts [5]
    · exact alwaysConfig_inverts []
  have hpath : snapshotOnlyConfig.path = nestedPath := rfl
  obtain ⟨snapshot, hmem, hrecovers⟩ := life_recovers rfl idIndex_roundTrips (by decide) rfl
    (runs_interruptedLife .anywhere) interruptedLife_concerns interruptedLife_syncs
    (by simp [interruptedLife_candidates]) hinverts hpath rfl rfl hfiles
  rcases hcandidates snapshot hmem with rfl | rfl
  · exact .inl hrecovers
  · exact .inr hrecovers

end PersistedIndex

end IqdbPersist
