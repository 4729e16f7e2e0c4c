import IqdbPersist.DamagedSnapshot
import IqdbPersist.OutlinedCalls
import IqdbPersist.RecoveryContract

/-!
# Lives, in outline

Whatever is cut short in the life of an index, some outline that the life leads to says what is in
memory and what loading recovers in either mode. Where nothing is cut short, it can be computed.
-/

namespace IqdbPersist

open CrashLogic FileSystem LogState Simulation

variable {ε M I : Type} {b : Build M} {T : IndexType ε M I}

namespace PersistedIndex

variable {path : Path} {o : Outline M I} {settled : Bool} {index : Option (PersistedIndex I)}
  {this : PersistedIndex I} {w w' : World Path}

variable {s s' : Machine I × Bool} {i : Incident ε M I}

theorem Undergoes.traces (hT : Contract b T) (hstep : Undergoes b T s i s')
    (hi : i.Fits b T path) (h : Pictures b T path o s) : Traces b T path o i s' := by
  cases hstep with
  | @opened w w' boot this settled script hfree hcall =>
    cases boot with
    | openWith x config => exact ⟨_, .after _, h.opened hT hi.1 hi.2 hcall⟩
    | load config => exact ⟨_, .after _, h.loaded hT hi (hfree config rfl) hcall⟩
  | @refused w w' boot e settled script hfree hcall =>
    cases boot with
    | openWith x config => exact h.openRefused hT hi.1 hi.2 hcall
    | load config => exact h.loadRefused hi (hfree config rfl) hcall
  | dropped => exact ⟨_, .after _, h.closed⟩
  | @called w this call t result settled script hsettled hcall =>
    refine outcome_of_ends (R := fun result t => Traces b T path o (.called this call result)
      (Machine.after t result, call.leaves this.wal.isSome result settled)) ?_ hcall
    cases call with
    | mutation r => exact h.mutated hT (hsettled r rfl) hi
    | save =>
      refine (h.saved hT hi (.inl rfl)).mono ?_ fun _ _ htraces => htraces
      rintro _ ⟨_, w'⟩ ⟨rfl, hpictures⟩
      refine ⟨_, .after _, ?_⟩
      rw [h.after_ok]
      exact hpictures
    | checkpoint => exact h.checkpointed hT hi
    | indexMut change =>
      refine ⟨_, .after _, ?_⟩
      rw [h.after_ok]
      exact (h.withScript script).changed (change this.inner)
    | load config => exact hi.elim
    | openWith x config => exact hi.elim

theorem traces_of_runs (hT : Contract b T) {is : List (Incident ε M I)}
    (hlife : Runs (Undergoes b T) s is s') (hfits : ∀ i ∈ is, i.Fits b T path)
    (h : Pictures b T path o s) :
    ∃ o', Runs (Outline.Leads T) o is o' ∧ Pictures b T path o' s' := by
  induction hlife with
  | nil => exact ⟨o, .nil o, h⟩
  | snoc _ hstep ih =>
    obtain ⟨o', hrun, hbefore⟩ := ih fun i hi => hfits i (List.mem_append_left _ hi)
    obtain ⟨o'', hleads, hafter⟩ := hstep.traces hT
      (hfits _ (List.mem_append_right _ (List.mem_singleton_self _))) hbefore
    exact ⟨o'', hrun.snoc hleads, hafter⟩

theorem outline_of_runs {o' : Outline M I} {is : List (Incident ε M I)}
    (hrun : Runs (Outline.Leads T) o is o') (hi : ∀ i ∈ is, ¬ i.Interrupted) :
    o' = is.foldl (Outline.after T) o := by
  induction hrun with
  | nil => rfl
  | snoc _ hleads ih =>
    rw [List.foldl_append, ← ih fun i hmem => hi i (List.mem_append_left _ hmem)]
    exact hleads.eq_after (hi _ (List.mem_append_right _ (List.mem_singleton_self _)))

theorem Pictures.replays_iff (hdim : T.ChecksDim)
    (h : Pictures b T path o (⟨index, w⟩, settled)) (base x : I) :
    Replays b T (w.files (walPath path)) base x ↔
      Journal.replay T.change (o.log.getD []) base = some x := by
  have hlog := h.log
  generalize o.log = log, w.files (walPath path) = file at hlog ⊢
  cases hlog with
  | none => exact eq_comm.trans (Option.some_inj).symm
  | @some rs bytes hreads =>
    have hends := ends_applyRecords (T := T) (x := base) rs 0
    change _ ↔ Journal.replay T.change rs base = some x
    constructor
    · rintro ⟨rs', n, hparse, happly⟩
      rw [hreads.parses] at hparse
      cases hparse
      exact (ends_of_ok hends happly).2
    · intro hreplay
      unfold Ends at hends
      split at hends
      · rename_i n x' happly
        rw [hends.2] at hreplay
        cases hreplay
        exact ⟨rs, n, hreads.parses, happly⟩
      · rw [hends.1 hdim] at hreplay
        cases hreplay

theorem Pictures.log_ne_none (h : Pictures b T path o (⟨index, w⟩, settled))
    {rs : List (WalRecord M)} (hrs : o.log = some rs) : w.files (walPath path) ≠ none := by
  have hlog : Option.Rel _ o.log (w.files (walPath path)) := h.log
  rw [hrs] at hlog
  obtain ⟨bytes, hbytes, -⟩ := exists_of_rel_some hlog
  rw [hbytes]
  exact Option.some_ne_none bytes

theorem Pictures.recovers_iff (hT : Contract b T)
    (h : Pictures b T path o (⟨index, w⟩, settled)) {config : PersistConfig}
    (hpath : config.path = path)
    (hvalid : validateConfig b config = (.ok () : Except (PersistError ε) Unit))
    (hopenable : config.walEnabled = true → Openable path w) (y : I) :
    Recovers b T config w y ↔ o.loaded T config.walEnabled = some y := by
  subst hpath
  by_cases hwal : config.walEnabled = true
  · rw [recovers_iff_loads hwal, Outline.loaded, if_pos hwal, Option.bind_eq_some_iff]
    constructor
    · rintro ⟨-, ⟨full, base, hfull, hdecode, hreplays⟩, -⟩
      rw [h.replays_iff hT.checksDim] at hreplays
      exact ⟨base, (h.decodes_iff base).mpr ⟨full, hfull, hdecode⟩, hreplays⟩
    · rintro ⟨base, hbase, hreplay⟩
      obtain ⟨full, hfull, hdecode⟩ := (h.decodes_iff base).mp hbase
      refine ⟨hvalid, ⟨full, base, hfull, hdecode, ?_⟩, hopenable hwal⟩
      rwa [h.replays_iff hT.checksDim]
  · rw [Outline.loaded, if_neg hwal, h.decodes_iff]
    rw [Bool.not_eq_true] at hwal
    constructor
    · rintro ⟨this, w', hload, rfl⟩
      obtain ⟨full, base, hfull, hdecode, rfl, -⟩ :=
        ends_of_ok (ends_load_unlogged (w := w.withScript []) hwal) hload
      exact ⟨full, hfull, hdecode⟩
    · rintro ⟨full, hfull, hdecode⟩
      exact (recovers_iff_decodes hwal hfull y).mpr ⟨hvalid, hdecode⟩

/-- Unless its log is unsettled, the index that is open accepts what the bare index accepts. -/
theorem Pictures.mutation_ok_iff (h : Pictures b T path o (⟨some this, w⟩, settled))
    {r : WalRecord M} (hr : this.wal.isSome → settled = true ∧ Loggable b r) :
    (∃ a s, mutation b T r (this, w.withScript []) = .ok a s) ↔ T.Accepts r this.inner := by
  cases hwal : this.wal with
  | none =>
    refine ok_iff_of_ends ((ends_mutation_unlogged hwal r).mono ?_ ?_)
    · exact fun _ _ hs => hs.1
    · exact fun _ _ hs => hs.1
  | some wal =>
    obtain ⟨hsettled, hloggable⟩ := hr (by rw [hwal]; rfl)
    obtain ⟨rs, content, -, -, -, -, -, -, hpos⟩ := h.logged hwal
    have hat := (hpos hsettled).withScript []
    refine ok_iff_of_ends ((ends_mutation_calm hat rfl hwal r).mono ?_ ?_)
    · rintro _ _ ⟨log', -, haccepts, -⟩
      exact haccepts
    · rintro e _ ⟨x', log', -, -, -, -, -, ⟨happ, -⟩ | ⟨source, -, hreject⟩⟩
      · exact absurd ⟨hloggable.1, hloggable.length_body⟩ happ
      · simp [IndexType.Accepts, hreject]

theorem Pictures.exists_mutated (h : Pictures b T path o (⟨some this, w⟩, settled))
    {r : WalRecord M} (hr : this.wal.isSome → settled = true ∧ Loggable b r)
    (haccepts : T.Accepts r this.inner) :
    ∃ t : Session I, Undergoes b T (⟨some this, w⟩, settled)
      (.called this (.mutation r) (.ok ())) (⟨some t.1, t.2⟩, settled) := by
  obtain ⟨_, t, hmutation⟩ := (h.mutation_ok_iff hr).mpr haccepts
  have houtcome : Call.outcome b T (.mutation r) (this, w.withScript []) = (.ok (), t) := by
    rw [Call.outcome, Call.perform, hmutation]
  exact ⟨t, .called [] (fun _ _ hthis => (hr hthis).1) houtcome⟩

/-- Whatever is cut short in a life, in whatever modes the index is opened and loaded, some outline
that the life leads to says what the index in memory is, what it accepts, and what loading recovers
in either mode. -/
theorem life_outlined (hT : Contract b T) (hstart : Pictures b T path o s)
    {is : List (Incident ε M I)} (hlife : Runs (Undergoes b T) s is s')
    (hfits : ∀ i ∈ is, i.Fits b T path) :
    ∃ o', Runs (Outline.Leads T) o is o' ∧
      s'.1.index.map (fun this => (this.inner, this.wal.isSome)) = o'.memory ∧
      (∀ this r, s'.1.index = some this →
        (this.wal.isSome → s'.2 = true ∧ Loggable b r) →
          ((∃ a t, mutation b T r (this, s'.1.world.withScript []) = .ok a t) ↔
            T.Accepts r this.inner)) ∧
      ∀ config : PersistConfig, config.path = path →
        validateConfig b config = (.ok () : Except (PersistError ε) Unit) →
        (config.walEnabled = true → Openable path s'.1.world) → ∀ y,
          Recovers b T config s'.1.world y ↔ o'.loaded T config.walEnabled = some y := by
  obtain ⟨o', hrun, hend⟩ := traces_of_runs hT hlife hfits hstart
  obtain ⟨⟨index, w⟩, settled⟩ := s'
  refine ⟨o', hrun, hend.memory, ?_, ?_⟩
  · rintro this r ⟨⟩ hr
    exact hend.mutation_ok_iff hr
  · exact fun config hpath hvalid hopenable => hend.recovers_iff hT hpath hvalid hopenable

/-- Nothing is there yet. -/
def blank : Outline M I := ⟨none, none, none⟩

theorem pictures_blank : Pictures defaultBuild idIndex sampleConfig.path blank
    (⟨none, emptyWorld⟩, true) where
  snapshot := .none
  log := .none
  memory := rfl
  handles := by
    rintro _ ⟨⟩

/-- An index that is saved without a log and dropped. -/
def savedLife : List (Incident IdError (List (String × Value)) (List UInt64)) :=
  [.booted (.openWith [5] plainConfig) (.ok ()),
    .called ⟨[5], plainConfig, none⟩ .save (.ok ()), .dropped]

theorem savedLife_fits :
    ∀ i ∈ savedLife, i.Fits defaultBuild idIndex sampleConfig.path := by
  intro i hi
  simp only [savedLife, List.mem_cons, List.not_mem_nil, or_false] at hi
  rcases hi with rfl | rfl | rfl
  · exact ⟨rfl, fun h => by cases h⟩
  · exact sampleConfig_inverts [5]
  · trivial

/-- A snapshot is saved without a log and then loaded with one, which takes an insert: loading with
the log has the insert, and loading without it does not. -/
theorem life_outlined_both : ∃ this, ∃ s : Session (List UInt64),
    Runs (Undergoes defaultBuild idIndex) (⟨none, emptyWorld⟩, true)
      (savedLife ++ [.booted (.load sampleConfig) (.ok ())] ++
        [.called this (.mutation sampleInsert) (.ok ())]) (⟨some s.1, s.2⟩, true) ∧
    Recovers defaultBuild idIndex sampleConfig s.2 [5, 7] ∧
    Recovers defaultBuild idIndex plainConfig s.2 [5] := by
  obtain ⟨s, hsaved, hpermits⟩ : ∃ s, Call.outcome defaultBuild idIndex (.save : Call _ _)
      (⟨[5], plainConfig, none⟩, (emptyWorld.withScript []).withScript []) = (.ok (), s) ∧
    s.2.permits (walPath sampleConfig.path) = true := ⟨_, rfl, rfl⟩
  have hlife : Runs (Undergoes defaultBuild idIndex) (⟨none, emptyWorld⟩, true) savedLife
      (⟨none, s.2⟩, true) :=
    (((Runs.nil _).snoc (Undergoes.opened [] (by simp) rfl)).snoc
      (.called [] (by simp) hsaved)).snoc .dropped
  obtain ⟨o₁, hrun₁, hpictures⟩ :=
    traces_of_runs idIndex_contract hlife savedLife_fits pictures_blank
  obtain rfl := outline_of_runs hrun₁ (by simp [savedLife, Incident.Interrupted])
  have hopenable : Openable sampleConfig.path s.2 := .inr hpermits
  obtain ⟨this, w, hload, hinner⟩ :=
    (hpictures.recovers_iff idIndex_contract (rfl : sampleConfig.path = _) rfl (fun _ => hopenable)
      [5]).mpr rfl
  have hfree : FaultFree [] := fun _ => List.not_mem_nil
  have hloaded := hpictures.loaded idIndex_contract rfl (fun _ => hfree) hload
  have hboot : (Boot.load sampleConfig).perform defaultBuild idIndex (s.2.withScript []) =
      .ok this w := hload
  obtain ⟨s', hinsert⟩ := hloaded.exists_mutated (fun _ => ⟨rfl, sampleInsert_loggable⟩)
    (by rw [hinner]; rfl)
  have hlife' : Runs (Undergoes defaultBuild idIndex) (⟨none, emptyWorld⟩, true)
      (savedLife ++ [.booted (.load sampleConfig) (.ok ())] ++
        [.called this (.mutation sampleInsert) (.ok ())]) (⟨some s'.1, s'.2⟩, true) :=
    (hlife.snoc (.opened [] (fun _ _ _ => hfree) hboot)).snoc hinsert
  have hfits : ∀ i ∈ savedLife ++ [.booted (.load sampleConfig) (.ok ())] ++
      [.called this (.mutation sampleInsert) (.ok ())],
        i.Fits defaultBuild idIndex sampleConfig.path := by
    simp only [List.forall_mem_append, List.forall_mem_singleton]
    exact ⟨⟨savedLife_fits, rfl⟩, fun _ => sampleInsert_loggable.2⟩
  obtain ⟨o', hrun, -, -, hrecovers⟩ :=
    life_outlined idIndex_contract pictures_blank hlife' hfits
  obtain rfl := outline_of_runs hrun (by simp [savedLife, Incident.Interrupted])
  obtain ⟨o₂, hrun₂, hend⟩ := traces_of_runs idIndex_contract hlife' hfits pictures_blank
  obtain rfl := outline_of_runs hrun₂ (by simp [savedLife, Incident.Interrupted])
  have hopens : Openable sampleConfig.path s'.2 := .inl (hend.log_ne_none rfl)
  exact ⟨this, s', hlife', (hrecovers sampleConfig rfl rfl (fun _ => hopens) _).mpr rfl,
    (hrecovers plainConfig rfl rfl (fun h => by cases h) _).mpr rfl⟩

end PersistedIndex

end IqdbPersist
