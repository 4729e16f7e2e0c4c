import IqdbPersist.InterruptedCheckpoint
import IqdbPersist.OutlinedLife

/-!
# An index opened over another

Opening in log mode over the files of an index replaces its snapshot by a rename and then truncates
its log. In between, the log of the old index stands beside the snapshot of the new one, and is
replayed on it by the next load.
-/

namespace IqdbPersist

open CrashLogic FileSystem LogState Simulation

variable {ε M I : Type} {b : Build M} {T : IndexType ε M I}

namespace PersistedIndex

variable {path : Path} {o : Outline M I} {s : Machine I × Bool} {settled : Bool}
  {w w' : World Path} {config : PersistConfig} {x : I}

theorem Outline.loaded_opened (o : Outline M I) (x : I) (logged : Bool) :
    ({ o with snapshot := some x, log := some [] } : Outline M I).loaded T logged = some x := by
  cases logged <;> rfl

/-- After any life, cut short by a crash or an I/O error anywhere, opening in log mode leaves the
old index if the rename did not happen, the new one if the truncation of the log did too, and
otherwise the new one with the old log replayed on it. -/
theorem recovers_opening_iff (hT : Contract b T) (hstart : Pictures b T path o s)
    {is : List (Incident ε M I)} (hlife : Runs (Undergoes b T) s is (⟨none, w⟩, settled))
    (hfits : ∀ i ∈ is, i.Fits b T path) (hpath : config.path = path)
    (hwal : config.walEnabled = true)
    (hvalid : validateConfig b config = (.ok () : Except (PersistError ε) Unit))
    (hinv : SnapshotInverts b T config x) {script : List Verdict} {e : Halt (PersistError ε)}
    (hcall : openWith b T x config (w.withScript script) = .error e w')
    {config' : PersistConfig} (hpath' : config'.path = path)
    (hvalid' : validateConfig b config' = (.ok () : Except (PersistError ε) Unit))
    (hopenable : config'.walEnabled = true → Openable path w') :
    ∃ o', Runs (Outline.Leads T) o is o' ∧
      (¬ Replaces b T ⟨x, config, none⟩ (w.withScript script) → ∀ y,
        Recovers b T config' w' y ↔ o'.loaded T config'.walEnabled = some y) ∧
      (Replaces b T ⟨x, config, none⟩ (w.withScript script) →
        ¬ Restarts b ⟨x, config, none⟩ (w.withScript script) → ∀ y,
          Recovers b T config' w' y ↔
            ({ o' with snapshot := some x } : Outline M I).loaded T config'.walEnabled = some y) ∧
      (Replaces b T ⟨x, config, none⟩ (w.withScript script) →
        Restarts b ⟨x, config, none⟩ (w.withScript script) → ∀ y,
          Recovers b T config' w' y ↔ x = y) := by
  obtain ⟨o', hrun, hend⟩ := traces_of_runs hT hlife hfits hstart
  refine ⟨o', hrun, ?_⟩
  have hrecovers {o'' : Outline M I} (h : Pictures b T path o'' (⟨none, w'⟩, false)) (y : I) :
      Recovers b T config' w' y ↔ o''.loaded T config'.walEnabled = some y :=
    h.recovers_iff hT hpath' hvalid' hopenable y
  have hcut : CutOpening b T ⟨x, config, none⟩ (w.withScript script) w' := by
    rcases ends_of_error (ends_openWith_cut hwal) hcall with ⟨-, hinvalid⟩ | ⟨-, hcut⟩
    · exact absurd hvalid hinvalid
    · exact hcut
  rcases hend.openingCut hT hpath hinv hcut with
    ⟨hno, h⟩ | ⟨hreplaces, hno, h⟩ | ⟨hreplaces, hrestarts, h⟩
  · exact ⟨fun _ => hrecovers h, fun hyes => absurd hyes hno, fun hyes => absurd hyes hno⟩
  · exact ⟨fun hnot => absurd hreplaces hnot, fun _ _ => hrecovers h,
      fun _ hyes => absurd hyes hno⟩
  · refine ⟨fun hnot => absurd hreplaces hnot, fun _ hnot => absurd hrestarts hnot, ?_⟩
    intro _ _ y
    rw [hrecovers h, Outline.loaded_opened, Option.some_inj]

def insertedLife (this : PersistedIndex (List UInt64)) :
    List (Incident IdError (List (String × Value)) (List UInt64)) :=
  [.booted (.openWith [] sampleConfig) (.ok ()), .called this (.mutation sampleInsert) (.ok ()),
    .dropped]

theorem exists_insertedLife : ∃ this w, Runs (Undergoes defaultBuild idIndex)
    (⟨none, emptyWorld⟩, true) (insertedLife this) (⟨none, w⟩, true) ∧
    Only (fun p => p = sampleConfig.path ∨ p = walPath sampleConfig.path) emptyWorld w := by
  obtain ⟨this, w, hopened⟩ : ∃ this w,
      openWith defaultBuild idIndex [] sampleConfig (emptyWorld.withScript []) = .ok this w :=
    ⟨_, _, rfl⟩
  have hfirst : Undergoes defaultBuild idIndex (⟨none, emptyWorld⟩, true)
      (.booted (.openWith [] sampleConfig) (.ok ())) (⟨some this, w⟩, true) :=
    .opened [] (by simp) hopened
  have hempty := pictures_blank.opened idIndex_contract rfl (fun _ => sampleConfig_inverts [])
    hopened
  have hinner := hempty.inner_eq rfl
  obtain ⟨-, -, -, -, name, full, wal, -, -, -, hwal, hpath, hat, honly⟩ :=
    ends_of_ok (ends_openWith (rfl : sampleConfig.walEnabled = true)) hopened
  obtain ⟨_, t, hinsert⟩ := (hempty.mutation_ok_iff fun _ => ⟨rfl, sampleInsert_loggable⟩).mpr
    (by rw [hinner]; rfl)
  have hcalled : Undergoes defaultBuild idIndex (⟨some this, w⟩, true)
      (.called this (.mutation sampleInsert) (.ok ())) (⟨some t.1, t.2⟩, true) := by
    refine .called [] (fun _ _ _ => rfl) ?_
    rw [Call.outcome, Call.perform, hinsert]
  obtain ⟨log, rfl, -, -, hfollows, -⟩ :=
    ends_of_ok (ends_mutation (hat.withScript []) hwal sampleInsert) hinsert
  have honly' := hfollows.only.mono fun p hp => (.inr (hp.trans hpath) :
    p = sampleConfig.path ∨ p = walPath sampleConfig.path)
  have honly₀ := honly.trans ⟨honly'.files, honly'.dirs, honly'.permits⟩
  exact ⟨this, _, (((Runs.nil _).snoc hfirst).snoc hcalled).snoc .dropped,
    honly₀.files, honly₀.dirs, honly₀.permits⟩

/-- The index `[5]` is opened over one that has logged the insert of `7`, and cut off between the
two steps: loading gives `[5, 7]`, which neither of the two has ever been. -/
theorem recovers_opening_iff_between : ∃ this w e w',
    Runs (Undergoes defaultBuild idIndex) (⟨none, emptyWorld⟩, true) (insertedLife this)
      (⟨none, w⟩, true) ∧
    openWith defaultBuild idIndex [5] sampleConfig (w.withScript betweenSteps) = .error e w' ∧
    Recovers defaultBuild idIndex sampleConfig w' [5, 7] := by
  obtain ⟨this, w, hlife, honly⟩ := exists_insertedLife
  have hfits : ∀ i ∈ insertedLife this, i.Fits defaultBuild idIndex sampleConfig.path := by
    intro i hi
    simp only [insertedLife, List.mem_cons, List.not_mem_nil, or_false] at hi
    rcases hi with rfl | rfl | rfl
    · exact ⟨rfl, fun _ => sampleConfig_inverts []⟩
    · exact fun _ => sampleInsert_loggable.2
    · trivial
  have hno : ¬ Restarts defaultBuild ⟨[5], sampleConfig, none⟩ (w.withScript betweenSteps) := by
    rintro ⟨⟨-, heffect⟩, -⟩
    cases heffect
  have hreplaces : Replaces defaultBuild idIndex ⟨[5], sampleConfig, none⟩
      (w.withScript betweenSteps) := by
    refine ⟨_, "x", rfl, rfl, ⟨?_, congrFun honly.permits _⟩, rfl⟩
    have htemp : tempPathOf sampleConfig.path "x" w ≠ sampleConfig.path := tempPathOf_ne rfl
    have htemp' : tempPathOf sampleConfig.path "x" w ≠ walPath sampleConfig.path :=
      tempPathOf_ne_walPath rfl
    exact honly.files (tempPathOf sampleConfig.path "x" w) (by simp [htemp, htemp'])
  have hopening : Ends (openWith defaultBuild idIndex [5] sampleConfig)
      (w.withScript betweenSteps) _ _ := ends_openWith_cut rfl
  obtain ⟨e, w', hcall, hcut⟩ := error_of_ends
    (hopening.mono (fun _ _ hyes => hno hyes.2) fun _ _ h => h)
  obtain ⟨o₁, hrun₁, hend⟩ := traces_of_runs idIndex_contract hlife hfits pictures_blank
  obtain rfl := outline_of_runs hrun₁ (by simp [insertedLife, Incident.Interrupted])
  have hopenable : Openable sampleConfig.path w' := by
    rcases hcut with ⟨-, hinvalid⟩ | ⟨-, hcut⟩
    · exact absurd rfl hinvalid
    · cases hcut with
      | kept hkept => exact absurd hreplaces hkept
      | replaced hreplaces hfull hno hsnapshot hlog =>
        left
        rw [hlog]
        exact hend.log_ne_none rfl
      | emptied n hreplaces hfull hyes => exact absurd hyes hno
  obtain ⟨o', hrun, -, hbetween, -⟩ := recovers_opening_iff idIndex_contract pictures_blank hlife
    hfits rfl rfl rfl (sampleConfig_inverts [5]) hcall (rfl : sampleConfig.path = _) rfl
    fun _ => hopenable
  obtain rfl := outline_of_runs hrun (by simp [insertedLife, Incident.Interrupted])
  exact ⟨this, w, e, w', hlife, hcall, (hbetween hreplaces hno _).mpr rfl⟩

end PersistedIndex

end IqdbPersist
