import IqdbPersist.SessionJournal

/-!
# The recovery contract

A session in log mode is indistinguishable from its bare index: a mutation returns `Ok` exactly when
the index accepts it, and after every call the files stand for the index in memory.
-/

namespace IqdbPersist

open CrashLogic FileSystem Simulation

variable {ε M I : Type} {b : Build M} {T : IndexType ε M I}

namespace PersistedIndex

theorem Holding.mutation_ok_iff {path : Path} {snapshot base : Bytes} {rs : List (WalRecord M)}
    {s : Session I} (h : Holding b path snapshot base rs s) {r : WalRecord M}
    (hr : Appendable b r) :
    (∃ a s', mutation b T r s = .ok a s') ↔ T.Accepts r s.1.inner := by
  refine ok_iff_of_ends ((h.mutate r).mono ?_ ?_)
  · exact fun _ _ hs' => hs'.2.2.1
  · rintro e s' ⟨-, -, ⟨happ, -⟩ | ⟨source, -, hreject⟩⟩
    · exact absurd hr happ
    · simp [IndexType.Accepts, hreject]

/-- Opened on any index and then used and re-opened without a failing file operation, a session
accepts what the bare index accepts, and loading its files gives its index. -/
theorem recovery_contract (hT : Contract b T) {config : PersistConfig} {x : I} {s₀ s : Session I}
    (hstart : Started b T config x s₀) (hinv : SnapshotInverts b T config x)
    {ls : List (Label M I)} (hrun : Runs (Step b T) s₀ ls s) (hsound : ∀ l ∈ ls, l.Sound b T) :
    (∀ r, Loggable b r → ((∃ a s', mutation b T r s = .ok a s') ↔ T.Accepts r s.1.inner)) ∧
      ∀ config' : PersistConfig, config'.path = config.path → config'.walEnabled = true →
        validateConfig b config' = (.ok () : Except (PersistError ε) Unit) →
          Recovers b T config' s.2 s.1.inner := by
  obtain ⟨j, -, hj⟩ := hstart.run hT hinv hrun hsound
  obtain ⟨snapshot, hholding, -⟩ := hj.holding
  exact ⟨fun r hr => hholding.mutation_ok_iff ⟨hr.1, hr.length_body⟩,
    fun config' hpath hwal hvalid => hj.recovers hT hpath hwal hvalid⟩

/-- Snapshots of this configuration are not compressed. -/
def sampleConfig : PersistConfig := ⟨⟨false, ["x"]⟩, true, .never, .none⟩

theorem sampleConfig_inverts (x : List UInt64) :
    SnapshotInverts defaultBuild idIndex sampleConfig x :=
  fun raw _ => invertible_none defaultBuild raw

/-- Every append is synced, and the snapshot lies in a directory of its own. -/
def alwaysConfig : PersistConfig := ⟨nestedPath, true, .always, .none⟩

theorem alwaysConfig_inverts (x : List UInt64) :
    SnapshotInverts defaultBuild idIndex alwaysConfig x :=
  fun raw _ => invertible_none defaultBuild raw

def sampleInsert : WalRecord (List (String × Value)) := .insert (.u64 7) [0] none

def sampleDelete : WalRecord (List (String × Value)) := .delete (.u64 7)

theorem sampleInsert_loggable : Loggable defaultBuild sampleInsert :=
  ⟨⟨by decide, by simp⟩, by decide⟩

theorem sampleDelete_loggable : Loggable defaultBuild sampleDelete := ⟨trivial, by decide⟩

theorem Holding.exists_insert {path : Path} {snapshot base : Bytes}
    {rs : List (WalRecord (List (String × Value)))} {s : Session (List UInt64)}
    (h : Holding defaultBuild path snapshot base rs s) (hinner : s.1.inner = []) :
    ∃ s', mutation defaultBuild idIndex sampleInsert s = .ok () s' ∧ s'.1.inner = [7] := by
  have haccepts : idIndex.Accepts sampleInsert s.1.inner := by
    rw [hinner]
    rfl
  obtain ⟨_, s', hcall⟩ := (h.mutation_ok_iff
    ⟨sampleInsert_loggable.1, sampleInsert_loggable.length_body⟩).mpr haccepts
  obtain ⟨-, -, -, hinner', -⟩ := ends_of_ok (h.mutate sampleInsert) hcall
  refine ⟨s', hcall, ?_⟩
  rw [hinner', hinner]
  rfl

theorem exists_sampleRun : ∃ s₀ s, Started defaultBuild idIndex sampleConfig [] s₀ ∧
    Runs (Step defaultBuild idIndex) s₀ [.accepted sampleInsert] s ∧
    s.1.config = sampleConfig ∧ s.1.inner = [7] ∧
    (∃ snapshot, Holding defaultBuild sampleConfig.path snapshot walHeader [sampleInsert] s) ∧
    Only (fun p => p = sampleConfig.path ∨ p = walPath sampleConfig.path) emptyWorld s.2 := by
  obtain ⟨this, w, hopened⟩ : ∃ this w,
      openWith defaultBuild idIndex [] sampleConfig emptyWorld = .ok this w := ⟨_, _, rfl⟩
  have hstart : Started defaultBuild idIndex sampleConfig [] (this, w) :=
    ⟨rfl, emptyWorld, rfl, hopened⟩
  obtain ⟨hinner, hconfig, -, -, full, -, hholding⟩ := hstart.holding
  obtain ⟨s, hcall, hinner'⟩ := hholding.exists_insert hinner
  obtain ⟨hholding', hconfig', -, -, honly'⟩ :=
    ends_of_ok (hholding.mutate sampleInsert) hcall
  obtain ⟨-, -, -, -, _, _, _, -, -, -, -, -, -, honly⟩ :=
    ends_of_ok (ends_openWith (b := defaultBuild) (T := idIndex) rfl) hopened
  exact ⟨(this, w), s, hstart, (Runs.nil _).snoc (.accepted hcall), hconfig'.trans hconfig, hinner',
    ⟨full, hholding'⟩, honly.trans (honly'.mono fun _ => .inr)⟩

theorem recovery_contract_sample : ∃ s₀ s, Started defaultBuild idIndex sampleConfig [] s₀ ∧
    Runs (Step defaultBuild idIndex) s₀ [.accepted sampleInsert] s ∧
    Recovers defaultBuild idIndex sampleConfig s.2 [7] := by
  obtain ⟨s₀, s, hstart, hrun, -, hinner, -⟩ := exists_sampleRun
  have hrecovers := (recovery_contract idIndex_contract hstart (sampleConfig_inverts []) hrun
    (List.forall_mem_singleton.mpr sampleInsert_loggable.2)).2 sampleConfig rfl rfl rfl
  rw [hinner] at hrecovers
  exact ⟨s₀, s, hstart, hrun, hrecovers⟩

end PersistedIndex

end IqdbPersist
