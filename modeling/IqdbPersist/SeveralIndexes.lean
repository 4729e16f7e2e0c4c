import IqdbPersist.Bystanders
import IqdbPersist.DurableHistory
import IqdbPersist.SharedState

/-!
# Several indexes in one file system

Indexes whose files are apart do not notice each other: whatever the others do and however their
calls end, each of them is the durable object that it is alone.
-/

namespace IqdbPersist

open CrashLogic FileSystem LogState Simulation
open Journal (Durable Repeatable)

variable {ε M I ι : Type} {b : Build M} {T : IndexType ε M I}

namespace PersistedIndex

variable {path other : Path} {w w' : World Path} {base : I} {log : Bytes}
  {rs : List (WalRecord M)} {settled : Bool} {o : Durable I} {index : Option (PersistedIndex I)}
  {s s' : Machine I × Bool} {i : Incident ε M I}

/-- The snapshot and the log at the first path are none of the files of the index at the second. -/
def Apart (path other : Path) : Prop := ¬ Own other path ∧ ¬ Own other (walPath path)

/-- The files of an index are where its snapshot is, in a relative place or an absolute one. -/
theorem absolute_of_own {p : Path} (h : Own path p) : p.absolute = path.absolute := by
  rcases h with rfl | rfl | ⟨name, pid, nanos, hname, rfl⟩
  · rfl
  · rfl
  · conv_rhs => rw [← Path.join_fileName hname]
    rfl

theorem apart_of_absolute (h : path.absolute ≠ other.absolute) : Apart path other :=
  ⟨fun hown => h (absolute_of_own hown), fun hown => h (absolute_of_own (p := walPath path) hown)⟩

theorem Implements.undisturbed
    (h : Implements b T path base log rs (⟨index, w⟩, settled) o)
    (hsnapshot : w'.files path = w.files path)
    (hlog : w'.files (walPath path) = w.files (walPath path)) :
    Implements b T path base log rs (⟨index, w'⟩, settled) o where
  stored := h.stored.congr hsnapshot hlog
  recovers := h.recovers
  repeats := h.repeats
  whole := h.whole
  present := h.present
  bound this hthis := (h.bound this hthis).congr hlog

theorem Proceeds.happens (h : Proceeds b T s i s') (loss : Loss) :
    Happens b T loss s.1 i s'.1 := by
  cases h with
  | loaded script hfree hcall => exact .opened script hcall
  | refused script hfree hcall => exact .refused script hcall
  | dropped => exact .dropped
  | @called w this call s result settled script hsettled hcall =>
    by_cases hcrashed : result = .error .crashed
    · subst hcrashed
      exact .crashed script hcall
    · have hafter : Machine.after s result = ⟨some s.1, s.2⟩ := by
        rcases result with (e | _) | _
        · rfl
        · exact absurd rfl hcrashed
        · rfl
      dsimp only
      rw [hafter]
      exact .called script hcall hcrashed

theorem Incident.Sound.concerns (h : i.Sound b T path) : i.Concerns path ∧ i ≠ .lostPower := by
  cases i with
  | booted boot result =>
    cases boot with
    | load config => exact ⟨h.1, by simp⟩
    | openWith x config => exact h.elim
  | called this call result =>
    cases call with
    | mutation r | save | checkpoint => exact ⟨trivial, by simp⟩
    | indexMut change | load config | openWith x config => exact h.elim
  | dropped => exact ⟨trivial, by simp⟩
  | lostPower => exact h.elim

theorem Proceeds.within (h : Proceeds b T s i s') (hsound : i.Sound b T other)
    (himplements : Implements b T other base log rs s o) :
    Within (Own other) s.1.world s'.1.world := by
  have hhome : s.1.Homed other := by
    intro this hthis
    obtain ⟨hconfig, wal, hwal, hpath, -⟩ := himplements.bound this hthis
    refine ⟨hconfig, fun wal' hwal' => ?_⟩
    rw [hwal] at hwal'
    cases hwal'
    exact hpath
  obtain ⟨hconcerns, hpower⟩ := hsound.concerns
  exact ((h.happens .anywhere).staysHome hconcerns hpower hhome).1.within fun _ he _ hp => he.own hp

/-- An index among others: the open index if there is one, and whether its log is settled. -/
abbrev Member (I : Type) := Option (PersistedIndex I) × Bool

section

variable (b : Build M) (T : ι → IndexType ε M I)

/-- One of the indexes proceeds. -/
def MemberStep (k : ι) (s : Member I × World Path) (i : Incident ε M I)
    (s' : Member I × World Path) : Prop :=
  Proceeds b (T k) (⟨s.1.1, s.2⟩, s.1.2) i (⟨s'.1.1, s'.2⟩, s'.1.2)

/-- The index was opened, and nothing has happened to its files since. -/
structure OpenedAt (config : PersistConfig) (T : IndexType ε M I) (x : I)
    (this : PersistedIndex I) (w : World Path) : Prop where
  walEnabled : config.walEnabled = true
  inverts : SnapshotInverts b T config x
  opened : ∃ w₀ w₁, openWith b T x config w₀ = .ok this w₁ ∧
    w.files config.path = w₁.files config.path ∧
    w.files (walPath config.path) = w₁.files (walPath config.path)

end

/-- Of several indexes whose files are apart, each is through any interruptions and restarts, in
memory and when it is loaded, the opened one with its acknowledged mutations in order, and with some
of the interrupted ones at their places among them. -/
theorem several_linearizable [DecidableEq ι] {T : ι → IndexType ε M I} {config : ι → PersistConfig}
    {x : ι → I} {this : ι → PersistedIndex I} (hT : ∀ k, Contract b (T k))
    (hrepeatable : ∀ k, Repeatable (T k).change)
    (hapart : ∀ j k, j ≠ k → Apart (config k).path (config j).path)
    (hopened : ∀ k, OpenedAt b (config k) (T k) (x k) (this k) w)
    {is : List (ι × Incident ε M I)} {s : Shared ι (Member I) (World Path)}
    (hrun : Runs (Shared.Step (MemberStep b T)) ⟨fun k => (some (this k), true), w⟩ is s)
    (hsound : ∀ i ∈ is, i.2.Sound b (T i.1) (config i.1).path) (k : ι) :
    (∀ that, (s.own k).1 = some that → Durable.Explained (T k).change (x k)
      ((eventsOf k is).map Incident.event) that.inner) ∧
    ∃ y, Durable.Explained (T k).change (x k) ((eventsOf k is).map Incident.event) y ∧
      ∀ config', config'.path = (config k).path → config'.walEnabled = true →
        validateConfig b config' = (.ok () : Except (PersistError ε) Unit) →
          Recovers b (T k) config' s.common y := by
  have hname (k : ι) : ∃ name, (config k).path.fileName = some name := by
    obtain ⟨w₀, w₁, hcall, -⟩ := (hopened k).opened
    exact (implements_openWith (hT k) hcall (hopened k).walEnabled (hopened k).inverts).1
  have hstart (k : ι) : ∃ base log rs, Implements b (T k) (config k).path base log rs
      (⟨some (this k), w⟩, true) ⟨some (x k), x k⟩ := by
    obtain ⟨w₀, w₁, hcall, hsnapshot, hlog⟩ := (hopened k).opened
    obtain ⟨-, himplements⟩ :=
      implements_openWith (hT k) hcall (hopened k).walEnabled (hopened k).inverts
    exact ⟨_, _, _, himplements.undisturbed hsnapshot hlog⟩
  have hothers {i j : ι} {l m : Member I} {c c' : World Path} {o : Durable I}
      {e : Incident ε M I} {m' : Member I} (hj : j ≠ i) (hi : e.Sound b (T j) (config j).path)
      (hmover : ∃ o base log rs, Implements b (T j) (config j).path base log rs
        (⟨m.1, c⟩, m.2) o)
      (hstep : MemberStep b T j (m, c) e (m', c'))
      (h : ∃ base log rs, Implements b (T i) (config i).path base log rs (⟨l.1, c⟩, l.2) o) :
      ∃ base log rs, Implements b (T i) (config i).path base log rs (⟨l.1, c'⟩, l.2) o := by
    obtain ⟨o', _, _, _, hmover⟩ := hmover
    obtain ⟨base, log, rs, h⟩ := h
    have hwithin : Within (Own (config j).path) c c' := hstep.within hi hmover
    obtain ⟨hsnapshot, hlog⟩ := hapart j i hj
    exact ⟨base, log, rs, h.undisturbed (hwithin.files hsnapshot) (hwithin.files hlog)⟩
  obtain ⟨o, hmoves, base, log, rs, hend⟩ := Shared.simulate
    (fun k o (i : Incident ε M I) o' => Durable.Moves (T k).change o i.event o')
    (fun k (s : Member I × World Path) o => ∃ base log rs, Implements b (T k) (config k).path
      base log rs (⟨s.1.1, s.2⟩, s.1.2) o)
    (fun k i => i.Sound b (T k) (config k).path)
    (fun hi ⟨_, _, _, h⟩ hstep => hstep.refines (hT _) (hrepeatable _) (hname _) hi h)
    (fun hj hi hmover hstep h => hothers hj hi ⟨_, hmover⟩ hstep h) hrun hsound hstart k
  obtain ⟨hdurable, hpresent⟩ := Durable.explained hmoves.map
  refine ⟨fun that hthat => hpresent _ ?_, o.durable, hdurable, ?_⟩
  · rw [← hend.present, hthat]
    rfl
  · exact fun _ hpath hwal' hvalid => hend.recoverable (hT k) hpath hwal' hvalid

def nestedConfig : PersistConfig := { sampleConfig with path := nestedPath }

/-- Of two registers one acknowledges an insert, and then the other is stopped in one. -/
theorem several_linearizable_registers : ∃ this w that w₁ s s',
    openWith defaultBuild registerIndex 0 sampleConfig emptyWorld = .ok this w ∧
    openWith defaultBuild registerIndex 0 nestedConfig w = .ok that w₁ ∧
    (Call.mutation (registerInsert 7)).outcome defaultBuild registerIndex
      (this, w₁.withScript []) = (.ok (), s) ∧
    (Call.mutation (registerInsert 9)).outcome defaultBuild registerIndex
      (that, s.2.withScript [.done, .cut 3]) = (.error .crashed, s') ∧
    (∃ y, Durable.Explained registerIndex.change 0 [.acknowledged (registerInsert 7)] y ∧
      Recovers defaultBuild registerIndex sampleConfig s'.2 y) ∧
    ∃ z, Durable.Explained registerIndex.change 0 [.doubtful (registerInsert 9)] z ∧
      Recovers defaultBuild registerIndex nestedConfig s'.2 z := by
  obtain ⟨this, w, hopened, that, w₁, hopened', s, hinsert, s', hcrash⟩ : ∃ this w,
      openWith defaultBuild registerIndex 0 sampleConfig emptyWorld = .ok this w ∧
      ∃ that w₁, openWith defaultBuild registerIndex 0 nestedConfig w = .ok that w₁ ∧
      ∃ s, (Call.mutation (registerInsert 7)).outcome defaultBuild registerIndex
        (this, w₁.withScript []) = (.ok (), s) ∧
      ∃ s', (Call.mutation (registerInsert 9)).outcome defaultBuild registerIndex
        (that, s.2.withScript [.done, .cut 3]) = (.error .crashed, s') :=
    ⟨_, _, rfl, _, _, rfl, _, rfl, _, rfl⟩
  obtain ⟨-, -, -, -, _, _, _, -, -, -, -, -, -, honly⟩ :=
    ends_of_ok (ends_openWith (b := defaultBuild) (T := registerIndex) rfl) hopened'
  set config : Bool → PersistConfig := fun k => cond k nestedConfig sampleConfig
  set start : Shared Bool (Member UInt64) (World Path) :=
    ⟨fun k => (some (cond k that this), true), w₁⟩
  have hinserted : Shared.Step (MemberStep defaultBuild fun _ => registerIndex) start
      (false, .called this (.mutation (registerInsert 7)) (.ok ()))
      ⟨Function.update start.own false (some s.1, true), s.2⟩ :=
    .mk (Proceeds.called [] (fun _ _ => rfl) hinsert)
  have hcrashed : Shared.Step (MemberStep defaultBuild fun _ => registerIndex)
      ⟨Function.update start.own false (some s.1, true), s.2⟩
      (true, .called that (.mutation (registerInsert 9)) (.error .crashed))
      ⟨Function.update (Function.update start.own false (some s.1, true)) true (none, false),
        s'.2⟩ :=
    .mk (Proceeds.called [.done, .cut 3] (fun _ _ => rfl) hcrash)
  have hopenedAt (k : Bool) : OpenedAt defaultBuild (config k) registerIndex 0 (cond k that this)
      w₁ := by
    have hinv (x : UInt64) : SnapshotInverts defaultBuild registerIndex (config k) x := by
      cases k <;> exact fun raw _ => invertible_none defaultBuild raw
    cases k with
    | false => exact ⟨rfl, hinv 0, emptyWorld, w, hopened, honly.files _ (by decide),
        honly.files _ (by decide)⟩
    | true => exact ⟨rfl, hinv 0, w, w₁, hopened', rfl, rfl⟩
  have hapart (j k : Bool) (hjk : j ≠ k) : Apart (config k).path (config j).path := by
    refine apart_of_absolute ?_
    cases j <;> cases k
    · exact absurd rfl hjk
    · decide
    · decide
    · exact absurd rfl hjk
  have hlife := several_linearizable (fun _ => registerIndex_contract)
    (fun _ => registerIndex_repeatable) hapart hopenedAt
    (((Runs.nil _).snoc hinserted).snoc hcrashed) ?_
  · obtain ⟨-, y, hy, hrecovers⟩ := hlife false
    obtain ⟨-, z, hz, hrecovers'⟩ := hlife true
    exact ⟨this, w, that, w₁, s, s', hopened, hopened', hinsert, hcrash,
      ⟨y, hy, hrecovers sampleConfig rfl rfl rfl⟩, z, hz, hrecovers' nestedConfig rfl rfl rfl⟩
  · have hsound : (Incident.called this (.mutation (registerInsert 7)) (.ok ())).Sound defaultBuild
        registerIndex sampleConfig.path := by
      refine ⟨by decide, fun _ he => ?_⟩
      cases he
    have hsound' : (Incident.called that (.mutation (registerInsert 9)) (.error .crashed)).Sound
        defaultBuild registerIndex nestedConfig.path := ⟨by decide, fun _ _ _ => rfl⟩
    simp [config, hsound, hsound']

end PersistedIndex

end IqdbPersist
