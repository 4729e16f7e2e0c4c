import IqdbPersist.AcknowledgedMutation
import IqdbPersist.EnduringIndex

/-!
# The history of an index whose machine loses power

An index that syncs every append is a durable object also when the machine loses power at any
moment, once the name of its log is on the medium and as long as unsynced data are lost from their
end: what is recovered then is explained by the acknowledged mutations and some of the interrupted
ones. After an interruption it may be recovered in two states until the next checkpoint, for the
interrupted record may be found or not, each time anew. Where a loss of power may tear unsynced data
in the middle, an interrupted frame can read as zeros, and then nothing is recovered.
-/

namespace IqdbPersist

open CrashLogic FileSystem LogState Simulation FramedLog
open Journal (Durable Repeatable Resumable Uncertain Leads)

variable {ε M I : Type} {b : Build M} {T : IndexType ε M I}

namespace PersistedIndex

/-- The configuration has every append synced. -/
def Incident.Always : Incident ε M I → Prop
  | .booted boot _ => boot.config.fsyncPolicy = .always
  | .called _ _ _ | .dropped | .lostPower => True

variable (b T) in
/-- A life in any environment, with losses of power once the name of the log is on the medium, each
of which cuts unsynced data short. -/
inductive Cycles : (Machine I × Bool) × Bool → Incident ε M I → (Machine I × Bool) × Bool → Prop
    where
  | proceeded {s s' : Machine I × Bool} {i : Incident ε M I} {linked : Bool}
      (hstep : Proceeds b T s i s') : Cycles (s, linked) i (s', linked || i.links)
  | lostPower {s : Machine I × Bool} {files : Files Path}
      (hfiles : files ∈ s.1.world.outcomes targetDir .fromEnd) :
      Cycles (s, true) .lostPower ((⟨none, s.1.world.restarted files⟩, s.2), true)

variable {path : Path} {w w' : World Path} {bases : Set I} {logs : Set (List (WalRecord M))}
  {this : PersistedIndex I} {o : Uncertain I}

/-- A loss of power closes the index, and leaves one of the snapshots and one of the logs. -/
theorem Endures.lostPower {s : Machine I × Bool} {files : Files Path}
    (h : Endures b T path bases logs (s, true) o)
    (hfiles : files ∈ s.1.world.outcomes targetDir .fromEnd) :
    Endures b T path bases logs ((⟨none, s.1.world.restarted files⟩, s.2), true)
      ⟨none, o.possible⟩ where
  stored := h.stored.restarted hfiles
  leads := h.leads
  whole := by
    intro hsettled
    obtain ⟨rs, x, hlogs, hpossible, hloggable, hkeeps⟩ := h.whole hsettled
    obtain ⟨-, content, hlog, hmem⟩ := h.stored.outcome hfiles
    have hcontent : content = logOf b rs := hmem _ hkeeps
    subst hcontent
    exact ⟨rs, x, hlogs, hpossible, hloggable, keeps_restarted hlog⟩
  present := rfl
  possible := by
    rintro _ ⟨⟩
  tied := by
    rintro _ ⟨⟩

/-- Every incident is a move of the object behind the machine. -/
theorem Cycles.survives (hunix : b.unix = true) (hT : Contract b T)
    (hrepeatable : Repeatable T.change) (hresumable : Resumable T.change)
    (hname : ∃ name, path.fileName = some name) {s s' : (Machine I × Bool) × Bool}
    {i : Incident ε M I} (hstep : Cycles b T s i s')
    (hsound : i = .lostPower ∨ i.Sound b T path ∧ i.Always)
    (h : Endures b T path bases logs s o) : Survives b T path o i s' := by
  obtain ⟨name, hname⟩ := hname
  cases hstep with
  | lostPower hfiles => exact ⟨_, .closed, _, _, h.lostPower hfiles⟩
  | @proceeded s s' i linked hstep =>
    have hi : i.Sound b T path ∧ i.Always := by
      rcases hsound with rfl | hi
      · cases hstep
      · exact hi
    obtain ⟨hsound, halways⟩ := hi
    cases hstep with
    | loaded script hfree hcall =>
      obtain ⟨hmem, hloaded⟩ := ends_of_ok (h.load hsound.1 hsound.2 halways hfree) hcall
      rw [← Bool.or_false linked] at hloaded
      exact ⟨_, .recovered hmem, _, _, hloaded⟩
    | refused script hfree hcall =>
      have hkept := ends_of_error (h.load hsound.1 hsound.2 halways hfree) hcall
      rw [← Bool.or_false linked] at hkept
      exact ⟨_, .idle, _, _, hkept⟩
    | @called w this call s result settled script hsettled hcall =>
      cases call with
      | mutation r =>
        have htrue := hsettled r rfl
        subst htrue
        have hmutated := h.mutate hT hrepeatable hresumable hsound.1 hcall hsound.2
        rw [← Bool.or_false linked] at hmutated
        exact hmutated
      | save => exact h.save hunix hT hsound hcall
      | checkpoint => exact h.checkpoint hunix hT hname hsound hcall
      | indexMut change => exact hsound.elim
      | load config => exact hsound.elim
      | openWith x config => exact hsound.elim
    | dropped =>
      have hclosed := h.close
      rw [← Bool.or_false linked] at hclosed
      exact ⟨_, .closed, _, _, hclosed⟩

theorem ends_create_header {snapshot : Path} : Ends (Wal.create snapshot .always) w
    (fun wal w' => wal.policy = .always ∧
      (w'.disk targetDir .fromEnd).Keeps (walPath snapshot) {walHeader})
    (fun (_ : Halt (PersistError ε)) _ => True) := by
  rw [Wal.create, ends_bind]
  refine ends_ioAt_of ((ends_openTruncate (walPath snapshot)).mono ?_ fun _ _ _ _ _ => trivial)
  rintro _ w₁ ⟨rfl, hempty, -, -⟩
  have hkept : LogState.Kept .fromEnd w₁ (walPath snapshot) Set.univ
      (⟨⟨walPath snapshot, 0⟩, walPath snapshot, .always, none, []⟩, w₁) :=
    ⟨rfl, rfl, Works.refl fun _ _ => Set.subset_univ _⟩
  rw [ends_withLocal]
  refine (ends_writeHeader_syncNow_kept hkept ⟨hempty, rfl⟩).mono ?_ fun _ _ _ => trivial
  exact fun _ s' h => ⟨h.always, h.works.keeps⟩

theorem ends_openWith_header {config : PersistConfig} {x : I} (hwal : config.walEnabled = true)
    (halways : config.fsyncPolicy = .always) :
    Ends (openWith b T x config) w
      (fun this w' => (∀ wal, this.wal = some wal → wal.policy = .always) ∧
        (w'.disk targetDir .fromEnd).Keeps (walPath config.path) {walHeader})
      (fun _ _ => True) := by
  rw [openWith, ends_bind, ends_uninterrupted]
  refine ends_settle_of ?_ fun _ _ => trivial
  intro _ _
  simp only [hwal, if_true, ends_bind, halways]
  refine (ends_writeSnapshot_within ⟨x, config, none⟩).mono ?_ fun _ _ _ => trivial
  intro _ w₁ _
  refine ends_create_header.mono ?_ fun _ _ _ => trivial
  rintro wal w₂ ⟨hpolicy, hkeeps⟩
  refine ⟨?_, hkeeps⟩
  rintro _ ⟨⟩
  exact hpolicy

theorem endures_openWith (hunix : b.unix = true) (hT : Contract b T) {config : PersistConfig}
    {x : I} (hstart : w.history = []) (hopened : openWith b T x config w = .ok this w')
    (hwal : config.walEnabled = true) (halways : config.fsyncPolicy = .always)
    (hinv : SnapshotInverts b T config x) :
    (∃ name, config.path.fileName = some name) ∧
      Endures b T config.path {x} {[]} ((⟨some this, w'⟩, true), false) ⟨some x, {x}⟩ := by
  have hpolicy : config.fsyncPolicy ≠ .never := by
    rw [halways]
    exact FsyncPolicy.noConfusion
  obtain ⟨⟨rfl, hconfig, -, -, name, full, wal, hname, -, -, hthis, hpath, hat, -⟩,
    ⟨hpolicies, hkeeps⟩, hoffers⟩ := ends_of_ok ((ends_openWith (T := T) hwal).and
      ((ends_openWith_header (T := T) hwal halways).and (ends_openWith_offers hunix hwal hpolicy rfl
        (offers_of_history hstart _)))) hopened
  have hempty : {walHeader} ⊆ Logs ε b {[]} := by
    rintro _ rfl
    exact ⟨[], rfl, parseRecords_take_walHeader b 12⟩
  have hwritten : Written b T (this.inner, config) ⊆ Snapshots b T {this.inner} := by
    rw [← hconfig] at hinv ⊢
    exact written_subset hT hinv
  refine ⟨⟨name, hname⟩, endures_open this ⟨hoffers.mono hwritten, hkeeps.mono hempty, ?_, ?_⟩
    (Leads.settled _ _) rfl (fun _ => ⟨[], _, rfl, rfl, loggable_nil b, ?_⟩)
    ⟨⟨by rw [hconfig], wal, hthis, hpath, fun _ => ⟨_, hat⟩⟩, by rw [hconfig, halways],
      hpolicies⟩⟩
  · intro hnone
    have hview := congrFun (w'.view_disk targetDir .fromEnd) (walPath config.path)
    rw [Disk.view, hnone, ← hpath, hat.holds] at hview
    cases hview
  · intro hlinked
    cases hlinked
  · rw [logOf, recordFrames_nil, List.append_nil]
    exact hkeeps

theorem Endures.recoverable (hT : Contract b T) {s : (Machine I × Bool) × Bool}
    (h : Endures b T path bases logs s o) :
    ∃ y ∈ o.possible, ∀ config : PersistConfig, config.path = path → config.walEnabled = true →
      validateConfig b config = (.ok () : Except (PersistError ε) Unit) →
        Recovers b T config s.1.1.world y := by
  obtain ⟨base, hbase, rs, hrs, hstocked⟩ := h.stored.stocked
  obtain ⟨y, hy, hreplay⟩ := h.leads base (.inl hbase) rs hrs
  exact ⟨y, hy, fun config => hstocked.recovers hT hreplay⟩

theorem Endures.outlasts (hT : Contract b T) {s : Machine I × Bool}
    (h : Endures b T path bases logs (s, true) o) :
    Outlasts b T .fromEnd path s.1.world o.possible := by
  intro files hfiles config hpath hwal hvalid
  obtain ⟨y, hy, hrecovers⟩ := (h.lostPower hfiles).recoverable hT
  exact ⟨y, hy, hrecovers config hpath hwal hvalid⟩

/-- A life is a run of the object behind the machine. -/
theorem endures_run (hunix : b.unix = true) (hT : Contract b T)
    (hrepeatable : Repeatable T.change) (hresumable : Resumable T.change) {config : PersistConfig}
    {x : I} (hstart : w.history = []) (hopened : openWith b T x config w = .ok this w')
    (hwal : config.walEnabled = true) (halways : config.fsyncPolicy = .always)
    (hinv : SnapshotInverts b T config x) {is : List (Incident ε M I)}
    {s : (Machine I × Bool) × Bool} (hrun : Runs (Cycles b T) ((⟨some this, w'⟩, true), false) is s)
    (hsound : ∀ i ∈ is, i = .lostPower ∨ i.Sound b T config.path ∧ i.Always) :
    ∃ o, Runs (Uncertain.Moves T.change) ⟨some x, {x}⟩ (is.map Incident.event) o ∧
      ∃ bases logs, Endures b T config.path bases logs s o := by
  obtain ⟨hname, hopen⟩ := endures_openWith hunix hT hstart hopened hwal halways hinv
  obtain ⟨o, hmoves, hend⟩ := hrun.simulate
    (fun o i o' => Uncertain.Moves T.change o i.event o')
    (fun s o => ∃ bases logs, Endures b T config.path bases logs s o)
    (fun i => i = .lostPower ∨ i.Sound b T config.path ∧ i.Always)
    (fun hi ⟨_, _, h⟩ hstep => hstep.survives hunix hT hrepeatable hresumable hname hi h) hsound
    ⟨{x}, {[]}, hopen⟩
  exact ⟨o, hmoves.map, hend⟩

/-- Through any interruptions, restarts and losses of power, the index in memory, the index that a
load would recover and, once a save or a checkpoint has returned, any index that it would recover
after a loss of power are the opened one with all acknowledged mutations in order, and with some of
the interrupted ones at their places among them. -/
theorem life_outlasts_power (hunix : b.unix = true) (hT : Contract b T)
    (hrepeatable : Repeatable T.change) (hresumable : Resumable T.change) {config : PersistConfig}
    {x : I} (hstart : w.history = []) (hopened : openWith b T x config w = .ok this w')
    (hwal : config.walEnabled = true) (halways : config.fsyncPolicy = .always)
    (hinv : SnapshotInverts b T config x) {is : List (Incident ε M I)}
    {s : (Machine I × Bool) × Bool} (hrun : Runs (Cycles b T) ((⟨some this, w'⟩, true), false) is s)
    (hsound : ∀ i ∈ is, i = .lostPower ∨ i.Sound b T config.path ∧ i.Always) :
    (∀ that, s.1.1.index = some that →
      Durable.Explained T.change x (is.map Incident.event) that.inner) ∧
    (∃ y, Durable.Explained T.change x (is.map Incident.event) y ∧
      ∀ config', config'.path = config.path → config'.walEnabled = true →
        validateConfig b config' = (.ok () : Except (PersistError ε) Unit) →
          Recovers b T config' s.1.1.world y) ∧
    (s.2 = true → Outlasts b T .fromEnd config.path s.1.1.world
      { y | Durable.Explained T.change x (is.map Incident.event) y }) := by
  obtain ⟨o, hmoves, bases, logs, hend⟩ :=
    endures_run hunix hT hrepeatable hresumable hstart hopened hwal halways hinv hrun hsound
  obtain ⟨hpossible, hpresent⟩ := Uncertain.explained hmoves
  refine ⟨fun that hthat => hpresent _ ?_, ?_, ?_⟩
  · rw [← hend.present, hthat]
    rfl
  · obtain ⟨y, hy, hrecovers⟩ := hend.recoverable hT
    exact ⟨y, hpossible y hy, hrecovers⟩
  · intro hlinked files hfiles config' hpath hwal' hvalid
    obtain ⟨s, linked⟩ := s
    have hlinked : linked = true := hlinked
    subst hlinked
    obtain ⟨y, hy, hrecovers⟩ := hend.outlasts hT files hfiles config' hpath hwal' hvalid
    exact ⟨y, hpossible y hy, hrecovers⟩

theorem registerIndex_resumable : Resumable registerIndex.change :=
  Journal.resumable_of_overwrites registerIndex_overwrites

/-- The register, opened under a policy that syncs every append. -/
def syncedRegister : Session UInt64 :=
  match (Boot.openWith 0 alwaysConfig).perform defaultBuild registerIndex emptyWorld with
  | .ok this w => (this, w)
  | .error _ w => (⟨0, alwaysConfig, none⟩, w)

/-- A checkpoint puts the name of the log on the medium. -/
def checkedRegister : Session UInt64 :=
  (Call.checkpoint.outcome defaultBuild registerIndex
    (syncedRegister.1, syncedRegister.2.withScript [])).2

/-- It acknowledges an insert. -/
def insertedRegister : Session UInt64 :=
  ((Call.mutation (registerInsert 7)).outcome defaultBuild registerIndex
    (checkedRegister.1, checkedRegister.2.withScript [])).2

/-- The next insert is stopped three bytes into the body of its frame. -/
def stoppedRegister : Session UInt64 :=
  ((Call.mutation (registerInsert 9)).outcome defaultBuild registerIndex
    (insertedRegister.1, insertedRegister.2.withScript [.done, .done, .cut 3])).2

def poweredLife : List (Incident IdError (List (String × Value)) UInt64) :=
  [.called syncedRegister.1 .checkpoint (.ok ()),
    .called checkedRegister.1 (.mutation (registerInsert 7)) (.ok ()),
    .called insertedRegister.1 (.mutation (registerInsert 9)) (.error .crashed)]

theorem runs_poweredLife : Runs (Cycles defaultBuild registerIndex)
    ((⟨some syncedRegister.1, syncedRegister.2⟩, true), false) poweredLife
    ((⟨none, stoppedRegister.2⟩, false), true) := by
  have hchecked : Call.checkpoint.outcome defaultBuild registerIndex
      (syncedRegister.1, syncedRegister.2.withScript []) = (.ok (), checkedRegister) :=
    Prod.ext (by decide +kernel) rfl
  have hinserted : (Call.mutation (registerInsert 7)).outcome defaultBuild registerIndex
      (checkedRegister.1, checkedRegister.2.withScript []) = (.ok (), insertedRegister) :=
    Prod.ext (by decide +kernel) rfl
  have hstopped : (Call.mutation (registerInsert 9)).outcome defaultBuild registerIndex
      (insertedRegister.1, insertedRegister.2.withScript [.done, .done, .cut 3]) =
        (.error .crashed, stoppedRegister) :=
    Prod.ext (by decide +kernel) rfl
  exact (((Runs.nil _).snoc (.proceeded (Proceeds.called [] (fun _ _ => rfl) hchecked))).snoc
    (.proceeded (Proceeds.called [] (fun _ _ => rfl) hinserted))).snoc
      (.proceeded (Proceeds.called [.done, .done, .cut 3] (fun _ _ => rfl) hstopped))

theorem poweredLife_sound : ∀ i ∈ poweredLife,
    i = .lostPower ∨ i.Sound defaultBuild registerIndex alwaysConfig.path ∧ i.Always := by
  intro i hi
  simp only [poweredLife, List.mem_cons, List.not_mem_nil, or_false] at hi
  right
  rcases hi with rfl | rfl | rfl
  · exact ⟨fun raw _ => invertible_none defaultBuild raw, trivial⟩
  · refine ⟨⟨by decide, fun _ he => ?_⟩, trivial⟩
    cases he
  · exact ⟨⟨by decide, fun _ _ _ => rfl⟩, trivial⟩

theorem stoppedRegister_loses :
    insertedRegister.2.files ∈ stoppedRegister.2.outcomes targetDir .fromEnd ∧
      insertedRegister.2.files (walPath alwaysConfig.path) ≠
        stoppedRegister.2.files (walPath alwaysConfig.path) := by
  have hbase : stoppedRegister.2.base = insertedRegister.2.base := rfl
  obtain ⟨path, pos, head, pos', body, hhistory⟩ : ∃ path pos head pos' body,
      stoppedRegister.2.history =
        insertedRegister.2.history ++ [.write path pos head, .write path pos' body] :=
    ⟨walPath alwaysConfig.path, 39, (frameOf defaultBuild (registerInsert 9)).take 8, 47,
      (recordBody defaultBuild.metadata (registerInsert 9)).take 3, by decide +kernel⟩
  exact ⟨World.files_before_mem_outcomes _ _ hbase hhistory (by simp), by decide +kernel⟩

/-- When the second insert has been stopped, a loss of power leaves the first number or the second
to load; and so it is found after one that took what the stopped insert wrote. -/
theorem life_outlasts_power_register :
    openWith defaultBuild registerIndex 0 alwaysConfig emptyWorld =
      .ok syncedRegister.1 syncedRegister.2 ∧
    Runs (Cycles defaultBuild registerIndex)
      ((⟨some syncedRegister.1, syncedRegister.2⟩, true), false) poweredLife
      ((⟨none, stoppedRegister.2⟩, false), true) ∧
    Outlasts defaultBuild registerIndex .fromEnd alwaysConfig.path stoppedRegister.2
      { y | Durable.Explained registerIndex.change 0 [.silent, .acknowledged (registerInsert 7),
        .doubtful (registerInsert 9)] y } ∧
    insertedRegister.2.files (walPath alwaysConfig.path) ≠
      stoppedRegister.2.files (walPath alwaysConfig.path) ∧
    Runs (Cycles defaultBuild registerIndex)
      ((⟨some syncedRegister.1, syncedRegister.2⟩, true), false) (poweredLife ++ [.lostPower])
      ((⟨none, stoppedRegister.2.restarted insertedRegister.2.files⟩, false), true) ∧
    ∃ y, Durable.Explained registerIndex.change 0 [.silent, .acknowledged (registerInsert 7),
        .doubtful (registerInsert 9), .silent] y ∧
      Recovers defaultBuild registerIndex alwaysConfig
        (stoppedRegister.2.restarted insertedRegister.2.files) y := by
  have hopened : openWith defaultBuild registerIndex 0 alwaysConfig emptyWorld =
      .ok syncedRegister.1 syncedRegister.2 := rfl
  have hinv : SnapshotInverts defaultBuild registerIndex alwaysConfig 0 :=
    fun raw _ => invertible_none defaultBuild raw
  have hlost := runs_poweredLife.snoc (.lostPower stoppedRegister_loses.1)
  have hsound : ∀ i ∈ poweredLife ++ [.lostPower],
      i = .lostPower ∨ i.Sound defaultBuild registerIndex alwaysConfig.path ∧ i.Always :=
    List.forall_mem_append.mpr ⟨poweredLife_sound, List.forall_mem_singleton.mpr (.inl rfl)⟩
  have hstopped := life_outlasts_power rfl registerIndex_contract registerIndex_repeatable
    registerIndex_resumable rfl hopened rfl rfl hinv runs_poweredLife poweredLife_sound
  obtain ⟨-, ⟨y, hy, hrecovers⟩, -⟩ := life_outlasts_power rfl registerIndex_contract
    registerIndex_repeatable registerIndex_resumable rfl hopened rfl rfl hinv hlost hsound
  exact ⟨hopened, runs_poweredLife, hstopped.2.2 rfl, stoppedRegister_loses.2, hlost, y, hy,
    hrecovers alwaysConfig rfl rfl rfl⟩

end PersistedIndex

end IqdbPersist
