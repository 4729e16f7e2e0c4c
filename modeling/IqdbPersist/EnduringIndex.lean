import IqdbPersist.PowerCycles

/-!
# An index on an uncertain medium

An index that syncs every append implements an object that may be recovered in one of some states.
Each call moves that object on, however it ends: a mutation that returns has one state recovered, an
interrupted one leaves two, and a checkpoint that returns leaves the state in memory alone.
-/

namespace IqdbPersist

open CrashLogic FileSystem LogState Simulation FramedLog
open Journal (Durable Repeatable Resumable Uncertain Leads)

variable {ε M I : Type} {b : Build M} {T : IndexType ε M I}

namespace PersistedIndex

/-- The call has the directory synced, and with it the name of the log. -/
def Incident.links : Incident ε M I → Bool
  | .called _ .save (.ok _) | .called _ .checkpoint (.ok _) => true
  | _ => false

/-- The open index is the one at this path, and syncs every append. -/
structure Tied (path : Path) (settled : Bool) (w : World Path) (this : PersistedIndex I) : Prop
    extends Bound path settled w this where
  policy : this.config.fsyncPolicy = .always
  walPolicy : ∀ wal, this.wal = some wal → wal.policy = .always

/-- A settled log is on the medium as one list of records, which leads to one state. -/
def Settled (b : Build M) (path : Path) (w : World Path) (logs : Set (List (WalRecord M)))
    (possible : Set I) : Prop :=
  ∃ rs x, logs = {rs} ∧ possible = {x} ∧ (∀ r ∈ rs, Loggable b r) ∧
    (w.disk targetDir .fromEnd).Keeps (walPath path) {logOf b rs}

/-- A machine, what its medium may hold, and the object that they implement. -/
structure Endures (b : Build M) (T : IndexType ε M I) (path : Path) (bases : Set I)
    (logs : Set (List (WalRecord M))) (s : (Machine I × Bool) × Bool) (o : Uncertain I) :
    Prop where
  stored : OnMedium b T path s.1.1.world s.2 bases logs
  leads : Leads T.change bases logs o.possible
  whole : s.1.2 = true → Settled b path s.1.1.world logs o.possible
  present : s.1.1.index.map inner = o.present
  possible : ∀ x, o.present = some x → x ∈ o.possible
  tied : ∀ this, s.1.1.index = some this → Tied path s.1.2 s.1.1.world this

variable {path : Path} {w w' : World Path} {bases bases' : Set I}
  {logs logs' : Set (List (WalRecord M))} {settled settled' linked linked' : Bool} {S : Set Bytes}
  {this : PersistedIndex I} {o : Uncertain I} {possible : Set I} {script : List Verdict}
  {r : WalRecord M}

theorem endures_open (this : PersistedIndex I) (hstored : OnMedium b T path w linked bases logs)
    (hleads : Leads T.change bases logs possible) (hmem : this.inner ∈ possible)
    (hwhole : settled = true → Settled b path w logs possible)
    (htied : Tied path settled w this) :
    Endures b T path bases logs ((⟨some this, w⟩, settled), linked)
      ⟨some this.inner, possible⟩ where
  stored := hstored
  leads := hleads
  whole := hwhole
  present := rfl
  possible := by
    rintro _ ⟨⟩
    exact hmem
  tied := by
    rintro _ ⟨⟩
    exact htied

theorem Endures.close {s : (Machine I × Bool) × Bool} (h : Endures b T path bases logs s o) :
    Endures b T path bases logs ((⟨none, s.1.1.world⟩, s.1.2), s.2) ⟨none, o.possible⟩ where
  stored := h.stored
  leads := h.leads
  whole := h.whole
  present := rfl
  possible := by
    rintro _ ⟨⟩
  tied := by
    rintro _ ⟨⟩

/-- The machine after a call implements the object that keeps its state in memory, unless the
program was stopped. -/
theorem Endures.after {s : Session I} (h : Endures b T path bases logs
      ((⟨some s.1, s.2⟩, settled), linked) ⟨some s.1.inner, possible⟩)
    (result : Except (Halt (PersistError ε)) Unit) :
    ∃ present, (present = some s.1.inner ∨ present = none) ∧
      Endures b T path bases logs ((Machine.after s result, settled), linked)
        ⟨present, possible⟩ := by
  rcases result with (e | _) | _
  · exact ⟨_, .inl rfl, h⟩
  · exact ⟨_, .inr rfl, h.close⟩
  · exact ⟨_, .inl rfl, h⟩

theorem Endures.settle_and {s : (Machine I × Bool) × Bool} (h : Endures b T path bases logs s o)
    (c : Bool) : Endures b T path bases logs ((s.1.1, s.1.2 && c), s.2) o := by
  have hsettled (hc : (s.1.2 && c) = true) : s.1.2 = true := (Bool.and_eq_true_iff.mp hc).1
  refine ⟨h.stored, h.leads, fun hc => h.whole (hsettled hc), h.present, h.possible, ?_⟩
  intro this hthis
  obtain ⟨⟨hconfig, wal, hwal, hpath, hpos⟩, hpolicy, hwalPolicy⟩ := h.tied this hthis
  exact ⟨⟨hconfig, wal, hwal, hpath, fun hc => hpos (hsettled hc)⟩, hpolicy, hwalPolicy⟩

theorem uncertain_silent {x : I} {present : Option I} (h : present = some x ∨ present = none) :
    Uncertain.Moves T.change ⟨some x, possible⟩ .silent ⟨present, possible⟩ := by
  rcases h with rfl | rfl
  · exact .idle
  · exact .closed

/-- What happened is a move of the object, and the machine goes on to implement it. -/
def Survives (b : Build M) (T : IndexType ε M I) (path : Path) (o : Uncertain I)
    (i : Incident ε M I) (s' : (Machine I × Bool) × Bool) : Prop :=
  ∃ o', Uncertain.Moves T.change o i.event o' ∧ ∃ bases logs, Endures b T path bases logs s' o'

theorem Endures.load (h : Endures b T path bases logs ((⟨none, w⟩, settled), linked) o)
    {config : PersistConfig} (hpath : config.path = path) (hwal : config.walEnabled = true)
    (halways : config.fsyncPolicy = .always) (hfree : FaultFree script) :
    Ends (load b T config) (w.withScript script)
      (fun this w' => this.inner ∈ o.possible ∧
        Endures b T path bases logs ((⟨some this, w'⟩, settled), linked)
          ⟨some this.inner, o.possible⟩)
      (fun _ w' => Endures b T path bases logs ((⟨none, w'⟩, settled), linked) o) := by
  subst hpath
  obtain ⟨base, hbase, rs, hrs, ⟨full, hsnapshot, hdecode⟩, content, hlog, hparses⟩ :=
    h.stored.stocked
  have hsame {w' : World Path} (h' : Untouched (w.withScript script) w') : Untouched w w' :=
    ⟨h'.1, h'.2, h'.3, h'.4⟩
  have hkept {w' : World Path} (huntouched : Untouched w w') (hsettled : settled = true) :
      Settled b config.path w' logs o.possible := by
    obtain ⟨rs, x, hlogs, hpossible, hloggable, hkeeps⟩ := h.whole hsettled
    refine ⟨rs, x, hlogs, hpossible, hloggable, ?_⟩
    rw [huntouched.disk]
    exact hkeeps
  refine ((ends_load_free (w := w.withScript script) hfree hwal hsnapshot hlog).and
    (ends_load_existing (w := w.withScript script) hfree hwal hlog)).mono ?_ ?_
  · rintro this w' ⟨⟨-, hstands, hconfig, -, wal, hwal', hwalPath, hat⟩,
      ⟨wal', hwal'', hpolicy⟩, hload⟩
    have huntouched := hsame hload
    obtain ⟨y, hy, hreplay⟩ := h.leads base (.inl hbase) rs hrs
    rw [(stands_iff hdecode hparses _).mp hstands] at hreplay
    cases hreplay
    refine ⟨hy, endures_open this (h.stored.of_untouched huntouched) h.leads hy
      (hkept huntouched) ⟨⟨by rw [hconfig], wal, hwal', hwalPath, fun _ => ⟨_, hat⟩⟩, ?_, ?_⟩⟩
    · rw [hconfig, halways]
    · intro wal₁ hwal₁
      rw [hwal''] at hwal₁
      cases hwal₁
      exact hpolicy.trans halways
  · rintro e w' ⟨-, hload⟩
    have huntouched := hsame hload
    refine ⟨h.stored.of_untouched huntouched, h.leads, hkept huntouched, h.present, h.possible, ?_⟩
    rintro _ ⟨⟩

section Mutation

variable {rs : List (WalRecord M)} {x : I} {wal : Wal}

theorem Endures.eq_of_settled
    (h : Endures b T path bases logs ((⟨some this, w⟩, true), linked) o) :
    o = ⟨some this.inner, {this.inner}⟩ := by
  obtain ⟨present, possible⟩ := o
  obtain ⟨rs, x, -, hpossible, -⟩ := h.whole rfl
  have hpresent : some this.inner = present := h.present
  have hpossible : possible = {x} := hpossible
  have hmem := h.possible this.inner hpresent.symm
  subst hpresent hpossible
  rw [Set.mem_singleton_iff.mp hmem]

theorem Endures.follow (h : Endures b T path bases logs ((⟨some this, w⟩, settled), linked) o)
    (settled' : Bool) {x : I} {s : LogState} {content : Bytes}
    (hkept : s.Kept .fromEnd w (walPath path) S) (hS : S ⊆ Logs ε b logs') (hat : s.At content)
    (hleads : Leads T.change bases logs' possible) (hmem : x ∈ possible)
    (hwhole : settled' = true → Settled b path s.2 logs' possible) :
    Endures b T path bases logs'
      ((⟨some (withLog this x s).1, (withLog this x s).2⟩, settled'), linked)
      ⟨some x, possible⟩ := by
  obtain ⟨⟨hconfig, -⟩, hpolicy, -⟩ := h.tied this rfl
  refine endures_open (withLog this x s).1 (h.stored.logged hkept.works hS) hleads hmem hwhole
    ⟨⟨hconfig, s.1, rfl, hkept.filePath, fun _ => ⟨content, hat⟩⟩, hpolicy, ?_⟩
  rintro _ ⟨⟩
  exact hkept.always

/-- A mutation that was interrupted has not been made in memory, and may or may not be recovered. -/
theorem Endures.interrupt (hT : Contract b T) (hrepeatable : Repeatable T.change)
    (hresumable : Resumable T.change)
    (h : Endures b T path bases {rs} ((⟨some this, w⟩, true), linked)
      ⟨some this.inner, {this.inner}⟩)
    (hloggable : ∀ r ∈ rs, Loggable b r)
    (hshort : (recordBody b.metadata r).length ≤ maxRecordLen) (haccepts : T.Accepts r this.inner)
    {e : Halt (PersistError ε)} (henv : ByEnvironment e) {n : ℕ} (happ : 0 < n → Appendable b r)
    {s : LogState}
    (hkept : s.Kept .fromEnd w (walPath path) (pieces .fromEnd (logOf b rs) (frameOf b r) n))
    {content : Bytes} (hat : s.At content) :
    Survives b T path ⟨some this.inner, {this.inner}⟩ (.called this (.mutation r) (.error e))
      ((Machine.after (withLog this this.inner s) (.error e), true && !interrupts e), linked) := by
  have hinterrupts := interrupts_iff.mpr henv
  have hchange := IndexType.change_of_accepts haccepts
  obtain ⟨present, hpresent, hafter⟩ := (h.follow false hkept
    (frame_pieces_subset hT hloggable hshort happ) hat
    (h.leads.doubtful hrepeatable hresumable hchange) (.inl rfl) fun hsettled =>
      absurd hsettled Bool.false_ne_true).after (.error e)
  rw [Survives, Incident.event, hinterrupts]
  exact ⟨_, .doubtful hchange hpresent, _, _, hafter⟩

theorem Endures.refuse (hT : Contract b T)
    (h : Endures b T path bases {rs} ((⟨some this, w⟩, true), linked)
      ⟨some this.inner, {this.inner}⟩)
    (hloggable : ∀ r ∈ rs, Loggable b r) {e : Halt (PersistError ε)}
    (hinterrupts : interrupts e = false) {s : LogState}
    (hkept : s.Kept .fromEnd w (walPath path) {logOf b rs}) (hat : s.At (logOf b rs)) :
    Survives b T path ⟨some this.inner, {this.inner}⟩ (.called this (.mutation r) (.error e))
      ((Machine.after (withLog this this.inner s) (.error e), true && !interrupts e), linked) := by
  have hlogs : {logOf b rs} ⊆ Logs ε b {rs} := by
    rintro _ rfl
    exact ⟨rs, rfl, parseRecords_logOf hT.metadata hloggable⟩
  obtain ⟨present, hpresent, hafter⟩ := (h.follow true hkept hlogs hat h.leads rfl fun _ =>
    ⟨rs, _, rfl, rfl, hloggable, hkept.works.keeps⟩).after (.error e)
  rw [Survives, Incident.event, hinterrupts]
  exact ⟨_, uncertain_silent hpresent, _, _, hafter⟩

theorem Endures.acknowledge (hT : Contract b T) (hrepeatable : Repeatable T.change)
    (h : Endures b T path bases {rs} ((⟨some this, w⟩, true), linked)
      ⟨some this.inner, {this.inner}⟩)
    (hloggable : ∀ r ∈ rs, Loggable b r) (hr : Loggable b r) (haccepts : T.Accepts r this.inner)
    {s : LogState} (hkept : s.Kept .fromEnd w (walPath path) {logOf b (rs ++ [r])})
    (hat : s.At (logOf b (rs ++ [r]))) :
    Survives b T path ⟨some this.inner, {this.inner}⟩ (.called this (.mutation r) (.ok ()))
      ((⟨some (withLog this (T.apply r this.inner).2 s).1, s.2⟩, true), linked) := by
  have hsnoc : ∀ r' ∈ rs ++ [r], Loggable b r' :=
    List.forall_mem_append.mpr ⟨hloggable, List.forall_mem_singleton.mpr hr⟩
  have hlogs : {logOf b (rs ++ [r])} ⊆ Logs ε b {rs ++ [r]} := by
    rintro _ rfl
    exact ⟨rs ++ [r], rfl, parseRecords_logOf hT.metadata hsnoc⟩
  have hchange := IndexType.change_of_accepts haccepts
  exact ⟨_, .acknowledged hchange, bases, {rs ++ [r]}, h.follow true hkept hlogs hat
    (h.leads.acknowledged hrepeatable hchange) rfl fun _ =>
      ⟨rs ++ [r], _, rfl, rfl, hsnoc, hkept.works.keeps⟩⟩

theorem withLog_inj {x x' : I} {log log' : LogState}
    (h : withLog this x log = withLog this x' log') : log = log' := by
  have hwal := congrArg (fun s : Session I => s.1.wal) h
  have hworld := congrArg (fun s : Session I => s.2) h
  exact Prod.ext (Option.some.inj hwal) hworld

theorem Endures.mutate (hT : Contract b T) (hrepeatable : Repeatable T.change)
    (hresumable : Resumable T.change)
    (h : Endures b T path bases logs ((⟨some this, w⟩, true), linked) o)
    (hshort : (recordBody b.metadata r).length ≤ maxRecordLen)
    {result : Except (Halt (PersistError ε)) Unit} {s : Session I}
    (hcall : (Call.mutation r).outcome b T (this, w.withScript script) = (result, s))
    (haccepts : ∀ e, result = .error e → ByEnvironment e → T.Accepts r this.inner) :
    Survives b T path o (.called this (.mutation r) result)
      ((Machine.after s result, (Call.mutation (I := I) r).settles result true), linked) := by
  have ho := h.eq_of_settled
  subst ho
  obtain ⟨rs, x, hlogs, -, hloggable, hkeeps⟩ := h.whole rfl
  subst hlogs
  obtain ⟨⟨-, wal, hwal, hpath, hpos⟩, -, hpolicy⟩ := h.tied this rfl
  obtain ⟨content, hat₀⟩ := hpos rfl
  have hcontent : content = logOf b rs := by
    refine hkeeps.mem (w.wellFormed_disk _ _) ?_
    rw [World.view_disk, ← hpath]
    exact hat₀.holds
  subst hcontent
  have hat := hat₀.withScript script
  have hkept : LogState.Kept .fromEnd w (walPath path) {logOf b rs} (wal, w.withScript script) :=
    ⟨hpath, hpolicy wal hwal, (Works.refl hkeeps).withScript script⟩
  refine outcome_of_ends (R := fun result s =>
    (∀ e, result = .error e → ByEnvironment e → T.Accepts r this.inner) →
      Survives b T path ⟨some this.inner, {this.inner}⟩ (.called this (.mutation r) result)
        ((Machine.after s result, (Call.mutation (I := I) r).settles result true), linked)) ?_
    hcall haccepts
  have hmutation := (ends_mutation (b := b) (T := T) hat hwal r).and
    (ends_mutation_kept (b := b) (T := T) hwal hkept hat r)
  refine hmutation.mono ?_ ?_
  · rintro _ _ ⟨⟨log', rfl, haccepted, happ, -, hat', -⟩, x', log'', hsame, hkept'⟩ -
    obtain rfl := withLog_inj hsame
    rw [frameOf, ← logOf_snoc] at hat'
    rw [frameOf, ← logOf_snoc] at hkept'
    exact h.acknowledge hT hrepeatable hloggable ⟨happ.1, hshort⟩ haccepted hkept' hat'
  · rintro e _ ⟨⟨x', log', rfl, hhalted⟩, x'', log'', hsame, hleaves⟩ haccepts
    obtain rfl := withLog_inj hsame
    cases hhalted with
    | unencodable henv happ hquiet hscript =>
      have hinterrupts : interrupts e = false := by
        rwa [← interrupts_iff, Bool.not_eq_true] at henv
      exact h.refuse hT hloggable hinterrupts (hleaves.refused henv) (hquiet.at hat)
    | rejected happ hreject hfollows hlogged hat' hscript =>
      have hinner : (T.apply r this.inner).2 = this.inner := by
        refine hT.keepsRejected r this.inner ?_
        rw [IndexType.Accepts, hreject]
        simp
      rw [hinner]
      exact h.refuse hT hloggable rfl (hleaves.refused id) hat'
    | interrupted henv hfollows hstop happ hat' =>
      exact h.interrupt hT hrepeatable hresumable hloggable hshort (haccepts e rfl henv) henv happ
        hleaves.part hat'
    | rollbackInterrupted henv happ hreject hfollows hlogged hstop harrived hholds =>
      exact absurd (haccepts e rfl henv) hreject

end Mutation

section Snapshots

variable {e : Halt (PersistError ε)} {wal : Wal}

theorem ends_writeSnapshot_within (this : PersistedIndex I) :
    Ends (writeSnapshot b T this) w
      (fun _ w' => Within (· ≠ walPath this.config.path) w w')
      (fun _ w' => Within (· ≠ walPath this.config.path) w w') := by
  have hwithin {w' : World Path}
      (h : Emitted (fun e => ¬ e.Touches (walPath this.config.path)) w w') :
      Within (· ≠ walPath this.config.path) w w' := by
    refine h.within fun e he p hp hpath => he ?_
    rwa [← hpath]
  rw [writeSnapshot, ends_bind, ends_uninterrupted]
  refine ends_settle_of ?_ fun _ _ => Within.refl _ w
  intro full _
  refine (confined_writeAtomic_of (ε := ε) ?_ ?_ w).mono (fun _ _ => hwithin) fun _ _ => hwithin
  · exact id
  · intro temp htemp
    have hne := htemp.ne_walPath
    refine ⟨hne.symm, hne.symm, ?_, fun e he htouches => hne (he.eq_of_touches htouches).symm⟩
    exact not_or.mpr ⟨hne.symm, walPath_ne _⟩

/-- A snapshot that is written replaces the old one, and has the name of the log on the medium. One
that is interrupted may be found beside what was there. -/
theorem ends_writeSnapshot_stored (hunix : b.unix = true) (hT : Contract b T)
    (hstored : OnMedium b T path w linked bases logs) (hpath : this.config.path = path)
    (halways : this.config.fsyncPolicy = .always)
    (hinv : SnapshotInverts b T this.config this.inner) :
    Ends (writeSnapshot b T this) w
      (fun _ w' => OnMedium b T path w' true {this.inner} logs ∧
        Within (· ≠ walPath path) w w')
      (fun _ w' => OnMedium b T path w' linked (Insert.insert this.inner bases) logs ∧
        Within (· ≠ walPath path) w w') := by
  subst hpath
  have hpolicy : this.config.fsyncPolicy ≠ .never := by
    rw [halways]
    exact FsyncPolicy.noConfusion
  have hwritten := written_subset hT hinv
  refine ((ends_writeSnapshot_offers hunix hpolicy rfl hstored.offers).and
    ((ends_writeSnapshot_durable .fromEnd hunix halways).and
      (ends_writeSnapshot_within this))).mono ?_ ?_
  · rintro _ w' ⟨hoffers, ⟨-, hanchored, -⟩, hwithin⟩
    exact ⟨(hstored.rebased hwithin (hoffers.mono hwritten)).link hanchored, hwithin⟩
  · rintro e w' ⟨hoffers, -, hwithin⟩
    refine ⟨hstored.rebased hwithin (hoffers.mono (Set.union_subset ?_ ?_)), hwithin⟩
    · exact snapshots_mono (Set.subset_insert _ _)
    · exact hwritten.trans (snapshots_mono (Set.singleton_subset_iff.mpr (Set.mem_insert _ _)))

theorem Tied.within (h : Tied path settled w this) (hwithin : Within (· ≠ walPath path) w w') :
    Tied path settled w' this :=
  ⟨h.toBound.congr (hwithin.files (not_not.mpr rfl)), h.policy, h.walPolicy⟩

theorem Settled.within (h : Settled b path w logs possible)
    (hwithin : Within (· ≠ walPath path) w w') : Settled b path w' logs possible := by
  obtain ⟨rs, x, hlogs, hpossible, hloggable, hkeeps⟩ := h
  exact ⟨rs, x, hlogs, hpossible, hloggable, hwithin.keeps (not_not.mpr rfl) hkeeps⟩

/-- Beside its old log, a new snapshot recovers to the states that were possible before. -/
theorem Endures.rebase (h : Endures b T path bases logs ((⟨some this, w⟩, settled), linked) o)
    (hstored : OnMedium b T path w' linked' bases' logs)
    (hwithin : Within (· ≠ walPath path) w w') (hleads : Leads T.change bases' logs o.possible) :
    Endures b T path bases' logs ((⟨some this, w'⟩, settled), linked')
      ⟨some this.inner, o.possible⟩ := by
  have hpresent : some this.inner = o.present := h.present
  exact endures_open this hstored hleads (h.possible _ hpresent.symm)
    (fun hsettled => (h.whole hsettled).within hwithin) ((h.tied this rfl).within hwithin)

theorem Endures.save (hunix : b.unix = true) (hT : Contract b T)
    (h : Endures b T path bases logs ((⟨some this, w⟩, settled), linked) o)
    (hinv : SnapshotInverts b T this.config this.inner)
    {result : Except (Halt (PersistError ε)) Unit} {s : Session I}
    (hcall : Call.save.outcome b T (this, w.withScript script) = (result, s)) :
    Survives b T path o (.called this .save result)
      ((Machine.after s result, (Call.save (M := M) (I := I)).settles result settled),
        linked || (Incident.called (M := M) this .save result).links) := by
  have hpresent : some this.inner = o.present := h.present
  have hmem := h.possible _ hpresent.symm
  have ho : o = ⟨some this.inner, o.possible⟩ := by rw [hpresent]
  have htied := h.tied this rfl
  have hstored : OnMedium b T path (w.withScript script) linked bases logs :=
    h.stored.of_untouched ⟨rfl, rfl, rfl, rfl⟩
  refine outcome_of_ends (R := fun result s => Survives b T path o (.called this .save result)
    ((Machine.after s result, (Call.save (M := M) (I := I)).settles result settled),
      linked || (Incident.called (M := M) this .save result).links)) ?_ hcall
  rw [Call.perform, PersistedIndex.save, ends_bind, ends_get, ends_within]
  refine (ends_writeSnapshot_stored hunix hT hstored htied.configPath htied.policy hinv).mono ?_ ?_
  · rintro _ w' ⟨hstored', hwithin⟩
    rw [ho]
    refine ⟨_, .idle, {this.inner}, logs, ?_⟩
    have hafter := h.rebase hstored' hwithin (h.leads.rebased hmem)
    rwa [← Bool.or_true linked] at hafter
  · rintro e w' ⟨hstored', hwithin⟩
    obtain ⟨present, hpresent', hafter⟩ :=
      (h.rebase hstored' hwithin (h.leads.added hmem)).after (s := (this, w')) (.error e)
    rw [ho]
    refine ⟨_, uncertain_silent hpresent', Insert.insert this.inner bases, logs, ?_⟩
    rwa [← Bool.or_false linked] at hafter

/-- A checkpoint that returns leaves one snapshot and an empty log on the medium. One that is cut
short leaves the old log beside one snapshot more, or beside the new snapshot what may be left of a
reset. -/
theorem ends_checkpoint_stored (hunix : b.unix = true) (hT : Contract b T)
    (hstored : OnMedium b T path w linked bases logs) (htied : Tied path settled w this)
    (hinv : SnapshotInverts b T this.config this.inner) (hwal : this.wal = some wal)
    {content : Bytes} (hholds : LogState.Holds (wal, w) content) :
    Ends (checkpoint b T) (this, w)
      (fun _ s => ∃ log', s = withLog this this.inner log' ∧ log'.1.policy = .always ∧
        OnMedium b T path log'.2 true {this.inner} {[]} ∧
        (log'.2.disk targetDir .fromEnd).Keeps (walPath path) {walHeader})
      (fun _ s => ∃ log', s = withLog this this.inner log' ∧ log'.1.policy = .always ∧
        (OnMedium b T path log'.2 linked (Insert.insert this.inner bases) logs ∨
          OnMedium b T path log'.2 linked {this.inner} (Insert.insert [] logs))) := by
  have hpolicy := htied.walPolicy wal hwal
  have hpath : wal.file.path = walPath path := by
    obtain ⟨-, wal', hwal', hpath, -⟩ := htied.toBound
    rw [hwal] at hwal'
    cases hwal'
    exact hpath
  rw [checkpoint, ends_bind, ends_get, ends_bind, ends_within]
  refine (ends_writeSnapshot_stored hunix hT hstored htied.configPath htied.policy hinv).mono ?_ ?_
  · rintro _ w₁ ⟨hstored₁, hwithin⟩
    have hholds₁ : LogState.Holds (wal, w₁) content := by
      rw [LogState.Holds, hpath, hwithin.files (not_not.mpr rfl), ← hpath]
      exact hholds
    have hkept : LogState.Kept .fromEnd w₁ (walPath path) (Logs ε b logs) (wal, w₁) :=
      ⟨hpath, hpolicy, Works.refl hstored₁.keeps⟩
    simp only [hwal, ends_within]
    refine (ends_reset_kept hkept hholds₁).mono ?_ ?_
    · intro _ log' hkept'
      have hempty : {walHeader} ⊆ Logs ε b {[]} := by
        rintro _ rfl
        exact ⟨[], rfl, parseRecords_take_walHeader b 12⟩
      exact ⟨log', rfl, hkept'.always, hstored₁.logged hkept'.works hempty, hkept'.works.keeps⟩
    · intro e log' hkept'
      have hstored' := hstored₁.logged hkept'.works (reset_subset subset_rfl)
      refine ⟨log', rfl, hkept'.always, .inr ?_⟩
      exact ⟨hstored'.offers, hstored'.keeps, hstored'.named, fun _ => hstored'.anchored rfl⟩
  · rintro e w₁ ⟨hstored₁, -⟩
    exact ⟨(wal, w₁), withLog_self hwal w₁, hpolicy, .inl hstored₁⟩

/-- After a checkpoint there is nothing but the index in memory to recover. -/
theorem Endures.checkpointed {log : LogState} {content : Bytes}
    (h : Endures b T path bases logs ((⟨some this, w⟩, settled), linked) o)
    (hpath : log.1.file.path = walPath path) (hpolicy : log.1.policy = .always)
    (hat : log.At content) (hstored : OnMedium b T path log.2 true {this.inner} {[]})
    (hkeeps : (log.2.disk targetDir .fromEnd).Keeps (walPath path) {walHeader}) :
    Endures b T path {this.inner} {[]}
      ((⟨some (withLog this this.inner log).1, log.2⟩, true), true)
      ⟨some this.inner, {this.inner}⟩ := by
  have htied := h.tied this rfl
  refine endures_open (withLog this this.inner log).1 hstored (Leads.settled _ _) rfl
    (fun _ => ⟨[], _, rfl, rfl, loggable_nil b, ?_⟩)
    ⟨⟨htied.configPath, log.1, rfl, hpath, fun _ => ⟨_, hat⟩⟩, htied.policy, ?_⟩
  · rw [logOf, recordFrames_nil, List.append_nil]
    exact hkeeps
  · rintro _ ⟨⟩
    exact hpolicy

/-- A checkpoint that was cut short may have left one snapshot more, or an empty log beside the new
one. -/
theorem Endures.checkpointCut {log : LogState}
    (h : Endures b T path bases logs ((⟨some this, w⟩, settled), linked) o)
    (hpath : log.1.file.path = walPath path) (hpolicy : log.1.policy = .always)
    (hmedium : OnMedium b T path log.2 linked (Insert.insert this.inner bases) logs ∨
      OnMedium b T path log.2 linked {this.inner} (Insert.insert [] logs)) :
    ∃ bases' logs', Endures b T path bases' logs'
      ((⟨some (withLog this this.inner log).1, log.2⟩, false), linked)
      ⟨some this.inner, o.possible⟩ := by
  have hpresent : some this.inner = o.present := h.present
  have hmem := h.possible _ hpresent.symm
  have htied := h.tied this rfl
  have hunsettled {p : Prop} (hsettled : false = true) : p :=
    absurd hsettled Bool.false_ne_true
  have htied' : Tied path false log.2 (withLog this this.inner log).1 := by
    refine ⟨⟨htied.configPath, log.1, rfl, hpath, hunsettled⟩, htied.policy, ?_⟩
    rintro _ ⟨⟩
    exact hpolicy
  rcases hmedium with hbeside | hemptied
  · exact ⟨_, _, endures_open _ hbeside (h.leads.added hmem) hmem hunsettled htied'⟩
  · exact ⟨_, _, endures_open _ hemptied ((h.leads.rebased hmem).emptied hmem) hmem hunsettled
      htied'⟩

theorem Endures.checkpoint (hunix : b.unix = true) (hT : Contract b T) {name : String}
    (hname : path.fileName = some name)
    (h : Endures b T path bases logs ((⟨some this, w⟩, settled), linked) o)
    (hinv : SnapshotInverts b T this.config this.inner)
    {result : Except (Halt (PersistError ε)) Unit} {s : Session I}
    (hcall : Call.checkpoint.outcome b T (this, w.withScript script) = (result, s)) :
    Survives b T path o (.called this .checkpoint result)
      ((Machine.after s result, (Call.checkpoint (M := M) (I := I)).settles result settled),
        linked || (Incident.called (M := M) this .checkpoint result).links) := by
  have hpresent : some this.inner = o.present := h.present
  have ho : o = ⟨some this.inner, o.possible⟩ := by rw [hpresent]
  have htied := h.tied this rfl
  have hscript : Within (· ≠ walPath path) w (w.withScript script) :=
    ⟨rfl, [], (List.append_nil _).symm, fun _ he => absurd he List.not_mem_nil⟩
  have hstored : OnMedium b T path (w.withScript script) linked bases logs :=
    h.stored.of_untouched ⟨rfl, rfl, rfl, rfl⟩
  obtain ⟨hconfig, wal, hwal, hpath, -⟩ := htied.toBound
  obtain ⟨content, hview⟩ := h.stored.view
  have hholds : LogState.Holds (wal, w.withScript script) content := by
    rw [LogState.Holds, hpath]
    rw [World.view_disk] at hview
    exact hview
  refine outcome_of_ends (R := fun result s => Survives b T path o
    (.called this .checkpoint result)
    ((Machine.after s result, (Call.checkpoint (M := M) (I := I)).settles result settled),
      linked || (Incident.called (M := M) this .checkpoint result).links)) ?_ hcall
  have hcheckpoint := ends_checkpoint_of_holds (b := b) (T := T) (hconfig ▸ hname) hholds hwal
    (hconfig ▸ hpath)
  refine (hcheckpoint.and (ends_checkpoint_stored hunix hT hstored (htied.within hscript) hinv hwal
    hholds)).mono ?_ ?_
  · rintro _ _ ⟨⟨full, log', rfl, -, -, hat, hpath', -, -⟩, log'', hsame, hpolicy, hstored',
      hkeeps⟩
    obtain rfl := withLog_inj hsame
    rw [hconfig] at hpath'
    have hopen := h.checkpointed hpath' hpolicy hat hstored' hkeeps
    rw [ho]
    refine ⟨_, .settled (.inl rfl), {this.inner}, {[]}, ?_⟩
    change Endures b T path _ _ (_, linked || true) _
    rw [Bool.or_true]
    exact hopen
  · rintro e _ ⟨⟨log', rfl, hpath', hcut⟩, log'', hsame, hpolicy, hmedium⟩
    obtain rfl := withLog_inj hsame
    rw [hconfig] at hpath'
    have hresult {settled' : Bool} {bases' : Set I} {logs' : Set (List (WalRecord M))}
        (hopen : Endures b T path bases' logs'
          ((⟨some (PersistedIndex.withLog this this.inner log').1, log'.2⟩, settled'), linked)
          ⟨some this.inner, o.possible⟩)
        (hsettled : (settled && !interrupts e) = settled') :
        Survives b T path o (.called this .checkpoint (.error e))
          ((Machine.after (PersistedIndex.withLog this this.inner log') (.error e),
            settled && !interrupts e), linked || false) := by
      obtain ⟨present, hpresent', hafter⟩ :=
        hopen.after (s := PersistedIndex.withLog this this.inner log') (.error e)
      rw [ho, hsettled, Bool.or_false]
      exact ⟨_, uncertain_silent hpresent', _, _, hafter⟩
    rcases hcut with ⟨e', -, rfl, rfl⟩ | ⟨henv, -⟩
    · rw [← withLog_self hwal] at hresult ⊢
      exact hresult ((h.rebase hstored hscript h.leads).settle_and _) rfl
    · have hfalse : (settled && !interrupts e) = false := by
        rw [interrupts_iff.mpr henv, Bool.not_true, Bool.and_false]
      obtain ⟨bases', logs', hopen⟩ := h.checkpointCut hpath' hpolicy hmedium
      exact hresult hopen hfalse

end Snapshots

end PersistedIndex

end IqdbPersist
