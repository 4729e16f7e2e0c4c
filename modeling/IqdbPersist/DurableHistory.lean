import IqdbPersist.InterruptedCheckpoint
import IqdbPersist.Restarting

/-!
# The history of an index in log mode

An index in log mode is a durable object: what it has in memory, and what a load would recover, is
explained by the acknowledged mutations and some of the interrupted ones. This needs an index on
which a log can be replayed once more, for a snapshot may be replaced while the log still holds the
mutations that it contains.
-/

namespace IqdbPersist

open CrashLogic FileSystem LogState Simulation FramedLog LittleEndian
open Journal (Durable Repeatable)

variable {ε M I : Type} {b : Build M} {T : IndexType ε M I}

namespace PersistedIndex

variable {path : Path} {w w' : World Path} {base base' d : I} {log log' full : Bytes}
  {rs rs' : List (WalRecord M)} {this : PersistedIndex I} {settled settled' : Bool}

/-- A snapshot of `base`, and a log that is read as these records. -/
structure OnDisk (b : Build M) (T : IndexType ε M I) (path : Path) (w : World Path) (base : I)
    (log : Bytes) (rs : List (WalRecord M)) : Prop where
  snapshot : ∃ full, w.files path = some full ∧ decodeSnapshot b T full = .ok base
  logged : w.files (walPath path) = some log
  parses : parseRecords b log = (.ok rs : Except (PersistError ε) _)

theorem OnDisk.congr (h : OnDisk b T path w base log rs)
    (hsnapshot : w'.files path = w.files path)
    (hlog : w'.files (walPath path) = w.files (walPath path)) :
    OnDisk b T path w' base log rs := by
  refine ⟨?_, hlog.trans h.logged, h.parses⟩
  rw [hsnapshot]
  exact h.snapshot

theorem OnDisk.relog (h : OnDisk b T path w base log rs)
    (hsnapshot : w'.files path = w.files path) (hlog : w'.files (walPath path) = some log')
    (hparses : parseRecords b log' = (.ok rs' : Except (PersistError ε) _)) :
    OnDisk b T path w' base log' rs' := by
  refine ⟨?_, hlog, hparses⟩
  rw [hsnapshot]
  exact h.snapshot

/-- The open index is the one at this path, and its handle the one of its log. -/
structure Bound (path : Path) (settled : Bool) (w : World Path) (this : PersistedIndex I) :
    Prop where
  configPath : this.config.path = path
  wal : ∃ wal, this.wal = some wal ∧ wal.file.path = walPath path ∧
    (settled = true → ∃ content, LogState.At (wal, w) content)

/-- The files and the open index of a machine, and the durable object that they implement. -/
structure Implements (b : Build M) (T : IndexType ε M I) (path : Path) (base : I) (log : Bytes)
    (rs : List (WalRecord M)) (s : Machine I × Bool) (o : Durable I) : Prop where
  stored : OnDisk b T path s.1.world base log rs
  recovers : Journal.replay T.change rs base = some o.durable
  repeats : ∀ x, o.present = some x → Journal.replay T.change rs x = some o.durable
  whole : s.2 = true → log = logOf b rs ∧ (∀ r ∈ rs, Loggable b r) ∧
    ∀ x, o.present = some x → o.durable = x
  present : s.1.index.map inner = o.present
  bound : ∀ this, s.1.index = some this → Bound path s.2 s.1.world this

theorem implements_open (this : PersistedIndex I) (hstored : OnDisk b T path w base log rs)
    (hrecovers : Journal.replay T.change rs base = some d)
    (hrepeats : Journal.replay T.change rs this.inner = some d)
    (hwhole : settled = true → log = logOf b rs ∧ (∀ r ∈ rs, Loggable b r) ∧ d = this.inner)
    (hbound : Bound path settled w this) :
    Implements b T path base log rs (⟨some this, w⟩, settled) ⟨some this.inner, d⟩ where
  stored := hstored
  recovers := hrecovers
  repeats := by
    rintro _ ⟨⟩
    exact hrepeats
  whole := by
    intro hsettled
    obtain ⟨hlog, hloggable, hd⟩ := hwhole hsettled
    refine ⟨hlog, hloggable, ?_⟩
    rintro _ ⟨⟩
    exact hd
  present := rfl
  bound := by
    rintro _ ⟨⟩
    exact hbound

theorem Implements.close {s : Machine I × Bool} {o : Durable I}
    (h : Implements b T path base log rs s o) :
    Implements b T path base log rs (⟨none, s.1.world⟩, s.2) ⟨none, o.durable⟩ where
  stored := h.stored
  recovers := h.recovers
  repeats := fun _ hx => nomatch hx
  whole := fun hsettled => ⟨(h.whole hsettled).1, (h.whole hsettled).2.1, fun _ hx => nomatch hx⟩
  present := rfl
  bound := fun _ hthis => nomatch hthis

/-- The machine after a call implements the object that keeps its state in memory, unless the
program was stopped. -/
theorem Implements.after {s : Session I}
    (h : Implements b T path base log rs (⟨some s.1, s.2⟩, settled) ⟨some s.1.inner, d⟩)
    (result : Except (Halt (PersistError ε)) Unit) :
    ∃ present, (present = some s.1.inner ∨ present = none) ∧
      Implements b T path base log rs (Machine.after s result, settled) ⟨present, d⟩ := by
  rcases result with (e | _) | _
  · exact ⟨_, .inl rfl, h⟩
  · exact ⟨_, .inr rfl, h.close⟩
  · exact ⟨_, .inl rfl, h⟩

theorem moves_silent {x : I} {present : Option I} (h : present = some x ∨ present = none) :
    Durable.Moves T.change ⟨some x, d⟩ .silent ⟨present, d⟩ := by
  rcases h with rfl | rfl
  · exact .idle
  · exact .closed

variable {script : List Verdict} {o : Durable I} {r : WalRecord M}

theorem Implements.load (hrepeatable : Repeatable T.change)
    (h : Implements b T path base log rs (⟨none, w⟩, settled) o) {config : PersistConfig}
    (hpath : config.path = path) (hwal : config.walEnabled = true) (hfree : FaultFree script) :
    Ends (load b T config) (w.withScript script)
      (fun this w' => Implements b T path base log rs (⟨some this, w'⟩, settled)
        ⟨some o.durable, o.durable⟩)
      (fun _ w' => Implements b T path base log rs (⟨none, w'⟩, settled) o) := by
  subst hpath
  obtain ⟨full, hsnapshot, hdecode⟩ := h.stored.snapshot
  refine (ends_load_free (w := w.withScript script) hfree hwal hsnapshot h.stored.logged).mono ?_ ?_
  · rintro this w' ⟨-, hstands, hconfig, hfiles, wal, hwal', hwalPath, hat⟩
    have hinner : o.durable = this.inner := by
      have hreplay := (stands_iff hdecode h.stored.parses _).mp hstands
      rw [h.recovers] at hreplay
      exact Option.some.inj hreplay
    have hrecovers := h.recovers
    rw [hinner] at hrecovers ⊢
    refine implements_open this (h.stored.congr (congrFun hfiles _) (congrFun hfiles _)) hrecovers
      (hrepeatable _ _ _ hrecovers) ?_ ⟨by rw [hconfig], wal, hwal', hwalPath, fun _ => ⟨_, hat⟩⟩
    exact fun hsettled => ⟨(h.whole hsettled).1, (h.whole hsettled).2.1, rfl⟩
  · rintro e w' hfiles
    exact ⟨h.stored.congr (congrFun hfiles _) (congrFun hfiles _), h.recovers, h.repeats, h.whole,
      h.present, fun _ hthis => nomatch hthis⟩

theorem Implements.eq_of_settled
    (h : Implements b T path base log rs (⟨some this, w⟩, true) o) :
    o = ⟨some this.inner, this.inner⟩ := by
  obtain ⟨present, durable⟩ := o
  have hpresent : some this.inner = present := h.present
  subst hpresent
  rw [show durable = this.inner from (h.whole rfl).2.2 _ rfl]

theorem Implements.follow {wal : Wal} {x : I} {content : Bytes} {s : LogState}
    (h : Implements b T path base log rs (⟨some this, w⟩, settled) o) (settled' : Bool)
    (hpath : wal.file.path = walPath path) (hfollows : Follows (wal, w.withScript script) s)
    (hat : s.At content) (hparses : parseRecords b content = (.ok rs' : Except (PersistError ε) _))
    (hrecovers : Journal.replay T.change rs' base = some d)
    (hrepeats : Journal.replay T.change rs' x = some d)
    (hwhole : settled' = true → content = logOf b rs' ∧ (∀ r ∈ rs', Loggable b r) ∧ d = x) :
    Implements b T path base content rs'
      (⟨some (withLog this x s).1, (withLog this x s).2⟩, settled') ⟨some x, d⟩ := by
  have hpath' : s.1.file.path = walPath path := hfollows.filePath.trans hpath
  refine implements_open (withLog this x s).1 ?_ hrecovers hrepeats hwhole ?_
  · refine h.stored.relog (hfollows.only.files _ ?_) ?_ hparses
    · rw [hpath]
      exact (walPath_ne path).symm
    · rw [← hpath']
      exact hat.holds
  · exact ⟨(h.bound this rfl).configPath, s.1, rfl, hpath', fun _ => ⟨content, hat⟩⟩

/-- What happened is a move of the durable object, and the machine goes on to implement it. -/
def Refines (b : Build M) (T : IndexType ε M I) (path : Path) (o : Durable I)
    (i : Incident ε M I) (s' : Machine I × Bool) : Prop :=
  ∃ o', Durable.Moves T.change o i.event o' ∧ ∃ base log rs, Implements b T path base log rs s' o'

section Mutation

variable {wal : Wal} {e : Halt (PersistError ε)}

/-- A mutation that did not return has been refused without a trace, or its record is at the end of
the log as far as it got. -/
theorem Implements.halt (hT : Contract b T)
    (h : Implements b T path base (logOf b rs) rs (⟨some this, w⟩, true)
      ⟨some this.inner, this.inner⟩)
    (hloggable : ∀ r ∈ rs, Loggable b r) (hpath : wal.file.path = walPath path)
    (hat : LogState.At (wal, w.withScript script) (logOf b rs))
    (hshort : (recordBody b.metadata r).length ≤ maxRecordLen)
    (haccepts : ByEnvironment e → T.Accepts r this.inner) {x : I} {s : LogState}
    (hhalted : Halted b T r this.inner (wal, w.withScript script) (logOf b rs) e (x, s)) :
    Refines b T path ⟨some this.inner, this.inner⟩ (.called this (.mutation r) (.error e))
      (Machine.after (withLog this x s) (.error e), true && !interrupts e) := by
  have hbase : Journal.replay T.change rs base = some this.inner := h.recovers
  have hself : Journal.replay T.change rs this.inner = some this.inner := h.repeats _ rfl
  have hparses := parseRecords_logOf (ε := ε) hT.metadata hloggable
  have hrefused (hinterrupts : interrupts e = false) (hx : x = this.inner)
      (hfollows : Follows (wal, w.withScript script) s) (hat' : s.At (logOf b rs)) :
      Refines b T path ⟨some this.inner, this.inner⟩ (.called this (.mutation r) (.error e))
        (Machine.after (withLog this x s) (.error e), true && !interrupts e) := by
    subst hx
    obtain ⟨present, hpresent, hafter⟩ := (h.follow true hpath hfollows hat' hparses hbase hself
      fun _ => ⟨rfl, hloggable, rfl⟩).after (.error e)
    rw [Refines, Incident.event, hinterrupts]
    exact ⟨_, moves_silent hpresent, _, _, _, hafter⟩
  cases hhalted with
  | unencodable henv happ hquiet hscript =>
    have hinterrupts : interrupts e = false := by
      rwa [← interrupts_iff, Bool.not_eq_true] at henv
    exact hrefused hinterrupts rfl hquiet.follows (hquiet.at hat)
  | rejected happ hreject hfollows hlogged hat' hscript =>
    refine hrefused rfl (hT.keepsRejected r this.inner ?_) hfollows hat'
    rw [IndexType.Accepts, hreject]
    simp
  | interrupted henv hfollows hstop happ hat' =>
    have hinterrupts := interrupts_iff.mpr henv
    have hunsettled {p : Prop} (hfalse : false = true) : p := absurd hfalse Bool.false_ne_true
    rw [Refines, Incident.event, hinterrupts]
    by_cases harrived : mutationArrived b script r < (frameOf b r).length
    · have htail := front_take_frameOf happ harrived
      have hparses' := parseRecords_logOf_append (ε := ε) hT.metadata hloggable htail
      obtain ⟨present, hpresent, hafter⟩ :=
        (h.follow false hpath hfollows hat' hparses' hbase hself hunsettled).after (.error e)
      exact ⟨_, .lost hpresent, _, _, _, hafter⟩
    · have hwhole := List.take_of_length_le (Nat.le_of_not_lt harrived)
      have hpos : 0 < mutationArrived b script r := by
        refine Nat.lt_of_lt_of_le ?_ (Nat.le_of_not_lt harrived)
        rw [frameOf, length_frame]
        omega
      have hsnoc : ∀ r' ∈ rs ++ [r], Loggable b r' := List.forall_mem_append.mpr
        ⟨hloggable, List.forall_mem_singleton.mpr ⟨(happ hpos).1, hshort⟩⟩
      have hchange := IndexType.change_of_accepts (haccepts henv)
      change s.At (logOf b rs ++ (frameOf b r).take (mutationArrived b script r)) at hat'
      rw [hwhole, frameOf, ← logOf_snoc] at hat'
      obtain ⟨present, hpresent, hafter⟩ := (h.follow false hpath hfollows hat'
        (parseRecords_logOf hT.metadata hsnoc) (Durable.replay_snoc hbase hchange)
        (Durable.replay_snoc hself hchange) hunsettled).after (.error e)
      exact ⟨_, .made hchange hpresent, _, _, _, hafter⟩
  | rollbackInterrupted henv happ hreject hfollows hlogged hstop harrived hholds =>
    exact absurd (haccepts henv) hreject

theorem Implements.mutate (hT : Contract b T) (hrepeatable : Repeatable T.change)
    (h : Implements b T path base log rs (⟨some this, w⟩, true) o)
    (hshort : (recordBody b.metadata r).length ≤ maxRecordLen)
    {result : Except (Halt (PersistError ε)) Unit} {s : Session I}
    (hcall : (Call.mutation r).outcome b T (this, w.withScript script) = (result, s))
    (haccepts : ∀ e, result = .error e → ByEnvironment e → T.Accepts r this.inner) :
    Refines b T path o (.called this (.mutation r) result)
      (Machine.after s result, (Call.mutation (I := I) r).settles result true) := by
  have ho := h.eq_of_settled
  subst ho
  obtain ⟨hlog, hloggable, -⟩ := h.whole rfl
  subst hlog
  obtain ⟨-, wal, hwal, hpath, hpos⟩ := h.bound this rfl
  obtain ⟨content, hat₀⟩ := hpos rfl
  have hcontent : content = logOf b rs := by
    have hholds := hat₀.holds
    rw [LogState.Holds, hpath, h.stored.logged] at hholds
    exact (Option.some.inj hholds).symm
  subst hcontent
  have hat := hat₀.withScript script
  refine outcome_of_ends (R := fun result s =>
    (∀ e, result = .error e → ByEnvironment e → T.Accepts r this.inner) →
      Refines b T path ⟨some this.inner, this.inner⟩ (.called this (.mutation r) result)
        (Machine.after s result, (Call.mutation (I := I) r).settles result true)) ?_ hcall haccepts
  have hmutation := ends_mutation (b := b) (T := T) hat hwal r
  refine hmutation.mono ?_ ?_
  · rintro _ _ ⟨log', rfl, haccepted, happ, hfollows, hat', -⟩ -
    rw [frameOf, ← logOf_snoc] at hat'
    have hsnoc : ∀ r' ∈ rs ++ [r], Loggable b r' := List.forall_mem_append.mpr
      ⟨hloggable, List.forall_mem_singleton.mpr ⟨happ.1, hshort⟩⟩
    have hchange := IndexType.change_of_accepts haccepted
    have hrecovers : Journal.replay T.change (rs ++ [r]) base = some (T.apply r this.inner).2 :=
      Durable.replay_snoc h.recovers hchange
    exact ⟨_, .acknowledged hchange, base, _, rs ++ [r], h.follow true hpath hfollows hat'
      (parseRecords_logOf hT.metadata hsnoc) hrecovers (hrepeatable _ _ _ hrecovers)
      fun _ => ⟨rfl, hsnoc, rfl⟩⟩
  · rintro e _ ⟨x', log', rfl, hhalted⟩ haccepts
    exact h.halt hT hloggable hpath hat hshort (haccepts e rfl) hhalted

end Mutation

section Snapshots

variable {name : String} {result : Except (Halt (PersistError ε)) Unit} {s : Session I}

theorem Bound.congr (h : Bound path settled w this)
    (hlog : w'.files (walPath path) = w.files (walPath path)) : Bound path settled w' this := by
  obtain ⟨hconfig, wal, hwal, hpath, hpos⟩ := h
  refine ⟨hconfig, wal, hwal, hpath, fun hsettled => ?_⟩
  obtain ⟨content, hat⟩ := hpos hsettled
  refine ⟨content, ?_, hat.pos⟩
  rw [LogState.Holds, hpath, hlog, ← hpath]
  exact hat.holds

theorem Implements.keep (h : Implements b T path base log rs (⟨some this, w⟩, settled) o)
    (hsnapshot : w'.files path = w.files path)
    (hlog : w'.files (walPath path) = w.files (walPath path)) :
    Implements b T path base log rs (⟨some this, w'⟩, settled) ⟨some this.inner, o.durable⟩ := by
  have hpresent : some this.inner = o.present := h.present
  refine implements_open this (h.stored.congr hsnapshot hlog) h.recovers
    (h.repeats _ hpresent.symm) ?_ ((h.bound this rfl).congr hlog)
  intro hsettled
  obtain ⟨hwhole, hloggable, hsame⟩ := h.whole hsettled
  exact ⟨hwhole, hloggable, hsame _ hpresent.symm⟩

theorem Implements.replace (hT : Contract b T)
    (h : Implements b T path base log rs (⟨some this, w⟩, settled) o)
    (hinv : SnapshotInverts b T this.config this.inner)
    (hfull : snapshotBytes b T this.inner this.config = .ok full)
    (hsnapshot : w'.files path = some full)
    (hlog : w'.files (walPath path) = w.files (walPath path)) :
    Implements b T path this.inner log rs (⟨some this, w'⟩, settled)
      ⟨some this.inner, o.durable⟩ := by
  have hpresent : some this.inner = o.present := h.present
  have hrepeats := h.repeats _ hpresent.symm
  refine implements_open this ⟨⟨full, hsnapshot, decodeSnapshot_of_inverts hT hinv hfull⟩,
    hlog.trans h.stored.logged, h.stored.parses⟩ hrepeats hrepeats ?_
    ((h.bound this rfl).congr hlog)
  intro hsettled
  obtain ⟨hwhole, hloggable, hsame⟩ := h.whole hsettled
  exact ⟨hwhole, hloggable, hsame _ hpresent.symm⟩

theorem Implements.unsettle {s : Machine I × Bool} (h : Implements b T path base log rs s o) :
    Implements b T path base log rs (s.1, false) o where
  stored := h.stored
  recovers := h.recovers
  repeats := h.repeats
  whole := nofun
  present := h.present
  bound := by
    intro this hthis
    obtain ⟨hconfig, wal, hwal, hpath, -⟩ := h.bound this hthis
    exact ⟨hconfig, wal, hwal, hpath, nofun⟩

/-- A snapshot that is taken beside the log changes what is on disk, but not what it recovers. -/
theorem Implements.save (hT : Contract b T) (hname : path.fileName = some name)
    (h : Implements b T path base log rs (⟨some this, w⟩, settled) o)
    (hinv : SnapshotInverts b T this.config this.inner)
    (hcall : Call.save.outcome b T (this, w.withScript script) = (result, s)) :
    Refines b T path o (.called this .save result) (Machine.after s result, settled) := by
  have hconfig : this.config.path = path := (h.bound this rfl).configPath
  have hpresent : some this.inner = o.present := h.present
  have ho : o = ⟨some this.inner, o.durable⟩ := by rw [hpresent]
  have hdone {result : Except (Halt (PersistError ε)) Unit} {base' : I} {w' : World Path}
      (hafter : Implements b T path base' log rs (⟨some this, w'⟩, settled)
        ⟨some this.inner, o.durable⟩) :
      Refines b T path o (.called this .save result)
        (Machine.after (this, w') result, settled) := by
    obtain ⟨present, hpresent', himplements⟩ := hafter.after (s := (this, w')) result
    rw [ho]
    exact ⟨_, moves_silent hpresent', _, _, _, himplements⟩
  have hne : ∀ {S : Path → Prop} {w' : World Path}, Only S (w.withScript script) w' →
      ¬ S (walPath path) → w'.files (walPath path) = w.files (walPath path) :=
    fun honly hlog => honly.files _ hlog
  refine outcome_of_ends (R := fun result s => Refines b T path o (.called this .save result)
    (Machine.after s result, settled)) ?_ hcall
  change Ends (PersistedIndex.save b T) _ _ _
  rw [PersistedIndex.save, ends_bind, ends_get, ends_within]
  refine (ends_writeSnapshot (hconfig ▸ hname)).mono ?_ ?_
  · rintro _ w' ⟨full, hfull, -, -, -, -, hsnapshot, honly⟩
    rw [hconfig] at hsnapshot honly
    exact hdone (h.replace hT hinv hfull hsnapshot (hne honly (walPath_ne path)))
  · rintro e w' (⟨e', -, -, rfl⟩ | ⟨-, -, honly⟩ | ⟨full, hfull, -, -, -, hsnapshot, honly⟩)
    · exact hdone (h.keep rfl rfl)
    · rw [hconfig] at honly
      refine hdone (h.keep (honly.files _ ?_) (hne honly ?_))
      · exact (tempPathOf_ne hname).symm
      · exact (tempPathOf_ne_walPath hname).symm
    · rw [hconfig] at hsnapshot honly
      refine hdone (h.replace hT hinv hfull hsnapshot (hne honly ?_))
      rintro (hwal | htemp)
      · exact walPath_ne path hwal
      · exact tempPathOf_ne_walPath hname htemp.symm

theorem Implements.withLog {log' : LogState}
    (h : Implements b T path base log rs (⟨some this, log'.2⟩, false) o)
    (hpath : log'.1.file.path = walPath path) :
    Implements b T path base log rs
      (⟨some (withLog this this.inner log').1, (withLog this this.inner log').2⟩, false) o where
  stored := h.stored
  recovers := h.recovers
  repeats := h.repeats
  whole := h.whole
  present := h.present
  bound := by
    rintro _ ⟨⟩
    exact ⟨(h.bound this rfl).configPath, log'.1, rfl, hpath, nofun⟩

theorem Implements.settle_and {m : Machine I} (h : Implements b T path base log rs (m, settled) o)
    (c : Bool) : Implements b T path base log rs (m, settled && c) o := by
  cases c with
  | false =>
    rw [Bool.and_false]
    exact h.unsettle
  | true => rwa [Bool.and_true]

/-- A checkpoint settles the log. Cut short anywhere, it leaves the state to recover as it was, or
has replaced it by the present one. -/
theorem Implements.checkpoint (hT : Contract b T) (hname : path.fileName = some name)
    (h : Implements b T path base log rs (⟨some this, w⟩, settled) o)
    (hinv : SnapshotInverts b T this.config this.inner)
    (hcall : Call.checkpoint.outcome b T (this, w.withScript script) = (result, s)) :
    Refines b T path o (.called this .checkpoint result)
      (Machine.after s result, (Call.checkpoint (M := M) (I := I)).settles result settled) := by
  obtain ⟨hconfig, wal, hwal, hpath, -⟩ := h.bound this rfl
  have hpresent : some this.inner = o.present := h.present
  have ho : o = ⟨some this.inner, o.durable⟩ := by rw [hpresent]
  have hholds : LogState.Holds (wal, w.withScript script) log := by
    rw [LogState.Holds, hpath]
    exact h.stored.logged
  refine outcome_of_ends (R := fun result s => Refines b T path o
    (.called this .checkpoint result) (Machine.after s result,
      (Call.checkpoint (M := M) (I := I)).settles result settled)) ?_ hcall
  have hcheckpoint := ends_checkpoint_of_holds (b := b) (T := T) (hconfig ▸ hname) hholds hwal
    (hconfig ▸ hpath)
  refine hcheckpoint.mono ?_ ?_
  · rintro _ _ ⟨full, log', rfl, hfull, hsnapshot, hat, hpath', -, -⟩
    rw [hconfig] at hsnapshot hpath'
    rw [ho]
    refine ⟨_, .settled (.inl rfl), this.inner, walHeader, [], ?_⟩
    refine implements_open (PersistedIndex.withLog this this.inner log').1
      ⟨⟨full, hsnapshot, decodeSnapshot_of_inverts hT hinv hfull⟩, ?_,
        parseRecords_take_walHeader b 12⟩ rfl rfl (fun _ => ⟨?_, loggable_nil b, rfl⟩)
      ⟨hconfig, log'.1, rfl, hpath', fun _ => ⟨_, hat⟩⟩
    · rw [← hpath']
      exact hat.holds
    · rw [logOf, recordFrames_nil, List.append_nil]
  · rintro e _ ⟨log', rfl, hpath', ⟨e', -, -, rfl⟩ | ⟨henv, hcut⟩⟩
    · have hkept : Implements b T path base log rs (⟨some this, w.withScript script⟩, settled)
          ⟨some this.inner, o.durable⟩ := h.keep rfl rfl
      obtain ⟨present, hpresent', hafter⟩ :=
        (hkept.settle_and (!interrupts e)).after (s := (this, w.withScript script)) (.error e)
      rw [ho, ← withLog_self hwal]
      exact ⟨_, moves_silent hpresent', _, _, _, hafter⟩
    · rw [hconfig] at hpath'
      have hinterrupts := interrupts_iff.mpr henv
      have hunsettled {p : Prop} (hfalse : false = true) : p := absurd hfalse Bool.false_ne_true
      have hdone {base' : I} (hafter : Implements b T path base' log rs
          (⟨some this, log'.2⟩, settled) ⟨some this.inner, o.durable⟩) :
          Refines b T path o (.called this .checkpoint (.error e))
            (Machine.after (PersistedIndex.withLog this this.inner log') (.error e),
              settled && !interrupts e) := by
        obtain ⟨present, hpresent', himplements⟩ :=
          (hafter.unsettle.withLog hpath').after (.error e)
        rw [ho, hinterrupts, Bool.not_true, Bool.and_false]
        exact ⟨_, moves_silent hpresent', _, _, _, himplements⟩
      cases hcut with
      | kept hno hsnapshot hlog =>
        rw [hconfig] at hsnapshot hlog
        exact hdone (h.keep hsnapshot (hlog.trans h.stored.logged.symm))
      | replaced hreplaces hfull hno hsnapshot hlog =>
        rw [hconfig] at hsnapshot hlog
        exact hdone (h.replace hT hinv hfull hsnapshot (hlog.trans h.stored.logged.symm))
      | @emptied full n hreplaces hfull hempties hsnapshot hlog =>
        rw [hconfig] at hsnapshot hlog
        have hemptied : Implements b T path this.inner (walHeader.take n) []
            (⟨some (PersistedIndex.withLog this this.inner log').1,
              (PersistedIndex.withLog this this.inner log').2⟩, false)
            ⟨some this.inner, this.inner⟩ :=
          implements_open (PersistedIndex.withLog this this.inner log').1
            ⟨⟨full, hsnapshot, decodeSnapshot_of_inverts hT hinv hfull⟩, hlog,
              parseRecords_take_walHeader b n⟩ rfl rfl hunsettled
            ⟨hconfig, log'.1, rfl, hpath', hunsettled⟩
        obtain ⟨present, hpresent', himplements⟩ := hemptied.after (.error e)
        rw [ho]
        refine ⟨_, .settled hpresent', this.inner, walHeader.take n, [], ?_⟩
        change Implements _ _ _ _ _ _ (_, settled && !interrupts e) _
        rw [hinterrupts, Bool.not_true, Bool.and_false]
        exact himplements

end Snapshots

/-- Every incident is a move of the durable object behind the machine. -/
theorem Proceeds.refines (hT : Contract b T) (hrepeatable : Repeatable T.change)
    (hname : ∃ name, path.fileName = some name) {s s' : Machine I × Bool} {i : Incident ε M I}
    (hstep : Proceeds b T s i s') (hsound : i.Sound b T path)
    (h : Implements b T path base log rs s o) : Refines b T path o i s' := by
  obtain ⟨name, hname⟩ := hname
  cases hstep with
  | loaded script hfree hcall =>
    have hloaded := ends_of_ok (h.load hrepeatable hsound.1 hsound.2 hfree) hcall
    exact ⟨_, .recovered, _, _, _, hloaded⟩
  | refused script hfree hcall =>
    have hkept := ends_of_error (h.load hrepeatable hsound.1 hsound.2 hfree) hcall
    exact ⟨_, .idle, _, _, _, hkept⟩
  | @called w this call s result settled script hsettled hcall =>
    cases call with
    | mutation r =>
      have htrue := hsettled r rfl
      subst htrue
      exact h.mutate hT hrepeatable hsound.1 hcall hsound.2
    | save => exact h.save hT hname hsound hcall
    | checkpoint => exact h.checkpoint hT hname hsound hcall
    | indexMut change => exact hsound.elim
    | load config => exact hsound.elim
    | openWith x config => exact hsound.elim
  | dropped => exact ⟨_, .closed, _, _, _, h.close⟩

theorem implements_openWith (hT : Contract b T) {config : PersistConfig} {x : I}
    (hopened : openWith b T x config w = .ok this w') (hwal : config.walEnabled = true)
    (hinv : SnapshotInverts b T config x) :
    (∃ name, config.path.fileName = some name) ∧
      Implements b T config.path x walHeader [] (⟨some this, w'⟩, true) ⟨some x, x⟩ := by
  obtain ⟨rfl, hconfig, -, -, name, full, wal, hname, hfull, hsnapshot, hthis, hpath, hat, -⟩ :=
    ends_of_ok (ends_openWith hwal) hopened
  refine ⟨⟨name, hname⟩, ?_⟩
  refine implements_open this ⟨⟨full, hsnapshot, decodeSnapshot_of_inverts hT hinv hfull⟩, ?_,
    parseRecords_take_walHeader b 12⟩ rfl rfl (fun _ => ⟨?_, loggable_nil b, rfl⟩)
    ⟨by rw [hconfig], wal, hthis, hpath, fun _ => ⟨_, hat⟩⟩
  · rw [← hpath]
    exact hat.holds
  · rw [logOf, recordFrames_nil, List.append_nil]

theorem Implements.recoverable (hT : Contract b T) {s : Machine I × Bool}
    (h : Implements b T path base log rs s o) {config : PersistConfig} (hpath : config.path = path)
    (hwal : config.walEnabled = true)
    (hvalid : validateConfig b config = (.ok () : Except (PersistError ε) Unit)) :
    Recovers b T config s.1.world o.durable := by
  subst hpath
  obtain ⟨full, hsnapshot, hdecode⟩ := h.stored.snapshot
  rw [recovers_iff hT.checksDim hvalid hwal hsnapshot h.stored.logged]
  exact (stands_iff hdecode h.stored.parses _).mpr h.recovers

/-- A life is a run of the durable object behind the machine. -/
theorem implements_run (hT : Contract b T) (hrepeatable : Repeatable T.change)
    {config : PersistConfig} {x : I} (hopened : openWith b T x config w = .ok this w')
    (hwal : config.walEnabled = true) (hinv : SnapshotInverts b T config x)
    {is : List (Incident ε M I)} {s : Machine I × Bool}
    (hrun : Runs (Proceeds b T) (⟨some this, w'⟩, true) is s)
    (hsound : ∀ i ∈ is, i.Sound b T config.path) :
    ∃ o, Runs (Durable.Moves T.change) ⟨some x, x⟩ (is.map Incident.event) o ∧
      ∃ base log rs, Implements b T config.path base log rs s o := by
  obtain ⟨hname, hstart⟩ := implements_openWith hT hopened hwal hinv
  obtain ⟨o, hmoves, hend⟩ := hrun.simulate
    (fun o i o' => Durable.Moves T.change o i.event o')
    (fun s o => ∃ base log rs, Implements b T config.path base log rs s o)
    (fun i => i.Sound b T config.path)
    (fun hi ⟨_, _, _, h⟩ hstep => hstep.refines hT hrepeatable hname hi h) hsound
    ⟨x, walHeader, [], hstart⟩
  exact ⟨o, hmoves.map, hend⟩

/-- Through any interruptions and restarts, the index in memory and the index that a load would
recover are the opened one with all acknowledged mutations in order, and with some of the
interrupted ones at their places among them. -/
theorem life_linearizable (hT : Contract b T) (hrepeatable : Repeatable T.change)
    {config : PersistConfig} {x : I} (hopened : openWith b T x config w = .ok this w')
    (hwal : config.walEnabled = true) (hinv : SnapshotInverts b T config x)
    {is : List (Incident ε M I)} {s : Machine I × Bool}
    (hrun : Runs (Proceeds b T) (⟨some this, w'⟩, true) is s)
    (hsound : ∀ i ∈ is, i.Sound b T config.path) :
    (∀ that, s.1.index = some that →
      Durable.Explained T.change x (is.map Incident.event) that.inner) ∧
    ∃ y, Durable.Explained T.change x (is.map Incident.event) y ∧
      ∀ config', config'.path = config.path → config'.walEnabled = true →
        validateConfig b config' = (.ok () : Except (PersistError ε) Unit) →
          Recovers b T config' s.1.world y := by
  obtain ⟨o, hmoves, base, log, rs, hend⟩ :=
    implements_run hT hrepeatable hopened hwal hinv hrun hsound
  obtain ⟨hdurable, hpresent⟩ := Durable.explained hmoves
  refine ⟨fun that hthat => hpresent _ ?_, o.durable, hdurable, ?_⟩
  · rw [← hend.present, hthat]
    rfl
  · exact fun _ hpath hwal' hvalid => hend.recoverable hT hpath hwal' hvalid

/-- An index that keeps the last number it was given. -/
def registerIndex : IndexType IdError (List (String × Value)) UInt64 where
  indexType := "register"
  dim _ := 1
  metric _ := .euclidean
  len _ := 1
  insert id vector _ x :=
    match id with
    | .u64 n => if vector.length = 1 then (.ok (), n) else (.error .invalid, x)
    | .bytes _ => (.error .invalid, x)
  delete _ _ := (.ok (), 0)
  saveTo x := .ok (encode 8 x.toNat)
  loadFrom bytes := .ok (UInt64.ofNat (decode bytes))

theorem registerIndex_overwrites (r : WalRecord (List (String × Value))) (x : UInt64) :
    registerIndex.change r x = registerIndex.change r 0 := by
  cases r with
  | delete id => rfl
  | insert id vector metadata =>
    cases id with
    | bytes bytes => rfl
    | u64 n =>
      by_cases hlength : vector.length = 1
      · simp [IndexType.change, IndexType.apply, registerIndex, hlength]
      · simp [IndexType.change, IndexType.apply, registerIndex, hlength]

theorem registerIndex_repeatable : Repeatable registerIndex.change :=
  Journal.repeatable_of_overwrites registerIndex_overwrites

theorem registerIndex_inverts (x : UInt64) :
    SnapshotInverts defaultBuild registerIndex sampleConfig x :=
  fun raw _ => invertible_none defaultBuild raw

theorem registerIndex_contract : Contract defaultBuild registerIndex where
  metadata := entryList_lawful
  roundTrips := by
    rintro x _ ⟨⟩
    change Except.ok _ = _
    rw [decode_encode_of_lt (k := 8) x.toNat_lt, UInt64.ofNat_toNat]
  keepsRejected := by
    intro r x hreject
    cases r with
    | delete id => exact absurd rfl hreject
    | insert id vector metadata =>
      cases id with
      | bytes bytes => rfl
      | u64 n =>
        simp only [IndexType.Accepts, IndexType.apply, registerIndex] at hreject ⊢
        split at hreject
        · exact absurd rfl hreject
        · rename_i hlength
          rw [if_neg hlength]
  checksDim := by
    intro id vector metadata x haccepts
    cases id with
    | bytes bytes => cases haccepts
    | u64 n =>
      by_contra hlength
      have hreject : vector.length ≠ 1 := hlength
      simp [IndexType.Accepts, IndexType.apply, registerIndex, hreject] at haccepts
  indexType := by decide

def registerInsert (n : UInt64) : WalRecord (List (String × Value)) := .insert (.u64 n) [0] none

/-- One insert is acknowledged, the next one stopped, and the program loads the index again. -/
theorem exists_interruptedLife : ∃ (this : PersistedIndex UInt64) (w : World Path)
    (is : List (Incident IdError (List (String × Value)) UInt64)) (s : Machine UInt64 × Bool),
    openWith defaultBuild registerIndex 0 sampleConfig emptyWorld = .ok this w ∧
    Runs (Proceeds defaultBuild registerIndex) (⟨some this, w⟩, true) is s ∧
    (∀ i ∈ is, i.Sound defaultBuild registerIndex sampleConfig.path) ∧
    is.map Incident.event =
      [.acknowledged (registerInsert 7), .doubtful (registerInsert 9), .silent] := by
  obtain ⟨this, w, hopened, s, hinsert, s', hcrash⟩ : ∃ this w,
      openWith defaultBuild registerIndex 0 sampleConfig emptyWorld = .ok this w ∧
      ∃ s, (Call.mutation (registerInsert 7)).outcome defaultBuild registerIndex
        (this, w.withScript []) = (.ok (), s) ∧
      ∃ s', (Call.mutation (registerInsert 9)).outcome defaultBuild registerIndex
        (s.1, s.2.withScript [.done, .cut 3]) = (.error .crashed, s') :=
    ⟨_, _, rfl, _, rfl, _, rfl⟩
  have hinserted := (Runs.nil _).snoc (Proceeds.called [] (fun _ _ => rfl) hinsert)
  have hcrashed := hinserted.snoc (Proceeds.called [.done, .cut 3] (fun _ _ => rfl) hcrash)
  have hsound : (Incident.called this (.mutation (registerInsert 7)) (.ok ())).Sound defaultBuild
      registerIndex sampleConfig.path := ⟨by decide, fun _ he => nomatch he⟩
  have hsound' : (Incident.called s.1 (.mutation (registerInsert 9)) (.error .crashed)).Sound
      defaultBuild registerIndex sampleConfig.path := ⟨by decide, fun _ _ _ => rfl⟩
  obtain ⟨o, -, _, _, _, hend⟩ := implements_run registerIndex_contract
    registerIndex_repeatable hopened rfl (registerIndex_inverts 0) hcrashed
    (by simp [hsound, hsound'])
  obtain ⟨this', w', hload, -⟩ := hend.recoverable registerIndex_contract rfl rfl rfl
  have hloaded := hcrashed.snoc (Proceeds.loaded [] (fun _ => List.not_mem_nil) hload)
  refine ⟨this, w, _, _, hopened, hloaded, ?_, rfl⟩
  have hboot : (Incident.booted (.load sampleConfig) (.ok ())).Sound defaultBuild registerIndex
      sampleConfig.path := ⟨rfl, rfl⟩
  simp [hsound, hsound', hboot]

/-- The index that is loaded again holds the first number or the second. -/
theorem life_linearizable_register : ∃ (w : World Path) (y : UInt64),
    Durable.Explained registerIndex.change 0
      [.acknowledged (registerInsert 7), .doubtful (registerInsert 9), .silent] y ∧
    Recovers defaultBuild registerIndex sampleConfig w y := by
  obtain ⟨this, w, is, s, hopened, hrun, hsound, hevents⟩ := exists_interruptedLife
  obtain ⟨-, y, hy, hrecovers⟩ := life_linearizable registerIndex_contract
    registerIndex_repeatable hopened rfl (registerIndex_inverts 0) hrun hsound
  rw [hevents] at hy
  exact ⟨s.1.world, y, hy, hrecovers sampleConfig rfl rfl rfl⟩

end PersistedIndex

end IqdbPersist
