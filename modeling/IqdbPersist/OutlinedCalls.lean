import IqdbPersist.CutOpening
import IqdbPersist.Outline
import IqdbPersist.UnloggedIndex

/-!
# Calls, in outline

Opening, loading and every other call lead from one outline to the next, in any environment: a call
that the environment cuts short has come to one of the stages that the outline allows.
-/

namespace IqdbPersist

open CrashLogic FileSystem LogState Simulation

variable {ε M I : Type} {b : Build M} {T : IndexType ε M I}

namespace PersistedIndex

variable {path : Path} {o : Outline M I} {settled : Bool} {index : Option (PersistedIndex I)}
  {this : PersistedIndex I} {w w' : World Path}

section Booting

variable {config : PersistConfig} {script : List Verdict} {e : Halt (PersistError ε)}
  (hT : Contract b T) (h : Pictures b T path o (⟨none, w⟩, settled))

include hT h

theorem Pictures.opened {x : I} (hpath : config.path = path)
    (hinv : config.walEnabled = true → SnapshotInverts b T config x)
    (hcall : openWith b T x config (w.withScript script) = .ok this w') :
    Pictures b T path (o.booted T (.openWith x config))
      (⟨some this, w'⟩, settled || config.walEnabled) := by
  subst hpath
  by_cases hwal : config.walEnabled = true
  · obtain ⟨rfl, hconfig, -, -, name, full, wal, -, hfull, hsnapshot, hthis, hpath, hat, -⟩ :=
      ends_of_ok (ends_openWith hwal) hcall
    rw [Outline.booted, if_pos hwal]
    exact pictures_logged (decodes_saved hT (hinv hwal) hfull hsnapshot)
      (readAs_walHeader hT.metadata _) (by rw [hconfig]) hthis hpath hat.holds fun _ => hat
  · rw [Bool.not_eq_true] at hwal
    obtain ⟨rfl, rfl⟩ := ends_of_ok (ends_openWith_unlogged hwal) hcall
    simp only [Outline.booted, hwal, Bool.or_false, Bool.false_eq_true, if_false]
    exact (h.withScript script).unlogged rfl x

theorem Pictures.loaded_logged (hwal : config.walEnabled = true) (hpath : config.path = path)
    (hfree : FaultFree script) (hcall : load b T config (w.withScript script) = .ok this w') :
    Pictures b T path (o.booted T (.load config)) (⟨some this, w'⟩, settled) := by
  subst hpath
  have hsnapshot := h.snapshot
  simp only [Outline.booted, Outline.loaded, hwal, if_true]
  cases hfull : w.files config.path with
  | none => exact (ends_of_ok (ends_load_absent (w := w.withScript script) hfull) hcall).elim
  | some full =>
    cases hbytes : w.files (walPath config.path) with
    | some bytes =>
      obtain ⟨-, ⟨base, rs, hdecode, hparse, hreplay⟩, hconfig, hfiles, wal, hthis, hpath, hat⟩ :=
        ends_of_ok (ends_load_free (w := w.withScript script) hfree hwal hfull hbytes) hcall
      have hbase : o.snapshot = some base := (h.decodes_iff base).mpr ⟨full, hfull, hdecode⟩
      obtain ⟨rs', hrs, hreads⟩ := h.log_of_bytes hbytes
      have hsame := hreads.parses
      rw [hparse] at hsame
      cases hsame
      rw [hbase, hrs, Option.getD_some, Option.bind_some, hreplay, Option.map_some]
      refine pictures_logged ?_ hreads (by rw [hconfig]) hthis hpath hat.holds fun _ => hat
      rw [hfiles, ← hbase]
      exact hsnapshot
    | none =>
      obtain ⟨hdecode, hconfig, wal, hthis, hopened⟩ :=
        ends_of_ok (ends_load_missing (w := w.withScript script) hwal hfull hbytes) hcall
      have hbase : o.snapshot = some this.inner := (h.decodes_iff _).mpr ⟨full, hfull, hdecode⟩
      rw [hbase, h.log_eq_none hbytes, Option.getD_none, Option.bind_some]
      refine pictures_logged ?_ (readAs_walHeader hT.metadata _) (by rw [hconfig]) hthis
        hopened.filePath hopened.holds.holds fun _ => hopened.holds
      rw [hopened.only.files _ (walPath_ne config.path).symm, ← hbase]
      exact hsnapshot

theorem Pictures.loaded (hpath : config.path = path)
    (hfree : config.walEnabled = true → FaultFree script)
    (hcall : load b T config (w.withScript script) = .ok this w') :
    Pictures b T path (o.booted T (.load config)) (⟨some this, w'⟩, settled) := by
  by_cases hwal : config.walEnabled = true
  · exact h.loaded_logged hT hwal hpath (hfree hwal) hcall
  · subst hpath
    rw [Bool.not_eq_true] at hwal
    obtain ⟨full, base, hfull, hdecode, rfl, hfiles⟩ :=
      ends_of_ok (ends_load_unlogged (w := w.withScript script) hwal) hcall
    have hbase : o.snapshot = some base := (h.decodes_iff base).mpr ⟨full, hfull, hdecode⟩
    simp only [Outline.booted, Outline.loaded, hwal, Bool.false_eq_true, if_false, hbase,
      Option.map_some]
    rw [← hbase]
    exact (h.congr (congrFun hfiles _) (congrFun hfiles _)).unlogged rfl base

theorem Pictures.openingCut {x : I} (hpath : config.path = path)
    (hinv : SnapshotInverts b T config x)
    (hcut : CutOpening b T ⟨x, config, none⟩ (w.withScript script) w') :
    (¬ Replaces b T ⟨x, config, none⟩ (w.withScript script) ∧
      Pictures b T path o (⟨none, w'⟩, false)) ∨
    (Replaces b T ⟨x, config, none⟩ (w.withScript script) ∧
      ¬ Restarts b ⟨x, config, none⟩ (w.withScript script) ∧
      Pictures b T path { o with snapshot := some x } (⟨none, w'⟩, false)) ∨
    (Replaces b T ⟨x, config, none⟩ (w.withScript script) ∧
      Restarts b ⟨x, config, none⟩ (w.withScript script) ∧
      Pictures b T path { o with snapshot := some x, log := some [] } (⟨none, w'⟩, false)) := by
  subst hpath
  have hunsettled := h.unsettle false
  rw [Bool.and_false] at hunsettled
  cases hcut with
  | kept hno hsnapshot hlog => exact .inl ⟨hno, hunsettled.congr hsnapshot hlog⟩
  | replaced hreplaces hfull hno hsnapshot hlog =>
    have hsaved := decodes_saved hT hinv hfull hsnapshot
    exact .inr (.inl ⟨hreplaces, hno, hunsettled.resaved hsaved hlog⟩)
  | emptied n hreplaces hfull hyes hsnapshot hlog =>
    have hsaved := decodes_saved hT hinv hfull hsnapshot
    exact .inr (.inr ⟨hreplaces, hyes, h.begun hsaved hlog⟩)

theorem Pictures.openRefused {x : I} (hpath : config.path = path)
    (hinv : config.walEnabled = true → SnapshotInverts b T config x)
    (hcall : openWith b T x config (w.withScript script) = .error e w') :
    Traces b T path o (.booted (.openWith x config) (.error e))
      (⟨none, w'⟩, settled && !(config.walEnabled && interrupts e)) := by
  have hkept (hworld : w' = w.withScript script) :
      Traces b T path o (.booted (.openWith x config) (.error e))
        (⟨none, w'⟩, settled && !(config.walEnabled && interrupts e)) := by
    rw [hworld]
    exact ⟨_, .after _, (h.withScript script).unsettle _⟩
  by_cases hwal : config.walEnabled = true
  · rcases ends_of_error (ends_openWith_cut hwal) hcall with ⟨hworld, -⟩ | ⟨hworld | he, hcut⟩
    · exact hkept hworld
    · exact hkept hworld
    · have he' := interrupts_iff.mpr he
      rw [hwal, he', Bool.and_true, Bool.not_true, Bool.and_false]
      rcases h.openingCut hT hpath (hinv hwal) hcut with
        ⟨-, hpictures⟩ | ⟨-, -, hpictures⟩ | ⟨-, -, hpictures⟩
      · exact ⟨_, .after _, hpictures⟩
      · exact ⟨_, .openedOver hwal he', hpictures⟩
      · exact ⟨_, .openedAnew hwal he', hpictures⟩
  · rw [Bool.not_eq_true] at hwal
    have hworld := ends_of_error (ends_openWith_unlogged hwal) hcall
    exact hkept hworld

omit hT in
theorem Pictures.loadRefused (hpath : config.path = path)
    (hfree : config.walEnabled = true → FaultFree script)
    (hcall : load b T config (w.withScript script) = .error e w') :
    Traces b T path o (.booted (.load config) (.error e))
      (⟨none, w'⟩, settled && !(config.walEnabled && interrupts e)) := by
  subst hpath
  have hkept (hfiles : w'.files = w.files) :
      Traces b T config.path o (.booted (.load config) (.error e))
        (⟨none, w'⟩, settled && !(config.walEnabled && interrupts e)) :=
    ⟨_, .after _, (h.congr (congrFun hfiles _) (congrFun hfiles _)).unsettle _⟩
  by_cases hwal : config.walEnabled = true
  · rcases ends_of_error (ends_load_refused (w := w.withScript script)) hcall with hfiles | he
    · exact hkept hfiles
    · have he' := interrupts_iff.mpr he
      cases hfull : w.files config.path with
      | none =>
        have habsent := ends_load_absent (b := b) (T := T) (w := w.withScript script) hfull
        have hfiles := ends_of_error habsent hcall
        exact hkept hfiles
      | some full =>
        cases hbytes : w.files (walPath config.path) with
        | some bytes =>
          have hload := ends_load_free (b := b) (T := T) (w := w.withScript script) (hfree hwal)
            hwal hfull hbytes
          have hfiles := ends_of_error hload hcall
          exact hkept hfiles
        | none =>
          obtain ⟨hbegun, honly⟩ := ends_of_error
            (ends_load_missing (w := w.withScript script) hwal hfull hbytes) hcall
          have hsnapshot := honly.files _ (walPath_ne config.path).symm
          rcases hbegun with hlog | ⟨-, n, hlog⟩
          · exact ⟨_, .after _, (h.congr hsnapshot hlog).unsettle _⟩
          · rw [hwal, he', Bool.and_true, Bool.not_true, Bool.and_false]
            refine ⟨_, .begun hwal he' (h.log_eq_none hbytes), h.begun ?_ hlog⟩
            rw [hsnapshot]
            exact h.snapshot
  · rw [Bool.not_eq_true] at hwal
    have hload := ends_load_unlogged (b := b) (T := T) (w := w.withScript script) hwal
    have hfiles := ends_of_error hload hcall
    exact hkept hfiles

end Booting

theorem Pictures.follow (h : Pictures b T path o (⟨some this, w⟩, settled)) {wal : Wal}
    (hpath : wal.file.path = walPath path) {script : List Verdict} {log : LogState}
    (hfollows : Follows (wal, w.withScript script) log) (x : I) {rs : List (WalRecord M)}
    {content : Bytes} {settled' : Bool} (hreads : ReadAs ε b settled' rs content)
    (hholds : log.Holds content) (hpos : settled' = true → log.At content) :
    Pictures b T path ⟨o.snapshot, some rs, some (x, true)⟩
      (⟨some (withLog this x log).1, (withLog this x log).2⟩, settled') := by
  have hfile : log.1.file.path = walPath path := hfollows.filePath.trans hpath
  have hsnapshot : (withLog this x log).2.files path = w.files path := by
    refine hfollows.only.files _ ?_
    rw [hpath]
    exact (walPath_ne path).symm
  have hwal : (withLog this x log).1.wal = some log.1 := rfl
  have hconfig : (withLog this x log).1.config.path = path := (h.handles this rfl).configPath
  refine pictures_logged ?_ hreads hconfig hwal hfile hholds hpos
  rw [hsnapshot]
  exact h.snapshot

section Mutation

variable {r : WalRecord M} {wal : Wal} {snapshot : Option I} {rs : List (WalRecord M)}
  {script : List Verdict} {e : Halt (PersistError ε)}

/-- A mutation that did not return has been refused without a trace, or its record is at the end of
the log as far as it got. -/
theorem Pictures.mutationHalted (hT : Contract b T)
    (h : Pictures b T path ⟨snapshot, some rs, some (this.inner, true)⟩ (⟨some this, w⟩, true))
    (hloggable : ∀ r ∈ rs, Loggable b r) (hpath : wal.file.path = walPath path)
    (hat : LogState.At (wal, w.withScript script) (logOf b rs))
    (hshort : (recordBody b.metadata r).length ≤ maxRecordLen) {x : I} {log : LogState}
    (hhalted : Halted b T r this.inner (wal, w.withScript script) (logOf b rs) e (x, log)) :
    Traces b T path ⟨snapshot, some rs, some (this.inner, true)⟩
      (.called this (.mutation r) (.error e))
      (Machine.after (withLog this x log) (.error e), true && !interrupts e) := by
  have hmd := hT.metadata
  have hreads (settled : Bool) := readAs_logOf (ε := ε) hmd hloggable settled
  have hwhole (happ : Appendable b r) :
      ReadAs ε b false (rs ++ [r]) (logOf b rs ++ frameOf b r) := by
    rw [frameOf, ← logOf_snoc]
    exact readAs_logOf hmd (List.forall_mem_append.mpr
      ⟨hloggable, List.forall_mem_singleton.mpr ⟨happ.1, hshort⟩⟩) false
  cases hhalted with
  | unencodable henv happ hquiet hscript =>
    have hat' := hquiet.at hat
    exact ⟨_, .after _, (h.follow hpath hquiet.follows this.inner (hreads _) hat'.holds
      fun _ => hat').halted e⟩
  | @rejected source log happ hreject hfollows hlogged hat' hscript =>
    have hrejects : ¬ T.Accepts r this.inner := by
      rw [IndexType.Accepts, hreject]
      simp
    rw [hT.keepsRejected r this.inner hrejects]
    exact ⟨_, .after _, (h.follow hpath hfollows this.inner (hreads true) hat'.holds
      fun _ => hat').halted (.failed (.indexBuild source))⟩
  | interrupted henv hfollows hstop happ hat' =>
    have he := interrupts_iff.mpr henv
    rw [he]
    by_cases harrived : mutationArrived b script r < (frameOf b r).length
    · have hparses := parseRecords_logOf_append (ε := ε) hmd hloggable
        (front_take_frameOf happ harrived)
      exact ⟨_, .after _, (h.follow hpath hfollows this.inner ⟨hparses, hloggable, by simp⟩
        hat'.holds (by simp)).halted e⟩
    · have hpos : 0 < mutationArrived b script r := by
        refine Nat.lt_of_lt_of_le ?_ (Nat.le_of_not_lt harrived)
        rw [frameOf, FramedLog.length_frame]
        omega
      have hholds := hat'.holds
      change log.Holds (logOf b rs ++ (frameOf b r).take (mutationArrived b script r)) at hholds
      rw [List.take_of_length_le (Nat.le_of_not_lt harrived)] at hholds
      exact ⟨_, .logged he rfl rfl, (h.follow hpath hfollows this.inner (hwhole (happ hpos)) hholds
        (by simp)).halted e⟩
  | rollbackInterrupted henv happ hreject hfollows hlogged hstop harrived hholds =>
    have he := interrupts_iff.mpr henv
    rw [he, hT.keepsRejected r this.inner hreject]
    split at hholds
    · exact ⟨_, .after _, (h.follow hpath hfollows this.inner (hreads false) hholds
        (by simp)).halted e⟩
    · exact ⟨_, .logged he rfl rfl, (h.follow hpath hfollows this.inner (hwhole happ) hholds
        (by simp)).halted e⟩

end Mutation

section Calls

variable {script : List Verdict} (hT : Contract b T)
  (h : Pictures b T path o (⟨some this, w⟩, settled))

include h

theorem Pictures.memory_eq : o.memory = some (this.inner, this.wal.isSome) := h.memory.symm

theorem Pictures.after_ok (call : Call M I) :
    o.after T (.called this call (.ok ()) : Incident ε M I) =
      o.called T this.inner this.wal.isSome call := by
  rw [Outline.after, h.memory_eq]

include hT

theorem Pictures.mutated {r : WalRecord M} (hsettled : this.wal.isSome → settled = true)
    (hshort : this.wal.isSome → (recordBody b.metadata r).length ≤ maxRecordLen) :
    Ends (mutation b T r) (this, w.withScript script)
      (fun a s => Traces b T path o (.called this (.mutation r) (.ok a))
        (⟨some s.1, s.2⟩, settled))
      (fun e s => Traces b T path o (.called this (.mutation r) (.error e))
        (Machine.after s (.error e), settled && !(this.wal.isSome && interrupts e))) := by
  cases hwal : this.wal with
  | none =>
    refine (ends_mutation_unlogged hwal r).mono ?_ ?_
    · rintro ⟨⟩ _ ⟨haccepts, rfl⟩
      refine ⟨_, .after _, ?_⟩
      rw [h.after_ok]
      have hchanged := (h.withScript script).changed (T.apply r this.inner).2
      simp only [hwal, Option.isSome_none] at hchanged ⊢
      exact hchanged
    · rintro e _ ⟨hrejects, rfl⟩
      rw [hT.keepsRejected r this.inner hrejects]
      simp only [Option.isSome_none, Bool.false_and, Bool.not_false, Bool.and_true]
      exact ⟨_, .after _, (h.withScript script).halted e⟩
  | some wal =>
    obtain rfl := hsettled (by rw [hwal]; rfl)
    obtain ⟨snapshot, log, memory⟩ := o
    obtain ⟨rs, content, hlog, hmemory, hpath, hfile, hreads, hholds, hpos⟩ := h.logged hwal
    obtain rfl : log = some rs := hlog
    obtain rfl : memory = some (this.inner, true) := hmemory
    obtain rfl := hreads.whole rfl
    have hat := (hpos rfl).withScript script
    refine (ends_mutation hat hwal r).mono ?_ ?_
    · rintro ⟨⟩ _ ⟨log', rfl, haccepted, happ, hfollows, hat', -⟩
      rw [frameOf, ← logOf_snoc] at hat'
      have hsnoc : ∀ r' ∈ rs ++ [r], Loggable b r' := List.forall_mem_append.mpr
        ⟨hreads.loggable,
          List.forall_mem_singleton.mpr ⟨happ.1, hshort (by rw [hwal]; rfl)⟩⟩
      have hafter := h.follow hfile hfollows (T.apply r this.inner).2
        (readAs_logOf hT.metadata hsnoc true) hat'.holds fun _ => hat'
      exact ⟨_, .after _, hafter⟩
    · rintro e _ ⟨x', log', rfl, hhalted⟩
      simp only [Option.isSome_some, Bool.true_and]
      exact h.mutationHalted hT hreads.loggable hfile hat (hshort (by rw [hwal]; rfl)) hhalted

variable (hinv : SnapshotInverts b T this.config this.inner)

include hinv

theorem Pictures.saved {call : Call M I} (hcall : call = .save ∨ call = .checkpoint) :
    Ends (save b T) (this, w.withScript script)
      (fun _ s => s.1 = this ∧
        Pictures b T path { o with snapshot := some this.inner } (⟨some this, s.2⟩, settled))
      (fun e s => Traces b T path o (.called this call (.error e))
        (Machine.after s (.error e), settled)) := by
  have hconfig := (h.handles this rfl).configPath
  have hresaved {w' : World Path} {full : Bytes}
      (hfull : snapshotBytes b T this.inner this.config = .ok full)
      (hsnapshot : w'.files this.config.path = some full)
      (hlog : w'.files (walPath this.config.path) = w.files (walPath this.config.path)) :
      Pictures b T path { o with snapshot := some this.inner } (⟨some this, w'⟩, settled) := by
    rw [hconfig] at hsnapshot hlog
    exact h.resaved (decodes_saved hT hinv hfull hsnapshot) hlog
  refine ends_save_cut.mono ?_ ?_
  · rintro _ ⟨_, w'⟩ ⟨rfl, hlog, full, hfull, hsnapshot⟩
    exact ⟨rfl, hresaved hfull hsnapshot hlog⟩
  · rintro e ⟨_, w'⟩ ⟨rfl, hlog, hsnapshot | ⟨he, full, hfull, hsnapshot⟩⟩
    · rw [hconfig] at hsnapshot hlog
      exact ⟨_, .after _, (h.congr hsnapshot hlog).halted e⟩
    · exact ⟨_, .saved hcall (interrupts_iff.mpr he) h.memory_eq,
        (hresaved hfull hsnapshot hlog).halted e⟩

theorem Pictures.checkpointCut {wal : Wal} {content : Bytes} {rs : List (WalRecord M)}
    (hlog : o.log = some rs) (hmemory : o.memory = some (this.inner, true))
    (hreads : ReadAs ε b settled rs content) {e : Halt (PersistError ε)} {log : LogState}
    (hpath : log.1.file.path = walPath path) (he : ByEnvironment e)
    (hcut : CutShort b T this (wal, w.withScript script).2 content log.2) :
    Traces b T path o (.called this .checkpoint (.error e))
      (Machine.after (withLog this this.inner log) (.error e), settled && !interrupts e) := by
  have hconfig := (h.handles this rfl).configPath
  have he' := interrupts_iff.mpr he
  obtain ⟨snapshot, _, _⟩ := o
  cases hlog
  cases hmemory
  have hafter {snapshot' : Option I} {rs' : List (WalRecord M)} {content' : Bytes}
      (hsnapshot : Option.Rel (fun x bytes => decodeSnapshot b T bytes = .ok x) snapshot'
        (log.2.files path))
      (hreads : ReadAs ε b false rs' content')
      (hholds : log.2.files (walPath path) = some content') :
      Pictures b T path (Outline.halted ⟨snapshot', some rs', some (this.inner, true)⟩ e)
        (Machine.after (withLog this this.inner log) (.error e), settled && !interrupts e) := by
    rw [he', Bool.not_true, Bool.and_false]
    rw [← hpath] at hholds
    have hthis : (withLog this this.inner log).1.wal = some log.1 := rfl
    have hconfig' : (withLog this this.inner log).1.config.path = path := hconfig
    exact (pictures_logged (w := (withLog this this.inner log).2) hsnapshot hreads hconfig' hthis
      hpath hholds (by simp)).halted e
  have hreads' := hreads.unsettle false
  rw [Bool.and_false] at hreads'
  cases hcut with
  | kept hno hsnapshot hlog =>
    rw [hconfig] at hsnapshot hlog
    refine ⟨_, .after _, hafter ?_ hreads' hlog⟩
    rw [hsnapshot]
    exact h.snapshot
  | replaced hreplaces hfull hno hsnapshot hlog =>
    rw [hconfig] at hsnapshot hlog
    have hsaved := decodes_saved hT hinv hfull hsnapshot
    exact ⟨_, .saved (.inr rfl) he' rfl, hafter hsaved hreads' hlog⟩
  | emptied n hreplaces hfull hempties hsnapshot hlog =>
    rw [hconfig] at hsnapshot hlog
    have hsaved := decodes_saved hT hinv hfull hsnapshot
    exact ⟨_, .emptied he' rfl, hafter hsaved (readAs_take_walHeader b n) hlog⟩

theorem Pictures.checkpointed :
    Ends (checkpoint b T) (this, w.withScript script)
      (fun a s => Traces b T path o (.called this .checkpoint (.ok a))
        (⟨some s.1, s.2⟩, settled || this.wal.isSome))
      (fun e s => Traces b T path o (.called this .checkpoint (.error e))
        (Machine.after s (.error e), settled && !(this.wal.isSome && interrupts e))) := by
  have hafter := h.after_ok (T := T) (.checkpoint : Call M I)
  cases hwal : this.wal with
  | none =>
    rw [ends_checkpoint_unlogged hwal]
    simp only [Option.isSome_none, Bool.or_false, Bool.false_and, Bool.not_false, Bool.and_true]
    refine (h.saved hT hinv (.inr rfl)).mono ?_ fun _ _ htraces => htraces
    rintro _ ⟨_, w'⟩ ⟨rfl, hpictures⟩
    refine ⟨_, .after _, ?_⟩
    rw [hafter, hwal]
    exact hpictures
  | some wal =>
    obtain ⟨rs, content, hlog, hmemory, hpath, hfile, hreads, hholds, hpos⟩ := h.logged hwal
    simp only [Option.isSome_some, Bool.or_true, Bool.true_and]
    have hholds' : LogState.Holds (wal, w.withScript script) content := hholds
    have hkept (e : Halt (PersistError ε)) : Traces b T path o (.called this .checkpoint (.error e))
        (Machine.after (this, w.withScript script) (.error e), settled && !interrupts e) :=
      ⟨_, .after _, ((h.withScript script).unsettle _).halted e⟩
    cases hname : this.config.path.fileName with
    | none =>
      rw [checkpoint, ends_bind, ends_get, ends_bind, ends_within]
      refine (ends_writeSnapshot_unnamed hname).mono (fun _ _ h => h.elim) ?_
      rintro e _ ⟨rfl, -⟩
      exact hkept e
    | some name =>
      have hfile' : wal.file.path = walPath this.config.path := by rw [hfile, hpath]
      refine (ends_checkpoint_of_holds hname hholds' hwal hfile').mono ?_ ?_
      · rintro ⟨⟩ _ ⟨full, log', rfl, hfull, hsnapshot, hat, hfile, -⟩
        rw [hpath] at hsnapshot hfile
        have hthis : (withLog this this.inner log').1.wal = some log'.1 := rfl
        have hconfig : (withLog this this.inner log').1.config.path = path := hpath
        have hpictures := pictures_logged (decodes_saved hT hinv hfull hsnapshot)
          (readAs_walHeader hT.metadata true) hconfig hthis hfile hat.holds fun _ => hat
        refine ⟨_, .after _, ?_⟩
        rw [hafter, hwal, Outline.called, hmemory]
        exact hpictures
      · rintro e _ ⟨log', rfl, hfile, ⟨e', -, -, rfl⟩ | ⟨he, hcut⟩⟩
        · rw [← withLog_self hwal]
          exact hkept e
        · rw [hpath] at hfile
          exact h.checkpointCut hT hinv hlog hmemory hreads hfile he hcut

end Calls

end PersistedIndex

end IqdbPersist
