import IqdbPersist.Mutation
import IqdbPersist.UnsyncedFile

/-!
# The log and its medium

A log that syncs every append has on the medium what its file holds, whenever a method has returned.
When the machine stops in a mutation, the medium holds what the log held before, and behind it what
may be left of the part of the frame that had arrived.
-/

namespace IqdbPersist

open CrashLogic FileSystem FramedLog

variable {ε M I : Type} {b : Build M} {T : IndexType ε M I} {loss : Loss}

namespace LogState

/-- A log that syncs every append, after work on it alone; the medium holds one of `S` for it. -/
structure Kept (loss : Loss) (w : World Path) (path : Path) (S : Set Bytes) (s : LogState) :
    Prop where
  filePath : s.1.file.path = path
  always : s.1.policy = .always
  works : Works targetDir loss path S w s.2

variable {w : World Path} {path : Path} {S S' : Set Bytes} {s s' : LogState} {content : Bytes}

theorem Kept.mono (h : s.Kept loss w path S) (hS : S ⊆ S') : s.Kept loss w path S' :=
  ⟨h.filePath, h.always, h.works.mono hS⟩

theorem Kept.view (h : s.Kept loss w path S) (hholds : s.Holds content) :
    (s.2.disk targetDir loss).view path = some content := by
  rw [World.view_disk, ← h.filePath, hholds]

theorem Kept.mem (h : s.Kept loss w path S) (hholds : s.Holds content) : content ∈ S :=
  h.works.keeps.mem (World.wellFormed_disk _ _ _) (h.view hholds)

theorem Kept.skipped (h : s.Kept loss w path S) : s.skipped.Kept loss w path S :=
  ⟨h.filePath, h.always, h.works.next⟩

theorem Kept.sought (h : s.Kept loss w path S) (pos : ℕ) : (s.sought pos).Kept loss w path S :=
  ⟨h.filePath, h.always, h.works.next⟩

theorem Kept.wrote (h : s.Kept loss w path S) (hat : s.At content) (bytes : Bytes) :
    (s.wrote bytes).Kept loss w path (loss.write content.length bytes content S) where
  filePath := h.filePath
  always := h.always
  works := by
    refine h.works.next.emit h.filePath.symm ?_
    rw [h.filePath, hat.pos]
    exact h.works.keeps.write (h.view hat.holds) content.length bytes

theorem Kept.resized (h : s.Kept loss w path S) (hholds : s.Holds content) (len : ℕ) :
    (s.resized len).Kept loss w path (loss.setLen len content S) where
  filePath := h.filePath
  always := h.always
  works := by
    refine h.works.next.emit h.filePath.symm ?_
    rw [h.filePath]
    exact h.works.keeps.setLen (h.view hholds) len

theorem Kept.synced (h : s.Kept loss w path S) (hholds : s.Holds content) :
    s.synced.Kept loss w path {content} where
  filePath := h.filePath
  always := h.always
  works := by
    refine h.works.next.emit h.filePath.symm ?_
    rw [h.filePath]
    exact Disk.keeps_sync (h.view hholds)

theorem Kept.due (h : s.Kept loss w path S) (now : ℕ) : s.1.due now = true := by
  rw [Wal.due, h.always]

end LogState

open LogState Wal

section Methods

variable {w : World Path} {path : Path} {S : Set Bytes} {s : LogState} {content : Bytes}

theorem ends_syncNow_kept (h : s.Kept loss w path S) (hholds : s.Holds content) :
    Ends (syncNow : Method ε Unit) s (fun _ s' => s'.Kept loss w path {content})
      (fun _ s' => s'.Kept loss w path S ∧
        (takesEffect s.2.script 0 = true → s'.Kept loss w path {content})) := by
  simp only [syncNow, ends_bind, ends_syncAll, ends_modify, takesEffect_zero]
  have hsynced := h.synced hholds
  cases s.2.verdict with
  | done => exact ⟨hsynced.1, hsynced.2, hsynced.3⟩
  | fails n => exact ⟨h.skipped, fun heffect => by cases heffect⟩
  | cut n =>
    dsimp only
    split
    · rename_i hn
      subst hn
      exact ⟨h.skipped, fun heffect => by cases heffect⟩
    · exact ⟨hsynced.mono (Set.singleton_subset_iff.mpr (h.mem hholds)), fun _ => hsynced⟩

theorem ends_writes_kept (h : s.Kept loss w path {content}) (hat : s.At content) (xs ys : Bytes) :
    Ends (do onFile (File.writeAll xs); onFile (File.writeAll ys) : Method ε Unit) s
      (fun _ s' => s'.Kept loss w path (pieces loss content (xs ++ ys) (xs ++ ys).length))
      (fun _ s' => s'.Kept loss w path
        (pieces loss content (xs ++ ys) (arrived s.2.script [xs.length, ys.length]))) := by
  have hfirst (n : ℕ) : (s.wrote (xs.take n)).Kept loss w path
      (pieces loss content (xs ++ ys) (min n xs.length)) := by
    rw [← write_take_eq_pieces]
    exact h.wrote hat _
  simp only [ends_bind, ends_writeLog]
  cases hv : s.2.verdict with
  | fails n =>
    rw [arrived_of_fails hv]
    exact hfirst n
  | cut n =>
    rw [arrived_of_cut hv]
    exact hfirst n
  | done =>
    rw [arrived_of_done hv, ← script_wrote s xs]
    have hxs : (s.wrote xs).Kept loss w path (pieces loss content (xs ++ ys) xs.length) := by
      have hwhole := hfirst xs.length
      rwa [List.take_length, Nat.min_self] at hwhole
    have hsecond (n : ℕ) : ((s.wrote xs).wrote (ys.take n)).Kept loss w path
        (pieces loss content (xs ++ ys) (xs.length + min n ys.length)) :=
      (hxs.wrote (hat.wrote xs) _).mono (write_pieces_subset _ _ _ _ _)
    cases hv' : (s.wrote xs).2.verdict with
    | fails n =>
      rw [arrived_of_fails hv']
      exact hsecond n
    | cut n =>
      rw [arrived_of_cut hv']
      exact hsecond n
    | done =>
      have hwhole := hsecond ys.length
      rw [List.take_length, Nat.min_self, ← List.length_append] at hwhole
      exact hwhole

variable (b)

theorem ends_commitRecord_kept {r : WalRecord M} (h : s.Kept loss w path {content})
    (hat : s.At content) (hbody : s.1.scratch = recordBody b.metadata r)
    (hlen : (recordBody b.metadata r).length < 2 ^ 32) :
    Ends (commitRecord b : Method ε Unit) s
      (fun _ s' => s'.Kept loss w path {content ++ frameOf b r})
      (fun _ s' =>
        s'.Kept loss w path (pieces loss content (frameOf b r) (frameArrived b s.2.script r)) ∧
        (takesEffect s.2.script 2 = true → s'.Kept loss w path {content ++ frameOf b r})) := by
  have hframe : head (logFormat b) (recordBody b.metadata r) ++ recordBody b.metadata r =
      frameOf b r := rfl
  have hwrites := (ends_writes (ε := ε) hat (head (logFormat b) (recordBody b.metadata r))
    (recordBody b.metadata r)).and (ends_writes_kept h hat _ _)
  rw [ends_bind, length_head, hframe] at hwrites
  simp only [commitRecord, ends_bind, ends_get, hbody, u32TryFrom, if_pos hlen, ends_uninterrupted,
    ends_settle_ok, commitRecord_head b hlen]
  have hnot (hstop : completes s.2.script 2 = false) : ¬ takesEffect s.2.script 2 = true := by
    intro heffect
    rw [completes_of_takesEffect heffect] at hstop
    cases hstop
  refine hwrites.mono (fun _ s₁ h₁ => h₁.mono ?_ ?_) ?_
  · rintro _ s₂ ⟨⟨-, hat₂, -, hscript, hdone, harrived⟩, hkept⟩
    rw [maybeSync, ends_bind, ends_get, if_pos (hkept.due _), frameArrived, harrived,
      ← length_frame (logFormat b), takesEffect_add _ 2 0, hdone, ← hscript, Bool.true_and]
    exact ends_syncNow_kept hkept hat₂.holds
  · exact fun _ _ h => ⟨h.2, fun heffect => absurd heffect (hnot h.1.2.1)⟩
  · exact fun _ _ h => ⟨h.2, fun heffect => absurd heffect (hnot h.1.2.1)⟩

/-- An append that returns has its frame on the medium. One that is stopped leaves what may be left
of the part that arrived, and the frame once it is synced; one that fails by itself leaves
nothing. -/
theorem ends_append_kept (h : s.Kept loss w path {content}) (hat : s.At content)
    (r : WalRecord M) :
    Ends (append b r : Method ε Unit) s
      (fun _ s' => s'.Kept loss w path {content ++ frameOf b r})
      (fun e s' =>
        s'.Kept loss w path (pieces loss content (frameOf b r) (frameArrived b s.2.script r)) ∧
        (takesEffect s.2.script 2 = true → s'.Kept loss w path (cuts content (frameOf b r))) ∧
        (¬ ByEnvironment e → s'.Kept loss w path {content})) := by
  have hnothing {e : Halt (PersistError ε)} {s' : LogState}
      (hkept : s'.Kept loss w path {content}) :
      s'.Kept loss w path (pieces loss content (frameOf b r) (frameArrived b s.2.script r)) ∧
        (takesEffect s.2.script 2 = true → s'.Kept loss w path (cuts content (frameOf b r))) ∧
        (¬ ByEnvironment e → s'.Kept loss w path {content}) :=
    ⟨hkept.mono (Set.singleton_subset_iff.mpr (mem_pieces_self _ _ _ _)),
      fun _ => hkept.mono (Set.singleton_subset_iff.mpr (mem_cuts_self _ _)), fun _ => hkept⟩
  rw [append_eq, ends_bind, ends_onScratch]
  refine (ends_encodeRecord b.metadata r s.1.scratch).mono ?_ ?_
  · rintro _ body ⟨hfits, rfl⟩
    have hat' := (quiet_scratch s (recordBody b.metadata r)).at hat
    have hkept : LogState.Kept loss w path {content}
        ({ s.1 with scratch := recordBody b.metadata r }, s.2) := ⟨h.1, h.2, h.3⟩
    by_cases hlen : (recordBody b.metadata r).length < 2 ^ 32
    · refine ((ends_commitRecord b hat' rfl hlen).and
        (ends_commitRecord_kept b hkept hat' rfl hlen)).mono (fun _ _ h => h.2) ?_
      rintro e s' ⟨⟨-, henv, -⟩, hpieces, hsynced⟩
      exact ⟨hpieces, fun heffect => (hsynced heffect).mono
        (Set.singleton_subset_iff.mpr (append_mem_cuts List.prefix_rfl)),
        fun hnot => absurd henv hnot⟩
    · simp only [commitRecord, ends_bind, ends_get, u32TryFrom, if_neg hlen, ends_uninterrupted,
        ends_settle_error]
      exact hnothing hkept
  · rintro e body -
    exact hnothing ⟨h.1, h.2, h.3⟩

/-- A rollback that returns has taken the record off the medium, and so has one that is stopped
after its sync took effect. -/
theorem ends_rollback_kept {bytes : Bytes} (h : s.Kept loss w path {content ++ bytes})
    (hholds : s.Holds (content ++ bytes)) :
    Ends (rollback content.length : Method ε Unit) s
      (fun _ s' => s'.Kept loss w path {content})
      (fun _ s' => s'.Kept loss w path (cuts content bytes) ∧
        (takesEffect s.2.script 2 = true → s'.Kept loss w path {content})) := by
  have hwhole : s.Kept loss w path (cuts content bytes) :=
    h.mono (Set.singleton_subset_iff.mpr (append_mem_cuts List.prefix_rfl))
  have hcut : (s.resized content.length).Kept loss w path (cuts content bytes) :=
    (h.resized hholds content.length).mono (setLen_subset_cuts _ _ _)
  simp only [rollback, ends_bind, ends_setLen, ends_seekStart]
  have hstopped {s' : LogState} (hkept : s'.Kept loss w path (cuts content bytes))
      (hstop : completes s.2.script 2 = false) : s'.Kept loss w path (cuts content bytes) ∧
        (takesEffect s.2.script 2 = true → s'.Kept loss w path {content}) := by
    refine ⟨hkept, fun heffect => ?_⟩
    rw [completes_of_takesEffect heffect] at hstop
    cases hstop
  cases hv : s.2.verdict with
  | fails n => exact hstopped hwhole.skipped (completes_of_ne_done (by simp [hv]) 1)
  | cut n =>
    dsimp only
    split
    · exact hstopped hwhole.skipped (completes_of_ne_done (by simp [hv]) 1)
    · exact hstopped hcut (completes_of_ne_done (by simp [hv]) 1)
  | done =>
    have hstop (hv' : (s.resized content.length).2.verdict ≠ .done) :
        completes s.2.script 2 = false := by
      rw [completes_of_done hv, ← script_resized s content.length, completes_of_ne_done hv']
    cases hv' : (s.resized content.length).2.verdict with
    | fails n => exact hstopped hcut.skipped (hstop (by simp [hv']))
    | cut n => exact hstopped hcut.skipped (hstop (by simp [hv']))
    | done =>
      dsimp only
      have hresized := hholds.resized content.length
      rw [resize_append] at hresized
      have heffect : takesEffect s.2.script 2 =
          takesEffect ((s.resized content.length).sought content.length).2.script 0 := by
        rw [takesEffect_add s.2.script 2 0, completes_of_done hv,
          ← script_resized s content.length, completes_of_done hv', script_sought, script_resized,
          List.drop_drop, completes_zero, Bool.true_and]
      rw [heffect]
      exact ends_syncNow_kept (hcut.sought content.length) hresized

omit b in
theorem ends_writeHeader_syncNow_kept (h : s.Kept loss w path S) (hat : s.At []) :
    Ends (do Wal.writeHeader; syncNow : Method ε Unit) s
      (fun _ s' => s'.Kept loss w path {walHeader})
      (fun _ s' => s'.Kept loss w path (loss.write 0 walHeader [] S)) := by
  have hcut (n : ℕ) :
      (s.wrote (walHeader.take n)).Kept loss w path (loss.write 0 walHeader [] S) :=
    (h.wrote hat _).mono Loss.write_take_subset
  rw [ends_bind, Wal.writeHeader, ends_writeLog]
  cases s.2.verdict with
  | fails n => exact hcut n
  | cut n => exact hcut n
  | done =>
    exact (ends_syncNow_kept (h.wrote hat walHeader) (hat.wrote walHeader).holds).mono
      (fun _ _ h => h) fun _ _ h => h.1

/-- A log that was reset has its header on the medium. If the reset has not returned, there may be
what may be left of the truncation and of the header. -/
theorem ends_reset_kept (h : s.Kept loss w path S) (hholds : s.Holds content) :
    Ends (reset : Method ε Unit) s
      (fun _ s' => s'.Kept loss w path {walHeader})
      (fun _ s' =>
        s'.Kept loss w path (loss.write 0 walHeader [] (loss.setLen 0 content S))) := by
  have hcut := h.resized hholds 0
  have hempty := hholds.resized 0
  rw [resize_zero] at hempty
  have hstages : loss.setLen 0 content S ⊆ loss.write 0 walHeader [] (loss.setLen 0 content S) :=
    Loss.subset_write
  have hkept := hcut.mono hstages
  have huncut := h.mono (Loss.subset_setLen.trans hstages)
  simp only [reset, ends_bind, ends_setLen, ends_seekStart]
  cases s.2.verdict with
  | fails n => exact huncut.skipped
  | cut n =>
    dsimp only
    split
    · exact huncut.skipped
    · exact hkept
  | done =>
    dsimp only
    cases (s.resized 0).2.verdict with
    | fails n => exact hkept.skipped
    | cut n => exact hkept.skipped
    | done =>
      have hheader := ends_writeHeader_syncNow_kept (ε := ε) (hcut.sought 0) ⟨hempty, rfl⟩
      rw [ends_bind] at hheader
      exact hheader

end Methods

section Create

variable {w : World Path} {snapshot : Path}

theorem ends_create_kept (loss : Loss) (hnone : w.files (walPath snapshot) = none) :
    Ends (Wal.create snapshot .always) w
      (fun wal w' => w.permits (walPath snapshot) = true ∧
        LogState.Kept loss (w.next.emit (.create (walPath snapshot))) (walPath snapshot) {walHeader}
          (wal, w'))
      (fun (_ : Halt (PersistError ε)) _ => True) := by
  rw [Wal.create, ends_bind, ends_ioAt, openTruncate, ends_bind, ends_get, hnone,
    if_neg (by simp), FileSystem.create, ends_bind, ends_get]
  split
  · rename_i hpermits
    rw [ends_bind, ends_atomically]
    cases w.verdict with
    | fails n => trivial
    | cut n => trivial
    | done =>
      rw [ends_pure, ends_withLocal]
      set w₁ := w.next.emit (.create (walPath snapshot)) with hw₁
      have hempty : w₁.files (walPath snapshot) = some [] := by
        rw [hw₁, World.files_emit, Event.apply, Function.update_self]
      have hkept : LogState.Kept loss w₁ (walPath snapshot) Set.univ
          (⟨⟨walPath snapshot, 0⟩, walPath snapshot, .always, none, []⟩, w₁) :=
        ⟨rfl, rfl, Works.refl fun _ _ => Set.subset_univ _⟩
      refine (ends_writeHeader_syncNow_kept hkept ⟨hempty, rfl⟩).mono ?_ fun _ _ _ => trivial
      exact fun _ s' h => ⟨hpermits, h⟩
  · trivial

end Create

namespace PersistedIndex

variable {w : World Path} {path : Path} {log : LogState} {content : Bytes}

/-- Where every append is synced, the sync of an appended record takes effect: it follows the mark
and the two writes. -/
def AppendsDurably (script : List Verdict) : Prop := takesEffect script 3 = true

/-- Likewise the sync that takes a rejected record off the medium, after the truncation and the
seek. -/
def TakesBackDurably (script : List Verdict) : Prop := takesEffect script 6 = true

/-- What a mutation leaves on the medium when it does not return: what may be left of the part of
its frame that arrived, no less than a part of the frame once the append is synced, and nothing when
the sync of its rollback has taken effect or it has failed by itself. -/
structure Leaves (b : Build M) (loss : Loss) (w : World Path) (path : Path) (content : Bytes)
    (script : List Verdict) (r : WalRecord M) (e : Halt (PersistError ε)) (log : LogState) :
    Prop where
  part : log.Kept loss w path (pieces loss content (frameOf b r) (mutationArrived b script r))
  synced : AppendsDurably script → log.Kept loss w path (cuts content (frameOf b r))
  takenBack : TakesBackDurably script → log.Kept loss w path {content}
  refused : ¬ ByEnvironment e → log.Kept loss w path {content}

theorem leaves_nothing (b : Build M) {script : List Verdict} {r : WalRecord M}
    {e : Halt (PersistError ε)} (h : log.Kept loss w path {content}) :
    Leaves b loss w path content script r e log where
  part := h.mono (Set.singleton_subset_iff.mpr (mem_pieces_self _ _ _ _))
  synced _ := h.mono (Set.singleton_subset_iff.mpr (mem_cuts_self _ _))
  takenBack _ := h
  refused _ := h

theorem ends_logged_kept (h : log.Kept loss w path {content}) (hat : log.At content)
    (r : WalRecord M) (x : I) :
    Ends (logged (Wal.append b r) (T.apply r)) (x, log)
      (fun _ s => s.2.Kept loss w path {content ++ frameOf b r})
      (fun e s => Leaves b loss w path content log.2.script r e s.2) := by
  have hops : log.skipped.appendOps = 3 := by
    rw [appendOps, LogState.syncs, h.skipped.due]
    rfl
  rw [logged, ends_bind, onLog, ends_within]
  refine ends_mark.mono ?_ ?_
  · rintro mark _ ⟨rfl, rfl, hmarked⟩
    have harrived := mutationArrived_of_completes (b := b) hmarked r
    have hat₁ := (quiet_skipped log).at hat
    have hlater (i : ℕ) : takesEffect log.2.script (1 + i) =
        takesEffect log.skipped.2.script i := by
      rw [takesEffect_add, hmarked, Bool.true_and, script_skipped]
    rw [ends_bind, onLog, ends_within]
    refine ((ends_append b hat₁ r).and (ends_append_kept b h.skipped hat₁ r)).mono ?_ ?_
    · rintro _ log₂ ⟨⟨happ, -, hat₂, hlogged, hscript, hframe⟩, hkept⟩
      rw [ends_bind, ends_get]
      rcases T.apply r x with ⟨source | _, x'⟩
      · rw [hat.pos]
        simp only [ends_bind, ends_modify, onLog, ends_within, ends_throw]
        have heffect : takesEffect log.2.script 6 = takesEffect log₂.2.script 2 := by
          rw [hops] at hlogged hscript
          rw [hlater 5, takesEffect_add _ 3 2, hlogged, hscript, Bool.true_and]
        refine ((ends_rollback hat₂.holds).and (ends_rollback_kept hkept hat₂.holds)).mono ?_ ?_
        · rintro _ log₃ ⟨-, hback⟩
          exact leaves_nothing b hback
        · rintro e log₃ ⟨⟨henv, -⟩, hcuts, hback⟩
          refine ⟨hcuts.mono ?_, fun _ => hcuts, fun h => hback (heffect.symm.trans h),
            fun hnot => absurd henv hnot⟩
          rw [harrived, hframe]
          exact cuts_subset_pieces _ _ _
      · exact hkept
    · rintro e log₂ ⟨hstopped, hpieces, hsynced, hself⟩
      refine ⟨by rwa [harrived], fun h => hsynced ((hlater 2).symm.trans h), fun heffect => ?_,
        hself⟩
      rcases hstopped with ⟨-, -, -, hstop, -⟩ | ⟨-, -, henv, -⟩
      · have hall := completes_of_takesEffect ((hlater 5).symm.trans heffect)
        rw [completes_add _ 3 2, ← hops, hstop, Bool.false_and] at hall
        cases hall
      · exact hself henv
  · rintro e _ ⟨rfl, hstop, henv⟩
    exact leaves_nothing b h.skipped

theorem ends_mutation_kept {this : PersistedIndex I} (hwal : this.wal = some log.1)
    (h : log.Kept loss w path {content}) (hat : log.At content) (r : WalRecord M) :
    Ends (mutation b T r) (this, log.2)
      (fun _ s => ∃ x' log', s = withLog this x' log' ∧
        log'.Kept loss w path {content ++ frameOf b r})
      (fun e s => ∃ x' log', s = withLog this x' log' ∧
        Leaves b loss w path content log.2.script r e log') := by
  rw [mutation_eq, mutate, ends_bind, ends_get]
  simp only [hwal, ends_within]
  refine (ends_logged_kept h hat r this.inner).mono ?_ ?_
  · rintro _ ⟨x', log'⟩ hkept
    exact ⟨x', log', rfl, hkept⟩
  · rintro e ⟨x', log'⟩ hkept
    exact ⟨x', log', rfl, hkept⟩

end PersistedIndex

end IqdbPersist
