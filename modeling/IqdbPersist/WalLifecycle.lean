import IqdbPersist.WalContent

/-!
# Creating, re-opening and resetting the log

A created or reset log holds its header; while it is being reset the file holds a part of the
header, once it has been emptied. Re-opening an existing log changes no file and goes to its
physical end, whatever stands there.
-/

namespace IqdbPersist

open CrashLogic FileSystem

variable {ε : Type}

open LogState Wal

section Methods

variable {s : LogState} {content : Bytes}

theorem ends_writeHeader_syncNow (h : s.At []) :
    Ends (do Wal.writeHeader; syncNow : Method ε Unit) s
      (fun _ s' => Follows s s' ∧ s'.At walHeader ∧ completes s.2.script 2 = true ∧
        s'.2.script = s.2.script.drop 2)
      (fun e s' => ByEnvironment e ∧ Follows s s' ∧ completes s.2.script 2 = false ∧
        ∃ n, s'.Holds (walHeader.take n)) := by
  rw [ends_bind, Wal.writeHeader, ends_writeLog]
  cases hv : s.2.verdict with
  | fails n =>
    exact ⟨trivial, follows_wrote s _, completes_of_ne_done (by simp [hv]) 1, n, (h.wrote _).holds⟩
  | cut n =>
    exact ⟨trivial, follows_wrote s _, completes_of_ne_done (by simp [hv]) 1, n, (h.wrote _).holds⟩
  | done =>
    have hat := h.wrote walHeader
    refine ends_syncNow.mono ?_ ?_
    · rintro _ s' ⟨hquiet, hsync, hscript⟩
      refine ⟨(follows_wrote s _).trans hquiet.follows, hquiet.at hat, ?_, ?_⟩
      · rw [completes_of_done hv, ← script_wrote s walHeader, hsync]
      · rw [hscript, script_wrote, List.drop_drop]
    · rintro e s' ⟨hquiet, hsync, he⟩
      refine ⟨he, (follows_wrote s _).trans hquiet.follows, ?_, walHeader.length, ?_⟩
      · rw [completes_of_done hv, ← script_wrote s walHeader, hsync]
      · rw [List.take_length]
        exact hquiet.holds hat.holds

/-- A reset log holds its header. Cut short, it holds what it held until the truncation takes
effect, and a part of the header from then on. -/
theorem ends_reset (h : s.Holds content) :
    Ends (reset : Method ε Unit) s
      (fun _ s' => Follows s s' ∧ s'.At walHeader ∧ completes s.2.script 4 = true ∧
        s'.2.script = s.2.script.drop 4)
      (fun e s' => ByEnvironment e ∧ Follows s s' ∧ completes s.2.script 4 = false ∧
        if takesEffect s.2.script 0 then ∃ n, s'.Holds (walHeader.take n)
        else s'.Holds content) := by
  refine ends_truncate h 0 _ ?_ ?_
  · rw [resize_zero]
    intro s₁ hfollows hholds hpos hcompletes hscript
    refine (ends_writeHeader_syncNow ⟨hholds, hpos⟩).mono ?_ ?_
    · rintro _ s' ⟨hfollows', hat, hcompletes', hscript'⟩
      refine ⟨hfollows.trans hfollows', hat, ?_, ?_⟩
      · rw [completes_add _ 2 2, hcompletes, ← hscript, hcompletes']
        rfl
      · rw [hscript', hscript, List.drop_drop]
    · rintro e s' ⟨he, hfollows', hcompletes', hprefix⟩
      refine ⟨he, hfollows.trans hfollows', ?_, ?_⟩
      · rw [completes_add _ 2 2, hcompletes, ← hscript, hcompletes']
        rfl
      · rw [takesEffect_of_completes hcompletes Nat.zero_lt_two]
        exact hprefix
  · rw [resize_zero]
    intro e s' he hfollows hcompletes hholds
    refine ⟨he, hfollows, by rw [completes_add _ 2 2, hcompletes]; rfl, ?_⟩
    split at hholds
    · rename_i heffect
      rw [heffect]
      exact ⟨0, hholds⟩
    · rename_i heffect
      rw [if_neg heffect]
      exact hholds

end Methods

section Open

variable {w : World Path} {snapshot : Path} {policy : FsyncPolicy}

structure Opened (snapshot : Path) (policy : FsyncPolicy) (w : World Path) (s : LogState)
    (content : Bytes) : Prop where
  filePath : s.1.file.path = walPath snapshot
  path : s.1.path = walPath snapshot
  policy : s.1.policy = policy
  holds : s.At content
  only : Only (· = walPath snapshot) w s.2

theorem ends_create : Ends (Wal.create snapshot policy) w
    (fun wal w' => Opened snapshot policy w (wal, w') walHeader ∧ w'.script = w.script.drop 3)
    (fun (e : Halt (PersistError ε)) w' => ByEnvironment e ∧ Only (· = walPath snapshot) w w' ∧
      ¬ (completes w.script 3 = true ∧ w.permits (walPath snapshot) = true)) := by
  rw [Wal.create, ends_bind]
  refine ends_ioAt_of ((ends_openTruncate (walPath snapshot)).mono ?_ ?_)
  · rintro _ w₁ ⟨rfl, hempty, honly, hscript⟩
    have hempty :
        LogState.At (⟨⟨walPath snapshot, 0⟩, walPath snapshot, policy, none, []⟩, w₁) [] :=
      ⟨hempty, rfl⟩
    rw [ends_withLocal]
    refine (ends_writeHeader_syncNow hempty).mono ?_ ?_
    · rintro _ s' ⟨hfollows, hat, -, hscript'⟩
      refine ⟨⟨hfollows.filePath, hfollows.path, hfollows.policy, hat,
        honly.trans hfollows.only⟩, ?_⟩
      rw [hscript', hscript, List.drop_drop]
    · rintro e s' ⟨he, hfollows, hcompletes, -⟩
      refine ⟨he, honly.trans hfollows.only, fun hall => ?_⟩
      rw [completes_add _ 1 2, Bool.and_eq_true, ← hscript, hcompletes] at hall
      exact Bool.noConfusion hall.1.2
  · rintro _ w' ⟨honly, hstop⟩ e he
    refine ⟨he, honly, ?_⟩
    rintro ⟨hcompletes, hpermits⟩
    rw [completes_add _ 1 2, Bool.and_eq_true] at hcompletes
    exact hstop ⟨hcompletes.1, hpermits⟩

theorem ends_openForAppend (hcalm : w.Calm) {content : Bytes}
    (hcontent : w.files (walPath snapshot) = some content) :
    Ends (openForAppend snapshot policy) w
      (fun wal w' => Opened snapshot policy w (wal, w') content ∧ w'.files = w.files ∧ w'.Calm)
      (fun (_ : Halt (PersistError ε)) _ => False) := by
  simp only [openForAppend, existsPath, openOrCreate, File.seekEnd, ends_bind, ends_ioAt,
    ends_onFailure, ends_observe, hcalm.verdict, ends_get, World.files_next, hcontent,
    Option.isSome_some, if_true, hcalm.next.verdict, ends_withLocal, ends_beside,
    hcalm.next.next.verdict, ends_modify, ends_pure]
  refine ⟨⟨rfl, rfl, rfl, ⟨hcontent, ?_⟩, ?_⟩, trivial, hcalm.next.next.next⟩
  · simp only [Option.map_some, Option.getD_some]
  · exact (Only.refl _ w).next.next.next

end Open

end IqdbPersist
