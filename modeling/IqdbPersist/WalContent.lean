import IqdbPersist.Wal

/-!
# What the log file holds

`At` says that the log file holds some bytes and that the next write goes behind them. Each method
keeps to the log file, and what that holds afterwards is a function of the script: all of it when
the operations complete, and otherwise what had arrived when the environment stepped in.
-/

namespace IqdbPersist

open CrashLogic FileSystem LittleEndian FramedLog

variable {ε M : Type}

namespace LogState

def Holds (s : LogState) (content : Bytes) : Prop := s.2.files s.1.file.path = some content

structure At (s : LogState) (content : Bytes) : Prop where
  holds : s.Holds content
  pos : s.1.file.pos = content.length

/-- The second state is the first after work on the log file alone. -/
structure Follows (s s' : LogState) : Prop where
  filePath : s'.1.file.path = s.1.file.path
  path : s'.1.path = s.1.path
  policy : s'.1.policy = s.1.policy
  only : Only (· = s.1.file.path) s.2 s'.2

/-- The second state has the same file contents and handle. -/
structure Quiet (s s' : LogState) : Prop where
  file : s'.1.file = s.1.file
  path : s'.1.path = s.1.path
  policy : s'.1.policy = s.1.policy
  files : s'.2.files = s.2.files
  dirs : s'.2.dirs = s.2.dirs
  permits : s'.2.permits = s.2.permits

variable {s s' s'' : LogState} {content bytes : Bytes}

theorem Quiet.follows (h : Quiet s s') : Follows s s' where
  filePath := by rw [h.file]
  path := h.path
  policy := h.policy
  only := ⟨fun p _ => congrFun h.files p, h.dirs, h.permits⟩

theorem Quiet.holds (h : Quiet s s') (hs : s.Holds content) : s'.Holds content := by
  rwa [Holds, h.files, h.file]

theorem Quiet.at (h : Quiet s s') (hs : s.At content) : s'.At content :=
  ⟨h.holds hs.holds, by rw [h.file, hs.pos]⟩

theorem At.withScript {wal : Wal} {w : World Path} (h : At (wal, w) content)
    (script : List Verdict) : At (wal, w.withScript script) content := ⟨h.holds, h.pos⟩

theorem Quiet.trans (h : Quiet s s') (h' : Quiet s' s'') : Quiet s s'' where
  file := h'.file.trans h.file
  path := h'.path.trans h.path
  policy := h'.policy.trans h.policy
  files := h'.files.trans h.files
  dirs := h'.dirs.trans h.dirs
  permits := h'.permits.trans h.permits

theorem Follows.trans (h : Follows s s') (h' : Follows s' s'') : Follows s s'' where
  filePath := h'.filePath.trans h.filePath
  path := h'.path.trans h.path
  policy := h'.policy.trans h.policy
  only := h.only.trans (h.filePath ▸ h'.only)

/-- Work on the log that leaves its bytes and the place of the next write leaves every file. -/
theorem Follows.quiet (h : Follows s s') (hs : s.At content) (hs' : s'.At content) :
    Quiet s s' where
  file := by
    have hpos : s'.1.file.pos = s.1.file.pos := hs'.pos.trans hs.pos.symm
    rw [show s'.1.file = ⟨s'.1.file.path, s'.1.file.pos⟩ from rfl, h.filePath, hpos]
  path := h.path
  policy := h.policy
  files := by
    funext p
    by_cases hp : p = s.1.file.path
    · rw [hp, hs.holds, ← h.filePath, hs'.holds]
    · exact h.only.files p hp
  dirs := h.only.dirs
  permits := h.only.permits

theorem quiet_skipped (s : LogState) : Quiet s s.skipped := ⟨rfl, rfl, rfl, rfl, rfl, rfl⟩

theorem quiet_synced (s : LogState) : Quiet s s.synced :=
  ⟨rfl, rfl, rfl, World.files_emit _ _, rfl, rfl⟩

theorem quiet_scratch (s : LogState) (body : Bytes) :
    Quiet s ({ s.1 with scratch := body }, s.2) := ⟨rfl, rfl, rfl, rfl, rfl, rfl⟩

@[simp] theorem script_wrote (s : LogState) (bytes : Bytes) :
    (s.wrote bytes).2.script = s.2.script.drop 1 := List.drop_one.symm

@[simp] theorem script_resized (s : LogState) (len : ℕ) :
    (s.resized len).2.script = s.2.script.drop 1 := List.drop_one.symm

@[simp] theorem script_sought (s : LogState) (pos : ℕ) :
    (s.sought pos).2.script = s.2.script.drop 1 := List.drop_one.symm

@[simp] theorem script_skipped (s : LogState) : s.skipped.2.script = s.2.script.drop 1 :=
  List.drop_one.symm

theorem follows_wrote (s : LogState) (bytes : Bytes) : Follows s (s.wrote bytes) where
  filePath := rfl
  path := rfl
  policy := rfl
  only := (Only.refl _ s.2).next.emit fun _ hp => Function.update_of_ne hp _ _

theorem follows_resized (s : LogState) (len : ℕ) : Follows s (s.resized len) where
  filePath := rfl
  path := rfl
  policy := rfl
  only := (Only.refl _ s.2).next.emit fun _ hp => Function.update_of_ne hp _ _

theorem follows_sought (s : LogState) (pos : ℕ) : Follows s (s.sought pos) :=
  ⟨rfl, rfl, rfl, (Only.refl _ s.2).next⟩

theorem At.wrote (h : s.At content) (bytes : Bytes) : (s.wrote bytes).At (content ++ bytes) where
  holds := by
    have hholds : s.2.files s.1.file.path = some content := h.holds
    change (s.2.next.emit (.write s.1.file.path s.1.file.pos bytes)).files s.1.file.path = _
    rw [World.files_emit, Event.apply, Function.update_self, World.files_next, hholds, h.pos,
      Option.map_some, overwrite_end]
  pos := by
    change s.1.file.pos + bytes.length = _
    rw [h.pos, List.length_append]

theorem Holds.resized (h : s.Holds content) (len : ℕ) :
    (s.resized len).Holds (resize content len) := by
  have hholds : s.2.files s.1.file.path = some content := h
  change (s.2.next.emit (.setLen s.1.file.path len)).files s.1.file.path = _
  rw [World.files_emit, Event.apply, Function.update_self, World.files_next, hholds,
    Option.map_some]

/-- Whether an append from here ends with an fsync. -/
def syncs (s : LogState) : Bool := s.1.due (s.2.instants (s.2.ticks + 2))

/-- How many file operations an append from here has. -/
def appendOps (s : LogState) : ℕ := 2 + if s.syncs then 1 else 0

end LogState

open LogState Wal

section Methods

variable {s : LogState} {content : Bytes}

theorem ends_syncNow : Ends (syncNow : Method ε Unit) s
    (fun _ s' => Quiet s s' ∧ completes s.2.script 1 = true ∧ s'.2.script = s.2.script.drop 1)
    (fun e s' => Quiet s s' ∧ completes s.2.script 1 = false ∧ ByEnvironment e) := by
  simp only [syncNow, ends_bind, ends_syncAll, ends_modify]
  cases hv : s.2.verdict with
  | done =>
    refine ⟨?_, completes_of_done hv 0, List.drop_one.symm⟩
    exact (quiet_synced s).trans ⟨rfl, rfl, rfl, rfl, rfl, rfl⟩
  | fails n => exact ⟨quiet_skipped s, completes_of_ne_done (by simp [hv]) 0, trivial⟩
  | cut n =>
    refine ⟨?_, completes_of_ne_done (by simp [hv]) 0, trivial⟩
    split
    · exact quiet_skipped s
    · exact quiet_synced s

theorem ends_maybeSync : Ends (maybeSync : Method ε Unit) s
    (fun _ s' => Quiet s s' ∧ completes s.2.script (if s.1.due s.2.instant then 1 else 0) = true ∧
      s'.2.script = s.2.script.drop (if s.1.due s.2.instant then 1 else 0))
    (fun e s' => Quiet s s' ∧ completes s.2.script (if s.1.due s.2.instant then 1 else 0) = false ∧
      ByEnvironment e) := by
  simp only [maybeSync, ends_bind, ends_get]
  cases s.1.due s.2.instant with
  | true => exact ends_syncNow
  | false => exact ⟨⟨rfl, rfl, rfl, rfl, rfl, rfl⟩, rfl, rfl⟩

theorem ends_writes (h : s.At content) (xs ys : Bytes) :
    Ends (do onFile (File.writeAll xs); onFile (File.writeAll ys) : Method ε Unit) s
      (fun _ s' => Follows s s' ∧ s'.At (content ++ (xs ++ ys)) ∧
        s'.1.due s'.2.instant = s.syncs ∧ s'.2.script = s.2.script.drop 2 ∧
        completes s.2.script 2 = true ∧
        arrived s.2.script [xs.length, ys.length] = xs.length + ys.length)
      (fun e s' => Follows s s' ∧ completes s.2.script 2 = false ∧ ByEnvironment e ∧
        s'.At (content ++ (xs ++ ys).take (arrived s.2.script [xs.length, ys.length]))) := by
  have hfirst (n : ℕ) : (xs ++ ys).take (min n xs.length) = xs.take n := by
    rw [List.take_append_of_le_length (Nat.min_le_right _ _), List.take_eq_take_min]
    simp
  have hsecond (n : ℕ) : (xs ++ ys).take (xs.length + min n ys.length) = xs ++ ys.take n := by
    rw [List.take_length_add_append, List.take_eq_take_min]
    simp
  simp only [ends_bind, ends_writeLog]
  cases hv : s.2.verdict with
  | fails n =>
    refine ⟨follows_wrote s _, completes_of_ne_done (by simp [hv]) 1, trivial, ?_⟩
    rw [arrived_of_fails hv, hfirst]
    exact h.wrote _
  | cut n =>
    refine ⟨follows_wrote s _, completes_of_ne_done (by simp [hv]) 1, trivial, ?_⟩
    rw [arrived_of_cut hv, hfirst]
    exact h.wrote _
  | done =>
    have hs := h.wrote xs
    rw [completes_of_done hv, arrived_of_done hv, ← script_wrote s xs]
    cases hv' : (s.wrote xs).2.verdict with
    | fails n =>
      refine ⟨(follows_wrote s _).trans (follows_wrote _ _), completes_of_ne_done (by simp [hv']) 0,
        trivial, ?_⟩
      rw [arrived_of_fails hv', hsecond, ← List.append_assoc]
      exact hs.wrote _
    | cut n =>
      refine ⟨(follows_wrote s _).trans (follows_wrote _ _), completes_of_ne_done (by simp [hv']) 0,
        trivial, ?_⟩
      rw [arrived_of_cut hv', hsecond, ← List.append_assoc]
      exact hs.wrote _
    | done =>
      refine ⟨(follows_wrote s _).trans (follows_wrote _ _), ?_, rfl, ?_, completes_of_done hv' 0,
        by rw [arrived_of_done hv']; rfl⟩
      · rw [← List.append_assoc]
        exact hs.wrote ys
      · rw [script_wrote, script_wrote, List.drop_drop]

/-- The frame of a record, as an append writes it. -/
def frameOf (b : Build M) (r : WalRecord M) : Bytes :=
  frame (logFormat b) (recordBody b.metadata r)

/-- The lengths of the record and of its body fit their `u32` fields. -/
def Appendable (b : Build M) (r : WalRecord M) : Prop :=
  RecordFits b.metadata r ∧ (recordBody b.metadata r).length < 2 ^ 32

/-- How many bytes of the frame arrive when an append meets this script. -/
def frameArrived (b : Build M) (script : List Verdict) (r : WalRecord M) : ℕ :=
  arrived script [8, (recordBody b.metadata r).length]

variable (b : Build M)

theorem commitRecord_head {body : Bytes} (hlen : body.length < 2 ^ 32) :
    encode 4 (UInt32.ofNat body.length).toNat ++ encode 4 (b.crc32 body).toNat =
      head (logFormat b) body := by
  rw [encode_ofNat_toNat hlen]
  rfl

theorem ends_commitRecord {r : WalRecord M} (h : s.At content)
    (hbody : s.1.scratch = recordBody b.metadata r)
    (hlen : (recordBody b.metadata r).length < 2 ^ 32) :
    Ends (commitRecord b : Method ε Unit) s
      (fun _ s' => Follows s s' ∧ s'.At (content ++ frameOf b r) ∧
        completes s.2.script s.appendOps = true ∧ s'.2.script = s.2.script.drop s.appendOps ∧
        frameArrived b s.2.script r = (frameOf b r).length)
      (fun e s' => Follows s s' ∧ ByEnvironment e ∧ completes s.2.script s.appendOps = false ∧
        s'.At (content ++ (frameOf b r).take (frameArrived b s.2.script r))) := by
  have hwrites := ends_writes (ε := ε) h (head (logFormat b) (recordBody b.metadata r))
    (recordBody b.metadata r)
  rw [ends_bind, length_head] at hwrites
  simp only [commitRecord, ends_bind, ends_get, hbody, u32TryFrom, if_pos hlen, ends_uninterrupted,
    ends_settle_ok, commitRecord_head b hlen]
  have hstop : ∀ (e : Halt (PersistError ε)) (s' : LogState),
      (Follows s s' ∧ completes s.2.script 2 = false ∧ ByEnvironment e ∧
        s'.At (content ++ (frameOf b r).take (frameArrived b s.2.script r))) →
      Follows s s' ∧ ByEnvironment e ∧ completes s.2.script s.appendOps = false ∧
        s'.At (content ++ (frameOf b r).take (frameArrived b s.2.script r)) := by
    rintro e s' ⟨hfollows, hcompletes, he, hat⟩
    exact ⟨hfollows, he, by rw [appendOps, completes_add, hcompletes]; rfl, hat⟩
  refine hwrites.mono (fun _ s₁ h₁ => h₁.mono ?_ hstop) hstop
  rintro _ s₂ ⟨hfollows, hat, hdue, hscript₂, hcompletes, harrived⟩
  have hlength : (frameOf b r).length = 8 + (recordBody b.metadata r).length := length_frame _ _
  have hsync := ends_maybeSync (ε := ε) (s := s₂)
  rw [hdue, hscript₂] at hsync
  refine hsync.mono ?_ ?_
  · rintro _ s' ⟨hquiet, hsync, hscript⟩
    refine ⟨hfollows.trans hquiet.follows, hquiet.at hat, ?_, ?_, harrived.trans hlength.symm⟩
    · rw [appendOps, completes_add, hcompletes, hsync]
      rfl
    · rw [hscript, appendOps, List.drop_drop]
  · rintro e s' ⟨hquiet, hsync, he⟩
    refine ⟨hfollows.trans hquiet.follows, he, ?_, ?_⟩
    · rw [appendOps, completes_add, hcompletes, hsync]
      rfl
    · rw [frameArrived, harrived, List.take_of_length_le (Nat.le_of_eq hlength)]
      exact hquiet.at hat

theorem append_eq (r : WalRecord M) : (append b r : Method ε Unit) =
    (do onScratch (encodeRecord b.metadata r); commitRecord b) := by
  cases r <;> rfl

/-- An append puts down the frame of its record, or as much of it as arrives, behind what the log
holds. -/
theorem ends_append (h : s.At content) (r : WalRecord M) :
    Ends (append b r : Method ε Unit) s
      (fun _ s' => Appendable b r ∧ Follows s s' ∧ s'.At (content ++ frameOf b r) ∧
        completes s.2.script s.appendOps = true ∧ s'.2.script = s.2.script.drop s.appendOps ∧
        frameArrived b s.2.script r = (frameOf b r).length)
      (fun e s' =>
        (Appendable b r ∧ Follows s s' ∧ ByEnvironment e ∧
          completes s.2.script s.appendOps = false ∧
          s'.At (content ++ (frameOf b r).take (frameArrived b s.2.script r))) ∨
        (¬ Appendable b r ∧ Quiet s s' ∧ ¬ ByEnvironment e ∧ s'.2.script = s.2.script)) := by
  rw [append_eq, ends_bind, ends_onScratch]
  refine (ends_encodeRecord b.metadata r s.1.scratch).mono ?_ ?_
  · rintro _ body ⟨hfits, rfl⟩
    have hframed := (quiet_scratch s (recordBody b.metadata r)).at h
    by_cases hlen : (recordBody b.metadata r).length < 2 ^ 32
    · refine (ends_commitRecord b hframed rfl hlen).mono ?_ ?_
      · rintro _ s' ⟨hfollows, hat, hrest⟩
        exact ⟨⟨hfits, hlen⟩, ⟨hfollows.1, hfollows.2, hfollows.3, hfollows.4⟩, hat, hrest⟩
      · rintro e s' ⟨hfollows, hrest⟩
        exact .inl ⟨⟨hfits, hlen⟩, ⟨hfollows.1, hfollows.2, hfollows.3, hfollows.4⟩, hrest⟩
    · simp only [commitRecord, ends_bind, ends_get, u32TryFrom, if_neg hlen, ends_uninterrupted,
        ends_settle_error]
      exact .inr ⟨fun happ => hlen happ.2, ⟨rfl, rfl, rfl, rfl, rfl, rfl⟩, id, trivial⟩
  · rintro e body ⟨hfits, he⟩
    exact .inr ⟨fun happ => hfits happ.1, ⟨rfl, rfl, rfl, rfl, rfl, rfl⟩, he, rfl⟩

theorem ends_mark : Ends (mark : Method ε ℕ) s
    (fun pos s' => pos = s.1.file.pos ∧ s' = s.skipped ∧ completes s.2.script 1 = true)
    (fun e s' => s' = s.skipped ∧ completes s.2.script 1 = false ∧ ByEnvironment e) := by
  rw [mark, ends_streamPosition]
  cases hv : s.2.verdict with
  | done => exact ⟨rfl, rfl, completes_of_done hv 0⟩
  | fails n => exact ⟨rfl, completes_of_ne_done (by simp [hv]) 0, trivial⟩
  | cut n => exact ⟨rfl, completes_of_ne_done (by simp [hv]) 0, trivial⟩

/-- Truncating the log, moving to the new end: the first operation decides what the file holds. -/
theorem ends_truncate (h : s.Holds content) (len : ℕ) (p : Method ε Unit)
    {Q : Unit → LogState → Prop} {E : Halt (PersistError ε) → LogState → Prop}
    (hp : ∀ s', Follows s s' → s'.Holds (resize content len) → s'.1.file.pos = len →
      completes s.2.script 2 = true → s'.2.script = s.2.script.drop 2 → Ends p s' Q E)
    (hE : ∀ e s', ByEnvironment e → Follows s s' → completes s.2.script 2 = false →
      s'.Holds (if takesEffect s.2.script 0 then resize content len else content) → E e s') :
    Ends (do onFile (File.setLen len); let _pos ← onFile (File.seekStart len); p) s Q E := by
  simp only [ends_bind, ends_setLen, ends_seekStart]
  rw [takesEffect_zero] at hE
  cases hv : s.2.verdict with
  | fails n =>
    rw [hv] at hE
    exact hE _ _ trivial (quiet_skipped s).follows (completes_of_ne_done (by simp [hv]) 1) h
  | cut n =>
    rw [hv] at hE
    refine hE _ _ trivial ?_ (completes_of_ne_done (by simp [hv]) 1) ?_
    · split
      · exact (quiet_skipped s).follows
      · exact follows_resized s len
    · by_cases hn : n = 0
      · subst hn
        exact h
      · simpa [hn, Verdict.effective] using h.resized len
  | done =>
    rw [hv] at hE
    have hstop (e : Halt (PersistError ε)) (he : ByEnvironment e)
        (hv' : (s.resized len).2.verdict ≠ .done) : E e (s.resized len).skipped := by
      refine hE e _ he ((follows_resized s len).trans (quiet_skipped _).follows) ?_
        ((quiet_skipped _).holds (h.resized len))
      rw [completes_of_done hv, ← script_resized s len, completes_of_ne_done hv']
    cases hv' : (s.resized len).2.verdict with
    | fails n => exact hstop _ trivial (by simp [hv'])
    | cut n => exact hstop _ trivial (by simp [hv'])
    | done =>
      refine hp _ ((follows_resized s len).trans (follows_sought _ len)) (h.resized len) rfl ?_ ?_
      · rw [completes_of_done hv, ← script_resized s len, completes_of_done hv', completes_zero]
      · rw [script_sought, script_resized, List.drop_drop]

theorem ends_rollback {bytes : Bytes} (h : s.Holds (content ++ bytes)) :
    Ends (rollback content.length : Method ε Unit) s
      (fun _ s' => Follows s s' ∧ s'.At content ∧ completes s.2.script 3 = true ∧
        s'.2.script = s.2.script.drop 3)
      (fun e s' => ByEnvironment e ∧ Follows s s' ∧ completes s.2.script 3 = false ∧
        s'.Holds (if takesEffect s.2.script 0 then content else content ++ bytes)) := by
  refine ends_truncate h content.length _ ?_ ?_
  · rw [resize_append]
    intro s' hfollows hholds hpos hcompletes hscript
    refine ends_syncNow.mono ?_ ?_
    · rintro _ s'' ⟨hquiet, hsync, hscript'⟩
      refine ⟨hfollows.trans hquiet.follows, hquiet.at ⟨hholds, hpos⟩, ?_, ?_⟩
      · rw [completes_add _ 2 1, hcompletes, ← hscript, hsync]
        rfl
      · rw [hscript', hscript, List.drop_drop]
    · rintro e s'' ⟨hquiet, hsync, he⟩
      refine ⟨he, hfollows.trans hquiet.follows, ?_, ?_⟩
      · rw [completes_add _ 2 1, ← hscript, hsync, Bool.and_false]
      · rw [takesEffect_of_completes hcompletes Nat.zero_lt_two]
        exact hquiet.holds hholds
  · rw [resize_append]
    intro e s' he hfollows hcompletes hholds
    refine ⟨he, hfollows, ?_, hholds⟩
    rw [completes_add _ 2 1, hcompletes, Bool.false_and]

end Methods

end IqdbPersist
