import IqdbPersist.FileSystem

/-!
# Rules for file operations

What each operation does under each verdict of the environment, what a sequence of operations
needs from a script, and which files a program can have touched.
-/

namespace FileSystem

open CrashLogic

variable {P α : Type}

section Operations

variable {w : World P} {E : Halt IoError → World P → Prop}

@[simp] theorem ends_atomically {Q : Unit → World P → Prop} (e : Event P) :
    Ends (atomically e) w Q E ↔ match w.verdict with
      | .done => Q () (w.next.emit e)
      | .fails _ => E (.failed .other) w.next
      | .cut n => E .crashed (if n = 0 then w.next else w.next.emit e) := by
  unfold Ends atomically
  cases w.verdict <;> rfl

@[simp] theorem ends_observe {Q : α → World P → Prop} (look : World P → Except IoError α) :
    Ends (observe look) w Q E ↔ match w.verdict with
      | .done => match look w with
        | .ok a => Q a w.next
        | .error e => E (.failed e) w.next
      | .fails _ => E (.failed .other) w.next
      | .cut _ => E .crashed w.next := by
  unfold Ends observe
  cases w.verdict <;> cases look w <;> rfl

@[simp] theorem ends_beside {f : File P} {Q : α → File P × World P → Prop}
    {E : Halt IoError → File P × World P → Prop} (p : EStateM (Halt IoError) (World P) α) :
    Ends (File.beside p) (f, w) Q E ↔
      Ends p w (fun a w' => Q a (f, w')) (fun e w' => E e (f, w')) := by
  simp only [File.beside, ends_within]

@[simp] theorem ends_writeAll {f : File P} {Q : Unit → File P × World P → Prop}
    {E : Halt IoError → File P × World P → Prop} (bytes : Bytes) :
    Ends (File.writeAll bytes) (f, w) Q E ↔ match w.verdict with
      | .done => Q () (⟨f.path, f.pos + bytes.length⟩, w.next.emit (.write f.path f.pos bytes))
      | .fails n => E (.failed .other) (⟨f.path, f.pos + (bytes.take n).length⟩,
          w.next.emit (.write f.path f.pos (bytes.take n)))
      | .cut n => E .crashed (⟨f.path, f.pos + (bytes.take n).length⟩,
          w.next.emit (.write f.path f.pos (bytes.take n))) := by
  unfold Ends File.writeAll
  cases w.verdict <;> simp only [List.take_length]

end Operations

section Scripts

@[simp] theorem completes_zero (script : List Verdict) : completes script 0 = true := rfl

theorem completes_succ (script : List Verdict) (n : ℕ) :
    completes script (n + 1) = (script.headD .done == .done && completes script.tail n) := rfl

theorem completes_add (script : List Verdict) (m n : ℕ) :
    completes script (m + n) = (completes script m && completes (script.drop m) n) := by
  induction m generalizing script with
  | zero => simp
  | succ m ih =>
    rw [Nat.add_right_comm, completes_succ, completes_succ, ih, Bool.and_assoc, List.drop_tail]

theorem completes_eq_false_of_drop {script : List Verdict} {m n k : ℕ}
    (h : completes (script.drop m) n = false) (hk : m + n ≤ k) : completes script k = false := by
  obtain ⟨l, rfl⟩ := Nat.exists_eq_add_of_le hk
  rw [completes_add, completes_add, h, Bool.and_false, Bool.false_and]

/-- An operation has effect when those before it complete and it has effect among the rest. -/
theorem takesEffect_add (script : List Verdict) (m n : ℕ) :
    takesEffect script (m + n) = (completes script m && takesEffect (script.drop m) n) := by
  rw [takesEffect, takesEffect, completes_add, List.drop_drop, Bool.and_assoc]

theorem completes_of_takesEffect {script : List Verdict} {i : ℕ}
    (h : takesEffect script i = true) : completes script i = true :=
  (Bool.and_eq_true_iff.mp h).1

theorem takesEffect_of_completes {script : List Verdict} {i n : ℕ} (h : completes script n = true)
    (hi : i < n) : takesEffect script i = true := by
  obtain ⟨k, rfl⟩ := Nat.exists_eq_add_of_le (Nat.succ_le_of_lt hi)
  rw [Nat.succ_add, ← Nat.add_succ, completes_add, completes_succ, Bool.and_eq_true,
    Bool.and_eq_true] at h
  obtain ⟨hi, hdone, -⟩ := h
  rw [takesEffect, hi, eq_of_beq hdone]
  rfl

section Verdicts

variable {w : World P} {n m : ℕ} {lens : List ℕ}

theorem completes_of_done (h : w.verdict = .done) (n : ℕ) :
    completes w.script (n + 1) = completes (w.script.drop 1) n := by
  rw [completes_succ, ← World.verdict, h, List.drop_one]
  rfl

theorem completes_of_ne_done (h : w.verdict ≠ .done) (n : ℕ) :
    completes w.script (n + 1) = false := by
  rw [completes_succ, ← World.verdict, beq_eq_false_iff_ne.mpr h, Bool.false_and]

theorem arrived_of_done (h : w.verdict = .done) :
    arrived w.script (m :: lens) = m + arrived (w.script.drop 1) lens := by
  rw [arrived, ← World.verdict, h, List.drop_one]

theorem arrived_of_fails (h : w.verdict = .fails n) : arrived w.script (m :: lens) = min n m := by
  rw [arrived, ← World.verdict, h]

theorem arrived_of_cut (h : w.verdict = .cut n) : arrived w.script (m :: lens) = min n m := by
  rw [arrived, ← World.verdict, h]

theorem le_arrived_of_completes {script : List Verdict} {lens : List ℕ}
    (h : completes script lens.length = true) {len : ℕ} (hlen : len ∈ lens) :
    len ≤ arrived script lens := by
  induction lens generalizing script with
  | nil => cases hlen
  | cons len' lens ih =>
    rw [List.length_cons, completes_succ, Bool.and_eq_true, beq_iff_eq] at h
    rw [arrived, h.1]
    rcases List.mem_cons.mp hlen with rfl | hmem
    · exact Nat.le_add_right _ _
    · exact Nat.le_add_left_of_le (ih h.2 hmem)

theorem takesEffect_zero : takesEffect w.script 0 = w.verdict.effective := by
  rw [takesEffect, completes_zero, List.drop_zero, Bool.true_and, World.verdict]

end Verdicts

theorem ends_atomically_of {w : World P} {e : Event P} {Q : Unit → World P → Prop}
    {E : Halt IoError → World P → Prop}
    (hdone : completes w.script 1 = true → Q () (w.next.emit e))
    (hstop : ∀ err, completes w.script 1 = false →
      E err (if takesEffect w.script 0 then w.next.emit e else w.next)) :
    Ends (atomically e) w Q E := by
  rw [ends_atomically]
  rw [takesEffect_zero] at hstop
  cases hv : w.verdict with
  | done => exact hdone (completes_of_done hv 0)
  | fails n =>
    have hfailed := hstop (.failed .other) (completes_of_ne_done (by simp [hv]) 0)
    simpa [hv, Verdict.effective] using hfailed
  | cut n =>
    have hcut := hstop .crashed (completes_of_ne_done (by simp [hv]) 0)
    by_cases hn : n = 0 <;> simpa [hv, Verdict.effective, hn] using hcut

theorem ends_observe_of {w : World P} {look : World P → Except IoError α}
    {Q : α → World P → Prop} {E : Halt IoError → World P → Prop}
    (hdone : ∀ a, completes w.script 1 = true → look w = .ok a → Q a w.next)
    (herror : ∀ err, completes w.script 1 = true → look w = .error err → E (.failed err) w.next)
    (hstop : ∀ err, completes w.script 1 = false → E err w.next) :
    Ends (observe look) w Q E := by
  rw [ends_observe]
  cases hv : w.verdict with
  | done =>
    cases hlook : look w with
    | ok a => exact hdone a (completes_of_done hv 0) hlook
    | error err => exact herror err (completes_of_done hv 0) hlook
  | fails n => exact hstop _ (completes_of_ne_done (by simp [hv]) 0)
  | cut n => exact hstop _ (completes_of_ne_done (by simp [hv]) 0)

theorem completes_nil (n : ℕ) : completes [] n = true := by
  induction n with
  | zero => rfl
  | succ n ih => exact ih

theorem World.Calm.completes {w : World P} (h : w.Calm) (n : ℕ) :
    FileSystem.completes w.script n = true := by
  rw [show w.script = [] from h, completes_nil]

theorem World.Calm.drop {w w' : World P} {n : ℕ} (h : w.Calm)
    (hscript : w'.script = w.script.drop n) : w'.Calm := by
  rw [World.Calm, hscript, show w.script = [] from h, List.drop_nil]

end Scripts

section Untouched

/-- Nothing has happened to the files. -/
structure Untouched (w w' : World P) : Prop where
  base : w'.base = w.base
  dirs : w'.dirs = w.dirs
  permits : w'.permits = w.permits
  history : w'.history = w.history

variable {w w' w'' : World P}

theorem Untouched.refl (w : World P) : Untouched w w := ⟨rfl, rfl, rfl, rfl⟩

theorem Untouched.next (h : Untouched w w') : Untouched w w'.next := ⟨h.1, h.2, h.3, h.4⟩

theorem Untouched.trans (h : Untouched w w') (h' : Untouched w' w'') : Untouched w w'' where
  base := h'.base.trans h.base
  dirs := h'.dirs.trans h.dirs
  permits := h'.permits.trans h.permits
  history := h'.history.trans h.history

end Untouched

section Frame

variable [DecidableEq P]

/-- The second world is the first but for the files in `S` and what the environment will do. -/
structure Only (S : P → Prop) (w w' : World P) : Prop where
  files : ∀ p, ¬ S p → w'.files p = w.files p
  dirs : w'.dirs = w.dirs
  permits : w'.permits = w.permits

variable {S : P → Prop} {w w' w'' : World P}

theorem Only.refl (S : P → Prop) (w : World P) : Only S w w := ⟨fun _ _ => rfl, rfl, rfl⟩

theorem Only.trans (h : Only S w w') (h' : Only S w' w'') : Only S w w'' where
  files p hp := (h'.files p hp).trans (h.files p hp)
  dirs := h'.dirs.trans h.dirs
  permits := h'.permits.trans h.permits

theorem Only.mono {T : P → Prop} (h : Only S w w') (hST : ∀ p, S p → T p) : Only T w w' where
  files p hp := h.files p fun hS => hp (hST p hS)
  dirs := h.dirs
  permits := h.permits

theorem Only.next (h : Only S w w') : Only S w w'.next := ⟨h.files, h.dirs, h.permits⟩

theorem Only.emit (h : Only S w w') {e : Event P}
    (he : ∀ p, ¬ S p → e.apply w'.files p = w'.files p) : Only S w (w'.emit e) where
  files p hp := by rw [World.files_emit, he p hp, h.files p hp]
  dirs := h.dirs
  permits := h.permits

theorem Only.atomically {e : Event P} (he : ∀ p, ¬ S p → e.apply w.files p = w.files p) :
    Only S w (if takesEffect w.script 0 then w.next.emit e else w.next) := by
  split
  · exact (Only.refl S w).next.emit he
  · exact (Only.refl S w).next

theorem Untouched.only (h : Untouched w w') (S : P → Prop) : Only S w w' where
  files p _ := by rw [World.files, World.files, h.base, h.history]
  dirs := h.dirs
  permits := h.permits

end Frame

section Open

variable [DecidableEq P] {w : World P}

theorem ends_openTruncate (path : P) : Ends (openTruncate path) w
    (fun file w' => file = ⟨path, 0⟩ ∧ w'.files path = some [] ∧ Only (· = path) w w' ∧
      w'.script = w.script.drop 1)
    (fun _ w' => Only (· = path) w w' ∧
      ¬ (completes w.script 1 = true ∧ w.permits path = true)) := by
  simp only [openTruncate, create, ends_bind, ends_get]
  have helsewhere (e : Event P) (he : e = .setLen path 0 ∨ e = .create path) :
      ∀ p, ¬ p = path → e.apply w.files p = w.files p := by
    rintro p hp
    obtain rfl | rfl := he <;> exact Function.update_of_ne hp _ _
  split
  · rename_i hsome
    obtain ⟨content, hcontent⟩ := Option.isSome_iff_exists.mp hsome
    rw [ends_bind]
    refine ends_atomically_of ?_ ?_
    · intro _
      refine ⟨rfl, ?_, (Only.refl _ w).next.emit (helsewhere _ (.inl rfl)), List.drop_one.symm⟩
      rw [World.files_emit, Event.apply, Function.update_self, World.files_next, hcontent,
        Option.map_some, resize_zero]
    · exact fun _ hstop => ⟨Only.atomically (helsewhere _ (.inl rfl)), by simp [hstop]⟩
  · rw [ends_bind, ends_get]
    split
    · rw [ends_bind]
      refine ends_atomically_of ?_ ?_
      · intro _
        refine ⟨rfl, ?_, (Only.refl _ w).next.emit (helsewhere _ (.inr rfl)), List.drop_one.symm⟩
        rw [World.files_emit, Event.apply, Function.update_self]
      · exact fun _ hstop => ⟨Only.atomically (helsewhere _ (.inr rfl)), by simp [hstop]⟩
    · rename_i hpermits
      exact ⟨Only.refl _ w, fun h => hpermits h.2⟩

end Open

end FileSystem
