import IqdbPersist.StorageThreads

/-!
# Saves that run at the same time

Any number of atomic writes may run in any interleaving of their operations, on the same targets,
even with the same name for their temporary files: only the one whose `create_new` succeeds works on
that file. So every target holds what it held or the whole payload of one of them.
-/

namespace IqdbPersist

open CrashLogic FileSystem Interleaving Simulation

variable {ε ι : Type}

/-- One call of `write_atomic` among others. -/
structure Save where
  target : Path
  payload : Bytes
  policy : FsyncPolicy
  pid : ℕ
  nanos : ℕ

/-- How far a save has come with its temporary file. -/
inductive Stage where
  | idle
  | created
  | written
  | broken
  | left
  | installed
  deriving DecidableEq

/-- The temporary file is there and belongs to the save. -/
def Stage.Owns : Stage → Prop
  | .created | .written | .broken | .left => True
  | .idle | .installed => False

/-- What the file of a save at this stage can contain. -/
def Stage.Fits (payload content : Bytes) : Stage → Prop
  | .created => content = []
  | .written => content = payload
  | _ => True

theorem Stage.Owns.not_installed {stage : Stage} (h : stage.Owns) : stage ≠ .installed := by
  rintro rfl
  exact h

namespace Save

def thread (unix : Bool) (save : Save) : Storing ε :=
  writingAtomically unix save.target save.payload save.policy save.pid save.nanos

def temp (save : Save) : Path :=
  (targetDir save.target).join (tempName (save.target.fileName.getD "") save.pid save.nanos)

/-- What a save asks for at each stage, and where the answers take it. -/
def protocol (save : Save) : Protocol StorageOp (Except IoError Unit) Stage where
  Admits
    | .idle, o => o = .createNew save.temp
    | .created, o => o = .writeAll save.temp save.payload
    | .written, o =>
      o = .syncAll save.temp ∨ o = .rename save.temp save.target ∨ o = .removeFile save.temp
    | .broken, o => o = .removeFile save.temp
    | .left, _ => False
    | .installed, o => ∃ dir, o = .openDir dir ∨ o = .syncDir dir
  next
    | .idle, _, .ok () => .created
    | .created, _, .ok () => .written
    | .created, _, .error _ => .broken
    | .written, .rename _ _, .ok () => .installed
    | .written, .removeFile _, .ok () => .idle
    | .written, .removeFile _, .error _ => .left
    | .broken, _, .ok () => .idle
    | .broken, _, .error _ => .left
    | stage, _, _ => stage

/-- A save that returns `Ok` has replaced its target. -/
def Finishes (stage : Stage) (result : Except (PersistError ε) Unit) : Prop :=
  result = .ok () → stage = .installed

variable {save : Save} {unix : Bool}

theorem finishes_error (stage : Stage) (e : PersistError ε) : Finishes stage (.error e) := by
  intro hok
  cases hok

theorem obeys_removingTemp {stage : Stage} (hstage : stage = .written ∨ stage = .broken)
    (source : IoError) :
    (removingTemp save.temp source : Storing ε).Obeys save.protocol Finishes stage := by
  rcases hstage with rfl | rfl
  · exact ⟨.inr (.inr rfl), fun _ => finishes_error _ _⟩
  · exact ⟨rfl, fun _ => finishes_error _ _⟩

theorem obeys_syncingParent (dir : Path) :
    (syncingParent unix save.policy dir : Storing ε).Obeys save.protocol Finishes .installed := by
  unfold syncingParent
  split
  · refine ⟨⟨dir, .inl rfl⟩, fun r => ?_⟩
    cases r with
    | error source => exact fun _ => rfl
    | ok _ =>
      refine ⟨⟨dir, .inr rfl⟩, fun r => ?_⟩
      cases r <;> exact fun _ => rfl
  · exact fun _ => rfl

theorem obeys_renamingTemp :
    (renamingTemp unix save.target save.policy save.temp : Storing ε).Obeys save.protocol Finishes
      .written := by
  refine ⟨.inr (.inl rfl), fun r => ?_⟩
  cases r with
  | error source => exact obeys_removingTemp (.inl rfl) source
  | ok _ => exact obeys_syncingParent _

/-- The thread of a save keeps to the protocol. -/
theorem obeys_thread (unix : Bool) (save : Save) :
    (save.thread unix : Storing ε).Obeys save.protocol Finishes .idle := by
  unfold thread writingAtomically
  cases hname : save.target.fileName with
  | none => exact finishes_error _ _
  | some name =>
    have htemp : (targetDir save.target).join (tempName name save.pid save.nanos) = save.temp := by
      rw [temp, hname, Option.getD_some]
    dsimp only
    rw [htemp, writingTemp]
    refine ⟨rfl, fun r => ?_⟩
    cases r with
    | error source => exact finishes_error _ _
    | ok _ =>
      refine ⟨rfl, fun r => ?_⟩
      cases r with
      | error source => exact obeys_removingTemp (.inr rfl) source
      | ok _ =>
        dsimp only
        split
        · refine ⟨.inl rfl, fun r => ?_⟩
          cases r with
          | error source => exact obeys_removingTemp (.inl rfl) source
          | ok _ => exact obeys_renamingTemp
        · exact obeys_renamingTemp

end Save

/-- What holds between the stages of all saves and the files. -/
structure Consistent (saves : ι → Save) (initial : Files Path) (g : ι → Stage)
    (files : Files Path) : Prop where
  distinct : ∀ i j, (g i).Owns → (g j).Owns → (saves i).temp = (saves j).temp → i = j
  owned : ∀ i, (g i).Owns → initial (saves i).temp = none ∧
    ∃ content, files (saves i).temp = some content ∧ (g i).Fits (saves i).payload content
  kept : ∀ p, (∀ i, (g i).Owns → p ≠ (saves i).temp) →
    (∀ i, g i = .installed → p ≠ (saves i).target) → files p = initial p
  replaced : ∀ i, g i = .installed → ∃ j, g j = .installed ∧
    (saves j).target = (saves i).target ∧ files (saves i).target = some (saves j).payload

namespace Consistent

variable {saves : ι → Save} {initial files : Files Path} {g : ι → Stage}

theorem others (h : Consistent saves initial g files) {i j : ι} (hi : (g i).Owns)
    (hj : (g j).Owns) (hne : j ≠ i) : (saves j).temp ≠ (saves i).temp :=
  fun htemp => hne (h.distinct j i hj hi htemp)

theorem unowned (h : Consistent saves initial g files)
    (hapart : ∀ i j, (saves i).temp ≠ (saves j).target) {i : ι}
    (hfree : ∀ j, (g j).Owns → (saves i).temp ≠ (saves j).temp) :
    files (saves i).temp = initial (saves i).temp :=
  h.kept _ hfree fun j _ => hapart i j

variable [DecidableEq ι] {i : ι}

theorem installed_iff {b : Stage} (hstage : b ≠ .installed) (hi : g i ≠ .installed)
    (j : ι) : Function.update g i b j = .installed ↔ g j = .installed := by
  by_cases hj : j = i
  · rw [hj, Function.update_self]
    exact iff_of_false hstage hi
  · rw [Function.update_of_ne hj]

theorem stays (h : Consistent saves initial g files) {stage : Stage}
    (howns : stage.Owns ↔ (g i).Owns) (hinstalled : stage = .installed ↔ g i = .installed)
    (hfits : ∀ content, (g i).Fits (saves i).payload content →
      stage.Fits (saves i).payload content) :
    Consistent saves initial (Function.update g i stage) files := by
  have hown (j : ι) : (Function.update g i stage j).Owns ↔ (g j).Owns := by
    by_cases hj : j = i
    · rw [hj, Function.update_self, howns]
    · rw [Function.update_of_ne hj]
  have hinstall (j : ι) : Function.update g i stage j = .installed ↔ g j = .installed := by
    by_cases hj : j = i
    · rw [hj, Function.update_self, hinstalled]
    · rw [Function.update_of_ne hj]
  constructor
  · intro j k hj hk
    exact h.distinct j k ((hown j).mp hj) ((hown k).mp hk)
  · intro j hj
    obtain ⟨hold, content, hfile, hcontent⟩ := h.owned j ((hown j).mp hj)
    refine ⟨hold, content, hfile, ?_⟩
    by_cases hji : j = i
    · subst hji
      rw [Function.update_self]
      exact hfits content hcontent
    · rwa [Function.update_of_ne hji]
  · intro p hfree htarget
    exact h.kept p (fun j hj => hfree j ((hown j).mpr hj))
      fun j hj => htarget j ((hinstall j).mpr hj)
  · intro j hj
    obtain ⟨k, hk, hreplaced⟩ := h.replaced j ((hinstall j).mp hj)
    exact ⟨k, (hinstall k).mpr hk, hreplaced⟩

variable (hapart : ∀ i j, (saves i).temp ≠ (saves j).target)

include hapart

theorem creates (h : Consistent saves initial g files) (hidle : g i = .idle)
    (hnone : files (saves i).temp = none) :
    Consistent saves initial (Function.update g i .created)
      (Function.update files (saves i).temp (some [])) := by
  have hfree (j : ι) (hj : (g j).Owns) : (saves j).temp ≠ (saves i).temp := by
    intro htemp
    obtain ⟨-, content, hfile, -⟩ := h.owned j hj
    rw [htemp, hnone] at hfile
    cases hfile
  have hold : initial (saves i).temp = none := by
    rw [← h.unowned hapart fun j hj => (hfree j hj).symm, hnone]
  have hinstall := installed_iff (g := g) (b := .created) nofun (by rw [hidle]; nofun)
  constructor
  · intro j k hj hk htemp
    by_cases hji : j = i
    · by_cases hki : k = i
      · rw [hji, hki]
      · rw [Function.update_of_ne hki] at hk
        exact absurd (htemp.symm.trans (congrArg (fun j => (saves j).temp) hji)) (hfree k hk)
    · rw [Function.update_of_ne hji] at hj
      by_cases hki : k = i
      · exact absurd (htemp.trans (congrArg (fun j => (saves j).temp) hki)) (hfree j hj)
      · rw [Function.update_of_ne hki] at hk
        exact h.distinct j k hj hk htemp
  · intro j hj
    by_cases hji : j = i
    · subst hji
      rw [Function.update_self, Function.update_self]
      exact ⟨hold, [], rfl, rfl⟩
    · rw [Function.update_of_ne hji] at hj ⊢
      rw [Function.update_of_ne (hfree j hj)]
      exact h.owned j hj
  · intro p hp htarget
    have hpi : p ≠ (saves i).temp := hp i (by rw [Function.update_self]; trivial)
    rw [Function.update_of_ne hpi]
    refine h.kept p (fun j hj => ?_) fun j hj => htarget j ((hinstall j).mpr hj)
    have hji : j ≠ i := by
      rintro rfl
      rw [hidle] at hj
      exact hj
    exact hp j (by rw [Function.update_of_ne hji]; exact hj)
  · intro j hj
    obtain ⟨k, hk, htarget, hfile⟩ := h.replaced j ((hinstall j).mp hj)
    refine ⟨k, (hinstall k).mpr hk, htarget, ?_⟩
    rw [Function.update_of_ne (hapart i j).symm, hfile]

theorem writes (h : Consistent saves initial g files) (hi : (g i).Owns) {stage : Stage}
    (hstage : stage.Owns) {content : Bytes} (hfits : stage.Fits (saves i).payload content) :
    Consistent saves initial (Function.update g i stage)
      (Function.update files (saves i).temp (some content)) := by
  have hown (j : ι) : (Function.update g i stage j).Owns ↔ (g j).Owns := by
    by_cases hj : j = i
    · rw [hj, Function.update_self]
      exact iff_of_true hstage hi
    · rw [Function.update_of_ne hj]
  have hinstall := installed_iff hstage.not_installed hi.not_installed
  constructor
  · intro j k hj hk
    exact h.distinct j k ((hown j).mp hj) ((hown k).mp hk)
  · intro j hj
    by_cases hji : j = i
    · subst hji
      rw [Function.update_self, Function.update_self]
      exact ⟨(h.owned j hi).1, content, rfl, hfits⟩
    · rw [Function.update_of_ne hji] at hj ⊢
      rw [Function.update_of_ne (h.others hi hj hji)]
      exact h.owned j hj
  · intro p hp htarget
    rw [Function.update_of_ne (hp i ((hown i).mpr hi))]
    exact h.kept p (fun j hj => hp j ((hown j).mpr hj))
      fun j hj => htarget j ((hinstall j).mpr hj)
  · intro j hj
    obtain ⟨k, hk, htarget, hfile⟩ := h.replaced j ((hinstall j).mp hj)
    refine ⟨k, (hinstall k).mpr hk, htarget, ?_⟩
    rw [Function.update_of_ne (hapart i j).symm, hfile]

theorem removes (h : Consistent saves initial g files) (hi : (g i).Owns) :
    Consistent saves initial (Function.update g i .idle)
      (Function.update files (saves i).temp none) := by
  have hother {j : ι} (hj : (Function.update g i .idle j).Owns) : j ≠ i ∧ (g j).Owns := by
    by_cases hji : j = i
    · rw [hji, Function.update_self] at hj
      exact hj.elim
    · rw [Function.update_of_ne hji] at hj
      exact ⟨hji, hj⟩
  have hinstall := installed_iff (g := g) (b := .idle) nofun hi.not_installed
  constructor
  · intro j k hj hk
    exact h.distinct j k (hother hj).2 (hother hk).2
  · intro j hj
    obtain ⟨hji, hown⟩ := hother hj
    rw [Function.update_of_ne hji, Function.update_of_ne (h.others hi hown hji)]
    exact h.owned j hown
  · intro p hp htarget
    by_cases hpi : p = (saves i).temp
    · rw [hpi, Function.update_self, (h.owned i hi).1]
    · rw [Function.update_of_ne hpi]
      refine h.kept p (fun j hj => ?_) fun j hj => htarget j ((hinstall j).mpr hj)
      by_cases hji : j = i
      · rwa [hji]
      · exact hp j (by rw [Function.update_of_ne hji]; exact hj)
  · intro j hj
    obtain ⟨k, hk, htarget, hfile⟩ := h.replaced j ((hinstall j).mp hj)
    refine ⟨k, (hinstall k).mpr hk, htarget, ?_⟩
    rw [Function.update_of_ne (hapart i j).symm, hfile]

theorem installs (h : Consistent saves initial g files) (hi : g i = .written) :
    Consistent saves initial (Function.update g i .installed)
      (Function.update (Function.update files (saves i).target (files (saves i).temp))
        (saves i).temp none) := by
  have howns : (g i).Owns := by
    rw [hi]
    trivial
  have hother {j : ι} (hj : (Function.update g i .installed j).Owns) : j ≠ i ∧ (g j).Owns := by
    by_cases hji : j = i
    · rw [hji, Function.update_self] at hj
      exact hj.elim
    · rw [Function.update_of_ne hji] at hj
      exact ⟨hji, hj⟩
  have hinstall {j : ι} (hj : g j = .installed) :
      Function.update g i .installed j = .installed := by
    by_cases hji : j = i
    · rw [hji, Function.update_self]
    · rw [Function.update_of_ne hji, hj]
  have hnew : Function.update (Function.update files (saves i).target (files (saves i).temp))
      (saves i).temp none (saves i).target = some (saves i).payload := by
    obtain ⟨-, content, hfile, hfits⟩ := h.owned i howns
    rw [hi] at hfits
    rw [Function.update_of_ne (hapart i i).symm, Function.update_self, hfile, hfits]
  constructor
  · intro j k hj hk
    exact h.distinct j k (hother hj).2 (hother hk).2
  · intro j hj
    obtain ⟨hji, hown⟩ := hother hj
    rw [Function.update_of_ne hji, Function.update_of_ne (h.others howns hown hji),
      Function.update_of_ne (hapart j i)]
    exact h.owned j hown
  · intro p hp htarget
    by_cases hpi : p = (saves i).temp
    · rw [hpi, Function.update_self, (h.owned i howns).1]
    · rw [Function.update_of_ne hpi,
        Function.update_of_ne (htarget i (Function.update_self i _ g))]
      refine h.kept p (fun j hj => ?_) fun j hj => htarget j (hinstall hj)
      by_cases hji : j = i
      · rwa [hji]
      · exact hp j (by rw [Function.update_of_ne hji]; exact hj)
  · intro j hj
    by_cases hsame : (saves j).target = (saves i).target
    · exact ⟨i, Function.update_self i _ g, hsame.symm, hsame ▸ hnew⟩
    · have hji : j ≠ i := fun hji => hsame (congrArg (fun j => (saves j).target) hji)
      rw [Function.update_of_ne hji] at hj
      obtain ⟨k, hk, htarget, hfile⟩ := h.replaced j hj
      refine ⟨k, hinstall hk, htarget, ?_⟩
      rw [Function.update_of_ne (hapart i j).symm, Function.update_of_ne hsame, hfile]

end Consistent

/-- A step of the save takes it to some stage, the one of its protocol where it goes on. -/
def Advances [DecidableEq ι] (saves : ι → Save) (initial : Files Path) (g : ι → Stage) (i : ι)
    (o : StorageOp) (answer : Option (Except IoError Unit)) (files' : Files Path) : Prop :=
  ∃ c, Consistent saves initial (Function.update g i c) files' ∧
    ∀ r, answer = some r → (saves i).protocol.next (g i) o r = c

section Steps

variable {saves : ι → Save} {initial files files' : Files Path} {g : ι → Stage} [DecidableEq ι]
  {i : ι} {answer : Option (Except IoError Unit)}

theorem Effect.eq_of_unchanged {o : StorageOp} (h : Effect files o answer files')
    (happlied : o.applied files = some files) (ho : ∀ path bytes, o ≠ .writeAll path bytes) :
    files' = files := by
  cases h with
  | done hafter => exact Option.some.inj (hafter.symm.trans happlied)
  | stoppedAfter hafter => exact Option.some.inj (hafter.symm.trans happlied)
  | failed e => rfl
  | stopped => rfl
  | cutShort n hwrite hr => exact absurd hwrite (ho _ _)

/-- A sync changes no file, and a save asks for one only where that takes it no further. -/
theorem advances_sync {o : StorageOp} (h : Consistent saves initial g files)
    (heffect : Effect files o answer files') (happlied : o.applied files = some files)
    (ho : ∀ path bytes, o ≠ .writeAll path bytes)
    (hnext : ∀ r, (saves i).protocol.next (g i) o r = g i) :
    Advances saves initial g i o answer files' := by
  refine ⟨g i, ?_, fun r _ => hnext r⟩
  rw [heffect.eq_of_unchanged happlied ho, Function.update_eq_self]
  exact h

theorem advances_of_answer {o : StorageOp} {c : Stage} {r : Except IoError Unit}
    (h : Consistent saves initial (Function.update g i c) files')
    (hnext : (saves i).protocol.next (g i) o r = c) :
    Advances saves initial g i o (some r) files' := by
  refine ⟨c, h, fun r' hr => ?_⟩
  cases hr
  exact hnext

theorem advances_of_stop {o : StorageOp} {c : Stage}
    (h : Consistent saves initial (Function.update g i c) files') :
    Advances saves initial g i o none files' := by
  refine ⟨c, h, fun r hr => ?_⟩
  cases hr

variable (hapart : ∀ i j, (saves i).temp ≠ (saves j).target)

include hapart

theorem advances_createNew (h : Consistent saves initial g files) (hi : g i = .idle)
    (heffect : Effect files (.createNew (saves i).temp) answer files') :
    Advances saves initial g i (.createNew (saves i).temp) answer files' := by
  have hsame : Consistent saves initial (Function.update g i .idle) files := by
    rwa [← hi, Function.update_eq_self]
  have hcreated (happlied : (StorageOp.createNew (saves i).temp).applied files = some files') :
      Consistent saves initial (Function.update g i .created) files' := by
    rw [StorageOp.applied] at happlied
    split at happlied
    · rename_i hnone
      cases happlied
      exact h.creates hapart hi hnone
    · cases happlied
  cases heffect with
  | done happlied => exact advances_of_answer (hcreated happlied) (by rw [hi]; rfl)
  | failed e => exact advances_of_answer hsame (by rw [hi]; rfl)
  | stopped => exact advances_of_stop hsame
  | stoppedAfter happlied => exact advances_of_stop (hcreated happlied)
  | cutShort n ho hr => cases ho

theorem advances_writeAll (h : Consistent saves initial g files) (hi : g i = .created)
    (heffect : Effect files (.writeAll (saves i).temp (saves i).payload) answer files') :
    Advances saves initial g i (.writeAll (saves i).temp (saves i).payload) answer files' := by
  have howns : (g i).Owns := by
    rw [hi]
    trivial
  have hempty : files (saves i).temp = some [] := by
    obtain ⟨-, content, hfile, hfits⟩ := h.owned i howns
    rw [hi] at hfits
    rw [hfile, hfits]
  have happly (bytes : Bytes) : (Event.write (saves i).temp 0 bytes).apply files =
      Function.update files (saves i).temp (some bytes) := by
    rw [Event.apply, hempty, Option.map_some, overwrite]
    simp
  have hbroken : Consistent saves initial (Function.update g i .broken) files := by
    refine h.stays ?_ ?_ fun _ _ => trivial
    · exact iff_of_true trivial howns
    · exact iff_of_false (by simp) howns.not_installed
  have hwritten (happlied : (StorageOp.writeAll (saves i).temp (saves i).payload).applied files =
      some files') : Consistent saves initial (Function.update g i .written) files' := by
    rw [StorageOp.applied, happly] at happlied
    cases happlied
    refine h.writes hapart howns ?_ rfl
    trivial
  cases heffect with
  | done happlied => exact advances_of_answer (hwritten happlied) (by rw [hi]; rfl)
  | failed e => exact advances_of_answer hbroken (by rw [hi]; rfl)
  | stopped => exact advances_of_stop hbroken
  | stoppedAfter happlied => exact advances_of_stop (hwritten happlied)
  | cutShort n ho hr =>
    cases ho
    rw [happly]
    have hcut : Consistent saves initial (Function.update g i .broken)
        (Function.update files (saves i).temp (some ((saves i).payload.take n))) := by
      refine h.writes hapart howns ?_ ?_ <;> trivial
    refine ⟨.broken, hcut, fun r hanswer => ?_⟩
    rw [hi]
    rcases r with e | _
    · rfl
    · exact absurd hanswer hr

theorem advances_removeFile (h : Consistent saves initial g files)
    (hi : g i = .written ∨ g i = .broken)
    (heffect : Effect files (.removeFile (saves i).temp) answer files') :
    Advances saves initial g i (.removeFile (saves i).temp) answer files' := by
  have howns : (g i).Owns := by
    rcases hi with hi | hi
    all_goals
      rw [hi]
      trivial
  have hnext (r : Except IoError Unit) :
      (saves i).protocol.next (g i) (.removeFile (saves i).temp) r =
        match r with
        | .ok () => .idle
        | .error _ => .left := by
    rcases hi with hi | hi
    all_goals
      rw [hi]
      cases r <;> rfl
  have hleft : Consistent saves initial (Function.update g i .left) files := by
    refine h.stays ?_ ?_ fun _ _ => trivial
    · exact iff_of_true trivial howns
    · exact iff_of_false (by simp) howns.not_installed
  have hremoved (happlied : (StorageOp.removeFile (saves i).temp).applied files = some files') :
      Consistent saves initial (Function.update g i .idle) files' := by
    rw [StorageOp.applied] at happlied
    split at happlied
    · cases happlied
      exact h.removes hapart howns
    · cases happlied
  cases heffect with
  | done happlied => exact advances_of_answer (hremoved happlied) (hnext _)
  | failed e => exact advances_of_answer hleft (hnext _)
  | stopped => exact advances_of_stop hleft
  | stoppedAfter happlied => exact advances_of_stop (hremoved happlied)
  | cutShort n ho hr => cases ho

theorem advances_rename (h : Consistent saves initial g files) (hi : g i = .written)
    (heffect : Effect files (.rename (saves i).temp (saves i).target) answer files') :
    Advances saves initial g i (.rename (saves i).temp (saves i).target) answer files' := by
  have hsame : Consistent saves initial (Function.update g i .written) files := by
    rwa [← hi, Function.update_eq_self]
  have hinstalled (happlied : (StorageOp.rename (saves i).temp (saves i).target).applied files =
      some files') : Consistent saves initial (Function.update g i .installed) files' := by
    rw [StorageOp.applied] at happlied
    split at happlied
    · cases happlied
      exact h.installs hapart hi
    · cases happlied
  cases heffect with
  | done happlied => exact advances_of_answer (hinstalled happlied) (by rw [hi]; rfl)
  | failed e => exact advances_of_answer hsame (by rw [hi]; rfl)
  | stopped => exact advances_of_stop hsame
  | stoppedAfter happlied => exact advances_of_stop (hinstalled happlied)
  | cutShort n ho hr => cases ho

/-- Whatever a save asks for, and however the environment answers, every target stays whole. -/
theorem Consistent.step (h : Consistent saves initial g files) {o : StorageOp}
    (hadmits : (saves i).protocol.Admits (g i) o) (heffect : Effect files o answer files') :
    Advances saves initial g i o answer files' := by
  cases hi : g i with
  | idle =>
    rw [hi] at hadmits
    cases hadmits
    exact advances_createNew hapart h hi heffect
  | created =>
    rw [hi] at hadmits
    cases hadmits
    exact advances_writeAll hapart h hi heffect
  | written =>
    rw [hi] at hadmits
    rcases hadmits with rfl | rfl | rfl
    · exact advances_sync h heffect rfl nofun fun _ => by rw [hi]; rfl
    · exact advances_rename hapart h hi heffect
    · exact advances_removeFile hapart h (.inl hi) heffect
  | broken =>
    rw [hi] at hadmits
    cases hadmits
    exact advances_removeFile hapart h (.inr hi) heffect
  | left =>
    rw [hi] at hadmits
    exact hadmits.elim
  | installed =>
    rw [hi] at hadmits
    obtain ⟨dir, rfl | rfl⟩ := hadmits
    · exact advances_sync h heffect rfl nofun fun _ => by rw [hi]; rfl
    · exact advances_sync h heffect rfl nofun fun _ => by rw [hi]; rfl

end Steps

variable {saves : ι → Save} {unix : Bool} {w : World Path} {is : List ι}
  {q : Pool ι StorageOp (Except IoError Unit) (Except (PersistError ε) Unit) (World Path)}

theorem consistent_start (saves : ι → Save) (files : Files Path) :
    Consistent saves files (fun _ => .idle) files :=
  ⟨fun _ _ h => h.elim, fun _ h => h.elim, fun _ _ _ => rfl, fun _ h => nomatch h⟩

/-- The saves that start together. -/
def starting (saves : ι → Save) (unix : Bool) (w : World Path) :
    Pool ι StorageOp (Except IoError Unit) (Except (PersistError ε) Unit) (World Path) :=
  ⟨fun i => some ((saves i).thread unix), w⟩

variable [DecidableEq ι]

/-- In any interleaving of atomic writes, under any failures and crashes, each target holds what it
held or the whole payload of a write to it, of such a write where one has returned `Ok`. No other
file changes, except that a temporary file can be left where not every write returned `Ok`. -/
theorem concurrent_writes (hapart : ∀ i j, (saves i).temp ≠ (saves j).target)
    (hrun : Runs (Pool.Step StorageOp.perform) (starting (ε := ε) saves unix w) is q) :
    (∀ i, q.state.files (saves i).target = w.files (saves i).target ∨
      ∃ j, (saves j).target = (saves i).target ∧
        q.state.files (saves i).target = some (saves j).payload) ∧
    (∀ i, q.threads i = some (.done (.ok ())) → ∃ j, (saves j).target = (saves i).target ∧
      q.state.files (saves i).target = some (saves j).payload) ∧
    (∀ p, (∀ i, p ≠ (saves i).target) → (∀ i, p = (saves i).temp → w.files p ≠ none) →
      q.state.files p = w.files p) ∧
    ((∀ i, q.threads i = some (.done (.ok ()))) → ∀ p, (∀ i, p ≠ (saves i).target) →
      q.state.files p = w.files p) := by
  have hstart : Pool.At (fun i => (saves i).protocol) (fun _ => Save.Finishes) (fun _ => .idle)
      (starting (ε := ε) saves unix w) := by
    intro i t ht
    cases ht
    exact Save.obeys_thread unix (saves i)
  have hstep {i : ι} {g : ι → Stage} {o : StorageOp} {s s' : World Path}
      {answer : Option (Except IoError Unit)} (h : Consistent saves w.files g s.files)
      (hadmits : (saves i).protocol.Admits (g i) o)
      (hperform : StorageOp.perform o s = (answer, s')) :
      Advances saves w.files g i o answer s'.files := by
    have heffect := perform_effect o s
    rw [hperform] at heffect
    exact h.step hapart hadmits heffect
  obtain ⟨g, hg, hat⟩ := Pool.invariant (fun g s => Consistent saves w.files g s.files) hstep hrun
    (consistent_start saves w.files) hstart
  have hinstalled (i : ι) (hdone : q.threads i = some (.done (.ok ()))) : g i = .installed :=
    hat i _ hdone rfl
  have hreplaced (i : ι) (hi : g i = .installed) : ∃ j, (saves j).target = (saves i).target ∧
      q.state.files (saves i).target = some (saves j).payload := by
    obtain ⟨j, -, hj⟩ := hg.replaced i hi
    exact ⟨j, hj⟩
  refine ⟨fun i => ?_, fun i hdone => hreplaced i (hinstalled i hdone), fun p htarget htemp => ?_,
    fun hall p htarget => ?_⟩
  · by_cases hsome : ∃ j, g j = .installed ∧ (saves j).target = (saves i).target
    · obtain ⟨j, hj, htarget⟩ := hsome
      rw [← htarget]
      exact .inr (hreplaced j hj)
    · refine .inl (hg.kept _ (fun j _ => (hapart j i).symm) fun j hj htarget => ?_)
      exact hsome ⟨j, hj, htarget.symm⟩
  · refine hg.kept p (fun i hi hp => ?_) fun i _ => htarget i
    exact htemp i hp (hp ▸ (hg.owned i hi).1)
  · refine hg.kept p (fun i hi => ?_) fun i _ => htarget i
    exact absurd (hinstalled i (hall i)) hi.not_installed

/-- Two saves of one path whose temporary files have the same name. -/
def collidingSaves (second : Bool) : Save := ⟨nestedPath, if second then [2] else [1], .never, 1, 0⟩

theorem collidingSaves_apart (i j : Bool) :
    (collidingSaves i).temp ≠ (collidingSaves j).target := by
  have hne : tempPathOf nestedPath "x" emptyWorld ≠ nestedPath := tempPathOf_ne rfl
  exact hne

/-- The second save meets the file that the first works on, and fails; the first goes on. -/
theorem exists_collision : ∃ is q,
    Runs (Pool.Step StorageOp.perform) (starting (ε := IdError) collidingSaves true emptyWorld)
      is q ∧ q.threads false = some (.done (.ok ())) ∧
        ∃ e, q.threads true = some (.done (.error e)) := by
  have hstart : Runs (Pool.Step StorageOp.perform)
      (starting (ε := IdError) collidingSaves true emptyWorld) [] _ := Runs.nil _
  have hcreated := hstart.snoc (.asked (i := false) rfl rfl)
  have hrefused := hcreated.snoc (.asked (i := true) rfl rfl)
  have hwritten := hrefused.snoc (.asked (i := false) rfl rfl)
  have hrenamed := hwritten.snoc (.asked (i := false) rfl rfl)
  exact ⟨_, _, hrenamed, rfl, _, rfl⟩

theorem concurrent_writes_sample : ∃ j, (collidingSaves j).target = nestedPath ∧ ∃ is q,
    Runs (Pool.Step StorageOp.perform) (starting (ε := IdError) collidingSaves true emptyWorld)
      is q ∧ q.state.files nestedPath = some (collidingSaves j).payload := by
  obtain ⟨is, q, hrun, hdone, -⟩ := exists_collision
  obtain ⟨-, hok, -, -⟩ := concurrent_writes collidingSaves_apart hrun
  obtain ⟨j, htarget, hfile⟩ := hok false hdone
  exact ⟨j, htarget, is, q, hrun, hfile⟩

end IqdbPersist
