import IqdbPersist.Loss

/-!
# A disk behind its cache

A directory links names to files, and a file has its data. Both are cached: what is on the medium
may lag behind. A change of the directory may be lost until the directory is synced, each change
alone; data may be lost until the file is synced, and how is a parameter. A disk keeps the present
state and beside it the states that the medium may be in; after a loss of power the files are any
combination of these.
-/

namespace FileSystem

variable {P : Type}

/-- The identity of a file, which a rename does not change. -/
inductive Inode (P : Type) where
  | initial (path : P)
  | created (n : ℕ)
  deriving DecidableEq

/-- Which file each path names. -/
abbrev Names (P : Type) := P → Option (Inode P)

structure Disk (P : Type) where
  names : Names P
  data : Inode P → Bytes
  /-- How many files have been created. -/
  count : ℕ
  /-- The directories that the medium may hold. -/
  entries : Set (Names P)
  /-- The data that the medium may hold for a file. -/
  contents : Inode P → Set Bytes

namespace Disk

/-- All of these files are on the medium. -/
def start (files : Files P) : Disk P where
  names p := (files p).map fun _ => .initial p
  data
    | .initial p => (files p).getD []
    | .created _ => []
  count := 0
  entries := {fun p => (files p).map fun _ => .initial p}
  contents
    | .initial p => {(files p).getD []}
    | .created _ => {[]}

/-- A change of the directory, not yet synced. -/
def relink (d : Disk P) (change : Names P → Names P) : Disk P :=
  { d with
    names := change d.names
    entries := d.entries ∪ change '' d.entries }

/-- The files as they are read while the machine runs. -/
def view (d : Disk P) : Files P := fun p => (d.names p).map d.data

/-- The files that may be found after a loss of power. -/
def outcomes (d : Disk P) : Set (Files P) :=
  { files | ∃ names ∈ d.entries, ∃ data : Inode P → Bytes, (∀ i, data i ∈ d.contents i) ∧
      files = fun p => (names p).map data }

structure WellFormed (d : Disk P) : Prop where
  names_inj : ∀ p q i, d.names p = some i → d.names q = some i → p = q
  unlinked : ∀ p n, d.count ≤ n → d.names p ≠ some (.created n)
  names_mem : d.names ∈ d.entries
  data_mem : ∀ i, d.data i ∈ d.contents i

section Rules

variable {d : Disk P}

theorem wellFormed_start (files : Files P) : (start files).WellFormed where
  names_inj p q i hp hq := by
    obtain ⟨_, -, rfl⟩ := Option.map_eq_some_iff.mp hp
    obtain ⟨_, -, hi⟩ := Option.map_eq_some_iff.mp hq
    exact (Inode.initial.inj hi).symm
  unlinked p n _ hp := by
    obtain ⟨_, -, hi⟩ := Option.map_eq_some_iff.mp hp
    cases hi
  names_mem := rfl
  data_mem i := by cases i <;> rfl

theorem view_start (files : Files P) : (start files).view = files := by
  funext p
  change ((files p).map fun _ => Inode.initial p).map (start files).data = files p
  cases hp : files p with
  | none => rfl
  | some content =>
    change some ((files p).getD []) = some content
    rw [hp, Option.getD_some]

theorem WellFormed.relink (h : d.WellFormed) {change : Names P → Names P}
    (hinj : ∀ p q i, change d.names p = some i → change d.names q = some i → p = q)
    (hunlinked : ∀ p n, d.count ≤ n → change d.names p ≠ some (.created n)) :
    (d.relink change).WellFormed where
  names_inj := hinj
  unlinked := hunlinked
  names_mem := .inr ⟨d.names, h.names_mem, rfl⟩
  data_mem := h.data_mem

end Rules

variable [DecidableEq P]

/-- A change of the data of a file, not yet synced. -/
def rewrite (d : Disk P) (path : P) (final : Bytes → Bytes)
    (stages : Bytes → Set Bytes → Set Bytes) : Disk P :=
  match d.names path with
  | none => d
  | some i =>
    { d with
      data := Function.update d.data i (final (d.data i))
      contents := Function.update d.contents i (stages (d.data i) (d.contents i)) }

/-- A new file under this path. -/
def link (d : Disk P) (path : P) : Disk P :=
  { d.relink (Function.update · path (some (.created d.count))) with
    data := Function.update d.data (.created d.count) []
    count := d.count + 1
    contents := Function.update d.contents (.created d.count) {[]} }

/-- The data of the file are on the medium. -/
def flush (d : Disk P) (path : P) : Disk P :=
  match d.names path with
  | none => d
  | some i => { d with contents := Function.update d.contents i {d.data i} }

/-- The entries of the directory are on the medium. -/
def flushDir (dir : P → P) (d : Disk P) (path : P) : Disk P :=
  { d with
    entries := (fun names p => if dir p = path then d.names p else names p) '' d.entries }

/-- What an event does to a disk; `dir` says in which directory a path is. -/
def apply (dir : P → P) (loss : Loss) (d : Disk P) : Event P → Disk P
  | .create path => d.link path
  | .write path pos bytes =>
      d.rewrite path (overwrite · pos bytes) fun content held => loss.write pos bytes content held
  | .setLen path len =>
      d.rewrite path (resize · len) fun content held => loss.setLen len content held
  | .sync path => d.flush path
  | .rename source target =>
      d.relink fun names =>
        Function.update (Function.update names target (d.names source)) source none
  | .remove path => d.relink (Function.update · path none)
  | .syncDir path => d.flushDir dir path

section Rules

variable {d : Disk P} {dir : P → P} {loss : Loss} {p path : P}

theorem map_update_of_ne {β : Type} {o : Option (Inode P)} {data : Inode P → β} {i : Inode P}
    (h : o ≠ some i) (c : β) : o.map (Function.update data i c) = o.map data := by
  cases o with
  | none => rfl
  | some j => rw [Option.map_some, Option.map_some, Function.update_of_ne fun hj => h (by rw [hj])]

theorem WellFormed.rewrite (h : d.WellFormed) {final : Bytes → Bytes}
    {stages : Bytes → Set Bytes → Set Bytes}
    (hfinal : ∀ content held, content ∈ held → final content ∈ stages content held) :
    (d.rewrite path final stages).WellFormed := by
  unfold Disk.rewrite
  split
  · exact h
  · rename_i i _
    refine ⟨h.names_inj, h.unlinked, h.names_mem, fun j => ?_⟩
    by_cases hj : j = i
    · subst hj
      simp only [Function.update_self]
      exact hfinal _ _ (h.data_mem j)
    · simp only [Function.update_of_ne hj]
      exact h.data_mem j

theorem WellFormed.link (h : d.WellFormed) : (d.link path).WellFormed where
  names_inj p q i hp hq := by
    change Function.update d.names path _ p = _ at hp
    change Function.update d.names path _ q = _ at hq
    by_cases hp' : p = path <;> by_cases hq' : q = path
    · exact hp'.trans hq'.symm
    · subst hp'
      rw [Function.update_self] at hp
      rw [Function.update_of_ne hq', ← hp] at hq
      exact absurd hq (h.unlinked q _ (Nat.le_refl _))
    · subst hq'
      rw [Function.update_self] at hq
      rw [Function.update_of_ne hp', ← hq] at hp
      exact absurd hp (h.unlinked p _ (Nat.le_refl _))
    · rw [Function.update_of_ne hp'] at hp
      rw [Function.update_of_ne hq'] at hq
      exact h.names_inj p q i hp hq
  unlinked p n hn := by
    change Function.update d.names path _ p ≠ _
    have hn : d.count < n := hn
    by_cases hp : p = path
    · subst hp
      rw [Function.update_self]
      simp only [ne_eq, Option.some.injEq, Inode.created.injEq]
      omega
    · rw [Function.update_of_ne hp]
      exact h.unlinked p n (Nat.le_of_lt hn)
  names_mem := .inr ⟨d.names, h.names_mem, rfl⟩
  data_mem i := by
    by_cases hi : i = .created d.count
    · subst hi
      simp [Disk.link]
    · simp only [Disk.link, Function.update_of_ne hi]
      exact h.data_mem i

theorem WellFormed.flush (h : d.WellFormed) : (d.flush path).WellFormed := by
  unfold Disk.flush
  split
  · exact h
  · rename_i i _
    refine ⟨h.names_inj, h.unlinked, h.names_mem, fun j => ?_⟩
    by_cases hj : j = i
    · subst hj
      simp
    · simp only [Function.update_of_ne hj]
      exact h.data_mem j

theorem WellFormed.flushDir (h : d.WellFormed) : (d.flushDir dir path).WellFormed where
  names_inj := h.names_inj
  unlinked := h.unlinked
  names_mem := ⟨d.names, h.names_mem, funext fun p => by simp only [ite_self]; rfl⟩
  data_mem := h.data_mem

theorem WellFormed.apply (h : d.WellFormed) (e : Event P) : (d.apply dir loss e).WellFormed := by
  cases e with
  | create path => exact h.link
  | sync path => exact h.flush
  | syncDir path => exact h.flushDir
  | write path pos bytes =>
    rw [Disk.apply]
    exact h.rewrite fun content held => Loss.overwrite_mem_write
  | setLen path len =>
    rw [Disk.apply]
    exact h.rewrite fun content held => Loss.resize_mem_setLen
  | remove path =>
    rw [Disk.apply]
    refine h.relink ?_ ?_
    · intro p q i hp hq
      rw [Function.update_apply] at hp hq
      split_ifs at hp hq
      exact h.names_inj p q i hp hq
    · intro p n hn
      rw [Function.update_apply]
      split_ifs
      · simp
      · exact h.unlinked p n hn
  | rename source target =>
    rw [Disk.apply]
    refine h.relink ?_ ?_
    · intro p q i hp hq
      simp only [Function.update_apply] at hp hq
      split_ifs at hp hq with hps hpt hqs hqt hqs hqt
      · exact hpt.trans hqt.symm
      · exact absurd (h.names_inj _ _ i hq hp) hqs
      · exact absurd (h.names_inj _ _ i hp hq) hps
      · exact h.names_inj p q i hp hq
    · intro p n hn
      simp only [Function.update_apply]
      split_ifs
      · simp
      · exact h.unlinked source n hn
      · exact h.unlinked p n hn

theorem view_rewrite (h : d.WellFormed) (final : Bytes → Bytes)
    (stages : Bytes → Set Bytes → Set Bytes) : (d.rewrite path final stages).view =
      Function.update d.view path ((d.view path).map final) := by
  unfold Disk.rewrite
  split
  · rename_i hnone
    have hview : d.view path = none := by rw [view, hnone, Option.map_none]
    rw [hview, Option.map_none, ← hview, Function.update_eq_self]
  · rename_i i hi
    funext p
    by_cases hp : p = path
    · subst hp
      simp only [view, hi, Option.map_some, Function.update_self]
    · rw [Function.update_of_ne hp]
      exact map_update_of_ne (fun hpi => hp (h.names_inj p path i hpi hi)) _

/-- What is read while the machine runs is what the events make of the files. -/
theorem view_apply (h : d.WellFormed) (e : Event P) :
    (d.apply dir loss e).view = e.apply d.view := by
  cases e with
  | write path pos bytes => exact view_rewrite h _ _
  | setLen path len => exact view_rewrite h _ _
  | syncDir path => rfl
  | sync path =>
    rw [Disk.apply, Disk.flush]
    split <;> rfl
  | create path =>
    funext p
    rw [Event.apply, Function.update_apply]
    change (Function.update d.names path _ p).map _ = _
    rw [Function.update_apply]
    split_ifs
    · exact congrArg some (Function.update_self _ _ _)
    · exact map_update_of_ne (h.unlinked p _ (Nat.le_refl _)) _
  | remove path =>
    funext p
    rw [Event.apply, Function.update_apply]
    change (Function.update d.names path _ p).map _ = _
    rw [Function.update_apply]
    split_ifs <;> rfl
  | rename source target =>
    funext p
    simp only [Event.apply, Function.update_apply]
    change Option.map d.data
      (Function.update (Function.update d.names target (d.names source)) source none p) = _
    simp only [Function.update_apply]
    split_ifs <;> rfl

end Rules

end Disk

end FileSystem
