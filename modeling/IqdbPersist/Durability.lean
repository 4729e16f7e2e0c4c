import IqdbPersist.Disk
import IqdbPersist.FileRules

/-!
# What survives a loss of power

A path whose directory entry and data are on the medium is found as it was, and stays so until an
event touches it. Syncing a file puts its data on the medium, syncing a directory the entries in it,
and a rename of a synced file that may have been lost has happened wholly or not at all.
-/

namespace FileSystem

variable {P : Type}

/-- The paths whose directory entry an event changes. -/
def Event.Relinks : Event P → P → Prop
  | .create path, p | .remove path, p => p = path
  | .rename source target, p => p = source ∨ p = target
  | .write _ _ _, _ | .setLen _ _, _ | .sync _, _ | .syncDir _, _ => False

/-- The paths whose directory entry or data an event changes. -/
def Event.Touches : Event P → P → Prop
  | .create path, p | .write path _ _, p | .setLen path _, p | .remove path, p => p = path
  | .rename source target, p => p = source ∨ p = target
  | .sync _, _ | .syncDir _, _ => False

theorem Event.Relinks.touches {e : Event P} {p : P} (h : e.Relinks p) : e.Touches p := by
  cases e with
  | create | remove | rename => exact h
  | write | setLen | sync | syncDir => exact h.elim

namespace Disk

/-- The directory entry of this path is on the medium. -/
def Anchored (d : Disk P) (p : P) : Prop := ∀ names ∈ d.entries, names p = d.names p

/-- The data under this path are on the medium. -/
def Synced (d : Disk P) (p : P) : Prop := ∀ i, d.names p = some i → d.contents i = {d.data i}

variable {d : Disk P} {p : P}

theorem view_of_outcome (hanchored : d.Anchored p) (hsynced : d.Synced p) {files : Files P}
    (h : files ∈ d.outcomes) : files p = d.view p := by
  obtain ⟨names, hnames, data, hdata, rfl⟩ := h
  simp only [view, hanchored names hnames]
  cases hi : d.names p with
  | none => rfl
  | some i =>
    have hdata : data i ∈ d.contents i := hdata i
    rw [hsynced i hi, Set.mem_singleton_iff] at hdata
    rw [Option.map_some, Option.map_some, hdata]

theorem Anchored.relink (h : d.Anchored p) {change : Names P → Names P}
    (hchange : ∀ names, change names p = names p) : (d.relink change).Anchored p := by
  rintro _ (hnames | ⟨names, hnames, rfl⟩)
  · rw [h _ hnames]
    exact (hchange _).symm
  · rw [hchange, h _ hnames]
    exact (hchange _).symm

section Rules

variable [DecidableEq P] {dir : P → P} {loss : Loss}

theorem names_apply {e : Event P} (he : ¬ e.Relinks p) :
    (d.apply dir loss e).names p = d.names p := by
  cases e with
  | syncDir => rfl
  | create | remove => exact Function.update_of_ne he _ _
  | rename source target =>
    obtain ⟨hsource, htarget⟩ := not_or.mp he
    exact (Function.update_of_ne hsource _ _).trans (Function.update_of_ne htarget _ _)
  | write | setLen =>
    rw [Disk.apply, Disk.rewrite]
    split <;> rfl
  | sync =>
    rw [Disk.apply, Disk.flush]
    split <;> rfl

theorem Anchored.apply (h : d.Anchored p) {e : Event P} (he : ¬ e.Relinks p) :
    (d.apply dir loss e).Anchored p := by
  cases e with
  | create | remove => exact h.relink fun _ => Function.update_of_ne he _ _
  | rename source target =>
    obtain ⟨hsource, htarget⟩ := not_or.mp he
    exact h.relink fun _ =>
      (Function.update_of_ne hsource _ _).trans (Function.update_of_ne htarget _ _)
  | write | setLen =>
    rw [Disk.apply, Disk.rewrite]
    split <;> exact h
  | sync =>
    rw [Disk.apply, Disk.flush]
    split <;> exact h
  | syncDir path =>
    rintro _ ⟨names, hnames, rfl⟩
    change (if dir p = path then d.names p else names p) = d.names p
    rw [h _ hnames, ite_self]

theorem anchored_flushDir (d : Disk P) (p : P) : (d.flushDir dir (dir p)).Anchored p := by
  rintro _ ⟨names, -, rfl⟩
  exact if_pos rfl

theorem synced_flush (d : Disk P) (p : P) : (d.flush p).Synced p := by
  intro i hi
  unfold Disk.flush at hi ⊢
  split at hi
  · rename_i hnone
    rw [hnone] at hi
    cases hi
  · rename_i j hj
    rw [hj] at hi
    cases hi
    simp only [Function.update_self]

theorem entries_subset_apply (dir : P → P) (loss : Loss) (d : Disk P) {e : Event P}
    (he : ∀ q, e ≠ .syncDir q) : d.entries ⊆ (d.apply dir loss e).entries := by
  cases e with
  | create | rename | remove => exact Set.subset_union_left
  | write path | setLen path =>
    rw [Disk.apply, Disk.rewrite]
    split <;> exact subset_rfl
  | sync path =>
    rw [Disk.apply, Disk.flush]
    split <;> exact subset_rfl
  | syncDir path => exact absurd rfl (he path)

theorem contents_subset_rewrite (d : Disk P) (path : P) {final : Bytes → Bytes}
    {stages : Bytes → Set Bytes → Set Bytes} (h : ∀ content held, held ⊆ stages content held)
    (i : Inode P) : d.contents i ⊆ (d.rewrite path final stages).contents i := by
  rw [Disk.rewrite]
  split
  · exact subset_rfl
  · rename_i j hj
    by_cases hi : i = j
    · subst hi
      simp only [Function.update_self]
      exact h _ _
    · simp only [Function.update_of_ne hi]
      exact subset_rfl

theorem contents_subset_apply (dir : P → P) (loss : Loss) (d : Disk P) {e : Event P}
    (hcreate : ∀ q, e ≠ .create q) (hsync : ∀ q, e ≠ .sync q) (i : Inode P) :
    d.contents i ⊆ (d.apply dir loss e).contents i := by
  cases e with
  | create path => exact absurd rfl (hcreate path)
  | rename | remove | syncDir => exact subset_rfl
  | sync path => exact absurd rfl (hsync path)
  | write path => exact d.contents_subset_rewrite path (fun _ _ => Loss.subset_write) i
  | setLen path => exact d.contents_subset_rewrite path (fun _ _ => Loss.subset_setLen) i

theorem contents_apply (dir : P → P) (loss : Loss) (hd : d.WellFormed) {e : Event P}
    (he : ¬ e.Touches p) {i : Inode P} (hi : d.names p = some i) :
    (d.apply dir loss e).data i = d.data i ∧
      ((d.apply dir loss e).contents i = d.contents i ∨
        (d.apply dir loss e).contents i = {d.data i}) := by
  have hne {path : P} {j : Inode P} (hj : d.names path = some j) (hp : p ≠ path) : i ≠ j := by
    rintro rfl
    exact hp (hd.names_inj p path i hi hj)
  cases e with
  | syncDir | remove | rename => exact ⟨rfl, .inl rfl⟩
  | create path =>
    have hfresh : i ≠ .created d.count := by
      rintro rfl
      exact hd.unlinked p _ (Nat.le_refl _) hi
    exact ⟨Function.update_of_ne hfresh _ _, .inl (Function.update_of_ne hfresh _ _)⟩
  | write path | setLen path =>
    rw [Disk.apply, Disk.rewrite]
    split
    · exact ⟨rfl, .inl rfl⟩
    · rename_i j hj
      have hij := hne hj he
      exact ⟨Function.update_of_ne hij _ _, .inl (Function.update_of_ne hij _ _)⟩
  | sync path =>
    rw [Disk.apply, Disk.flush]
    split
    · exact ⟨rfl, .inl rfl⟩
    · rename_i j hj
      refine ⟨rfl, ?_⟩
      by_cases hij : i = j
      · subst hij
        exact .inr (Function.update_self _ _ _)
      · exact .inl (Function.update_of_ne hij _ _)

theorem Synced.apply (h : d.Synced p) (hd : d.WellFormed) {e : Event P} (he : ¬ e.Touches p) :
    (d.apply dir loss e).Synced p := by
  intro i hi
  rw [names_apply fun hrelinks => he hrelinks.touches] at hi
  obtain ⟨hdata, hcontents | hcontents⟩ := contents_apply dir loss hd he hi
  · rw [hcontents, hdata, h i hi]
  · rw [hcontents, hdata]

theorem synced_rename {source target : P} (hne : source ≠ target) (h : d.Synced source) :
    (d.apply dir loss (.rename source target)).Synced target := by
  intro i hi
  refine h i (Eq.trans ?_ hi)
  change _ = Function.update (Function.update d.names target (d.names source)) source none target
  rw [Function.update_of_ne hne.symm, Function.update_self]

/-- A rename that may have been lost has replaced the target or left it alone. -/
theorem outcomes_rename {source target : P} (hne : source ≠ target) (hsynced : d.Synced source)
    {files : Files P} (h : files ∈ (d.apply dir loss (.rename source target)).outcomes) :
    ∃ before ∈ d.outcomes, (files target = before target ∨ files target = d.view source) ∧
      ∀ p, p ≠ source → p ≠ target → files p = before p := by
  obtain ⟨names, hnames | ⟨names, hnames, rfl⟩, data, hdata, rfl⟩ := h
  · exact ⟨_, ⟨names, hnames, data, hdata, rfl⟩, .inl rfl, fun _ _ _ => rfl⟩
  · refine ⟨_, ⟨names, hnames, data, hdata, rfl⟩, .inr ?_, fun p hs ht => ?_⟩
    · dsimp only
      rw [Function.update_of_ne hne.symm, Function.update_self, view]
      cases hi : d.names source with
      | none => rfl
      | some i =>
        have hdata : data i ∈ d.contents i := hdata i
        rw [hsynced i hi, Set.mem_singleton_iff] at hdata
        rw [Option.map_some, Option.map_some, hdata]
    · dsimp only
      rw [Function.update_of_ne hs, Function.update_of_ne ht]

end Rules

end Disk

section Within

/-- The second world is the first after events that touch only the files in `S`. -/
def Within (S : P → Prop) (w w' : World P) : Prop :=
  w'.base = w.base ∧ ∃ events, w'.history = w.history ++ events ∧
    ∀ e ∈ events, ∀ p, e.Touches p → S p

variable {S : P → Prop} {w w' w'' : World P}

theorem Within.refl (S : P → Prop) (w : World P) : Within S w w :=
  ⟨rfl, [], (List.append_nil _).symm, fun _ he => absurd he List.not_mem_nil⟩

theorem Within.trans (h : Within S w w') (h' : Within S w' w'') : Within S w w'' := by
  obtain ⟨hbase, events, hhistory, hevents⟩ := h
  obtain ⟨hbase', events', hhistory', hevents'⟩ := h'
  refine ⟨hbase'.trans hbase, events ++ events', ?_, ?_⟩
  · rw [hhistory', hhistory, List.append_assoc]
  · exact List.forall_mem_append.mpr ⟨hevents, hevents'⟩

theorem Within.mono (h : Within S w w') {S' : P → Prop} (hS : ∀ p, S p → S' p) :
    Within S' w w' :=
  ⟨h.1, h.2.choose, h.2.choose_spec.1, fun e he p hp => hS p (h.2.choose_spec.2 e he p hp)⟩

theorem Within.next (h : Within S w w') : Within S w w'.next := h

theorem Within.emit (h : Within S w w') {e : Event P} (he : ∀ p, e.Touches p → S p) :
    Within S w (w'.emit e) :=
  h.trans ⟨rfl, [e], rfl, List.forall_mem_singleton.mpr he⟩

end Within

section World

variable [DecidableEq P] (dir : P → P) (loss : Loss)

/-- What the events of a world have made of its disk, which held the files it started with. -/
def World.disk (w : World P) : Disk P := w.history.foldl (Disk.apply dir loss) (Disk.start w.base)

/-- The machine loses power: the files that may be found then. -/
def World.outcomes (w : World P) : Set (Files P) := (w.disk dir loss).outcomes

@[simp] theorem World.disk_next (w : World P) : w.next.disk dir loss = w.disk dir loss := rfl

@[simp] theorem World.disk_withScript (w : World P) (script : List Verdict) :
    (w.withScript script).disk dir loss = w.disk dir loss := rfl

@[simp] theorem World.disk_emit (w : World P) (e : Event P) :
    (w.emit e).disk dir loss = (w.disk dir loss).apply dir loss e := by
  simp only [World.disk, World.emit, List.foldl_append, List.foldl_cons, List.foldl_nil]

theorem World.wellFormed_view (w : World P) :
    (w.disk dir loss).WellFormed ∧ (w.disk dir loss).view = w.files := by
  have hfold (history : List (Event P)) (d : Disk P) (files : Files P) (hd : d.WellFormed)
      (hview : d.view = files) :
      (history.foldl (Disk.apply dir loss) d).WellFormed ∧
        (history.foldl (Disk.apply dir loss) d).view = history.foldl Event.apply files := by
    induction history generalizing d files with
    | nil => exact ⟨hd, hview⟩
    | cons e history ih =>
      exact ih _ _ (hd.apply e) (by rw [Disk.view_apply hd, hview])
  exact hfold w.history _ _ (Disk.wellFormed_start w.base) (Disk.view_start w.base)

theorem World.wellFormed_disk (w : World P) : (w.disk dir loss).WellFormed :=
  (w.wellFormed_view dir loss).1

theorem World.view_disk (w : World P) : (w.disk dir loss).view = w.files :=
  (w.wellFormed_view dir loss).2

theorem World.files_mem_outcomes (w : World P) : w.files ∈ w.outcomes dir loss :=
  ⟨_, (w.wellFormed_disk dir loss).names_mem, _, (w.wellFormed_disk dir loss).data_mem,
    (w.view_disk dir loss).symm⟩

theorem World.disk_of_history {w w' : World P} {events : List (Event P)}
    (hbase : w'.base = w.base) (hhistory : w'.history = w.history ++ events) :
    w'.disk dir loss = events.foldl (Disk.apply dir loss) (w.disk dir loss) := by
  rw [World.disk, hbase, hhistory, List.foldl_append, World.disk]

/-- The names of before may be found for as long as no directory has been synced. -/
theorem World.names_before_mem_outcomes {w w' : World P} {events : List (Event P)}
    (hbase : w'.base = w.base) (hhistory : w'.history = w.history ++ events)
    (hsync : ∀ e ∈ events, ∀ q, e ≠ .syncDir q) :
    (fun p => ((w.disk dir loss).names p).map (w'.disk dir loss).data) ∈
      w'.outcomes dir loss := by
  have hentries : (w.disk dir loss).entries ⊆ (w'.disk dir loss).entries := by
    rw [World.disk_of_history dir loss hbase hhistory]
    exact List.foldlRecOn events _ (motive := fun d => (w.disk dir loss).entries ⊆ d.entries)
      subset_rfl fun d hd e he => hd.trans (Disk.entries_subset_apply dir loss d (hsync e he))
  exact ⟨_, hentries (w.wellFormed_disk dir loss).names_mem, _,
    (w'.wellFormed_disk dir loss).data_mem, rfl⟩

/-- What has been written since the last sync may all be lost. -/
theorem World.files_before_mem_outcomes {w w' : World P} {events : List (Event P)}
    (hbase : w'.base = w.base) (hhistory : w'.history = w.history ++ events)
    (hevents : ∀ e ∈ events, ∀ q, e ≠ .create q ∧ e ≠ .sync q ∧ e ≠ .syncDir q) :
    w.files ∈ w'.outcomes dir loss := by
  have hmore : (w.disk dir loss).entries ⊆ (w'.disk dir loss).entries ∧
      ∀ i, (w.disk dir loss).contents i ⊆ (w'.disk dir loss).contents i := by
    rw [World.disk_of_history dir loss hbase hhistory]
    refine List.foldlRecOn events _ (motive := fun d : Disk P =>
      (w.disk dir loss).entries ⊆ d.entries ∧
        ∀ i, (w.disk dir loss).contents i ⊆ d.contents i) ⟨subset_rfl, fun _ => subset_rfl⟩ ?_
    rintro d ⟨hentries, hcontents⟩ e he
    exact ⟨hentries.trans (Disk.entries_subset_apply dir loss d fun q => (hevents e he q).2.2),
      fun i => (hcontents i).trans (Disk.contents_subset_apply dir loss d
        (fun q => (hevents e he q).1) (fun q => (hevents e he q).2.1) i)⟩
  exact ⟨_, hmore.1 (w.wellFormed_disk dir loss).names_mem, _,
    fun i => hmore.2 i ((w.wellFormed_disk dir loss).data_mem i), (w.view_disk dir loss).symm⟩

/-- This path is on the medium as programs see it. -/
structure World.Durable (w : World P) (p : P) : Prop where
  anchored : (w.disk dir loss).Anchored p
  synced : (w.disk dir loss).Synced p

variable {dir loss}

theorem World.Durable.files {w : World P} {p : P} (h : w.Durable dir loss p) {files : Files P}
    (hfiles : files ∈ w.outcomes dir loss) : files p = w.files p := by
  rw [Disk.view_of_outcome h.anchored h.synced hfiles, World.view_disk]

theorem World.durable_of_history {w : World P} (h : w.history = []) (p : P) :
    w.Durable dir loss p := by
  have hdisk : w.disk dir loss = Disk.start w.base := by rw [World.disk, h, List.foldl_nil]
  refine ⟨?_, ?_⟩
  · rw [hdisk]
    rintro names rfl
    rfl
  · rw [hdisk]
    intro i _
    cases i <;> rfl

variable {S : P → Prop} {w w' : World P}

theorem Event.apply_of_not_touches {e : Event P} {p : P} (he : ¬ e.Touches p) (files : Files P) :
    e.apply files p = files p := by
  cases e with
  | sync | syncDir => rfl
  | create | write | setLen | remove => exact Function.update_of_ne he _ _
  | rename source target =>
    obtain ⟨hsource, htarget⟩ := not_or.mp he
    exact (Function.update_of_ne hsource _ _).trans (Function.update_of_ne htarget _ _)

theorem Within.files (h : Within S w w') {p : P} (hp : ¬ S p) : w'.files p = w.files p := by
  obtain ⟨hbase, events, hhistory, hevents⟩ := h
  have hfold (files : Files P) : events.foldl Event.apply files p = files p := by
    clear hhistory
    induction events generalizing files with
    | nil => rfl
    | cons e events ih =>
      obtain ⟨he, hevents⟩ := List.forall_mem_cons.mp hevents
      exact (ih hevents _).trans (Event.apply_of_not_touches (fun ht => hp (he p ht)) files)
  rw [World.files, hhistory, List.foldl_append, hfold, hbase]
  rfl

theorem Within.disk_induct (h : Within S w w') {p : P} (hp : ¬ S p) (Good : Disk P → Prop)
    (hstep : ∀ d e, d.WellFormed → ¬ e.Touches p → Good d → Good (d.apply dir loss e))
    (hw : Good (w.disk dir loss)) : Good (w'.disk dir loss) := by
  obtain ⟨hbase, events, hhistory, hevents⟩ := h
  have hfold (d : Disk P) (hd : d.WellFormed) (hgood : Good d) :
      Good (events.foldl (Disk.apply dir loss) d) := by
    clear hhistory
    induction events generalizing d with
    | nil => exact hgood
    | cons e events ih =>
      obtain ⟨he, hevents⟩ := List.forall_mem_cons.mp hevents
      exact ih hevents _ (hd.apply e) (hstep d e hd (fun ht => hp (he p ht)) hgood)
  have hdisk : w'.disk dir loss = events.foldl (Disk.apply dir loss) (w.disk dir loss) := by
    rw [World.disk, World.disk, hbase, hhistory, List.foldl_append]
  rw [hdisk]
  exact hfold _ (w.wellFormed_disk dir loss) hw

theorem Within.synced (h : Within S w w') {p : P} (hp : ¬ S p) (hw : (w.disk dir loss).Synced p) :
    (w'.disk dir loss).Synced p :=
  h.disk_induct hp (·.Synced p) (fun _ _ hd he hsynced => hsynced.apply hd he) hw

theorem Within.durable (h : Within S w w') {p : P} (hp : ¬ S p) (hw : w.Durable dir loss p) :
    w'.Durable dir loss p where
  anchored := h.disk_induct hp (·.Anchored p)
    (fun _ _ _ he hanchored => hanchored.apply fun hrelinks => he hrelinks.touches) hw.anchored
  synced := h.synced hp hw.synced

theorem Untouched.disk (h : Untouched w w') : w'.disk dir loss = w.disk dir loss := by
  rw [World.disk, World.disk, h.base, h.history]

theorem Untouched.durable (h : Untouched w w') {p : P} (hw : w.Durable dir loss p) :
    w'.Durable dir loss p := by
  refine ⟨?_, ?_⟩
  · rw [h.disk]
    exact hw.anchored
  · rw [h.disk]
    exact hw.synced

end World

end FileSystem
