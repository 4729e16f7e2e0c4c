import IqdbPersist.Durability

/-!
# A file under work

While a file is written, truncated and synced under its name, no directory changes. What the medium
may hold of it is what the last sync put there and whatever has been written since; and the name of
a new file may be missing on the medium until its directory is synced.
-/

namespace FileSystem

variable {P : Type}

/-- The event works on the data of this file. -/
def Event.WorksOn : Event P → P → Prop
  | .write path _ _, p | .setLen path _, p | .sync path, p => p = path
  | .create _, _ | .remove _, _ | .rename _ _, _ | .syncDir _, _ => False

theorem Event.WorksOn.eq_of_touches {e : Event P} {p q : P} (h : e.WorksOn p) (hq : e.Touches q) :
    q = p := by
  cases e with
  | write | setLen => exact Eq.trans hq (Eq.symm h)
  | sync => exact hq.elim
  | create | remove | rename | syncDir => exact h.elim

/-- What the medium may hold when `bytes` are written behind `content` and `n` of them arrive. -/
def pieces (loss : Loss) (content bytes : Bytes) (n : ℕ) : Set Bytes :=
  loss.write content.length (bytes.take n) content {content}

section Pieces

variable {loss : Loss} {content bytes kept : Bytes} {n : ℕ}

theorem mem_pieces_anywhere :
    kept ∈ pieces .anywhere content bytes n ↔
      kept ∈ Loss.torn content content.length (bytes.take n) := by
  simp only [pieces, Loss.write, Set.mem_singleton_iff, exists_eq_left, Set.mem_ofPred_eq]

theorem mem_pieces_self (loss : Loss) (content bytes : Bytes) (n : ℕ) :
    content ∈ pieces loss content bytes n := Loss.subset_write rfl

theorem append_mem_pieces (loss : Loss) (content bytes : Bytes) :
    content ++ bytes ∈ pieces loss content bytes bytes.length := by
  have hwhole :
      overwrite content content.length bytes ∈ pieces loss content bytes bytes.length := by
    rw [pieces, List.take_length]
    exact Loss.overwrite_mem_write rfl
  rwa [overwrite_end] at hwhole

theorem pieces_mono (loss : Loss) (content bytes : Bytes) {m n : ℕ} (h : m ≤ n) :
    pieces loss content bytes m ⊆ pieces loss content bytes n := by
  have htake : bytes.take m = (bytes.take n).take m := by rw [List.take_take, Nat.min_eq_left h]
  rw [pieces, htake]
  exact Loss.write_take_subset

theorem write_take_eq_pieces (loss : Loss) (content xs ys : Bytes) (n : ℕ) :
    loss.write content.length (xs.take n) content {content} =
      pieces loss content (xs ++ ys) (min n xs.length) := by
  rw [pieces, List.take_append_of_le_length (Nat.min_le_right _ _), ← List.take_eq_take_min]

theorem write_pieces_subset (loss : Loss) (content xs ys : Bytes) (n : ℕ) :
    loss.write (content ++ xs).length (ys.take n) (content ++ xs)
        (pieces loss content (xs ++ ys) xs.length) ⊆
      pieces loss content (xs ++ ys) (xs.length + min n ys.length) := by
  have hboth : (xs ++ ys).take (xs.length + min n ys.length) = xs ++ ys.take n := by
    rw [List.take_length_add_append, ← List.take_eq_take_min]
  cases loss with
  | fromEnd =>
    refine Set.union_subset (pieces_mono _ _ _ (Nat.le_add_right _ _)) ?_
    rintro _ ⟨k, rfl⟩
    refine .inr ⟨xs.length + k, ?_⟩
    dsimp only
    rw [hboth, overwrite_end, overwrite_end, List.take_length_add_append, List.append_assoc]
  | anywhere =>
    rintro kept ⟨before, hbefore, hkept⟩
    rw [mem_pieces_anywhere, List.take_left] at hbefore
    rw [mem_pieces_anywhere, hboth]
    exact Loss.torn_append hbefore hkept

theorem exists_tail_of_mem_pieces
    (h : kept ∈ pieces loss content bytes n) :
    ∃ tail, tail.length ≤ n ∧ kept = content ++ tail := by
  cases loss with
  | fromEnd =>
    rcases h with rfl | ⟨k, rfl⟩
    · exact ⟨[], Nat.zero_le n, (List.append_nil kept).symm⟩
    · refine ⟨(bytes.take n).take k, ?_, overwrite_end _ _⟩
      rw [List.length_take, List.length_take]
      omega
  | anywhere =>
    obtain ⟨hlow, hhigh, hbytes⟩ := mem_pieces_anywhere.mp h
    rw [List.length_take] at hhigh
    have hsame : kept.take content.length = content := by
      refine List.ext_getElem? fun i => ?_
      rw [List.getElem?_take]
      split
      · rename_i hi
        rcases hbytes i kept[i] (List.getElem?_eq_getElem (by omega)) with hold | ⟨hpos, -⟩
        · rw [List.getElem?_eq_getElem (by omega), hold, List.getElem?_eq_getElem hi,
            List.getD_eq_getElem _ _ hi]
        · omega
      · rw [List.getElem?_eq_none (by omega)]
    refine ⟨kept.drop content.length, by rw [List.length_drop]; omega, ?_⟩
    conv_lhs => rw [← List.take_append_drop content.length kept, hsame]

theorem exists_prefix_of_mem_pieces
    (h : kept ∈ pieces .fromEnd content bytes n) :
    ∃ cut, cut <+: bytes ∧ cut.length ≤ n ∧ kept = content ++ cut := by
  rcases h with rfl | ⟨k, rfl⟩
  · exact ⟨[], List.nil_prefix, Nat.zero_le n, (List.append_nil kept).symm⟩
  · refine ⟨(bytes.take n).take k, ?_, ?_, overwrite_end _ _⟩
    · exact (List.take_prefix _ _).trans (List.take_prefix _ _)
    · rw [List.length_take, List.length_take]
      omega

/-- What the medium may hold when `bytes` behind `content` have been on it and are cut off. -/
def cuts (content bytes : Bytes) : Set Bytes :=
  { kept | ∃ cut, cut <+: bytes ∧ kept = content ++ cut }

theorem mem_cuts_self (content bytes : Bytes) : content ∈ cuts content bytes :=
  ⟨[], List.nil_prefix, (List.append_nil content).symm⟩

theorem append_mem_cuts {cut : Bytes} (h : cut <+: bytes) :
    content ++ cut ∈ cuts content bytes := ⟨cut, h, rfl⟩

theorem setLen_subset_cuts (loss : Loss) (content bytes : Bytes) :
    loss.setLen content.length (content ++ bytes) {content ++ bytes} ⊆ cuts content bytes := by
  cases loss with
  | fromEnd =>
    rintro kept (rfl | rfl)
    · rw [resize_append]
      exact mem_cuts_self content bytes
    · exact append_mem_cuts List.prefix_rfl
  | anywhere =>
    rintro kept ⟨before, hbefore, n, hlow, hhigh, rfl⟩
    rw [Set.mem_singleton_iff.mp hbefore, List.length_append] at hlow hhigh
    rw [Set.mem_singleton_iff.mp hbefore]
    obtain ⟨k, rfl⟩ := Nat.exists_eq_add_of_le (show content.length ≤ n by omega)
    refine ⟨bytes.take k, List.take_prefix _ _, ?_⟩
    have hk : k ≤ bytes.length := by omega
    simp [resize, List.take_length_add_append, hk]

theorem cuts_subset_pieces (loss : Loss) (content bytes : Bytes) :
    cuts content bytes ⊆ pieces loss content bytes bytes.length := by
  rintro _ ⟨cut, hcut, rfl⟩
  rw [List.prefix_iff_eq_take.mp hcut]
  have hpart := append_mem_pieces loss content (bytes.take cut.length)
  rw [pieces, List.take_length] at hpart
  rw [pieces, List.take_length]
  exact Loss.write_take_subset hpart

end Pieces

namespace Disk

/-- On the medium the entry of this path is the present one, or is missing. -/
def Loose (d : Disk P) (p : P) : Prop := ∀ names ∈ d.entries, names p = none ∨ names p = d.names p

/-- On the medium the entry of this path may be missing. -/
def MayMiss (d : Disk P) (p : P) : Prop := ∃ names ∈ d.entries, names p = none

/-- What the medium may hold of the data under this path is among these. -/
def Keeps (d : Disk P) (p : P) (S : Set Bytes) : Prop := ∀ i, d.names p = some i → d.contents i ⊆ S

variable {d : Disk P} {p : P} {S S' : Set Bytes} {content : Bytes} {files : Files P}

theorem Anchored.loose (h : d.Anchored p) : d.Loose p := fun names hnames => .inr (h names hnames)

theorem Keeps.mono (h : d.Keeps p S) (hS : S ⊆ S') : d.Keeps p S' := fun i hi => (h i hi).trans hS

theorem data_of_view (hview : d.view p = some content) {i : Inode P} (hi : d.names p = some i) :
    d.data i = content := by
  rw [view, hi, Option.map_some] at hview
  exact Option.some.inj hview

theorem Synced.keeps (h : d.Synced p) (hview : d.view p = some content) : d.Keeps p {content} := by
  intro i hi
  rw [h i hi, data_of_view hview hi]

theorem Keeps.mem (h : d.Keeps p S) (hd : d.WellFormed) (hview : d.view p = some content) :
    content ∈ S := by
  obtain ⟨i, hi, hdata⟩ := Option.map_eq_some_iff.mp hview
  rw [← hdata]
  exact h i hi (hd.data_mem i)

theorem Keeps.synced (h : d.Keeps p {content}) (hd : d.WellFormed) : d.Synced p := by
  intro i hi
  have hdata : d.data i = content := Set.mem_singleton_iff.mp (h i hi (hd.data_mem i))
  refine Set.Subset.antisymm ?_ (Set.singleton_subset_iff.mpr (hd.data_mem i))
  rw [hdata]
  exact h i hi

/-- After a loss of power a loose file is missing, which it is not once its name is anchored, or
it holds what was kept of it. -/
theorem Loose.outcome (h : d.Loose p) (hkeeps : d.Keeps p S) (hp : d.names p ≠ none)
    (hfiles : files ∈ d.outcomes) :
    (files p = none ∧ ¬ d.Anchored p) ∨ ∃ c ∈ S, files p = some c := by
  obtain ⟨names, hnames, data, hdata, rfl⟩ := hfiles
  obtain ⟨i, hi⟩ := Option.ne_none_iff_exists'.mp hp
  dsimp only
  obtain hnone | hsame := h names hnames
  · refine .inl ⟨by rw [hnone, Option.map_none], fun hanchored => ?_⟩
    rw [hanchored names hnames, hi] at hnone
    cases hnone
  · refine .inr ⟨data i, hkeeps i hi (hdata i), ?_⟩
    rw [hsame, hi, Option.map_some]

theorem MayMiss.outcome (h : d.MayMiss p) (hd : d.WellFormed) :
    ∃ files ∈ d.outcomes, files p = none := by
  obtain ⟨names, hnames, hnone⟩ := h
  exact ⟨_, ⟨names, hnames, d.data, hd.data_mem, rfl⟩, by rw [hnone, Option.map_none]⟩

variable [DecidableEq P] {dir : P → P} {loss : Loss} {e : Event P}

theorem names_entries_apply (d : Disk P) (dir : P → P) (loss : Loss) (he : e.WorksOn p) :
    (d.apply dir loss e).names = d.names ∧ (d.apply dir loss e).entries = d.entries := by
  cases e with
  | write | setLen =>
    rw [Disk.apply, Disk.rewrite]
    split <;> exact ⟨rfl, rfl⟩
  | sync =>
    rw [Disk.apply, Disk.flush]
    split <;> exact ⟨rfl, rfl⟩
  | create | remove | rename | syncDir => exact he.elim

theorem Keeps.rewrite (h : d.Keeps p S) (hview : d.view p = some content) (final : Bytes → Bytes)
    {stages : Bytes → Set Bytes → Set Bytes}
    (hstages : ∀ held, held ⊆ S → stages content held ⊆ S') :
    (d.rewrite p final stages).Keeps p S' := by
  obtain ⟨i, hi, -⟩ := Option.map_eq_some_iff.mp hview
  intro j hj
  unfold Disk.rewrite at hj ⊢
  rw [hi] at hj ⊢
  dsimp only at hj ⊢
  rw [hi] at hj
  cases hj
  rw [Function.update_self, data_of_view hview hi]
  exact hstages _ (h i hi)

theorem Keeps.write (h : d.Keeps p S) (hview : d.view p = some content) (pos : ℕ)
    (bytes : Bytes) :
    (d.apply dir loss (.write p pos bytes)).Keeps p (loss.write pos bytes content S) :=
  h.rewrite hview _ fun _ => Loss.write_mono

theorem Keeps.setLen (h : d.Keeps p S) (hview : d.view p = some content) (len : ℕ) :
    (d.apply dir loss (.setLen p len)).Keeps p (loss.setLen len content S) :=
  h.rewrite hview _ fun _ => Loss.setLen_mono

theorem keeps_sync (hview : d.view p = some content) :
    (d.apply dir loss (.sync p)).Keeps p {content} := by
  refine (synced_flush d p).keeps ?_
  rw [← hview]
  unfold Disk.flush
  split <;> rfl

theorem Keeps.apply (h : d.Keeps p S) (hd : d.WellFormed) (he : ¬ e.Touches p) :
    (d.apply dir loss e).Keeps p S := by
  intro i hi
  rw [names_apply fun hrelinks => he hrelinks.touches] at hi
  obtain ⟨-, hcontents | hcontents⟩ := contents_apply dir loss hd he hi
  · rw [hcontents]
    exact h i hi
  · rw [hcontents, Set.singleton_subset_iff]
    exact h i hi (hd.data_mem i)

theorem Anchored.create (dir : P → P) (loss : Loss) (h : d.Anchored p) (hnone : d.names p = none)
    (hd : d.WellFormed) :
    (d.apply dir loss (.create p)).Loose p ∧ (d.apply dir loss (.create p)).MayMiss p := by
  have hmissing (names : Names P) (hnames : names ∈ d.entries) : names p = none := by
    rw [h names hnames, hnone]
  refine ⟨?_, d.names, .inl hd.names_mem, hnone⟩
  rintro _ (hnames | ⟨names, -, rfl⟩)
  · exact .inl (hmissing _ hnames)
  · refine .inr (Eq.trans (Function.update_self _ _ _) ?_)
    exact (Function.update_self p _ d.names).symm

end Disk

section World

variable [DecidableEq P] {dir : P → P} {loss : Loss} {p : P} {S S' : Set Bytes}
  {w w' w'' : World P} {content : Bytes}

/-- The second world is the first after work on this file alone, of which the medium holds one of
`S`. -/
structure Works (dir : P → P) (loss : Loss) (p : P) (S : Set Bytes) (w w' : World P) : Prop where
  base : w'.base = w.base
  permits : w'.permits = w.permits
  history : ∃ events, w'.history = w.history ++ events ∧ ∀ e ∈ events, e.WorksOn p
  keeps : (w'.disk dir loss).Keeps p S

theorem Works.of_untouched (h : Untouched w w') (hkeeps : (w.disk dir loss).Keeps p S) :
    Works dir loss p S w w' where
  base := h.base
  permits := h.permits
  history := ⟨[], by rw [h.history, List.append_nil], fun _ he => absurd he List.not_mem_nil⟩
  keeps := by rwa [h.disk]

theorem Works.refl (h : (w.disk dir loss).Keeps p S) : Works dir loss p S w w :=
  .of_untouched (.refl w) h

theorem Works.next (h : Works dir loss p S w w') : Works dir loss p S w w'.next :=
  ⟨h.1, h.2, h.3, h.4⟩

theorem Works.withScript (h : Works dir loss p S w w') (script : List Verdict) :
    Works dir loss p S w (w'.withScript script) := ⟨h.1, h.2, h.3, h.4⟩

theorem Works.mono (h : Works dir loss p S w w') (hS : S ⊆ S') : Works dir loss p S' w w' :=
  ⟨h.1, h.2, h.3, h.4.mono hS⟩

theorem Works.emit (h : Works dir loss p S w w') {e : Event P} (he : e.WorksOn p)
    (hkeeps : ((w'.disk dir loss).apply dir loss e).Keeps p S') :
    Works dir loss p S' w (w'.emit e) := by
  obtain ⟨events, hhistory, hevents⟩ := h.history
  refine ⟨h.base, h.permits, ⟨events ++ [e], ?_, ?_⟩, by rwa [World.disk_emit]⟩
  · rw [World.emit, hhistory, List.append_assoc]
  · exact List.forall_mem_append.mpr ⟨hevents, List.forall_mem_singleton.mpr he⟩

theorem Works.within (h : Works dir loss p S w w') : Within (· = p) w w' := by
  obtain ⟨events, hhistory, hevents⟩ := h.history
  exact ⟨h.base, events, hhistory, fun e he q hq => (hevents e he).eq_of_touches hq⟩

/-- The directories are the same, also on the medium. -/
def SameDirectory (dir : P → P) (loss : Loss) (w w' : World P) : Prop :=
  (w'.disk dir loss).names = (w.disk dir loss).names ∧
    (w'.disk dir loss).entries = (w.disk dir loss).entries

theorem SameDirectory.anchored (h : SameDirectory dir loss w w')
    (hp : (w.disk dir loss).Anchored p) :
    (w'.disk dir loss).Anchored p := by
  rw [Disk.Anchored, h.1, h.2]
  exact hp

theorem SameDirectory.loose (h : SameDirectory dir loss w w') (hp : (w.disk dir loss).Loose p) :
    (w'.disk dir loss).Loose p := by
  rw [Disk.Loose, h.1, h.2]
  exact hp

theorem SameDirectory.mayMiss (h : SameDirectory dir loss w w') (hp : (w.disk dir loss).MayMiss p) :
    (w'.disk dir loss).MayMiss p := by
  rw [Disk.MayMiss, h.2]
  exact hp

theorem Works.directory (h : Works dir loss p S w w') : SameDirectory dir loss w w' := by
  obtain ⟨events, hhistory, hevents⟩ := h.history
  have hfold (d : Disk P) : (events.foldl (Disk.apply dir loss) d).names = d.names ∧
      (events.foldl (Disk.apply dir loss) d).entries = d.entries := by
    clear hhistory
    induction events generalizing d with
    | nil => exact ⟨rfl, rfl⟩
    | cons e events ih =>
      obtain ⟨he, hevents⟩ := List.forall_mem_cons.mp hevents
      obtain ⟨hnames, hentries⟩ := ih hevents (d.apply dir loss e)
      obtain ⟨hnames', hentries'⟩ := d.names_entries_apply dir loss he
      exact ⟨hnames.trans hnames', hentries.trans hentries'⟩
  have hdisk : w'.disk dir loss = events.foldl (Disk.apply dir loss) (w.disk dir loss) := by
    rw [World.disk, World.disk, h.base, hhistory, List.foldl_append]
  rw [SameDirectory, hdisk]
  exact hfold _

theorem Untouched.directory (h : Untouched w w') : SameDirectory dir loss w w' := by
  rw [SameDirectory, h.disk]
  exact ⟨rfl, rfl⟩

section Within

variable {T : P → Prop} (h : Within T w w') (hp : ¬ T p)

include h hp

theorem Within.keeps (hw : (w.disk dir loss).Keeps p S) : (w'.disk dir loss).Keeps p S :=
  h.disk_induct hp (·.Keeps p S) (fun _ _ hd he hkeeps => hkeeps.apply hd he) hw

theorem Within.anchored (hw : (w.disk dir loss).Anchored p) : (w'.disk dir loss).Anchored p :=
  h.disk_induct hp (·.Anchored p)
    (fun _ _ _ he hanchored => hanchored.apply fun hrelinks => he hrelinks.touches) hw

theorem Within.names : (w'.disk dir loss).names p = (w.disk dir loss).names p :=
  h.disk_induct hp (·.names p = (w.disk dir loss).names p)
    (fun _ _ _ he hnames => (Disk.names_apply fun hrelinks => he hrelinks.touches).trans hnames) rfl

end Within

/-- After a loss of power these are the files of the machine. -/
def World.restarted (w : World P) (files : Files P) : World P :=
  { w with base := files, history := [] }

@[simp] theorem World.files_restarted (w : World P) (files : Files P) :
    (w.restarted files).files = files := rfl

end World

end FileSystem
