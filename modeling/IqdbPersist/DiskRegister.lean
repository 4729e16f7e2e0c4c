import IqdbPersist.UnsyncedFile

/-!
# What may be found under a path

A path that is only ever replaced by the rename of a synced file is a register on the medium: after
a loss of power it holds one of the contents it was given, whole. It holds the last one for certain
once that is anchored.
-/

namespace FileSystem

variable {P : Type}

namespace Disk

/-- After a loss of power this path holds one of `C`, where `none` stands for no file; and the files
that may be found under it have no other name. -/
structure Offers (d : Disk P) (p : P) (C : Set (Option Bytes)) : Prop where
  missing : ∀ names ∈ d.entries, names p = none → none ∈ C
  found : ∀ names ∈ d.entries, ∀ i, names p = some i → ∀ c ∈ d.contents i, some c ∈ C
  apart : ∀ names ∈ d.entries, ∀ i, names p = some i → ∀ q, d.names q = some i → q = p
  counted : ∀ names ∈ d.entries, ∀ n, d.count ≤ n → names p ≠ some (.created n)

variable {d d' : Disk P} {p : P} {C C' : Set (Option Bytes)} {content : Bytes}

theorem Offers.outcome (h : d.Offers p C) {files : Files P} (hfiles : files ∈ d.outcomes) :
    files p ∈ C := by
  obtain ⟨names, hnames, data, hdata, rfl⟩ := hfiles
  dsimp only
  cases hi : names p with
  | none =>
    rw [Option.map_none]
    exact h.missing names hnames hi
  | some i =>
    rw [Option.map_some]
    exact h.found names hnames i hi _ (hdata i)

theorem Offers.mono (h : d.Offers p C) (hC : C ⊆ C') : d.Offers p C' where
  missing names hnames hp := hC (h.missing names hnames hp)
  found names hnames i hi c hc := hC (h.found names hnames i hi c hc)
  apart := h.apart
  counted := h.counted

theorem offers_start (files : Files P) (p : P) : (start files).Offers p {files p} where
  missing := by
    rintro _ rfl hp
    exact (Option.map_eq_none_iff.mp hp).symm
  found := by
    rintro _ rfl i hi c hc
    obtain ⟨content, hcontent, rfl⟩ := Option.map_eq_some_iff.mp hi
    have hc : c = (files p).getD [] := hc
    rw [hc, hcontent]
    rfl
  apart := by
    rintro _ rfl i hi q hq
    obtain ⟨_, -, rfl⟩ := Option.map_eq_some_iff.mp hi
    obtain ⟨_, -, hi⟩ := Option.map_eq_some_iff.mp hq
    exact Inode.initial.inj hi
  counted := by
    rintro _ rfl n - hp
    obtain ⟨_, -, hi⟩ := Option.map_eq_some_iff.mp hp
    cases hi

/-- The offer stands when the path is named as before, by files that hold no more than before and
have got no other name. -/
theorem Offers.keep (h : d.Offers p C)
    (hentries : ∀ names' ∈ d'.entries, ∃ names ∈ d.entries, names' p = names p)
    (hcontents : ∀ names ∈ d.entries, ∀ i, names p = some i → d'.contents i ⊆ d.contents i)
    (hnames : ∀ names ∈ d.entries, ∀ i, names p = some i → ∀ q, q ≠ p → d'.names q = some i →
      ∃ r, r ≠ p ∧ d.names r = some i)
    (hcount : d.count ≤ d'.count) : d'.Offers p C where
  missing names' hnames' hp := by
    obtain ⟨names, hmem, heq⟩ := hentries names' hnames'
    exact h.missing names hmem (heq ▸ hp)
  found names' hnames' i hi c hc := by
    obtain ⟨names, hmem, heq⟩ := hentries names' hnames'
    rw [heq] at hi
    exact h.found names hmem i hi c (hcontents names hmem i hi hc)
  apart names' hnames' i hi q hq := by
    obtain ⟨names, hmem, heq⟩ := hentries names' hnames'
    rw [heq] at hi
    by_contra hne
    obtain ⟨r, hr, hri⟩ := hnames names hmem i hi q hne hq
    exact hr (h.apart names hmem i hi r hri)
  counted names' hnames' n hn := by
    obtain ⟨names, hmem, heq⟩ := hentries names' hnames'
    rw [heq]
    exact h.counted names hmem n (hcount.trans hn)

theorem Offers.relink (h : d.Offers p C) {change : Names P → Names P}
    (hchange : ∀ names, change names p = names p)
    (hnames : ∀ q i, change d.names q = some i → q ≠ p →
      (∃ r, r ≠ p ∧ d.names r = some i)) : (d.relink change).Offers p C := by
  refine h.keep ?_ (fun _ _ _ _ => subset_rfl) ?_ (Nat.le_refl _)
  · rintro names' (hmem | ⟨names, hmem, rfl⟩)
    · exact ⟨names', hmem, rfl⟩
    · exact ⟨names, hmem, hchange names⟩
  · exact fun _ _ i _ q hq hqi => hnames q i hqi hq

theorem Offers.settle (h : d.Offers p C) (hanchored : d.Anchored p) (hsynced : d.Synced p)
    (hview : d.view p = some content) : d.Offers p {some content} where
  missing names hnames hp := by
    rw [hanchored names hnames] at hp
    rw [view, hp] at hview
    cases hview
  found names hnames i hi c hc := by
    rw [hanchored names hnames] at hi
    rw [hsynced i hi, Set.mem_singleton_iff] at hc
    rw [view, hi, Option.map_some] at hview
    rw [Set.mem_singleton_iff, hc, hview]
  apart := h.apart
  counted := h.counted

variable [DecidableEq P] {dir : P → P} {loss : Loss} {e : Event P}

theorem Offers.rewrite (h : d.Offers p C) {path : P} (hpath : p ≠ path) (final : Bytes → Bytes)
    (stages : Bytes → Set Bytes → Set Bytes) : (d.rewrite path final stages).Offers p C := by
  unfold Disk.rewrite
  split
  · exact h
  · rename_i j hj
    refine h.keep (fun names hnames => ⟨names, hnames, rfl⟩) ?_
      (fun _ _ _ _ q hq hqi => ⟨q, hq, hqi⟩) (Nat.le_refl _)
    intro names hnames i hi
    have hij : i ≠ j := by
      rintro rfl
      exact hpath (h.apart names hnames i hi path hj).symm
    change Function.update d.contents j _ i ⊆ _
    rw [Function.update_of_ne hij]

theorem Offers.flush (h : d.Offers p C) (hd : d.WellFormed) (path : P) :
    (d.flush path).Offers p C := by
  unfold Disk.flush
  split
  · exact h
  · rename_i j hj
    refine h.keep (fun names hnames => ⟨names, hnames, rfl⟩) ?_
      (fun _ _ _ _ q hq hqi => ⟨q, hq, hqi⟩) (Nat.le_refl _)
    intro names hnames i hi
    change Function.update d.contents j _ i ⊆ _
    by_cases hij : i = j
    · subst hij
      rw [Function.update_self]
      exact Set.singleton_subset_iff.mpr (hd.data_mem i)
    · rw [Function.update_of_ne hij]

theorem Offers.flushDir (h : d.Offers p C) (hd : d.WellFormed) (path : P) :
    (d.flushDir dir path).Offers p C := by
  refine h.keep ?_ (fun _ _ _ _ => subset_rfl) (fun _ _ _ _ q hq hqi => ⟨q, hq, hqi⟩)
    (Nat.le_refl _)
  rintro _ ⟨names, hnames, rfl⟩
  by_cases hdir : dir p = path
  · exact ⟨d.names, hd.names_mem, if_pos hdir⟩
  · exact ⟨names, hnames, if_neg hdir⟩

theorem Offers.link (h : d.Offers p C) {path : P} (hpath : p ≠ path) :
    (d.link path).Offers p C := by
  refine h.keep ?_ ?_ ?_ (Nat.le_succ _)
  · rintro names' (hmem | ⟨names, hmem, rfl⟩)
    · exact ⟨names', hmem, rfl⟩
    · exact ⟨names, hmem, Function.update_of_ne hpath _ _⟩
  · intro names hnames i hi
    have hne : i ≠ .created d.count := by
      rintro rfl
      exact h.counted names hnames _ (Nat.le_refl _) hi
    change Function.update d.contents _ _ i ⊆ _
    rw [Function.update_of_ne hne]
  · intro names hnames i hi q hq hqi
    change Function.update d.names path _ q = some i at hqi
    by_cases hqpath : q = path
    · subst hqpath
      rw [Function.update_self] at hqi
      cases hqi
      exact absurd hi (h.counted names hnames _ (Nat.le_refl _))
    · rw [Function.update_of_ne hqpath] at hqi
      exact ⟨q, hq, hqi⟩

theorem Offers.apply (h : d.Offers p C) (hd : d.WellFormed) (he : ¬ e.Touches p) :
    (d.apply dir loss e).Offers p C := by
  cases e with
  | create path => exact h.link he
  | write path | setLen path =>
    rw [Disk.apply]
    exact h.rewrite he _ _
  | sync path => exact h.flush hd path
  | syncDir path => exact h.flushDir hd path
  | remove path =>
    refine h.relink (fun _ => Function.update_of_ne he _ _) fun q i hqi hq => ⟨q, hq, ?_⟩
    rw [Function.update_apply] at hqi
    split at hqi
    · cases hqi
    · exact hqi
  | rename source target =>
    obtain ⟨hsource, htarget⟩ := not_or.mp he
    refine h.relink (fun _ => (Function.update_of_ne hsource _ _).trans
      (Function.update_of_ne htarget _ _)) fun q i hqi hq => ?_
    simp only [Function.update_apply] at hqi
    split at hqi
    · cases hqi
    · split at hqi
      · exact ⟨source, Ne.symm hsource, hqi⟩
      · exact ⟨q, hq, hqi⟩

theorem Offers.install (h : d.Offers p C) (hd : d.WellFormed) {source : P} (hne : source ≠ p)
    (hsynced : d.Synced source) (hview : d.view source = some content) :
    (d.apply dir loss (.rename source p)).Offers p (insert (some content) C) := by
  have hnew (names : Names P) : (fun names : Names P =>
      Function.update (Function.update names p (d.names source)) source none) names p =
        d.names source :=
    (Function.update_of_ne hne.symm _ _).trans (Function.update_self _ _ _)
  have hother {q : P} {i : Inode P} (hq : q ≠ p)
      (hqi : (d.apply dir loss (.rename source p)).names q = some i) :
      q ≠ source ∧ d.names q = some i := by
    change Function.update (Function.update d.names p (d.names source)) source none q = _ at hqi
    simp only [Function.update_apply, if_neg hq] at hqi
    split at hqi
    · cases hqi
    · rename_i hqsource
      exact ⟨hqsource, hqi⟩
  obtain ⟨j, hj, hdata⟩ := Option.map_eq_some_iff.mp hview
  constructor
  · rintro names' (hmem | ⟨names, hmem, rfl⟩) hp
    · exact .inr (h.missing names' hmem hp)
    · rw [hnew, hj] at hp
      cases hp
  · rintro names' (hmem | ⟨names, hmem, rfl⟩) i hi c hc
    · exact .inr (h.found names' hmem i hi c hc)
    · rw [hnew] at hi
      have hc : c ∈ d.contents i := hc
      rw [hsynced i hi, Set.mem_singleton_iff] at hc
      rw [hj] at hi
      cases hi
      exact .inl (by rw [hc, hdata])
  · rintro names' (hmem | ⟨names, hmem, rfl⟩) i hi q hq
    · by_contra hqp
      exact hqp (h.apart names' hmem i hi q (hother hqp hq).2)
    · rw [hnew] at hi
      by_contra hqp
      obtain ⟨hqsource, hqi⟩ := hother hqp hq
      exact hqsource (hd.names_inj q source i hqi hi)
  · rintro names' (hmem | ⟨names, hmem, rfl⟩) n hn
    · exact h.counted names' hmem n hn
    · rw [hnew]
      exact hd.unlinked source n hn

end Disk

section World

variable [DecidableEq P] {dir : P → P} {loss : Loss} {p : P} {C : Set (Option Bytes)}
  {S : P → Prop} {w w' : World P}

theorem Within.offers (h : Within S w w') (hp : ¬ S p) (hw : (w.disk dir loss).Offers p C) :
    (w'.disk dir loss).Offers p C :=
  h.disk_induct hp (·.Offers p C) (fun _ _ hd he hoffers => hoffers.apply hd he) hw

theorem offers_of_history (h : w.history = []) (p : P) :
    (w.disk dir loss).Offers p {w.files p} := by
  have hdisk : w.disk dir loss = Disk.start w.base := by rw [World.disk, h, List.foldl_nil]
  have hfiles : w.files = w.base := by rw [World.files, h, List.foldl_nil]
  rw [hdisk, hfiles]
  exact Disk.offers_start _ _

end World

end FileSystem
