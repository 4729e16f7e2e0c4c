import IqdbPersist.DurableHistory
import IqdbPersist.DurableSession
import IqdbPersist.DurableSnapshot
import IqdbPersist.UncertainObject

/-!
# Losses of power in log mode

What the medium may hold for an index in log mode is one of some snapshots and one of some logs,
independently of each other: a snapshot whose writing failed after the rename may or may not be
there, and so may a record whose sync failed. Once a directory sync has followed the creation of the
log, the log itself is there. Unsynced data are taken to be lost from their end here, so that what
is left of a frame is a prefix of it.
-/

namespace IqdbPersist

open CrashLogic FileSystem LogState Simulation FramedLog
open Journal (Durable Repeatable Resumable Uncertain Leads)

variable {ε M I : Type} {b : Build M} {T : IndexType ε M I}

namespace PersistedIndex

variable {path : Path} {w w' : World Path} {bases bases' : Set I}
  {logs logs' : Set (List (WalRecord M))} {linked : Bool} {S : Set Bytes} {files : Files Path}

/-- The snapshot files that decode to one of these indexes. -/
def Snapshots (b : Build M) (T : IndexType ε M I) (bases : Set I) : Set (Option Bytes) :=
  { content | ∃ full, content = some full ∧ ∃ base ∈ bases, decodeSnapshot b T full = .ok base }

/-- The log files that are read as one of these lists of records. -/
def Logs (ε : Type) (b : Build M) (logs : Set (List (WalRecord M))) : Set Bytes :=
  { content | ∃ rs ∈ logs, parseRecords b content = (.ok rs : Except (PersistError ε) _) }

theorem snapshots_mono (h : bases ⊆ bases') : Snapshots b T bases ⊆ Snapshots b T bases' := by
  rintro content ⟨full, hcontent, base, hbase, hdecode⟩
  exact ⟨full, hcontent, base, h hbase, hdecode⟩

theorem logs_mono (h : logs ⊆ logs') : Logs ε b logs ⊆ Logs ε b logs' := by
  rintro content ⟨rs, hrs, hparses⟩
  exact ⟨rs, h hrs, hparses⟩

theorem written_subset (hT : Contract b T) {this : PersistedIndex I}
    (hinv : SnapshotInverts b T this.config this.inner) :
    Written b T (this.inner, this.config) ⊆ Snapshots b T {this.inner} := by
  rintro content ⟨full, hfull, rfl⟩
  exact ⟨full, rfl, this.inner, rfl, decodeSnapshot_of_inverts hT hinv hfull⟩

/-- What is left of a reset is read as one of the logs before it, or as an empty one. -/
theorem reset_subset {content : Bytes} (hS : S ⊆ Logs ε b logs) :
    Loss.write 0 walHeader [] (Loss.setLen 0 content S .fromEnd) .fromEnd ⊆
      Logs ε b (Insert.insert [] logs) := by
  have hempty (n : ℕ) : walHeader.take n ∈ Logs ε b (Insert.insert [] logs) :=
    ⟨[], .inl rfl, parseRecords_take_walHeader b n⟩
  rintro c ((rfl | hc) | ⟨k, rfl⟩)
  · rw [resize_zero]
    exact hempty 0
  · exact logs_mono (Set.subset_insert _ _) (hS hc)
  · have hwrite : overwrite [] 0 (walHeader.take k) = walHeader.take k := overwrite_end [] _
    dsimp only
    rw [hwrite]
    exact hempty k

theorem frame_pieces_subset (hT : Contract b T) {rs : List (WalRecord M)}
    (hloggable : ∀ r ∈ rs, Loggable b r) {r : WalRecord M}
    (hshort : (recordBody b.metadata r).length ≤ maxRecordLen) {n : ℕ}
    (happ : 0 < n → Appendable b r) :
    pieces .fromEnd (logOf b rs) (frameOf b r) n ⊆ Logs ε b {rs, rs ++ [r]} := by
  intro content hcontent
  obtain ⟨cut, hcut, hn, rfl⟩ := exists_prefix_of_mem_pieces hcontent
  by_cases hlength : cut.length < (frameOf b r).length
  · refine ⟨rs, .inl rfl, parseRecords_logOf_append hT.metadata hloggable ?_⟩
    rw [List.prefix_iff_eq_take.mp hcut]
    exact front_take_frameOf (fun hpos => happ (Nat.lt_of_lt_of_le hpos hn)) hlength
  · have hwhole : cut = frameOf b r := hcut.eq_of_length_le (Nat.le_of_not_lt hlength)
    subst hwhole
    have hpos : 0 < n := by
      refine Nat.lt_of_lt_of_le ?_ hn
      rw [frameOf, length_frame]
      omega
    have hsnoc : ∀ r' ∈ rs ++ [r], Loggable b r' := List.forall_mem_append.mpr
      ⟨hloggable, List.forall_mem_singleton.mpr ⟨(happ hpos).1, hshort⟩⟩
    refine ⟨rs ++ [r], .inr rfl, ?_⟩
    rw [frameOf, ← logOf_snoc]
    exact parseRecords_logOf hT.metadata hsnoc

/-- What the medium may hold for the index at this path. -/
structure OnMedium (b : Build M) (T : IndexType ε M I) (path : Path) (w : World Path)
    (linked : Bool) (bases : Set I) (logs : Set (List (WalRecord M))) : Prop where
  offers : (w.disk targetDir .fromEnd).Offers path (Snapshots b T bases)
  keeps : (w.disk targetDir .fromEnd).Keeps (walPath path) (Logs ε b logs)
  named : (w.disk targetDir .fromEnd).names (walPath path) ≠ none
  anchored : linked = true → (w.disk targetDir .fromEnd).Anchored (walPath path)

theorem OnMedium.of_untouched (h : OnMedium b T path w linked bases logs)
    (huntouched : Untouched w w') : OnMedium b T path w' linked bases logs := by
  have hdisk : w'.disk targetDir .fromEnd = w.disk targetDir .fromEnd := huntouched.disk
  refine ⟨?_, ?_, ?_, ?_⟩
  · rw [hdisk]
    exact h.offers
  · rw [hdisk]
    exact h.keeps
  · rw [hdisk]
    exact h.named
  · rw [hdisk]
    exact h.anchored

theorem OnMedium.logged (h : OnMedium b T path w linked bases logs)
    (hworks : Works targetDir .fromEnd (walPath path) S w w') (hS : S ⊆ Logs ε b logs') :
    OnMedium b T path w' linked bases logs' where
  offers := hworks.within.offers (walPath_ne path).symm h.offers
  keeps := hworks.keeps.mono hS
  named := by
    rw [hworks.directory.1]
    exact h.named
  anchored hlinked := hworks.directory.anchored (h.anchored hlinked)

theorem OnMedium.rebased (h : OnMedium b T path w linked bases logs)
    (hwithin : Within (· ≠ walPath path) w w')
    (hoffers : (w'.disk targetDir .fromEnd).Offers path (Snapshots b T bases')) :
    OnMedium b T path w' linked bases' logs where
  offers := hoffers
  keeps := hwithin.keeps (not_not.mpr rfl) h.keeps
  named := by
    rw [hwithin.names (not_not.mpr rfl)]
    exact h.named
  anchored hlinked := hwithin.anchored (not_not.mpr rfl) (h.anchored hlinked)

theorem OnMedium.link (h : OnMedium b T path w linked bases logs)
    (hanchored : (w.disk targetDir .fromEnd).Anchored (walPath path)) :
    OnMedium b T path w true bases logs := ⟨h.offers, h.keeps, h.named, fun _ => hanchored⟩

/-- Files with one of the snapshots and one of the logs. -/
structure Stocked (b : Build M) (T : IndexType ε M I) (path : Path) (files : Files Path)
    (base : I) (rs : List (WalRecord M)) : Prop where
  snapshot : ∃ full, files path = some full ∧ decodeSnapshot b T full = .ok base
  log : ∃ content, files (walPath path) = some content ∧
    parseRecords b content = (.ok rs : Except (PersistError ε) _)

theorem stocked_of_mem {content : Bytes} (hsnapshot : files path ∈ Snapshots b T bases)
    (hlog : files (walPath path) = some content) (hcontent : content ∈ Logs ε b logs) :
    ∃ base ∈ bases, ∃ rs ∈ logs, Stocked b T path files base rs := by
  obtain ⟨full, hfull, base, hbase, hdecode⟩ := hsnapshot
  obtain ⟨rs, hrs, hparses⟩ := hcontent
  exact ⟨base, hbase, rs, hrs, ⟨full, hfull, hdecode⟩, content, hlog, hparses⟩

theorem OnMedium.view (h : OnMedium b T path w linked bases logs) :
    ∃ content, (w.disk targetDir .fromEnd).view (walPath path) = some content := by
  obtain ⟨i, hi⟩ := Option.ne_none_iff_exists'.mp h.named
  exact ⟨_, by rw [Disk.view, hi, Option.map_some]⟩

theorem OnMedium.stocked (h : OnMedium b T path w linked bases logs) :
    ∃ base ∈ bases, ∃ rs ∈ logs, Stocked b T path w.files base rs := by
  obtain ⟨content, hview⟩ := h.view
  refine stocked_of_mem (h.offers.outcome (w.files_mem_outcomes _ _)) ?_
    (h.keeps.mem (w.wellFormed_disk _ _) hview)
  rw [← w.view_disk targetDir .fromEnd]
  exact hview

/-- Once the name of the log is on the medium, a loss of power leaves one of the snapshots and one
of the logs. -/
theorem OnMedium.outcome (h : OnMedium b T path w true bases logs)
    (hfiles : files ∈ w.outcomes targetDir .fromEnd) :
    files path ∈ Snapshots b T bases ∧
      ∃ content, files (walPath path) = some content ∧
        ∀ S, (w.disk targetDir .fromEnd).Keeps (walPath path) S → content ∈ S := by
  refine ⟨h.offers.outcome hfiles, ?_⟩
  have hanchored := h.anchored rfl
  obtain ⟨i, hi⟩ := Option.ne_none_iff_exists'.mp h.named
  obtain ⟨names, hnames, data, hdata, rfl⟩ := hfiles
  refine ⟨data i, ?_, fun S hS => hS i hi (hdata i)⟩
  dsimp only
  rw [hanchored names hnames, hi, Option.map_some]

theorem keeps_restarted {content : Bytes} (hlog : files (walPath path) = some content) :
    ((w.restarted files).disk targetDir .fromEnd).Keeps (walPath path) {content} := by
  refine (World.durable_of_history rfl _).synced.keeps ?_
  rw [World.view_disk]
  exact hlog

theorem OnMedium.restarted (h : OnMedium b T path w true bases logs)
    (hfiles : files ∈ w.outcomes targetDir .fromEnd) :
    OnMedium b T path (w.restarted files) true bases logs := by
  obtain ⟨hsnapshot, content, hlog, hmem⟩ := h.outcome hfiles
  refine ⟨?_, ?_, ?_, fun _ => (World.durable_of_history rfl _).anchored⟩
  · refine (offers_of_history rfl path).mono ?_
    rw [World.files_restarted, Set.singleton_subset_iff]
    exact hsnapshot
  · exact (keeps_restarted hlog).mono (Set.singleton_subset_iff.mpr (hmem _ h.keeps))
  · intro hnone
    have hview := congrFun ((w.restarted files).view_disk targetDir .fromEnd) (walPath path)
    rw [Disk.view, hnone, World.files_restarted, hlog] at hview
    cases hview

theorem Stocked.recovers (hT : Contract b T) {base x : I} {rs : List (WalRecord M)}
    (h : Stocked b T path w.files base rs) (hreplay : Journal.replay T.change rs base = some x)
    {config : PersistConfig} (hpath : config.path = path) (hwal : config.walEnabled = true)
    (hvalid : validateConfig b config = (.ok () : Except (PersistError ε) Unit)) :
    Recovers b T config w x := by
  subst hpath
  obtain ⟨⟨full, hfull, hdecode⟩, content, hlog, hparses⟩ := h
  rw [recovers_iff hT.checksDim hvalid hwal hfull hlog]
  exact (stands_iff hdecode hparses _).mpr hreplay

end PersistedIndex

end IqdbPersist
