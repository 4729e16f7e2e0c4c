import IqdbPersist.CheckedParser
import Mathlib.Algebra.GroupWithZero.Nat
import Mathlib.Data.List.Flatten
import Mathlib.Data.List.Perm.Subperm

/-!
# Hostile bytes

No bytes make a parser panic or run on, and no length or count in them makes what is parsed larger
than they are: a record takes no more room when it is written again than it took where it was read,
however its metadata was spelled.
-/

namespace IqdbPersist

open CrashLogic ByteReader LittleEndian CheckedOps FramedLog

variable {ε M I : Type}

theorem length_flatMap_of_subperm {α : Type} {as as' : List α} (h : as.Subperm as')
    (f : α → Bytes) : (as.flatMap f).length ≤ (as'.flatMap f).length := by
  obtain ⟨as₀, hperm, hsub⟩ := h
  rw [← (hperm.flatMap_right f).length_eq]
  exact (hsub.flatMap f).length_le

theorem length_flatMap_congr {α : Type} {f g : α → Bytes} {as : List α}
    (h : ∀ a ∈ as, (f a).length = (g a).length) :
    (as.flatMap f).length = (as.flatMap g).length := by
  rw [List.length_flatMap, List.length_flatMap, List.map_congr_left h]

/-- The map counts its entries, and one that is built from entries has no others. -/
structure MetadataOps.Gathers (md : MetadataOps M) : Prop where
  len_eq : ∀ m, md.len m = (md.iter m).length
  iter_collect : ∀ entries, (md.iter (md.collect entries)).Subperm entries

section Size

variable {b : Build M} (hmd : b.metadata.Gathers)

include hmd

theorem recordBody_of_spelling {sp : RecordSpelling} (h : sp.Fits) :
    RecordFits b.metadata (sp.record b.metadata) ∧
      (recordBody b.metadata (sp.record b.metadata)).length ≤ sp.bytes.length := by
  cases sp with
  | delete id => exact ⟨trivial, Nat.le_refl _⟩
  | insert id vector metadata =>
    obtain ⟨hvector, hmetadata⟩ := h
    cases metadata with
    | absent flag => exact ⟨⟨hvector, by simp [MetadataSpelling.metadata]⟩, by
        simp [RecordSpelling.record, MetadataSpelling.metadata, recordBody, RecordSpelling.bytes,
          MetadataSpelling.bytes]⟩
    | present entries =>
      obtain ⟨hcount, hentries⟩ := hmetadata
      have hsub := hmd.iter_collect (entries.map EntrySpelling.entry)
      have hlen := hsub.length_le
      rw [← hmd.len_eq, List.length_map] at hlen
      have hsize := (length_flatMap_of_subperm hsub entryBody)
      rw [List.flatMap_map, ← length_flatMap_congr fun e _ => EntrySpelling.length_bytes e] at hsize
      refine ⟨⟨hvector, ?_⟩, ?_⟩
      · rintro m ⟨⟩
        refine ⟨Nat.lt_of_le_of_lt hlen hcount, fun entry hentry => ?_⟩
        obtain ⟨e, he, rfl⟩ := List.mem_map.mp (hsub.subset hentry)
        exact e.fits_entry.mpr (hentries e he)
      · simp only [RecordSpelling.record, MetadataSpelling.metadata, recordBody, metadataBody,
          RecordSpelling.bytes, MetadataSpelling.bytes, List.length_cons, List.length_append,
          length_encode]
        omega

theorem length_of_decodeBodies {bodies : List Bytes} {rs : List (WalRecord M)}
    (hlimit : ∀ body ∈ bodies, body.length ≤ maxRecordLen)
    (h : decodeBodies (ε := ε) b bodies = .ok rs) :
    (∀ r ∈ rs, RecordFits b.metadata r) ∧
      (rs.map fun r => 8 + (recordBody b.metadata r).length).sum ≤
        (frames (logFormat b) bodies).length := by
  replace h := (decodeBodies_eq_ok_iff b).mp h
  induction h with
  | nil => exact ⟨List.forall_mem_nil _, Nat.le_refl 0⟩
  | @cons body r bodies rs hdecode _ ih =>
    obtain ⟨hbody, hbodies⟩ := List.forall_mem_cons.mp hlimit
    have hhost : body.length ≤ b.host.usizeMax :=
      Nat.le_trans hbody (Nat.le_trans (by decide) b.host.usizeMax_ge)
    obtain ⟨sp, tail, hsp, rfl, rfl⟩ := (decodeRecord_eq_ok_iff hhost).mp hdecode
    obtain ⟨hfits, hsize⟩ := recordBody_of_spelling hmd hsp
    obtain ⟨hfits', hsize'⟩ := ih hbodies
    refine ⟨List.forall_mem_cons.mpr ⟨hfits, hfits'⟩, ?_⟩
    rw [List.map_cons, List.sum_cons, frames_cons, List.length_append, length_frame,
      List.length_append]
    omega

theorem length_of_parseRecords {bytes : Bytes} {rs : List (WalRecord M)} (h12 : 12 ≤ bytes.length)
    (h : parseRecords b bytes = (.ok rs : Except (PersistError ε) _)) :
    (∀ r ∈ rs, RecordFits b.metadata r) ∧
      12 + (rs.map fun r => 8 + (recordBody b.metadata r).length).sum ≤ bytes.length := by
  obtain ⟨rest, rfl⟩ := walHeader_prefix_of_parseRecords b h h12
  rw [parseRecords_walHeader] at h
  have hframes := (frames_scan_isPrefix (logFormat b) rest).length_le
  obtain ⟨hfits, hsize⟩ := length_of_decodeBodies hmd
    (fun body hbody => length_le_of_mem_scan (logFormat b) hbody) h
  rw [List.length_append, length_walHeader]
  exact ⟨hfits, by omega⟩

/-- Whatever the bytes, the parsers return without a panic, and the records of a log take no more
bytes than the log has. -/
theorem parsers_in_bounds (T : IndexType ε M I) {bytes : Bytes}
    (hbytes : bytes.length ≤ b.host.usizeMax) :
    (∀ fuel, bytes.length < fuel →
        checkedParseRecords (ε := ε) b fuel bytes = reported (parseRecords b bytes)) ∧
      (∀ rs, 12 ≤ bytes.length → parseRecords b bytes = (.ok rs : Except (PersistError ε) _) →
        ∃ bodies, List.Forall₂ (fun r body => ∀ buf, encodeRecord b.metadata r buf =
            (.ok () body : EStateM.Result (PersistError ε) Bytes Unit)) rs bodies ∧
          12 + (bodies.map fun body => 8 + body.length).sum ≤ bytes.length) ∧
      checkedDecodeSnapshot b T bytes = reported (decodeSnapshot b T bytes) ∧
      ∀ h c, readHeader b.host ⟨bytes, 0⟩ =
          (.ok h c : EStateM.Result (PersistError ε) Cursor FileHeader) →
        c.pos = 41 + (utf8 h.indexType).length ∧ c.pos ≤ bytes.length := by
  refine ⟨fun fuel hfuel => checkedParseRecords_eq b hbytes hfuel, ?_,
    checkedDecodeSnapshot_eq b T bytes, ?_⟩
  · intro rs h12 hparse
    obtain ⟨hfits, hsize⟩ := length_of_parseRecords hmd h12 hparse
    refine ⟨rs.map (recordBody b.metadata), ?_, by rwa [List.map_map]⟩
    rw [List.forall₂_map_right_iff, List.forall₂_same]
    exact fun r hr buf => encodeRecord_eq_ok_iff.mpr ⟨hfits r hr, rfl⟩
  · intro h c hread
    obtain ⟨tag, -, hreads⟩ := ends_of_ok (ends_readHeader _ _) hread
    obtain ⟨hbytes, hpos⟩ := hreads.bytes_eq
    have hlen := congrArg List.length hbytes
    rw [List.length_append] at hlen
    rw [hpos]
    exact ⟨length_headerBytes h tag, by omega⟩

end Size

theorem entryList_gathers : entryList.Gathers := ⟨fun _ => rfl, fun _ => List.Subperm.refl _⟩

/-- A log whose only frame claims to have four gigabytes. -/
def hostileLog : Bytes := walHeader ++ [0xFF, 0xFF, 0xFF, 0xFF, 0, 0, 0, 0, 7]

theorem parsers_in_bounds_hostile :
    checkedParseRecords (ε := IdError) defaultBuild 22 hostileLog = .ok [] := by
  have hparse : parseRecords defaultBuild hostileLog = (.ok [] : Except (PersistError IdError) _) :=
    parseRecords_logOf_append entryList_lawful (loggable_nil defaultBuild)
      (front_of_oversized _ (by decide))
  rw [(parsers_in_bounds entryList_gathers idIndex (by decide)).1 22 (by decide), hparse]
  rfl

end IqdbPersist
