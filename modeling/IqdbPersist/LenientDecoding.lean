import IqdbPersist.RecordRoundTrip

/-!
# Where the decoder is lenient

A body decodes to a record whose encoding is that body again exactly when it is nothing but a
canonical spelling: the metadata flag and the truth values are zero or one, the entries are those
that the map iterates, and no byte follows. The decoder makes none of these checks.
-/

namespace IqdbPersist

open CrashLogic ByteReader LittleEndian

variable {ε M : Type}

def ValueSpelling.Canonical : ValueSpelling → Prop
  | .bool byte => byte = 0 ∨ byte = 1
  | _ => True

/-- The flag is the encoder's, and the entries are distinct and in the order of the map. -/
def MetadataSpelling.Canonical (md : MetadataOps M) : MetadataSpelling → Prop
  | .absent flag => flag = 0
  | .present entries =>
      md.iter (md.collect (entries.map EntrySpelling.entry)) = entries.map EntrySpelling.entry ∧
        ∀ e ∈ entries, e.2.Canonical

def RecordSpelling.Canonical (md : MetadataOps M) : RecordSpelling → Prop
  | .insert _ _ metadata => metadata.Canonical md
  | .delete _ => True

/-- A body is read as the record that it encodes, or refused. -/
def DecodesExactly (ε : Type) (b : Build M) (body : Bytes) : Prop :=
  match (decodeRecord b body : Except (PersistError ε) (WalRecord M)) with
  | .ok r => ∀ buf, encodeRecord b.metadata r buf =
      (.ok () body : EStateM.Result (PersistError ε) Bytes Unit)
  | .error e => e.IsInvalidPayload

section Spellings

theorem valueBody_value_iff (v : ValueSpelling) : valueBody v.value = v.bytes ↔ v.Canonical := by
  cases v with
  | bool byte =>
    have hbyte : ∀ byte : UInt8,
        (if (byte != 0) = true then (1 : UInt8) else 0) = byte ↔ byte = 0 ∨ byte = 1 := by
      intro byte
      by_cases hzero : byte = 0
      · simp [hzero]
      · rw [if_pos (bne_iff_ne.mpr hzero), or_iff_right hzero]
        exact eq_comm
    simp only [ValueSpelling.value, valueBody, ValueSpelling.bytes, List.cons.injEq, true_and,
      and_true]
    exact hbyte byte
  | _ => exact iff_of_true rfl trivial

theorem entryBody_entry_iff (e : EntrySpelling) :
    entryBody e.entry = e.bytes ↔ e.2.Canonical := by
  rw [← valueBody_value_iff]
  exact List.append_right_inj _

theorem flatMap_eq_flatMap_iff {α : Type} {f g : α → Bytes} {as : List α}
    (hlen : ∀ a ∈ as, (f a).length = (g a).length) :
    as.flatMap f = as.flatMap g ↔ ∀ a ∈ as, f a = g a := by
  induction as with
  | nil => simp
  | cons a as ih =>
    obtain ⟨ha, has⟩ := List.forall_mem_cons.mp hlen
    rw [List.flatMap_cons, List.flatMap_cons, List.forall_mem_cons, ← ih has]
    exact ⟨fun h => List.append_inj h ha, fun h => by rw [h.1, h.2]⟩

variable {md : MetadataOps M} (hmd : md.Lawful)

include hmd

/-- A canonical spelling is the body of its record, and the encoder accepts the record. -/
theorem recordBody_of_canonical {sp : RecordSpelling} (hfits : sp.Fits)
    (h : sp.Canonical md) : RecordFits md (sp.record md) ∧
      recordBody md (sp.record md) = sp.bytes := by
  cases sp with
  | delete id => exact ⟨trivial, rfl⟩
  | insert id vector metadata =>
    obtain ⟨hvector, hmetadata⟩ := hfits
    cases metadata with
    | absent flag =>
      have hflag : flag = 0 := h
      subst hflag
      exact ⟨⟨hvector, by simp [MetadataSpelling.metadata]⟩, rfl⟩
    | present entries =>
      obtain ⟨hiter, hcanonical⟩ := h
      obtain ⟨hcount, hentries⟩ := hmetadata
      have hlen : md.len (md.collect (entries.map EntrySpelling.entry)) = entries.length := by
        rw [hmd.len_eq, hiter, List.length_map]
      refine ⟨⟨hvector, ?_⟩, ?_⟩
      · rintro m ⟨⟩
        refine ⟨by rw [hlen]; exact hcount, ?_⟩
        rw [hiter]
        exact List.forall_mem_map.mpr fun e he => e.fits_entry.mpr (hentries e he)
      · have hbytes : entries.flatMap (fun e => entryBody e.entry) =
            entries.flatMap EntrySpelling.bytes :=
          (flatMap_eq_flatMap_iff fun e _ => e.length_bytes.symm).mpr
            fun e he => (entryBody_entry_iff e).mpr (hcanonical e he)
        simp only [RecordSpelling.record, MetadataSpelling.metadata, recordBody, metadataBody,
          RecordSpelling.bytes, MetadataSpelling.bytes, hlen, hiter, List.flatMap_map, hbytes]

end Spellings

section Exactly

variable {b : Build M} (hmd : b.metadata.Lawful)

include hmd

theorem canonical_of_recordBody {sp : RecordSpelling} (hfits : sp.Fits)
    (hlen : sp.bytes.length ≤ b.host.usizeMax)
    (hrecord : RecordFits b.metadata (sp.record b.metadata))
    (h : recordBody b.metadata (sp.record b.metadata) = sp.bytes) : sp.Canonical b.metadata := by
  cases sp with
  | delete id => trivial
  | insert id vector metadata =>
    cases metadata with
    | absent flag =>
      simp only [RecordSpelling.record, MetadataSpelling.metadata, recordBody,
        RecordSpelling.bytes, MetadataSpelling.bytes, List.cons.injEq, List.append_cancel_left_eq,
        and_true, true_and] at h
      exact h.symm
    | present entries =>
      obtain ⟨-, hcount, hentries⟩ := hfits
      obtain ⟨hlt, hiterFits⟩ := hrecord.2 _ rfl
      simp only [RecordSpelling.bytes, MetadataSpelling.bytes, List.length_cons,
        List.length_append] at hlen
      simp only [RecordSpelling.record, MetadataSpelling.metadata, recordBody, metadataBody,
        RecordSpelling.bytes, MetadataSpelling.bytes, List.cons.injEq, List.append_cancel_left_eq,
        true_and] at h
      obtain ⟨hcounts, hpieces⟩ := List.append_inj h (by simp)
      have hsame : (b.metadata.iter (b.metadata.collect (entries.map EntrySpelling.entry))).length =
          entries.length := by
        rw [← hmd.len_eq, ← decode_encode_of_lt (k := 4) hlt, hcounts,
          decode_encode_of_lt (k := 4) hcount]
      have hread := consumes_entries (ε := Unit) b hiterFits
      have hread' : Consumes b.host.usizeMax _ _ _ :=
        Consumes.times fun e he => consumes_decodeEntry (ε := Unit) b (hentries e he)
      rw [hsame] at hread
      have hfits : (entries.flatMap EntrySpelling.bytes).length ≤ b.host.usizeMax := by omega
      obtain ⟨hiter, -, -⟩ := hread.unique hread' (hpieces ▸ hfits) hfits
        (congrArg (· ++ []) hpieces)
      refine ⟨hiter, fun e he => (entryBody_entry_iff e).mp ?_⟩
      rw [hiter, List.flatMap_map] at hpieces
      exact (flatMap_eq_flatMap_iff fun e _ => e.length_bytes.symm).mp hpieces e he

/-- A body is read as exactly what it encodes if it is nothing but a canonical spelling, or starts
with none. -/
theorem decodesExactly_iff {body : Bytes} (hlen : body.length ≤ b.host.usizeMax) :
    DecodesExactly ε b body ↔ ∀ (sp : RecordSpelling) (tail : Bytes), sp.Fits →
      body = sp.bytes ++ tail → tail = [] ∧ sp.Canonical b.metadata := by
  constructor
  · rintro hexact sp tail hsp rfl
    have hdecode := (decodeRecord_eq_ok_iff (ε := ε) hlen).mpr ⟨sp, tail, hsp, rfl, rfl⟩
    rw [DecodesExactly, hdecode] at hexact
    obtain ⟨hfits, hbody⟩ := encodeRecord_eq_ok_iff.mp (hexact [])
    have hle : sp.bytes.length ≤ b.host.usizeMax := by
      rw [List.length_append] at hlen
      omega
    obtain ⟨-, hbytes, htail⟩ :=
      (consumes_recordBody (ε := ε) b hmd hfits).unique (t := []) (consumes_decodeBody b hsp)
        (hbody ▸ hlen) hle (by rw [hbody, List.append_nil])
    exact ⟨htail.symm, canonical_of_recordBody hmd hsp hle hfits hbytes⟩
  · intro hcanonical
    unfold DecodesExactly
    split
    · rename_i r hdecode
      obtain ⟨sp, tail, hsp, rfl, rfl⟩ := (decodeRecord_eq_ok_iff hlen).mp hdecode
      obtain ⟨rfl, hsp'⟩ := hcanonical sp tail hsp rfl
      rw [List.append_nil]
      exact fun buf => encodeRecord_eq_ok_iff.mpr (recordBody_of_canonical hmd hsp hsp')
    · rename_i e hdecode
      exact isInvalidPayload_of_decodeRecord hdecode

end Exactly

/-- A delete of `U64(7)` with one byte too many. -/
def paddedDelete : Bytes := [2, 0, 7, 0, 0, 0, 0, 0, 0, 0, 0xFF]

theorem decodesExactly_iff_padded :
    DecodesExactly IdError defaultBuild paddedDelete ↔
      ∀ (sp : RecordSpelling) (tail : Bytes), sp.Fits → paddedDelete = sp.bytes ++ tail →
        tail = [] ∧ sp.Canonical entryList :=
  decodesExactly_iff entryList_lawful (by decide)

/-- The byte behind the record is ignored. -/
theorem not_decodesExactly_padded :
    ¬ ∀ body : Bytes, body.length ≤ defaultBuild.host.usizeMax →
      DecodesExactly IdError defaultBuild body := by
  intro hall
  have hdecode : decodeRecord defaultBuild paddedDelete =
      (.ok (.delete (.u64 7)) : Except (PersistError IdError) _) := by
    decide +kernel
  have hexact := hall paddedDelete (by decide)
  rw [DecodesExactly, hdecode] at hexact
  have hbody := encodeRecord_eq_ok_iff.mp (hexact [])
  exact absurd hbody.2 (by decide +kernel)

end IqdbPersist
