import IqdbPersist.FieldReaders

/-!
# What the record decoder accepts

The decoder reads more byte strings than the grammar has: any nonzero byte of a truth value is true,
any metadata flag but one means that there is none, and the entries of a map may repeat a key or
come in any order. A spelling is a record with these choices made; the decoder reads exactly the
spellings, and a body is accepted when it starts with one.
-/

namespace IqdbPersist

open CrashLogic ByteReader LittleEndian

variable {ε M : Type}

inductive ValueSpelling where
  | string (s : String)
  | int (i : Int64)
  | float (f : F64)
  | bool (byte : UInt8)
  | null
  deriving DecidableEq

namespace ValueSpelling

def value : ValueSpelling → Value
  | .string s => .string s
  | .int i => .int i
  | .float f => .float f
  | .bool byte => .bool (byte != 0)
  | .null => .null

def bytes : ValueSpelling → Bytes
  | .string s => valString :: stringBody s
  | .int i => valInt :: encode 8 i.toUInt64.toNat
  | .float f => valFloat :: encode 8 f.toNat
  | .bool byte => [valBool, byte]
  | .null => [valNull]

def Fits : ValueSpelling → Prop
  | .string s => StringFits s
  | _ => True

/-- How the encoder spells a value. -/
def of : Value → ValueSpelling
  | .string s => .string s
  | .int i => .int i
  | .float f => .float f
  | .bool b => .bool (if b then 1 else 0)
  | .null => .null

@[simp] theorem value_of (v : Value) : (of v).value = v := by
  cases v with
  | bool b => cases b <;> rfl
  | _ => rfl

@[simp] theorem bytes_of (v : Value) : (of v).bytes = valueBody v := by cases v <;> rfl

theorem fits_value (v : ValueSpelling) : ValueFits v.value ↔ v.Fits := by cases v <;> rfl

theorem fits_of (v : Value) : (of v).Fits ↔ ValueFits v := by rw [← fits_value, value_of]

theorem length_bytes (v : ValueSpelling) : v.bytes.length = (valueBody v.value).length := by
  cases v <;> rfl

end ValueSpelling

abbrev EntrySpelling := String × ValueSpelling

namespace EntrySpelling

def entry (e : EntrySpelling) : String × Value := (e.1, e.2.value)

def bytes (e : EntrySpelling) : Bytes := stringBody e.1 ++ e.2.bytes

def Fits (e : EntrySpelling) : Prop := StringFits e.1 ∧ e.2.Fits

def of (entry : String × Value) : EntrySpelling := (entry.1, .of entry.2)

theorem fits_entry (e : EntrySpelling) :
    (StringFits e.entry.1 ∧ ValueFits e.entry.2) ↔ e.Fits := by
  rw [entry, ValueSpelling.fits_value, Fits]

theorem fits_of (entry : String × Value) :
    (of entry).Fits ↔ StringFits entry.1 ∧ ValueFits entry.2 := by
  rw [Fits, of, ValueSpelling.fits_of]

theorem map_entry_of (entries : List (String × Value)) :
    (entries.map of).map entry = entries := by
  simp [entry, of, Function.comp_def]

theorem flatMap_bytes_of (entries : List (String × Value)) :
    (entries.map of).flatMap bytes = entries.flatMap entryBody := by
  simp only [List.flatMap_map, bytes, of, ValueSpelling.bytes_of]
  rfl

theorem length_bytes (e : EntrySpelling) : e.bytes.length = (entryBody e.entry).length := by
  rw [bytes, entryBody, entry, List.length_append, List.length_append, e.2.length_bytes]

end EntrySpelling

inductive MetadataSpelling where
  | absent (flag : UInt8)
  | present (entries : List EntrySpelling)

namespace MetadataSpelling

def metadata (md : MetadataOps M) : MetadataSpelling → Option M
  | .absent _ => none
  | .present entries => some (md.collect (entries.map EntrySpelling.entry))

def bytes : MetadataSpelling → Bytes
  | .absent flag => [flag]
  | .present entries => 1 :: (encode 4 entries.length ++ entries.flatMap EntrySpelling.bytes)

def Fits : MetadataSpelling → Prop
  | .absent flag => flag ≠ 1
  | .present entries => entries.length < 2 ^ 32 ∧ ∀ e ∈ entries, e.Fits

def of (md : MetadataOps M) : Option M → MetadataSpelling
  | none => .absent 0
  | some m => .present ((md.iter m).map EntrySpelling.of)

end MetadataSpelling

inductive RecordSpelling where
  | insert (id : VectorId) (vector : List F32) (metadata : MetadataSpelling)
  | delete (id : VectorId)

namespace RecordSpelling

def record (md : MetadataOps M) : RecordSpelling → WalRecord M
  | .insert id vector metadata => .insert id vector (metadata.metadata md)
  | .delete id => .delete id

def bytes : RecordSpelling → Bytes
  | .insert id vector metadata =>
      opInsert :: (idBody id ++ (vectorBody vector ++ metadata.bytes))
  | .delete id => opDelete :: idBody id

def Fits : RecordSpelling → Prop
  | .insert _ vector metadata => vector.length < 2 ^ 32 ∧ metadata.Fits
  | .delete _ => True

/-- How the encoder spells a record. -/
def of (md : MetadataOps M) : WalRecord M → RecordSpelling
  | .insert id vector metadata => .insert id vector (.of md metadata)
  | .delete id => .delete id

section Encoder

variable {md : MetadataOps M} (hmd : md.Lawful)

include hmd

theorem record_of (r : WalRecord M) : (of md r).record md = r := by
  cases r with
  | delete id => rfl
  | insert id vector metadata =>
    cases metadata with
    | none => rfl
    | some m =>
      rw [of, record, MetadataSpelling.of, MetadataSpelling.metadata, EntrySpelling.map_entry_of,
        hmd.collect_iter]

theorem bytes_of (r : WalRecord M) : (of md r).bytes = recordBody md r := by
  cases r with
  | delete id => rfl
  | insert id vector metadata =>
    cases metadata with
    | none => rfl
    | some m =>
      rw [of, bytes, MetadataSpelling.of, MetadataSpelling.bytes, EntrySpelling.flatMap_bytes_of,
        List.length_map, recordBody, metadataBody, hmd.len_eq]

theorem fits_of {r : WalRecord M} (h : RecordFits md r) : (of md r).Fits := by
  cases r with
  | delete id => trivial
  | insert id vector metadata =>
    obtain ⟨hvector, hmetadata⟩ := h
    refine ⟨hvector, ?_⟩
    cases metadata with
    | none => exact (by decide : (0 : UInt8) ≠ 1)
    | some m =>
      obtain ⟨hlen, hentries⟩ := hmetadata m rfl
      rw [hmd.len_eq] at hlen
      exact ⟨by rwa [List.length_map], List.forall_mem_map.mpr fun e he =>
        (EntrySpelling.fits_of e).mpr (hentries e he)⟩

end Encoder

end RecordSpelling

section Decode

variable (b : Build M)

theorem consumes_decodeValue {v : ValueSpelling} (h : v.Fits) :
    Consumes b.host.usizeMax (decodeValue b : EStateM (PersistError ε) Cursor Value)
      v.bytes v.value := by
  cases v with
  | string s =>
    exact (consumes_readU8 b valString).bind ((consumes_readString b _ h).map Value.string)
  | int i =>
    have hread := (consumes_readU64 (ε := ε) b i.toUInt64).map UInt64.toInt64
    rw [Int64.toInt64_toUInt64] at hread
    exact (consumes_readU8 b valInt).bind (hread.map Value.int)
  | float f =>
    exact (consumes_readU8 b valFloat).bind ((consumes_readU64 b f).map Value.float)
  | bool byte =>
    have hread := (consumes_readU8 (ε := ε) b byte).map fun n => Value.bool (n != 0)
    exact (consumes_readU8 b valBool).bind hread
  | null => exact (consumes_readU8 b valNull).bind (consumes_pure Value.null)

theorem consumes_decodeEntry {e : EntrySpelling} (h : e.Fits) :
    Consumes b.host.usizeMax (decodeEntry b : EStateM (PersistError ε) Cursor (String × Value))
      e.bytes e.entry :=
  (consumes_readString b _ h.1).bind ((consumes_decodeValue b h.2).map fun v => (e.1, v))

theorem consumes_entries {entries : List (String × Value)}
    (h : ∀ entry ∈ entries, StringFits entry.1 ∧ ValueFits entry.2) :
    Consumes b.host.usizeMax (times (decodeEntry b : EStateM (PersistError ε) Cursor _)
      entries.length) (entries.flatMap entryBody) entries := by
  have hread : Consumes b.host.usizeMax _ _ _ := Consumes.times
    (List.forall_mem_map.mpr fun entry he =>
      consumes_decodeEntry (ε := ε) b ((EntrySpelling.fits_of entry).mpr (h entry he)))
  rwa [EntrySpelling.map_entry_of, EntrySpelling.flatMap_bytes_of, List.length_map] at hread

theorem consumes_decodeMetadata {entries : List EntrySpelling} (hlen : entries.length < 2 ^ 32)
    (h : ∀ e ∈ entries, e.Fits) :
    Consumes b.host.usizeMax (decodeMetadata b : EStateM (PersistError ε) Cursor M)
      (encode 4 entries.length ++ entries.flatMap EntrySpelling.bytes)
      (b.metadata.collect (entries.map EntrySpelling.entry)) := by
  refine (consumes_readLen b hlen).bind ?_
  rw [encode_ofNat_toNat hlen]
  exact (Consumes.times fun e he => consumes_decodeEntry (ε := ε) b (h e he)).map
    b.metadata.collect

theorem consumes_decodeBody {sp : RecordSpelling} (h : sp.Fits) :
    Consumes b.host.usizeMax (decodeBody b : EStateM (PersistError ε) Cursor (WalRecord M))
      sp.bytes (sp.record b.metadata) := by
  cases sp with
  | delete id =>
    exact (consumes_readU8 b opDelete).bind ((consumes_decodeVectorId b id).map WalRecord.delete)
  | insert id vector metadata =>
    obtain ⟨hvector, hmetadata⟩ := h
    have hcomponents : Consumes b.host.usizeMax
        (times (readF32 b : EStateM (PersistError ε) Cursor F32) (UInt32.ofNat vector.length).toNat)
        (vector.flatMap fun c => encode 4 c.toNat) vector := by
      have hread : Consumes b.host.usizeMax
          (times (readF32 b : EStateM (PersistError ε) Cursor F32) vector.length) _ _ :=
        Consumes.times fun c _ => consumes_readU32 b c
      rwa [List.map_id', ← encode_ofNat_toNat hvector] at hread
    have hbody : (RecordSpelling.insert id vector metadata).bytes = [opInsert] ++ (idBody id ++
        (encode 4 vector.length ++ ((vector.flatMap fun c => encode 4 c.toNat) ++
          metadata.bytes))) := by
      simp [RecordSpelling.bytes, vectorBody]
    rw [hbody]
    refine (consumes_readU8 b _).bind ((consumes_decodeVectorId b id).bind ?_)
    refine (consumes_readLen b hvector).bind (hcomponents.bind ?_)
    cases metadata with
    | absent flag =>
      refine (consumes_readU8 b flag).finish ?_
      rw [if_neg hmetadata]
      exact consumes_pure _
    | present entries =>
      refine (consumes_readU8 b 1).bind ?_
      rw [if_pos rfl]
      exact (consumes_decodeMetadata b hmetadata.1 hmetadata.2).map
        fun m => WalRecord.insert id vector (some m)

end Decode

section Inversion

variable (b : Build M)

theorem ends_decodeValue (c : Cursor) :
    Ends (decodeValue b : EStateM (PersistError ε) Cursor Value) c
      (fun v c' => ∃ sp : ValueSpelling, sp.Fits ∧ v = sp.value ∧ Reads c sp.bytes c')
      (fun e _ => e.IsInvalidPayload) := by
  rw [decodeValue, ends_bind]
  refine (ends_readU8 b c).mono ?_ fun _ _ h => h
  intro tag c₁ htag
  split
  · rw [ends_bind]
    refine (ends_readString b _ c₁).mono ?_ fun _ _ h => h
    rintro s c₂ ⟨hs, hreads⟩
    exact ⟨.string s, hs, rfl, htag.trans hreads⟩
  · rw [ends_bind, readI64, ends_bind]
    refine (ends_readU64 b c₁).mono ?_ fun _ _ h => h
    intro n c₂ hreads
    refine ⟨.int n.toInt64, trivial, rfl, ?_⟩
    rw [ValueSpelling.bytes, UInt64.toUInt64_toInt64]
    exact htag.trans hreads
  · rw [ends_bind]
    refine (ends_readU64 b c₁).mono ?_ fun _ _ h => h
    exact fun f c₂ hreads => ⟨.float f, trivial, rfl, htag.trans hreads⟩
  · rw [ends_bind]
    refine (ends_readU8 b c₁).mono ?_ fun _ _ h => h
    exact fun byte c₂ hreads => ⟨.bool byte, trivial, rfl, htag.trans hreads⟩
  · exact ⟨.null, trivial, rfl, htag⟩
  · trivial

theorem ends_decodeEntry (c : Cursor) :
    Ends (decodeEntry b : EStateM (PersistError ε) Cursor (String × Value)) c
      (fun e c' => ∃ sp : EntrySpelling, sp.Fits ∧ e = sp.entry ∧ Reads c sp.bytes c')
      (fun e _ => e.IsInvalidPayload) := by
  rw [decodeEntry, ends_bind]
  refine (ends_readString b _ c).mono ?_ fun _ _ h => h
  rintro key c₁ ⟨hkey, hreads⟩
  rw [ends_bind]
  refine (ends_decodeValue b c₁).mono ?_ fun _ _ h => h
  rintro _ c₂ ⟨sp, hsp, rfl, hreads'⟩
  exact ⟨(key, sp), ⟨hkey, hsp⟩, rfl, hreads.trans hreads'⟩

theorem ends_decodeMetadata (c : Cursor) :
    Ends (decodeMetadata b : EStateM (PersistError ε) Cursor M) c
      (fun m c' => ∃ entries : List EntrySpelling, entries.length < 2 ^ 32 ∧
        (∀ e ∈ entries, e.Fits) ∧ m = b.metadata.collect (entries.map EntrySpelling.entry) ∧
        Reads c (encode 4 entries.length ++ entries.flatMap EntrySpelling.bytes) c')
      (fun e _ => e.IsInvalidPayload) := by
  rw [decodeMetadata, ends_bind]
  refine (ends_readU32 b c).mono ?_ fun _ _ h => h
  intro n c₁ hn
  rw [ends_bind]
  refine (ends_times (ends_decodeEntry b) n.toNat c₁).mono ?_ fun _ _ h => h
  rintro _ c₂ ⟨entries, hlen, hfits, rfl, hreads⟩
  refine ⟨entries, hlen ▸ n.toNat_lt, hfits, rfl, ?_⟩
  rw [hlen]
  exact hn.trans hreads

theorem ends_readVector (n : UInt32) (c : Cursor) :
    Ends (times (readF32 b) n.toNat : EStateM (PersistError ε) Cursor (List F32)) c
      (fun vector c' => vector.length = n.toNat ∧
        Reads c (vector.flatMap fun x => encode 4 x.toNat) c')
      (fun e _ => e.IsInvalidPayload) := by
  have hcomponent (c : Cursor) : Ends (readF32 b : EStateM (PersistError ε) Cursor F32) c
      (fun a c' => ∃ x : F32, True ∧ a = id x ∧ Reads c (encode 4 x.toNat) c')
      (fun e _ => e.IsInvalidPayload) :=
    (ends_readU32 b c).mono (fun a _ h => ⟨a, trivial, rfl, h⟩) fun _ _ h => h
  refine (ends_times hcomponent n.toNat c).mono ?_ fun _ _ h => h
  rintro _ c' ⟨vector, hlen, -, rfl, hreads⟩
  rw [List.map_id]
  exact ⟨hlen, hreads⟩

theorem ends_decodeBody (c : Cursor) :
    Ends (decodeBody b : EStateM (PersistError ε) Cursor (WalRecord M)) c
      (fun r c' => ∃ sp : RecordSpelling, sp.Fits ∧ r = sp.record b.metadata ∧
        Reads c sp.bytes c')
      (fun e _ => e.IsInvalidPayload) := by
  rw [decodeBody, ends_bind]
  refine (ends_readU8 b c).mono ?_ fun _ _ h => h
  intro op c₁ hop
  split
  · rw [ends_bind]
    refine (ends_decodeVectorId b c₁).mono ?_ fun _ _ h => h
    intro id c₂ hid
    rw [ends_bind]
    refine (ends_readU32 b c₂).mono ?_ fun _ _ h => h
    intro vecLen c₃ hvecLen
    rw [ends_bind]
    refine (ends_readVector b vecLen c₃).mono ?_ fun _ _ h => h
    rintro vector c₄ ⟨hlen, hcomponents⟩
    have hvector : Reads c₂ (vectorBody vector) c₄ := by
      rw [vectorBody, hlen]
      exact hvecLen.trans hcomponents
    have hfits : vector.length < 2 ^ 32 := hlen ▸ vecLen.toNat_lt
    rw [ends_bind]
    refine (ends_readU8 b c₄).mono ?_ fun _ _ h => h
    intro flag c₅ hflag
    split
    · rename_i hone
      subst hone
      rw [ends_bind]
      refine (ends_decodeMetadata b c₅).mono ?_ fun _ _ h => h
      rintro _ c₆ ⟨entries, hentries, hall, rfl, hreads⟩
      exact ⟨.insert id vector (.present entries), ⟨hfits, hentries, hall⟩, rfl,
        hop.trans (hid.trans (hvector.trans (hflag.trans hreads)))⟩
    · rename_i hother
      exact ⟨.insert id vector (.absent flag), ⟨hfits, hother⟩, rfl,
        hop.trans (hid.trans (hvector.trans hflag))⟩
  · rw [ends_bind]
    refine (ends_decodeVectorId b c₁).mono ?_ fun _ _ h => h
    exact fun id c₂ hid => ⟨.delete id, trivial, rfl, hop.trans hid⟩
  · trivial

variable {b}

/-- A body is accepted when it starts with a spelling of the record, and refused as an invalid
payload otherwise. -/
theorem decodeRecord_eq_ok_iff {body : Bytes} (hlen : body.length ≤ b.host.usizeMax)
    {r : WalRecord M} :
    decodeRecord b body = (.ok r : Except (PersistError ε) _) ↔
      ∃ sp : RecordSpelling, ∃ tail, sp.Fits ∧ body = sp.bytes ++ tail ∧
        r = sp.record b.metadata := by
  constructor
  · intro h
    unfold decodeRecord at h
    split at h
    · rename_i r' c hrun
      cases h
      obtain ⟨sp, hsp, rfl, hreads⟩ := ends_of_ok (ends_decodeBody b _) hrun
      exact ⟨sp, _, hsp, hreads.bytes_eq.1, rfl⟩
    · cases h
  · rintro ⟨sp, tail, hsp, rfl, rfl⟩
    have hle : sp.bytes.length ≤ b.host.usizeMax := by
      rw [List.length_append] at hlen
      omega
    simp only [decodeRecord, (consumes_decodeBody b hsp).run hle tail]

theorem isInvalidPayload_of_decodeRecord {body : Bytes} {e : PersistError ε}
    (h : decodeRecord b body = .error e) : e.IsInvalidPayload := by
  unfold decodeRecord at h
  split at h
  · cases h
  · rename_i hrun
    cases h
    have hinvalid := ends_of_error (ends_decodeBody b _) hrun
    exact hinvalid

end Inversion

end IqdbPersist
