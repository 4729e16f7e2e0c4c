import IqdbPersist.Format
import IqdbPersist.SampleIndex

/-!
# Reader and writer of the header are inverse

What the writer makes of a header the reader takes for that header, or refuses, according to the
fields that the reader restricts; what the reader accepts is what the writer makes of the header
that it returns; and every strict beginning of a header is reported as truncated.
-/

namespace IqdbPersist

open CrashLogic ByteReader LittleEndian

variable {ε : Type} {host : Host} {h h' : FileHeader} {tag tag' : UInt8}

/-- The fields that the reader restricts. -/
structure FileHeader.Supported (h : FileHeader) : Prop where
  magic : h.magic = IqdbPersist.magic
  version : h.version = 1 ∨ h.version = 2
  indexType : (utf8 h.indexType).length ≤ maxIndexTypeLen

theorem readable_of_supported (hhost : h.OnHost host) (hsupported : h.Supported)
    (htag : metricToTag (ε := ε) h.metric = .ok tag) : Readable ε host h tag where
  magic := hsupported.magic
  version := by
    rcases hsupported.version with hversion | hversion <;> rw [hversion] <;> decide
  indexType := hsupported.indexType
  dim := hhost.dim
  nVectors := hhost.nVectors
  metric := htag

theorem Readable.supported (hreadable : Readable ε host h tag) : h.Supported :=
  ⟨hreadable.magic, hreadable.version_cases, hreadable.indexType⟩

theorem supported_of_append_eq (hhost : h.OnHost host) (hhost' : h'.OnHost host) {t t' : Bytes}
    (heq : headerBytes h tag ++ t = headerBytes h' tag' ++ t') (hsupported : h'.Supported) :
    h.Supported := by
  simp only [headerBytes, List.append_assoc] at heq
  obtain ⟨hmagic, heq⟩ := List.append_inj heq (by simp)
  obtain ⟨hversion, heq⟩ := List.append_inj heq (by simp)
  obtain ⟨hlen, -⟩ := List.append_inj heq (by simp)
  have hlt (h : FileHeader) (hhost : h.OnHost host) : (utf8 h.indexType).length < 256 ^ 8 :=
    Nat.lt_of_le_of_lt hhost.indexType host.usizeMax_lt
  have hversion' : h.version = h'.version := by
    rw [← UInt32.toNat_inj, ← decode_encode_of_lt (k := 4) h.version.toNat_lt, hversion,
      decode_encode_of_lt (k := 4) h'.version.toNat_lt]
  have hlen' : (utf8 h.indexType).length = (utf8 h'.indexType).length := by
    rw [← decode_encode_of_lt (hlt h hhost), hlen, decode_encode_of_lt (hlt h' hhost')]
  exact ⟨(Vector.toList_inj.mp hmagic).trans hsupported.magic, hversion' ▸ hsupported.version,
    hlen' ▸ hsupported.indexType⟩

/-- Writing and then reading gives the header back, with what follows it unread, if the fields are
supported, and an error otherwise. Reading and then writing gives the bytes back. A header cut short
is truncated. -/
theorem header_inverse (host : Host) :
    (∀ (h : FileHeader) (tag : UInt8), h.OnHost host → metricToTag (ε := ε) h.metric = .ok tag →
      ∃ full, writeHeader host h [] = (.ok () full : EStateM.Result (PersistError ε) _ _) ∧
        ∀ t, (h.Supported → readHeader host ⟨full ++ t, 0⟩ =
            (.ok h ⟨full ++ t, full.length⟩ : EStateM.Result (PersistError ε) _ _)) ∧
          (¬ h.Supported → ∃ e c, readHeader host ⟨full ++ t, 0⟩ =
            (.error e c : EStateM.Result (PersistError ε) _ _))) ∧
      (∀ (bytes : Bytes) (h : FileHeader) (c : Cursor),
        readHeader host ⟨bytes, 0⟩ = (.ok h c : EStateM.Result (PersistError ε) _ _) →
          writeHeader host h [] =
            (.ok () (bytes.take c.pos) : EStateM.Result (PersistError ε) _ _)) ∧
      ∀ (h : FileHeader) (full : Bytes), h.OnHost host → h.Supported →
        writeHeader host h [] = (.ok () full : EStateM.Result (PersistError ε) _ _) →
          ∀ n < full.length, ∃ needed found c, readHeader host ⟨full.take n, 0⟩ =
            (.error (.truncatedHeader needed found) c : EStateM.Result (PersistError ε) _ _) := by
  refine ⟨fun h tag hhost htag => ⟨_, writeHeader_of_onHost hhost htag, fun t => ⟨?_, ?_⟩⟩, ?_, ?_⟩
  · intro hsupported
    exact (consumes_readHeader (readable_of_supported hhost hsupported htag)).run
      (Nat.le_refl _) t
  · intro hunsupported
    cases hread : readHeader (ε := ε) host ⟨headerBytes h tag ++ t, 0⟩ with
    | error e c => exact ⟨e, c, rfl⟩
    | ok h' c =>
      obtain ⟨tag', hreadable, hreads⟩ := ends_of_ok (ends_readHeader host _) hread
      exact absurd (supported_of_append_eq hhost hreadable.onHost hreads.bytes_eq.1
        hreadable.supported) hunsupported
  · intro bytes h c hread
    obtain ⟨tag, hreadable, hreads⟩ := ends_of_ok (ends_readHeader host _) hread
    obtain ⟨hbytes, hpos⟩ := hreads.bytes_eq
    rw [hpos, hbytes, List.take_left]
    exact writeHeader_of_readable hreadable
  · intro h full hhost hsupported hwrite n hn
    obtain ⟨-, -, -, tag, htag, rfl⟩ := ends_of_ok (ends_writeHeader host h []) hwrite
    rw [List.nil_append] at hn ⊢
    have hstarves := (demands_readHeader (readable_of_supported hhost hsupported htag)).starves
      [] n hn
    obtain ⟨e, c, hread, he⟩ := error_of_ends hstarves
    cases e with
    | truncatedHeader needed found => exact ⟨needed, found, c, hread⟩
    | _ => exact he.elim

/-- The header of an empty index. -/
def emptyHeader : FileHeader := ⟨magic, 2, "flat", 3, .cosine, 0, 0⟩

theorem header_inverse_empty :
    writeHeader .bits64 emptyHeader [] = (.ok () (headerBytes emptyHeader 0) :
        EStateM.Result (PersistError IdError) _ _) ∧
      readHeader .bits64 ⟨headerBytes emptyHeader 0 ++ [7], 0⟩ =
        (.ok emptyHeader ⟨headerBytes emptyHeader 0 ++ [7], 45⟩ :
          EStateM.Result (PersistError IdError) _ _) := by
  obtain ⟨full, hwrite, hread⟩ := (header_inverse (ε := IdError) .bits64).1 emptyHeader 0
    ⟨by decide, by decide, by decide⟩ rfl
  have hfull : full = headerBytes emptyHeader 0 := by
    rw [writeHeader_of_onHost ⟨by decide, by decide, by decide⟩ rfl] at hwrite
    injection hwrite with _ hbytes
    exact hbytes.symm
  rw [hfull] at hwrite hread
  exact ⟨hwrite, (hread [7]).1 ⟨rfl, .inr rfl, by decide⟩⟩

end IqdbPersist
