import IqdbPersist.FieldReaders

/-!
# The snapshot header

The fixed-width little-endian header in front of a snapshot, its writer and its reader. Sizes are
written as `u64` whatever the host; the reader converts them back and may refuse.
-/

namespace IqdbPersist

open CrashLogic ByteReader LittleEndian

variable {ε : Type}

/-- `IQDBPRST` -/
def magic : Vector UInt8 8 := #v[0x49, 0x51, 0x44, 0x42, 0x50, 0x52, 0x53, 0x54]

def currentVersion : UInt32 := 2

def minSupportedVersion : UInt32 := 1

def maxIndexTypeLen : ℕ := 4096

structure FileHeader where
  magic : Vector UInt8 8
  version : UInt32
  indexType : String
  dim : ℕ
  metric : DistanceMetric
  nVectors : ℕ
  crc32 : UInt32
  deriving DecidableEq

def metricToTag : DistanceMetric → Except (PersistError ε) UInt8
  | .cosine => .ok 0
  | .dotProduct => .ok 1
  | .euclidean => .ok 2
  | .manhattan => .ok 3
  | .hamming => .ok 4
  | metric => .error (.unsupportedMetric metric)

def tagToMetric (tag : UInt8) : Except (PersistError ε) DistanceMetric :=
  match tag with
  | 0 => .ok .cosine
  | 1 => .ok .dotProduct
  | 2 => .ok .euclidean
  | 3 => .ok .manhattan
  | 4 => .ok .hamming
  | _ => .error (.invalidMetric tag)

/-- The sizes that conversions name in their errors. -/
inductive SizeField where
  | dim
  | nVectors
  | indexTypeLen
  | payloadLen
  | uncompressedLen
  deriving DecidableEq

def SizeField.name : SizeField → String
  | .dim => "dim"
  | .nVectors => "n_vectors"
  | .indexTypeLen => "index_type length"
  | .payloadLen => "payload length"
  | .uncompressedLen => "uncompressed length"

/-- `u64::try_from` of a `usize`. No `usize` is above `usizeMax`, so this never fails on a host. -/
def usizeToU64 (host : Host) (value : ℕ) (what : SizeField) : Except (PersistError ε) UInt64 :=
  if value ≤ host.usizeMax then .ok (UInt64.ofNat value)
  else .error (.invalidPayload (what.name ++ " does not fit in u64"))

/-- `usize::try_from` of a `u64`. -/
def u64ToUsize (host : Host) (value : UInt64) (what : SizeField) : Except (PersistError ε) ℕ :=
  if value.toNat ≤ host.usizeMax then .ok value.toNat
  else .error (.invalidPayload (what.name ++ " does not fit in usize on this host"))

section Write

variable (host : Host)

def writeHeader (header : FileHeader) : EStateM (PersistError ε) Bytes Unit := do
  extendFromSlice header.magic.toList
  extendFromSlice (encode 4 header.version.toNat)
  let itBytes := utf8 header.indexType
  let itLen ← settle (usizeToU64 host itBytes.length .indexTypeLen)
  extendFromSlice (encode 8 itLen.toNat)
  extendFromSlice itBytes
  let dim ← settle (usizeToU64 host header.dim .dim)
  extendFromSlice (encode 8 dim.toNat)
  let tag ← settle (metricToTag header.metric)
  extendFromSlice [tag]
  let n ← settle (usizeToU64 host header.nVectors .nVectors)
  extendFromSlice (encode 8 n.toNat)
  extendFromSlice (encode 4 header.crc32.toNat)

end Write

section Read

variable (host : Host)

/-- `read_exact` of `n` bytes, with an early end reported as a truncated header. -/
def readExactOrTruncated (n : ℕ) : EStateM (PersistError ε) Cursor Bytes := fun r =>
  match r.split n with
  | some (bytes, r') => .ok bytes r'
  | none => .error (.truncatedHeader n 0) r

def readHeader : EStateM (PersistError ε) Cursor FileHeader := do
  let found ← readExactOrTruncated 8
  ensure (found = magic.toList) (.badMagic found)
  let version := UInt32.ofNat (decode (← readExactOrTruncated 4))
  ensure (minSupportedVersion ≤ version ∧ version ≤ currentVersion)
    (.unsupportedVersion version currentVersion)
  let itLenU64 := UInt64.ofNat (decode (← readExactOrTruncated 8))
  let itLen ← settle (u64ToUsize host itLenU64 .indexTypeLen)
  ensure (itLen ≤ maxIndexTypeLen)
    (.invalidPayload "index_type length exceeds the 4 KiB cap")
  let itBytes ← readExactOrTruncated itLen
  let indexType ← settle (match fromUtf8 itBytes with
    | some s => .ok s
    | none => .error (.invalidPayload "index_type is not valid UTF-8"))
  let dimU64 := UInt64.ofNat (decode (← readExactOrTruncated 8))
  let dim ← settle (u64ToUsize host dimU64 .dim)
  let metricTag := (← readExactOrTruncated 1).headD 0
  let metric ← settle (tagToMetric metricTag)
  let nU64 := UInt64.ofNat (decode (← readExactOrTruncated 8))
  let nVectors ← settle (u64ToUsize host nU64 .nVectors)
  let crc32 := UInt32.ofNat (decode (← readExactOrTruncated 4))
  pure { magic, version, indexType, dim, metric, nVectors, crc32 }

end Read

/-- The bytes of a header whose metric has the tag `tag`. -/
def headerBytes (h : FileHeader) (tag : UInt8) : Bytes :=
  h.magic.toList ++ (encode 4 h.version.toNat ++ (encode 8 (utf8 h.indexType).length ++
    (utf8 h.indexType ++ (encode 8 h.dim ++ ([tag] ++ (encode 8 h.nVectors ++
      encode 4 h.crc32.toNat))))))

/-- The header can be written, with this tag for its metric, and read back on this host. -/
structure Readable (ε : Type) (host : Host) (h : FileHeader) (tag : UInt8) : Prop where
  magic : h.magic = magic
  version : minSupportedVersion ≤ h.version ∧ h.version ≤ currentVersion
  indexType : (utf8 h.indexType).length ≤ maxIndexTypeLen
  dim : h.dim ≤ host.usizeMax
  nVectors : h.nVectors ≤ host.usizeMax
  metric : metricToTag (ε := ε) h.metric = .ok tag

theorem Readable.version_cases {host : Host} {h : FileHeader} {tag : UInt8}
    (hreadable : Readable ε host h tag) : h.version = 1 ∨ h.version = 2 := by
  obtain ⟨hmin, hmax⟩ := hreadable.version
  rw [UInt32.le_iff_toNat_le] at hmin hmax
  change 1 ≤ h.version.toNat at hmin
  change h.version.toNat ≤ 2 at hmax
  rcases Nat.lt_or_ge h.version.toNat 2 with hlt | hge
  · exact .inl (UInt32.toNat_inj.mp (Nat.le_antisymm (Nat.le_of_lt_succ hlt) hmin))
  · exact .inr (UInt32.toNat_inj.mp (Nat.le_antisymm hmax hge))

theorem tagToMetric_metricToTag {metric : DistanceMetric} {tag : UInt8}
    (h : metricToTag (ε := ε) metric = .ok tag) : tagToMetric (ε := ε) tag = .ok metric := by
  cases metric <;> cases h <;> rfl

theorem usizeToU64_eq_ok {host : Host} {value : ℕ} {what : SizeField} {n : UInt64}
    (h : usizeToU64 (ε := ε) host value what = .ok n) :
    value ≤ host.usizeMax ∧ n.toNat = value := by
  unfold usizeToU64 at h
  split at h
  · rename_i hle
    cases h
    refine ⟨hle, ?_⟩
    rw [UInt64.toNat_ofNat', Nat.mod_eq_of_lt (Nat.lt_of_le_of_lt hle host.usizeMax_lt)]
  · cases h

theorem length_headerBytes (h : FileHeader) (tag : UInt8) :
    (headerBytes h tag).length = 41 + (utf8 h.indexType).length := by
  simp only [headerBytes, List.length_append, length_encode, Vector.length_toList, List.length_cons,
    List.length_nil]
  omega

/-- A header is written only when its sizes and its metric can be, and then as its bytes. -/
theorem ends_writeHeader (host : Host) (h : FileHeader) (buf : Bytes) :
    Ends (writeHeader host h : EStateM (PersistError ε) Bytes Unit) buf
      (fun _ s => (utf8 h.indexType).length ≤ host.usizeMax ∧ h.dim ≤ host.usizeMax ∧
        h.nVectors ≤ host.usizeMax ∧
        ∃ tag, metricToTag (ε := ε) h.metric = .ok tag ∧ s = buf ++ headerBytes h tag)
      (fun e _ => ¬ e.IsIo) := by
  have hsize (value : ℕ) (what : SizeField) (e : PersistError ε)
      (he : usizeToU64 host value what = .error e) : ¬ e.IsIo := by
    unfold usizeToU64 at he
    split at he <;> cases he
    exact id
  simp only [writeHeader, ends_bind, extendFromSlice, ends_modify]
  cases hit : usizeToU64 (ε := ε) host (utf8 h.indexType).length .indexTypeLen with
  | error e => exact hsize _ _ e hit
  | ok itLen =>
    cases hdim : usizeToU64 (ε := ε) host h.dim .dim with
    | error e => exact hsize _ _ e hdim
    | ok dim =>
      cases htag : metricToTag (ε := ε) h.metric with
      | error e =>
        simp only [ends_settle_ok, ends_settle_error]
        cases hm : h.metric <;> rw [hm] at htag <;> cases htag
        exact id
      | ok tag =>
        cases hn : usizeToU64 (ε := ε) host h.nVectors .nVectors with
        | error e => exact hsize _ _ e hn
        | ok n =>
          obtain ⟨hit, hitn⟩ := usizeToU64_eq_ok hit
          obtain ⟨hdim, hdimn⟩ := usizeToU64_eq_ok hdim
          obtain ⟨hn, hnn⟩ := usizeToU64_eq_ok hn
          refine ⟨hit, hdim, hn, tag, rfl, ?_⟩
          simp only [headerBytes, hitn, hdimn, hnn, List.append_assoc]

theorem usizeToU64_of_le {host : Host} {value : ℕ} (h : value ≤ host.usizeMax) (what : SizeField) :
    usizeToU64 (ε := ε) host value what = .ok (UInt64.ofNat value) := if_pos h

/-- The sizes of the header are sizes of the host. -/
structure FileHeader.OnHost (host : Host) (h : FileHeader) : Prop where
  dim : h.dim ≤ host.usizeMax
  nVectors : h.nVectors ≤ host.usizeMax
  indexType : (utf8 h.indexType).length ≤ host.usizeMax

theorem Readable.onHost {host : Host} {h : FileHeader} {tag : UInt8}
    (hreadable : Readable ε host h tag) : h.OnHost host :=
  ⟨hreadable.dim, hreadable.nVectors,
    Nat.le_trans hreadable.indexType (Nat.le_trans (by decide) host.usizeMax_ge)⟩

theorem writeHeader_of_onHost {host : Host} {h : FileHeader} {tag : UInt8}
    (hhost : h.OnHost host) (htag : metricToTag (ε := ε) h.metric = .ok tag) :
    writeHeader host h [] = (.ok () (headerBytes h tag) : EStateM.Result (PersistError ε) _ _) := by
  have hlen {value : ℕ} (hle : value ≤ host.usizeMax) : (UInt64.ofNat value).toNat = value := by
    rw [UInt64.toNat_ofNat', Nat.mod_eq_of_lt (Nat.lt_of_le_of_lt hle host.usizeMax_lt)]
  have hends : Ends (writeHeader host h : EStateM (PersistError ε) Bytes Unit) []
      (fun _ s => s = headerBytes h tag) (fun _ _ => False) := by
    simp only [writeHeader, ends_bind, extendFromSlice, ends_modify, ends_settle_ok,
      usizeToU64_of_le hhost.indexType, usizeToU64_of_le hhost.dim,
      usizeToU64_of_le hhost.nVectors, htag]
    simp only [headerBytes, hlen hhost.indexType, hlen hhost.dim, hlen hhost.nVectors,
      List.append_assoc, List.nil_append]
  obtain ⟨_, _, hok, rfl⟩ := ok_of_ends hends
  exact hok

theorem writeHeader_of_readable {host : Host} {h : FileHeader} {tag : UInt8}
    (hreadable : Readable ε host h tag) :
    writeHeader host h [] = (.ok () (headerBytes h tag) : EStateM.Result (PersistError ε) _ _) :=
  writeHeader_of_onHost hreadable.onHost hreadable.metric

section RoundTrip

variable {limit : ℕ}

def PersistError.IsTruncatedHeader : PersistError ε → Prop
  | .truncatedHeader _ _ => True
  | _ => False

theorem demands_readExact {n : ℕ} {bs : Bytes} (h : bs.length = n) :
    Demands (readExactOrTruncated n : EStateM (PersistError ε) Cursor Bytes) bs bs
      PersistError.IsTruncatedHeader := by
  subst h
  constructor
  · intro limit pre post _
    simp only [readExactOrTruncated, split_append]
  · intro pre n hn
    have hshort : (pre ++ bs.take n).length < pre.length + bs.length := by
      rw [List.length_append, List.length_take]
      omega
    unfold Ends readExactOrTruncated
    rw [split_of_short hshort]
    trivial

variable {E : PersistError ε → Prop}

theorem demands_ensure {c : Prop} [Decidable c] (h : c) (e : PersistError ε) :
    Demands (ensure c e : EStateM (PersistError ε) Cursor Unit) [] () E := by
  rw [ensure, if_pos h]
  exact .of_nil fun _ => consumes_pure ()

theorem demands_settle {α : Type} {x : Except (PersistError ε) α} {a : α} (h : x = .ok a) :
    Demands (settle x : EStateM (PersistError ε) Cursor α) [] a E := by
  rw [h]
  exact .of_nil fun _ => consumes_pure a

theorem u64_of_encode {n : ℕ} (h : n < 2 ^ 64) :
    (UInt64.ofNat (decode (encode 8 n))).toNat = n := by
  rw [decode_encode_of_lt (k := 8) h, UInt64.toNat_ofNat', Nat.mod_eq_of_lt h]

theorem u32_of_encode (n : UInt32) : UInt32.ofNat (decode (encode 4 n.toNat)) = n := by
  rw [decode_encode_of_lt (k := 4) n.toNat_lt, UInt32.ofNat_toNat]

theorem u64ToUsize_of_encode {host : Host} {n : ℕ} (h : n ≤ host.usizeMax) (what : SizeField) :
    u64ToUsize (ε := ε) host (UInt64.ofNat (decode (encode 8 n))) what = .ok n := by
  rw [u64ToUsize, u64_of_encode (Nat.lt_of_le_of_lt h host.usizeMax_lt), if_pos h]

/-- The reader reads back a header of a supported version whose sizes fit the host, and finds it
truncated if a part of it is missing. -/
theorem demands_readHeader {host : Host} {h : FileHeader} {tag : UInt8}
    (hreadable : Readable ε host h tag) :
    Demands (readHeader host : EStateM (PersistError ε) Cursor FileHeader) (headerBytes h tag) h
      PersistError.IsTruncatedHeader := by
  obtain ⟨hmagic, hversion, hit, hdim, hn, htag⟩ := hreadable
  have hhost := host.usizeMax_ge
  have hithost : (utf8 h.indexType).length ≤ host.usizeMax :=
    Nat.le_trans hit (Nat.le_trans (by decide) hhost)
  refine (demands_readExact h.magic.length_toList).bind ?_
  refine (demands_ensure (by rw [hmagic]) _).skip ?_
  refine (demands_readExact (length_encode 4 _)).bind ?_
  rw [u32_of_encode]
  refine (demands_ensure hversion _).skip ?_
  refine (demands_readExact (length_encode 8 _)).bind ?_
  refine (demands_settle (u64ToUsize_of_encode hithost _)).skip ?_
  refine (demands_ensure hit _).skip ?_
  refine (demands_readExact rfl).bind ?_
  refine (demands_settle (a := h.indexType) (by rw [fromUtf8_utf8])).skip ?_
  refine (demands_readExact (length_encode 8 _)).bind ?_
  refine (demands_settle (u64ToUsize_of_encode hdim _)).skip ?_
  refine (demands_readExact (rfl : [tag].length = 1)).bind ?_
  refine (demands_settle (tagToMetric_metricToTag htag)).skip ?_
  refine (demands_readExact (length_encode 8 _)).bind ?_
  refine (demands_settle (u64ToUsize_of_encode hn _)).skip ?_
  have hcrc := (demands_readExact (ε := ε) (length_encode 4 h.crc32.toNat)).map
    fun bytes => { h with magic := magic, crc32 := UInt32.ofNat (decode bytes) }
  rw [u32_of_encode, ← hmagic] at hcrc
  rw [← hmagic]
  exact hcrc

theorem consumes_readHeader {host : Host} {h : FileHeader} {tag : UInt8}
    (hreadable : Readable ε host h tag) :
    Consumes limit (readHeader host : EStateM (PersistError ε) Cursor FileHeader)
      (headerBytes h tag) h := (demands_readHeader hreadable).consumes limit

end RoundTrip

section Inversion

theorem metricToTag_tagToMetric {tag : UInt8} {metric : DistanceMetric}
    (h : tagToMetric (ε := ε) tag = .ok metric) : metricToTag (ε := ε) metric = .ok tag := by
  unfold tagToMetric at h
  split at h <;> cases h <;> rfl

theorem ends_readExact (n : ℕ) (c : Cursor) :
    Ends (readExactOrTruncated n : EStateM (PersistError ε) Cursor Bytes) c
      (fun bs c' => bs.length = n ∧ Reads c bs c') (fun _ _ => True) := by
  unfold Ends readExactOrTruncated
  cases hsplit : c.split n with
  | none => trivial
  | some read => exact reads_of_split hsplit

theorem encode_of_u64ToUsize {host : Host} {bs : Bytes} (hbs : bs.length = 8) {n : ℕ}
    {what : SizeField} (h : u64ToUsize (ε := ε) host (UInt64.ofNat (decode bs)) what = .ok n) :
    n ≤ host.usizeMax ∧ encode 8 n = bs := by
  have hlt : decode bs < 2 ^ 64 := by
    calc decode bs < 256 ^ bs.length := decode_lt bs
      _ = 2 ^ 64 := by rw [hbs]; rfl
  have hdecode : (UInt64.ofNat (decode bs)).toNat = decode bs := by
    rw [UInt64.toNat_ofNat', Nat.mod_eq_of_lt hlt]
  rw [u64ToUsize, hdecode] at h
  split at h
  · rename_i hle
    cases h
    exact ⟨hle, encode_decode_of_length hbs⟩
  · cases h

theorem ends_readHeader (host : Host) (c : Cursor) :
    Ends (readHeader host : EStateM (PersistError ε) Cursor FileHeader) c
      (fun h c' => ∃ tag, Readable ε host h tag ∧ Reads c (headerBytes h tag) c')
      (fun _ _ => True) := by
  have hstop {α : Type} : ∀ (e : α) (c : Cursor), True → True := fun _ _ h => h
  rw [readHeader, ends_bind]
  refine (ends_readExact 8 c).mono ?_ hstop
  rintro found c₁ ⟨-, h₁⟩
  rw [ends_bind, ends_ensure]
  refine ⟨fun hmagic => ?_, fun _ => trivial⟩
  rw [ends_bind]
  refine (ends_readExact 4 c₁).mono ?_ hstop
  rintro versionBytes c₂ ⟨hversionLen, h₂⟩
  dsimp only
  rw [ends_bind, ends_ensure]
  refine ⟨fun hversion => ?_, fun _ => trivial⟩
  rw [ends_bind]
  refine (ends_readExact 8 c₂).mono ?_ hstop
  rintro itLenBytes c₃ ⟨hitLenLen, h₃⟩
  rw [ends_bind]
  refine ends_settle_of (fun itLen hitLen => ?_) fun _ _ => trivial
  rw [ends_bind, ends_ensure]
  refine ⟨fun hcap => ?_, fun _ => trivial⟩
  rw [ends_bind]
  refine (ends_readExact itLen c₃).mono ?_ hstop
  rintro itBytes c₄ ⟨rfl, h₄⟩
  rw [ends_bind]
  refine ends_settle_of (fun indexType hindexType => ?_) fun _ _ => trivial
  rw [ends_bind]
  refine (ends_readExact 8 c₄).mono ?_ hstop
  rintro dimBytes c₅ ⟨hdimLen, h₅⟩
  rw [ends_bind]
  refine ends_settle_of (fun dim hdim => ?_) fun _ _ => trivial
  rw [ends_bind]
  refine (ends_readExact 1 c₅).mono ?_ hstop
  rintro tagBytes c₆ ⟨htagLen, h₆⟩
  rw [ends_bind]
  refine ends_settle_of (fun metric hmetric => ?_) fun _ _ => trivial
  rw [ends_bind]
  refine (ends_readExact 8 c₆).mono ?_ hstop
  rintro nBytes c₇ ⟨hnLen, h₇⟩
  rw [ends_bind]
  refine ends_settle_of (fun nVectors hn => ?_) fun _ _ => trivial
  rw [ends_bind]
  refine (ends_readExact 4 c₇).mono ?_ hstop
  rintro crcBytes c₈ ⟨hcrcLen, h₈⟩
  obtain ⟨tag, rfl⟩ := List.length_eq_one_iff.mp htagLen
  have hutf8 : utf8 indexType = itBytes := by
    split at hindexType
    · rename_i s hs
      cases hindexType
      exact utf8_of_fromUtf8 hs
    · cases hindexType
  obtain ⟨-, hitLen⟩ := encode_of_u64ToUsize hitLenLen hitLen
  obtain ⟨hdimLe, hdim⟩ := encode_of_u64ToUsize hdimLen hdim
  obtain ⟨hnLe, hn⟩ := encode_of_u64ToUsize hnLen hn
  refine ⟨tag, ⟨rfl, hversion, by rw [hutf8]; exact hcap, hdimLe, hnLe,
    metricToTag_tagToMetric hmetric⟩, ?_⟩
  have hall := h₁.trans (h₂.trans (h₃.trans (h₄.trans (h₅.trans (h₆.trans (h₇.trans h₈))))))
  rw [headerBytes, encode_of_u32 hversionLen, encode_of_u32 hcrcLen, hutf8, hitLen, hdim, hn,
    ← hmagic]
  exact hall

end Inversion

end IqdbPersist
