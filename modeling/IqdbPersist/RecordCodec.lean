import IqdbPersist.ByteReader
import IqdbPersist.Types

/-!
# Encoding and decoding a log record

The encoders append to a buffer and refuse lengths that do not fit their `u32` fields; the decoder
is a bounds-checked cursor over one record body. The two share only the tag constants.
-/

namespace IqdbPersist

open CrashLogic ByteReader LittleEndian

variable {ε M σ : Type}

@[match_pattern] abbrev opInsert : UInt8 := 1
@[match_pattern] abbrev opDelete : UInt8 := 2
@[match_pattern] abbrev vidU64 : UInt8 := 0
@[match_pattern] abbrev vidBytes : UInt8 := 1
@[match_pattern] abbrev valString : UInt8 := 0
@[match_pattern] abbrev valInt : UInt8 := 1
@[match_pattern] abbrev valFloat : UInt8 := 2
@[match_pattern] abbrev valBool : UInt8 := 3
@[match_pattern] abbrev valNull : UInt8 := 4

/-- `as_bytes` of a string. -/
def utf8 (s : String) : Bytes := s.toByteArray.data.toList

def fromUtf8 (bytes : Bytes) : Option String := String.fromUTF8? ⟨bytes.toArray⟩

/-- `u32::try_from` of a length. -/
def u32TryFrom (n : ℕ) (reason : String) : Except (PersistError ε) UInt32 :=
  if n < 2 ^ 32 then .ok (UInt32.ofNat n) else .error (.invalidPayload reason)

section Encode

def push (b : UInt8) : EStateM (PersistError ε) Bytes Unit := modify (· ++ [b])

def extendFromSlice (bytes : Bytes) : EStateM (PersistError ε) Bytes Unit := modify (· ++ bytes)

/-- A checked length field: `u32::try_from(n)?`, then its four bytes. -/
def pushLen (n : ℕ) (reason : String) : EStateM (PersistError ε) Bytes Unit := do
  let len ← settle (u32TryFrom n reason)
  extendFromSlice (encode 4 len.toNat)

def encodeVectorId : VectorId → EStateM (PersistError ε) Bytes Unit
  | .u64 n => do
    push vidU64
    extendFromSlice (encode 8 n.toNat)
  | .bytes b => do
    push vidBytes
    extendFromSlice (encode 8 b.length)
    extendFromSlice b

def encodeValue : Value → EStateM (PersistError ε) Bytes Unit
  | .string s => do
    push valString
    pushLen (utf8 s).length "metadata string length does not fit in u32"
    extendFromSlice (utf8 s)
  | .int i => do
    push valInt
    extendFromSlice (encode 8 i.toUInt64.toNat)
  | .float f => do
    push valFloat
    extendFromSlice (encode 8 f.toNat)
  | .bool b => do
    push valBool
    push (if b then 1 else 0)
  | .null => push valNull

def encodeEntries : List (String × Value) → EStateM (PersistError ε) Bytes Unit
  | [] => pure ()
  | (key, value) :: entries => do
    pushLen (utf8 key).length "metadata key length does not fit in u32"
    extendFromSlice (utf8 key)
    encodeValue value
    encodeEntries entries

def encodeMetadata (md : MetadataOps M) (m : M) : EStateM (PersistError ε) Bytes Unit := do
  pushLen (md.len m) "metadata entry count does not fit in u32"
  encodeEntries (md.iter m)

def encodeComponents : List F32 → EStateM (PersistError ε) Bytes Unit
  | [] => pure ()
  | component :: vector => do
    extendFromSlice (encode 4 component.toNat)
    encodeComponents vector

/-- What `append_insert` puts into the scratch buffer. -/
def encodeInsert (md : MetadataOps M) (id : VectorId) (vector : List F32) (metadata : Option M) :
    EStateM (PersistError ε) Bytes Unit := do
  set ([] : Bytes)
  push opInsert
  encodeVectorId id
  pushLen vector.length "vector length does not fit in u32"
  encodeComponents vector
  match metadata with
  | some m => do
    push 1
    encodeMetadata md m
  | none => push 0

/-- What `append_delete` puts into the scratch buffer. -/
def encodeDelete (id : VectorId) : EStateM (PersistError ε) Bytes Unit := do
  set ([] : Bytes)
  push opDelete
  encodeVectorId id

def encodeRecord (md : MetadataOps M) : WalRecord M → EStateM (PersistError ε) Bytes Unit
  | .insert id vector metadata => encodeInsert md id vector metadata
  | .delete id => encodeDelete id

end Encode

section Decode

variable (b : Build M)

/-- `Cur::take` -/
def take (n : ℕ) : EStateM (PersistError ε) Cursor Bytes := fun r =>
  if b.host.usizeMax < r.pos + n then
    .error (.invalidPayload "WAL record offset overflow") r
  else match r.split n with
    | some (slice, r') => .ok slice r'
    | none => .error (.invalidPayload "WAL record ended mid-field") r

def readU8 : EStateM (PersistError ε) Cursor UInt8 := do
  pure ((← take b 1).headD 0)

def readU32 : EStateM (PersistError ε) Cursor UInt32 := do
  pure (UInt32.ofNat (decode (← take b 4)))

def readU64 : EStateM (PersistError ε) Cursor UInt64 := do
  pure (UInt64.ofNat (decode (← take b 8)))

def readI64 : EStateM (PersistError ε) Cursor Int64 := do
  pure (← readU64 b).toInt64

def readF32 : EStateM (PersistError ε) Cursor F32 := do
  pure (UInt32.ofNat (decode (← take b 4)))

def readF64 : EStateM (PersistError ε) Cursor F64 := readU64 b

def readString (reason : String) : EStateM (PersistError ε) Cursor String := do
  let len ← readU32 b
  match fromUtf8 (← take b len.toNat) with
  | some s => pure s
  | none => throw (.invalidPayload reason)

def decodeVectorId : EStateM (PersistError ε) Cursor VectorId := do
  match ← readU8 b with
  | vidU64 => pure (.u64 (← readU64 b))
  | vidBytes => do
    let len ← readU64 b
    if b.host.usizeMax < len.toNat then
      throw (.invalidPayload "WAL vector-id length does not fit in usize")
    else pure (.bytes (← take b len.toNat))
  | _ => throw (.invalidPayload "unknown WAL vector-id kind")

def decodeValue : EStateM (PersistError ε) Cursor Value := do
  match ← readU8 b with
  | valString => pure (.string (← readString b "WAL metadata string is not valid UTF-8"))
  | valInt => pure (.int (← readI64 b))
  | valFloat => pure (.float (← readF64 b))
  | valBool => pure (.bool ((← readU8 b) != 0))
  | valNull => pure .null
  | _ => throw (.invalidPayload "unknown WAL metadata value tag")

def decodeEntry : EStateM (PersistError ε) Cursor (String × Value) := do
  let key ← readString b "WAL metadata key is not valid UTF-8"
  let value ← decodeValue b
  pure (key, value)

def decodeMetadata : EStateM (PersistError ε) Cursor M := do
  let n ← readU32 b
  let entries ← times (decodeEntry b) n.toNat
  pure (b.metadata.collect entries)

def decodeBody : EStateM (PersistError ε) Cursor (WalRecord M) := do
  match ← readU8 b with
  | opInsert => do
    let id ← decodeVectorId b
    let vecLen ← readU32 b
    let vector ← times (readF32 b) vecLen.toNat
    let hasMeta ← readU8 b
    if hasMeta = 1 then
      let m ← decodeMetadata b
      pure (.insert id vector (some m))
    else pure (.insert id vector none)
  | opDelete => pure (.delete (← decodeVectorId b))
  | _ => throw (.invalidPayload "unknown WAL op code")

def decodeRecord (body : Bytes) : Except (PersistError ε) (WalRecord M) :=
  match decodeBody b ⟨body, 0⟩ with
  | .ok r _ => .ok r
  | .error e _ => .error e

end Decode

end IqdbPersist
