import IqdbPersist.FileSystem

/-!
# The vocabulary of the crate

Errors, configuration and the record type of the log, and what the crate takes from elsewhere: the
target host, the linked codecs and checksum, the metadata map and the wrapped index. Floats are
their bit patterns, so equality of vectors is equality by bits; sizes of the host are natural
numbers that the conversions check.
-/

namespace IqdbPersist

open FileSystem

inductive Host where
  | bits32
  | bits64
  deriving DecidableEq, Repr

def Host.usizeBits : Host → ℕ
  | .bits32 => 32
  | .bits64 => 64

def Host.usizeMax (host : Host) : ℕ := 2 ^ host.usizeBits - 1

theorem Host.usizeMax_ge (host : Host) : 2 ^ 32 - 1 ≤ host.usizeMax := by cases host <;> decide

theorem Host.usizeMax_lt (host : Host) : host.usizeMax < 2 ^ 64 := by cases host <;> decide

/-- The components of a path, without a trailing separator. -/
structure Path where
  absolute : Bool
  components : List String
  deriving DecidableEq, Repr

abbrev F32 := UInt32

abbrev F64 := UInt64

inductive VectorId where
  | u64 (n : UInt64)
  | bytes (b : Bytes)
  deriving DecidableEq, Repr

inductive Value where
  | string (s : String)
  | int (i : Int64)
  | float (f : F64)
  | bool (b : Bool)
  | null
  deriving DecidableEq

/-- `DistanceMetric` is non-exhaustive: `other` stands for the variants this build predates. -/
inductive DistanceMetric where
  | cosine
  | dotProduct
  | euclidean
  | manhattan
  | hamming
  | other (variant : ℕ)
  deriving DecidableEq, Repr

inductive FsyncPolicy where
  | always
  | periodic (interval : ℕ)
  | never
  deriving DecidableEq, Repr

inductive Compression where
  | none
  | zstd (level : ℤ)
  | lz4
  deriving DecidableEq, Repr

structure PersistConfig where
  path : Path
  walEnabled : Bool
  fsyncPolicy : FsyncPolicy
  compression : Compression
  deriving DecidableEq, Repr

/-- `ε` is the error type of the wrapped index. -/
inductive PersistError (ε : Type) where
  | io (path : Path) (source : IoError)
  | badMagic (found : Bytes)
  | unsupportedVersion (found supported : UInt32)
  | checksumMismatch (expected computed : UInt32)
  | truncatedHeader (needed found : ℕ)
  | truncatedPayload (needed found : ℕ)
  | invalidMetric (tag : UInt8)
  | unsupportedMetric (metric : DistanceMetric)
  | invalidIndexType (found expected : String)
  | invalidPayload (reason : String)
  | compression (reason : String)
  | indexBuild (source : ε)
  | unsupported (feature availableIn : String)
  deriving DecidableEq

def PersistError.IsIo {ε : Type} : PersistError ε → Prop
  | .io _ _ => True
  | _ => False

/-- A logged mutation; `M` is the metadata map. -/
inductive WalRecord (M : Type) where
  | insert (id : VectorId) (vector : List F32) (metadata : Option M)
  | delete (id : VectorId)
  deriving DecidableEq

/-- The metadata map as the crate uses it. -/
structure MetadataOps (M : Type) where
  len : M → ℕ
  iter : M → List (String × Value)
  collect : List (String × Value) → M

/-- The map counts its entries and is rebuilt from them. -/
structure MetadataOps.Lawful {M : Type} (md : MetadataOps M) : Prop where
  len_eq : ∀ m, md.len m = (md.iter m).length
  collect_iter : ∀ m, md.collect (md.iter m) = m

structure ZstdCodec where
  encodeAll : Bytes → ℤ → Except Unit Bytes
  decodeAll : Bytes → Except Unit Bytes

structure Lz4Codec where
  compress : Bytes → Bytes
  decompress : Bytes → ℕ → Except Unit Bytes

/-- What a build of the crate is fixed to: the target and the linked crates. A codec is absent when
its cargo feature is off. -/
structure Build (M : Type) where
  host : Host
  /-- `cfg(unix)` -/
  unix : Bool
  crc32 : Bytes → UInt32
  zstd : Option ZstdCodec
  lz4 : Option Lz4Codec
  metadata : MetadataOps M

/-- An index type: the `Index` and `Persistable` traits. A mutation returns its verdict and the
index as it is afterwards. -/
structure IndexType (ε M I : Type) where
  indexType : String
  dim : I → ℕ
  metric : I → DistanceMetric
  len : I → ℕ
  insert : VectorId → List F32 → Option M → I → Except ε Unit × I
  delete : VectorId → I → Except ε Unit × I
  saveTo : I → Except (PersistError ε) Bytes
  loadFrom : Bytes → Except (PersistError ε) I

namespace IndexType

variable {ε M I : Type} (T : IndexType ε M I)

/-- The bare index meets a mutation. -/
def apply : WalRecord M → I → Except ε Unit × I
  | .insert id vector metadata => T.insert id vector metadata
  | .delete id => T.delete id

def Accepts (r : WalRecord M) (x : I) : Prop := (T.apply r x).1 = .ok ()

/-- `load_from` undoes `save_to`. -/
def RoundTrips (x : I) : Prop := ∀ raw, T.saveTo x = .ok raw → T.loadFrom raw = .ok x

/-- A rejected mutation leaves the index as it was. -/
def KeepsRejected : Prop := ∀ r x, ¬ T.Accepts r x → (T.apply r x).2 = x

/-- Only vectors of the index's dimension are accepted. -/
def ChecksDim : Prop := ∀ id vector metadata x,
  T.Accepts (.insert id vector metadata) x → vector.length = T.dim x

end IndexType

end IqdbPersist
