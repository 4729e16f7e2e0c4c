import IqdbPersist.Crc32
import IqdbPersist.Types
import Mathlib.Tactic.Common

/-!
# A small index

The default build of the crate, and an index of distinct numbers that keeps every promise asked of
an index: it rejects a duplicate insert and an absent delete, checks the dimension and reads back
what it saved. It stands where a concrete index is called for.
-/

namespace IqdbPersist

open LittleEndian

/-- A metadata map as the list of its entries. -/
def entryList : MetadataOps (List (String × Value)) where
  len := List.length
  iter := id
  collect := id

theorem entryList_lawful : entryList.Lawful := ⟨fun _ => rfl, fun _ => rfl⟩

/-- A 64-bit unix target and no optional codec. -/
def defaultBuild : Build (List (String × Value)) where
  host := .bits64
  unix := true
  crc32 := Crc32.hash
  zstd := none
  lz4 := none
  metadata := entryList

/-- An empty file system in which every path can be used and every operation completes. -/
def emptyWorld : FileSystem.World Path where
  base _ := none
  dirs _ := true
  permits _ := true
  history := []
  script := []
  ticks := 0
  instants := id
  systemTimes := id
  pid := 1

/-- A snapshot in a directory of its own. -/
def nestedPath : Path := ⟨true, ["d", "x"]⟩

inductive IdError where
  | duplicate
  | notFound
  | invalid
  deriving DecidableEq, Repr

namespace IdIndex

def insert (id : VectorId) (vector : List F32) (x : List UInt64) :
    Except IdError Unit × List UInt64 :=
  match id with
  | .u64 n =>
    if vector.length ≠ 1 then (.error .invalid, x)
    else if n ∈ x then (.error .duplicate, x)
    else (.ok (), x ++ [n])
  | .bytes _ => (.error .invalid, x)

def delete (id : VectorId) (x : List UInt64) : Except IdError Unit × List UInt64 :=
  match id with
  | .u64 n => if n ∈ x then (.ok (), x.erase n) else (.error .notFound, x)
  | .bytes _ => (.error .notFound, x)

def save (x : List UInt64) : Bytes := x.flatMap fun n => encode 8 n.toNat

def load : Bytes → List UInt64
  | a :: b :: c :: d :: e :: f :: g :: h :: rest =>
    UInt64.ofNat (decode [a, b, c, d, e, f, g, h]) :: load rest
  | _ => []

theorem load_encode_append (n : UInt64) (rest : Bytes) :
    load (encode 8 n.toNat ++ rest) = n :: load rest := by
  have hn : UInt64.ofNat (decode (encode 8 n.toNat)) = n := by
    rw [decode_encode_of_lt (k := 8) n.toNat_lt, UInt64.ofNat_toNat]
  conv_rhs => rw [← hn]
  rfl

theorem load_save (x : List UInt64) : load (save x) = x := by
  induction x with
  | nil => rfl
  | cons n x ih =>
    change load (encode 8 n.toNat ++ save x) = n :: x
    rw [load_encode_append, ih]

end IdIndex

def idIndex : IndexType IdError (List (String × Value)) (List UInt64) where
  indexType := "ids"
  dim _ := 1
  metric _ := .euclidean
  len := List.length
  insert id vector _ x := IdIndex.insert id vector x
  delete id x := IdIndex.delete id x
  saveTo x := .ok (IdIndex.save x)
  loadFrom bytes := .ok (IdIndex.load bytes)

theorem idIndex_roundTrips (x : List UInt64) : idIndex.RoundTrips x := by
  rintro _ ⟨⟩
  exact congrArg Except.ok (IdIndex.load_save x)

theorem idIndex_keepsRejected : idIndex.KeepsRejected := by
  intro r x
  cases r with
  | insert id vector metadata =>
    simp only [IndexType.Accepts, IndexType.apply, idIndex, IdIndex.insert]
    split
    · split_ifs <;> simp
    · simp
  | delete id =>
    simp only [IndexType.Accepts, IndexType.apply, idIndex, IdIndex.delete]
    split
    · split_ifs <;> simp
    · simp

theorem idIndex_checksDim : idIndex.ChecksDim := by
  intro id vector metadata x
  simp only [IndexType.Accepts, IndexType.apply, idIndex, IdIndex.insert]
  split
  · split_ifs with hdim
    · simp
    · simp
    · exact fun _ => not_not.mp hdim
  · simp

end IqdbPersist
