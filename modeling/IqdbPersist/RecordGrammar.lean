import IqdbPersist.RecordCodec

/-!
# The record grammar, and the encoder against it

`recordBody` is the grammar of the module docs of the log, as a function from records to byte
strings. The encoder produces exactly the grammar's string of a record whose lengths fit their
`u32` fields and refuses every other record.
-/

namespace IqdbPersist

open CrashLogic ByteReader LittleEndian

variable {ε M : Type}

def idBody : VectorId → Bytes
  | .u64 n => vidU64 :: encode 8 n.toNat
  | .bytes b => vidBytes :: (encode 8 b.length ++ b)

def stringBody (s : String) : Bytes := encode 4 (utf8 s).length ++ utf8 s

def valueBody : Value → Bytes
  | .string s => valString :: stringBody s
  | .int i => valInt :: encode 8 i.toUInt64.toNat
  | .float f => valFloat :: encode 8 f.toNat
  | .bool b => [valBool, if b then 1 else 0]
  | .null => [valNull]

def entryBody (entry : String × Value) : Bytes := stringBody entry.1 ++ valueBody entry.2

def metadataBody (md : MetadataOps M) (m : M) : Bytes :=
  encode 4 (md.len m) ++ (md.iter m).flatMap entryBody

def vectorBody (vector : List F32) : Bytes :=
  encode 4 vector.length ++ vector.flatMap fun c => encode 4 c.toNat

def recordBody (md : MetadataOps M) : WalRecord M → Bytes
  | .insert id vector (some m) =>
      opInsert :: (idBody id ++ (vectorBody vector ++ (1 :: metadataBody md m)))
  | .insert id vector none => opInsert :: (idBody id ++ (vectorBody vector ++ [0]))
  | .delete id => opDelete :: idBody id

def StringFits (s : String) : Prop := (utf8 s).length < 2 ^ 32

def ValueFits : Value → Prop
  | .string s => StringFits s
  | _ => True

def MetadataFits (md : MetadataOps M) (m : M) : Prop :=
  md.len m < 2 ^ 32 ∧ ∀ entry ∈ md.iter m, StringFits entry.1 ∧ ValueFits entry.2

/-- Every length of the record fits its `u32` field. -/
def RecordFits (md : MetadataOps M) : WalRecord M → Prop
  | .insert _ vector metadata => vector.length < 2 ^ 32 ∧ ∀ m ∈ metadata, MetadataFits md m
  | .delete _ => True

theorem encode_ofNat_toNat {n : ℕ} (h : n < 2 ^ 32) : (UInt32.ofNat n).toNat = n := by
  rw [UInt32.toNat_ofNat', Nat.mod_eq_of_lt h]

section Encode

/-- The encoder `p` appends `bs`, unless a length does not fit and it refuses. -/
def Emits (p : EStateM (PersistError ε) Bytes Unit) (bs : Bytes) (fits : Prop) : Prop :=
  ∀ buf, Ends p buf (fun _ s => fits ∧ s = buf ++ bs) (fun e _ => ¬ fits ∧ ¬ e.IsIo)

theorem Emits.seq {p q : EStateM (PersistError ε) Bytes Unit} {bs cs : Bytes} {f g : Prop}
    (hp : Emits p bs f) (hq : Emits q cs g) : Emits (do p; q) (bs ++ cs) (f ∧ g) := by
  intro buf
  rw [ends_bind]
  apply (hp buf).mono
  · rintro _ s ⟨hf, rfl⟩
    apply (hq _).mono
    · rintro _ s' ⟨hg, rfl⟩
      exact ⟨⟨hf, hg⟩, List.append_assoc _ _ _⟩
    · rintro e _ ⟨hg, he⟩
      exact ⟨fun h => hg h.2, he⟩
  · rintro e _ ⟨hf, he⟩
    exact ⟨fun h => hf h.1, he⟩

theorem Emits.congr {p : EStateM (PersistError ε) Bytes Unit} {a c : Bytes} {f g : Prop}
    (hp : Emits p a f) (hbytes : a = c) (hfg : f ↔ g) : Emits p c g := by
  subst hbytes
  rw [propext hfg] at hp
  exact hp

theorem emits_push (b : UInt8) : Emits (push b : EStateM (PersistError ε) Bytes Unit) [b] True :=
  fun _ => ⟨trivial, rfl⟩

theorem emits_extendFromSlice (bytes : Bytes) :
    Emits (extendFromSlice bytes : EStateM (PersistError ε) Bytes Unit) bytes True :=
  fun _ => ⟨trivial, rfl⟩

theorem emits_pushLen (n : ℕ) (reason : String) :
    Emits (pushLen n reason : EStateM (PersistError ε) Bytes Unit) (encode 4 n) (n < 2 ^ 32) := by
  intro buf
  by_cases h : n < 2 ^ 32
  · simp only [pushLen, u32TryFrom, if_pos h, ends_bind, ends_settle_ok, encode_ofNat_toNat h]
    exact ⟨h, rfl⟩
  · simp only [pushLen, u32TryFrom, if_neg h, ends_bind, ends_settle_error]
    exact ⟨h, fun hio => hio⟩

theorem emits_encodeVectorId (id : VectorId) :
    Emits (encodeVectorId id : EStateM (PersistError ε) Bytes Unit) (idBody id) True := by
  cases id with
  | u64 n => exact ((emits_push _).seq (emits_extendFromSlice _)).congr rfl (by simp)
  | bytes b =>
    have hlen := (emits_extendFromSlice (ε := ε) (encode 8 b.length)).seq (emits_extendFromSlice b)
    exact ((emits_push _).seq hlen).congr rfl (by simp)

theorem emits_string (s : String) (reason : String) :
    Emits (do pushLen (utf8 s).length reason; extendFromSlice (utf8 s) :
      EStateM (PersistError ε) Bytes Unit) (stringBody s) (StringFits s) :=
  ((emits_pushLen _ _).seq (emits_extendFromSlice _)).congr rfl (by simp [StringFits])

theorem emits_encodeValue (v : Value) :
    Emits (encodeValue v : EStateM (PersistError ε) Bytes Unit) (valueBody v) (ValueFits v) := by
  cases v with
  | string s => exact ((emits_push _).seq (emits_string s _)).congr rfl (by simp [ValueFits])
  | int i => exact ((emits_push _).seq (emits_extendFromSlice _)).congr rfl (by simp [ValueFits])
  | float f => exact ((emits_push _).seq (emits_extendFromSlice _)).congr rfl (by simp [ValueFits])
  | bool b => exact ((emits_push _).seq (emits_push _)).congr rfl (by simp [ValueFits])
  | null => exact (emits_push _).congr rfl (by simp [ValueFits])

theorem emits_encodeEntries (entries : List (String × Value)) :
    Emits (encodeEntries entries : EStateM (PersistError ε) Bytes Unit)
      (entries.flatMap entryBody)
      (∀ entry ∈ entries, StringFits entry.1 ∧ ValueFits entry.2) := by
  induction entries with
  | nil => exact fun _ => ⟨by simp, (List.append_nil _).symm⟩
  | cons entry entries ih =>
    obtain ⟨key, value⟩ := entry
    have hvalue := (emits_encodeValue value).seq ih
    have hkey := (emits_pushLen (ε := ε) (utf8 key).length
      "metadata key length does not fit in u32").seq ((emits_extendFromSlice (utf8 key)).seq hvalue)
    apply hkey.congr
    · simp [entryBody, stringBody]
    · simp [StringFits, and_assoc]

theorem emits_encodeMetadata (md : MetadataOps M) (m : M) :
    Emits (encodeMetadata md m : EStateM (PersistError ε) Bytes Unit) (metadataBody md m)
      (MetadataFits md m) :=
  (emits_pushLen _ _).seq (emits_encodeEntries _)

theorem emits_encodeComponents (vector : List F32) :
    Emits (encodeComponents vector : EStateM (PersistError ε) Bytes Unit)
      (vector.flatMap fun c => encode 4 c.toNat) True := by
  induction vector with
  | nil => exact fun _ => ⟨trivial, (List.append_nil _).symm⟩
  | cons c vector ih =>
    exact ((emits_extendFromSlice _).seq ih).congr (by simp) (by simp)

/-- What the encoder writes after the vector: the metadata flag, and the map if there is one. -/
theorem emits_metadata (md : MetadataOps M) (metadata : Option M) :
    Emits (ε := ε) (match metadata with
        | some m => do push 1; encodeMetadata md m
        | none => push 0)
      (match metadata with
        | some m => 1 :: metadataBody md m
        | none => [0])
      (∀ m ∈ metadata, MetadataFits md m) := by
  cases metadata with
  | none => exact (emits_push 0).congr rfl (by simp)
  | some m => exact ((emits_push 1).seq (emits_encodeMetadata md m)).congr rfl (by simp)

/-- The encoder leaves exactly the record's body in the buffer, whatever the buffer held, and
refuses exactly the records with a length that does not fit. -/
theorem ends_encodeRecord (md : MetadataOps M) (r : WalRecord M) (buf : Bytes) :
    Ends (encodeRecord md r : EStateM (PersistError ε) Bytes Unit) buf
      (fun _ s => RecordFits md r ∧ s = recordBody md r)
      (fun e _ => ¬ RecordFits md r ∧ ¬ e.IsIo) := by
  cases r with
  | delete id =>
    have hall := (emits_push (ε := ε) opDelete).seq (emits_encodeVectorId id)
    have hdelete := hall.congr (g := RecordFits md (.delete id)) rfl (by simp [RecordFits])
    exact hdelete []
  | insert id vector metadata =>
    have hvector := (emits_pushLen (ε := ε) vector.length "vector length does not fit in u32").seq
      ((emits_encodeComponents vector).seq (emits_metadata md metadata))
    have hall := (emits_push opInsert).seq ((emits_encodeVectorId id).seq hvector)
    have hinsert := hall.congr (c := recordBody md (.insert id vector metadata))
      (g := RecordFits md (.insert id vector metadata))
      (by cases metadata <;> simp [recordBody, vectorBody]) (by simp [RecordFits])
    exact hinsert []

theorem encodeRecord_eq_ok_iff {md : MetadataOps M} {r : WalRecord M} {body buf : Bytes} :
    encodeRecord md r buf = (.ok () body : EStateM.Result (PersistError ε) Bytes Unit) ↔
      RecordFits md r ∧ recordBody md r = body := by
  have hends := ends_encodeRecord (ε := ε) md r buf
  constructor
  · intro h
    obtain ⟨hfits, rfl⟩ := ends_of_ok hends h
    exact ⟨hfits, rfl⟩
  · rintro ⟨hfits, rfl⟩
    obtain ⟨_, _, hok, -, rfl⟩ := ok_of_ends (hends.mono (fun _ _ h => h) fun _ _ h => h.1 hfits)
    exact hok

end Encode

end IqdbPersist
