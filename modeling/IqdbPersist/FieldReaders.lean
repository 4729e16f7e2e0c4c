import IqdbPersist.RecordGrammar

/-!
# The fields of a record, read through a cursor

For each field reader of the decoder a law in either direction: it reads the field's bytes and
returns the field, and what it has read, when it returns, is the bytes of the field it returns. A
reader that does not return reports an invalid payload.
-/

namespace IqdbPersist

open CrashLogic ByteReader LittleEndian

variable {ε M : Type}

def PersistError.IsInvalidPayload : PersistError ε → Prop
  | .invalidPayload _ => True
  | _ => False

section Decode

variable (b : Build M)

theorem consumes_of_le {α : Type} {limit : ℕ} {p : EStateM ε Cursor α} {bs : Bytes} {a : α}
    (h : bs.length ≤ limit → Consumes limit p bs a) : Consumes limit p bs a := by
  intro pre post hl
  refine h ?_ pre post hl
  simp only [List.length_append] at hl
  omega

theorem consumes_take (bs : Bytes) :
    Consumes b.host.usizeMax (take b bs.length : EStateM (PersistError ε) Cursor Bytes) bs bs := by
  intro pre post hl
  have hfit : ¬ b.host.usizeMax < pre.length + bs.length := by
    simpa only [List.length_append, Nat.not_lt] using hl
  simp only [take, if_neg hfit, split_append]

theorem consumes_takeN {n : ℕ} {bs : Bytes} (h : bs.length = n) :
    Consumes b.host.usizeMax (take b n : EStateM (PersistError ε) Cursor Bytes) bs bs := by
  subst h
  exact consumes_take b bs

theorem consumes_readU8 (n : UInt8) :
    Consumes b.host.usizeMax (readU8 b : EStateM (PersistError ε) Cursor UInt8) [n] n :=
  (consumes_takeN b (rfl : [n].length = 1)).bind (consumes_pure _)

theorem consumes_readU32 (n : UInt32) :
    Consumes b.host.usizeMax (readU32 b : EStateM (PersistError ε) Cursor UInt32)
      (encode 4 n.toNat) n := by
  have hn : UInt32.ofNat (decode (encode 4 n.toNat)) = n := by
    rw [decode_encode_of_lt (k := 4) n.toNat_lt, UInt32.ofNat_toNat]
  refine (consumes_takeN b (length_encode 4 n.toNat)).finish ?_
  rw [hn]
  exact consumes_pure n

theorem consumes_readU64 (n : UInt64) :
    Consumes b.host.usizeMax (readU64 b : EStateM (PersistError ε) Cursor UInt64)
      (encode 8 n.toNat) n := by
  have hn : UInt64.ofNat (decode (encode 8 n.toNat)) = n := by
    rw [decode_encode_of_lt (k := 8) n.toNat_lt, UInt64.ofNat_toNat]
  refine (consumes_takeN b (length_encode 8 n.toNat)).finish ?_
  rw [hn]
  exact consumes_pure n

theorem consumes_readLen {n : ℕ} (h : n < 2 ^ 32) :
    Consumes b.host.usizeMax (readU32 b : EStateM (PersistError ε) Cursor UInt32)
      (encode 4 n) (UInt32.ofNat n) := by
  simpa only [encode_ofNat_toNat h] using consumes_readU32 (ε := ε) b (UInt32.ofNat n)

theorem fromUtf8_utf8 (s : String) : fromUtf8 (utf8 s) = some s := by
  change String.fromUTF8? s.toByteArray = some s
  unfold String.fromUTF8?
  rw [dif_pos s.isValidUTF8]
  rfl

theorem utf8_of_fromUtf8 {bytes : Bytes} {s : String} (h : fromUtf8 bytes = some s) :
    utf8 s = bytes := by
  unfold fromUtf8 String.fromUTF8? at h
  split at h
  · rw [← Option.some.inj h]
    rfl
  · cases h

theorem consumes_readString {s : String} (reason : String) (h : StringFits s) :
    Consumes b.host.usizeMax (readString b reason : EStateM (PersistError ε) Cursor String)
      (stringBody s) s := by
  refine (consumes_readLen b h).bind ?_
  rw [encode_ofNat_toNat h]
  refine (consumes_take b (utf8 s)).finish ?_
  rw [fromUtf8_utf8]
  exact consumes_pure s

theorem consumes_decodeVectorId (id : VectorId) :
    Consumes b.host.usizeMax (decodeVectorId b : EStateM (PersistError ε) Cursor VectorId)
      (idBody id) id := by
  cases id with
  | u64 n =>
    exact (consumes_readU8 b vidU64).bind ((consumes_readU64 b n).map VectorId.u64)
  | bytes bs =>
    apply consumes_of_le
    intro hl
    have hfit : bs.length ≤ b.host.usizeMax := by
      simp only [idBody, List.length_cons, List.length_append] at hl
      omega
    have hlen : (UInt64.ofNat bs.length).toNat = bs.length := by
      rw [UInt64.toNat_ofNat', Nat.mod_eq_of_lt (Nat.lt_of_le_of_lt hfit b.host.usizeMax_lt)]
    refine (consumes_readU8 b vidBytes).bind ?_
    have hread := consumes_readU64 (ε := ε) b (UInt64.ofNat bs.length)
    rw [hlen] at hread
    refine hread.bind ?_
    rw [hlen, if_neg (Nat.not_lt.mpr hfit)]
    exact (consumes_take b bs).map VectorId.bytes

end Decode

section Inversion

variable (b : Build M)

theorem encode_of_u32 {bs : Bytes} (hbs : bs.length = 4) :
    encode 4 (UInt32.ofNat (decode bs)).toNat = bs := by
  have hlt : decode bs < 2 ^ 32 := by
    calc decode bs < 256 ^ bs.length := decode_lt bs
      _ = 2 ^ 32 := by rw [hbs]; rfl
  rw [encode_ofNat_toNat hlt, encode_decode_of_length hbs]

theorem encode_of_u64 {bs : Bytes} (hbs : bs.length = 8) :
    encode 8 (UInt64.ofNat (decode bs)).toNat = bs := by
  have hlt : decode bs < 2 ^ 64 := by
    calc decode bs < 256 ^ bs.length := decode_lt bs
      _ = 2 ^ 64 := by rw [hbs]; rfl
  rw [UInt64.toNat_ofNat', Nat.mod_eq_of_lt hlt, encode_decode_of_length hbs]

theorem ends_take (n : ℕ) (c : Cursor) :
    Ends (take b n : EStateM (PersistError ε) Cursor Bytes) c
      (fun bs c' => bs.length = n ∧ Reads c bs c') (fun e _ => e.IsInvalidPayload) := by
  unfold Ends take
  split_ifs
  · trivial
  · cases hsplit : c.split n with
    | none => trivial
    | some read => exact reads_of_split hsplit

theorem ends_readU8 (c : Cursor) :
    Ends (readU8 b : EStateM (PersistError ε) Cursor UInt8) c
      (fun n c' => Reads c [n] c') (fun e _ => e.IsInvalidPayload) := by
  rw [readU8, ends_bind]
  refine (ends_take b 1 c).mono ?_ fun _ _ h => h
  rintro bs c' ⟨hlen, hreads⟩
  obtain ⟨n, rfl⟩ := List.length_eq_one_iff.mp hlen
  exact hreads

theorem ends_readU32 (c : Cursor) :
    Ends (readU32 b : EStateM (PersistError ε) Cursor UInt32) c
      (fun n c' => Reads c (encode 4 n.toNat) c') (fun e _ => e.IsInvalidPayload) := by
  rw [readU32, ends_bind]
  refine (ends_take b 4 c).mono ?_ fun _ _ h => h
  rintro bs c' ⟨hlen, hreads⟩
  rw [ends_pure, encode_of_u32 hlen]
  exact hreads

theorem ends_readU64 (c : Cursor) :
    Ends (readU64 b : EStateM (PersistError ε) Cursor UInt64) c
      (fun n c' => Reads c (encode 8 n.toNat) c') (fun e _ => e.IsInvalidPayload) := by
  rw [readU64, ends_bind]
  refine (ends_take b 8 c).mono ?_ fun _ _ h => h
  rintro bs c' ⟨hlen, hreads⟩
  rw [ends_pure, encode_of_u64 hlen]
  exact hreads

theorem ends_readString (reason : String) (c : Cursor) :
    Ends (readString b reason : EStateM (PersistError ε) Cursor String) c
      (fun s c' => StringFits s ∧ Reads c (stringBody s) c') (fun e _ => e.IsInvalidPayload) := by
  rw [readString, ends_bind]
  refine (ends_readU32 b c).mono ?_ fun _ _ h => h
  intro len c₁ hlen
  rw [ends_bind]
  refine (ends_take b len.toNat c₁).mono ?_ fun _ _ h => h
  rintro bs c₂ ⟨hbs, hreads⟩
  split
  · rename_i s hs
    have hutf8 := utf8_of_fromUtf8 hs
    rw [ends_pure, StringFits, stringBody, hutf8, hbs]
    exact ⟨len.toNat_lt, hlen.trans hreads⟩
  · trivial

theorem ends_decodeVectorId (c : Cursor) :
    Ends (decodeVectorId b : EStateM (PersistError ε) Cursor VectorId) c
      (fun id c' => Reads c (idBody id) c') (fun e _ => e.IsInvalidPayload) := by
  rw [decodeVectorId, ends_bind]
  refine (ends_readU8 b c).mono ?_ fun _ _ h => h
  intro kind c₁ hkind
  split
  · rw [ends_bind]
    refine (ends_readU64 b c₁).mono ?_ fun _ _ h => h
    exact fun n c₂ hn => hkind.trans hn
  · rw [ends_bind]
    refine (ends_readU64 b c₁).mono ?_ fun _ _ h => h
    intro len c₂ hlen
    split_ifs
    · trivial
    · rw [ends_bind]
      refine (ends_take b len.toNat c₂).mono ?_ fun _ _ h => h
      rintro bs c₃ ⟨hbs, hreads⟩
      rw [ends_pure, idBody, hbs]
      exact hkind.trans (hlen.trans hreads)
  · trivial

end Inversion

end IqdbPersist
