import IqdbPersist.SampleIndex
import IqdbPersist.WalParse

/-!
# Logs with an inverted bit

A bit inverted in the header, in a checksum or in a body stops the reader where it stands. A bit of
a length field, which no checksum covers, gives the frame another end: made shorter, a body does not
decode; made longer, it swallows what follows and still decodes to its record, so that everything
rests on the checksum of the longer body.
-/

namespace FramedLog

open BitFlip LittleEndian

variable {F : Format}

/-- What the length field of a frame announces once its bit `j` is inverted. -/
def announcedAfter (body : Bytes) (j : ℕ) : ℕ := decode (flipBit (encode 4 body.length) j)

theorem decode_flipBit_ne (bytes : Bytes) {j : ℕ} (hj : j < 8 * bytes.length) :
    decode (flipBit bytes j) ≠ decode bytes :=
  fun heq => flipBit_ne hj (decode_injective (length_flipBit bytes j) heq)

theorem announcedAfter_ne {body : Bytes} (hbody : body.length < 2 ^ 32) {j : ℕ} (hj : j < 32) :
    announcedAfter body j ≠ body.length := by
  have hne := decode_flipBit_ne (encode 4 body.length) (by rw [length_encode]; exact hj)
  rwa [decode_encode_of_lt hbody] at hne

theorem frame_append (body rest : Bytes) : frame F body ++ rest =
    encode 4 body.length ++ (encode 4 (F.checksum body).toNat ++ (body ++ rest)) := by
  simp only [frame, head, List.append_assoc]

theorem decode_checksum (body : Bytes) :
    decode (encode 4 (F.checksum body).toNat) = (F.checksum body).toNat :=
  decode_encode_of_lt (F.checksum body).toNat_lt

theorem front_flipBit_length (body rest : Bytes) {j : ℕ} (hj : j < 32) :
    front F (flipBit (frame F body ++ rest) j) =
      if announcedAfter body j ≤ (body ++ rest).length ∧ announcedAfter body j ≤ F.limit ∧
          F.checksum ((body ++ rest).take (announcedAfter body j)) = F.checksum body then
        some ((body ++ rest).take (announcedAfter body j),
          (body ++ rest).drop (announcedAfter body j))
      else none := by
  have hfield : j < 8 * (encode 4 body.length).length := by
    rw [length_encode]
    exact hj
  have hlen := (length_flipBit (encode 4 body.length) j).trans (length_encode 4 body.length)
  rw [frame_append, flipBit_append_left hfield, front_fields F hlen (length_encode 4 _)]
  rw [decode_checksum]
  exact if_congr (by rw [UInt32.toNat_inj, announcedAfter]) rfl rfl

theorem front_flipBit (hdetects : DetectsBitFlips F.checksum) {body : Bytes}
    (hbody : body.length < 2 ^ 32) (rest : Bytes) {j : ℕ} (hj : 32 ≤ j)
    (hj' : j < 8 * (8 + body.length)) : front F (flipBit (frame F body ++ rest) j) = none := by
  obtain ⟨j, rfl⟩ := Nat.exists_eq_add_of_le hj
  have hlen : decode (encode 4 body.length) = body.length := decode_encode_of_lt hbody
  have hskip := flipBit_append_right (encode 4 body.length)
    (encode 4 (F.checksum body).toNat ++ (body ++ rest)) j
  rw [length_encode] at hskip
  rw [frame_append, hskip]
  by_cases hcrc : j < 32
  · have hfield : j < 8 * (encode 4 (F.checksum body).toNat).length := by
      rw [length_encode]
      exact hcrc
    rw [flipBit_append_left hfield, front_fields F (length_encode 4 _)
      ((length_flipBit _ j).trans (length_encode 4 _)), hlen, List.take_left]
    rw [if_neg]
    rintro ⟨-, -, heq⟩
    exact decode_flipBit_ne _ hfield (heq.symm.trans (decode_checksum body).symm)
  · obtain ⟨j, rfl⟩ := Nat.exists_eq_add_of_le (Nat.not_lt.mp hcrc)
    have hskip := flipBit_append_right (encode 4 (F.checksum body).toNat) (body ++ rest) j
    rw [length_encode] at hskip
    have hfield : j < 8 * body.length := by omega
    rw [hskip, flipBit_append_left hfield, front_fields F (length_encode 4 _) (length_encode 4 _),
      hlen, List.take_left' (length_flipBit body j), decode_checksum, if_neg]
    rintro ⟨-, -, heq⟩
    exact hdetects body j hfield (UInt32.toNat_inj.mp heq)

end FramedLog

namespace IqdbPersist

open BitFlip FramedLog LittleEndian

variable {ε M : Type} {b : Build M}

/-- The record whose length field has the bit `i` is `r`, of which `j` is the bit's number. -/
theorem exists_record_of_bit {rs : List (WalRecord M)} {i : ℕ}
    (hi : i < 8 * (recordFrames b rs).length) :
    ∃ pre r post j, rs = pre ++ r :: post ∧ i = 8 * (recordFrames b pre).length + j ∧
      j < 8 * (8 + (recordBody b.metadata r).length) := by
  induction rs generalizing i with
  | nil => exact absurd hi (Nat.not_lt_zero i)
  | cons r rs ih =>
    rw [recordFrames_cons, List.length_append, length_frame] at hi
    by_cases hfirst : i < 8 * (8 + (recordBody b.metadata r).length)
    · exact ⟨[], r, rs, i, rfl, by simp [recordFrames], hfirst⟩
    · obtain ⟨i, rfl⟩ := Nat.exists_eq_add_of_le (Nat.not_lt.mp hfirst)
      obtain ⟨pre, r', post, j, rfl, rfl, hj⟩ := ih (i := i) (by omega)
      refine ⟨r :: pre, r', post, j, rfl, ?_, hj⟩
      rw [recordFrames_cons, List.length_append, length_frame]
      omega

/-- The lengthened frame passes for one, and behind it frames follow that are not those of the next
records. -/
def Reframes (ε : Type) (b : Build M) (rs : List (WalRecord M)) (i : ℕ) : Prop :=
  ∃ pre r post j k recs, rs = pre ++ r :: post ∧ i = 8 * (logOf b pre).length + j ∧ j < 32 ∧
    announcedAfter (recordBody b.metadata r) j = (recordBody b.metadata r).length + k ∧
    (recordBody b.metadata r).length + k ≤ maxRecordLen ∧ k ≤ (recordFrames b post).length ∧
    b.crc32 (recordBody b.metadata r ++ (recordFrames b post).take k) =
      b.crc32 (recordBody b.metadata r) ∧
    decodeBodies b (scan (logFormat b) ((recordFrames b post).drop k)) =
      (.ok recs : Except (PersistError ε) _) ∧ ¬ recs <+: post

/-- The log is refused, or it parses to a prefix of these records. -/
def ReadsPrefix (ε : Type) (b : Build M) (rs : List (WalRecord M)) (log : Bytes) : Prop :=
  (∃ e, parseRecords b log = (.error e : Except (PersistError ε) (List (WalRecord M)))) ∨
    ∃ recs, parseRecords b log = (.ok recs : Except (PersistError ε) _) ∧ recs <+: rs

theorem readsPrefix_of_ok {rs recs : List (WalRecord M)} {log : Bytes}
    (h : parseRecords b log = (.ok recs : Except (PersistError ε) _)) :
    ReadsPrefix ε b rs log ↔ recs <+: rs := by
  constructor
  · rintro (⟨e, he⟩ | ⟨recs', hrecs', hprefix⟩)
    · rw [h] at he
      cases he
    · rw [h] at hrecs'
      cases hrecs'
      exact hprefix
  · exact fun hprefix => .inr ⟨recs, h, hprefix⟩

theorem parseRecords_flipBit_header (rs : List (WalRecord M)) {i : ℕ} (hi : i < 96) :
    ∃ e, parseRecords b (flipBit (logOf b rs) i) =
      (.error e : Except (PersistError ε) (List (WalRecord M))) := by
  have hheader : i < 8 * walHeader.length := hi
  cases hparse : parseRecords (ε := ε) (M := M) b (flipBit (logOf b rs) i) with
  | error e => exact ⟨e, rfl⟩
  | ok recs =>
    have hlen : 12 ≤ (flipBit (logOf b rs) i).length := by
      rw [length_flipBit, logOf, List.length_append, length_walHeader]
      exact Nat.le_add_right 12 _
    have hprefix := walHeader_prefix_of_parseRecords b hparse hlen
    rw [logOf, flipBit_append_left hheader] at hprefix
    obtain ⟨rest, hrest⟩ := hprefix
    have hsame := (List.append_inj hrest (length_flipBit walHeader i).symm).1
    exact absurd hsame.symm (flipBit_ne hheader)

section Written

variable (hmd : b.metadata.Lawful) {pre post : List (WalRecord M)} {r : WalRecord M}
  (h : ∀ r' ∈ pre ++ r :: post, Loggable b r')

include hmd h

theorem parseRecords_flipBit (j : ℕ) :
    parseRecords (ε := ε) b (flipBit (logOf b (pre ++ r :: post)) (8 * (logOf b pre).length + j)) =
      (decodeBodies b (scan (logFormat b)
        (flipBit (frame (logFormat b) (recordBody b.metadata r) ++ recordFrames b post) j))).map
          (pre ++ ·) := by
  have hpre : ∀ r' ∈ pre, Loggable b r' := fun r' hr' => h r' (List.mem_append_left _ hr')
  rw [logOf_append, flipBit_append_right, logOf, List.append_assoc, parseRecords_walHeader,
    recordFrames, scan_frames _ (length_body_le_limit hpre), decodeBodies_append hmd hpre,
    recordFrames_cons]

theorem parseRecords_lengthened {j k : ℕ} (hj : j < 32)
    (hlen : announcedAfter (recordBody b.metadata r) j = (recordBody b.metadata r).length + k)
    (hlimit : (recordBody b.metadata r).length + k ≤ maxRecordLen)
    (hpost : k ≤ (recordFrames b post).length)
    (hcrc : b.crc32 (recordBody b.metadata r ++ (recordFrames b post).take k) =
      b.crc32 (recordBody b.metadata r)) :
    parseRecords (ε := ε) b (flipBit (logOf b (pre ++ r :: post)) (8 * (logOf b pre).length + j)) =
      (decodeBodies b (scan (logFormat b) ((recordFrames b post).drop k))).map
        ((pre ++ [r]) ++ ·) := by
  have hr : Loggable b r := h r (List.mem_append_right _ List.mem_cons_self)
  have hhost : (recordBody b.metadata r).length ≤ b.host.usizeMax :=
    Nat.le_trans hr.2 (Nat.le_trans (by decide) b.host.usizeMax_ge)
  have hfront := front_flipBit_length (F := logFormat b) (recordBody b.metadata r)
    (recordFrames b post) hj
  rw [hlen, List.take_length_add_append, List.drop_length_add_append, if_pos] at hfront
  · rw [parseRecords_flipBit hmd h, scan_of_front _ hfront, decodeBodies_cons,
      decodeRecord_append b hmd hr.1 hhost]
    change Except.map _ (Except.map _ _) = _
    cases decodeBodies (ε := ε) b (scan (logFormat b) ((recordFrames b post).drop k)) with
    | error e => rfl
    | ok recs => exact congrArg Except.ok (List.append_cons pre r recs)
  · refine ⟨?_, hlimit, hcrc⟩
    rw [List.length_append]
    omega

theorem readsPrefix_lengthened_iff {j k : ℕ} (hj : j < 32)
    (hlen : announcedAfter (recordBody b.metadata r) j = (recordBody b.metadata r).length + k)
    (hlimit : (recordBody b.metadata r).length + k ≤ maxRecordLen)
    (hpost : k ≤ (recordFrames b post).length)
    (hcrc : b.crc32 (recordBody b.metadata r ++ (recordFrames b post).take k) =
      b.crc32 (recordBody b.metadata r)) :
    ReadsPrefix ε b (pre ++ r :: post)
        (flipBit (logOf b (pre ++ r :: post)) (8 * (logOf b pre).length + j)) ↔
      ∀ recs, decodeBodies b (scan (logFormat b) ((recordFrames b post).drop k)) =
        (.ok recs : Except (PersistError ε) _) → recs <+: post := by
  have hparse := parseRecords_lengthened (ε := ε) hmd h hj hlen hlimit hpost hcrc
  cases hdecode : decodeBodies (ε := ε) b
      (scan (logFormat b) ((recordFrames b post).drop k)) with
  | error e =>
    rw [hdecode] at hparse
    refine iff_of_true (.inl ⟨e, hparse⟩) ?_
    rintro recs ⟨⟩
  | ok recs =>
    rw [hdecode] at hparse
    have hskip : (pre ++ [r]) ++ recs <+: pre ++ r :: post ↔ recs <+: post := by
      rw [List.append_assoc, List.prefix_append_right_inj]
      exact List.cons_prefix_cons.trans (and_iff_right rfl)
    rw [readsPrefix_of_ok hparse]
    refine hskip.trans ⟨?_, fun hall => hall recs rfl⟩
    rintro hrecs _ ⟨⟩
    exact hrecs

theorem readsPrefix_shortened {j : ℕ} (hj : j < 32)
    (hlen : announcedAfter (recordBody b.metadata r) j < (recordBody b.metadata r).length) :
    ReadsPrefix ε b (pre ++ r :: post)
      (flipBit (logOf b (pre ++ r :: post)) (8 * (logOf b pre).length + j)) := by
  have hr : Loggable b r := h r (List.mem_append_right _ List.mem_cons_self)
  have hhost : (recordBody b.metadata r).length ≤ b.host.usizeMax :=
    Nat.le_trans hr.2 (Nat.le_trans (by decide) b.host.usizeMax_ge)
  have hfront := front_flipBit_length (F := logFormat b) (recordBody b.metadata r)
    (recordFrames b post) hj
  rw [ReadsPrefix, parseRecords_flipBit hmd h]
  split at hfront
  · rw [scan_of_front _ hfront, decodeBodies_cons,
      List.take_append_of_le_length (Nat.le_of_lt hlen)]
    cases hdecode : decodeRecord (ε := ε) b ((recordBody b.metadata r).take
        (announcedAfter (recordBody b.metadata r) j)) with
    | error e => exact .inl ⟨e, rfl⟩
    | ok r' => exact absurd hdecode (decodeRecord_take b hmd hr.1 hhost hlen r')
  · rw [scan_of_front_none _ hfront]
    refine .inr ⟨pre, congrArg Except.ok (List.append_nil pre), List.prefix_append pre _⟩

theorem parseRecords_unreadable (hcrc : BitFlip.DetectsBitFlips b.crc32) {j : ℕ} (hj : 32 ≤ j)
    (hj' : j < 8 * (8 + (recordBody b.metadata r).length)) :
    parseRecords b (flipBit (logOf b (pre ++ r :: post)) (8 * (logOf b pre).length + j)) =
      (.ok pre : Except (PersistError ε) _) := by
  have hr : Loggable b r := h r (List.mem_append_right _ List.mem_cons_self)
  have hfront := front_flipBit (F := logFormat b) hcrc hr.length_body (recordFrames b post) hj hj'
  rw [parseRecords_flipBit hmd h, scan_of_front_none _ hfront]
  exact congrArg Except.ok (List.append_nil pre)

theorem parseRecords_longer {j k : ℕ} (hj : j < 32)
    (hlen : announcedAfter (recordBody b.metadata r) j = (recordBody b.metadata r).length + k) :
    parseRecords b (flipBit (logOf b (pre ++ r :: post)) (8 * (logOf b pre).length + j)) =
        (.ok pre : Except (PersistError ε) _) ∨
      (recordBody b.metadata r).length + k ≤ maxRecordLen ∧ k ≤ (recordFrames b post).length ∧
        b.crc32 (recordBody b.metadata r ++ (recordFrames b post).take k) =
          b.crc32 (recordBody b.metadata r) := by
  have hfront := front_flipBit_length (F := logFormat b) (recordBody b.metadata r)
    (recordFrames b post) hj
  rw [hlen, List.take_length_add_append] at hfront
  split at hfront
  · rename_i hunnoticed
    obtain ⟨hle, hlimit, hcrc⟩ := hunnoticed
    rw [List.length_append, Nat.add_le_add_iff_left] at hle
    exact .inr ⟨hlimit, hle, hcrc⟩
  · rw [parseRecords_flipBit hmd h, scan_of_front_none _ hfront]
    exact .inl (congrArg Except.ok (List.append_nil pre))

end Written

/-- A log with one bit inverted is refused or parses to a prefix of its records, unless the bit
lengthens a frame unnoticed and behind it other frames follow. -/
theorem readsPrefix_flipBit_iff (hmd : b.metadata.Lawful) (hcrc : DetectsBitFlips b.crc32)
    {rs : List (WalRecord M)} (h : ∀ r ∈ rs, Loggable b r) {i : ℕ}
    (hi : i < 8 * (logOf b rs).length) :
    ReadsPrefix ε b rs (flipBit (logOf b rs) i) ↔ ¬ Reframes ε b rs i := by
  constructor
  · rintro hread ⟨pre, r, post, j, k, recs, rfl, rfl, hj, hlen, hlimit, hpost, hcrc, hdecode, hnot⟩
    rw [readsPrefix_lengthened_iff hmd h hj hlen hlimit hpost hcrc] at hread
    exact hnot (hread recs hdecode)
  · intro hframes
    by_cases hheader : i < 96
    · exact .inl (parseRecords_flipBit_header rs hheader)
    · obtain ⟨i, rfl⟩ := Nat.exists_eq_add_of_le (Nat.not_lt.mp hheader)
      rw [length_logOf, Nat.mul_add, Nat.add_lt_add_iff_left] at hi
      obtain ⟨pre, r, post, j, rfl, rfl, hj⟩ := exists_record_of_bit hi
      have hpos : 96 + (8 * (recordFrames b pre).length + j) = 8 * (logOf b pre).length + j := by
        rw [length_logOf]
        omega
      rw [hpos] at hframes ⊢
      have hprefix : pre <+: pre ++ r :: post := List.prefix_append pre _
      have hr : Loggable b r := h r (List.mem_append_right _ List.mem_cons_self)
      rcases Nat.lt_or_ge j 32 with hfield | hbehind
      · -- the length field: the frame is shortened or lengthened
        rcases Nat.lt_trichotomy (announcedAfter (recordBody b.metadata r) j)
          (recordBody b.metadata r).length with hlt | heq | hgt
        · exact readsPrefix_shortened hmd h hfield hlt
        · exact absurd heq (announcedAfter_ne hr.length_body hfield)
        · obtain ⟨k, hk⟩ := Nat.exists_eq_add_of_le (Nat.le_of_lt hgt)
          rcases parseRecords_longer hmd h hfield hk with hparse | ⟨hlimit, hpost, hsame⟩
          · exact .inr ⟨pre, hparse, hprefix⟩
          · rw [readsPrefix_lengthened_iff hmd h hfield hk hlimit hpost hsame]
            intro recs hdecode
            by_contra hnot
            exact hframes ⟨pre, r, post, j, k, recs, rfl, rfl, hfield, hk, hlimit, hpost, hsame,
              hdecode, hnot⟩
      · exact .inr ⟨pre, parseRecords_unreadable hmd h hcrc hbehind hj, hprefix⟩

/-- An id whose frame leaves the checksum as it is behind the body of the first record. -/
def unnoticedId : Bytes := [75, 164, 153, 188, 0, 0, 0, 0, 0, 0, 0, 0, 0, 0]

def threeDeletes : List (WalRecord (List (String × Value))) :=
  [.delete (.u64 7), .delete (.bytes unnoticedId), .delete (.u64 9)]

theorem threeDeletes_loggable : ∀ r ∈ threeDeletes, Loggable defaultBuild r := by
  intro r hr
  simp only [threeDeletes, List.mem_cons, List.not_mem_nil, or_false] at hr
  rcases hr with rfl | rfl | rfl <;> exact ⟨trivial, by decide⟩

theorem readsPrefix_flipBit_iff_deletes :
    ReadsPrefix IdError defaultBuild threeDeletes (flipBit (logOf defaultBuild threeDeletes) 101) ↔
      ¬ Reframes IdError defaultBuild threeDeletes 101 :=
  readsPrefix_flipBit_iff entryList_lawful Crc32.hash_detectsBitFlips threeDeletes_loggable
    (by decide +kernel)

theorem crc_unnoticedId :
    defaultBuild.crc32 (recordBody entryList (.delete (.u64 7) : WalRecord _) ++
        (recordFrames defaultBuild threeDeletes.tail).take 32) =
      defaultBuild.crc32 (recordBody entryList (.delete (.u64 7) : WalRecord _)) := by
  decide +kernel

/-- With the sixth bit of its length inverted, the first frame swallows the second and the log
parses to the first record and the third. -/
theorem not_readsPrefix_threeDeletes :
    ¬ ∀ (rs : List (WalRecord (List (String × Value)))) (i : ℕ),
      (∀ r ∈ rs, Loggable defaultBuild r) → i < 8 * (logOf defaultBuild rs).length →
        ReadsPrefix IdError defaultBuild rs (flipBit (logOf defaultBuild rs) i) := by
  intro hall
  have hread : ReadsPrefix IdError defaultBuild ([] ++ .delete (.u64 7) :: threeDeletes.tail)
      (flipBit (logOf defaultBuild ([] ++ .delete (.u64 7) :: threeDeletes.tail))
        (8 * (logOf defaultBuild ([] : List (WalRecord (List (String × Value))))).length + 5)) :=
    hall threeDeletes 101 threeDeletes_loggable (by decide +kernel)
  have hlast : (recordFrames defaultBuild threeDeletes.tail).drop 32 =
      frames (logFormat defaultBuild)
        ([.delete (.u64 9)].map (recordBody defaultBuild.metadata)) ++ [] :=
    List.drop_left' (length_frame _ _)
  have hthird : ∀ r ∈ [WalRecord.delete (.u64 9)], Loggable defaultBuild r := fun r hr =>
    threeDeletes_loggable r (List.mem_cons_of_mem _ (List.mem_cons_of_mem _ hr))
  have hdecode : decodeBodies defaultBuild (scan (logFormat defaultBuild)
      ((recordFrames defaultBuild threeDeletes.tail).drop 32)) =
        (.ok [.delete (.u64 9)] : Except (PersistError IdError) _) := by
    rw [hlast, scan_frames_of_front_none _ (length_body_le_limit hthird)
      (front_of_short _ (by simp)), decodeBodies_map entryList_lawful hthird]
  rw [readsPrefix_lengthened_iff (k := 32) entryList_lawful threeDeletes_loggable (by decide)
    (by decide) (by decide) (by decide +kernel) crc_unnoticedId] at hread
  exact absurd (hread _ hdecode) (by decide)

end IqdbPersist
