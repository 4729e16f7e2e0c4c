import IqdbPersist.LittleEndian
import Mathlib.Tactic.Common

/-!
# Logs of checked frames

A frame is the length of a body, its checksum and the body. Scanning takes frames off the front of
a byte string for as long as the announced length is within the reader's limit, the string is long
enough and the checksum agrees. What follows the last such frame is a torn tail and is not looked
at again, whatever it holds.
-/

namespace FramedLog

open LittleEndian

/-- The checksum of a log, and the longest body its reader takes. -/
structure Format where
  checksum : Bytes → UInt32
  limit : ℕ
  limit_lt : limit < 2 ^ 32

variable (F : Format)

def head (body : Bytes) : Bytes := encode 4 body.length ++ encode 4 (F.checksum body).toNat

def frame (body : Bytes) : Bytes := head F body ++ body

def frames (bodies : List Bytes) : Bytes := bodies.flatMap (frame F)

/-- The body of the frame at the front, and what follows the frame. -/
def front (bytes : Bytes) : Option (Bytes × Bytes) :=
  let len := decode (bytes.take 4)
  let body := (bytes.drop 8).take len
  if 8 + len ≤ bytes.length ∧ len ≤ F.limit ∧
      (F.checksum body).toNat = decode ((bytes.drop 4).take 4) then
    some (body, bytes.drop (8 + len))
  else none

@[simp] theorem length_head (body : Bytes) : (head F body).length = 8 := by simp [head]

@[simp] theorem length_frame (body : Bytes) : (frame F body).length = 8 + body.length := by
  simp [frame]

@[simp] theorem frames_nil : frames F [] = [] := rfl

@[simp] theorem frames_cons (body : Bytes) (bodies : List Bytes) :
    frames F (body :: bodies) = frame F body ++ frames F bodies := rfl

theorem frames_append (bodies bodies' : List Bytes) :
    frames F (bodies ++ bodies') = frames F bodies ++ frames F bodies' :=
  List.flatMap_append

theorem frames_snoc (bodies : List Bytes) (body : Bytes) :
    frames F (bodies ++ [body]) = frames F bodies ++ frame F body := by
  rw [frames_append, frames_cons, frames_nil, List.append_nil]

theorem eq_frame_of_front {bytes body rest : Bytes} (h : front F bytes = some (body, rest)) :
    bytes = frame F body ++ rest ∧ body.length ≤ F.limit := by
  simp only [front] at h
  split at h
  · rename_i hfront
    obtain ⟨hle, hlimit, hcrc⟩ := hfront
    obtain ⟨rfl, rfl⟩ := Prod.mk.inj (Option.some.inj h)
    have hbody : ((bytes.drop 8).take (decode (bytes.take 4))).length = decode (bytes.take 4) := by
      rw [List.length_take, List.length_drop]
      omega
    have hfield (i : ℕ) (hi : i + 4 ≤ bytes.length) :
        encode 4 (decode ((bytes.drop i).take 4)) = (bytes.drop i).take 4 := by
      apply encode_decode_of_length
      rw [List.length_take, List.length_drop]
      omega
    have hlen := hfield 0 (by omega)
    rw [List.drop_zero] at hlen
    refine ⟨?_, by rw [hbody]; exact hlimit⟩
    rw [frame, head, hbody, hcrc, hlen, hfield 4 (by omega), ← List.drop_drop, List.append_assoc,
      List.append_assoc, List.take_append_drop, show (8 : ℕ) = 4 + 4 from rfl, ← List.drop_drop,
      List.take_append_drop, List.take_append_drop]
  · cases h

theorem front_length {bytes body rest : Bytes} (h : front F bytes = some (body, rest)) :
    rest.length < bytes.length := by
  rw [(eq_frame_of_front F h).1, List.length_append, length_frame]
  omega

/-- The bodies of the frames from the front of a byte string on. -/
def scan (bytes : Bytes) : List Bytes :=
  match _h : front F bytes with
  | some (body, rest) => body :: scan rest
  | none => []
termination_by bytes.length
decreasing_by exact front_length F _h

theorem scan_of_front {bytes body rest : Bytes} (h : front F bytes = some (body, rest)) :
    scan F bytes = body :: scan F rest := by
  rw [scan]
  split
  · rename_i h'
    obtain ⟨rfl, rfl⟩ := Prod.mk.inj (Option.some.inj (h.symm.trans h'))
    rfl
  · rename_i h'
    cases h.symm.trans h'

theorem scan_of_front_none {bytes : Bytes} (h : front F bytes = none) : scan F bytes = [] := by
  rw [scan]
  split
  · rename_i h'
    cases h.symm.trans h'
  · rfl

theorem frames_scan_isPrefix (bytes : Bytes) : frames F (scan F bytes) <+: bytes := by
  fun_induction scan F bytes with
  | case1 bytes body rest hfront ih =>
    have hbytes := (eq_frame_of_front F hfront).1
    rw [hbytes]
    exact (List.prefix_append_right_inj _).mpr ih
  | case2 bytes hfront => exact List.nil_prefix

theorem length_le_of_mem_scan {bytes body : Bytes} (h : body ∈ scan F bytes) :
    body.length ≤ F.limit := by
  fun_induction scan F bytes with
  | case1 bytes body' rest hfront ih =>
    rcases List.mem_cons.mp h with rfl | hrest
    · exact (eq_frame_of_front F hfront).2
    · exact ih hrest
  | case2 bytes hfront => cases h

theorem front_fields {a c : Bytes} (ha : a.length = 4) (hc : c.length = 4) (tail : Bytes) :
    front F (a ++ (c ++ tail)) =
      if decode a ≤ tail.length ∧ decode a ≤ F.limit ∧
          (F.checksum (tail.take (decode a))).toNat = decode c then
        some (tail.take (decode a), tail.drop (decode a))
      else none := by
  have htake : (a ++ (c ++ tail)).take 4 = a := by rw [← ha, List.take_left]
  have hdrop : (a ++ (c ++ tail)).drop 4 = c ++ tail := by rw [← ha, List.drop_left]
  have hcrc : (c ++ tail).take 4 = c := by rw [← hc, List.take_left]
  have htail (n : ℕ) : (a ++ (c ++ tail)).drop (8 + n) = tail.drop n := by
    rw [show 8 + n = 4 + (4 + n) by omega, ← List.drop_drop, hdrop, ← List.drop_drop]
    rw [← hc, List.drop_left]
  have hlen : (a ++ (c ++ tail)).length = 8 + tail.length := by
    simp only [List.length_append]
    omega
  simp only [front, htake, hdrop, hcrc, htail, hlen, Nat.add_le_add_iff_left,
    show (a ++ (c ++ tail)).drop 8 = tail from htail 0]

theorem front_of_short {bytes : Bytes} (h : bytes.length < 8) : front F bytes = none := by
  rw [front, if_neg]
  rintro ⟨hle, -⟩
  omega

theorem front_of_announced {bytes : Bytes} (h : bytes.length < 8 + decode (bytes.take 4)) :
    front F bytes = none := by
  rw [front, if_neg]
  rintro ⟨hle, -⟩
  omega

theorem front_of_oversized {bytes : Bytes} (h : F.limit < decode (bytes.take 4)) :
    front F bytes = none := by
  rw [front, if_neg]
  rintro ⟨-, hle, -⟩
  omega

theorem announced_frame {body : Bytes} (h : body.length < 2 ^ 32) (rest : Bytes) :
    decode ((frame F body ++ rest).take 4) = body.length := by
  have htake : (frame F body ++ rest).take 4 = encode 4 body.length := by
    simp only [frame, head, List.append_assoc]
    exact List.take_left' (length_encode 4 body.length)
  rw [htake, decode_encode_of_lt h]

theorem front_frame {body : Bytes} (h : body.length ≤ F.limit) (rest : Bytes) :
    front F (frame F body ++ rest) = some (body, rest) := by
  have hlen : decode (encode 4 body.length) = body.length :=
    decode_encode_of_lt (Nat.lt_of_le_of_lt h F.limit_lt)
  have hcrc : decode (encode 4 (F.checksum body).toNat) = (F.checksum body).toNat :=
    decode_encode_of_lt (F.checksum body).toNat_lt
  have hfields := front_fields F (length_encode 4 body.length)
    (length_encode 4 (F.checksum body).toNat) (body ++ rest)
  rw [hlen, hcrc, List.take_left, List.drop_left, if_pos (by simp [h])] at hfields
  rwa [frame, head, List.append_assoc, List.append_assoc]

theorem scan_frames {bodies : List Bytes} (h : ∀ body ∈ bodies, body.length ≤ F.limit)
    (rest : Bytes) : scan F (frames F bodies ++ rest) = bodies ++ scan F rest := by
  induction bodies with
  | nil => rfl
  | cons body bodies ih =>
    have hbody := front_frame F (h body List.mem_cons_self) (frames F bodies ++ rest)
    rw [frames_cons, List.append_assoc, scan_of_front F hbody,
      ih fun b hb => h b (List.mem_cons_of_mem body hb), List.cons_append]

theorem scan_frames_of_front_none {bodies : List Bytes}
    (h : ∀ body ∈ bodies, body.length ≤ F.limit) {tail : Bytes} (htail : front F tail = none) :
    scan F (frames F bodies ++ tail) = bodies := by
  rw [scan_frames F h, scan_of_front_none F htail, List.append_nil]

theorem front_take_frame {body : Bytes} (h : body.length < 2 ^ 32) {t : ℕ}
    (ht : t < 8 + body.length) : front F ((frame F body).take t) = none := by
  by_cases h8 : t < 8
  · apply front_of_short
    rw [List.length_take]
    omega
  · apply front_of_announced
    have hannounced := announced_frame F h []
    rw [List.append_nil] at hannounced
    rw [List.take_take, Nat.min_eq_left (by omega), hannounced, List.length_take]
    omega

theorem front_oversized_frame {body : Bytes} (h : body.length < 2 ^ 32)
    (hlimit : F.limit < body.length) (rest : Bytes) : front F (frame F body ++ rest) = none := by
  apply front_of_oversized
  rw [announced_frame F h]
  exact hlimit

/-- Eight zero bytes are the frame of the empty body when that has checksum zero. -/
theorem front_zeros (h : F.checksum [] = 0) (k : ℕ) :
    front F (List.replicate (8 + k) 0) = some ([], List.replicate k 0) := by
  have hzeros : List.replicate (8 + k) (0 : UInt8) =
      List.replicate 4 0 ++ (List.replicate 4 0 ++ List.replicate k 0) := by
    rw [List.replicate_append_replicate, List.replicate_append_replicate]
    congr 1
    omega
  rw [hzeros, front_fields F List.length_replicate List.length_replicate,
    decode_replicate_zero, List.take_zero, List.drop_zero, h, if_pos (by simp)]

/-- The number of frames that lie wholly within the first `t` bytes. -/
def wholeFrames : List Bytes → ℕ → ℕ
  | [], _ => 0
  | body :: bodies, t =>
    if 8 + body.length ≤ t then wholeFrames bodies (t - (8 + body.length)) + 1 else 0

theorem wholeFrames_le (bodies : List Bytes) (t : ℕ) : wholeFrames bodies t ≤ bodies.length := by
  induction bodies generalizing t with
  | nil => exact Nat.le_refl 0
  | cons body bodies ih =>
    rw [wholeFrames]
    split
    · exact Nat.succ_le_succ (ih _)
    · exact Nat.zero_le _

theorem lt_wholeFrames_iff {bodies : List Bytes} {t i : ℕ} (hi : i < bodies.length) :
    i < wholeFrames bodies t ↔ (frames F (bodies.take (i + 1))).length ≤ t := by
  induction bodies generalizing t i with
  | nil => exact absurd hi (Nat.not_lt_zero i)
  | cons body bodies ih =>
    rw [wholeFrames, List.take_succ_cons, frames_cons, List.length_append, length_frame]
    by_cases hbody : 8 + body.length ≤ t
    · rw [if_pos hbody]
      cases i with
      | zero => simp [hbody]
      | succ i =>
        rw [Nat.add_lt_add_iff_right, ih (Nat.lt_of_succ_lt_succ hi)]
        omega
    · rw [if_neg hbody]
      omega

/-- A log cut at any offset scans to the bodies of the frames before the cut. -/
theorem scan_take_frames {bodies : List Bytes} (h : ∀ body ∈ bodies, body.length ≤ F.limit)
    (t : ℕ) : scan F ((frames F bodies).take t) = bodies.take (wholeFrames bodies t) := by
  induction bodies generalizing t with
  | nil =>
    rw [frames_nil, List.take_nil]
    exact scan_of_front_none F (front_of_short F (by simp))
  | cons body bodies ih =>
    have hbody := h body List.mem_cons_self
    rw [frames_cons, wholeFrames]
    by_cases ht : 8 + body.length ≤ t
    · have hcut : (frame F body ++ frames F bodies).take t =
          frame F body ++ (frames F bodies).take (t - (8 + body.length)) := by
        rw [List.take_append, length_frame, List.take_of_length_le (by simp [ht])]
      rw [if_pos ht, hcut, scan_of_front F (front_frame F hbody _),
        ih fun b hb => h b (List.mem_cons_of_mem body hb), List.take_succ_cons]
    · have hcut : (frame F body ++ frames F bodies).take t = (frame F body).take t :=
        List.take_append_of_le_length (by simp; omega)
      rw [if_neg ht, hcut, List.take_zero]
      exact scan_of_front_none F
        (front_take_frame F (Nat.lt_of_le_of_lt hbody F.limit_lt) (Nat.lt_of_not_le ht))

end FramedLog
