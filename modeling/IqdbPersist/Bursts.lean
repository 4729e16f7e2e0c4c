import IqdbPersist.Crc32
import Mathlib.Data.Nat.Bitwise
import Mathlib.Logic.Function.Iterate

/-!
# Bursts

Two byte strings that differ within a few consecutive bits only, counted from the low bit of the
first byte. A checksum that is fed the bits one by one, loses none of its state and tells short bit
strings apart tells the two byte strings apart. CRC-32 does so for bursts of up to 32 bits: its
register holds the last 32 bits it was fed.
-/

namespace BitFlip

variable {α σ : Type}

def byteBits (byte : UInt8) : List Bool := List.ofFn fun k : Fin 8 => byte.toNat.testBit k

def bits (bytes : Bytes) : List Bool := bytes.flatMap byteBits

/-- The number whose binary digits these are, the low one first. -/
def word (digits : List Bool) : ℕ := digits.foldr Nat.bit 0

/-- The strings agree before bit `i` and from `n` bits on, and bit `i` differs. -/
structure Burst (i n : ℕ) (old new : Bytes) : Prop where
  length : new.length = old.length
  before : (bits new).take i = (bits old).take i
  first : (bits new)[i]? ≠ (bits old)[i]?
  after : (bits new).drop (i + n) = (bits old).drop (i + n)

/-- The checksum changes with every burst of at most so many bits. -/
def DetectsBursts (width : ℕ) (checksum : Bytes → α) : Prop :=
  ∀ i n old new, n ≤ width → Burst i n old new → checksum new ≠ checksum old

@[simp] theorem length_byteBits (byte : UInt8) : (byteBits byte).length = 8 := List.length_ofFn

@[simp] theorem bits_nil : bits [] = [] := rfl

@[simp] theorem bits_cons (byte : UInt8) (bytes : Bytes) :
    bits (byte :: bytes) = byteBits byte ++ bits bytes := rfl

@[simp] theorem bits_append (xs ys : Bytes) : bits (xs ++ ys) = bits xs ++ bits ys :=
  List.flatMap_append

@[simp] theorem length_bits (bytes : Bytes) : (bits bytes).length = 8 * bytes.length := by
  induction bytes with
  | nil => rfl
  | cons byte bytes ih =>
    rw [bits_cons, List.length_append, length_byteBits, ih, List.length_cons]
    omega

theorem word_cons (digit : Bool) (digits : List Bool) :
    word (digit :: digits) = 2 * word digits + digit.toNat := Nat.bit_val _ _

theorem word_lt (digits : List Bool) : word digits < 2 ^ digits.length := by
  induction digits with
  | nil => exact Nat.one_pos
  | cons digit digits ih =>
    have hdigit := digit.toNat_lt
    rw [word_cons, List.length_cons, Nat.pow_succ]
    omega

theorem word_inj {xs ys : List Bool} (hlen : xs.length = ys.length) (h : word xs = word ys) :
    xs = ys := by
  induction xs generalizing ys with
  | nil => exact (List.eq_nil_of_length_eq_zero hlen.symm).symm
  | cons x xs ih =>
    cases ys with
    | nil => cases hlen
    | cons y ys =>
      have hx := x.toNat_lt
      have hy := y.toNat_lt
      rw [word_cons, word_cons] at h
      have hdigit : x = true ↔ y = true := by
        rw [← Bool.toNat_eq_one, ← Bool.toNat_eq_one]
        omega
      rw [ih (Nat.succ.inj hlen) (by omega), Bool.eq_iff_iff.mpr hdigit]

theorem word_ofFn {n : ℕ} (digit : Fin n → Bool) : word (List.ofFn digit) = Nat.ofBits digit := by
  induction n with
  | zero => rfl
  | succ n ih => rw [List.ofFn_succ, word_cons, ih, Nat.ofBits_succ]; rfl

theorem word_byteBits (byte : UInt8) : word (byteBits byte) = byte.toNat := by
  rw [byteBits, word_ofFn, Nat.ofBits_testBit]
  exact Nat.mod_eq_of_lt byte.toNat_lt

theorem byteBits_injective : Function.Injective byteBits := by
  intro x y h
  have hword := congrArg word h
  rw [word_byteBits, word_byteBits] at hword
  exact UInt8.toNat_inj.mp hword

theorem bits_injective : Function.Injective bits := by
  intro xs ys h
  have hlen := congrArg List.length h
  rw [length_bits, length_bits] at hlen
  induction xs generalizing ys with
  | nil =>
    rw [List.length_nil] at hlen
    exact (List.eq_nil_of_length_eq_zero (by omega)).symm
  | cons x xs ih =>
    cases ys with
    | nil =>
      rw [List.length_cons, List.length_nil] at hlen
      omega
    | cons y ys =>
      rw [List.length_cons, List.length_cons] at hlen
      have hlength := (length_byteBits x).trans (length_byteBits y).symm
      obtain ⟨hfirst, hrest⟩ := List.append_inj h hlength
      rw [byteBits_injective hfirst, ih hrest (by omega)]

namespace Burst

variable {i n : ℕ} {xs xs' ys ys' old new : Bytes}

theorem bits_ne (h : Burst i n old new) : bits new ≠ bits old :=
  fun heq => h.first (congrArg (·[i]?) heq)

theorem ne (h : Burst i n old new) : new ≠ old := fun heq => h.bits_ne (congrArg bits heq)

theorem left (hlen : xs'.length = xs.length) (hi : i < 8 * xs.length)
    (h : Burst i n (xs ++ ys) (xs' ++ ys')) : Burst i n xs xs' := by
  obtain ⟨-, hbefore, hfirst, hafter⟩ := h
  have hbits : (bits xs').length = (bits xs).length := by rw [length_bits, length_bits, hlen]
  have hin : i < (bits xs).length := by rwa [length_bits]
  rw [bits_append, bits_append] at hbefore hfirst hafter
  refine ⟨hlen, ?_, ?_, ?_⟩
  · rwa [List.take_append_of_le_length (by omega), List.take_append_of_le_length (by omega)]
      at hbefore
  · rwa [List.getElem?_append_left (by omega), List.getElem?_append_left hin] at hfirst
  · rw [List.drop_append, List.drop_append] at hafter
    exact (List.append_inj hafter (by rw [List.length_drop, List.length_drop, hbits])).1

theorem right (hlen : xs'.length = xs.length) (hi : 8 * xs.length ≤ i)
    (h : Burst i n (xs ++ ys) (xs' ++ ys')) : xs' = xs ∧ Burst (i - 8 * xs.length) n ys ys' := by
  obtain ⟨j, rfl⟩ := Nat.exists_eq_add_of_le hi
  obtain ⟨hlength, hbefore, hfirst, hafter⟩ := h
  have hold : (bits xs).length = 8 * xs.length := length_bits xs
  have hnew : (bits xs').length = 8 * xs.length := by rw [length_bits, hlen]
  rw [bits_append, bits_append] at hbefore hfirst hafter
  have hsame : bits xs' = bits xs := by
    have htake := congrArg (List.take (8 * xs.length)) hbefore
    rwa [List.take_take, List.take_take, Nat.min_eq_left (by omega), List.take_left' hold,
      List.take_left' hnew] at htake
  rw [Nat.add_sub_cancel_left]
  refine ⟨bits_injective hsame, ?_, ?_, ?_, ?_⟩
  · rw [List.length_append, List.length_append, hlen] at hlength
    omega
  · rw [← hold, hsame, List.take_length_add_append, List.take_length_add_append] at hbefore
    exact List.append_cancel_left hbefore
  · rw [List.getElem?_append_right (by omega), List.getElem?_append_right (by omega), hold, hnew,
      Nat.add_sub_cancel_left] at hfirst
    exact hfirst
  · rwa [← hold, hsame, Nat.add_assoc, List.drop_length_add_append, List.drop_length_add_append]
      at hafter

theorem right_eq (hlen : xs'.length = xs.length) (hend : i + n ≤ 8 * xs.length)
    (h : Burst i n (xs ++ ys) (xs' ++ ys')) : ys' = ys := by
  have hafter := congrArg (List.drop (8 * xs.length - (i + n))) h.after
  rw [List.drop_drop, List.drop_drop, Nat.add_sub_cancel' hend, bits_append, bits_append,
    List.drop_left' (length_bits xs), List.drop_left' (by rw [length_bits, hlen])] at hafter
  exact bits_injective hafter

theorem append (h : Burst i n ys ys') : Burst (8 * xs.length + i) n (xs ++ ys) (xs ++ ys') := by
  obtain ⟨hlength, hbefore, hfirst, hafter⟩ := h
  have hlen := length_bits xs
  constructor
  · rw [List.length_append, List.length_append, hlength]
  · rw [bits_append, bits_append, ← hlen, List.take_length_add_append,
      List.take_length_add_append, hbefore]
  · rw [bits_append, bits_append, ← hlen, List.getElem?_append_right (Nat.le_add_right _ _),
      List.getElem?_append_right (Nat.le_add_right _ _), Nat.add_sub_cancel_left]
    exact hfirst
  · rw [bits_append, bits_append, ← hlen, Nat.add_assoc, List.drop_length_add_append,
      List.drop_length_add_append, hafter]

end Burst

theorem detectsBursts_foldl {step : σ → Bool → σ} {width : ℕ}
    (hstate : ∀ digit, Function.Injective (step · digit))
    (hshort : ∀ s (xs ys : List Bool), xs.length = ys.length → xs.length ≤ width →
      xs.foldl step s = ys.foldl step s → xs = ys) (init : σ) :
    DetectsBursts width fun bytes => (bits bytes).foldl step init := by
  intro i n old new hn hburst heq
  have hpost (zs : List Bool) : Function.Injective (zs.foldl step ·) := by
    induction zs with
    | nil => exact fun _ _ h => h
    | cons z zs ih => exact ih.comp (hstate z)
  have hsplit (zs : List Bool) :
      zs.take i ++ ((zs.drop i).take n ++ zs.drop (i + n)) = zs := by
    rw [← List.drop_drop, List.take_append_drop, List.take_append_drop]
  have hlen : ((bits new).drop i).length = ((bits old).drop i).length := by
    rw [List.length_drop, List.length_drop, length_bits, length_bits, hburst.length]
  have hfold : ((bits new).take i ++ (((bits new).drop i).take n ++ (bits new).drop (i + n))).foldl
      step init = ((bits old).take i ++ (((bits old).drop i).take n ++ (bits old).drop
        (i + n))).foldl step init := by
    rw [hsplit, hsplit]
    exact heq
  rw [hburst.before, hburst.after] at hfold
  simp only [List.foldl_append] at hfold
  have hmid := hshort _ _ _ (by rw [List.length_take, List.length_take, hlen])
    (Nat.le_trans (List.length_take_le _ _) hn) (hpost _ hfold)
  apply hburst.bits_ne
  rw [← hsplit (bits new), ← hsplit (bits old), hburst.before, hburst.after, hmid]

theorem DetectsBursts.comp {β : Type} {width : ℕ} {checksum : Bytes → α}
    (h : DetectsBursts width checksum) {f : α → β} (hf : Function.Injective f) :
    DetectsBursts width (f ∘ checksum) :=
  fun i n old new hn hburst heq => h i n old new hn hburst (hf heq)

end BitFlip

namespace Crc32

open BitFlip

/-- The register fed with one bit. -/
def shiftBit (crc : UInt32) (digit : Bool) : UInt32 := shift (crc ^^^ digit.toUInt32)

theorem and_one_cases (crc : UInt32) : crc &&& 1 = 0 ∨ crc &&& 1 = 1 := by
  rw [← UInt32.toNat_inj, ← UInt32.toNat_inj, UInt32.toNat_and]
  change crc.toNat &&& 1 = 0 ∨ crc.toNat &&& 1 = 1
  rw [Nat.and_one_is_mod]
  exact Nat.mod_two_eq_zero_or_one _

theorem xor_and_one (a b : UInt32) : (a ^^^ b) &&& 1 = (a &&& 1) ^^^ (b &&& 1) := by
  rw [← UInt32.toNat_inj]
  simp only [UInt32.toNat_and, UInt32.toNat_xor]
  exact Nat.and_xor_distrib_right

theorem shift_xor (a b : UInt32) : shift (a ^^^ b) = shift a ^^^ shift b := by
  have hzero : ¬ (0 : UInt32) = 1 := by decide
  have hcancel (x y p : UInt32) : (x ^^^ p) ^^^ (y ^^^ p) = x ^^^ y :=
    calc (x ^^^ p) ^^^ (y ^^^ p) = (x ^^^ y) ^^^ (p ^^^ p) := by ac_rfl
      _ = x ^^^ y := by rw [UInt32.xor_self, UInt32.xor_zero]
  unfold shift
  rw [xor_and_one, UInt32.shiftRight_xor]
  rcases and_one_cases a with ha | ha <;> rcases and_one_cases b with hb | hb <;> rw [ha, hb]
  · rfl
  · exact UInt32.xor_assoc _ _ _
  · simp only [UInt32.xor_zero, if_true, if_neg hzero]
    ac_rfl
  · simp only [UInt32.xor_self, if_true, if_neg hzero]
    exact (hcancel _ _ _).symm

theorem toNat_ofNat {n : ℕ} (hn : n < 2 ^ 32) : (UInt32.ofNat n).toNat = n :=
  UInt32.toNat_ofNat_of_lt' hn

theorem shift_double {n : ℕ} (hn : n < 2 ^ 31) :
    shift (UInt32.ofNat (2 * n)) = UInt32.ofNat n := by
  have hdouble : (UInt32.ofNat (2 * n)).toNat = 2 * n := toNat_ofNat (by omega)
  have hlow : UInt32.ofNat (2 * n) &&& 1 ≠ 1 := by
    rw [ne_eq, ← UInt32.toNat_inj, UInt32.toNat_and, hdouble]
    change ¬ 2 * n &&& 1 = 1
    rw [Nat.and_one_is_mod]
    omega
  rw [shift, if_neg hlow, ← UInt32.toNat_inj, UInt32.toNat_shiftRight, hdouble,
    toNat_ofNat (by omega)]
  change (2 * n) >>> 1 = n
  rw [Nat.shiftRight_eq_div_pow]
  omega

theorem ofNat_bit (digit : Bool) (n : ℕ) :
    UInt32.ofNat (2 * n + digit.toNat) = digit.toUInt32 ^^^ UInt32.ofNat (2 * n) := by
  have hxor : 2 * n + digit.toNat = Nat.bit digit 0 ^^^ Nat.bit false n := by
    rw [Nat.xor_bit, Bool.bne_false, Nat.zero_xor, Nat.bit_val]
  rw [hxor, UInt32.ofNat_xor, Nat.bit_val false]
  cases digit <;> rfl

theorem foldl_shiftBit (crc : UInt32) {digits : List Bool} (h : digits.length ≤ 32) :
    digits.foldl shiftBit crc =
      shift^[digits.length] (crc ^^^ UInt32.ofNat (word digits)) := by
  induction digits generalizing crc with
  | nil => exact UInt32.xor_zero.symm
  | cons digit digits ih =>
    rw [List.length_cons] at h
    have hword : word digits < 2 ^ 31 :=
      Nat.lt_of_lt_of_le (word_lt digits) (Nat.pow_le_pow_right (by decide) (by omega))
    rw [List.foldl_cons, ih _ (by omega), List.length_cons, Function.iterate_succ_apply, word_cons,
      ofNat_bit, ← UInt32.xor_assoc, shift_xor, shift_double hword, shiftBit]

theorem foldl_byteBits (crc : UInt32) (byte : UInt8) :
    (byteBits byte).foldl shiftBit crc = update crc byte := by
  have hbyte : UInt32.ofNat byte.toNat = byte.toUInt32 := by
    have hlt := byte.toNat_lt
    rw [← UInt32.toNat_inj, UInt8.toNat_toUInt32, toNat_ofNat (by omega)]
  rw [foldl_shiftBit crc (by rw [length_byteBits]; decide), word_byteBits, length_byteBits, hbyte]
  rfl

theorem hash_eq_foldl_bits (bytes : Bytes) :
    hash bytes = (bits bytes).foldl shiftBit 0xFFFFFFFF ^^^ 0xFFFFFFFF := by
  have hfold (crc : UInt32) : (bits bytes).foldl shiftBit crc = bytes.foldl update crc := by
    induction bytes generalizing crc with
    | nil => rfl
    | cons byte bytes ih => rw [bits_cons, List.foldl_append, foldl_byteBits, ih, List.foldl_cons]
  rw [hash, hfold]

theorem shiftBit_injective (digit : Bool) : Function.Injective (shiftBit · digit) := by
  intro a b hab
  exact (UInt32.xor_left_inj _).mp (shift_injective hab)

/-- The checksum changes with every burst of up to 32 bits. -/
theorem hash_detectsBursts : DetectsBursts 32 hash := by
  have hfold : DetectsBursts 32 fun bytes => (bits bytes).foldl shiftBit 0xFFFFFFFF := by
    refine detectsBursts_foldl shiftBit_injective ?_ _
    intro crc xs ys hlen hxs heq
    rw [foldl_shiftBit crc hxs, foldl_shiftBit crc (hlen ▸ hxs), ← hlen] at heq
    have hword := (UInt32.xor_right_inj _).mp (shift_injective.iterate xs.length heq)
    have hlt (digits : List Bool) (h : digits.length ≤ 32) : word digits < 2 ^ 32 :=
      Nat.lt_of_lt_of_le (word_lt digits) (Nat.pow_le_pow_right (by decide) h)
    have hnat := congrArg UInt32.toNat hword
    rw [toNat_ofNat (hlt xs hxs), toNat_ofNat (hlt ys (hlen ▸ hxs))]
      at hnat
    exact word_inj hlen hnat
  have hfinal : Function.Injective fun crc : UInt32 => crc ^^^ 0xFFFFFFFF := fun a b =>
    (UInt32.xor_left_inj _).mp
  rw [funext hash_eq_foldl_bits]
  exact hfold.comp hfinal

end Crc32
