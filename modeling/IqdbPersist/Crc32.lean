import IqdbPersist.BitFlip

/-!
# CRC-32

The IEEE checksum, bit by bit, in its reflected form: the register starts with all bits set, takes
the bytes in order and is inverted at the end.
-/

namespace Crc32

open BitFlip

/-- One bit of the reflected division by the IEEE polynomial. -/
def shift (crc : UInt32) : UInt32 :=
  if crc &&& 1 = 1 then (crc >>> 1) ^^^ 0xEDB88320 else crc >>> 1

def update (crc : UInt32) (byte : UInt8) : UInt32 :=
  shift (shift (shift (shift (shift (shift (shift (shift (crc ^^^ byte.toUInt32))))))))

def hash (bytes : Bytes) : UInt32 := bytes.foldl update 0xFFFFFFFF ^^^ 0xFFFFFFFF

@[simp] theorem hash_nil : hash [] = 0 := rfl

theorem testBit_shiftRight_one (crc : UInt32) : (crc >>> 1).toNat.testBit 31 = false := by
  have hlt : (crc >>> 1).toNat < 2 ^ 31 := by
    have hcrc := crc.toNat_lt
    rw [UInt32.toNat_shiftRight]
    change crc.toNat >>> 1 < 2 ^ 31
    rw [Nat.shiftRight_eq_div_pow]
    omega
  exact Nat.testBit_lt_two_pow hlt

/-- The polynomial has the top bit, so the bit that was shifted out is the top bit of the result. -/
theorem testBit_shift (crc : UInt32) : (shift crc).toNat.testBit 31 = (crc &&& 1 == 1) := by
  unfold shift
  split
  · rename_i hlow
    have hpoly : (0xEDB88320 : UInt32).toNat.testBit 31 = true := by decide
    rw [UInt32.toNat_xor, Nat.testBit_xor, testBit_shiftRight_one, hpoly, hlow]
    rfl
  · rename_i hlow
    rw [testBit_shiftRight_one, beq_false_of_ne hlow]

theorem eq_of_halves {a b : UInt32} (hhigh : a >>> 1 = b >>> 1)
    (hlow : a &&& 1 = 1 ↔ b &&& 1 = 1) : a = b := by
  have hdiv (crc : UInt32) : (crc >>> 1).toNat = crc.toNat / 2 := by
    rw [UInt32.toNat_shiftRight]
    exact Nat.shiftRight_eq_div_pow crc.toNat 1
  have hmod (crc : UInt32) : crc &&& 1 = 1 ↔ crc.toNat % 2 = 1 := by
    rw [← UInt32.toNat_inj, UInt32.toNat_and]
    change crc.toNat &&& 1 = 1 ↔ _
    rw [Nat.and_one_is_mod]
  rw [← UInt32.toNat_inj, hdiv, hdiv] at hhigh
  rw [hmod, hmod] at hlow
  rw [← UInt32.toNat_inj]
  omega

theorem shift_injective : Function.Injective shift := by
  intro a b hab
  have htop := congrArg (fun crc : UInt32 => crc.toNat.testBit 31) hab
  simp only [testBit_shift, Bool.beq_eq_decide_eq, decide_eq_decide] at htop
  refine eq_of_halves ?_ htop
  unfold shift at hab
  by_cases hlow : a &&& 1 = 1
  · rw [if_pos hlow, if_pos (htop.mp hlow)] at hab
    exact (UInt32.xor_left_inj _).mp hab
  · rwa [if_neg hlow, if_neg fun hb => hlow (htop.mpr hb)] at hab

theorem update_injective_left (byte : UInt8) : Function.Injective (update · byte) := by
  intro a b hab
  simp only [update, shift_injective.eq_iff, UInt32.xor_left_inj] at hab
  exact hab

theorem update_injective_right (crc : UInt32) : Function.Injective (update crc) := by
  intro a b hab
  simp only [update, shift_injective.eq_iff, UInt32.xor_right_inj] at hab
  rw [← UInt32.toNat_inj, UInt8.toNat_toUInt32, UInt8.toNat_toUInt32] at hab
  exact UInt8.toNat_inj.mp hab

/-- The checksum changes with every bit of the string. -/
theorem hash_detectsBitFlips : DetectsBitFlips hash := by
  have hfold := detectsBitFlips_foldl update_injective_left update_injective_right 0xFFFFFFFF
  have hfinal : Function.Injective fun crc : UInt32 => crc ^^^ 0xFFFFFFFF := fun a b =>
    (UInt32.xor_left_inj _).mp
  exact hfold.comp hfinal

/-- The check value of `123456789`. -/
example : hash [0x31, 0x32, 0x33, 0x34, 0x35, 0x36, 0x37, 0x38, 0x39] = 0xCBF43926 := by
  decide +kernel

end Crc32
