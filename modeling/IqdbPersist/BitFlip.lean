import IqdbPersist.LittleEndian
import Mathlib.Logic.Function.Basic
import Mathlib.Tactic.Common

/-!
# Inverted bits

A byte string with one of its bits inverted. A checksum that runs over the bytes with a step that
loses neither its state nor the byte tells the two strings apart.
-/

namespace BitFlip

variable {α σ : Type}

def bit (k : ℕ) : UInt8 := 1 <<< UInt8.ofNat k

/-- The string with bit `i` inverted, counted from the low bit of the first byte. -/
def flipBit (bytes : Bytes) (i : ℕ) : Bytes := bytes.modify (i / 8) (· ^^^ bit (i % 8))

/-- The checksum changes with every bit. -/
def DetectsBitFlips (checksum : Bytes → α) : Prop :=
  ∀ bytes i, i < 8 * bytes.length → checksum (flipBit bytes i) ≠ checksum bytes

@[simp] theorem length_flipBit (bytes : Bytes) (i : ℕ) :
    (flipBit bytes i).length = bytes.length := List.length_modify ..

theorem bit_ne_zero {k : ℕ} (hk : k < 8) : bit k ≠ 0 := by
  have hall : ∀ k < 8, bit k ≠ 0 := by decide
  exact hall k hk

theorem xor_bit_ne {k : ℕ} (hk : k < 8) (byte : UInt8) : byte ^^^ bit k ≠ byte := by
  intro heq
  have hzero : byte ^^^ bit k = byte ^^^ 0 := by rw [heq, UInt8.xor_zero]
  exact bit_ne_zero hk ((UInt8.xor_right_inj byte).mp hzero)

theorem one_ne_two_xor_bit {k : ℕ} (hk : k < 8) : (1 : UInt8) ≠ 2 ^^^ bit k := by
  have hall : ∀ k < 8, (1 : UInt8) ≠ 2 ^^^ bit k := by decide
  exact hall k hk

theorem exists_flipBit_eq {bytes : Bytes} {i : ℕ} (hi : i < 8 * bytes.length) :
    ∃ pre byte post, pre.length = i / 8 ∧ bytes = pre ++ byte :: post ∧
      flipBit bytes i = pre ++ (byte ^^^ bit (i % 8)) :: post := by
  have hbyte : i / 8 < bytes.length := by omega
  obtain ⟨pre, byte, post, hbytes, hpre, hflip⟩ :=
    List.exists_of_modify (· ^^^ bit (i % 8)) hbyte
  exact ⟨pre, byte, post, hpre, hbytes, hflip⟩

theorem flipBit_ne {bytes : Bytes} {i : ℕ} (hi : i < 8 * bytes.length) :
    flipBit bytes i ≠ bytes := by
  obtain ⟨pre, byte, post, -, hbytes, hflip⟩ := exists_flipBit_eq hi
  rw [hflip]
  conv_rhs => rw [hbytes]
  intro heq
  have hbyte := (List.cons.inj (List.append_cancel_left heq)).1
  exact xor_bit_ne (Nat.mod_lt i (by decide)) byte hbyte

theorem flipBit_append_left {xs ys : Bytes} {i : ℕ} (hi : i < 8 * xs.length) :
    flipBit (xs ++ ys) i = flipBit xs i ++ ys := by
  have hbyte : i / 8 < xs.length := by omega
  have hbyte' : i / 8 < (xs ++ ys).length := by
    rw [List.length_append]
    omega
  rw [flipBit, flipBit, List.modify_eq_take_cons_drop hbyte, List.modify_eq_take_cons_drop hbyte',
    List.take_append_of_le_length (Nat.le_of_lt hbyte), List.drop_append_of_le_length hbyte,
    List.getElem_append_left hbyte, List.append_assoc, List.cons_append]

theorem flipBit_append_right (xs ys : Bytes) (i : ℕ) :
    flipBit (xs ++ ys) (8 * xs.length + i) = xs ++ flipBit ys i := by
  have hdiv : (8 * xs.length + i) / 8 = xs.length + i / 8 := Nat.mul_add_div (by decide) _ _
  have hmod : (8 * xs.length + i) % 8 = i % 8 := Nat.mul_add_mod _ _ _
  rw [flipBit, flipBit, hdiv, hmod, List.modify_eq_take_drop, List.modify_eq_take_drop,
    List.take_length_add_append, List.drop_length_add_append, List.append_assoc]

theorem eq_or_eq_of_flipBit {bytes : Bytes} {i n : ℕ} {old new : UInt8}
    (hold : bytes[n]? = some old) (hnew : (flipBit bytes i)[n]? = some new) :
    new = old ∨ new = old ^^^ bit (i % 8) := by
  simp only [flipBit, List.getElem?_modify, hold] at hnew
  have hbyte := Option.some.inj hnew
  split at hbyte
  · exact .inr hbyte.symm
  · exact .inl hbyte.symm

section Fold

variable {step : σ → UInt8 → σ}

theorem foldl_injective (hstate : ∀ byte, Function.Injective (step · byte)) (bytes : Bytes) :
    Function.Injective (bytes.foldl step ·) := by
  induction bytes with
  | nil => exact fun _ _ h => h
  | cons byte bytes ih => exact ih.comp (hstate byte)

/-- A fold whose step is injective in the state and in the byte detects an inverted bit. -/
theorem detectsBitFlips_foldl (hstate : ∀ byte, Function.Injective (step · byte))
    (hbyte : ∀ s, Function.Injective (step s)) (init : σ) :
    DetectsBitFlips fun bytes => bytes.foldl step init := by
  intro bytes i hi heq
  obtain ⟨pre, byte, post, -, hbytes, hflip⟩ := exists_flipBit_eq hi
  rw [hflip] at heq
  conv at heq => rhs; rw [hbytes]
  simp only [List.foldl_append, List.foldl_cons] at heq
  have hsame := hbyte _ (foldl_injective hstate post heq)
  exact xor_bit_ne (Nat.mod_lt i (by decide)) byte hsame

theorem DetectsBitFlips.comp {β : Type} {checksum : Bytes → α} (h : DetectsBitFlips checksum)
    {f : α → β} (hf : Function.Injective f) : DetectsBitFlips (f ∘ checksum) :=
  fun bytes i hi heq => h bytes i hi (hf heq)

end Fold

end BitFlip
