import IqdbPersist.FileSystem
import Mathlib.Data.List.GetD
import Mathlib.Data.Set.Insert
import Mathlib.Data.Set.Image

/-!
# What becomes of unsynced data

When the power is lost, a write that was not synced may be cut short, or it may be there in tatters:
of each byte the file system may have written the old one, the new one or a zero. A loss says which,
and gives what the medium may hold of a file after an operation on its data.
-/

namespace FileSystem

/-- What becomes of data that are not synced when the power is lost. -/
inductive Loss where
  /-- They are cut short, later data first. -/
  | fromEnd
  /-- Any byte may be missing or read as zero, whatever becomes of the others. -/
  | anywhere
  deriving DecidableEq, Repr

namespace Loss

/-- What may be left of `content` and a write to it of which each byte may have arrived, be missing,
or read as zero. -/
def torn (content : Bytes) (pos : ℕ) (bytes : Bytes) : Set Bytes :=
  { kept | content.length ≤ kept.length ∧
    kept.length ≤ max content.length (pos + bytes.length) ∧
    ∀ i byte, kept[i]? = some byte → byte = content.getD i 0 ∨
      pos ≤ i ∧ i < pos + bytes.length ∧ (byte = 0 ∨ byte = bytes.getD (i - pos) 0) }

/-- What the medium may hold of a file after a write, where it may have held `held` before and
`content` is in the cache. -/
def write (pos : ℕ) (bytes content : Bytes) (held : Set Bytes) : Loss → Set Bytes
  | .fromEnd => held ∪ Set.range fun k => overwrite content pos (bytes.take k)
  | .anywhere => { kept | ∃ before ∈ held, kept ∈ torn before pos bytes }

/-- Likewise after a change of the length, which may have gone part of the way. -/
def setLen (len : ℕ) (content : Bytes) (held : Set Bytes) : Loss → Set Bytes
  | .fromEnd => insert (resize content len) held
  | .anywhere => { kept | ∃ before ∈ held, ∃ n, min before.length len ≤ n ∧
      n ≤ max before.length len ∧ kept = resize before n }

variable {loss : Loss} {content kept bytes : Bytes} {pos n : ℕ} {held held' : Set Bytes}

theorem length_overwrite (content : Bytes) (pos : ℕ) (bytes : Bytes) :
    (overwrite content pos bytes).length = max content.length (pos + bytes.length) := by
  simp only [overwrite, List.length_append, List.length_take, List.length_replicate,
    List.length_drop]
  omega

theorem self_mem_torn (content : Bytes) (pos : ℕ) (bytes : Bytes) :
    content ∈ torn content pos bytes := by
  refine ⟨Nat.le_refl _, Nat.le_max_left _ _, fun i byte hbyte => .inl ?_⟩
  rw [List.getD_eq_getElem?_getD, hbyte, Option.getD_some]

theorem overwrite_mem_torn (content : Bytes) (pos : ℕ) (bytes : Bytes) :
    overwrite content pos bytes ∈ torn content pos bytes := by
  have hlength := length_overwrite content pos bytes
  refine ⟨by omega, by omega, fun i byte hbyte => ?_⟩
  have hgap : (content.take pos ++ List.replicate (pos - content.length) 0).length = pos := by
    rw [List.length_append, List.length_take, List.length_replicate]
    omega
  rw [overwrite, List.append_assoc] at hbyte
  by_cases hi : i < pos
  · left
    rw [List.getElem?_append_left (by omega)] at hbyte
    rw [List.getD_eq_getElem?_getD]
    by_cases hcontent : i < content.length
    · rw [List.getElem?_append_left (by rw [List.length_take]; omega), List.getElem?_take,
        if_pos hi] at hbyte
      rw [hbyte, Option.getD_some]
    · rw [List.getElem?_append_right (by rw [List.length_take]; omega)] at hbyte
      rw [List.getElem?_eq_none (by omega), Option.getD_none]
      exact (List.mem_replicate.mp (List.mem_of_getElem? hbyte)).2
  · rw [List.getElem?_append_right (by omega), hgap] at hbyte
    by_cases hwritten : i < pos + bytes.length
    · right
      rw [List.getElem?_append_left (by omega)] at hbyte
      refine ⟨by omega, hwritten, .inr ?_⟩
      rw [List.getD_eq_getElem?_getD, hbyte, Option.getD_some]
    · left
      rw [List.getElem?_append_right (by omega), List.getElem?_drop] at hbyte
      have hsame : pos + bytes.length + (i - pos - bytes.length) = i := by omega
      rw [List.getD_eq_getElem?_getD, ← hsame, hbyte, Option.getD_some]

theorem torn_take_subset (content : Bytes) (pos : ℕ) (bytes : Bytes) (n : ℕ) :
    torn content pos (bytes.take n) ⊆ torn content pos bytes := by
  rintro kept ⟨hlow, hhigh, hbytes⟩
  rw [List.length_take] at hhigh
  refine ⟨hlow, by omega, fun i byte hbyte => ?_⟩
  rcases hbytes i byte hbyte with hold | ⟨hpos, hi, hwritten⟩
  · exact .inl hold
  · rw [List.length_take] at hi
    rw [List.getD_eq_getElem?_getD, List.getElem?_take, if_pos (by omega),
      ← List.getD_eq_getElem?_getD] at hwritten
    exact .inr ⟨hpos, by omega, hwritten⟩

theorem torn_append {before xs ys : Bytes} (hbefore : before ∈ torn content content.length xs)
    (hkept : kept ∈ torn before (content ++ xs).length ys) :
    kept ∈ torn content content.length (xs ++ ys) := by
  obtain ⟨hlow, hhigh, hbytes⟩ := hbefore
  obtain ⟨hlow', hhigh', hbytes'⟩ := hkept
  rw [List.length_append] at hhigh'
  refine ⟨by omega, by rw [List.length_append]; omega, fun i byte hbyte => ?_⟩
  rcases hbytes' i byte hbyte with hold | ⟨hpos, hi, hwritten⟩
  · by_cases hbetween : i < before.length
    · rw [List.getD_eq_getElem _ _ hbetween] at hold
      rcases hbytes i byte (by rw [List.getElem?_eq_getElem hbetween, hold]) with
        hold' | ⟨hpos, hi, hwritten⟩
      · exact .inl hold'
      · refine .inr ⟨hpos, by rw [List.length_append]; omega, ?_⟩
        rwa [List.getD_append _ _ _ _ (by omega)]
    · left
      rw [List.getD_eq_default _ _ (by omega)] at hold
      rw [hold, List.getD_eq_default _ _ (by omega)]
  · rw [List.length_append] at hpos hi hwritten
    refine .inr ⟨by omega, by rw [List.length_append]; omega, ?_⟩
    rwa [List.getD_append_right _ _ _ _ (by omega), Nat.sub_sub]

theorem subset_write : held ⊆ loss.write pos bytes content held := by
  cases loss with
  | fromEnd => exact Set.subset_union_left
  | anywhere => exact fun before hbefore => ⟨before, hbefore, self_mem_torn before pos bytes⟩

theorem overwrite_mem_write (h : content ∈ held) :
    overwrite content pos bytes ∈ loss.write pos bytes content held := by
  cases loss with
  | fromEnd => exact .inr ⟨bytes.length, by simp only [List.take_length]⟩
  | anywhere => exact ⟨content, h, overwrite_mem_torn content pos bytes⟩

theorem write_mono (h : held ⊆ held') :
    loss.write pos bytes content held ⊆ loss.write pos bytes content held' := by
  cases loss with
  | fromEnd => exact Set.union_subset_union_left _ h
  | anywhere => exact fun kept ⟨before, hbefore, hkept⟩ => ⟨before, h hbefore, hkept⟩

theorem write_take_subset :
    loss.write pos (bytes.take n) content held ⊆ loss.write pos bytes content held := by
  cases loss with
  | fromEnd =>
    refine Set.union_subset_union_right _ ?_
    rintro _ ⟨k, rfl⟩
    exact ⟨min k n, by simp only [List.take_take]⟩
  | anywhere =>
    exact fun kept ⟨before, hbefore, hkept⟩ =>
      ⟨before, hbefore, torn_take_subset before pos bytes n hkept⟩

theorem subset_setLen {len : ℕ} : held ⊆ loss.setLen len content held := by
  cases loss with
  | fromEnd => exact Set.subset_insert _ _
  | anywhere =>
    refine fun before hbefore => ⟨before, hbefore, before.length, by omega, by omega, ?_⟩
    simp [resize]

theorem resize_mem_setLen {len : ℕ} (h : content ∈ held) :
    resize content len ∈ loss.setLen len content held := by
  cases loss with
  | fromEnd => exact Set.mem_insert _ _
  | anywhere => exact ⟨content, h, len, by omega, by omega, rfl⟩

theorem setLen_mono {len : ℕ} (h : held ⊆ held') :
    loss.setLen len content held ⊆ loss.setLen len content held' := by
  cases loss with
  | fromEnd => exact Set.insert_subset_insert h
  | anywhere => exact fun kept ⟨before, hbefore, hkept⟩ => ⟨before, h hbefore, hkept⟩

end Loss

end FileSystem
