-- The sizes that the index computes before it writes numbers: `SizeOfUtf8` against the bytes of
-- `WriteUtf8` and the steps of `ReadUtf8`, for whole sequences of 32-bit values.
import Seamus.Utf8

open seamus.utf8

namespace seamus.varint_sizes

/-- The bytes of the values, one after the other. -/
def writeAll (values : List UInt32) : List UInt8 :=
  values.flatMap fun v => writeUtf8 v.toNat MAX_UTF8_LEN

/-- The sum that sizes the bytes of the values. -/
def sizeAll (values : List UInt32) : Nat := (values.map fun v => sizeOfUtf8 v.toNat).sum

/-- How many bytes each of so many calls of `ReadUtf8` consumes. -/
def consumed : Nat → List UInt8 → List Nat
  | 0, _ => []
  | calls + 1, p => (p.length - (readUtf8 p).2.length) :: consumed calls (readUtf8 p).2

/-- The sum of the sizes is that of the bytes, and the calls of `ReadUtf8` consume the bytes value
by value, whatever follows. -/
structure Agree (values : List UInt32) : Prop where
  sizes : sizeAll values = (writeAll values).length
  reads : ∀ rest, consumed values.length (writeAll values ++ rest) =
    values.map fun v => (writeUtf8 v.toNat MAX_UTF8_LEN).length

/-! ## One value -/

/-- A value of more than 31 bits is written as the replacement character. -/
theorem writeUtf8_large {c : Nat} (h : 0x7FFFFFFF < c) :
    writeUtf8 c MAX_UTF8_LEN = writeUtf8 ReplacementCharacter MAX_UTF8_LEN := by
  unfold writeUtf8
  simp only [gt_iff_lt, h, if_true, ite_self]

/-- The reader stops at the end of what was written for the value. -/
theorem readUtf8_stops (c : Nat) (rest : List UInt8) :
    (readUtf8 (writeUtf8 c MAX_UTF8_LEN ++ rest)).2 = rest := by
  rcases Nat.lt_or_ge 0x7FFFFFFF c with hlarge | hsmall
  · rw [writeUtf8_large hlarge, readUtf8_writeUtf8 _ _ (by decide)]
  · rw [readUtf8_writeUtf8 c rest (by omega)]

/-- The size is never too large, and right exactly for the values of at most 31 bits: the
replacement character takes three bytes, not two. -/
theorem sizeOfUtf8_le (c : Nat) :
    sizeOfUtf8 c ≤ (writeUtf8 c MAX_UTF8_LEN).length ∧
      (sizeOfUtf8 c = (writeUtf8 c MAX_UTF8_LEN).length ↔ c ≤ 0x7FFFFFFF) := by
  rcases Nat.lt_or_ge 0x7FFFFFFF c with hlarge | hsmall
  · have hsize : sizeOfUtf8 c = 2 := by
      unfold sizeOfUtf8
      split_ifs <;> omega
    have hlength : (writeUtf8 c MAX_UTF8_LEN).length = 3 := by
      rw [writeUtf8_large hlarge]
      decide
    rw [hsize, hlength]
    exact ⟨by decide, iff_of_false (by decide) (Nat.not_le.mpr hlarge)⟩
  · rw [writeUtf8_length c (by omega)]
    exact ⟨Nat.le_refl _, iff_of_true rfl hsmall⟩

/-! ## A sequence of values -/

theorem consumed_writeAll (values : List UInt32) (rest : List UInt8) :
    consumed values.length (writeAll values ++ rest) =
      values.map fun v => (writeUtf8 v.toNat MAX_UTF8_LEN).length := by
  induction values with
  | nil => rfl
  | cons v values ih =>
    have hsplit : writeAll (v :: values) ++ rest =
        writeUtf8 v.toNat MAX_UTF8_LEN ++ (writeAll values ++ rest) := by
      rw [writeAll, List.flatMap_cons, List.append_assoc, writeAll]
    rw [hsplit, List.length_cons, consumed, readUtf8_stops, ih, List.map_cons, List.length_append,
      Nat.add_sub_cancel]

theorem sizeAll_spec (values : List UInt32) :
    sizeAll values ≤ (writeAll values).length ∧
      (sizeAll values = (writeAll values).length ↔ ∀ v ∈ values, v.toNat ≤ 0x7FFFFFFF) := by
  induction values with
  | nil => exact ⟨Nat.le_refl _, iff_of_true rfl (by simp)⟩
  | cons v values ih =>
    obtain ⟨hle, hiff⟩ := ih
    obtain ⟨hle1, hiff1⟩ := sizeOfUtf8_le v.toNat
    have hsize : sizeAll (v :: values) = sizeOfUtf8 v.toNat + sizeAll values := by
      rw [sizeAll, List.map_cons, List.sum_cons, sizeAll]
    have hlength : (writeAll (v :: values)).length =
        (writeUtf8 v.toNat MAX_UTF8_LEN).length + (writeAll values).length := by
      rw [writeAll, List.flatMap_cons, List.length_append, writeAll]
    rw [hsize, hlength, List.forall_mem_cons, ← hiff, ← hiff1]
    exact ⟨by omega, by omega⟩

/-- Sizes, bytes and reads agree for exactly the sequences without a value of 32 bits. -/
theorem sizes_agree_iff (values : List UInt32) :
    Agree values ↔ ∀ v ∈ values, v.toNat ≤ 0x7FFFFFFF := by
  rw [← (sizeAll_spec values).2]
  exact ⟨Agree.sizes, fun h => ⟨h, consumed_writeAll values⟩⟩

/-- The smallest value of 32 bits is written with three bytes, and sized with two. -/
theorem large_value_outgrows_its_size :
    ¬∀ values : List UInt32, Agree values := by
  intro h
  exact absurd (h [0x80000000]).sizes (by decide)

end seamus.varint_sizes
