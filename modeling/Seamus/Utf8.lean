-- The UTF-8 style numbers of `lib/utf8.h`: `WriteUtf8` and `ReadUtf8` of the
-- posting lists. Every number below 2^31 comes back, and the reader stops
-- exactly at its end, except that the code points that Unicode reserves come
-- back as the replacement character.
import Mathlib.Data.List.Basic
import Mathlib.Tactic.IntervalCases
import Mathlib.Tactic.Linarith

namespace seamus.utf8

def MAX_UTF8_LEN : Nat := 6

def ReplacementCharacter : Nat := 0xfffd

def sizeOfUtf8 (c : Nat) : Nat :=
  if c ≤ 0x7F then 1
  else if c ≤ 0x7FF then 2
  else if c ≤ 0xFFFF then 3
  else if c ≤ 0x1FFFFF then 4
  else if c ≤ 0x3FFFFFF then 5
  else if c ≤ 0x7FFFFFFF then 6
  else 2 -- values that need more than 31 bits become the replacement character

/-- The bytes that a first byte announces: 0 for an invalid one. -/
def announced (first : Nat) : Nat :=
  if first &&& 0x80 = 0 then 1
  else if first &&& 0xE0 = 0xC0 then 2
  else if first &&& 0xF0 = 0xE0 then 3
  else if first &&& 0xF8 = 0xF0 then 4
  else if first &&& 0xFC = 0xF8 then 5
  else if first &&& 0xFE = 0xFC then 6
  else 0

/-- `first_byte_mask` of `ReadUtf8`, by the length. -/
def readMask : Nat → Nat
  | 1 => 0xFF | 2 => 0x1F | 3 => 0x0F | 4 => 0x07 | 5 => 0x03 | 6 => 0x01 | _ => 0

/-- `utf8_min`: a smaller value is overlong. -/
def utf8Min : Nat → Nat
  | 2 => 0x80 | 3 => 0x800 | 4 => 0x10000 | 5 => 0x200000 | 6 => 0x4000000 | _ => 0

/-- The code points that `ReadUtf8` gives back as the replacement character:
the surrogates, and the noncharacters of the first plane. -/
def Reserved (c : Nat) : Prop :=
  (0xD800 ≤ c ∧ c ≤ 0xDFFF) ∨ (0xFDD0 ≤ c ∧ c ≤ 0xFDEF) ∨ c = 0xFFFE ∨ c = 0xFFFF

instance (c : Nat) : Decidable (Reserved c) := by unfold Reserved; infer_instance

/-- The loop over the `k` continuation bytes. A byte past the end of the
buffer reads as 0, which no continuation byte is. -/
def readTail : Nat → Nat → List UInt8 → Option Nat × List UInt8
  | 0, res, p => (some res, p)
  | k + 1, res, p =>
    let b := (p.headD 0).toNat
    if b &&& 0xC0 = 0x80 then readTail k ((res <<< 6) ||| (b &&& 0x3F)) p.tail
    else (none, p)

/-- `ReadUtf8`. The pointer is the list of the bytes from it to the end of the
buffer, so the bound is the end of the list. -/
def readUtf8 (p : List UInt8) : Nat × List UInt8 :=
  match p with
  | [] => (0, [])
  | first :: p =>
    let nBytes := announced first.toNat
    if nBytes = 0 then (ReplacementCharacter, p)
    else if nBytes = 1 then (first.toNat, p)
    else
      match readTail (nBytes - 1) (first.toNat &&& readMask nBytes) p with
      | (none, p) => (ReplacementCharacter, p)
      | (some res, p) =>
        if res < utf8Min nBytes then (ReplacementCharacter, p)
        else if Reserved res then (ReplacementCharacter, p)
        else (res, p)

/-- `first_byte_mask` of `WriteUtf8`, by the length. -/
def writeMask : Nat → Nat
  | 2 => 0xC0 | 3 => 0xE0 | 4 => 0xF0 | 5 => 0xF8 | 6 => 0xFC | _ => 0

/-- The last `k` continuation bytes of `c`. -/
def writeTail (c : Nat) : Nat → List UInt8
  | 0 => []
  | k + 1 => UInt8.ofNat (0x80 ||| ((c >>> (6 * k)) &&& 0x3F)) :: writeTail c k

def lengthOf (c : Nat) : Nat :=
  if c < 0x80 then 1
  else if c < 0x800 then 2
  else if c < 0x10000 then 3
  else if c < 0x200000 then 4
  else if c < 0x4000000 then 5
  else 6

/-- `WriteUtf8` into a buffer with `room` bytes left: the bytes it writes. -/
def writeUtf8 (c room : Nat) : List UInt8 :=
  let c := if c > 0x7FFFFFFF then ReplacementCharacter else c
  let numBytes := lengthOf c
  if numBytes > room then []
  else if numBytes = 1 then [UInt8.ofNat c]
  else UInt8.ofNat (writeMask numBytes ||| (c >>> (6 * (numBytes - 1)))) :: writeTail c (numBytes - 1)

/-! ## The masks as arithmetic -/

theorem lengthOf_bounds (c : Nat) : 1 ≤ lengthOf c ∧ lengthOf c ≤ MAX_UTF8_LEN := by
  unfold lengthOf MAX_UTF8_LEN
  split_ifs <;> omega

@[simp] theorem writeTail_length (c k : Nat) : (writeTail c k).length = k := by
  induction k with
  | zero => rfl
  | succ k ih => simp [writeTail, ih]

theorem continuation_byte (x : Nat) (h : x < 64) :
    (UInt8.ofNat (0x80 ||| x)).toNat &&& 0xC0 = 0x80 ∧
      (UInt8.ofNat (0x80 ||| x)).toNat &&& 0x3F = x := by
  have key : ∀ y : Fin 64, (UInt8.ofNat (0x80 ||| y.val)).toNat &&& 0xC0 = 0x80 ∧
      (UInt8.ofNat (0x80 ||| y.val)).toNat &&& 0x3F = y.val := by decide
  exact key ⟨x, h⟩

/-- The `k` continuation bytes carry the low `6 * k` bits. -/
theorem readTail_writeTail (c k res : Nat) (rest : List UInt8) (h : res = c >>> (6 * k)) :
    readTail k res (writeTail c k ++ rest) = (some c, rest) := by
  induction k generalizing res with
  | zero => simp [readTail, writeTail, h]
  | succ k ih =>
    have hlt : (c >>> (6 * k)) &&& 0x3F < 64 := Nat.lt_of_le_of_lt Nat.and_le_right (by decide)
    obtain ⟨h1, h2⟩ := continuation_byte _ hlt
    simp only [writeTail, List.cons_append, readTail, List.headD_cons, List.tail_cons, h1, h2,
      if_true]
    apply ih
    have h6 : c >>> (6 * (k + 1)) = (c >>> (6 * k)) / 64 := by
      rw [Nat.mul_add, Nat.shiftRight_add, Nat.shiftRight_eq_div_pow _ (6 * 1)]
    have hmod : (c >>> (6 * k)) &&& 0x3F = (c >>> (6 * k)) % 64 :=
      Nat.and_two_pow_sub_one_eq_mod _ 6
    rw [h, h6, hmod, ← Nat.shiftLeft_add_eq_or_of_lt (Nat.mod_lt _ (by decide)),
      Nat.shiftLeft_eq]
    omega

/-- The first byte of a number of `k + 1` bytes announces them, and keeps the
bits above the tail. -/
theorem first_byte (n top : Nat) (h2 : 2 ≤ n) (h6 : n ≤ 6) (htop : top < 2 ^ (7 - n)) :
    announced (UInt8.ofNat (writeMask n ||| top)).toNat = n ∧
      (UInt8.ofNat (writeMask n ||| top)).toNat &&& readMask n = top := by
  have key : ∀ n < 7, 2 ≤ n → ∀ top < 2 ^ (7 - n),
      announced (UInt8.ofNat (writeMask n ||| top)).toNat = n ∧
        (UInt8.ofNat (writeMask n ||| top)).toNat &&& readMask n = top := by decide
  exact key n (Nat.lt_succ_of_le h6) h2 top htop

theorem ascii_byte (c : Nat) (h : c < 0x80) :
    announced (UInt8.ofNat c).toNat = 1 ∧ (UInt8.ofNat c).toNat = c := by
  have key : ∀ y : Fin 128, announced (UInt8.ofNat y.val).toNat = 1 ∧
      (UInt8.ofNat y.val).toNat = y.val := by decide
  exact key ⟨c, h⟩

/-- The bits of `c` above its tail fit the first byte, and `c` is not overlong. -/
theorem lengthOf_fits (c : Nat) (h : c < 2 ^ 31) (h1 : lengthOf c ≠ 1) :
    c >>> (6 * (lengthOf c - 1)) < 2 ^ (7 - lengthOf c) ∧ utf8Min (lengthOf c) ≤ c := by
  rw [Nat.shiftRight_eq_div_pow]
  revert h1
  unfold lengthOf
  split_ifs <;> intro h1 <;>
    first
    | (exfalso; exact h1 rfl)
    | exact ⟨by simp only [Nat.reduceSub, Nat.reduceMul, Nat.reducePow] at h ⊢; omega,
        by simp only [utf8Min]; omega⟩

/-! ## The laws -/

/-- What `ReadUtf8` gives for a number that `WriteUtf8` wrote, and where it stops. -/
theorem readUtf8_writeUtf8 (c : Nat) (rest : List UInt8) (h : c < 2 ^ 31) :
    readUtf8 (writeUtf8 c MAX_UTF8_LEN ++ rest) =
      (if Reserved c then ReplacementCharacter else c, rest) := by
  have hc : ¬ c > 0x7FFFFFFF := by simp only [Nat.reducePow] at h; omega
  have hlen := lengthOf_bounds c
  have hroom : ¬ lengthOf c > MAX_UTF8_LEN := by omega
  unfold writeUtf8
  simp only [hc, if_false, hroom]
  by_cases h1 : lengthOf c = 1
  · have hlt : c < 0x80 := by
      by_contra hge
      revert h1
      unfold lengthOf
      split_ifs <;> omega
    have hres : ¬ Reserved c := by unfold Reserved; omega
    obtain ⟨ha, hv⟩ := ascii_byte c hlt
    rw [hv] at ha
    simp [h1, readUtf8, ha, hv, hres]
  · obtain ⟨htop, hmin⟩ := lengthOf_fits c h h1
    obtain ⟨ha, hm⟩ := first_byte (lengthOf c) _ (by omega) hlen.2 htop
    have h0 : lengthOf c ≠ 0 := by omega
    have hover : ¬ c < utf8Min (lengthOf c) := by omega
    simp only [h1, if_false, List.cons_append, readUtf8, ha, h0, hm,
      readTail_writeTail c _ _ rest rfl, hover]
    by_cases hr : Reserved c <;> simp [hr]

/-- A number of at most 31 bits takes as many bytes as `SizeOfUtf8` says. -/
theorem writeUtf8_length (c : Nat) (h : c < 2 ^ 31) :
    (writeUtf8 c MAX_UTF8_LEN).length = sizeOfUtf8 c := by
  have hc : ¬ c > 0x7FFFFFFF := by simp only [Nat.reducePow] at h; omega
  have hlen := lengthOf_bounds c
  have hroom : ¬ lengthOf c > MAX_UTF8_LEN := by omega
  have hsize : lengthOf c = sizeOfUtf8 c := by
    unfold lengthOf sizeOfUtf8
    grind
  unfold writeUtf8
  simp only [hc, if_false, hroom]
  by_cases h1 : lengthOf c = 1
  · simp [h1, ← hsize]
  · simp [h1, ← hsize]; omega

theorem writeUtf8_ne_nil (c : Nat) : writeUtf8 c MAX_UTF8_LEN ≠ [] := by
  unfold writeUtf8
  generalize (if c > 0x7FFFFFFF then ReplacementCharacter else c) = d
  have hlen := lengthOf_bounds d
  have hroom : ¬ lengthOf d > MAX_UTF8_LEN := by omega
  simp only [hroom, if_false]
  split <;> simp

/-- `ReadUtf8` always takes at least one byte of a buffer that has one. -/
theorem readTail_length_le (k res : Nat) (p : List UInt8) :
    (readTail k res p).2.length ≤ p.length := by
  induction k generalizing res p with
  | zero => exact Nat.le_refl _
  | succ k ih =>
    simp only [readTail]
    split
    · exact Nat.le_trans (ih _ _) (by simp)
    · exact Nat.le_refl _

theorem readUtf8_length_lt (b : UInt8) (p : List UInt8) :
    (readUtf8 (b :: p)).2.length < (b :: p).length := by
  have htail := readTail_length_le (announced b.toNat - 1) (b.toNat &&& readMask (announced b.toNat)) p
  simp only [readUtf8, List.length_cons]
  generalize readTail (announced b.toNat - 1) (b.toNat &&& readMask (announced b.toNat)) p = r at htail
  obtain ⟨o, q⟩ := r
  simp only at htail
  split
  · simp
  · split
    · simp
    · cases o with
      | none => simp only; omega
      | some res => simp only; split_ifs <;> simp only <;> omega

theorem readUtf8_length_le (p : List UInt8) : (readUtf8 p).2.length ≤ p.length := by
  cases p with
  | nil => simp [readUtf8]
  | cons b p => exact Nat.le_of_lt (readUtf8_length_lt b p)

end seamus.utf8
