-- Fixed-width integers as little-endian bytes: what a `memcpy` of an integer
-- into a buffer writes on the machines this code runs on, and what a `memcpy`
-- back reads.
import Mathlib.Data.List.Basic
import Mathlib.Tactic.Linarith

namespace little_endian

/-- The `w` bytes of `n`, lowest first. Higher bytes are cut off. -/
def leBytes : Nat → Nat → List UInt8
  | 0, _ => []
  | w + 1, n => UInt8.ofNat n :: leBytes w (n / 256)

/-- The number that the bytes spell, lowest first. -/
def leValue : List UInt8 → Nat
  | [] => 0
  | b :: bs => b.toNat + 256 * leValue bs

@[simp] theorem leBytes_length (w n : Nat) : (leBytes w n).length = w := by
  induction w generalizing n with
  | zero => rfl
  | succ w ih => simp [leBytes, ih]

theorem leValue_leBytes_mod (w n : Nat) : leValue (leBytes w n) = n % 256 ^ w := by
  induction w generalizing n with
  | zero => simp [leBytes, leValue, Nat.mod_one]
  | succ w ih =>
    have byte : (UInt8.ofNat n).toNat = n % 256 := by simp
    rw [leBytes, leValue, ih, byte, Nat.pow_succ', Nat.mod_mul]

/-- A number that fits is read back as it was. -/
theorem leValue_leBytes (w n : Nat) (h : n < 256 ^ w) : leValue (leBytes w n) = n := by
  rw [leValue_leBytes_mod, Nat.mod_eq_of_lt h]

/-- Reading `w` bytes at the front of a longer buffer. -/
theorem leValue_take_leBytes (w n : Nat) (rest : List UInt8) (h : n < 256 ^ w) :
    leValue ((leBytes w n ++ rest).take w) = n := by
  rw [List.take_left' (leBytes_length w n), leValue_leBytes w n h]

theorem drop_leBytes (w n : Nat) (rest : List UInt8) : (leBytes w n ++ rest).drop w = rest :=
  List.drop_left' (leBytes_length w n)

theorem leValue_lt (bytes : List UInt8) : leValue bytes < 256 ^ bytes.length := by
  induction bytes with
  | nil => exact Nat.one_pos
  | cons b bytes ih =>
    have hb := b.toNat_lt
    rw [leValue, List.length_cons, Nat.pow_succ]
    omega

/-! ## Network order -/

/-- The `w` bytes of `n`, highest first. -/
def beBytes (w n : Nat) : List UInt8 := (leBytes w n).reverse

/-- The number that the bytes spell, highest first. -/
def beValue (bytes : List UInt8) : Nat := leValue bytes.reverse

theorem beBytes_length (w n : Nat) : (beBytes w n).length = w := by
  rw [beBytes, List.length_reverse, leBytes_length]

theorem beValue_beBytes (w n : Nat) (h : n < 256 ^ w) : beValue (beBytes w n) = n := by
  rw [beValue, beBytes, List.reverse_reverse, leValue_leBytes w n h]

end little_endian
