-- The machine words, the constants of `lib/consts.h` and the functions on bytes that more than one
-- part of the engine reads.
import Mathlib.Algebra.Ring.Nat
import Mathlib.Data.List.Basic

namespace seamus

/-- The bytes of a string or of a file. -/
abbrev Bytes := List UInt8

instance (word : Bytes) (words : List Bytes) : Decidable (word ∈ words) := inferInstance

/-- A `uint32_t` after an add. -/
def u32 (n : Nat) : Nat := n % 2 ^ 32

/-- A `uint32_t` subtraction. -/
def u32Sub (a b : Nat) : Nat := if b ≤ a then a - b else 2 ^ 32 - (b - a)

theorem u32_of_lt {n : Nat} (h : n < 2 ^ 32) : u32 n = n := Nat.mod_eq_of_lt h

theorem u32Sub_of_le {a b : Nat} (h : b ≤ a) : u32Sub a b = a - b := if_pos h

/-- The 32 bits of a number as an `int`. -/
def toInt32 (n : Int) : Int := n.bmod (2 ^ 32)

def DOCS_PER_INDEX_CHUNK : Nat := 500000

/-- char, uint64_t, 2 delims — 26 letters + 10 digits -/
def INDEX_DICTIONARY_TOC_SIZE : Nat := (1 + 8 + 2) * 36

/-- The byte `'\n'`. -/
def newline : UInt8 := 10

/-- The byte `' '`. -/
def space : UInt8 := 32

/-- The bytes of an ASCII string. -/
def ascii (s : String) : Bytes := s.toList.map fun c => UInt8.ofNat c.toNat

def isDigit (c : UInt8) : Bool := 48 ≤ c && c ≤ 57

/-- `tolower` in the C locale. -/
def tolower (c : UInt8) : UInt8 := if 65 ≤ c ∧ c ≤ 90 then c + 32 else c

theorem tolower_tolower (c : UInt8) : tolower (tolower c) = tolower c := by
  by_cases h : 65 ≤ c ∧ c ≤ 90
  · have hlow : tolower c = c + 32 := if_pos h
    rw [hlow]
    refine if_neg ?_
    simp only [UInt8.le_iff_toNat_le, UInt8.reduceToNat, UInt8.toNat_add] at h ⊢
    omega
  · have hsame : tolower c = c := if_neg h
    rw [hsame, hsame]

/-- A letter does not become one of the characters below the letters. -/
theorem tolower_eq_low {c k : UInt8} (hk : k < 65) (h : tolower c = k) : c = k := by
  unfold tolower at h
  split at h
  · rename_i hletter
    have hnat := congrArg UInt8.toNat h
    simp only [UInt8.le_iff_toNat_le, UInt8.lt_iff_toNat_lt, UInt8.reduceToNat, UInt8.toNat_add]
      at hletter hk hnat
    omega
  · exact h

def startsWith (str start : Bytes) : Bool := str.take start.length = start

/-- The part of a URL up to the first `/`, without the scheme and `www.`. -/
def extractDomain (url : Bytes) : Bytes :=
  let p :=
    if startsWith url (ascii "https://") then url.drop 8
    else if startsWith url (ascii "http://") then url.drop 7
    else url
  let p := if startsWith p (ascii "www.") then p.drop 4 else p
  p.takeWhile (· ≠ 47)

end seamus
