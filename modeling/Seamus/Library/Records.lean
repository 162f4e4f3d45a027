-- Records one after the other in a file: readers that check the bytes that are left, the texts
-- that they decode, and the loop that stops at the first record that is cut.
import Seamus.Library.Streams

namespace records

abbrev Bytes := List UInt8

/-- What is read from the front of the bytes that are left, none where they are too few. -/
abbrev Reader (α : Type) := StateT Bytes Option α

/-- `if (remaining < n) return nullptr`. -/
def bytes (n : Nat) : Reader Bytes := fun p =>
  if p.length < n then none else some (p.take n, p.drop n)

/-- Records up to the end, or to the first one that cannot be read. -/
def readAll {α : Type} (read : Reader α) : Nat → Bytes → List α
  | 0, _ => []
  | turns + 1, p =>
    if p = [] then []
    else
      match read p with
      | none => []
      | some (x, rest) => x :: readAll read turns rest

/-- The reader takes the text for the value, and fails on a part of it. -/
structure Decodes {α : Type} (read : Reader α) (x : α) (text : Bytes) : Prop where
  whole : ∀ rest, read (text ++ rest) = some (x, rest)
  cut : ∀ part, part <+: text → part ≠ text → read part = none

section Readers

variable {α β : Type} {read : Reader α} {next : α → Reader β} {x : α} {y : β} {text text' : Bytes}

theorem bind_of_some {p rest : Bytes} (h : read p = some (x, rest)) :
    (read >>= next) p = next x rest := by
  show (read p).bind (fun found => next found.1 found.2) = _
  rw [h, Option.bind_some]

theorem bind_of_none {p : Bytes} (h : read p = none) : (read >>= next) p = none := by
  show (read p).bind (fun found => next found.1 found.2) = _
  rw [h, Option.bind_none]

theorem exists_of_bind {p rest : Bytes} (h : (read >>= next) p = some (y, rest)) :
    ∃ x p', read p = some (x, p') ∧ next x p' = some (y, rest) := by
  cases hread : read p with
  | none =>
    rw [bind_of_none hread] at h
    cases h
  | some found =>
    rw [bind_of_some hread] at h
    exact ⟨found.1, found.2, rfl, h⟩

theorem length_bytes {n : Nat} {p read rest : Bytes} (h : bytes n p = some (read, rest)) :
    read.length = n := by
  unfold bytes at h
  split at h
  · cases h
  · cases h
    rw [List.length_take]
    omega

theorem decodes_bytes (text : Bytes) : Decodes (bytes text.length) text text where
  whole rest := by
    rw [bytes, if_neg (by rw [List.length_append]; omega), List.take_left, List.drop_left]
  cut part h hne := by
    have hlt : part.length < text.length :=
      Nat.lt_of_le_of_ne h.length_le fun heq => hne (h.eq_of_length heq)
    rw [bytes, if_pos hlt]

theorem decodes_pure (x : α) : Decodes (pure x) x [] where
  whole _ := rfl
  cut _ h hne := absurd (List.prefix_nil.mp h) hne

theorem Decodes.bind (h : Decodes read x text) (h' : Decodes (next x) y text') :
    Decodes (read >>= next) y (text ++ text') where
  whole rest := by
    rw [List.append_assoc, bind_of_some (h.whole _), h'.whole]
  cut part hpart hne := by
    rcases streams.prefix_append_cases hpart with ⟨hshort, hfirst⟩ | ⟨rest, rfl, hrest⟩
    · exact bind_of_none (h.cut part hshort hfirst)
    · rw [bind_of_some (h.whole rest)]
      exact h'.cut rest hrest fun heq => hne (heq ▸ rfl)

/-! ## The loop -/

variable {xs : List α} {texts : α → Bytes} {turns : Nat}

/-- A file gives its records, and a part of it those that it holds completely. -/
theorem readAll_part (h : ∀ x ∈ xs, Decodes read x (texts x)) {part : Bytes}
    (hpart : part <+: xs.flatMap texts) (turns : Nat) : readAll read turns part <+: xs := by
  induction xs generalizing part turns with
  | nil =>
    cases turns with
    | zero => exact List.prefix_refl _
    | succ turns =>
      have hnone : readAll read (turns + 1) part = [] := if_pos (List.prefix_nil.mp hpart)
      exact hnone ▸ List.prefix_refl []
  | cons x xs ih =>
    cases turns with
    | zero => exact List.nil_prefix
    | succ turns =>
      have hx := h x List.mem_cons_self
      rw [readAll]
      split
      · exact List.nil_prefix
      · rcases streams.prefix_append_cases hpart with ⟨hshort, hfirst⟩ | ⟨rest, rfl, hrest⟩
        · rw [hx.cut part hshort hfirst]
          exact List.nil_prefix
        · rw [hx.whole rest]
          exact (List.prefix_cons_inj x).mpr
            (ih (fun x hx => h x (List.mem_cons_of_mem _ hx)) hrest turns)

theorem readAll_whole (h : ∀ x ∈ xs, Decodes read x (texts x)) (hne : ∀ x ∈ xs, texts x ≠ [])
    (hturns : xs.length ≤ turns) : readAll read turns (xs.flatMap texts) = xs := by
  induction xs generalizing turns with
  | nil => cases turns <;> rfl
  | cons x xs ih =>
    obtain ⟨turns, rfl⟩ := Nat.exists_eq_add_of_le' (Nat.lt_of_lt_of_le (Nat.succ_pos _) hturns)
    have hx := h x List.mem_cons_self
    rw [readAll, List.flatMap_cons, if_neg (by simp [hne x List.mem_cons_self]), hx.whole]
    exact congrArg (x :: ·) (ih (fun x hx => h x (List.mem_cons_of_mem _ hx))
      (fun x hx => hne x (List.mem_cons_of_mem _ hx)) (Nat.le_of_succ_le_succ hturns))

theorem mem_readAll {p : Bytes} (h : x ∈ readAll read turns p) :
    ∃ p rest, read p = some (x, rest) := by
  induction turns generalizing p with
  | zero => cases h
  | succ turns ih =>
    rw [readAll] at h
    split at h
    · cases h
    · split at h
      · cases h
      · rename_i y rest hread
        rcases List.mem_cons.mp h with rfl | h
        · exact ⟨p, rest, hread⟩
        · exact ih h

end Readers

end records
