-- Readers of a byte stream that comes in pieces, and the texts that they decode: the whole text
-- to its value, and every part of it that ends too early to nothing.
import Mathlib.Data.List.Basic

namespace streams

/-! ## Streams -/

/-- What one call finds in the stream, a byte or more. -/
abbrev Segment := {bytes : List UInt8 // bytes ≠ []}

/-- A stream: what is still to come, up to its end. -/
abbrev Fd := List Segment

def Fd.bytes (fd : Fd) : List UInt8 := fd.flatMap Subtype.val

/-- The loop that reads until it has `len` bytes. A segment that is longer stays with its rest. -/
def recvExact : Fd → Nat → Option (List UInt8) × Fd
  | fd, 0 => (some [], fd)
  | [], _ + 1 => (none, [])
  | seg :: fd, len + 1 =>
    if h : len + 1 < seg.val.length then
      (some (seg.val.take (len + 1)),
        ⟨seg.val.drop (len + 1), fun hnil => absurd (List.drop_eq_nil_iff.mp hnil) (by omega)⟩ :: fd)
    else
      let (bytes, rest) := recvExact fd (len + 1 - seg.val.length)
      (bytes.map (seg.val ++ ·), rest)

/-- A text in one piece. -/
def Fd.ofBytes (bytes : List UInt8) : Fd := if h : bytes = [] then [] else [⟨bytes, h⟩]

theorem Fd.bytes_nil : Fd.bytes [] = [] := rfl

theorem Fd.bytes_cons (seg : Segment) (fd : Fd) : Fd.bytes (seg :: fd) = seg.val ++ Fd.bytes fd := by
  unfold Fd.bytes
  rw [List.flatMap_cons]

theorem Fd.bytes_ofBytes (bytes : List UInt8) : (Fd.ofBytes bytes).bytes = bytes := by
  unfold Fd.ofBytes
  split
  · rename_i h
    rw [h, Fd.bytes_nil]
  · rw [Fd.bytes_cons, Fd.bytes_nil, List.append_nil]

/-- With enough bytes to come it takes the first ones, whatever the pieces are. -/
theorem recvExact_of_le {fd : Fd} {len : Nat} (h : len ≤ fd.bytes.length) :
    (recvExact fd len).1 = some (fd.bytes.take len) ∧
      (recvExact fd len).2.bytes = fd.bytes.drop len := by
  induction fd generalizing len with
  | nil =>
    obtain rfl := Nat.le_zero.mp h
    exact ⟨rfl, rfl⟩
  | cons seg fd ih =>
    rw [Fd.bytes_cons, List.length_append] at h
    rw [Fd.bytes_cons]
    cases len with
    | zero => exact ⟨rfl, Fd.bytes_cons seg fd⟩
    | succ len =>
      unfold recvExact
      by_cases hlong : len + 1 < seg.val.length
      · rw [dif_pos hlong, List.take_append_of_le_length (Nat.le_of_lt hlong),
          List.drop_append_of_le_length (Nat.le_of_lt hlong)]
        exact ⟨rfl, Fd.bytes_cons _ fd⟩
      · obtain ⟨hread, hrest⟩ := @ih (len + 1 - seg.val.length) (by omega)
        rw [dif_neg hlong]
        simp only [hread, hrest, Option.map_some]
        rw [List.take_append, List.drop_append, List.take_of_length_le (Nat.le_of_not_lt hlong),
          List.drop_of_length_le (Nat.le_of_not_lt hlong), List.nil_append]
        exact ⟨rfl, rfl⟩

/-- With too few bytes it fails at the end of the stream. -/
theorem recvExact_of_lt {fd : Fd} {len : Nat} (h : fd.bytes.length < len) :
    (recvExact fd len).1 = none ∧ (recvExact fd len).2.bytes = [] := by
  induction fd generalizing len with
  | nil =>
    obtain ⟨len, rfl⟩ := Nat.exists_eq_succ_of_ne_zero (Nat.ne_of_gt (Nat.zero_lt_of_lt h))
    exact ⟨rfl, rfl⟩
  | cons seg fd ih =>
    rw [Fd.bytes_cons, List.length_append] at h
    obtain ⟨len, rfl⟩ := Nat.exists_eq_succ_of_ne_zero (Nat.ne_of_gt (Nat.zero_lt_of_lt h))
    obtain ⟨hread, hrest⟩ := @ih (len + 1 - seg.val.length) (by omega)
    unfold recvExact
    rw [dif_neg (by omega)]
    simp only [hread, hrest, Option.map_none, and_self]

/-! ## Readers -/

/-- What a function gives that reads from the stream, none for a failure, and where it stops. -/
def Reader (α : Type) := Fd → Option α × Fd

instance : Monad Reader where
  pure x := fun fd => (some x, fd)
  bind read next := fun fd =>
    match read fd with
    | (some x, fd) => next x fd
    | (none, fd) => (none, fd)

/-- Fails where it stands. -/
def fail {α : Type} : Reader α := fun fd => (none, fd)

/-- Reads two things, the second one also when the first one fails. -/
def both {α β : Type} (first : Reader α) (second : Reader β) : Reader (α × β) := fun fd =>
  let (x, fd) := first fd
  let (y, fd) := second fd
  (x.bind fun x => y.map fun y => (x, y), fd)

/-- Reads the same thing a number of times, and fails at the first failure. -/
def recvMany {α : Type} (read : Reader α) : Nat → Reader (List α)
  | 0 => pure []
  | n + 1 => do
    let x ← read
    let xs ← recvMany read n
    pure (x :: xs)

/-- The reader takes the text for the value, in any pieces, and fails on a part of it that does
not go to the end. -/
structure Decodes {α : Type} (read : Reader α) (x : α) (text : List UInt8) : Prop where
  whole : ∀ (fd : Fd) rest, fd.bytes = text ++ rest →
    (read fd).1 = some x ∧ (read fd).2.bytes = rest
  cut : ∀ fd : Fd, fd.bytes <+: text → fd.bytes ≠ text →
    (read fd).1 = none ∧ (read fd).2.bytes = []

section Readers

variable {α β : Type} {read : Reader α} {next : α → Reader β} {x : α} {y : β}
  {text text' : List UInt8}

theorem bind_of_some {fd : Fd} (h : (read fd).1 = some x) :
    (read >>= next) fd = next x (read fd).2 := by
  change (match read fd with
    | (some x, fd) => next x fd
    | (none, fd) => (none, fd)) = _
  rcases hread : read fd with ⟨r, fd'⟩
  rw [hread] at h
  obtain rfl : r = some x := h
  rfl

theorem bind_of_none {fd : Fd} (h : (read fd).1 = none) :
    (read >>= next) fd = (none, (read fd).2) := by
  change (match read fd with
    | (some x, fd) => next x fd
    | (none, fd) => (none, fd)) = _
  rcases hread : read fd with ⟨r, fd'⟩
  rw [hread] at h
  obtain rfl : r = none := h
  rfl

theorem exists_of_bind {fd : Fd} (h : ((read >>= next) fd).1 = some y) :
    ∃ x, (read fd).1 = some x ∧ (next x (read fd).2).1 = some y := by
  cases hread : (read fd).1 with
  | none =>
    rw [bind_of_none hread] at h
    cases h
  | some x =>
    rw [bind_of_some hread] at h
    exact ⟨x, rfl, h⟩

/-- A part of two texts ends in the first one, or has all of it. -/
theorem prefix_append_cases {part : List UInt8} (h : part <+: text ++ text') :
    (part <+: text ∧ part ≠ text) ∨ ∃ rest, part = text ++ rest ∧ rest <+: text' := by
  by_cases hlen : part.length < text.length
  · left
    refine ⟨List.prefix_of_prefix_length_le h (List.prefix_append _ _) (Nat.le_of_lt hlen), ?_⟩
    exact fun heq => absurd hlen (by rw [heq]; exact Nat.lt_irrefl _)
  · right
    obtain ⟨rest, rfl⟩ := List.prefix_of_prefix_length_le (List.prefix_append text text') h
      (Nat.le_of_not_lt hlen)
    exact ⟨rest, rfl, (List.prefix_append_right_inj _).mp h⟩

theorem decodes_pure (x : α) : Decodes (pure x) x [] where
  whole _ _ h := ⟨rfl, h⟩
  cut _ h hne := absurd (List.prefix_nil.mp h) hne

theorem Decodes.bind (h : Decodes read x text) (h' : Decodes (next x) y text') :
    Decodes (read >>= next) y (text ++ text') where
  whole fd rest hfd := by
    rw [List.append_assoc] at hfd
    obtain ⟨hread, hrest⟩ := h.whole fd _ hfd
    rw [bind_of_some hread]
    exact h'.whole _ rest hrest
  cut fd hpart hne := by
    rcases prefix_append_cases hpart with ⟨hshort, hfirst⟩ | ⟨rest, hrest, hpart⟩
    · obtain ⟨hread, hleft⟩ := h.cut fd hshort hfirst
      rw [bind_of_none hread]
      exact ⟨rfl, hleft⟩
    · obtain ⟨hread, hleft⟩ := h.whole fd rest hrest
      rw [bind_of_some hread]
      refine h'.cut _ ?_ ?_ <;> rw [hleft]
      · exact hpart
      · exact fun heq => hne (by rw [hrest, heq])

theorem Decodes.both {second : Reader β} (h : Decodes read x text)
    (h' : Decodes second y text') (hnil : text' ≠ []) :
    Decodes (streams.both read second) (x, y) (text ++ text') where
  whole fd rest hfd := by
    rw [List.append_assoc] at hfd
    obtain ⟨hread, hrest⟩ := h.whole fd _ hfd
    obtain ⟨hread', hrest'⟩ := h'.whole _ rest hrest
    unfold streams.both
    simp only [hread, hread', Option.bind_some, Option.map_some]
    exact ⟨trivial, hrest'⟩
  cut fd hpart hne := by
    unfold streams.both
    rcases prefix_append_cases hpart with ⟨hshort, hfirst⟩ | ⟨rest, hrest, hpart⟩
    · obtain ⟨hread, hleft⟩ := h.cut fd hshort hfirst
      obtain ⟨-, hleft'⟩ := h'.cut (read fd).2 (by rw [hleft]; exact List.nil_prefix)
        (by rw [hleft]; exact hnil.symm)
      simp only [hread, Option.bind_none]
      exact ⟨trivial, hleft'⟩
    · obtain ⟨hread, hleft⟩ := h.whole fd rest hrest
      obtain ⟨hread', hleft'⟩ := h'.cut (read fd).2 (by rw [hleft]; exact hpart)
        (by rw [hleft]; exact fun heq => hne (by rw [hrest, heq]))
      simp only [hread, hread', Option.bind_some, Option.map_none]
      exact ⟨trivial, hleft'⟩

theorem decodes_many {xs : List α} {texts : α → List UInt8}
    (h : ∀ x ∈ xs, Decodes read x (texts x)) :
    Decodes (recvMany read xs.length) xs (xs.flatMap texts) := by
  induction xs with
  | nil => exact decodes_pure []
  | cons x xs ih =>
    have hrest : Decodes (recvMany read xs.length >>= fun xs => pure (x :: xs)) (x :: xs)
        (xs.flatMap texts ++ []) :=
      (ih fun x hx => h x (List.mem_cons_of_mem _ hx)).bind (decodes_pure _)
    rw [List.append_nil] at hrest
    exact (h x List.mem_cons_self).bind hrest

theorem length_recvMany {n : Nat} {fd : Fd} {xs : List α}
    (h : (recvMany read n fd).1 = some xs) : xs.length = n := by
  induction n generalizing fd xs with
  | zero =>
    cases h
    rfl
  | succ n ih =>
    obtain ⟨x, -, hmany⟩ := exists_of_bind h
    obtain ⟨xs', hxs, hpure⟩ := exists_of_bind hmany
    cases hpure
    rw [List.length_cons, ih hxs]

theorem mem_recvMany {n : Nat} {fd : Fd} {xs : List α} (h : (recvMany read n fd).1 = some xs) :
    ∀ x ∈ xs, ∃ fd, (read fd).1 = some x := by
  induction n generalizing fd xs with
  | zero =>
    cases h
    exact fun _ hx => nomatch hx
  | succ n ih =>
    obtain ⟨x, hread, hmany⟩ := exists_of_bind h
    obtain ⟨xs', hxs, hpure⟩ := exists_of_bind hmany
    cases hpure
    rintro y hy
    rcases List.mem_cons.mp hy with rfl | hy
    · exact ⟨fd, hread⟩
    · exact ih hxs y hy

end Readers

end streams
