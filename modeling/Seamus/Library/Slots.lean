-- Raw storage whose slots hold an object or none. To construct takes a slot without an object,
-- to destroy or to read takes one with it, and every index is checked.
import Mathlib.Data.List.Basic

namespace slots

variable {α : Type*}

abbrev Region (α : Type*) := List (Option α)

/-- Storage in which nothing has been constructed. -/
def raw (α : Type*) (n : Nat) : Region α := List.replicate n none

def construct (region : Region α) (i : Nat) (value : α) : Option (Region α) :=
  match region[i]? with
  | some none => some (region.set i (some value))
  | _ => none

def destroy (region : Region α) (i : Nat) : Option (Region α) :=
  match region[i]? with
  | some (some _) => some (region.set i none)
  | _ => none

def read (region : Region α) (i : Nat) : Option α := (region[i]?).join

/-! ## A window of objects between two raw parts -/

/-- `l` slots without an object, the objects `xs`, and `r` slots without one. -/
def window (l : Nat) (xs : List α) (r : Nat) : Region α :=
  raw α l ++ xs.map some ++ raw α r

@[simp] theorem window_length (l : Nat) (xs : List α) (r : Nat) :
    (window l xs r).length = l + xs.length + r := by
  simp only [window, raw, List.length_append, List.length_map, List.length_replicate]

theorem raw_add (l r : Nat) : raw α (l + r) = raw α l ++ raw α r :=
  (List.replicate_append_replicate).symm

theorem raw_eq_window (l r : Nat) : raw α (l + r) = window l [] r := by
  simp [window, raw_add]

/-- With no object in it the window can stand anywhere. -/
theorem window_nil (l r : Nat) {l' r' : Nat} (h : l + r = l' + r') :
    window l ([] : List α) r = window l' [] r' := by
  rw [← raw_eq_window, h, raw_eq_window]

/-- An update at the slot between two parts. -/
theorem set_between {s t : Region α} {x y : Option α} {i : Nat} (hi : s.length = i) :
    (s ++ x :: t).set i y = s ++ y :: t := by
  subst hi
  simp

theorem getElem?_between {s t : Region α} {x : Option α} {i : Nat} (hi : s.length = i) :
    (s ++ x :: t)[i]? = some x := by
  subst hi
  simp

theorem window_cons (l : Nat) (x : α) (xs : List α) (r : Nat) :
    window l (x :: xs) r = raw α l ++ some x :: (xs.map some ++ raw α r) := by
  simp [window]

theorem window_snoc (l : Nat) (x : α) (xs : List α) (r : Nat) :
    window l (xs ++ [x]) r = (raw α l ++ xs.map some) ++ some x :: raw α r := by
  simp [window]

/-- A window starts after one raw slot more. -/
theorem window_succ_left (l : Nat) (xs : List α) (r : Nat) :
    window (l + 1) xs r = raw α l ++ none :: (xs.map some ++ raw α r) := by
  rw [window, raw_add, List.append_assoc, List.append_assoc]
  rfl

/-- A window ends before one raw slot more. -/
theorem window_succ_right (l : Nat) (xs : List α) (r : Nat) :
    window l xs (r + 1) = (raw α l ++ xs.map some) ++ none :: raw α r := by
  simp [window, raw, List.replicate_succ]

theorem construct_back (l : Nat) (xs : List α) (r : Nat) (x : α) {i : Nat}
    (hi : l + xs.length = i) :
    construct (window l xs (r + 1)) i x = some (window l (xs ++ [x]) r) := by
  have hlen : (raw α l ++ xs.map some).length = i := by simpa [raw] using hi
  rw [construct, window_succ_right, getElem?_between hlen, window_snoc]
  exact congrArg some (set_between hlen)

theorem construct_front (l : Nat) (xs : List α) (r : Nat) (x : α) :
    construct (window (l + 1) xs r) l x = some (window l (x :: xs) r) := by
  have hlen : (raw α l).length = l := List.length_replicate
  rw [construct, window_succ_left, getElem?_between hlen, window_cons]
  exact congrArg some (set_between hlen)

theorem destroy_back (l : Nat) (xs : List α) (r : Nat) (x : α) {i : Nat}
    (hi : l + xs.length = i) :
    destroy (window l (xs ++ [x]) r) i = some (window l xs (r + 1)) := by
  have hlen : (raw α l ++ xs.map some).length = i := by simpa [raw] using hi
  rw [destroy, window_snoc, getElem?_between hlen, window_succ_right]
  exact congrArg some (set_between hlen)

theorem destroy_front (l : Nat) (xs : List α) (r : Nat) (x : α) :
    destroy (window l (x :: xs) r) l = some (window (l + 1) xs r) := by
  have hlen : (raw α l).length = l := List.length_replicate
  rw [destroy, window_cons, getElem?_between hlen, window_succ_left]
  exact congrArg some (set_between hlen)

/-- Inside of the window the objects are read in their order. -/
theorem read_window (l : Nat) (xs : List α) (r : Nat) {i : Nat} (hi : i < xs.length) :
    read (window l xs r) (l + i) = xs[i]? := by
  have hlen : (raw α l).length = l := List.length_replicate
  rw [read, window, List.append_assoc, List.getElem?_append_right (by omega), hlen,
    Nat.add_sub_cancel_left, List.getElem?_append_left (by simpa using hi), List.getElem?_map,
    List.getElem?_eq_getElem hi]
  rfl

end slots
