-- Least recently used: a list that holds what was touched last, in order of recency, is the front
-- of the list of all that was ever touched.
import Mathlib.Data.List.Dedup
import Mathlib.Data.List.Induction

namespace recency

variable {α : Type*} [DecidableEq α]

/-- All that was touched, each once, the last one first. -/
def recent (touched : List α) : List α := touched.dedup.reverse

/-- One more is touched, where `n` are kept. -/
def touch (n : Nat) (l : List α) (x : α) : List α := (x :: l.erase x).take n

variable {l : List α} {x : α} {n : Nat}

theorem dedup_append_singleton (touched : List α) (x : α) :
    (touched ++ [x]).dedup = touched.dedup.erase x ++ [x] := by
  induction touched with
  | nil => rfl
  | cons a touched ih =>
    rw [List.cons_append]
    by_cases hmem : a ∈ touched
    · rw [List.dedup_cons_of_mem (List.mem_append_left _ hmem), List.dedup_cons_of_mem hmem, ih]
    by_cases hax : a = x
    · subst hax
      have hlast : a ∈ touched ++ [a] := List.mem_append_right _ List.mem_cons_self
      rw [List.dedup_cons_of_mem hlast, List.dedup_cons_of_notMem hmem, ih, List.erase_cons_head,
        List.erase_of_not_mem fun h => hmem (List.mem_dedup.mp h)]
    · have hnot : a ∉ touched ++ [x] := by simp [hmem, hax]
      rw [List.dedup_cons_of_notMem hnot, List.dedup_cons_of_notMem hmem, ih,
        List.erase_cons_tail (by simpa using hax), List.cons_append]

theorem recent_append (touched : List α) (x : α) :
    recent (touched ++ [x]) = x :: (recent touched).erase x := by
  have hnodup := List.nodup_dedup touched
  rw [recent, dedup_append_singleton, List.reverse_append, recent,
    (List.nodup_reverse.mpr hnodup).erase_eq_filter, List.filter_reverse, hnodup.erase_eq_filter]
  rfl

theorem take_erase_take (n : Nat) (l : List α) (x : α) :
    ((l.take (n + 1)).erase x).take n = (l.erase x).take n := by
  induction l generalizing n with
  | nil => rfl
  | cons a l ih =>
    rw [List.take_succ_cons, List.erase_cons, List.erase_cons]
    split
    · rw [List.take_take, Nat.min_self]
    · cases n with
      | zero => rfl
      | succ n => rw [List.take_succ_cons, List.take_succ_cons, ih]

/-- What was dropped before is dropped again. -/
theorem touch_take (n : Nat) (l : List α) (x : α) : touch n (l.take n) x = touch n l x := by
  cases n with
  | zero => rfl
  | succ n => rw [touch, touch, List.take_succ_cons, List.take_succ_cons, take_erase_take]

/-- The `n` touched last. -/
theorem foldl_touch (n : Nat) (touched : List α) :
    touched.foldl (touch n) [] = (recent touched).take n := by
  induction touched using List.reverseRecOn with
  | nil => exact List.take_nil.symm
  | append_singleton touched x ih =>
    rw [List.foldl_append, List.foldl_cons, List.foldl_nil, ih, touch_take, recent_append, touch]

theorem touch_nodup (h : l.Nodup) (n : Nat) (x : α) : (touch n l x).Nodup := by
  refine List.Nodup.sublist (List.take_sublist _ _) (List.nodup_cons.mpr ⟨?_, h.erase x⟩)
  exact h.not_mem_erase

/-! ## One step as a cache does it -/

theorem touch_of_mem (h : x ∈ l) (hlength : l.length ≤ n) : touch n l x = x :: l.erase x := by
  apply List.take_of_length_le
  have hpos := List.length_pos_of_mem h
  rw [List.length_cons, List.length_erase_of_mem h]
  omega

theorem touch_of_not_mem (h : x ∉ l) (hlength : l.length < n) : touch n l x = x :: l := by
  rw [touch, List.erase_of_not_mem h]
  exact List.take_of_length_le hlength

/-- The last entry makes room. -/
theorem touch_full (h : x ∉ l) (hlength : l.length = n) (hpos : 0 < n) :
    touch n l x = x :: l.dropLast := by
  obtain ⟨n, rfl⟩ := Nat.exists_eq_add_of_lt hpos
  rw [touch, List.erase_of_not_mem h, Nat.zero_add, List.take_succ_cons,
    List.dropLast_eq_take, hlength, Nat.zero_add, Nat.add_sub_cancel]

end recency
