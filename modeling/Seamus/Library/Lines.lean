-- Lines with an end mark: reading them back, and when the lines of joined blocks are one
-- line for each block.
import Mathlib.Data.List.Basic
import Mathlib.Data.List.Chain

namespace lines

variable {α ι : Type} [DecidableEq α]

/-- The lines of a stream that have their end mark `d`, with `line` before them. -/
def linesFrom (d : α) : List α → List α → List (List α)
  | _, [] => []
  | line, c :: str =>
    if c = d then line :: linesFrom d [] str else linesFrom d (line ++ [c]) str

/-- What stands after the last end mark, with `line` before it. -/
def restFrom (d : α) : List α → List α → List α
  | line, [] => line
  | line, c :: str => if c = d then restFrom d [] str else restFrom d (line ++ [c]) str

/-- The lines of a stream that have their end mark `d`. -/
def linesOf (d : α) (str : List α) : List (List α) := linesFrom d [] str

/-- A line with its end mark. There is no empty one. -/
def lineOf (d : α) (line : List α) : List α := if line = [] then [] else line ++ [d]

/-! ## Reading lines back -/

theorem linesFrom_append {d : α} {text : List α} (h : d ∉ text) (line str : List α) :
    linesFrom d line (text ++ str) = linesFrom d (line ++ text) str := by
  induction text generalizing line with
  | nil => simp
  | cons c text ih =>
    obtain ⟨hc, htext⟩ := not_or.mp (mt List.mem_cons.mpr h)
    rw [List.cons_append, linesFrom, if_neg (Ne.symm hc), ih htext, List.append_assoc,
      List.singleton_append]

theorem linesOf_lineOf {d : α} {line : List α} (h : d ∉ line) (str : List α) :
    linesOf d (lineOf d line ++ str) =
      if line = [] then linesOf d str else line :: linesOf d str := by
  unfold linesOf lineOf
  split
  · rfl
  · rw [List.append_assoc, linesFrom_append h, List.nil_append, List.singleton_append, linesFrom,
      if_pos rfl]

theorem linesOf_flatMap {d : α} {text : ι → List α} {is : List ι} (h : ∀ i ∈ is, d ∉ text i) :
    linesOf d (is.flatMap fun i => lineOf d (text i)) = (is.map text).filter (· ≠ []) := by
  induction is with
  | nil => rfl
  | cons i is ih =>
    rw [List.flatMap_cons, linesOf_lineOf (h i List.mem_cons_self),
      ih fun j hj => h j (List.mem_cons_of_mem i hj), List.map_cons, List.filter_cons]
    split <;> simp_all

theorem flatMap_linesFrom (d : α) (line str : List α) :
    ((linesFrom d line str).flatMap fun l => l ++ [d]) ++ restFrom d line str = line ++ str := by
  induction str generalizing line with
  | nil => simp [linesFrom, restFrom]
  | cons c str ih =>
    unfold linesFrom restFrom
    split
    · rename_i hc
      rw [List.flatMap_cons, List.append_assoc, ih, hc]
      simp
    · rw [ih]
      simp

theorem notMem_restFrom {d : α} {line : List α} (h : d ∉ line) (str : List α) :
    d ∉ restFrom d line str := by
  induction str generalizing line with
  | nil => exact h
  | cons c str ih =>
    unfold restFrom
    split
    · exact ih List.not_mem_nil
    · rename_i hc
      exact ih (by simp [h, Ne.symm hc])

/-! ## Neighbours in a line -/

omit [DecidableEq α] in
/-- Without an end mark in it, a line is a chain of its characters. -/
theorem isChain_line {R : α → α → Prop} {d : α} {line : List α} (h : d ∉ line) :
    line.IsChain (fun x y => x ≠ d → y ≠ d → R x y) ↔ line.IsChain R := by
  apply List.IsChain.iff_of_mem_imp
  intro x y hx hy
  constructor
  · exact fun hxy => hxy (fun hd => h (hd ▸ hx)) fun hd => h (hd ▸ hy)
  · exact fun hxy _ _ => hxy

/-- Every line is a chain if and only if all neighbours with no end mark between them are
related. -/
theorem isChain_lines {R : α → α → Prop} {d : α} {line : List α} (h : d ∉ line) (str : List α) :
    (∀ l ∈ linesFrom d line str ++ [restFrom d line str], l.IsChain R) ↔
      (line ++ str).IsChain fun x y => x ≠ d → y ≠ d → R x y := by
  induction str generalizing line with
  | nil => simp [linesFrom, restFrom, isChain_line h]
  | cons c str ih =>
    unfold linesFrom restFrom
    split
    · rename_i hc
      subst hc
      have hrest := ih (List.not_mem_nil (a := c))
      rw [List.nil_append] at hrest
      have hafter : (c :: str).IsChain (fun x y => x ≠ c → y ≠ c → R x y) ↔
          str.IsChain fun x y => x ≠ c → y ≠ c → R x y := by
        rw [List.isChain_cons]
        simp
      rw [List.cons_append, List.forall_mem_cons, hrest, List.isChain_append, hafter,
        isChain_line h]
      simp
    · rename_i hc
      have hline : d ∉ line ++ [c] := by simp [h, Ne.symm hc]
      rw [ih hline, List.append_assoc, List.singleton_append]

/-! ## Blocks -/

/-- The stream without its end marks. -/
def letters (d : α) (str : List α) : List α := str.filter (· ≠ d)

theorem letters_append (d : α) (xs ys : List α) :
    letters d (xs ++ ys) = letters d xs ++ letters d ys := List.filter_append ..

theorem letters_of_notMem {d : α} {xs : List α} (h : d ∉ xs) : letters d xs = xs :=
  List.filter_eq_self.mpr fun _ hc => decide_eq_true fun hcd => h (hcd ▸ hc)

theorem letters_lineOf {d : α} {line : List α} (h : d ∉ line) : letters d (lineOf d line) = line := by
  unfold lineOf
  split
  · rename_i hnil
    rw [hnil]
    rfl
  · rw [letters_append, letters_of_notMem h]
    simp [letters]

theorem letters_flatMap (d : α) (f : ι → List α) (is : List ι) :
    letters d (is.flatMap f) = is.flatMap fun i => letters d (f i) := by
  induction is with
  | nil => rfl
  | cons i is ih => rw [List.flatMap_cons, letters_append, ih, List.flatMap_cons]

omit [DecidableEq α] in
theorem sublist_flatMap {f g : ι → List α} {is : List ι}
    (h : ∀ i ∈ is, (f i).Sublist (g i)) : (is.flatMap f).Sublist (is.flatMap g) := by
  induction is with
  | nil => exact List.Sublist.refl []
  | cons i is ih =>
    obtain ⟨hi, his⟩ := List.forall_mem_cons.mp h
    exact hi.append (ih his)

omit [DecidableEq α] in
/-- Nothing is lost of all blocks together only if nothing is lost of each. -/
theorem eq_of_flatMap_eq {f g : ι → List α} {is : List ι} (h : ∀ i ∈ is, (f i).Sublist (g i))
    (heq : is.flatMap f = is.flatMap g) : ∀ i ∈ is, f i = g i := by
  induction is with
  | nil => exact fun i hi => absurd hi List.not_mem_nil
  | cons i is ih =>
    obtain ⟨hi, his⟩ := List.forall_mem_cons.mp h
    rw [List.flatMap_cons, List.flatMap_cons] at heq
    have hlen := congrArg List.length heq
    rw [List.length_append, List.length_append] at hlen
    have hle := hi.length_le
    have hrest := (sublist_flatMap his).length_le
    obtain ⟨hone, hothers⟩ := List.append_inj heq (by omega)
    exact List.forall_mem_cons.mpr ⟨hone, ih his hothers⟩

omit [DecidableEq α] in
theorem head?_lineOf {d : α} {line : List α} (h : d ∉ line) : (lineOf d line).head? ≠ some d := by
  unfold lineOf
  cases line with
  | nil => simp
  | cons c line =>
    intro hhead
    simp only [List.cons_ne_nil, if_false, List.cons_append, List.head?_cons,
      Option.some.injEq] at hhead
    exact h (hhead ▸ List.mem_cons_self)

omit [DecidableEq α] in
theorem head?_flatMap {d : α} {f : ι → List α} {is : List ι}
    (h : ∀ i ∈ is, (f i).head? ≠ some d) : (is.flatMap f).head? ≠ some d := by
  induction is with
  | nil => simp
  | cons i is ih =>
    obtain ⟨hi, his⟩ := List.forall_mem_cons.mp h
    rw [List.flatMap_cons]
    cases hf : f i with
    | nil => exact ih his
    | cons c block =>
      rw [hf] at hi
      exact hi

/-- A block and a line with the same letters that begin the same stream. -/
theorem eq_lineOf {d : α} {block line rest rest' : List α} (hline : d ∉ line)
    (hletters : letters d block = line) (hblock : block.head? ≠ some d)
    (hrest : rest.head? ≠ some d) (hrest' : rest'.head? ≠ some d)
    (h : block ++ rest = lineOf d line ++ rest') : block = lineOf d line := by
  by_cases hnil : line = []
  · rw [lineOf, if_pos hnil]
    cases block with
    | nil => rfl
    | cons c block =>
      have hc : c ≠ d := fun hcd => hblock (congrArg some hcd)
      simp [hnil, letters, hc] at hletters
  · rw [lineOf, if_neg hnil] at h ⊢
    rcases List.append_eq_append_iff.mp h with ⟨more, hmore, hstart⟩ | ⟨more, hmore, hstart⟩
    -- the block ends before the line with its mark, or after it
    · rcases List.eq_nil_or_concat more with rfl | ⟨more, c, rfl⟩
      · rw [hmore, List.append_nil]
      · rw [List.concat_eq_append, ← List.append_assoc] at hmore
        obtain ⟨hshort, hc⟩ := List.append_inj' hmore rfl
        have hsame : block = line := by
          rw [← hletters, letters_of_notMem]
          exact fun hd => hline (hshort ▸ List.mem_append_left _ hd)
        have hnone : more = [] := by simpa [hsame] using hshort
        rw [hstart, hnone, ← List.singleton_inj.mp hc] at hrest
        exact absurd rfl hrest
    · rw [hmore, letters_append, letters_append, letters_of_notMem hline] at hletters
      cases more with
      | nil => rw [hmore, List.append_nil]
      | cons c more =>
        have hc : c ≠ d := by
          rw [hstart] at hrest'
          exact fun hcd => hrest' (congrArg some hcd)
        simp [letters, hc] at hletters

theorem blocks_are_lines {d : α} {block line : ι → List α} {is : List ι}
    (hline : ∀ i ∈ is, d ∉ line i) (hletters : ∀ i ∈ is, letters d (block i) = line i)
    (hhead : ∀ i ∈ is, (block i).head? ≠ some d)
    (h : is.flatMap block = is.flatMap fun i => lineOf d (line i)) :
    ∀ i ∈ is, block i = lineOf d (line i) := by
  induction is with
  | nil => exact fun i hi => absurd hi List.not_mem_nil
  | cons i is ih =>
    obtain ⟨hline1, hlines⟩ := List.forall_mem_cons.mp hline
    obtain ⟨hletters1, hletters⟩ := List.forall_mem_cons.mp hletters
    obtain ⟨hhead1, hheads⟩ := List.forall_mem_cons.mp hhead
    rw [List.flatMap_cons, List.flatMap_cons] at h
    have hone : block i = lineOf d (line i) :=
      eq_lineOf hline1 hletters1 hhead1 (head?_flatMap hheads)
        (head?_flatMap fun j hj => head?_lineOf (hlines j hj)) h
    rw [hone] at h
    exact List.forall_mem_cons.mpr ⟨hone, ih hlines hletters hheads (List.append_cancel_left h)⟩

omit [DecidableEq α] in
theorem flatMap_filter_lines (d : α) (line : ι → List α) (is : List ι) :
    (((is.map line).filter (· ≠ [])).flatMap fun l => l ++ [d]) =
      is.flatMap fun i => lineOf d (line i) := by
  induction is with
  | nil => rfl
  | cons i is ih =>
    rw [List.map_cons, List.filter_cons, List.flatMap_cons, ← ih, lineOf]
    split <;> simp_all

/-- Blocks that lose letters at most have the given lines exactly if each block is its line. -/
theorem linesOf_blocks_iff {d : α} {block line : ι → List α} {is : List ι}
    (hline : ∀ i ∈ is, d ∉ line i)
    (hletters : ∀ i ∈ is, (letters d (block i)).Sublist (line i))
    (hhead : ∀ i ∈ is, (block i).head? ≠ some d) :
    linesOf d (is.flatMap block) = (is.map line).filter (· ≠ []) ↔
      ∀ i ∈ is, block i = lineOf d (line i) := by
  constructor
  · intro h
    have hstream := flatMap_linesFrom d [] (is.flatMap block)
    have hnone : d ∉ ([] : List α) := List.not_mem_nil
    have hrest := letters_of_notMem (notMem_restFrom hnone (is.flatMap block))
    change linesFrom d [] (is.flatMap block) = _ at h
    rw [h, flatMap_filter_lines, List.nil_append] at hstream
    generalize restFrom d [] (is.flatMap block) = rest at hstream hrest
    have hsame := congrArg (letters d) hstream
    rw [letters_append, letters_flatMap, letters_flatMap, hrest,
      List.flatMap_congr fun i hi => letters_lineOf (hline i hi)] at hsame
    have hle := (sublist_flatMap hletters).length_le
    rw [← hsame, List.length_append] at hle
    have hnone : rest = [] := List.length_eq_zero_iff.mp (by omega)
    rw [hnone, List.append_nil] at hstream hsame
    exact blocks_are_lines hline (eq_of_flatMap_eq hletters hsame.symm) hhead hstream.symm
  · intro h
    rw [← linesOf_flatMap hline, List.flatMap_congr h]

end lines
