-- The accesses of `sort`: whatever the comparison says, every index lies inside the vector and
-- the recursion ends. With an order the result is sorted.
import Seamus.QuickSort

open segment_swaps seamus.quick_sort

namespace seamus.sort_accesses

variable {α : Type} (comp : α → α → Bool)

/-! ## The source functions with their accesses -/

/-- The indices that the loop over `j` reads and writes. -/
def loopAccesses (high : Nat) : Nat → Array α → Nat → Nat → List Nat
  | 0, _, _, _ => []
  | turns + 1, vec, store, j =>
    if compAt comp vec j high then
      j :: high :: store :: loopAccesses high turns (vec.swapIfInBounds store j) (store + 1) (j + 1)
    else j :: high :: loopAccesses high turns vec store (j + 1)

def partitionAccesses (vec : Array α) (low high : Nat) : List Nat :=
  let mid := low + (high - low) / 2
  let vec := vec.swapIfInBounds mid high
  mid :: high :: (partitionLoop comp high (high - low) vec low low).2 ::
    loopAccesses comp high (high - low) vec low low

/-- `quickSort` with the indices that it accesses: none as long as it has not ended. -/
def quickSortRun : Nat → Array α → Nat → Nat → Option (Array α × List Nat)
  | 0, _, _, _ => none
  | fuel + 1, vec, low, high =>
    if low ≥ high then some (vec, [])
    else
      let accesses := partitionAccesses comp vec low high
      let (vec, p) := partition comp vec low high
      match (if p > low then quickSortRun fuel vec low (p - 1) else some (vec, [])) with
      | none => none
      | some (vec, left) =>
        (if p < high then quickSortRun fuel vec (p + 1) high else some (vec, [])).map
          fun (vec, right) => (vec, accesses ++ left ++ right)

def sortRun (vec : Array α) : Option (Array α × List Nat) :=
  if vec.size ≤ 1 then some (vec, []) else quickSortRun comp vec.size vec 0 (vec.size - 1)

/-! ## The bounds -/

variable {comp} {low high : Nat} {vec : Array α}

theorem loopAccesses_inside (turns : Nat) {store j : Nat} (hstore : low ≤ store) (hle : store ≤ j)
    (hj : j + turns ≤ high) : ∀ i ∈ loopAccesses comp high turns vec store j, low ≤ i ∧ i ≤ high := by
  induction turns generalizing vec store j with
  | zero => exact fun _ hi => absurd hi List.not_mem_nil
  | succ turns ih =>
    have hhere : low ≤ j ∧ j ≤ high := by omega
    have hlast : low ≤ high ∧ high ≤ high := by omega
    rw [loopAccesses]
    split
    · have hrest : ∀ i ∈ loopAccesses comp high turns (vec.swapIfInBounds store j) (store + 1)
          (j + 1), low ≤ i ∧ i ≤ high := ih (by omega) (by omega) (by omega)
      exact List.forall_mem_cons.mpr ⟨hhere, List.forall_mem_cons.mpr ⟨hlast,
        List.forall_mem_cons.mpr ⟨by omega, hrest⟩⟩⟩
    · have hrest : ∀ i ∈ loopAccesses comp high turns vec store (j + 1), low ≤ i ∧ i ≤ high :=
        ih hstore (by omega) (by omega)
      exact List.forall_mem_cons.mpr ⟨hhere, List.forall_mem_cons.mpr ⟨hlast, hrest⟩⟩

/-- A partition touches its own part of the vector only. -/
theorem partitionAccesses_inside (comp : α → α → Bool) (hlow : low < high) (hsize : high < vec.size) :
    ∀ i ∈ partitionAccesses comp vec low high, low ≤ i ∧ i ≤ high := by
  obtain ⟨vec', p, pivot, hpart, _, hbounds, _⟩ := partition_spec comp hlow hsize
  have hp : (partition comp vec low high).2 = p := by rw [hpart]
  unfold partition at hp
  unfold partitionAccesses
  simp only at hp ⊢
  rw [hp]
  refine List.forall_mem_cons.mpr ⟨by omega, List.forall_mem_cons.mpr ⟨by omega,
    List.forall_mem_cons.mpr ⟨hbounds, ?_⟩⟩⟩
  exact loopAccesses_inside _ (Nat.le_refl low) (Nat.le_refl low) (by omega)

/-- What a recursive call, or none on an empty part, accesses. -/
theorem quickSortRun_part {fuel : Nat} (vec : Array α) (low high : Nat)
    (ih : ∀ {low high : Nat} {vec : Array α}, high < vec.size → high - low < fuel →
      ∃ accesses, quickSortRun comp fuel vec low high =
          some (quickSort comp fuel vec low high, accesses) ∧
        (quickSort comp fuel vec low high).size = vec.size ∧ ∀ i ∈ accesses, i ≤ high)
    (called : Prop) [Decidable called] (hsize : called → high < vec.size)
    (hfuel : called → high - low < fuel) :
    ∃ accesses, (if called then quickSortRun comp fuel vec low high else some (vec, [])) =
        some (if called then quickSort comp fuel vec low high else vec, accesses) ∧
      (if called then quickSort comp fuel vec low high else vec).size = vec.size ∧
      ∀ i ∈ accesses, called ∧ i ≤ high := by
  by_cases h : called
  · obtain ⟨accesses, hrun, hsame, hinside⟩ := ih (hsize h) (hfuel h)
    simp only [if_pos h]
    exact ⟨accesses, hrun, hsame, fun i hi => ⟨h, hinside i hi⟩⟩
  · rw [if_neg h, if_neg h]
    exact ⟨[], rfl, rfl, fun _ hi => absurd hi List.not_mem_nil⟩

/-- With a turn for every entry the recursion ends, and it never leaves its part. -/
theorem quickSortRun_ends (comp : α → α → Bool) (fuel : Nat) (hsize : high < vec.size)
    (hfuel : high - low < fuel) :
    ∃ accesses, quickSortRun comp fuel vec low high =
        some (quickSort comp fuel vec low high, accesses) ∧
      (quickSort comp fuel vec low high).size = vec.size ∧ ∀ i ∈ accesses, i ≤ high := by
  induction fuel generalizing low high vec with
  | zero => omega
  | succ fuel ih =>
    rw [quickSortRun, quickSort]
    by_cases hle : low ≥ high
    · rw [if_pos hle, if_pos hle]
      exact ⟨[], rfl, rfl, fun _ hi => absurd hi List.not_mem_nil⟩
    · rw [if_neg hle, if_neg hle]
      have hlow : low < high := Nat.lt_of_not_le hle
      have hfirst := partitionAccesses_inside comp hlow hsize
      obtain ⟨vec1, p, pivot, hpart, hswaps, hbounds, _⟩ := partition_spec comp hlow hsize
      have hsize1 : high < vec1.size := by rw [hswaps.size]; exact hsize
      simp only [hpart]
      obtain ⟨left, hleft, hsame2, hinside2⟩ := quickSortRun_part vec1 low (p - 1) ih (p > low)
        (fun _ => by omega) (fun _ => by omega)
      generalize (if p > low then quickSort comp fuel vec1 low (p - 1) else vec1) = vec2 at *
      have hsize2 : high < vec2.size := by rw [hsame2]; exact hsize1
      obtain ⟨right, hright, hsame3, hinside3⟩ := quickSortRun_part vec2 (p + 1) high ih
        (p < high) (fun _ => hsize2) (fun _ => by omega)
      rw [hleft]
      simp only [hright, Option.map_some]
      refine ⟨_, rfl, hsame3.trans (hsame2.trans hswaps.size), fun i hi => ?_⟩
      rcases List.mem_append.mp hi with hi | hi
      · rcases List.mem_append.mp hi with hi | hi
        · exact (hfirst i hi).2
        · have hlast := (hinside2 i hi).2
          omega
      · exact (hinside3 i hi).2

/-- `sort` ends, accesses the vector at its own indices only, and gives its entries in order. -/
theorem sort_stays_inside (horder : StrictOrder comp) (vec : Array α) :
    ∃ out accesses, sortRun comp vec = some (out, accesses) ∧ (∀ i ∈ accesses, i < vec.size) ∧
      out.Perm vec ∧ out.toList.Pairwise fun x y => comp y x = false := by
  refine ⟨sort comp vec, ?_⟩
  have hperm := sort_perm horder vec
  have hsorted := sort_sorted horder vec
  unfold sort at hperm hsorted ⊢
  unfold sortRun
  by_cases hsmall : vec.size ≤ 1
  · rw [if_pos hsmall] at hperm hsorted ⊢
    rw [if_pos hsmall]
    exact ⟨[], rfl, fun _ hi => absurd hi List.not_mem_nil, hperm, hsorted⟩
  · rw [if_neg hsmall] at hperm hsorted ⊢
    rw [if_neg hsmall]
    have hlast : vec.size - 1 < vec.size := by omega
    obtain ⟨accesses, hrun, _, hinside⟩ :=
      quickSortRun_ends comp vec.size hlast (show vec.size - 1 - 0 < vec.size by omega)
    refine ⟨accesses, hrun, fun i hi => ?_, hperm, hsorted⟩
    exact Nat.lt_of_le_of_lt (hinside i hi) hlast

theorem three_numbers_sorted :
    ∃ out accesses, sortRun (fun x y : Nat => decide (x < y)) #[3, 1, 2] = some (out, accesses) ∧
      (∀ i ∈ accesses, i < 3) ∧ out.Perm #[3, 1, 2] ∧
      out.toList.Pairwise fun x y => decide (y < x) = false :=
  sort_stays_inside ⟨fun x => by simp, fun x y z hxy hyz => by simp at *; omega⟩ #[3, 1, 2]

end seamus.sort_accesses
