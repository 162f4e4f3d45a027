-- The laws of `sort` of `lib/algorithm.h`: with a comparison that is a strict order it gives
-- the entries of the vector, none of them after one that it should come before.
import Seamus.Library.SegmentSwaps
import Mathlib.Order.Basic

open segment_swaps

namespace seamus.quick_sort

variable {α : Type} (comp : α → α → Bool)

/-! ## The source functions -/

/-- `comp(vec[i], vec[j])`. -/
def compAt (vec : Array α) (i j : Nat) : Bool :=
  match vec[i]?, vec[j]? with
  | some x, some y => comp x y
  | _, _ => false

/-- The loop over `j`, with the turns that are left. -/
def partitionLoop (high : Nat) : Nat → Array α → Nat → Nat → Array α × Nat
  | 0, vec, store, _ => (vec, store)
  | turns + 1, vec, store, j =>
    if compAt comp vec j high then
      partitionLoop high turns (vec.swapIfInBounds store j) (store + 1) (j + 1)
    else partitionLoop high turns vec store (j + 1)

def partition (vec : Array α) (low high : Nat) : Array α × Nat :=
  let mid := low + (high - low) / 2
  let vec := vec.swapIfInBounds mid high
  let (vec, store) := partitionLoop comp high (high - low) vec low low
  (vec.swapIfInBounds store high, store)

def quickSort : Nat → Array α → Nat → Nat → Array α
  | 0, vec, _, _ => vec
  | fuel + 1, vec, low, high =>
    if low ≥ high then vec
    else
      let (vec, p) := partition comp vec low high
      let vec := if p > low then quickSort fuel vec low (p - 1) else vec
      if p < high then quickSort fuel vec (p + 1) high else vec

def sort (vec : Array α) : Array α :=
  if vec.size ≤ 1 then vec else quickSort comp vec.size vec 0 (vec.size - 1)

/-! ## One partition -/

/-- Before the pivot at `high` the entries up to `store` come first, and those from there to
`j` do not. -/
structure Parted (low high : Nat) (start vec : Array α) (pivot : α) (store j : Nat) : Prop where
  swaps : Swaps low high start vec
  bounds : low ≤ store ∧ store ≤ j ∧ j ≤ high
  pivot_at : vec[high]? = some pivot
  first : ∀ k x, low ≤ k → k < store → vec[k]? = some x → comp x pivot = true
  rest : ∀ k x, store ≤ k → k < j → vec[k]? = some x → comp x pivot = false

variable {comp} {low high store j : Nat} {start vec : Array α} {pivot : α}

theorem compAt_eq {i j : Nat} {x y : α} (hx : vec[i]? = some x) (hy : vec[j]? = some y) :
    compAt comp vec i j = comp x y := by
  unfold compAt
  rw [hx, hy]

theorem Parted.take (inv : Parted comp low high start vec pivot store j) (hsize : high < vec.size)
    (hj : j < high) (hcomp : compAt comp vec j high = true) :
    Parted comp low high start (vec.swapIfInBounds store j) pivot (store + 1) (j + 1) := by
  obtain ⟨hs, ⟨b1, b2, b3⟩, hpivot, hfirst, hrest⟩ := inv
  have hstore : store < vec.size := by omega
  have hjs : j < vec.size := by omega
  have hget := getElem?_swap vec store j
  refine ⟨hs.swap (by omega) (by omega), by omega, ?_, ?_, ?_⟩
  · rw [hget high hstore hjs, if_neg (by omega), if_neg (by omega)]
    exact hpivot
  · intro k x h1 h2 hx
    rw [hget k hstore hjs] at hx
    split_ifs at hx with e1 e2
    · rw [← hcomp, compAt_eq hx hpivot]
    · omega
    · exact hfirst k x h1 (by omega) hx
  · intro k x h1 h2 hx
    rw [hget k hstore hjs] at hx
    split_ifs at hx with e1 e2
    · omega
    · exact hrest store x (Nat.le_refl _) (by omega) hx
    · exact hrest k x (by omega) (by omega) hx

theorem Parted.leave (inv : Parted comp low high start vec pivot store j) (hj : j < high)
    (hcomp : compAt comp vec j high = false) :
    Parted comp low high start vec pivot store (j + 1) := by
  obtain ⟨hs, ⟨b1, b2, b3⟩, hpivot, hfirst, hrest⟩ := inv
  refine ⟨hs, by omega, hpivot, hfirst, ?_⟩
  intro k x h1 h2 hx
  by_cases hk : k < j
  · exact hrest k x h1 hk hx
  · have hkj : k = j := by omega
    subst hkj
    rw [← hcomp, compAt_eq hx hpivot]

theorem partitionLoop_spec (turns : Nat) (inv : Parted comp low high start vec pivot store j)
    (hsize : high < vec.size) (hturns : turns = high - j) :
    ∃ vec' store', partitionLoop comp high turns vec store j = (vec', store') ∧
      Parted comp low high start vec' pivot store' high := by
  induction turns generalizing vec store j with
  | zero =>
    have hj : j = high := by
      have := inv.bounds
      omega
    subst hj
    exact ⟨vec, store, rfl, inv⟩
  | succ turns ih =>
    unfold partitionLoop
    cases hcomp : compAt comp vec j high with
    | true => exact ih (inv.take hsize (by omega) hcomp) (by simpa using hsize) (by omega)
    | false => exact ih (inv.leave (by omega) hcomp) hsize (by omega)

/-- The pivot is in its place: what comes before it is on its left. -/
theorem partition_spec (comp : α → α → Bool) (hlow : low < high) (hsize : high < vec.size) :
    ∃ vec' p pivot, partition comp vec low high = (vec', p) ∧ Swaps low high vec vec' ∧
      (low ≤ p ∧ p ≤ high) ∧ vec'[p]? = some pivot ∧
      (∀ k x, low ≤ k → k < p → vec'[k]? = some x → comp x pivot = true) ∧
      (∀ k x, p < k → k ≤ high → vec'[k]? = some x → comp x pivot = false) := by
  unfold partition
  generalize hmid : low + (high - low) / 2 = mid
  have hswap : Swaps low high vec (vec.swapIfInBounds mid high) :=
    Swaps.refl.swap (by omega) (by omega)
  have hsize1 : high < (vec.swapIfInBounds mid high).size := by simpa using hsize
  obtain ⟨pivot, hpivot⟩ : ∃ pivot, (vec.swapIfInBounds mid high)[high]? = some pivot :=
    ⟨_, Array.getElem?_eq_getElem hsize1⟩
  have inv0 : Parted comp low high vec (vec.swapIfInBounds mid high) pivot low low :=
    ⟨hswap, by omega, hpivot, fun k x h1 h2 => by omega, fun k x h1 h2 => by omega⟩
  obtain ⟨vec2, store, hloop, hs, ⟨b1, b2, b3⟩, hpivot2, hfirst, hrest⟩ :=
    partitionLoop_spec _ inv0 hsize1 rfl
  have hsize2 : high < vec2.size := by rw [hs.size]; exact hsize
  have hstore : store < vec2.size := by omega
  have hget := getElem?_swap vec2 store high
  refine ⟨vec2.swapIfInBounds store high, store, pivot, ?_, hs.swap (by omega) (by omega),
    by omega, ?_, ?_, ?_⟩
  · simp only [hloop]
  · rw [hget store hstore hsize2, if_pos rfl]
    exact hpivot2
  · intro k x h1 h2 hx
    rw [hget k hstore hsize2, if_neg (by omega), if_neg (by omega)] at hx
    exact hfirst k x h1 h2 hx
  · intro k x h1 h2 hx
    rw [hget k hstore hsize2, if_neg (by omega)] at hx
    split_ifs at hx with e1
    · exact hrest store x (Nat.le_refl _) (by omega) hx
    · exact hrest k x (by omega) (by omega) hx

/-! ## The sort -/

/-- A strict order, as far as the sort needs one. -/
structure StrictOrder (comp : α → α → Bool) : Prop where
  irrefl : ∀ x, comp x x = false
  trans : ∀ x y z, comp x y = true → comp y z = true → comp x z = true

theorem StrictOrder.asymm (h : StrictOrder comp) {x y : α} (hxy : comp x y = true) :
    comp y x = false := by
  cases hyx : comp y x with
  | false => rfl
  | true =>
    have hxx := h.trans x y x hxy hyx
    rw [h.irrefl] at hxx
    cases hxx

/-- What a recursive call, or none on an empty part, does to the entries from `low` on and
before `stop`. -/
structure PartSorted (comp : α → α → Bool) (low stop : Nat) (vec out : Array α) : Prop where
  size : out.size = vec.size
  swaps : ∀ l h, l ≤ low → stop ≤ h + 1 → Swaps l h vec out
  outside : ∀ k, k < low ∨ stop ≤ k → out[k]? = vec[k]?
  inside : ∀ holds : α → Prop, (∀ k x, low ≤ k → k < stop → vec[k]? = some x → holds x) →
    ∀ k x, low ≤ k → k < stop → out[k]? = some x → holds x
  sorted : ∀ i j x y, low ≤ i → i < j → j < stop → out[i]? = some x → out[j]? = some y →
    comp y x = false

theorem PartSorted.empty (h : high < low + 1) : PartSorted comp low high vec vec where
  size := rfl
  swaps _ _ _ _ := Swaps.refl
  outside _ _ := rfl
  inside _ hall := hall
  sorted i j x y h1 h2 h3 := by omega

theorem PartSorted.of_swaps {out : Array α} (hs : Swaps low high vec out)
    (hsorted : SortedIn low high (fun x y => comp y x = false) out) :
    PartSorted comp low (high + 1) vec out where
  size := hs.size
  swaps l h hl hh := hs.mono hl (by omega)
  outside k hk := hs.outside k (by omega)
  inside holds hall k x h1 h2 hx :=
    hs.inside holds (fun k x h1 h2 => hall k x h1 (by omega)) k x h1 (by omega) hx
  sorted i j x y h1 h2 h3 := hsorted i j x y h1 h2 (by omega)

/-- A pivot between two parts that are sorted. -/
theorem sortedIn_of_parts (horder : StrictOrder comp) {vec2 vec3 : Array α} {p : Nat}
    (hpivot : vec[p]? = some pivot)
    (hfirst : ∀ k x, low ≤ k → k < p → vec[k]? = some x → comp x pivot = true)
    (hrest : ∀ k x, p < k → k ≤ high → vec[k]? = some x → comp x pivot = false)
    (h2 : PartSorted comp low p vec vec2) (h3 : PartSorted comp (p + 1) (high + 1) vec2 vec3) :
    SortedIn low high (fun x y => comp y x = false) vec3 := by
  have hfirst3 : ∀ k x, low ≤ k → k < p → vec3[k]? = some x → comp x pivot = true := by
    intro k x h1 hk hx
    rw [h3.outside k (by omega)] at hx
    exact h2.inside _ hfirst k x h1 hk hx
  have hpivot3 : ∀ k x, p ≤ k → k ≤ p → vec3[k]? = some x → x = pivot := by
    intro k x h1 hk hx
    have hkp : k = p := Nat.le_antisymm hk h1
    rw [hkp, h3.outside p (by omega), h2.outside p (by omega), hpivot] at hx
    exact (Option.some.inj hx).symm
  have hrest3 : ∀ k x, p + 1 ≤ k → k ≤ high → vec3[k]? = some x → comp x pivot = false := by
    have hrest2 : ∀ k x, p + 1 ≤ k → k < high + 1 → vec2[k]? = some x → comp x pivot = false := by
      intro k x h1 hk hx
      rw [h2.outside k (by omega)] at hx
      exact hrest k x h1 (by omega) hx
    intro k x h1 hk hx
    exact h3.inside _ hrest2 k x h1 (by omega) hx
  apply SortedIn.three (fun x y => comp y x = false) p p (fun x => comp x pivot = true)
    (fun x => x = pivot) (fun x => comp x pivot = false)
  · intro i j x y h1 hij hj hx hy
    rw [h3.outside i (by omega)] at hx
    rw [h3.outside j (by omega)] at hy
    exact h2.sorted i j x y h1 hij hj hx hy
  · intro i j x y h1 hij hj
    omega
  · exact fun i j x y h1 hij hj => h3.sorted i j x y h1 hij (by omega)
  · exact hfirst3
  · exact hpivot3
  · exact hrest3
  · intro x y hx hy
    rw [hy]
    exact horder.asymm hx
  · intro x y hx hy
    cases hyx : comp y x with
    | false => rfl
    | true =>
      have hyp := horder.trans y x pivot hyx hx
      rw [hy] at hyp
      cases hyp
  · intro x y hx hy
    rw [hx]
    exact hy

theorem quickSort_spec (horder : StrictOrder comp) (fuel : Nat) (hsize : high < vec.size)
    (hfuel : high - low < fuel) :
    Swaps low high vec (quickSort comp fuel vec low high) ∧
      SortedIn low high (fun x y => comp y x = false) (quickSort comp fuel vec low high) := by
  induction fuel generalizing low high vec with
  | zero => omega
  | succ fuel ih =>
    unfold quickSort
    by_cases hle : low ≥ high
    · rw [if_pos hle]
      refine ⟨Swaps.refl, ?_⟩
      intro i j x y h1 h2 h3
      omega
    rw [if_neg hle]
    obtain ⟨vec1, p, pivot, hpart, hs1, hbounds, hpivot, hfirst, hrest⟩ :=
      partition_spec comp (Nat.lt_of_not_le hle) hsize
    simp only [hpart]
    have hsize1 : high < vec1.size := by rw [hs1.size]; exact hsize
    have hleft : PartSorted comp low p vec1
        (if p > low then quickSort comp fuel vec1 low (p - 1) else vec1) := by
      split
      · obtain ⟨hs, hsorted⟩ := @ih low (p - 1) vec1 (by omega) (by omega)
        have hp : p - 1 + 1 = p := by omega
        rw [← hp]
        exact .of_swaps hs hsorted
      · exact .empty (by omega)
    generalize (if p > low then quickSort comp fuel vec1 low (p - 1) else vec1) = vec2 at hleft ⊢
    have hright : PartSorted comp (p + 1) (high + 1) vec2
        (if p < high then quickSort comp fuel vec2 (p + 1) high else vec2) := by
      split
      · have hsize2 : high < vec2.size := by rw [hleft.size]; exact hsize1
        obtain ⟨hs, hsorted⟩ := @ih (p + 1) high vec2 hsize2 (by omega)
        exact .of_swaps hs hsorted
      · exact .empty (by omega)
    exact ⟨(hs1.trans (hleft.swaps _ _ (Nat.le_refl _) (by omega))).trans
        (hright.swaps _ _ (by omega) (Nat.le_refl _)),
      sortedIn_of_parts horder hpivot hfirst hrest hleft hright⟩

theorem sort_perm (horder : StrictOrder comp) (vec : Array α) : (sort comp vec).Perm vec := by
  unfold sort
  split
  · exact Array.Perm.refl _
  · exact (quickSort_spec horder _ (by omega) (by omega)).1.perm

/-- No entry comes after one that it should come before. -/
theorem sort_sorted (horder : StrictOrder comp) (vec : Array α) :
    (sort comp vec).toList.Pairwise fun x y => comp y x = false := by
  rw [List.pairwise_iff_getElem]
  intro i j hi hj hij
  rw [Array.length_toList] at hi hj
  have hsize : (sort comp vec).size = vec.size := (sort_perm horder vec).size_eq
  have hsorted : SortedIn 0 (vec.size - 1) (fun x y => comp y x = false) (sort comp vec) := by
    unfold sort
    rw [if_neg (by omega)]
    exact (quickSort_spec horder _ (by omega) (by omega)).2
  refine hsorted i j _ _ (Nat.zero_le _) hij (by omega) ?_ ?_
  · rw [Array.getElem_toList, Array.getElem?_eq_getElem hi]
  · rw [Array.getElem_toList, Array.getElem?_eq_getElem hj]

end seamus.quick_sort
