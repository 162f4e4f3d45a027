-- Sorting in place: an array that changes only by swaps of entries inside a
-- segment keeps its entries, and keeps everything outside of the segment.
import Mathlib.Data.Nat.Basic
import Mathlib.Tactic.Cases

namespace segment_swaps

variable {α : Type}

/-- `b` is `a` after swaps of entries whose indices are between `l` and `h`. -/
inductive Swaps (l h : Nat) (a : Array α) : Array α → Prop
  | refl : Swaps l h a a
  | swap {b : Array α} {i j : Nat} (hb : Swaps l h a b) (hi : l ≤ i ∧ i ≤ h)
      (hj : l ≤ j ∧ j ≤ h) : Swaps l h a (b.swapIfInBounds i j)

/-- Every entry of the segment has the property. -/
def ForallIn (l h : Nat) (P : α → Prop) (a : Array α) : Prop :=
  ∀ k x, l ≤ k → k ≤ h → a[k]? = some x → P x

/-- Every two entries of the segment are related, in the order of their indices. -/
def SortedIn (l h : Nat) (R : α → α → Prop) (a : Array α) : Prop :=
  ∀ i j x y, l ≤ i → i < j → j ≤ h → a[i]? = some x → a[j]? = some y → R x y

variable {l h l' h' : Nat} {a b c : Array α}

theorem getElem?_swap (a : Array α) (i j k : Nat) (hi : i < a.size) (hj : j < a.size) :
    (a.swapIfInBounds i j)[k]? = if k = i then a[j]? else if k = j then a[i]? else a[k]? := by
  rw [Array.swapIfInBounds_def]
  simp only [hi, hj, dif_pos, Array.getElem?_swap, Array.getElem?_eq_getElem]
  by_cases hjk : j = k
  · subst hjk
    by_cases hij : j = i
    · subst hij
      simp only [if_true]
    · rw [if_pos rfl, if_neg hij, if_pos rfl]
  · rw [if_neg hjk, if_neg (Ne.symm hjk)]
    exact if_congr eq_comm rfl rfl

theorem swap_out (a : Array α) (i j : Nat) (h : ¬ (i < a.size ∧ j < a.size)) :
    a.swapIfInBounds i j = a := by
  rw [Array.swapIfInBounds_def]
  split
  · split
    · exact absurd ⟨‹_›, ‹_›⟩ h
    · rfl
  · rfl

theorem Swaps.size (hs : Swaps l h a b) : b.size = a.size := by
  induction hs with
  | refl => rfl
  | swap _ _ _ ih => simpa using ih

theorem Swaps.perm (hs : Swaps l h a b) : b.Perm a := by
  induction hs with
  | refl => exact Array.Perm.refl _
  | @swap b i j _ _ _ ih =>
    by_cases hin : i < b.size ∧ j < b.size
    · rw [Array.swapIfInBounds_def, dif_pos hin.1, dif_pos hin.2]
      exact (Array.swap_perm hin.1 hin.2).trans ih
    · rwa [swap_out b i j hin]

theorem Swaps.trans (hab : Swaps l h a b) (hbc : Swaps l h b c) : Swaps l h a c := by
  induction hbc with
  | refl => exact hab
  | swap _ hi hj ih => exact ih.swap hi hj

theorem Swaps.mono (hs : Swaps l h a b) (hl : l' ≤ l) (hh : h ≤ h') : Swaps l' h' a b := by
  induction hs with
  | refl => exact Swaps.refl
  | swap _ hi hj ih => exact ih.swap (by omega) (by omega)

/-- The frame: nothing moves outside of the segment. -/
theorem Swaps.outside (hs : Swaps l h a b) (k : Nat) (hk : k < l ∨ h < k) : b[k]? = a[k]? := by
  induction hs with
  | refl => rfl
  | @swap b i j _ hi hj ih =>
    by_cases hin : i < b.size ∧ j < b.size
    · have hki : k ≠ i := by omega
      have hkj : k ≠ j := by omega
      rw [getElem?_swap b i j k hin.1 hin.2, if_neg hki, if_neg hkj, ih]
    · rw [swap_out b i j hin, ih]

/-- Every entry of the segment stays in the segment. -/
theorem Swaps.inside (hs : Swaps l h a b) (P : α → Prop) (hP : ForallIn l h P a) :
    ForallIn l h P b := by
  induction hs with
  | refl => exact hP
  | @swap b i j _ hi hj ih =>
    intro k x hlk hkh hx
    by_cases hin : i < b.size ∧ j < b.size
    · rw [getElem?_swap b i j k hin.1 hin.2] at hx
      split_ifs at hx
      · exact ih j x hj.1 hj.2 hx
      · exact ih i x hi.1 hi.2 hx
      · exact ih k x hlk hkh hx
    · rw [swap_out b i j hin] at hx
      exact ih k x hlk hkh hx

theorem ForallIn.mono {P : α → Prop} (hP : ForallIn l h P a) (hl : l ≤ l') (hh : h' ≤ h) :
    ForallIn l' h' P a :=
  fun k x hlk hkh hx => hP k x (by omega) (by omega) hx

/-- Swaps in one segment do not touch what holds in a segment apart from it. -/
theorem Swaps.apart {P : α → Prop} (hs : Swaps l h a b) (hP : ForallIn l' h' P a)
    (hd : h < l' ∨ h' < l) : ForallIn l' h' P b := by
  intro k x hlk hkh hx
  rw [hs.outside k (by omega)] at hx
  exact hP k x hlk hkh hx

theorem Swaps.sortedIn_apart {R : α → α → Prop} (hs : Swaps l h a b) (hR : SortedIn l' h' R a)
    (hd : h < l' ∨ h' < l) : SortedIn l' h' R b := by
  intro i j x y hli hij hjh hx hy
  rw [hs.outside i (by omega)] at hx
  rw [hs.outside j (by omega)] at hy
  exact hR i j x y hli hij hjh hx hy

/-- Three neighbouring segments, each sorted, with everything in an earlier one
before everything in a later one. -/
theorem SortedIn.three (R : α → α → Prop) (lt gt : Nat) (P Q S : α → Prop)
    (h1 : ∀ i j x y, l ≤ i → i < j → j < lt → a[i]? = some x → a[j]? = some y → R x y)
    (h2 : SortedIn lt gt R a) (h3 : SortedIn (gt + 1) h R a)
    (p1 : ∀ k x, l ≤ k → k < lt → a[k]? = some x → P x) (p2 : ForallIn lt gt Q a)
    (p3 : ForallIn (gt + 1) h S a) (hPQ : ∀ x y, P x → Q y → R x y)
    (hPS : ∀ x y, P x → S y → R x y) (hQS : ∀ x y, Q x → S y → R x y) : SortedIn l h R a := by
  intro i j x y hli hij hjh hx hy
  by_cases hi1 : i < lt
  · by_cases hj1 : j < lt
    · exact h1 i j x y hli hij hj1 hx hy
    · by_cases hj2 : j ≤ gt
      · exact hPQ x y (p1 i x hli hi1 hx) (p2 j y (by omega) hj2 hy)
      · exact hPS x y (p1 i x hli hi1 hx) (p3 j y (by omega) hjh hy)
  · by_cases hi2 : i ≤ gt
    · by_cases hj2 : j ≤ gt
      · exact h2 i j x y (by omega) hij hj2 hx hy
      · exact hQS x y (p2 i x (by omega) hi2 hx) (p3 j y (by omega) hjh hy)
    · exact h3 i j x y (by omega) hij hjh hx hy

end segment_swaps
