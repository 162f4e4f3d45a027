-- A binary search that asks a three-way comparison about the entry at an
-- index. On entries in order it finds the one that compares equal; and a
-- search that finds every entry has its entries in order.
import Mathlib.Data.Nat.Basic
import Mathlib.Order.Defs.LinearOrder

namespace binary_search

/-- The search of `[lo, hi)`. `cmp` compares the entry at an index with the target. -/
def search (cmp : Nat → Ordering) : Nat → Nat → Nat → Option Nat
  | 0, _, _ => none
  | fuel + 1, lo, hi =>
    if lo < hi then
      let mid := lo + (hi - lo) / 2
      match cmp mid with
      | .eq => some mid
      | .lt => search cmp fuel (mid + 1) hi
      | .gt => search cmp fuel lo mid
    else none

/-- Only the comparisons inside of the interval count. -/
theorem search_congr (cmp cmp' : Nat → Ordering) (fuel lo hi : Nat)
    (h : ∀ i, lo ≤ i → i < hi → cmp i = cmp' i) :
    search cmp fuel lo hi = search cmp' fuel lo hi := by
  induction fuel generalizing lo hi with
  | zero => rfl
  | succ fuel ih =>
    simp only [search]
    by_cases hlt : lo < hi
    · simp only [hlt, if_true]
      rw [h (lo + (hi - lo) / 2) (by omega) (by omega), ih (lo + (hi - lo) / 2 + 1) hi
        (fun i h1 h2 => h i (by omega) h2), ih lo (lo + (hi - lo) / 2)
        (fun i h1 h2 => h i h1 (by omega))]
    · simp only [hlt, if_false]

/-- A search never gives an entry that does not compare equal. -/
theorem search_sound (cmp : Nat → Ordering) (fuel lo hi i : Nat)
    (h : search cmp fuel lo hi = some i) : lo ≤ i ∧ i < hi ∧ cmp i = .eq := by
  induction fuel generalizing lo hi with
  | zero => simp [search] at h
  | succ fuel ih =>
    simp only [search] at h
    split at h
    · cases hc : cmp (lo + (hi - lo) / 2) with
      | eq =>
        simp only [hc, Option.some.injEq] at h
        subst h
        exact ⟨by omega, by omega, hc⟩
      | lt =>
        simp only [hc] at h
        obtain ⟨h1, h2, h3⟩ := ih _ _ h
        exact ⟨by omega, h2, h3⟩
      | gt =>
        simp only [hc] at h
        obtain ⟨h1, h2, h3⟩ := ih _ _ h
        exact ⟨h1, by omega, h3⟩
    · simp at h

/-- The entry that compares equal is found when the entries before it are
smaller and the entries after it are larger. -/
theorem search_finds (cmp : Nat → Ordering) (fuel lo hi k : Nat) (hfuel : hi - lo < fuel)
    (hlo : lo ≤ k) (hhi : k < hi) (below : ∀ i, lo ≤ i → i < k → cmp i = .lt)
    (hit : cmp k = .eq) (above : ∀ i, k < i → i < hi → cmp i = .gt) :
    search cmp fuel lo hi = some k := by
  induction fuel generalizing lo hi with
  | zero => omega
  | succ fuel ih =>
    have hlt : lo < hi := by omega
    simp only [search, hlt, if_true]
    rcases Nat.lt_trichotomy (lo + (hi - lo) / 2) k with h | h | h
    · rw [below _ (by omega) h]
      exact ih _ _ (by omega) (by omega) hhi (fun i hi' => below i (by omega)) above
    · rw [h, hit]
    · rw [above _ h (by omega)]
      exact ih _ _ (by omega) hlo h below (fun i hki hi' => above i hki (by omega))

/-- The converse over a whole array: entries that are all found are in order. -/
theorem increasing_of_search {α : Type} (cmp : α → α → Ordering) [Std.TransCmp cmp]
    (xs : Nat → α) (fuel lo hi : Nat)
    (found : ∀ k, lo ≤ k → k < hi → search (fun i => cmp (xs i) (xs k)) fuel lo hi = some k) :
    ∀ i j, lo ≤ i → i < j → j < hi → cmp (xs i) (xs j) = .lt := by
  induction fuel generalizing lo hi with
  | zero =>
    intro i j hlo hij hhi
    have := found i hlo (by omega)
    simp [search] at this
  | succ fuel ih =>
    intro i j hlo hij hhi
    have hlt : lo < hi := by omega
    -- the middle entry must send every smaller index to the left, every larger one to the right
    have left : ∀ k, lo ≤ k → k < lo + (hi - lo) / 2 →
        cmp (xs k) (xs (lo + (hi - lo) / 2)) = .lt ∧
          search (fun i => cmp (xs i) (xs k)) fuel lo (lo + (hi - lo) / 2) = some k := by
      intro k hk hkm
      have hf := found k hk (by omega)
      simp only [search, hlt, if_true] at hf
      cases hc : cmp (xs (lo + (hi - lo) / 2)) (xs k) with
      | eq => simp only [hc, Option.some.injEq] at hf; omega
      | lt =>
        simp only [hc] at hf
        have := search_sound _ _ _ _ _ hf
        omega
      | gt =>
        simp only [hc] at hf
        exact ⟨Std.OrientedCmp.gt_iff_lt.1 hc, hf⟩
    have right : ∀ k, lo + (hi - lo) / 2 < k → k < hi →
        cmp (xs (lo + (hi - lo) / 2)) (xs k) = .lt ∧
          search (fun i => cmp (xs i) (xs k)) fuel (lo + (hi - lo) / 2 + 1) hi = some k := by
      intro k hkm hk
      have hf := found k (by omega) hk
      simp only [search, hlt, if_true] at hf
      cases hc : cmp (xs (lo + (hi - lo) / 2)) (xs k) with
      | eq => simp only [hc, Option.some.injEq] at hf; omega
      | lt =>
        simp only [hc] at hf
        exact ⟨rfl, hf⟩
      | gt =>
        simp only [hc] at hf
        have := search_sound _ _ _ _ _ hf
        omega
    rcases Nat.lt_trichotomy i (lo + (hi - lo) / 2) with him | him | him
    · rcases Nat.lt_trichotomy j (lo + (hi - lo) / 2) with hjm | hjm | hjm
      · exact ih lo _ (fun k hk hkm => (left k hk hkm).2) i j hlo hij hjm
      · rw [hjm]
        exact (left i hlo him).1
      · exact Std.TransCmp.lt_trans (left i hlo him).1 (right j hjm hhi).1
    · rw [him]
      exact (right j (by omega) hhi).1
    · exact ih _ hi (fun k hk hkm => (right k (by omega) hkm).2) i j (by omega) hij hhi

end binary_search
