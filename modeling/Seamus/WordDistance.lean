-- The scan of `word_pos_score` over the positions of two words in a doc: a pointer into the
-- second list that never goes back finds the nearest position for each of the first, as long as the
-- `int` that its `abs` takes has room for the differences.
import Mathlib.Data.List.GetD
import Mathlib.Data.Nat.Dist
import Mathlib.Order.Bounds.Basic
import Seamus.Basic

namespace seamus.word_distance

/-! ## The source functions -/

/-- A number that a `size_t` has room for. -/
def IsSize (n : Nat) : Prop := n < 2 ^ 64

/-- A `size_t` as a `long`. -/
def toLong (n : Nat) : Int := (n : Int).bmod (2 ^ 64)

/-- The difference of two `long`s, undefined where it overflows. -/
def subLong (x y : Int) : Option Int :=
  if -2 ^ 63 ≤ x - y ∧ x - y < 2 ^ 63 then some (x - y) else none

/-- `int abs(int)`, the only one that `<cmath>` declares outside of `std`. Of the least `int` it is
undefined. -/
def abs (x : Int) : Option Nat := if x = -2 ^ 31 then none else some x.natAbs

/-- `abs((long)p - (long)q)`. The `long` becomes an `int` on the way. -/
def distance (p q : Nat) : Option Nat := do
  let difference ← subLong (toLong p) (toLong q)
  abs (toInt32 difference)

/-- The inner loop: where the pointer into `posB` stops. -/
def advance (posB : List Nat) (p : Nat) : Nat → Nat → Option Nat
  | 0, b => some b
  | turns + 1, b =>
    if b + 1 < posB.length then do
      let currentDist ← distance p (posB.getD b 0)
      let nextDist ← distance p (posB.getD (b + 1) 0)
      if nextDist ≤ currentDist then advance posB p turns (b + 1) else some b
    else some b

/-- The outer loop: the best distance of each position of `posA`, from where the pointer is. -/
def scan (posB : List Nat) : Nat → List Nat → Option (List Nat)
  | _, [] => some []
  | b, p :: posA => do
    let b ← advance posB p posB.length b
    let bestDist ← distance p (posB.getD b 0)
    let rest ← scan posB b posA
    return bestDist :: rest

def bestDistances (posA posB : List Nat) : Option (List Nat) := scan posB 0 posA

/-! ## Where a distance is right -/

/-- What the scan is for: the distance to the nearest position of the second word. -/
def FindsNearest (posA posB : List Nat) : Prop :=
  ∃ ds, bestDistances posA posB = some ds ∧
    List.Forall₂ (fun p d => IsLeast {d | ∃ q ∈ posB, d = Nat.dist p q} d) posA ds

/-- The difference is one of `long`s, and an `int` has room for it. -/
def Fits (p q : Nat) : Prop := Nat.dist p q < 2 ^ 31 ∧ (p < 2 ^ 63 ↔ q < 2 ^ 63)

/-- The place after the `j`-th is as near to `p`. -/
def Leaves (posB : List Nat) (p j : Nat) : Prop :=
  j + 1 < posB.length ∧ posB.getD j 0 + posB.getD (j + 1) 0 ≤ 2 * p

/-- The scan compares `p` with the `j`-th place: no position before `p` has left it behind, and
those before the place that comes before it are left behind by `p`. -/
def Compared (posA posB : List Nat) (p j : Nat) : Prop :=
  (∀ p' ∈ posA, p' < p → ¬Leaves posB p' j) ∧ ∀ i, i + 1 < j → Leaves posB p i

theorem toLong_of_size {n : Nat} (h : IsSize n) :
    toLong n = if n < 2 ^ 63 then (n : Int) else n - 2 ^ 64 := by
  unfold IsSize at h
  unfold toLong
  split_ifs with hlow
  · exact Int.bmod_eq_of_le (by omega) (by omega)
  · have hwrap : (n : Int) = (n - 2 ^ 64) + 1 * ((2 ^ 64 : Nat) : Int) := by omega
    conv_lhs => rw [hwrap, Int.add_mul_bmod_self_right]
    exact Int.bmod_eq_of_le (by omega) (by omega)

theorem subLong_of_fits {p q : Nat} (hp : IsSize p) (hq : IsSize q) (h : Fits p q) :
    subLong (toLong p) (toLong q) = some ((p : Int) - q) := by
  obtain ⟨hnear, hside⟩ := h
  unfold Nat.dist at hnear
  have hsame : toLong p - toLong q = p - q := by
    rw [toLong_of_size hp, toLong_of_size hq]
    split_ifs <;> omega
  unfold IsSize at hp hq
  rw [subLong, hsame, if_pos (by omega)]

/-- Where the difference fits, the distance is right. -/
theorem distance_of_fits {p q : Nat} (hp : IsSize p) (hq : IsSize q) (h : Fits p q) :
    distance p q = some (Nat.dist p q) := by
  have hnear := h.1
  unfold Nat.dist at hnear ⊢
  have hint : toInt32 ((p : Int) - q) = p - q := by
    rw [toInt32]
    exact Int.bmod_eq_of_le (by omega) (by omega)
  rw [distance, subLong_of_fits hp hq h]
  change abs (toInt32 _) = _
  rw [hint, abs, if_neg (by omega)]
  congr 1
  omega

theorem abs_lt {x : Int} {d : Nat} (h : abs (toInt32 x) = some d) : d < 2 ^ 31 := by
  have hlow := Int.le_bmod (x := x) (Nat.two_pow_pos 32)
  have hhigh := Int.bmod_lt (x := x) (Nat.two_pow_pos 32)
  unfold abs toInt32 at h
  split_ifs at h
  cases h
  omega

theorem distance_lt {p q d : Nat} (h : distance p q = some d) : d < 2 ^ 31 := by
  unfold distance at h
  simp only [Option.bind_eq_bind, Option.bind_eq_some_iff] at h
  obtain ⟨_, _, habs⟩ := h
  exact abs_lt habs

/-! ## The pointer -/

theorem scan_cons {posB posA ds : List Nat} {b p stop d : Nat}
    (hstop : advance posB p posB.length b = some stop)
    (hd : distance p (posB.getD stop 0) = some d) (hds : scan posB stop posA = some ds) :
    scan posB b (p :: posA) = some (d :: ds) := by
  exact Option.bind_eq_some_iff.mpr ⟨stop, hstop, Option.bind_eq_some_iff.mpr ⟨d, hd,
    Option.bind_eq_some_iff.mpr ⟨ds, hds, rfl⟩⟩⟩

/-- A position leaves behind what those before it do. -/
theorem Leaves.mono {posB : List Nat} {p p' j : Nat} (h : Leaves posB p j) (hp : p ≤ p') :
    Leaves posB p' j := ⟨h.1, h.2.trans (Nat.mul_le_mul_left 2 hp)⟩

/-- No place before the pointer is nearer to a position. -/
def Passed (posB : List Nat) (p b : Nat) : Prop := b < posB.length ∧ ∀ j < b, Leaves posB p j

section Pointer

variable {posB : List Nat} (hsorted : posB.Pairwise (· < ·))
include hsorted

theorem getD_lt {i j : Nat} (hij : i < j) (hj : j < posB.length) :
    posB.getD i 0 < posB.getD j 0 := by
  rw [List.getD_eq_getElem _ _ (hij.trans hj), List.getD_eq_getElem _ _ hj]
  exact List.pairwise_iff_getElem.mp hsorted i j _ hj hij

/-- A place that is not left behind holds back the places after it. -/
theorem not_leaves_after {p i j : Nat} (h : ¬Leaves posB p i) (hij : i ≤ j) : ¬Leaves posB p j := by
  rintro ⟨hj, hnear⟩
  rcases Nat.eq_or_lt_of_le hij with rfl | hlt
  · exact h ⟨hj, hnear⟩
  · refine h ⟨by omega, ?_⟩
    have hplace := getD_lt hsorted hlt (by omega)
    have hnext := getD_lt hsorted (show i + 1 < j + 1 by omega) hj
    omega

/-- Where the loop stops, the distance is the least. -/
theorem Passed.least {p b : Nat} (h : Passed posB p b) (hstop : ¬Leaves posB p b) :
    IsLeast {d | ∃ q ∈ posB, d = Nat.dist p q} (Nat.dist p (posB.getD b 0)) := by
  obtain ⟨hb, hbefore⟩ := h
  refine ⟨⟨_, ?_, rfl⟩, ?_⟩
  · rw [List.getD_eq_getElem _ _ hb]
    exact List.getElem_mem hb
  · rintro d ⟨q, hq, rfl⟩
    obtain ⟨j, hj, rfl⟩ := List.getElem_of_mem hq
    rw [← List.getD_eq_getElem posB 0 hj]
    unfold Nat.dist
    rcases Nat.lt_trichotomy j b with hjb | rfl | hjb
    · -- the place before the pointer is left behind, and the `j`-th is not after it
      have hlast := (hbefore (b - 1) (by omega)).2
      rw [Nat.sub_add_cancel (by omega)] at hlast
      have hplace := getD_lt hsorted hjb hb
      rcases Nat.eq_or_lt_of_le (show j ≤ b - 1 by omega) with rfl | hji
      · omega
      · have hearlier := getD_lt hsorted hji (by omega)
        omega
    · exact Nat.le_refl _
    · have hfar : 2 * p < posB.getD b 0 + posB.getD (b + 1) 0 :=
        Nat.lt_of_not_le fun hnear => hstop ⟨by omega, hnear⟩
      have hplace := getD_lt hsorted hjb hj
      rcases Nat.eq_or_lt_of_le (show b + 1 ≤ j from hjb) with rfl | hlater
      · omega
      · have hnext := getD_lt hsorted hlater hj
        omega

/-- The loop goes on from a place exactly when the next is as near. -/
theorem advance_spec (hB : ∀ q ∈ posB, IsSize q) {p b : Nat} (hp : IsSize p) (turns : Nat)
    (hturns : posB.length ≤ b + turns)
    (hfits : ∀ j, b ≤ j → j < posB.length → (∀ i, i + 1 < j → Leaves posB p i) →
      Fits p (posB.getD j 0))
    (h : Passed posB p b) :
    ∃ stop, advance posB p turns b = some stop ∧ b ≤ stop ∧ Passed posB p stop ∧
      ¬Leaves posB p stop := by
  induction turns generalizing b with
  | zero =>
    have hb := h.1
    omega
  | succ turns ih =>
    obtain ⟨hb, hbefore⟩ := h
    rw [advance]
    by_cases hmore : b + 1 < posB.length
    · have hplace : ∀ j, j < posB.length → IsSize (posB.getD j 0) := by
        intro j hj
        rw [List.getD_eq_getElem _ _ hj]
        exact hB _ (List.getElem_mem hj)
      have hcurrent := distance_of_fits hp (hplace b hb)
        (hfits b (Nat.le_refl b) hb fun i hi => hbefore i (by omega))
      have hnext := distance_of_fits hp (hplace (b + 1) hmore)
        (hfits (b + 1) (Nat.le_succ b) hmore fun i hi => hbefore i (by omega))
      have hlt := getD_lt hsorted (show b < b + 1 by omega) hmore
      rw [if_pos hmore, hcurrent, hnext]
      simp only [Option.bind_eq_bind, Option.bind_some]
      by_cases hnear : posB.getD b 0 + posB.getD (b + 1) 0 ≤ 2 * p
      · rw [if_pos (by unfold Nat.dist; omega)]
        have hleft : ∀ j < b + 1, Leaves posB p j := by
          intro j hj
          rcases Nat.lt_succ_iff_lt_or_eq.mp hj with hj | rfl
          · exact hbefore j hj
          · exact ⟨hmore, hnear⟩
        obtain ⟨stop, hstop, hle, hrest⟩ :=
          ih (by omega) (fun j hj => hfits j (by omega)) ⟨hmore, hleft⟩
        exact ⟨stop, hstop, by omega, hrest⟩
      · rw [if_neg (by unfold Nat.dist; omega)]
        exact ⟨b, rfl, Nat.le_refl b, ⟨hb, hbefore⟩, fun hleaves => hnear hleaves.2⟩
    · rw [if_neg hmore]
      exact ⟨b, rfl, Nat.le_refl b, ⟨hb, hbefore⟩, fun hleaves => hmore hleaves.1⟩

/-- Where the loop stops, the distance of the code is that to the nearest place. -/
theorem advance_nearest (hB : ∀ q ∈ posB, IsSize q) {p b : Nat} (hp : IsSize p)
    (hfits : ∀ j, b ≤ j → j < posB.length → (∀ i, i + 1 < j → Leaves posB p i) →
      Fits p (posB.getD j 0))
    (h : Passed posB p b) :
    ∃ stop d, advance posB p posB.length b = some stop ∧ distance p (posB.getD stop 0) = some d ∧
      IsLeast {d | ∃ q ∈ posB, d = Nat.dist p q} d ∧ b ≤ stop ∧ Passed posB p stop ∧
        ¬Leaves posB p stop := by
  obtain ⟨stop, hstop, hle, hpassed, hstays⟩ :=
    advance_spec hsorted hB hp posB.length (Nat.le_add_left _ _) hfits h
  have hplace : IsSize (posB.getD stop 0) := by
    rw [List.getD_eq_getElem _ _ hpassed.1]
    exact hB _ (List.getElem_mem _)
  have hown := hfits stop hle hpassed.1 fun i hi => hpassed.2 i (by omega)
  exact ⟨stop, _, hstop, distance_of_fits hp hplace hown, hpassed.least hsorted hstays, hle,
    hpassed, hstays⟩

/-- The outer loop, behind the positions that it has seen. -/
theorem scan_nearest (hB : ∀ q ∈ posB, IsSize q) {posA seen : List Nat}
    (hA : (seen ++ posA).Pairwise (· < ·)) (hbound : ∀ p ∈ posA, IsSize p) {b : Nat}
    (hfits : ∀ p ∈ posA, ∀ j < posB.length, Compared (seen ++ posA) posB p j →
      Fits p (posB.getD j 0))
    (hseen : ∀ p' ∈ seen, ¬Leaves posB p' b) (h : ∀ p ∈ posA, Passed posB p b) :
    ∃ ds, scan posB b posA = some ds ∧
      List.Forall₂ (fun p d => IsLeast {d | ∃ q ∈ posB, d = Nat.dist p q} d) posA ds := by
  induction posA generalizing seen b with
  | nil => exact ⟨[], rfl, .nil⟩
  | cons p posA ih =>
    obtain ⟨hp, hposA⟩ := List.forall_mem_cons.mp h
    obtain ⟨hsize, hsizes⟩ := List.forall_mem_cons.mp hbound
    obtain ⟨_, hlater, _⟩ := List.pairwise_append.mp hA
    have hown : ∀ j, b ≤ j → j < posB.length → (∀ i, i + 1 < j → Leaves posB p i) →
        Fits p (posB.getD j 0) := by
      intro j hj hlt hleft
      refine hfits p List.mem_cons_self j hlt ⟨fun p' hp' hearlier => ?_, hleft⟩
      rcases List.mem_append.mp hp' with hp' | hp'
      · exact not_leaves_after hsorted (hseen p' hp') hj
      · -- the positions from `p` on are not before it
        rcases List.mem_cons.mp hp' with rfl | hp'
        · exact absurd hearlier (Nat.lt_irrefl _)
        · exact absurd hearlier (Nat.lt_asymm (List.rel_of_pairwise_cons hlater hp'))
    obtain ⟨stop, d, hstop, hd, hleast, hle, hpassed, hstays⟩ :=
      advance_nearest hsorted hB hsize hown hp
    have hconcat : seen ++ [p] ++ posA = seen ++ p :: posA := List.append_cons seen p posA ▸ rfl
    have hseen' : ∀ p' ∈ seen ++ [p], ¬Leaves posB p' stop := by
      intro p' hp'
      rcases List.mem_append.mp hp' with hp' | hp'
      · exact not_leaves_after hsorted (hseen p' hp') hle
      · rw [List.mem_singleton.mp hp']
        exact hstays
    have hpassed' : ∀ q ∈ posA, Passed posB q stop := fun q hq =>
      ⟨hpassed.1, fun j hj =>
        (hpassed.2 j hj).mono (Nat.le_of_lt (List.rel_of_pairwise_cons hlater hq))⟩
    rw [← hconcat] at hA hfits
    obtain ⟨ds, hds, hrest⟩ :=
      ih hA hsizes (fun q hq => hfits q (List.mem_cons_of_mem p hq)) hseen' hpassed'
    exact ⟨d :: ds, scan_cons hstop hd hds, .cons hleast hrest⟩

end Pointer

/-! ## The bound -/

/-- An `int` has room for all that the scan gives. -/
theorem scan_lt {posB posA ds : List Nat} {b : Nat} (h : scan posB b posA = some ds) :
    ∀ d ∈ ds, d < 2 ^ 31 := by
  induction posA generalizing b ds with
  | nil =>
    cases h
    exact fun _ hd => absurd hd List.not_mem_nil
  | cons p posA ih =>
    obtain ⟨stop, _, h⟩ := Option.bind_eq_some_iff.mp h
    obtain ⟨d, hd, h⟩ := Option.bind_eq_some_iff.mp h
    obtain ⟨rest, hrest, h⟩ := Option.bind_eq_some_iff.mp h
    cases h
    exact List.forall_mem_cons.mpr ⟨distance_lt hd, ih hrest⟩

/-- A nearest place that is found is less than 2^31 away. -/
theorem FindsNearest.near {posA posB : List Nat} (h : FindsNearest posA posB) {p : Nat}
    (hp : p ∈ posA) : ∃ q ∈ posB, Nat.dist p q < 2 ^ 31 := by
  obtain ⟨ds, hds, hleast⟩ := h
  have hall := scan_lt hds
  clear hds
  induction hleast with
  | nil => exact absurd hp List.not_mem_nil
  | cons hd _ ih =>
    obtain ⟨hfirst, hrest⟩ := List.forall_mem_cons.mp hall
    rcases List.mem_cons.mp hp with rfl | hp
    · obtain ⟨⟨q, hq, heq⟩, _⟩ := hd
      exact ⟨q, hq, heq ▸ hfirst⟩
    · exact ih hp hrest

/-- Positions below 2^31 are never farther apart. -/
theorem compared_fits {posA posB : List Nat} (hA : ∀ p ∈ posA, p < 2 ^ 31)
    (hB : ∀ q ∈ posB, q < 2 ^ 31) {p j : Nat} (hp : p ∈ posA) (hj : j < posB.length) :
    Fits p (posB.getD j 0) := by
  have hplace : posB.getD j 0 < 2 ^ 31 := by
    rw [List.getD_eq_getElem _ _ hj]
    exact hB _ (List.getElem_mem hj)
  have hown := hA p hp
  refine ⟨?_, by omega⟩
  unfold Nat.dist
  omega

theorem finds_nearest {posA posB : List Nat} (hne : posB ≠ []) (hA : posA.Pairwise (· < ·))
    (hB : posB.Pairwise (· < ·)) (hposA : ∀ p ∈ posA, IsSize p) (hposB : ∀ q ∈ posB, IsSize q)
    (hfits : ∀ p ∈ posA, ∀ j < posB.length, Compared posA posB p j → Fits p (posB.getD j 0)) :
    FindsNearest posA posB := by
  have hstart : ∀ p ∈ posA, Passed posB p 0 :=
    fun _ _ => ⟨List.length_pos_iff.mpr hne, fun j hj => absurd hj (Nat.not_lt_zero j)⟩
  have hseen : ∀ p' ∈ ([] : List Nat), ¬Leaves posB p' 0 := fun _ h => absurd h List.not_mem_nil
  have hall : ([] ++ posA).Pairwise (· < ·) := hA
  exact scan_nearest hB hposB hall hposA hfits hseen hstart

/-- For every position of the first word the scan finds the distance to the nearest position of the
second where each difference that it looks at fits. Where it does, each nearest place is less
than 2^31 away. It does for all positions below a bound exactly when the bound is 2^31 at most. -/
theorem nearest_where_differences_fit {posA posB : List Nat} (hne : posB ≠ [])
    (hA : posA.Pairwise (· < ·)) (hB : posB.Pairwise (· < ·)) (hposA : ∀ p ∈ posA, IsSize p)
    (hposB : ∀ q ∈ posB, IsSize q) :
    ((∀ p ∈ posA, ∀ j < posB.length, Compared posA posB p j → Fits p (posB.getD j 0)) →
        FindsNearest posA posB) ∧
      (FindsNearest posA posB → ∀ p ∈ posA, ∃ q ∈ posB, Nat.dist p q < 2 ^ 31) ∧
      ∀ bound : Nat, bound ≤ 2 ^ 64 →
        ((∀ posA posB : List Nat, posB ≠ [] → posA.Pairwise (· < ·) → posB.Pairwise (· < ·) →
          (∀ p ∈ posA, p < bound) → (∀ q ∈ posB, q < bound) → FindsNearest posA posB) ↔
            bound ≤ 2 ^ 31) := by
  refine ⟨finds_nearest hne hA hB hposA hposB, fun h p hp => h.near hp, fun bound hbound =>
    ⟨fun hall => ?_, fun hle => ?_⟩⟩
  · by_contra hlarge
    have hfar : FindsNearest [0] [2 ^ 31] := by
      refine hall _ _ (List.cons_ne_nil _ _) (List.pairwise_singleton _ _)
        (List.pairwise_singleton _ _) ?_ ?_
      · rw [List.forall_mem_singleton]
        omega
      · rw [List.forall_mem_singleton]
        omega
    obtain ⟨q, hq, hnear⟩ := hfar.near (List.mem_singleton_self 0)
    rw [List.mem_singleton.mp hq, Nat.dist_zero_left] at hnear
    exact Nat.lt_irrefl _ hnear
  · intro posA posB hne hA hB hposA hposB
    exact finds_nearest hne hA hB (fun p hp => (hposA p hp).trans_le hbound)
      (fun q hq => (hposB q hq).trans_le hbound) fun p hp j hj _ =>
        compared_fits (fun p hp => (hposA p hp).trans_le hle)
          (fun q hq => (hposB q hq).trans_le hle) hp hj

theorem two_words_nearest : FindsNearest [4, 13] [1, 6, 20] := by
  have hA : ∀ p ∈ [4, 13], IsSize p := by unfold IsSize; decide
  have hB : ∀ q ∈ [1, 6, 20], IsSize q := by unfold IsSize; decide
  refine (nearest_where_differences_fit (by decide) (by decide) (by decide) hA hB).1 ?_
  exact fun p hp j hj _ => compared_fits (by decide) (by decide) hp hj

/-- 4294967294 is read as 2. -/
theorem far_word_seems_near :
    bestDistances [1] [4294967295] = some [2] ∧ ¬FindsNearest [1] [4294967295] := by
  refine ⟨by decide, fun h => ?_⟩
  obtain ⟨q, hq, hnear⟩ := h.near (List.mem_singleton_self 1)
  rw [List.mem_singleton.mp hq] at hnear
  exact absurd hnear (by decide)

end seamus.word_distance
