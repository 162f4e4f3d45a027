-- The best `k` entries of a list by a score. Which of the entries with one score are taken is
-- left open, so that the best of the best of some parts are the best of all.
import Mathlib.Order.Basic
import Mathlib.Data.List.Sort

namespace top_k

variable {α σ : Type} [LinearOrder σ]

/-- True from a mark on. -/
def Upper (p : σ → Bool) : Prop := ∀ x y, x ≤ y → p x = true → p y = true

/-- Of the entries above any mark `out` has as many as `all` has, up to `k`. -/
def IsTop (score : α → σ) (k : Nat) (out all : List α) : Prop :=
  ∀ p, Upper p → out.countP (p ∘ score) = min k (all.countP (p ∘ score))

def Descending (score : α → σ) (l : List α) : Prop := l.Pairwise fun x y => score y ≤ score x

variable {score : α → σ} {k : Nat} {out all : List α}

/-- A list in order has its best entries first. -/
theorem Descending.isTop_take {l : List α} (h : Descending score l) (k : Nat) :
    IsTop score k (l.take k) l := by
  intro p hp
  unfold Descending at h
  induction l generalizing k with
  | nil => simp
  | cons x l ih =>
    obtain ⟨hx, hl⟩ := List.pairwise_cons.mp h
    cases k with
    | zero => simp
    | succ k =>
      rw [List.take_succ_cons, List.countP_cons, List.countP_cons, ih hl k]
      by_cases hpx : p (score x) = true
      · simp only [Function.comp_apply, hpx, if_true]
        omega
      · have hnone : l.countP (p ∘ score) = 0 := by
          rw [List.countP_eq_zero]
          intro y hy hpy
          exact hpx (hp _ _ (hx y hy) hpy)
        simp only [Function.comp_apply, hpx, hnone]
        simp

theorem IsTop.of_perm {all' : List α} (h : IsTop score k out all) (hperm : all.Perm all') :
    IsTop score k out all' := by
  intro p hp
  rw [h p hp, hperm.countP_eq]

theorem IsTop.perm {out' : List α} (h : IsTop score k out all) (hperm : out.Perm out') :
    IsTop score k out' all := by
  intro p hp
  rw [← h p hp, hperm.countP_eq]

/-- An entry that no entry of a full list is below. -/
theorem IsTop.cons_of_full {x : α} (h : IsTop score k out all) (hfull : out.length = k)
    (hle : ∀ y ∈ out, score x ≤ score y) : IsTop score k out (x :: all) := by
  intro p hp
  have htop := h p hp
  rw [List.countP_cons]
  by_cases hpx : p (score x) = true
  · have hall : out.countP (p ∘ score) = out.length :=
      List.countP_eq_length.mpr fun y hy => hp _ _ (hle y hy) hpx
    simp only [Function.comp_apply, hpx, if_true]
    omega
  · simp only [Function.comp_apply, hpx]
    exact htop

/-- An entry that is put into its place, where the last one falls out of a full list. -/
theorem IsTop.cons_take {x : α} {out' : List α} (h : IsTop score k out all)
    (hperm : out'.Perm (x :: out)) (hout' : Descending score out') :
    IsTop score k (out'.take k) (x :: all) := by
  intro p hp
  have htake := (hout'.isTop_take k).of_perm hperm p hp
  have htop := h p hp
  rw [htake, List.countP_cons, List.countP_cons]
  omega

/-- An entry that is above all. -/
theorem IsTop.cons_max {x : α} (h : IsTop score k out all) (hsub : out ⊆ all)
    (hmax : ∀ y ∈ all, score y ≤ score x) : IsTop score (k + 1) (x :: out) (x :: all) := by
  intro p hp
  have htop := h p hp
  rw [List.countP_cons, List.countP_cons]
  by_cases hpx : p (score x) = true
  · simp only [Function.comp_apply, hpx, if_true]
    omega
  · have hnone : ∀ l ⊆ all, l.countP (p ∘ score) = 0 := by
      intro l hl
      rw [List.countP_eq_zero]
      intro y hy hpy
      exact hpx (hp _ _ (hmax y (hl hy)) hpy)
    simp only [Function.comp_apply, hpx, hnone out hsub, hnone all fun _ => id]
    simp

/-- The best of the best of the parts, of which as many are kept or more. -/
theorem IsTop.flatten_of_le {k' : Nat} (hk : k ≤ k') {outs alls : List (List α)}
    (hparts : List.Forall₂ (IsTop score k') outs alls)
    (h : IsTop score k out outs.flatten) : IsTop score k out alls.flatten := by
  have hcount : ∀ p : σ → Bool, Upper p → ∀ n, min k (n + outs.flatten.countP (p ∘ score)) =
      min k (n + alls.flatten.countP (p ∘ score)) := by
    intro p hp
    clear h
    induction hparts with
    | nil => exact fun _ => rfl
    | @cons part all outs alls hpart _ ih =>
      intro n
      have hpart := hpart p hp
      have hn := ih n
      rw [List.flatten_cons, List.flatten_cons, List.countP_append, List.countP_append]
      have hmore := ih (n + all.countP (p ∘ score))
      omega
  intro p hp
  have hzero := hcount p hp 0
  rw [Nat.zero_add, Nat.zero_add] at hzero
  rw [h p hp, hzero]

/-- Two lists in order that have the same number above every mark. -/
theorem eq_of_countP_eq {l l' : List σ} (h : l.Pairwise fun x y => y ≤ x)
    (h' : l'.Pairwise fun x y => y ≤ x) (hcount : ∀ p, Upper p → l.countP p = l'.countP p) :
    l = l' := by
  have hupper : ∀ v : σ, Upper (fun x => decide (v ≤ x)) ∧ Upper (fun x => decide (v < x)) := by
    intro v
    constructor
    · exact fun x y hxy hx => decide_eq_true (le_trans (of_decide_eq_true hx) hxy)
    · exact fun x y hxy hx => decide_eq_true (lt_of_lt_of_le (of_decide_eq_true hx) hxy)
  have hsplit : ∀ (v : σ) (m : List σ),
      m.countP (fun x => decide (v ≤ x)) = m.count v + m.countP (fun x => decide (v < x)) := by
    intro v m
    induction m with
    | nil => rfl
    | cons x m ih =>
      rw [List.countP_cons, List.countP_cons, List.count_cons, ih]
      rcases lt_trichotomy v x with hlt | heq | hgt
      · simp only [le_of_lt hlt, hlt, decide_true, if_true, beq_iff_eq, ne_of_gt hlt, if_false]
        omega
      · simp only [heq, le_refl, lt_irrefl, decide_true, decide_false, if_true, beq_self_eq_true,
          Bool.false_eq_true, if_false]
        omega
      · simp only [not_le_of_gt hgt, not_lt_of_gt hgt, decide_false, Bool.false_eq_true, if_false,
          beq_iff_eq, ne_of_lt hgt]
        omega
  have hperm : l.Perm l' := by
    rw [List.perm_iff_count]
    intro v
    have hle := hcount _ (hupper v).1
    have hlt := hcount _ (hupper v).2
    rw [hsplit, hsplit] at hle
    omega
  exact hperm.eq_of_pairwise (fun x y _ _ hxy hyx => le_antisymm hyx hxy) h h'

/-- The scores of the best entries are known, whichever entries are taken. -/
theorem IsTop.map_score_eq (h : IsTop score k out all) (hout : Descending score out) :
    out.map score = ((all.map score).mergeSort fun x y => decide (y ≤ x)).take k := by
  have hsorted : ((all.map score).mergeSort fun x y => decide (y ≤ x)).Pairwise
      fun x y => y ≤ x := by
    refine (List.pairwise_mergeSort ?_ ?_ _).imp of_decide_eq_true
    · intro x y z hxy hyz
      exact decide_eq_true (le_trans (of_decide_eq_true hyz) (of_decide_eq_true hxy))
    · intro x y
      rw [Bool.or_eq_true, decide_eq_true_eq, decide_eq_true_eq]
      exact le_total y x
  refine eq_of_countP_eq (List.pairwise_map.mpr hout) (hsorted.sublist (List.take_sublist _ _)) ?_
  intro p hp
  have htake := Descending.isTop_take (show Descending id _ from hsorted) k p hp
  rw [Function.comp_id] at htake
  rw [htake, List.countP_map, h p hp, (List.mergeSort_perm _ _).countP_eq, List.countP_map]

end top_k
