-- The best entries of a list under a ranking: the first match in a list that is sorted by it,
-- and the winner of two lists.
import Mathlib.Data.List.Basic

namespace priority

variable {α : Type*} (rank : α → Nat)

/-- An entry that no other entry outranks. -/
def Best (entries : List α) (a : α) : Prop := a ∈ entries ∧ ∀ e ∈ entries, rank e ≤ rank a

variable {rank} {entries others : List α} {a b : α}

theorem exists_best (h : entries ≠ []) : ∃ a, Best rank entries a := by
  induction entries with
  | nil => exact absurd rfl h
  | cons e entries ih =>
    by_cases hnil : entries = []
    · subst hnil
      exact ⟨e, List.mem_cons_self, fun e' he' => Nat.le_of_eq (congrArg rank (List.mem_singleton.mp he'))⟩
    · obtain ⟨a, ha, hbest⟩ := ih hnil
      rcases Nat.le_total (rank e) (rank a) with hle | hle
      · exact ⟨a, List.mem_cons_of_mem _ ha, List.forall_mem_cons.mpr ⟨hle, hbest⟩⟩
      · refine ⟨e, List.mem_cons_self, List.forall_mem_cons.mpr ⟨Nat.le_refl _, ?_⟩⟩
        exact fun e' he' => Nat.le_trans (hbest e' he') hle

theorem Best.rank_eq (ha : Best rank entries a) (hb : Best rank entries b) : rank a = rank b :=
  Nat.le_antisymm (hb.2 a ha.1) (ha.2 b hb.1)

/-- A list is searched from its highest rank on: the first match is a best match. -/
theorem best_of_find (hsorted : entries.Pairwise fun x y => rank y ≤ rank x) {p : α → Bool}
    (hfind : entries.find? p = some a) : Best rank (entries.filter p) a := by
  induction entries with
  | nil => cases hfind
  | cons e entries ih =>
    obtain ⟨hhead, htail⟩ := List.pairwise_cons.mp hsorted
    rw [List.find?_cons] at hfind
    cases hp : p e with
    | true =>
      rw [hp] at hfind
      cases hfind
      rw [List.filter_cons_of_pos hp]
      refine ⟨List.mem_cons_self, List.forall_mem_cons.mpr ⟨Nat.le_refl _, ?_⟩⟩
      exact fun e' he' => hhead e' (List.mem_of_mem_filter he')
    | false =>
      rw [hp] at hfind
      rw [List.filter_cons_of_neg (by rw [hp]; decide)]
      exact ih htail hfind

theorem Best.append_left (ha : Best rank entries a) (hb : Best rank others b)
    (hle : rank b ≤ rank a) : Best rank (entries ++ others) a := by
  refine ⟨List.mem_append_left _ ha.1, List.forall_mem_append.mpr ⟨ha.2, ?_⟩⟩
  exact fun e he => Nat.le_trans (hb.2 e he) hle

theorem Best.append_right (ha : Best rank entries a) (hb : Best rank others b)
    (hle : rank a ≤ rank b) : Best rank (entries ++ others) b := by
  refine ⟨List.mem_append_right _ hb.1, List.forall_mem_append.mpr ⟨?_, hb.2⟩⟩
  exact fun e he => Nat.le_trans (ha.2 e he) hle

theorem Best.of_perm (hperm : entries.Perm others) (ha : Best rank entries a) :
    Best rank others a :=
  ⟨hperm.mem_iff.mp ha.1, fun e he => ha.2 e (hperm.mem_iff.mpr he)⟩

end priority
