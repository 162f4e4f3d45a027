-- Tries of sequences: trees that merge the sequences with a common prefix. A
-- sequence can be reached in the trie when it is a prefix of an inserted one,
-- and a walk that only decides at the leaves sees the inserted sequences that
-- are no proper prefix of another one.
import Mathlib.Data.List.Infix
import Mathlib.Data.List.Nodup

namespace trie

inductive Tree (α : Type) where
  | node (label : α) (children : List (Tree α))

variable {α : Type}

def Tree.label : Tree α → α
  | .node a _ => a

section

variable [DecidableEq α]

/-- The children with the change `f` below the first one that is labelled `a`, or below a new one. -/
def below (a : α) (f : List (Tree α) → List (Tree α)) : List (Tree α) → List (Tree α)
  | [] => [.node a (f [])]
  | .node b cs :: ts => if b = a then .node b (f cs) :: ts else .node b cs :: below a f ts

def insert : List α → List (Tree α) → List (Tree α)
  | [], ts => ts
  | a :: s, ts => below a (insert s) ts

def build (paths : List (List α)) : List (Tree α) :=
  paths.foldl (fun ts p => insert p ts) []

end

mutual

/-- A node holds when its label does and it is a leaf or some child holds. -/
def Tree.holds (sat : α → Bool) : Tree α → Bool
  | .node a children => sat a && (children.isEmpty || anyHolds sat children)

def anyHolds (sat : α → Bool) : List (Tree α) → Bool
  | [] => false
  | t :: ts => t.holds sat || anyHolds sat ts

end

mutual

def Tree.size : Tree α → Nat
  | .node _ children => 1 + forestSize children

def forestSize : List (Tree α) → Nat
  | [] => 0
  | t :: ts => t.size + forestSize ts

end

/-! ## The sequences of a forest -/

/-- The labels of a walk from a root down to some node. -/
def Reach : List (Tree α) → List α → Prop
  | _, [] => False
  | ts, a :: s => ∃ children, .node a children ∈ ts ∧ (s = [] ∨ Reach children s)

/-- No two siblings have one label. -/
inductive Distinct : List (Tree α) → Prop
  | mk {ts : List (Tree α)} (labels : (ts.map Tree.label).Nodup)
      (children : ∀ a cs, .node a cs ∈ ts → Distinct cs) : Distinct ts

theorem distinct_nil : Distinct ([] : List (Tree α)) :=
  ⟨List.nodup_nil, fun _ _ h => absurd h List.not_mem_nil⟩

theorem reach_nil (s : List α) : ¬ Reach ([] : List (Tree α)) s := by
  cases s with
  | nil => exact id
  | cons a s =>
    rintro ⟨cs, hmem, -⟩
    exact List.not_mem_nil hmem

theorem reach_cons (a : α) (cs ts : List (Tree α)) (b : α) (s : List α) :
    Reach (.node a cs :: ts) (b :: s) ↔ (b = a ∧ (s = [] ∨ Reach cs s)) ∨ Reach ts (b :: s) := by
  simp only [Reach, List.mem_cons, Tree.node.injEq]
  constructor
  · rintro ⟨ds, ⟨rfl, rfl⟩ | hmem, hs⟩
    · exact Or.inl ⟨rfl, hs⟩
    · exact Or.inr ⟨ds, hmem, hs⟩
  · rintro (⟨rfl, hs⟩ | ⟨ds, hmem, hs⟩)
    · exact ⟨cs, Or.inl ⟨rfl, rfl⟩, hs⟩
    · exact ⟨ds, Or.inr hmem, hs⟩

section

variable [DecidableEq α]

/-- Below the child `a`, the change `f` adds the prefixes of one sequence. -/
theorem reach_below (a : α) (p : List α) (f : List (Tree α) → List (Tree α))
    (hf : ∀ ts s, Reach (f ts) s ↔ Reach ts s ∨ (s ≠ [] ∧ s <+: p)) (ts : List (Tree α))
    (s : List α) : Reach (below a f ts) s ↔ Reach ts s ∨ (s ≠ [] ∧ s <+: a :: p) := by
  cases s with
  | nil => simp [Reach]
  | cons b s =>
    have hnew : ∀ cs, (b = a ∧ (s = [] ∨ Reach (f cs) s)) ↔
        (b = a ∧ (s = [] ∨ Reach cs s)) ∨ b :: s <+: a :: p := by
      intro cs
      rw [hf, List.cons_prefix_cons]
      by_cases hs : s = []
      · simp [hs]
      · simp only [hs, false_or, ne_eq, not_false_eq_true, true_and]
        tauto
    induction ts with
    | nil =>
      rw [below, reach_cons, hnew]
      have h1 := reach_nil (b :: s)
      have h2 := reach_nil s
      simp only [h1, h2, or_false, ne_eq, reduceCtorEq, not_false_eq_true, true_and, false_or,
        List.cons_prefix_cons]
      constructor
      · rintro (⟨rfl, rfl⟩ | h)
        · exact ⟨rfl, List.nil_prefix⟩
        · exact h
      · exact Or.inr
    | cons t ts ih =>
      obtain ⟨c, cs⟩ := t
      rw [below]
      by_cases hca : c = a
      · subst hca
        rw [if_pos rfl, reach_cons, reach_cons, hnew]
        simp only [ne_eq, reduceCtorEq, not_false_eq_true, true_and]
        tauto
      · have htail : Reach (below a f ts) (b :: s) ↔
            Reach ts (b :: s) ∨ (b :: s ≠ [] ∧ b :: s <+: a :: p) := ih
        rw [if_neg hca, reach_cons, reach_cons, htail]
        tauto

theorem reach_insert (p : List α) (ts : List (Tree α)) (s : List α) :
    Reach (insert p ts) s ↔ Reach ts s ∨ (s ≠ [] ∧ s <+: p) := by
  induction p generalizing ts s with
  | nil =>
    simp only [insert, List.prefix_nil]
    tauto
  | cons a p ih => exact reach_below a p (insert p) ih ts s

theorem label_below (a : α) (f : List (Tree α) → List (Tree α)) (ts : List (Tree α)) (b : α)
    (h : b ∈ (below a f ts).map Tree.label) : b = a ∨ b ∈ ts.map Tree.label := by
  induction ts with
  | nil => simpa [below, Tree.label] using h
  | cons t ts ih =>
    obtain ⟨c, cs⟩ := t
    rw [below] at h
    split at h
    · exact Or.inr (by simpa [Tree.label] using h)
    · simp only [List.map_cons, List.mem_cons] at h ⊢
      rcases h with h | h
      · exact Or.inr (Or.inl h)
      · rcases ih h with h | h
        · exact Or.inl h
        · exact Or.inr (Or.inr h)

theorem distinct_below (a : α) (f : List (Tree α) → List (Tree α))
    (hf : ∀ ts, Distinct ts → Distinct (f ts)) (ts : List (Tree α)) (h : Distinct ts) :
    Distinct (below a f ts) := by
  induction ts with
  | nil =>
    refine ⟨by simp [below], ?_⟩
    intro b cs hmem
    simp only [below, List.mem_singleton, Tree.node.injEq] at hmem
    rw [hmem.2]
    exact hf [] distinct_nil
  | cons t ts ih =>
    obtain ⟨c, cs⟩ := t
    obtain ⟨hlabels, hchildren⟩ := h
    rw [List.map_cons, List.nodup_cons] at hlabels
    have htail : Distinct ts :=
      ⟨hlabels.2, fun b ds hmem => hchildren b ds (List.mem_cons_of_mem _ hmem)⟩
    rw [below]
    split
    · refine ⟨by simpa [Tree.label] using hlabels, ?_⟩
      intro b ds hmem
      rcases List.mem_cons.1 hmem with heq | hmem
      · rw [Tree.node.injEq] at heq
        rw [heq.2]
        exact hf cs (hchildren c cs List.mem_cons_self)
      · exact hchildren b ds (List.mem_cons_of_mem _ hmem)
    · rename_i hca
      obtain ⟨hlabels', hchildren'⟩ := ih htail
      refine ⟨?_, ?_⟩
      · rw [List.map_cons, List.nodup_cons]
        refine ⟨fun hmem => ?_, hlabels'⟩
        rcases label_below a f ts _ hmem with h | h
        · exact hca h
        · exact hlabels.1 h
      · intro b ds hmem
        rcases List.mem_cons.1 hmem with heq | hmem
        · exact hchildren b ds (heq ▸ List.mem_cons_self)
        · exact hchildren' b ds hmem

theorem distinct_insert (p : List α) (ts : List (Tree α)) (h : Distinct ts) :
    Distinct (insert p ts) := by
  induction p generalizing ts with
  | nil => exact h
  | cons a p ih => exact distinct_below a (insert p) ih ts h

theorem reach_foldl (paths : List (List α)) (ts : List (Tree α)) (s : List α) :
    Reach (paths.foldl (fun ts p => insert p ts) ts) s ↔
      Reach ts s ∨ (s ≠ [] ∧ ∃ p ∈ paths, s <+: p) := by
  induction paths generalizing ts with
  | nil => simp
  | cons p paths ih =>
    rw [List.foldl_cons, ih, reach_insert]
    simp only [List.exists_mem_cons_iff]
    tauto

/-- What can be reached is what is a prefix of an inserted sequence. -/
theorem reach_build (paths : List (List α)) (s : List α) :
    Reach (build paths) s ↔ s ≠ [] ∧ ∃ p ∈ paths, s <+: p := by
  rw [build, reach_foldl]
  have hnil := reach_nil s
  simp only [hnil, false_or]

theorem distinct_build (paths : List (List α)) : Distinct (build paths) := by
  have key : ∀ ts, Distinct ts → Distinct (paths.foldl (fun ts p => insert p ts) ts) := by
    induction paths with
    | nil => exact fun _ h => h
    | cons p paths ih => exact fun ts h => ih _ (distinct_insert p ts h)
  exact key [] distinct_nil

end

/-! ## The walk that decides at the leaves -/

/-- A walk down to a leaf. -/
def Leaf (ts : List (Tree α)) (s : List α) : Prop := Reach ts s ∧ ∀ a, ¬ Reach ts (s ++ [a])

theorem leaf_cons (a : α) (cs ts : List (Tree α)) (h : Distinct (.node a cs :: ts)) (s : List α) :
    Leaf (.node a cs :: ts) s ↔
      (s = [a] ∧ cs = []) ∨ (∃ t, s = a :: t ∧ Leaf cs t) ∨ Leaf ts s := by
  cases s with
  | nil => simp [Leaf, Reach]
  | cons b s =>
    have hfresh : ∀ t, ¬ Reach ts (a :: t) := by
      obtain ⟨hlabels, -⟩ := h
      rw [List.map_cons, List.nodup_cons] at hlabels
      rintro t ⟨ds, hmem, -⟩
      exact hlabels.1 (List.mem_map.2 ⟨.node a ds, hmem, rfl⟩)
    have hempty : (∀ c, ¬ Reach cs [c]) ↔ cs = [] := by
      constructor
      · intro hall
        cases cs with
        | nil => rfl
        | cons t cs' =>
          obtain ⟨c, ds⟩ := t
          exact absurd ⟨ds, List.mem_cons_self, Or.inl rfl⟩ (hall c)
      · rintro rfl c
        exact reach_nil [c]
    by_cases hba : b = a
    · subst hba
      have h1 := hfresh s
      have h2 := fun c => hfresh (s ++ [c])
      simp only [Leaf, List.cons_append, reach_cons, h1, h2, or_false, true_and, false_and,
        List.cons.injEq]
      by_cases hs : s = []
      · subst hs
        simp only [List.nil_append, reduceCtorEq, false_or, true_or, true_and, hempty]
        constructor
        · exact fun h => Or.inl h
        · rintro (h | ⟨t, rfl, hreach, -⟩)
          · exact h
          · exact absurd hreach id
      · simp only [hs, false_or, List.append_eq_nil_iff, false_and]
        constructor
        · exact fun h => ⟨s, rfl, h⟩
        · rintro ⟨t, rfl, ht⟩
          exact ht
    · simp only [Leaf, List.cons_append, reach_cons, hba, false_and, false_or, List.cons.injEq,
        exists_false]

mutual

theorem holds_iff (sat : α → Bool) : (t : Tree α) → Distinct [t] →
    (t.holds sat = true ↔ ∃ s, Leaf [t] s ∧ ∀ a ∈ s, sat a = true)
  | .node a cs, h => by
    have hcs : Distinct cs := by
      obtain ⟨-, hchildren⟩ := h
      exact hchildren a cs List.mem_cons_self
    have ih := anyHolds_iff sat cs hcs
    have hnil : ∀ s, ¬ Leaf ([] : List (Tree α)) s := fun s hs => reach_nil s hs.1
    simp only [Tree.holds, Bool.and_eq_true, Bool.or_eq_true, List.isEmpty_iff, ih,
      leaf_cons a cs [] h, hnil, or_false]
    constructor
    · rintro ⟨ha, hcs | ⟨s, hleaf, hall⟩⟩
      · exact ⟨[a], Or.inl ⟨rfl, hcs⟩, by simpa using ha⟩
      · refine ⟨a :: s, Or.inr ⟨s, rfl, hleaf⟩, ?_⟩
        intro b hb
        rcases List.mem_cons.1 hb with rfl | hb
        · exact ha
        · exact hall b hb
    · rintro ⟨s, ⟨rfl, hcs⟩ | ⟨t, rfl, hleaf⟩, hall⟩
      · exact ⟨hall a List.mem_cons_self, Or.inl hcs⟩
      · exact ⟨hall a List.mem_cons_self,
          Or.inr ⟨t, hleaf, fun b hb => hall b (List.mem_cons_of_mem _ hb)⟩⟩

theorem anyHolds_iff (sat : α → Bool) : (ts : List (Tree α)) → Distinct ts →
    (anyHolds sat ts = true ↔ ∃ s, Leaf ts s ∧ ∀ a ∈ s, sat a = true)
  | [], _ => by
    have hnil : ∀ s, ¬ Leaf ([] : List (Tree α)) s := fun s hs => reach_nil s hs.1
    simp [anyHolds, hnil]
  | t :: ts, h => by
    have hparts : Distinct [t] ∧ Distinct ts := by
      obtain ⟨hlabels, hchildren⟩ := h
      rw [List.map_cons, List.nodup_cons] at hlabels
      refine ⟨⟨by simp, fun b ds hmem => hchildren b ds ?_⟩,
        ⟨hlabels.2, fun b ds hmem => hchildren b ds (List.mem_cons_of_mem _ hmem)⟩⟩
      rw [List.mem_singleton.1 hmem]
      exact List.mem_cons_self
    have ih1 := holds_iff sat t hparts.1
    have ih2 := anyHolds_iff sat ts hparts.2
    obtain ⟨a, cs⟩ := t
    have hnil : ∀ s, ¬ Leaf ([] : List (Tree α)) s := fun s hs => reach_nil s hs.1
    simp only [leaf_cons a cs [] hparts.1, hnil, or_false] at ih1
    simp only [anyHolds, Bool.or_eq_true, ih1, ih2, leaf_cons a cs ts h]
    constructor
    · rintro (⟨s, hs, hall⟩ | ⟨s, hs, hall⟩)
      · rcases hs with hs | hs
        · exact ⟨s, Or.inl hs, hall⟩
        · exact ⟨s, Or.inr (Or.inl hs), hall⟩
      · exact ⟨s, Or.inr (Or.inr hs), hall⟩
    · rintro ⟨s, hs | hs | hs, hall⟩
      · exact Or.inl ⟨s, Or.inl hs, hall⟩
      · exact Or.inl ⟨s, Or.inr hs, hall⟩
      · exact Or.inr ⟨s, hs, hall⟩

end

/-- Some other inserted sequence goes on where this one ends. -/
def ProperPrefix (p q : List α) : Prop := p <+: q ∧ p ≠ q

section

variable [DecidableEq α]

/-- The leaves are the inserted sequences that are no proper prefix of another one. -/
theorem leaf_build (paths : List (List α)) (s : List α) :
    Leaf (build paths) s ↔ s ≠ [] ∧ s ∈ paths ∧ ∀ q ∈ paths, ¬ ProperPrefix s q := by
  have next : ∀ p : List α, s <+: p → s ≠ p → ∃ a, s ++ [a] <+: p := by
    rintro p ⟨t, rfl⟩ hne
    cases t with
    | nil => exact absurd (List.append_nil s).symm hne
    | cons a t => exact ⟨a, t, by simp⟩
  simp only [Leaf, reach_build]
  constructor
  · rintro ⟨⟨hne, p, hp, hpre⟩, hmax⟩
    have hstop : ∀ q ∈ paths, ¬ ProperPrefix s q := by
      rintro q hq ⟨hsq, hneq⟩
      obtain ⟨a, ha⟩ := next q hsq hneq
      exact hmax a ⟨by simp, q, hq, ha⟩
    refine ⟨hne, ?_, hstop⟩
    by_cases hsp : s = p
    · rwa [hsp]
    · exact absurd ⟨hpre, hsp⟩ (hstop p hp)
  · rintro ⟨hne, hmem, hstop⟩
    refine ⟨⟨hne, s, hmem, List.prefix_refl s⟩, ?_⟩
    rintro a ⟨-, q, hq, hpre⟩
    refine hstop q hq ⟨(List.prefix_append s [a]).trans hpre, ?_⟩
    rintro rfl
    have hlen := hpre.length_le
    simp only [List.length_append, List.length_singleton] at hlen
    omega

/-- The walk over the trie of some sequences, none of them empty. -/
theorem anyHolds_build (sat : α → Bool) (paths : List (List α)) (hne : ∀ p ∈ paths, p ≠ []) :
    anyHolds sat (build paths) = true ↔
      ∃ p ∈ paths, (∀ q ∈ paths, ¬ ProperPrefix p q) ∧ ∀ a ∈ p, sat a = true := by
  rw [anyHolds_iff sat _ (distinct_build paths)]
  simp only [leaf_build]
  constructor
  · rintro ⟨s, ⟨-, hmem, hstop⟩, hall⟩
    exact ⟨s, hmem, hstop, hall⟩
  · rintro ⟨p, hmem, hstop, hall⟩
    exact ⟨p, ⟨hne p hmem, hmem, hstop⟩, hall⟩

end

end trie
