-- Parties that take turns on a shared state: what holds after every run, under
-- a condition on each turn, and sums over what the parties hold.
import Mathlib.Algebra.BigOperators.Group.List.Basic
import Mathlib.Tactic.Abel

namespace interleaving

/-! ## Runs -/

section Runs

variable {α σ : Type*} (step : α → σ → Option σ)

/-- The state after a list of turns, when each of them could be taken. -/
def exec : List α → σ → Option σ
  | [], s => some s
  | a :: as, s => (step a s).bind (exec as)

/-- Every turn of the run that can be taken meets a condition on the state before it. -/
def Meets (allowed : α → σ → Prop) : List α → σ → Prop
  | [], _ => True
  | a :: as, s => allowed a s ∧ ∀ s', step a s = some s' → Meets allowed as s'

instance decidableMeets (allowed : α → σ → Prop) [∀ a s, Decidable (allowed a s)] :
    ∀ as s, Decidable (Meets step allowed as s)
  | [], _ => isTrue trivial
  | a :: as, s =>
    match h : step a s with
    | none => decidable_of_iff (allowed a s) ⟨fun ha => ⟨ha, fun s' hs => by rw [h] at hs; cases hs⟩,
        fun hm => hm.1⟩
    | some t =>
      haveI := decidableMeets allowed as t
      decidable_of_iff (allowed a s ∧ Meets step allowed as t)
        ⟨fun ha => ⟨ha.1, fun s' hs => by rw [h] at hs; cases hs; exact ha.2⟩,
          fun hm => ⟨hm.1, hm.2 t h⟩⟩

variable {step}

theorem exec_cons {a : α} {as : List α} {s s'' : σ} (h : exec step (a :: as) s = some s'') :
    ∃ s', step a s = some s' ∧ exec step as s' = some s'' := Option.bind_eq_some_iff.mp h

theorem exec_total (h : ∀ a s, ∃ s', step a s = some s') (as : List α) (s : σ) :
    ∃ s', exec step as s = some s' := by
  induction as generalizing s with
  | nil => exact ⟨s, rfl⟩
  | cons a as ih =>
    obtain ⟨t, ht⟩ := h a s
    obtain ⟨s', hs'⟩ := ih t
    exact ⟨s', by rw [exec, ht, Option.bind_some, hs']⟩

theorem meets_of_forall {allowed : α → Prop} {as : List α} (h : ∀ a ∈ as, allowed a) (s : σ) :
    Meets step (fun a _ => allowed a) as s := by
  induction as generalizing s with
  | nil => trivial
  | cons a as ih =>
    exact ⟨h a List.mem_cons_self, fun t _ => ih (fun b hb => h b (List.mem_cons_of_mem _ hb)) t⟩

/-- A run of turns that come from others. -/
theorem exec_map {β : Type*} (f : β → α) (bs : List β) (s : σ) :
    exec step (bs.map f) s = exec (fun b => step (f b)) bs s := by
  induction bs generalizing s with
  | nil => rfl
  | cons b bs ih =>
    rw [List.map_cons, exec, exec]
    exact congrArg _ (funext ih)

theorem exec_append (as bs : List α) (s : σ) :
    exec step (as ++ bs) s = (exec step as s).bind (exec step bs) := by
  induction as generalizing s with
  | nil => rfl
  | cons a as ih =>
    rw [List.cons_append, exec, exec, Option.bind_assoc]
    congr 1
    funext t
    exact ih t

/-- A run that breaks the condition comes to a first turn that does. -/
theorem exists_not_allowed {allowed : α → σ → Prop} {as : List α} {s : σ}
    (h : ¬Meets step allowed as s) :
    ∃ k a t, exec step (as.take k) s = some t ∧ as[k]? = some a ∧ ¬allowed a t := by
  induction as generalizing s with
  | nil => exact absurd trivial h
  | cons a as ih =>
    by_cases ha : allowed a s
    · obtain ⟨s', hnot⟩ := not_forall.mp (not_and.mp h ha)
      obtain ⟨hs', hrest⟩ := Classical.not_imp.mp hnot
      obtain ⟨k, b, t, hrun, hb, hbreaks⟩ := ih hrest
      refine ⟨k + 1, b, t, ?_, hb, hbreaks⟩
      rw [List.take_succ_cons, exec, hs', Option.bind_some, hrun]
    · exact ⟨0, a, s, rfl, rfl, ha⟩

/-- What a turn preserves under the condition, a run preserves. -/
theorem exec_invariant {allowed : α → σ → Prop} {inv : σ → Prop}
    (hstep : ∀ a s s', inv s → allowed a s → step a s = some s' → inv s')
    {as : List α} {s s' : σ} (hs : inv s) (ha : Meets step allowed as s)
    (h : exec step as s = some s') : inv s' := by
  induction as generalizing s with
  | nil => cases h; exact hs
  | cons a as ih =>
    obtain ⟨t, ht, hrest⟩ := exec_cons h
    exact ih (hstep a s t hs ha.1 ht) (ha.2 t ht) hrest

/-- Where a turn that breaks the condition spoils the state, a condition that keeps it good is
exact: all states of a run are good when all its turns meet the condition, and only then. -/
theorem always_iff_meets {allowed : α → σ → Prop} {inv good : σ → Prop}
    (hgood : ∀ s, inv s → good s)
    (hstep : ∀ a s s', inv s → allowed a s → step a s = some s' → inv s')
    (hbreak : ∀ a s, inv s → ¬allowed a s → ∃ s', step a s = some s' ∧ ¬good s')
    {as : List α} {s : σ} (hs : inv s) :
    (∀ k s', exec step (as.take k) s = some s' → good s') ↔ Meets step allowed as s := by
  induction as generalizing s with
  | nil =>
    refine ⟨fun _ => trivial, fun _ k s' h => ?_⟩
    rw [List.take_nil] at h
    cases h
    exact hgood s hs
  | cons a as ih =>
    constructor
    · intro h
      have ha : allowed a s := by
        by_contra hnot
        obtain ⟨s', hs', hspoilt⟩ := hbreak a s hs hnot
        exact hspoilt (h 1 s' (by rw [List.take_succ_cons, exec, hs', List.take_zero]; rfl))
      refine ⟨ha, fun s' hs' => (ih (hstep a s s' hs ha hs')).mp fun k t ht => h (k + 1) t ?_⟩
      rw [List.take_succ_cons, exec, hs', Option.bind_some, ht]
    · rintro ⟨ha, hrest⟩ k t ht
      cases k with
      | zero =>
        cases ht
        exact hgood s hs
      | succ k =>
        obtain ⟨s', hs', hrun⟩ := exec_cons ht
        exact (ih (hstep a s s' hs ha hs')).mpr (hrest s' hs') k t hrun

/-- The condition at one turn of a run that meets it. -/
theorem meets_at {allowed : α → σ → Prop} {as : List α} {s t : σ} {k : Nat} {a : α}
    (h : Meets step allowed as s) (ht : exec step (as.take k) s = some t) (ha : as[k]? = some a) :
    allowed a t := by
  induction as generalizing s k with
  | nil => cases ha
  | cons b as ih =>
    cases k with
    | zero =>
      cases ht
      cases ha
      exact h.1
    | succ k =>
      obtain ⟨s', hs', hrun⟩ := exec_cons ht
      exact ih (h.2 s' hs') hrun ha

/-- What every turn preserves, a run preserves. -/
theorem exec_preserves {inv : σ → Prop}
    (hstep : ∀ a s s', inv s → step a s = some s' → inv s')
    {as : List α} {s s' : σ} (hs : inv s) (h : exec step as s = some s') : inv s' := by
  induction as generalizing s with
  | nil => cases h; exact hs
  | cons a as ih =>
    obtain ⟨t, ht, hrest⟩ := exec_cons h
    exact ih (hstep a s t hs ht) hrest

/-- What a turn preserves as a function of the number of turns, a run does. -/
theorem exec_counts {inv : Nat → σ → Prop}
    (hstep : ∀ n a s s', inv n s → step a s = some s' → inv (n + 1) s')
    {as : List α} {n : Nat} {s s' : σ} (hs : inv n s) (h : exec step as s = some s') :
    inv (n + as.length) s' := by
  induction as generalizing n s with
  | nil => cases h; exact hs
  | cons a as ih =>
    obtain ⟨t, ht, hrest⟩ := exec_cons h
    have htail := ih (hstep n a s t hs ht) hrest
    rwa [Nat.add_right_comm] at htail

/-- A run can be carried on to a final state, when no other state is stuck and some
turn there comes nearer to it. -/
theorem exec_reaches {inv final : σ → Prop} (left : σ → Nat)
    (hstep : ∀ a s s', inv s → step a s = some s' → inv s')
    (hmove : ∀ s, inv s → ¬final s → ∃ a s', step a s = some s' ∧ left s' < left s)
    (n : Nat) (s : σ) (hs : inv s) (hn : left s ≤ n) :
    ∃ as s', exec step as s = some s' ∧ final s' := by
  induction n generalizing s with
  | zero =>
    by_cases hf : final s
    · exact ⟨[], s, rfl, hf⟩
    · obtain ⟨_, _, _, hlt⟩ := hmove s hs hf
      omega
  | succ n ih =>
    by_cases hf : final s
    · exact ⟨[], s, rfl, hf⟩
    · obtain ⟨a, t, ht, hlt⟩ := hmove s hs hf
      obtain ⟨as, s', hrun, hfin⟩ := ih t (hstep a s t hs ht) (by omega)
      exact ⟨a :: as, s', by rw [exec, ht, Option.bind_some, hrun], hfin⟩

end Runs

/-! ## Sums over the parties -/

section Parties

variable {β M : Type*} [AddCommMonoid M] (f : β → M)

/-- What all parties hold together. -/
def total (parties : List β) : M := (parties.map f).sum

theorem total_cons (p : β) (ps : List β) : total f (p :: ps) = f p + total f ps := by
  rw [total, List.map_cons, List.sum_cons, total]

theorem total_append (xs ys : List β) : total f (xs ++ ys) = total f xs + total f ys := by
  rw [total, List.map_append, List.sum_append, total, total]

/-- When one party changes, so does the sum by as much. -/
theorem total_set {parties : List β} {i : Nat} {p : β} (p' : β) (h : parties[i]? = some p) :
    total f (parties.set i p') + f p = total f parties + f p' := by
  obtain ⟨hi, hp⟩ := List.getElem?_eq_some_iff.mp h
  have hset : parties.set i p' = parties.take i ++ p' :: parties.drop (i + 1) :=
    List.set_eq_take_append_cons_drop.trans (if_pos hi)
  have hall : parties = parties.take i ++ p :: parties.drop (i + 1) := by
    rw [← hp, List.getElem_cons_drop hi, List.take_append_drop]
  rw [hset, total_append, total_cons]
  conv_rhs => rw [hall, total_append, total_cons]
  abel

/-- The part of one party in the sum. -/
theorem total_split {parties : List β} {i : Nat} {p : β} (h : parties[i]? = some p) :
    ∃ rest, total f parties = f p + rest := by
  obtain ⟨hi, hp⟩ := List.getElem?_eq_some_iff.mp h
  have hall : parties = parties.take i ++ p :: parties.drop (i + 1) := by
    rw [← hp, List.getElem_cons_drop hi, List.take_append_drop]
  refine ⟨total f (parties.take i) + total f (parties.drop (i + 1)), ?_⟩
  rw [hall, total_append, total_cons]
  simp only [← hall]
  abel

theorem total_eq_zero {parties : List β} (h : ∀ p ∈ parties, f p = 0) : total f parties = 0 := by
  induction parties with
  | nil => rfl
  | cons p ps ih =>
    have hp : f p = 0 := h p List.mem_cons_self
    have hps : total f ps = 0 := ih (fun q hq => h q (List.mem_cons_of_mem _ hq))
    rw [total_cons, hp, hps, add_zero]

/-- What a change of each party leaves alone, the sum does. -/
theorem total_map (g : β → β) (h : ∀ p, f (g p) = f p) (parties : List β) :
    total f (parties.map g) = total f parties := by
  unfold total
  rw [List.map_map]
  exact congrArg List.sum (List.map_congr_left fun p _ => h p)

/-- When each party grows by one at most, the sum does by their number. -/
theorem total_map_le (f : β → Nat) (g : β → β) (h : ∀ p, f (g p) ≤ f p + 1) (parties : List β) :
    total f (parties.map g) ≤ total f parties + parties.length := by
  induction parties with
  | nil => exact Nat.le_refl 0
  | cons p ps ih =>
    have hp := h p
    rw [List.map_cons, total_cons, total_cons, List.length_cons]
    omega

/-- What each turn adds to a measure of the state, a run adds together. -/
theorem exec_gains {α σ : Type*} {step : α → σ → Option σ} (held : σ → M) (gain : α → M)
    (hstep : ∀ a s s', step a s = some s' → held s' = gain a + held s)
    {as : List α} {s s' : σ} (h : exec step as s = some s') : held s' = total gain as + held s := by
  induction as generalizing s with
  | nil =>
    cases h
    exact (zero_add _).symm
  | cons a as ih =>
    obtain ⟨t, ht, hrest⟩ := exec_cons h
    rw [ih hrest, hstep a s t ht, total_cons, add_assoc, add_left_comm]

/-- A run is no longer than what there is to do at its start and what its turns add to that, where
the condition on a state may tell of the turns to come. -/
theorem exec_length_le_ahead {α σ : Type*} {step : α → σ → Option σ} {inv : List α → σ → Prop}
    (left : σ → Nat) (adds : α → Nat)
    (hstep : ∀ a as s s', inv (a :: as) s → step a s = some s' → inv as s')
    (hless : ∀ a as s s', inv (a :: as) s → step a s = some s' → left s' < left s + adds a)
    {as : List α} {s s' : σ} (hs : inv as s) (h : exec step as s = some s') :
    as.length + left s' ≤ left s + total adds as := by
  induction as generalizing s with
  | nil =>
    cases h
    exact Nat.le_of_eq (Nat.zero_add _)
  | cons a as ih =>
    obtain ⟨t, ht, hrest⟩ := exec_cons h
    have htail := ih (hstep a as s t hs ht) hrest
    have hhead := hless a as s t hs ht
    rw [total_cons, List.length_cons]
    omega

theorem exec_length_le {α σ : Type*} {step : α → σ → Option σ} {inv : σ → Prop} (left : σ → Nat)
    (adds : α → Nat) (hstep : ∀ a s s', inv s → step a s = some s' → inv s')
    (hless : ∀ a s s', inv s → step a s = some s' → left s' < left s + adds a)
    {as : List α} {s s' : σ} (hs : inv s) (h : exec step as s = some s') :
    as.length + left s' ≤ left s + total adds as := by
  let ahead : List α → σ → Prop := fun _ => inv
  have hahead : ahead as s := hs
  exact exec_length_le_ahead left adds (fun a _ => hstep a) (fun a _ => hless a) hahead h

end Parties

section Changes

variable {β M : Type*} [AddCancelCommMonoid M] (f : β → M)
variable {parties : List β} {i : Nat} {p p' : β} {c : M}

theorem total_keep (h : parties[i]? = some p) (heq : f p' = f p) :
    total f (parties.set i p') = total f parties := by
  have hset := total_set f p' h
  rw [heq] at hset
  exact add_right_cancel hset

theorem total_gain (h : parties[i]? = some p) (heq : f p' = c + f p) :
    total f (parties.set i p') = c + total f parties := by
  have hset := total_set f p' h
  rw [heq, ← add_assoc, add_comm (total f parties) c] at hset
  exact add_right_cancel hset

theorem total_lose (h : parties[i]? = some p) (heq : f p = c + f p') :
    c + total f (parties.set i p') = total f parties := by
  have hset := total_set f p' h
  rw [heq, ← add_assoc, add_comm (total f (parties.set i p')) c] at hset
  exact add_right_cancel hset

end Changes

/-! ## One party after another party's turn -/

theorem getElem?_set_cases {β : Type*} {parties : List β} {i j : Nat} {p' q : β}
    (h : (parties.set i p')[j]? = some q) : j = i ∧ q = p' ∨ j ≠ i ∧ parties[j]? = some q := by
  rw [List.getElem?_set] at h
  by_cases hij : i = j
  · rw [if_pos hij] at h
    split at h
    · exact Or.inl ⟨hij.symm, (Option.some.inj h).symm⟩
    · cases h
  · rw [if_neg hij] at h
    exact Or.inr ⟨Ne.symm hij, h⟩

/-- A party after a new one has come. -/
theorem getElem?_concat_cases {β : Type*} {parties : List β} {i : Nat} {p q : β}
    (h : (parties ++ [p])[i]? = some q) : parties[i]? = some q ∨ i = parties.length ∧ q = p := by
  rcases Nat.lt_or_ge i parties.length with hlt | hge
  · exact Or.inl ((List.getElem?_append_left hlt).symm.trans h)
  · rw [List.getElem?_append_right hge] at h
    obtain ⟨hi, hq⟩ := List.getElem?_eq_some_iff.mp h
    rw [List.length_singleton] at hi
    exact Or.inr ⟨by omega, by simpa using hq.symm⟩

/-- A party is still there after the turn of one that was another. -/
theorem mem_set_of_ne {β : Type*} {parties : List β} {i : Nat} {p q : β} (p' : β)
    (h : parties[i]? = some p) (hq : q ∈ parties) (hne : q ≠ p) : q ∈ parties.set i p' := by
  obtain ⟨j, hj⟩ := List.mem_iff_getElem?.mp hq
  have hij : i ≠ j := by
    rintro rfl
    rw [h] at hj
    exact hne (Option.some.inj hj).symm
  exact List.mem_of_getElem? ((List.getElem?_set_ne hij).trans hj)

/-- What holds of the party of a turn after it, and of the others still, holds of all. -/
theorem holds_set {β : Type*} {P : β → Prop} {parties : List β} {i : Nat} {p' : β} (hown : P p')
    (hothers : ∀ (j : Nat) (q : β), j ≠ i → parties[j]? = some q → P q) (j : Nat) (q : β)
    (h : (parties.set i p')[j]? = some q) : P q := by
  rcases getElem?_set_cases h with ⟨_, heq⟩ | ⟨hne, hold⟩
  · rw [heq]
    exact hown
  · exact hothers j q hne hold

end interleaving
