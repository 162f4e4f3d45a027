-- Runs that may stop at a fault: under which condition they come to a result, and to which one.
import Mathlib.Data.Prod.Basic

namespace faults

variable {ε α β : Type} {e : ε} {P Q : Prop} {x : Except ε α} {y : α} {f : α → Except ε β} {z : β}

@[simp] theorem ok_bind (a : α) (f : α → Except ε β) : (Except.ok a : Except ε α) >>= f = f a := rfl

@[simp] theorem error_bind (e : ε) (f : α → Except ε β) :
    (Except.error e : Except ε α) >>= f = .error e := rfl

@[simp] theorem pure_eq_ok (a : α) : (pure a : Except ε α) = .ok a := rfl

/-- Where `P` holds, the run ends with `y`, and where it does not, it stops at `e`. -/
inductive Settles (e : ε) (P : Prop) (x : Except ε α) (y : α) : Prop
  | fine (holds : P) (runs : x = .ok y)
  | stopped (fails : ¬P) (stops : x = .error e)

theorem Settles.of_eq (h : x = .ok y) : Settles e True x y := .fine trivial h

theorem Settles.congr (h : Settles e P x y) (hpq : P ↔ Q) : Settles e Q x y := by
  cases h with
  | fine holds runs => exact .fine (hpq.mp holds) runs
  | stopped fails stops => exact .stopped (mt hpq.mpr fails) stops

/-- One run after the other: both conditions are asked, the second where the first one holds. -/
theorem Settles.bind (hx : Settles e P x y) (hf : P → Settles e Q (f y) z) :
    Settles e (P ∧ Q) (x >>= f) z := by
  cases hx with
  | fine holds runs =>
    rw [runs, ok_bind]
    exact (hf holds).congr (and_iff_right holds).symm
  | stopped fails stops =>
    rw [stops, error_bind]
    exact .stopped (fun h => fails h.1) rfl

/-- A run after which nothing stops. -/
theorem Settles.bind_ok (hx : Settles e P x y) (hf : P → f y = .ok z) :
    Settles e P (x >>= f) z :=
  (hx.bind fun h => .of_eq (hf h)).congr (and_iff_left trivial)

theorem Settles.ok_iff (h : Settles e P x y) : (∃ a, x = .ok a) ↔ P := by
  cases h with
  | fine holds runs => exact iff_of_true ⟨y, runs⟩ holds
  | stopped fails stops =>
    refine iff_of_false ?_ fails
    rintro ⟨a, ha⟩
    rw [stops] at ha
    cases ha

theorem Settles.ne_error {e' : ε} (h : Settles e P x y) (hne : e ≠ e') : x ≠ .error e' := by
  cases h with
  | fine holds runs => rw [runs]; intro heq; cases heq
  | stopped fails stops => rw [stops]; intro heq; cases heq; exact hne rfl

/-! ## Runs with a postcondition -/

variable {Q' : α → Prop} {R : β → Prop}

/-- The run ends, with a result that meets the postcondition. -/
def Ends (x : Except ε α) (Q : α → Prop) : Prop := ∃ y, x = .ok y ∧ Q y

theorem ends_ok {Q : α → Prop} (hy : Q y) : Ends (.ok y : Except ε α) Q := ⟨y, rfl, hy⟩

theorem Ends.mono {Q : α → Prop} (h : Ends x Q) (himp : ∀ y, Q y → Q' y) : Ends x Q' := by
  obtain ⟨y, hrun, hy⟩ := h
  exact ⟨y, hrun, himp y hy⟩

theorem Ends.bind {Q : α → Prop} (hx : Ends x Q) (hf : ∀ y, Q y → Ends (f y) R) :
    Ends (x >>= f) R := by
  obtain ⟨y, hrun, hy⟩ := hx
  rw [hrun, ok_bind]
  exact hf y hy

/-- Where `P` holds, the run ends and meets the postcondition, and where it does not, it stops
at `e`. -/
inductive Leads (e : ε) (P : Prop) (Q : α → Prop) (x : Except ε α) : Prop
  | fine (holds : P) (ends : Ends x Q)
  | stopped (fails : ¬P) (stops : x = .error e)

theorem Ends.leads {Q : α → Prop} (h : Ends x Q) (e : ε) : Leads e True Q x := .fine trivial h

theorem Leads.congr {P' : Prop} {Q : α → Prop} (h : Leads e P Q x) (hp : P ↔ P') :
    Leads e P' Q x := by
  cases h with
  | fine holds ends => exact .fine (hp.mp holds) ends
  | stopped fails stops => exact .stopped (mt hp.mpr fails) stops

theorem Leads.bind {P' : Prop} {Q : α → Prop} (hx : Leads e P Q x)
    (hf : ∀ y, Q y → Leads e P' R (f y)) : Leads e (P ∧ P') R (x >>= f) := by
  cases hx with
  | fine holds ends =>
    obtain ⟨y, hrun, hy⟩ := ends
    rw [hrun, ok_bind]
    exact (hf y hy).congr (and_iff_right holds).symm
  | stopped fails stops =>
    rw [stops, error_bind]
    exact .stopped (fun h => fails h.1) rfl

/-- The run rule: a fold with faults beside a fold without them. -/
theorem Leads.foldlM {σ τ γ : Type} (Sim : σ → τ → Prop) (step : τ → γ → τ)
    {run : σ → γ → Except ε σ} {Fine : γ → Prop} {l : List γ}
    (hstep : ∀ s t, Sim s t → ∀ c ∈ l, Leads e (Fine c) (Sim · (step t c)) (run s c))
    {s : σ} {t : τ} (h : Sim s t) :
    Leads e (∀ c ∈ l, Fine c) (Sim · (l.foldl step t)) (l.foldlM run s) := by
  induction l generalizing s t with
  | nil => exact .fine (List.forall_mem_nil _) ⟨s, rfl, h⟩
  | cons c l ih =>
    rw [List.foldlM_cons, List.foldl_cons]
    have hrest (s' : σ) (hs' : Sim s' (step t c)) :
        Leads e (∀ c ∈ l, Fine c) (Sim · (l.foldl step (step t c))) (l.foldlM run s') :=
      ih (fun s t hsim c hc => hstep s t hsim c (List.mem_cons_of_mem _ hc)) hs'
    exact ((hstep s t h c List.mem_cons_self).bind hrest).congr List.forall_mem_cons.symm

end faults
