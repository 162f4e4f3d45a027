-- Lists whose elements belong together, place by place: pairs, triples, and pairs of which one
-- meets another condition than the rest.
import Mathlib.Data.List.Forall2

namespace aligned

variable {α β γ : Type} {R S : α → β → Prop}

theorem forall₂_mono {as : List α} {bs : List β} (h : List.Forall₂ R as bs)
    (himp : ∀ a ∈ as, ∀ b, R a b → S a b) : List.Forall₂ S as bs := by
  induction h with
  | nil => exact .nil
  | cons hab _ ih =>
    obtain ⟨hhead, htail⟩ := List.forall_mem_cons.mp himp
    exact .cons (hhead _ hab) (ih htail)

/-- Three lists whose elements belong together. -/
inductive Forall₃ (P : α → β → γ → Prop) : List α → List β → List γ → Prop
  | nil : Forall₃ P [] [] []
  | cons {a : α} {b : β} {d : γ} {as : List α} {bs : List β} {ds : List γ} (h : P a b d)
      (hs : Forall₃ P as bs ds) : Forall₃ P (a :: as) (b :: bs) (d :: ds)

theorem Forall₃.mono {P Q : α → β → γ → Prop} {as : List α} {bs : List β} {ds : List γ}
    (h : Forall₃ P as bs ds) (himp : ∀ a ∈ as, ∀ b, ∀ d ∈ ds, P a b d → Q a b d) :
    Forall₃ Q as bs ds := by
  induction h with
  | nil => exact .nil
  | cons habd _ ih =>
    refine .cons (himp _ List.mem_cons_self _ _ List.mem_cons_self habd) (ih ?_)
    exact fun a ha b d hd => himp a (List.mem_cons_of_mem _ ha) b d (List.mem_cons_of_mem _ hd)

theorem Forall₃.pairs {P : α → β → γ → Prop} {as : List α} {bs : List β} {ds : List γ}
    (h : Forall₃ P as bs ds) (himp : ∀ a ∈ as, ∀ b, ∀ d ∈ ds, P a b d → R a b) :
    List.Forall₂ R as bs := by
  induction h with
  | nil => exact .nil
  | cons habd _ ih =>
    refine .cons (himp _ List.mem_cons_self _ _ List.mem_cons_self habd) (ih ?_)
    exact fun a ha b d hd => himp a (List.mem_cons_of_mem _ ha) b d (List.mem_cons_of_mem _ hd)

theorem Forall₃.first {P : α → β → γ → Prop} {as : List α} {bs : List β} {ds : List γ}
    (h : Forall₃ P as bs ds) {a : α} (ha : a ∈ as) : ∃ b, ∃ d ∈ ds, P a b d := by
  induction h with
  | nil => cases ha
  | @cons a' b d as bs ds habd _ ih =>
    rcases List.mem_cons.mp ha with rfl | ha
    · exact ⟨b, d, List.mem_cons_self, habd⟩
    · obtain ⟨b', d', hd', h'⟩ := ih ha
      exact ⟨b', d', List.mem_cons_of_mem _ hd', h'⟩

theorem Forall₃.third {P : α → β → γ → Prop} {as : List α} {bs : List β} {ds : List γ}
    (h : Forall₃ P as bs ds) {d : γ} (hd : d ∈ ds) : ∃ a ∈ as, ∃ b, P a b d := by
  induction h with
  | nil => cases hd
  | @cons a b d' as bs ds habd _ ih =>
    rcases List.mem_cons.mp hd with rfl | hd
    · exact ⟨a, List.mem_cons_self, b, habd⟩
    · obtain ⟨a', ha', b', h'⟩ := ih hd
      exact ⟨a', List.mem_cons_of_mem _ ha', b', h'⟩

/-- The driver meets one condition and all others the other one. -/
inductive Driven (keep find : α → β → Prop) : Nat → List α → List β → Prop
  | here {a : α} {b : β} {as : List α} {bs : List β} (h : find a b)
      (hs : List.Forall₂ keep as bs) : Driven keep find 0 (a :: as) (b :: bs)
  | later {i : Nat} {a : α} {b : β} {as : List α} {bs : List β} (h : keep a b)
      (hs : Driven keep find i as bs) : Driven keep find (i + 1) (a :: as) (b :: bs)

variable {keep keep' find find' : α → β → Prop} {i : Nat} {as : List α} {bs : List β}

theorem Driven.driver (h : Driven keep find i as bs) :
    ∃ a b, as[i]? = some a ∧ bs[i]? = some b ∧ find a b := by
  induction h with
  | here h _ => exact ⟨_, _, rfl, rfl, h⟩
  | later _ _ ih => exact ih

theorem Driven.mono (h : Driven keep find i as bs) (hkeep : ∀ a ∈ as, ∀ b, keep a b → keep' a b)
    (hfind : ∀ a ∈ as, ∀ b, find a b → find' a b) : Driven keep' find' i as bs := by
  induction h with
  | here h hs =>
    refine .here (hfind _ List.mem_cons_self _ h) (forall₂_mono hs ?_)
    exact fun a ha => hkeep a (List.mem_cons_of_mem _ ha)
  | later h _ ih =>
    refine .later (hkeep _ List.mem_cons_self _ h) (ih ?_ ?_)
    · exact fun a ha => hkeep a (List.mem_cons_of_mem _ ha)
    · exact fun a ha => hfind a (List.mem_cons_of_mem _ ha)

theorem Driven.set (h : Driven keep find i as bs) {a : α} {b : β} (ha : as[i]? = some a)
    (hfind : find' a b) : Driven keep find' i as (bs.set i b) := by
  induction h with
  | here _ hs =>
    cases ha
    exact .here hfind hs
  | later h _ ih => exact .later h (ih ha)

theorem Driven.all (h : Driven keep find i as bs) (himp : ∀ a ∈ as, ∀ b, find a b → keep a b) :
    List.Forall₂ keep as bs := by
  induction h with
  | here h hs => exact .cons (himp _ List.mem_cons_self _ h) hs
  | later h _ ih => exact .cons h (ih fun a ha => himp a (List.mem_cons_of_mem _ ha))

theorem driven_of_all (h : List.Forall₂ keep as bs) {b : β} (hb : bs[i]? = some b)
    (hfind : ∀ a ∈ as, keep a b → find a b) : Driven keep find i as bs := by
  induction h generalizing i with
  | nil => cases hb
  | cons hab hs ih =>
    obtain ⟨hhead, htail⟩ := List.forall_mem_cons.mp hfind
    cases i with
    | zero =>
      cases hb
      exact .here (hhead hab) hs
    | succ i => exact .later hab (ih hb htail)

end aligned
