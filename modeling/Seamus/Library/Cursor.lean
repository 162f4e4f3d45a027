-- A cursor that only moves forward over a list: the entry where it stands and those ahead of
-- it. A search passes over the entries without a property. What a cursor has not passed of the
-- entries that are still wanted is the invariant of every search for them.
import Mathlib.Data.List.Infix

namespace cursor

variable {α : Type*}

structure Cursor (α : Type*) where
  current : α
  ahead : List α

/-- What the cursor has not passed. -/
def Cursor.left (c : Cursor α) : List α := c.current :: c.ahead

/-- Forward to the first entry with the property, or to the last entry. -/
def seekFrom (p : α → Bool) : α → List α → Cursor α
  | a, [] => ⟨a, []⟩
  | a, b :: l => if p a then ⟨a, b :: l⟩ else seekFrom p b l

def Cursor.seek (p : α → Bool) (c : Cursor α) : Cursor α := seekFrom p c.current c.ahead

/-! ## One search -/

theorem seekFrom_of_pos {p : α → Bool} {a : α} (l : List α) (h : p a = true) :
    seekFrom p a l = ⟨a, l⟩ := by
  cases l with
  | nil => rfl
  | cons b l => rw [seekFrom, if_pos h]

theorem seekFrom_of_neg {p : α → Bool} {a : α} (b : α) (l : List α) (h : p a = false) :
    seekFrom p a (b :: l) = seekFrom p b l := by
  rw [seekFrom, if_neg (by rw [h]; exact Bool.false_ne_true)]

theorem Cursor.seek_of_pos {p : α → Bool} {c : Cursor α} (h : p c.current = true) :
    c.seek p = c :=
  seekFrom_of_pos c.ahead h

theorem seekFrom_suffix (p : α → Bool) (a : α) (l : List α) :
    (seekFrom p a l).left <:+ a :: l := by
  induction l generalizing a with
  | nil => exact List.suffix_refl _
  | cons b l ih =>
    cases h : p a with
    | true =>
      rw [seekFrom_of_pos _ h]
      exact List.suffix_refl _
    | false =>
      rw [seekFrom_of_neg _ _ h]
      exact (ih b).trans (List.suffix_cons a _)

/-- A search passes no entry that is wanted, if every wanted entry has the property. -/
theorem seekFrom_filter {p q : α → Bool} (h : ∀ x, q x = true → p x = true) (a : α) (l : List α) :
    (seekFrom p a l).left.filter q = (a :: l).filter q := by
  induction l generalizing a with
  | nil => rfl
  | cons b l ih =>
    cases hp : p a with
    | true =>
      rw [seekFrom_of_pos _ hp]
      rfl
    | false =>
      have hq : q a = false := by
        by_contra hq
        rw [h a (Bool.not_eq_false _ ▸ hq)] at hp
        cases hp
      rw [seekFrom_of_neg _ _ hp, ih b, List.filter_cons_of_neg (a := a) (by simp [hq])]

theorem seekFrom_none {p : α → Bool} {a : α} {l : List α}
    (h : p (seekFrom p a l).current = false) : ∀ x ∈ a :: l, p x = false := by
  induction l generalizing a with
  | nil =>
    intro x hx
    rw [List.mem_singleton.mp hx]
    exact h
  | cons b l ih =>
    cases hp : p a with
    | true =>
      rw [seekFrom_of_pos _ hp] at h
      exact absurd (hp.symm.trans h) (by decide)
    | false =>
      rw [seekFrom_of_neg _ _ hp] at h
      exact List.forall_mem_cons.mpr ⟨hp, ih h⟩

/-- In a list that has the entries with a property first, the walk over them takes them all. -/
theorem takeWhile_eq_filter {p : α → Bool} {r : α → α → Prop} {l : List α} (hsorted : l.Pairwise r)
    (hdown : ∀ x y, r x y → p y = true → p x = true) : l.takeWhile p = l.filter p := by
  induction l with
  | nil => rfl
  | cons a l ih =>
    obtain ⟨hhead, htail⟩ := List.pairwise_cons.mp hsorted
    by_cases hp : p a = true
    · rw [List.takeWhile_cons_of_pos hp, List.filter_cons_of_pos hp, ih htail]
    · rw [List.takeWhile_cons_of_neg hp, List.filter_cons_of_neg hp, eq_comm,
        List.filter_eq_nil_iff]
      exact fun x hx hpx => hp (hdown a x (hhead x hx) hpx)

/-! ## A cursor over a list -/

/-- The cursor stands in the list, and has passed no entry of it that is wanted. -/
structure Follows (whole : List α) (wanted : α → Bool) (c : Cursor α) : Prop where
  suffix : c.left <:+ whole
  keeps : c.left.filter wanted = whole.filter wanted

theorem follows_start (wanted : α → Bool) (a : α) (l : List α) :
    Follows (a :: l) wanted ⟨a, l⟩ :=
  ⟨List.suffix_refl _, rfl⟩

section Search

variable {whole : List α} {p q : α → Bool} {c : Cursor α}

/-- Fewer entries are wanted. -/
theorem Follows.mono (h : Follows whole p c) (hsub : ∀ x, q x = true → p x = true) :
    Follows whole q c := by
  have hfilter (l : List α) : (l.filter p).filter q = l.filter q := by
    rw [List.filter_filter]
    refine List.filter_congr fun x _ => ?_
    cases hq : q x with
    | true => rw [hsub x hq, Bool.and_self]
    | false => rw [Bool.false_and]
  refine ⟨h.suffix, ?_⟩
  rw [← hfilter, h.keeps, hfilter]

theorem Follows.seek (h : Follows whole q c) (hsub : ∀ x, q x = true → p x = true) :
    Follows whole q (c.seek p) := by
  refine ⟨(seekFrom_suffix p c.current c.ahead).trans h.suffix, ?_⟩
  rw [← h.keeps]
  exact seekFrom_filter hsub c.current c.ahead

/-- Nothing that is wanted is left. -/
theorem Follows.none (h : Follows whole p c) (hnone : p (c.seek p).current = false) :
    whole.filter p = [] := by
  rw [← h.keeps, List.filter_eq_nil_iff]
  intro x hx
  rw [seekFrom_none hnone x hx]
  exact Bool.false_ne_true

variable {r : α → α → Prop}

/-- In an ordered list, what is left after a wanted entry is wanted. -/
theorem Follows.found (h : Follows whole p c) (hsorted : whole.Pairwise r)
    (hup : ∀ x y, r x y → p x = true → p y = true) (hfound : p c.current = true) :
    c.left = whole.filter p := by
  have hleft := List.pairwise_cons.mp (hsorted.sublist h.suffix.sublist)
  rw [← h.keeps, eq_comm, List.filter_eq_self]
  exact List.forall_mem_cons.mpr ⟨hfound, fun x hx => hup _ _ (hleft.1 x hx) hfound⟩

end Search

end cursor
