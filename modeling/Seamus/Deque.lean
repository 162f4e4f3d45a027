-- `lib/deque.h`: the inclusive bounds of the live window, the pushes and the pops at both
-- ends, and the region that takes the place of a full one. A step with an index outside of the
-- region, or that constructs or destroys a slot out of turn, gives no deque.
import Seamus.Library.Slots

namespace seamus.deque

open slots

variable {T : Type}

/-! ## The source functions -/

def initAllocSize : Nat := 9

structure Deque (T : Type) where
  alloc_region : Region T
  deque_capacity : Nat
  deque_size : Nat
  deque_left : Nat
  deque_right : Nat

/-- The default constructor. -/
def mk : Deque T where
  alloc_region := raw T initAllocSize
  deque_capacity := initAllocSize
  deque_size := 0
  deque_left := (initAllocSize - 1) / 2
  deque_right := (initAllocSize - 1) / 2

def size (d : Deque T) : Nat := d.deque_size

def empty (d : Deque T) : Bool := d.deque_size == 0

def front (d : Deque T) : Option T := read d.alloc_region d.deque_left

def back (d : Deque T) : Option T := read d.alloc_region d.deque_right

/-- `operator[]`. -/
def at_ (d : Deque T) (i : Nat) : Option T := read d.alloc_region (d.deque_left + i)

/-- The loop of `realloc_`: each of the next `count` objects is moved to the new region, then
destroyed in the old one. -/
def moveAll : Nat → (ptr new_alloc_ptr : Nat) → Region T → Region T → Option (Region T × Region T)
  | 0, _, _, old, new => some (old, new)
  | count + 1, ptr, new_alloc_ptr, old, new => do
    let value ← read old ptr
    let new ← construct new new_alloc_ptr value
    let old ← destroy old ptr
    moveAll count (ptr + 1) (new_alloc_ptr + 1) old new

def realloc_ (d : Deque T) : Option (Deque T) := do
  let padding_size := d.deque_size / 2 + 1
  let new_deque_capacity := 2 * padding_size + d.deque_size
  let (_, new_alloc_region) ← moveAll (d.deque_right + 1 - d.deque_left) d.deque_left padding_size
    d.alloc_region (raw T new_deque_capacity)
  pure { alloc_region := new_alloc_region
         deque_capacity := new_deque_capacity
         deque_size := d.deque_size
         deque_left := padding_size
         deque_right := padding_size + d.deque_size - 1 }

/-- Both overloads: a copied and a moved value end up in the same slot. -/
def pushBack (d : Deque T) (val : T) : Option (Deque T) := do
  if empty d then
    let region ← construct d.alloc_region d.deque_left val
    pure { d with alloc_region := region, deque_size := d.deque_size + 1 }
  else
    let d ← if d.deque_right = d.deque_capacity - 1 then realloc_ d else pure d
    let region ← construct d.alloc_region (d.deque_right + 1) val
    pure { d with
      alloc_region := region, deque_right := d.deque_right + 1, deque_size := d.deque_size + 1 }

def pushFront (d : Deque T) (val : T) : Option (Deque T) := do
  if empty d then
    let region ← construct d.alloc_region d.deque_left val
    pure { d with alloc_region := region, deque_size := d.deque_size + 1 }
  else
    let d ← if d.deque_left = 0 then realloc_ d else pure d
    let region ← construct d.alloc_region (d.deque_left - 1) val
    pure { d with
      alloc_region := region, deque_left := d.deque_left - 1, deque_size := d.deque_size + 1 }

def popBack (d : Deque T) : Option (Deque T) := do
  -- `assert(!empty())`
  if empty d then none
  let region ← destroy d.alloc_region d.deque_right
  if d.deque_left = d.deque_right then
    pure { d with alloc_region := region, deque_size := d.deque_size - 1 }
  else
    pure { d with
      alloc_region := region, deque_right := d.deque_right - 1, deque_size := d.deque_size - 1 }

def popFront (d : Deque T) : Option (Deque T) := do
  if empty d then none
  let region ← destroy d.alloc_region d.deque_left
  if d.deque_left = d.deque_right then
    pure { d with alloc_region := region, deque_size := d.deque_size - 1 }
  else
    pure { d with
      alloc_region := region, deque_left := d.deque_left + 1, deque_size := d.deque_size - 1 }

/-- The loops that destroy what is live. -/
def destroyAll : Nat → (ptr : Nat) → Region T → Option (Region T)
  | 0, _, region => some region
  | count + 1, ptr, region => (destroy region ptr).bind fun region => destroyAll count (ptr + 1) region

/-- The destructor, up to where it gives the region back. -/
def destruct (d : Deque T) : Option (Region T) :=
  if empty d then some d.alloc_region
  else destroyAll (d.deque_right + 1 - d.deque_left) d.deque_left d.alloc_region

/-! ## Runs -/

inductive Op (T : Type) where
  | pushBack (val : T)
  | pushFront (val : T)
  | popBack
  | popFront

def step (d : Deque T) : Op T → Option (Deque T)
  | .pushBack val => pushBack d val
  | .pushFront val => pushFront d val
  | .popBack => popBack d
  | .popFront => popFront d

def run : Deque T → List (Op T) → Option (Deque T)
  | d, [] => some d
  | d, op :: ops => (step d op).bind fun d => run d ops

/-- The list that a deque stands for; a pop of an empty one is not allowed. -/
def listStep (xs : List T) : Op T → Option (List T)
  | .pushBack val => some (xs ++ [val])
  | .pushFront val => some (val :: xs)
  | .popBack => if xs = [] then none else some xs.dropLast
  | .popFront => if xs = [] then none else some xs.tail

def listRun : List T → List (Op T) → Option (List T)
  | xs, [] => some xs
  | xs, op :: ops => (listStep xs op).bind fun xs => listRun xs ops

/-! ## The invariant -/

/-- The live slots hold `xs`, with `r` slots without an object behind them. Both bounds are
inclusive: without an element they meet on a slot that is there but not live. -/
structure Holds (d : Deque T) (xs : List T) (r : Nat) : Prop where
  region : d.alloc_region = window d.deque_left xs r
  capacity : d.deque_capacity = d.deque_left + xs.length + r
  size : d.deque_size = xs.length
  right : d.deque_right = d.deque_left + (xs.length - 1)
  spare : xs = [] → 0 < r

theorem holds_mk : Holds (mk : Deque T) [] 5 :=
  ⟨raw_eq_window 4 5, rfl, rfl, rfl, fun _ => by decide⟩

section Steps

variable {d : Deque T} {xs : List T} {r : Nat}

theorem Holds.empty_iff (h : Holds d xs r) : empty d = true ↔ xs = [] := by
  simp [empty, h.size]

/-- A region with more than the bounds of its objects. -/
theorem Holds.length (h : Holds d xs r) : d.alloc_region.length = d.deque_capacity := by
  rw [h.region, window_length, h.capacity]

/-! ### The new region -/

/-- The bounds, inclusive as they are, hold as many slots as there are objects. -/
theorem Holds.count (h : Holds d xs r) (hne : xs ≠ []) :
    d.deque_right + 1 - d.deque_left = xs.length := by
  have hpos := List.length_pos_iff.mpr hne
  rw [h.right]
  omega

/-- `done` stands for what the loop has moved so far. -/
theorem moveAll_window (done xs : List T) (l n r m : Nat) :
    moveAll xs.length l (n + done.length) (window l xs r) (window n done (xs.length + m)) =
      some (window (l + xs.length) [] r, window n (done ++ xs) m) := by
  induction xs generalizing done l with
  | nil => simp [moveAll]
  | cons x xs ih =>
    have hread : read (window l (x :: xs) r) l = some x :=
      read_window l (x :: xs) r (Nat.succ_pos xs.length)
    have hroom : (x :: xs).length + m = xs.length + m + 1 := Nat.add_right_comm _ _ _
    rw [List.length_cons, moveAll, hread]
    rw [List.length_cons] at hroom
    simp only [Option.bind_eq_bind, Option.bind_some]
    rw [hroom, construct_back n done _ x rfl, Option.bind_some, destroy_front, Option.bind_some]
    have hrest := ih (done ++ [x]) (l + 1)
    rw [List.length_append, List.length_singleton, ← Nat.add_assoc, List.append_assoc] at hrest
    rw [hrest, Nat.add_right_comm, ← Nat.add_assoc]
    rfl

/-- The region that takes the place of one with `xs`. -/
def recentred (xs : List T) : Deque T where
  alloc_region := window (xs.length / 2 + 1) xs (xs.length / 2 + 1)
  deque_capacity := 2 * (xs.length / 2 + 1) + xs.length
  deque_size := xs.length
  deque_left := xs.length / 2 + 1
  deque_right := xs.length / 2 + 1 + xs.length - 1

theorem recentred_holds (hne : xs ≠ []) : Holds (recentred xs) xs (xs.length / 2 + 1) := by
  have hpos := List.length_pos_iff.mpr hne
  refine ⟨rfl, ?_, rfl, ?_, fun hnil => absurd hnil hne⟩
  · simp only [recentred]
    omega
  · simp only [recentred]
    omega

theorem Holds.realloc (h : Holds d xs r) (hne : xs ≠ []) : realloc_ d = some (recentred xs) := by
  have hnew : raw T (2 * (xs.length / 2 + 1) + xs.length) =
      window (xs.length / 2 + 1) [] (xs.length + (xs.length / 2 + 1)) := by
    rw [← raw_eq_window]
    congr 1
    omega
  have hmove := moveAll_window [] xs d.deque_left (xs.length / 2 + 1) r (xs.length / 2 + 1)
  rw [List.length_nil, Nat.add_zero, List.nil_append] at hmove
  rw [realloc_, h.count hne, h.region, h.size, hnew, hmove]
  rfl

/-! ### The pushes -/

/-- Both pushes fill the slot of the bounds of an empty deque. -/
theorem Holds.first (h : Holds d [] r) (val : T) :
    ∃ region, construct d.alloc_region d.deque_left val = some region ∧
      Holds { d with alloc_region := region, deque_size := d.deque_size + 1 } [val] (r - 1) := by
  obtain ⟨r, rfl⟩ := Nat.exists_eq_add_one.mpr (h.spare rfl)
  have hcapacity := h.capacity
  have hfirst : construct d.alloc_region d.deque_left val = some (window d.deque_left [val] r) := by
    rw [h.region]
    exact construct_back d.deque_left [] r val rfl
  refine ⟨_, hfirst, rfl, ?_, ?_, h.right, fun hnil => absurd hnil (List.cons_ne_nil val [])⟩
  · simp only [List.length_nil, List.length_singleton, Nat.add_sub_cancel] at hcapacity ⊢
    omega
  · simp only [h.size, List.length_nil, List.length_singleton]

/-- A push behind the objects where a slot is left. -/
theorem Holds.append (h : Holds d xs (r + 1)) (hne : xs ≠ []) (val : T) :
    ∃ region, construct d.alloc_region (d.deque_right + 1) val = some region ∧
      Holds { d with alloc_region := region, deque_right := d.deque_right + 1,
                     deque_size := d.deque_size + 1 } (xs ++ [val]) r := by
  have hpos := List.length_pos_iff.mpr hne
  have hback : d.deque_left + xs.length = d.deque_right + 1 := by rw [h.right]; omega
  rw [h.region, construct_back d.deque_left xs r val hback]
  have hcapacity := h.capacity
  refine ⟨_, rfl, rfl, ?_, ?_, ?_, fun hnil => absurd hnil (by simp)⟩
  · simp only [List.length_append, List.length_singleton]
    omega
  · simp only [h.size, List.length_append, List.length_singleton]
  · simp only [List.length_append, List.length_singleton]
    exact hback.symm

/-- A push before the objects where a slot is left. -/
theorem Holds.prepend {l : Nat} (h : Holds d xs r) (hl : d.deque_left = l + 1) (hne : xs ≠ [])
    (val : T) :
    ∃ region, construct d.alloc_region (d.deque_left - 1) val = some region ∧
      Holds { d with alloc_region := region, deque_left := d.deque_left - 1,
                     deque_size := d.deque_size + 1 } (val :: xs) r := by
  have hpos := List.length_pos_iff.mpr hne
  have hcapacity := h.capacity
  have hright := h.right
  rw [h.region, hl, Nat.add_sub_cancel, construct_front]
  refine ⟨_, rfl, rfl, ?_, ?_, ?_, fun hnil => absurd hnil (List.cons_ne_nil val xs)⟩
  · simp only [List.length_cons]
    omega
  · simp only [h.size, List.length_cons]
  · simp only [List.length_cons]
    omega

theorem Holds.pushBack (h : Holds d xs r) (val : T) :
    ∃ d' r', pushBack d val = some d' ∧ Holds d' (xs ++ [val]) r' := by
  unfold deque.pushBack
  by_cases hnil : xs = []
  · subst hnil
    obtain ⟨region, hregion, hholds⟩ := h.first val
    rw [if_pos (h.empty_iff.mpr rfl), hregion]
    exact ⟨_, _, rfl, hholds⟩
  · rw [if_neg (mt h.empty_iff.mp hnil)]
    have hpos := List.length_pos_iff.mpr hnil
    have hcapacity := h.capacity
    have hright := h.right
    by_cases hfull : d.deque_right = d.deque_capacity - 1
    · rw [if_pos hfull, h.realloc hnil]
      obtain ⟨region, hregion, hholds⟩ := (recentred_holds hnil).append hnil val
      simp only [Option.bind_eq_bind, Option.bind_some, hregion]
      exact ⟨_, _, rfl, hholds⟩
    · rw [if_neg hfull]
      obtain ⟨r, rfl⟩ := Nat.exists_eq_add_one.mpr (show 0 < r by omega)
      obtain ⟨region, hregion, hholds⟩ := h.append hnil val
      simp only [Option.bind_eq_bind, Option.pure_def, Option.bind_some, hregion]
      exact ⟨_, _, rfl, hholds⟩

theorem Holds.pushFront (h : Holds d xs r) (val : T) :
    ∃ d' r', pushFront d val = some d' ∧ Holds d' (val :: xs) r' := by
  unfold deque.pushFront
  by_cases hnil : xs = []
  · subst hnil
    obtain ⟨region, hregion, hholds⟩ := h.first val
    rw [if_pos (h.empty_iff.mpr rfl), hregion]
    exact ⟨_, _, rfl, hholds⟩
  · rw [if_neg (mt h.empty_iff.mp hnil)]
    by_cases hfull : d.deque_left = 0
    · rw [if_pos hfull, h.realloc hnil]
      obtain ⟨region, hregion, hholds⟩ := (recentred_holds hnil).prepend rfl hnil val
      simp only [Option.bind_eq_bind, Option.bind_some, hregion]
      exact ⟨_, _, rfl, hholds⟩
    · rw [if_neg hfull]
      obtain ⟨l, hl⟩ := Nat.exists_eq_add_one.mpr (Nat.pos_of_ne_zero hfull)
      obtain ⟨region, hregion, hholds⟩ := h.prepend hl hnil val
      simp only [Option.bind_eq_bind, Option.pure_def, Option.bind_some, hregion]
      exact ⟨_, _, rfl, hholds⟩

/-! ### The pops -/

theorem Holds.popBack (h : Holds d xs r) (hne : xs ≠ []) :
    ∃ d' r', popBack d = some d' ∧ Holds d' xs.dropLast r' := by
  obtain ⟨rest, last, rfl⟩ := List.eq_nil_or_concat' xs |>.resolve_left hne
  have hback : d.deque_left + rest.length = d.deque_right := by
    rw [h.right, List.length_append, List.length_singleton, Nat.add_sub_cancel]
  have hcapacity := h.capacity
  rw [List.length_append, List.length_singleton] at hcapacity
  unfold deque.popBack
  rw [if_neg (mt h.empty_iff.mp hne), h.region, destroy_back _ rest r last hback,
    List.dropLast_concat]
  simp only [Option.bind_eq_bind, Option.bind_some]
  by_cases hone : d.deque_left = d.deque_right
  · -- the bounds stay together on the slot of the last object
    rw [if_pos hone]
    have hnil : rest.length = 0 := by omega
    refine ⟨_, r + 1, rfl, rfl, ?_, ?_, ?_, fun _ => Nat.succ_pos r⟩
    · simp only
      omega
    · rw [h.size, List.length_append, List.length_singleton, Nat.add_sub_cancel]
    · rw [hnil]
      exact hone.symm
  · rw [if_neg hone]
    refine ⟨_, r + 1, rfl, rfl, ?_, ?_, ?_, fun _ => Nat.succ_pos r⟩
    · simp only
      omega
    · rw [h.size, List.length_append, List.length_singleton, Nat.add_sub_cancel]
    · simp only
      omega

theorem Holds.popFront (h : Holds d xs r) (hne : xs ≠ []) :
    ∃ d' r', popFront d = some d' ∧ Holds d' xs.tail r' := by
  obtain ⟨first, rest, rfl⟩ := List.exists_cons_of_ne_nil hne
  have hright := h.right
  have hcapacity := h.capacity
  rw [List.length_cons, Nat.add_sub_cancel] at hright
  rw [List.length_cons] at hcapacity
  unfold deque.popFront
  rw [if_neg (mt h.empty_iff.mp hne), h.region, destroy_front, List.tail_cons]
  simp only [Option.bind_eq_bind, Option.bind_some]
  by_cases hone : d.deque_left = d.deque_right
  · rw [if_pos hone]
    obtain rfl : rest = [] := List.eq_nil_of_length_eq_zero (by omega)
    -- the bounds stay where they are, and the slot between them is free again
    refine ⟨_, r + 1, rfl, window_nil _ _ (Nat.add_right_comm _ _ _), ?_, ?_, hright,
      fun _ => Nat.succ_pos r⟩
    · simp only [List.length_nil] at hcapacity ⊢
      omega
    · simp only [h.size, List.length_singleton, List.length_nil, Nat.sub_self]
  · rw [if_neg hone]
    refine ⟨_, r, rfl, rfl, ?_, ?_, ?_, fun hnil => ?_⟩
    · simp only
      omega
    · rw [h.size, List.length_cons, Nat.add_sub_cancel]
    · simp only
      omega
    · rw [hnil] at hright
      exact absurd hright.symm hone

/-! ### What is read, and the destructor -/

theorem Holds.at_eq (h : Holds d xs r) {i : Nat} (hi : i < xs.length) : at_ d i = xs[i]? := by
  rw [at_, h.region, read_window _ _ _ hi]

theorem destroyAll_window (xs : List T) (l r : Nat) :
    destroyAll xs.length l (window l xs r) = some (raw T (l + xs.length + r)) := by
  induction xs generalizing l with
  | nil =>
    rw [List.length_nil, Nat.add_zero, raw_eq_window]
    rfl
  | cons x xs ih =>
    rw [List.length_cons, destroyAll, destroy_front, Option.bind_some, ih, Nat.add_right_comm l 1,
      ← Nat.add_assoc l]

theorem Holds.destruct (h : Holds d xs r) : destruct d = some (raw T d.deque_capacity) := by
  unfold deque.destruct
  by_cases hnil : xs = []
  · subst hnil
    rw [if_pos (h.empty_iff.mpr rfl), h.region, h.capacity, List.length_nil, Nat.add_zero,
      raw_eq_window]
  · rw [if_neg (mt h.empty_iff.mp hnil), h.count hnil, h.region, destroyAll_window, h.capacity]

/-- What a reader of the deque sees is the list `xs`. -/
structure Shows (d : Deque T) (xs : List T) : Prop where
  size : size d = xs.length
  empty : empty d = xs.isEmpty
  front : xs ≠ [] → front d = xs.head?
  back : xs ≠ [] → back d = xs.getLast?
  at_ : ∀ i < xs.length, at_ d i = xs[i]?

theorem Holds.shows (h : Holds d xs r) : Shows d xs where
  size := h.size
  empty := by rw [Bool.eq_iff_iff, h.empty_iff, List.isEmpty_iff]
  front hne := by
    have hfirst := h.at_eq (List.length_pos_iff.mpr hne)
    rwa [← List.head?_eq_getElem?] at hfirst
  back hne := by
    have hpos := List.length_pos_iff.mpr hne
    have hlast := h.at_eq (show xs.length - 1 < xs.length by omega)
    rwa [deque.at_, ← h.right, ← List.getLast?_eq_getElem?] at hlast
  at_ _ hi := h.at_eq hi

end Steps

/-! ## Every run -/

theorem Holds.step {d : Deque T} {xs xs' : List T} {r : Nat} (h : Holds d xs r) (op : Op T)
    (hop : listStep xs op = some xs') : ∃ d' r', step d op = some d' ∧ Holds d' xs' r' := by
  cases op with
  | pushBack val =>
    obtain rfl := Option.some.inj hop
    exact h.pushBack val
  | pushFront val =>
    obtain rfl := Option.some.inj hop
    exact h.pushFront val
  | popBack =>
    rw [listStep, Option.ite_none_left_eq_some] at hop
    obtain ⟨hne, hxs⟩ := hop
    obtain rfl := Option.some.inj hxs
    exact h.popBack hne
  | popFront =>
    rw [listStep, Option.ite_none_left_eq_some] at hop
    obtain ⟨hne, hxs⟩ := hop
    obtain rfl := Option.some.inj hxs
    exact h.popFront hne

theorem Holds.run {d : Deque T} {xs xs' : List T} {r : Nat} (h : Holds d xs r) (ops : List (Op T))
    (hops : listRun xs ops = some xs') : ∃ d' r', run d ops = some d' ∧ Holds d' xs' r' := by
  induction ops generalizing d xs r with
  | nil =>
    obtain rfl := Option.some.inj hops
    exact ⟨d, r, rfl, h⟩
  | cons op ops ih =>
    obtain ⟨ys, hop, hrest⟩ := Option.bind_eq_some_iff.mp hops
    obtain ⟨d', r', hstep, hholds⟩ := h.step op hop
    rw [deque.run, hstep, Option.bind_some]
    exact ih hholds hrest

/-- After every run of pushes and of pops of what is there, the deque shows the list, a new
region for it would hold it with room on both sides, and the destructor finds what is live. -/
theorem deque_refines_list (ops : List (Op T)) (xs : List T) (h : listRun [] ops = some xs) :
    ∃ d, run mk ops = some d ∧ Shows d xs ∧
      (xs ≠ [] → ∃ d', realloc_ d = some d' ∧ Shows d' xs ∧ 0 < d'.deque_left ∧
        d'.deque_right + 1 < d'.alloc_region.length) ∧
      destruct d = some (raw T d.deque_capacity) := by
  obtain ⟨d, r, hrun, hholds⟩ := holds_mk.run ops h
  refine ⟨d, hrun, hholds.shows, fun hne => ?_, hholds.destruct⟩
  have hnew := recentred_holds hne
  refine ⟨_, hholds.realloc hne, hnew.shows, Nat.succ_pos _, ?_⟩
  rw [hnew.length, hnew.capacity, hnew.right]
  have hpos := List.length_pos_iff.mpr hne
  omega

theorem front_and_back_pushed :
    ∃ d, run mk [Op.pushBack 1, .pushFront 2, .pushBack 3, .popFront] = some d ∧
      Shows d [1, 3] ∧
      ([1, 3] ≠ [] → ∃ d', realloc_ d = some d' ∧ Shows d' [1, 3] ∧ 0 < d'.deque_left ∧
        d'.deque_right + 1 < d'.alloc_region.length) ∧
      destruct d = some (raw Nat d.deque_capacity) :=
  deque_refines_list [Op.pushBack 1, .pushFront 2, .pushBack 3, .popFront] [1, 3] rfl

end seamus.deque
