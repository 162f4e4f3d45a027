-- A doubly linked list whose nodes are linked by hand: the cells that `next` and `prev` point to,
-- and what a node taken out and a node put in make of a chain of them.
import Mathlib.Data.List.Chain
import Mathlib.Data.List.Nodup

namespace linked_list

abbrev Addr := Nat

structure Node (α : Type) where
  val : α
  prev : Addr
  next : Addr

/-- What stands at each address. -/
abbrev Cells (α : Type) := Addr → Node α

section Cells

variable {α : Type}

def setNext (cells : Cells α) (a b : Addr) : Cells α :=
  fun x => if x = a then { cells x with next := b } else cells x

def setPrev (cells : Cells α) (a b : Addr) : Cells α :=
  fun x => if x = a then { cells x with prev := b } else cells x

def store (cells : Cells α) (a : Addr) (node : Node α) : Cells α :=
  fun x => if x = a then node else cells x

/-- The links around a node skip it. -/
def unlink (cells : Cells α) (a : Addr) : Cells α :=
  let cells := setNext cells (cells a).prev (cells a).next
  setPrev cells (cells a).next (cells a).prev

/-- A node comes in behind `head`. -/
def linkBehind (cells : Cells α) (head a : Addr) : Cells α :=
  let cells := setNext cells a (cells head).next
  let cells := setPrev cells a head
  let cells := setPrev cells (cells head).next a
  setNext cells head a

/-- The addresses from `a` on, up to `last`. -/
def walk (cells : Cells α) (last : Addr) : Nat → Addr → List Addr
  | 0, _ => []
  | turns + 1, a => if a = last then [] else a :: walk cells last turns (cells a).next

/-! ## Single fields -/

variable (cells : Cells α) (a b x : Addr)

@[simp] theorem setNext_val : (setNext cells a b x).val = (cells x).val := by
  unfold setNext
  split <;> rfl

@[simp] theorem setNext_prev : (setNext cells a b x).prev = (cells x).prev := by
  unfold setNext
  split <;> rfl

@[simp] theorem setNext_next :
    (setNext cells a b x).next = if x = a then b else (cells x).next := by
  unfold setNext
  split <;> rfl

@[simp] theorem setPrev_val : (setPrev cells a b x).val = (cells x).val := by
  unfold setPrev
  split <;> rfl

@[simp] theorem setPrev_next : (setPrev cells a b x).next = (cells x).next := by
  unfold setPrev
  split <;> rfl

@[simp] theorem setPrev_prev :
    (setPrev cells a b x).prev = if x = a then b else (cells x).prev := by
  unfold setPrev
  split <;> rfl

@[simp] theorem unlink_val : (unlink cells a x).val = (cells x).val := by
  simp [unlink]

@[simp] theorem linkBehind_val : (linkBehind cells a b x).val = (cells x).val := by
  simp [linkBehind]

theorem store_of_ne {a x : Addr} (node : Node α) (h : x ≠ a) : store cells a node x = cells x :=
  if_neg h

@[simp] theorem store_self (node : Node α) : store cells a node a = node := if_pos rfl

/-! ## Chains -/

/-- Two neighbours point to each other. -/
def Linked (cells : Cells α) (a b : Addr) : Prop := (cells a).next = b ∧ (cells b).prev = a

/-- The nodes from the first to the last address, linked in both directions. -/
structure Chain (cells : Cells α) (addrs : List Addr) : Prop where
  linked : addrs.IsChain (Linked cells)
  nodup : addrs.Nodup

variable {cells : Cells α} {a b : Addr} {ls rs : List Addr}

/-- Cells that agree on the links of a chain. -/
theorem Chain.congr {cells' : Cells α} (h : Chain cells ls)
    (hsame : ∀ x ∈ ls, (cells' x).next = (cells x).next ∧ (cells' x).prev = (cells x).prev) :
    Chain cells' ls := by
  refine ⟨h.linked.imp_of_mem_imp fun x y hx hy hxy => ?_, h.nodup⟩
  exact ⟨(hsame x hx).1.trans hxy.1, (hsame y hy).2.trans hxy.2⟩

theorem Chain.linked_of_append (h : Chain cells (ls ++ a :: b :: rs)) : Linked cells a b :=
  (List.isChain_append_cons_cons.mp h.linked).2.1

/-- Two chains are one when the last node of the first and the first node of the second are
linked, and no other link changes. -/
theorem Chain.join {cells' : Cells α} (hl : Chain cells (ls ++ [a])) (hr : Chain cells (b :: rs))
    (hapart : ∀ x ∈ ls ++ [a], x ∉ b :: rs)
    (hnext : ∀ x, (cells' x).next = if x = a then b else (cells x).next)
    (hprev : ∀ x, (cells' x).prev = if x = b then a else (cells x).prev) :
    Chain cells' (ls ++ a :: b :: rs) := by
  obtain ⟨hls, -, hlast⟩ := List.isChain_append.mp hl.linked
  obtain ⟨hfirst, hrs⟩ := List.isChain_cons.mp hr.linked
  have hmem : ∀ x ∈ ls, x ∈ ls ++ [a] := fun x => List.mem_append_left [a]
  have ha : a ∈ ls ++ [a] := List.mem_append_right ls List.mem_cons_self
  have hnota : ∀ x ∈ ls, x ≠ a := by
    intro x hx hxa
    exact (List.nodup_append.mp hl.nodup).2.2 x hx a List.mem_cons_self hxa
  have hnotb : ∀ x ∈ ls ++ [a], x ≠ b := fun x hx hxb => hapart x hx (hxb ▸ List.mem_cons_self)
  have hleft : ∀ x ∈ ls, ∀ y ∈ ls ++ [a], Linked cells x y → Linked cells' x y := by
    intro x hx y hy hxy
    exact ⟨by rw [hnext, if_neg (hnota x hx), hxy.1], by rw [hprev, if_neg (hnotb y hy), hxy.2]⟩
  have hbnot : ∀ y ∈ rs, y ≠ b := by
    intro y hy hyb
    exact (List.nodup_cons.mp hr.nodup).1 (hyb ▸ hy)
  have hanot : ∀ x ∈ b :: rs, x ≠ a := fun x hx hxa => hapart a ha (hxa ▸ hx)
  have hright : ∀ x ∈ b :: rs, ∀ y ∈ rs, Linked cells x y → Linked cells' x y := by
    intro x hx y hy hxy
    exact ⟨by rw [hnext, if_neg (hanot x hx), hxy.1], by rw [hprev, if_neg (hbnot y hy), hxy.2]⟩
  constructor
  · apply List.isChain_append_cons_cons.mpr
    refine ⟨List.isChain_append.mpr ⟨?_, List.isChain_singleton a, ?_⟩, ?_,
      List.isChain_cons.mpr ⟨?_, ?_⟩⟩
    · exact hls.imp_of_mem_imp fun x y hx hy => hleft x hx y (hmem y hy)
    · intro x hx y hy
      have hxy := hlast x hx y hy
      obtain rfl : a = y := Option.some.inj hy
      exact hleft x (List.mem_of_getLast? hx) a ha hxy
    · exact ⟨by rw [hnext, if_pos rfl], by rw [hprev, if_pos rfl]⟩
    · intro y hy
      exact hright b List.mem_cons_self y (List.mem_of_mem_head? hy) (hfirst y hy)
    · exact hrs.imp_of_mem_imp fun x y hx hy => hright x (List.mem_cons_of_mem b hx) y hy
  · have hnodup : (ls ++ [a] ++ b :: rs).Nodup :=
      List.nodup_append.mpr ⟨hl.nodup, hr.nodup, fun x hx y hy hxy => hapart x hx (hxy ▸ hy)⟩
    rwa [List.append_assoc] at hnodup

theorem Chain.left (h : Chain cells (ls ++ rs)) : Chain cells ls :=
  ⟨h.linked.left_of_append, h.nodup.of_append_left⟩

theorem Chain.right (h : Chain cells (ls ++ rs)) : Chain cells rs :=
  ⟨h.linked.right_of_append, h.nodup.of_append_right⟩

theorem Chain.apart (h : Chain cells (ls ++ rs)) : ∀ x ∈ ls, x ∉ rs :=
  fun x hl hr => (List.nodup_append.mp h.nodup).2.2 x hl x hr rfl

/-- Where a node between two others is taken out, its neighbours are linked. -/
theorem Chain.unlink {n : Addr} (h : Chain cells (ls ++ n :: rs)) (hls : ls ≠ []) (hrs : rs ≠ []) :
    Chain (unlink cells n) (ls ++ rs) := by
  obtain ⟨ls, a, rfl⟩ := List.eq_nil_or_concat' ls |>.resolve_left hls
  obtain ⟨b, rs, rfl⟩ := List.exists_cons_of_ne_nil hrs
  have hprev : (cells n).prev = a := by
    rw [List.append_assoc] at h
    exact h.linked_of_append.2
  have hnext : (cells n).next = b := h.linked_of_append.1
  have hn : n ∉ ls ++ [a] := fun hn => h.apart n hn List.mem_cons_self
  have hna : n ≠ a := fun hna => hn (hna ▸ List.mem_append_right ls List.mem_cons_self)
  have hright : Chain cells (b :: rs) := Chain.right (show Chain cells ([n] ++ b :: rs) from h.right)
  rw [List.append_assoc]
  refine h.left.join hright (fun x hx hr => h.apart x hx (List.mem_cons_of_mem n hr))
    (fun x => ?_) (fun x => ?_)
  · simp [linked_list.unlink, hprev, hnext]
  · simp [linked_list.unlink, hprev, hnext, hna]

/-- A node that is not in a chain comes in behind its first one. -/
theorem Chain.linkBehind {head n : Addr} (h : Chain cells (head :: rs)) (hrs : rs ≠ [])
    (hn : n ∉ head :: rs) : Chain (linkBehind cells head n) (head :: n :: rs) := by
  obtain ⟨b, rs, rfl⟩ := List.exists_cons_of_ne_nil hrs
  obtain ⟨hfirst, hrest⟩ := List.isChain_cons_cons.mp h.linked
  obtain ⟨hhead, hnodup⟩ := List.nodup_cons.mp h.nodup
  have hsingle : ∀ (cells : Cells α) x, Chain cells [x] :=
    fun _ x => ⟨List.isChain_singleton x, List.nodup_singleton x⟩
  have hheadn : head ≠ n := fun hheadn => hn (hheadn ▸ List.mem_cons_self)
  have hb : b ≠ n := fun hb => hn (hb ▸ List.mem_cons_of_mem head List.mem_cons_self)
  have hbehind : Chain (setPrev (setNext cells n b) b n) (n :: b :: rs) := by
    show Chain _ ([] ++ n :: b :: rs)
    refine Chain.join (hsingle cells n) ⟨hrest, hnodup⟩ ?_ (fun x => by simp) (fun x => by simp)
    intro x hx hr
    obtain rfl := List.mem_singleton.mp hx
    exact hn (List.mem_cons_of_mem head hr)
  show Chain _ ([] ++ head :: n :: b :: rs)
  refine Chain.join (hsingle _ head) hbehind ?_ (fun x => ?_) (fun x => ?_)
  · intro x hx hr
    obtain rfl := List.mem_singleton.mp hx
    exact (List.mem_cons.mp hr).elim hheadn hhead
  · simp [linked_list.linkBehind, hfirst.1, hheadn]
  · simp only [linked_list.linkBehind, setNext_next, setPrev_prev, setPrev_next, setNext_prev,
      hfirst.1, if_neg hheadn]
    by_cases hxb : x = b
    · simp [hxb, hb]
    · simp [hxb]

theorem walk_eq {last : Addr} {addrs : List Addr} {turns : Nat}
    (h : Chain cells (a :: addrs ++ [last])) (hturns : addrs.length < turns) :
    walk cells last turns (cells a).next = addrs := by
  induction turns generalizing a addrs with
  | zero => omega
  | succ turns ih =>
    cases addrs with
    | nil =>
      rw [(List.isChain_cons_cons.mp h.linked).1.1, walk, if_pos rfl]
    | cons x addrs =>
      have hrest : Chain cells (x :: addrs ++ [last]) :=
        Chain.right (show Chain cells ([a] ++ (x :: addrs ++ [last])) from h)
      have hx : x ≠ last := by
        rintro rfl
        exact (List.nodup_cons.mp hrest.nodup).1 (List.mem_append_right _ List.mem_cons_self)
      rw [(List.isChain_cons_cons.mp h.linked).1.1, walk, if_neg hx,
        ih hrest (Nat.lt_of_succ_lt_succ hturns)]

end Cells

end linked_list
