-- `lib/unordered_map.h`: the probe loop, the growth and every operation of the table. What the
-- source throws or asserts is a fault, and so is a loop that has not ended after its turns.
import Mathlib.Algebra.Ring.Nat
import Mathlib.Data.List.Basic
import Mathlib.Logic.Function.Basic
import Seamus.Library.OpenAddressing

open open_addressing

namespace seamus.unordered_map

variable {Key Value : Type}

/-! ## The source functions -/

inductive Fault where
  /-- `throw std::runtime_error("Table Full")` -/
  | table_full
  /-- `assert(valid_capacity(new_cap))` -/
  | invalid_capacity
  /-- a loop that still runs -/
  | unended
  deriving DecidableEq

/-- The three arrays as one: a slot has its key and value only where its state is `FILLED`. -/
structure Map (Key Value : Type) where
  slots : Table Key Value
  mapCapacity : Nat
  uniqueKeys : Nat

def validCapacity (uniqueKeys capacity : Nat) : Bool :=
  capacity > uniqueKeys && capacity &&& (capacity - 1) == 0

/-- The constructor, with the default `loading_factor`. -/
def mk (capacity : Nat) : Except Fault (Map Key Value) :=
  if validCapacity 0 capacity then
    .ok { slots := List.replicate capacity .empty, mapCapacity := capacity, uniqueKeys := 0 }
  else .error .invalid_capacity

def isEmpty : Slot Key Value → Bool
  | .empty => true
  | _ => false

def isDeleted : Slot Key Value → Bool
  | .deleted => true
  | _ => false

def isFilled : Slot Key Value → Bool
  | .filled _ _ => true
  | _ => false

/-- `state == State::FILLED && compareEqual(keys[index], key)` -/
def holdsKey [DecidableEq Key] (key : Key) : Slot Key Value → Bool
  | .filled k _ => k = key
  | _ => false

section Source

variable (hash : Key → Nat)

/-- The inner loop of `reallocate`: the first slot that is not filled. -/
def freeFrom (new_slots : Table Key Value) (new_cap : Nat) : Nat → (index : Nat) → Except Fault Nat
  | 0, _ => .error .unended
  | turns + 1, index =>
    if isFilled (slotAt new_slots index) then
      freeFrom new_slots new_cap turns ((index + 1) &&& (new_cap - 1))
    else .ok index

/-- The outer loop, over the slots of the old table. -/
def moveAll (new_cap : Nat) : Table Key Value → Table Key Value → Except Fault (Table Key Value)
  | [], new_slots => .ok new_slots
  | .filled key value :: slots, new_slots => do
    let new_index ← freeFrom new_slots new_cap new_cap (hash key &&& (new_cap - 1))
    moveAll new_cap slots (new_slots.set new_index (.filled key value))
  | _ :: slots, new_slots => moveAll new_cap slots new_slots

def reallocate (map : Map Key Value) (new_cap : Nat) : Except Fault (Map Key Value) := do
  if validCapacity map.uniqueKeys new_cap then
    let new_slots ← moveAll hash new_cap map.slots (List.replicate new_cap .empty)
    pure { map with slots := new_slots, mapCapacity := new_cap }
  else .error .invalid_capacity

/-- The double nearest to 0.65 is this over `2 ^ 53`. -/
def loadingFactor : Nat := 5854679515581645

/-- `uniqueKeys < loading_factor * map_capacity`: a count of keys is a double as it is, and the
product with a power of two is exact. -/
def belowLoad (map : Map Key Value) : Bool :=
  map.uniqueKeys * 2 ^ 53 < loadingFactor * map.mapCapacity

/-- `static_cast<size_t>(uniqueKeys / loading_factor)`: the quotient is rounded to the nearest
double, of 53 bits, before it is cut to an integer. -/
def loadQuotient (uniqueKeys : Nat) : Nat :=
  let dividend := uniqueKeys * 2 ^ 53
  let scale := 2 ^ (52 - Nat.log2 (dividend / loadingFactor))
  let quotient := dividend * scale / loadingFactor
  let remainder := dividend * scale % loadingFactor
  let up := 2 * remainder > loadingFactor ∨ (2 * remainder = loadingFactor ∧ quotient % 2 = 1)
  (if up then quotient + 1 else quotient) / scale

/-- `std::bit_ceil` -/
def bitCeil (n : Nat) : Nat := if n ≤ 1 then 1 else 2 ^ (Nat.log2 (n - 1) + 1)

def rehash (map : Map Key Value) : Except Fault (Map Key Value) :=
  if belowLoad map then .ok map
  else
    let new_cap := bitCeil (loadQuotient map.uniqueKeys)
    let new_cap := if new_cap ≤ map.mapCapacity then map.mapCapacity * 2 else new_cap
    reallocate hash map new_cap

variable [DecidableEq Key]

/-- The loop of `find_index`. -/
def findFrom (slots : Table Key Value) (mapCapacity : Nat) (key : Key) (start : Nat) :
    Nat → (index first_deleted : Nat) → Except Fault Nat
  | 0, _, _ => .error .unended
  | turns + 1, index, first_deleted =>
    let state := slotAt slots index
    if isEmpty state then .ok (if first_deleted ≠ mapCapacity then first_deleted else index)
    else if holdsKey key state then .ok index
    else
      let first_deleted :=
        if isDeleted state ∧ first_deleted = mapCapacity then index else first_deleted
      let index := (index + 1) &&& (mapCapacity - 1)
      if index ≠ start then findFrom slots mapCapacity key start turns index first_deleted
      else if first_deleted ≠ mapCapacity then .ok first_deleted
      else .error .table_full

def findIndex (map : Map Key Value) (key : Key) : Except Fault Nat :=
  let index := hash key &&& (map.mapCapacity - 1)
  findFrom map.slots map.mapCapacity key index map.mapCapacity index map.mapCapacity

def insert (map : Map Key Value) (key : Key) (value : Value) : Except Fault (Map Key Value) := do
  let map ← rehash hash map
  let index ← findIndex hash map key
  match slotAt map.slots index with
  | .filled key _ => pure { map with slots := map.slots.set index (.filled key value) }
  | _ =>
    pure { map with
      slots := map.slots.set index (.filled key value), uniqueKeys := map.uniqueKeys + 1 }

def erase (map : Map Key Value) (key : Key) : Except Fault (Map Key Value × Bool) := do
  let index ← findIndex hash map key
  if isFilled (slotAt map.slots index) then
    pure ({ map with
      slots := map.slots.set index .deleted, uniqueKeys := map.uniqueKeys - 1 }, true)
  else pure (map, false)

/-- `operator[]`: the index of the value that the reference is to. -/
def subscript [Inhabited Value] (map : Map Key Value) (key : Key) :
    Except Fault (Map Key Value × Nat) := do
  let map ← rehash hash map
  let index ← findIndex hash map key
  if isFilled (slotAt map.slots index) then pure (map, index)
  else
    pure ({ map with
      slots := map.slots.set index (.filled key default), uniqueKeys := map.uniqueKeys + 1 }, index)

/-- `operator[]` of a `const string &`, which calls the one of a `string_view` after its own
`rehash`. -/
def subscriptString [Inhabited Value] (map : Map Key Value) (key : Key) :
    Except Fault (Map Key Value × Nat) := do
  let map ← rehash hash map
  subscript hash map key

def contains (map : Map Key Value) (key : Key) : Except Fault Bool := do
  let index ← findIndex hash map key
  pure (isFilled (slotAt map.slots index))

/-- `Iterator::next_valid`, with a turn for every slot from `i` on. -/
def nextValid (slots : Table Key Value) (mapCapacity : Nat) : Nat → (i : Nat) → Nat
  | 0, _ => mapCapacity
  | turns + 1, i =>
    if isFilled (slotAt slots i) then i else nextValid slots mapCapacity turns (i + 1)

/-- `Iterator(m, i)` -/
def iterator (map : Map Key Value) (i : Nat) : Nat :=
  nextValid map.slots map.mapCapacity (map.mapCapacity - i) i

/-- The iterator that `find` gives, as its index: that of `end()` is the capacity. -/
def find (map : Map Key Value) (key : Key) : Except Fault Nat := do
  let index ← findIndex hash map key
  if isFilled (slotAt map.slots index) then pure (iterator map index)
  else pure (iterator map map.mapCapacity)

def get (map : Map Key Value) (key : Key) : Except Fault (Option Value) := do
  let index ← findIndex hash map key
  pure ((slotAt map.slots index).held.map Prod.snd)

end Source

def size (map : Map Key Value) : Nat := map.uniqueKeys

/-- What `for (it = begin(); it != end(); ++it)` finds at `*it`, none while it still runs. -/
def visitFrom (map : Map Key Value) : Nat → (index : Nat) → Option (List (Key × Value))
  | 0, _ => none
  | turns + 1, index =>
    if index = iterator map map.mapCapacity then some []
    else
      (visitFrom map turns (iterator map (index + 1))).map fun rest =>
        (slotAt map.slots index).held.toList ++ rest

def visit (map : Map Key Value) : Option (List (Key × Value)) :=
  visitFrom map (map.mapCapacity + 1) (iterator map 0)

/-- What a caller does to the value that a reference or an iterator is to. -/
def writeValue (map : Map Key Value) (index : Nat) (write : Value → Value) : Map Key Value :=
  match slotAt map.slots index with
  | .filled key value => { map with slots := map.slots.set index (.filled key (write value)) }
  | _ => map

/-! ## The states of a slot -/

theorem isEmpty_iff {slot : Slot Key Value} : isEmpty slot = true ↔ slot = .empty := by
  cases slot <;> simp [isEmpty]

theorem isDeleted_iff {slot : Slot Key Value} : isDeleted slot = true ↔ slot = .deleted := by
  cases slot <;> simp [isDeleted]

theorem isFilled_iff {slot : Slot Key Value} : isFilled slot = true ↔ slot.held ≠ none := by
  cases slot <;> simp [isFilled]

theorem holdsKey_iff [DecidableEq Key] {key : Key} {slot : Slot Key Value} :
    holdsKey key slot = true ↔ ∃ value, slot = .filled key value := by
  cases slot <;> simp [holdsKey]

/-! ## The probe loops -/

/-- The mask of a power of two is the remainder. -/
theorem and_mask {n : Nat} (hpow : ∃ k, n = 2 ^ k) (x : Nat) : x &&& (n - 1) = x % n := by
  obtain ⟨k, rfl⟩ := hpow
  exact Nat.and_two_pow_sub_one_eq_mod x k

/-- The step of a loop takes the probe on, and back to its start after a whole turn only. -/
theorem mask_probe {n : Nat} (hpow : ∃ k, n = 2 ^ k) (start d : Nat) :
    (probe n start d + 1) &&& (n - 1) = probe n start (d + 1) := by
  rw [and_mask hpow, probe_succ]

section Find

variable {hash : Key → Nat} {slots : Table Key Value} {key : Key}

/-- What `find_index` may answer: the slot of the key, or, if there is none, one to fill. -/
def Finds (hash : Key → Nat) (slots : Table Key Value) (key : Key) (i : Nat) : Prop :=
  (∃ value, slotAt slots i = .filled key value) ∨
    (i < slots.length ∧ (slotAt slots i).held = none ∧ Absent slots key ∧
      Reaches slots (hash key) i)

/-- The first `d` slots of a probe are neither empty nor the key's, and `first_deleted` is the
first tombstone among them, if there is one. -/
structure Scanned (slots : Table Key Value) (key : Key) (start d first_deleted : Nat) : Prop where
  passed : ∀ e < d, slotAt slots (probe slots.length start e) ≠ .empty ∧
    ∀ value, slotAt slots (probe slots.length start e) ≠ .filled key value
  first : (first_deleted = slots.length ∧
      ∀ e < d, slotAt slots (probe slots.length start e) ≠ .deleted) ∨
    ∃ e < d, probe slots.length start e = first_deleted ∧ slotAt slots first_deleted = .deleted

theorem Scanned.reuse {d first_deleted : Nat} (h : Scanned slots key (hash key) d first_deleted)
    (hd : d ≤ slots.length) (hne : first_deleted ≠ slots.length) (habsent : Absent slots key) :
    Finds hash slots key first_deleted := by
  obtain ⟨heq, _⟩ | ⟨e, he, hprobe, hdeleted⟩ := h.first
  · exact absurd heq hne
  · refine Or.inr ⟨?_, by rw [hdeleted, held_deleted], habsent, e, by omega, hprobe,
      fun e' he' => (h.passed e' (Nat.lt_trans he' he)).1⟩
    rw [← hprobe]
    exact probe_lt (by omega) _ _

/-- One more slot that is neither empty nor the key's. -/
theorem Scanned.succ {start d first_deleted : Nat} (h : Scanned slots key start d first_deleted)
    (hempty : slotAt slots (probe slots.length start d) ≠ .empty)
    (hkey : ∀ value, slotAt slots (probe slots.length start d) ≠ .filled key value) :
    Scanned slots key start (d + 1)
      (if isDeleted (slotAt slots (probe slots.length start d)) ∧ first_deleted = slots.length
        then probe slots.length start d else first_deleted) where
  passed e he := by
    rcases Nat.lt_succ_iff_lt_or_eq.mp he with he | rfl
    · exact h.passed e he
    · exact ⟨hempty, hkey⟩
  first := by
    by_cases hhere : isDeleted (slotAt slots (probe slots.length start d)) ∧
        first_deleted = slots.length
    · rw [if_pos hhere]
      exact Or.inr ⟨d, Nat.lt_succ_self d, rfl, isDeleted_iff.mp hhere.1⟩
    · rw [if_neg hhere]
      obtain ⟨heq, hnone⟩ | ⟨e, he, hprobe, hdeleted⟩ := h.first
      · refine Or.inl ⟨heq, fun e he => ?_⟩
        rcases Nat.lt_succ_iff_lt_or_eq.mp he with he | rfl
        · exact hnone e he
        · exact fun hdel => hhere ⟨isDeleted_iff.mpr hdel, heq⟩
      · exact Or.inr ⟨e, Nat.lt_succ_of_lt he, hprobe, hdeleted⟩

theorem findFrom_finds [DecidableEq Key] (hchain : Chained hash slots)
    (hpow : ∃ k, slots.length = 2 ^ k)
    (hroom : (entries slots).length < slots.length) (turns : Nat) {d first_deleted : Nat}
    (hd : d < slots.length) (hturns : slots.length ≤ d + turns)
    (hscan : Scanned slots key (hash key) d first_deleted) :
    ∃ i, findFrom slots slots.length key (probe slots.length (hash key) 0) turns
        (probe slots.length (hash key) d) first_deleted = .ok i ∧ Finds hash slots key i := by
  induction turns generalizing d first_deleted with
  | zero => omega
  | succ turns ih =>
    rw [findFrom]
    simp only
    by_cases hempty : isEmpty (slotAt slots (probe slots.length (hash key) d)) = true
    · rw [if_pos hempty]
      rw [isEmpty_iff] at hempty
      have habsent := hchain.absent_of_empty hempty fun e he => (hscan.passed e he).2
      refine ⟨_, rfl, ?_⟩
      split
      · rename_i hne
        exact hscan.reuse (Nat.le_of_lt hd) hne habsent
      · exact Or.inr ⟨probe_lt (by omega) _ _, by rw [hempty, held_empty], habsent, d, hd, rfl,
          fun e he => (hscan.passed e he).1⟩
    rw [if_neg hempty]
    by_cases hkey : holdsKey key (slotAt slots (probe slots.length (hash key) d)) = true
    · rw [if_pos hkey]
      exact ⟨_, rfl, Or.inl (holdsKey_iff.mp hkey)⟩
    rw [if_neg hkey, mask_probe hpow]
    have hscan' := hscan.succ (mt isEmpty_iff.mpr hempty)
      fun value hvalue => hkey (holdsKey_iff.mpr ⟨value, hvalue⟩)
    generalize (if isDeleted (slotAt slots (probe slots.length (hash key) d)) ∧
        first_deleted = slots.length then probe slots.length (hash key) d else first_deleted) =
      first_deleted' at hscan' ⊢
    by_cases hlast : d + 1 = slots.length
    · -- the probe is back at its start and has seen every slot
      rw [hlast] at hscan' ⊢
      rw [probe_size, if_neg (not_not.mpr rfl)]
      have habsent : Absent slots key := absent_of_turn fun e he => (hscan'.passed e he).2
      split
      · rename_i hne
        exact ⟨_, rfl, hscan'.reuse (Nat.le_refl _) hne habsent⟩
      · rename_i hnone
        obtain ⟨i, hi, hunfilled⟩ := exists_unfilled hroom
        obtain ⟨e, he, rfl⟩ := exists_probe (hash key) hi
        have hnot := (hscan'.passed e he).1
        obtain ⟨_, hdeleted⟩ | ⟨e', he', hprobe, _⟩ := hscan'.first
        · have hdel := hdeleted e he
          generalize slotAt slots (probe slots.length (hash key) e) = slot at *
          cases slot with
          | empty => exact absurd rfl hnot
          | filled key value => cases hunfilled
          | deleted => exact absurd rfl hdel
        · refine absurd ?_ hnone
          rw [← hprobe]
          exact Nat.ne_of_lt (probe_lt (by omega) _ _)
    · have hmore : d + 1 < slots.length := by omega
      rw [if_pos (probe_ne_start _ (Nat.succ_pos d) hmore)]
      exact ih hmore (by omega) hscan'

/-- Below its capacity a table always has an answer. -/
theorem findIndex_finds [DecidableEq Key] {map : Map Key Value} (hchain : Chained hash map.slots)
    (hcapacity : map.slots.length = map.mapCapacity) (hpow : ∃ k, map.mapCapacity = 2 ^ k)
    (hroom : (entries map.slots).length < map.mapCapacity) (key : Key) :
    ∃ i, findIndex hash map key = .ok i ∧ Finds hash map.slots key i := by
  rw [← hcapacity] at hpow hroom
  rw [findIndex, ← hcapacity, and_mask hpow, ← probe_zero]
  have hscan : Scanned map.slots key (hash key) 0 map.slots.length :=
    ⟨fun e he => absurd he (Nat.not_lt_zero e), Or.inl ⟨rfl, fun e he => absurd he (Nat.not_lt_zero e)⟩⟩
  exact findFrom_finds hchain hpow hroom _ (by omega) (by omega) hscan

/-! ## The growth -/

/-- As long as a probe has seen entries only, it has a slot ahead. -/
theorem lt_of_passed (hroom : (entries slots).length < slots.length) {start d : Nat}
    (hpassed : ∀ e < d, (slotAt slots (probe slots.length start e)).held ≠ none) :
    d < slots.length := by
  by_contra hge
  obtain ⟨i, hi, hunfilled⟩ := exists_unfilled hroom
  obtain ⟨e, he, rfl⟩ := exists_probe start hi
  exact hpassed e (by omega) hunfilled

theorem freeFrom_finds (hpow : ∃ k, slots.length = 2 ^ k)
    (hroom : (entries slots).length < slots.length) {start : Nat} (turns : Nat) {d : Nat}
    (hturns : slots.length ≤ d + turns)
    (hpassed : ∀ e < d, (slotAt slots (probe slots.length start e)).held ≠ none) :
    ∃ i, freeFrom slots slots.length turns (probe slots.length start d) = .ok i ∧
      i < slots.length ∧ (slotAt slots i).held = none ∧ Reaches slots start i := by
  have hd := lt_of_passed hroom hpassed
  induction turns generalizing d with
  | zero => omega
  | succ turns ih =>
    rw [freeFrom]
    by_cases hfilled : isFilled (slotAt slots (probe slots.length start d)) = true
    · rw [if_pos hfilled, mask_probe hpow]
      have hpassed' : ∀ e < d + 1,
          (slotAt slots (probe slots.length start e)).held ≠ none := by
        intro e he
        rcases Nat.lt_succ_iff_lt_or_eq.mp he with he | rfl
        · exact hpassed e he
        · exact isFilled_iff.mp hfilled
      exact ih (by omega) hpassed' (lt_of_passed hroom hpassed')
    · rw [if_neg hfilled]
      refine ⟨_, rfl, probe_lt (by omega) _ _, ?_, d, hd, rfl, fun e he hempty => ?_⟩
      · exact not_not.mp (mt isFilled_iff.mpr hfilled)
      · exact hpassed e he (by rw [hempty, held_empty])

/-- Every entry of the old slots finds its place in the new ones. -/
theorem moveAll_spec {new_cap : Nat} (hpow : ∃ k, new_cap = 2 ^ k) (old : Table Key Value)
    (hlen : slots.length = new_cap) (hchain : Chained hash slots)
    (hunique : ((entries old ++ entries slots).map Prod.fst).Nodup)
    (hroom : (entries old ++ entries slots).length < new_cap) :
    ∃ out, moveAll hash new_cap old slots = .ok out ∧ out.length = new_cap ∧ Chained hash out ∧
      (entries out).Perm (entries old ++ entries slots) := by
  induction old generalizing slots with
  | nil => exact ⟨slots, rfl, hlen, hchain, List.Perm.refl _⟩
  | cons slot old ih =>
    cases slot with
    | empty => exact ih hlen hchain hunique hroom
    | deleted => exact ih hlen hchain hunique hroom
    | filled key value =>
      have hcons : entries (.filled key value :: old) = (key, value) :: entries old := rfl
      rw [hcons] at hunique hroom ⊢
      have habsent : Absent slots key := by
        rw [absent_iff]
        rw [List.cons_append, List.map_cons, List.nodup_cons, List.map_append] at hunique
        exact fun hmem => hunique.1 (List.mem_append_right _ hmem)
      rw [List.cons_append, List.length_cons, List.length_append] at hroom
      subst hlen
      obtain ⟨i, hfree, hi, hnone, hreach⟩ := freeFrom_finds hpow (show _ < slots.length by omega)
        slots.length (Nat.le_add_left _ 0) fun e he => absurd he (Nat.not_lt_zero e)
      have hperm : (entries old ++ entries (slots.set i (.filled key value))).Perm
          ((key, value) :: entries old ++ entries slots) :=
        ((entries_fill slots hi hnone key value).append_left _).trans List.perm_middle
      obtain ⟨out, hout, hlength, hchained, hentries⟩ := ih List.length_set
        (hchain.fill hi hnone habsent hreach value)
        ((hperm.map Prod.fst).nodup_iff.mpr hunique) (by
          rw [hperm.length_eq, List.cons_append, List.length_cons, List.length_append]
          exact hroom)
      refine ⟨out, ?_, hlength, hchained, hentries.trans hperm⟩
      rw [moveAll, and_mask hpow, ← probe_zero, hfree]
      exact hout

end Find

end seamus.unordered_map
