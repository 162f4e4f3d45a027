-- `unordered_map` is a finite map: every operation answers as one and leaves the slots of one,
-- no loop runs on, and the table is never full.
import Seamus.UnorderedMap
import Seamus.Library.Faults

open open_addressing faults

namespace seamus.unordered_map

variable {Key Value : Type} {hash : Key → Nat} {map : Map Key Value}

/-! ## The invariant -/

structure Sound (hash : Key → Nat) (map : Map Key Value) : Prop where
  chained : Chained hash map.slots
  capacity : map.slots.length = map.mapCapacity
  pow : ∃ k, map.mapCapacity = 2 ^ k
  least : 4 ≤ map.mapCapacity
  count : map.uniqueKeys = (entries map.slots).length
  room : map.uniqueKeys < map.mapCapacity

theorem validCapacity_pow {capacity uniqueKeys : Nat} (hpow : ∃ k, capacity = 2 ^ k)
    (h : uniqueKeys < capacity) : validCapacity uniqueKeys capacity = true := by
  simp [validCapacity, and_mask hpow, h]

theorem belowLoad_iff : belowLoad map = true ↔
    map.uniqueKeys * 2 ^ 53 < 5854679515581645 * map.mapCapacity := decide_eq_true_iff

/-! ### The growth keeps it -/

theorem bitCeil_pow (n : Nat) : ∃ k, bitCeil n = 2 ^ k := by
  unfold bitCeil
  split
  · exact ⟨0, rfl⟩
  · exact ⟨_, rfl⟩

/-- The larger of two powers of two is at least twice the other. -/
theorem double_le_of_lt {m n : Nat} (hm : ∃ k, m = 2 ^ k) (hn : ∃ k, n = 2 ^ k) (h : m < n) :
    m * 2 ≤ n := by
  obtain ⟨j, rfl⟩ := hm
  obtain ⟨k, rfl⟩ := hn
  rw [← Nat.pow_succ]
  exact Nat.pow_le_pow_right (by decide) ((Nat.pow_lt_pow_iff_right (by decide)).mp h)

theorem Sound.reallocate (h : Sound hash map) {new_cap : Nat} (hpow : ∃ k, new_cap = 2 ^ k)
    (hle : map.mapCapacity * 2 ≤ new_cap) :
    ∃ map', reallocate hash map new_cap = .ok map' ∧ Sound hash map' ∧
      (entries map'.slots).Perm (entries map.slots) ∧ belowLoad map' = true := by
  have hroom := h.room
  have hleast := h.least
  have hcount := h.count
  have hnone : entries (List.replicate new_cap (.empty : Slot Key Value)) = [] :=
    List.filterMap_replicate_of_none held_empty
  obtain ⟨out, hout, hlength, hchain, hperm⟩ := moveAll_spec hpow map.slots
    (List.length_replicate (n := new_cap) (a := (.empty : Slot Key Value)))
    (chained_replicate hash new_cap)
    (by rw [hnone, List.append_nil]; exact h.chained.unique)
    (by rw [hnone, List.append_nil]; omega)
  rw [hnone, List.append_nil] at hperm
  refine ⟨{ map with slots := out, mapCapacity := new_cap }, ?_,
    ⟨hchain, hlength, hpow, ?_, ?_, ?_⟩, hperm, ?_⟩
  · rw [unordered_map.reallocate, if_pos (validCapacity_pow hpow (by omega)), hout]
    rfl
  · exact Nat.le_trans hleast (show map.mapCapacity ≤ new_cap by omega)
  · exact hcount.trans hperm.length_eq.symm
  · exact Nat.lt_of_lt_of_le hroom (show map.mapCapacity ≤ new_cap by omega)
  · rw [belowLoad_iff]
    simp only
    omega

theorem Sound.rehash (h : Sound hash map) :
    ∃ map', rehash hash map = .ok map' ∧ Sound hash map' ∧
      (entries map'.slots).Perm (entries map.slots) ∧ belowLoad map' = true := by
  unfold unordered_map.rehash
  by_cases hload : belowLoad map = true
  · rw [if_pos hload]
    exact ⟨map, rfl, h, List.Perm.refl _, hload⟩
  · rw [if_neg hload]
    simp only
    split
    · obtain ⟨k, hk⟩ := h.pow
      exact h.reallocate ⟨k + 1, by rw [hk, Nat.pow_succ]⟩ (Nat.le_refl _)
    · rename_i hlarger
      exact h.reallocate (bitCeil_pow _)
        (double_le_of_lt h.pow (bitCeil_pow _) (Nat.lt_of_not_le hlarger))

/-- Below the load there is room for one more key. -/
theorem Sound.room_below (h : Sound hash map) (hload : belowLoad map = true) :
    map.uniqueKeys + 1 < map.mapCapacity := by
  have hleast := h.least
  rw [belowLoad_iff] at hload
  omega

/-! ## The iteration -/

theorem isFilled_eq (slot : Slot Key Value) : isFilled slot = slot.held.isSome := by
  cases slot <;> rfl

theorem iterator_end (map : Map Key Value) : iterator map map.mapCapacity = map.mapCapacity := by
  rw [iterator, Nat.sub_self]
  rfl

/-- An iterator at a filled slot stays there. -/
theorem iterator_filled {i : Nat} (hi : i < map.mapCapacity)
    (hfilled : isFilled (slotAt map.slots i) = true) : iterator map i = i := by
  obtain ⟨turns, hturns⟩ := Nat.exists_eq_add_one.mpr (Nat.sub_pos_of_lt hi)
  rw [iterator, hturns, nextValid, if_pos hfilled]

/-- At any other it goes on. -/
theorem iterator_next {i : Nat} (hi : i < map.mapCapacity)
    (hfilled : ¬ isFilled (slotAt map.slots i) = true) : iterator map i = iterator map (i + 1) := by
  have hturns : map.mapCapacity - i = map.mapCapacity - (i + 1) + 1 := by omega
  rw [iterator, iterator, hturns, nextValid, if_neg hfilled]

theorem visitFrom_entries (hcapacity : map.slots.length = map.mapCapacity) (turns : Nat) {i : Nat}
    (hi : i ≤ map.mapCapacity) (hturns : map.mapCapacity - i < turns) :
    visitFrom map turns (iterator map i) = some (entries (map.slots.drop i)) := by
  induction hleft : map.mapCapacity - i generalizing i turns with
  | zero =>
    obtain rfl : i = map.mapCapacity := by omega
    obtain ⟨turns, rfl⟩ := Nat.exists_eq_add_one.mpr (Nat.zero_lt_of_lt hturns)
    rw [visitFrom, if_pos rfl, List.drop_of_length_le (Nat.le_of_eq hcapacity)]
    rfl
  | succ left ih =>
    have hlt : i < map.mapCapacity := by omega
    have hslots : map.slots.drop i = slotAt map.slots i :: map.slots.drop (i + 1) := by
      rw [slotAt_eq_getElem _ (hcapacity ▸ hlt), List.getElem_cons_drop]
    rw [hslots, entries, List.filterMap_cons, ← entries]
    by_cases hfilled : isFilled (slotAt map.slots i) = true
    · obtain ⟨turns, rfl⟩ := Nat.exists_eq_add_one.mpr (Nat.zero_lt_of_lt hturns)
      obtain ⟨entry, hentry⟩ := Option.ne_none_iff_exists'.mp (isFilled_iff.mp hfilled)
      rw [iterator_filled hlt hfilled, visitFrom, iterator_end, if_neg (Nat.ne_of_lt hlt),
        ih turns (by omega) (by omega) (by omega), hentry]
      rfl
    · rw [iterator_next hlt hfilled, ih turns (by omega) (by omega) (by omega),
        not_not.mp (mt isFilled_iff.mpr hfilled)]

theorem Sound.visit (h : Sound hash map) : visit map = some (entries map.slots) :=
  visitFrom_entries h.capacity _ (Nat.zero_le _) (by omega)

/-! ## What the operations do to the entries -/

/-- The map is sound and its entries are those of `content`. -/
structure Represents (hash : Key → Nat) (map : Map Key Value) (content : Key → Option Value) :
    Prop where
  sound : Sound hash map
  lists : Lists (entries map.slots) content

section Operations

variable {content : Key → Option Value} {key : Key} {i : Nat}

/-- The slot that `find_index` answers holds the value of the key, or nothing. -/
theorem Finds.held {slots : Table Key Value} (h : Finds hash slots key i)
    (hlists : Lists (entries slots) content) :
    (slotAt slots i).held = (content key).map fun value => (key, value) := by
  obtain ⟨value, hvalue⟩ | ⟨_, hnone, habsent, _⟩ := h
  · rw [(hlists.mem_iff key value).mp (mem_entries.mpr ⟨i, hvalue⟩), hvalue]
    rfl
  · rw [hlists.not_mem_iff.mp (absent_iff.mp habsent), hnone]
    rfl

/-- So a key that is there has its entry in that slot. -/
theorem filled_of_found {slots : Table Key Value} (h : Finds hash slots key i)
    (hlists : Lists (entries slots) content) {value : Value} (hvalue : content key = some value) :
    slotAt slots i = .filled key value := by
  rw [← held_eq_some, h.held hlists, hvalue]
  rfl

theorem Represents.rehash (h : Represents hash map content) :
    ∃ map', rehash hash map = .ok map' ∧ Represents hash map' content ∧ belowLoad map' = true := by
  obtain ⟨map', hrehash, hsound, hperm, hload⟩ := h.sound.rehash
  exact ⟨map', hrehash, ⟨hsound, h.lists.perm hperm.symm⟩, hload⟩

/-- What the slots, the iteration and `size()` show of a finite map. -/
structure Shows (map : Map Key Value) (content : Key → Option Value) : Prop where
  one_slot : ∀ i j key value value', slotAt map.slots i = .filled key value →
    slotAt map.slots j = .filled key value' → i = j
  visits : ∃ es, visit map = some es ∧ (es.map Prod.fst).Nodup ∧ es.length = size map ∧
    ∀ key value, (key, value) ∈ es ↔ content key = some value

theorem Represents.shows (h : Represents hash map content) : Shows map content where
  one_slot _ _ _ _ _ hi hj := h.sound.chained.slot_unique hi hj
  visits := ⟨_, h.sound.visit, h.lists.unique, h.sound.count.symm, h.lists.mem_iff⟩

theorem represents_mk (hash : Key → Nat) {capacity : Nat} (hpow : ∃ k, capacity = 2 ^ k)
    (hleast : 4 ≤ capacity) :
    ∃ map : Map Key Value, mk capacity = .ok map ∧ Represents hash map fun _ => none := by
  have hpos : 0 < capacity := Nat.lt_of_lt_of_le (by decide) hleast
  have hnone : entries (List.replicate capacity (.empty : Slot Key Value)) = [] :=
    List.filterMap_replicate_of_none held_empty
  refine ⟨_, by rw [mk, if_pos (validCapacity_pow hpow hpos)],
    ⟨chained_replicate hash capacity, List.length_replicate, hpow, hleast, ?_, hpos⟩, ?_⟩
  · rw [hnone]
    rfl
  · rw [hnone]
    exact lists_nil

variable [DecidableEq Key]

theorem Represents.findIndex (h : Represents hash map content) (key : Key) :
    ∃ i, findIndex hash map key = .ok i ∧ Finds hash map.slots key i :=
  findIndex_finds h.sound.chained h.sound.capacity h.sound.pow
    (h.sound.count ▸ h.sound.room) key

/-- A new key in the slot that was found for it. -/
theorem Represents.fill (h : Represents hash map content) (hload : belowLoad map = true)
    (hfinds : Finds hash map.slots key i) (hnone : content key = none) (value : Value) :
    Represents hash { map with slots := map.slots.set i (.filled key value),
                               uniqueKeys := map.uniqueKeys + 1 }
      (Function.update content key (some value)) := by
  have hheld := hfinds.held h.lists
  rw [hnone, Option.map_none] at hheld
  obtain ⟨value', hvalue'⟩ | ⟨hi, _, habsent, hreach⟩ := hfinds
  · rw [hvalue'] at hheld
    cases hheld
  have hperm := entries_fill map.slots hi hheld key value
  refine ⟨⟨h.sound.chained.fill hi hheld habsent hreach value, ?_, h.sound.pow, h.sound.least, ?_,
    h.sound.room_below hload⟩, (h.lists.cons hnone).perm hperm.symm⟩
  · exact (List.length_set).trans h.sound.capacity
  · exact (congrArg (· + 1) h.sound.count).trans hperm.length_eq.symm

theorem Represents.write (h : Represents hash map content) {old : Value}
    (hi : slotAt map.slots i = .filled key old) (value : Value) :
    Represents hash { map with slots := map.slots.set i (.filled key value) }
      (Function.update content key (some value)) := by
  have hperm := entries_delete map.slots hi
  have hset := entries_set map.slots (filled_lt hi) (.filled key value)
  refine ⟨⟨h.sound.chained.write hi value, ?_, h.sound.pow, h.sound.least, ?_, h.sound.room⟩,
    (h.lists.perm hperm).write.perm hset.symm⟩
  · exact (List.length_set).trans h.sound.capacity
  · exact (h.sound.count.trans hperm.length_eq).trans hset.length_eq.symm

theorem Represents.delete (h : Represents hash map content) {old : Value}
    (hi : slotAt map.slots i = .filled key old) :
    Represents hash { map with slots := map.slots.set i .deleted,
                               uniqueKeys := map.uniqueKeys - 1 }
      (Function.update content key none) := by
  have hperm := entries_delete map.slots hi
  have hcount := h.sound.count
  rw [hperm.length_eq, List.length_cons] at hcount
  refine ⟨⟨h.sound.chained.delete hi, ?_, h.sound.pow, h.sound.least, ?_, ?_⟩,
    (h.lists.perm hperm).tail⟩
  · exact (List.length_set).trans h.sound.capacity
  · exact Nat.sub_eq_of_eq_add hcount
  · exact Nat.lt_of_le_of_lt (Nat.sub_le _ 1) h.sound.room

/-- A write through a reference to the value of a key. -/
theorem Represents.writeValue (h : Represents hash map content) {value : Value}
    (hi : slotAt map.slots i = .filled key value) (write : Value → Value) :
    Represents hash (writeValue map i write)
      (Function.update content key (some (write value))) := by
  rw [unordered_map.writeValue, hi]
  exact h.write hi (write value)

/-! ### Each operation -/

theorem Represents.insert (h : Represents hash map content) (key : Key) (value : Value) :
    ∃ map', insert hash map key value = .ok map' ∧
      Represents hash map' (Function.update content key (some value)) := by
  obtain ⟨grown, hrehash, hgrown, hload⟩ := h.rehash
  obtain ⟨i, hindex, hfinds⟩ := hgrown.findIndex key
  unfold unordered_map.insert
  rw [hrehash, ok_bind, hindex, ok_bind]
  cases hcontent : content key with
  | some old =>
    have hi := filled_of_found hfinds hgrown.lists hcontent
    rw [hi]
    exact ⟨_, rfl, hgrown.write hi value⟩
  | none =>
    have hheld := hfinds.held hgrown.lists
    rw [hcontent, Option.map_none] at hheld
    have hfilled := hgrown.fill hload hfinds hcontent value
    cases hslot : slotAt grown.slots i with
    | filled key' value' =>
      rw [hslot] at hheld
      cases hheld
    | empty => exact ⟨_, rfl, hfilled⟩
    | deleted => exact ⟨_, rfl, hfilled⟩

theorem Represents.erase (h : Represents hash map content) (key : Key) :
    ∃ map', erase hash map key = .ok (map', (content key).isSome) ∧
      Represents hash map' (Function.update content key none) := by
  obtain ⟨i, hindex, hfinds⟩ := h.findIndex key
  unfold unordered_map.erase
  rw [hindex, ok_bind, isFilled_eq, hfinds.held h.lists]
  cases hcontent : content key with
  | some old => exact ⟨_, rfl, h.delete (filled_of_found hfinds h.lists hcontent)⟩
  | none =>
    refine ⟨map, rfl, ?_⟩
    rw [← hcontent, Function.update_eq_self]
    exact h

/-- The reference is to the value of the key, which is the default one where there was none. -/
theorem Represents.subscript [Inhabited Value] (h : Represents hash map content) (key : Key) :
    ∃ map' i, subscript hash map key = .ok (map', i) ∧
      Represents hash map' (Function.update content key (some ((content key).getD default))) ∧
      slotAt map'.slots i = .filled key ((content key).getD default) := by
  obtain ⟨grown, hrehash, hgrown, hload⟩ := h.rehash
  obtain ⟨i, hindex, hfinds⟩ := hgrown.findIndex key
  unfold unordered_map.subscript
  rw [hrehash, ok_bind, hindex, ok_bind, isFilled_eq, hfinds.held hgrown.lists]
  cases hcontent : content key with
  | some old =>
    refine ⟨grown, i, rfl, ?_, filled_of_found hfinds hgrown.lists hcontent⟩
    rw [Option.getD_some, ← hcontent, Function.update_eq_self]
    exact hgrown
  | none =>
    refine ⟨_, i, rfl, hgrown.fill hload hfinds hcontent default, ?_⟩
    obtain ⟨value, hvalue⟩ | ⟨hi, _⟩ := hfinds
    · exact (slotAt_set grown.slots (filled_lt hvalue) _ i).trans (if_pos rfl)
    · exact (slotAt_set grown.slots hi _ i).trans (if_pos rfl)

theorem Represents.subscriptString [Inhabited Value] (h : Represents hash map content)
    (key : Key) :
    ∃ map' i, subscriptString hash map key = .ok (map', i) ∧
      Represents hash map' (Function.update content key (some ((content key).getD default))) ∧
      slotAt map'.slots i = .filled key ((content key).getD default) := by
  obtain ⟨grown, hrehash, hgrown, _⟩ := h.rehash
  unfold unordered_map.subscriptString
  rw [hrehash, ok_bind]
  exact hgrown.subscript key

theorem Represents.contains (h : Represents hash map content) (key : Key) :
    contains hash map key = .ok (content key).isSome := by
  obtain ⟨i, hindex, hfinds⟩ := h.findIndex key
  unfold unordered_map.contains
  rw [hindex, ok_bind, isFilled_eq, hfinds.held h.lists, Option.isSome_map]
  rfl

theorem Represents.get (h : Represents hash map content) (key : Key) :
    get hash map key = .ok (content key) := by
  obtain ⟨i, hindex, hfinds⟩ := h.findIndex key
  unfold unordered_map.get
  rw [hindex, ok_bind, hfinds.held h.lists]
  cases content key <;> rfl

theorem Represents.find (h : Represents hash map content) (key : Key) :
    ∃ i, find hash map key = .ok i ∧
      match content key with
      | some value => i ≠ iterator map map.mapCapacity ∧ slotAt map.slots i = .filled key value
      | none => i = iterator map map.mapCapacity := by
  obtain ⟨i, hindex, hfinds⟩ := h.findIndex key
  unfold unordered_map.find
  rw [hindex, ok_bind]
  have hfilled := isFilled_eq (slotAt map.slots i)
  rw [hfinds.held h.lists] at hfilled
  cases hcontent : content key with
  | some value =>
    rw [hcontent] at hfilled
    have hi := filled_of_found hfinds h.lists hcontent
    have hlt : i < map.mapCapacity := h.sound.capacity ▸ filled_lt hi
    rw [hfilled, iterator_filled hlt hfilled]
    refine ⟨i, rfl, ?_, hi⟩
    rw [iterator_end]
    exact Nat.ne_of_lt hlt
  | none =>
    rw [hcontent] at hfilled
    rw [hfilled]
    exact ⟨_, rfl, rfl⟩

end Operations


/-! ## Every run -/

/-- An operation, and for those that give a reference or an iterator what the caller does to the
value behind it. -/
inductive Op (Key Value : Type) where
  | insert (key : Key) (value : Value)
  | subscript (key : Key) (write : Value → Value)
  | subscriptString (key : Key) (write : Value → Value)
  | erase (key : Key)
  | find (key : Key) (write : Value → Value)
  | get (key : Key)
  | contains (key : Key)

/-- What the caller is told. -/
inductive Answer (Key Value : Type) where
  | nothing
  | flag (b : Bool)
  | value (v : Option Value)
  | entry (e : Option (Key × Value))

section Runs

variable [DecidableEq Key] [Inhabited Value]

def step (hash : Key → Nat) (map : Map Key Value) :
    Op Key Value → Except Fault (Map Key Value × Answer Key Value)
  | .insert key value => do
    let map ← insert hash map key value
    pure (map, .nothing)
  | .subscript key write => do
    let (map, index) ← subscript hash map key
    pure (writeValue map index write, .entry (slotAt map.slots index).held)
  | .subscriptString key write => do
    let (map, index) ← subscriptString hash map key
    pure (writeValue map index write, .entry (slotAt map.slots index).held)
  | .erase key => do
    let (map, erased) ← erase hash map key
    pure (map, .flag erased)
  | .find key write => do
    let index ← find hash map key
    if index = iterator map map.mapCapacity then pure (map, .entry none)
    else pure (writeValue map index write, .entry (slotAt map.slots index).held)
  | .get key => do
    let value ← get hash map key
    pure (map, .value value)
  | .contains key => do
    let found ← contains hash map key
    pure (map, .flag found)

def run (hash : Key → Nat) : Map Key Value → List (Op Key Value) →
    Except Fault (Map Key Value × List (Answer Key Value))
  | map, [] => pure (map, [])
  | map, op :: ops => do
    let (map, answer) ← step hash map op
    let (map, answers) ← run hash map ops
    pure (map, answer :: answers)

/-- The same on a finite map. -/
def mapStep (content : Key → Option Value) :
    Op Key Value → (Key → Option Value) × Answer Key Value
  | .insert key value => (Function.update content key (some value), .nothing)
  | .subscript key write | .subscriptString key write =>
    let value := (content key).getD default
    (Function.update content key (some (write value)), .entry (some (key, value)))
  | .erase key => (Function.update content key none, .flag (content key).isSome)
  | .find key write =>
    (Function.update content key ((content key).map write),
      .entry ((content key).map fun value => (key, value)))
  | .get key => (content, .value (content key))
  | .contains key => (content, .flag (content key).isSome)

def mapRun : (Key → Option Value) → List (Op Key Value) →
    (Key → Option Value) × List (Answer Key Value)
  | content, [] => (content, [])
  | content, op :: ops =>
    let (content, answer) := mapStep content op
    let (content, answers) := mapRun content ops
    (content, answer :: answers)

variable {content : Key → Option Value}

theorem Represents.step (h : Represents hash map content) (op : Op Key Value) :
    ∃ map', step hash map op = .ok (map', (mapStep content op).2) ∧
      Represents hash map' (mapStep content op).1 := by
  cases op with
  | insert key value =>
    obtain ⟨map', hinsert, hmap'⟩ := h.insert key value
    exact ⟨map', by rw [unordered_map.step, hinsert, ok_bind]; rfl, hmap'⟩
  | subscript key write =>
    obtain ⟨map', i, hsubscript, hmap', hi⟩ := h.subscript key
    have hwrite := hmap'.writeValue hi write
    rw [Function.update_idem] at hwrite
    refine ⟨_, ?_, hwrite⟩
    rw [unordered_map.step, hsubscript, ok_bind]
    simp only [hi]
    rfl
  | subscriptString key write =>
    obtain ⟨map', i, hsubscript, hmap', hi⟩ := h.subscriptString key
    have hwrite := hmap'.writeValue hi write
    rw [Function.update_idem] at hwrite
    refine ⟨_, ?_, hwrite⟩
    rw [unordered_map.step, hsubscript, ok_bind]
    simp only [hi]
    rfl
  | erase key =>
    obtain ⟨map', herase, hmap'⟩ := h.erase key
    exact ⟨map', by rw [unordered_map.step, herase, ok_bind]; rfl, hmap'⟩
  | find key write =>
    obtain ⟨i, hfind, hi⟩ := h.find key
    rw [unordered_map.step, hfind, ok_bind, mapStep]
    cases hcontent : content key with
    | some value =>
      rw [hcontent] at hi
      rw [if_neg hi.1, hi.2]
      exact ⟨_, rfl, h.writeValue hi.2 write⟩
    | none =>
      rw [hcontent] at hi
      rw [if_pos hi, Option.map_none, Option.map_none, ← hcontent, Function.update_eq_self]
      exact ⟨_, rfl, h⟩
  | get key => exact ⟨map, by rw [unordered_map.step, h.get, ok_bind]; rfl, h⟩
  | contains key => exact ⟨map, by rw [unordered_map.step, h.contains, ok_bind]; rfl, h⟩

theorem Represents.run (h : Represents hash map content) (ops : List (Op Key Value)) :
    ∃ map', run hash map ops = .ok (map', (mapRun content ops).2) ∧
      Represents hash map' (mapRun content ops).1 := by
  induction ops generalizing map content with
  | nil => exact ⟨map, rfl, h⟩
  | cons op ops ih =>
    obtain ⟨map', hstep, hmap'⟩ := h.step op
    obtain ⟨map'', hrun, hmap''⟩ := ih hmap'
    refine ⟨map'', ?_, hmap''⟩
    rw [unordered_map.run, hstep, ok_bind]
    simp only [hrun, ok_bind]
    rfl

/-- From a new map on, every run of operations ends without a fault, answers as a finite map
does, and leaves one. -/
theorem map_refines_finite_map (hash : Key → Nat) (capacity : Nat)
    (hpow : ∃ k, capacity = 2 ^ k) (hleast : 4 ≤ capacity) (ops : List (Op Key Value)) :
    ∃ map, (do run hash (← mk capacity) ops) = .ok (map, (mapRun (fun _ => none) ops).2) ∧
      Shows map (mapRun (fun _ => none) ops).1 := by
  obtain ⟨start, hmk, hstart⟩ : ∃ start : Map Key Value, mk capacity = .ok start ∧
      Represents hash start fun _ => none := represents_mk hash hpow hleast
  obtain ⟨map, hrun, hmap⟩ := hstart.run ops
  exact ⟨map, by rw [hmk, ok_bind, hrun], hmap.shows⟩

end Runs

/-- Two keys with one hash: the first is erased, and its tombstone taken again. -/
theorem colliding_keys_kept :
    let ops : List (Op Nat Nat) :=
      [.insert 1 10, .insert 2 20, .erase 1, .insert 2 21, .contains 1, .subscript 1 (· + 1)]
    ∃ map, (do run (fun _ => 3) (← mk 4) ops) = .ok (map, (mapRun (fun _ => none) ops).2) ∧
      Shows map (mapRun (fun _ => none) ops).1 :=
  map_refines_finite_map (fun _ => 3) 4 ⟨2, rfl⟩ (by decide) _

end seamus.unordered_map
