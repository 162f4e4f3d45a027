-- Open addressing with linear probing and tombstones: a table of slots in a circle, where the
-- entry of a key is found before the first empty slot from the slot of its hash on.
import Mathlib.Data.List.GetD
import Mathlib.Data.List.Nodup
import Mathlib.Logic.Function.Basic

namespace open_addressing

universe u v

inductive Slot (Key : Type u) (Value : Type v) where
  | empty
  | filled (key : Key) (value : Value)
  | deleted

abbrev Table (Key : Type u) (Value : Type v) := List (Slot Key Value)

variable {Key : Type u} {Value : Type v}

def Slot.held : Slot Key Value → Option (Key × Value)
  | .filled key value => some (key, value)
  | _ => none

@[simp] theorem held_filled (key : Key) (value : Value) :
    (Slot.filled key value).held = some (key, value) := rfl

@[simp] theorem held_empty : (Slot.empty : Slot Key Value).held = none := rfl

@[simp] theorem held_deleted : (Slot.deleted : Slot Key Value).held = none := rfl

theorem held_eq_some {slot : Slot Key Value} {key : Key} {value : Value} :
    slot.held = some (key, value) ↔ slot = .filled key value := by
  cases slot <;> simp

/-- The slot at an index; there is nothing behind the table. -/
def slotAt (table : Table Key Value) (i : Nat) : Slot Key Value := table.getD i .empty

def entries (table : Table Key Value) : List (Key × Value) := table.filterMap Slot.held

theorem slotAt_eq_getElem (table : Table Key Value) {i : Nat} (hi : i < table.length) :
    slotAt table i = table[i] := List.getD_eq_getElem _ _ hi

theorem slotAt_set (table : Table Key Value) {i : Nat} (hi : i < table.length)
    (slot : Slot Key Value) (j : Nat) :
    slotAt (table.set i slot) j = if j = i then slot else slotAt table j := by
  simp only [slotAt, List.getD_eq_getElem?_getD, List.getElem?_set]
  by_cases hj : j = i
  · subst hj
    simp [hi]
  · simp [hj, Ne.symm hj]

theorem filled_lt {table : Table Key Value} {i : Nat} {key : Key} {value : Value}
    (h : slotAt table i = .filled key value) : i < table.length := by
  by_contra hi
  rw [slotAt, List.getD_eq_default _ _ (Nat.le_of_not_lt hi)] at h
  cases h

/-! ## The entries -/

theorem mem_entries {table : Table Key Value} {key : Key} {value : Value} :
    (key, value) ∈ entries table ↔ ∃ i, slotAt table i = .filled key value := by
  rw [entries, List.mem_filterMap]
  constructor
  · rintro ⟨slot, hslot, hentry⟩
    obtain ⟨i, hi, rfl⟩ := List.getElem_of_mem hslot
    exact ⟨i, by rw [slotAt_eq_getElem table hi, held_eq_some.mp hentry]⟩
  · rintro ⟨i, hi⟩
    refine ⟨slotAt table i, ?_, by rw [hi, held_filled]⟩
    rw [slotAt_eq_getElem table (filled_lt hi)]
    exact List.getElem_mem _

/-- What a slot adds to the entries stands between those of the slots before and behind it. -/
theorem entries_split (table : Table Key Value) {i : Nat} (hi : i < table.length) :
    ∃ before after, entries table = before ++ (slotAt table i).held.toList ++ after ∧
      ∀ slot, entries (table.set i slot) = before ++ slot.held.toList ++ after := by
  refine ⟨entries (table.take i), entries (table.drop (i + 1)), ?_, fun slot => ?_⟩
  · have hparts : table = table.take i ++ slotAt table i :: table.drop (i + 1) := by
      rw [slotAt_eq_getElem table hi, List.getElem_cons_drop, List.take_append_drop]
    conv_lhs => rw [hparts]
    simp only [entries, List.filterMap_append, List.filterMap_cons]
    cases (slotAt table i).held <;> simp
  · rw [List.set_eq_take_append_cons_drop, if_pos hi]
    simp only [entries, List.filterMap_append, List.filterMap_cons]
    cases slot.held <;> simp

/-- The entry of a slot beside those of the others. -/
theorem entries_at (table : Table Key Value) {i : Nat} (hi : i < table.length) :
    (entries table).Perm ((slotAt table i).held.toList ++ entries (table.set i .deleted)) := by
  obtain ⟨before, after, htable, hset⟩ := entries_split table hi
  rw [htable, hset, held_deleted, Option.toList_none, List.append_nil, ← List.append_assoc]
  exact List.perm_append_comm.append_right after

theorem entries_set (table : Table Key Value) {i : Nat} (hi : i < table.length)
    (slot : Slot Key Value) :
    (entries (table.set i slot)).Perm (slot.held.toList ++ entries (table.set i .deleted)) := by
  obtain ⟨before, after, _, hset⟩ := entries_split table hi
  rw [hset, hset, held_deleted, Option.toList_none, List.append_nil, ← List.append_assoc]
  exact List.perm_append_comm.append_right after

/-- A new entry in a slot that has none. -/
theorem entries_fill (table : Table Key Value) {i : Nat} (hi : i < table.length)
    (hnone : (slotAt table i).held = none) (key : Key) (value : Value) :
    (entries (table.set i (.filled key value))).Perm ((key, value) :: entries table) := by
  have hat := entries_at table hi
  rw [hnone, Option.toList_none, List.nil_append] at hat
  exact (entries_set table hi (.filled key value)).trans (hat.symm.cons (key, value))

/-- An entry is taken out. -/
theorem entries_delete (table : Table Key Value) {i : Nat} {key : Key} {value : Value}
    (h : slotAt table i = .filled key value) :
    (entries table).Perm ((key, value) :: entries (table.set i .deleted)) := by
  have hat := entries_at table (filled_lt h)
  rwa [h] at hat

/-- With fewer entries than slots some slot has none. -/
theorem exists_unfilled {table : Table Key Value} (h : (entries table).length < table.length) :
    ∃ i < table.length, (slotAt table i).held = none := by
  by_contra hall
  have hsome : ∀ slot ∈ table, slot.held ≠ none := by
    intro slot hslot hnone
    obtain ⟨i, hi, rfl⟩ := List.getElem_of_mem hslot
    exact hall ⟨i, hi, by rw [slotAt_eq_getElem table hi, hnone]⟩
  have hlen : (entries table).length = table.length := by
    clear h hall
    unfold entries
    induction table with
    | nil => rfl
    | cons slot table ih =>
      obtain ⟨entry, hentry⟩ := Option.ne_none_iff_exists'.mp (hsome slot List.mem_cons_self)
      rw [List.filterMap_cons_some hentry, List.length_cons, List.length_cons,
        ih fun s hs => hsome s (List.mem_cons_of_mem slot hs)]
  omega

/-! ## Probes -/

/-- The index that a probe comes to after `d` steps. -/
def probe (size start d : Nat) : Nat := (start + d) % size

theorem probe_lt {size : Nat} (h : 0 < size) (start d : Nat) : probe size start d < size :=
  Nat.mod_lt _ h

theorem probe_zero (size start : Nat) : probe size start 0 = start % size := rfl

theorem probe_succ (size start d : Nat) :
    (probe size start d + 1) % size = probe size start (d + 1) := by
  rw [probe, probe, Nat.mod_add_mod, Nat.add_assoc]

/-- After a whole turn the probe is where it started. -/
theorem probe_size (size start : Nat) : probe size start size = probe size start 0 := by
  rw [probe, probe, Nat.add_mod_right, Nat.add_zero]

theorem exists_probe {size i : Nat} (start : Nat) (hi : i < size) :
    ∃ d < size, probe size start d = i := by
  have hsize : 0 < size := Nat.zero_lt_of_lt hi
  have hstart := Nat.mod_lt start hsize
  refine ⟨(i + (size - start % size)) % size, Nat.mod_lt _ hsize, ?_⟩
  rw [probe, Nat.add_mod_mod, ← Nat.mod_add_mod]
  have hsum : start % size + (i + (size - start % size)) = i + size := by omega
  rw [hsum, Nat.add_mod_right, Nat.mod_eq_of_lt hi]

/-- Before the whole turn it is not. -/
theorem probe_ne_start {size d : Nat} (start : Nat) (hpos : 0 < d) (hd : d < size) :
    probe size start d ≠ probe size start 0 := by
  intro h
  have hsize : 0 < size := Nat.zero_lt_of_lt hd
  have hstart := Nat.mod_lt start hsize
  rw [probe, probe, Nat.add_zero, ← Nat.mod_add_mod] at h
  by_cases hwrap : start % size + d < size
  · rw [Nat.mod_eq_of_lt hwrap] at h
    omega
  · rw [Nat.mod_eq_sub_mod (Nat.le_of_not_lt hwrap),
      Nat.mod_eq_of_lt (show start % size + d - size < size by omega)] at h
    omega

/-- A probe comes to the index `i` before any empty slot. -/
def Reaches (table : Table Key Value) (start i : Nat) : Prop :=
  ∃ d < table.length, probe table.length start d = i ∧
    ∀ e < d, slotAt table (probe table.length start e) ≠ .empty

/-- As long as no slot is emptied, what was reached stays so. -/
theorem Reaches.set {table : Table Key Value} {start j i : Nat} {slot : Slot Key Value}
    (h : Reaches table start j) (hi : i < table.length) (hslot : slot ≠ .empty) :
    Reaches (table.set i slot) start j := by
  obtain ⟨d, hd, hj, hbefore⟩ := h
  refine ⟨d, by rwa [List.length_set], by rwa [List.length_set], fun e he => ?_⟩
  rw [List.length_set, slotAt_set table hi]
  split
  · exact hslot
  · exact hbefore e he

/-! ## The invariant -/

/-- Every entry is reached from the hash of its key, and no key has two. -/
structure Chained (hash : Key → Nat) (table : Table Key Value) : Prop where
  reach : ∀ i key value, slotAt table i = .filled key value → Reaches table (hash key) i
  unique : ((entries table).map Prod.fst).Nodup

/-- No slot has an entry of the key. -/
def Absent (table : Table Key Value) (key : Key) : Prop :=
  ∀ i value, slotAt table i ≠ .filled key value

theorem absent_iff {table : Table Key Value} {key : Key} :
    Absent table key ↔ key ∉ (entries table).map Prod.fst := by
  constructor
  · rw [List.mem_map]
    rintro h ⟨⟨_, value⟩, hmem, rfl⟩
    obtain ⟨i, hi⟩ := mem_entries.mp hmem
    exact h i value hi
  · intro h i value hi
    exact h (List.mem_map.mpr ⟨(key, value), mem_entries.mpr ⟨i, hi⟩, rfl⟩)

variable {hash : Key → Nat} {table : Table Key Value}

theorem chained_replicate (hash : Key → Nat) (n : Nat) :
    Chained hash (List.replicate n (.empty : Slot Key Value)) where
  reach i key value h := by
    have hi := filled_lt h
    rw [slotAt_eq_getElem _ hi, List.getElem_replicate] at h
    cases h
  unique := by
    rw [entries, List.filterMap_replicate_of_none held_empty]
    exact List.nodup_nil

/-- A key that a probe has not seen up to an empty slot has no entry. -/
theorem Chained.absent_of_empty (h : Chained hash table) {key : Key} {d : Nat}
    (hempty : slotAt table (probe table.length (hash key) d) = .empty)
    (hpassed : ∀ e < d, ∀ value,
      slotAt table (probe table.length (hash key) e) ≠ .filled key value) :
    Absent table key := by
  intro i value hi
  obtain ⟨d', hd', rfl, hbefore⟩ := h.reach i key value hi
  rcases Nat.lt_trichotomy d' d with hlt | rfl | hlt
  · exact hpassed d' hlt value hi
  · rw [hempty] at hi
    cases hi
  · exact hbefore d hlt hempty

/-- Nor has one that was not seen in a whole turn. -/
theorem absent_of_turn {key : Key} {start : Nat} (hpassed : ∀ e < table.length, ∀ value,
    slotAt table (probe table.length start e) ≠ .filled key value) : Absent table key := by
  intro i value hi
  obtain ⟨d, hd, rfl⟩ := exists_probe start (filled_lt hi)
  exact hpassed d hd value hi

/-! ### What keeps it -/

theorem Chained.fill (h : Chained hash table) {i : Nat} {key : Key} (hi : i < table.length)
    (hnone : (slotAt table i).held = none) (habsent : Absent table key)
    (hreach : Reaches table (hash key) i) (value : Value) :
    Chained hash (table.set i (.filled key value)) where
  reach j key' value' hj := by
    rw [slotAt_set table hi] at hj
    split at hj
    · rename_i hji
      cases hj
      rw [hji]
      exact hreach.set hi nofun
    · exact (h.reach j key' value' hj).set hi nofun
  unique := by
    rw [((entries_fill table hi hnone key value).map Prod.fst).nodup_iff, List.map_cons,
      List.nodup_cons]
    exact ⟨absent_iff.mp habsent, h.unique⟩

/-- A new value in the slot of its key. -/
theorem Chained.write (h : Chained hash table) {i : Nat} {key : Key} {old : Value}
    (hi : slotAt table i = .filled key old) (value : Value) :
    Chained hash (table.set i (.filled key value)) where
  reach j key' value' hj := by
    rw [slotAt_set table (filled_lt hi)] at hj
    split at hj
    · rename_i hji
      cases hj
      rw [hji]
      exact (h.reach i key old hi).set (filled_lt hi) nofun
    · exact (h.reach j key' value' hj).set (filled_lt hi) nofun
  unique := by
    have hunique := h.unique
    rw [((entries_delete table hi).map Prod.fst).nodup_iff] at hunique
    rw [((entries_set table (filled_lt hi) (.filled key value)).map Prod.fst).nodup_iff]
    exact hunique

/-- A tombstone in the place of an entry. -/
theorem Chained.delete (h : Chained hash table) {i : Nat} {key : Key} {value : Value}
    (hi : slotAt table i = .filled key value) : Chained hash (table.set i .deleted) where
  reach j key' value' hj := by
    rw [slotAt_set table (filled_lt hi)] at hj
    split at hj
    · cases hj
    · exact (h.reach j key' value' hj).set (filled_lt hi) nofun
  unique := by
    have hunique := h.unique
    rw [((entries_delete table hi).map Prod.fst).nodup_iff, List.map_cons] at hunique
    exact hunique.of_cons

/-- A key is in one slot only. -/
theorem Chained.slot_unique (h : Chained hash table) {i j : Nat} {key : Key} {value value' : Value}
    (hi : slotAt table i = .filled key value) (hj : slotAt table j = .filled key value') :
    i = j := by
  by_contra hne
  have hunique := h.unique
  rw [((entries_delete table hi).map Prod.fst).nodup_iff, List.map_cons, List.nodup_cons] at hunique
  refine hunique.1 (List.mem_map.mpr ⟨(key, value'), mem_entries.mpr ⟨j, ?_⟩, rfl⟩)
  rw [slotAt_set table (filled_lt hi), if_neg (Ne.symm hne), hj]

/-! ## The finite map of a list of entries -/

/-- The entries are those of the finite map, each key once. -/
structure Lists (es : List (Key × Value)) (content : Key → Option Value) : Prop where
  unique : (es.map Prod.fst).Nodup
  mem_iff : ∀ key value, (key, value) ∈ es ↔ content key = some value

section Lists

variable {es es' : List (Key × Value)} {content : Key → Option Value} {key : Key} {value : Value}

theorem lists_nil : Lists ([] : List (Key × Value)) fun _ => none :=
  ⟨List.nodup_nil, fun _ _ => by simp⟩

theorem Lists.perm (h : Lists es content) (hperm : es.Perm es') : Lists es' content where
  unique := (hperm.map Prod.fst).nodup_iff.mp h.unique
  mem_iff key value := hperm.mem_iff.symm.trans (h.mem_iff key value)

theorem Lists.not_mem_iff (h : Lists es content) :
    key ∉ es.map Prod.fst ↔ content key = none := by
  rw [Option.eq_none_iff_forall_ne_some, List.mem_map]
  constructor
  · exact fun hnot value hvalue => hnot ⟨(key, value), (h.mem_iff key value).mpr hvalue, rfl⟩
  · rintro hnone ⟨⟨_, value⟩, hmem, rfl⟩
    exact hnone value ((h.mem_iff _ value).mp hmem)

variable [DecidableEq Key]

theorem Lists.cons (h : Lists es content) (hnone : content key = none) :
    Lists ((key, value) :: es) (Function.update content key (some value)) where
  unique := List.nodup_cons.mpr ⟨h.not_mem_iff.mpr hnone, h.unique⟩
  mem_iff key' value' := by
    rw [List.mem_cons, Prod.mk.injEq, h.mem_iff]
    by_cases hkey : key' = key
    · subst hkey
      simp [hnone, eq_comm]
    · simp [hkey]

/-- Without its first entry the list is that of the map without the key. -/
theorem Lists.tail (h : Lists ((key, value) :: es) content) :
    Lists es (Function.update content key none) where
  unique := (List.nodup_cons.mp h.unique).2
  mem_iff key' value' := by
    have hnot : key ∉ es.map Prod.fst := (List.nodup_cons.mp h.unique).1
    by_cases hkey : key' = key
    · subst hkey
      rw [Function.update_self]
      exact iff_of_false (fun hmem => hnot (List.mem_map.mpr ⟨_, hmem, rfl⟩)) nofun
    · have hmem := h.mem_iff key' value'
      rw [List.mem_cons, Prod.mk.injEq] at hmem
      rw [Function.update_of_ne hkey, ← hmem]
      simp [hkey]

/-- Another value for the key of the first entry. -/
theorem Lists.write {old : Value} (h : Lists ((key, old) :: es) content) :
    Lists ((key, value) :: es) (Function.update content key (some value)) := by
  have hcons : Lists ((key, value) :: es)
      (Function.update (Function.update content key none) key (some value)) :=
    h.tail.cons (Function.update_self key none content)
  rwa [Function.update_idem] at hcons

end Lists

end open_addressing
