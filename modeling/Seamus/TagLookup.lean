-- The search for a tag: it finds the names of the table in any case of their letters, and no
-- others.
import Mathlib.Data.List.GetD
import Seamus.HtmlTags
import Seamus.Library.BinarySearch

open seamus.html_tags

namespace seamus.tag_lookup

/-- The `len` bytes from a place in memory on. -/
def bytesOf (name : Nat → UInt8) (len : Nat) : Bytes := (List.range len).map name

/-- The same bytes but for the case of ASCII letters. -/
def SameName (a b : Bytes) : Prop := a.map tolower = b.map tolower

instance (a b : Bytes) : Decidable (SameName a b) := inferInstanceAs (Decidable (_ = _))

/-! ## The comparison -/

/-- The comparison sees the bytes of its limit only, and not their case. -/
theorem strncasecmp_congr (n : Nat) {a b b' : Nat → UInt8}
    (h : ∀ i < n, tolower (b i) = tolower (b' i)) : strncasecmp a b n = strncasecmp a b' n := by
  induction n generalizing a b b' with
  | zero => rfl
  | succ n ih =>
    rw [strncasecmp, strncasecmp, h 0 (Nat.succ_pos n),
      ih (a := fun i => a (i + 1)) fun i hi => h (i + 1) (Nat.succ_lt_succ hi)]

/-- Bytes that compare equal are the same, up to the limit or a zero byte. -/
theorem strncasecmp_eq (n : Nat) {a b : Nat → UInt8} (h : strncasecmp a b n = .eq)
    (hzero : ∀ i < n, a i ≠ 0) : ∀ i < n, tolower (a i) = tolower (b i) := by
  induction n generalizing a b with
  | zero => exact fun i hi => absurd hi (Nat.not_lt_zero i)
  | succ n ih =>
    have hhead : a 0 ≠ 0 := hzero 0 (Nat.succ_pos n)
    rw [strncasecmp] at h
    cases hcmp : compare (tolower (a 0)) (tolower (b 0)) with
    | lt =>
      rw [hcmp] at h
      cases h
    | gt =>
      rw [hcmp] at h
      cases h
    | eq =>
      rw [hcmp] at h
      simp only [hhead, if_false] at h
      intro i hi
      cases i with
      | zero => exact Std.LawfulEqOrd.eq_of_compare hcmp
      | succ i =>
        exact ih h (fun i hi => hzero (i + 1) (Nat.succ_lt_succ hi)) i (Nat.lt_of_succ_lt_succ hi)

theorem sameName_iff (tag : Bytes) (name : Nat → UInt8) (len : Nat) :
    SameName (bytesOf name len) tag ↔
      tag.length = len ∧ ∀ i < len, tolower (tag.getD i 0) = tolower (name i) := by
  unfold SameName bytesOf
  constructor
  · intro h
    have hlength := congrArg List.length h
    simp only [List.length_map, List.length_range] at hlength
    refine ⟨hlength.symm, fun i hi => ?_⟩
    have hget := congrArg (fun l => l[i]?) h
    simp only [List.getElem?_map, List.getElem?_range hi, Option.map_some,
      List.getElem?_eq_getElem (hlength ▸ hi), Option.some.injEq] at hget
    rw [List.getD_eq_getElem _ _ (hlength ▸ hi)]
    exact hget.symm
  · rintro ⟨hlength, h⟩
    apply List.ext_getElem
    · simp only [List.length_map, List.length_range, hlength]
    · intro i h1 h2
      simp only [List.length_map, List.length_range] at h1 h2
      simp only [List.getElem_map, List.getElem_range]
      rw [← h i h1, List.getD_eq_getElem _ _ h2]

/-! ## The search -/

/-- What the search does after a comparison: after an equal one with another length it goes on to
the left. -/
def turnsTo (name : Nat → UInt8) (len m : Nat) : Ordering :=
  let (tag, _) := tagsRecognized.getD m ("", .ordinaryText)
  match strncasecmp (literal tag) name len with
  | .lt => .lt
  | .gt => .gt
  | .eq => if (ascii tag).length = len then .eq else .gt

theorem lookupLoop_eq (name : Nat → UInt8) (len turns l r : Nat) :
    lookupLoop name len turns l r =
      match binary_search.search (turnsTo name len) turns l r with
      | some m => (tagsRecognized.getD m ("", .ordinaryText)).2
      | none => .ordinaryText := by
  induction turns generalizing l r with
  | zero => rfl
  | succ turns ih =>
    rw [lookupLoop, binary_search.search]
    by_cases hlt : l < r
    · rw [if_pos hlt, if_pos hlt]
      simp only [turnsTo]
      cases strncasecmp (literal (tagsRecognized.getD (l + (r - l) / 2) ("", .ordinaryText)).1)
        name len with
      | lt => exact ih _ _
      | gt => exact ih _ _
      | eq =>
        simp only
        by_cases hlen : (ascii (tagsRecognized.getD (l + (r - l) / 2)
            ("", .ordinaryText)).1).length = len
        · rw [if_pos hlen, if_pos hlen]
        · rw [if_neg hlen, if_neg hlen]
          exact ih _ _
    · rw [if_neg hlt, if_neg hlt]

/-- No tag of the table has a zero byte, and none stands for ordinary text. -/
theorem tags_plain : ∀ e ∈ tagsRecognized, (∀ b ∈ ascii e.1, b ≠ 0) ∧ e.2 ≠ .ordinaryText := by
  -- `all` goes through the bytes of a name, where a `∀` would be decided for every byte there is
  have hall : ∀ e ∈ tagsRecognized,
      (ascii e.1).all (fun b => b != 0) = true ∧ e.2 ≠ .ordinaryText := by decide +kernel
  intro e he
  obtain ⟨hbytes, haction⟩ := hall e he
  exact ⟨fun b hb => bne_iff_ne.mp (List.all_eq_true.mp hbytes b hb), haction⟩

/-- Every tag of the table is found under its own name. -/
theorem tags_found :
    ∀ e ∈ tagsRecognized, lookupPossibleTag (literal e.1) (ascii e.1).length = e.2 := by
  decide +kernel

/-- What is found is the name that was looked for. -/
theorem turnsTo_eq {name : Nat → UInt8} {len m : Nat} (hm : m < tagsRecognized.length)
    (h : turnsTo name len m = .eq) : SameName (bytesOf name len) (ascii tagsRecognized[m].1) := by
  unfold turnsTo at h
  rw [List.getD_eq_getElem _ _ hm] at h
  simp only at h
  cases hcmp : strncasecmp (literal tagsRecognized[m].1) name len with
  | lt =>
    rw [hcmp] at h
    cases h
  | gt =>
    rw [hcmp] at h
    cases h
  | eq =>
    rw [hcmp] at h
    simp only at h
    split at h
    · rename_i hlen
      have hplain := (tags_plain _ (List.getElem_mem hm)).1
      refine (sameName_iff _ _ _).mpr ⟨hlen, strncasecmp_eq len hcmp fun i hi => ?_⟩
      rw [List.getD_eq_getElem _ _ (hlen ▸ hi)]
      exact hplain _ (List.getElem_mem _)
    · cases h

/-- The search goes the same way for all names that are the same but for case. -/
theorem lookup_congr {name name' : Nat → UInt8} {len : Nat}
    (h : ∀ i < len, tolower (name i) = tolower (name' i)) :
    lookupPossibleTag name len = lookupPossibleTag name' len := by
  unfold lookupPossibleTag
  rw [lookupLoop_eq, lookupLoop_eq]
  have hturns : turnsTo name len = turnsTo name' len := by
    funext m
    unfold turnsTo
    simp only [strncasecmp_congr len h]
  rw [hturns]

theorem lookup_none {name : Nat → UInt8} {len : Nat}
    (h : ∀ e ∈ tagsRecognized, ¬SameName (bytesOf name len) (ascii e.1)) :
    lookupPossibleTag name len = .ordinaryText := by
  rw [lookupPossibleTag, lookupLoop_eq]
  cases hsearch : binary_search.search (turnsTo name len) (tagsRecognized.length + 1) 0
    tagsRecognized.length with
  | none => rfl
  | some m =>
    obtain ⟨_, hm, heq⟩ := binary_search.search_sound _ _ _ _ _ hsearch
    exact absurd (turnsTo_eq hm heq) (h _ (List.getElem_mem hm))

theorem lookup_tag {name : Nat → UInt8} {len : Nat} {e : String × DesiredAction}
    (he : e ∈ tagsRecognized) (h : SameName (bytesOf name len) (ascii e.1)) :
    lookupPossibleTag name len = e.2 := by
  obtain ⟨hlen, hbytes⟩ := (sameName_iff _ _ _).mp h
  rw [← tags_found e he, hlen]
  exact lookup_congr fun i hi => (hbytes i hi).symm

/-- A name gives the action of a tag if it is that tag but for the case of letters, and is no tag
if it is none of the table. -/
theorem lookup_finds_the_tag (name : Nat → UInt8) (len : Nat) (action : DesiredAction) :
    lookupPossibleTag name len = action ↔
      (∃ tag, (tag, action) ∈ tagsRecognized ∧ SameName (bytesOf name len) (ascii tag)) ∨
        action = .ordinaryText ∧ ∀ e ∈ tagsRecognized, ¬SameName (bytesOf name len) (ascii e.1) := by
  constructor
  · intro h
    by_cases hnone : ∀ e ∈ tagsRecognized, ¬SameName (bytesOf name len) (ascii e.1)
    · exact Or.inr ⟨h.symm.trans (lookup_none hnone), hnone⟩
    · simp only [not_forall, not_not] at hnone
      obtain ⟨e, he, hsame⟩ := hnone
      refine Or.inl ⟨e.1, ?_, hsame⟩
      rw [← h, lookup_tag he hsame]
      exact he
  · rintro (⟨tag, htag, hsame⟩ | ⟨rfl, hnone⟩)
    · exact lookup_tag htag hsame
    · exact lookup_none hnone

end seamus.tag_lookup
