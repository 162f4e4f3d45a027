-- The reads of the parser: all that it does but its comparisons with a word stays inside of the
-- page where the loop that it stands in does, and every scan ends.
import Seamus.CheckedParser
import Seamus.Library.Faults
import Mathlib.Order.Basic

open seamus.html_tags seamus.html faults

namespace seamus.checked_parser

variable {page : Page} {start stop p : Nat}

/-! ## Reads -/

theorem read_ok (h : p < page.size) : read page p = .ok (page.mem p) := if_pos h

theorem slice_succ (start len : Nat) :
    page.slice start (len + 1) = page.mem start :: page.slice (start + 1) len := by
  simp [Page.slice, List.range_succ_eq_map, Function.comp_def, Nat.add_assoc, Nat.add_comm 1]

theorem readSlice_ok {start len : Nat} (h : len = 0 ∨ start + len ≤ page.size) :
    readSlice page start len = .ok (page.slice start len) := by
  induction len generalizing start with
  | zero => rfl
  | succ len ih =>
    have hread : read page start = .ok (page.mem start) := read_ok (by omega)
    have hrest : readSlice page (start + 1) len = .ok (page.slice (start + 1) len) :=
      ih (by omega)
    simp [readSlice, hread, hrest, slice_succ]

theorem test_ok (isIt : UInt8 → Bool) (h : p < page.size) :
    test page isIt p = .ok (isIt (page.mem p)) := by
  simp [test, read_ok h]

theorem both_ok {a b : Checked Bool} {x y : Bool} (ha : a = .ok x) (hb : x = true → b = .ok y) :
    both a b = .ok (x && y) := by
  subst ha
  cases x with
  | false => rfl
  | true => simp [both, hb]

theorem le_advance (found : Nat → Bool) (turns p : Nat) : p ≤ html.advance found turns p := by
  induction turns generalizing p with
  | zero => exact le_rfl
  | succ turns ih =>
    unfold html.advance
    split
    · exact le_rfl
    · exact (Nat.le_succ p).trans (ih (p + 1))

theorem advance_le (found : Nat → Bool) (turns p : Nat) :
    html.advance found turns p ≤ p + turns := by
  induction turns generalizing p with
  | zero => exact le_rfl
  | succ turns ih =>
    unfold html.advance
    split
    · exact Nat.le_add_right p _
    · exact (ih (p + 1)).trans (by omega)

theorem le_find (page : Page) (isIt : UInt8 → Bool) (p stop : Nat) : p ≤ page.find isIt p stop :=
  le_advance _ _ _

theorem find_le (page : Page) (isIt : UInt8 → Bool) (h : p ≤ stop) : page.find isIt p stop ≤ stop :=
  (advance_le _ _ _).trans (by omega)

/-- A scan ends, at the place of the loop without bounds. -/
theorem scan_ok {found : Nat → Checked Bool} {f : Nat → Bool} {ahead turns : Nat}
    (hfound : ∀ q, q + ahead < stop → found q = .ok (f q)) (hturns : stop - p < turns) :
    scan found ahead stop turns p = .ok (html.advance f (stop - ahead - p) p) := by
  induction turns generalizing p with
  | zero => omega
  | succ turns ih =>
    unfold scan
    by_cases hp : p + ahead < stop
    · obtain ⟨left, hleft⟩ : ∃ left, stop - ahead - p = left + 1 := ⟨stop - ahead - p - 1, by omega⟩
      rw [if_pos hp, hfound p hp, hleft, html.advance, ok_bind]
      cases hf : f p with
      | true => simp
      | false =>
        simp only [Bool.false_eq_true, if_false]
        rw [ih (by omega)]
        congr 2
        omega
    · have hleft : stop - ahead - p = 0 := by omega
      rw [if_neg hp, hleft]
      rfl

theorem find_ok (isIt : UInt8 → Bool) (p : Nat) (hstop : stop ≤ page.size) :
    find page isIt p stop = .ok (page.find isIt p stop) :=
  have hfound : ∀ q, q + 0 < stop → test page isIt q = .ok (isIt (page.mem q)) :=
    fun _ hq => test_ok isIt (by omega)
  scan_ok hfound (Nat.lt_succ_self _)

theorem isCloseMark_ok (h : p + 1 < page.size) :
    isCloseMark page p = .ok (html.isCloseMark page p) :=
  both_ok (test_ok _ (by omega)) fun _ => test_ok _ h

theorem isCommentEnd_ok (h : p + 2 < page.size) :
    isCommentEnd page p = .ok (html.isCommentEnd page p) := by
  refine (both_ok (test_ok _ (by omega)) fun _ =>
    both_ok (test_ok _ (by omega)) fun _ => test_ok _ h).trans ?_
  simp [html.isCommentEnd, Bool.and_assoc]

/-! ### Comparisons -/

/-- From `p` to the end of the page stands a beginning of the word, and no more. -/
def CutOff (page : Page) (p : Nat) (word : Nat → UInt8) (len : Nat) : Prop :=
  ∃ n < len, p + n = page.size ∧
    ∀ i < n, tolower (page.mem (p + i)) = tolower (word i) ∧ page.mem (p + i) ≠ 0

theorem cutOff_succ (word : Nat → UInt8) (len : Nat) (hp : p < page.size) :
    CutOff page p word (len + 1) ↔
      (tolower (page.mem p) = tolower (word 0) ∧ page.mem p ≠ 0) ∧
        CutOff page (p + 1) (fun i => word (i + 1)) len := by
  constructor
  · rintro ⟨n, hn, hsize, hsame⟩
    obtain ⟨n, rfl⟩ : ∃ m, n = m + 1 := ⟨n - 1, by omega⟩
    refine ⟨hsame 0 (by omega), n, by omega, by omega, ?_⟩
    intro i hi
    have h := hsame (i + 1) (by omega)
    rwa [← Nat.add_assoc, Nat.add_right_comm] at h
  · rintro ⟨hfirst, n, hn, hsize, hsame⟩
    refine ⟨n + 1, by omega, by omega, ?_⟩
    intro i hi
    cases i with
    | zero => exact hfirst
    | succ i =>
      have h := hsame i (by omega)
      rwa [Nat.add_right_comm] at h

theorem readFrom_succ (page : Page) (p : Nat) :
    (fun i => readFrom page p (i + 1)) = readFrom page (p + 1) := by
  funext i
  unfold readFrom
  congr 1
  omega

theorem ptr_succ (page : Page) (p : Nat) :
    (fun i => page.ptr p (i + 1)) = page.ptr (p + 1) := by
  funext i
  unfold Page.ptr
  congr 1
  omega

theorem strncasecmp_ok {a b : Nat → Checked UInt8} {x y : Nat → UInt8} {n : Nat}
    (ha : ∀ i < n, a i = .ok (x i)) (hb : ∀ i < n, b i = .ok (y i)) :
    strncasecmp a b n = .ok (html_tags.strncasecmp x y n) := by
  induction n generalizing a b x y with
  | zero => rfl
  | succ n ih =>
    have hrest : strncasecmp (fun i => a (i + 1)) (fun i => b (i + 1)) n =
        .ok (html_tags.strncasecmp (fun i => x (i + 1)) (fun i => y (i + 1)) n) :=
      ih (fun i hi => ha (i + 1) (by omega)) (fun i hi => hb (i + 1) (by omega))
    unfold strncasecmp html_tags.strncasecmp
    rw [ha 0 (by omega), hb 0 (by omega), hrest]
    simp only [ok_bind]
    cases compare (tolower (x 0)) (tolower (y 0)) with
    | lt => rfl
    | gt => rfl
    | eq => dsimp only; split <;> rfl

/-- The comparison of what stands at `p` with a word leaves the page where it is cut off. -/
theorem strncasecmp_settles {b : Nat → Checked UInt8} {word : Nat → UInt8} {n : Nat}
    (hp : p ≤ page.size) (hb : ∀ i < n, b i = .ok (word i)) :
    Settles .outside (¬CutOff page p word n) (strncasecmp (readFrom page p) b n)
      (html_tags.strncasecmp (page.ptr p) word n) := by
  induction n generalizing p b word with
  | zero => exact .fine (fun ⟨n, hn, _⟩ => absurd hn (Nat.not_lt_zero n)) rfl
  | succ n ih =>
    rcases Nat.lt_or_ge p page.size with hlt | hge
    · have hread : readFrom page p 0 = .ok (page.mem p) := read_ok hlt
      unfold strncasecmp html_tags.strncasecmp
      rw [hread, hb 0 (by omega), readFrom_succ, ptr_succ]
      simp only [ok_bind]
      have hrest : Settles .outside (¬CutOff page (p + 1) (fun i => word (i + 1)) n)
          (strncasecmp (readFrom page (p + 1)) (fun i => b (i + 1)) n)
          (html_tags.strncasecmp (page.ptr (p + 1)) (fun i => word (i + 1)) n) :=
        ih hlt (fun i hi => hb (i + 1) (by omega))
      cases hcmp : compare (tolower (page.mem p)) (tolower (word 0)) with
      | eq =>
        have hsame : tolower (page.mem p) = tolower (word 0) := Std.LawfulEqOrd.eq_of_compare hcmp
        have hcmp' : compare (tolower (page.ptr p 0)) (tolower (word 0)) = .eq := hcmp
        rw [hcmp']
        dsimp only
        by_cases hzero : page.mem p = 0
        · have hzero' : page.ptr p 0 = 0 := hzero
          rw [if_pos hzero, if_pos hzero']
          exact .fine (fun h => ((cutOff_succ word n hlt).mp h).1.2 hzero) rfl
        · have hzero' : ¬page.ptr p 0 = 0 := hzero
          rw [if_neg hzero, if_neg hzero']
          refine hrest.congr (not_congr ?_)
          rw [cutOff_succ word n hlt]
          exact (and_iff_right ⟨hsame, hzero⟩).symm
      | _ =>
        have hcmp' : compare (tolower (page.ptr p 0)) (tolower (word 0)) = _ := hcmp
        rw [hcmp']
        refine .fine (fun h => ?_) rfl
        rw [((cutOff_succ word n hlt).mp h).1.1, Std.ReflOrd.compare_self] at hcmp
        cases hcmp
    · have hread : readFrom page p 0 = .error .outside := if_neg (by omega)
      unfold strncasecmp
      rw [hread, error_bind]
      refine .stopped (not_not.mpr ⟨0, by omega, by omega, ?_⟩) rfl
      intro i hi
      omega

theorem sameCase_settles {b : Nat → Checked UInt8} {word : Nat → UInt8} {n : Nat}
    (hp : p ≤ page.size) (hb : ∀ i < n, b i = .ok (word i)) :
    Settles .outside (¬CutOff page p word n) (sameCase (readFrom page p) b n)
      (html_tags.strncasecmp (page.ptr p) word n = .eq) :=
  (strncasecmp_settles hp hb).bind_ok fun _ => rfl

end seamus.checked_parser
