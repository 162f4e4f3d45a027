-- The lines of a robots.txt: the parser reads the statements of the lines that are neither blank
-- nor comments. Only the first line is read where it starts, with the white space before it.
import Seamus.EmptyDirectives
import Mathlib.Data.List.TakeWhile

open seamus.url_store seamus.robots_txt seamus.robots_priority seamus.empty_directives

namespace seamus.robots_lines

/-! ## Files -/

structure Line where
  text : Bytes
  noEnd : ∀ c ∈ text, isLineEnd c = false

inductive LineEnd where
  | lf | cr | crlf
  deriving DecidableEq, Repr

def LineEnd.bytes : LineEnd → Bytes
  | .lf => [10]
  | .cr => [13]
  | .crlf => [13, 10]

abbrev Lines := List (Line × LineEnd)

/-- The bytes of the lines, the last one without an end. -/
def body : Lines → Line → Bytes
  | [], last => last.text
  | (l, e) :: lines, last => l.text ++ (e.bytes ++ body lines last)

def content (bom : Bool) (lines : Lines) (last : Line) : Bytes :=
  (if bom then Utf8BOMString else []) ++ body lines last

def firstLine : Lines → Line → Line
  | [], last => last
  | (l, _) :: _, _ => l

def strip (line : Line) : Bytes := line.text.dropWhile isBlank

/-- A blank line or a comment. -/
def isIgnored (line : Line) : Bool :=
  match strip line with
  | [] => true
  | c :: _ => c = 35

/-- Ignored lines come in before other lines, and line ends become others. -/
inductive Variant : Lines → Lines → Prop
  | nil : Variant [] []
  | keep {lines lines' : Lines} (l : Line) (e e' : LineEnd) (h : Variant lines lines') :
    Variant ((l, e) :: lines) ((l, e') :: lines')
  | insert {lines lines' : Lines} (l : Line) (e : LineEnd) (hl : isIgnored l = true)
    (h : Variant lines lines') : Variant lines ((l, e) :: lines')

/-- A user agent behind white space. -/
def IndentedUserAgent (line : Line) : Prop :=
  (∃ c text, line.text = c :: text ∧ isBlank c = true) ∧ (identify (strip line)).1 = .userAgent

/-! ## Statements -/

/-- The lines that are not ignored, without the white space before them. -/
def statements : Lines → Line → List Bytes
  | [], last => if isIgnored last then [] else [strip last]
  | (l, _) :: lines, last =>
    if isIgnored l then statements lines last else strip l :: statements lines last

abbrev Token := StatementType × Bytes

/-- The statement of a line with its argument. Sitemaps play no part. -/
def token (s : Bytes) : Option Token :=
  match identify s with
  | (.invalid, _) => none
  | (.sitemap, _) => none
  | (type, rest) => some (type, (getArgument rest).1)

def tokens (ss : List Bytes) : List Token := ss.filterMap token

def isUserAgent (t : Token) : Bool := t.1 = .userAgent

def isDirective (t : Token) : Bool :=
  match t.1 with
  | .permission _ => true
  | .crawlDelay => true
  | _ => false

def directiveOf (t : Token) : Option (Permission × Bytes) :=
  match t.1 with
  | .permission p => some (p, t.2)
  | _ => none

def laterDelay (crawlDelay : Int) (t : Token) : Int :=
  match t.1 with
  | .crawlDelay => if atoi t.2 ≠ 0 then max (atoi t.2) crawlDelay else crawlDelay
  | _ => crawlDelay

/-- The groups that start here: user agents, then directives, then the next group. -/
def groupsOf : List Token → List Group
  | [] => []
  | t :: toks =>
    if isUserAgent t then
      let rest := toks.dropWhile isUserAgent
      ⟨t.2 :: (toks.takeWhile isUserAgent).map Prod.snd,
        (rest.takeWhile isDirective).filterMap directiveOf,
        (rest.takeWhile isDirective).foldl laterDelay 0⟩ :: groupsOf (rest.dropWhile isDirective)
    else []
termination_by toks => toks.length
decreasing_by
  have h1 := (List.dropWhile_suffix isUserAgent (l := toks)).length_le
  have h2 := (List.dropWhile_suffix isDirective (l := toks.dropWhile isUserAgent)).length_le
  simp only [List.length_cons]
  omega

/-! ## The next line -/

/-- What is behind a line: nothing, or its end. -/
def Tail (text : Bytes) : Prop := text = [] ∨ ∃ e rest, text = e :: rest ∧ isLineEnd e = true

def skip (text : Bytes) : Bytes := skipBlank text.length text

theorem skipBlank_length_le (turns : Nat) (text : Bytes) :
    (skipBlank turns text).length ≤ text.length := by
  induction turns generalizing text with
  | zero => exact Nat.le_refl _
  | succ turns ih =>
    cases text with
    | nil => exact Nat.le_refl _
    | cons c text =>
      rw [skipBlank]
      split
      · exact (ih text).trans (Nat.le_succ _)
      · split
        · have hle := (List.dropWhile_suffix (fun c => !isLineEnd c) (l := c :: text)).length_le
          split
          · exact Nat.zero_le _
          · rename_i e rest hrest
            rw [hrest] at hle
            refine (ih _).trans (Nat.le_trans ?_ hle)
            split
            · exact Nat.le_succ _
            · exact Nat.le_refl _
        · exact Nat.le_refl _

theorem skip_length_le (text : Bytes) : (skip text).length ≤ text.length :=
  skipBlank_length_le _ _

/-- The end of a comment, in the text behind its `#`. -/
theorem dropWhile_comment (text : Bytes) :
    (35 :: text).dropWhile (fun c => !isLineEnd c) = text.dropWhile fun c => !isLineEnd c :=
  List.dropWhile_cons_of_pos (by decide)

theorem skipBlank_turns (n : Nat) {turns : Nat} {text : Bytes} (hn : text.length ≤ n)
    (h : text.length ≤ turns) : skipBlank turns text = skip text := by
  induction n generalizing turns text with
  | zero =>
    rw [List.length_eq_zero_iff.mp (Nat.le_zero.mp hn)]
    cases turns <;> rfl
  | succ n ih =>
    cases text with
    | nil => cases turns <;> rfl
    | cons c text =>
      obtain ⟨turns, rfl⟩ : ∃ k, turns = k + 1 := ⟨turns - 1, by simp at h; omega⟩
      simp only [List.length_cons] at hn h
      rw [skip, List.length_cons, skipBlank, skipBlank]
      split
      · rw [ih (by omega) (by omega), ih (by omega) (by omega)]
      · split
        · rename_i hcomment
          subst hcomment
          have hle := (List.dropWhile_suffix (fun c => !isLineEnd c) (l := text)).length_le
          rw [dropWhile_comment]
          split
          · rfl
          · rename_i e rest hrest
            rw [hrest, List.length_cons] at hle
            have hshort : (if e = 10 then rest else e :: rest).length ≤ text.length := by
              split
              · omega
              · exact hle
            rw [ih (hshort.trans (by omega)) (hshort.trans (by omega)),
              ih (hshort.trans (by omega)) hshort]
        · rfl

theorem skip_blank {c : UInt8} (h : (isLineEnd c || isBlank c) = true) (text : Bytes) :
    skip (c :: text) = skip text := by
  rw [skip, List.length_cons, skipBlank, if_pos h]
  rfl

theorem skip_comment (text : Bytes) :
    skip (35 :: text) = skip (text.dropWhile fun c => !isLineEnd c) := by
  have hle := (List.dropWhile_suffix (fun c => !isLineEnd c) (l := text)).length_le
  rw [skip, List.length_cons, skipBlank, if_neg (by decide), if_pos rfl, dropWhile_comment]
  cases hrest : text.dropWhile fun c => !isLineEnd c with
  | nil => rfl
  | cons e rest =>
    rw [hrest, List.length_cons] at hle
    have hend : isLineEnd e = true := by
      have hhead := List.head?_dropWhile_not (fun c => !isLineEnd c) text
      rw [hrest] at hhead
      simpa using hhead
    simp only
    split
    · rw [skipBlank_turns _ (Nat.le_refl _) (by omega), skip_blank (by rw [hend]; rfl)]
    · exact skipBlank_turns _ (Nat.le_refl _) hle

theorem skip_stop {c : UInt8} (h : (isLineEnd c || isBlank c) = false) (hc : c ≠ 35)
    (text : Bytes) : skip (c :: text) = c :: text := by
  rw [skip, List.length_cons, skipBlank, if_neg (by rw [h]; exact Bool.false_ne_true), if_neg hc]

/-! ## One line -/

def NoEnd (text : Bytes) : Prop := ∀ c ∈ text, isLineEnd c = false

instance (text : Bytes) : Decidable (NoEnd text) := inferInstanceAs (Decidable (∀ c ∈ text, _))

theorem dropWhile_line {text tail : Bytes} (h : NoEnd text) (ht : Tail tail) :
    ((text ++ tail).dropWhile fun c => !isLineEnd c) = tail := by
  rw [List.dropWhile_append_of_pos fun c hc => by rw [h c hc]; rfl]
  rcases ht with rfl | ⟨e, rest, rfl, he⟩
  · rfl
  · exact List.dropWhile_cons_of_neg (by rw [he]; exact Bool.false_ne_true)

/-- From anywhere in a line, `NextLine` skips what is behind it. -/
theorem nextLine_line {text tail : Bytes} (h : NoEnd text) (ht : Tail tail) :
    nextLine (text ++ tail) = skip tail := by
  rw [nextLine, dropWhile_line h ht]
  rfl

/-- A line at its start. -/
theorem skip_line (l : Line) {tail : Bytes} (ht : Tail tail) :
    skip (l.text ++ tail) = if isIgnored l then skip tail else strip l ++ tail := by
  obtain ⟨text, hend⟩ := l
  unfold isIgnored strip
  induction text with
  | nil => rfl
  | cons c text ih =>
    obtain ⟨hc, htext⟩ := List.forall_mem_cons.mp hend
    by_cases hblank : isBlank c = true
    · rw [List.cons_append, skip_blank (by rw [hc, hblank]; rfl)]
      simp only [List.dropWhile_cons_of_pos hblank]
      exact ih htext
    · rw [Bool.not_eq_true] at hblank
      simp only [List.dropWhile_cons_of_neg (Bool.eq_false_iff.mp hblank)]
      by_cases hcomment : c = 35
      · subst hcomment
        rw [List.cons_append, skip_comment, dropWhile_line htext ht]
        rfl
      · rw [List.cons_append, skip_stop (by rw [hc, hblank]; rfl) hcomment]
        simp [hcomment]

theorem skip_lineEnd (e : LineEnd) (text : Bytes) : skip (e.bytes ++ text) = skip text := by
  cases e with
  | lf => exact skip_blank rfl text
  | cr => exact skip_blank rfl text
  | crlf => exact (skip_blank rfl _).trans (skip_blank rfl text)

theorem tail_lineEnd (e : LineEnd) (text : Bytes) : Tail (e.bytes ++ text) := by
  cases e with
  | lf => exact Or.inr ⟨_, _, rfl, rfl⟩
  | cr => exact Or.inr ⟨_, _, rfl, rfl⟩
  | crlf => exact Or.inr ⟨_, _, rfl, rfl⟩

/-- The text from the start of a statement on, and the statements from there on. -/
inductive Stands : Bytes → List Bytes → Prop
  | done : Stands [] []
  | line {s tail : Bytes} {ss : List Bytes} (hne : s ≠ []) (hs : NoEnd s) (ht : Tail tail)
    (h : Stands (skip tail) ss) : Stands (s ++ tail) (s :: ss)

theorem strip_noEnd (l : Line) : NoEnd (strip l) :=
  fun c hc => l.noEnd c ((List.dropWhile_suffix isBlank).subset hc)

theorem strip_ne_nil {l : Line} (h : isIgnored l = false) : strip l ≠ [] := by
  intro hnil
  rw [isIgnored, hnil] at h
  cases h

theorem stands_body (lines : Lines) (last : Line) :
    Stands (skip (body lines last)) (statements lines last) := by
  induction lines with
  | nil =>
    have hskip := @skip_line last [] (Or.inl rfl)
    rw [List.append_nil] at hskip
    rw [body, hskip, statements]
    cases hl : isIgnored last with
    | true => exact .done
    | false => exact .line (strip_ne_nil hl) (strip_noEnd last) (Or.inl rfl) .done
  | cons line lines ih =>
    obtain ⟨l, e⟩ := line
    have htail := tail_lineEnd e (body lines last)
    rw [body, skip_line l htail, statements]
    rw [← skip_lineEnd e] at ih
    cases hl : isIgnored l with
    | true => exact ih
    | false => exact .line (strip_ne_nil hl) (strip_noEnd l) htail ih

/-! ## One statement -/

theorem isLineEnd_iff {c : UInt8} : isLineEnd c = true ↔ c = 10 ∨ c = 13 := by
  simp [isLineEnd]

theorem matchKeyword_tail {keyword tail : Bytes} (hk : NoEnd keyword) (ht : Tail tail)
    (s : Bytes) : matchKeyword keyword (s ++ tail) = (matchKeyword keyword s).map (· ++ tail) := by
  induction keyword generalizing s with
  | nil => rfl
  | cons k keyword ih =>
    obtain ⟨hend, hkeyword⟩ := List.forall_mem_cons.mp hk
    cases s with
    | nil =>
      rcases ht with rfl | ⟨e, rest, rfl, he⟩
      · rfl
      · have hlower : tolower e = e := by
          rcases isLineEnd_iff.mp he with rfl | rfl <;> rfl
        have hne : tolower e ≠ k := by
          rintro rfl
          rw [hlower, he] at hend
          cases hend
        exact if_pos hne
    | cons c s =>
      rw [List.cons_append, matchKeyword, matchKeyword]
      split
      · rfl
      · exact ih hkeyword s

theorem identify_tail {tail : Bytes} (ht : Tail tail) (s : Bytes) :
    identify (s ++ tail) = ((identify s).1, (identify s).2 ++ tail) := by
  unfold identify
  rw [matchKeyword_tail (by decide +kernel) ht, matchKeyword_tail (by decide +kernel) ht,
    matchKeyword_tail (by decide +kernel) ht, matchKeyword_tail (by decide +kernel) ht,
    matchKeyword_tail (by decide +kernel) ht]
  cases matchKeyword disallowString s with
  | some rest => rfl
  | none =>
    cases matchKeyword allowString s with
    | some rest => rfl
    | none =>
      cases matchKeyword userAgentString s with
      | some rest => rfl
      | none =>
        cases matchKeyword crawlDelayString s with
        | some rest => rfl
        | none => cases matchKeyword sitemapString s <;> rfl

theorem matchKeyword_suffix {keyword s rest : Bytes} (h : matchKeyword keyword s = some rest) :
    rest <:+ s := by
  induction keyword generalizing s with
  | nil =>
    cases h
    exact List.suffix_refl _
  | cons k keyword ih =>
    cases s with
    | nil => cases h
    | cons c s =>
      rw [matchKeyword] at h
      split at h
      · cases h
      · exact (ih h).trans (List.suffix_cons c s)

theorem identify_suffix (s : Bytes) : (identify s).2 <:+ s := by
  unfold identify
  split
  · exact matchKeyword_suffix ‹_›
  · split
    · exact matchKeyword_suffix ‹_›
    · split
      · exact matchKeyword_suffix ‹_›
      · split
        · exact matchKeyword_suffix ‹_›
        · split
          · exact matchKeyword_suffix ‹_›
          · exact List.suffix_refl s

/-- The bytes that no keyword starts with. -/
def noKeyword (c : UInt8) : Bool := isLineEnd c || isBlank c || c = 35

theorem identify_invalid {c : UInt8} (h : noKeyword c = true) (text : Bytes) :
    identify (c :: text) = (.invalid, c :: text) := by
  simp only [noKeyword, isLineEnd, isBlank, Bool.or_eq_true, decide_eq_true_eq] at h
  rcases h with ((rfl | rfl) | rfl | rfl) | rfl <;> rfl

/-- A scan that does not pass the end of a line stays in the line. -/
theorem span_tail {p : UInt8 → Bool} (hp : ∀ c, isLineEnd c = true → p c = false) {tail : Bytes}
    (ht : Tail tail) (s : Bytes) :
    (s ++ tail).dropWhile p = s.dropWhile p ++ tail ∧ (s ++ tail).takeWhile p = s.takeWhile p := by
  induction s with
  | nil =>
    rcases ht with rfl | ⟨e, rest, rfl, he⟩
    · exact ⟨rfl, rfl⟩
    · have hstop : ¬p e = true := by
        rw [hp e he]
        exact Bool.false_ne_true
      exact ⟨List.dropWhile_cons_of_neg hstop, List.takeWhile_cons_of_neg hstop⟩
  | cons c s ih =>
    rw [List.cons_append]
    by_cases hc : p c = true
    · rw [List.dropWhile_cons_of_pos hc, List.dropWhile_cons_of_pos hc,
        List.takeWhile_cons_of_pos hc, List.takeWhile_cons_of_pos hc, ih.1, ih.2]
      exact ⟨rfl, rfl⟩
    · rw [List.dropWhile_cons_of_neg hc, List.dropWhile_cons_of_neg hc,
        List.takeWhile_cons_of_neg hc, List.takeWhile_cons_of_neg hc]
      exact ⟨rfl, rfl⟩

theorem getArgument_tail {tail : Bytes} (ht : Tail tail) (rest : Bytes) :
    getArgument (rest ++ tail) = ((getArgument rest).1, (getArgument rest).2 ++ tail) := by
  have hblank (c : UInt8) (hc : isLineEnd c = true) : isBlank c = false := by
    rcases isLineEnd_iff.mp hc with rfl | rfl <;> rfl
  have hword (c : UInt8) (hc : isLineEnd c = true) : (!isBlank c && !isLineEnd c) = false := by
    rw [hc, Bool.not_true, Bool.and_false]
  simp only [getArgument, (span_tail hblank ht rest).1,
    span_tail hword ht (rest.dropWhile isBlank)]

theorem getArgument_suffix (rest : Bytes) : (getArgument rest).2 <:+ rest :=
  (List.dropWhile_suffix _).trans (List.dropWhile_suffix _)

theorem getArgument_noEnd {rest : Bytes} (h : NoEnd rest) : NoEnd (getArgument rest).2 :=
  fun c hc => h c ((getArgument_suffix rest).subset hc)

/-- No keyword starts here. -/
def Skipped (text : Bytes) : Prop := text = [] ∨ ∃ c rest, text = c :: rest ∧ noKeyword c = true

/-- White space is behind an argument, if it does not end the line. -/
theorem getArgument_skipped {rest : Bytes} (h : NoEnd rest) : Skipped (getArgument rest).2 := by
  cases hrest : (getArgument rest).2 with
  | nil => exact Or.inl rfl
  | cons c text =>
    refine Or.inr ⟨c, text, rfl, ?_⟩
    have hc := getArgument_noEnd h c (by rw [hrest]; exact List.mem_cons_self)
    have hhead := List.head?_dropWhile_not (fun c => !isBlank c && !isLineEnd c)
      (rest.dropWhile isBlank)
    rw [show (rest.dropWhile isBlank).dropWhile (fun c => !isBlank c && !isLineEnd c) =
      c :: text from hrest] at hhead
    simp only [List.head?_cons, hc, Bool.not_false, Bool.and_true, Bool.not_eq_false'] at hhead
    rw [noKeyword, hhead, Bool.or_true, Bool.true_or]

/-! ## The statements of a text -/

/-- `GetStatement` has found the first of these statements, or that there is none. -/
def Reads (found : StatementType × Bytes) (toks : List Token) : Prop :=
  (found = (.invalid, []) ∧ toks = []) ∨
    ∃ type rest tail ss, found = (type, rest ++ tail) ∧ type ≠ .invalid ∧ NoEnd rest ∧ Tail tail ∧
      Stands (skip tail) ss ∧ toks = (type, (getArgument rest).1) :: tokens ss

theorem getStatementLoop_nil (turns : Nat) : getStatementLoop turns [] = (.invalid, []) := by
  cases turns <;> rfl

theorem stands_nil {ss : List Bytes} (h : Stands [] ss) : ss = [] := by
  generalize htext : ([] : Bytes) = text at h
  cases h with
  | done => rfl
  | line hne _ _ _ =>
    exact absurd (List.append_eq_nil_iff.mp htext.symm).1 hne

theorem getStatementLoop_reads {turns : Nat} {text : Bytes} {ss : List Bytes} (h : Stands text ss)
    (hturns : text.length ≤ turns) : Reads (getStatementLoop turns text) (tokens ss) := by
  induction turns generalizing text ss with
  | zero =>
    rw [List.length_eq_zero_iff.mp (Nat.le_zero.mp hturns)] at h ⊢
    rw [stands_nil h]
    exact Or.inl ⟨rfl, rfl⟩
  | succ turns ih =>
    cases h with
    | done => exact Or.inl ⟨getStatementLoop_nil _, rfl⟩
    | @line s tail ss hne hs ht hnext =>
      have hshort : (skip tail).length ≤ turns := by
        have hpos := List.length_pos_iff.mpr hne
        have hle := skip_length_le tail
        rw [List.length_append] at hturns
        omega
      have hrest : NoEnd (identify s).2 := fun c hc => hs c ((identify_suffix s).subset hc)
      rw [getStatementLoop, if_neg (List.append_ne_nil_of_left_ne_nil hne tail), identify_tail ht,
        tokens, List.filterMap_cons, token]
      cases hfound : identify s with
      | mk type rest =>
        rw [hfound] at hrest
        cases type with
        | invalid =>
          simp only
          rw [nextLine_line hrest ht]
          exact ih hnext hshort
        | sitemap =>
          simp only
          rw [getArgument_tail ht, nextLine_line (getArgument_noEnd hrest) ht]
          exact ih hnext hshort
        | userAgent =>
          exact Or.inr ⟨_, rest, tail, ss, rfl, StatementType.noConfusion, hrest, ht, hnext, rfl⟩
        | permission p =>
          exact Or.inr ⟨_, rest, tail, ss, rfl, StatementType.noConfusion, hrest, ht, hnext, rfl⟩
        | crawlDelay =>
          exact Or.inr ⟨_, rest, tail, ss, rfl, StatementType.noConfusion, hrest, ht, hnext, rfl⟩

theorem getStatement_reads {text : Bytes} {ss : List Bytes} (h : Stands text ss) :
    Reads (getStatement text) (tokens ss) :=
  getStatementLoop_reads h (Nat.le_refl _)

/-- From a place in a line where no statement starts, the next one is found. -/
theorem getStatement_behind {rest tail : Bytes} {ss : List Bytes}
    (hrest : Skipped rest) (hend : NoEnd rest) (ht : Tail tail) (h : Stands (skip tail) ss) :
    Reads (getStatement (rest ++ tail)) (tokens ss) := by
  cases htext : rest ++ tail with
  | nil =>
    obtain ⟨_, rfl⟩ := List.append_eq_nil_iff.mp htext
    rw [stands_nil h]
    exact Or.inl ⟨rfl, rfl⟩
  | cons c text =>
    have hstart : noKeyword c = true ∧ (skip tail).length ≤ text.length := by
      rcases hrest with rfl | ⟨d, rest', rfl, hd⟩
      · rcases ht with rfl | ⟨e, behind, rfl, he⟩
        · cases htext
        · cases htext
          rw [skip_blank (by rw [he]; rfl)]
          exact ⟨by rw [noKeyword, he]; rfl, skip_length_le _⟩
      · cases htext
        exact ⟨hd, (skip_length_le tail).trans (List.suffix_append rest' tail).length_le⟩
    rw [getStatement, List.length_cons, getStatementLoop, if_neg (List.cons_ne_nil c text),
      identify_invalid hstart.1]
    simp only
    rw [← htext, nextLine_line hend ht]
    exact getStatementLoop_reads h hstart.2

section Found

variable {type : StatementType} {text : Bytes} {t : Token} {toks : List Token}

/-- The argument of a statement, and the statement after it. -/
theorem Reads.next (h : Reads (type, text) (t :: toks)) :
    type = t.1 ∧ type ≠ .invalid ∧ (getArgument text).1 = t.2 ∧
      Reads (getStatement (getArgument text).2) toks ∧
      Reads (getStatement (nextLine text)) toks := by
  rcases h with ⟨_, hnil⟩ | ⟨type', rest, tail, ss, hat, hvalid, hend, ht, hstands, htoks⟩
  · cases hnil
  · cases hat
    cases htoks
    rw [getArgument_tail ht, nextLine_line hend ht]
    exact ⟨rfl, hvalid, rfl, getStatement_behind (getArgument_skipped hend)
      (getArgument_noEnd hend) ht hstands, getStatement_reads hstands⟩

theorem Reads.nil (h : Reads (type, text) []) : type = .invalid ∧ text = [] := by
  rcases h with ⟨hat, _⟩ | ⟨_, _, _, _, _, _, _, _, _, htoks⟩
  · cases hat
    exact ⟨rfl, rfl⟩
  · cases htoks

theorem stands_length {text : Bytes} {ss : List Bytes} (h : Stands text ss) :
    ss.length ≤ text.length := by
  induction h with
  | done => exact Nat.le_refl _
  | @line s tail ss hne _ _ _ ih =>
    have hpos := List.length_pos_iff.mpr hne
    have hle := skip_length_le tail
    rw [List.length_cons, List.length_append]
    omega

theorem Reads.length (h : Reads (type, text) toks) : toks.length ≤ text.length + 1 := by
  rcases h with ⟨_, rfl⟩ | ⟨type', rest, tail, ss, hat, _, _, _, hstands, rfl⟩
  · exact Nat.zero_le _
  · cases hat
    have hss := stands_length hstands
    have htoks : (tokens ss).length ≤ ss.length := List.length_filterMap_le _ _
    have hle := skip_length_le tail
    rw [List.length_cons, List.length_append]
    omega

end Found

/-! ## The groups -/

theorem ne_userAgent {type : StatementType} {t : Token} (htype : type = t.1)
    (hagent : ¬isUserAgent t = true) : type ≠ .userAgent :=
  fun heq => hagent (decide_eq_true (htype.symm.trans heq))

section NoUserAgent

variable {type : StatementType} (h : type ≠ .userAgent) (turns : Nat) (text : Bytes)
include h

theorem collectUserAgents_other : collectUserAgents turns type text = ([], type, text) := by
  cases turns with
  | zero => rfl
  | succ turns =>
    cases type with
    | userAgent => exact absurd rfl h
    | invalid => rfl
    | permission p => rfl
    | crawlDelay => rfl
    | sitemap => rfl

theorem collectGroups_other : collectGroups turns type text = [] := by
  cases turns with
  | zero => rfl
  | succ turns =>
    cases type with
    | userAgent => exact absurd rfl h
    | invalid => rfl
    | permission p => rfl
    | crawlDelay => rfl
    | sitemap => rfl

end NoUserAgent

theorem collectUserAgents_reads {turns : Nat} {type : StatementType} {text : Bytes}
    {toks : List Token} (h : Reads (type, text) toks) (hturns : toks.length ≤ turns) :
    ∃ type' text', collectUserAgents turns type text =
        ((toks.takeWhile isUserAgent).map Prod.snd, type', text') ∧
      Reads (type', text') (toks.dropWhile isUserAgent) := by
  induction turns generalizing type text toks with
  | zero =>
    obtain rfl := List.length_eq_zero_iff.mp (Nat.le_zero.mp hturns)
    exact ⟨type, text, rfl, h⟩
  | succ turns ih =>
    cases toks with
    | nil =>
      obtain ⟨rfl, rfl⟩ := h.nil
      exact ⟨_, _, rfl, h⟩
    | cons t toks =>
      obtain ⟨htype, _, harg, hnext, _⟩ := h.next
      by_cases hagent : isUserAgent t = true
      · have huser : type = .userAgent := htype.trans (of_decide_eq_true hagent)
        subst huser
        rw [collectUserAgents, List.takeWhile_cons_of_pos hagent,
          List.dropWhile_cons_of_pos hagent]
        cases hfound : getStatement (getArgument text).2 with
        | mk type text'' =>
          rw [hfound] at hnext
          obtain ⟨type', text', hrun, hreads⟩ := ih hnext (by simpa using hturns)
          refine ⟨type', text', ?_, hreads⟩
          simp only [hfound, hrun, harg, List.map_cons]
      · rw [List.takeWhile_cons_of_neg hagent, List.dropWhile_cons_of_neg hagent]
        exact ⟨type, text, collectUserAgents_other (ne_userAgent htype hagent) _ text, h⟩

theorem collectDirectives_reads {turns : Nat} (crawlDelay : Int) {type : StatementType}
    {text : Bytes} {toks : List Token} (h : Reads (type, text) toks) (hturns : toks.length ≤ turns) :
    ∃ type' text', collectDirectives turns crawlDelay type text =
        ((toks.takeWhile isDirective).filterMap directiveOf,
          (toks.takeWhile isDirective).foldl laterDelay crawlDelay, type', text') ∧
      Reads (type', text') (toks.dropWhile isDirective) := by
  induction turns generalizing crawlDelay type text toks with
  | zero =>
    obtain rfl := List.length_eq_zero_iff.mp (Nat.le_zero.mp hturns)
    exact ⟨type, text, rfl, h⟩
  | succ turns ih =>
    cases toks with
    | nil =>
      obtain ⟨rfl, rfl⟩ := h.nil
      exact ⟨_, _, rfl, h⟩
    | cons t toks =>
      obtain ⟨htype, _, harg, hnext, _⟩ := h.next
      have hshort : toks.length ≤ turns := by simpa using hturns
      obtain ⟨ttype, arg⟩ := t
      simp only at htype harg
      subst htype harg
      cases hfound : getStatement (getArgument text).2 with
      | mk type' text' =>
        rw [hfound] at hnext
        cases type with
        | permission p =>
          obtain ⟨type'', text'', hrun, hreads⟩ := ih crawlDelay hnext hshort
          refine ⟨type'', text'', ?_, hreads⟩
          simp only [collectDirectives, hfound, hrun]
          rfl
        | crawlDelay =>
          obtain ⟨type'', text'', hrun, hreads⟩ :=
            ih (laterDelay crawlDelay (.crawlDelay, (getArgument text).1)) hnext hshort
          refine ⟨type'', text'', ?_, hreads⟩
          simp only [laterDelay] at hrun
          simp only [collectDirectives, hfound, hrun]
          rfl
        | invalid => exact ⟨_, _, rfl, h⟩
        | userAgent => exact ⟨_, _, rfl, h⟩
        | sitemap => exact ⟨_, _, rfl, h⟩

theorem collectGroups_reads {turns : Nat} {type : StatementType} {text : Bytes}
    {toks : List Token} (h : Reads (type, text) toks) (hturns : toks.length ≤ turns) :
    collectGroups turns type text = groupsOf toks := by
  induction turns generalizing type text toks with
  | zero =>
    obtain rfl := List.length_eq_zero_iff.mp (Nat.le_zero.mp hturns)
    rw [groupsOf]
    rfl
  | succ turns ih =>
    cases toks with
    | nil =>
      obtain ⟨rfl, rfl⟩ := h.nil
      rw [groupsOf]
      rfl
    | cons t toks =>
      have htype := h.next.1
      by_cases hagent : isUserAgent t = true
      · have huser : type = .userAgent := htype.trans (of_decide_eq_true hagent)
        subst huser
        obtain ⟨type', text', hagents, hreads⟩ :=
          collectUserAgents_reads h h.length
        rw [List.takeWhile_cons_of_pos hagent] at hagents
        rw [List.dropWhile_cons_of_pos hagent] at hreads
        obtain ⟨type'', text'', hdirectives, hreads'⟩ :=
          collectDirectives_reads 0 hreads hreads.length
        have hsub := ((List.dropWhile_suffix isDirective).trans
          (List.dropWhile_suffix isUserAgent (l := toks))).length_le
        have hrest := ih hreads' (by rw [List.length_cons] at hturns; omega)
        rw [groupsOf, if_pos hagent, collectGroups]
        simp only [hagents, hdirectives, hrest]
        rfl
      · rw [groupsOf, if_neg hagent]
        exact collectGroups_other (ne_userAgent htype hagent) _ text

/-! ## The whole file -/

def notUserAgent (t : Token) : Bool := !isUserAgent t

/-- Everything up to the first user agent is skipped. -/
theorem skipToUserAgent_reads {turns : Nat} {type : StatementType} {text : Bytes}
    {toks : List Token} (h : Reads (getStatement text) toks) (hturns : toks.length < turns)
    (htype : text = [] → type ≠ .userAgent) :
    ((skipToUserAgent turns type text).1 ≠ .userAgent ∧ toks.dropWhile notUserAgent = []) ∨
      Reads (skipToUserAgent turns type text) (toks.dropWhile notUserAgent) := by
  induction turns generalizing type text toks with
  | zero => omega
  | succ turns ih =>
    rw [skipToUserAgent]
    by_cases hnil : text = []
    · subst hnil
      rw [if_pos rfl]
      rcases h with ⟨_, rfl⟩ | ⟨_, _, _, _, hat, hvalid, _⟩
      · exact Or.inl ⟨htype rfl, rfl⟩
      · exact absurd (congrArg Prod.fst hat).symm hvalid
    · rw [if_neg hnil]
      cases hfound : getStatement text with
      | mk found rest =>
        rw [hfound] at h
        cases toks with
        | nil =>
          obtain ⟨rfl, rfl⟩ := h.nil
          have hend : skipToUserAgent turns .invalid (nextLine []) = (.invalid, []) := by
            cases turns <;> rfl
          simp only [hend]
          exact Or.inl ⟨StatementType.noConfusion, rfl⟩
        | cons t toks =>
          obtain ⟨hsame, _, _, _, hnext⟩ := h.next
          by_cases hagent : isUserAgent t = true
          · have huser : found = .userAgent := hsame.trans (of_decide_eq_true hagent)
            subst huser
            rw [List.dropWhile_cons_of_neg (by rw [notUserAgent, hagent]; exact Bool.false_ne_true)]
            exact Or.inr h
          · have hother := ne_userAgent hsame hagent
            have hrun := ih hnext (by simpa using hturns) fun _ => hother
            have hskipped : notUserAgent t = true := by
              rw [notUserAgent, Bool.not_eq_true']
              exact Bool.eq_false_iff.mpr hagent
            rw [List.dropWhile_cons_of_pos hskipped]
            cases found with
            | userAgent => exact absurd rfl hother
            | invalid => exact hrun
            | permission p => exact hrun
            | crawlDelay => exact hrun
            | sitemap => exact hrun

/-- What is behind the first line. -/
def behindFirst : Lines → Line → Bytes
  | [], _ => []
  | (_, e) :: lines, last => e.bytes ++ body lines last

/-- The statements behind the first line. -/
def statementsBehind : Lines → Line → List Bytes
  | [], _ => []
  | _ :: lines, last => statements lines last

theorem firstLine_split (lines : Lines) (last : Line) :
    body lines last = (firstLine lines last).text ++ behindFirst lines last ∧
      Tail (behindFirst lines last) ∧
      Stands (skip (behindFirst lines last)) (statementsBehind lines last) ∧
      statements lines last = if isIgnored (firstLine lines last) then statementsBehind lines last
        else strip (firstLine lines last) :: statementsBehind lines last := by
  cases lines with
  | nil =>
    refine ⟨(List.append_nil _).symm, Or.inl rfl, .done, rfl⟩
  | cons line lines =>
    obtain ⟨l, e⟩ := line
    refine ⟨rfl, tail_lineEnd e _, ?_, rfl⟩
    rw [behindFirst, skip_lineEnd]
    exact stands_body lines last

theorem isBlank_of_skipped {first : Line} (h : Skipped first.text)
    (hignored : isIgnored first = false) :
    ∃ c text, first.text = c :: text ∧ isBlank c = true := by
  rcases h with hnil | ⟨c, text, htext, hc⟩
  · rw [isIgnored, strip, hnil] at hignored
    cases hignored
  · refine ⟨c, text, htext, ?_⟩
    have hend := first.noEnd c (by rw [htext]; exact List.mem_cons_self)
    by_contra hblank
    rw [isIgnored, strip, htext, List.dropWhile_cons_of_neg hblank] at hignored
    simp [noKeyword, hend, hblank] at hc hignored
    exact hignored hc

theorem strip_of_keyword {first : Line} (h : ¬Skipped first.text) :
    strip first = first.text ∧ isIgnored first = false := by
  cases htext : first.text with
  | nil => exact absurd (Or.inl htext) h
  | cons c text =>
    have hc : noKeyword c = false :=
      Bool.eq_false_iff.mpr fun hc => h (Or.inr ⟨c, text, htext, hc⟩)
    simp only [noKeyword, Bool.or_eq_false_iff, decide_eq_false_iff_not] at hc
    have hstrip : strip first = c :: text := by
      rw [strip, htext, List.dropWhile_cons_of_neg (by rw [hc.1.2]; exact Bool.false_ne_true)]
    refine ⟨hstrip, ?_⟩
    rw [isIgnored, hstrip]
    exact decide_eq_false hc.2

/-- A statement that is no user agent plays no part before the first one. -/
theorem dropWhile_token {s : Bytes} {ss : List Bytes} (h : (identify s).1 ≠ .userAgent) :
    (tokens (s :: ss)).dropWhile notUserAgent = (tokens ss).dropWhile notUserAgent := by
  rw [tokens, List.filterMap_cons, token]
  cases hfound : identify s with
  | mk type rest =>
    rw [hfound] at h
    cases type with
    | userAgent => exact absurd rfl h
    | invalid => rfl
    | sitemap => rfl
    | permission p => rfl
    | crawlDelay => rfl

/-- A first line that no keyword starts is passed over. -/
theorem getStatement_behindFirst {lines : Lines} {last : Line}
    (h : Skipped (firstLine lines last).text) :
    Reads (getStatement (body lines last)) (tokens (statementsBehind lines last)) ∧
      (tokens (statementsBehind lines last)).length ≤ (body lines last).length := by
  obtain ⟨hbody, htail, hstands, _⟩ := firstLine_split lines last
  rw [hbody]
  refine ⟨getStatement_behind h (firstLine lines last).noEnd htail hstands, ?_⟩
  refine (List.length_filterMap_le _ _).trans ((stands_length hstands).trans ?_)
  exact (skip_length_le _).trans (List.suffix_append _ _).length_le

/-- The first line is read as the others are, unless it is an indented user agent. -/
theorem getStatement_body {lines : Lines} {last : Line}
    (h : ¬IndentedUserAgent (firstLine lines last)) :
    ∃ toks, Reads (getStatement (body lines last)) toks ∧ toks.length ≤ (body lines last).length ∧
      toks.dropWhile notUserAgent = (tokens (statements lines last)).dropWhile notUserAgent := by
  obtain ⟨hbody, htail, hstands, hstatements⟩ := firstLine_split lines last
  rw [hstatements]
  by_cases hskipped : Skipped (firstLine lines last).text
  · obtain ⟨hreads, hlength⟩ := getStatement_behindFirst hskipped
    refine ⟨_, hreads, hlength, ?_⟩
    cases hignored : isIgnored (firstLine lines last) with
    | true => rfl
    | false =>
      have hblank := isBlank_of_skipped hskipped hignored
      exact (dropWhile_token fun hagent => h ⟨hblank, hagent⟩).symm
  · obtain ⟨hstrip, hignored⟩ := strip_of_keyword hskipped
    have hne : (firstLine lines last).text ≠ [] := fun hnil => hskipped (Or.inl hnil)
    have hline : Stands (body lines last)
        ((firstLine lines last).text :: statementsBehind lines last) := by
      rw [hbody]
      exact .line hne (firstLine lines last).noEnd htail hstands
    rw [hignored, hstrip]
    exact ⟨_, getStatement_reads hline,
      (List.length_filterMap_le _ _).trans (stands_length hline), rfl⟩

/-! ## The decision -/

def allowed (uninitialized : StatementType) (robotsTxt user path : Bytes) : Bool × Int :=
  pathAllowed ((parseGroups uninitialized robotsTxt).map Group.rule) user path

/-- The groups that the statements of a file say. -/
def statedGroups (lines : Lines) (last : Line) : List Group :=
  groupsOf ((tokens (statements lines last)).dropWhile notUserAgent)

theorem parse_reads (uninitialized : StatementType) {text : Bytes} {toks : List Token}
    (h : Reads (getStatement text) toks) (hlength : toks.length ≤ text.length) (hne : text ≠ []) :
    let found := skipToUserAgent (text.length + 1) uninitialized text
    collectGroups (found.2.length + 1) found.1 found.2 =
      groupsOf (toks.dropWhile notUserAgent) := by
  have hskip := skipToUserAgent_reads h (Nat.lt_succ_of_le hlength)
    (fun hnil => absurd hnil hne : text = [] → uninitialized ≠ .userAgent)
  cases hrun : skipToUserAgent (text.length + 1) uninitialized text with
  | mk type text =>
    rw [hrun] at hskip
    rcases hskip with ⟨hother, hnil⟩ | hreads'
    · rw [hnil, groupsOf]
      exact collectGroups_other hother _ text
    · exact collectGroups_reads hreads' hreads'.length

theorem pathAllowed_noDirectives {g : Group} (h : g.directives = []) (user path : Bytes) :
    pathAllowed ([g].map Group.rule) user path = (true, 0) := by
  have hdirectives : g.rule.directives = [] := by
    have hperm := rule_directives_perm g
    rw [h] at hperm
    exact hperm.eq_nil
  have hstep (user path : Bytes) : findStep user path ⟨none, 0⟩ g.rule = ⟨none, 0⟩ := by
    unfold findStep Rule.matchPath
    rw [hdirectives, List.find?_nil]
    cases g.rule.userAgents.find? fun ua => ua.matchUser user || ua.matchAny <;> rfl
  unfold pathAllowed findDirective
  rw [List.map_cons, List.map_nil, List.foldl_cons, List.foldl_nil, hstep]

/-- Without text there is at most a group without directives. -/
theorem allowed_empty (uninitialized : StatementType) (user path : Bytes) :
    pathAllowed ((collectGroups 1 uninitialized []).map Group.rule) user path = (true, 0) := by
  cases uninitialized with
  | userAgent => exact pathAllowed_noDirectives rfl user path
  | invalid => rfl
  | permission p => rfl
  | crawlDelay => rfl
  | sitemap => rfl

theorem statedGroups_nil {lines : Lines} {last : Line} (h : body lines last = []) :
    statedGroups lines last = [] := by
  cases lines with
  | nil =>
    have hignored : isIgnored last = true := by
      rw [isIgnored, strip, show last.text = [] from h]
      rfl
    rw [statedGroups, statements, if_pos hignored, tokens, List.filterMap_nil, List.dropWhile_nil,
      groupsOf]
  | cons line lines =>
    obtain ⟨l, e⟩ := line
    have hend := (List.append_eq_nil_iff.mp (List.append_eq_nil_iff.mp h).2).1
    cases e <;> cases hend

theorem starts_of_tail {k s tail : Bytes} (hk : NoEnd k) (ht : Tail tail) (h : k <+: s ++ tail) :
    k <+: s := by
  induction k generalizing s with
  | nil => exact List.nil_prefix
  | cons c k ih =>
    obtain ⟨hc, hk'⟩ := List.forall_mem_cons.mp hk
    cases s with
    | nil =>
      rcases ht with rfl | ⟨e, rest, rfl, he⟩
      · exact h
      · rw [(List.cons_prefix_cons.mp h).1, he] at hc
        cases hc
    | cons d s =>
      obtain ⟨rfl, h'⟩ := List.cons_prefix_cons.mp h
      exact List.cons_prefix_cons.mpr ⟨rfl, ih hk' h'⟩

/-- A byte order mark is no part of the first line. -/
def MarkApart (bom : Bool) (first : Line) : Prop := bom = false → ¬Utf8BOMString <+: first.text

theorem content_body {bom : Bool} {lines : Lines} {last : Line}
    (hmark : MarkApart bom (firstLine lines last)) :
    (if Utf8BOMString.isPrefixOf (content bom lines last) then
      (content bom lines last).drop 3 else content bom lines last) = body lines last := by
  cases bom with
  | true => rfl
  | false =>
    obtain ⟨hbody, htail, _⟩ := firstLine_split lines last
    have hnot : ¬Utf8BOMString.isPrefixOf (body lines last) = true := by
      rw [List.isPrefixOf_iff_prefix, hbody]
      exact fun hstart => hmark rfl (starts_of_tail (by decide +kernel) htail hstart)
    exact if_neg hnot

theorem allowed_reads (uninitialized : StatementType) {bom : Bool} {lines : Lines} {last : Line}
    (hmark : MarkApart bom (firstLine lines last)) {toks : List Token}
    (h : Reads (getStatement (body lines last)) toks)
    (hlength : toks.length ≤ (body lines last).length) (hne : body lines last ≠ [])
    (user path : Bytes) :
    allowed uninitialized (content bom lines last) user path =
      pathAllowed ((groupsOf (toks.dropWhile notUserAgent)).map Group.rule) user path := by
  rw [allowed, parseGroups]
  simp only [content_body hmark]
  exact congrArg (fun groups => pathAllowed (groups.map Group.rule) user path)
    (parse_reads uninitialized h hlength hne)

theorem allowed_content (uninitialized : StatementType) {bom : Bool} {lines : Lines} {last : Line}
    (h : ¬IndentedUserAgent (firstLine lines last)) (hmark : MarkApart bom (firstLine lines last))
    (user path : Bytes) :
    allowed uninitialized (content bom lines last) user path =
      pathAllowed ((statedGroups lines last).map Group.rule) user path := by
  by_cases hnil : body lines last = []
  · rw [allowed, parseGroups]
    simp only [content_body hmark]
    rw [statedGroups_nil hnil, hnil]
    exact allowed_empty uninitialized user path
  · obtain ⟨toks, hreads, hlength, hsame⟩ := getStatement_body h
    rw [allowed_reads uninitialized hmark hreads hlength hnil, hsame]
    rfl

theorem statements_variant {lines lines' : Lines} (h : Variant lines lines') (last : Line) :
    statements lines' last = statements lines last := by
  induction h with
  | nil => rfl
  | keep l e e' _ ih => simp only [statements, ih]
  | insert l e hl _ ih => rw [statements, if_pos hl, ih]

/-- A variant starts with the same line or with one that is ignored. -/
theorem firstLine_variant {lines lines' : Lines} (h : Variant lines lines') (last : Line) :
    firstLine lines' last = firstLine lines last ∨ isIgnored (firstLine lines' last) = true := by
  cases h with
  | nil => exact Or.inl rfl
  | keep l e e' _ => exact Or.inl rfl
  | insert l e hl _ => exact Or.inr hl

theorem not_indented_of_ignored {first : Line} (h : isIgnored first = true) :
    ¬IndentedUserAgent first := by
  rintro ⟨_, hagent⟩
  rw [isIgnored] at h
  split at h
  · rename_i hnil
    rw [hnil] at hagent
    cases hagent
  · rename_i c text hstrip
    rw [hstrip, of_decide_eq_true h] at hagent
    cases hagent

theorem markApart_of_ignored {first : Line} (h : isIgnored first = true) (bom : Bool) :
    MarkApart bom first := by
  intro _ hstart
  obtain ⟨rest, hrest⟩ := hstart
  rw [isIgnored, strip, ← hrest] at h
  cases h

theorem allowed_variant {lines lines' : Lines} {last : Line} {bom : Bool}
    (h : ¬IndentedUserAgent (firstLine lines last)) (hmark : MarkApart bom (firstLine lines last))
    (hvariant : Variant lines lines') (uninitialized uninitialized' : StatementType)
    (user path : Bytes) :
    allowed uninitialized (content bom lines last) user path =
      allowed uninitialized' (content bom lines' last) user path := by
  have hfirst : ¬IndentedUserAgent (firstLine lines' last) ∧
      MarkApart bom (firstLine lines' last) := by
    rcases firstLine_variant hvariant last with hsame | hignored
    · rw [hsame]
      exact ⟨h, hmark⟩
    · exact ⟨not_indented_of_ignored hignored, markApart_of_ignored hignored bom⟩
  rw [allowed_content uninitialized h hmark, allowed_content uninitialized' hfirst.1 hfirst.2,
    statedGroups, statedGroups, statements_variant hvariant]

/-! ## The law -/

/-- No variant of a file that starts with the line changes a decision. -/
def LinesDoNotMatter (first : Line) : Prop :=
  ∀ bom lines last, firstLine lines last = first → MarkApart bom first →
    ∀ lines', Variant lines lines' → ∀ uninitialized uninitialized' user path,
      allowed uninitialized (content bom lines last) user path =
        allowed uninitialized' (content bom lines' last) user path

/-- `Disallow: /` -/
def disallowAll : Line :=
  ⟨[68, 105, 115, 97, 108, 108, 111, 119, 58, 32, 47], by decide +kernel⟩

def emptyLine : Line := ⟨[], by decide +kernel⟩

theorem startsWithCi_self (a : Bytes) : startsWithCi a a = true := by
  induction a with
  | nil => rfl
  | cons c a ih => rw [startsWithCi, ih, decide_eq_true rfl]; rfl

theorem findSubstring_self (a : Bytes) : (findSubstring a a).isSome = true := by
  cases a with
  | nil => rfl
  | cons c a => rw [findSubstring, if_pos (startsWithCi_self _)]; rfl

theorem groupsOf_disallow (name : Bytes) :
    groupsOf ([(.userAgent, name), (.permission .disallow, [slash])].dropWhile notUserAgent) =
      [⟨[name], [(.disallow, [slash])], 0⟩] := by
  have hagent : isUserAgent (.userAgent, name) = true := rfl
  have hdirective : isUserAgent (.permission .disallow, [slash]) = false := rfl
  have hown : isDirective (.permission .disallow, [slash]) = true := rfl
  simp [groupsOf, notUserAgent, hagent, hdirective, hown, directiveOf, laterDelay]

theorem getArgument_cString (rest : Bytes) :
    cString (getArgument rest).1 = (getArgument rest).1 := by
  rw [getArgument]
  exact List.takeWhile_idem

theorem disallowed_group {name : Bytes} (hname : cString name = name) (path : Bytes) :
    (pathAllowed ([(⟨[name], [(.disallow, [slash])], 0⟩ : Group)].map Group.rule) name path).1 =
      false := by
  have happlies : applicable [⟨[name], [(.disallow, [slash])], 0⟩] name path =
      [(.disallow, [slash])] := by
    have huser : matchesUser (cString name) [name] = true := by
      rw [hname]
      simp [matchesUser, findSubstring_self]
    simp only [applicable, List.filter_cons, huser, if_true]
    rfl
  have hfinds := pathAllowed_finds [⟨[name], [(.disallow, [slash])], 0⟩] name path
  rw [happlies] at hfinds
  rcases hfinds with ⟨hnil, _⟩ | ⟨s, hs, hdecision⟩
  · cases hnil
  · obtain rfl := List.mem_singleton.mp hs.1
    exact hdecision

theorem markApart_of_indented {first : Line} (h : IndentedUserAgent first) (bom : Bool) :
    MarkApart bom first := by
  obtain ⟨⟨c, text, htext, hblank⟩, -⟩ := h
  rintro - ⟨rest, hrest⟩
  rw [htext] at hrest
  cases hrest
  cases hblank

/-- The name that the line says, where it is read. -/
def indentedName (first : Line) : Bytes := (getArgument (identify (strip first)).2).1

/-- As the first line it is passed over, and no user agent is left. -/
theorem allowed_indentedFirst {first : Line} (h : IndentedUserAgent first) (user path : Bytes) :
    allowed .invalid (content false [(first, .lf)] disallowAll) user path = (true, 0) := by
  obtain ⟨c, text, htext, hblank⟩ := h.1
  have hkeyword : noKeyword c = true := by rw [noKeyword, hblank, Bool.or_true, Bool.true_or]
  have hne : body [(first, .lf)] disallowAll ≠ [] := by
    rw [body, htext]
    exact List.cons_ne_nil _ _
  obtain ⟨hreads, hlength⟩ := @getStatement_behindFirst [(first, .lf)] disallowAll
    (Or.inr ⟨c, text, htext, hkeyword⟩)
  have hbehind : (tokens (statementsBehind [(first, .lf)] disallowAll)).dropWhile notUserAgent =
      [] := rfl
  rw [allowed_reads .invalid (markApart_of_indented h false) hreads hlength hne, hbehind, groupsOf]
  rfl

/-- Behind a blank line it starts a group. -/
theorem statedGroups_indented {first : Line} (h : IndentedUserAgent first) :
    statedGroups [(emptyLine, .lf), (first, .lf)] disallowAll =
      [⟨[indentedName first], [(.disallow, [slash])], 0⟩] := by
  have hignored : isIgnored first = false :=
    Bool.eq_false_iff.mpr fun hignored => not_indented_of_ignored hignored h
  have htoken : token (strip first) = some (.userAgent, indentedName first) := by
    have hagent := h.2
    rw [token, indentedName]
    cases hfound : identify (strip first) with
    | mk type rest =>
      rw [hfound] at hagent
      simp only at hagent
      rw [hagent]
  have htokens : tokens (statements [(emptyLine, .lf), (first, .lf)] disallowAll) =
      [(.userAgent, indentedName first), (.permission .disallow, [slash])] := by
    rw [statements, if_pos (show isIgnored emptyLine = true from rfl), statements,
      if_neg (by rw [hignored]; exact Bool.false_ne_true), tokens, List.filterMap_cons, htoken]
    rfl
  rw [statedGroups, htokens]
  exact groupsOf_disallow _

/-- A blank line in front of an indented user agent makes it a statement. -/
theorem indented_matters {first : Line} (h : IndentedUserAgent first) : ¬LinesDoNotMatter first := by
  intro hlaw
  have hsame := hlaw false [(first, .lf)] disallowAll rfl (markApart_of_indented h false)
    [(emptyLine, .lf), (first, .lf)] (.insert emptyLine .lf rfl (.keep first .lf .lf .nil))
    .invalid .invalid (indentedName first) []
  have hempty : ¬IndentedUserAgent (firstLine [(emptyLine, .lf), (first, .lf)] disallowAll) :=
    not_indented_of_ignored rfl
  have hnext := allowed_content .invalid hempty (markApart_of_ignored rfl false)
    (indentedName first) []
  rw [allowed_indentedFirst h, hnext, statedGroups_indented h] at hsame
  have hname : cString (indentedName first) = indentedName first := getArgument_cString _
  have hopen := congrArg Prod.fst hsame
  rw [disallowed_group hname []] at hopen
  cases hopen

/-- Over all variants of a file, its other lines, users and paths. -/
theorem lines_do_not_matter_iff (first : Line) :
    LinesDoNotMatter first ↔ ¬IndentedUserAgent first := by
  refine ⟨fun hlaw h => indented_matters h hlaw, fun h => ?_⟩
  intro bom lines last hfirst hmark lines' hvariant u u' user path
  subst hfirst
  exact allowed_variant h hmark hvariant u u' user path

/-! ## An indented user agent -/

/-- `  User-agent: *` -/
def indentedAgent : Line :=
  ⟨[32, 32, 85, 115, 101, 114, 45, 97, 103, 101, 110, 116, 58, 32, 42], by decide +kernel⟩

/-- The blank line before the indented user agent closes the site. -/
theorem blank_line_closes_the_site :
    ¬∀ (lines lines' : Lines) (last : Line) (user path : Bytes), Variant lines lines' →
      allowed .invalid (content false lines last) user path =
        allowed .invalid (content false lines' last) user path := by
  intro h
  have hvariant : Variant [(indentedAgent, .lf)] [(emptyLine, .lf), (indentedAgent, .lf)] :=
    .insert emptyLine .lf rfl (.keep indentedAgent .lf .lf .nil)
  have hclosed := h _ _ disallowAll [120] [47, 97] hvariant
  have hopen : allowed .invalid (content false [(indentedAgent, .lf)] disallowAll) [120] [47, 97] =
      (true, 0) := by decide +kernel
  have hblank : allowed .invalid (content false [(emptyLine, .lf), (indentedAgent, .lf)]
      disallowAll) [120] [47, 97] = (false, 0) := by decide +kernel
  rw [hopen, hblank] at hclosed
  cases hclosed

end seamus.robots_lines
