-- The words that the parser writes for a text, and the words that a query with the same text
-- asks for.
import Seamus.Expressions
import Seamus.HtmlParser
import Seamus.ResultsPage
import Seamus.Library.Lines
import Mathlib.Data.List.TakeWhile

open seamus.html_tags seamus.html seamus.expressions lines
open seamus.htmlserver (isKept removeSpecialChars)

namespace seamus.word_splitting

/-! ## The query side -/

def queryWords (text : Bytes) : List Bytes :=
  ((tokenize (removeSpecialChars text)).filter fun t => t.type = .word).map Token.val

/-! ## The parser side -/

/-- All that a word buffer has got, in lower case as it goes to the file. -/
def written (b : BufferArray) : Bytes := b.sent.flatten ++ lowercase b.data

section Parser

variable (isCommonEnglishWord : Bytes → Bool) (after : Bytes) (hops domainHops : Nat) (link : Bytes)

/-- The parser after the page with this text, before its end is written. -/
def parsed (text : Bytes) : HtmlParser :=
  parseBody isCommonEnglishWord (pageOf text after) hops domainHops link

/-- The words that `parse_chunk` writes for a text: the lines after those for the start of the
page. -/
def parserWords (text : Bytes) : List Bytes :=
  let start := (HtmlParser.ofPage hops domainHops link).writeHeaders
  linesOf newline ((written (parsed isCommonEnglishWord after hops domainHops link text).words).drop
    (written start.words).length)

end Parser

/-! ## Texts -/

/-- The other characters of a word: punctuation but for `"()|<>&`. -/
def isMark (c : UInt8) : Bool :=
  33 ≤ c && c ≤ 126 && !isalnum c && c ∉ ([34, 40, 41, 124, 60, 62, 38] : Bytes)

/-- A letter or a digit, and then letters, digits and marks. An empty word is one more space. -/
structure IsWord (word : Bytes) : Prop where
  chars : ∀ c ∈ word, isalnum c ∨ isMark c
  head : ∀ c ∈ word.head?, isalnum c

instance (word : Bytes) : Decidable (IsWord word) :=
  decidable_of_iff ((word.all fun c => isalnum c || isMark c) = true ∧ word.head?.all isalnum = true)
    ⟨fun h => ⟨by simpa using h.1, by simpa [Option.all_eq_true] using h.2⟩,
      fun h => ⟨by simpa using h.chars, by simpa [Option.all_eq_true] using h.head⟩⟩

/-- Each word, and a space after it. -/
def textOf (words : List Bytes) : Bytes := words.flatMap fun word => word ++ [space]

/-- A mark between a run of letters and digits and what is after it is a comma or a dot in a
number. -/
def inNumber (run : Bytes) (c : UInt8) (rest : Bytes) : Bool :=
  (c = 44 || c = 46) && rest.head?.any isDigit && run.getLast?.any isDigit

/-- Letters and digits, no more than the word buffer takes. -/
structure IsRun (run : Bytes) : Prop where
  ne_nil : run ≠ []
  chars : ∀ c ∈ run, isalnum c
  short : run.length ≤ MAX_WORD_MEMORY - 2

/-- Marks without a hyphen. -/
def NoHyphen (marks : Bytes) : Prop := ∀ c ∈ marks, isMark c ∧ c ≠ 45

instance (run : Bytes) : Decidable (IsRun run) :=
  decidable_of_iff (run ≠ [] ∧ run.all isalnum = true ∧ run.length ≤ MAX_WORD_MEMORY - 2)
    ⟨fun h => ⟨h.1, List.all_eq_true.mp h.2.1, h.2.2⟩,
      fun h => ⟨h.ne_nil, List.all_eq_true.mpr h.chars, h.short⟩⟩

instance (marks : Bytes) : Decidable (NoHyphen marks) :=
  decidable_of_iff ((marks.all fun c => isMark c && c ≠ 45) = true) (by simp [NoHyphen])

/-- Both sides take the word as one: its runs of letters and digits stand apart only by marks
that both of them drop, and that is never a hyphen, and a mark that breaks words only in a
number. -/
inductive TakenAsOne : Bytes → Prop
  | last {run marks : Bytes} (hrun : IsRun run) (hmarks : NoHyphen marks) :
    TakenAsOne (run ++ marks)
  | join {run marks rest : Bytes} {c : UInt8} (hrun : IsRun run) (hmarks : NoHyphen (c :: marks))
    (hjoin : isWordBreakChar c → inNumber run c (marks ++ rest)) (hrest : TakenAsOne rest) :
    TakenAsOne (run ++ c :: (marks ++ rest))

/-- The marks after the last letter or digit. -/
def endMarks (word : Bytes) : Bytes := (word.reverse.takeWhile fun c => !isalnum c).reverse

/-- The marks after the last letter or digit do not begin with one that leaves the word open. -/
def EndsWithBreak (word : Bytes) : Prop := ∀ c ∈ (endMarks word).head?, isWordBreakChar c

instance (word : Bytes) : Decidable (EndsWithBreak word) :=
  decidable_of_iff ((endMarks word).head?.all isWordBreakChar = true)
    (by simp [EndsWithBreak, Option.all_eq_true])

/-! ## The word buffer -/

/-- What a push adds to the stream: a piece that is too long is cut or left out. -/
def pieceOf (str : Bytes) (delim : UInt8) : Bytes :=
  if MAX_WORD_MEMORY < str.length then []
  else lowercase (str.take (MAX_WORD_MEMORY - 2)) ++ if delim = NULL_DELIM then [] else [tolower delim]

theorem written_append (b : BufferArray) (str : Bytes) (delim : UInt8) :
    written (b.append str delim) =
      written b ++ (lowercase str ++ if delim = NULL_DELIM then [] else [tolower delim]) := by
  unfold written BufferArray.append
  rw [lowercase_append, lowercase_append]
  split <;> simp [lowercase]

theorem written_flushWords (b : BufferArray) : written (flushWords b) = written b := by
  unfold written flushWords
  split
  · simp [lowercase]
  · rfl

theorem flushWords_data (b : BufferArray) : (flushWords b).data = [] := by
  unfold flushWords
  split
  · rfl
  · exact List.length_eq_zero_iff.mp (by omega)

/-- With an empty buffer there is room for all but two bytes of it. -/
theorem take_roomFor (str : Bytes) :
    str.take (roomFor MAX_WORD_MEMORY 0 str.length) = str.take (MAX_WORD_MEMORY - 2) := by
  have hroom : u64Sub (u64Sub MAX_WORD_MEMORY 0) 2 = MAX_WORD_MEMORY - 2 := by decide
  unfold roomFor
  rw [hroom]
  split
  · rw [if_pos (by decide), Nat.sub_zero]
  · rw [List.take_length, List.take_of_length_le (by omega)]

theorem written_pushWord (str : Bytes) (delim : UInt8) (b : BufferArray) :
    written (html.pushWord str delim b) = written b ++ pieceOf str delim := by
  unfold html.pushWord pushBack pieceOf
  split
  · rw [List.append_nil]
  · split
    · simp only [flushWords_data, List.length_nil, take_roomFor]
      split
      · rw [written_append, written_flushWords]
      · rename_i hshort
        rw [written_append, written_flushWords, List.take_of_length_le (by omega)]
    · rename_i hroom
      rw [written_append, List.take_of_length_le (by omega)]

/-! ## A turn of the parser on a text -/

/-- What the turn at `c` writes, for the letters and digits before it. -/
def emit (pend : Bytes) (c : UInt8) (rest : Bytes) : Bytes :=
  if pend = [] ∨ isalnum c then []
  else pieceOf pend (if isWordBreakChar c ∧ ¬inNumber pend c rest then newline else NULL_DELIM)

/-- What is written from here on, for the letters and digits before it. -/
def emitted : Bytes → Bytes → Bytes
  | _, [] => []
  | pend, c :: rest => emit pend c rest ++ emitted (if isalnum c then pend ++ [c] else []) rest

/-- The parser is in plain text, and has not given up. -/
structure InText (h : HtmlParser) : Prop where
  inA : h.inA = false
  inTitle : h.inTitle = false
  killed : h.killed = false

/-- The turn gives the page up, or it writes this and goes on there. -/
def Writes (h : HtmlParser) (out : Bytes) (p wordStart : Nat) : Flow → Prop
  | .done h' => h'.killed = true
  | .goOn c => InText c.parser ∧ c.p = p ∧ c.wordStart = wordStart ∧
      written c.parser.words = written h.words ++ out

theorem isalnum_of_break {c : UInt8} (h : isWordBreakChar c = true) : isalnum c = false := by
  unfold isWordBreakChar isspace breakMarks at h
  simp only [Bool.or_eq_true, Bool.and_eq_true, decide_eq_true_eq, List.mem_cons,
    List.not_mem_nil, or_false] at h
  rcases h with (rfl | ⟨hlow, hhigh⟩) | h
  · rfl
  · unfold isalnum isDigit
    simp only [UInt8.le_iff_toNat_le, UInt8.reduceToNat] at hlow hhigh ⊢
    simp only [Bool.or_eq_false_iff, Bool.and_eq_false_iff, decide_eq_false_iff_not]
    omega
  · rcases h with rfl | rfl | rfl | rfl | rfl | rfl | rfl | rfl | rfl | rfl | rfl | rfl | rfl |
      rfl | rfl <;> rfl

/-- A character of a text. -/
def IsTextChar (c : UInt8) : Prop := isalnum c ∨ isMark c ∨ c = space

theorem IsTextChar.lt {c : UInt8} (h : IsTextChar c) : c < 127 := by
  unfold IsTextChar isalnum isDigit isMark at h
  simp only [Bool.or_eq_true, Bool.and_eq_true, decide_eq_true_eq, UInt8.le_iff_toNat_le,
    UInt8.reduceToNat] at h
  rw [UInt8.lt_iff_toNat_lt]
  simp only [UInt8.reduceToNat]
  rcases h with h | h | rfl
  · omega
  · omega
  · decide

theorem IsTextChar.ne {c : UInt8} (h : IsTextChar c) : c ≠ 60 ∧ c ≠ 38 := by
  constructor <;> rintro rfl <;> revert h <;> unfold IsTextChar <;> decide

section Text

variable {isCommonEnglishWord : Bytes → Bool} {text after front pend rest : Bytes} {c : UInt8}

theorem mem_pageOf {i : Nat} (front rest : Bytes) (htext : text = front ++ c :: rest)
    (hi : i = front.length) : (pageOf text after).mem i = c := by
  simp [pageOf, htext, hi]

theorem mem_append_left (i : Nat) (hi : i < pend.length) (htext : text = front ++ pend ++ rest) :
    (pageOf text after).mem (front.length + i) = pend[i] := by
  simp only [pageOf, htext, List.append_assoc, List.getD_eq_getElem?_getD]
  rw [List.getElem?_append_right (Nat.le_add_right _ _), Nat.add_sub_cancel_left,
    List.getElem?_append_left hi, List.getElem?_eq_getElem hi, Option.getD_some]

theorem slice_pageOf (htext : text = front ++ pend ++ rest) :
    (pageOf text after).slice front.length pend.length = pend := by
  apply List.ext_getElem
  · simp [Page.slice]
  · intro i hi hi'
    simp only [Page.slice, List.getElem_map, List.getElem_range]
    exact mem_append_left i hi' htext

theorem commaInNumber_eq (htext : text = front ++ pend ++ c :: rest) (hpend : pend ≠ []) :
    commaInNumber (pageOf text after) (front.length + pend.length) 0 text.length =
      inNumber pend c rest := by
  obtain ⟨init, x, hlast⟩ := (List.eq_nil_or_concat pend).resolve_left hpend
  rw [List.concat_eq_append] at hlast
  have hlen : pend.length = init.length + 1 := by rw [hlast, List.length_append]; rfl
  have hbefore : (pageOf text after).mem (front.length + pend.length - 1) = x :=
    mem_pageOf (front ++ init) (c :: rest) (by simp [htext, hlast]) (by simp; omega)
  have hat : (pageOf text after).mem (front.length + pend.length) = c :=
    mem_pageOf (front ++ pend) rest htext (by simp)
  have hlength : text.length = front.length + pend.length + 1 + rest.length := by
    simp [htext]
    omega
  have hpos : front.length + pend.length > 0 := by omega
  unfold commaInNumber inNumber
  rw [hbefore, hat, hlast, List.getLast?_concat, ← hlast]
  cases rest with
  | nil =>
    rw [List.length_nil, Nat.add_zero] at hlength
    simp [hlength]
  | cons y rest =>
    have hnext : (pageOf text after).mem (front.length + pend.length + 1) = y :=
      mem_pageOf (front ++ pend ++ [c]) rest (by simp [htext]) (by simp; omega)
    have hlt : front.length + pend.length + 1 < text.length := by simp [hlength]
    rw [hnext]
    simp [hlt, hpos]

/-! ### Writing -/

theorem InText.pushWord {h : HtmlParser} (ht : InText h) (str : Bytes) (delim : UInt8) :
    InText (h.pushWord str delim) := ⟨ht.inA, ht.inTitle, ht.killed⟩

theorem InText.pushAnchorWord {h : HtmlParser} (ht : InText h) (str : Bytes) (delim : UInt8) :
    h.pushAnchorWord str delim = h := by
  unfold HtmlParser.pushAnchorWord
  simp [ht.inA]

theorem InText.addToTitle {h : HtmlParser} (ht : InText h) (str : Bytes) :
    h.addToTitle str = h := by
  unfold HtmlParser.addToTitle
  simp [ht.inTitle]

theorem checkEnglish_cases {h h' : HtmlParser} {word : Bytes} {goesOn : Bool} (ht : InText h)
    (hcheck : checkEnglish isCommonEnglishWord h word = (h', goesOn)) :
    (goesOn = true → InText h' ∧ h'.words = h.words) ∧ (goesOn = false → h'.killed = true) := by
  unfold checkEnglish at hcheck
  simp only at hcheck
  split_ifs at hcheck with hlen hcommon hrun <;> obtain ⟨rfl, rfl⟩ := Prod.mk.inj hcheck
  · simpa using ht
  · simpa using ⟨ht.inA, ht.inTitle, ht.killed⟩
  · simp
  · simpa using ⟨ht.inA, ht.inTitle, ht.killed⟩

theorem writeWord_writes {next : Cursor} (ht : InText next.parser) (word : Bytes)
    (linkDelim wordDelim : UInt8) :
    Writes next.parser (pieceOf word wordDelim) next.p next.wordStart
      (writeWord isCommonEnglishWord word linkDelim wordDelim next) := by
  have hpush := ht.pushWord word wordDelim
  unfold writeWord
  simp only [ht.pushAnchorWord, hpush.addToTitle]
  cases hcheck : checkEnglish isCommonEnglishWord (next.parser.pushWord word wordDelim) word with
  | mk h' goesOn =>
    obtain ⟨hgo, hstop⟩ := checkEnglish_cases hpush hcheck
    cases goesOn with
    | false => exact hstop rfl
    | true =>
      obtain ⟨ht', hwords⟩ := hgo rfl
      refine ⟨ht', rfl, rfl, ?_⟩
      rw [hwords]
      exact written_pushWord word wordDelim next.parser.words

section Turn

variable {h : HtmlParser} {numWords : Nat} {c : UInt8}

/-- The cursor in a text, after the letters and digits of `pend`. -/
def cursorAt (h : HtmlParser) (front pend : Bytes) (numWords : Nat) : Cursor :=
  ⟨h, front.length + pend.length, front.length, numWords⟩

theorem slice_cursorAt (htext : text = front ++ pend ++ rest) :
    (pageOf text after).slice (cursorAt h front pend numWords).wordStart
      ((cursorAt h front pend numWords).p - (cursorAt h front pend numWords).wordStart) = pend := by
  rw [cursorAt, Nat.add_sub_cancel_left]
  exact slice_pageOf htext

theorem wordStart_lt_p : (cursorAt h front pend numWords).wordStart <
    (cursorAt h front pend numWords).p ↔ pend ≠ [] := by
  rw [cursorAt, Nat.lt_add_right_iff_pos, List.length_pos_iff]

theorem endWord_writes (ht : InText h) (htext : text = front ++ pend ++ rest)
    (linkDelim wordDelim : UInt8) (next : Nat) :
    Writes h (if pend = [] then [] else pieceOf pend wordDelim) next next
      (endWord isCommonEnglishWord (pageOf text after) linkDelim wordDelim next
        (cursorAt h front pend numWords)) := by
  unfold endWord
  simp only [wordStart_lt_p, slice_cursorAt htext]
  by_cases hpend : pend = []
  · rw [if_neg (not_not.mpr hpend), if_pos hpend]
    exact ⟨ht, rfl, rfl, (List.append_nil _).symm⟩
  · rw [if_pos hpend, if_neg hpend]
    exact writeWord_writes ht pend linkDelim wordDelim

theorem endPart_writes (ht : InText h) (htext : text = front ++ pend ++ rest) (next : Nat) :
    Writes h (if pend = [] then [] else pieceOf pend NULL_DELIM) next next
      (endPart (pageOf text after) next (cursorAt h front pend numWords)) := by
  unfold endPart
  simp only [wordStart_lt_p, slice_cursorAt htext]
  by_cases hpend : pend = []
  · rw [if_neg (not_not.mpr hpend), if_pos hpend]
    exact ⟨ht, rfl, rfl, (List.append_nil _).symm⟩
  · rw [if_pos hpend, if_neg hpend]
    unfold writePart cursorAt
    rw [(ht.pushWord pend NULL_DELIM).pushAnchorWord]
    exact ⟨ht.pushWord pend NULL_DELIM, rfl, rfl, written_pushWord pend NULL_DELIM h.words⟩

theorem otherTurn_writes (ht : InText h) (htext : text = front ++ pend ++ rest) :
    Writes h (if pend = [] then [] else pieceOf pend NULL_DELIM)
      (front.length + pend.length + 1) (front.length + pend.length + 1)
      (otherTurn (pageOf text after) (cursorAt h front pend numWords)) := by
  unfold otherTurn
  simp only [wordStart_lt_p, slice_cursorAt htext]
  by_cases hrun : MAX_CONSECUTIVE_NON_ALNUM ≤ (cursorAt h front pend numWords).parser.nonAlnumRun + 1
  · rw [if_pos hrun]
    rfl
  · rw [if_neg hrun]
    by_cases hpend : pend = []
    · rw [if_neg (not_not.mpr hpend), if_pos hpend]
      exact ⟨⟨ht.inA, ht.inTitle, ht.killed⟩, rfl, rfl, (List.append_nil _).symm⟩
    · rw [if_pos hpend, if_neg hpend]
      exact ⟨⟨ht.inA, ht.inTitle, ht.killed⟩, rfl, rfl, written_pushWord pend NULL_DELIM h.words⟩

theorem emit_break (hbreak : isWordBreakChar c = true) : emit pend c rest =
    if pend = [] then [] else pieceOf pend (if inNumber pend c rest then NULL_DELIM else newline) := by
  unfold emit
  simp only [isalnum_of_break hbreak, Bool.false_eq_true, or_false, hbreak, true_and, ite_not]

theorem emit_mark (hbreak : ¬isWordBreakChar c = true) (halnum : isalnum c = false) :
    emit pend c rest = if pend = [] then [] else pieceOf pend NULL_DELIM := by
  unfold emit
  simp only [halnum, Bool.false_eq_true, or_false, hbreak, false_and, if_false]

theorem emit_alnum (halnum : isalnum c = true) : emit pend c rest = [] := by
  unfold emit
  rw [if_pos (Or.inr halnum)]

theorem breakTurn_writes (ht : InText h) (htext : text = front ++ pend ++ c :: rest)
    (hbreak : isWordBreakChar c = true) :
    Writes h (emit pend c rest) (front.length + pend.length + 1) (front.length + pend.length + 1)
      (turn isCommonEnglishWord (pageOf text after) 0 text.length
        (cursorAt h front pend numWords)) := by
  have hat : (pageOf text after).mem (cursorAt h front pend numWords).p = c :=
    mem_pageOf (front ++ pend) rest htext (by simp [cursorAt])
  have hword := fun linkDelim wordDelim => @endWord_writes isCommonEnglishWord text after front pend
    (c :: rest) h numWords ht htext linkDelim wordDelim (front.length + pend.length + 1)
  unfold turn
  simp only [hat]
  rw [if_pos hbreak, emit_break hbreak]
  by_cases hpend : pend = []
  · rw [if_pos hpend]
    simp only [hpend, if_true] at hword ⊢
    split
    · exact hword NULL_DELIM NULL_DELIM
    · exact hword space newline
  · simp only [hpend, if_false] at hword ⊢
    simp only [cursorAt, commaInNumber_eq htext hpend] at hword ⊢
    split
    · exact hword NULL_DELIM NULL_DELIM
    · exact hword space newline

/-- One turn on a text writes `emit`. -/
theorem turn_writes (ht : InText h) (htext : text = front ++ pend ++ c :: rest)
    (hc : IsTextChar c) :
    Writes h (emit pend c rest) (front.length + pend.length + 1)
      (if isalnum c then front.length else front.length + pend.length + 1)
      (turn isCommonEnglishWord (pageOf text after) 0 text.length
        (cursorAt h front pend numWords)) := by
  by_cases hbreak : isWordBreakChar c = true
  · rw [isalnum_of_break hbreak]
    exact breakTurn_writes ht htext hbreak
  · have hat : (pageOf text after).mem (cursorAt h front pend numWords).p = c :=
      mem_pageOf (front ++ pend) rest htext (by simp [cursorAt])
    have hutf8 : isUtf8Apostrophe (pageOf text after) (cursorAt h front pend numWords).p
        text.length = false ∧ isUtf8Space (pageOf text after) (cursorAt h front pend numWords).p
        text.length = false := by
      have hfirst : c ≠ 0xE2 ∧ c ≠ 0xC2 := by
        constructor <;> rintro rfl <;> exact absurd hc.lt (by decide)
      unfold isUtf8Apostrophe isUtf8Space
      rw [hat]
      simp [hfirst]
    unfold turn
    simp only [hat, hutf8]
    rw [if_neg hbreak, if_neg hc.ne.1, if_neg hc.ne.2]
    cases halnum : isalnum c with
    | false =>
      rw [emit_mark hbreak halnum]
      by_cases hquote : c = 39
      · rw [if_pos hquote]
        exact endPart_writes ht htext _
      · rw [if_neg hquote]
        exact otherTurn_writes ht htext
    | true =>
      have hquote : c ≠ 39 := by
        rintro rfl
        exact absurd halnum (by decide)
      rw [emit_alnum halnum, if_neg hquote]
      exact ⟨⟨ht.inA, ht.inTitle, ht.killed⟩, rfl, rfl, (List.append_nil _).symm⟩

end Turn

/-! ### The loop -/

/-- The loop gives the page up, or writes `emitted`. -/
theorem parseLoop_writes (hchars : ∀ c ∈ rest, IsTextChar c) {h : HtmlParser} (ht : InText h)
    (htext : text = front ++ pend ++ rest) {turns : Nat} (hturns : rest.length < turns)
    (numWords : Nat) :
    (parseLoop isCommonEnglishWord (pageOf text after) 0 text.length turns
        (cursorAt h front pend numWords)).killed = true ∨
      written (parseLoop isCommonEnglishWord (pageOf text after) 0 text.length turns
        (cursorAt h front pend numWords)).words = written h.words ++ emitted pend rest := by
  induction rest generalizing front pend h turns numWords with
  | nil =>
    obtain ⟨turns, rfl⟩ := Nat.exists_eq_succ_of_ne_zero (Nat.ne_of_gt hturns)
    have hend : ¬(cursorAt h front pend numWords).p < text.length := by simp [cursorAt, htext]
    unfold parseLoop
    rw [if_neg hend]
    exact Or.inr (List.append_nil _).symm
  | cons c rest ih =>
    obtain ⟨turns, rfl⟩ := Nat.exists_eq_succ_of_ne_zero (Nat.ne_of_gt (Nat.zero_lt_of_lt hturns))
    obtain ⟨hc, hrest⟩ := List.forall_mem_cons.mp hchars
    have hlt : (cursorAt h front pend numWords).p < text.length := by simp [cursorAt, htext]
    have hturn := @turn_writes isCommonEnglishWord text after front pend rest h numWords c ht htext hc
    unfold parseLoop emitted
    rw [if_pos hlt]
    revert hturn
    cases turn isCommonEnglishWord (pageOf text after) 0 text.length
        (cursorAt h front pend numWords) with
    | done h' => exact Or.inl
    | goOn next =>
      rintro ⟨ht', hp, hstart, hwritten⟩
      obtain ⟨h', p', wordStart', numWords'⟩ := next
      simp only at hp hstart hwritten ht'
      rw [← List.append_assoc, ← hwritten]
      have hturns' : rest.length < turns := Nat.lt_of_succ_lt_succ hturns
      cases halnum : isalnum c with
      | true =>
        rw [halnum, if_pos rfl] at hstart
        have htext' : text = front ++ (pend ++ [c]) ++ rest := by simp [htext]
        have hnext := ih hrest ht' htext' hturns' numWords'
        rw [cursorAt, List.length_append, ← Nat.add_assoc] at hnext
        rw [hp, hstart]
        exact hnext
      | false =>
        rw [halnum] at hstart
        have htext' : text = front ++ pend ++ [c] ++ [] ++ rest := by simp [htext]
        have hnext := ih hrest ht' htext' hturns' numWords'
        rw [cursorAt, List.length_append, List.length_append, List.length_nil] at hnext
        rw [hp, hstart]
        exact hnext

theorem safeEnd_pageOf (hchars : ∀ c ∈ text, IsTextChar c) {turns : Nat}
    (hturns : turns ≤ text.length) : safeEnd (pageOf text after) 0 turns = text.length := by
  induction turns with
  | zero => rfl
  | succ turns ih =>
    have hat : (pageOf text after).mem turns = text[turns] :=
      mem_pageOf (text.take turns) (text.drop (turns + 1)) (by simp) (by simp; omega)
    have hne : text[turns] ≠ 62 := by
      intro heq
      have hc := hchars _ (List.getElem_mem hturns)
      rw [heq] at hc
      revert hc
      unfold IsTextChar
      decide
    unfold safeEnd
    simp only [Nat.zero_add, Nat.add_sub_cancel, hat]
    rw [if_neg hne]
    exact ih (Nat.le_of_succ_le hturns)

/-- A text that the parser does not give up adds `emitted` to the words. -/
theorem written_parsed (hchars : ∀ c ∈ text, IsTextChar c) {hops domainHops : Nat} {link : Bytes}
    (hlive : (parsed isCommonEnglishWord after hops domainHops link text).killed = false) :
    written (parsed isCommonEnglishWord after hops domainHops link text).words =
      written (HtmlParser.ofPage hops domainHops link).writeHeaders.words ++ emitted [] text := by
  have hstart : InText (HtmlParser.ofPage hops domainHops link).writeHeaders := ⟨rfl, rfl, rfl⟩
  have hend : safeEnd (pageOf text after) 0 ((pageOf text after).size - 0) = text.length :=
    safeEnd_pageOf hchars (Nat.le_refl _)
  have hparsed : parsed isCommonEnglishWord after hops domainHops link text =
      parseChunk isCommonEnglishWord (pageOf text after) 0 text.length
        (HtmlParser.ofPage hops domainHops link).writeHeaders := by
    unfold parsed parseBody parseBuf
    rw [show parseStart (pageOf text after) (HtmlParser.ofPage hops domainHops link).writeHeaders =
      some (0, (HtmlParser.ofPage hops domainHops link).writeHeaders) from rfl]
    simp only [hend]
  rw [hparsed] at hlive ⊢
  unfold parseChunk at hlive ⊢
  by_cases hnil : text.length ≤ 0
  · rw [if_pos hnil, List.eq_nil_of_length_eq_zero (Nat.le_zero.mp hnil)]
    exact (List.append_nil _).symm
  · rw [if_neg hnil] at hlive ⊢
    have hloop := @parseLoop_writes isCommonEnglishWord text after [] [] text hchars _ hstart rfl _
      (Nat.lt_succ_self _) 0
    rcases hloop with hkilled | hwritten
    · exact absurd (hlive.symm.trans hkilled) Bool.false_ne_true
    · exact hwritten

end Text

/-! ## What a text writes, word by word -/

/-- What a word and the space after it write. -/
def wordStream (word : Bytes) : Bytes := emitted [] (word ++ [space])

/-- What the server and the tokenizer make of a word. -/
def queryWord (word : Bytes) : Bytes := (lowercase word).filter isKept

theorem inNumber_congr {pend rest rest' : Bytes} {c : UInt8} (h : rest.head? = rest'.head?) :
    inNumber pend c rest = inNumber pend c rest' := by
  unfold inNumber
  rw [h]

theorem inNumber_space (pend : Bytes) (c : UInt8) (rest : Bytes) :
    inNumber pend c (rest ++ [space]) = inNumber pend c rest := by
  cases rest with
  | nil => simp [inNumber, isDigit, space]
  | cons x rest => rfl

theorem emit_congr {pend rest rest' : Bytes} {c : UInt8} (h : rest.head? = rest'.head?) :
    emit pend c rest = emit pend c rest' := by
  unfold emit
  rw [inNumber_congr h]

theorem emit_space (pend rest : Bytes) : emit pend space rest = emit pend space [] := by
  unfold emit inNumber
  simp [space]

theorem emitted_append_space (pend word rest : Bytes) :
    emitted pend (word ++ space :: rest) = emitted pend (word ++ [space]) ++ emitted [] rest := by
  induction word generalizing pend with
  | nil =>
    have halnum : isalnum space = false := rfl
    simp only [List.nil_append, emitted, halnum, Bool.false_eq_true, if_false, List.append_nil]
    rw [emit_space]
  | cons c word ih =>
    have hhead : (word ++ space :: rest).head? = (word ++ [space]).head? := by
      cases word <;> rfl
    rw [List.cons_append, List.cons_append, emitted, emitted, ih, emit_congr hhead,
      List.append_assoc]

theorem emitted_textOf (words : List Bytes) :
    emitted [] (textOf words) = words.flatMap wordStream := by
  induction words with
  | nil => rfl
  | cons word words ih =>
    rw [textOf, List.flatMap_cons, List.append_assoc, List.singleton_append, emitted_append_space]
    exact congrArg (wordStream word ++ ·) ih

/-! ### Letters -/

/-- A list of letters and digits. -/
def Alnum (run : Bytes) : Prop := ∀ c ∈ run, isalnum c = true

theorem isKept_tolower {c : UInt8} (h : isalnum c = true) : isKept (tolower c) = true := by
  unfold isalnum isDigit at h
  unfold isKept isDigit tolower
  simp only [Bool.or_eq_true, Bool.and_eq_true, decide_eq_true_eq, UInt8.le_iff_toNat_le,
    UInt8.reduceToNat] at h ⊢
  split
  · rename_i hupper
    rw [UInt8.toNat_add]
    simp only [UInt8.reduceToNat]
    omega
  · omega

theorem isalnum_tolower {c : UInt8} (h : isalnum c = true) : isalnum (tolower c) = true := by
  unfold isalnum isDigit at h ⊢
  unfold tolower
  simp only [Bool.or_eq_true, Bool.and_eq_true, decide_eq_true_eq, UInt8.le_iff_toNat_le,
    UInt8.reduceToNat] at h ⊢
  split
  · rename_i hupper
    rw [UInt8.toNat_add]
    simp only [UInt8.reduceToNat]
    omega
  · omega

theorem isKept_mark {c : UInt8} (h : isMark c = true) : isKept (tolower c) = decide (c = 45) := by
  unfold isMark at h
  simp only [Bool.and_eq_true, Bool.not_eq_true', decide_eq_true_eq, List.mem_cons, not_or,
    List.not_mem_nil, not_false_eq_true, and_true] at h
  obtain ⟨⟨⟨hlow, hhigh⟩, halnum⟩, hquote, hopen, hclose, hpipe, _⟩ := h
  have hsame : tolower c = c := by
    unfold tolower
    rw [if_neg]
    intro hupper
    unfold isalnum at halnum
    simp [hupper] at halnum
  have hspace : c ≠ 32 := by
    rintro rfl
    exact absurd hlow (by decide)
  unfold isalnum at halnum
  unfold isKept
  rw [hsame]
  simp only [Bool.or_eq_false_iff] at halnum
  simp [halnum, hquote, hopen, hclose, hpipe, hspace]

theorem queryWord_append (xs ys : Bytes) : queryWord (xs ++ ys) = queryWord xs ++ queryWord ys := by
  unfold queryWord
  rw [lowercase_append, List.filter_append]

theorem queryWord_run {run : Bytes} (h : Alnum run) : queryWord run = lowercase run := by
  unfold queryWord
  rw [List.filter_eq_self]
  intro c hc
  obtain ⟨x, hx, rfl⟩ := List.mem_map.mp hc
  exact isKept_tolower (h x hx)

theorem newline_notMem_queryWord (word : Bytes) : newline ∉ queryWord word := by
  intro h
  exact absurd (List.mem_filter.mp h).2 (by decide)

theorem newline_notMem_lowercase {run : Bytes} (h : Alnum run) : newline ∉ lowercase run :=
  queryWord_run h ▸ newline_notMem_queryWord run

theorem sublist_queryWord (word : Bytes) :
    (lowercase (word.filter isalnum)).Sublist (queryWord word) := by
  induction word with
  | nil => exact List.Sublist.refl []
  | cons c word ih =>
    have hcons : queryWord (c :: word) = queryWord [c] ++ queryWord word :=
      queryWord_append [c] word
    rw [hcons, List.filter_cons]
    split
    · rename_i hc
      have hone : queryWord [c] = [tolower c] :=
        queryWord_run (by intro x hx; rwa [List.mem_singleton.mp hx])
      rw [hone]
      exact ih.cons_cons _
    · exact ih.trans (List.sublist_append_right _ _)

theorem letters_pieceOf {run : Bytes} (h : Alnum run) {delim : UInt8}
    (hdelim : delim = newline ∨ delim = NULL_DELIM) :
    letters newline (pieceOf run delim) =
      if MAX_WORD_MEMORY < run.length then []
      else lowercase (run.take (MAX_WORD_MEMORY - 2)) := by
  have htake : newline ∉ lowercase (run.take (MAX_WORD_MEMORY - 2)) :=
    newline_notMem_lowercase fun c hc => h c (List.mem_of_mem_take hc)
  unfold pieceOf
  split
  · rfl
  · rw [letters_append, letters_of_notMem htake]
    rcases hdelim with rfl | rfl
    · exact List.append_nil _
    · exact List.append_nil _

theorem letters_pieceOf_sublist {run : Bytes} (h : Alnum run) {delim : UInt8}
    (hdelim : delim = newline ∨ delim = NULL_DELIM) :
    (letters newline (pieceOf run delim)).Sublist (lowercase run) := by
  rw [letters_pieceOf h hdelim]
  split
  · exact List.nil_sublist _
  · exact (List.take_sublist _ _).map _

theorem emit_cases (pend : Bytes) (c : UInt8) (rest : Bytes) :
    emit pend c rest = [] ∨ pend ≠ [] ∧
      ∃ delim, (delim = newline ∨ delim = NULL_DELIM) ∧ emit pend c rest = pieceOf pend delim := by
  unfold emit
  split
  · exact Or.inl rfl
  · rename_i hpend
    refine Or.inr ⟨(not_or.mp hpend).1, ?_⟩
    split
    · exact ⟨newline, Or.inl rfl, rfl⟩
    · exact ⟨NULL_DELIM, Or.inr rfl, rfl⟩

theorem letters_emit_sublist {pend : Bytes} (h : Alnum pend) (c : UInt8) (rest : Bytes) :
    (letters newline (emit pend c rest)).Sublist (lowercase pend) := by
  rcases emit_cases pend c rest with hnone | ⟨_, delim, hdelim, hpiece⟩
  · rw [hnone]
    exact List.nil_sublist _
  · rw [hpiece]
    exact letters_pieceOf_sublist h hdelim

theorem Alnum.concat {pend : Bytes} (h : Alnum pend) {c : UInt8} (hc : isalnum c = true) :
    Alnum (pend ++ [c]) := by
  intro x hx
  rcases List.mem_append.mp hx with hx | hx
  · exact h x hx
  · rwa [List.mem_singleton.mp hx]

theorem Alnum.nil : Alnum [] := fun _ h => absurd h List.not_mem_nil

/-- The parser writes at most the letters and digits of a text. -/
theorem letters_emitted_sublist {pend : Bytes} (h : Alnum pend) (rest : Bytes) :
    (letters newline (emitted pend rest)).Sublist (lowercase (pend ++ rest.filter isalnum)) := by
  induction rest generalizing pend with
  | nil => exact List.nil_sublist _
  | cons c rest ih =>
    unfold emitted
    rw [letters_append]
    cases halnum : isalnum c with
    | true =>
      have hone := ih (h.concat halnum)
      rw [List.append_assoc] at hone
      rw [emit_alnum halnum, List.filter_cons_of_pos halnum]
      exact hone
    | false =>
      rw [List.filter_cons_of_neg (by simp [halnum]), lowercase_append]
      exact (letters_emit_sublist h c rest).append (ih Alnum.nil)

theorem letters_wordStream_sublist (word : Bytes) :
    (letters newline (wordStream word)).Sublist (queryWord word) := by
  have hletters := letters_emitted_sublist Alnum.nil (word ++ [space])
  rw [List.nil_append, List.filter_append] at hletters
  have hspace : [space].filter isalnum = [] := rfl
  rw [hspace, List.append_nil] at hletters
  exact hletters.trans (sublist_queryWord word)

theorem head?_pieceOf {run : Bytes} (h : Alnum run) (delim : UInt8) (hnil : run ≠ []) :
    (pieceOf run delim).head? ≠ some newline := by
  unfold pieceOf
  split
  · simp
  · obtain ⟨c, run, rfl⟩ := List.exists_cons_of_ne_nil hnil
    intro hhead
    have hc : tolower c = newline := by
      simpa [lowercase, MAX_WORD_MEMORY] using hhead
    have hkept := isKept_tolower (h c List.mem_cons_self)
    rw [hc] at hkept
    exact absurd hkept (by decide)

theorem head?_emitted {pend : Bytes} (h : Alnum pend) (rest : Bytes) :
    (emitted pend rest).head? ≠ some newline := by
  induction rest generalizing pend with
  | nil => simp [emitted]
  | cons c rest ih =>
    unfold emitted
    have hnext : Alnum (if isalnum c then pend ++ [c] else []) := by
      split
      · rename_i hc
        exact h.concat hc
      · exact Alnum.nil
    rcases emit_cases pend c rest with hnone | ⟨hnil, delim, _, hpiece⟩
    · rw [hnone]
      exact ih hnext
    · have hhead := head?_pieceOf h delim hnil
      rw [← hpiece] at hhead
      cases hemit : emit pend c rest with
      | nil => exact ih hnext
      | cons x piece =>
        rw [hemit] at hhead
        exact hhead

/-! ## The query -/

theorem removeSpecialChars_textOf (words : List Bytes) :
    removeSpecialChars (textOf words) = textOf (words.map queryWord) := by
  have hspace : queryWord [space] = [space] := by decide
  change queryWord (textOf words) = _
  induction words with
  | nil => rfl
  | cons word words ih =>
    unfold textOf at ih ⊢
    rw [List.flatMap_cons, queryWord_append, queryWord_append, hspace, ih, List.map_cons,
      List.flatMap_cons]

theorem tokenizeLoop_space (turns : Nat) (str : Bytes) :
    tokenizeLoop turns (space :: str) = tokenizeLoop turns str := by
  cases turns with
  | zero => rfl
  | succ turns =>
    have hskip : (space :: str).dropWhile isSpace = str.dropWhile isSpace :=
      List.dropWhile_cons_of_pos rfl
    rw [tokenizeLoop, tokenizeLoop, hskip]

/-- A word that the tokenizer reads whole, before a space. -/
structure Tokenizes (word : Bytes) : Prop where
  chars : ∀ c ∈ word, isWordChar c = true
  head : ∀ c ∈ word.head?, c ≠ 45

theorem tokenizeLoop_word_space {word : Bytes} (h : Tokenizes word) (hnil : word ≠ []) (turns : Nat)
    (str : Bytes) :
    tokenizeLoop (turns + 1) (word ++ space :: str) = ⟨.word, word⟩ :: tokenizeLoop turns str := by
  have htake : (word ++ space :: str).takeWhile isWordChar = word := by
    rw [List.takeWhile_append_of_pos h.chars]
    exact List.append_nil word
  have hdrop : (word ++ space :: str).dropWhile isWordChar = space :: str := by
    rw [List.dropWhile_append_of_pos h.chars]
    rfl
  obtain ⟨c, rest, hcons⟩ := List.exists_cons_of_ne_nil hnil
  have hc : isWordChar c = true := h.chars c (hcons ▸ List.mem_cons_self)
  have hminus : c ≠ 45 := h.head c (by rw [hcons]; rfl)
  unfold isWordChar at hc
  simp only [Bool.and_eq_true, Bool.not_eq_true', decide_eq_true_eq] at hc
  obtain ⟨⟨⟨⟨hspace, hopen⟩, hclose⟩, hpipe⟩, hquote⟩ := hc
  have hstr : (word ++ space :: str).dropWhile isSpace = c :: (rest ++ space :: str) := by
    rw [hcons, List.cons_append, List.dropWhile_cons_of_neg (by simp [hspace])]
  have hsame : c :: (rest ++ space :: str) = word ++ space :: str := by rw [hcons, List.cons_append]
  rw [tokenizeLoop, hstr]
  simp only [hopen, hclose, hpipe, hminus, hquote, if_false]
  rw [hsame, htake, hdrop, tokenizeLoop_space]

theorem tokenizeLoop_textOf {words : List Bytes} (h : ∀ word ∈ words, Tokenizes word) {turns : Nat}
    (hturns : words.length < turns) :
    tokenizeLoop turns (textOf words) =
      (words.filter (· ≠ [])).map fun word => (⟨.word, word⟩ : Token) := by
  induction words generalizing turns with
  | nil =>
    obtain ⟨turns, rfl⟩ := Nat.exists_eq_succ_of_ne_zero (Nat.ne_of_gt hturns)
    rfl
  | cons word words ih =>
    obtain ⟨hword, hwords⟩ := List.forall_mem_cons.mp h
    have htext : textOf (word :: words) = word ++ space :: textOf words := by
      rw [textOf, List.flatMap_cons, List.append_assoc]
      rfl
    have hlen : words.length < turns := Nat.lt_of_succ_lt hturns
    rw [htext]
    by_cases hnil : word = []
    · rw [hnil, List.nil_append, tokenizeLoop_space, ih hwords hlen, List.filter_cons_of_neg (by simp)]
    · obtain ⟨turns, rfl⟩ := Nat.exists_eq_succ_of_ne_zero (Nat.ne_of_gt (Nat.zero_lt_of_lt hturns))
      rw [tokenizeLoop_word_space hword hnil, ih hwords (Nat.lt_of_succ_lt_succ hturns),
        List.filter_cons_of_pos (by simpa using hnil), List.map_cons]

theorem length_le_textOf (words : List Bytes) : words.length ≤ (textOf words).length := by
  induction words with
  | nil => exact Nat.zero_le _
  | cons word words ih =>
    unfold textOf at ih ⊢
    rw [List.flatMap_cons, List.length_append, List.length_append, List.length_cons]
    simp only [List.length_cons, List.length_nil]
    omega

theorem isWordChar_of_isalnum {c : UInt8} (h : isalnum c = true) : isWordChar c = true := by
  have hne : ∀ d : UInt8, isalnum d = false → c ≠ d := by
    rintro d hd rfl
    exact absurd (h.symm.trans hd) (by decide)
  unfold isWordChar isSpace
  simp [hne 32 rfl, hne 9 rfl, hne 10 rfl, hne 13 rfl, hne 40 rfl, hne 41 rfl, hne 124 rfl,
    hne 34 rfl]

theorem queryWord_cons {c : UInt8} (h : isalnum c = true) (word : Bytes) :
    queryWord (c :: word) = tolower c :: queryWord word := by
  unfold queryWord lowercase
  rw [List.map_cons, List.filter_cons_of_pos (isKept_tolower h)]

theorem queryWord_ne_nil {word : Bytes} (h : IsWord word) (hnil : word ≠ []) :
    queryWord word ≠ [] := by
  obtain ⟨c, tail, rfl⟩ := List.exists_cons_of_ne_nil hnil
  rw [queryWord_cons (h.head c rfl)]
  exact List.cons_ne_nil _ _

theorem tokenizes_queryWord {word : Bytes} (h : IsWord word) : Tokenizes (queryWord word) := by
  constructor
  · intro c hc
    obtain ⟨hmem, hkept⟩ := List.mem_filter.mp hc
    obtain ⟨x, hx, rfl⟩ := List.mem_map.mp hmem
    rcases h.chars x hx with halnum | hmark
    · exact isWordChar_of_isalnum (isalnum_tolower halnum)
    · rw [isKept_mark hmark, decide_eq_true_eq] at hkept
      rw [hkept]
      rfl
  · intro c hc
    cases word with
    | nil => cases hc
    | cons x word =>
      have hx : isalnum x = true := h.head x rfl
      rw [queryWord_cons hx, List.head?_cons, Option.mem_some_iff] at hc
      rintro rfl
      have hlower := isalnum_tolower hx
      rw [hc] at hlower
      exact absurd hlower (by decide)

theorem queryWords_textOf {words : List Bytes} (h : ∀ word ∈ words, IsWord word) :
    queryWords (textOf words) = (words.map queryWord).filter (· ≠ []) := by
  have htokens : tokenize (textOf (words.map queryWord)) = _ :=
    tokenizeLoop_textOf (List.forall_mem_map.mpr fun word hword => tokenizes_queryWord (h word hword))
      (Nat.lt_succ_of_le (length_le_textOf _))
  unfold queryWords
  rw [removeSpecialChars_textOf, htokens, List.filter_eq_self.mpr, List.map_map]
  · exact List.map_id _
  · intro t ht
    obtain ⟨word, _, rfl⟩ := List.mem_map.mp ht
    rfl

/-! ## One word -/

theorem isMark_isalnum {c : UInt8} (h : isMark c = true) : isalnum c = false := by
  unfold isMark at h
  simp only [Bool.and_eq_true, Bool.not_eq_true'] at h
  exact h.1.2

theorem NoHyphen.queryWord {marks : Bytes} (h : NoHyphen marks) : queryWord marks = [] := by
  unfold word_splitting.queryWord
  rw [List.filter_eq_nil_iff]
  intro c hc
  obtain ⟨x, hx, rfl⟩ := List.mem_map.mp hc
  obtain ⟨hmark, hne⟩ := h x hx
  rw [isKept_mark hmark]
  simpa using hne

theorem noHyphen_of_queryWord {marks : Bytes} (hmarks : ∀ c ∈ marks, isMark c = true)
    (h : queryWord marks = []) : NoHyphen marks := by
  intro c hc
  refine ⟨hmarks c hc, ?_⟩
  have hkept := List.filter_eq_nil_iff.mp h (tolower c) (List.mem_map_of_mem hc)
  rw [isKept_mark (hmarks c hc)] at hkept
  simpa using hkept

theorem emitted_run {run : Bytes} (h : Alnum run) (pend rest : Bytes) :
    emitted pend (run ++ rest) = emitted (pend ++ run) rest := by
  induction run generalizing pend with
  | nil => rw [List.nil_append, List.append_nil]
  | cons c run ih =>
    obtain ⟨hc, hrun⟩ := List.forall_mem_cons.mp h
    rw [List.cons_append, emitted, emit_alnum hc, if_pos hc, List.nil_append, ih hrun,
      List.append_assoc, List.singleton_append]

theorem emitted_marks {marks : Bytes} (h : ∀ c ∈ marks, isalnum c = false) (rest : Bytes) :
    emitted [] (marks ++ rest) = emitted [] rest := by
  induction marks with
  | nil => rfl
  | cons c marks ih =>
    obtain ⟨hc, hmarks⟩ := List.forall_mem_cons.mp h
    have hnone : emit [] c (marks ++ rest) = [] := if_pos (Or.inl rfl)
    rw [List.cons_append, emitted, hnone, hc, List.nil_append]
    exact ih hmarks

/-- Letters and digits at the end of a word, with the marks and the space after them. -/
theorem emitted_last {run marks : Bytes} {c : UInt8} (hrun : Alnum run)
    (hmarks : ∀ x ∈ c :: marks, isalnum x = false) :
    emitted [] (run ++ c :: marks) = emit run c marks := by
  obtain ⟨hc, htail⟩ := List.forall_mem_cons.mp hmarks
  have hnone := emitted_marks htail []
  rw [List.append_nil] at hnone
  rw [emitted_run hrun, List.nil_append, emitted, hc, if_neg Bool.false_ne_true, hnone]
  exact List.append_nil _

theorem wordStream_join {run marks rest : Bytes} {c : UInt8} (hrun : Alnum run)
    (hmarks : ∀ x ∈ c :: marks, isalnum x = false) :
    wordStream (run ++ c :: (marks ++ rest)) = emit run c (marks ++ rest) ++ wordStream rest := by
  obtain ⟨hc, htail⟩ := List.forall_mem_cons.mp hmarks
  have hnumber : emit run c (marks ++ rest ++ [space]) = emit run c (marks ++ rest) := by
    unfold emit
    rw [inNumber_space]
  unfold wordStream
  rw [List.append_assoc, List.cons_append, emitted_run hrun, List.nil_append, emitted, hc,
    if_neg Bool.false_ne_true, hnumber, List.append_assoc, emitted_marks htail]

theorem emit_run {run : Bytes} (hnil : run ≠ []) {c : UInt8} (hc : isalnum c = false)
    (rest : Bytes) : emit run c rest =
      pieceOf run (if isWordBreakChar c ∧ ¬inNumber run c rest then newline else NULL_DELIM) := by
  unfold emit
  rw [if_neg]
  simp [hnil, hc]

theorem pieceOf_short {run : Bytes} (h : run.length ≤ MAX_WORD_MEMORY - 2) (delim : UInt8) :
    pieceOf run delim =
      lowercase run ++ if delim = NULL_DELIM then [] else [tolower delim] := by
  unfold pieceOf
  rw [if_neg (by omega), List.take_of_length_le h]

theorem emit_ends {run : Bytes} (hrun : IsRun run) {c : UInt8} (hbreak : isWordBreakChar c = true)
    {rest : Bytes} (hnumber : inNumber run c rest = false) :
    emit run c rest = lowercase run ++ [newline] := by
  rw [emit_run hrun.ne_nil (isalnum_of_break hbreak), hnumber,
    if_pos ⟨hbreak, Bool.false_ne_true⟩, pieceOf_short hrun.short]
  rfl

theorem emit_goesOn {run : Bytes} (hrun : IsRun run) {c : UInt8} (hc : isalnum c = false)
    {rest : Bytes} (hjoin : isWordBreakChar c = true → inNumber run c rest = true) :
    emit run c rest = lowercase run := by
  have hnever : ¬(isWordBreakChar c = true ∧ ¬inNumber run c rest = true) := fun h =>
    h.2 (hjoin h.1)
  rw [emit_run hrun.ne_nil hc, if_neg hnever, pieceOf_short hrun.short]
  exact List.append_nil _

theorem not_inNumber_of_marks {run marks : Bytes} {c : UInt8}
    (h : ∀ x ∈ marks, isalnum x = false) : inNumber run c marks = false := by
  unfold inNumber
  cases marks with
  | nil => simp
  | cons x marks =>
    have hx : isDigit x = false := by
      have halnum := h x List.mem_cons_self
      unfold isalnum at halnum
      simp only [Bool.or_eq_false_iff] at halnum
      exact halnum.1.1
    simp [hx]

theorem endMarks_run {run marks : Bytes} (hrun : Alnum run) (hnil : run ≠ [])
    (hmarks : ∀ c ∈ marks, isalnum c = false) : endMarks (run ++ marks) = marks := by
  have hall : ∀ c ∈ marks.reverse, (!isalnum c) = true := by
    intro c hc
    rw [hmarks c (List.mem_reverse.mp hc)]
    rfl
  have hlast : run.reverse.takeWhile (fun c => !isalnum c) = [] := by
    obtain ⟨c, rest, hrev⟩ := List.exists_cons_of_ne_nil (mt List.reverse_eq_nil_iff.mp hnil)
    have hc : isalnum c = true := hrun c (List.mem_reverse.mp (hrev ▸ List.mem_cons_self))
    rw [hrev, List.takeWhile_cons_of_neg (by simp [hc])]
  unfold endMarks
  rw [List.reverse_append, List.takeWhile_append_of_pos hall, hlast, List.append_nil,
    List.reverse_reverse]

theorem endMarks_append (front : Bytes) {rest : Bytes} (h : ∃ c ∈ rest, isalnum c = true) :
    endMarks (front ++ rest) = endMarks rest := by
  unfold endMarks
  rw [List.reverse_append, List.takeWhile_append, if_neg]
  intro hlen
  obtain ⟨c, hc, halnum⟩ := h
  have hsame := (List.takeWhile_prefix _).sublist.eq_of_length hlen
  have hall := List.takeWhile_eq_self_iff.mp hsame c (List.mem_reverse.mpr hc)
  rw [halnum] at hall
  exact absurd hall (by decide)

theorem TakenAsOne.ne_nil {word : Bytes} (h : TakenAsOne word) : ∃ c ∈ word, isalnum c = true := by
  have hfirst : ∀ {run : Bytes}, IsRun run → ∃ c ∈ run, isalnum c = true := fun hrun => by
    obtain ⟨c, rest, rfl⟩ := List.exists_cons_of_ne_nil hrun.ne_nil
    exact ⟨c, List.mem_cons_self, hrun.chars c List.mem_cons_self⟩
  cases h with
  | last hrun _ | join hrun _ _ _ =>
    obtain ⟨c, hc, halnum⟩ := hfirst hrun
    exact ⟨c, List.mem_append_left _ hc, halnum⟩

/-- A word that both sides take as one is written as a line. -/
theorem wordStream_takenAsOne {word : Bytes} (h : TakenAsOne word) (hend : EndsWithBreak word) :
    wordStream word = queryWord word ++ [newline] := by
  induction h with
  | @last run marks hrun hmarks =>
    have halnum : ∀ c ∈ marks, isalnum c = false := fun c hc => isMark_isalnum (hmarks c hc).1
    rw [queryWord_append, queryWord_run hrun.chars, hmarks.queryWord, List.append_nil, wordStream,
      List.append_assoc]
    unfold EndsWithBreak at hend
    rw [endMarks_run hrun.chars hrun.ne_nil halnum] at hend
    cases marks with
    | nil =>
      have hspace : ∀ x ∈ [space], isalnum x = false := List.forall_mem_singleton.mpr rfl
      rw [List.nil_append, emitted_last hrun.chars hspace, emit_ends hrun rfl rfl]
    | cons c marks =>
      have hspace : ∀ x ∈ c :: (marks ++ [space]), isalnum x = false := by
        intro x hx
        rcases List.mem_append.mp (List.cons_append ▸ hx) with hx | hx
        · exact halnum x hx
        · rw [List.mem_singleton.mp hx]
          rfl
      have hnumber : inNumber run c (marks ++ [space]) = false :=
        not_inNumber_of_marks (List.forall_mem_cons.mp hspace).2
      rw [List.cons_append, emitted_last hrun.chars hspace, emit_ends hrun (hend c rfl) hnumber]
  | @join run marks rest c hrun hmarks hjoin hrest ih =>
    have halnum : ∀ x ∈ c :: marks, isalnum x = false := fun x hx => isMark_isalnum (hmarks x hx).1
    have hword : run ++ c :: (marks ++ rest) = (run ++ c :: marks) ++ rest := by simp
    unfold EndsWithBreak at hend
    rw [hword, endMarks_append _ hrest.ne_nil] at hend
    rw [wordStream_join hrun.chars halnum, ih hend,
      emit_goesOn hrun (halnum c List.mem_cons_self) hjoin, hword, queryWord_append,
      queryWord_append, queryWord_run hrun.chars, hmarks.queryWord, List.append_nil,
      List.append_assoc]

theorem exists_span (p : UInt8 → Bool) (str : Bytes) :
    ∃ front rest, str = front ++ rest ∧ (∀ c ∈ front, p c = true) ∧
      ∀ c ∈ rest.head?, p c = false := by
  refine ⟨str.takeWhile p, str.dropWhile p, List.takeWhile_append_dropWhile.symm,
    fun c hc => List.mem_takeWhile_imp hc, fun c hc => ?_⟩
  have hhead := List.head?_dropWhile_not p str
  rw [Option.mem_def.mp hc] at hhead
  simpa using hhead

/-- A word is letters and digits with marks after them, or that and another word. -/
theorem word_cases {word : Bytes} (h : IsWord word) (hnil : word ≠ []) :
    ∃ run marks rest, word = run ++ (marks ++ rest) ∧ run ≠ [] ∧ Alnum run ∧
      (∀ c ∈ marks, isMark c = true) ∧ IsWord rest ∧ (rest ≠ [] → marks ≠ []) := by
  obtain ⟨run, others, hword, hrun, hothers⟩ := exists_span isalnum word
  obtain ⟨marks, rest, hsplit, hmarks, hrest⟩ := exists_span (fun c => !isalnum c) others
  have hchars : ∀ c ∈ marks ++ rest, isalnum c = true ∨ isMark c = true := fun c hc =>
    h.chars c (by rw [hword, hsplit]; exact List.mem_append_right run hc)
  refine ⟨run, marks, rest, by rw [hword, hsplit], ?_, hrun, ?_, ⟨?_, ?_⟩, ?_⟩
  · rintro rfl
    obtain ⟨c, tail, htail⟩ := List.exists_cons_of_ne_nil hnil
    have hc : isalnum c = true := h.head c (by rw [htail]; rfl)
    rw [List.nil_append] at hword
    exact absurd hc (Bool.eq_false_iff.mp (hothers c (by rw [← hword, htail]; rfl)))
  · intro c hc
    rcases hchars c (List.mem_append_left rest hc) with halnum | hmark
    · have hno := hmarks c hc
      rw [halnum] at hno
      exact absurd hno (by decide)
    · exact hmark
  · exact fun c hc => hchars c (List.mem_append_right marks hc)
  · intro c hc
    simpa using hrest c hc
  · rintro hne rfl
    obtain ⟨c, tail, htail⟩ := List.exists_cons_of_ne_nil hne
    rw [List.nil_append] at hsplit
    have hno := hothers c (by rw [hsplit, htail]; rfl)
    have hyes := hrest c (by rw [htail]; rfl)
    rw [hno] at hyes
    exact absurd hyes (by decide)

/-- A piece that is a line: nothing is cut off, and a mark that breaks words comes after it. -/
theorem pieceOf_eq_line {run kept : Bytes} {delim : UInt8}
    (h : pieceOf run delim = lowercase run ++ kept ++ [newline]) :
    kept = [] ∧ run.length ≤ MAX_WORD_MEMORY - 2 ∧ delim ≠ NULL_DELIM := by
  have hlen := congrArg List.length h
  unfold pieceOf lowercase at hlen
  split at hlen
  · simp at hlen
  · simp only [List.length_append, List.length_map, List.length_take, List.length_singleton] at hlen
    split at hlen
    · simp only [List.length_nil] at hlen
      omega
    · rename_i hdelim
      simp only [List.length_singleton] at hlen
      exact ⟨List.eq_nil_of_length_eq_zero (by omega), by omega, hdelim⟩

theorem short_of_letters {run : Bytes} (hrun : Alnum run) (hnil : run ≠ []) {delim : UInt8}
    (hdelim : delim = newline ∨ delim = NULL_DELIM)
    (h : run.length ≤ (letters newline (pieceOf run delim)).length) :
    run.length ≤ MAX_WORD_MEMORY - 2 := by
  rw [letters_pieceOf hrun hdelim] at h
  split at h
  · exact absurd (List.eq_nil_of_length_eq_zero (Nat.le_zero.mp h)) hnil
  · rw [lowercase, List.length_map, List.length_take] at h
    omega

/-- The last run of a word: what comes after it ends the line. -/
theorem last_of_wordStream {run marks : Bytes} (hrun : Alnum run) (hnil : run ≠ [])
    (hmarks : ∀ c ∈ marks, isMark c = true)
    (hline : wordStream (run ++ marks) = queryWord (run ++ marks) ++ [newline]) :
    TakenAsOne (run ++ marks) ∧ EndsWithBreak (run ++ marks) := by
  have halnum : ∀ c ∈ marks ++ [space], isalnum c = false := by
    intro c hc
    rcases List.mem_append.mp hc with hc | hc
    · exact isMark_isalnum (hmarks c hc)
    · rw [List.mem_singleton.mp hc]
      rfl
  obtain ⟨c, tail, htail⟩ := List.exists_cons_of_ne_nil
    (List.append_ne_nil_of_right_ne_nil marks (List.cons_ne_nil space []))
  rw [htail] at halnum
  rw [wordStream, List.append_assoc, htail, emitted_last hrun halnum,
    emit_run hnil (halnum c List.mem_cons_self), queryWord_append, queryWord_run hrun] at hline
  obtain ⟨hkept, hshort, hdelim⟩ := pieceOf_eq_line hline
  refine ⟨.last ⟨hnil, hrun, hshort⟩ (noHyphen_of_queryWord hmarks hkept), ?_⟩
  unfold EndsWithBreak
  rw [endMarks_run hrun hnil fun c hc => isMark_isalnum (hmarks c hc)]
  intro x hx
  have hsame : x = c := by
    cases marks with
    | nil => cases hx
    | cons y marks =>
      rw [List.cons_append] at htail
      rw [List.head?_cons, Option.mem_some_iff] at hx
      exact hx.symm.trans (List.cons.inj htail).1
  by_contra hbreak
  exact hdelim (if_neg fun h => hbreak (hsame ▸ h.1))

theorem join_of_wordStream {run tail rest : Bytes} {c : UInt8} (hrun : Alnum run) (hnil : run ≠ [])
    (hmarks : ∀ x ∈ c :: tail, isMark x = true) (hrest : IsWord rest) (hne : rest ≠ [])
    (hline : wordStream (run ++ c :: (tail ++ rest)) =
      queryWord (run ++ c :: (tail ++ rest)) ++ [newline]) :
    IsRun run ∧ NoHyphen (c :: tail) ∧ (isWordBreakChar c = true → inNumber run c (tail ++ rest)) ∧
      wordStream rest = queryWord rest ++ [newline] := by
  have halnum : ∀ x ∈ c :: tail, isalnum x = false := fun x hx => isMark_isalnum (hmarks x hx)
  have hword : run ++ c :: (tail ++ rest) = run ++ (c :: tail) ++ rest := by simp
  rw [wordStream_join hrun halnum, hword, queryWord_append, queryWord_append, queryWord_run hrun]
    at hline
  have hletters := congrArg (fun str => (letters newline str).length) hline
  simp only [letters_append, letters_of_notMem (newline_notMem_lowercase hrun),
    letters_of_notMem (newline_notMem_queryWord (c :: tail)),
    letters_of_notMem (newline_notMem_queryWord rest), List.length_append] at hletters
  -- all the letters of the line are there, so neither part of the stream has lost one
  have hemit := (letters_emit_sublist hrun c (tail ++ rest)).length_le
  have hstream := (letters_wordStream_sublist rest).length_le
  have hlower : (lowercase run).length = run.length := List.length_map _
  have hkept : queryWord (c :: tail) = [] := List.eq_nil_of_length_eq_zero (by omega)
  have hfull : run.length ≤ (letters newline (emit run c (tail ++ rest))).length := by omega
  rw [hkept, List.append_nil, List.append_assoc] at hline
  rw [emit_run hnil (halnum c List.mem_cons_self)] at hline hfull
  by_cases hends : isWordBreakChar c = true ∧ ¬inNumber run c (tail ++ rest) = true
  · rw [if_pos hends] at hline hfull
    have hshort := short_of_letters hrun hnil (Or.inl rfl) hfull
    rw [pieceOf_short hshort, if_neg (by decide), List.append_assoc] at hline
    have hcancel := List.append_cancel_left hline
    obtain ⟨x, more, hcons⟩ := List.exists_cons_of_ne_nil (queryWord_ne_nil hrest hne)
    rw [hcons] at hcancel
    have hx : x = newline := (List.cons.inj hcancel).1.symm
    exact absurd (hcons ▸ hx ▸ List.mem_cons_self) (newline_notMem_queryWord rest)
  · rw [if_neg hends] at hline hfull
    have hshort := short_of_letters hrun hnil (Or.inr rfl) hfull
    rw [pieceOf_short hshort, if_pos rfl, List.append_nil] at hline
    refine ⟨⟨hnil, hrun, hshort⟩, noHyphen_of_queryWord hmarks hkept, ?_,
      List.append_cancel_left hline⟩
    intro hbreak
    by_contra hnumber
    exact hends ⟨hbreak, hnumber⟩

theorem takenAsOne_of_wordStream {word : Bytes} (h : IsWord word) (hnil : word ≠ [])
    (hline : wordStream word = queryWord word ++ [newline]) :
    TakenAsOne word ∧ EndsWithBreak word := by
  obtain ⟨run, marks, rest, hword, hrunNil, hrun, hmarks, hrest, hjoin⟩ := word_cases h hnil
  by_cases hne : rest = []
  · rw [hne, List.append_nil] at hword
    rw [hword] at hline ⊢
    exact last_of_wordStream hrun hrunNil hmarks hline
  · obtain ⟨c, tail, rfl⟩ := List.exists_cons_of_ne_nil (hjoin hne)
    rw [List.cons_append] at hword
    rw [hword] at hline ⊢
    obtain ⟨hisRun, hhyphen, hnumber, hline'⟩ :=
      join_of_wordStream hrun hrunNil hmarks hrest hne hline
    have hshorter : rest.length < word.length := by
      rw [hword, List.length_append, List.length_cons, List.length_append]
      omega
    obtain ⟨htaken, hend⟩ := takenAsOne_of_wordStream hrest hne hline'
    refine ⟨.join hisRun hhyphen hnumber htaken, ?_⟩
    have hsplit : run ++ c :: (tail ++ rest) = (run ++ c :: tail) ++ rest := by simp
    unfold EndsWithBreak
    rw [hsplit, endMarks_append _ htaken.ne_nil]
    exact hend
termination_by word.length

/-! ## Whole texts -/

theorem isTextChar_textOf {words : List Bytes} (h : ∀ word ∈ words, IsWord word) :
    ∀ c ∈ textOf words, IsTextChar c := by
  intro c hc
  obtain ⟨word, hword, hmem⟩ := List.mem_flatMap.mp hc
  rcases List.mem_append.mp hmem with hmem | hspace
  · rcases (h word hword).chars c hmem with halnum | hmark
    · exact Or.inl halnum
    · exact Or.inr (Or.inl hmark)
  · exact Or.inr (Or.inr (List.mem_singleton.mp hspace))

section Whole

variable {isCommonEnglishWord : Bytes → Bool} {after : Bytes} {hops domainHops : Nat} {link : Bytes}
  {words : List Bytes}

theorem parserWords_textOf (h : ∀ word ∈ words, IsWord word)
    (hlive : (parsed isCommonEnglishWord after hops domainHops link (textOf words)).killed = false) :
    parserWords isCommonEnglishWord after hops domainHops link (textOf words) =
      linesOf newline (words.flatMap wordStream) := by
  unfold parserWords
  rw [written_parsed (isTextChar_textOf h) hlive, emitted_textOf]
  simp

theorem wordStream_eq_lineOf_iff {word : Bytes} (h : IsWord word) :
    wordStream word = lineOf newline (queryWord word) ↔
      (word ≠ [] → TakenAsOne word ∧ EndsWithBreak word) := by
  by_cases hnil : word = []
  · rw [hnil]
    exact iff_of_true rfl fun hne => absurd rfl hne
  · rw [lineOf, if_neg (queryWord_ne_nil h hnil)]
    constructor
    · exact fun hline _ => takenAsOne_of_wordStream h hnil hline
    · intro htaken
      obtain ⟨htaken, hend⟩ := htaken hnil
      exact wordStream_takenAsOne htaken hend

/-- The two sides agree on a text exactly if they agree on each of its words. -/
theorem parserWords_eq_iff (h : ∀ word ∈ words, IsWord word)
    (hlive : (parsed isCommonEnglishWord after hops domainHops link (textOf words)).killed = false) :
    parserWords isCommonEnglishWord after hops domainHops link (textOf words) =
        queryWords (textOf words) ↔
      ∀ word ∈ words, word ≠ [] → TakenAsOne word ∧ EndsWithBreak word := by
  rw [parserWords_textOf h hlive, queryWords_textOf h,
    linesOf_blocks_iff (fun word _ => newline_notMem_queryWord word)
      (fun word _ => letters_wordStream_sublist word) (fun word _ => head?_emitted Alnum.nil _)]
  exact forall₂_congr fun word hword => wordStream_eq_lineOf_iff (h word hword)

/-- On a text whose words leave nothing open at their end, the words that the parser writes are
those that the query asks for exactly if both sides take every word as one. -/
theorem same_words_iff (h : ∀ word ∈ words, IsWord word)
    (hends : ∀ word ∈ words, EndsWithBreak word)
    (hlive : (parsed isCommonEnglishWord after hops domainHops link (textOf words)).killed = false) :
    parserWords isCommonEnglishWord after hops domainHops link (textOf words) =
        queryWords (textOf words) ↔
      ∀ word ∈ words, word ≠ [] → TakenAsOne word := by
  rw [parserWords_eq_iff h hlive]
  constructor
  · exact fun hboth word hword hnil => (hboth word hword hnil).1
  · exact fun htaken word hword hnil => ⟨htaken word hword hnil, hends word hword⟩

end Whole

/-- The text `it's 3,14 `. -/
def plainWords : List Bytes := [ascii "it's", ascii "3,14"]

theorem same_words_of_plainWords :
    parserWords (fun _ => false) [] 0 0 [] (textOf plainWords) = queryWords (textOf plainWords) := by
  have hs : TakenAsOne (ascii "s" ++ []) := .last (by decide) (by decide)
  have h14 : TakenAsOne (ascii "14" ++ []) := .last (by decide) (by decide)
  have hits : TakenAsOne (ascii "it's") :=
    @TakenAsOne.join (ascii "it") [] (ascii "s") 39 (by decide) (by decide) (by decide) hs
  have hpi : TakenAsOne (ascii "3,14") :=
    @TakenAsOne.join (ascii "3") [] (ascii "14") 44 (by decide) (by decide) (by decide) h14
  refine (same_words_iff ?_ ?_ (by decide +kernel)).mpr ?_
  · exact List.forall_mem_cons.mpr ⟨by decide, List.forall_mem_singleton.mpr (by decide)⟩
  · exact List.forall_mem_cons.mpr ⟨by decide, List.forall_mem_singleton.mpr (by decide)⟩
  · exact List.forall_mem_cons.mpr ⟨fun _ => hits, List.forall_mem_singleton.mpr fun _ => hpi⟩

/-- A word with a hyphen is two words of the page and one of the query. -/
theorem hyphen_splits_the_word_of_the_page :
    ¬∀ (isCommonEnglishWord : Bytes → Bool) (after : Bytes) (hops domainHops : Nat) (link : Bytes)
      (words : List Bytes), (∀ word ∈ words, IsWord word) →
      (parsed isCommonEnglishWord after hops domainHops link (textOf words)).killed = false →
      parserWords isCommonEnglishWord after hops domainHops link (textOf words) =
        queryWords (textOf words) := by
  intro h
  have hword : ∀ w ∈ [ascii "sci-fi"], IsWord w := List.forall_mem_singleton.mpr (by decide)
  have hsame := h (fun _ => false) [] 0 0 [] [ascii "sci-fi"] hword (by decide +kernel)
  revert hsame
  decide +kernel

end seamus.word_splitting
