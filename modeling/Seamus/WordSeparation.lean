-- The lines of the word buffer for a plain text: which characters of the text stand together
-- in one, and when that joins two words with a space between them.
import Seamus.WordSplitting

open seamus.html_tags seamus.html seamus.word_splitting lines

namespace seamus.word_separation

/-! ## The words of a plain text -/

/-- The bytes that the turn at `p` takes. -/
def width (page : Page) (stop p : Nat) : Nat :=
  if isUtf8Apostrophe page p stop then 3 else if isUtf8Space page p stop then 2 else 1

/-- A character that the parser leaves out and counts. -/
def isSpecial (page : Page) (stop p : Nat) : Bool :=
  !isalnum (page.mem p) && !isWordBreakChar (page.mem p) && page.mem p ≠ 39 &&
    !isUtf8Apostrophe page p stop && !isUtf8Space page p stop

/-- A character that ends a word, also inside a number. -/
def endsWord (page : Page) (stop p : Nat) : Bool :=
  isWordBreakChar (page.mem p) || isUtf8Space page p stop

/-- A character that cuts a word and writes no end of line. -/
def leavesOpen (page : Page) (start stop p : Nat) : Bool :=
  !endsWord page stop p || commaInNumber page p start stop

/-- A run of letters and digits from `start` to before `stop`. -/
structure Word where
  start : Nat
  stop : Nat
  isOpen : Bool
  deriving DecidableEq, Repr

/-- How far a text is read, and what counts against the page. -/
structure Reader where
  nonAlnumRun : Nat
  nonEnglishRun : Nat
  wordStart : Nat
  p : Nat

def Reader.word (page : Page) (r : Reader) : Bytes := page.slice r.wordStart (r.p - r.wordStart)

/-- The word before `p`, unless the word buffer is too small for it. -/
def Reader.found (page : Page) (start stop : Nat) (r : Reader) : List Word :=
  if isalnum (page.mem r.p) ∨ ¬r.wordStart < r.p ∨ MAX_WORD_MEMORY < r.p - r.wordStart then []
  else [⟨r.wordStart, r.p, leavesOpen page start stop r.p⟩]

section English

variable (isCommonEnglishWord : Bytes → Bool)

def isUnknown (word : Bytes) : Bool := 2 < word.length && !isCommonEnglishWord word

/-- The unknown words in a row, after this one. -/
def unknownRun (run : Nat) (word : Bytes) : Nat :=
  if word.length ≤ 2 then run else if isCommonEnglishWord word then 0 else run + 1

variable (page : Page) (start stop : Nat)

/-- The reader after the character at `p`. -/
def Reader.read (r : Reader) : Reader where
  nonAlnumRun :=
    if isalnum (page.mem r.p) then 0
    else if isSpecial page stop r.p then r.nonAlnumRun + 1
    else r.nonAlnumRun
  nonEnglishRun :=
    if endsWord page stop r.p ∧ r.wordStart < r.p then
      unknownRun isCommonEnglishWord r.nonEnglishRun (r.word page)
    else r.nonEnglishRun
  wordStart := if isalnum (page.mem r.p) then r.wordStart else r.p + width page stop r.p
  p := r.p + width page stop r.p

/-- The page is given up at `p`: for special characters, or for unknown words. -/
def Reader.givesUp (r : Reader) : Prop :=
  (isSpecial page stop r.p ∧ MAX_CONSECUTIVE_NON_ALNUM ≤ r.nonAlnumRun + 1) ∨
    (endsWord page stop r.p ∧ r.wordStart < r.p ∧ isUnknown isCommonEnglishWord (r.word page) ∧
      MAX_CONSECUTIVE_NON_ENGLISH ≤ r.nonEnglishRun + 1)

instance (r : Reader) : Decidable (r.givesUp isCommonEnglishWord page stop) :=
  inferInstanceAs (Decidable (_ ∨ _))

/-- The words from here on. -/
def Reader.words : Nat → Reader → List Word
  | 0, _ => []
  | turns + 1, r =>
    if r.p < stop then
      r.found page start stop ++
        if r.givesUp isCommonEnglishWord page stop then []
        else words turns (r.read isCommonEnglishWord page stop)
    else []

/-- The reader where the reading ends. -/
def Reader.last : Nat → Reader → Reader
  | 0, r => r
  | turns + 1, r =>
    if r.p < stop then
      if r.givesUp isCommonEnglishWord page stop then r.read isCommonEnglishWord page stop
      else last turns (r.read isCommonEnglishWord page stop)
    else r

/-! ### Chunks -/

def Reader.atChunk (r : Reader) : Reader := { r with wordStart := start, p := start }

/-- The words of a text in chunks of these lengths from `start` on. -/
def Reader.chunkWords : List Nat → Nat → Reader → List Word
  | [], _, _ => []
  | len :: lens, start, r =>
    (r.atChunk start).words isCommonEnglishWord page start (start + len) (len + 1) ++
      chunkWords lens (start + len)
        ((r.atChunk start).last isCommonEnglishWord page (start + len) (len + 1))

/-- `parse_chunk` on one chunk after the other. -/
def parseChunks : List Nat → Nat → HtmlParser → HtmlParser
  | [], _, h => h
  | len :: lens, start, h =>
    parseChunks lens (start + len) (parseChunk isCommonEnglishWord page start (start + len) h)

end English

/-! ## The characters of the lines -/

/-- Where the bytes come from that a word adds to the word buffer: places in the page, and none
for the end of a line. The buffer takes so much of a word and no more. -/
def Word.sources (w : Word) : List (Option Nat) :=
  (List.range' w.start (min (MAX_WORD_MEMORY - 2) (w.stop - w.start))).map some ++
    if w.isOpen then [] else [none]

/-- The byte that is written for a place. -/
def charAt (page : Page) : Option Nat → UInt8
  | none => newline
  | some i => tolower (page.mem i)

def sources (words : List Word) : List (Option Nat) := words.flatMap Word.sources

/-- Two characters of one run without whitespace. -/
def SameRun (page : Page) : Option Nat → Option Nat → Prop
  | some i, some j => i ≤ j ∧ ∀ k, i ≤ k → k ≤ j → isspace (page.mem k) = false
  | _, _ => False

/-- Every line, also one that is not yet at its end, has characters of one run only. -/
def LinesOfOneRun (page : Page) (str : List (Option Nat)) : Prop :=
  ∀ line ∈ linesOf none str ++ [restFrom none [] str], line.Pairwise (SameRun page)

/-- Two neighbours of which the first is left open, with whitespace between them. -/
def Joined (page : Page) (words : List Word) : Prop :=
  ∃ front w next back, words = front ++ w :: next :: back ∧ w.isOpen = true ∧
    ∃ k, w.stop ≤ k ∧ k < next.start ∧ isspace (page.mem k) = true

/-- A plain text in memory, in chunks of these lengths. -/
structure PlainText where
  page : Page
  start : Nat
  lens : List Nat
  plain : ∀ i, start ≤ i → i < start + lens.sum → page.mem i ≠ 60 ∧ page.mem i ≠ 38

/-- The words of the text that a parser reads. -/
def PlainText.words (isCommonEnglishWord : Bytes → Bool) (text : PlainText) (h : HtmlParser) :
    List Word :=
  Reader.chunkWords isCommonEnglishWord text.page text.lens text.start
    ⟨h.nonAlnumRun, h.nonEnglishRun, 0, 0⟩

/-! ## The parser reads these words -/

section Reading

variable {isCommonEnglishWord : Bytes → Bool} {page : Page} {start stop : Nat}

theorem pieceOf_slice (page : Page) (w : Word) (h : ¬MAX_WORD_MEMORY < w.stop - w.start) :
    pieceOf (page.slice w.start (w.stop - w.start)) (if w.isOpen then NULL_DELIM else newline) =
      w.sources.map (charAt page) := by
  unfold pieceOf Word.sources Page.slice
  rw [List.length_map, List.length_range, if_neg h, ← List.map_take, List.take_range,
    List.map_append, List.map_map, List.range'_eq_map_range, List.map_map, lowercase, List.map_map]
  congr 1
  cases w.isOpen <;> rfl

/-- The reader at the place of the parser. -/
def readerOf (c : Cursor) : Reader :=
  ⟨c.parser.nonAlnumRun, c.parser.nonEnglishRun, c.wordStart, c.p⟩

/-- The turn writes this, and gives the page up or goes on as the reader does. -/
def Follows (c : Cursor) (out : Bytes) (r : Reader) (gives : Prop) : Flow → Prop
  | .done h => gives ∧ h.nonAlnumRun = r.nonAlnumRun ∧ h.nonEnglishRun = r.nonEnglishRun ∧
      written h.words = written c.parser.words ++ out
  | .goOn next => ¬gives ∧ readerOf next = r ∧
      written next.parser.words = written c.parser.words ++ out

theorem words_pushAnchorWord (h : HtmlParser) (str : Bytes) (delim : UInt8) :
    (h.pushAnchorWord str delim).words = h.words ∧
      (h.pushAnchorWord str delim).nonAlnumRun = h.nonAlnumRun ∧
      (h.pushAnchorWord str delim).nonEnglishRun = h.nonEnglishRun := by
  unfold HtmlParser.pushAnchorWord
  split <;> exact ⟨rfl, rfl, rfl⟩

theorem words_addToTitle (h : HtmlParser) (str : Bytes) :
    (h.addToTitle str).words = h.words ∧ (h.addToTitle str).nonAlnumRun = h.nonAlnumRun ∧
      (h.addToTitle str).nonEnglishRun = h.nonEnglishRun := by
  unfold HtmlParser.addToTitle
  split <;> exact ⟨rfl, rfl, rfl⟩

theorem checkEnglish_counts (isCommonEnglishWord : Bytes → Bool) (h : HtmlParser) (word : Bytes) :
    (checkEnglish isCommonEnglishWord h word).1.words = h.words ∧
      (checkEnglish isCommonEnglishWord h word).1.nonAlnumRun = h.nonAlnumRun ∧
      (checkEnglish isCommonEnglishWord h word).1.nonEnglishRun =
        unknownRun isCommonEnglishWord h.nonEnglishRun word ∧
      ((checkEnglish isCommonEnglishWord h word).2 = true ↔
        ¬(isUnknown isCommonEnglishWord word ∧
          MAX_CONSECUTIVE_NON_ENGLISH ≤ h.nonEnglishRun + 1)) := by
  unfold checkEnglish isUnknown unknownRun
  split
  · simp; omega
  · rename_i hlen
    split
    · rename_i hcommon
      simp [hcommon]
    · rename_i hcommon
      dsimp only
      split
      · rename_i hrun
        simp [hcommon, hrun]
        omega
      · rename_i hrun
        simp [hrun]

theorem writeWord_follows (word : Bytes) (linkDelim wordDelim : UInt8) (next : Cursor) :
    Follows next (pieceOf word wordDelim)
      { readerOf next with
        nonEnglishRun := unknownRun isCommonEnglishWord next.parser.nonEnglishRun word }
      (isUnknown isCommonEnglishWord word ∧
        MAX_CONSECUTIVE_NON_ENGLISH ≤ next.parser.nonEnglishRun + 1)
      (writeWord isCommonEnglishWord word linkDelim wordDelim next) := by
  have hanchor := words_pushAnchorWord next.parser word linkDelim
  have htitle := words_addToTitle ((next.parser.pushAnchorWord word linkDelim).pushWord word
    wordDelim) word
  unfold writeWord
  dsimp only
  generalize hp : ((next.parser.pushAnchorWord word linkDelim).pushWord word wordDelim).addToTitle
    word = h at htitle ⊢
  have hwords : written h.words = written next.parser.words ++ pieceOf word wordDelim := by
    rw [htitle.1]
    unfold HtmlParser.pushWord
    rw [written_pushWord, hanchor.1]
  have halnum : h.nonAlnumRun = next.parser.nonAlnumRun := htitle.2.1.trans hanchor.2.1
  have henglish : h.nonEnglishRun = next.parser.nonEnglishRun := htitle.2.2.trans hanchor.2.2
  obtain ⟨hsame, halnum', hrun, hgo⟩ := checkEnglish_counts isCommonEnglishWord h word
  rw [henglish] at hrun hgo
  split
  · rename_i hgoes
    refine ⟨hgo.mp hgoes, ?_, ?_⟩
    · unfold readerOf
      dsimp only
      rw [halnum', hrun, halnum]
    · rw [← hwords, ← hsame]
  · rename_i hstops
    exact ⟨not_not.mp (mt hgo.mpr hstops), halnum'.trans halnum, hrun, by rw [← hwords, ← hsame]⟩

theorem endWord_follows (linkDelim wordDelim : UInt8) (next : Nat) (c : Cursor) :
    Follows c
      (if c.wordStart < c.p then pieceOf ((readerOf c).word page) wordDelim else [])
      ⟨c.parser.nonAlnumRun,
        if c.wordStart < c.p then
          unknownRun isCommonEnglishWord c.parser.nonEnglishRun ((readerOf c).word page)
        else c.parser.nonEnglishRun, next, next⟩
      (c.wordStart < c.p ∧ isUnknown isCommonEnglishWord ((readerOf c).word page) ∧
        MAX_CONSECUTIVE_NON_ENGLISH ≤ c.parser.nonEnglishRun + 1)
      (endWord isCommonEnglishWord page linkDelim wordDelim next c) := by
  unfold endWord
  dsimp only
  by_cases hword : c.wordStart < c.p
  · simp only [hword, true_and]
    exact writeWord_follows _ linkDelim wordDelim { c with p := next, wordStart := next }
  · simp only [hword, false_and]
    exact ⟨not_false, rfl, (List.append_nil _).symm⟩

theorem endPart_follows (next : Nat) (c : Cursor) :
    Follows c
      (if c.wordStart < c.p then pieceOf ((readerOf c).word page) NULL_DELIM else [])
      ⟨c.parser.nonAlnumRun, c.parser.nonEnglishRun, next, next⟩ False (endPart page next c) := by
  unfold endPart
  dsimp only
  by_cases hword : c.wordStart < c.p
  · rw [if_pos hword, if_pos hword]
    have hanchor := words_pushAnchorWord
      (c.parser.pushWord (page.slice c.wordStart (c.p - c.wordStart)) NULL_DELIM)
      (page.slice c.wordStart (c.p - c.wordStart)) NULL_DELIM
    refine ⟨not_false, ?_, ?_⟩
    · unfold readerOf writePart
      dsimp only
      rw [hanchor.2.1, hanchor.2.2]
      rfl
    · unfold writePart
      dsimp only
      rw [hanchor.1]
      exact written_pushWord _ NULL_DELIM c.parser.words
  · rw [if_neg hword, if_neg hword]
    exact ⟨not_false, rfl, (List.append_nil _).symm⟩

/-- There is no word before a special character that the page is given up at. -/
theorem otherTurn_follows (c : Cursor) (hfresh : c.wordStart < c.p → c.parser.nonAlnumRun = 0) :
    Follows c
      (if c.wordStart < c.p then pieceOf ((readerOf c).word page) NULL_DELIM else [])
      ⟨c.parser.nonAlnumRun + 1, c.parser.nonEnglishRun, c.p + 1, c.p + 1⟩
      (MAX_CONSECUTIVE_NON_ALNUM ≤ c.parser.nonAlnumRun + 1) (otherTurn page c) := by
  unfold otherTurn
  dsimp only
  by_cases hrun : MAX_CONSECUTIVE_NON_ALNUM ≤ c.parser.nonAlnumRun + 1
  · have hword : ¬c.wordStart < c.p := by
      intro hword
      rw [hfresh hword] at hrun
      exact absurd hrun (by decide)
    rw [if_pos hrun, if_neg hword]
    exact ⟨hrun, rfl, rfl, (List.append_nil _).symm⟩
  · rw [if_neg hrun]
    by_cases hword : c.wordStart < c.p
    · rw [if_pos hword, if_pos hword]
      exact ⟨hrun, rfl, written_pushWord _ NULL_DELIM c.parser.words⟩
    · rw [if_neg hword, if_neg hword]
      exact ⟨hrun, rfl, (List.append_nil _).symm⟩

/-- What is found at a character that ends or cuts a word is what the parser writes there. -/
theorem sources_found {r : Reader} (halnum : isalnum (page.mem r.p) = false) :
    (sources (r.found page start stop)).map (charAt page) =
      if r.wordStart < r.p then
        pieceOf (r.word page) (if leavesOpen page start stop r.p then NULL_DELIM else newline)
      else [] := by
  unfold Reader.found Reader.word
  by_cases hword : r.wordStart < r.p
  · rw [if_pos hword]
    by_cases hlong : MAX_WORD_MEMORY < r.p - r.wordStart
    · rw [if_pos (Or.inr (Or.inr hlong)), pieceOf, if_pos (by simpa [Page.slice] using hlong)]
      rfl
    · rw [if_neg (by simp [halnum, hword, hlong])]
      have hpiece := pieceOf_slice page
        ⟨r.wordStart, r.p, leavesOpen page start stop r.p⟩ hlong
      simpa [sources] using hpiece.symm
  · rw [if_neg hword, if_pos (Or.inr (Or.inl hword))]
    rfl

theorem Follows.congr {c : Cursor} {out out' : Bytes} {r r' : Reader} {gives gives' : Prop}
    {flow : Flow} (h : Follows c out r gives flow) (hout : out' = out) (hr : r' = r)
    (hgives : gives' ↔ gives) : Follows c out' r' gives' flow := by
  rw [hout, hr, propext hgives]
  exact h

theorem lt_of_isalnum {c : UInt8} (h : isalnum c = true) : c < 128 := by
  unfold isalnum isDigit at h
  simp only [Bool.or_eq_true, Bool.and_eq_true, decide_eq_true_eq, UInt8.le_iff_toNat_le,
    UInt8.reduceToNat] at h
  rw [UInt8.lt_iff_toNat_lt]
  simp only [UInt8.reduceToNat]
  omega

theorem lt_of_break {c : UInt8} (h : isWordBreakChar c = true) : c < 128 := by
  unfold isWordBreakChar isspace breakMarks at h
  simp only [Bool.or_eq_true, Bool.and_eq_true, decide_eq_true_eq, List.mem_cons,
    List.not_mem_nil, or_false, UInt8.le_iff_toNat_le, UInt8.reduceToNat] at h
  rw [UInt8.lt_iff_toNat_lt]
  simp only [UInt8.reduceToNat]
  rcases h with (rfl | ⟨_, hhigh⟩) | h
  · decide
  · omega
  · rcases h with rfl | rfl | rfl | rfl | rfl | rfl | rfl | rfl | rfl | rfl | rfl | rfl | rfl |
      rfl | rfl <;> decide

theorem not_utf8 (stop : Nat) {p : Nat} (h : page.mem p < 128) :
    isUtf8Apostrophe page p stop = false ∧ isUtf8Space page p stop = false := by
  have hE2 : page.mem p ≠ 0xE2 := fun heq => absurd (heq ▸ h) (by decide)
  have hC2 : page.mem p ≠ 0xC2 := fun heq => absurd (heq ▸ h) (by decide)
  simp [isUtf8Apostrophe, isUtf8Space, hE2, hC2]

theorem width_of_lt (stop : Nat) {p : Nat} (h : page.mem p < 128) : width page stop p = 1 := by
  obtain ⟨hapostrophe, hspace⟩ := not_utf8 stop h
  simp [width, hapostrophe, hspace]

/-- A comma in a number is one of the marks that break words. -/
theorem not_comma {p : Nat} (h : isWordBreakChar (page.mem p) = false) :
    commaInNumber page p start stop = false := by
  have hcomma : page.mem p ≠ 44 := fun heq => by rw [heq] at h; exact absurd h (by decide)
  have hdot : page.mem p ≠ 46 := fun heq => by rw [heq] at h; exact absurd h (by decide)
  simp [commaInNumber, hcomma, hdot]

section Turn

variable {c : Cursor}

theorem breakTurn_follows (hbreak : isWordBreakChar (page.mem c.p) = true) :
    Follows c ((sources ((readerOf c).found page start stop)).map (charAt page))
      ((readerOf c).read isCommonEnglishWord page stop)
      ((readerOf c).givesUp isCommonEnglishWord page stop)
      (turn isCommonEnglishWord page start stop c) := by
  have halnum := isalnum_of_break hbreak
  have hwidth := width_of_lt stop (lt_of_break hbreak)
  have hends : endsWord page stop c.p = true := by simp [endsWord, hbreak]
  have hspecial : isSpecial page stop c.p = false := by simp [isSpecial, hbreak]
  have hopen : leavesOpen page start stop c.p = commaInNumber page c.p start stop := by
    simp [leavesOpen, hends]
  have hturn : turn isCommonEnglishWord page start stop c =
      endWord isCommonEnglishWord page
        (if commaInNumber page c.p start stop then NULL_DELIM else space)
        (if commaInNumber page c.p start stop then NULL_DELIM else newline) (c.p + 1) c := by
    unfold turn
    simp only [hbreak, if_true]
    split <;> rfl
  rw [hturn]
  refine (endWord_follows _ _ (c.p + 1) c).congr ?_ ?_ ?_
  · rw [sources_found halnum]
    simp only [readerOf, hopen]
  · simp [Reader.read, readerOf, halnum, hspecial, hends, hwidth]
  · simp [Reader.givesUp, readerOf, hspecial, hends]

/-- An apostrophe cuts the word before it. -/
theorem apostropheTurn_follows {next : Nat} (hbreak : isWordBreakChar (page.mem c.p) = false)
    (hmark : page.mem c.p = 39 ∨ isUtf8Apostrophe page c.p stop = true)
    (hnext : c.p + width page stop c.p = next) :
    Follows c ((sources ((readerOf c).found page start stop)).map (charAt page))
      ((readerOf c).read isCommonEnglishWord page stop)
      ((readerOf c).givesUp isCommonEnglishWord page stop)
      (endPart page next c) := by
  have hchar : page.mem c.p = 39 ∨ page.mem c.p = 0xE2 := by
    refine hmark.imp_right fun hutf8 => ?_
    simp only [isUtf8Apostrophe, Bool.and_eq_true, decide_eq_true_eq] at hutf8
    exact hutf8.1.1.1
  have halnum : isalnum (page.mem c.p) = false := by
    rcases hchar with h | h <;> rw [h] <;> rfl
  have hspace : isUtf8Space page c.p stop = false := by
    rcases hchar with h | h <;> simp [isUtf8Space, h]
  have hends : endsWord page stop c.p = false := by simp [endsWord, hbreak, hspace]
  have hspecial : isSpecial page stop c.p = false := by
    rcases hmark with h | h <;> simp [isSpecial, h]
  have hopen : leavesOpen page start stop c.p = true := by simp [leavesOpen, hends]
  refine (endPart_follows next c).congr ?_ ?_ ?_
  · rw [sources_found halnum]
    simp only [readerOf, hopen, if_true]
  · simp [Reader.read, readerOf, halnum, hspecial, hends, hnext]
  · simp [Reader.givesUp, readerOf, hspecial, hends]

theorem spaceTurn_follows (hbreak : isWordBreakChar (page.mem c.p) = false)
    (hspace : isUtf8Space page c.p stop = true) :
    Follows c ((sources ((readerOf c).found page start stop)).map (charAt page))
      ((readerOf c).read isCommonEnglishWord page stop)
      ((readerOf c).givesUp isCommonEnglishWord page stop)
      (endWord isCommonEnglishWord page space newline (c.p + 2) c) := by
  have hchar : page.mem c.p = 0xC2 := by
    simp only [isUtf8Space, Bool.and_eq_true, decide_eq_true_eq] at hspace
    exact hspace.1.1
  have halnum : isalnum (page.mem c.p) = false := by rw [hchar]; rfl
  have hwidth : width page stop c.p = 2 := by simp [width, isUtf8Apostrophe, hchar, hspace]
  have hends : endsWord page stop c.p = true := by simp [endsWord, hspace]
  have hspecial : isSpecial page stop c.p = false := by simp [isSpecial, hspace]
  have hopen : leavesOpen page start stop c.p = false := by
    simp [leavesOpen, hends, not_comma hbreak]
  refine (endWord_follows space newline (c.p + 2) c).congr ?_ ?_ ?_
  · rw [sources_found halnum]
    simp [readerOf, hopen]
  · simp [Reader.read, readerOf, halnum, hspecial, hends, hwidth]
  · simp [Reader.givesUp, readerOf, hspecial, hends]

theorem specialTurn_follows (hfresh : c.wordStart < c.p → c.parser.nonAlnumRun = 0)
    (hspecial : isSpecial page stop c.p = true) :
    Follows c ((sources ((readerOf c).found page start stop)).map (charAt page))
      ((readerOf c).read isCommonEnglishWord page stop)
      ((readerOf c).givesUp isCommonEnglishWord page stop) (otherTurn page c) := by
  obtain ⟨⟨⟨⟨halnum, hbreak⟩, _⟩, hapostrophe⟩, hspace⟩ := by
    simpa only [isSpecial, Bool.and_eq_true, Bool.not_eq_true', decide_eq_true_eq] using hspecial
  have hwidth : width page stop c.p = 1 := by simp [width, hapostrophe, hspace]
  have hends : endsWord page stop c.p = false := by simp [endsWord, hbreak, hspace]
  have hopen : leavesOpen page start stop c.p = true := by simp [leavesOpen, hends]
  refine (otherTurn_follows c hfresh).congr ?_ ?_ ?_
  · rw [sources_found halnum]
    simp only [readerOf, hopen, if_true]
  · simp [Reader.read, readerOf, halnum, hspecial, hends, hwidth]
  · simp [Reader.givesUp, readerOf, hspecial, hends]

/-- A letter or a digit is taken, and nothing is written. -/
theorem alnumTurn_follows (halnum : isalnum (page.mem c.p) = true) :
    Follows c ((sources ((readerOf c).found page start stop)).map (charAt page))
      ((readerOf c).read isCommonEnglishWord page stop)
      ((readerOf c).givesUp isCommonEnglishWord page stop)
      (.goOn { c with parser := { c.parser with nonAlnumRun := 0 }, p := c.p + 1 }) := by
  have hbreak : isWordBreakChar (page.mem c.p) = false :=
    Bool.eq_false_iff.mpr fun h => absurd (isalnum_of_break h) (by simp [halnum])
  have hlt := lt_of_isalnum halnum
  have hwidth := width_of_lt stop hlt
  have hends : endsWord page stop c.p = false := by
    simp [endsWord, hbreak, (not_utf8 stop hlt).2]
  have hspecial : isSpecial page stop c.p = false := by simp [isSpecial, halnum]
  refine ⟨?_, ?_, ?_⟩
  · simp [Reader.givesUp, readerOf, hspecial, hends]
  · simp [Reader.read, readerOf, halnum, hends, hwidth]
  · simp [Reader.found, readerOf, halnum, sources]

theorem turn_follows (isCommonEnglishWord : Bytes → Bool) (start stop : Nat)
    (hplain : page.mem c.p ≠ 60 ∧ page.mem c.p ≠ 38)
    (hfresh : c.wordStart < c.p → c.parser.nonAlnumRun = 0) :
    Follows c ((sources ((readerOf c).found page start stop)).map (charAt page))
      ((readerOf c).read isCommonEnglishWord page stop)
      ((readerOf c).givesUp isCommonEnglishWord page stop)
      (turn isCommonEnglishWord page start stop c) := by
  by_cases hbreak : isWordBreakChar (page.mem c.p) = true
  · exact breakTurn_follows hbreak
  · rw [Bool.not_eq_true] at hbreak
    unfold turn
    simp only [hbreak, Bool.false_eq_true, if_false, if_neg hplain.1, if_neg hplain.2]
    split
    · rename_i hquote
      have hlt : page.mem c.p < 128 := by rw [hquote]; decide
      exact apostropheTurn_follows hbreak (Or.inl hquote) (by rw [width_of_lt stop hlt])
    · rename_i hquote
      split
      · rename_i hapostrophe
        exact apostropheTurn_follows hbreak (Or.inr hapostrophe) (by rw [width, if_pos hapostrophe])
      · rename_i hapostrophe
        split
        · rename_i hspace
          exact spaceTurn_follows hbreak hspace
        · rename_i hspace
          split
          · rename_i halnum
            exact specialTurn_follows hfresh
              (by simpa [isSpecial, hbreak, hquote, hapostrophe, hspace] using halnum)
          · rename_i halnum
            exact alnumTurn_follows (by simpa using halnum)

end Turn

/-! ### Runs -/

/-- The word before `p` is the start of a run of letters and digits. -/
structure Reader.Tracks (page : Page) (start : Nat) (r : Reader) : Prop where
  ge : start ≤ r.wordStart
  le : r.wordStart ≤ r.p
  alnum : ∀ k, r.wordStart ≤ k → k < r.p → isalnum (page.mem k) = true
  begins : r.wordStart = start ∨ isalnum (page.mem (r.wordStart - 1)) = false
  fresh : r.wordStart < r.p → r.nonAlnumRun = 0

theorem width_pos (page : Page) (stop p : Nat) : 0 < width page stop p := by
  unfold width
  split
  · decide
  · split <;> decide

/-- A turn at a character that is no letter and no digit takes no letter and no digit. -/
theorem not_alnum_of_width (stop : Nat) {p k : Nat} (halnum : isalnum (page.mem p) = false) (hp : p ≤ k)
    (hk : k < p + width page stop p) : isalnum (page.mem k) = false := by
  unfold width at hk
  split at hk
  · rename_i h
    simp only [isUtf8Apostrophe, Bool.and_eq_true, decide_eq_true_eq] at h
    obtain rfl | rfl | rfl : k = p ∨ k = p + 1 ∨ k = p + 2 := by omega
    · exact halnum
    · rw [h.1.2]
      rfl
    · rw [h.2]
      rfl
  · split at hk
    · rename_i h
      simp only [isUtf8Space, Bool.and_eq_true, decide_eq_true_eq] at h
      obtain rfl | rfl : k = p ∨ k = p + 1 := by omega
      · exact halnum
      · rw [h.2]
        rfl
    · obtain rfl : k = p := by omega
      exact halnum

theorem Reader.Tracks.atChunk (page : Page) (start : Nat) (r : Reader) :
    (r.atChunk start).Tracks page start where
  ge := Nat.le_refl start
  le := Nat.le_refl start
  alnum _ hk hlt := absurd hk (Nat.not_le.mpr hlt)
  begins := Or.inl rfl
  fresh h := absurd h (Nat.lt_irrefl start)

theorem Reader.read_of_alnum (isCommonEnglishWord : Bytes → Bool) (stop : Nat) {r : Reader}
    (halnum : isalnum (page.mem r.p) = true) :
    (r.read isCommonEnglishWord page stop).wordStart = r.wordStart ∧
      (r.read isCommonEnglishWord page stop).p = r.p + 1 ∧
      (r.read isCommonEnglishWord page stop).nonAlnumRun = 0 := by
  simp [Reader.read, halnum, width_of_lt stop (lt_of_isalnum halnum)]

theorem Reader.read_of_not_alnum (isCommonEnglishWord : Bytes → Bool) (stop : Nat) {r : Reader}
    (halnum : isalnum (page.mem r.p) = false) :
    (r.read isCommonEnglishWord page stop).wordStart = r.p + width page stop r.p ∧
      (r.read isCommonEnglishWord page stop).p = r.p + width page stop r.p := by
  simp [Reader.read, halnum]

theorem Reader.Tracks.read {r : Reader} (h : r.Tracks page start) :
    (r.read isCommonEnglishWord page stop).Tracks page start := by
  have hge := h.ge
  have hle := h.le
  cases halnum : isalnum (page.mem r.p) with
  | true =>
    obtain ⟨hstart, hp, hrun⟩ := Reader.read_of_alnum isCommonEnglishWord stop halnum
    refine ⟨by omega, by omega, ?_, ?_, fun _ => hrun⟩
    · intro k hk hlt
      rw [hstart] at hk
      rw [hp] at hlt
      by_cases hlast : k = r.p
      · rw [hlast]
        exact halnum
      · exact h.alnum k hk (by omega)
    · rw [hstart]
      exact h.begins
  | false =>
    obtain ⟨hstart, hp⟩ := Reader.read_of_not_alnum isCommonEnglishWord stop halnum
    have hpos := width_pos page stop r.p
    refine ⟨by omega, by omega, ?_, Or.inr ?_, ?_⟩
    · intro k hk hlt
      omega
    · rw [hstart]
      exact not_alnum_of_width stop halnum (by omega) (by omega)
    · intro hlt
      omega

theorem parseLoop_follows
    (hplain : ∀ i, start ≤ i → i < stop → page.mem i ≠ 60 ∧ page.mem i ≠ 38) (turns : Nat)
    {c : Cursor} (h : (readerOf c).Tracks page start) :
    written (parseLoop isCommonEnglishWord page start stop turns c).words =
        written c.parser.words ++
          (sources ((readerOf c).words isCommonEnglishWord page start stop turns)).map
            (charAt page) ∧
      (parseLoop isCommonEnglishWord page start stop turns c).nonAlnumRun =
        ((readerOf c).last isCommonEnglishWord page stop turns).nonAlnumRun ∧
      (parseLoop isCommonEnglishWord page start stop turns c).nonEnglishRun =
        ((readerOf c).last isCommonEnglishWord page stop turns).nonEnglishRun := by
  induction turns generalizing c with
  | zero => exact ⟨(List.append_nil _).symm, rfl, rfl⟩
  | succ turns ih =>
    unfold parseLoop Reader.words Reader.last
    by_cases hp : c.p < stop
    · have hp' : (readerOf c).p < stop := hp
      have hturn := turn_follows isCommonEnglishWord start stop
        (hplain c.p (Nat.le_trans h.ge h.le) hp) h.fresh
      rw [if_pos hp, if_pos hp', if_pos hp']
      cases hflow : turn isCommonEnglishWord page start stop c with
      | done h' =>
        rw [hflow] at hturn
        obtain ⟨hgives, halnum, henglish, hwords⟩ := hturn
        rw [if_pos hgives, if_pos hgives, List.append_nil]
        exact ⟨hwords, halnum, henglish⟩
      | goOn next =>
        rw [hflow] at hturn
        obtain ⟨hgives, hreader, hwords⟩ := hturn
        obtain ⟨hrest, halnum, henglish⟩ := ih (c := next) (hreader ▸ h.read)
        rw [hreader] at hrest halnum henglish
        rw [if_neg hgives, if_neg hgives]
        refine ⟨?_, halnum, henglish⟩
        rw [hrest, hwords, List.append_assoc, sources, sources, sources, List.flatMap_append,
          List.map_append]
    · have hp' : ¬(readerOf c).p < stop := hp
      rw [if_neg hp, if_neg hp', if_neg hp']
      exact ⟨(List.append_nil _).symm, rfl, rfl⟩

theorem parseChunk_follows (isCommonEnglishWord : Bytes → Bool)
    (hplain : ∀ i, start ≤ i → i < stop → page.mem i ≠ 60 ∧ page.mem i ≠ 38) (h : HtmlParser)
    {r : Reader} (hr : r = ⟨h.nonAlnumRun, h.nonEnglishRun, start, start⟩) :
    written (parseChunk isCommonEnglishWord page start stop h).words =
        written h.words ++
          (sources (r.words isCommonEnglishWord page start stop (stop - start + 1))).map
            (charAt page) ∧
      (parseChunk isCommonEnglishWord page start stop h).nonAlnumRun =
        (r.last isCommonEnglishWord page stop (stop - start + 1)).nonAlnumRun ∧
      (parseChunk isCommonEnglishWord page start stop h).nonEnglishRun =
        (r.last isCommonEnglishWord page stop (stop - start + 1)).nonEnglishRun := by
  unfold parseChunk
  by_cases hempty : stop ≤ start
  · have hp : ¬r.p < stop := by rw [hr]; exact Nat.not_lt.mpr hempty
    rw [if_pos hempty, Reader.words, Reader.last, if_neg hp, if_neg hp, hr]
    exact ⟨(List.append_nil _).symm, rfl, rfl⟩
  · rw [if_neg hempty, hr]
    exact parseLoop_follows hplain (stop - start + 1) (c := ⟨h, start, start, 0⟩)
      (Reader.Tracks.atChunk page start ⟨h.nonAlnumRun, h.nonEnglishRun, start, start⟩)

theorem written_parseChunks {lens : List Nat}
    (hplain : ∀ i, start ≤ i → i < start + lens.sum → page.mem i ≠ 60 ∧ page.mem i ≠ 38)
    {h : HtmlParser} {r : Reader}
    (hr : r.nonAlnumRun = h.nonAlnumRun ∧ r.nonEnglishRun = h.nonEnglishRun) :
    written (parseChunks isCommonEnglishWord page lens start h).words =
      written h.words ++
        (sources (r.chunkWords isCommonEnglishWord page lens start)).map (charAt page) := by
  induction lens generalizing start h r with
  | nil => exact (List.append_nil _).symm
  | cons len lens ih =>
    have hsum : start + (len :: lens).sum = start + len + lens.sum := by
      rw [List.sum_cons, Nat.add_assoc]
    have hfirst : ∀ i, start ≤ i → i < start + len → page.mem i ≠ 60 ∧ page.mem i ≠ 38 :=
      fun i hi hlt => hplain i hi (by omega)
    have hothers : ∀ i, start + len ≤ i → i < start + len + lens.sum →
        page.mem i ≠ 60 ∧ page.mem i ≠ 38 := fun i hi hlt => hplain i (by omega) (by omega)
    have hchunk := parseChunk_follows isCommonEnglishWord hfirst h (r := r.atChunk start)
      (by rw [← hr.1, ← hr.2]; rfl)
    rw [Nat.add_sub_cancel_left] at hchunk
    obtain ⟨hwords, hcounts⟩ := hchunk
    have hrest := ih hothers ⟨hcounts.1.symm, hcounts.2.symm⟩
    rw [parseChunks, hrest, hwords, Reader.chunkWords, List.append_assoc, sources, sources, sources,
      List.flatMap_append, List.map_append]

/-! ## Where the words stand -/

/-- Letters and digits, from `low` on and before `high`. -/
structure Word.Within (page : Page) (low high : Nat) (w : Word) : Prop where
  ge : low ≤ w.start
  lt : w.start < w.stop
  le : w.stop ≤ high
  alnum : ∀ k, w.start ≤ k → k < w.stop → isalnum (page.mem k) = true

theorem Word.Within.mono {low low' high high' : Nat} {w : Word} (h : w.Within page low high)
    (hlow : low' ≤ low) (hhigh : high ≤ high') : w.Within page low' high' :=
  ⟨Nat.le_trans hlow h.ge, h.lt, Nat.le_trans h.le hhigh, h.alnum⟩

/-- The words stand one after the other. -/
def Placed (page : Page) (low high : Nat) (words : List Word) : Prop :=
  (∀ w ∈ words, w.Within page low high) ∧ words.Pairwise fun w next => w.stop ≤ next.start

theorem Placed.append {low middle high : Nat} {front back : List Word}
    (hfront : Placed page low middle front) (hback : Placed page middle high back)
    (hlow : low ≤ middle) (hhigh : middle ≤ high) : Placed page low high (front ++ back) := by
  refine ⟨List.forall_mem_append.mpr ⟨?_, ?_⟩, List.pairwise_append.mpr ⟨hfront.2, hback.2, ?_⟩⟩
  · exact fun w hw => (hfront.1 w hw).mono (Nat.le_refl low) hhigh
  · exact fun w hw => (hback.1 w hw).mono hlow (Nat.le_refl high)
  · exact fun w hw next hnext => Nat.le_trans (hfront.1 w hw).le (hback.1 next hnext).ge

theorem width_le (page : Page) {p : Nat} (hp : p < stop) : p + width page stop p ≤ stop := by
  unfold width
  split
  · rename_i h
    simp only [isUtf8Apostrophe, Bool.and_eq_true, decide_eq_true_eq] at h
    omega
  · split
    · rename_i h
      simp only [isUtf8Space, Bool.and_eq_true, decide_eq_true_eq] at h
      omega
    · omega

theorem Reader.Tracks.wordStart_le (isCommonEnglishWord : Bytes → Bool) {r : Reader}
    (h : r.Tracks page start) (hp : r.p < stop) :
    r.wordStart ≤ (r.read isCommonEnglishWord page stop).wordStart ∧
      (r.read isCommonEnglishWord page stop).wordStart ≤ stop := by
  have hle := h.le
  cases halnum : isalnum (page.mem r.p) with
  | true =>
    have hstart := (Reader.read_of_alnum isCommonEnglishWord stop halnum).1
    omega
  | false =>
    have hstart := (Reader.read_of_not_alnum isCommonEnglishWord stop halnum).1
    have hwidth := width_le page hp
    omega

theorem Placed.nil (low high : Nat) : Placed page low high [] :=
  ⟨fun _ hw => absurd hw List.not_mem_nil, List.Pairwise.nil⟩

theorem placed_found (isCommonEnglishWord : Bytes → Bool) {r : Reader} (h : r.Tracks page start) :
    Placed page r.wordStart (r.read isCommonEnglishWord page stop).wordStart
      (r.found page start stop) := by
  unfold Reader.found
  split
  · exact Placed.nil ..
  · rename_i hfound
    obtain ⟨halnum, hword, _⟩ := by
      simpa only [not_or, Bool.not_eq_true, not_not] using hfound
    have hstart := (Reader.read_of_not_alnum isCommonEnglishWord stop halnum).1
    have hw : Word.Within page r.wordStart (r.read isCommonEnglishWord page stop).wordStart
        ⟨r.wordStart, r.p, leavesOpen page start stop r.p⟩ :=
      ⟨Nat.le_refl _, hword, by dsimp only; omega, h.alnum⟩
    exact ⟨List.forall_mem_singleton.mpr hw, List.pairwise_singleton ..⟩

theorem placed_words {r : Reader} (h : r.Tracks page start) (turns : Nat) :
    Placed page r.wordStart stop (r.words isCommonEnglishWord page start stop turns) := by
  induction turns generalizing r with
  | zero => exact Placed.nil ..
  | succ turns ih =>
    unfold Reader.words
    split
    · rename_i hp
      obtain ⟨hlow, hhigh⟩ := h.wordStart_le isCommonEnglishWord hp
      apply (placed_found isCommonEnglishWord h).append _ hlow hhigh
      split
      · exact Placed.nil ..
      · exact ih h.read
    · exact Placed.nil ..

theorem placed_chunkWords (lens : List Nat) (start : Nat) (r : Reader) :
    Placed page start (start + lens.sum) (r.chunkWords isCommonEnglishWord page lens start) := by
  induction lens generalizing start r with
  | nil => exact Placed.nil ..
  | cons len lens ih =>
    rw [Reader.chunkWords, List.sum_cons, ← Nat.add_assoc]
    exact (placed_words (Reader.Tracks.atChunk page start r) (len + 1)).append
      (ih (start + len) _) (Nat.le_add_right start len) (Nat.le_add_right _ lens.sum)

/-! ## Lines -/

theorem isspace_of_alnum {c : UInt8} (h : isalnum c = true) : isspace c = false := by
  by_contra hspace
  rw [Bool.not_eq_false] at hspace
  have hbreak : isWordBreakChar c = true := by rw [isWordBreakChar, hspace, Bool.true_or]
  rw [isalnum_of_break hbreak] at h
  cases h

theorem SameRun.trans {x y z : Option Nat} (hxy : SameRun page x y) (hyz : SameRun page y z) :
    SameRun page x z := by
  cases x with
  | none => exact hxy.elim
  | some i =>
    cases y with
    | none => exact hxy.elim
    | some j =>
      cases z with
      | none => exact hyz.elim
      | some l =>
        refine ⟨Nat.le_trans hxy.1 hyz.1, fun k hi hl => ?_⟩
        rcases Nat.le_total k j with hk | hk
        · exact hxy.2 k hi hk
        · exact hyz.2 k hk hl

instance : Trans (SameRun page) (SameRun page) (SameRun page) := ⟨SameRun.trans⟩

/-- The relation of neighbours in a stream that keeps its lines in one run. -/
def Linked (page : Page) (x y : Option Nat) : Prop := x ≠ none → y ≠ none → SameRun page x y

/-- How much of a word the word buffer takes. -/
def Word.taken (w : Word) : Nat := min (MAX_WORD_MEMORY - 2) (w.stop - w.start)

theorem Word.Within.taken {low high : Nat} {w : Word} (h : w.Within page low high) :
    0 < w.taken ∧ w.start + w.taken ≤ w.stop := by
  have hlt := h.lt
  unfold Word.taken MAX_WORD_MEMORY
  omega

theorem Word.Within.sameRun {low high : Nat} {w : Word} (h : w.Within page low high) {i j : Nat}
    (hi : w.start ≤ i) (hij : i ≤ j) (hj : j < w.stop) : SameRun page (some i) (some j) :=
  ⟨hij, fun k hk hkj => isspace_of_alnum (h.alnum k (by omega) (by omega))⟩

theorem isChain_word {low high : Nat} {w : Word} (h : w.Within page low high) :
    w.sources.IsChain (Linked page) := by
  have htaken := h.taken.2
  unfold Word.sources
  rw [List.isChain_append]
  refine ⟨?_, ?_, ?_⟩
  · rw [List.isChain_map]
    apply List.IsChain.imp_of_mem_imp _ (List.isChain_range' w.start w.taken 1)
    intro i j hi hj hnext _ _
    rw [List.mem_range'_1] at hi hj
    exact h.sameRun hi.1 (by omega) (by omega)
  · split
    · exact List.isChain_nil
    · exact List.isChain_singleton _
  · intro x _ y hy _ hsome
    split at hy
    · cases hy
    · exact absurd (Option.some.inj hy).symm hsome

theorem head?_sources {low high : Nat} {w : Word} (h : w.Within page low high) :
    w.sources.head? = some (some w.start) := by
  obtain ⟨n, hn⟩ := Nat.exists_eq_succ_of_ne_zero (Nat.ne_of_gt h.taken.1)
  unfold Word.sources
  rw [← Word.taken, hn, List.range'_succ, List.map_cons, List.cons_append, List.head?_cons]

theorem getLast?_sources {low high : Nat} {w : Word} (h : w.Within page low high) :
    w.sources.getLast? = some (if w.isOpen then some (w.start + w.taken - 1) else none) := by
  unfold Word.sources
  split
  · have hne := Nat.ne_of_gt h.taken.1
    rw [List.append_nil, List.getLast?_map, List.getLast?_range', ← Word.taken, if_neg hne]
    rfl
  · rw [List.getLast?_concat]

/-- The end of a word and the start of the next one: the first word has the end of its line, or
there is no whitespace between them. -/
theorem linked_iff {low high : Nat} {w next : Word} (hw : w.Within page low high)
    (hnext : next.Within page low high) (hle : w.stop ≤ next.start) :
    (∀ x ∈ w.sources.getLast?, ∀ y ∈ next.sources.head?, Linked page x y) ↔
      (w.isOpen = true →
        ∀ k, w.stop ≤ k → k < next.start → isspace (page.mem k) = false) := by
  obtain ⟨hpos, htaken⟩ := hw.taken
  have hlt := hnext.lt
  rw [getLast?_sources hw, head?_sources hnext]
  cases w.isOpen with
  | false => simp [Linked]
  | true =>
    simp only [if_true, Option.mem_def, Option.some.injEq, forall_eq', Linked, ne_eq,
      reduceCtorEq, not_false_eq_true, forall_const, SameRun]
    constructor
    · intro hrun k hk hklt
      exact hrun.2 k (by omega) (by omega)
    · intro hrun
      refine ⟨by omega, fun k hk hkle => ?_⟩
      by_cases hin : k < w.stop
      · exact isspace_of_alnum (hw.alnum k (by omega) hin)
      · by_cases hbefore : k < next.start
        · exact hrun k (by omega) hbefore
        · exact isspace_of_alnum (hnext.alnum k (by omega) (by omega))

theorem linesOfOneRun_iff {low high : Nat} {words : List Word} (h : Placed page low high words) :
    LinesOfOneRun page (sources words) ↔ ¬Joined page words := by
  have hlines : LinesOfOneRun page (sources words) ↔ (sources words).IsChain (Linked page) := by
    unfold LinesOfOneRun linesOf
    simp only [← List.isChain_iff_pairwise]
    exact isChain_lines List.not_mem_nil (sources words)
  have hne : [] ∉ words.map Word.sources := by
    intro hmem
    obtain ⟨w, hw, hnil⟩ := List.mem_map.mp hmem
    have hhead := head?_sources (h.1 w hw)
    rw [hnil] at hhead
    cases hhead
  rw [hlines, sources, List.flatMap_def, List.isChain_flatten hne, List.isChain_map,
    List.isChain_iff_forall_rel_of_append_cons_cons]
  have hwords : ∀ l ∈ words.map Word.sources, l.IsChain (Linked page) := by
    intro l hl
    obtain ⟨w, hw, rfl⟩ := List.mem_map.mp hl
    exact isChain_word (h.1 w hw)
  rw [and_iff_right hwords]
  have hlinked : ∀ {w next : Word} {front back : List Word}, words = front ++ w :: next :: back →
      ((∀ x ∈ w.sources.getLast?, ∀ y ∈ next.sources.head?, Linked page x y) ↔
        (w.isOpen = true →
          ∀ k, w.stop ≤ k → k < next.start → isspace (page.mem k) = false)) := by
    intro w next front back hsplit
    obtain ⟨hwithin, hplaced⟩ := h
    rw [hsplit] at hwithin hplaced
    refine linked_iff (hwithin w (by simp)) (hwithin next (by simp)) ?_
    have htail := (List.pairwise_append.mp hplaced).2.1
    exact (List.pairwise_cons.mp htail).1 next List.mem_cons_self
  constructor
  · rintro hall ⟨front, w, next, back, hsplit, hopen, k, hk, hlt, hspace⟩
    have hrun := (hlinked hsplit).mp (hall hsplit) hopen k hk hlt
    rw [hrun] at hspace
    cases hspace
  · intro hjoined w next front back hsplit
    apply (hlinked hsplit).mpr
    intro hopen k hk hlt
    by_contra hspace
    exact hjoined ⟨front, w, next, back, hsplit, hopen, k, hk, hlt, by simpa using hspace⟩

/-! ## The words are the runs of letters and digits -/

/-- A run of letters and digits in a chunk, with a character after it, that fits into the word
buffer. -/
structure IsRun (page : Page) (start stop : Nat) (w : Word) : Prop where
  within : w.Within page start stop
  begins : w.start = start ∨ isalnum (page.mem (w.start - 1)) = false
  ends : isalnum (page.mem w.stop) = false
  fits : w.stop - w.start ≤ MAX_WORD_MEMORY
  isOpen : w.isOpen = leavesOpen page start stop w.stop

theorem isRun_found {r : Reader} (h : r.Tracks page start) (hp : r.p < stop) {w : Word}
    (hw : w ∈ r.found page start stop) : IsRun page start stop w ∧ w.stop = r.p := by
  unfold Reader.found at hw
  split at hw
  · cases hw
  · rename_i hfound
    obtain ⟨halnum, hword, hfits⟩ := by
      simpa only [not_or, Bool.not_eq_true, not_not, Nat.not_lt] using hfound
    obtain rfl := List.mem_singleton.mp hw
    exact ⟨⟨⟨h.ge, Nat.not_le.mp hword, Nat.le_of_lt hp, h.alnum⟩, h.begins, halnum, hfits, rfl⟩, rfl⟩

/-- A run that ends at the place of the reader is the one that the reader finds. -/
theorem mem_found {r : Reader} (h : r.Tracks page start) {w : Word} (hw : IsRun page start stop w)
    (hp : w.stop = r.p) : w ∈ r.found page start stop := by
  obtain ⟨wstart, wstop, isOpen⟩ := w
  obtain ⟨⟨hge, hlt, _, halnum⟩, hbegins, hends, hfits, hopen⟩ := hw
  dsimp only at *
  subst hp
  have hle := h.le
  have hfrom := h.ge
  -- both are the start of the run: neither has a letter or a digit before it
  have hstart : wstart = r.wordStart := by
    rcases Nat.lt_trichotomy wstart r.wordStart with hbefore | heq | hafter
    · rcases h.begins with hfirst | hfirst
      · omega
      · rw [halnum (r.wordStart - 1) (by omega) (by omega)] at hfirst
        cases hfirst
    · exact heq
    · rcases hbegins with hfirst | hfirst
      · omega
      · rw [h.alnum (wstart - 1) (by omega) (by omega)] at hfirst
        cases hfirst
  subst hstart
  unfold Reader.found
  rw [if_neg (by simp [hends, hlt, hfits]), hopen]
  exact List.mem_singleton_self _

theorem Reader.last_p_ge (isCommonEnglishWord : Bytes → Bool) (page : Page) (stop turns : Nat)
    (r : Reader) :
    r.p ≤ (r.last isCommonEnglishWord page stop turns).p := by
  induction turns generalizing r with
  | zero => exact Nat.le_refl _
  | succ turns ih =>
    unfold Reader.last
    split
    · have hread : r.p ≤ (r.read isCommonEnglishWord page stop).p := Nat.le_add_right r.p _
      split
      · exact hread
      · exact Nat.le_trans hread (ih _)
    · exact Nat.le_refl _

/-- A run that ends after the place of the reader ends after the next one. -/
theorem IsRun.after_width {r : Reader} {w : Word} (hw : IsRun page start stop w)
    (halnum : isalnum (page.mem r.p) = false) (hp : r.p < w.stop) :
    r.p + width page stop r.p < w.stop := by
  have hlt := hw.within.lt
  by_contra hle
  have hlast := not_alnum_of_width stop halnum (k := w.stop - 1) (by omega) (by omega)
  rw [hw.within.alnum (w.stop - 1) (by omega) (by omega)] at hlast
  cases hlast

theorem IsRun.read_p_le (isCommonEnglishWord : Bytes → Bool) {r : Reader} {w : Word}
    (hw : IsRun page start stop w) (hp : r.p < w.stop) :
    (r.read isCommonEnglishWord page stop).p ≤ w.stop := by
  cases halnum : isalnum (page.mem r.p) with
  | true =>
    rw [(Reader.read_of_alnum isCommonEnglishWord stop halnum).2.1]
    exact hp
  | false =>
    rw [(Reader.read_of_not_alnum isCommonEnglishWord stop halnum).2]
    exact Nat.le_of_lt (hw.after_width halnum hp)

theorem mem_words_iff {turns : Nat} {r : Reader} (h : r.Tracks page start)
    (hturns : stop < r.p + turns) {w : Word} :
    w ∈ r.words isCommonEnglishWord page start stop turns ↔
      IsRun page start stop w ∧ r.p ≤ w.stop ∧
        w.stop < (r.last isCommonEnglishWord page stop turns).p := by
  induction turns generalizing r with
  | zero =>
    refine iff_of_false List.not_mem_nil ?_
    rintro ⟨_, hle, hlt⟩
    exact absurd hlt (Nat.not_lt.mpr hle)
  | succ turns ih =>
    unfold Reader.words Reader.last
    by_cases hp : r.p < stop
    · have hwidth := width_pos page stop r.p
      have hread : r.p < (r.read isCommonEnglishWord page stop).p := Nat.lt_add_of_pos_right hwidth
      rw [if_pos hp, if_pos hp, List.mem_append]
      by_cases hgives : r.givesUp isCommonEnglishWord page stop
      · rw [if_pos hgives, if_pos hgives, or_iff_left List.not_mem_nil]
        constructor
        · intro hfound
          obtain ⟨hrun, hstop⟩ := isRun_found h hp hfound
          exact ⟨hrun, by omega, by omega⟩
        · rintro ⟨hrun, hle, hlt⟩
          apply mem_found h hrun
          by_contra hstop
          have hafter := hrun.read_p_le isCommonEnglishWord (r := r) (by omega)
          omega
      · have hlast := Reader.last_p_ge isCommonEnglishWord page stop turns
          (r.read isCommonEnglishWord page stop)
        rw [if_neg hgives, if_neg hgives, ih h.read (by omega)]
        constructor
        · rintro (hfound | ⟨hrun, hle, hlt⟩)
          · obtain ⟨hrun, hstop⟩ := isRun_found h hp hfound
            exact ⟨hrun, by omega, by omega⟩
          · exact ⟨hrun, by omega, hlt⟩
        · rintro ⟨hrun, hle, hlt⟩
          by_cases hstop : w.stop = r.p
          · exact Or.inl (mem_found h hrun hstop)
          · exact Or.inr ⟨hrun, hrun.read_p_le isCommonEnglishWord (by omega), hlt⟩
    · rw [if_neg hp, if_neg hp]
      refine iff_of_false List.not_mem_nil ?_
      rintro ⟨_, hle, hlt⟩
      exact absurd hlt (Nat.not_lt.mpr hle)

end Reading

/-! ## Results -/

/-- What a plain text adds to the words, character by character, and when it joins none that
whitespace separates: if every word of it that is cut and left open is followed by the next word
of the buffer without whitespace between them. -/
theorem lines_of_one_run_iff (isCommonEnglishWord : Bytes → Bool) (text : PlainText)
    (h : HtmlParser) :
    written (parseChunks isCommonEnglishWord text.page text.lens text.start h).words =
        written h.words ++
          (sources (text.words isCommonEnglishWord h)).map (charAt text.page) ∧
      (LinesOfOneRun text.page (sources (text.words isCommonEnglishWord h)) ↔
        ¬Joined text.page (text.words isCommonEnglishWord h)) :=
  ⟨written_parseChunks text.plain ⟨rfl, rfl⟩,
    linesOfOneRun_iff (placed_chunkWords text.lens text.start _)⟩

/-- The text `dogs' bone `. -/
def dogsBone : PlainText where
  page := pageOf (ascii "dogs' bone ") []
  start := 0
  lens := [11]
  plain i _ hi := (by decide : ∀ i < 11, (pageOf (ascii "dogs' bone ") []).mem i ≠ 60 ∧
    (pageOf (ascii "dogs' bone ") []).mem i ≠ 38) i hi

/-- The space after the apostrophe ends no line. -/
theorem two_words_with_a_space_between_are_one_line :
    written (parseChunks (fun _ => false) dogsBone.page dogsBone.lens dogsBone.start
        (HtmlParser.ofPage 0 0 [])).words = ascii "dogsbone\n" ∧
      ¬LinesOfOneRun dogsBone.page
        (sources (dogsBone.words (fun _ => false) (HtmlParser.ofPage 0 0 []))) := by
  have hwords : dogsBone.words (fun _ => false) (HtmlParser.ofPage 0 0 []) =
      [⟨0, 4, true⟩, ⟨6, 10, false⟩] := by decide +kernel
  have hjoined : Joined dogsBone.page
      (dogsBone.words (fun _ => false) (HtmlParser.ofPage 0 0 [])) :=
    ⟨[], ⟨0, 4, true⟩, ⟨6, 10, false⟩, [], hwords, rfl, 5, by decide, by decide, by decide⟩
  have hplaced : Placed dogsBone.page dogsBone.start (dogsBone.start + dogsBone.lens.sum)
      (dogsBone.words (fun _ => false) (HtmlParser.ofPage 0 0 [])) :=
    placed_chunkWords dogsBone.lens dogsBone.start _
  exact ⟨by decide +kernel, fun hlines => (linesOfOneRun_iff hplaced).mp hlines hjoined⟩

end seamus.word_separation
