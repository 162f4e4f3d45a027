-- The parser with the bounds of its page: the functions of `HtmlParser` once more, so that a
-- read outside of the page stops them, and so that a loop that goes on without end has no
-- result.
import Seamus.HtmlParser

open seamus.html_tags seamus.html

namespace seamus.checked_parser

inductive Fault where
  | outside
  | unended
  deriving DecidableEq, Repr

abbrev Checked := Except Fault

/-! ## Reads of the page -/

def read (page : Page) (p : Nat) : Checked UInt8 :=
  if p < page.size then .ok (page.mem p) else .error .outside

/-- What stands `i` bytes after `start`. -/
def readFrom (page : Page) (start i : Nat) : Checked UInt8 := read page (start + i)

/-- The `len` bytes from `start` on. -/
def readSlice (page : Page) : Nat → Nat → Checked Bytes
  | _, 0 => .ok []
  | start, len + 1 => do
    let byte ← read page start
    let rest ← readSlice page (start + 1) len
    return byte :: rest

def test (page : Page) (isIt : UInt8 → Bool) (p : Nat) : Checked Bool := do
  return isIt (← read page p)

/-- `a && b`: without `a`, nothing is read for `b`. -/
def both (a b : Checked Bool) : Checked Bool := do
  if ← a then b else pure false

/-- `while (p + ahead < stop && !found(p)) p++`. -/
def scan (found : Nat → Checked Bool) (ahead stop : Nat) : Nat → Nat → Checked Nat
  | 0, _ => .error .unended
  | turns + 1, p =>
    if p + ahead < stop then do
      if ← found p then return p else scan found ahead stop turns (p + 1)
    else return p

/-- The first place from `p` on with a character like that, or `stop`. -/
def find (page : Page) (isIt : UInt8 → Bool) (p stop : Nat) : Checked Nat :=
  scan (test page isIt) 0 stop (stop - p + 1) p

/-- `strncasecmp`: it reads on as long as the characters are the same. -/
def strncasecmp (a b : Nat → Checked UInt8) : Nat → Checked Ordering
  | 0 => .ok .eq
  | n + 1 => do
    let x ← a 0
    let y ← b 0
    match compare (tolower x) (tolower y) with
    | .eq => if x = 0 then return .eq else strncasecmp (fun i => a (i + 1)) (fun i => b (i + 1)) n
    | order => return order

/-- `!strncasecmp(a, b, n)`. -/
def sameCase (a b : Nat → Checked UInt8) (n : Nat) : Checked Bool := do
  return (← strncasecmp a b n) = .eq

def commaInNumber (page : Page) (p start stop : Nat) : Checked Bool :=
  both (test page (fun c => c = 44 || c = 46) p)
    (both (both (.ok (p + 1 < stop)) (test page isDigit (p + 1)))
      (both (.ok (p > start)) (test page isDigit (p - 1))))

/-- The loop of the search for a tag. -/
def lookupLoop (name : Nat → Checked UInt8) (len : Nat) : Nat → Nat → Nat → Checked DesiredAction
  | 0, _, _ => .error .unended
  | turns + 1, l, r =>
    if l < r then do
      let m := l + (r - l) / 2
      let (tag, action) := tagsRecognized.getD m ("", .ordinaryText)
      match ← strncasecmp (fun i => .ok (literal tag i)) name len with
      | .lt => lookupLoop name len turns (m + 1) r
      | .gt => lookupLoop name len turns l m
      | .eq => if (ascii tag).length = len then return action else lookupLoop name len turns l m
    else return .ordinaryText

def lookupPossibleTag (name : Nat → Checked UInt8) (len : Nat) : Checked DesiredAction :=
  lookupLoop name len (tagsRecognized.length + 1) 0 tagsRecognized.length

/-! ## Words -/

section English

-- `is_common_english_word`, the lookup in the table of `english_dict.h`.
variable (isCommonEnglishWord : Bytes → Bool)

/-- The word before `p`, if there is one, and then on at `next`. -/
def endWord (page : Page) (linkDelim wordDelim : UInt8) (next : Nat) (c : Cursor) :
    Checked Flow :=
  let after := { c with p := next, wordStart := next }
  if c.wordStart < c.p then do
    let word ← readSlice page c.wordStart (c.p - c.wordStart)
    return writeWord isCommonEnglishWord word linkDelim wordDelim after
  else return .goOn after

def endPart (page : Page) (next : Nat) (c : Cursor) : Checked Flow :=
  let after := { c with p := next, wordStart := next }
  if c.wordStart < c.p then do
    let part ← readSlice page c.wordStart (c.p - c.wordStart)
    return .goOn { after with parser := writePart part c.parser }
  else return .goOn after

/-! ## Tags -/

/-- The loop over an opening tag with a link. `word` is what stands before the link, `isIt`
what else is asked of its place, and `take` is done with the link. -/
def linkTag (page : Page) (stop : Nat) (word : String) (isIt : Nat → Checked Bool)
    (take : HtmlParser → Nat → Nat → Checked HtmlParser) :
    Nat → HtmlParser → Nat → Checked (HtmlParser × Nat)
  | 0, _, _ => .error .unended
  | turns + 1, h, p =>
    if p < stop then do
      if (← read page p) = 62 then return (h, p)
      else
        let len := (ascii word).length
        if ← both (sameCase (readFrom page p) (fun i => .ok (literal word i)) len) (isIt p) then
          let start := p + len
          let p ← find page (· = 34) start stop
          let h ← take h start p
          linkTag page stop word isIt take turns h p
        else linkTag page stop word isIt take turns h (p + 1)
    else return (h, p)

def takeHref (page : Page) (stop : Nat) (h : HtmlParser) (start p : Nat) : Checked HtmlParser :=
  if p ≠ stop ∧ start < p then do
    let href ← readSlice page start (p - start)
    return { h.pushHref href with inA := true }
  else return h

def takeBase (page : Page) (h : HtmlParser) (start p : Nat) : Checked HtmlParser :=
  if p - start < MAX_BASE_LEN then do
    let _base ← readSlice page start (p - start)
    return { h with baseFound := true }
  else return h

def takeSrc (page : Page) (h : HtmlParser) (start p : Nat) : Checked HtmlParser := do
  let src ← readSlice page start (p - start)
  return h.pushLink src newline

/-- `while (p < end && *p != '>')` in an opening anchor tag. -/
def anchorTag (page : Page) (stop turns : Nat) (h : HtmlParser) (p : Nat) :
    Checked (HtmlParser × Nat) :=
  linkTag page stop "href=\"" (fun p => test page isspace (p - 1))
    (takeHref page stop) turns h p

/-- The same loop in a base tag. -/
def baseTag (page : Page) (stop turns : Nat) (h : HtmlParser) (p : Nat) :
    Checked (HtmlParser × Nat) :=
  linkTag page stop "href=\"" (fun _ => .ok true) (takeBase page) turns h p

/-- The same loop in an embed tag. -/
def embedTag (page : Page) (stop turns : Nat) (h : HtmlParser) (p : Nat) :
    Checked (HtmlParser × Nat) :=
  linkTag page stop "src=\"" (fun _ => .ok true) (takeSrc page) turns h p

def isCloseMark (page : Page) (p : Nat) : Checked Bool :=
  both (test page (· = 60) p) (test page (· = 47) (p + 1))

/-- The end of the name of the closing tag of a discarded section, none if it is not there. -/
def sectionEnd (page : Page) (stop tagStart len : Nat) : Nat → Nat → Checked (Option Nat)
  | 0, _ => .error .unended
  | turns + 1, p => do
    let p ← scan (isCloseMark page) 1 stop (stop - p + 1) p
    if stop ≤ p + 1 then return none
    else
      let closeStart := p + 2
      let p ← find page (fun c => isspace c || c = 62) closeStart stop
      if ← sameCase (readFrom page closeStart) (readFrom page tagStart) len then
        return some p
      else sectionEnd page stop tagStart len turns p

def isCommentEnd (page : Page) (p : Nat) : Checked Bool :=
  both (test page (· = 45) p) (both (test page (· = 45) (p + 1)) (test page (· = 62) (p + 2)))

def skipTag (page : Page) (c : Cursor) (stop : Nat) : Checked Cursor := do
  return c.afterTag stop (← find page (· = 62) c.p stop)

/-- The parser after the name of a title tag. -/
def titleParser (isClosing : Bool) (c : Cursor) : HtmlParser :=
  let h := { c.parser with inTitle := !isClosing }
  if isClosing then
    { h.pushWord (ascii "</title>") newline with
      urlStore := h.urlStore ++ [.updateTitleLen h.url c.numWords, .updateTitle h.url h.title]
      doneWithTitle := true }
  else h.pushWord (ascii "<title>") newline

/-- What follows a tag with an action. The cursor is after the name of the tag. -/
def tagAction (page : Page) (stop tagStart len : Nat) (isClosing : Bool) (c : Cursor) :
    DesiredAction → Checked Flow
  | .ordinaryText =>
    if c.p < stop then do
      if isWordBreakChar (← read page c.p) then
        endWord isCommonEnglishWord page space newline (c.p + 1) c
      else return .goOn { c with p := c.p + 1 }
    else return .goOn c
  | .title => do return .goOn (← skipTag page { c with parser := titleParser isClosing c } stop)
  | .comment => do
    let p ← scan (isCommentEnd page) 2 stop (stop - c.p + 1) c.p
    if stop ≤ p + 2 then return .done { c.parser with inComment := true }
    else return .goOn { c with p := p + 3, wordStart := p + 3 }
  | .discard => do return .goOn (← skipTag page c stop)
  | .discardSection => do
    if isClosing then return .goOn (← skipTag page c stop)
    else
      match ← sectionEnd page stop tagStart len (stop - c.p + 1) c.p with
      | none =>
        let discardTag ← readSlice page tagStart (if len < 16 then len else 15)
        return .done { c.parser with inDiscard := true, discardTag := discardTag }
      | some p => return .goOn (← skipTag page { c with p := p } stop)
  | .anchor => do
    if isClosing then
      let h := { c.parser with inA := false }.pushLink [] newline
      return .goOn (← skipTag page { c with parser := h } stop)
    else
      let (h, p) ← anchorTag page stop (stop - c.p + 1) c.parser c.p
      return .goOn ({ c with parser := h }.afterTag stop p)
  | .base => do
    if c.parser.baseFound then return .goOn (← skipTag page c stop)
    else
      let (h, p) ← baseTag page stop (stop - c.p + 1) c.parser c.p
      return .goOn ({ c with parser := h }.afterTag stop p)
  | .embed => do
    let (h, p) ← embedTag page stop (stop - c.p + 1) c.parser c.p
    return .goOn ({ c with parser := h }.afterTag stop p)

/-- The end of the name of a tag that starts there. -/
def nameEnd (page : Page) (tagStart stop : Nat) : Checked Nat := do
  let p ← find page isTagNameEnd tagStart stop
  if tagStart + 3 ≤ stop then
    let mark ← readSlice page tagStart 3
    return if mark = ascii "!--" then tagStart + 3 else p
  else return p

/-- The turn at a `<`. -/
def tagTurn (page : Page) (start stop : Nat) (c : Cursor) : Checked Flow := do
  let isClosing ← both (.ok (c.p + 1 < stop)) (test page (· = 47) (c.p + 1))
  let tagStart := if isClosing then c.p + 2 else c.p + 1
  let p ← nameEnd page tagStart stop
  let len := p - tagStart
  let action ← lookupPossibleTag (readFrom page tagStart) len
  let wordEnd := c.p
  if action ≠ .ordinaryText ∧ c.wordStart < wordEnd ∧ start ≤ wordEnd then
    let word ← readSlice page c.wordStart (wordEnd - c.wordStart)
    match writeWord isCommonEnglishWord word space newline { c with p := p } with
    | .goOn c => tagAction isCommonEnglishWord page stop tagStart len isClosing c action
    | .done h => return .done h
  else tagAction isCommonEnglishWord page stop tagStart len isClosing { c with p := p } action

/-! ## The main loop -/

/-- The turn at a `&`. -/
def entityTurn (page : Page) (stop : Nat) (c : Cursor) : Checked Flow := do
  let start := c.p + 1
  let entityEnd ← find page (fun c => c = 59 || c = 60 || isspace c) start stop
  let entity ← readSlice page start (entityEnd - start)
  let isEnded ← both (.ok (entityEnd < stop)) (test page (· = 59) entityEnd)
  let next := if isEnded then entityEnd + 1 else entityEnd
  if entity = ascii "rsquo" ∨ entity = ascii "apos" then endPart page next c
  else endWord isCommonEnglishWord page space newline next c

def isUtf8Apostrophe (page : Page) (p stop : Nat) : Checked Bool :=
  both (test page (· = 0xE2) p)
    (both (.ok (p + 2 < stop)) (both (test page (· = 0x80) (p + 1)) (test page (· = 0x99) (p + 2))))

def isUtf8Space (page : Page) (p stop : Nat) : Checked Bool :=
  both (test page (· = 0xC2) p) (both (.ok (p + 1 < stop)) (test page (· = 0xA0) (p + 1)))

/-- The turn at a character that is no letter, no digit and none of the special ones. -/
def otherTurn (page : Page) (c : Cursor) : Checked Flow :=
  let h := { c.parser with nonAlnumRun := c.parser.nonAlnumRun + 1 }
  if MAX_CONSECUTIVE_NON_ALNUM ≤ h.nonAlnumRun then return .done { h with killed := true }
  else if c.wordStart < c.p then do
    let part ← readSlice page c.wordStart (c.p - c.wordStart)
    return .goOn { c with
      parser := h.pushWord part NULL_DELIM, p := c.p + 1, wordStart := c.p + 1 }
  else return .goOn { c with parser := h, p := c.p + 1, wordStart := c.p + 1 }

/-- One turn of the loop of `parse_chunk`. -/
def turn (page : Page) (start stop : Nat) (c : Cursor) : Checked Flow := do
  let char ← read page c.p
  if isWordBreakChar char then
    if ← commaInNumber page c.p start stop then
      endWord isCommonEnglishWord page NULL_DELIM NULL_DELIM (c.p + 1) c
    else endWord isCommonEnglishWord page space newline (c.p + 1) c
  else if char = 60 then tagTurn isCommonEnglishWord page start stop c
  else if char = 38 then entityTurn isCommonEnglishWord page stop c
  else if char = 39 then endPart page (c.p + 1) c
  else if ← isUtf8Apostrophe page c.p stop then endPart page (c.p + 3) c
  else if ← isUtf8Space page c.p stop then
    endWord isCommonEnglishWord page space newline (c.p + 2) c
  else if !isalnum char then otherTurn page c
  else return .goOn { c with parser := { c.parser with nonAlnumRun := 0 }, p := c.p + 1 }

def parseLoop (page : Page) (start stop : Nat) : Nat → Cursor → Checked HtmlParser
  | 0, _ => .error .unended
  | turns + 1, c =>
    if c.p < stop then do
      match ← turn isCommonEnglishWord page start stop c with
      | .goOn c => parseLoop page start stop turns c
      | .done h => return h
    else
      return { c.parser with
        urlStore := c.parser.urlStore ++ [.updateBodyLen c.parser.url c.numWords] }

def parseChunk (page : Page) (start stop : Nat) (h : HtmlParser) : Checked HtmlParser :=
  if stop ≤ start then return h
  else parseLoop isCommonEnglishWord page start stop (stop - start + 1) ⟨h, start, start, 0⟩

/-! ## Pages -/

/-- The closing tag of the section that the last chunk ended in: where the text after it
starts. -/
def resumeDiscard (page : Page) (tag : Bytes) : Nat → Nat → Checked (Option Nat)
  | 0, _ => .error .unended
  | turns + 1, p =>
    if p < page.size then do
      let name := p + 2
      if ← both (test page (· = 60) p)
          (both (.ok (p + 1 < page.size)) (test page (· = 47) (p + 1))) then
        let nameEnd ← find page (fun c => c = 62 || isspace c) name page.size
        if ← both (.ok (nameEnd < page.size ∧ nameEnd - name = tag.length))
            (sameCase (readFrom page name) (fun i => .ok (tag.getD i 0)) tag.length) then
          return some (min ((← find page (· = 62) nameEnd page.size) + 1) page.size)
        else resumeDiscard page tag turns (p + 1)
      else resumeDiscard page tag turns (p + 1)
    else return none

/-- One past the last `>` from `start` on, or all of the page. -/
def safeEnd (page : Page) (start : Nat) : Nat → Checked Nat
  | 0 => return page.size
  | turns + 1 => do
    let scan := start + turns + 1
    if (← read page (scan - 1)) = 62 then return scan else safeEnd page start turns

/-- Where parsing starts, and the parser there. None when all of the page is in a comment or a
section that go on. -/
def parseStart (page : Page) (h : HtmlParser) : Checked (Option (Nat × HtmlParser)) := do
  if h.inComment then
    let p ← scan (isCommentEnd page) 2 page.size (page.size + 1) 0
    if p + 2 < page.size then return some (p + 3, { h with inComment := false })
    else return none
  else if h.inDiscard then
    let found ← resumeDiscard page h.discardTag (page.size + 1) 0
    return found.map fun p => (p, { h with inDiscard := false })
  else return some (0, h)

/-- The parser, and how many bytes of the page it took. -/
def parseBuf (page : Page) (h : HtmlParser) : Checked (HtmlParser × Nat) := do
  match ← parseStart page h with
  | none =>
    let kept := if h.inComment then 4 else 12
    return (h, if kept ≤ page.size then page.size - kept else 0)
  | some (start, h) =>
    let stop ← safeEnd page start (page.size - start)
    return (← parseChunk isCommonEnglishWord page start stop h, stop)

end English

end seamus.checked_parser
