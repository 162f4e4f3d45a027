-- `parser/parser.h` and `parser/word_array.h`: a page goes into the words of the parser's
-- output file and into the link data for the URL buffer.
import Seamus.HtmlTags

open seamus.html_tags

namespace seamus.html

/-! ## Characters -/

/-- `isspace` in the C locale. -/
def isspace (c : UInt8) : Bool := c = 32 || (9 ≤ c && c ≤ 13)

/-- `isalnum` in the C locale. -/
def isalnum (c : UInt8) : Bool := isDigit c || (65 ≤ c && c ≤ 90) || (97 ≤ c && c ≤ 122)

/-- The characters that break words, but for the spaces: `,.:;!?()"[]{}-+`. -/
def breakMarks : Bytes := [44, 46, 58, 59, 33, 63, 40, 41, 34, 91, 93, 123, 125, 45, 43]

def isWordBreakChar (c : UInt8) : Bool := isspace c || c ∈ breakMarks

/-- A page in memory: its bytes are those from 0 to before `size`. -/
structure Page where
  mem : Nat → UInt8
  size : Nat

/-- The `len` bytes from `start` on. -/
def Page.slice (page : Page) (start len : Nat) : Bytes :=
  (List.range len).map fun i => page.mem (start + i)

/-- The memory from `start` on. -/
def Page.ptr (page : Page) (start i : Nat) : UInt8 := page.mem (start + i)

def commaInNumber (page : Page) (p start stop : Nat) : Bool :=
  (page.mem p = 44 || page.mem p = 46) && (p + 1 < stop && isDigit (page.mem (p + 1))) &&
    (p > start && isDigit (page.mem (p - 1)))

/-- `while (p < stop && !found(p)) p++`, for `turns = stop - p`. -/
def advance (found : Nat → Bool) : Nat → Nat → Nat
  | 0, p => p
  | turns + 1, p => if found p then p else advance found turns (p + 1)

/-- The first place from `p` on with a character like that, or `stop`. -/
def Page.find (page : Page) (isIt : UInt8 → Bool) (p stop : Nat) : Nat :=
  advance (fun q => isIt (page.mem q)) (stop - p) p

/-! ## The buffers -/

def MAX_WORD_MEMORY : Nat := 32 * 1024

def MAX_LINK_MEMORY : Nat := 8 * 1024

def NULL_DELIM : UInt8 := 0

theorem newline_ne_null : newline ≠ NULL_DELIM := by decide

theorem space_ne_null : space ≠ NULL_DELIM := by decide

def lowercase (str : Bytes) : Bytes := str.map tolower

theorem lowercase_append (xs ys : Bytes) : lowercase (xs ++ ys) = lowercase xs ++ lowercase ys :=
  List.map_append

theorem lowercase_lowercase (str : Bytes) : lowercase (lowercase str) = lowercase str := by
  unfold lowercase
  rw [List.map_map]
  exact List.map_congr_left fun c _ => tolower_tolower c

/-- A `buffer_array`: the bytes up to `size_`, and what its flushes passed on. -/
structure BufferArray where
  data : Bytes
  sent : List Bytes
  deriving DecidableEq, Repr

/-- A difference of two `size_t`. -/
def u64Sub (a b : Nat) : Nat := if b ≤ a then a - b else 2 ^ 64 - (b - a)

def BufferArray.append (b : BufferArray) (str : Bytes) (delim : UInt8) : BufferArray :=
  { b with data := b.data ++ str ++ if delim = NULL_DELIM then [] else [delim] }

/-- The length that `push_back` takes when there is no room after a flush. -/
def roomFor (max size len : Nat) : Nat :=
  if u64Sub (u64Sub max size) 2 ≤ len then
    if size + 2 < max then max - size - 2 else 0
  else len

def pushBack (max : Nat) (flush : BufferArray → BufferArray) (str : Bytes) (delim : UInt8)
    (b : BufferArray) : BufferArray :=
  if max < str.length then b
  else if max ≤ b.data.length + str.length + 10 then
    let b := flush b
    if max ≤ b.data.length + str.length + 10 then
      b.append (str.take (roomFor max b.data.length str.length)) delim
    else b.append str delim
  else b.append str delim

/-- `case_convert` from `start` to the end. A start before the buffer is 0 here, and stops the
function in `output_buffers`. -/
def BufferArray.caseConvert (b : BufferArray) (start : Nat) : BufferArray :=
  { b with data := b.data.take start ++ lowercase (b.data.drop start) }

/-- `word_array::flush`: all of it goes to the file. The write succeeds in full. -/
def flushWords (b : BufferArray) : BufferArray :=
  if 0 < b.data.length then ⟨[], b.sent ++ [lowercase b.data]⟩ else b

def pushDocend (data : Bytes) : Bytes :=
  if data.length + 8 ≤ MAX_LINK_MEMORY then data ++ ascii "\n</doc>\n" else data

/-- `link_array::flush` with the parser's callback: the batch goes to the URL buffer, and a
new one starts with `header`. -/
def flushLinks (header : Bytes) (b : BufferArray) : BufferArray :=
  if 0 < b.data.length then ⟨header, b.sent ++ [pushDocend b.data]⟩ else b

def pushWord (str : Bytes) (delim : UInt8) (b : BufferArray) : BufferArray :=
  pushBack MAX_WORD_MEMORY flushWords str delim b

def pushLink (header : Bytes) (str : Bytes) (delim : UInt8) (b : BufferArray) : BufferArray :=
  pushBack MAX_LINK_MEMORY (flushLinks header) str delim b

/-! ## The parser -/

def MAX_CONSECUTIVE_NON_ALNUM : Nat := 100

def MAX_CONSECUTIVE_NON_ENGLISH : Nat := 20

def MAX_BASE_LEN : Nat := 256

/-- What the parser tells the URL store about a page. -/
inductive StoreCall where
  | updateTitleLen (url : Bytes) (len : Nat)
  | updateTitle (url title : Bytes)
  | updateBodyLen (url : Bytes) (len : Nat)
  deriving DecidableEq, Repr

structure HtmlParser where
  hops : Nat
  domainHops : Nat
  url : Bytes
  title : Bytes
  words : BufferArray
  links : BufferArray
  urlStore : List StoreCall
  inA : Bool
  inTitle : Bool
  doneWithTitle : Bool
  baseFound : Bool
  killed : Bool
  nonAlnumRun : Nat
  nonEnglishRun : Nat
  inComment : Bool
  inDiscard : Bool
  discardTag : Bytes
  deriving DecidableEq

/-- The bytes that `write_link_headers` pushes into an empty buffer that has room for them. The
pushes one by one, and when they fit, are in `output_buffers`. -/
def HtmlParser.linkHeader (h : HtmlParser) : Bytes :=
  ascii "<doc>\n" ++ ascii (toString h.hops) ++ [space] ++ ascii (toString h.domainHops) ++
    [newline] ++ extractDomain h.url ++ [newline]

def HtmlParser.pushWord (h : HtmlParser) (str : Bytes) (delim : UInt8) : HtmlParser :=
  { h with words := html.pushWord str delim h.words }

def HtmlParser.pushLink (h : HtmlParser) (str : Bytes) (delim : UInt8) : HtmlParser :=
  { h with links := html.pushLink h.linkHeader str delim h.links }

/-- A word of the anchor text, if there is one, in lower case. -/
def HtmlParser.pushAnchorWord (h : HtmlParser) (str : Bytes) (delim : UInt8) : HtmlParser :=
  if h.inA then
    let h := h.pushLink str delim
    { h with links := h.links.caseConvert (h.links.data.length - (str.length + 1)) }
  else h

def HtmlParser.addToTitle (h : HtmlParser) (str : Bytes) : HtmlParser :=
  if h.inTitle && !h.doneWithTitle then { h with title := h.title ++ [space] ++ str } else h

/-- The parser and the pointers of `parse_chunk`. -/
structure Cursor where
  parser : HtmlParser
  p : Nat
  wordStart : Nat
  numWords : Nat
  deriving DecidableEq

/-- What a turn of the loop ends with: the next turn, or a return from the function. -/
inductive Flow where
  | goOn (c : Cursor)
  | done (h : HtmlParser)
  deriving DecidableEq

section English

-- `is_common_english_word`, the lookup in the table of `english_dict.h`.
variable (isCommonEnglishWord : Bytes → Bool)

/-- The parser, and whether it goes on. -/
def checkEnglish (h : HtmlParser) (word : Bytes) : HtmlParser × Bool :=
  if word.length ≤ 2 then (h, true)
  else if isCommonEnglishWord word then ({ h with nonEnglishRun := 0 }, true)
  else
    let h := { h with nonEnglishRun := h.nonEnglishRun + 1 }
    if MAX_CONSECUTIVE_NON_ENGLISH ≤ h.nonEnglishRun then ({ h with killed := true }, false)
    else (h, true)

/-- A word is written and counted. The cursor is that of the next turn. -/
def writeWord (word : Bytes) (linkDelim wordDelim : UInt8) (next : Cursor) : Flow :=
  let h := next.parser.pushAnchorWord word linkDelim
  let h := (h.pushWord word wordDelim).addToTitle word
  let (h, goesOn) := checkEnglish isCommonEnglishWord h word
  if goesOn then .goOn { next with parser := h, numWords := u32 (next.numWords + 1) } else .done h

/-- A part of a word before an apostrophe is written and not counted. -/
def writePart (part : Bytes) (h : HtmlParser) : HtmlParser :=
  (h.pushWord part NULL_DELIM).pushAnchorWord part NULL_DELIM

/-- The word before `p`, if there is one, and then on at `next`. -/
def endWord (page : Page) (linkDelim wordDelim : UInt8) (next : Nat) (c : Cursor) : Flow :=
  let after := { c with p := next, wordStart := next }
  if c.wordStart < c.p then
    writeWord isCommonEnglishWord (page.slice c.wordStart (c.p - c.wordStart)) linkDelim wordDelim
      after
  else .goOn after

def endPart (page : Page) (next : Nat) (c : Cursor) : Flow :=
  let after := { c with p := next, wordStart := next }
  if c.wordStart < c.p then
    .goOn { after with
      parser := writePart (page.slice c.wordStart (c.p - c.wordStart)) c.parser }
  else .goOn after

/-! ## Tags -/

/-- The bytes of a URL up to the end of its host. -/
def hostLen (url : Bytes) : Nat :=
  let s := (url.takeWhile (· ≠ 58)).length
  let s := if s + 2 < url.length then s + 3 else s
  s + ((url.drop s).takeWhile (· ≠ 47)).length

/-- The target of an anchor. A relative one gets the host of the page. -/
def HtmlParser.pushHref (h : HtmlParser) (href : Bytes) : HtmlParser :=
  if href.head? = some 47 then h.pushLink (h.url.take (hostLen h.url) ++ href) newline
  else h.pushLink href newline

/-- `while (p < end && *p != '>')` in an opening anchor tag. -/
def anchorTag (page : Page) (stop : Nat) : Nat → HtmlParser → Nat → HtmlParser × Nat
  | 0, h, p => (h, p)
  | turns + 1, h, p =>
    if p < stop ∧ page.mem p ≠ 62 then
      if strncasecmp (page.ptr p) (literal "href=\"") 6 = .eq ∧ isspace (page.mem (p - 1)) then
        let start := p + 6
        let p := page.find (· = 34) start stop
        let h :=
          if p ≠ stop ∧ start < p then
            { h.pushHref (page.slice start (p - start)) with inA := true }
          else h
        anchorTag page stop turns h p
      else anchorTag page stop turns h (p + 1)
    else (h, p)

/-- The same loop in a base tag. -/
def baseTag (page : Page) (stop : Nat) : Nat → HtmlParser → Nat → HtmlParser × Nat
  | 0, h, p => (h, p)
  | turns + 1, h, p =>
    if p < stop ∧ page.mem p ≠ 62 then
      if strncasecmp (page.ptr p) (literal "href=\"") 6 = .eq then
        let start := p + 6
        let p := page.find (· = 34) start stop
        let h := if p - start < MAX_BASE_LEN then { h with baseFound := true } else h
        baseTag page stop turns h p
      else baseTag page stop turns h (p + 1)
    else (h, p)

/-- The same loop in an embed tag. -/
def embedTag (page : Page) (stop : Nat) : Nat → HtmlParser → Nat → HtmlParser × Nat
  | 0, h, p => (h, p)
  | turns + 1, h, p =>
    if p < stop ∧ page.mem p ≠ 62 then
      if strncasecmp (page.ptr p) (literal "src=\"") 5 = .eq then
        let start := p + 5
        let p := page.find (· = 34) start stop
        embedTag page stop turns (h.pushLink (page.slice start (p - start)) newline) p
      else embedTag page stop turns h (p + 1)
    else (h, p)

def isCloseMark (page : Page) (p : Nat) : Bool := page.mem p = 60 && page.mem (p + 1) = 47

/-- The end of the name of the closing tag of a discarded section, none if it is not there. -/
def sectionEnd (page : Page) (stop tagStart len : Nat) : Nat → Nat → Option Nat
  | 0, _ => none
  | turns + 1, p =>
    let p := advance (isCloseMark page) (stop - 1 - p) p
    if stop ≤ p + 1 then none
    else
      let closeStart := p + 2
      let p := page.find (fun c => isspace c || c = 62) closeStart stop
      if strncasecmp (page.ptr closeStart) (page.ptr tagStart) len = .eq then some p
      else sectionEnd page stop tagStart len turns p

def isCommentEnd (page : Page) (p : Nat) : Bool :=
  page.mem p = 45 && page.mem (p + 1) = 45 && page.mem (p + 2) = 62

/-- `if (p < end) word_start = ++p`. -/
def Cursor.afterTag (c : Cursor) (stop p : Nat) : Cursor :=
  if p < stop then { c with p := p + 1, wordStart := p + 1 } else { c with p := p }

def Cursor.skipTag (page : Page) (c : Cursor) (stop : Nat) : Cursor :=
  c.afterTag stop (page.find (· = 62) c.p stop)

/-- A title begins or ends. -/
def titleTag (page : Page) (stop : Nat) (isClosing : Bool) (c : Cursor) : Cursor :=
  let h := { c.parser with inTitle := !isClosing }
  let h :=
    if isClosing then
      { h.pushWord (ascii "</title>") newline with
        urlStore := h.urlStore ++ [.updateTitleLen h.url c.numWords, .updateTitle h.url h.title]
        doneWithTitle := true }
    else h.pushWord (ascii "<title>") newline
  { c with parser := h }.skipTag page stop

/-- What follows a tag with an action. The cursor is after the name of the tag. -/
def tagAction (page : Page) (stop tagStart len : Nat) (isClosing : Bool) (c : Cursor) :
    DesiredAction → Flow
  | .ordinaryText =>
    if c.p < stop ∧ isWordBreakChar (page.mem c.p) then
      endWord isCommonEnglishWord page space newline (c.p + 1) c
    else if c.p < stop then .goOn { c with p := c.p + 1 }
    else .goOn c
  | .title => .goOn (titleTag page stop isClosing c)
  | .comment =>
    let p := advance (isCommentEnd page) (stop - 2 - c.p) c.p
    if stop ≤ p + 2 then .done { c.parser with inComment := true }
    else .goOn { c with p := p + 3, wordStart := p + 3 }
  | .discard => .goOn (c.skipTag page stop)
  | .discardSection =>
    if isClosing then .goOn (c.skipTag page stop)
    else
      match sectionEnd page stop tagStart len (stop - c.p + 1) c.p with
      | none =>
        .done { c.parser with
          inDiscard := true
          discardTag := page.slice tagStart (if len < 16 then len else 15) }
      | some p => .goOn ({ c with p := p }.skipTag page stop)
  | .anchor =>
    if isClosing then
      { c with parser := { c.parser with inA := false }.pushLink [] newline }.skipTag page stop
        |> .goOn
    else
      let (h, p) := anchorTag page stop (stop - c.p) c.parser c.p
      .goOn ({ c with parser := h }.afterTag stop p)
  | .base =>
    if c.parser.baseFound then .goOn (c.skipTag page stop)
    else
      let (h, p) := baseTag page stop (stop - c.p) c.parser c.p
      .goOn ({ c with parser := h }.afterTag stop p)
  | .embed =>
    let (h, p) := embedTag page stop (stop - c.p) c.parser c.p
    .goOn ({ c with parser := h }.afterTag stop p)

def isTagNameEnd (c : UInt8) : Bool := isspace c || c = 47 || c = 62

/-- The turn at a `<`. -/
def tagTurn (page : Page) (start stop : Nat) (c : Cursor) : Flow :=
  let isClosing := c.p + 1 < stop ∧ page.mem (c.p + 1) = 47
  let tagStart := if isClosing then c.p + 2 else c.p + 1
  let p := page.find isTagNameEnd tagStart stop
  let p :=
    if tagStart + 3 ≤ stop ∧ page.slice tagStart 3 = ascii "!--" then tagStart + 3 else p
  let len := p - tagStart
  let action := lookupPossibleTag (page.ptr tagStart) len
  let wordEnd := c.p
  if action ≠ .ordinaryText ∧ c.wordStart < wordEnd ∧ start ≤ wordEnd then
    match writeWord isCommonEnglishWord (page.slice c.wordStart (wordEnd - c.wordStart)) space
      newline { c with p := p } with
    | .goOn c => tagAction isCommonEnglishWord page stop tagStart len isClosing c action
    | .done h => .done h
  else tagAction isCommonEnglishWord page stop tagStart len isClosing { c with p := p } action

/-! ## The main loop -/

/-- The turn at a `&`. -/
def entityTurn (page : Page) (stop : Nat) (c : Cursor) : Flow :=
  let start := c.p + 1
  let entityEnd := page.find (fun c => c = 59 || c = 60 || isspace c) start stop
  let entity := page.slice start (entityEnd - start)
  let next := if entityEnd < stop ∧ page.mem entityEnd = 59 then entityEnd + 1 else entityEnd
  if entity = ascii "rsquo" ∨ entity = ascii "apos" then endPart page next c
  else endWord isCommonEnglishWord page space newline next c

/-- `0xE28099`, the apostrophe of UTF-8. -/
def isUtf8Apostrophe (page : Page) (p stop : Nat) : Bool :=
  page.mem p = 0xE2 && p + 2 < stop && page.mem (p + 1) = 0x80 && page.mem (p + 2) = 0x99

/-- `0xC2A0`, the space without a break of UTF-8. -/
def isUtf8Space (page : Page) (p stop : Nat) : Bool :=
  page.mem p = 0xC2 && p + 1 < stop && page.mem (p + 1) = 0xA0

/-- The turn at a character that is no letter, no digit and none of the special ones. -/
def otherTurn (page : Page) (c : Cursor) : Flow :=
  let h := { c.parser with nonAlnumRun := c.parser.nonAlnumRun + 1 }
  if MAX_CONSECUTIVE_NON_ALNUM ≤ h.nonAlnumRun then .done { h with killed := true }
  else
    let h :=
      if c.wordStart < c.p then
        h.pushWord (page.slice c.wordStart (c.p - c.wordStart)) NULL_DELIM
      else h
    .goOn { c with parser := h, p := c.p + 1, wordStart := c.p + 1 }

/-- One turn of the loop of `parse_chunk` on the bytes from `start` to before `stop`. -/
def turn (page : Page) (start stop : Nat) (c : Cursor) : Flow :=
  let char := page.mem c.p
  if isWordBreakChar char then
    if commaInNumber page c.p start stop then
      endWord isCommonEnglishWord page NULL_DELIM NULL_DELIM (c.p + 1) c
    else endWord isCommonEnglishWord page space newline (c.p + 1) c
  else if char = 60 then tagTurn isCommonEnglishWord page start stop c
  else if char = 38 then entityTurn isCommonEnglishWord page stop c
  else if char = 39 then endPart page (c.p + 1) c
  else if isUtf8Apostrophe page c.p stop then endPart page (c.p + 3) c
  else if isUtf8Space page c.p stop then
    endWord isCommonEnglishWord page space newline (c.p + 2) c
  else if !isalnum char then otherTurn page c
  else
    .goOn { c with parser := { c.parser with nonAlnumRun := 0 }, p := c.p + 1 }

/-- The loop. Every turn takes a byte or more. -/
def parseLoop (page : Page) (start stop : Nat) : Nat → Cursor → HtmlParser
  | 0, c => c.parser
  | turns + 1, c =>
    if c.p < stop then
      match turn isCommonEnglishWord page start stop c with
      | .goOn c => parseLoop page start stop turns c
      | .done h => h
    else
      { c.parser with
        urlStore := c.parser.urlStore ++ [.updateBodyLen c.parser.url c.numWords] }

def parseChunk (page : Page) (start stop : Nat) (h : HtmlParser) : HtmlParser :=
  if stop ≤ start then h
  else parseLoop isCommonEnglishWord page start stop (stop - start + 1) ⟨h, start, start, 0⟩

/-! ## Pages -/

/-- The closing tag of the section that the last chunk ended in: where the text after it
starts. -/
def resumeDiscard (page : Page) (tag : Bytes) : Nat → Nat → Option Nat
  | 0, _ => none
  | turns + 1, p =>
    let name := p + 2
    let nameEnd := page.find (fun c => c = 62 || isspace c) name page.size
    if p + 1 < page.size ∧ isCloseMark page p ∧ nameEnd < page.size ∧
        nameEnd - name = tag.length ∧
        strncasecmp (page.ptr name) (fun i => tag.getD i 0) tag.length = .eq then
      some (min (page.find (· = 62) nameEnd page.size + 1) page.size)
    else resumeDiscard page tag turns (p + 1)

/-- One past the last `>` from `start` on, or all of the page. -/
def safeEnd (page : Page) (start : Nat) : Nat → Nat
  | 0 => page.size
  | turns + 1 =>
    let scan := start + turns + 1
    if page.mem (scan - 1) = 62 then scan else safeEnd page start turns

/-- Where parsing starts, and the parser there. None when all of the page is in a comment or a
section that go on. -/
def parseStart (page : Page) (h : HtmlParser) : Option (Nat × HtmlParser) :=
  if h.inComment then
    let p := advance (isCommentEnd page) (page.size - 2) 0
    if p + 2 < page.size then some (p + 3, { h with inComment := false }) else none
  else if h.inDiscard then
    (resumeDiscard page h.discardTag page.size 0).map fun p => (p, { h with inDiscard := false })
  else some (0, h)

/-- The parser, and how many bytes of the page it took. -/
def parseBuf (page : Page) (h : HtmlParser) : HtmlParser × Nat :=
  match parseStart page h with
  | none =>
    let kept := if h.inComment then 4 else 12
    (h, if kept ≤ page.size then page.size - kept else 0)
  | some (start, h) =>
    let stop := safeEnd page start (page.size - start)
    (parseChunk isCommonEnglishWord page start stop h, stop)

def HtmlParser.writeHeaders (h : HtmlParser) : HtmlParser :=
  let h := (h.pushWord (ascii "<doc>") newline).pushWord h.url newline
  { h with links := { h.links with data := h.links.data ++ h.linkHeader } }

def HtmlParser.writeFooters (h : HtmlParser) : HtmlParser :=
  (h.pushWord (ascii "</doc>") newline).pushLink (ascii "</doc>") newline

/-- The end of a page: both buffers are passed on. -/
def HtmlParser.finish (h : HtmlParser) : HtmlParser :=
  let h := h.writeFooters
  { h with
    words := flushWords (h.words.caseConvert 0)
    links := ⟨[], h.links.sent ++ [h.links.data]⟩ }

/-- The parser at the start of a page, with empty buffers. -/
def HtmlParser.ofPage (hops domainHops : Nat) (link : Bytes) : HtmlParser :=
  { hops, domainHops, url := link.takeWhile (· ≠ 0), title := [], words := ⟨[], []⟩
    links := ⟨[], []⟩, urlStore := [], inA := false, inTitle := false, doneWithTitle := false
    baseFound := false, killed := false, nonAlnumRun := 0, nonEnglishRun := 0
    inComment := false, inDiscard := false, discardTag := [] }

/-- `parse_page`, up to `finish`. -/
def parseBody (page : Page) (hops domainHops : Nat) (link : Bytes) : HtmlParser :=
  (parseBuf isCommonEnglishWord page (HtmlParser.ofPage hops domainHops link).writeHeaders).1

/-- The words and the links of a page: what goes to the file and to the URL buffer. -/
def parsePage (page : Page) (hops domainHops : Nat) (link : Bytes) : HtmlParser :=
  (parseBody isCommonEnglishWord page hops domainHops link).finish

end English

/-- A text in memory, with other bytes after it. -/
def pageOf (text after : Bytes) : Page := ⟨fun i => (text ++ after).getD i 0, text.length⟩

end seamus.html
