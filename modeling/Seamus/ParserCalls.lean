-- The calls that the parser makes on its two output buffers, in the order of the source. What the
-- buffers hold plays no part in it.
import Seamus.HtmlParser

open seamus.html_tags seamus.html

namespace seamus.parser_calls

/-! ## The calls of the parser -/

inductive Call where
  /-- `words.push_back` -/
  | word (str : Bytes) (delim : UInt8)
  /-- `links.push_back` -/
  | link (str : Bytes) (delim : UInt8)
  /-- `links.push_back`, and `links.case_convert` over as many bytes as the word has. -/
  | anchorWord (str : Bytes) (delim : UInt8)
  deriving DecidableEq, Repr

def anchorCalls (h : HtmlParser) (str : Bytes) (delim : UInt8) : List Call :=
  if h.inA then [.anchorWord str delim] else []

/-- The word before `p`, if there is one. -/
def endWordCalls (page : Page) (linkDelim wordDelim : UInt8) (c : Cursor) : List Call :=
  if c.wordStart < c.p then
    let word := page.slice c.wordStart (c.p - c.wordStart)
    anchorCalls c.parser word linkDelim ++ [.word word wordDelim]
  else []

/-- Before an apostrophe or a space of UTF-8, the words come first. -/
def endPartCalls (page : Page) (linkDelim wordDelim : UInt8) (c : Cursor) : List Call :=
  if c.wordStart < c.p then
    let part := page.slice c.wordStart (c.p - c.wordStart)
    .word part wordDelim :: anchorCalls c.parser part linkDelim
  else []

def hrefCalls (url href : Bytes) : List Call :=
  if href.head? = some 47 then [.link (url.take (hostLen url) ++ href) newline]
  else [.link href newline]

def anchorTagCalls (url : Bytes) (page : Page) (stop : Nat) : Nat → Nat → List Call
  | 0, _ => []
  | turns + 1, p =>
    if p < stop ∧ page.mem p ≠ 62 then
      if strncasecmp (page.ptr p) (literal "href=\"") 6 = .eq ∧ isspace (page.mem (p - 1)) then
        let start := p + 6
        let p := page.find (· = 34) start stop
        (if p ≠ stop ∧ start < p then hrefCalls url (page.slice start (p - start)) else []) ++
          anchorTagCalls url page stop turns p
      else anchorTagCalls url page stop turns (p + 1)
    else []

def embedTagCalls (page : Page) (stop : Nat) : Nat → Nat → List Call
  | 0, _ => []
  | turns + 1, p =>
    if p < stop ∧ page.mem p ≠ 62 then
      if strncasecmp (page.ptr p) (literal "src=\"") 5 = .eq then
        let start := p + 5
        let p := page.find (· = 34) start stop
        .link (page.slice start (p - start)) newline :: embedTagCalls page stop turns p
      else embedTagCalls page stop turns (p + 1)
    else []

def tagActionCalls (page : Page) (stop : Nat) (isClosing : Bool) (c : Cursor) :
    DesiredAction → List Call
  | .ordinaryText =>
    if c.p < stop ∧ isWordBreakChar (page.mem c.p) then endWordCalls page space newline c else []
  | .title => [.word (ascii (if isClosing then "</title>" else "<title>")) newline]
  | .anchor =>
    if isClosing then [.link [] newline]
    else anchorTagCalls c.parser.url page stop (stop - c.p) c.p
  | .embed => embedTagCalls page stop (stop - c.p) c.p
  | .comment | .discard | .discardSection | .base => []

section English

variable (isCommonEnglishWord : Bytes → Bool)

def tagTurnCalls (page : Page) (start stop : Nat) (c : Cursor) : List Call :=
  let isClosing := c.p + 1 < stop ∧ page.mem (c.p + 1) = 47
  let tagStart := if isClosing then c.p + 2 else c.p + 1
  let p := page.find isTagNameEnd tagStart stop
  let p :=
    if tagStart + 3 ≤ stop ∧ page.slice tagStart 3 = ascii "!--" then tagStart + 3 else p
  let action := lookupPossibleTag (page.ptr tagStart) (p - tagStart)
  let wordEnd := c.p
  if action ≠ .ordinaryText ∧ c.wordStart < wordEnd ∧ start ≤ wordEnd then
    endWordCalls page space newline c ++
      match writeWord isCommonEnglishWord (page.slice c.wordStart (wordEnd - c.wordStart)) space
        newline { c with p := p } with
      | .goOn c => tagActionCalls page stop isClosing c action
      | .done _ => []
  else tagActionCalls page stop isClosing { c with p := p } action

def entityTurnCalls (page : Page) (stop : Nat) (c : Cursor) : List Call :=
  let start := c.p + 1
  let entityEnd := page.find (fun c => c = 59 || c = 60 || isspace c) start stop
  let entity := page.slice start (entityEnd - start)
  if entity = ascii "rsquo" ∨ entity = ascii "apos" then endPartCalls page NULL_DELIM NULL_DELIM c
  else endWordCalls page space newline c

/-- The word before the character goes to the words only, also in an anchor text. -/
def otherTurnCalls (page : Page) (c : Cursor) : List Call :=
  if MAX_CONSECUTIVE_NON_ALNUM ≤ c.parser.nonAlnumRun + 1 then []
  else if c.wordStart < c.p then
    [.word (page.slice c.wordStart (c.p - c.wordStart)) NULL_DELIM]
  else []

def turnCalls (page : Page) (start stop : Nat) (c : Cursor) : List Call :=
  let char := page.mem c.p
  if isWordBreakChar char then
    if commaInNumber page c.p start stop then endWordCalls page NULL_DELIM NULL_DELIM c
    else endWordCalls page space newline c
  else if char = 60 then tagTurnCalls isCommonEnglishWord page start stop c
  else if char = 38 then entityTurnCalls page stop c
  else if char = 39 then endPartCalls page NULL_DELIM NULL_DELIM c
  else if isUtf8Apostrophe page c.p stop then endPartCalls page NULL_DELIM NULL_DELIM c
  else if isUtf8Space page c.p stop then endPartCalls page space newline c
  else if !isalnum char then otherTurnCalls page c
  else []

def parseLoopCalls (page : Page) (start stop : Nat) : Nat → Cursor → List Call
  | 0, _ => []
  | turns + 1, c =>
    if c.p < stop then
      turnCalls isCommonEnglishWord page start stop c ++
        match turn isCommonEnglishWord page start stop c with
        | .goOn c => parseLoopCalls page start stop turns c
        | .done _ => []
    else []

def parseChunkCalls (page : Page) (start stop : Nat) (h : HtmlParser) : List Call :=
  if stop ≤ start then []
  else parseLoopCalls isCommonEnglishWord page start stop (stop - start + 1) ⟨h, start, start, 0⟩

def parseBufCalls (page : Page) (h : HtmlParser) : List Call :=
  match parseStart page h with
  | none => []
  | some (start, h) =>
    parseChunkCalls isCommonEnglishWord page start (safeEnd page start (page.size - start)) h

/-- The calls of `parse_page` between its headers and its footers. -/
def bodyCalls (page : Page) (hops domainHops : Nat) (link : Bytes) : List Call :=
  parseBufCalls isCommonEnglishWord page (HtmlParser.ofPage hops domainHops link).writeHeaders

end English

/-! ## The buffers after the calls -/

def Call.onWords (b : BufferArray) : Call → BufferArray
  | .word str delim => html.pushWord str delim b
  | .link _ _ | .anchorWord _ _ => b

def Call.onLinks (header : Bytes) (b : BufferArray) : Call → BufferArray
  | .word _ _ => b
  | .link str delim => html.pushLink header str delim b
  | .anchorWord str delim =>
    let b := html.pushLink header str delim b
    b.caseConvert (b.data.length - (str.length + 1))

/-- The calls make the buffers of the second parser out of those of the first one. -/
structure Makes (h : HtmlParser) (calls : List Call) (h' : HtmlParser) : Prop where
  hops : h'.hops = h.hops
  domainHops : h'.domainHops = h.domainHops
  url : h'.url = h.url
  words : h'.words = calls.foldl Call.onWords h.words
  links : h'.links = calls.foldl (Call.onLinks h.linkHeader) h.links

theorem linkHeader_congr {h h' : HtmlParser} (hhops : h'.hops = h.hops)
    (hdomainHops : h'.domainHops = h.domainHops) (hurl : h'.url = h.url) :
    h'.linkHeader = h.linkHeader := by
  unfold HtmlParser.linkHeader
  rw [hhops, hdomainHops, hurl]

section Makes

variable {h h' h'' : HtmlParser} {calls calls' : List Call}

theorem Makes.refl (h : HtmlParser) : Makes h [] h := ⟨rfl, rfl, rfl, rfl, rfl⟩

theorem Makes.header (hm : Makes h calls h') : h'.linkHeader = h.linkHeader :=
  linkHeader_congr hm.hops hm.domainHops hm.url

theorem Makes.append (hm : Makes h calls h') (hm' : Makes h' calls' h'') :
    Makes h (calls ++ calls') h'' where
  hops := hm'.hops.trans hm.hops
  domainHops := hm'.domainHops.trans hm.domainHops
  url := hm'.url.trans hm.url
  words := by rw [hm'.words, hm.words, List.foldl_append]
  links := by rw [hm'.links, hm.links, hm.header, List.foldl_append]

theorem makes_pushWord (h : HtmlParser) (str : Bytes) (delim : UInt8) :
    Makes h [.word str delim] (h.pushWord str delim) := ⟨rfl, rfl, rfl, rfl, rfl⟩

theorem makes_pushLink (h : HtmlParser) (str : Bytes) (delim : UInt8) :
    Makes h [.link str delim] (h.pushLink str delim) := ⟨rfl, rfl, rfl, rfl, rfl⟩

theorem makes_pushAnchorWord (h : HtmlParser) (str : Bytes) (delim : UInt8) :
    Makes h (anchorCalls h str delim) (h.pushAnchorWord str delim) := by
  unfold anchorCalls HtmlParser.pushAnchorWord
  split
  · exact ⟨rfl, rfl, rfl, rfl, rfl⟩
  · exact .refl h

theorem makes_addToTitle (h : HtmlParser) (str : Bytes) : Makes h [] (h.addToTitle str) := by
  unfold HtmlParser.addToTitle
  split <;> exact ⟨rfl, rfl, rfl, rfl, rfl⟩

theorem makes_checkEnglish (isCommonEnglishWord : Bytes → Bool) (h : HtmlParser) (word : Bytes) :
    Makes h [] (checkEnglish isCommonEnglishWord h word).1 := by
  unfold checkEnglish
  dsimp only
  split
  · exact .refl h
  · split
    · exact ⟨rfl, rfl, rfl, rfl, rfl⟩
    · split <;> exact ⟨rfl, rfl, rfl, rfl, rfl⟩

end Makes

/-- The parser of the next turn, or the one that the loop returns with. -/
def Flow.parser : Flow → HtmlParser
  | .goOn c => c.parser
  | .done h => h

section Turns

variable (isCommonEnglishWord : Bytes → Bool) {page : Page} {start stop : Nat}

theorem writeWord_makes (word : Bytes) (linkDelim wordDelim : UInt8) (next : Cursor) :
    Makes next.parser (anchorCalls next.parser word linkDelim ++ [.word word wordDelim])
      (Flow.parser (writeWord isCommonEnglishWord word linkDelim wordDelim next)) := by
  have hpushed := (makes_pushAnchorWord next.parser word linkDelim).append
    ((makes_pushWord _ word wordDelim).append ((makes_addToTitle _ word).append
      (makes_checkEnglish isCommonEnglishWord _ word)))
  unfold writeWord
  dsimp only
  split <;> exact hpushed

theorem endWord_makes (linkDelim wordDelim : UInt8) (next : Nat) (c : Cursor) :
    Makes c.parser (endWordCalls page linkDelim wordDelim c)
      (Flow.parser (endWord isCommonEnglishWord page linkDelim wordDelim next c)) := by
  unfold endWordCalls endWord
  dsimp only
  split
  · exact writeWord_makes isCommonEnglishWord _ linkDelim wordDelim
      { c with p := next, wordStart := next }
  · exact .refl _

theorem endPart_makes (next : Nat) (c : Cursor) :
    Makes c.parser (endPartCalls page NULL_DELIM NULL_DELIM c)
      (Flow.parser (endPart page next c)) := by
  unfold endPartCalls endPart
  dsimp only
  split
  · exact (makes_pushWord c.parser _ NULL_DELIM).append (makes_pushAnchorWord _ _ NULL_DELIM)
  · exact .refl _

/-- The two buffers are apart, so either may be filled first. -/
theorem Makes.swap {h h' after : HtmlParser} {str : Bytes} {linkDelim wordDelim : UInt8}
    (hm : Makes h (anchorCalls after str linkDelim ++ [.word str wordDelim]) h') :
    Makes h (.word str wordDelim :: anchorCalls after str linkDelim) h' := by
  unfold anchorCalls at hm ⊢
  split
  · rename_i hin
    rw [if_pos hin] at hm
    exact ⟨hm.hops, hm.domainHops, hm.url, hm.words, hm.links⟩
  · rename_i hout
    rw [if_neg hout] at hm
    exact hm

theorem endSpace_makes (linkDelim wordDelim : UInt8) (next : Nat) (c : Cursor) :
    Makes c.parser (endPartCalls page linkDelim wordDelim c)
      (Flow.parser (endWord isCommonEnglishWord page linkDelim wordDelim next c)) := by
  have hm : Makes c.parser (endWordCalls page linkDelim wordDelim c) _ :=
    endWord_makes isCommonEnglishWord linkDelim wordDelim next c
  unfold endWordCalls at hm
  unfold endPartCalls
  split
  · rename_i hword
    rw [if_pos hword] at hm
    exact hm.swap
  · rename_i hno
    rwa [if_neg hno] at hm

/-! ### Tags -/

theorem pushHref_makes (h : HtmlParser) (href : Bytes) :
    Makes h (hrefCalls h.url href) (h.pushHref href) := by
  unfold hrefCalls HtmlParser.pushHref
  split <;> exact makes_pushLink h _ newline

theorem anchorTag_makes (turns : Nat) (h : HtmlParser) (p : Nat) :
    Makes h (anchorTagCalls h.url page stop turns p) (anchorTag page stop turns h p).1 := by
  induction turns generalizing h p with
  | zero => exact .refl h
  | succ turns ih =>
    rw [anchorTagCalls, anchorTag]
    split
    · split
      · dsimp only
        generalize page.find (· = 34) (p + 6) stop = q
        split
        · have hhref := pushHref_makes h (page.slice (p + 6) (q - (p + 6)))
          have hrest := ih { h.pushHref (page.slice (p + 6) (q - (p + 6))) with inA := true } q
          have hin : Makes (h.pushHref (page.slice (p + 6) (q - (p + 6)))) []
              { h.pushHref (page.slice (p + 6) (q - (p + 6))) with inA := true } :=
            ⟨rfl, rfl, rfl, rfl, rfl⟩
          rw [show _ = h.url from hhref.url] at hrest
          exact hhref.append (hin.append hrest)
        · exact ih h q
      · exact ih h (p + 1)
    · exact .refl h

theorem baseTag_makes (turns : Nat) (h : HtmlParser) (p : Nat) :
    Makes h [] (baseTag page stop turns h p).1 := by
  induction turns generalizing h p with
  | zero => exact .refl h
  | succ turns ih =>
    rw [baseTag]
    split
    · split
      · dsimp only
        split
        · have hbase : Makes h [] { h with baseFound := true } := ⟨rfl, rfl, rfl, rfl, rfl⟩
          exact hbase.append (ih _ _)
        · exact ih _ _
      · exact ih _ _
    · exact .refl h

theorem embedTag_makes (turns : Nat) (h : HtmlParser) (p : Nat) :
    Makes h (embedTagCalls page stop turns p) (embedTag page stop turns h p).1 := by
  induction turns generalizing h p with
  | zero => exact .refl h
  | succ turns ih =>
    rw [embedTagCalls, embedTag]
    split
    · split
      · exact (makes_pushLink h _ newline).append (ih _ _)
      · exact ih _ _
    · exact .refl h

theorem parser_afterTag (c : Cursor) (p : Nat) : (c.afterTag stop p).parser = c.parser := by
  unfold Cursor.afterTag
  split <;> rfl

theorem parser_skipTag (c : Cursor) : (c.skipTag page stop).parser = c.parser := parser_afterTag c _

theorem skipTag_makes (c : Cursor) :
    Makes c.parser [] (Flow.parser (.goOn (c.skipTag page stop))) := by
  rw [Flow.parser, parser_skipTag]
  exact .refl c.parser

theorem titleTag_makes (isClosing : Bool) (c : Cursor) :
    Makes c.parser [.word (ascii (if isClosing then "</title>" else "<title>")) newline]
      (titleTag page stop isClosing c).parser := by
  unfold titleTag
  rw [parser_skipTag]
  cases isClosing <;> exact ⟨rfl, rfl, rfl, rfl, rfl⟩

theorem tagAction_makes (tagStart len : Nat) (isClosing : Bool) (c : Cursor)
    (action : DesiredAction) :
    Makes c.parser (tagActionCalls page stop isClosing c action)
      (Flow.parser (tagAction isCommonEnglishWord page stop tagStart len isClosing c action)) := by
  cases action with
  | ordinaryText =>
    rw [tagActionCalls, tagAction]
    split
    · exact endWord_makes isCommonEnglishWord space newline (c.p + 1) c
    · split <;> exact .refl _
  | title => exact titleTag_makes isClosing c
  | comment =>
    rw [tagActionCalls, tagAction]
    dsimp only
    split <;> exact ⟨rfl, rfl, rfl, rfl, rfl⟩
  | discard => exact skipTag_makes c
  | discardSection =>
    rw [tagActionCalls, tagAction]
    split
    · exact skipTag_makes c
    · split
      · exact ⟨rfl, rfl, rfl, rfl, rfl⟩
      · rename_i p _
        exact skipTag_makes { c with p := p }
  | anchor =>
    rw [tagActionCalls, tagAction]
    split
    · rw [Flow.parser, parser_skipTag]
      exact ⟨rfl, rfl, rfl, rfl, rfl⟩
    · rw [Flow.parser, parser_afterTag]
      exact anchorTag_makes (stop - c.p) c.parser c.p
  | base =>
    rw [tagActionCalls, tagAction]
    split
    · exact skipTag_makes c
    · rw [Flow.parser, parser_afterTag]
      exact baseTag_makes (stop - c.p) c.parser c.p
  | embed =>
    rw [tagActionCalls, tagAction, Flow.parser, parser_afterTag]
    exact embedTag_makes (stop - c.p) c.parser c.p

theorem tagTurn_makes (c : Cursor) :
    Makes c.parser (tagTurnCalls isCommonEnglishWord page start stop c)
      (Flow.parser (tagTurn isCommonEnglishWord page start stop c)) := by
  unfold tagTurnCalls tagTurn
  dsimp only
  generalize (if c.p + 1 < stop ∧ page.mem (c.p + 1) = 47 then c.p + 2 else c.p + 1) = tagStart
  generalize (if tagStart + 3 ≤ stop ∧ page.slice tagStart 3 = ascii "!--" then tagStart + 3
    else page.find isTagNameEnd tagStart stop) = p
  generalize lookupPossibleTag (page.ptr tagStart) (p - tagStart) = action
  split
  · rename_i hword
    have hwrite := writeWord_makes isCommonEnglishWord
      (page.slice c.wordStart (c.p - c.wordStart)) space newline { c with p := p }
    rw [endWordCalls, if_pos hword.2.1]
    cases hflow : writeWord isCommonEnglishWord (page.slice c.wordStart (c.p - c.wordStart)) space
        newline { c with p := p } with
    | goOn after =>
      rw [hflow] at hwrite
      exact hwrite.append
        (tagAction_makes isCommonEnglishWord tagStart (p - tagStart) _ after action)
    | done h =>
      rw [hflow] at hwrite
      rwa [List.append_nil]
  · exact tagAction_makes isCommonEnglishWord tagStart (p - tagStart) _ { c with p := p } action

/-! ### The main loop -/

theorem entityTurn_makes (c : Cursor) :
    Makes c.parser (entityTurnCalls page stop c)
      (Flow.parser (entityTurn isCommonEnglishWord page stop c)) := by
  unfold entityTurnCalls entityTurn
  dsimp only
  split
  · exact endPart_makes _ c
  · exact endWord_makes isCommonEnglishWord space newline _ c

theorem otherTurn_makes (c : Cursor) :
    Makes c.parser (otherTurnCalls page c) (Flow.parser (otherTurn page c)) := by
  unfold otherTurnCalls otherTurn
  dsimp only
  split
  · exact ⟨rfl, rfl, rfl, rfl, rfl⟩
  · split <;> exact ⟨rfl, rfl, rfl, rfl, rfl⟩

theorem turn_makes (c : Cursor) :
    Makes c.parser (turnCalls isCommonEnglishWord page start stop c)
      (Flow.parser (turn isCommonEnglishWord page start stop c)) := by
  unfold turnCalls turn
  dsimp only
  split
  · split
    · exact endWord_makes isCommonEnglishWord NULL_DELIM NULL_DELIM (c.p + 1) c
    · exact endWord_makes isCommonEnglishWord space newline (c.p + 1) c
  split
  · exact tagTurn_makes isCommonEnglishWord c
  split
  · exact entityTurn_makes isCommonEnglishWord c
  split
  · exact endPart_makes (c.p + 1) c
  split
  · exact endPart_makes (c.p + 3) c
  split
  · exact endSpace_makes isCommonEnglishWord space newline (c.p + 2) c
  split
  · exact otherTurn_makes c
  · exact ⟨rfl, rfl, rfl, rfl, rfl⟩

theorem parseLoop_makes (turns : Nat) (c : Cursor) :
    Makes c.parser (parseLoopCalls isCommonEnglishWord page start stop turns c)
      (parseLoop isCommonEnglishWord page start stop turns c) := by
  induction turns generalizing c with
  | zero => exact .refl _
  | succ turns ih =>
    rw [parseLoopCalls, parseLoop]
    split
    · have hturn : Makes c.parser (turnCalls isCommonEnglishWord page start stop c) _ :=
        turn_makes isCommonEnglishWord c
      cases hflow : turn isCommonEnglishWord page start stop c with
      | goOn next =>
        rw [hflow] at hturn
        exact hturn.append (ih next)
      | done h =>
        rw [hflow] at hturn
        rwa [List.append_nil]
    · exact ⟨rfl, rfl, rfl, rfl, rfl⟩

theorem parseStart_makes {h h' : HtmlParser} (hstart : parseStart page h = some (start, h')) :
    Makes h [] h' := by
  unfold parseStart at hstart
  dsimp only at hstart
  split at hstart
  · split at hstart
    · cases hstart
      exact ⟨rfl, rfl, rfl, rfl, rfl⟩
    · cases hstart
  split at hstart
  · obtain ⟨p, -, heq⟩ := Option.map_eq_some_iff.mp hstart
    cases heq
    exact ⟨rfl, rfl, rfl, rfl, rfl⟩
  · cases hstart
    exact .refl h

theorem parseBuf_makes (h : HtmlParser) :
    Makes h (parseBufCalls isCommonEnglishWord page h)
      (parseBuf isCommonEnglishWord page h).1 := by
  unfold parseBufCalls parseBuf
  cases hstart : parseStart page h with
  | none => exact .refl h
  | some begin =>
    obtain ⟨start, h'⟩ := begin
    dsimp only
    unfold parseChunkCalls parseChunk
    split
    · exact parseStart_makes hstart
    · exact (parseStart_makes hstart).append (parseLoop_makes isCommonEnglishWord
        (safeEnd page start (page.size - start) - start + 1) ⟨h', start, start, 0⟩)

end Turns

/-- The run of the parser over a page is the run of its calls. -/
theorem parseBody_makes (isCommonEnglishWord : Bytes → Bool) (page : Page) (hops domainHops : Nat)
    (link : Bytes) :
    Makes (HtmlParser.ofPage hops domainHops link).writeHeaders
      (bodyCalls isCommonEnglishWord page hops domainHops link)
      (parseBody isCommonEnglishWord page hops domainHops link) :=
  parseBuf_makes isCommonEnglishWord _

/-! ## The words of an anchor text -/

/-- An anchor word is no longer than that. -/
def Call.Within (len : Nat) : Call → Prop
  | .anchorWord str _ => str.length ≤ len
  | .word _ _ | .link _ _ => True

theorem Call.Within.mono {len len' : Nat} {call : Call} (h : call.Within len) (hle : len ≤ len') :
    call.Within len' := by
  cases call with
  | anchorWord str delim => exact Nat.le_trans h hle
  | word str delim => trivial
  | link str delim => trivial

section Within

variable {isCommonEnglishWord : Bytes → Bool} {page : Page} {start stop : Nat} {c : Cursor}

theorem slice_length (page : Page) (start len : Nat) : (page.slice start len).length = len := by
  rw [Page.slice, List.length_map, List.length_range]

theorem anchorCalls_within {len : Nat} (h : HtmlParser) {str : Bytes} (delim : UInt8)
    (hlen : str.length ≤ len) : ∀ call ∈ anchorCalls h str delim, call.Within len := by
  unfold anchorCalls
  split
  · exact List.forall_mem_singleton.mpr hlen
  · exact List.forall_mem_nil _

theorem endWordCalls_within {len : Nat} (linkDelim wordDelim : UInt8) (hp : c.p < len) :
    ∀ call ∈ endWordCalls page linkDelim wordDelim c, call.Within len := by
  unfold endWordCalls
  split
  · refine List.forall_mem_append.mpr ⟨anchorCalls_within _ _ ?_, ?_⟩
    · rw [slice_length]
      omega
    · exact List.forall_mem_singleton.mpr trivial
  · exact List.forall_mem_nil _

theorem endPartCalls_within {len : Nat} (linkDelim wordDelim : UInt8) (hp : c.p < len) :
    ∀ call ∈ endPartCalls page linkDelim wordDelim c, call.Within len := by
  unfold endPartCalls
  split
  · refine List.forall_mem_cons.mpr ⟨trivial, anchorCalls_within _ _ ?_⟩
    rw [slice_length]
    omega
  · exact List.forall_mem_nil _

theorem hrefCalls_within (len : Nat) (url href : Bytes) :
    ∀ call ∈ hrefCalls url href, call.Within len := by
  unfold hrefCalls
  split <;> exact List.forall_mem_singleton.mpr trivial

theorem anchorTagCalls_within (len : Nat) (url : Bytes) (turns p : Nat) :
    ∀ call ∈ anchorTagCalls url page stop turns p, call.Within len := by
  induction turns generalizing p with
  | zero => exact List.forall_mem_nil _
  | succ turns ih =>
    rw [anchorTagCalls]
    split
    · split
      · refine List.forall_mem_append.mpr ⟨?_, ih _⟩
        split
        · exact hrefCalls_within len url _
        · exact List.forall_mem_nil _
      · exact ih _
    · exact List.forall_mem_nil _

theorem embedTagCalls_within (len turns p : Nat) :
    ∀ call ∈ embedTagCalls page stop turns p, call.Within len := by
  induction turns generalizing p with
  | zero => exact List.forall_mem_nil _
  | succ turns ih =>
    rw [embedTagCalls]
    split
    · split
      · exact List.forall_mem_cons.mpr ⟨trivial, ih _⟩
      · exact ih _
    · exact List.forall_mem_nil _

theorem tagActionCalls_within (isClosing : Bool) (c : Cursor) (action : DesiredAction) :
    ∀ call ∈ tagActionCalls page stop isClosing c action, call.Within stop := by
  cases action with
  | ordinaryText =>
    rw [tagActionCalls]
    split
    · rename_i hbreak
      exact endWordCalls_within space newline hbreak.1
    · exact List.forall_mem_nil _
  | title => exact List.forall_mem_singleton.mpr trivial
  | anchor =>
    rw [tagActionCalls]
    split
    · exact List.forall_mem_singleton.mpr trivial
    · exact anchorTagCalls_within stop c.parser.url (stop - c.p) c.p
  | embed => exact embedTagCalls_within stop (stop - c.p) c.p
  | comment | discard | discardSection | base => exact List.forall_mem_nil _

theorem tagTurnCalls_within (hp : c.p < stop) :
    ∀ call ∈ tagTurnCalls isCommonEnglishWord page start stop c, call.Within stop := by
  unfold tagTurnCalls
  dsimp only
  generalize (if c.p + 1 < stop ∧ page.mem (c.p + 1) = 47 then c.p + 2 else c.p + 1) = tagStart
  generalize (if tagStart + 3 ≤ stop ∧ page.slice tagStart 3 = ascii "!--" then tagStart + 3
    else page.find isTagNameEnd tagStart stop) = p
  generalize lookupPossibleTag (page.ptr tagStart) (p - tagStart) = action
  split
  · refine List.forall_mem_append.mpr ⟨endWordCalls_within space newline hp, ?_⟩
    split
    · exact tagActionCalls_within _ _ action
    · exact List.forall_mem_nil _
  · exact tagActionCalls_within _ _ action

theorem turnCalls_within (hp : c.p < stop) :
    ∀ call ∈ turnCalls isCommonEnglishWord page start stop c, call.Within stop := by
  unfold turnCalls
  dsimp only
  split
  · split
    · exact endWordCalls_within NULL_DELIM NULL_DELIM hp
    · exact endWordCalls_within space newline hp
  split
  · exact tagTurnCalls_within hp
  split
  · unfold entityTurnCalls
    dsimp only
    split
    · exact endPartCalls_within NULL_DELIM NULL_DELIM hp
    · exact endWordCalls_within space newline hp
  split
  · exact endPartCalls_within NULL_DELIM NULL_DELIM hp
  split
  · exact endPartCalls_within NULL_DELIM NULL_DELIM hp
  split
  · exact endPartCalls_within space newline hp
  split
  · unfold otherTurnCalls
    split
    · exact List.forall_mem_nil _
    · split
      · exact List.forall_mem_singleton.mpr trivial
      · exact List.forall_mem_nil _
  · exact List.forall_mem_nil _

theorem parseLoopCalls_within (turns : Nat) (c : Cursor) :
    ∀ call ∈ parseLoopCalls isCommonEnglishWord page start stop turns c, call.Within stop := by
  induction turns generalizing c with
  | zero => exact List.forall_mem_nil _
  | succ turns ih =>
    rw [parseLoopCalls]
    split
    · rename_i hp
      refine List.forall_mem_append.mpr ⟨turnCalls_within hp, ?_⟩
      split
      · exact ih _
      · exact List.forall_mem_nil _
    · exact List.forall_mem_nil _

end Within

end seamus.parser_calls
