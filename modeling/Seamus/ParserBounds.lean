-- When the parser stays inside of its page. Every turn of its loop takes a byte or more, and a
-- turn leaves the page only where it looks at a tag that breaks off at the end of the page.
import Seamus.ParserTags
import Mathlib.Logic.Relation

open seamus.html_tags seamus.html faults

namespace seamus.checked_parser

variable {page : Page} {start stop p : Nat}

section English

variable {isCommonEnglishWord : Bytes → Bool}

/-! ## Turns -/

theorem entityTurn_ok {c : Cursor} (hp : c.p < stop) (hstop : stop ≤ page.size) :
    entityTurn isCommonEnglishWord page stop c =
      .ok (html.entityTurn isCommonEnglishWord page stop c) := by
  unfold entityTurn html.entityTurn
  dsimp only
  rw [find_ok _ _ hstop, ok_bind, readSlice_find _ _ hstop, ok_bind]
  generalize page.find (fun c => c = 59 || c = 60 || isspace c) (c.p + 1) stop = entityEnd
  have hended : both (.ok (entityEnd < stop)) (test page (· = 59) entityEnd) =
      .ok (decide (entityEnd < stop ∧ page.mem entityEnd = 59)) := by
    refine (both_ok rfl fun h => test_ok _ ?_).trans (congrArg Except.ok (Bool.decide_and _ _).symm)
    exact (of_decide_eq_true h).trans_le hstop
  rw [hended, ok_bind, endPart_ok _ (by omega), endWord_ok _ _ _ (by omega)]
  simp only [decide_eq_true_eq]
  split <;> rfl

theorem commaInNumber_ok (start : Nat) (hp : p < stop) (hstop : stop ≤ page.size) :
    commaInNumber page p start stop = .ok (html.commaInNumber page p start stop) := by
  have hnext : both (.ok (p + 1 < stop)) (test page isDigit (p + 1)) =
      .ok (p + 1 < stop && isDigit (page.mem (p + 1))) :=
    both_ok rfl fun h => test_ok _ ((of_decide_eq_true h).trans_le hstop)
  have hlast : both (.ok (p > start)) (test page isDigit (p - 1)) =
      .ok (p > start && isDigit (page.mem (p - 1))) :=
    both_ok rfl fun _ => test_ok _ (by omega)
  refine (both_ok (test_ok _ (by omega)) fun _ => both_ok hnext fun _ => hlast).trans ?_
  simp [html.commaInNumber, Bool.and_assoc]

theorem isUtf8Apostrophe_ok (hp : p < stop) (hstop : stop ≤ page.size) :
    isUtf8Apostrophe page p stop = .ok (html.isUtf8Apostrophe page p stop) := by
  refine (both_ok (test_ok _ (by omega)) fun _ => both_ok rfl fun h =>
    both_ok (test_ok _ ?_) fun _ => test_ok _ ?_).trans ?_
  · have := of_decide_eq_true h
    omega
  · have := of_decide_eq_true h
    omega
  · simp [html.isUtf8Apostrophe, Bool.and_assoc]

theorem isUtf8Space_ok (hp : p < stop) (hstop : stop ≤ page.size) :
    isUtf8Space page p stop = .ok (html.isUtf8Space page p stop) := by
  refine (both_ok (test_ok _ (by omega)) fun _ => both_ok rfl fun h => test_ok _ ?_).trans ?_
  · have := of_decide_eq_true h
    omega
  · simp [html.isUtf8Space, Bool.and_assoc]

theorem otherTurn_ok {c : Cursor} (hp : c.p ≤ page.size) :
    otherTurn page c = .ok (html.otherTurn page c) := by
  unfold otherTurn html.otherTurn
  dsimp only
  rw [readSlice_word hp, ok_bind]
  split_ifs <;> rfl

/-- A turn leaves the page where the tag that it looks at breaks off. -/
theorem turn_settles {c : Cursor} (hp : c.p < stop) (hstop : stop ≤ page.size) :
    Settles .outside (TurnMeets isCommonEnglishWord page start stop c)
      (turn isCommonEnglishWord page start stop c)
      (html.turn isCommonEnglishWord page start stop c) := by
  have hsize : c.p ≤ page.size := by omega
  have hread : read page c.p = .ok (page.mem c.p) := read_ok (by omega)
  by_cases hmark : page.mem c.p = 60
  · have hbreak : isWordBreakChar 60 = false := by decide
    have htag : html.turn isCommonEnglishWord page start stop c =
        html.tagTurn isCommonEnglishWord page start stop c := by
      simp [html.turn, hmark, hbreak]
    unfold turn
    rw [hread, ok_bind, htag, hmark, hbreak]
    exact tagTurn_settles hp hstop hmark
  · refine .fine (fun h => absurd h hmark) ?_
    unfold turn html.turn
    rw [hread, ok_bind, commaInNumber_ok start hp hstop, ok_bind, isUtf8Apostrophe_ok hp hstop,
      ok_bind, isUtf8Space_ok hp hstop, ok_bind, entityTurn_ok hp hstop, otherTurn_ok hsize]
    simp only [endWord_ok _ _ _ hsize, endPart_ok _ hsize, hmark, if_false]
    split_ifs <;> rfl

/-! ### Every turn takes a byte or more -/

theorem endWord_takes {linkDelim wordDelim : UInt8} {next : Nat} {c after : Cursor}
    (h : html.endWord isCommonEnglishWord page linkDelim wordDelim next c = .goOn after) :
    after.p = next := by
  unfold html.endWord at h
  dsimp only at h
  split at h
  · exact (writeWord_keeps h).1
  · cases h
    rfl

theorem endPart_takes {next : Nat} {c after : Cursor}
    (h : html.endPart page next c = .goOn after) : after.p = next := by
  unfold html.endPart at h
  dsimp only at h
  split at h <;> cases h <;> rfl

theorem le_afterTag (c : Cursor) (stop p : Nat) : p ≤ (c.afterTag stop p).p := by
  unfold Cursor.afterTag
  split
  · exact Nat.le_succ p
  · exact le_rfl

theorem le_skipTag {c : Cursor} (h : p ≤ c.p) : p ≤ (c.skipTag page stop).p :=
  h.trans ((le_find page _ _ _).trans (le_afterTag c stop _))

theorem le_linkLoop {a : Attribute} {take : HtmlParser → Nat → Nat → HtmlParser} (turns : Nat)
    (h : HtmlParser) (p : Nat) : p ≤ (linkLoop page stop a take turns h p).2 := by
  induction turns generalizing h p with
  | zero => exact le_rfl
  | succ turns ih =>
    by_cases hin : p < stop ∧ page.mem p ≠ 62
    · by_cases hat : a.isAt page p = true
      · rw [linkLoop_at turns h hin hat]
        have := le_find page (· = 34) (p + a.len) stop
        exact le_trans (by omega) (ih _ _)
      · rw [linkLoop_past turns h hin hat]
        exact (Nat.le_succ p).trans (ih h (p + 1))
    · rw [linkLoop_end _ h hin]

theorem le_sectionEnd {tagStart len q : Nat} (turns p : Nat)
    (h : html.sectionEnd page stop tagStart len turns p = some q) : p ≤ q := by
  induction turns generalizing p with
  | zero => cases h
  | succ turns ih =>
    unfold html.sectionEnd at h
    dsimp only at h
    rw [← closeMark, ← closeEnd] at h
    have hmark : p ≤ closeMark page stop p := le_advance _ _ _
    have hend : closeMark page stop p + 2 ≤ closeEnd page stop (closeMark page stop p + 2) :=
      le_find page _ _ _
    split_ifs at h
    · cases h
      omega
    · have := ih _ h
      omega

theorem tagAction_takes {tagStart len : Nat} {isClosing : Bool} {c after : Cursor}
    {action : DesiredAction}
    (h : html.tagAction isCommonEnglishWord page stop tagStart len isClosing c action =
      .goOn after) : c.p ≤ after.p := by
  cases action with
  | ordinaryText =>
    unfold html.tagAction at h
    dsimp only at h
    split_ifs at h
    · have := endWord_takes h
      omega
    · cases h
      exact Nat.le_succ c.p
    · cases h
      exact le_rfl
  | title =>
    cases h
    rw [titleTag_eq]
    exact le_skipTag le_rfl
  | comment =>
    unfold html.tagAction at h
    dsimp only at h
    split_ifs at h
    cases h
    have := le_advance (html.isCommentEnd page) (stop - 2 - c.p) c.p
    dsimp only
    omega
  | discard =>
    cases h
    exact le_skipTag le_rfl
  | discardSection =>
    unfold html.tagAction at h
    dsimp only at h
    split at h
    · cases h
      exact le_skipTag le_rfl
    · cases hfound : html.sectionEnd page stop tagStart len (stop - c.p + 1) c.p with
      | none =>
        rw [hfound] at h
        cases h
      | some q =>
        rw [hfound] at h
        cases h
        exact le_skipTag (le_sectionEnd _ _ hfound)
  | anchor =>
    unfold html.tagAction at h
    dsimp only at h
    split_ifs at h
    · cases h
      exact le_skipTag le_rfl
    · cases h
      rw [anchorTag_eq]
      exact (le_linkLoop _ _ _).trans (le_afterTag _ stop _)
  | base =>
    unfold html.tagAction at h
    dsimp only at h
    split_ifs at h
    · cases h
      exact le_skipTag le_rfl
    · cases h
      rw [baseTag_eq]
      exact (le_linkLoop _ _ _).trans (le_afterTag _ stop _)
  | embed =>
    cases h
    rw [embedTag_eq]
    exact (le_linkLoop _ _ _).trans (le_afterTag _ stop _)

theorem tagTurn_takes {c after : Cursor}
    (h : html.tagTurn isCommonEnglishWord page start stop c = .goOn after) : c.p < after.p := by
  have hname : c.p < tagEnd page stop c.p := lt_tagStart.trans_le tagStart_le_tagEnd
  rw [tagTurn_eq] at h
  split_ifs at h
  · cases hwrite : writeWord isCommonEnglishWord (page.slice c.wordStart (c.p - c.wordStart)) space
      newline { c with p := tagEnd page stop c.p } with
    | done h' =>
      rw [hwrite] at h
      cases h
    | goOn next =>
      rw [hwrite] at h
      have hnext : next.p = tagEnd page stop c.p := (writeWord_keeps hwrite).1
      have := tagAction_takes h
      omega
  · exact hname.trans_le (tagAction_takes h)

theorem turn_takes {c after : Cursor}
    (h : html.turn isCommonEnglishWord page start stop c = .goOn after) : c.p < after.p := by
  unfold html.turn at h
  dsimp only at h
  split_ifs at h
  · have := endWord_takes h
    omega
  · have := endWord_takes h
    omega
  · exact tagTurn_takes h
  · have hnext := le_find page (fun c => c = 59 || c = 60 || isspace c) (c.p + 1) stop
    unfold html.entityTurn at h
    dsimp only at h
    generalize page.find (fun c => c = 59 || c = 60 || isspace c) (c.p + 1) stop = entityEnd
      at h hnext
    split at h
    · have := endPart_takes h
      split at this <;> omega
    · have := endWord_takes h
      split at this <;> omega
  · have := endPart_takes h
    omega
  · have := endPart_takes h
    omega
  · have := endWord_takes h
    omega
  · unfold html.otherTurn at h
    dsimp only at h
    split_ifs at h <;> cases h <;> exact Nat.lt_succ_self c.p
  · cases h
    exact Nat.lt_succ_self c.p

/-! ## Runs -/

/-- One turn of the loop leads from the one cursor to the other. -/
def Turns (isCommonEnglishWord : Bytes → Bool) (page : Page) (start stop : Nat)
    (c after : Cursor) : Prop :=
  c.p < stop ∧ html.turn isCommonEnglishWord page start stop c = .goOn after

/-- No turn that the loop comes to from `c` on looks at a tag that breaks off. -/
def LoopMeets (isCommonEnglishWord : Bytes → Bool) (page : Page) (start stop : Nat)
    (c : Cursor) : Prop :=
  ∀ c', Relation.ReflTransGen (Turns isCommonEnglishWord page start stop) c c' → c'.p < stop →
    TurnMeets isCommonEnglishWord page start stop c'

theorem loopMeets_end {c : Cursor} (h : ¬c.p < stop) :
    LoopMeets isCommonEnglishWord page start stop c := by
  intro c' hreach hp
  rcases Relation.ReflTransGen.cases_head hreach with rfl | ⟨next, hturn, _⟩
  · exact absurd hp h
  · exact absurd hturn.1 h

theorem loopMeets_done {c : Cursor} {h : HtmlParser} (hp : c.p < stop)
    (hturn : html.turn isCommonEnglishWord page start stop c = .done h) :
    LoopMeets isCommonEnglishWord page start stop c ↔
      TurnMeets isCommonEnglishWord page start stop c := by
  constructor
  · intro hmeets
    exact hmeets c .refl hp
  · intro hhere c' hreach _
    rcases Relation.ReflTransGen.cases_head hreach with rfl | ⟨next, hnext, _⟩
    · exact hhere
    · rw [hnext.2] at hturn
      cases hturn

theorem loopMeets_goOn {c next : Cursor} (hp : c.p < stop)
    (hturn : html.turn isCommonEnglishWord page start stop c = .goOn next) :
    LoopMeets isCommonEnglishWord page start stop c ↔
      TurnMeets isCommonEnglishWord page start stop c ∧
        LoopMeets isCommonEnglishWord page start stop next := by
  constructor
  · intro hmeets
    exact ⟨hmeets c .refl hp, fun c' hreach => hmeets c' (.head ⟨hp, hturn⟩ hreach)⟩
  · rintro ⟨hhere, hlater⟩ c' hreach hp'
    rcases Relation.ReflTransGen.cases_head hreach with rfl | ⟨next', hnext, hrest⟩
    · exact hhere
    · obtain rfl : next = next' := by
        have := hturn.symm.trans hnext.2
        cases this
        rfl
      exact hlater c' hrest hp'

/-- The loop ends, and leaves the page where one of its turns does. -/
theorem parseLoop_settles (hstop : stop ≤ page.size) (turns : Nat) (c : Cursor)
    (hturns : stop - c.p < turns) :
    Settles .outside (LoopMeets isCommonEnglishWord page start stop c)
      (parseLoop isCommonEnglishWord page start stop turns c)
      (html.parseLoop isCommonEnglishWord page start stop turns c) := by
  induction turns generalizing c with
  | zero => omega
  | succ turns ih =>
    unfold parseLoop html.parseLoop
    by_cases hp : c.p < stop
    · rw [if_pos hp, if_pos hp]
      have hhere : Settles Fault.outside (TurnMeets isCommonEnglishWord page start stop c) _ _ :=
        turn_settles hp hstop
      cases hturn : html.turn isCommonEnglishWord page start stop c with
      | done h =>
        rw [hturn] at hhere
        apply Settles.congr ?_ (loopMeets_done hp hturn).symm
        apply hhere.bind_ok
        exact fun _ => rfl
      | goOn next =>
        have htakes : c.p < next.p := turn_takes hturn
        rw [hturn] at hhere
        apply Settles.congr ?_ (loopMeets_goOn hp hturn).symm
        apply hhere.bind
        exact fun _ => ih next (by omega)
    · rw [if_neg hp, if_neg hp]
      exact .fine (loopMeets_end hp) rfl

def ChunkMeets (isCommonEnglishWord : Bytes → Bool) (page : Page) (start stop : Nat)
    (h : HtmlParser) : Prop :=
  LoopMeets isCommonEnglishWord page start stop ⟨h, start, start, 0⟩

theorem parseChunk_settles (hstop : stop ≤ page.size) (start : Nat) (h : HtmlParser) :
    Settles .outside (ChunkMeets isCommonEnglishWord page start stop h)
      (parseChunk isCommonEnglishWord page start stop h)
      (html.parseChunk isCommonEnglishWord page start stop h) := by
  unfold parseChunk html.parseChunk
  by_cases hempty : stop ≤ start
  · rw [if_pos hempty, if_pos hempty]
    exact .fine (loopMeets_end (by dsimp only; omega)) rfl
  · rw [if_neg hempty, if_neg hempty]
    exact parseLoop_settles hstop _ _ (Nat.lt_succ_self _)

/-! ### Pages -/

theorem safeEnd_ok (turns : Nat) (h : start + turns ≤ page.size) :
    safeEnd page start turns = .ok (html.safeEnd page start turns) := by
  induction turns with
  | zero => rfl
  | succ turns ih =>
    have hread : read page (start + turns + 1 - 1) = .ok (page.mem (start + turns + 1 - 1)) :=
      read_ok (by omega)
    unfold safeEnd html.safeEnd
    dsimp only
    rw [hread, ok_bind, ih (by omega)]
    split <;> rfl

theorem safeEnd_le (turns : Nat) (h : start + turns ≤ page.size) :
    html.safeEnd page start turns ≤ page.size := by
  induction turns with
  | zero => exact le_rfl
  | succ turns ih =>
    unfold html.safeEnd
    dsimp only
    split
    · omega
    · exact ih (by omega)

theorem resumeDiscard_ok (tag : Bytes) (turns p : Nat) (hturns : p + turns = page.size) :
    resumeDiscard page tag (turns + 1) p = .ok (html.resumeDiscard page tag turns p) := by
  induction turns generalizing p with
  | zero =>
    unfold resumeDiscard
    rw [if_neg (by omega)]
    rfl
  | succ turns ih =>
    have hmark : both (test page (· = 60) p)
        (both (.ok (p + 1 < page.size)) (test page (· = 47) (p + 1))) =
        .ok (decide (p + 1 < page.size ∧ html.isCloseMark page p = true)) := by
      refine (both_ok (test_ok _ (by omega)) fun _ => both_ok rfl fun h => test_ok _ ?_).trans ?_
      · exact of_decide_eq_true h
      · simp [html.isCloseMark, Bool.and_left_comm]
    unfold resumeDiscard html.resumeDiscard
    rw [if_pos (by omega), hmark, ok_bind, ih (p + 1) (by omega)]
    dsimp only
    rw [find_ok _ _ le_rfl, ok_bind, find_ok _ _ le_rfl]
    have hafter := le_find page (fun c => c = 62 || isspace c) (p + 2) page.size
    generalize page.find (fun c => c = 62 || isspace c) (p + 2) page.size = nameEnd at hafter ⊢
    by_cases hclose : p + 1 < page.size ∧ html.isCloseMark page p = true
    · have htag : both (.ok (nameEnd < page.size ∧ nameEnd - (p + 2) = tag.length))
          (sameCase (readFrom page (p + 2)) (fun i => .ok (tag.getD i 0)) tag.length) =
          .ok (decide ((nameEnd < page.size ∧ nameEnd - (p + 2) = tag.length) ∧
            html_tags.strncasecmp (page.ptr (p + 2)) (fun i => tag.getD i 0) tag.length = .eq)) := by
        refine (both_ok rfl fun h => ?_).trans (congrArg Except.ok (Bool.decide_and _ _).symm)
        have hlen := of_decide_eq_true h
        have hname : ∀ i < tag.length, readFrom page (p + 2) i = .ok (page.ptr (p + 2) i) :=
          fun i hi => read_ok (by omega)
        unfold sameCase
        rw [strncasecmp_ok hname fun _ _ => rfl]
        rfl
      rw [if_pos (by simpa using hclose), htag, ok_bind, ok_bind]
      simp only [decide_eq_true_eq]
      by_cases hends : (nameEnd < page.size ∧ nameEnd - (p + 2) = tag.length) ∧
          html_tags.strncasecmp (page.ptr (p + 2)) (fun i => tag.getD i 0) tag.length = .eq
      · rw [if_pos hends, if_pos ⟨hclose.1, hclose.2, hends.1.1, hends.1.2, hends.2⟩]
        rfl
      · rw [if_neg hends, if_neg fun h => hends ⟨⟨h.2.2.1, h.2.2.2.1⟩, h.2.2.2.2⟩]
    · rw [if_neg (by simpa using hclose), if_neg fun h => hclose ⟨h.1, h.2.1⟩]

theorem resumeDiscard_le {tag : Bytes} {q : Nat} (turns p : Nat)
    (h : html.resumeDiscard page tag turns p = some q) : q ≤ page.size := by
  induction turns generalizing p with
  | zero => cases h
  | succ turns ih =>
    unfold html.resumeDiscard at h
    dsimp only at h
    split at h
    · cases h
      exact Nat.min_le_right _ _
    · exact ih (p + 1) h

theorem parseStart_ok (page : Page) (h : HtmlParser) :
    parseStart page h = .ok (html.parseStart page h) := by
  have hscan : scan (isCommentEnd page) 2 page.size (page.size + 1) 0 =
      .ok (html.advance (html.isCommentEnd page) (page.size - 2) 0) :=
    scan_ok (fun q hq => isCommentEnd_ok hq) (Nat.lt_succ_self _)
  unfold parseStart html.parseStart
  rw [hscan, resumeDiscard_ok h.discardTag page.size 0 (Nat.zero_add _)]
  simp only [ok_bind]
  split_ifs <;> rfl

theorem parseStart_le {h h' : HtmlParser} (hstart : html.parseStart page h = some (start, h')) :
    start ≤ page.size := by
  unfold html.parseStart at hstart
  dsimp only at hstart
  split_ifs at hstart
  · cases hstart
    omega
  · obtain ⟨q, hq, hpair⟩ := Option.map_eq_some_iff.mp hstart
    cases hpair
    exact resumeDiscard_le _ _ hq
  · cases hstart
    exact Nat.zero_le _

/-- No turn on the part of the page that `parse_buf` parses looks at a tag that breaks off. -/
def BufMeets (isCommonEnglishWord : Bytes → Bool) (page : Page) (h : HtmlParser) : Prop :=
  ∀ start h', html.parseStart page h = some (start, h') →
    ChunkMeets isCommonEnglishWord page start (html.safeEnd page start (page.size - start)) h'

theorem parseBuf_settles (page : Page) (h : HtmlParser) :
    Settles .outside (BufMeets isCommonEnglishWord page h) (parseBuf isCommonEnglishWord page h)
      (html.parseBuf isCommonEnglishWord page h) := by
  unfold parseBuf html.parseBuf
  rw [parseStart_ok, ok_bind]
  cases hstart : html.parseStart page h with
  | none => exact .fine (fun start h' hsome => by rw [hstart] at hsome; cases hsome) rfl
  | some found =>
    obtain ⟨start, h'⟩ := found
    have hle : start ≤ page.size := parseStart_le hstart
    have hstop : html.safeEnd page start (page.size - start) ≤ page.size :=
      safeEnd_le _ (by omega)
    have hmeets : BufMeets isCommonEnglishWord page h ↔
        ChunkMeets isCommonEnglishWord page start
          (html.safeEnd page start (page.size - start)) h' := by
      constructor
      · intro hall
        exact hall start h' hstart
      · intro hchunk start' h'' hsome
        rw [hstart] at hsome
        cases hsome
        exact hchunk
    dsimp only
    rw [safeEnd_ok _ (by omega), ok_bind]
    refine Settles.congr ?_ hmeets.symm
    apply (parseChunk_settles hstop start h').bind_ok
    exact fun _ => rfl

/-- The parser always comes to an end, and all that it reads is inside of its page unless it
looks at a tag that breaks off where it compares. -/
theorem parser_stays_inside_iff (isCommonEnglishWord : Bytes → Bool) (page : Page) (h : HtmlParser) :
    (((∃ result, parseBuf isCommonEnglishWord page h = .ok result) ↔
          BufMeets isCommonEnglishWord page h) ∧
        parseBuf isCommonEnglishWord page h ≠ .error .unended) ∧
      (((∃ result, parseChunk isCommonEnglishWord page 0 page.size h = .ok result) ↔
          ChunkMeets isCommonEnglishWord page 0 page.size h) ∧
        parseChunk isCommonEnglishWord page 0 page.size h ≠ .error .unended) := by
  have hbuf : Settles Fault.outside (BufMeets isCommonEnglishWord page h) _ _ :=
    parseBuf_settles page h
  have hchunk : Settles Fault.outside (ChunkMeets isCommonEnglishWord page 0 page.size h) _ _ :=
    parseChunk_settles le_rfl 0 h
  exact ⟨⟨hbuf.ok_iff, hbuf.ne_error (by decide)⟩, hchunk.ok_iff, hchunk.ne_error (by decide)⟩

/-- A page that ends within the name of an attribute, with nothing to stop the comparison. -/
theorem cut_tag_leaves_page :
    parseBuf (fun _ => true) (pageOf (ascii "<a h") [])
        (HtmlParser.ofPage 0 0 (ascii "http://a.b/")) = .error .outside ∧
      parseChunk (fun _ => true) (pageOf (ascii "<a h") []) 0 4
        (HtmlParser.ofPage 0 0 (ascii "http://a.b/")) = .error .outside := by
  decide +kernel

end English

end seamus.checked_parser
