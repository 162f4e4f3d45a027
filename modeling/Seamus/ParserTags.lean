-- The tags of a page, read within its bounds. Two comparisons may leave the page: the one with
-- the name of an attribute, and the one with the name of the tag that a discarded section began
-- with.
import Seamus.ParserReads
import Seamus.WordSeparation

open seamus.html_tags seamus.html seamus.word_separation faults

namespace seamus.checked_parser

variable {page : Page} {start stop p : Nat}

/-! ## Tags with a link -/

/-- What a place in a tag is compared with, and what else is asked of it. -/
structure Attribute where
  word : String
  isIt : Page → Nat → Bool

def Attribute.len (a : Attribute) : Nat := (ascii a.word).length

def href : Attribute := ⟨"href=\"", fun page p => isspace (page.mem (p - 1))⟩

def baseHref : Attribute := ⟨"href=\"", fun _ _ => true⟩

def src : Attribute := ⟨"src=\"", fun _ _ => true⟩

/-- The attribute begins at `p`. -/
def Attribute.isAt (a : Attribute) (page : Page) (p : Nat) : Bool :=
  html_tags.strncasecmp (page.ptr p) (literal a.word) a.len = .eq && a.isIt page p

/-- The place after `p`: the quote that ends the value where the attribute begins at `p`. -/
def Attribute.after (a : Attribute) (page : Page) (stop p : Nat) : Nat :=
  if a.isAt page p then page.find (· = 34) (p + a.len) stop else p + 1

/-- The places from `p` on to the end of the tag, without those in a value of the attribute. -/
inductive Attribute.Place (a : Attribute) (page : Page) (stop : Nat) : Nat → Nat → Prop
  | here {p : Nat} (hp : p < stop) (hin : page.mem p ≠ 62) : Place a page stop p p
  | later {p q : Nat} (hp : p < stop) (hin : page.mem p ≠ 62)
      (hq : Place a page stop (a.after page stop p) q) : Place a page stop p q

/-- The tag does not break off in the word before a value. -/
def Attribute.Meets (a : Attribute) (page : Page) (stop p : Nat) : Prop :=
  ∀ q, a.Place page stop p q → ¬CutOff page q (literal a.word) a.len

theorem Attribute.meets_step {a : Attribute} (hp : p < stop) (hin : page.mem p ≠ 62) :
    a.Meets page stop p ↔
      ¬CutOff page p (literal a.word) a.len ∧ a.Meets page stop (a.after page stop p) := by
  constructor
  · intro h
    exact ⟨h p (.here hp hin), fun q hq => h q (.later hp hin hq)⟩
  · rintro ⟨hhere, hlater⟩ q hq
    cases hq with
    | here => exact hhere
    | later _ _ hq => exact hlater q hq

theorem Attribute.meets_end {a : Attribute} (h : ¬(p < stop ∧ page.mem p ≠ 62)) :
    a.Meets page stop p := by
  intro q hq
  cases hq with
  | here hp hin => exact absurd ⟨hp, hin⟩ h
  | later hp hin _ => exact absurd ⟨hp, hin⟩ h

/-- The loop over a tag without the bounds of the page. -/
def linkLoop (page : Page) (stop : Nat) (a : Attribute)
    (take : HtmlParser → Nat → Nat → HtmlParser) : Nat → HtmlParser → Nat → HtmlParser × Nat
  | 0, h, p => (h, p)
  | turns + 1, h, p =>
    if p < stop ∧ page.mem p ≠ 62 then
      linkLoop page stop a take turns
        (if a.isAt page p then take h (p + a.len) (a.after page stop p) else h)
        (a.after page stop p)
    else (h, p)

def hrefTaken (page : Page) (stop : Nat) (h : HtmlParser) (start p : Nat) : HtmlParser :=
  if p ≠ stop ∧ start < p then { h.pushHref (page.slice start (p - start)) with inA := true }
  else h

def baseTaken (h : HtmlParser) (start p : Nat) : HtmlParser :=
  if p - start < MAX_BASE_LEN then { h with baseFound := true } else h

def srcTaken (page : Page) (h : HtmlParser) (start p : Nat) : HtmlParser :=
  h.pushLink (page.slice start (p - start)) newline

section Loops

variable {a : Attribute} {take : HtmlParser → Nat → Nat → HtmlParser}

theorem linkLoop_end (turns : Nat) (h : HtmlParser) (hend : ¬(p < stop ∧ page.mem p ≠ 62)) :
    linkLoop page stop a take turns h p = (h, p) := by
  cases turns with
  | zero => rfl
  | succ turns => exact if_neg hend

theorem linkLoop_at (turns : Nat) (h : HtmlParser) (hin : p < stop ∧ page.mem p ≠ 62)
    (hat : a.isAt page p = true) :
    linkLoop page stop a take (turns + 1) h p =
      linkLoop page stop a take turns
        (take h (p + a.len) (page.find (· = 34) (p + a.len) stop))
        (page.find (· = 34) (p + a.len) stop) := by
  simp [linkLoop, hin, hat, Attribute.after]

theorem linkLoop_past (turns : Nat) (h : HtmlParser) (hin : p < stop ∧ page.mem p ≠ 62)
    (hat : ¬a.isAt page p = true) :
    linkLoop page stop a take (turns + 1) h p = linkLoop page stop a take turns h (p + 1) := by
  simp [linkLoop, hin, hat, Attribute.after]

end Loops

theorem href_isAt : href.isAt page p = true ↔
    html_tags.strncasecmp (page.ptr p) (literal "href=\"") 6 = .eq ∧ isspace (page.mem (p - 1)) := by
  simp [Attribute.isAt, href, Attribute.len, ascii]

theorem baseHref_isAt : baseHref.isAt page p = true ↔
    html_tags.strncasecmp (page.ptr p) (literal "href=\"") 6 = .eq := by
  simp [Attribute.isAt, baseHref, Attribute.len, ascii]

theorem src_isAt : src.isAt page p = true ↔
    html_tags.strncasecmp (page.ptr p) (literal "src=\"") 5 = .eq := by
  simp [Attribute.isAt, src, Attribute.len, ascii]

/-- A loop with the turns of `linkLoop` is that loop. -/
theorem eq_linkLoop {a : Attribute} {take : HtmlParser → Nat → Nat → HtmlParser}
    {loop : Nat → HtmlParser → Nat → HtmlParser × Nat} (hzero : ∀ h p, loop 0 h p = (h, p))
    (hsucc : ∀ turns h p, loop (turns + 1) h p =
      if p < stop ∧ page.mem p ≠ 62 then
        if a.isAt page p = true then
          loop turns (take h (p + a.len) (page.find (· = 34) (p + a.len) stop))
            (page.find (· = 34) (p + a.len) stop)
        else loop turns h (p + 1)
      else (h, p))
    (turns : Nat) (h : HtmlParser) (p : Nat) :
    loop turns h p = linkLoop page stop a take turns h p := by
  induction turns generalizing h p with
  | zero => exact hzero h p
  | succ turns ih =>
    rw [hsucc]
    by_cases hin : p < stop ∧ page.mem p ≠ 62
    · rw [if_pos hin]
      by_cases hat : a.isAt page p = true
      · rw [if_pos hat, linkLoop_at turns h hin hat, ih]
      · rw [if_neg hat, linkLoop_past turns h hin hat, ih]
    · rw [if_neg hin, linkLoop_end _ h hin]

theorem anchorTag_eq (turns : Nat) (h : HtmlParser) (p : Nat) :
    html.anchorTag page stop turns h p =
      linkLoop page stop href (hrefTaken page stop) turns h p := by
  apply eq_linkLoop
  · intro h p
    rfl
  · intro turns h p
    simp only [href_isAt]
    rfl

theorem baseTag_eq (turns : Nat) (h : HtmlParser) (p : Nat) :
    html.baseTag page stop turns h p = linkLoop page stop baseHref baseTaken turns h p := by
  apply eq_linkLoop
  · intro h p
    rfl
  · intro turns h p
    simp only [baseHref_isAt]
    rfl

theorem embedTag_eq (turns : Nat) (h : HtmlParser) (p : Nat) :
    html.embedTag page stop turns h p = linkLoop page stop src (srcTaken page) turns h p := by
  apply eq_linkLoop
  · intro h p
    rfl
  · intro turns h p
    simp only [src_isAt]
    rfl

theorem readSlice_find (isIt : UInt8 → Bool) (start : Nat) (hstop : stop ≤ page.size) :
    readSlice page start (page.find isIt start stop - start) =
      .ok (page.slice start (page.find isIt start stop - start)) := by
  apply readSlice_ok
  rcases Nat.le_total start stop with hle | hge
  · have := le_find page isIt start stop
    have := find_le page isIt hle
    omega
  · have hnone : stop - start = 0 := by omega
    left
    unfold Page.find
    rw [hnone]
    exact Nat.sub_self start

/-- The loop over a tag leaves the page where the tag breaks off in the word. -/
theorem linkTag_settles {a : Attribute} {isIt : Nat → Checked Bool}
    {take : HtmlParser → Nat → Nat → Checked HtmlParser}
    {taken : HtmlParser → Nat → Nat → HtmlParser} (hstop : stop ≤ page.size) (hlen : 0 < a.len)
    (hisIt : ∀ q < stop, isIt q = .ok (a.isIt page q))
    (htake : ∀ h start, take h start (page.find (· = 34) start stop) =
      .ok (taken h start (page.find (· = 34) start stop)))
    (turns : Nat) (h : HtmlParser) (p : Nat) (hturns : stop - p ≤ turns) :
    Settles .outside (a.Meets page stop p) (linkTag page stop a.word isIt take (turns + 1) h p)
      (linkLoop page stop a taken turns h p) := by
  induction turns generalizing h p with
  | zero =>
    have hp : ¬p < stop := by omega
    exact .fine (Attribute.meets_end fun hin => hp hin.1) (if_neg hp)
  | succ turns ih =>
    by_cases hp : p < stop
    · have hread : read page p = .ok (page.mem p) := read_ok (by omega)
      unfold linkTag
      rw [if_pos hp, hread, ok_bind]
      by_cases hclose : page.mem p = 62
      · have hend : ¬(p < stop ∧ page.mem p ≠ 62) := fun hin => hin.2 hclose
        rw [if_pos hclose, linkLoop_end _ h hend]
        exact .fine (Attribute.meets_end hend) rfl
      · rw [if_neg hclose]
        have hcompare : Settles .outside (¬CutOff page p (literal a.word) a.len)
            (both (sameCase (readFrom page p) (fun i => .ok (literal a.word i)) a.len) (isIt p))
            (a.isAt page p) :=
          (sameCase_settles (by omega) fun _ _ => rfl).bind_ok fun _ =>
            both_ok rfl fun _ => hisIt p hp
        refine (hcompare.bind (Q := a.Meets page stop (a.after page stop p)) fun _ => ?_).congr
          (Attribute.meets_step hp hclose).symm
        -- the next place is further on, so the turns suffice
        by_cases hat : a.isAt page p = true
        · have hafter := le_find page (· = 34) (p + a.len) stop
          have hfind : find page (· = 34) (p + (ascii a.word).length) stop =
              .ok (page.find (· = 34) (p + a.len) stop) := find_ok _ _ hstop
          rw [if_pos hat, linkLoop_at turns h ⟨hp, hclose⟩ hat, Attribute.after, if_pos hat]
          dsimp only
          rw [hfind, ok_bind, ← Attribute.len, htake, ok_bind]
          exact ih _ _ (by omega)
        · rw [if_neg hat, linkLoop_past turns h ⟨hp, hclose⟩ hat, Attribute.after, if_neg hat]
          exact ih h (p + 1) (by omega)
    · unfold linkTag
      rw [if_neg hp, linkLoop_end _ h fun hin => hp hin.1]
      exact .fine (Attribute.meets_end fun hin => hp hin.1) rfl

theorem anchorTag_settles (hstop : stop ≤ page.size) (h : HtmlParser) (p : Nat) :
    Settles .outside (href.Meets page stop p) (anchorTag page stop (stop - p + 1) h p)
      (html.anchorTag page stop (stop - p) h p) := by
  rw [anchorTag_eq]
  refine linkTag_settles hstop (by decide) (fun q hq => test_ok _ (by omega)) ?_ _ _ _ le_rfl
  intro h start
  unfold takeHref hrefTaken
  rw [readSlice_find _ _ hstop]
  split <;> rfl

theorem baseTag_settles (hstop : stop ≤ page.size) (h : HtmlParser) (p : Nat) :
    Settles .outside (baseHref.Meets page stop p) (baseTag page stop (stop - p + 1) h p)
      (html.baseTag page stop (stop - p) h p) := by
  rw [baseTag_eq]
  refine linkTag_settles hstop (by decide) (fun _ _ => rfl) ?_ _ _ _ le_rfl
  intro h start
  unfold takeBase baseTaken
  rw [readSlice_find _ _ hstop]
  split <;> rfl

theorem embedTag_settles (hstop : stop ≤ page.size) (h : HtmlParser) (p : Nat) :
    Settles .outside (src.Meets page stop p) (embedTag page stop (stop - p + 1) h p)
      (html.embedTag page stop (stop - p) h p) := by
  rw [embedTag_eq]
  refine linkTag_settles hstop (by decide) (fun _ _ => rfl) ?_ _ _ _ le_rfl
  intro h start
  unfold takeSrc
  rw [readSlice_find _ _ hstop]
  rfl

/-! ## Discarded sections -/

section Discard

variable {tagStart len : Nat}

/-- Where the search for a `</` from `p` on ends. -/
def closeMark (page : Page) (stop p : Nat) : Nat :=
  html.advance (html.isCloseMark page) (stop - 1 - p) p

def closeEnd (page : Page) (stop p : Nat) : Nat := page.find (fun c => isspace c || c = 62) p stop

/-- The name at `p` is that of the tag that the section began with. -/
def IsSectionTag (page : Page) (tagStart len p : Nat) : Prop :=
  html_tags.strncasecmp (page.ptr p) (page.ptr tagStart) len = .eq

/-- The places from `p` on after a `</`, up to the one that ends the section. -/
inductive ClosePlace (page : Page) (stop tagStart len : Nat) : Nat → Nat → Prop
  | here {p : Nat} (hp : closeMark page stop p + 1 < stop) :
      ClosePlace page stop tagStart len p (closeMark page stop p + 2)
  | later {p q : Nat} (hp : closeMark page stop p + 1 < stop)
      (hother : ¬IsSectionTag page tagStart len (closeMark page stop p + 2))
      (hq : ClosePlace page stop tagStart len (closeEnd page stop (closeMark page stop p + 2)) q) :
      ClosePlace page stop tagStart len p q

/-- The page does not break off in the name of a closing tag that begins like the section's. -/
def SectionMeets (page : Page) (stop tagStart len p : Nat) : Prop :=
  ∀ q, ClosePlace page stop tagStart len p q → ¬CutOff page q (page.ptr tagStart) len

theorem sectionMeets_end (h : ¬closeMark page stop p + 1 < stop) :
    SectionMeets page stop tagStart len p := by
  intro q hq
  cases hq with
  | here hp => exact absurd hp h
  | later hp _ _ => exact absurd hp h

theorem sectionMeets_step (hp : closeMark page stop p + 1 < stop) :
    SectionMeets page stop tagStart len p ↔
      ¬CutOff page (closeMark page stop p + 2) (page.ptr tagStart) len ∧
        (¬IsSectionTag page tagStart len (closeMark page stop p + 2) →
          SectionMeets page stop tagStart len (closeEnd page stop (closeMark page stop p + 2))) := by
  constructor
  · intro h
    exact ⟨h _ (.here hp), fun hother q hq => h q (.later hp hother hq)⟩
  · rintro ⟨hhere, hlater⟩ q hq
    cases hq with
    | here => exact hhere
    | later _ hother hq => exact hlater hother q hq

/-- The search for the end of a section leaves the page where a closing tag breaks off. -/
theorem sectionEnd_settles (hstop : stop ≤ page.size) (htag : tagStart + len ≤ page.size)
    (turns p : Nat) (hturns : stop - p < turns) :
    Settles .outside (SectionMeets page stop tagStart len p)
      (sectionEnd page stop tagStart len turns p)
      (html.sectionEnd page stop tagStart len turns p) := by
  induction turns generalizing p with
  | zero => omega
  | succ turns ih =>
    have hscan : scan (isCloseMark page) 1 stop (stop - p + 1) p = .ok (closeMark page stop p) :=
      scan_ok (fun q hq => isCloseMark_ok (by omega)) (Nat.lt_succ_self _)
    have hfrom : p ≤ closeMark page stop p := le_advance _ _ _
    unfold sectionEnd html.sectionEnd
    rw [hscan, ok_bind]
    dsimp only
    rw [← closeMark]
    by_cases hp : closeMark page stop p + 1 < stop
    · have hend : find page (fun c => isspace c || c = 62) (closeMark page stop p + 2) stop =
          .ok (closeEnd page stop (closeMark page stop p + 2)) := find_ok _ _ hstop
      have hafter : closeMark page stop p + 2 ≤ closeEnd page stop (closeMark page stop p + 2) :=
        le_find page _ _ _
      have hname : ∀ i < len, readFrom page tagStart i = .ok (page.ptr tagStart i) :=
        fun i hi => read_ok (by omega)
      rw [if_neg (by omega), if_neg (by omega), hend, ok_bind, ← closeEnd]
      refine ((sameCase_settles (by omega) hname).bind fun _ => ?_).congr
        (sectionMeets_step hp).symm
      by_cases htagAt : IsSectionTag page tagStart len (closeMark page stop p + 2)
      · have heq := htagAt
        unfold IsSectionTag at heq
        rw [if_pos heq, decide_eq_true heq]
        exact .fine (fun hother => absurd htagAt hother) rfl
      · have hne := htagAt
        unfold IsSectionTag at hne
        rw [if_neg hne, decide_eq_false hne]
        exact (ih _ (by omega)).congr (imp_iff_right htagAt).symm
    · rw [if_pos (by omega), if_pos (by omega)]
      exact .fine (sectionMeets_end hp) rfl

end Discard

/-! ## Words -/

section English

variable {isCommonEnglishWord : Bytes → Bool}

theorem readSlice_word {c : Cursor} (h : c.p ≤ page.size) :
    readSlice page c.wordStart (c.p - c.wordStart) =
      .ok (page.slice c.wordStart (c.p - c.wordStart)) :=
  readSlice_ok (by omega)

theorem endWord_ok (linkDelim wordDelim : UInt8) (next : Nat) {c : Cursor} (h : c.p ≤ page.size) :
    endWord isCommonEnglishWord page linkDelim wordDelim next c =
      .ok (html.endWord isCommonEnglishWord page linkDelim wordDelim next c) := by
  unfold endWord html.endWord
  dsimp only
  rw [readSlice_word h]
  split <;> rfl

theorem endPart_ok (next : Nat) {c : Cursor} (h : c.p ≤ page.size) :
    endPart page next c = .ok (html.endPart page next c) := by
  unfold endPart html.endPart
  dsimp only
  rw [readSlice_word h]
  split <;> rfl

theorem skipTag_ok (c : Cursor) (hstop : stop ≤ page.size) :
    skipTag page c stop = .ok (c.skipTag page stop) := by
  unfold skipTag Cursor.skipTag
  rw [find_ok _ _ hstop]
  rfl

theorem titleTag_eq (isClosing : Bool) (c : Cursor) :
    titleTag page stop isClosing c =
      { c with parser := titleParser isClosing c }.skipTag page stop := rfl

/-! ## Tags -/

/-- A tag with an action does not break off where the parser compares. `c` is after its name. -/
def TagMeets (page : Page) (stop tagStart len : Nat) (isClosing : Bool) (c : Cursor) :
    DesiredAction → Prop
  | .anchor => isClosing = false → href.Meets page stop c.p
  | .base => c.parser.baseFound = false → baseHref.Meets page stop c.p
  | .embed => src.Meets page stop c.p
  | .discardSection => isClosing = false → SectionMeets page stop tagStart len c.p
  | _ => True

theorem tagAction_settles (hstop : stop ≤ page.size) {tagStart len : Nat} (isClosing : Bool)
    {c : Cursor} (htag : tagStart + len ≤ page.size) (hp : c.p ≤ page.size)
    (action : DesiredAction) :
    Settles .outside (TagMeets page stop tagStart len isClosing c action)
      (tagAction isCommonEnglishWord page stop tagStart len isClosing c action)
      (html.tagAction isCommonEnglishWord page stop tagStart len isClosing c action) := by
  cases action with
  | ordinaryText =>
    apply Settles.of_eq
    unfold tagAction html.tagAction
    by_cases hin : c.p < stop
    · have hread : read page c.p = .ok (page.mem c.p) := read_ok (by omega)
      simp only [hin, hread, ok_bind, endWord_ok space newline (c.p + 1) hp, true_and, if_true]
      split <;> rfl
    · simp [hin]
  | title =>
    apply Settles.of_eq
    unfold tagAction html.tagAction
    rw [skipTag_ok _ hstop, titleTag_eq]
    rfl
  | comment =>
    apply Settles.of_eq
    have hscan : scan (isCommentEnd page) 2 stop (stop - c.p + 1) c.p =
        .ok (html.advance (html.isCommentEnd page) (stop - 2 - c.p) c.p) :=
      scan_ok (fun q hq => isCommentEnd_ok (by omega)) (Nat.lt_succ_self _)
    unfold tagAction html.tagAction
    rw [hscan, ok_bind]
    dsimp only
    split <;> rfl
  | discard =>
    apply Settles.of_eq
    unfold tagAction html.tagAction
    rw [skipTag_ok c hstop]
    rfl
  | discardSection =>
    unfold tagAction html.tagAction TagMeets
    cases isClosing with
    | true => exact .fine (by simp) (by simp [skipTag_ok c hstop])
    | false =>
      simp only [Bool.false_eq_true, if_false]
      refine ((sectionEnd_settles hstop htag _ _ (Nat.lt_succ_self _)).bind_ok fun _ => ?_).congr
        true_imp_iff.symm
      cases html.sectionEnd page stop tagStart len (stop - c.p + 1) c.p with
      | none =>
        have hslice : readSlice page tagStart (if len < 16 then len else 15) =
            .ok (page.slice tagStart (if len < 16 then len else 15)) :=
          readSlice_ok (by split <;> omega)
        simp [hslice]
      | some p => simp [skipTag_ok _ hstop]
  | anchor =>
    unfold tagAction html.tagAction TagMeets
    cases isClosing with
    | true => exact .fine (by simp) (by simp [skipTag_ok _ hstop])
    | false =>
      simp only [Bool.false_eq_true, if_false]
      refine Settles.congr ?_ true_imp_iff.symm
      apply (anchorTag_settles hstop c.parser c.p).bind_ok
      exact fun _ => rfl
  | base =>
    unfold tagAction html.tagAction TagMeets
    by_cases hfound : c.parser.baseFound = true
    · exact .fine (by simp [hfound]) (by simp [hfound, skipTag_ok c hstop])
    · have hnone : c.parser.baseFound = false := by simpa using hfound
      dsimp only
      rw [if_neg hfound, if_neg hfound]
      refine Settles.congr ?_ (imp_iff_right hnone).symm
      apply (baseTag_settles hstop c.parser c.p).bind_ok
      exact fun _ => rfl
  | embed =>
    apply (embedTag_settles hstop c.parser c.p).bind_ok
    exact fun _ => rfl

/-! ### The name of a tag -/

def isClosingTag (page : Page) (stop p : Nat) : Bool := p + 1 < stop ∧ page.mem (p + 1) = 47

def tagStart (page : Page) (stop p : Nat) : Nat :=
  if p + 1 < stop ∧ page.mem (p + 1) = 47 then p + 2 else p + 1

def tagEnd (page : Page) (stop p : Nat) : Nat :=
  if tagStart page stop p + 3 ≤ stop ∧ page.slice (tagStart page stop p) 3 = ascii "!--" then
    tagStart page stop p + 3
  else page.find isTagNameEnd (tagStart page stop p) stop

def tagLen (page : Page) (stop p : Nat) : Nat := tagEnd page stop p - tagStart page stop p

-- The table is not to be searched where a match on the action is looked at.
@[irreducible] def tagAt (page : Page) (stop p : Nat) : DesiredAction :=
  html_tags.lookupPossibleTag (page.ptr (tagStart page stop p)) (tagLen page stop p)

theorem lt_tagStart : p < tagStart page stop p := by
  unfold tagStart
  split <;> omega

theorem tagStart_le (hp : p < stop) : tagStart page stop p ≤ stop := by
  unfold tagStart
  split <;> omega

theorem tagStart_le_tagEnd : tagStart page stop p ≤ tagEnd page stop p := by
  unfold tagEnd
  split
  · omega
  · exact le_find page _ _ _

theorem tagEnd_le (hp : p < stop) : tagEnd page stop p ≤ stop := by
  unfold tagEnd
  split
  · rename_i h
    exact h.1
  · exact find_le page _ (tagStart_le hp)

theorem nameEnd_ok (hstop : stop ≤ page.size) :
    nameEnd page (tagStart page stop p) stop = .ok (tagEnd page stop p) := by
  unfold nameEnd tagEnd
  rw [find_ok _ _ hstop, ok_bind]
  by_cases hroom : tagStart page stop p + 3 ≤ stop
  · have hslice : readSlice page (tagStart page stop p) 3 =
        .ok (page.slice (tagStart page stop p) 3) := readSlice_ok (by omega)
    rw [if_pos hroom, hslice, ok_bind]
    simp [hroom]
  · rw [if_neg hroom, if_neg fun h => hroom h.1]
    rfl

theorem lookupLoop_ok {name : Nat → Checked UInt8} {f : Nat → UInt8} {len : Nat}
    (hname : ∀ i < len, name i = .ok (f i)) (turns l r : Nat) (hturns : r - l < turns) :
    lookupLoop name len turns l r = .ok (html_tags.lookupLoop f len turns l r) := by
  induction turns generalizing l r with
  | zero => omega
  | succ turns ih =>
    unfold lookupLoop html_tags.lookupLoop
    by_cases hlr : l < r
    · rw [if_pos hlr, if_pos hlr]
      dsimp only
      rw [strncasecmp_ok (fun _ _ => rfl) hname, ok_bind]
      cases html_tags.strncasecmp
        (literal (tagsRecognized.getD (l + (r - l) / 2) ("", .ordinaryText)).1) f len with
      | lt => exact ih (l + (r - l) / 2 + 1) r (by omega)
      | gt => exact ih l (l + (r - l) / 2) (by omega)
      | eq =>
        dsimp only
        split
        · rfl
        · exact ih l (l + (r - l) / 2) (by omega)
    · rw [if_neg hlr, if_neg hlr]
      rfl

theorem lookupPossibleTag_ok (hp : p < stop) (hstop : stop ≤ page.size) :
    lookupPossibleTag (readFrom page (tagStart page stop p)) (tagLen page stop p) =
      .ok (tagAt page stop p) := by
  have hend : tagEnd page stop p ≤ stop := tagEnd_le hp
  have hname : ∀ i < tagLen page stop p, readFrom page (tagStart page stop p) i =
      .ok (page.ptr (tagStart page stop p) i) := by
    intro i hi
    unfold tagLen at hi
    exact read_ok (by omega)
  unfold tagAt
  exact lookupLoop_ok hname _ _ _ (by omega)

theorem tagTurn_eq (c : Cursor) :
    html.tagTurn isCommonEnglishWord page start stop c =
      if tagAt page stop c.p ≠ .ordinaryText ∧ c.wordStart < c.p ∧ start ≤ c.p then
        match writeWord isCommonEnglishWord (page.slice c.wordStart (c.p - c.wordStart)) space
          newline { c with p := tagEnd page stop c.p } with
        | .goOn next =>
          html.tagAction isCommonEnglishWord page stop (tagStart page stop c.p)
            (tagLen page stop c.p) (isClosingTag page stop c.p) next (tagAt page stop c.p)
        | .done h => .done h
      else
        html.tagAction isCommonEnglishWord page stop (tagStart page stop c.p)
          (tagLen page stop c.p) (isClosingTag page stop c.p)
          { c with p := tagEnd page stop c.p } (tagAt page stop c.p) := by
  unfold tagAt
  rfl

theorem baseFound_pushAnchorWord (h : HtmlParser) (str : Bytes) (delim : UInt8) :
    (h.pushAnchorWord str delim).baseFound = h.baseFound := by
  unfold HtmlParser.pushAnchorWord
  split <;> rfl

theorem baseFound_addToTitle (h : HtmlParser) (str : Bytes) :
    (h.addToTitle str).baseFound = h.baseFound := by
  unfold HtmlParser.addToTitle
  split <;> rfl

theorem baseFound_checkEnglish (h : HtmlParser) (word : Bytes) :
    (checkEnglish isCommonEnglishWord h word).1.baseFound = h.baseFound := by
  unfold checkEnglish
  dsimp only
  split_ifs <;> rfl

theorem writeWord_keeps {word : Bytes} {linkDelim wordDelim : UInt8} {next after : Cursor}
    (h : writeWord isCommonEnglishWord word linkDelim wordDelim next = .goOn after) :
    after.p = next.p ∧ after.parser.baseFound = next.parser.baseFound := by
  unfold writeWord at h
  dsimp only at h
  split at h
  · cases h
    refine ⟨rfl, ?_⟩
    rw [baseFound_checkEnglish, baseFound_addToTitle]
    exact baseFound_pushAnchorWord _ _ _
  · cases h

theorem tagMeets_congr {tagStart len : Nat} {isClosing : Bool} {c c' : Cursor} (hp : c'.p = c.p)
    (hbase : c'.parser.baseFound = c.parser.baseFound) (action : DesiredAction) :
    TagMeets page stop tagStart len isClosing c' action ↔
      TagMeets page stop tagStart len isClosing c action := by
  unfold TagMeets
  rw [hp, hbase]

/-- The word before a tag, after which the page is given up as not English. -/
def WordStops (isCommonEnglishWord : Bytes → Bool) (page : Page) (start stop : Nat)
    (c : Cursor) : Prop :=
  (tagAt page stop c.p ≠ .ordinaryText ∧ c.wordStart < c.p ∧ start ≤ c.p) ∧
    isUnknown isCommonEnglishWord (page.slice c.wordStart (c.p - c.wordStart)) ∧
    MAX_CONSECUTIVE_NON_ENGLISH ≤ c.parser.nonEnglishRun + 1

/-- The tag that the turn looks at, if there is one, does not break off where it compares. -/
def TurnMeets (isCommonEnglishWord : Bytes → Bool) (page : Page) (start stop : Nat)
    (c : Cursor) : Prop :=
  page.mem c.p = 60 → ¬WordStops isCommonEnglishWord page start stop c →
    TagMeets page stop (tagStart page stop c.p) (tagLen page stop c.p)
      (isClosingTag page stop c.p) { c with p := tagEnd page stop c.p } (tagAt page stop c.p)

theorem turnMeets_of_stops {c : Cursor} (h : WordStops isCommonEnglishWord page start stop c) :
    TurnMeets isCommonEnglishWord page start stop c := by
  intro _ hgoes
  exact absurd h hgoes

theorem turnMeets_iff {c : Cursor} (hmark : page.mem c.p = 60)
    (hgoes : ¬WordStops isCommonEnglishWord page start stop c) :
    TurnMeets isCommonEnglishWord page start stop c ↔
      TagMeets page stop (tagStart page stop c.p) (tagLen page stop c.p)
        (isClosingTag page stop c.p) { c with p := tagEnd page stop c.p } (tagAt page stop c.p) := by
  unfold TurnMeets
  rw [imp_iff_right hmark, imp_iff_right hgoes]

theorem tagTurn_settles {c : Cursor} (hp : c.p < stop) (hstop : stop ≤ page.size)
    (hmark : page.mem c.p = 60) :
    Settles .outside (TurnMeets isCommonEnglishWord page start stop c)
      (tagTurn isCommonEnglishWord page start stop c)
      (html.tagTurn isCommonEnglishWord page start stop c) := by
  have hclosing : both (.ok (c.p + 1 < stop)) (test page (· = 47) (c.p + 1)) =
      .ok (isClosingTag page stop c.p) := by
    refine (both_ok rfl fun h => test_ok _ ?_).trans (congrArg Except.ok (Bool.decide_and _ _).symm)
    have := of_decide_eq_true h
    omega
  have hend : tagEnd page stop c.p ≤ stop := tagEnd_le hp
  have hstart : tagStart page stop c.p ≤ tagEnd page stop c.p := tagStart_le_tagEnd
  have hlen : tagStart page stop c.p + tagLen page stop c.p ≤ page.size := by
    unfold tagLen
    omega
  have htag : (if isClosingTag page stop c.p then c.p + 2 else c.p + 1) = tagStart page stop c.p := by
    simp [isClosingTag, tagStart]
  unfold tagTurn
  rw [hclosing, ok_bind]
  dsimp only
  rw [htag, nameEnd_ok hstop, ok_bind, ← tagLen, lookupPossibleTag_ok hp hstop, ok_bind, tagTurn_eq]
  by_cases hword : tagAt page stop c.p ≠ .ordinaryText ∧ c.wordStart < c.p ∧ start ≤ c.p
  · rw [if_pos hword, if_pos hword, readSlice_word (by omega), ok_bind]
    have hfollows : Follows _ _ _ (isUnknown isCommonEnglishWord _ ∧ _) (writeWord _ _ _ _ _) :=
      writeWord_follows (page.slice c.wordStart (c.p - c.wordStart)) space newline
        { c with p := tagEnd page stop c.p }
    cases hwrite : writeWord isCommonEnglishWord (page.slice c.wordStart (c.p - c.wordStart)) space
      newline { c with p := tagEnd page stop c.p } with
    | done h =>
      rw [hwrite] at hfollows
      have hstops : WordStops isCommonEnglishWord page start stop c := ⟨hword, hfollows.1⟩
      exact .fine (turnMeets_of_stops hstops) rfl
    | goOn next =>
      rw [hwrite] at hfollows
      obtain ⟨hplace, hbase⟩ := writeWord_keeps hwrite
      have hnext : next.p ≤ page.size := by
        rw [hplace]
        exact hend.trans hstop
      have hgoes : ¬WordStops isCommonEnglishWord page start stop c := fun h => hfollows.1 h.2
      refine (tagAction_settles hstop (isClosingTag page stop c.p) hlen hnext _).congr ?_
      rw [tagMeets_congr hplace hbase]
      exact (turnMeets_iff hmark hgoes).symm
  · have hgoes : ¬WordStops isCommonEnglishWord page start stop c := fun h => hword h.1
    have hnext : { c with p := tagEnd page stop c.p }.p ≤ page.size := hend.trans hstop
    rw [if_neg hword, if_neg hword]
    exact (tagAction_settles hstop (isClosingTag page stop c.p) hlen hnext _).congr
      (turnMeets_iff hmark hgoes).symm

end English

end seamus.checked_parser
