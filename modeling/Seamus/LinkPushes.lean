-- The links of a page from the parser to the URL buffer: what the parser pushes into the link data
-- of a page is a list of the steps of `link_stream`, and the batches of the page are those of these
-- steps.
import Seamus.LinkStream
import Seamus.ParserCalls
import Seamus.ParserTags

open seamus.html_tags seamus.html seamus.url_filter seamus.link_stream seamus.parser_calls
open seamus.checked_parser (tagStart tagEnd lt_tagStart tagStart_le_tagEnd)

namespace seamus.link_pushes

variable {page : Page} {start stop p q r : Nat}

/-! ## Words -/

/-- From `p` to before `q` there is no space, and every colon comes after a `<`. -/
structure Unbroken (page : Page) (p q : Nat) : Prop where
  le : p ≤ q
  no_space : ∀ i, p ≤ i → i < q → isspace (page.mem i) = false
  colon : ∀ i, p ≤ i → i < q → page.mem i = 58 → ∃ j, p ≤ j ∧ j < i ∧ page.mem j = 60

theorem Unbroken.refl (page : Page) (p : Nat) : Unbroken page p p where
  le := le_rfl
  no_space i hp hq := by omega
  colon i hp hq := by omega

theorem Unbroken.trans (h : Unbroken page p q) (h' : Unbroken page q r) : Unbroken page p r where
  le := h.le.trans h'.le
  no_space i hp hr := by
    rcases Nat.lt_or_ge i q with hq | hq
    · exact h.no_space i hp hq
    · exact h'.no_space i hq hr
  colon i hp hr hcolon := by
    rcases Nat.lt_or_ge i q with hq | hq
    · exact h.colon i hp hq hcolon
    · obtain ⟨j, hj, hji, hmark⟩ := h'.colon i hq hr hcolon
      exact ⟨j, h.le.trans hj, hji, hmark⟩

/-- A character that breaks no word. -/
theorem unbroken_char (h : isWordBreakChar (page.mem p) = false) : Unbroken page p (p + 1) where
  le := Nat.le_succ p
  no_space i hp hq := by
    obtain rfl : i = p := by omega
    exact (Bool.or_eq_false_iff.mp h).1
  colon i hp hq hcolon := by
    obtain rfl : i = p := by omega
    rw [hcolon] at h
    exact absurd h (by decide)

theorem not_found_of_lt {found : Nat → Bool} {turns i : Nat} (hp : p ≤ i)
    (hi : i < advance found turns p) : found i = false := by
  induction turns generalizing p with
  | zero => exact absurd hi (Nat.not_lt.mpr hp)
  | succ turns ih =>
    unfold advance at hi
    split at hi
    · omega
    · rename_i hfound
      rcases Nat.eq_or_lt_of_le hp with rfl | hlt
      · exact Bool.eq_false_of_not_eq_true hfound
      · exact ih hlt hi

theorem isspace_of_tagNameEnd {c : UInt8} (h : isTagNameEnd c = false) : isspace c = false :=
  (Bool.or_eq_false_iff.mp (Bool.or_eq_false_iff.mp h).1).1

/-- There is no space in the name of a tag. -/
theorem isspace_tag {i : Nat} (hmark : page.mem p = 60) (hp : p ≤ i)
    (hi : i < tagEnd page stop p) : isspace (page.mem i) = false := by
  rcases Nat.lt_or_ge i (tagStart page stop p) with hlt | hge
  · have hchar : page.mem i = 60 ∨ page.mem i = 47 := by
      unfold tagStart at hlt
      split at hlt
      · rename_i hclosing
        rcases Nat.eq_or_lt_of_le hp with rfl | hnext
        · exact .inl hmark
        · obtain rfl : i = p + 1 := by omega
          exact .inr hclosing.2
      · obtain rfl : i = p := by omega
        exact .inl hmark
    rcases hchar with h | h <;> rw [h] <;> decide
  · unfold tagEnd at hi
    split at hi
    · rename_i hcomment
      have hall : ∀ c ∈ ascii "!--", isspace c = false := by decide +kernel
      refine hall _ (hcomment.2 ▸ List.mem_map.mpr ⟨i - tagStart page stop p, ?_, ?_⟩)
      · exact List.mem_range.mpr (by omega)
      · rw [Nat.add_sub_cancel' hge]
    · have hname : isTagNameEnd (page.mem i) = false := not_found_of_lt hge hi
      exact isspace_of_tagNameEnd hname

theorem Unbroken.tag (h : Unbroken page p q) (hmark : page.mem q = 60) :
    Unbroken page p (tagEnd page stop q) := by
  refine h.trans ⟨?_, fun i => isspace_tag hmark, ?_⟩
  · exact (Nat.le_of_lt lt_tagStart).trans tagStart_le_tagEnd
  · intro i hq hi hcolon
    refine ⟨q, le_rfl, ?_, hmark⟩
    refine Nat.lt_of_le_of_ne hq ?_
    rintro rfl
    rw [hmark] at hcolon
    exact absurd hcolon (by decide)

/-! ### What is pushed of a word -/

theorem getElem?_slice {n k : Nat} (hk : k < n) :
    (lowercase (page.slice p n))[k]? = some (tolower (page.mem (p + k))) := by
  simp [lowercase, Page.slice, hk]

theorem exists_of_mem_slice {n : Nat} {c : UInt8} (hlow : c < 65)
    (h : c ∈ lowercase (page.slice p n)) : ∃ k < n, page.mem (p + k) = c := by
  obtain ⟨d, hd, heq⟩ := List.mem_map.mp h
  obtain ⟨k, hk, rfl⟩ := List.mem_map.mp hd
  exact ⟨k, List.mem_range.mp hk, tolower_eq_low hlow heq⟩

theorem Unbroken.not_mem (h : Unbroken page p q) {c : UInt8} (hlow : c < 65)
    (hspace : isspace c = true) : c ∉ lowercase (page.slice p (q - p)) := by
  intro hmem
  obtain ⟨k, hk, rfl⟩ := exists_of_mem_slice hlow hmem
  rw [h.no_space (p + k) (Nat.le_add_right p k) (by omega)] at hspace
  cases hspace

theorem Unbroken.mark_before_colon (h : Unbroken page p q) {front rest : Bytes}
    (heq : lowercase (page.slice p (q - p)) = front ++ 58 :: rest) : 60 ∈ front := by
  have hlen : q - p = front.length + (rest.length + 1) := by
    have := congrArg List.length heq
    rwa [lowercase, List.length_map, slice_length, List.length_append, List.length_cons] at this
  have hcolon : page.mem (p + front.length) = 58 := by
    have hat : (lowercase (page.slice p (q - p)))[front.length]? = some 58 := by
      rw [heq, List.getElem?_append_right le_rfl, Nat.sub_self]
      rfl
    rw [getElem?_slice (by omega)] at hat
    exact tolower_eq_low (by decide) (Option.some.inj hat)
  obtain ⟨j, hp, hj, hmark⟩ := h.colon _ (Nat.le_add_right p _) (by omega) hcolon
  obtain ⟨k, rfl⟩ := Nat.exists_eq_add_of_le hp
  have hk : k < front.length := Nat.lt_of_add_lt_add_left hj
  have hat : front[k]? = some 60 := by
    rw [← List.getElem?_append_left hk, ← heq, getElem?_slice (by omega), hmark]
    rfl
  exact List.mem_of_getElem? hat

/-- A word of an anchor text, as it is pushed. -/
theorem Unbroken.pushed (h : Unbroken page p q) (hword : p < q) :
    (Step.word (lowercase (page.slice p (q - p)))).Pushed := by
  refine ⟨?_, h.not_mem (by decide) (by decide), h.not_mem (by decide) (by decide), ?_⟩
  · intro hnil
    have := congrArg List.length hnil
    rw [lowercase, List.length_map, slice_length, List.length_nil] at this
    omega
  · rw [← Bool.not_eq_true]
    unfold hasScheme
    rw [Bool.or_eq_true, startsWith_iff, startsWith_iff]
    rintro (⟨rest, hrest⟩ | ⟨rest, hrest⟩)
    · have heq : _ = ascii "http" ++ 58 :: (ascii "//" ++ rest) := hrest.symm
      exact absurd (h.mark_before_colon heq) (by decide)
    · have heq : _ = ascii "https" ++ 58 :: (ascii "//" ++ rest) := hrest.symm
      exact absurd (h.mark_before_colon heq) (by decide)

/-! ## Calls -/

/-- A call on the link data, as a step. The words of an anchor text go there in lower case. -/
inductive Renders : Call → Step → Prop
  | href (url : Bytes) : Renders (.link url newline) (.href url)
  | embed (url : Bytes) : Renders (.link url newline) (.embed url)
  | close : Renders (.link [] newline) .close
  | word (text : Bytes) : Renders (.anchorWord text space) (.word (lowercase text))

/-- The call is one on the link data. -/
def isLink : Call → Bool
  | .word _ _ => false
  | .link _ _ | .anchorWord _ _ => true

/-- A word of an anchor text comes with its space: it is no part of a word before an apostrophe or
a comma. -/
def IsWhole : Call → Prop
  | .anchorWord _ delim => delim = space
  | .word _ _ | .link _ _ => True

/-- The URL of the step is one that `normalize_url` does not accept. -/
def Rejected : Step → Prop
  | .href url | .embed url => normalizeUrl url = []
  | .word _ | .close | .flush => False

/-- From one value of `in_a` to the other, the calls are these steps. -/
structure Pushes (inA : Bool) (calls : List Call) (steps : List Step) (after : Bool) : Prop where
  renders : List.Forall₂ Renders (calls.filter isLink) steps
  legal : ∀ later, legal inA (steps ++ later) = legal after later
  pushed : ∀ s ∈ steps, s.Pushed ∨ Rejected s

section Pushes

variable {inA middle after : Bool} {calls calls' : List Call} {steps steps' : List Step}

theorem Pushes.nil (inA : Bool) : Pushes inA [] [] inA :=
  ⟨.nil, fun _ => rfl, List.forall_mem_nil _⟩

theorem Pushes.append (h : Pushes inA calls steps middle) (h' : Pushes middle calls' steps' after) :
    Pushes inA (calls ++ calls') (steps ++ steps') after where
  renders := by
    rw [List.filter_append]
    exact List.rel_append h.renders h'.renders
  legal later := by rw [List.append_assoc, h.legal, h'.legal]
  pushed := List.forall_mem_append.mpr ⟨h.pushed, h'.pushed⟩

theorem pushes_word (inA : Bool) (str : Bytes) (delim : UInt8) :
    Pushes inA [.word str delim] [] inA :=
  ⟨.nil, fun _ => rfl, List.forall_mem_nil _⟩

theorem pushes_href (inA : Bool) (url : Bytes) :
    Pushes inA [.link url newline] [.href url] true where
  renders := .cons (.href url) .nil
  legal _ := rfl
  pushed := List.forall_mem_singleton.mpr (ne_or_eq (normalizeUrl url) [])

theorem pushes_embed (inA : Bool) (url : Bytes) :
    Pushes inA [.link url newline] [.embed url] inA where
  renders := .cons (.embed url) .nil
  legal _ := rfl
  pushed := List.forall_mem_singleton.mpr (ne_or_eq (normalizeUrl url) [])

theorem pushes_close (inA : Bool) : Pushes inA [.link [] newline] [.close] false where
  renders := .cons .close .nil
  legal _ := rfl
  pushed := List.forall_mem_singleton.mpr (.inl trivial)

theorem pushes_anchorWord {text : Bytes} (h : (Step.word (lowercase text)).Pushed) :
    Pushes true [.anchorWord text space] [.word (lowercase text)] true where
  renders := .cons (.word text) .nil
  legal _ := rfl
  pushed := List.forall_mem_singleton.mpr (.inl h)

/-- Calls that push each word in one piece are steps. -/
def Leads (inA : Bool) (calls : List Call) (after : Bool) : Prop :=
  (∀ call ∈ calls, IsWhole call) → ∃ steps, Pushes inA calls steps after

theorem Pushes.leads (h : Pushes inA calls steps after) : Leads inA calls after :=
  fun _ => ⟨steps, h⟩

theorem Leads.append (h : Leads inA calls middle) (h' : Leads middle calls' after) :
    Leads inA (calls ++ calls') after := by
  intro hwhole
  obtain ⟨hfirst, hrest⟩ := List.forall_mem_append.mp hwhole
  obtain ⟨steps, hsteps⟩ := h hfirst
  obtain ⟨steps', hsteps'⟩ := h' hrest
  exact ⟨steps ++ steps', hsteps.append hsteps'⟩

end Pushes

theorem anchorCalls_lead (h : HtmlParser) {text : Bytes} (delim : UInt8)
    (hpushed : (Step.word (lowercase text)).Pushed) :
    Leads h.inA (anchorCalls h text delim) h.inA := by
  unfold anchorCalls
  split
  · rename_i hin
    rw [hin]
    intro hwhole
    have hdelim : delim = space := hwhole _ List.mem_cons_self
    subst hdelim
    exact ⟨_, pushes_anchorWord hpushed⟩
  · exact (Pushes.nil _).leads

/-! ## Turns -/

theorem inA_pushAnchorWord (h : HtmlParser) (str : Bytes) (delim : UInt8) :
    (h.pushAnchorWord str delim).inA = h.inA := by
  unfold HtmlParser.pushAnchorWord
  split <;> rfl

theorem inA_addToTitle (h : HtmlParser) (str : Bytes) : (h.addToTitle str).inA = h.inA := by
  unfold HtmlParser.addToTitle
  split <;> rfl

theorem inA_checkEnglish (isCommonEnglishWord : Bytes → Bool) (h : HtmlParser) (word : Bytes) :
    (checkEnglish isCommonEnglishWord h word).1.inA = h.inA := by
  unfold checkEnglish
  dsimp only
  split_ifs <;> rfl

/-- The calls lead from the parser of the one turn to that of the next one, which begins in a word
without a space. -/
structure Goes (page : Page) (stop : Nat) (inA : Bool) (calls : List Call) (flow : Flow) :
    Prop where
  leads : Leads inA calls (Flow.parser flow).inA
  unbroken : ∀ next, flow = .goOn next → next.p < stop → Unbroken page next.wordStart next.p

section Turns

variable {isCommonEnglishWord : Bytes → Bool} {c : Cursor}

theorem Goes.after {inA middle : Bool} {calls calls' : List Call} {flow : Flow}
    (h : Goes page stop middle calls' flow) (hleads : Leads inA calls middle) :
    Goes page stop inA (calls ++ calls') flow :=
  ⟨hleads.append h.leads, h.unbroken⟩

/-- The next turn begins where a word may begin. -/
theorem goes_fresh {inA : Bool} {calls : List Call} {next : Cursor}
    (hleads : Leads inA calls next.parser.inA) (hword : next.wordStart = next.p) :
    Goes page stop inA calls (.goOn next) where
  leads := hleads
  unbroken next' heq _ := by
    cases heq
    rw [hword]
    exact .refl page next.p

theorem goes_done {inA : Bool} {calls : List Call} {h : HtmlParser}
    (hleads : Leads inA calls h.inA) : Goes page stop inA calls (.done h) :=
  ⟨hleads, fun _ heq => nomatch heq⟩

variable (isCommonEnglishWord) in
theorem inA_writeWord (word : Bytes) (linkDelim wordDelim : UInt8) (next : Cursor) :
    (Flow.parser (writeWord isCommonEnglishWord word linkDelim wordDelim next)).inA =
      next.parser.inA := by
  unfold writeWord
  dsimp only
  have hsame := inA_checkEnglish isCommonEnglishWord (((next.parser.pushAnchorWord word
    linkDelim).pushWord word wordDelim).addToTitle word) word
  rw [inA_addToTitle] at hsame
  split <;> exact hsame.trans (inA_pushAnchorWord _ _ _)

theorem writeWord_goOn {word : Bytes} {linkDelim wordDelim : UInt8} {next after : Cursor}
    (h : writeWord isCommonEnglishWord word linkDelim wordDelim next = .goOn after) :
    after.p = next.p ∧ after.wordStart = next.wordStart := by
  unfold writeWord at h
  dsimp only at h
  split at h <;> cases h
  exact ⟨rfl, rfl⟩

theorem writeWord_goes {inA : Bool} {calls : List Call} {word : Bytes}
    {linkDelim wordDelim : UInt8} {next : Cursor} (hleads : Leads inA calls next.parser.inA)
    (hword : next.wordStart = next.p) :
    Goes page stop inA calls (writeWord isCommonEnglishWord word linkDelim wordDelim next) := by
  have hinA := inA_writeWord isCommonEnglishWord word linkDelim wordDelim next
  cases hflow : writeWord isCommonEnglishWord word linkDelim wordDelim next with
  | goOn after =>
    rw [hflow] at hinA
    obtain ⟨hp, hstart⟩ := writeWord_goOn hflow
    exact goes_fresh (hinA.symm ▸ hleads) (by rw [hstart, hp, hword])
  | done h =>
    rw [hflow] at hinA
    exact goes_done (hinA.symm ▸ hleads)

theorem endWordCalls_lead (linkDelim wordDelim : UInt8) (hword : Unbroken page c.wordStart c.p) :
    Leads c.parser.inA (endWordCalls page linkDelim wordDelim c) c.parser.inA := by
  unfold endWordCalls
  split
  · rename_i hlt
    exact (anchorCalls_lead c.parser linkDelim (hword.pushed hlt)).append
      (pushes_word _ _ wordDelim).leads
  · exact (Pushes.nil _).leads

theorem endPartCalls_lead (linkDelim wordDelim : UInt8) (hword : Unbroken page c.wordStart c.p) :
    Leads c.parser.inA (endPartCalls page linkDelim wordDelim c) c.parser.inA := by
  unfold endPartCalls
  split
  · rename_i hlt
    exact (pushes_word _ _ wordDelim).leads.append
      (anchorCalls_lead c.parser linkDelim (hword.pushed hlt))
  · exact (Pushes.nil _).leads

theorem endWord_goes {inA : Bool} {calls : List Call} {linkDelim wordDelim : UInt8} {next : Nat}
    (hleads : Leads inA calls c.parser.inA) :
    Goes page stop inA calls (endWord isCommonEnglishWord page linkDelim wordDelim next c) := by
  unfold endWord
  dsimp only
  split
  · exact writeWord_goes hleads rfl
  · exact goes_fresh hleads rfl

theorem endPart_goes {inA : Bool} {calls : List Call} {next : Nat}
    (hleads : Leads inA calls c.parser.inA) :
    Goes page stop inA calls (endPart page next c) := by
  unfold endPart
  dsimp only
  split
  · refine goes_fresh ?_ rfl
    rw [show (writePart _ c.parser).inA = c.parser.inA from inA_pushAnchorWord _ _ _]
    exact hleads
  · exact goes_fresh hleads rfl

/-! ### Tags -/

theorem hrefCalls_lead (inA : Bool) (url href : Bytes) : Leads inA (hrefCalls url href) true := by
  unfold hrefCalls
  split <;> exact (pushes_href inA _).leads

theorem anchorTag_leads (turns : Nat) (h : HtmlParser) (p : Nat) :
    Leads h.inA (anchorTagCalls h.url page stop turns p)
      (anchorTag page stop turns h p).1.inA := by
  induction turns generalizing h p with
  | zero => exact (Pushes.nil _).leads
  | succ turns ih =>
    rw [anchorTagCalls, anchorTag]
    split
    · split
      · dsimp only
        generalize page.find (· = 34) (p + 6) stop = q
        split
        · have hrest := ih { h.pushHref (page.slice (p + 6) (q - (p + 6))) with inA := true } q
          rw [show _ = h.url from (pushHref_makes h _).url] at hrest
          exact (hrefCalls_lead h.inA h.url _).append hrest
        · exact ih h q
      · exact ih h (p + 1)
    · exact (Pushes.nil _).leads

theorem embedTag_leads (turns : Nat) (h : HtmlParser) (p : Nat) :
    Leads h.inA (embedTagCalls page stop turns p) (embedTag page stop turns h p).1.inA := by
  induction turns generalizing h p with
  | zero => exact (Pushes.nil _).leads
  | succ turns ih =>
    rw [embedTagCalls, embedTag]
    split
    · split
      · dsimp only
        generalize page.find (· = 34) (p + 5) stop = q
        exact (pushes_embed h.inA _).leads.append
          (ih (h.pushLink (page.slice (p + 5) (q - (p + 5))) newline) q)
      · exact ih h (p + 1)
    · exact (Pushes.nil _).leads

theorem inA_baseTag (turns : Nat) (h : HtmlParser) (p : Nat) :
    (baseTag page stop turns h p).1.inA = h.inA := by
  induction turns generalizing h p with
  | zero => rfl
  | succ turns ih =>
    rw [baseTag]
    dsimp only
    split_ifs
    · exact ih _ _
    · exact ih _ _
    · exact ih _ _
    · rfl

theorem afterTag_goes {inA : Bool} {calls : List Call} (p : Nat)
    (hleads : Leads inA calls c.parser.inA) :
    Goes page stop inA calls (.goOn (c.afterTag stop p)) := by
  unfold Cursor.afterTag
  split
  · exact goes_fresh hleads rfl
  · rename_i hend
    refine ⟨hleads, fun next heq hnext => ?_⟩
    cases heq
    exact absurd hnext hend

theorem skipTag_goes {inA : Bool} {calls : List Call} (hleads : Leads inA calls c.parser.inA) :
    Goes page stop inA calls (.goOn (c.skipTag page stop)) :=
  afterTag_goes _ hleads

theorem tagAction_goes (c : Cursor) (tagStart len : Nat) (isClosing : Bool) (action : DesiredAction)
    (hword : action = .ordinaryText → Unbroken page c.wordStart c.p) :
    Goes page stop c.parser.inA (tagActionCalls page stop isClosing c action)
      (tagAction isCommonEnglishWord page stop tagStart len isClosing c action) := by
  have hnone : Leads c.parser.inA [] c.parser.inA := (Pushes.nil _).leads
  cases action with
  | ordinaryText =>
    have hword := hword rfl
    rw [tagActionCalls, tagAction]
    split
    · exact endWord_goes (endWordCalls_lead space newline hword)
    rename_i hbreak
    split
    · rename_i hp
      have hchar : isWordBreakChar (page.mem c.p) = false :=
        Bool.eq_false_of_not_eq_true fun h => hbreak ⟨hp, h⟩
      refine ⟨hnone, fun next heq _ => ?_⟩
      cases heq
      exact hword.trans (unbroken_char hchar)
    · refine ⟨hnone, fun next heq _ => ?_⟩
      cases heq
      exact hword
  | title =>
    have hleads : Leads c.parser.inA _ c.parser.inA := (pushes_word _ (ascii (if isClosing then
      "</title>" else "<title>")) newline).leads
    rw [tagActionCalls, tagAction, titleTag]
    cases isClosing <;> exact skipTag_goes hleads
  | comment =>
    rw [tagActionCalls, tagAction]
    dsimp only
    split
    · exact goes_done hnone
    · exact goes_fresh hnone rfl
  | discard => exact skipTag_goes hnone
  | discardSection =>
    rw [tagActionCalls, tagAction]
    split
    · exact skipTag_goes hnone
    · split
      · exact goes_done hnone
      · exact skipTag_goes hnone
  | anchor =>
    rw [tagActionCalls, tagAction]
    split
    · exact skipTag_goes (pushes_close _).leads
    · exact afterTag_goes _ (anchorTag_leads (stop - c.p) c.parser c.p)
  | base =>
    rw [tagActionCalls, tagAction]
    split
    · exact skipTag_goes hnone
    · refine afterTag_goes _ ?_
      rw [show _ = c.parser.inA from inA_baseTag (stop - c.p) c.parser c.p]
      exact hnone
  | embed => exact afterTag_goes _ (embedTag_leads (stop - c.p) c.parser c.p)

theorem tagTurn_goes (hmark : page.mem c.p = 60) (hword : Unbroken page c.wordStart c.p) :
    Goes page stop c.parser.inA (tagTurnCalls isCommonEnglishWord page start stop c)
      (tagTurn isCommonEnglishWord page start stop c) := by
  have hname : Unbroken page c.wordStart (tagEnd page stop c.p) := hword.tag hmark
  unfold tagEnd tagStart at hname
  unfold tagTurnCalls tagTurn
  dsimp only
  generalize (if c.p + 1 < stop ∧ page.mem (c.p + 1) = 47 then c.p + 2 else c.p + 1) = tagStart
    at hname ⊢
  generalize (if tagStart + 3 ≤ stop ∧ page.slice tagStart 3 = ascii "!--" then tagStart + 3
    else page.find isTagNameEnd tagStart stop) = p at hname ⊢
  generalize lookupPossibleTag (page.ptr tagStart) (p - tagStart) = action
  split
  · rename_i haction
    have hleads := endWordCalls_lead space newline hword
    have hinA := inA_writeWord isCommonEnglishWord (page.slice c.wordStart (c.p - c.wordStart))
      space newline { c with p := p }
    cases hflow : writeWord isCommonEnglishWord (page.slice c.wordStart (c.p - c.wordStart)) space
        newline { c with p := p } with
    | goOn next =>
      rw [hflow] at hinA
      exact (tagAction_goes next tagStart (p - tagStart) _ action fun h => absurd h haction.1).after
        (hinA.symm ▸ hleads)
    | done h =>
      rw [hflow] at hinA
      rw [List.append_nil]
      exact goes_done (hinA.symm ▸ hleads)
  · exact tagAction_goes { c with p := p } tagStart (p - tagStart) _ action fun _ => hname

/-! ### The main loop -/

theorem entityTurn_goes (hword : Unbroken page c.wordStart c.p) :
    Goes page stop c.parser.inA (entityTurnCalls page stop c)
      (entityTurn isCommonEnglishWord page stop c) := by
  unfold entityTurnCalls entityTurn
  dsimp only
  split
  · exact endPart_goes (endPartCalls_lead NULL_DELIM NULL_DELIM hword)
  · exact endWord_goes (endWordCalls_lead space newline hword)

theorem otherTurn_goes (c : Cursor) :
    Goes page stop c.parser.inA (otherTurnCalls page c) (otherTurn page c) := by
  unfold otherTurnCalls otherTurn
  dsimp only
  split
  · exact goes_done (Pushes.nil _).leads
  · refine goes_fresh ?_ rfl
    split
    · exact (pushes_word _ _ NULL_DELIM).leads
    · exact (Pushes.nil _).leads

theorem turn_goes (hword : Unbroken page c.wordStart c.p) :
    Goes page stop c.parser.inA (turnCalls isCommonEnglishWord page start stop c)
      (turn isCommonEnglishWord page start stop c) := by
  unfold turnCalls turn
  dsimp only
  split
  · split
    · exact endWord_goes (endWordCalls_lead NULL_DELIM NULL_DELIM hword)
    · exact endWord_goes (endWordCalls_lead space newline hword)
  rename_i hbreak
  split
  · rename_i hmark
    exact tagTurn_goes hmark hword
  split
  · exact entityTurn_goes hword
  split
  · exact endPart_goes (endPartCalls_lead NULL_DELIM NULL_DELIM hword)
  split
  · exact endPart_goes (endPartCalls_lead NULL_DELIM NULL_DELIM hword)
  split
  · exact endWord_goes (endPartCalls_lead space newline hword)
  split
  · exact otherTurn_goes c
  · refine ⟨(Pushes.nil _).leads, fun next heq _ => ?_⟩
    cases heq
    exact hword.trans (unbroken_char (Bool.eq_false_of_not_eq_true hbreak))

theorem parseLoop_leads (turns : Nat) (c : Cursor)
    (hword : c.p < stop → Unbroken page c.wordStart c.p) :
    Leads c.parser.inA (parseLoopCalls isCommonEnglishWord page start stop turns c)
      (parseLoop isCommonEnglishWord page start stop turns c).inA := by
  induction turns generalizing c with
  | zero => exact (Pushes.nil _).leads
  | succ turns ih =>
    rw [parseLoopCalls, parseLoop]
    split
    · rename_i hp
      have hturn : Goes page stop c.parser.inA
          (turnCalls isCommonEnglishWord page start stop c) _ := turn_goes (hword hp)
      cases hflow : turn isCommonEnglishWord page start stop c with
      | goOn next =>
        rw [hflow] at hturn
        exact hturn.leads.append (ih next (hturn.unbroken next rfl))
      | done h =>
        rw [hflow] at hturn
        rw [List.append_nil]
        exact hturn.leads
    · exact (Pushes.nil _).leads

theorem inA_parseStart {h h' : HtmlParser} (hstart : parseStart page h = some (start, h')) :
    h'.inA = h.inA := by
  unfold parseStart at hstart
  dsimp only at hstart
  split_ifs at hstart
  · cases hstart
    rfl
  · obtain ⟨p, -, heq⟩ := Option.map_eq_some_iff.mp hstart
    cases heq
    rfl
  · cases hstart
    rfl

theorem parseBuf_leads (h : HtmlParser) :
    Leads h.inA (parseBufCalls isCommonEnglishWord page h)
      (parseBuf isCommonEnglishWord page h).1.inA := by
  unfold parseBufCalls parseBuf
  cases hstart : parseStart page h with
  | none => exact (Pushes.nil _).leads
  | some found =>
    obtain ⟨start, h'⟩ := found
    dsimp only
    rw [← inA_parseStart hstart]
    unfold parseChunkCalls parseChunk
    split
    · exact (Pushes.nil _).leads
    · exact parseLoop_leads _ _ fun _ => .refl page start

end Turns

/-- What the parser pushes into the link data of a page is a list of steps in which words come
inside an anchor only, when no word of an anchor text comes in parts. -/
theorem bodyCalls_are_steps (isCommonEnglishWord : Bytes → Bool) (page : Page)
    (hops domainHops : Nat) (link : Bytes)
    (hwhole : ∀ call ∈ bodyCalls isCommonEnglishWord page hops domainHops link, IsWhole call) :
    ∃ steps, List.Forall₂ Renders
        ((bodyCalls isCommonEnglishWord page hops domainHops link).filter isLink) steps ∧
      legal false steps = true ∧ ∀ s ∈ steps, s.Pushed ∨ Rejected s := by
  obtain ⟨steps, hsteps⟩ := parseBuf_leads _ hwhole
  refine ⟨steps, hsteps.renders, ?_, hsteps.pushed⟩
  have hlegal := hsteps.legal []
  rwa [List.append_nil] at hlegal

example : bodyCalls (fun _ => true) (pageOf (ascii "<a href=\"https://b.org/p\">An X</a>") []) 0 0
    (ascii "https://c.net/") =
      [.link (ascii "https://b.org/p") newline, .anchorWord (ascii "An") space,
        .word (ascii "An") newline, .anchorWord (ascii "X") space, .word (ascii "X") newline,
        .link [] newline] := by
  decide +kernel

/-! ## The batches of a page -/

/-- The text of the call fits into a buffer with no more than the header in it. -/
def Fits (header : Bytes) : Call → Prop
  | .word _ _ => True
  | .link str _ | .anchorWord str _ => header.length + str.length + 10 < MAX_LINK_MEMORY

section Batches

variable {header : Bytes} {calls : List Call} {steps : List Step}

theorem Renders.fits {call : Call} {s : Step} (h : Renders call s) (hfits : Fits header call) :
    s.Fits header := by
  cases h with
  | href url => exact hfits
  | embed url => exact hfits
  | close => trivial
  | word text =>
    have hlen : (lowercase text).length = text.length := List.length_map _
    show header.length + (lowercase text).length + 10 < MAX_LINK_MEMORY
    rw [hlen]
    exact hfits

theorem caseConvert_append (b : BufferArray) (text : Bytes) :
    (b.append text space).caseConvert ((b.append text space).data.length - (text.length + 1)) =
      b.append (lowercase text) space := by
  have hdata (str : Bytes) : b.append str space = ⟨b.data ++ (str ++ [space]), b.sent⟩ := by
    rw [append_data b str space_ne_null, List.append_assoc]
  have hlen : (b.data ++ (text ++ [space])).length - (text.length + 1) = b.data.length := by
    rw [List.length_append, List.length_append]
    exact Nat.add_sub_cancel _ _
  unfold BufferArray.caseConvert
  rw [hdata, hdata, hlen, List.take_left, List.drop_left, lowercase_append]
  rfl

/-- A word of an anchor text is put into lower case where it stands. -/
theorem onLinks_word {text : Bytes} (hfits : header.length + text.length + 10 < MAX_LINK_MEMORY)
    (b : BufferArray) :
    Call.onLinks header b (.anchorWord text space) = pushLink header (lowercase text) space b := by
  have hlen : (lowercase text).length = text.length := List.length_map _
  have hmax : ¬MAX_LINK_MEMORY < text.length := by omega
  unfold Call.onLinks pushLink pushBack
  dsimp only
  rw [hlen, if_neg hmax, if_neg hmax]
  by_cases hfull : MAX_LINK_MEMORY ≤ b.data.length + text.length + 10
  · have hroom : ¬MAX_LINK_MEMORY ≤ (flushLinks header b).data.length + text.length + 10 := by
      have hpos : 0 < b.data.length := by omega
      unfold flushLinks
      rw [if_pos hpos]
      exact Nat.not_le_of_lt hfits
    rw [if_pos hfull, if_pos hfull, if_neg hroom, if_neg hroom, caseConvert_append]
  · rw [if_neg hfull, if_neg hfull, caseConvert_append]

theorem Renders.onLinks {call : Call} {s : Step} (h : Renders call s) (hfits : Fits header call)
    (b : BufferArray) : Call.onLinks header b call = push header b s := by
  cases h with
  | href url => rfl
  | embed url => rfl
  | close => rfl
  | word text => exact onLinks_word hfits b

/-- The calls fill the link data as the steps do. -/
theorem foldl_onLinks (hrenders : List.Forall₂ Renders (calls.filter isLink) steps)
    (hfits : ∀ call ∈ calls, Fits header call) (b : BufferArray) :
    calls.foldl (Call.onLinks header) b = steps.foldl (push header) b := by
  induction calls generalizing steps b with
  | nil =>
    cases hrenders
    rfl
  | cons call calls ih =>
    obtain ⟨hcall, hcalls⟩ := List.forall_mem_cons.mp hfits
    cases call with
    | word str delim => exact ih hrenders hcalls b
    | link str delim =>
      obtain ⟨s, steps, hs, hsteps, rfl⟩ := List.forall₂_cons_left_iff.mp hrenders
      rw [List.foldl_cons, List.foldl_cons, hs.onLinks hcall, ih hsteps hcalls]
    | anchorWord str delim =>
      obtain ⟨s, steps, hs, hsteps, rfl⟩ := List.forall₂_cons_left_iff.mp hrenders
      rw [List.foldl_cons, List.foldl_cons, hs.onLinks hcall, ih hsteps hcalls]

theorem steps_fit {calls : List Call} (hrenders : List.Forall₂ Renders calls steps)
    (hfits : ∀ call ∈ calls, Fits header call) : ∀ s ∈ steps, s.Fits header := by
  induction hrenders with
  | nil => exact List.forall_mem_nil _
  | cons hcall _ ih =>
    obtain ⟨hfirst, hrest⟩ := List.forall_mem_cons.mp hfits
    exact List.forall_mem_cons.mpr ⟨hcall.fits hfirst, ih hrest⟩

theorem filter_flush {calls : List Call} (hrenders : List.Forall₂ Renders calls steps) :
    steps.filter (· ≠ .flush) = steps := by
  induction hrenders with
  | nil => rfl
  | cons hcall _ ih => cases hcall <;> exact congrArg (List.cons _) ih

theorem legal_filter (inA : Bool) (steps : List Step) :
    legal inA (steps.filter (· ≠ .flush)) = legal inA steps := by
  induction steps generalizing inA with
  | nil => rfl
  | cons s steps ih =>
    cases s with
    | href url => exact ih true
    | word text => exact congrArg (inA && ·) (ih inA)
    | close => exact ih false
    | embed url => exact ih inA
    | flush => exact ih inA

/-- A run of the parser over a page whose texts fit gives the URL buffer the batches of steps in
which words come inside an anchor only, with flushes where the buffer was full. -/
theorem parsePage_sends_batches (isCommonEnglishWord : Bytes → Bool) (page : Page)
    (hops domainHops : Nat) (link : Bytes)
    (hwhole : ∀ call ∈ bodyCalls isCommonEnglishWord page hops domainHops link, IsWhole call)
    (hshort : (HtmlParser.ofPage hops domainHops link).linkHeader.length + 16 < MAX_LINK_MEMORY)
    (hfits : ∀ call ∈ bodyCalls isCommonEnglishWord page hops domainHops link,
      Fits (HtmlParser.ofPage hops domainHops link).linkHeader call) :
    ∃ steps, (parsePage isCommonEnglishWord page hops domainHops link).links.sent =
        batches (HtmlParser.ofPage hops domainHops link).linkHeader steps ∧
      List.Forall₂ Renders
        ((bodyCalls isCommonEnglishWord page hops domainHops link).filter isLink)
        (steps.filter (· ≠ .flush)) ∧
      legal false steps = true ∧ ∀ s ∈ steps, s.Pushed ∨ Rejected s := by
  have hmakes := parseBody_makes isCommonEnglishWord page hops domainHops link
  have hheader : (parseBody isCommonEnglishWord page hops domainHops link).linkHeader =
      (HtmlParser.ofPage hops domainHops link).linkHeader := hmakes.header
  have hlinks : (parseBody isCommonEnglishWord page hops domainHops link).links =
      (bodyCalls isCommonEnglishWord page hops domainHops link).foldl
        (Call.onLinks (HtmlParser.ofPage hops domainHops link).linkHeader)
        ⟨(HtmlParser.ofPage hops domainHops link).linkHeader, []⟩ := hmakes.links
  have hfinish : (parsePage isCommonEnglishWord page hops domainHops link).links.sent =
      (parseBody isCommonEnglishWord page hops domainHops link).writeFooters.links.sent ++
        [(parseBody isCommonEnglishWord page hops domainHops link).writeFooters.links.data] := rfl
  have hfooters : (parseBody isCommonEnglishWord page hops domainHops link).writeFooters.links =
      pushLink (parseBody isCommonEnglishWord page hops domainHops link).linkHeader
        (ascii "</doc>") newline (parseBody isCommonEnglishWord page hops domainHops link).links :=
    rfl
  have hnil : (HtmlParser.ofPage hops domainHops link).linkHeader ≠ [] := by
    unfold HtmlParser.linkHeader
    exact fun h => nomatch (List.append_eq_nil_iff.mp h).2
  obtain ⟨steps, hrenders, hlegal, hpushed⟩ :=
    bodyCalls_are_steps isCommonEnglishWord page hops domainHops link hwhole
  have hstepsFit := steps_fit hrenders fun call hcall => hfits call (List.mem_of_mem_filter hcall)
  obtain ⟨flushed, hfilter, hbatches⟩ := exists_batches hnil hshort hstepsFit
  refine ⟨flushed, ?_, ?_, ?_, ?_⟩
  · rw [hfinish, hfooters, hheader, hlinks, foldl_onLinks hrenders hfits]
    exact hbatches
  · rw [hfilter, filter_flush hrenders]
    exact hrenders
  · rw [← legal_filter, hfilter, legal_filter]
    exact hlegal
  · intro s hs
    by_cases hflush : s = .flush
    · rw [hflush]
      exact .inl trivial
    · have hmem : s ∈ steps.filter (· ≠ .flush) :=
        hfilter ▸ List.mem_filter.mpr ⟨hs, decide_eq_true hflush⟩
      exact hpushed s (List.mem_of_mem_filter hmem)

end Batches

end seamus.link_pushes
