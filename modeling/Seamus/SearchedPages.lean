-- The way of a page through the engine: its text goes through the parser, the index, the chunk
-- file and the loader, and a query finds it by its words.
import Seamus.SearchedDocuments
import Seamus.WordSplitting

open interleaving seamus.html_tags seamus.html seamus.word_splitting seamus.expressions
  seamus.index_file seamus.indexed_documents seamus.searched_documents
open seamus.htmlserver (isKept removeSpecialChars)

namespace seamus.searched_pages

/-! ## Pages of plain text -/

/-- A page of words with a space after each, as the crawler hands it to the parser. -/
structure PlainPage where
  link : Bytes
  words : List Bytes
  /-- What is in memory after the page. -/
  after : Bytes
  hops : Nat
  domainHops : Nat

section Pages

variable (isCommonEnglishWord : Bytes → Bool)

/-- What `parse_page` writes to the parser file. -/
def PlainPage.output (p : PlainPage) : Bytes :=
  (parsePage isCommonEnglishWord (pageOf (textOf p.words) p.after) p.hops p.domainHops
    p.link).words.sent.flatten

/-- A page that the parser does not give up, with an address and words that fit into a line, and
whose words the parser and a query take as the same. -/
structure IsPlain (p : PlainPage) : Prop where
  words : ∀ w ∈ p.words, IsWord w
  same : ∀ w ∈ p.words, w ≠ [] → TakenAsOne w ∧ EndsWithBreak w
  short : ∀ w ∈ p.words, (queryWord w).length + 1 < 4096
  few : p.words.length < 0xD800
  live : (parsed isCommonEnglishWord p.after p.hops p.domainHops p.link
    (textOf p.words)).killed = false
  link_ne_nil : p.link ≠ []
  link_clean : ∀ c ∈ p.link, c ≠ newline ∧ c ≠ 0
  link_short : p.link.length + 1 < 2048

/-- The words of the page, as they go to the index. -/
def PlainPage.lines (p : PlainPage) : List Bytes := (p.words.filter (· ≠ [])).map queryWord

def PlainPage.record (p : PlainPage) : Record := ⟨lowercase p.link, p.lines⟩

def PlainPage.document (p : PlainPage) : Document := ⟨lowercase p.link, p.lines⟩

/-! ## What the parser writes -/

theorem written_caseConvert (b : BufferArray) : written (b.caseConvert 0) = written b := by
  unfold written BufferArray.caseConvert
  simp [lowercase_lowercase]

theorem pieceOf_line {str : Bytes} (h : str.length ≤ MAX_WORD_MEMORY - 2) :
    pieceOf str newline = lowercase str ++ [newline] := by
  rw [pieceOf_short h, if_neg (by decide)]
  rfl

theorem wordStream_eq {p : PlainPage} (h : IsPlain isCommonEnglishWord p) :
    p.words.flatMap wordStream = linesText p.lines := by
  unfold linesText PlainPage.lines
  have hsame := h.same
  generalize p.words = words at hsame
  induction words with
  | nil => rfl
  | cons w words ih =>
    obtain ⟨hw, hwords⟩ := List.forall_mem_cons.mp hsame
    rw [List.flatMap_cons, ih hwords]
    by_cases hnil : w = []
    · subst hnil
      rfl
    · obtain ⟨htaken, hend⟩ := hw hnil
      rw [wordStream_takenAsOne htaken hend, List.filter_cons_of_pos (by simpa using hnil),
        List.map_cons, List.flatMap_cons]

theorem output_eq {p : PlainPage} (h : IsPlain isCommonEnglishWord p) :
    p.output isCommonEnglishWord = p.record.text := by
  have hlink : p.link.takeWhile (· ≠ 0) = p.link :=
    List.takeWhile_eq_self_iff.mpr fun c hc => decide_eq_true (h.link_clean c hc).2
  have hshort : p.link.length ≤ MAX_WORD_MEMORY - 2 := by
    have hle := h.link_short
    unfold MAX_WORD_MEMORY
    omega
  have hstart : written (HtmlParser.ofPage p.hops p.domainHops p.link).writeHeaders.words =
      DOC_HEADER ++ (lowercase p.link ++ [newline]) := by
    change written (html.pushWord _ newline (html.pushWord (ascii "<doc>") newline ⟨[], []⟩)) = _
    rw [written_pushWord, written_pushWord]
    rw [show (HtmlParser.ofPage p.hops p.domainHops p.link).url = p.link from hlink,
      pieceOf_line hshort]
    rfl
  have hend : (parsed isCommonEnglishWord p.after p.hops p.domainHops p.link
      (textOf p.words)).finish.words = flushWords ((html.pushWord (ascii "</doc>") newline
        (parsed isCommonEnglishWord p.after p.hops p.domainHops p.link
          (textOf p.words)).words).caseConvert 0) := rfl
  have hsent : p.output isCommonEnglishWord = written (parsed isCommonEnglishWord p.after p.hops
      p.domainHops p.link (textOf p.words)).finish.words := by
    unfold written
    rw [hend, flushWords_data]
    exact (List.append_nil _).symm
  rw [hsent, hend, written_flushWords, written_caseConvert, written_pushWord,
    written_parsed (isTextChar_textOf h.words) h.live, hstart, emitted_textOf,
    wordStream_eq isCommonEnglishWord h]
  have hfooter : pieceOf (ascii "</doc>") newline = DOC_END := by decide
  rw [hfooter, Record.text, PlainPage.record]
  simp

/-! ## What the index takes -/

theorem isKept_lt {c : UInt8} (h : isKept c = true) : c.toNat < 128 ∧ c ≠ 60 := by
  unfold isKept isDigit at h
  simp only [Bool.or_eq_true, Bool.and_eq_true, decide_eq_true_eq, UInt8.le_iff_toNat_le,
    UInt8.reduceToNat] at h
  constructor
  · rcases h with ((((((h | h) | rfl) | rfl) | rfl) | rfl) | rfl) | rfl
    all_goals first | omega | decide
  · rintro rfl
    revert h
    decide

/-- What a word becomes in a query: a letter or digit, and no space, zero byte or `<`. -/
theorem queryWord_chars {w : Bytes} (h : IsWord w) : ∀ c ∈ queryWord w,
    (isalnum c = true ∨ c = 45) ∧ isKept c = true := by
  intro c hc
  obtain ⟨hmem, hkept⟩ := List.mem_filter.mp hc
  obtain ⟨d, hd, rfl⟩ := List.mem_map.mp hmem
  refine ⟨?_, hkept⟩
  rcases h.chars d hd with halnum | hmark
  · exact Or.inl (isalnum_tolower halnum)
  · right
    rw [isKept_mark hmark, decide_eq_true_eq] at hkept
    rw [hkept]
    rfl

theorem isRejected_of_queryWord {w : Bytes} (h : IsWord w) {c : UInt8} (hc : c ∈ queryWord w) :
    isRejected c = false := by
  obtain ⟨hchar, _⟩ := queryWord_chars h c hc
  rcases hchar with halnum | rfl
  · unfold isRejected
    simp only [Bool.or_eq_false_iff, decide_eq_false_iff_not]
    refine ⟨⟨⟨?_, ?_⟩, ?_⟩, ?_⟩ <;> rintro rfl <;> revert halnum <;> decide
  · decide

theorem wordOf_queryWord {w : Bytes} (h : IsWord w) (hnil : w ≠ []) :
    wordOf (queryWord w) = some (queryWord w) := by
  have hno (c : UInt8) (hc : c ∈ queryWord w) := isRejected_of_queryWord h hc
  have hstr : cString (queryWord w ++ [newline]) = queryWord w ++ [newline] := by
    unfold cString
    rw [List.takeWhile_append_of_pos fun c hc => ?_]
    · rfl
    · have hrejected := hno c hc
      unfold isRejected at hrejected
      simp only [Bool.or_eq_false_iff, decide_eq_false_iff_not] at hrejected
      exact decide_eq_true hrejected.2
  have hangle (line : Bytes) (hmem : (60 : UInt8) ∈ line) : queryWord w ++ [newline] ≠ line := by
    rintro rfl
    rcases List.mem_append.mp hmem with hc | hc
    · exact (isKept_lt (queryWord_chars h 60 hc).2).2 rfl
    · revert hc
      decide
  have hlength : ¬(queryWord w ++ [newline]).length ≤ 1 := by
    have hpos := List.length_pos_iff.mpr (queryWord_ne_nil h hnil)
    rw [List.length_append, List.length_singleton]
    omega
  have hany : (queryWord w).any isRejected = false := by
    rw [List.any_eq_false]
    exact fun c hc => by rw [hno c hc]; exact Bool.false_ne_true
  unfold wordOf docLine
  simp only [hstr, hangle DOC_END (by decide), hangle TITLE_END (by decide),
    hangle TITLE_START (by decide), hlength, List.dropLast_concat, hany, if_false, ne_eq,
    not_false_eq_true, and_self, if_true, Bool.false_eq_true]

theorem isLine_queryWord {p : PlainPage} (h : IsPlain isCommonEnglishWord p) {w : Bytes}
    (hw : w ∈ p.words) : IsLine (queryWord w) where
  whole := newline_notMem_queryWord w
  short := h.short w hw
  notEnd := by
    intro hend
    have hmem : (60 : UInt8) ∈ queryWord w ++ [newline] := by
      rw [hend]
      decide
    rcases List.mem_append.mp hmem with hc | hc
    · exact (isKept_lt (queryWord_chars (h.words w hw) 60 hc).2).2 rfl
    · revert hc
      decide

theorem mem_lines {p : PlainPage} {line : Bytes} (h : line ∈ p.lines) :
    ∃ w ∈ p.words, w ≠ [] ∧ queryWord w = line := by
  obtain ⟨w, hw, rfl⟩ := List.mem_map.mp h
  obtain ⟨hw, hnil⟩ := List.mem_filter.mp hw
  exact ⟨w, hw, of_decide_eq_true hnil, rfl⟩

theorem length_lines_le (p : PlainPage) : p.lines.length ≤ p.words.length := by
  rw [PlainPage.lines, List.length_map]
  exact List.length_filter_le _ _

theorem document_record {p : PlainPage} (h : IsPlain isCommonEnglishWord p) :
    p.record.document = p.document := by
  unfold Record.document PlainPage.document PlainPage.record
  refine congrArg (Document.mk _) ((List.filterMap_congr fun line hline => ?_).trans
    List.filterMap_some)
  obtain ⟨w, hw, hnil, rfl⟩ := mem_lines hline
  exact wordOf_queryWord (h.words w hw) hnil

theorem isRecord_record {p : PlainPage} (h : IsPlain isCommonEnglishWord p) : IsRecord p.record where
  url_ne_nil := fun hnil => h.link_ne_nil (List.map_eq_nil_iff.mp hnil)
  url_clean c hc := by
    obtain ⟨d, hd, rfl⟩ := List.mem_map.mp hc
    obtain ⟨hnewline, hzero⟩ := h.link_clean d hd
    exact ⟨fun heq => hnewline (tolower_eq_low (by decide) heq),
      fun heq => hzero (tolower_eq_low (by decide) heq)⟩
  url_short := by
    have hle := h.link_short
    simpa [PlainPage.record, lowercase] using hle
  lines line hline := by
    obtain ⟨w, hw, _, rfl⟩ := mem_lines hline
    exact isLine_queryWord isCommonEnglishWord h hw
  words := by
    rw [document_record isCommonEnglishWord h]
    exact lt_of_le_of_lt (length_lines_le p) (h.few.trans (by decide))

theorem indexable_queryWord {w : Bytes} (h : IsWord w) (hnil : w ≠ [])
    (hshort : (queryWord w).length < 2 ^ 32) :
    sort.Indexable (queryWord w) ∧ ∀ b ∈ queryWord w, b.toNat < 128 := by
  refine ⟨⟨?_, ?_, hshort⟩, fun b hb => (isKept_lt (queryWord_chars h b hb).2).1⟩
  · obtain ⟨c, rest, rfl⟩ := List.exists_cons_of_ne_nil hnil
    have halnum := h.head c rfl
    rw [queryWord_cons halnum, sort.hasSlot]
    unfold isalnum isDigit at halnum
    unfold sort.isLetter isDigit tolower
    simp only [Bool.or_eq_true, Bool.and_eq_true, decide_eq_true_eq, UInt8.le_iff_toNat_le,
      UInt8.reduceToNat] at halnum ⊢
    split
    · rename_i hletter
      rw [UInt8.toNat_add]
      simp only [UInt8.reduceToNat]
      omega
    · omega
  · intro b hb
    have hrejected := isRejected_of_queryWord h hb
    unfold isRejected at hrejected
    simp only [Bool.or_eq_false_iff, decide_eq_false_iff_not] at hrejected
    obtain ⟨⟨⟨hspace, hnewline⟩, htab⟩, hzero⟩ := hrejected
    exact ⟨hspace, hnewline, htab, hzero⟩

/-! ## Pages and queries -/

/-- The turns of a call of `index_file` on the parser file of these pages. -/
def callFor (pages : List PlainPage) : List Turn :=
  .indexFile (some ⟨pages.flatMap (PlainPage.output isCommonEnglishWord), false⟩) ::
    List.replicate ((pages.map fun p => p.lines.length + 4).sum + 1) (.goOn true)

theorem callFor_eq {pages : List PlainPage} (h : ∀ p ∈ pages, IsPlain isCommonEnglishWord p) :
    callFor isCommonEnglishWord pages = callOf (pages.map PlainPage.record) := by
  unfold callFor callOf fileOf
  rw [List.flatMap_map, List.flatMap_congr fun p hp => output_eq isCommonEnglishWord (h p hp),
    List.map_map]
  rfl

theorem searchable_of_plain {pages : List PlainPage} (h : ∀ p ∈ pages, IsPlain isCommonEnglishWord p)
    {part : List Document} (hpart : part.Sublist (pages.map PlainPage.document))
    (hfew : pages.length < 0xD800) : Searchable part := by
  have hpage : ∀ d ∈ part, ∃ p ∈ pages, p.document = d := fun d hd =>
    List.mem_map.mp (hpart.subset hd)
  refine ⟨?_, fun d hd => ?_, fun d hd => ?_, fun d hd word hword => ?_⟩
  · have hle := hpart.length_le
    rw [List.length_map] at hle
    omega
  · obtain ⟨p, hp, rfl⟩ := hpage d hd
    have hrecord := isRecord_record isCommonEnglishWord (h p hp)
    have hshort := hrecord.url_short
    exact ⟨fun hmem => (hrecord.url_clean newline hmem).1 rfl,
      (Nat.lt_of_succ_lt hshort).trans (by decide)⟩
  · obtain ⟨p, hp, rfl⟩ := hpage d hd
    exact lt_of_le_of_lt (length_lines_le p) (h p hp).few
  · obtain ⟨p, hp, rfl⟩ := hpage d hd
    obtain ⟨w, hw, hnil, rfl⟩ := mem_lines hword
    have hshort := (h p hp).short w hw
    exact indexable_queryWord ((h p hp).words w hw) hnil (by omega)

/-! ### Typed words -/

/-- The leaves of a query of words, with their ids from `id` on. -/
def wordLeaves (id : Nat) : List Token → List ASTNode
  | [] => []
  | t :: ts => wordToken false t id :: wordLeaves (id + 1) ts

theorem parseFactors_words {ts : List Token} (hts : ∀ t ∈ ts, t.type = .word) (fuel id : Nat)
    (hfuel : ts.length + 1 < fuel) :
    parseFactors fuel ts id = .ok (wordLeaves id ts, [], id + ts.length) := by
  induction ts generalizing fuel id with
  | nil =>
    obtain ⟨fuel, rfl⟩ : ∃ n, fuel = n + 1 := ⟨fuel - 1, by omega⟩
    rfl
  | cons t ts ih =>
    obtain ⟨fuel, rfl⟩ : ∃ n, fuel = n + 2 := ⟨fuel - 2, by omega⟩
    obtain ⟨ht, hts⟩ := List.forall_mem_cons.mp hts
    rw [List.length_cons] at hfuel
    have hfactor : parseFactor (fuel + 1) (t :: ts) id = .ok (wordToken false t id, ts, id + 1) := by
      rw [parseFactor, ht]
    have hrest := ih hts (fuel + 1) (id + 1) (by omega)
    rw [parseFactors, ht, if_neg (by decide), hfactor]
    simp only [Outcome.bind, hrest, wordLeaves, List.length_cons]
    rw [Nat.add_assoc, Nat.add_comm 1 ts.length]

/-- Words alone are an AND of all of them. -/
theorem parseTokens_words {ts : List Token} (hts : ∀ t ∈ ts, t.type = .word) (hne : ts ≠ []) :
    parseTokens ts = .ok (single .and (wordLeaves 0 ts)) := by
  have hleaves : wordLeaves 0 ts ≠ [] := by
    obtain ⟨t, rest, rfl⟩ := List.exists_cons_of_ne_nil hne
    exact List.cons_ne_nil _ _
  obtain ⟨fuel, hfuel⟩ : ∃ n, parseFuel ts = n + 2 := ⟨5 * ts.length + 3, rfl⟩
  have hroom : ts.length + 1 < fuel := by
    unfold parseFuel at hfuel
    omega
  have hseq : parseTermSeq (fuel + 1) ts 0 =
      .ok (single .and (wordLeaves 0 ts), [], 0 + ts.length) := by
    rw [parseTermSeq, parseFactors_words hts fuel 0 hroom, Outcome.bind]
    simp only [hleaves, if_false]
  unfold parseTokens
  rw [hfuel, parseExpr, hseq]
  rfl

theorem leaves_wordLeaves (ts : List Token) (id : Nat) :
    ∀ t ∈ chunk_query.leavesAll (wordLeaves id ts), t.isNegated = false := by
  induction ts generalizing id with
  | nil => simp [wordLeaves, chunk_query.leavesAll]
  | cons t ts ih =>
    rw [wordLeaves, chunk_query.leavesAll, wordToken, chunk_query.leaves, List.singleton_append]
    exact List.forall_mem_cons.mpr ⟨rfl, ih (id + 1)⟩

theorem allHold_wordLeaves (words : List Bytes) (ts : List Token) (id : Nat) :
    AllHold (query_grammar.leafHolds (holdsIn words)) (wordLeaves id ts) ↔
      ∀ t ∈ ts, t.val ∈ words := by
  induction ts generalizing id with
  | nil => simp [wordLeaves, AllHold]
  | cons t ts ih =>
    rw [wordLeaves, AllHold, ih, List.forall_mem_cons]
    rfl

theorem single_and {P : ASTNode → Prop} {nodes : List ASTNode}
    (hone : ∀ node, nodes = [node] → P node) (hmany : P (.and nodes)) : P (single .and nodes) := by
  match nodes with
  | [] => exact hmany
  | [node] => exact hone node rfl
  | _ :: _ :: _ => exact hmany

/-- What the server makes of typed words is a query without negations for all of them. -/
theorem typed_words_parse {typed : List Bytes} (h : ∀ w ∈ typed, IsWord w)
    (hne : ∃ w ∈ typed, w ≠ []) :
    ∃ ast, parseQueryAst (removeSpecialChars (textOf typed)) = .ok ast ∧ AllPositive ast ∧
      ∀ d : Document, Matches ast d ↔ ∀ w ∈ typed, w ≠ [] → queryWord w ∈ d.words := by
  have htokens : tokenize (removeSpecialChars (textOf typed)) =
      ((typed.map queryWord).filter (· ≠ [])).map fun word => (⟨.word, word⟩ : Token) := by
    rw [removeSpecialChars_textOf]
    exact tokenizeLoop_textOf (List.forall_mem_map.mpr fun w hw => tokenizes_queryWord (h w hw))
      (Nat.lt_succ_of_le (length_le_textOf _))
  have htypes : ∀ t ∈ tokenize (removeSpecialChars (textOf typed)), t.type = .word := by
    rw [htokens]
    intro t ht
    obtain ⟨word, _, rfl⟩ := List.mem_map.mp ht
    rfl
  have hnil : tokenize (removeSpecialChars (textOf typed)) ≠ [] := by
    obtain ⟨w, hw, hwnil⟩ := hne
    rw [htokens]
    refine List.ne_nil_of_mem (List.mem_map_of_mem (List.mem_filter.mpr
      ⟨List.mem_map_of_mem hw, decide_eq_true (queryWord_ne_nil (h w hw) hwnil)⟩))
  refine ⟨_, query_validity.parseQueryAst_of_tokens hnil (parseTokens_words htypes hnil), ?_, ?_⟩
  · refine single_and (fun node hnode => ?_) ?_
    · have hleaves := leaves_wordLeaves (tokenize (removeSpecialChars (textOf typed))) 0
      rw [hnode, chunk_query.leavesAll, chunk_query.leavesAll, List.append_nil] at hleaves
      exact hleaves
    · unfold AllPositive
      rw [chunk_query.leaves]
      exact leaves_wordLeaves _ 0
  · intro d
    have hall := allHold_wordLeaves d.words (tokenize (removeSpecialChars (textOf typed))) 0
    have hmatch : Matches (single .and (wordLeaves 0 (tokenize (removeSpecialChars
        (textOf typed))))) d ↔ ∀ t ∈ tokenize (removeSpecialChars (textOf typed)),
          t.val ∈ d.words := by
      refine @single_and (fun node => Matches node d ↔ ∀ t ∈ tokenize (removeSpecialChars
        (textOf typed)), t.val ∈ d.words) _ (fun node hnode => ?_) hall
      rw [hnode, AllHold, AllHold, and_true] at hall
      exact hall
    rw [hmatch, htokens]
    constructor
    · intro hd w hw hwnil
      exact hd ⟨.word, queryWord w⟩ (List.mem_map_of_mem (List.mem_filter.mpr
        ⟨List.mem_map_of_mem hw, decide_eq_true (queryWord_ne_nil (h w hw) hwnil)⟩))
    · intro hd t ht
      obtain ⟨word, hword, rfl⟩ := List.mem_map.mp ht
      obtain ⟨hword, hwordNil⟩ := List.mem_filter.mp hword
      obtain ⟨w, hw, rfl⟩ := List.mem_map.mp hword
      refine hd w hw ?_
      rintro rfl
      exact of_decide_eq_true hwordNil rfl

/-- Pages of plain text that are parsed, indexed and written to chunk files are found again: each
page is a document of one chunk file, in order, and every query without negations gets from each
file the pages whose words match it. What a user types as words is such a query, for the pages
with all of them. -/
theorem pages_are_found (chunk : Nat) (files : List (List PlainPage))
    (hplain : ∀ p ∈ files.flatten, IsPlain isCommonEnglishWord p)
    (hfew : files.flatten.length < 0xD800) (hfit : chunk + files.flatten.length + 1 < 2 ^ 32) :
    ∃ s parts, exec step (files.flatMap (callFor isCommonEnglishWord) ++ [.flush true])
        (start chunk) = some s ∧
      parts.flatten = files.flatten.map PlainPage.document ∧
      s.files.map ChunkFile.chunk = List.range' chunk parts.length ∧
      List.Forall₂ Answers s.files parts ∧
      ∀ typed, (∀ w ∈ typed, IsWord w) → (∃ w ∈ typed, w ≠ []) →
        ∃ ast, parseQueryAst (removeSpecialChars (textOf typed)) = .ok ast ∧ AllPositive ast ∧
          ∀ d : Document, Matches ast d ↔ ∀ w ∈ typed, w ≠ [] → queryWord w ∈ d.words := by
  have hcalls : files.flatMap (callFor isCommonEnglishWord) =
      (files.map fun pages => pages.map PlainPage.record).flatMap callOf := by
    rw [List.flatMap_map]
    exact List.flatMap_congr fun pages hpages => callFor_eq isCommonEnglishWord fun p hp =>
      hplain p (List.mem_flatten.mpr ⟨pages, hpages, hp⟩)
  have hflatten : (files.map fun pages => pages.map PlainPage.record).flatten =
      files.flatten.map PlainPage.record := List.map_flatten.symm
  have hdocuments : (files.flatten.map PlainPage.record).map Record.document =
      files.flatten.map PlainPage.document := by
    rw [List.map_map]
    exact List.map_congr_left fun p hp => document_record isCommonEnglishWord (hplain p hp)
  obtain ⟨s, parts, last, hrun, hdocs, hsaved⟩ := exec_files chunk
    (files.map fun pages => pages.map PlainPage.record)
    (by
      rw [hflatten]
      intro r hr
      obtain ⟨p, hp, rfl⟩ := List.mem_map.mp hr
      exact isRecord_record isCommonEnglishWord (hplain p hp))
    (by rwa [hflatten, List.length_map])
  rw [hflatten, hdocuments] at hdocs
  have hall : (parts ++ [last]).flatten = files.flatten.map PlainPage.document := by
    rw [List.flatten_append, List.flatten_singleton, hdocs]
  refine ⟨s, parts ++ [last], hcalls ▸ hrun, hall, ?_, ?_, fun typed => typed_words_parse⟩
  · rw [hsaved.numbers, List.length_append, List.length_singleton]
  · refine List.forall₂_iff_zip.mpr ⟨hsaved.files.length_eq, fun hzip => ?_⟩
    refine answers_of_indexOf (List.forall₂_zip hsaved.files hzip) ?_
    refine searchable_of_plain isCommonEnglishWord hplain ?_ hfew
    rw [← hall]
    exact List.sublist_flatten_of_mem (List.of_mem_zip hzip).2

end Pages

/-- The page `Cat 3,14 ` at `u`. -/
def catPage : PlainPage := ⟨ascii "u", [ascii "Cat", ascii "3,14"], [], 0, 0⟩

theorem catPage_is_found : ∃ s parts,
    exec step ([[catPage], [catPage]].flatMap (callFor fun _ => false) ++ [.flush true]) (start 0) =
        some s ∧
      parts.flatten =
        [⟨ascii "u", [ascii "cat", ascii "314"]⟩, ⟨ascii "u", [ascii "cat", ascii "314"]⟩] ∧
      List.Forall₂ Answers s.files parts := by
  have h14 : TakenAsOne (ascii "14" ++ []) := .last (by decide) (by decide)
  have hcat : TakenAsOne (ascii "Cat" ++ []) := .last (by decide) (by decide)
  have hpi : TakenAsOne (ascii "3,14") :=
    @TakenAsOne.join (ascii "3") [] (ascii "14") 44 (by decide) (by decide) (by decide) h14
  have hplain : IsPlain (fun _ => false) catPage := by
    refine ⟨by decide, ?_, by decide, by decide, by decide +kernel, by decide, by decide +kernel,
      by decide⟩
    exact List.forall_mem_cons.mpr ⟨fun _ => ⟨hcat, by decide⟩,
      List.forall_mem_singleton.mpr fun _ => ⟨hpi, by decide⟩⟩
  obtain ⟨s, parts, hrun, hdocs, _, hanswers, _⟩ :=
    pages_are_found (fun _ => false) 0 [[catPage], [catPage]] (by simp [hplain])
      (by decide) (by decide)
  exact ⟨s, parts, hrun, hdocs, hanswers⟩

end seamus.searched_pages
