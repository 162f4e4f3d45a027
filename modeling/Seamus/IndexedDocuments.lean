-- What `index_file` makes of files of whole documents: which documents go into which chunk,
-- and for each word its places in them.
import Seamus.IndexFile

open interleaving seamus.index seamus.index_file

namespace seamus.indexed_documents

/-! ## The documents of a chunk -/

/-- What the index keeps of a document. -/
structure Document where
  url : Bytes
  words : List Bytes
  deriving DecidableEq

/-- The places of a word in a document, from 1 on. -/
def placesOf (word : Bytes) (words : List Bytes) : List Nat :=
  ((words.zipIdx 1).filter fun w => w.1 = word).map Prod.snd

def postsIn (word : Bytes) (doc : Nat) (words : List Bytes) : List Post :=
  (placesOf word words).map (Post.mk doc)

/-- The posts of a word in documents that have the numbers from 1 on. -/
def occurrences (word : Bytes) (docs : List Document) : List Post :=
  (docs.zipIdx 1).flatMap fun d => postsIn word d.2 d.1.words

def docsWith (word : Bytes) (docs : List Document) : Nat := docs.countP fun d => word ∈ d.words

def numWords (docs : List Document) : Nat := (docs.map fun d => d.words.length).sum

/-- `index[word]`. -/
def postingsOf (index : TermIndex) (word : Bytes) : Postings := (index.lookup word).getD ⟨[], 0⟩

/-- The URLs and the index of a chunk are those of these documents. -/
structure IndexOf (urls : List Bytes) (index : TermIndex) (docs : List Document) : Prop where
  urls : urls = docs.map Document.url
  postings : ∀ word, postingsOf index word = ⟨occurrences word docs, docsWith word docs⟩
  nodup : (index.map Prod.fst).Nodup
  words : ∀ word, word ∈ index.map Prod.fst ↔ ∃ d ∈ docs, word ∈ d.words
  posts : (index.map fun e => e.2.posts.length).sum = numWords docs

/-- The chunk in memory is that of these documents. -/
structure Holds (c : IndexChunk) (docs : List Document) : Prop where
  indexed : IndexOf c.urls c.index docs
  currDoc : c.currDoc = docs.length + 1
  postsBytes : c.postsBytes = SIZEOF_POST * numWords docs

/-! ### Places -/

theorem placesOf_concat (word w : Bytes) (words : List Bytes) :
    placesOf word (words ++ [w]) =
      placesOf word words ++ if w = word then [words.length + 1] else [] := by
  unfold placesOf
  rw [List.zipIdx_append, List.filter_append, List.map_append]
  congr 1
  by_cases h : w = word <;> simp [h, Nat.add_comm]

theorem mem_placesOf {word : Bytes} {words : List Bytes} {loc : Nat} :
    loc ∈ placesOf word words ↔ 1 ≤ loc ∧ words[loc - 1]? = some word := by
  unfold placesOf
  simp only [List.mem_map, List.mem_filter, decide_eq_true_eq, Prod.exists, exists_eq_right,
    List.mem_zipIdx_iff_le_and_getElem?_sub]

theorem occurrences_concat (word : Bytes) (docs : List Document) (d : Document) :
    occurrences word (docs ++ [d]) =
      occurrences word docs ++ postsIn word (docs.length + 1) d.words := by
  unfold occurrences
  rw [List.zipIdx_append, List.flatMap_append, Nat.add_comm 1 docs.length]
  simp

theorem mem_occurrences {word : Bytes} {docs : List Document} {p : Post} :
    p ∈ occurrences word docs ↔
      1 ≤ p.doc ∧ 1 ≤ p.loc ∧ ∃ d, docs[p.doc - 1]? = some d ∧ d.words[p.loc - 1]? = some word := by
  unfold occurrences postsIn
  simp only [List.mem_flatMap, List.mem_map, Prod.exists, List.mem_zipIdx_iff_le_and_getElem?_sub,
    mem_placesOf]
  constructor
  · rintro ⟨d, doc, ⟨hle, hd⟩, loc, ⟨hloc, hw⟩, rfl⟩
    exact ⟨hle, hloc, d, hd, hw⟩
  · rintro ⟨hle, hloc, d, hd, hw⟩
    exact ⟨d, p.doc, ⟨hle, hd⟩, p.loc, ⟨hloc, hw⟩, rfl⟩

theorem occurrences_newDoc (word : Bytes) (docs : List Document) (url : Bytes) :
    occurrences word (docs ++ [⟨url, []⟩]) = occurrences word docs := by
  rw [occurrences_concat]
  simp [postsIn, placesOf]

theorem occurrences_newWord (word w url : Bytes) (docs : List Document) (words : List Bytes) :
    occurrences word (docs ++ [⟨url, words ++ [w]⟩]) =
      occurrences word (docs ++ [⟨url, words⟩]) ++
        if w = word then [⟨docs.length + 1, words.length + 1⟩] else [] := by
  rw [occurrences_concat, occurrences_concat, List.append_assoc]
  congr 1
  unfold postsIn
  rw [placesOf_concat, List.map_append]
  congr 1
  by_cases h : w = word <;> simp [h]

theorem docsWith_newDoc (word : Bytes) (docs : List Document) (url : Bytes) :
    docsWith word (docs ++ [⟨url, []⟩]) = docsWith word docs := by simp [docsWith]

theorem docsWith_newWord (word w url : Bytes) (docs : List Document) (words : List Bytes) :
    docsWith word (docs ++ [⟨url, words ++ [w]⟩]) =
      docsWith word (docs ++ [⟨url, words⟩]) + if w = word ∧ word ∉ words then 1 else 0 := by
  unfold docsWith
  rw [List.countP_append, List.countP_append, Nat.add_assoc]
  congr 1
  by_cases hw : w = word
  · subst hw
    by_cases hmem : w ∈ words <;> simp [hmem]
  · simp [hw, Ne.symm hw]

theorem numWords_newDoc (docs : List Document) (url : Bytes) :
    numWords (docs ++ [⟨url, []⟩]) = numWords docs := by simp [numWords]

theorem numWords_newWord (w url : Bytes) (docs : List Document) (words : List Bytes) :
    numWords (docs ++ [⟨url, words ++ [w]⟩]) = numWords (docs ++ [⟨url, words⟩]) + 1 := by
  simp [numWords, Nat.add_assoc]

/-! ### The index -/

theorem postingsOf_updateWord (f : Postings → Postings) (word w : Bytes) (index : TermIndex) :
    postingsOf (updateWord f w index) word =
      if w = word then f (postingsOf index word) else postingsOf index word := by
  unfold postingsOf
  induction index with
  | nil =>
    by_cases h : word = w
    · simp [updateWord, h]
    · have hne : (word == w) = false := beq_eq_false_iff_ne.mpr h
      simp [updateWord, List.lookup_cons, hne, Ne.symm h]
  | cons e index ih =>
    obtain ⟨key, value⟩ := e
    unfold updateWord
    by_cases hkey : key = w
    · subst hkey
      by_cases h : key = word
      · simp [h]
      · have hne : (word == key) = false := beq_eq_false_iff_ne.mpr (Ne.symm h)
        simp [h, List.lookup_cons, hne]
    · rw [if_neg hkey]
      by_cases h : word = key
      · subst h
        have hne : ¬w = word := Ne.symm hkey
        simp [hne]
      · have hne : (word == key) = false := beq_eq_false_iff_ne.mpr h
        simpa [List.lookup_cons, hne] using ih

theorem mem_updateWord {f : Postings → Postings} {word w : Bytes} {index : TermIndex} :
    word ∈ (updateWord f w index).map Prod.fst ↔ word = w ∨ word ∈ index.map Prod.fst := by
  induction index with
  | nil => simp [updateWord]
  | cons e index ih =>
    obtain ⟨key, value⟩ := e
    unfold updateWord
    by_cases hkey : key = w
    · subst hkey
      simp
    · rw [if_neg hkey, List.map_cons, List.mem_cons, ih, List.map_cons, List.mem_cons, or_left_comm]

theorem nodup_updateWord {f : Postings → Postings} {w : Bytes} {index : TermIndex}
    (h : (index.map Prod.fst).Nodup) : ((updateWord f w index).map Prod.fst).Nodup := by
  induction index with
  | nil => simp [updateWord]
  | cons e index ih =>
    obtain ⟨key, value⟩ := e
    rw [List.map_cons, List.nodup_cons] at h
    unfold updateWord
    by_cases hkey : key = w
    · rw [if_pos hkey, List.map_cons, List.nodup_cons]
      exact h
    · rw [if_neg hkey, List.map_cons, List.nodup_cons, mem_updateWord]
      refine ⟨?_, ih h.2⟩
      rintro (heq | hmem)
      · exact hkey heq
      · exact h.1 hmem

theorem numPosts_updateWord (isNew : Bool) (p : Post) (w : Bytes) (index : TermIndex) :
    ((updateWord (addPost isNew p) w index).map fun e => e.2.posts.length).sum =
      (index.map fun e => e.2.posts.length).sum + 1 := by
  induction index with
  | nil => simp [updateWord, addPost]
  | cons e index ih =>
    obtain ⟨key, value⟩ := e
    unfold updateWord
    by_cases hkey : key = w
    · rw [if_pos hkey, List.map_cons, List.sum_cons, List.map_cons, List.sum_cons, addPost,
        List.length_append, List.length_singleton]
      exact Nat.add_right_comm _ 1 _
    · rw [if_neg hkey, List.map_cons, List.sum_cons, ih, List.map_cons, List.sum_cons, Nat.add_assoc]

/-! ### What the steps of a document keep -/

theorem Holds.new (chunk : Nat) : Holds (.new chunk) [] where
  indexed := {
    urls := rfl
    postings := fun _ => rfl
    nodup := List.nodup_nil
    words := fun word => by simp [IndexChunk.new]
    posts := rfl }
  currDoc := rfl
  postsBytes := rfl

theorem Holds.addUrl {c : IndexChunk} {docs : List Document} (h : Holds c docs) (url : Bytes)
    (hdoc : docs.length + 2 < 2 ^ 32) : Holds (c.addUrl url) (docs ++ [⟨url, []⟩]) where
  indexed := {
    urls := by simp [IndexChunk.addUrl, h.indexed.urls]
    postings := fun word => by
      rw [occurrences_newDoc, docsWith_newDoc]
      exact h.indexed.postings word
    nodup := h.indexed.nodup
    words := fun word => by
      rw [IndexChunk.addUrl, h.indexed.words]
      simp [or_and_right, exists_or]
    posts := by
      rw [numWords_newDoc]
      exact h.indexed.posts }
  currDoc := by
    rw [IndexChunk.addUrl, h.currDoc, u32_of_lt (by omega), List.length_append, List.length_singleton]
  postsBytes := by
    rw [numWords_newDoc]
    exact h.postsBytes

theorem Holds.addWord {c : IndexChunk} {docs : List Document} {url : Bytes} {words : List Bytes}
    (h : Holds c (docs ++ [⟨url, words⟩])) (w : Bytes) (hloc : words.length + 1 < 2 ^ 32) :
    Holds (c.addWord (docs.length + 1) words.length words.reverse w)
      (docs ++ [⟨url, words ++ [w]⟩]) where
  indexed := {
    urls := by
      have hurls := h.indexed.urls
      rw [List.map_append] at hurls ⊢
      exact hurls
    postings := fun word => by
      rw [IndexChunk.addWord, postingsOf_updateWord, h.indexed.postings, u32_of_lt hloc,
        occurrences_newWord, docsWith_newWord]
      by_cases hw : w = word
      · subst hw
        by_cases hmem : w ∈ words <;> simp [addPost, hmem]
      · simp [hw]
    nodup := nodup_updateWord h.indexed.nodup
    words := fun word => by
      rw [IndexChunk.addWord, mem_updateWord, h.indexed.words]
      simp only [List.mem_append, List.mem_singleton, or_and_right, exists_or, exists_eq_left]
      rw [or_comm, or_assoc]
    posts := by
      rw [IndexChunk.addWord, numPosts_updateWord, h.indexed.posts, numWords_newWord] }
  currDoc := by
    have hdoc := h.currDoc
    simp only [List.length_append, List.length_singleton] at hdoc ⊢
    exact hdoc
  postsBytes := by
    rw [numWords_newWord, Nat.mul_add, ← h.postsBytes]
    rfl

/-! ## Files of documents -/

/-- A document as it stands in a parser file. -/
structure Record where
  url : Bytes
  lines : List Bytes
  deriving DecidableEq

/-- The word on a line, none if the line is skipped. -/
def wordOf (line : Bytes) : Option Bytes :=
  match docLine (line ++ [newline]) with
  | .word word => some word
  | .skip | .endDoc => none

def Record.document (r : Record) : Document := ⟨r.url, r.lines.filterMap wordOf⟩

def linesText (lines : List Bytes) : Bytes := lines.flatMap fun line => line ++ [newline]

def Record.text (r : Record) : Bytes :=
  DOC_HEADER ++ (r.url ++ newline :: (linesText r.lines ++ DOC_END))

/-- A line that `fgets` takes in one go, and that does not end the document. -/
structure IsLine (line : Bytes) : Prop where
  whole : newline ∉ line
  short : line.length + 1 < 4096
  notEnd : line ++ [newline] ≠ DOC_END

structure IsRecord (r : Record) : Prop where
  url_ne_nil : r.url ≠ []
  url_clean : ∀ c ∈ r.url, c ≠ newline ∧ c ≠ 0
  url_short : r.url.length + 1 < 2048
  lines : ∀ line ∈ r.lines, IsLine line
  /-- Its words have locations in 32 bits. -/
  words : r.document.words.length < 2 ^ 32

def fileOf (records : List Record) : InputFile := ⟨records.flatMap Record.text, false⟩

/-! ### A line -/

theorem takeLine_line {line : Bytes} (rest : Bytes) (h : newline ∉ line) {n : Nat}
    (hn : line.length < n) : takeLine n (line ++ newline :: rest) = (line ++ [newline], rest) := by
  induction line generalizing n with
  | nil =>
    obtain ⟨m, rfl⟩ := Nat.exists_eq_add_one_of_ne_zero (Nat.ne_of_gt hn)
    rfl
  | cons c line ih =>
    obtain ⟨m, rfl⟩ := Nat.exists_eq_add_one_of_ne_zero (Nat.ne_of_gt (Nat.zero_lt_of_lt hn))
    rw [List.mem_cons, not_or] at h
    rw [List.cons_append, takeLine, if_neg (Ne.symm h.1), ih h.2 (Nat.lt_of_succ_lt_succ hn)]
    rfl

theorem fgets_line {line : Bytes} (rest : Bytes) (h : newline ∉ line) {size : Nat}
    (hsize : line.length + 1 < size) :
    fgets size ⟨line ++ newline :: rest, false⟩ = (some (line ++ [newline]), ⟨rest, false⟩) := by
  unfold fgets
  simp only [takeLine_line rest h (show line.length < size - 1 by omega)]
  simp

theorem fgets_nil (size : Nat) (hsize : 1 < size) : fgets size ⟨[], false⟩ = (none, ⟨[], false⟩) := by
  obtain ⟨n, hn⟩ : ∃ n, size - 1 = n + 1 := ⟨size - 2, by omega⟩
  unfold fgets
  rw [hn]
  rfl

/-- Only a whole line ends a document: one that is cut off at a zero byte has no newline. -/
theorem docLine_eq_endDoc {line : Bytes} (h : newline ∉ line)
    (hline : docLine (line ++ [newline]) = .endDoc) : line ++ [newline] = DOC_END := by
  have hstr : cString (line ++ [newline]) = DOC_END := by
    by_contra hne
    unfold docLine at hline
    simp only [hne, if_false] at hline
    split at hline
    · split at hline
      · cases hline
      · split at hline <;> cases hline
    · cases hline
  unfold cString at hstr
  rw [List.takeWhile_append] at hstr
  split at hstr
  · rename_i hlength
    have hwhole : line.takeWhile (· ≠ 0) = line := (List.takeWhile_prefix _).eq_of_length hlength
    rw [← hstr]
    rfl
  · have hmem : newline ∈ line.takeWhile (· ≠ 0) := by
      rw [hstr]
      decide
    exact absurd ((List.takeWhile_prefix _).subset hmem) h

theorem docLine_of_isLine {line : Bytes} (h : IsLine line) :
    docLine (line ++ [newline]) = (wordOf line).elim .skip .word := by
  unfold wordOf
  cases hline : docLine (line ++ [newline]) with
  | word word => rfl
  | skip => rfl
  | endDoc => exact absurd (docLine_eq_endDoc h.whole hline) h.notEnd

theorem urlLine_of_isRecord {r : Record} (h : IsRecord r) :
    urlLine (r.url ++ [newline]) = some r.url := by
  have hstr : cString (r.url ++ [newline]) = r.url ++ [newline] := by
    unfold cString
    rw [List.takeWhile_append_of_pos fun c hc => decide_eq_true (h.url_clean c hc).2]
    rfl
  have hlength : r.url.length ≠ 0 := fun hzero => h.url_ne_nil (List.length_eq_zero_iff.mp hzero)
  unfold urlLine
  simp [hstr, hlength]

/-! ### A document -/

/-- The chunk holds the documents before this one and the words of this one up to here. -/
structure Midway (s : Indexer) (docs : List Document) (url : Bytes) (words : List Bytes)
    (rest : Bytes) : Prop where
  holds : Holds s.mem (docs ++ [⟨url, words⟩])
  reader : s.reader = .words ⟨rest, false⟩ (docs.length + 1) words.length words.reverse

/-- What a turn leaves alone, but for the chunk in memory and the place in the file. -/
structure SameFiles (s s' : Indexer) : Prop where
  files : s'.files = s.files
  chunk : s'.mem.chunk = s.mem.chunk
  docsInChunk : s'.mem.docsInChunk = s.mem.docsInChunk
  indexedDocs : s'.indexedDocs = s.indexedDocs

theorem SameFiles.trans {s s' s'' : Indexer} (h : SameFiles s s') (h' : SameFiles s' s'') :
    SameFiles s s'' where
  files := h'.files.trans h.files
  chunk := h'.chunk.trans h.chunk
  docsInChunk := h'.docsInChunk.trans h.docsInChunk
  indexedDocs := h'.indexedDocs.trans h.indexedDocs

section Documents

variable {s : Indexer} {docs : List Document} {url rest : Bytes} {words : List Bytes}

theorem step_line {line : Bytes} (hline : IsLine line)
    (hfit : (words ++ (wordOf line).toList).length < 2 ^ 32)
    (h : Midway s docs url words (line ++ newline :: rest)) :
    ∃ s', step (.goOn true) s = some s' ∧ SameFiles s s' ∧
      Midway s' docs url (words ++ (wordOf line).toList) rest := by
  have hgets := fgets_line rest hline.whole hline.short
  have hdoc := docLine_of_isLine hline
  cases hword : wordOf line with
  | none =>
    rw [hword] at hdoc
    refine ⟨{ s with reader := .words ⟨rest, false⟩ (docs.length + 1) words.length words.reverse },
      ?_, ⟨rfl, rfl, rfl, rfl⟩, ?_⟩
    · simp only [step, goOn, h.reader, hgets, hdoc, Option.elim_none]
    · rw [Option.toList_none, List.append_nil]
      exact ⟨h.holds, rfl⟩
  | some word =>
    rw [hword] at hdoc
    rw [hword, Option.toList_some, List.length_append, List.length_singleton] at hfit
    refine ⟨{ s with
      mem := s.mem.addWord (docs.length + 1) words.length words.reverse word
      reader := .words ⟨rest, false⟩ (docs.length + 1) (u32 (words.length + 1))
        (word :: words.reverse) }, ?_, ⟨rfl, rfl, rfl, rfl⟩, h.holds.addWord word hfit, ?_⟩
    · simp only [step, goOn, h.reader, hgets, hdoc, Option.elim_some]
    · rw [Option.toList_some, List.reverse_append, List.length_append, u32_of_lt hfit]
      rfl

theorem exec_lines {lines : List Bytes} (hlines : ∀ line ∈ lines, IsLine line)
    (hfit : (words ++ lines.filterMap wordOf).length < 2 ^ 32)
    (h : Midway s docs url words (linesText lines ++ rest)) :
    ∃ s', exec step (List.replicate lines.length (.goOn true)) s = some s' ∧ SameFiles s s' ∧
      Midway s' docs url (words ++ lines.filterMap wordOf) rest := by
  induction lines generalizing s words with
  | nil => exact ⟨s, rfl, ⟨rfl, rfl, rfl, rfl⟩, by simpa [linesText] using h⟩
  | cons line lines ih =>
    have hsplit : (line :: lines).filterMap wordOf = (wordOf line).toList ++ lines.filterMap wordOf := by
      cases hword : wordOf line <;> simp [hword]
    rw [hsplit, ← List.append_assoc] at hfit ⊢
    have htext : linesText (line :: lines) ++ rest = line ++ newline :: (linesText lines ++ rest) := by
      simp [linesText]
    rw [htext] at h
    have hnow : (words ++ (wordOf line).toList).length < 2 ^ 32 := by
      rw [List.length_append] at hfit
      omega
    obtain ⟨t, hstep, hsame, hmid⟩ := step_line (hlines line List.mem_cons_self) hnow h
    obtain ⟨s', hrun, hsame', hmid'⟩ :=
      ih (fun l hl => hlines l (List.mem_cons_of_mem line hl)) hfit hmid
    refine ⟨s', ?_, hsame.trans hsame', hmid'⟩
    rw [List.length_cons, List.replicate_succ, exec, hstep, Option.bind_some, hrun]

/-- The turns that a document takes, up to the test for the flush after it. -/
theorem exec_record {r : Record} (hr : IsRecord r) (hdocs : docs.length + 2 < 2 ^ 32)
    (hholds : Holds s.mem docs) (hreader : s.reader = .header ⟨r.text ++ rest, false⟩) :
    ∃ s', exec step (List.replicate (r.lines.length + 3) (.goOn true)) s = some s' ∧
      s'.reader = .ended ⟨rest, false⟩ ∧ Holds s'.mem (docs ++ [r.document]) ∧
      s'.files = s.files ∧ s'.mem.chunk = s.mem.chunk ∧
      s'.mem.docsInChunk = s.mem.docsInChunk + 1 ∧ s'.indexedDocs = s.indexedDocs + 1 := by
  have hheader : DOC_HEADER = [60, 100, 111, 99, 62] ++ [newline] := rfl
  have hfooter : DOC_END = [60, 47, 100, 111, 99, 62] ++ [newline] := rfl
  -- the header
  have htext : r.text ++ rest = [60, 100, 111, 99, 62] ++
      newline :: (r.url ++ newline :: (linesText r.lines ++ (DOC_END ++ rest))) := by
    simp [Record.text, hheader]
  have hstep1 : step (.goOn true) s = some { s with
      reader := .url ⟨r.url ++ newline :: (linesText r.lines ++ (DOC_END ++ rest)), false⟩ } := by
    have hgets (rest : Bytes) : fgets 4096 ⟨[60, 100, 111, 99, 62] ++ newline :: rest, false⟩ =
        (some ([60, 100, 111, 99, 62] ++ [newline]), ⟨rest, false⟩) :=
      fgets_line rest (by decide) (by decide)
    have hcut : cString ([60, 100, 111, 99, 62] ++ [newline]) = DOC_HEADER := by decide
    simp only [step, goOn, hreader, htext, hgets, hcut, if_true]
  -- the URL
  have hstep2 : step (.goOn true) { s with
      reader := .url ⟨r.url ++ newline :: (linesText r.lines ++ (DOC_END ++ rest)), false⟩ } =
      some { s with
        mem := s.mem.addUrl r.url
        reader := .words ⟨linesText r.lines ++ (DOC_END ++ rest), false⟩ s.mem.currDoc 0 []
        documents := s.documents ++ [r.url] } := by
    have hclean : newline ∉ r.url := fun hmem => (hr.url_clean newline hmem).1 rfl
    simp only [step, goOn, fgets_line _ hclean hr.url_short, urlLine_of_isRecord hr]
  have hmid : Midway { s with
      mem := s.mem.addUrl r.url
      reader := .words ⟨linesText r.lines ++ (DOC_END ++ rest), false⟩ s.mem.currDoc 0 []
      documents := s.documents ++ [r.url] } docs r.url [] (linesText r.lines ++ (DOC_END ++ rest)) :=
    ⟨hholds.addUrl r.url hdocs, by rw [hholds.currDoc]; rfl⟩
  -- the words
  have hfit : ([] ++ r.lines.filterMap wordOf).length < 2 ^ 32 := hr.words
  obtain ⟨t, hrun, hsame, hlast⟩ := exec_lines hr.lines hfit hmid
  -- the end
  have hstep3 : step (.goOn true) t = some (endDoc ⟨rest, false⟩ t) := by
    have hgets : fgets 4096 ⟨[60, 47, 100, 111, 99, 62] ++ newline :: rest, false⟩ =
        (some ([60, 47, 100, 111, 99, 62] ++ [newline]), ⟨rest, false⟩) :=
      fgets_line rest (by decide) (by decide)
    have hends : docLine ([60, 47, 100, 111, 99, 62] ++ [newline]) = .endDoc := by decide
    have hreader' := hlast.reader
    rw [hfooter, List.append_assoc, List.singleton_append] at hreader'
    simp only [step, goOn, hreader', hgets, hends]
  refine ⟨endDoc ⟨rest, false⟩ t, ?_, rfl, ?_, hsame.files, hsame.chunk, ?_, ?_⟩
  · have hsplit : List.replicate (r.lines.length + 3) (Turn.goOn true) =
        .goOn true :: .goOn true :: (List.replicate r.lines.length (.goOn true) ++ [.goOn true]) := by
      rw [List.replicate_succ, List.replicate_succ, List.replicate_succ']
    rw [hsplit, exec, hstep1, Option.bind_some, exec, hstep2, Option.bind_some, exec_append, hrun,
      Option.bind_some, exec, hstep3]
    rfl
  · exact ⟨hlast.holds.indexed, hlast.holds.currDoc, hlast.holds.postsBytes⟩
  · exact congrArg (· + 1) hsame.docsInChunk
  · exact congrArg (· + 1) hsame.indexedDocs

end Documents

/-! ## The chunks of a run -/

/-- These documents are enough for an automatic flush. -/
def IsFull (docs : List Document) : Prop :=
  DOCS_PER_INDEX_CHUNK ≤ docs.length ∨ CHUNK_MEM_BUDGET ≤ SIZEOF_POST * numWords docs

/-- The chunk files are those of `parts`, and the chunk in memory is that of `docs`. -/
structure Filled (chunk : Nat) (s : Indexer) (parts : List (List Document)) (docs : List Document) :
    Prop where
  numbers : s.files.map ChunkFile.chunk = List.range' chunk parts.length
  files : List.Forall₂ (fun file part => IndexOf file.urls file.index part) s.files parts
  full : ∀ part ∈ parts, IsFull part ∧ ¬IsFull part.dropLast
  mem : Holds s.mem docs
  notFull : ¬IsFull docs
  chunk : s.mem.chunk = chunk + parts.length
  docsInChunk : s.mem.docsInChunk = docs.length
  indexedDocs : s.indexedDocs = (parts.flatten ++ docs).length

theorem not_isFull_nil : ¬IsFull [] := by
  unfold IsFull
  decide

theorem Filled.start (chunk : Nat) : Filled chunk (start chunk) [] [] where
  numbers := rfl
  files := List.Forall₂.nil
  full _ h := absurd h List.not_mem_nil
  mem := .new chunk
  notFull := not_isFull_nil
  chunk := rfl
  docsInChunk := rfl
  indexedDocs := rfl

theorem isFull_iff {c : IndexChunk} {docs : List Document} (h : Holds c docs)
    (hcount : c.docsInChunk = docs.length) : c.isFull = true ↔ IsFull docs := by
  unfold IndexChunk.isFull IsFull
  rw [h.postsBytes, hcount]
  simp

/-- The number of the chunk in memory is not that of a file. -/
theorem canCreate_of_numbers {s : Indexer} {chunk n : Nat}
    (hnumbers : s.files.map ChunkFile.chunk = List.range' chunk n)
    (hchunk : s.mem.chunk = chunk + n) : canCreate true s = true := by
  unfold canCreate
  rw [Bool.true_and, Bool.not_eq_true', List.any_eq_false]
  intro file hfile heq
  have hmem : file.chunk ∈ List.range' chunk n := hnumbers ▸ List.mem_map_of_mem hfile
  rw [List.mem_range'_1] at hmem
  have hsame := of_decide_eq_true heq
  omega

theorem forall₂_concat {α β : Type} {R : α → β → Prop} {xs : List α} {ys : List β} {x : α} {y : β}
    (h : List.Forall₂ R xs ys) (hxy : R x y) : List.Forall₂ R (xs ++ [x]) (ys ++ [y]) := by
  induction h with
  | nil => exact .cons hxy .nil
  | cons hhead _ ih => exact .cons hhead ih

section Run

variable {chunk : Nat} {s : Indexer} {parts : List (List Document)} {docs : List Document}

/-- A flush writes the documents in memory to the next file. -/
theorem Filled.flush {part : List Document} (hnumbers : s.files.map ChunkFile.chunk =
      List.range' chunk parts.length)
    (hfiles : List.Forall₂ (fun file part => IndexOf file.urls file.index part) s.files parts)
    (hmem : Holds s.mem part) (hchunk : s.mem.chunk = chunk + parts.length)
    (hfit : chunk + parts.length + 1 < 2 ^ 32) :
    (flush true s).files.map ChunkFile.chunk = List.range' chunk (parts ++ [part]).length ∧
      List.Forall₂ (fun file part => IndexOf file.urls file.index part) (flush true s).files
        (parts ++ [part]) ∧
      (flush true s).mem = .new (chunk + (parts ++ [part]).length) ∧
      (flush true s).indexedDocs = s.indexedDocs ∧ (flush true s).reader = s.reader := by
  unfold index_file.flush persist
  rw [if_pos (canCreate_of_numbers hnumbers hchunk)]
  refine ⟨?_, forall₂_concat hfiles hmem.indexed, ?_, rfl, rfl⟩
  · rw [List.map_append, hnumbers, List.length_append, List.length_singleton, List.range'_concat,
      Nat.one_mul]
    exact congrArg _ (congrArg (· :: []) hchunk)
  · change IndexChunk.new (u32 (s.mem.chunk + 1)) = _
    rw [hchunk, u32_of_lt hfit, List.length_append, List.length_singleton, Nat.add_assoc]

/-- A document with the flush after it, if there is one. -/
theorem exec_document {r : Record} {rest : Bytes} (hr : IsRecord r) (h : Filled chunk s parts docs)
    (hfit : chunk + parts.length + 1 < 2 ^ 32) (hreader : s.reader = .header ⟨r.text ++ rest, false⟩) :
    ∃ s' parts' docs', exec step (List.replicate (r.lines.length + 4) (.goOn true)) s = some s' ∧
      s'.reader = .header ⟨rest, false⟩ ∧ Filled chunk s' parts' docs' ∧
      parts'.flatten ++ docs' = parts.flatten ++ docs ++ [r.document] ∧
      parts'.length ≤ parts.length + 1 := by
  have hshort : docs.length + 2 < 2 ^ 32 := by
    have hlt : ¬DOCS_PER_INDEX_CHUNK ≤ docs.length := fun hle => h.notFull (Or.inl hle)
    simp only [DOCS_PER_INDEX_CHUNK] at hlt
    omega
  obtain ⟨t, hrun, htreader, htmem, htfiles, htchunk, htcount, htdocs⟩ :=
    exec_record hr hshort h.mem hreader
  have hcount : t.mem.docsInChunk = (docs ++ [r.document]).length := by
    rw [htcount, h.docsInChunk, List.length_append, List.length_singleton]
  have hnumbers : t.files.map ChunkFile.chunk = List.range' chunk parts.length := by
    rw [htfiles, h.numbers]
  have hindexed : t.indexedDocs = (parts.flatten ++ docs ++ [r.document]).length := by
    simp only [htdocs, h.indexedDocs, List.length_append, List.length_singleton]
  have hexec (s' : Indexer) (hstep : step (.goOn true) t = some s') :
      exec step (List.replicate (r.lines.length + 4) (.goOn true)) s = some s' := by
    rw [List.replicate_succ', exec_append, hrun, Option.bind_some, exec, hstep]
    rfl
  by_cases hfull : IsFull (docs ++ [r.document])
  · have hflush : step (.goOn true) t = some (flush true { t with reader := .header ⟨rest, false⟩ }) := by
      have hisFull := (isFull_iff htmem hcount).mpr hfull
      simp only [step, goOn, htreader, hisFull, if_true]
    obtain ⟨hnumbers', hfiles', hmem', hdocs', hreader'⟩ := @Filled.flush chunk
      { t with reader := .header ⟨rest, false⟩ } parts _ hnumbers (htfiles ▸ h.files) htmem
      (htchunk.trans h.chunk) hfit
    refine ⟨_, parts ++ [docs ++ [r.document]], [], hexec _ hflush, hreader', ?_, ?_, ?_⟩
    · refine ⟨hnumbers', hfiles', ?_, ?_, not_isFull_nil, ?_, ?_, ?_⟩
      · intro part hpart
        rcases List.mem_append.mp hpart with hold | hnew
        · exact h.full part hold
        · rw [List.mem_singleton.mp hnew, List.dropLast_concat]
          exact ⟨hfull, h.notFull⟩
      · rw [hmem']
        exact .new _
      · rw [hmem']
        rfl
      · rw [hmem']
        rfl
      · rw [hdocs', List.flatten_append, List.flatten_singleton, List.append_nil]
        exact hindexed.trans (by rw [List.append_assoc])
    · rw [List.append_nil, List.flatten_append, List.flatten_singleton, List.append_assoc]
    · rw [List.length_append, List.length_singleton]
  · have hgoOn : step (.goOn true) t = some { t with reader := .header ⟨rest, false⟩ } := by
      have hisFull : t.mem.isFull = false :=
        Bool.eq_false_iff.mpr fun hyes => hfull ((isFull_iff htmem hcount).mp hyes)
      simp only [step, goOn, htreader, hisFull, Bool.false_eq_true, if_false]
    refine ⟨_, parts, docs ++ [r.document], hexec _ hgoOn, rfl, ?_, ?_, Nat.le_succ _⟩
    · exact ⟨hnumbers, htfiles ▸ h.files, h.full, htmem, hfull, htchunk.trans h.chunk, hcount,
        by rw [← List.append_assoc]; exact hindexed⟩
    · rw [List.append_assoc]

theorem exec_records {records : List Record} (hrecords : ∀ r ∈ records, IsRecord r)
    (h : Filled chunk s parts docs) (hfit : chunk + parts.length + records.length < 2 ^ 32)
    (hreader : s.reader = .header (fileOf records)) :
    ∃ s' parts' docs', exec step (List.replicate
        ((records.map fun r => r.lines.length + 4).sum + 1) (.goOn true)) s = some s' ∧
      s'.reader = .closed (some true) ∧ Filled chunk s' parts' docs' ∧
      parts'.flatten ++ docs' = parts.flatten ++ docs ++ records.map Record.document ∧
      parts'.length ≤ parts.length + records.length := by
  induction records generalizing s parts docs with
  | nil =>
    have hgets : fgets 4096 ⟨[], false⟩ = (none, ⟨[], false⟩) := fgets_nil 4096 (by decide)
    have hstep : step (.goOn true) s = some { s with reader := .closed (some true) } := by
      rw [fileOf, List.flatMap_nil] at hreader
      simp only [step, goOn, hreader, hgets]
    refine ⟨{ s with reader := .closed (some true) }, parts, docs, ?_, rfl,
      ⟨h.numbers, h.files, h.full, h.mem, h.notFull, h.chunk, h.docsInChunk, h.indexedDocs⟩,
      (List.append_nil _).symm, Nat.le_refl _⟩
    change (step (.goOn true) s).bind (exec step []) = _
    rw [hstep]
    rfl
  | cons r records ih =>
    rw [List.length_cons] at hfit
    have hreader' : s.reader = .header ⟨r.text ++ records.flatMap Record.text, false⟩ := hreader
    obtain ⟨t, parts1, docs1, hrun1, hreader1, hfilled1, hdocs1, hparts1⟩ :=
      exec_document (hrecords r List.mem_cons_self) h (by omega) hreader'
    obtain ⟨s', parts2, docs2, hrun2, hreader2, hfilled2, hdocs2, hparts2⟩ :=
      ih (fun x hx => hrecords x (List.mem_cons_of_mem r hx)) hfilled1 (by omega) hreader1
    refine ⟨s', parts2, docs2, ?_, hreader2, hfilled2, ?_, by rw [List.length_cons]; omega⟩
    · rw [List.map_cons, List.sum_cons, Nat.add_assoc, ← List.replicate_append_replicate, exec_append,
        hrun1, Option.bind_some, hrun2]
    · rw [hdocs2, hdocs1, List.map_cons, List.append_assoc _ [_], List.singleton_append]

/-- The turns of a call of `index_file`. -/
def callOf (records : List Record) : List Turn :=
  .indexFile (some (fileOf records)) ::
    List.replicate ((records.map fun r => r.lines.length + 4).sum + 1) (.goOn true)

theorem exec_calls {files : List (List Record)} (hrecords : ∀ r ∈ files.flatten, IsRecord r)
    (h : Filled chunk s parts docs) (hfit : chunk + parts.length + files.flatten.length < 2 ^ 32)
    {result : Option Bool} (hreader : s.reader = .closed result) :
    ∃ s' parts' docs' result', exec step (files.flatMap callOf) s = some s' ∧
      s'.reader = .closed result' ∧ Filled chunk s' parts' docs' ∧
      parts'.flatten ++ docs' = parts.flatten ++ docs ++ files.flatten.map Record.document ∧
      parts'.length ≤ parts.length + files.flatten.length := by
  induction files generalizing s parts docs result with
  | nil => exact ⟨s, parts, docs, result, rfl, hreader, h, (List.append_nil _).symm, Nat.le_refl _⟩
  | cons records files ih =>
    rw [List.flatten_cons, List.length_append] at hfit
    rw [List.flatten_cons] at hrecords
    have hstep : step (.indexFile (some (fileOf records))) s =
        some { s with reader := .header (fileOf records) } := by simp only [step, hreader]
    have hopened : Filled chunk { s with reader := .header (fileOf records) } parts docs :=
      ⟨h.numbers, h.files, h.full, h.mem, h.notFull, h.chunk, h.docsInChunk, h.indexedDocs⟩
    obtain ⟨t, parts1, docs1, hrun1, hreader1, hfilled1, hdocs1, hparts1⟩ :=
      exec_records (fun r hr => hrecords r (List.mem_append_left _ hr)) hopened (by omega) rfl
    obtain ⟨s', parts2, docs2, result', hrun2, hreader2, hfilled2, hdocs2, hparts2⟩ :=
      ih (fun r hr => hrecords r (List.mem_append_right _ hr)) hfilled1 (by omega) hreader1
    refine ⟨s', parts2, docs2, result', ?_, hreader2, hfilled2, ?_, ?_⟩
    · rw [List.flatMap_cons, exec_append, callOf, exec, hstep, Option.bind_some, hrun1,
        Option.bind_some, hrun2]
    · rw [hdocs2, hdocs1, List.flatten_cons, List.map_append, List.append_assoc]
    · rw [List.flatten_cons, List.length_append]
      omega

end Run

/-- After the last flush the chunk files are those of `parts` and then that of `last`. -/
structure Saved (chunk : Nat) (s : Indexer) (parts : List (List Document)) (last : List Document) :
    Prop where
  numbers : s.files.map ChunkFile.chunk = List.range' chunk (parts.length + 1)
  files : List.Forall₂ (fun file part => IndexOf file.urls file.index part) s.files (parts ++ [last])
  full : ∀ part ∈ parts, IsFull part ∧ ¬IsFull part.dropLast
  notFull : ¬IsFull last
  mem : s.mem = .new (chunk + parts.length + 1)
  indexedDocs : s.indexedDocs = (parts.flatten ++ last).length

theorem exec_files (chunk : Nat) (files : List (List Record))
    (hrecords : ∀ r ∈ files.flatten, IsRecord r) (hfit : chunk + files.flatten.length + 1 < 2 ^ 32) :
    ∃ s parts last, exec step (files.flatMap callOf ++ [.flush true]) (start chunk) = some s ∧
      parts.flatten ++ last = files.flatten.map Record.document ∧ Saved chunk s parts last := by
  obtain ⟨t, parts, last, result, hrun, hreader, hfilled, hdocs, hparts⟩ :=
    exec_calls hrecords (Filled.start chunk) (by rw [List.length_nil]; omega) rfl
  rw [List.length_nil, Nat.zero_add] at hparts
  obtain ⟨hnumbers, hfiles, hmem, hindexed, _⟩ :=
    Filled.flush hfilled.numbers hfilled.files hfilled.mem hfilled.chunk (by omega)
  have hstep : step (.flush true) t = some (flush true t) := by simp only [step, hreader]
  rw [List.length_append, List.length_singleton] at hnumbers hmem
  refine ⟨flush true t, parts, last, ?_, hdocs, hnumbers, hfiles, hfilled.full, hfilled.notFull,
    hmem, hindexed.trans hfilled.indexedDocs⟩
  rw [exec_append, hrun, Option.bind_some, exec, hstep]
  rfl

/-- The documents of the parser files, taken in file by file and flushed at the end, are those of
the chunk files in order. Each file has the URLs and the posts of its documents, under numbers
and places from 1 on, and each but the last has just the documents that fill a chunk. -/
theorem documents_in_chunks (chunk : Nat) (files : List (List Record))
    (hrecords : ∀ r ∈ files.flatten, IsRecord r) (hfit : chunk + files.flatten.length + 1 < 2 ^ 32) :
    ∃ s parts last,
      exec step (files.flatMap callOf ++ [.flush true]) (start chunk) = some s ∧
      parts.flatten ++ last = files.flatten.map Record.document ∧
      s.files.map ChunkFile.chunk = List.range' chunk (parts.length + 1) ∧
      List.Forall₂ (fun file part => IndexOf file.urls file.index part) s.files (parts ++ [last]) ∧
      (∀ part ∈ parts, IsFull part ∧ ¬IsFull part.dropLast) ∧ ¬IsFull last ∧
      s.mem = .new (chunk + parts.length + 1) ∧ s.indexedDocs = files.flatten.length := by
  obtain ⟨s, parts, last, hrun, hdocs, hsaved⟩ := exec_files chunk files hrecords hfit
  refine ⟨s, parts, last, hrun, hdocs, hsaved.numbers, hsaved.files, hsaved.full, hsaved.notFull,
    hsaved.mem, ?_⟩
  rw [hsaved.indexedDocs, hdocs]
  exact List.length_map _

/-- The document `u` with the words `a` and `b`, a blank line and a title. -/
def shortRecord : Record := ⟨[117], [[97], [], TITLE_START.dropLast, [98], TITLE_END.dropLast]⟩

theorem shortRecord_in_chunk : ∃ s parts last,
    exec step ([[shortRecord, shortRecord], [shortRecord]].flatMap callOf ++ [.flush true])
      (start 7) = some s ∧
    parts.flatten ++ last = [⟨[117], [[97], [98]]⟩, ⟨[117], [[97], [98]]⟩, ⟨[117], [[97], [98]]⟩] ∧
    List.Forall₂ (fun file part => IndexOf file.urls file.index part) s.files (parts ++ [last]) := by
  have hrecord : IsRecord shortRecord := by
    refine ⟨by decide, by decide +kernel, by decide, ?_, by decide⟩
    simp only [shortRecord, List.forall_mem_cons]
    refine ⟨?_, ?_, ?_, ?_, ?_, fun _ h => absurd h List.not_mem_nil⟩ <;>
      exact ⟨by decide, by decide, by decide⟩
  obtain ⟨s, parts, last, hrun, hdocs, _, hfiles, _⟩ :=
    documents_in_chunks 7 [[shortRecord, shortRecord], [shortRecord]]
      (by simp [hrecord]) (by decide)
  exact ⟨s, parts, last, hrun, hdocs, hfiles⟩

end seamus.indexed_documents
