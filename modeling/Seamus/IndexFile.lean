-- `IndexChunk::index_file` and `IndexChunk::flush`: the lines of the parsed files go into
-- the chunk in memory, and the chunk goes out to a chunk file.
import Seamus.Index
import Seamus.Library.Interleaving

open interleaving seamus.index

namespace seamus.index_file

/-! ## Reading lines -/

/-- What is left of a file, and whether reading it ends in an error instead of its end. -/
structure InputFile where
  bytes : Bytes
  fails : Bool
  deriving DecidableEq

/-- At most `n` bytes, up to the first newline and with it. -/
def takeLine : Nat → Bytes → Bytes × Bytes
  | 0, str => ([], str)
  | _ + 1, [] => ([], [])
  | n + 1, c :: str =>
    if c = newline then ([c], str)
    else
      let (line, rest) := takeLine n str
      (c :: line, rest)

/-- `fgets` into a buffer. A line that a read error cuts off is lost. -/
def fgets (size : Nat) (fd : InputFile) : Option Bytes × InputFile :=
  let (line, rest) := takeLine (size - 1) fd.bytes
  let isWhole := line.length = size - 1 || line.getLast? = some newline
  if line = [] || (fd.fails && !isWhole) then (none, { fd with bytes := [] })
  else (some line, { fd with bytes := rest })

/-- The bytes of a buffer that `strlen`, `strcmp` and a copy of it see. -/
def cString (buff : Bytes) : Bytes := buff.takeWhile (· ≠ 0)

/-- The line `<doc>`. -/
def DOC_HEADER : Bytes := [60, 100, 111, 99, 62, newline]

/-- The line `</doc>`. -/
def DOC_END : Bytes := [60, 47, 100, 111, 99, 62, newline]

/-- The line `<title>`. -/
def TITLE_START : Bytes := [60, 116, 105, 116, 108, 101, 62, newline]

/-- The line `</title>`. -/
def TITLE_END : Bytes := [60, 47, 116, 105, 116, 108, 101, 62, newline]

/-- The URL on the line after the header, none for a line that is empty or blank. -/
def urlLine (url : Bytes) : Option Bytes :=
  let str := cString url
  if str.length = 0 then none
  else
    let content := if str.getLast? = some newline then str.dropLast else str
    if content.length = 0 then none else some content

inductive DocLine where
  | word (word : Bytes)
  | skip
  | endDoc
  deriving DecidableEq

def isRejected (c : UInt8) : Bool := c = space || c = newline || c = 9 || c = 0

/-- A line between the URL and the end of a document. -/
def docLine (buff : Bytes) : DocLine :=
  let str := cString buff
  if str = DOC_END then .endDoc
  else if str ≠ TITLE_END ∧ str ≠ TITLE_START then
    if str.length ≤ 1 then .skip
    else if str.dropLast.any isRejected then .skip
    else .word str.dropLast
  else .skip

/-! ## The chunk in memory -/

/-- `unordered_map<string, postings>`. -/
abbrev TermIndex := List (Bytes × Postings)

/-- `index[word]` changed by `f`. A word that is not there yet starts without posts. -/
def updateWord (f : Postings → Postings) (word : Bytes) : TermIndex → TermIndex
  | [] => [(word, f ⟨[], 0⟩)]
  | (key, value) :: index =>
    if key = word then (key, f value) :: index else (key, value) :: updateWord f word index

/-- `posts_bytes_` and the `n_docs` count what is in memory, so that 64 bits are enough for
them. The 32 bits of `curr_doc_` and of the locations are not. -/
structure IndexChunk where
  index : TermIndex
  urls : List Bytes
  currDoc : Nat
  chunk : Nat
  docsInChunk : Nat
  postsBytes : Nat
  deriving DecidableEq

def IndexChunk.new (chunk : Nat) : IndexChunk := ⟨[], [], 1, chunk, 0, 0⟩

def IndexChunk.reset (c : IndexChunk) : IndexChunk := IndexChunk.new c.chunk

def SIZEOF_POST : Nat := 8

def CHUNK_MEM_BUDGET : Nat := 2 ^ 29

def addPost (isNew : Bool) (p : Post) (e : Postings) : Postings :=
  ⟨e.posts ++ [p], if isNew then e.nDocs + 1 else e.nDocs⟩

/-- The post of a word at the next location of the document. -/
def IndexChunk.addWord (c : IndexChunk) (doc loc : Nat) (wordSet : List Bytes) (word : Bytes) :
    IndexChunk :=
  { c with
    index := updateWord (addPost (word ∉ wordSet) ⟨doc, u32 (loc + 1)⟩) word c.index
    postsBytes := c.postsBytes + SIZEOF_POST }

def IndexChunk.addUrl (c : IndexChunk) (url : Bytes) : IndexChunk :=
  { c with currDoc := u32 (c.currDoc + 1), urls := c.urls ++ [url] }

/-! ## The calls -/

structure ChunkFile where
  chunk : Nat
  urls : List Bytes
  index : TermIndex
  deriving DecidableEq

/-- Where `index_file` is: about to read a line, about to flush, or not running. -/
inductive Reader where
  | closed (result : Option Bool)
  /-- Looks for the header of a document. -/
  | header (fd : InputFile)
  | url (fd : InputFile)
  | words (fd : InputFile) (doc loc : Nat) (wordSet : List Bytes)
  /-- A document has ended, and the chunk may be full. -/
  | ended (fd : InputFile)
  deriving DecidableEq

structure Indexer where
  mem : IndexChunk
  files : List ChunkFile
  reader : Reader
  indexedDocs : Nat
  /-- The URLs of all documents that were ever taken in. -/
  documents : List Bytes
  deriving DecidableEq

/-- Whether `fopen(path, "wx")` gives a file. It fails when the file exists, and it fails
for reasons of its own when `opens` is false. -/
def canCreate (opens : Bool) (s : Indexer) : Bool :=
  opens && !(s.files.any fun file => file.chunk = s.mem.chunk)

def persist (opens : Bool) (s : Indexer) : Indexer :=
  if canCreate opens s then
    { s with
      mem := { s.mem with chunk := u32 (s.mem.chunk + 1) }
      files := s.files ++ [⟨s.mem.chunk, s.mem.urls, s.mem.index⟩] }
  else s

def flush (opens : Bool) (s : Indexer) : Indexer :=
  let s := persist opens s
  { s with mem := s.mem.reset }

/-- The code after the words of a document, which counts it. -/
def endDoc (fd : InputFile) (s : Indexer) : Indexer :=
  { s with
    reader := .ended fd
    indexedDocs := s.indexedDocs + 1
    mem := { s.mem with docsInChunk := s.mem.docsInChunk + 1 } }

/-- The test for the automatic flush. -/
def IndexChunk.isFull (c : IndexChunk) : Bool :=
  c.docsInChunk ≥ DOCS_PER_INDEX_CHUNK || c.postsBytes ≥ CHUNK_MEM_BUDGET

/-- One `fgets` of `index_file` with the code up to the next, or one automatic flush. After
corrupt data it scans for a header with the same test that it makes between documents. -/
def goOn (opens : Bool) (s : Indexer) : Option Indexer :=
  match s.reader with
  | .closed _ => none
  | .header fd =>
    match fgets 4096 fd with
    | (none, _) => some { s with reader := .closed (some true) }
    | (some buff, fd) =>
      some { s with reader := if cString buff = DOC_HEADER then .url fd else .header fd }
  | .url fd =>
    match fgets 2048 fd with
    | (none, _) => some { s with reader := .closed (some true) }
    | (some buff, fd) =>
      match urlLine buff with
      | none => some { s with reader := .header fd }
      | some url =>
        some { s with
          mem := s.mem.addUrl url
          reader := .words fd s.mem.currDoc 0 []
          documents := s.documents ++ [url] }
  | .words fd doc loc wordSet =>
    match fgets 4096 fd with
    | (none, fd) =>
      if fd.fails then some { s with reader := .closed (some false) } else some (endDoc fd s)
    | (some buff, fd) =>
      match docLine buff with
      | .endDoc => some (endDoc fd s)
      | .skip => some { s with reader := .words fd doc loc wordSet }
      | .word word =>
        some { s with
          mem := s.mem.addWord doc loc wordSet word
          reader := .words fd doc (u32 (loc + 1)) (word :: wordSet) }
  | .ended fd =>
    let s := { s with reader := .header fd }
    some (if s.mem.isFull then flush opens s else s)

inductive Turn where
  /-- A call of `index_file`, with the file unless it cannot be opened. -/
  | indexFile (file : Option InputFile)
  | goOn (opens : Bool)
  | flush (opens : Bool)
  deriving DecidableEq

def step (turn : Turn) (s : Indexer) : Option Indexer :=
  match turn, s.reader with
  | .indexFile none, .closed _ => some { s with reader := .closed (some false) }
  | .indexFile (some fd), .closed _ => some { s with reader := .header fd }
  | .goOn opens, _ => goOn opens s
  | .flush opens, .closed _ => some (flush opens s)
  | .indexFile _, _ | .flush _, _ => none

def start (chunk : Nat) : Indexer := ⟨.new chunk, [], .closed none, 0, []⟩

/-! ## What a turn does to the chunk -/

/-- What `fopen` gives when the turn flushes. -/
def flushes (turn : Turn) (s : Indexer) : Option Bool :=
  match turn, s.reader with
  | .flush opens, .closed _ => some opens
  | .goOn opens, .ended _ => if s.mem.isFull then some opens else none
  | _, _ => none

/-- A turn, by what becomes of the chunk in memory. -/
inductive Change (turn : Turn) (s : Indexer) : Indexer → Prop
  | move {reader : Reader} (hflush : flushes turn s = none)
    (hwords : ∀ fd doc loc wordSet, reader = .words fd doc loc wordSet →
      ∃ fd', s.reader = .words fd' doc loc wordSet) : Change turn s { s with reader }
  | newUrl {fd fd' : InputFile} {opens : Bool} {buff url : Bytes} (hturn : turn = .goOn opens)
    (hreader : s.reader = .url fd) (hline : fgets 2048 fd = (some buff, fd'))
    (hurl : urlLine buff = some url) :
    Change turn s { s with
      mem := s.mem.addUrl url
      reader := .words fd' s.mem.currDoc 0 []
      documents := s.documents ++ [url] }
  | newWord {fd fd' : InputFile} {doc loc : Nat} {wordSet : List Bytes} {opens : Bool}
    {buff word : Bytes} (hturn : turn = .goOn opens)
    (hreader : s.reader = .words fd doc loc wordSet) (hline : fgets 4096 fd = (some buff, fd'))
    (hword : docLine buff = .word word) :
    Change turn s { s with
      mem := s.mem.addWord doc loc wordSet word
      reader := .words fd' doc (u32 (loc + 1)) (word :: wordSet) }
  | finish {fd fd' : InputFile} {doc loc : Nat} {wordSet : List Bytes}
    (hflush : flushes turn s = none) (hreader : s.reader = .words fd doc loc wordSet) :
    Change turn s (endDoc fd' s)
  | flush {opens : Bool} {reader : Reader} (hflush : flushes turn s = some opens)
    (hwords : ∀ fd doc loc wordSet, reader ≠ .words fd doc loc wordSet) :
    Change turn s (flush opens { s with reader })

theorem goOn_change {opens : Bool} {s s' : Indexer} (h : goOn opens s = some s') :
    Change (.goOn opens) s s' := by
  unfold goOn at h
  cases hreader : s.reader with
  | closed result =>
    rw [hreader] at h
    cases h
  | header fd =>
    have hflush : flushes (.goOn opens) s = none := by simp only [flushes, hreader]
    rw [hreader] at h
    simp only at h
    split at h <;> cases h
    · exact .move hflush (fun _ _ _ _ heq => by cases heq)
    · refine .move hflush (fun _ _ _ _ heq => ?_)
      split at heq <;> cases heq
  | url fd =>
    have hflush : flushes (.goOn opens) s = none := by simp only [flushes, hreader]
    rw [hreader] at h
    simp only at h
    split at h
    · cases h
      exact .move hflush (fun _ _ _ _ heq => by cases heq)
    · rename_i hline
      split at h <;> cases h
      · exact .move hflush (fun _ _ _ _ heq => by cases heq)
      · rename_i hurl
        exact .newUrl rfl hreader hline hurl
  | words fd doc loc wordSet =>
    have hflush : flushes (.goOn opens) s = none := by simp only [flushes, hreader]
    rw [hreader] at h
    simp only at h
    split at h
    · split at h <;> cases h
      · exact .move hflush (fun _ _ _ _ heq => by cases heq)
      · exact .finish hflush hreader
    · rename_i hline
      split at h <;> cases h
      · exact .finish hflush hreader
      · refine .move hflush (fun _ _ _ _ heq => ?_)
        cases heq
        exact ⟨fd, hreader⟩
      · rename_i hword
        exact .newWord rfl hreader hline hword
  | ended fd =>
    rw [hreader] at h
    simp only at h
    split at h <;> rename_i hfull <;> cases h
    · have hflush : flushes (.goOn opens) s = some opens := by
        simp only [flushes, hreader, hfull, if_true]
      exact .flush hflush (fun _ _ _ _ heq => by cases heq)
    · have hflush : flushes (.goOn opens) s = none := by
        simp only [flushes, hreader, hfull, if_false, Bool.false_eq_true]
      exact .move hflush (fun _ _ _ _ heq => by cases heq)

theorem step_change {turn : Turn} {s s' : Indexer} (h : step turn s = some s') :
    Change turn s s' := by
  unfold step at h
  split at h
  · cases h
    exact .move rfl (fun _ _ _ _ heq => by cases heq)
  · cases h
    exact .move rfl (fun _ _ _ _ heq => by cases heq)
  · exact goOn_change h
  · rename_i opens _ hreader
    cases h
    have hflush : flushes (.flush opens) s = some opens := by simp only [flushes, hreader]
    change Change _ s (flush opens { s with reader := s.reader })
    refine .flush hflush (fun _ _ _ _ heq => ?_)
    rw [hreader] at heq
    cases heq
  · cases h
  · cases h

end seamus.index_file
