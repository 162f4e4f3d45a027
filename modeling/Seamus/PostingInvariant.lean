-- The invariant of the chunk in memory, over every run of `index_file` and `flush` and at
-- every line: the posts of each word are in order, and the words of a document number its
-- locations from 1 on. It holds as long as the 32 bits of a location do not run over.
import Seamus.IndexFile

open interleaving seamus.index seamus.index_file

namespace seamus.posting_invariant

/-! ## The invariant -/

/-- What holds of the postings of a word when there are `docs` documents. -/
structure InOrder (docs : Nat) (e : Postings) : Prop where
  ordered : e.posts.Pairwise Post.Before
  docs : ∀ p ∈ e.posts, 1 ≤ p.doc ∧ p.doc ≤ docs
  nDocs : e.nDocs = (e.posts.map Post.doc).toFinset.card

/-- The posts of all words. -/
def allPosts (index : TermIndex) : List Post := index.flatMap fun e => e.2.posts

/-- The locations that the words of a document use. -/
def locsOf (doc : Nat) (index : TermIndex) : List Nat :=
  ((allPosts index).filter fun p => p.doc = doc).map Post.loc

structure PostingInvariant (c : IndexChunk) : Prop where
  words : (c.index.map Prod.fst).Nodup
  postings : ∀ e ∈ c.index, InOrder c.urls.length e.2
  currDoc : c.currDoc = c.urls.length + 1
  locs : ∀ doc, ∃ k, (locsOf doc c.index).Perm (List.range' 1 k)
  postsBytes : c.postsBytes = SIZEOF_POST * (allPosts c.index).length

/-- What `index_file` knows of the document that it is in. -/
structure Reading (c : IndexChunk) (doc loc : Nat) (wordSet : List Bytes) : Prop where
  doc_pos : 1 ≤ doc
  last : doc = c.urls.length
  loc_lt : loc < 2 ^ 32
  locs : (locsOf doc c.index).Perm (List.range' 1 loc)
  known : ∀ w ∈ wordSet, w ∈ c.index.map Prod.fst
  wordSet : ∀ e ∈ c.index, e.1 ∈ wordSet ↔ doc ∈ e.2.posts.map Post.doc

/-- The invariant of a run. -/
structure Sound (s : Indexer) : Prop where
  mem : PostingInvariant s.mem
  currDoc_lt : s.mem.currDoc < 2 ^ 32
  reading : ∀ fd doc loc wordSet, s.reader = .words fd doc loc wordSet →
    Reading s.mem doc loc wordSet

theorem InOrder.empty (docs : Nat) : InOrder docs ⟨[], 0⟩ where
  ordered := List.Pairwise.nil
  docs _ hp := absurd hp List.not_mem_nil
  nDocs := rfl

theorem InOrder.mono {docs docs' : Nat} {e : Postings} (h : InOrder docs e) (hle : docs ≤ docs') :
    InOrder docs' e where
  ordered := h.ordered
  docs p hp := ⟨(h.docs p hp).1, (h.docs p hp).2.trans hle⟩
  nDocs := h.nDocs

theorem PostingInvariant.new (chunk : Nat) : PostingInvariant (.new chunk) where
  words := List.nodup_nil
  postings _ he := absurd he List.not_mem_nil
  currDoc := rfl
  locs _ := ⟨0, List.Perm.refl _⟩
  postsBytes := rfl

/-! ## The index after a change of one word -/

theorem updateWord_perm (isNew : Bool) (p : Post) (word : Bytes) (index : TermIndex) :
    (allPosts (updateWord (addPost isNew p) word index)).Perm (p :: allPosts index) := by
  induction index with
  | nil => exact List.Perm.refl _
  | cons e index ih =>
    obtain ⟨key, value⟩ := e
    rw [updateWord]
    split
    · change (value.posts ++ [p] ++ allPosts index).Perm (p :: (value.posts ++ allPosts index))
      rw [List.append_assoc]
      exact List.perm_middle
    · change (value.posts ++ allPosts (updateWord (addPost isNew p) word index)).Perm
        (p :: (value.posts ++ allPosts index))
      exact (ih.append_left _).trans List.perm_middle

theorem updateWord_words (f : Postings → Postings) (word : Bytes) (index : TermIndex) :
    (updateWord f word index).map Prod.fst =
      if word ∈ index.map Prod.fst then index.map Prod.fst else index.map Prod.fst ++ [word] := by
  induction index with
  | nil => rfl
  | cons e index ih =>
    obtain ⟨key, value⟩ := e
    rw [updateWord]
    by_cases hkey : key = word
    · subst hkey
      simp
    · have hne : ¬word = key := fun h => hkey h.symm
      simp only [hkey, if_false, List.map_cons, ih, List.mem_cons, hne, false_or]
      split <;> rfl

/-- A property of all entries after the change: it held of the others before, and holds of
the changed one. -/
theorem forall_updateWord {f : Postings → Postings} {word : Bytes} {index : TermIndex}
    (holds : Bytes × Postings → Prop) (hwords : (index.map Prod.fst).Nodup)
    (hother : ∀ e ∈ index, e.1 ≠ word → holds e)
    (hold : ∀ value, (word, value) ∈ index → holds (word, f value))
    (hnew : word ∉ index.map Prod.fst → holds (word, f ⟨[], 0⟩)) :
    ∀ e ∈ updateWord f word index, holds e := by
  induction index with
  | nil =>
    intro e he
    rw [List.mem_singleton.mp he]
    exact hnew List.not_mem_nil
  | cons e index ih =>
    obtain ⟨key, value⟩ := e
    obtain ⟨hkey, hrest⟩ := List.nodup_cons.mp hwords
    rw [updateWord]
    split
    · rename_i heq
      subst heq
      intro e he
      rcases List.mem_cons.mp he with rfl | he
      · exact hold value List.mem_cons_self
      · refine hother e (List.mem_cons_of_mem _ he) (fun h => hkey ?_)
        exact List.mem_map.mpr ⟨e, he, h⟩
    · rename_i hne
      intro e he
      rcases List.mem_cons.mp he with rfl | he
      · exact hother _ List.mem_cons_self hne
      · refine ih hrest (fun e he => hother e (List.mem_cons_of_mem _ he))
          (fun value hvalue => hold value (List.mem_cons_of_mem _ hvalue)) (fun hword => hnew ?_) e he
        rw [List.map_cons, List.mem_cons, not_or]
        exact ⟨fun h => hne h.symm, hword⟩

theorem locsOf_updateWord (isNew : Bool) (p : Post) (word : Bytes) (index : TermIndex) (doc : Nat) :
    (locsOf doc (updateWord (addPost isNew p) word index)).Perm
      (if p.doc = doc then p.loc :: locsOf doc index else locsOf doc index) := by
  have h := ((updateWord_perm isNew p word index).filter fun q => q.doc = doc).map Post.loc
  rw [List.filter_cons] at h
  simp only [decide_eq_true_eq] at h
  unfold locsOf
  split <;> rename_i hdoc
  · rwa [if_pos hdoc] at h
  · rwa [if_neg hdoc] at h

theorem mem_locsOf {doc : Nat} {index : TermIndex} {e : Bytes × Postings} {p : Post}
    (he : e ∈ index) (hp : p ∈ e.2.posts) (hdoc : p.doc = doc) : p.loc ∈ locsOf doc index := by
  apply List.mem_map_of_mem
  rw [List.mem_filter]
  exact ⟨List.mem_flatMap.mpr ⟨e, he, hp⟩, decide_eq_true hdoc⟩

/-! ## A word -/

section Word

variable {c : IndexChunk} {doc loc : Nat} {wordSet : List Bytes} {word : Bytes}

/-- The next post comes after all posts of its word. -/
theorem addPost_inOrder {docs : Nat} {e : Postings} (h : InOrder docs e) {isNew : Bool}
    (hdoc : 1 ≤ doc) (hlast : doc = docs) (hlocs : ∀ p ∈ e.posts, p.doc = doc → p.loc ≤ loc)
    (hnew : isNew = true ↔ doc ∉ e.posts.map Post.doc) :
    InOrder docs (addPost isNew ⟨doc, loc + 1⟩ e) where
  ordered := by
    refine List.pairwise_append.mpr ⟨h.ordered, List.pairwise_singleton _ _, ?_⟩
    intro p hp q hq
    rw [List.mem_singleton.mp hq]
    rcases Nat.lt_or_ge p.doc doc with hlt | hge
    · exact Or.inl hlt
    · have heq : p.doc = doc := Nat.le_antisymm (hlast ▸ (h.docs p hp).2) hge
      exact Or.inr ⟨heq, Nat.lt_succ_of_le (hlocs p hp heq)⟩
  docs p hp := by
    rcases List.mem_append.mp hp with hp | hp
    · exact h.docs p hp
    · rw [List.mem_singleton.mp hp]
      exact ⟨hdoc, Nat.le_of_eq hlast⟩
  nDocs := by
    have hset : ((addPost isNew ⟨doc, loc + 1⟩ e).posts.map Post.doc).toFinset =
        insert doc (e.posts.map Post.doc).toFinset := by
      unfold addPost
      rw [List.map_append, List.toFinset_append, Finset.union_comm]
      rfl
    rw [hset]
    by_cases hmem : doc ∈ e.posts.map Post.doc
    · have hnot : isNew = false := Bool.eq_false_iff.mpr (fun ht => hnew.mp ht hmem)
      rw [Finset.insert_eq_of_mem (List.mem_toFinset.mpr hmem), hnot, ← h.nDocs]
      rfl
    · rw [Finset.card_insert_of_notMem (fun hin => hmem (List.mem_toFinset.mp hin)),
        hnew.mpr hmem, ← h.nDocs]
      rfl

theorem Reading.locs_le (h : Reading c doc loc wordSet) {e : Bytes × Postings} (he : e ∈ c.index) :
    ∀ p ∈ e.2.posts, p.doc = doc → p.loc ≤ loc := by
  intro p hp hdoc
  have hmem := h.locs.mem_iff.mp (mem_locsOf he hp hdoc)
  rw [List.mem_range'_1] at hmem
  omega

/-- A word that the document has not had yet is in no post of the document. -/
theorem Reading.isNew_iff (h : Reading c doc loc wordSet) {value : Postings}
    (hvalue : (word, value) ∈ c.index) :
    decide (word ∉ wordSet) = true ↔ doc ∉ value.posts.map Post.doc := by
  rw [decide_eq_true_eq, not_iff_not]
  exact h.wordSet _ hvalue

theorem addWord_invariant (h : PostingInvariant c) (hr : Reading c doc loc wordSet)
    (hloc : loc + 1 < 2 ^ 32) : PostingInvariant (c.addWord doc loc wordSet word) := by
  have h32 : u32 (loc + 1) = loc + 1 := u32_of_lt hloc
  have hperm := updateWord_perm (decide (word ∉ wordSet)) ⟨doc, loc + 1⟩ word c.index
  unfold IndexChunk.addWord
  rw [h32]
  refine ⟨?_, ?_, h.currDoc, ?_, ?_⟩
  · rw [updateWord_words]
    split
    · exact h.words
    · rename_i hword
      exact List.nodup_append.mpr ⟨h.words, List.nodup_singleton _, by
        intro a ha b hb heq
        rw [List.mem_singleton.mp hb] at heq
        exact hword (heq ▸ ha)⟩
  · apply forall_updateWord (fun e => InOrder c.urls.length e.2) h.words
    · exact fun e he _ => h.postings e he
    · intro value hvalue
      exact addPost_inOrder (h.postings _ hvalue) hr.doc_pos hr.last (hr.locs_le hvalue)
        (hr.isNew_iff hvalue)
    · intro hword
      refine addPost_inOrder (.empty _) hr.doc_pos hr.last
        (fun p hp => absurd hp List.not_mem_nil) ?_
      simp only [decide_eq_true_eq, List.map_nil, List.not_mem_nil, not_false_eq_true, iff_true]
      exact fun hin => hword (hr.known word hin)
  · intro d
    have hlocs := locsOf_updateWord (decide (word ∉ wordSet)) ⟨doc, loc + 1⟩ word c.index d
    by_cases hd : doc = d
    · refine ⟨loc + 1, hlocs.trans ?_⟩
      subst hd
      rw [if_pos rfl, List.range'_concat]
      have hlast : 1 + 1 * loc = loc + 1 := by omega
      rw [hlast]
      exact (hr.locs.cons _).trans (List.perm_append_singleton _ _).symm
    · rw [if_neg hd] at hlocs
      obtain ⟨k, hk⟩ := h.locs d
      exact ⟨k, hlocs.trans hk⟩
  · change c.postsBytes + SIZEOF_POST = _
    rw [hperm.length_eq, List.length_cons, Nat.mul_succ, h.postsBytes]

theorem addWord_reading (h : PostingInvariant c) (hr : Reading c doc loc wordSet)
    (hloc : loc + 1 < 2 ^ 32) :
    Reading (c.addWord doc loc wordSet word) doc (u32 (loc + 1)) (word :: wordSet) := by
  have h32 : u32 (loc + 1) = loc + 1 := u32_of_lt hloc
  unfold IndexChunk.addWord
  rw [h32]
  refine ⟨hr.doc_pos, hr.last, hloc, ?_, ?_, ?_⟩
  · have hlocs := locsOf_updateWord (decide (word ∉ wordSet)) ⟨doc, loc + 1⟩ word c.index doc
    rw [if_pos rfl] at hlocs
    have hlast : 1 + 1 * loc = loc + 1 := by omega
    rw [List.range'_concat, hlast]
    exact hlocs.trans ((hr.locs.cons _).trans (List.perm_append_singleton _ _).symm)
  · intro w hw
    rw [updateWord_words]
    rcases List.mem_cons.mp hw with rfl | hw
    · split
      · assumption
      · simp
    · split
      · exact hr.known w hw
      · exact List.mem_append_left _ (hr.known w hw)
  · apply forall_updateWord (fun e => e.1 ∈ word :: wordSet ↔ doc ∈ e.2.posts.map Post.doc) h.words
    · intro e he hne
      rw [List.mem_cons]
      exact (or_iff_right hne).trans (hr.wordSet e he)
    · intro value _
      simp [addPost]
    · intro _
      simp [addPost]

end Word

/-! ## A new document -/

theorem locsOf_eq_nil {c : IndexChunk} (h : PostingInvariant c) {doc : Nat}
    (hdoc : c.urls.length < doc) : locsOf doc c.index = [] := by
  apply List.map_eq_nil_iff.mpr
  rw [List.filter_eq_nil_iff]
  intro p hp hdoc'
  obtain ⟨e, he, hpe⟩ := List.mem_flatMap.mp hp
  have hle := ((h.postings e he).docs p hpe).2
  rw [of_decide_eq_true hdoc'] at hle
  omega

section Url

variable {c : IndexChunk} {url : Bytes}

theorem addUrl_invariant (h : PostingInvariant c) (hdoc : c.currDoc + 1 < 2 ^ 32) :
    PostingInvariant (c.addUrl url) := by
  have hlen : (c.urls ++ [url]).length = c.urls.length + 1 := List.length_append
  refine ⟨h.words, ?_, ?_, h.locs, h.postsBytes⟩
  · intro e he
    refine (h.postings e he).mono ?_
    change c.urls.length ≤ (c.urls ++ [url]).length
    omega
  · change u32 (c.currDoc + 1) = (c.urls ++ [url]).length + 1
    rw [u32_of_lt hdoc, hlen, h.currDoc]

theorem addUrl_reading (h : PostingInvariant c) : Reading (c.addUrl url) c.currDoc 0 [] := by
  have hlen : (c.urls ++ [url]).length = c.urls.length + 1 := List.length_append
  have hlast : c.currDoc = (c.addUrl url).urls.length := h.currDoc.trans hlen.symm
  refine ⟨?_, hlast, by omega, ?_, fun w hw => absurd hw List.not_mem_nil, ?_⟩
  · rw [h.currDoc]
    omega
  · change (locsOf c.currDoc c.index).Perm _
    rw [locsOf_eq_nil h (by rw [h.currDoc]; omega)]
    exact List.Perm.refl _
  · intro e he
    refine iff_of_false List.not_mem_nil (fun hin => ?_)
    obtain ⟨p, hp, hdoc⟩ := List.mem_map.mp hin
    have hle := ((h.postings e he).docs p hp).2
    rw [hdoc, h.currDoc] at hle
    omega

end Url

/-! ## Runs -/

def nextUrl (fd : InputFile) : Option Bytes := (fgets 2048 fd).1.bind urlLine

def nextWord (fd : InputFile) : Option Bytes :=
  (fgets 4096 fd).1.bind fun buff =>
    match docLine buff with
    | .word word => some word
    | .skip | .endDoc => none

/-- A word still has a location, and a URL a document number, in 32 bits. -/
def Fits (turn : Turn) (s : Indexer) : Prop :=
  match turn, s.reader with
  | .goOn _, .url fd => nextUrl fd = none ∨ s.mem.currDoc + 1 < 2 ^ 32
  | .goOn _, .words fd _ loc _ => nextWord fd = none ∨ loc + 1 < 2 ^ 32
  | _, _ => True

theorem new_currDoc_lt (chunk : Nat) : (IndexChunk.new chunk).currDoc < 2 ^ 32 := by
  change 1 < 2 ^ 32
  decide

theorem sound_start (chunk : Nat) : Sound (start chunk) where
  mem := .new chunk
  currDoc_lt := new_currDoc_lt chunk
  reading _ _ _ _ h := by cases h

theorem flush_mem (opens : Bool) (s : Indexer) : ∃ chunk, (flush opens s).mem = .new chunk := by
  unfold flush
  exact ⟨_, rfl⟩

theorem flush_reader (opens : Bool) (s : Indexer) : (flush opens s).reader = s.reader := by
  unfold flush persist
  split <;> rfl

theorem step_sound (turn : Turn) (s s' : Indexer) (hs : Sound s) (hfits : Fits turn s)
    (h : step turn s = some s') : Sound s' := by
  cases step_change h with
  | move hflush hwords =>
    refine ⟨hs.mem, hs.currDoc_lt, ?_⟩
    intro fd doc loc wordSet hreader
    obtain ⟨fd', hreader'⟩ := hwords fd doc loc wordSet hreader
    exact hs.reading fd' doc loc wordSet hreader'
  | @newUrl fd fd' opens buff url hturn hreader hline hurl =>
    subst hturn
    have hnext : nextUrl fd = some url := by
      unfold nextUrl
      rw [hline]
      exact hurl
    unfold Fits at hfits
    simp only [hreader, hnext, reduceCtorEq, false_or] at hfits
    refine ⟨addUrl_invariant hs.mem hfits, ?_, ?_⟩
    · exact Nat.mod_lt _ (by decide)
    · intro fd doc loc wordSet heq
      cases heq
      exact addUrl_reading hs.mem
  | @newWord fd fd' doc loc wordSet opens buff word hturn hreader hline hword =>
    subst hturn
    have hnext : nextWord fd = some word := by
      unfold nextWord
      rw [hline]
      simp only [Option.bind_some, hword]
    unfold Fits at hfits
    simp only [hreader, hnext, reduceCtorEq, false_or] at hfits
    have hr := hs.reading _ _ _ _ hreader
    refine ⟨addWord_invariant hs.mem hr hfits, hs.currDoc_lt, ?_⟩
    intro fd doc loc wordSet heq
    cases heq
    exact addWord_reading hs.mem hr hfits
  | finish hflush =>
    have hmem := hs.mem
    exact ⟨⟨hmem.words, hmem.postings, hmem.currDoc, hmem.locs, hmem.postsBytes⟩, hs.currDoc_lt,
      fun _ _ _ _ heq => by cases heq⟩
  | @flush opens reader hflush hwords =>
    obtain ⟨chunk, hmem⟩ := flush_mem opens { s with reader }
    refine ⟨by rw [hmem]; exact .new chunk, by rw [hmem]; exact new_currDoc_lt chunk, ?_⟩
    intro fd doc loc wordSet heq
    rw [flush_reader] at heq
    exact absurd heq (hwords fd doc loc wordSet)

/-- The location 0, which no document may use. -/
theorem not_invariant_of_zero {c : IndexChunk} {doc : Nat} (h : 0 ∈ locsOf doc c.index) :
    ¬PostingInvariant c := by
  intro hc
  obtain ⟨k, hk⟩ := hc.locs doc
  have hmem := hk.mem_iff.mp h
  rw [List.mem_range'_1] at hmem
  omega

theorem addWord_wraps {c : IndexChunk} {doc loc : Nat} {wordSet : List Bytes} {word : Bytes}
    (hloc : loc + 1 = 2 ^ 32) : 0 ∈ locsOf doc (c.addWord doc loc wordSet word).index := by
  have hzero : u32 (loc + 1) = 0 := by
    rw [hloc]
    rfl
  unfold IndexChunk.addWord
  rw [hzero]
  refine (locsOf_updateWord _ ⟨doc, 0⟩ word c.index doc).mem_iff.mpr ?_
  rw [if_pos rfl]
  exact List.mem_cons_self

theorem nextUrl_some {fd : InputFile} {url : Bytes} (h : nextUrl fd = some url) :
    ∃ buff fd', fgets 2048 fd = (some buff, fd') ∧ urlLine buff = some url := by
  obtain ⟨buff, hbuff, hurl⟩ := Option.bind_eq_some_iff.mp h
  exact ⟨buff, (fgets 2048 fd).2, Prod.ext hbuff rfl, hurl⟩

theorem nextWord_some {fd : InputFile} {word : Bytes} (h : nextWord fd = some word) :
    ∃ buff fd', fgets 4096 fd = (some buff, fd') ∧ docLine buff = .word word := by
  obtain ⟨buff, hbuff, hword⟩ := Option.bind_eq_some_iff.mp h
  refine ⟨buff, (fgets 4096 fd).2, Prod.ext hbuff rfl, ?_⟩
  cases hline : docLine buff with
  | word w =>
    rw [hline] at hword
    rw [Option.some.inj hword]
  | skip | endDoc =>
    rw [hline] at hword
    cases hword

theorem step_breaks (turn : Turn) (s : Indexer) (hs : Sound s) (hfits : ¬Fits turn s) :
    ∃ s', step turn s = some s' ∧ ¬PostingInvariant s'.mem := by
  unfold Fits at hfits
  split at hfits
  · rename_i opens fd hreader
    rw [not_or] at hfits
    obtain ⟨url, hnext⟩ := Option.ne_none_iff_exists'.mp hfits.1
    obtain ⟨buff, fd', hline, hurl⟩ := nextUrl_some hnext
    refine ⟨{ s with
      mem := s.mem.addUrl url
      reader := .words fd' s.mem.currDoc 0 []
      documents := s.documents ++ [url] }, ?_, ?_⟩
    · simp only [step, goOn, hreader, hline, hurl]
    · have hwrap : s.mem.currDoc + 1 = 2 ^ 32 := by
        have hlt := hs.currDoc_lt
        omega
      intro hinv
      have hcurr : u32 (s.mem.currDoc + 1) = (s.mem.urls ++ [url]).length + 1 := hinv.currDoc
      rw [hwrap] at hcurr
      exact absurd hcurr (Nat.succ_ne_zero _).symm
  · rename_i opens fd doc loc wordSet hreader
    rw [not_or] at hfits
    obtain ⟨word, hnext⟩ := Option.ne_none_iff_exists'.mp hfits.1
    obtain ⟨buff, fd', hline, hword⟩ := nextWord_some hnext
    refine ⟨{ s with
      mem := s.mem.addWord doc loc wordSet word
      reader := .words fd' doc (u32 (loc + 1)) (word :: wordSet) }, ?_, ?_⟩
    · simp only [step, goOn, hreader, hline, hword]
    · have hlt := (hs.reading _ _ _ _ hreader).loc_lt
      exact not_invariant_of_zero (addWord_wraps (by omega))
  · exact absurd trivial hfits

/-- The invariant holds in every state of a run, in the middle of a document too, when each
word and each document still has its number in 32 bits, and only then. -/
theorem posting_invariant_iff (chunk : Nat) (turns : List Turn) :
    (∀ k s, exec step (turns.take k) (start chunk) = some s → PostingInvariant s.mem) ↔
      Meets step Fits turns (start chunk) :=
  always_iff_meets (fun _ hs => hs.mem) step_sound step_breaks (sound_start chunk)

/-! ## A document that is too long -/

/-- `n` lines that hold the word `a`. -/
def manyWords : Nat → Bytes
  | 0 => []
  | n + 1 => 97 :: newline :: manyWords n

/-- A file of one document with `n` words. -/
def longDocument (n : Nat) : InputFile := ⟨DOC_HEADER ++ [117, newline] ++ manyWords n, false⟩

theorem fgets_manyWords (n : Nat) :
    fgets 4096 ⟨manyWords (n + 1), false⟩ = (some [97, newline], ⟨manyWords n, false⟩) := by
  simp [fgets, manyWords, takeLine, newline]

theorem step_manyWords {s : Indexer} {n doc loc : Nat} {wordSet : List Bytes}
    (hreader : s.reader = .words ⟨manyWords (n + 1), false⟩ doc loc wordSet) :
    ∃ s', step (.goOn true) s = some s' ∧ s'.mem = s.mem.addWord doc loc wordSet [97] ∧
      s'.reader = .words ⟨manyWords n, false⟩ doc (u32 (loc + 1)) ([97] :: wordSet) ∧
      s'.indexedDocs = s.indexedDocs := by
  have hline : docLine [97, newline] = .word [97] := by decide
  simp only [step, goOn, hreader, fgets_manyWords, hline]
  exact ⟨_, rfl, rfl, rfl, rfl⟩

/-- The words of the document are read one after the other. -/
theorem exec_manyWords (n m : Nat) {s : Indexer} {doc loc : Nat} {wordSet : List Bytes}
    (hreader : s.reader = .words ⟨manyWords (n + m), false⟩ doc loc wordSet)
    (hloc : loc + n < 2 ^ 32) :
    ∃ s' wordSet', exec step (List.replicate n (.goOn true)) s = some s' ∧
      s'.reader = .words ⟨manyWords m, false⟩ doc (loc + n) wordSet' ∧
      s'.indexedDocs = s.indexedDocs := by
  induction n generalizing s loc wordSet with
  | zero =>
    rw [Nat.zero_add] at hreader
    exact ⟨s, wordSet, rfl, hreader, rfl⟩
  | succ n ih =>
    have hsucc : n + 1 + m = n + m + 1 := by omega
    rw [hsucc] at hreader
    obtain ⟨t, hstep, _, ht, hcount⟩ := step_manyWords hreader
    rw [u32_of_lt (by omega)] at ht
    obtain ⟨s', wordSet', hrun, hend, hcount'⟩ := ih ht (by omega)
    refine ⟨s', wordSet', ?_, ?_, hcount'.trans hcount⟩
    · rw [List.replicate_succ, exec, hstep, Option.bind_some]
      exact hrun
    · have hadd : loc + 1 + n = loc + (n + 1) := by omega
      rw [hend, hadd]

theorem exec_longDocument (n : Nat) :
    ∃ s, exec step [.indexFile (some (longDocument n)), .goOn true, .goOn true] (start 0) = some s ∧
      s.reader = .words ⟨manyWords n, false⟩ 1 0 [] ∧ s.indexedDocs = 0 := by
  have hheader : fgets 4096 (longDocument n) =
      (some DOC_HEADER, ⟨117 :: newline :: manyWords n, false⟩) := by
    simp [fgets, longDocument, DOC_HEADER, takeLine, newline]
  have hurl : fgets 2048 ⟨117 :: newline :: manyWords n, false⟩ =
      (some [117, newline], ⟨manyWords n, false⟩) := by
    simp [fgets, takeLine, newline]
  have hdoc : cString DOC_HEADER = DOC_HEADER := by decide
  have hline : urlLine [117, newline] = some [117] := by decide
  simp only [exec, step, goOn, start, hheader, hurl, hdoc, hline, Option.bind_some, if_true]
  exact ⟨_, rfl, rfl, rfl⟩

theorem fgets_end : fgets 4096 ⟨manyWords 0, false⟩ = (none, ⟨[], false⟩) := by decide

/-- After one document with `2 ^ 32` words, and before any flush, a post has location 0. -/
theorem exec_tooLong (n : Nat) (hn : n + 1 = 2 ^ 32) :
    ∃ s, exec step (.indexFile (some (longDocument (n + 1))) ::
        List.replicate (n + 4) (.goOn true)) (start 0) = some s ∧
      s.reader = .ended ⟨[], false⟩ ∧ s.indexedDocs = 1 ∧ 0 ∈ locsOf 1 s.mem.index := by
  obtain ⟨s1, hrun1, hreader1, hcount1⟩ := exec_longDocument (n + 1)
  obtain ⟨s2, wordSet, hrun2, hreader2, hcount2⟩ := exec_manyWords n 1 hreader1 (by omega)
  obtain ⟨s3, hstep3, hmem3, hreader3, hcount3⟩ := step_manyWords hreader2
  have hstep4 : step (.goOn true) s3 = some (endDoc ⟨[], false⟩ s3) := by
    simp only [step, goOn, hreader3, fgets_end, if_false, Bool.false_eq_true]
  have hturns : (.indexFile (some (longDocument (n + 1))) ::
      List.replicate (n + 4) (.goOn true) : List Turn) =
      [.indexFile (some (longDocument (n + 1))), .goOn true, .goOn true] ++
        (List.replicate n (.goOn true) ++ [.goOn true, .goOn true]) := by
    have hsplit : n + 4 = 2 + (n + 2) := by omega
    rw [hsplit, List.replicate_add, List.replicate_add]
    rfl
  refine ⟨endDoc ⟨[], false⟩ s3, ?_, rfl, ?_, ?_⟩
  · rw [hturns, exec_append, hrun1, Option.bind_some, exec_append, hrun2, Option.bind_some, exec,
      hstep3, Option.bind_some, exec, hstep4, Option.bind_some, exec]
  · change s3.indexedDocs + 1 = 1
    rw [hcount3, hcount2, hcount1]
  · change 0 ∈ locsOf 1 s3.mem.index
    rw [hmem3]
    exact addWord_wraps (by omega)

/-- The last of `2 ^ 32` words gets the location 0, in a run without a flush. -/
theorem long_document_breaks :
    ¬∀ (turns : List Turn) (s : Indexer), (∀ opens, Turn.flush opens ∉ turns) →
      (∀ fd, Turn.indexFile (some fd) ∈ turns → fd.fails = false) →
      exec step turns (start 0) = some s → s.indexedDocs = 1 → (∃ fd, s.reader = .ended fd) →
      PostingInvariant s.mem := by
  intro h
  obtain ⟨n, hn⟩ : ∃ n, n + 1 = 2 ^ 32 := ⟨2 ^ 32 - 1, by decide⟩
  obtain ⟨s, hrun, hreader, hcount, hzero⟩ := exec_tooLong n hn
  refine not_invariant_of_zero hzero (h _ s ?_ ?_ hrun hcount ⟨_, hreader⟩)
  · intro opens hmem
    rcases List.mem_cons.mp hmem with heq | hmem
    · cases heq
    · cases List.eq_of_mem_replicate hmem
  · intro fd hmem
    rcases List.mem_cons.mp hmem with heq | hmem
    · cases heq
      rfl
    · cases List.eq_of_mem_replicate hmem

end seamus.posting_invariant
