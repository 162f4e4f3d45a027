-- From the documents of a chunk to what a query of the loaded chunk file answers: the posts that
-- were written are read back, and a query without negations gets the documents that match it.
import Seamus.IndexedDocuments
import Seamus.QueryEngine
import Seamus.ChunkQuery
import Seamus.QueryValidity
import Mathlib.Algebra.Order.BigOperators.Group.List
import Mathlib.Algebra.BigOperators.Ring.List

open seamus.index seamus.index_file seamus.indexed_documents seamus.chunk_layout seamus.loaded_index
  seamus.isr seamus.post_streams seamus.phrase_query seamus.expressions seamus.query_grammar
  seamus.query_leaves seamus.query_probes seamus.default_query

namespace seamus.searched_documents

/-! ## Documents that fit into a chunk file -/

/-- Documents whose words the index takes, and whose numbers and places are below those that the
posting lists lose. -/
structure Searchable (docs : List Document) : Prop where
  few : docs.length < 0xD800
  urls : ∀ d ∈ docs, newline ∉ d.url ∧ d.url.length < 2 ^ 16
  short : ∀ d ∈ docs, d.words.length < 0xD800
  words : ∀ d ∈ docs, ∀ w ∈ d.words, sort.Indexable w ∧ ∀ b ∈ w, b.toNat < 128

variable {docs : List Document}

theorem occurrences_ordered (word : Bytes) (docs : List Document) :
    (occurrences word docs).Pairwise Post.Before := by
  induction docs using List.reverseRecOn with
  | nil => exact List.Pairwise.nil
  | append_singleton docs d ih =>
    rw [occurrences_concat, List.pairwise_append]
    refine ⟨ih, ?_, ?_⟩
    · unfold postsIn placesOf
      rw [List.pairwise_map, List.pairwise_map]
      refine (List.Pairwise.filter _ ?_).imp fun h => Or.inr ⟨rfl, h⟩
      rw [← List.pairwise_map (f := Prod.snd) (R := (· < ·)), List.zipIdx_map_snd]
      exact List.pairwise_lt_range'
    · intro p hp q hq
      obtain ⟨hdoc, _, e, he, _⟩ := mem_occurrences.mp hp
      obtain ⟨loc, _, rfl⟩ := List.mem_map.mp hq
      have hlt := (List.getElem?_eq_some_iff.mp he).1
      exact Or.inl (by simp only; omega)

theorem occurrences_bounds {word : Bytes} (h : Searchable docs) {p : Post}
    (hp : p ∈ occurrences word docs) :
    1 ≤ p.doc ∧ p.doc < 0xD800 ∧ 1 ≤ p.loc ∧ p.loc < 0xD800 := by
  obtain ⟨hdoc, hloc, d, hd, hw⟩ := mem_occurrences.mp hp
  have hfew := h.few
  have hshort := h.short d (List.mem_of_getElem? hd)
  have hltd := (List.getElem?_eq_some_iff.mp hd).1
  have hltw := (List.getElem?_eq_some_iff.mp hw).1
  omega

theorem occurrences_ne_nil {word : Bytes} {d : Document} (hd : d ∈ docs) (hw : word ∈ d.words) :
    occurrences word docs ≠ [] := by
  obtain ⟨i, hi, rfl⟩ := List.getElem_of_mem hd
  obtain ⟨j, hj, rfl⟩ := List.getElem_of_mem hw
  have hmem : (⟨i + 1, j + 1⟩ : Post) ∈ occurrences docs[i].words[j] docs := by
    refine mem_occurrences.mpr ⟨by simp, by simp, docs[i], ?_, ?_⟩ <;> simp
  exact List.ne_nil_of_mem hmem

/-- The numbers of a posting list are doc numbers, places and differences of them. -/
theorem deltas_le {n : Nat} (ps : List Post) (lastDoc lastLoc : Nat)
    (h : ∀ p ∈ ps, p.doc < n ∧ p.loc < n) : ∀ d ∈ deltas lastDoc lastLoc ps, d < n := by
  induction ps generalizing lastDoc lastLoc with
  | nil => exact fun d hd => absurd hd List.not_mem_nil
  | cons p ps ih =>
    obtain ⟨hp, hps⟩ := List.forall_mem_cons.mp h
    unfold deltas
    split
    · refine List.forall_mem_cons.mpr ⟨by omega, List.forall_mem_cons.mpr ⟨hp.2, ih _ _ hps⟩⟩
    · exact List.forall_mem_cons.mpr ⟨by omega, ih _ _ hps⟩

theorem not_reserved {d : Nat} (h : d < 0xD800) : ¬utf8.Reserved d := by
  unfold utf8.Reserved
  omega

/-! ## The chunk that is written -/

section Written

variable {urls : List Bytes} {index : TermIndex}

/-- `index` as the map that `persist` walks over. -/
def entriesOf (index : TermIndex) : List ((_ : Bytes) × Postings) := index.map fun e => ⟨e.1, e.2⟩

theorem keys_entriesOf (index : TermIndex) : (entriesOf index).keys = index.map Prod.fst := by
  unfold entriesOf List.keys
  rw [List.map_map]
  rfl

theorem dlookup_entriesOf (word : Bytes) (index : TermIndex) :
    (entriesOf index).dlookup word = index.lookup word := by
  induction index with
  | nil => rfl
  | cons e index ih =>
    obtain ⟨key, value⟩ := e
    by_cases h : word = key
    · subst h
      simp [entriesOf]
    · have hne : (word == key) = false := beq_eq_false_iff_ne.mpr h
      rw [List.lookup_cons, hne, ← ih]
      exact List.dlookup_cons_ne _ _ h

theorem lookup_of_indexOf (h : IndexOf urls index docs) {word : Bytes} {e : Postings}
    (he : index.lookup word = some e) : e = ⟨occurrences word docs, docsWith word docs⟩ := by
  have hpostings := h.postings word
  rwa [postingsOf, he, Option.getD_some] at hpostings

theorem sizePosts_le (ps : List Post) (lastDoc lastLoc : Nat) :
    sizePosts lastDoc lastLoc ps ≤ 13 * ps.length := by
  have hsize (c : Nat) : utf8.sizeOfUtf8 c ≤ 6 := by
    unfold utf8.sizeOfUtf8
    split_ifs <;> decide
  induction ps generalizing lastDoc lastLoc with
  | nil => exact Nat.zero_le _
  | cons p ps ih =>
    rw [sizePosts, List.length_cons]
    split
    · have h1 := hsize (u32Sub p.doc lastDoc)
      have h2 := hsize (u32Sub p.loc 0)
      have h3 := ih p.doc p.loc
      omega
    · have h1 := hsize (u32Sub p.loc lastLoc)
      have h2 := ih lastDoc p.loc
      omega

theorem lookup_of_mem (h : IndexOf urls index docs) {e : Bytes × Postings} (he : e ∈ index) :
    index.lookup e.1 = some e.2 := by
  have hnodup : (entriesOf index).NodupKeys := by
    rw [List.NodupKeys, keys_entriesOf]
    exact h.nodup
  rw [← dlookup_entriesOf]
  exact (List.mem_dlookup_iff hnodup).mpr (List.mem_map_of_mem he)

theorem length_postings_pos (h : IndexOf urls index docs) {e : Bytes × Postings} (he : e ∈ index) :
    1 ≤ e.2.posts.length := by
  obtain ⟨d, hd, hw⟩ := (h.words e.1).mp (List.mem_map_of_mem he)
  rw [lookup_of_indexOf h (lookup_of_mem h he)]
  exact List.length_pos_iff.mpr (occurrences_ne_nil hd hw)

theorem sum_le_mul {α : Type} (f : α → Nat) (n : Nat) (xs : List α) (h : ∀ x ∈ xs, f x ≤ n) :
    (xs.map f).sum ≤ xs.length * n := by
  induction xs with
  | nil => simp
  | cons x xs ih =>
    obtain ⟨hx, hxs⟩ := List.forall_mem_cons.mp h
    rw [List.map_cons, List.sum_cons, List.length_cons, Nat.succ_mul, Nat.add_comm]
    exact Nat.add_le_add (ih hxs) hx

theorem numWords_le (hs : Searchable docs) : numWords docs ≤ docs.length * 0xD800 :=
  sum_le_mul _ _ docs fun d hd => (hs.short d hd).le

/-- A chunk file of these documents has fewer than `2 ^ 63` bytes. -/
theorem fits_of_searchable (h : IndexOf urls index docs) (hs : Searchable docs) :
    urlsBytes urls + (index.map fun e => sizePostingList e.2).sum < 2 ^ 63 := by
  have hurls : urlsBytes urls ≤ docs.length * (6 + 2 ^ 16) := by
    unfold urlsBytes
    rw [h.urls, List.map_map]
    refine sum_le_mul _ _ docs fun d hd => ?_
    have hlen := (hs.urls d hd).2
    simp only [Function.comp_apply]
    omega
  have hlists : (index.map fun e => sizePostingList e.2).sum ≤ 28 * numWords docs := by
    rw [← h.posts, ← List.sum_map_mul_left]
    refine List.sum_le_sum fun e he => ?_
    have hpos := length_postings_pos h he
    have hsize := sizePosts_le e.2.posts 0 0
    unfold sizePostingList
    omega
  have hwords := numWords_le hs
  have hfew := hs.few
  omega

/-- The chunk in memory as `persist` takes it. -/
def stateOf (h : IndexOf urls index docs) (hs : Searchable docs) : ChunkState where
  urls := urls
  index := ⟨entriesOf index, by rw [List.NodupKeys, keys_entriesOf]; exact h.nodup⟩
  urlsClean url hurl := by
    rw [h.urls] at hurl
    obtain ⟨d, hd, rfl⟩ := List.mem_map.mp hurl
    exact (hs.urls d hd).1
  wordsIndexable word hword := by
    have hmem : word ∈ (entriesOf index).keys := hword
    rw [keys_entriesOf, h.words] at hmem
    obtain ⟨d, hd, hw⟩ := hmem
    exact (hs.words d hd word hw).1
  postingsValid word hword e he := by
    have hmem : word ∈ (entriesOf index).keys := hword
    rw [keys_entriesOf, h.words] at hmem
    obtain ⟨d, hd, hw⟩ := hmem
    have he' : (entriesOf index).dlookup word = some e := he
    rw [dlookup_entriesOf] at he'
    rw [lookup_of_indexOf h he']
    refine ⟨occurrences_ne_nil hd hw, occurrences_ordered word docs, ?_, ?_⟩
    · intro p hp
      obtain ⟨hlow, hhigh, _, _⟩ := occurrences_bounds hs hp
      exact ⟨hlow, hhigh.le.trans (by decide)⟩
    · intro p hp
      obtain ⟨_, _, hlow, hhigh⟩ := occurrences_bounds hs hp
      exact ⟨hlow, hhigh.trans (by decide)⟩
  docsCounted word hword e he := by
    have he' : (entriesOf index).dlookup word = some e := he
    rw [dlookup_entriesOf] at he'
    rw [lookup_of_indexOf h he']
    exact (List.countP_le_length.trans hs.few.le).trans (by decide)
  urlsFit := by
    rw [h.urls, List.length_map]
    exact hs.few.trans (by decide)
  wordsFit := by
    change (entriesOf index).keys.length < 2 ^ 32
    have hle : (index.map fun e => e.2.posts.length).length ≤
        (index.map fun e => e.2.posts.length).sum := by
      refine List.length_le_sum_of_one_le _ fun n hn => ?_
      obtain ⟨e, he, rfl⟩ := List.mem_map.mp hn
      exact length_postings_pos h he
    rw [List.length_map, h.posts] at hle
    rw [keys_entriesOf, List.length_map]
    have hwords := numWords_le hs
    have hfew := hs.few
    omega
  fits := by
    change urlsBytes urls + ((entriesOf index).keys.map fun word =>
      sizePostingList (((entriesOf index).dlookup word).getD ⟨[], 0⟩)).sum < 2 ^ 63
    rw [keys_entriesOf, List.map_map]
    have hsame : index.map ((fun word =>
        sizePostingList (((entriesOf index).dlookup word).getD ⟨[], 0⟩)) ∘ Prod.fst) =
        index.map fun e => sizePostingList e.2 :=
      List.map_congr_left fun e he => by
        rw [Function.comp_apply, dlookup_entriesOf, lookup_of_mem h he, Option.getD_some]
    rw [hsame]
    exact fits_of_searchable h hs

theorem postings_stateOf (h : IndexOf urls index docs) (hs : Searchable docs) (word : Bytes) :
    (stateOf h hs).postings word = ⟨occurrences word docs, docsWith word docs⟩ := by
  rw [← h.postings word, postingsOf, ← dlookup_entriesOf]
  rfl

theorem readsBack_stateOf (h : IndexOf urls index docs) (hs : Searchable docs) :
    ReadsBack (stateOf h hs) where
  words := dictionary.sameSigns_of_ascii fun word hword b hb => by
    have hmem : word ∈ (entriesOf index).keys := hword
    rw [keys_entriesOf, h.words] at hmem
    obtain ⟨d, hd, hw⟩ := hmem
    exact (hs.words d hd word hw).2 b hb
  deltas word _ d hd := by
    rw [postings_stateOf] at hd
    refine not_reserved (deltas_le _ 0 0 (fun p hp => ?_) d hd)
    obtain ⟨_, hdoc, _, hloc⟩ := occurrences_bounds hs hp
    exact ⟨hdoc, hloc⟩

/-- A reader knows the number of docs of its word. -/
theorem nDocs_open (s : ChunkState) (order : List Bytes) (hperm : order.Perm s.index.keys)
    (hsorted : order.Pairwise fun u v => compare u v = .lt) (word : Bytes) :
    (open' word (load (writeChunk s.urls s.postings order))).nDocs = (s.postings word).nDocs := by
  have hshort : ∀ w ∈ order, w.length < 2 ^ 32 :=
    fun w hw => (order_indexable s order hperm w hw).short
  rw [open', dictEntries_written s order hperm]
  by_cases hword : word ∈ order
  · obtain ⟨i, hi, rfl⟩ := List.getElem_of_mem hword
    have hvalid := order_valid s order hperm _ hword
    have hcount : (s.postings order[i]).nDocs ≤ DOCS_PER_INDEX_CHUNK :=
      (s.valid _ (AList.mem_keys.mp (hperm.mem_iff.mp hword))).2
    have hopen := posting_round_trip.openAt_written (written s.postings (order.take i))
      (written s.postings (order.drop (i + 1))) (s.postings order[i]) hvalid
    rw [← written_split s.postings order i hi] at hopen
    rw [dictionary.lookup_of_sorted _ _ order i hshort hi hsorted,
      (writeChunk_layout s order hperm).region.2]
    simp only [dictionary.entryOf, offsetOf_getElem s order hperm i hi, hopen]
    exact Nat.mod_eq_of_lt (lt_of_le_of_lt hcount (by decide))
  · have hlookup : s.index.lookup word = none := by
      rw [AList.lookup_eq_none]
      exact fun hmem => hword (hperm.mem_iff.mpr (AList.mem_keys.mpr hmem))
    rw [dictionary.lookup_eq_none _ _ order word hshort hword, ChunkState.postings, hlookup]
    rfl

/-- The loaded chunk has the URLs, the posts and the counts of the documents. -/
structure ChunkOf (c : Chunk) (docs : List Document) : Prop where
  urls : c.index.urls = docs.map Document.url
  postings : ∀ word, c.postings word = occurrences word docs
  nDocs : ∀ word, (open' word c.index).nDocs = docsWith word docs

/-- The chunk file is written and loaded again. -/
theorem exists_chunkOf (h : IndexOf urls index docs) (hs : Searchable docs) :
    ∃ fuel file, chunk_layout.persist fuel (stateOf h hs) = some file ∧
      ∃ c : Chunk, c.index = load file ∧ ChunkOf c docs := by
  have hback := readsBack_stateOf h hs
  have hind : ∀ w ∈ (stateOf h hs).index.keys, sort.Indexable w :=
    fun w hw => (stateOf h hs).wordsIndexable w (AList.mem_keys.mpr hw)
  obtain ⟨fuel, order, run, hperm, hsorted⟩ := sort.sortEntries_spec (stateOf h hs).index.keys
    (stateOf h hs).index.keys_nodup fun w hw => (hind w hw).noNul
  rw [List.filter_eq_self.mpr fun w hw => (hind w hw).slot] at hperm
  have hclean : ∀ w ∈ order, ∀ b ∈ w, b ≠ 0 := fun w hw => (hind w (hperm.mem_iff.mp hw)).noNul
  have hbelow : order.Pairwise fun u v => compare u v = .lt :=
    hsorted.imp_of_mem fun hu hv huv =>
      (dictionary.compare_lt_iff_below _ _ (hclean _ hu) (hclean _ hv)).mpr
        (dictionary.below_of_sameSigns _ hback.words _ _ (hperm.mem_iff.mp hu)
          (hperm.mem_iff.mp hv) huv)
  refine ⟨fuel, writeChunk urls (stateOf h hs).postings order, ?_,
    chunkOf (stateOf h hs) order hperm hback hbelow, chunkOf_index _ order hperm hback hbelow,
    ?_, fun word => ?_, fun word => ?_⟩
  · rw [chunk_layout.persist, run, Option.map_some]
    rfl
  · rw [chunkOf_index, (writeChunk_layout _ order hperm).urls]
    exact h.urls
  · exact congrArg Postings.posts (postings_stateOf h hs word)
  · rw [chunkOf_index, nDocs_open _ order hperm hbelow, postings_stateOf]

end Written

/-! ## Documents that match a query -/

/-- The words of a document, as a query asks for them. -/
def holdsIn (words : List Bytes) : Assignment := fun isPhrase val =>
  if isPhrase then phraseWords val ≠ [] ∧ phraseWords val <:+: words else val ∈ words

def Matches (ast : ASTNode) (d : Document) : Prop := ast.Holds (leafHolds (holdsIn d.words))

/-- No leaf of the query is negated. -/
def AllPositive (ast : ASTNode) : Prop := ∀ t ∈ chunk_query.leaves ast, t.isNegated = false

/-- A tree that holds has a leaf that does. -/
theorem exists_leaf {leaf : TermData → Prop} {ast : ASTNode} (hfull : query_validity.Full ast)
    (h : ast.Holds leaf) : ∃ t ∈ chunk_query.leaves ast, leaf t := by
  have hleaves (c : ASTNode) (cs : List ASTNode) (hc : c ∈ cs) (t : TermData)
      (ht : t ∈ chunk_query.leaves c) : t ∈ chunk_query.leavesAll cs := by
    induction cs with
    | nil => cases hc
    | cons c' cs ih =>
      rw [chunk_query.leavesAll, List.mem_append]
      rcases List.mem_cons.mp hc with rfl | hc
      · exact Or.inl ht
      · exact Or.inr (ih hc)
  induction hfull with
  | term t => exact ⟨t, by simp [chunk_query.leaves], h⟩
  | @and children hne _ ih =>
    obtain ⟨c, cs, rfl⟩ := List.exists_cons_of_ne_nil hne
    rw [ASTNode.Holds, AllHold] at h
    obtain ⟨t, ht, hleaf⟩ := ih c List.mem_cons_self h.1
    exact ⟨t, hleaves c _ List.mem_cons_self t ht, hleaf⟩
  | @or children hne _ ih =>
    rw [ASTNode.Holds, anyHolds_iff] at h
    obtain ⟨c, hc, h⟩ := h
    obtain ⟨t, ht, hleaf⟩ := ih c hc h
    exact ⟨t, hleaves c _ hc t ht, hleaf⟩

section Search

variable {c : Chunk}

theorem mem_postings (h : ChunkOf c docs) {i : Nat} {d : Document} (hd : docs[i]? = some d)
    (word : Bytes) (loc : Nat) :
    ⟨i + 1, loc⟩ ∈ c.postings word ↔ 1 ≤ loc ∧ d.words[loc - 1]? = some word := by
  rw [h.postings, mem_occurrences]
  simp [hd]

theorem phraseAt_of_infix (h : ChunkOf c docs) {i : Nat} {d : Document} (hd : docs[i]? = some d)
    {words : List Bytes} (hne : words ≠ []) :
    (∃ loc, PhraseAt c words ⟨i + 1, loc⟩) ↔ words <:+: d.words := by
  unfold PhraseAt
  simp only [mem_postings h hd]
  rw [List.infix_iff_getElem?]
  constructor
  · rintro ⟨loc, hphrase⟩
    have hpos : 0 < words.length := List.length_pos_iff.mpr hne
    obtain ⟨hloc, _⟩ := hphrase 0 words[0] (List.getElem?_eq_getElem hpos)
    have hat (j : Nat) (hj : j < words.length) : d.words[j + (loc - 1)]? = some words[j] := by
      obtain ⟨_, hget⟩ := hphrase j words[j] (List.getElem?_eq_getElem hj)
      rwa [show loc + j - 1 = j + (loc - 1) by omega] at hget
    refine ⟨loc - 1, ?_, hat⟩
    have hlast := (List.getElem?_eq_some_iff.mp (hat (words.length - 1) (by omega))).1
    omega
  · rintro ⟨k, _, hat⟩
    refine ⟨k + 1, fun j word hword => ⟨by omega, ?_⟩⟩
    obtain ⟨hj, rfl⟩ := List.getElem?_eq_some_iff.mp hword
    rw [show k + 1 + j - 1 = j + k by omega]
    exact hat j hj

theorem occurs_at (h : ChunkOf c docs) {i : Nat} {d : Document} (hd : docs[i]? = some d) :
    Occurs c (i + 1) = holdsIn d.words := by
  funext isPhrase val
  unfold Occurs holdsIn
  cases isPhrase with
  | false =>
    simp only [Bool.false_eq_true, if_false, eq_iff_iff]
    constructor
    · rintro ⟨⟨doc, loc⟩, hp, rfl⟩
      exact List.mem_of_getElem? ((mem_postings h hd val loc).mp hp).2
    · intro hmem
      obtain ⟨j, hj⟩ := List.mem_iff_getElem?.mp hmem
      exact ⟨⟨i + 1, j + 1⟩, (mem_postings h hd val (j + 1)).mpr ⟨Nat.le_add_left 1 j, hj⟩, rfl⟩
  | true =>
    simp only [if_true, eq_iff_iff]
    exact and_congr_right fun hne => phraseAt_of_infix h hd hne

/-- What a doc satisfies is what its document matches, and a doc without a document satisfies
nothing. -/
theorem satisfies_iff (h : ChunkOf c docs) {ast : ASTNode} (hfull : query_validity.Full ast)
    (hpositive : AllPositive ast) (doc : Nat) :
    1 ≤ doc ∧ Satisfies c ast doc ↔ 1 ≤ doc ∧ ∃ d, docs[doc - 1]? = some d ∧ Matches ast d := by
  refine and_congr_right fun hdoc => ?_
  obtain ⟨i, rfl⟩ : ∃ i, doc = i + 1 := ⟨doc - 1, by omega⟩
  rw [Nat.add_sub_cancel]
  cases hd : docs[i]? with
  | some d =>
    unfold Satisfies Matches
    rw [occurs_at h hd]
    simp
  | none =>
    simp only [reduceCtorEq, false_and, exists_false, iff_false]
    intro hsat
    obtain ⟨t, ht, hleaf⟩ := exists_leaf hfull hsat
    have hnone (word : Bytes) (p : Post) (hp : p ∈ c.postings word) : p.doc ≠ i + 1 := by
      intro heq
      rw [h.postings, mem_occurrences, heq, Nat.add_sub_cancel, hd] at hp
      obtain ⟨_, _, _, hd', _⟩ := hp
      cases hd'
    unfold leafHolds at hleaf
    rw [hpositive t ht, if_neg Bool.false_ne_true] at hleaf
    unfold Occurs at hleaf
    split at hleaf
    · obtain ⟨hne, loc, hphrase⟩ := hleaf
      obtain ⟨w, ws, hwords⟩ := List.exists_cons_of_ne_nil hne
      exact hnone w _ (hphrase 0 w (by rw [hwords]; rfl)) rfl
    · obtain ⟨p, hp, hdoc⟩ := hleaf
      exact hnone t.val p hp hdoc

end Search

/-! ## Queries without negations -/

theorem mem_leavesAll {t : TermData} {asts : List ASTNode} :
    t ∈ chunk_query.leavesAll asts ↔ ∃ ast ∈ asts, t ∈ chunk_query.leaves ast := by
  induction asts with
  | nil => simp [chunk_query.leavesAll]
  | cons ast asts ih => rw [chunk_query.leavesAll, List.mem_append, ih]; simp

section Probes

open query_isr

mutual

theorem term_of_probed (doc : Nat) : ∀ ast t, ∀ p ∈ probed doc ast t,
    p.term ∈ chunk_query.leaves ast
  | .term t, leaf, p, hp => by
    rw [probed, List.mem_singleton] at hp
    rw [hp]
    simp [chunk_query.leaves]
  | .and asts, .and children driver, p, hp => by
    rw [probed] at hp
    rw [chunk_query.leaves]
    exact (term_of_probedAll doc asts children).1 p hp
  | .or asts, .or children docs pending, p, hp => by
    rw [probed] at hp
    rw [chunk_query.leaves]
    exact (term_of_probedAll doc asts children).2 p hp
  | .and _, .term .., _, hp | .and _, .phrase .., _, hp | .and _, .or .., _, hp => by
    simp [probed] at hp
  | .or _, .term .., _, hp | .or _, .phrase .., _, hp | .or _, .and .., _, hp => by
    simp [probed] at hp

theorem term_of_probedAll (doc : Nat) : ∀ asts children,
    (∀ p ∈ probedAll doc asts children, p.term ∈ chunk_query.leavesAll asts) ∧
      ∀ p ∈ probedAny doc asts children, p.term ∈ chunk_query.leavesAll asts
  | [], children => by simp [probedAll, probedAny]
  | _ :: _, [] => by simp [probedAll, probedAny]
  | ast :: asts, c :: cs => by
    have hfirst := term_of_probed doc ast c
    obtain ⟨hall, hany⟩ := term_of_probedAll doc asts cs
    rw [probedAll, probedAny, chunk_query.leavesAll]
    constructor <;> intro p hp <;> rcases List.mem_append.mp hp with hp | hp
    · exact List.mem_append_left _ (hfirst p hp)
    · split at hp
      · exact List.mem_append_right _ (hall p hp)
      · cases hp
    · exact List.mem_append_left _ (hfirst p hp)
    · split at hp
      · exact List.mem_append_right _ (hany p hp)
      · cases hp

end

theorem term_of_probedOthers (doc i : Nat) (asts : List ASTNode) (children : List QueryISR) :
    ∀ p ∈ probedOthers doc i asts children, p.term ∈ chunk_query.leavesAll asts := by
  induction asts generalizing i children with
  | nil => cases i <;> simp [probedOthers]
  | cons ast asts ih =>
    intro p hp
    rw [chunk_query.leavesAll]
    cases children with
    | nil => cases i <;> simp [probedOthers] at hp
    | cons c cs =>
      cases i with
      | zero =>
        rw [probedOthers] at hp
        exact List.mem_append_right _ ((term_of_probedAll doc asts cs).1 p hp)
      | succ i =>
        rw [probedOthers] at hp
        rcases List.mem_append.mp hp with hp | hp
        · exact List.mem_append_left _ (term_of_probed doc ast c p hp)
        · split at hp
          · exact List.mem_append_right _ (ih i cs p hp)
          · cases hp

section Made

variable {next : QueryISR → Option (Nat × QueryISR)} {made : ASTNode → QueryISR → List Probe}
  (hmade : ∀ ast t, ∀ p ∈ made ast t, p.term ∈ chunk_query.leaves ast)
include hmade

theorem term_of_andProbes (i : Nat) (asts : List ASTNode) (turns : Nat) (children : List QueryISR) :
    ∀ p ∈ andProbes next made i asts turns children, p.term ∈ chunk_query.leavesAll asts := by
  induction turns generalizing children with
  | zero => simp [andProbes]
  | succ turns ih =>
    intro p hp
    rw [andProbes] at hp
    split at hp
    · rename_i ast c hast _
      rcases List.mem_append.mp hp with hp | hp
      · exact mem_leavesAll.mpr ⟨ast, List.mem_of_getElem? hast, hmade ast c p hp⟩
      · split at hp
        · split at hp
          · cases hp
          · rcases List.mem_append.mp hp with hp | hp
            · exact term_of_probedOthers _ i asts _ p hp
            · split at hp
              · exact ih _ p hp
              · cases hp
        · cases hp
    · cases hp

theorem term_of_advanceProbes (pending : Nat) (asts : List ASTNode) (children : List QueryISR)
    (docs : List Nat) :
    ∀ p ∈ advanceProbes made pending asts children docs, p.term ∈ chunk_query.leavesAll asts := by
  induction asts generalizing children docs with
  | nil => simp [advanceProbes]
  | cons ast asts ih =>
    intro p hp
    rw [chunk_query.leavesAll]
    cases children with
    | nil => simp [advanceProbes] at hp
    | cons c cs =>
      cases docs with
      | nil => simp [advanceProbes] at hp
      | cons d ds =>
        rw [advanceProbes] at hp
        rcases List.mem_append.mp hp with hp | hp
        · split at hp
          · exact List.mem_append_left _ (hmade ast c p hp)
          · cases hp
        · exact List.mem_append_right _ (ih cs ds p hp)

theorem term_of_primeProbes (asts : List ASTNode) (children : List QueryISR) :
    ∀ p ∈ primeProbes made asts children, p.term ∈ chunk_query.leavesAll asts := by
  induction asts generalizing children with
  | nil => simp [primeProbes]
  | cons ast asts ih =>
    intro p hp
    rw [chunk_query.leavesAll]
    cases children with
    | nil => simp [primeProbes] at hp
    | cons c cs =>
      rw [primeProbes] at hp
      rcases List.mem_append.mp hp with hp | hp
      · exact List.mem_append_left _ (hmade ast c p hp)
      · exact List.mem_append_right _ (ih cs p hp)

end Made

theorem term_of_nextProbes (levels : Nat) (ast : ASTNode) (t : QueryISR) :
    ∀ p ∈ nextProbes levels ast t, p.term ∈ chunk_query.leaves ast := by
  induction levels generalizing ast t with
  | zero => simp [nextProbes]
  | succ levels ih =>
    intro p hp
    cases ast with
    | term term => simp [nextProbes] at hp
    | and asts =>
      cases t with
      | and children driver =>
        cases driver with
        | none => simp [nextProbes] at hp
        | some i =>
          rw [nextProbes] at hp
          rw [chunk_query.leaves]
          exact term_of_andProbes ih i asts _ children p hp
      | _ => simp [nextProbes] at hp
    | or asts =>
      cases t with
      | or children docs pending =>
        rw [nextProbes] at hp
        rw [chunk_query.leaves]
        split at hp
        · exact term_of_advanceProbes ih pending asts children docs p hp
        · cases hp
      | _ => simp [nextProbes] at hp

mutual

theorem term_of_buildProbes (index : LoadedIndex) : ∀ ast, ∀ p ∈ buildProbes index ast,
    p.term ∈ chunk_query.leaves ast
  | .term _, p, hp => by
    rw [buildProbes] at hp
    cases hp
  | .and asts, p, hp => by
    rw [buildProbes] at hp
    rw [chunk_query.leaves]
    exact term_of_buildAllProbes index asts p hp
  | .or asts, p, hp => by
    rw [buildProbes] at hp
    rw [chunk_query.leaves]
    rcases List.mem_append.mp hp with hp | hp
    · exact term_of_buildAllProbes index asts p hp
    · split at hp
      · exact term_of_primeProbes (term_of_nextProbes _) _ _ p hp
      · cases hp

theorem term_of_buildAllProbes (index : LoadedIndex) : ∀ asts, ∀ p ∈ buildAllProbes index asts,
    p.term ∈ chunk_query.leavesAll asts
  | [], p, hp => by
    rw [buildAllProbes] at hp
    cases hp
  | ast :: asts, p, hp => by
    rw [buildAllProbes] at hp
    rw [chunk_query.leavesAll]
    rcases List.mem_append.mp hp with hp | hp
    · exact List.mem_append_left _ (term_of_buildProbes index ast p hp)
    · exact List.mem_append_right _ (term_of_buildAllProbes index asts p hp)

end

theorem term_of_runProbes (levels : Nat) (ast : ASTNode) (calls : Nat) (root : QueryISR) :
    ∀ p ∈ runProbes levels ast calls root, p.term ∈ chunk_query.leaves ast := by
  induction calls generalizing root with
  | zero => simp [runProbes]
  | succ calls ih =>
    intro p hp
    rw [runProbes] at hp
    rcases List.mem_append.mp hp with hp | hp
    · exact term_of_nextProbes levels ast root p hp
    · split at hp
      · split at hp
        · cases hp
        · exact ih _ p hp
      · cases hp

/-- A query probes only its own leaves, so that no probe of one without negations is late. -/
theorem inTime_of_allPositive {ast : ASTNode} (h : AllPositive ast) (c : Chunk) :
    ∀ p ∈ queryProbes c.index ast, p.InTime c := by
  intro p hp
  have hterm : p.term ∈ chunk_query.leaves ast := by
    rw [queryProbes] at hp
    rcases List.mem_append.mp hp with hp | hp
    · exact term_of_buildProbes c.index ast p hp
    · split at hp
      · exact term_of_runProbes _ ast _ _ p hp
      · cases hp
  intro hnegated
  rw [h p.term hterm] at hnegated
  cases hnegated

end Probes

theorem driveable_of_allPositive {ast : ASTNode} (hfull : query_validity.Full ast)
    (h : AllPositive ast) : query_isr.driveable ast = true := by
  induction hfull with
  | term t =>
    rw [query_isr.driveable, h t (by simp [chunk_query.leaves])]
    rfl
  | @and children hne _ ih =>
    obtain ⟨c, cs, rfl⟩ := List.exists_cons_of_ne_nil hne
    rw [query_isr.driveable, query_isr.someDriveable, Bool.or_eq_true]
    refine Or.inl (ih c List.mem_cons_self fun t ht => h t ?_)
    rw [chunk_query.leaves]
    exact mem_leavesAll.mpr ⟨c, List.mem_cons_self, ht⟩
  | @or children hne _ ih =>
    have heach : ∀ cs : List ASTNode, (∀ c ∈ cs, query_isr.driveable c = true) →
        query_isr.eachDriveable cs = true := by
      intro cs hcs
      induction cs with
      | nil => rfl
      | cons c cs ih =>
        rw [query_isr.eachDriveable, hcs c List.mem_cons_self,
          ih fun d hd => hcs d (List.mem_cons_of_mem c hd)]
        rfl
    rw [query_isr.driveable, Bool.and_eq_true, decide_eq_true_eq]
    refine ⟨mt List.length_eq_zero_iff.mp hne, heach children fun c hc => ih c hc fun t ht => h t ?_⟩
    rw [chunk_query.leaves]
    exact mem_leavesAll.mpr ⟨c, hc, ht⟩

/-! ## What a query answers -/

/-- What is reported of a document for these words. -/
def infoOf (docs : List Document) (words : List Bytes) (d : Document) : DocInfo :=
  ⟨d.url, words.map fun w => ⟨w, placesOf w d.words, docsWith w docs, false⟩⟩

section Decide

variable (leaf : TermData → Prop) [DecidablePred leaf]

mutual

def decidableHolds : (ast : ASTNode) → Decidable (ast.Holds leaf)
  | .term t => inferInstanceAs (Decidable (leaf t))
  | .and asts => decidableAllHold asts
  | .or asts => decidableAnyHolds asts

def decidableAllHold : (asts : List ASTNode) → Decidable (AllHold leaf asts)
  | [] => .isTrue trivial
  | ast :: asts =>
    haveI := decidableHolds ast
    haveI := decidableAllHold asts
    inferInstanceAs (Decidable (ast.Holds leaf ∧ AllHold leaf asts))

def decidableAnyHolds : (asts : List ASTNode) → Decidable (AnyHolds leaf asts)
  | [] => .isFalse id
  | ast :: asts =>
    haveI := decidableHolds ast
    haveI := decidableAnyHolds asts
    inferInstanceAs (Decidable (ast.Holds leaf ∨ AnyHolds leaf asts))

end

end Decide

instance (words : List Bytes) (isPhrase : Bool) (val : Bytes) :
    Decidable (holdsIn words isPhrase val) := by
  unfold holdsIn
  infer_instance

instance (words : List Bytes) : DecidablePred (leafHolds (holdsIn words)) := fun t => by
  unfold leafHolds
  infer_instance

instance (ast : ASTNode) (d : Document) : Decidable (Matches ast d) := decidableHolds _ ast

theorem eq_of_increasing {xs ys : List Nat} (hx : xs.Pairwise (· < ·)) (hy : ys.Pairwise (· < ·))
    (h : ∀ n, n ∈ xs ↔ n ∈ ys) : xs = ys := by
  have hperm : xs.Perm ys :=
    (List.perm_ext_iff_of_nodup (hx.imp Nat.ne_of_lt) (hy.imp Nat.ne_of_lt)).mpr h
  exact hperm.eq_of_pairwise (fun a b _ _ hab hba => absurd hab (Nat.lt_asymm hba)) hx hy

theorem placesOf_increasing (word : Bytes) (words : List Bytes) :
    (placesOf word words).Pairwise (· < ·) := by
  unfold placesOf
  rw [List.pairwise_map]
  refine List.Pairwise.filter _ (List.pairwise_map.mp ?_)
  rw [List.zipIdx_map_snd]
  exact List.pairwise_lt_range'

section Answer

variable {c : Chunk} {ast : ASTNode}

theorem positions_eq (h : ChunkOf c docs) {i : Nat} {d : Document} (hd : docs[i]? = some d)
    (word : Bytes) : positions (c.postings word) (i + 1) = placesOf word d.words := by
  have hpositions := positions_enumerates c word (i + 1)
  refine eq_of_increasing hpositions.increasing (placesOf_increasing word d.words) fun loc => ?_
  rw [hpositions.exact, mem_placesOf]
  exact mem_postings h hd word loc

theorem queryInfo_eq (h : ChunkOf c docs) {i : Nat} {d : Document} (hd : docs[i]? = some d)
    (words : List Bytes) : chunk_query.queryInfo c words (i + 1) = infoOf docs words d := by
  unfold chunk_query.queryInfo infoOf
  congr 1
  · unfold getUrl
    rw [if_neg (Nat.succ_ne_zero i), h.urls, Nat.add_sub_cancel, List.getElem?_map, hd]
    rfl
  · refine List.map_congr_left fun w _ => ?_
    rw [chunk_query.nodeInfo, positions_eq h hd, h.nDocs]

/-- The docs of a chunk with these documents that match. -/
def matching (ast : ASTNode) (docs : List Document) : List Nat :=
  ((docs.zipIdx 1).filter fun d => Matches ast d.1).map Prod.snd

theorem matching_increasing (ast : ASTNode) (docs : List Document) :
    (matching ast docs).Pairwise (· < ·) := by
  unfold matching
  rw [List.pairwise_map]
  refine List.Pairwise.filter _ (List.pairwise_map.mp ?_)
  rw [List.zipIdx_map_snd]
  exact List.pairwise_lt_range'

theorem mem_matching {doc : Nat} : doc ∈ matching ast docs ↔
    1 ≤ doc ∧ ∃ d, docs[doc - 1]? = some d ∧ Matches ast d := by
  unfold matching
  simp only [List.mem_map, List.mem_filter, decide_eq_true_eq, Prod.exists, exists_eq_right,
    List.mem_zipIdx_iff_le_and_getElem?_sub]
  constructor
  · rintro ⟨d, ⟨hle, hd⟩, hmatch⟩
    exact ⟨hle, d, hd, hmatch⟩
  · rintro ⟨hle, d, hd, hmatch⟩
    exact ⟨d, ⟨hle, hd⟩, hmatch⟩

theorem map_matching (h : ChunkOf c docs) (words : List Bytes) :
    (matching ast docs).map (chunk_query.queryInfo c words) =
      (docs.filter fun d => Matches ast d).map (infoOf docs words) := by
  have hsplit : docs.filter (fun d => Matches ast d) =
      ((docs.zipIdx 1).filter fun d => Matches ast d.1).map Prod.fst := by
    conv_lhs => rw [← List.zipIdx_map_fst 1 docs]
    rw [List.filter_map]
    rfl
  rw [hsplit, matching, List.map_map, List.map_map]
  refine List.map_congr_left fun e he => ?_
  obtain ⟨d, doc⟩ := e
  obtain ⟨hle, hd⟩ := List.mem_zipIdx_iff_le_and_getElem?_sub.mp (List.mem_filter.mp he).1
  obtain ⟨i, rfl⟩ : ∃ i, doc = i + 1 := ⟨doc - 1, by omega⟩
  exact queryInfo_eq h hd words

theorem uniqueWords_ne_nil {d : Document} (hfull : query_validity.Full ast)
    (hpositive : AllPositive ast) (hmatch : Matches ast d) : chunk_query.uniqueWords ast ≠ [] := by
  obtain ⟨t, ht, hleaf⟩ := exists_leaf hfull hmatch
  have hplain := hpositive t ht
  unfold leafHolds holdsIn at hleaf
  rw [hplain, if_neg Bool.false_ne_true] at hleaf
  have hword : ∃ w, chunk_query.PositiveWord ast w := by
    cases hphrase : t.isPhrase with
    | true =>
      rw [hphrase, if_pos rfl] at hleaf
      obtain ⟨w, ws, hwords⟩ := List.exists_cons_of_ne_nil hleaf.1
      refine ⟨w, t, ht, hplain, ?_⟩
      rw [hphrase, if_pos rfl, hwords]
      exact List.mem_cons_self
    | false => exact ⟨t.val, t, ht, hplain, by rw [hphrase, if_neg Bool.false_ne_true]⟩
  obtain ⟨w, hw⟩ := hword
  exact List.ne_nil_of_mem (((chunk_query.uniqueWords_spec ast).2 w).mpr hw)

/-- Without a deadline a query gets the first documents that match, up to the cap. -/
theorem query_answers (h : ChunkOf c docs) (hlen : docs.length ≤ DOCS_PER_INDEX_CHUNK)
    (hfull : query_validity.Full ast) (hpositive : AllPositive ast) (deadlineMs : Nat)
    (clock : Clock) (hclock : ∀ check, fires deadlineMs clock check = false) :
    chunk_query.query c.index deadlineMs clock ast =
      some (((docs.filter fun d => Matches ast d).take chunk_query.CHUNK_MANAGER_MAX_MATCHES).map
        (infoOf docs (chunk_query.uniqueWords ast))) := by
  have hintime := inTime_of_allPositive hpositive c
  rw [queryProbes, List.forall_mem_append] at hintime
  obtain ⟨root, hroot, hbuilt⟩ :=
    query_engine.buildIsrTree_built c ast (query_isr.depth ast) le_rfl hintime.1
  have hdriveable := driveable_of_allPositive hfull hpositive
  have hrun := hintime.2
  rw [hroot] at hrun
  obtain ⟨found, hfound, hincreasing, hmem⟩ :=
    query_engine.nextDocs_give (query_isr.depth ast) (DOCS_PER_INDEX_CHUNK + 1)
      (hbuilt.finds hdriveable) (Nat.zero_le _) (Nat.lt_succ_of_le (Nat.sub_le _ _)) hrun
  -- the docs of the tree are those of the documents that match
  have hsame : found = matching ast docs := by
    refine eq_of_increasing hincreasing (matching_increasing ast docs) fun doc => ?_
    rw [hmem, mem_matching]
    exact satisfies_iff h hfull hpositive doc
  have hbounds : ∀ d ∈ found, 0 < d ∧ d ≤ DOCS_PER_INDEX_CHUNK := by
    intro doc hdoc
    rw [hsame, mem_matching] at hdoc
    obtain ⟨hpos, d, hd, _⟩ := hdoc
    have hlt := (List.getElem?_eq_some_iff.mp hd).1
    omega
  obtain ⟨n, hquery, hn⟩ := chunk_query.query_returns hroot
    (hbuilt.keeps.isDriveable.trans hdriveable) hfound hincreasing hbounds deadlineMs clock
  rw [hquery, hsame, List.map_take, map_matching h, List.map_take]
  by_cases hwords : chunk_query.uniqueWords ast = []
  · have hnone : docs.filter (fun d => Matches ast d) = [] := by
      rw [List.filter_eq_nil_iff]
      intro d _ hmatch
      exact uniqueWords_ne_nil hfull hpositive (of_decide_eq_true hmatch) hwords
    rw [hnone]
    simp
  · rw [hn hwords hclock]

end Answer

/-- The chunk file of these documents is written and loaded, and every query without negations
gets from it the documents that match, in order and up to the cap, with all places of its words. -/
def Answers (file : ChunkFile) (docs : List Document) : Prop :=
  ∃ (state : chunk_layout.ChunkState) (fuel : Nat) (bytes : Bytes),
    state.urls = file.urls ∧ state.index.entries = entriesOf file.index ∧
      chunk_layout.persist fuel state = some bytes ∧
      ∀ query ast, parseQueryAst query = .ok ast → AllPositive ast → ∀ deadlineMs clock,
        (∀ check, default_query.fires deadlineMs clock check = false) →
        chunk_query.query (loaded_index.load bytes) deadlineMs clock ast =
          some (((docs.filter fun d => Matches ast d).take
            chunk_query.CHUNK_MANAGER_MAX_MATCHES).map (infoOf docs (chunk_query.uniqueWords ast)))

theorem answers_of_indexOf {file : ChunkFile} {docs : List Document}
    (h : IndexOf file.urls file.index docs) (hs : Searchable docs) : Answers file docs := by
  obtain ⟨fuel, bytes, hbytes, c, hc, hchunk⟩ := exists_chunkOf h hs
  refine ⟨stateOf h hs, fuel, bytes, rfl, rfl, hbytes, ?_⟩
  intro query ast hparse hpositive deadlineMs clock hclock
  have hfull := query_validity.parseTokens_full (query_validity.parseQueryAst_cases hparse).2
  rw [← hc]
  exact query_answers hchunk (hs.few.le.trans (by decide)) hfull hpositive deadlineMs clock hclock

end seamus.searched_documents
