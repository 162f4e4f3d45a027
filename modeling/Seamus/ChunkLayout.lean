-- The law of the chunk file: the sections that `IndexChunk::persist` writes are
-- the ones that `LoadedIndex` finds, and every stored offset is the place of
-- its word's header.
import Seamus.Index
import Seamus.Sort
import Seamus.LoadedIndex
import Seamus.Isr
import Seamus.PostingRoundTrip
import Mathlib.Data.List.AList
import Mathlib.Algebra.BigOperators.Group.List.Basic

open little_endian seamus.index seamus.sort seamus.dictionary seamus.loaded_index seamus.isr
open seamus.posting_round_trip

namespace seamus.chunk_layout

/-! ## The source function -/

def urlsBytes (urls : List Bytes) : Nat := (urls.map (fun url => 4 + 1 + url.length + 1)).sum

/-- The ID to URL mapping, from the index `i` on. Ids are 1-indexed. -/
def writeUrls : Nat → List Bytes → Bytes
  | _, [] => []
  | i, url :: urls => leBytes 4 (i + 1) ++ (space :: (url ++ (newline :: writeUrls (i + 1) urls)))

/-- The character of a slot: the letters, then the digits. -/
def slotChar (i : Nat) : UInt8 := UInt8.ofNat (if i < 26 then i + 97 else (i - 26) + 48)

def writeToc (dictOffsets : List Nat) : Bytes :=
  (List.range DICT_SLOTS).flatMap (fun i =>
    slotChar i :: space :: (leBytes 8 (dictOffsets.getD i 0) ++ [newline]))

def writeDict (entries : List (Bytes × Nat)) : Bytes :=
  entries.flatMap (fun (word, location) => word ++ (space :: (leBytes 8 location ++ [newline])))

/-- The second pass over some words. -/
def written (index : Bytes → Postings) (words : List Bytes) : Bytes :=
  words.flatMap (fun word => writePostingList (index word))

/-- The bytes of the file, once the words are in order. -/
def writeChunk (urls : List Bytes) (index : Bytes → Postings) (order : List Bytes) : Bytes :=
  let order := order.take (u32 order.length)
  let first := firstPass index order
  leBytes 8 (urlsBytes urls) ++ (newline :: (writeUrls 0 urls ++ (newline ::
    (writeToc (fillOffsets first.currOffset first.dictOffsets) ++ (newline ::
      (writeDict (order.zip first.locations) ++ (newline :: written index order)))))))

/-- A chunk in memory, within the 32 bits of its ids, its word count and its
lengths, and the 64 bits of its offsets. -/
structure ChunkState where
  urls : List Bytes
  index : AList (fun _ : Bytes => Postings)
  urlsClean : ∀ url ∈ urls, newline ∉ url
  wordsIndexable : ∀ word ∈ index, Indexable word
  postingsValid : ∀ word ∈ index, ∀ e, index.lookup word = some e → e.Valid
  docsCounted : ∀ word ∈ index, ∀ e, index.lookup word = some e → e.nDocs ≤ DOCS_PER_INDEX_CHUNK
  -- `persist` counts the URLs and the words in a `uint32_t`
  urlsFit : urls.length < 2 ^ 32
  wordsFit : index.keys.length < 2 ^ 32
  fits : urlsBytes urls + (index.keys.map (fun word =>
    sizePostingList ((index.lookup word).getD ⟨[], 0⟩))).sum < 2 ^ 63

/-- `index[word]`. -/
def ChunkState.postings (s : ChunkState) (word : Bytes) : Postings :=
  (s.index.lookup word).getD ⟨[], 0⟩

/-- `IndexChunk::persist`: none as long as the sort has not ended. -/
def persist (fuel : Nat) (s : ChunkState) : Option Bytes :=
  (sortEntries fuel s.index.keys).map (writeChunk s.urls s.postings)

/-! ## The URL table -/

theorem writeUrls_length (i : Nat) (urls : List Bytes) :
    (writeUrls i urls).length = urlsBytes urls := by
  induction urls generalizing i with
  | nil => rfl
  | cons url urls ih =>
    simp only [writeUrls, List.length_append, List.length_cons, leBytes_length, ih, urlsBytes,
      List.map_cons, List.sum_cons]
    omega

theorem length_le_urlsBytes (urls : List Bytes) : urls.length ≤ urlsBytes urls := by
  induction urls with
  | nil => exact Nat.le_refl _
  | cons url urls ih =>
    simp only [urlsBytes, List.map_cons, List.sum_cons, List.length_cons] at ih ⊢
    omega

/-- The ids are 4 bytes that may hold a newline: they are skipped, not searched. -/
theorem readUrls_writeUrls (turns i : Nat) (urls : List Bytes) (hturns : urls.length ≤ turns)
    (hclean : ∀ url ∈ urls, newline ∉ url) : readUrls turns (writeUrls i urls) = (urls, true) := by
  induction turns generalizing i urls with
  | zero =>
    have hnil : urls = [] := List.length_eq_zero_iff.1 (Nat.le_zero.1 hturns)
    rw [hnil]
    rfl
  | succ turns ih =>
    cases urls with
    | nil => rfl
    | cons url urls =>
      have hne : leBytes 4 (i + 1) ++ (space :: (url ++ (newline :: writeUrls (i + 1) urls))) ≠ [] := by
        simp [leBytes]
      have hskip : (leBytes 4 (i + 1) ++
          (space :: (url ++ (newline :: writeUrls (i + 1) urls)))).drop (4 + 1) =
            url ++ (newline :: writeUrls (i + 1) urls) := by
        rw [← List.drop_drop, drop_leBytes, List.drop_one, List.tail_cons]
      rw [List.length_cons] at hturns
      rw [writeUrls, readUrls, if_neg hne, hskip,
        memchr_append newline url _ (hclean url List.mem_cons_self)]
      simp only [ih (i + 1) urls (by omega) (fun u hu => hclean u (List.mem_cons_of_mem _ hu))]

/-! ## The lookup table -/

theorem flatMap_length_const {α : Type} (xs : List α) (f : α → Bytes) (n : Nat)
    (h : ∀ x ∈ xs, (f x).length = n) : (xs.flatMap f).length = xs.length * n := by
  induction xs with
  | nil => simp
  | cons x xs ih =>
    rw [List.flatMap_cons, List.length_append, h x List.mem_cons_self,
      ih (fun y hy => h y (List.mem_cons_of_mem _ hy)), List.length_cons, Nat.add_mul, Nat.one_mul,
      Nat.add_comm]

theorem writeToc_length (dictOffsets : List Nat) :
    (writeToc dictOffsets).length = INDEX_DICTIONARY_TOC_SIZE := by
  rw [writeToc, flatMap_length_const _ _ 11 (fun i _ => by simp), List.length_range]
  rfl

/-! ## The dictionary -/

/-- The loader's entry of a word, before the posts are counted. -/
def rawEntry (entry : Bytes × Nat) : DictEntry := ⟨entry.1, u32 entry.1.length, entry.2, 0⟩

/-- The offsets are 8 bytes that may hold a space or a newline: the loader
steps over them. -/
theorem readDict_writeDict (turns : Nat) (entries : List (Bytes × Nat)) (region : Bytes)
    (hturns : entries.length < turns) (hwords : ∀ entry ∈ entries, Indexable entry.1)
    (hlocs : ∀ entry ∈ entries, entry.2 < 2 ^ 64) :
    readDict turns (writeDict entries ++ newline :: region) =
      (entries.map rawEntry, some region) := by
  induction turns generalizing entries with
  | zero => omega
  | succ turns ih =>
    cases entries with
    | nil => simp [writeDict, readDict]
    | cons entry entries =>
      obtain ⟨word, location⟩ := entry
      have hword : Indexable word := hwords _ List.mem_cons_self
      obtain ⟨first, rest, hcons, hnl⟩ := hword.ne_newline
      have hbytes : writeDict ((word, location) :: entries) ++ newline :: region =
          word ++ (space :: (leBytes 8 location ++
            (newline :: (writeDict entries ++ newline :: region)))) := by
        simp [writeDict]
      have htake : leValue ((leBytes 8 location ++
          (newline :: (writeDict entries ++ newline :: region))).take 8) = location :=
        leValue_take_leBytes _ _ _ (hlocs _ List.mem_cons_self)
      have hdrop : (leBytes 8 location ++
          (newline :: (writeDict entries ++ newline :: region))).drop (8 + 1) =
            writeDict entries ++ newline :: region := by
        rw [← List.drop_drop, drop_leBytes, List.drop_one, List.tail_cons]
      have hchr := memchr_append space word (leBytes 8 location ++
        (newline :: (writeDict entries ++ newline :: region))) hword.noSpace
      rw [List.length_cons] at hturns
      have hih := ih entries (by omega) (fun e he => hwords e (List.mem_cons_of_mem _ he))
        (fun e he => hlocs e (List.mem_cons_of_mem _ he))
      rw [hbytes]
      rw [hcons, List.cons_append] at hchr ⊢
      rw [readDict, if_neg hnl, hchr]
      simp only [htake, hdrop, hih, List.map_cons, rawEntry]

/-! ## The offsets -/

/-- The running sums of the sizes of the posting lists. -/
def offsetsFrom (index : Bytes → Postings) : Nat → List Bytes → List Nat
  | _, [] => []
  | n, word :: words => n :: offsetsFrom index (n + sizePostingList (index word)) words

theorem foldl_step_locations (index : Bytes → Postings) (words : List Bytes) (st : FirstPass) :
    (words.foldl (FirstPass.step index) st).locations =
      st.locations ++ offsetsFrom index st.postingListSize words := by
  induction words generalizing st with
  | nil => simp [offsetsFrom]
  | cons word words ih =>
    rw [List.foldl_cons, ih]
    simp [FirstPass.step, offsetsFrom]

theorem firstPass_locations (index : Bytes → Postings) (order : List Bytes) :
    (firstPass index order).locations = offsetsFrom index 0 order := by
  rw [firstPass, foldl_step_locations]
  rfl

@[simp] theorem offsetsFrom_length (index : Bytes → Postings) (n : Nat) (words : List Bytes) :
    (offsetsFrom index n words).length = words.length := by
  induction words generalizing n with
  | nil => rfl
  | cons word words ih => simp [offsetsFrom, ih]

theorem offsetsFrom_getElem (index : Bytes → Postings) (n : Nat) (words : List Bytes) (i : Nat)
    (hi : i < (offsetsFrom index n words).length) :
    (offsetsFrom index n words)[i] =
      n + ((words.take i).map (fun word => sizePostingList (index word))).sum := by
  induction words generalizing n i with
  | nil => simp [offsetsFrom] at hi
  | cons word words ih =>
    cases i with
    | zero => simp [offsetsFrom]
    | succ i =>
      simp only [offsetsFrom, List.getElem_cons_succ]
      rw [ih]
      simp only [List.take_succ_cons, List.map_cons, List.sum_cons]
      omega

/-- The bytes that the second pass writes for some words are as many as the
first pass counts. -/
theorem written_length (index : Bytes → Postings) (words : List Bytes)
    (h : ∀ word ∈ words, (index word).Valid) :
    (written index words).length = (words.map (fun word => sizePostingList (index word))).sum := by
  induction words with
  | nil => rfl
  | cons word words ih =>
    rw [written] at ih ⊢
    rw [List.flatMap_cons, List.length_append, writePostingList_length _ (h word List.mem_cons_self),
      ih (fun w hw => h w (List.mem_cons_of_mem _ hw)), List.map_cons, List.sum_cons]

/-- The region around the list of the word at an index. -/
theorem written_split (index : Bytes → Postings) (words : List Bytes) (i : Nat)
    (hi : i < words.length) :
    written index words = written index (words.take i) ++
      (writePostingList (index words[i]) ++ written index (words.drop (i + 1))) := by
  have hsplit : words = words.take i ++ words[i] :: words.drop (i + 1) := by simp
  calc written index words
      = written index (words.take i ++ words[i] :: words.drop (i + 1)) := by rw [← hsplit]
    _ = _ := by simp only [written, List.flatMap_append, List.flatMap_cons]

/-- Every stored offset is the length of the lists before it. -/
theorem location_eq_length (index : Bytes → Postings) (order : List Bytes) (i : Nat)
    (hvalid : ∀ word ∈ order, (index word).Valid) (hi : i < order.length) :
    (firstPass index order).locations[i]? = some (written index (order.take i)).length := by
  rw [firstPass_locations, List.getElem?_eq_getElem (by simpa using hi), offsetsFrom_getElem,
    Nat.zero_add, written_length _ _ (fun word hw => hvalid word (List.mem_of_mem_take hw))]

/-! ## The whole file -/

/-- The four text sections are skipped exactly, so the loader finds each of them. -/
theorem load_sections (urls : List Bytes) (toc : Bytes) (entries : List (Bytes × Nat))
    (region : Bytes) (hurls : ∀ url ∈ urls, newline ∉ url) (hsize : urlsBytes urls < 2 ^ 64)
    (htoc : toc.length = INDEX_DICTIONARY_TOC_SIZE) (hwords : ∀ entry ∈ entries, Indexable entry.1)
    (hlocs : ∀ entry ∈ entries, entry.2 < 2 ^ 64) :
    load (leBytes 8 (urlsBytes urls) ++ (newline :: (writeUrls 0 urls ++ (newline ::
        (toc ++ (newline :: (writeDict entries ++ (newline :: region)))))))) =
      ⟨urls, (entries.map rawEntry).map (readPosts region), region,
        (((entries.map rawEntry).map (readPosts region)).map DictEntry.nPosts).sum % 2 ^ 64⟩ := by
  generalize hdict : writeDict entries ++ (newline :: region) = dictBytes
  generalize htail : newline :: (toc ++ (newline :: dictBytes)) = tail
  have hne : leBytes 8 (urlsBytes urls) ++ (newline :: (writeUrls 0 urls ++ tail)) ≠ [] := by
    simp [leBytes]
  have hvalue : leValue ((leBytes 8 (urlsBytes urls) ++
      (newline :: (writeUrls 0 urls ++ tail))).take 8) = urlsBytes urls :=
    leValue_take_leBytes _ _ _ hsize
  have hover : ¬ urlsBytes urls > (writeUrls 0 urls ++ tail).length := by
    rw [List.length_append, writeUrls_length]
    omega
  have htake : (writeUrls 0 urls ++ tail).take (urlsBytes urls) = writeUrls 0 urls :=
    List.take_left' (writeUrls_length 0 urls)
  have hdrop : (writeUrls 0 urls ++ tail).drop (urlsBytes urls) = tail :=
    List.drop_left' (writeUrls_length 0 urls)
  have hdropToc : (toc ++ (newline :: dictBytes)).drop INDEX_DICTIONARY_TOC_SIZE =
      newline :: dictBytes := List.drop_left' htoc
  have hturns : entries.length < dictBytes.length := by
    rw [← hdict, List.length_append, List.length_cons]
    have hdictlen : entries.length ≤ (writeDict entries).length := by
      clear hdict hwords hlocs
      induction entries with
      | nil => exact Nat.zero_le _
      | cons entry entries ih =>
        simp only [writeDict, List.flatMap_cons, List.length_append, List.length_cons] at ih ⊢
        omega
    omega
  have hread := readDict_writeDict dictBytes.length entries region hturns hwords hlocs
  rw [hdict] at hread
  rw [load, if_neg hne]
  simp only [hvalue, drop_leBytes, skipNewline_newline, hover, if_false, htake, hdrop,
    readUrls_writeUrls _ 0 urls (length_le_urlsBytes urls) hurls]
  rw [← htail]
  simp only [skipNewline_newline, hdropToc, hread]

/-- The header that a stored offset points to gives the loader the number of posts. -/
theorem readPosts_written (before rest : Bytes) (e : Postings) (h : e.Valid) (word : Bytes)
    (wordLen : Nat) :
    readPosts (before ++ (writePostingList e ++ rest)) ⟨word, wordLen, before.length, 0⟩ =
      ⟨word, wordLen, before.length, e.posts.length⟩ := by
  have hlt := h.length_lt
  have hroom : ¬ before.length + 8 > (before ++ (writePostingList e ++ rest)).length := by
    have := writePostingList_length e h
    simp only [List.length_append, this, sizePostingList]
    omega
  have hvalue : leValue ((writePostingList e ++ rest).take 8) = e.posts.length := by
    simp only [writePostingList, writeHeader, List.append_assoc]
    exact leValue_take_leBytes _ _ _ hlt
  rw [readPosts, if_neg hroom]
  simp only [List.drop_left, hvalue]

/-- How a chunk file looks to the loader. -/
structure LayoutAgrees (s : ChunkState) (order : List Bytes) (file : Bytes) : Prop where
  /-- The URLs, in order. -/
  urls : (load file).urls = s.urls
  /-- The dictionary, in the order of the writer. -/
  words : (load file).dictEntries.map DictEntry.word = order
  /-- The region that the loader finds is the one that the second pass wrote, up to the end. -/
  region : (load file).postingListRegion <:+ file ∧
    (load file).postingListRegion = written s.postings order
  /-- The first pass counts what the second pass writes. -/
  sized : ∀ word ∈ order, (writePostingList (s.postings word)).length =
    sizePostingList (s.postings word)
  /-- Every entry has its word's length and number of posts, and the offset that the first
  pass stored; the lists of the words before it end there, and its own list starts there. -/
  entries : ∀ i word, order[i]? = some word → ∃ e, (load file).dictEntries[i]? = some e ∧
    e.wordLen = word.length ∧ e.nPosts = (s.postings word).posts.length ∧
    (firstPass s.postings order).locations[i]? = some e.postingOffset ∧
    (load file).postingListRegion.take e.postingOffset = written s.postings (order.take i) ∧
    (load file).postingListRegion.drop e.postingOffset =
      writePostingList (s.postings word) ++ written s.postings (order.drop (i + 1)) ∧
    (openAt (load file).postingListRegion e.postingOffset).nPosts =
      (s.postings word).posts.length ∧
    (openAt (load file).postingListRegion e.postingOffset).nDocs = (s.postings word).nDocs

theorem ChunkState.valid (s : ChunkState) (word : Bytes) (h : word ∈ s.index.keys) :
    (s.postings word).Valid ∧ (s.postings word).nDocs ≤ DOCS_PER_INDEX_CHUNK := by
  have hmem : word ∈ s.index := AList.mem_keys.2 h
  obtain ⟨e, he⟩ := Option.isSome_iff_exists.1 (AList.lookup_isSome.2 hmem)
  have hpost : s.postings word = e := by rw [postings, he, Option.getD_some]
  rw [hpost]
  exact ⟨s.postingsValid word hmem e he, s.docsCounted word hmem e he⟩

/-- The entry that the loader builds for the word at an index. -/
def loadedEntry (s : ChunkState) (order : List Bytes) (i : Nat) (word : Bytes) : DictEntry where
  word := word
  wordLen := u32 word.length
  postingOffset := (written s.postings (order.take i)).length
  nPosts := (s.postings word).posts.length

section

variable (s : ChunkState) (order : List Bytes) (hperm : order.Perm s.index.keys)
include hperm

theorem order_valid : ∀ word ∈ order, (s.postings word).Valid :=
  fun word hw => (s.valid word (hperm.mem_iff.1 hw)).1

theorem order_indexable : ∀ word ∈ order, Indexable word :=
  fun word hw => s.wordsIndexable word (AList.mem_keys.2 (hperm.mem_iff.1 hw))

/-- No size and no offset of the file needs more than 64 bits. -/
theorem order_fits : urlsBytes s.urls + (written s.postings order).length < 2 ^ 63 := by
  have hsum : (order.map (fun word => sizePostingList (s.postings word))).sum =
      (s.index.keys.map (fun word => sizePostingList (s.postings word))).sum :=
    (hperm.map _).sum_eq
  rw [written_length _ _ (order_valid s order hperm), hsum]
  exact s.fits

theorem location_lt (i : Nat) (hi : i < order.length) :
    (written s.postings (order.take i)).length < 2 ^ 63 := by
  have hfits := order_fits s order hperm
  rw [written_split _ _ i hi, List.length_append] at hfits
  omega

/-- What the loader finds in the file. -/
theorem load_writeChunk : ∃ total, load (writeChunk s.urls s.postings order) =
    ⟨s.urls, ((order.zip (firstPass s.postings order).locations).map rawEntry).map
        (readPosts (written s.postings order)), written s.postings order, total⟩ := by
  have hcount : order.length < 2 ^ 32 := hperm.length_eq ▸ s.wordsFit
  have hall : order.take (u32 order.length) = order := by rw [u32_of_lt hcount, List.take_length]
  have hfits := order_fits s order hperm
  simp only [writeChunk, hall]
  refine ⟨_, load_sections _ _ _ _ s.urlsClean (by omega) (writeToc_length _)
    (fun entry he => order_indexable s order hperm _ (List.of_mem_zip he).1) ?_⟩
  intro entry he
  obtain ⟨i, hi, rfl⟩ := List.getElem_of_mem he
  rw [List.length_zip] at hi
  have hloc := location_eq_length s.postings order i (order_valid s order hperm) (by omega)
  rw [List.getElem?_eq_getElem (by omega), Option.some.injEq] at hloc
  have hlt := location_lt s order hperm i (by omega)
  rw [List.getElem_zip]
  simp only [hloc]
  omega

/-- The entry at an index: its word, and the place and the posts of its word's list. -/
theorem dictEntry_at (i : Nat) (hi : i < order.length) :
    (load (writeChunk s.urls s.postings order)).dictEntries[i]? =
      some (loadedEntry s order i order[i]) := by
  have hvalid := order_valid s order hperm
  obtain ⟨total, hload⟩ := load_writeChunk s order hperm
  have hloc := location_eq_length s.postings order i hvalid hi
  have hread := readPosts_written (written s.postings (order.take i))
    (written s.postings (order.drop (i + 1))) (s.postings order[i])
    (hvalid _ (List.getElem_mem hi)) order[i] (u32 order[i].length)
  rw [← written_split _ _ i hi] at hread
  have hzip : (order.zip (firstPass s.postings order).locations)[i]? =
      some (order[i], (written s.postings (order.take i)).length) :=
    List.getElem?_zip_eq_some.2 ⟨List.getElem?_eq_getElem hi, hloc⟩
  rw [hload]
  simp only [List.getElem?_map, hzip, Option.map_some, rawEntry, hread]
  rfl

/-- The file of a chunk, for the words in any order. -/
theorem writeChunk_layout : LayoutAgrees s order (writeChunk s.urls s.postings order) := by
  have hvalid := order_valid s order hperm
  obtain ⟨total, hload⟩ := load_writeChunk s order hperm
  have hregion : (load (writeChunk s.urls s.postings order)).postingListRegion =
      written s.postings order := by rw [hload]
  refine ⟨by rw [hload], ?_, ⟨?_, hregion⟩,
    fun word hw => writePostingList_length _ (hvalid word hw), ?_⟩
  · apply List.ext_getElem?
    intro i
    rw [List.getElem?_map]
    by_cases hi : i < order.length
    · rw [dictEntry_at s order hperm i hi, List.getElem?_eq_getElem hi]
      rfl
    · have hlen : (load (writeChunk s.urls s.postings order)).dictEntries.length ≤ i := by
        rw [hload]
        simp only [List.length_map, List.length_zip]
        omega
      rw [List.getElem?_eq_none hlen, List.getElem?_eq_none (by omega)]
      rfl
  · have step : ∀ (a : Bytes) (b : UInt8) (c : Bytes), c <:+ a ++ (b :: c) :=
      fun a b c => (List.suffix_cons b c).trans (List.suffix_append a (b :: c))
    have hcount : order.length < 2 ^ 32 := hperm.length_eq ▸ s.wordsFit
    have hall : order.take (u32 order.length) = order := by rw [u32_of_lt hcount, List.take_length]
    rw [hregion]
    simp only [writeChunk, hall]
    exact (((step _ _ _).trans (step _ _ _)).trans (step _ _ _)).trans (step _ _ _)
  · intro i word hword
    obtain ⟨hi, rfl⟩ := List.getElem?_eq_some_iff.1 hword
    have hmem := List.getElem_mem hi
    have hsplit := written_split s.postings order i hi
    have hopen := openAt_written (written s.postings (order.take i))
      (written s.postings (order.drop (i + 1))) (s.postings order[i]) (hvalid _ hmem)
    rw [← hsplit] at hopen
    have hdocs := (s.valid _ (hperm.mem_iff.1 hmem)).2
    simp only [DOCS_PER_INDEX_CHUNK] at hdocs
    refine ⟨loadedEntry s order i order[i], dictEntry_at s order hperm i hi, ?_⟩
    simp only [loadedEntry, hregion]
    refine ⟨u32_of_lt (order_indexable s order hperm _ hmem).short, trivial,
      location_eq_length s.postings order i hvalid hi, ?_, ?_, by rw [hopen], ?_⟩
    · rw [hsplit, List.take_left]
    · rw [hsplit, List.drop_left]
    · rw [hopen]
      exact Nat.mod_eq_of_lt (by omega)

end

/-- `persist` ends, and `LoadedIndex` finds in its file the URLs in order, the
dictionary in the order of `sort_entries` with its stored offsets, and at every
stored offset the header of the word's own posting list. -/
theorem chunk_file_is_laid_out_as_the_loader_reads_it (s : ChunkState) :
    ∃ fuel order file, sortEntries fuel s.index.keys = some order ∧
      order.Perm s.index.keys ∧ persist fuel s = some file ∧ LayoutAgrees s order file := by
  have hind : ∀ word ∈ s.index.keys, Indexable word :=
    fun word hw => s.wordsIndexable word (AList.mem_keys.2 hw)
  obtain ⟨fuel, order, run, hperm, -⟩ := sortEntries_spec s.index.keys s.index.keys_nodup
    (fun word hw => (hind word hw).noNul)
  rw [List.filter_eq_self.2 (fun word hw => (hind word hw).slot)] at hperm
  refine ⟨fuel, order, writeChunk s.urls s.postings order, run, hperm, ?_,
    writeChunk_layout s order hperm⟩
  rw [persist, run, Option.map_some]

end seamus.chunk_layout
