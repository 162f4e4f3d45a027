-- `chunk_manager::query`: the docs of the execution tree, and for each the positions of the words
-- of the query, from streams of their own that follow the tree.
import Seamus.QueryIsr
import Mathlib.Data.List.Perm.Subperm

open seamus.index seamus.isr seamus.loaded_index seamus.post_streams seamus.default_query
  seamus.phrase_query seamus.expressions seamus.query_isr

namespace seamus.chunk_query

/-! ## The source functions -/

mutual

/-- The leaves of the tree in the order in which they are made. -/
def leaves : ASTNode → List TermData
  | .term t => [t]
  | .and children => leavesAll children
  | .or children => leavesAll children

def leavesAll : List ASTNode → List TermData
  | [] => []
  | c :: cs => leaves c ++ leavesAll cs

end

def addUniqueWord (words : List Bytes) (word : Bytes) : List Bytes :=
  if word ∈ words then words else words ++ [word]

/-- The words of the terms without a negation, then those of the phrases without one. -/
def uniqueWords (ast : ASTNode) : List Bytes :=
  let positive := (leaves ast).filter fun t => !t.isNegated
  let terms := (positive.filter fun t => !t.isPhrase).map TermData.val
  let phrases := (positive.filter fun t => t.isPhrase).flatMap fun t => phraseWords t.val
  (terms ++ phrases).foldl addUniqueWord []

/-- The positions of a word in a doc of the tree. -/
def positionsAt (doc : Nat) (r : IndexStreamReader) : List Nat × IndexStreamReader :=
  let (p, r) := advanceTo doc r
  if p.doc = doc then collectPositionsInCurrentDoc r else ([], r)

def wordInfos (doc : Nat) : List Stream → List NodeInfo × List Stream
  | [] => ([], [])
  | s :: posIsrs =>
    let (positions, reader) := positionsAt doc s.reader
    let (infos, posIsrs) := wordInfos doc posIsrs
    (⟨s.word, positions, reader.nDocs, false⟩ :: infos, { s with reader := reader } :: posIsrs)

def CHUNK_MANAGER_MAX_MATCHES : Nat := 2000

section Query

variable (index : LoadedIndex) (deadlineMs : Nat) (clock : Clock)

/-- The loop of `query`: the number of the check, the docs so far, and the next doc. -/
def queryLoop (levels : Nat) : Nat → Nat → List DocInfo → Nat → QueryISR → List Stream →
    Option (List DocInfo)
  | 0, _, _, _, _, _ => none
  | turns + 1, check, docs, doc, root, posIsrs =>
    if doc = 0 then some docs
    else if fires deadlineMs clock check then some docs
    else if docs.length ≥ CHUNK_MANAGER_MAX_MATCHES then some docs
    else
      let (infos, posIsrs) := wordInfos doc posIsrs
      let docs := docs ++ [⟨getUrl index doc, infos⟩]
      match nextDoc levels root with
      | none => none
      | some (doc, root) => queryLoop levels turns (check + 1) docs doc root posIsrs

/-- The docs that `query` ranks or appends to the data channel: none as long as its loop has not
ended. Every turn of the loop but the last is for another doc of the chunk. -/
def query (ast : ASTNode) : Option (List DocInfo) :=
  match buildIsrTree index ast with
  | none => none
  | some root =>
    if !isDriveable root then some []
    else
      let words := uniqueWords ast
      if words.length = 0 then some []
      else
        match nextDoc (depth ast) root with
        | none => none
        | some (doc, root) =>
          queryLoop index deadlineMs clock (depth ast) (DOCS_PER_INDEX_CHUNK + 1) 0 [] doc root
            (words.map (openStream index))

end Query

/-- The docs that the tree of a query yields. -/
def treeDocs (index : LoadedIndex) (ast : ASTNode) : Option (List Nat) :=
  match buildIsrTree index ast with
  | none => none
  | some root =>
    if !isDriveable root then some []
    else query_isr.nextDocs (depth ast) (DOCS_PER_INDEX_CHUNK + 1) root

/-! ## The words -/

theorem foldl_addUniqueWord (ws words : List Bytes) (h : words.Nodup) :
    (ws.foldl addUniqueWord words).Nodup ∧
      ∀ w, w ∈ ws.foldl addUniqueWord words ↔ w ∈ words ∨ w ∈ ws := by
  induction ws generalizing words with
  | nil => exact ⟨h, fun w => by simp⟩
  | cons word ws ih =>
    rw [List.foldl_cons]
    have hadd : (addUniqueWord words word).Nodup ∧
        ∀ w, w ∈ addUniqueWord words word ↔ w ∈ words ∨ w = word := by
      unfold addUniqueWord
      split
      · rename_i hmem
        refine ⟨h, fun w => ⟨Or.inl, ?_⟩⟩
        rintro (hw | rfl)
        · exact hw
        · exact hmem
      · rename_i hmem
        refine ⟨h.append (List.nodup_singleton word) (by simpa using hmem), fun w => ?_⟩
        rw [List.mem_append, List.mem_singleton]
    obtain ⟨hnodup, hmem⟩ := ih _ hadd.1
    refine ⟨hnodup, fun w => ?_⟩
    rw [hmem, hadd.2, List.mem_cons, or_assoc]

/-- A word of a leaf without a negation. -/
def PositiveWord (ast : ASTNode) (w : Bytes) : Prop :=
  ∃ t ∈ leaves ast, t.isNegated = false ∧
    if t.isPhrase then w ∈ phraseWords t.val else w = t.val

theorem uniqueWords_spec (ast : ASTNode) :
    (uniqueWords ast).Nodup ∧ ∀ w, w ∈ uniqueWords ast ↔ PositiveWord ast w := by
  unfold uniqueWords
  refine (foldl_addUniqueWord _ [] List.nodup_nil).imp_right fun hmem w => ?_
  rw [hmem, List.mem_append]
  constructor
  · rintro (hnil | hterm | hphrase)
    · cases hnil
    · obtain ⟨t, ht, rfl⟩ := List.mem_map.mp hterm
      obtain ⟨ht, hplain⟩ := List.mem_filter.mp ht
      obtain ⟨ht, hpositive⟩ := List.mem_filter.mp ht
      rw [Bool.not_eq_true'] at hplain hpositive
      exact ⟨t, ht, hpositive, by rw [hplain]; rfl⟩
    · obtain ⟨t, ht, hw⟩ := List.mem_flatMap.mp hphrase
      obtain ⟨ht, hplain⟩ := List.mem_filter.mp ht
      obtain ⟨ht, hpositive⟩ := List.mem_filter.mp ht
      rw [Bool.not_eq_true'] at hpositive
      exact ⟨t, ht, hpositive, by rwa [if_pos hplain]⟩
  · rintro ⟨t, ht, hpositive, hw⟩
    have hkept : t ∈ (leaves ast).filter fun t => !t.isNegated :=
      List.mem_filter.mpr ⟨ht, by rw [hpositive]; rfl⟩
    split at hw
    · rename_i hphrase
      exact Or.inr (Or.inr (List.mem_flatMap.mpr ⟨t, List.mem_filter.mpr ⟨hkept, hphrase⟩, hw⟩))
    · rename_i hphrase
      have hterm : (!t.isPhrase) = true := by
        rw [Bool.not_eq_true']
        exact Bool.eq_false_iff.mpr hphrase
      rw [hw]
      exact Or.inr (Or.inl (List.mem_map_of_mem (List.mem_filter.mpr ⟨hkept, hterm⟩)))

/-! ## One doc -/

variable (c : Chunk)

/-- The stream of a word that has passed no post from the doc on. -/
structure Follows (doc : Nat) (s : Stream) : Prop where
  behind : Behind c doc s
  nDocs : s.reader.nDocs = (open' s.word c.index).nDocs

variable {c}

theorem Follows.mono {doc doc' : Nat} {s : Stream} (h : Follows c doc s) (hle : doc ≤ doc') :
    Follows c doc' s :=
  ⟨h.behind.mono hle, h.nDocs⟩

theorem nDocs_advanceBase (r : IndexStreamReader) : (advanceBase r).2.nDocs = r.nDocs := by
  simp only [advanceBase]
  split
  · rfl
  · split
    · rfl
    · split <;> rfl

theorem nDocs_advanceTo (doc : Nat) (r : IndexStreamReader) :
    (advanceTo doc r).2.nDocs = r.nDocs := by
  have hwalk (turns : Nat) (r : IndexStreamReader) : (walkTo doc turns r).2.nDocs = r.nDocs := by
    induction turns generalizing r with
    | zero => rfl
    | succ turns ih =>
      have hbase := nDocs_advanceBase r
      rw [walkTo]
      split
      · simp only
        split
        · exact hbase
        · exact (ih _).trans hbase
      · rfl
  unfold advanceTo
  split
  · rfl
  · exact hwalk _ _

theorem nDocs_collect (r : IndexStreamReader) :
    (collectPositionsInCurrentDoc r).2.nDocs = r.nDocs := by
  have hloop (doc turns : Nat) (r : IndexStreamReader) :
      (collectLoop doc turns r).2.nDocs = r.nDocs := by
    induction turns generalizing r with
    | zero => rfl
    | succ turns ih =>
      have hbase := nDocs_advanceBase r
      rw [collectLoop]
      simp only
      split
      · exact hbase
      · split
        · exact hbase
        · exact (ih _).trans hbase
  exact hloop r.docOffset (r.currLoc.length + 1) { r with hasPending := false }

theorem nDocs_positionsAt (doc : Nat) (r : IndexStreamReader) :
    (positionsAt doc r).2.nDocs = r.nDocs := by
  unfold positionsAt
  simp only
  split
  · exact (nDocs_collect _).trans (nDocs_advanceTo doc r)
  · exact nDocs_advanceTo doc r

theorem positions_nil {posts : List Post} {doc : Nat} (h : ∀ p ∈ posts, p.doc ≠ doc) :
    positions posts doc = [] := by
  rw [positions, List.map_eq_nil_iff, List.filter_eq_nil_iff]
  exact fun p hp => by simpa using h p hp

/-- An `advance_to` passes only posts before its doc. -/
theorem StreamFrom.after_advanceTo {word : Bytes} {doc : Nat} {r : IndexStreamReader}
    (h : StreamFrom c word (fromDoc doc) r) :
    StreamFrom c word (fromDoc doc) (advanceTo doc r).2 := by
  obtain ⟨cur, htracks, hfollows⟩ := h
  exact ⟨_, (advanceTo_tracks doc htracks).2.1, hfollows.seek fun _ hx => hx⟩

/-- First, repeated, skipped, overshot and exhausted states alike: the positions are all those of
the word in the doc, and no post of a later doc is passed. -/
theorem positionsAt_spec {word : Bytes} {doc : Nat} {r : IndexStreamReader} (hdoc : 1 ≤ doc)
    (h : StreamFrom c word (fromDoc doc) r) :
    (positionsAt doc r).1 = positions (c.postings word) doc ∧
      StreamFrom c word (fromDoc (doc + 1)) (positionsAt doc r).2 := by
  have hafter := (StreamFrom.after_advanceTo h).mono (fromDoc_mono (Nat.le_succ doc))
  unfold positionsAt
  simp only
  rcases StreamFrom.advanceTo hdoc h with ⟨hpost, hnone⟩ | ⟨_, hstands⟩
  · rw [hpost, if_neg (by simp only [noPost]; omega)]
    exact ⟨(positions_nil fun p hp => Nat.ne_of_lt (hnone p hp)).symm, hafter⟩
  · by_cases hsame : (advanceTo doc r).1.doc = doc
    · rw [if_pos hsame]
      exact hstands.collect hdoc hsame
    · obtain ⟨_, hle, hfirst⟩ := hstands.first
      rw [if_neg hsame]
      refine ⟨(positions_nil fun p hp heq => ?_).symm, hafter⟩
      rcases hfirst p hp (Nat.le_of_eq heq.symm) with rfl | hbefore
      · exact hsame heq
      · have := before_doc_le hbefore
        omega

/-- What is recorded of a word in a doc. -/
def nodeInfo (c : Chunk) (doc : Nat) (word : Bytes) : NodeInfo :=
  ⟨word, positions (c.postings word) doc, (open' word c.index).nDocs, false⟩

theorem wordInfos_spec {doc : Nat} (hdoc : 1 ≤ doc) {posIsrs : List Stream}
    (h : ∀ s ∈ posIsrs, Follows c doc s) :
    (wordInfos doc posIsrs).1 = (posIsrs.map Stream.word).map (nodeInfo c doc) ∧
      (wordInfos doc posIsrs).2.map Stream.word = posIsrs.map Stream.word ∧
      ∀ s ∈ (wordInfos doc posIsrs).2, Follows c (doc + 1) s := by
  induction posIsrs with
  | nil => exact ⟨rfl, rfl, fun s hs => by cases hs⟩
  | cons s posIsrs ih =>
    obtain ⟨hs, hrest⟩ := List.forall_mem_cons.mp h
    obtain ⟨hinfos, hwords, hfollows⟩ := ih hrest
    obtain ⟨hpositions, hnext⟩ := positionsAt_spec hdoc hs.behind
    have hnDocs := (nDocs_positionsAt doc s.reader).trans hs.nDocs
    rw [wordInfos]
    refine ⟨?_, ?_, List.forall_mem_cons.mpr ⟨⟨hnext, hnDocs⟩, hfollows⟩⟩
    · simp only [List.map_cons, hinfos, hpositions, hnDocs, nodeInfo]
    · simp only [List.map_cons, hwords]

/-! ## The whole query -/

/-- A doc with all positions of the words. -/
def queryInfo (c : Chunk) (words : List Bytes) (doc : Nat) : DocInfo :=
  ⟨getUrl c.index doc, words.map (nodeInfo c doc)⟩

/-- The tree is at a doc, and these are that doc and those that it still yields. -/
def Yields (levels calls doc : Nat) (root : QueryISR) (ds : List Nat) : Prop :=
  doc = 0 ∧ ds = [] ∨
    doc ≠ 0 ∧ ∃ rest, ds = doc :: rest ∧ query_isr.nextDocs levels calls root = some rest

theorem nextDocs_yields {levels calls : Nat} {root : QueryISR} {ds : List Nat}
    (h : query_isr.nextDocs levels calls root = some ds) :
    ∃ doc root' calls', nextDoc levels root = some (doc, root') ∧
      Yields levels calls' doc root' ds := by
  cases calls with
  | zero => cases h
  | succ calls =>
    rw [query_isr.nextDocs] at h
    cases hnext : nextDoc levels root with
    | none =>
      rw [hnext] at h
      cases h
    | some result =>
      obtain ⟨doc, root'⟩ := result
      simp only [hnext] at h
      refine ⟨doc, root', calls, rfl, ?_⟩
      by_cases hdoc : doc = 0
      · rw [if_pos hdoc] at h
        exact Or.inl ⟨hdoc, (Option.some.inj h).symm⟩
      · rw [if_neg hdoc] at h
        obtain ⟨rest, hrest, heq⟩ := Option.map_eq_some_iff.mp h
        exact Or.inr ⟨hdoc, rest, heq.symm, hrest⟩

/-- The loop adds the docs that the tree still yields, up to the one where the deadline or the cap
stops it. -/
theorem queryLoop_spec (deadlineMs : Nat) (clock : Clock) (levels : Nat) {calls : Nat}
    (turns check : Nat) (docs : List DocInfo) {lowest doc : Nat} {root : QueryISR}
    {ds : List Nat} {posIsrs : List Stream} (hyields : Yields levels calls doc root ds)
    (hincreasing : ds.Pairwise (· < ·)) (hpos : 1 ≤ lowest) (hlow : ∀ d ∈ ds, lowest ≤ d)
    (hturns : ds.length < turns) (h : ∀ s ∈ posIsrs, Follows c lowest s) :
    ∃ n, queryLoop c.index deadlineMs clock levels turns check docs doc root posIsrs =
        some (docs ++ (ds.take n).map (queryInfo c (posIsrs.map Stream.word))) ∧
      ((∀ check, fires deadlineMs clock check = false) →
        n = CHUNK_MANAGER_MAX_MATCHES - docs.length) := by
  induction turns generalizing check docs lowest doc root ds posIsrs calls with
  | zero => omega
  | succ turns ih =>
    rw [queryLoop]
    rcases hyields with ⟨hzero, rfl⟩ | ⟨hdoc, rest, rfl, hrest⟩
    · rw [if_pos hzero]
      refine ⟨CHUNK_MANAGER_MAX_MATCHES - docs.length, ?_, fun _ => rfl⟩
      rw [List.take_nil, List.map_nil, List.append_nil]
    · rw [if_neg hdoc]
      split
      · rename_i hfires
        refine ⟨0, by rw [List.take_zero, List.map_nil, List.append_nil], fun hnever => ?_⟩
        rw [hnever check] at hfires
        cases hfires
      · split
        · rename_i hcap
          refine ⟨0, by rw [List.take_zero, List.map_nil, List.append_nil], fun _ => ?_⟩
          omega
        · rename_i hcap
          obtain ⟨hfirst, hincreasing⟩ := List.pairwise_cons.mp hincreasing
          have hle := hlow doc List.mem_cons_self
          obtain ⟨hinfos, hwords, hfollows⟩ := wordInfos_spec (hpos.trans hle)
            fun s hs => (h s hs).mono hle
          obtain ⟨doc', root', calls', hnext, hyields⟩ := nextDocs_yields hrest
          simp only [hnext]
          obtain ⟨n, hrun, hn⟩ := ih (check + 1)
            (docs ++ [⟨getUrl c.index doc, (wordInfos doc posIsrs).1⟩]) hyields hincreasing
            (Nat.le_add_left 1 doc) hfirst (by simpa using hturns) hfollows
          refine ⟨n + 1, ?_, fun hnever => ?_⟩
          · rw [hrun, hwords, hinfos, List.take_succ_cons, List.map_cons, List.append_assoc]
            rfl
          · have hlength := hn hnever
            rw [List.length_append, List.length_singleton] at hlength
            omega

theorem follows_open (c : Chunk) (word : Bytes) : Follows c 1 (openStream c.index word) :=
  ⟨streamFrom_open c word _, rfl⟩

theorem words_open (index : LoadedIndex) (words : List Bytes) :
    (words.map (openStream index)).map Stream.word = words := by
  rw [List.map_map, show Stream.word ∘ openStream index = id from rfl, List.map_id]

/-- What `query` returns for a tree that yields the docs. -/
theorem query_returns {c : Chunk} {ast : ASTNode} {root : QueryISR} {docs : List Nat}
    (hroot : buildIsrTree c.index ast = some root) (hdriveable : isDriveable root = true)
    (hdocs : query_isr.nextDocs (depth ast) (DOCS_PER_INDEX_CHUNK + 1) root = some docs)
    (hincreasing : docs.Pairwise (· < ·))
    (hbounds : ∀ d ∈ docs, 0 < d ∧ d ≤ DOCS_PER_INDEX_CHUNK) (deadlineMs : Nat) (clock : Clock) :
    ∃ n, query c.index deadlineMs clock ast =
        some ((docs.take n).map (queryInfo c (uniqueWords ast))) ∧
      (uniqueWords ast ≠ [] → (∀ check, fires deadlineMs clock check = false) →
        n = CHUNK_MANAGER_MAX_MATCHES) := by
  have hlength : docs.length < DOCS_PER_INDEX_CHUNK + 1 := by
    have hsub : docs ⊆ List.range' 1 DOCS_PER_INDEX_CHUNK := fun d hd => by
      rw [List.mem_range'_1]
      have := hbounds d hd
      omega
    have hle := (List.Nodup.subperm (hincreasing.imp Nat.ne_of_lt) hsub).length_le
    rw [List.length_range'] at hle
    exact Nat.lt_succ_of_le hle
  unfold query
  simp only [hroot, hdriveable, Bool.not_true, Bool.false_eq_true, if_false]
  by_cases hwords : uniqueWords ast = []
  · rw [if_pos (by rw [hwords]; rfl)]
    exact ⟨0, rfl, fun hne => absurd hwords hne⟩
  · rw [if_neg (mt List.length_eq_zero_iff.mp hwords)]
    obtain ⟨doc, root', calls', hnext, hyields⟩ := nextDocs_yields hdocs
    have hopen : ∀ s ∈ (uniqueWords ast).map (openStream c.index), Follows c 1 s := by
      intro s hs
      obtain ⟨w, _, rfl⟩ := List.mem_map.mp hs
      exact follows_open c w
    obtain ⟨n, hrun, hn⟩ := queryLoop_spec deadlineMs clock (depth ast)
      (DOCS_PER_INDEX_CHUNK + 1) 0 [] hyields hincreasing (Nat.le_refl 1)
      (fun d hd => (hbounds d hd).1) hlength hopen
    rw [words_open] at hrun
    simp only [hnext]
    exact ⟨n, hrun, fun _ => hn⟩

/-- The tree of a query yields docs in order, and `query` reports the first of them. -/
theorem query_reports (c : Chunk) (ast : ASTNode) :
    ∃ docs, treeDocs c.index ast = some docs ∧ docs.Pairwise (· < ·) ∧
      ∀ deadlineMs clock, ∃ n, query c.index deadlineMs clock ast =
          some ((docs.take n).map (queryInfo c (uniqueWords ast))) ∧
        (docs ≠ [] → uniqueWords ast ≠ [] → (∀ check, fires deadlineMs clock check = false) →
          n = CHUNK_MANAGER_MAX_MATCHES) := by
  obtain ⟨root, hroot, hgives⟩ := buildIsrTree_gives c ast _ (Nat.le_refl _)
  unfold treeDocs
  simp only [hroot]
  cases hdriveable : isDriveable root with
  | false =>
    refine ⟨[], rfl, List.Pairwise.nil, fun deadlineMs clock => ⟨0, ?_, fun hne => absurd rfl hne⟩⟩
    unfold query
    simp only [hroot, hdriveable]
    rfl
  | true =>
    obtain ⟨docs, hdocs, hincreasing, hbounds⟩ := nextDocs_increasing c (depth ast)
      (DOCS_PER_INDEX_CHUNK + 1) hgives (Nat.lt_succ_of_le (Nat.sub_le _ _))
    refine ⟨docs, hdocs, hincreasing, fun deadlineMs clock => ?_⟩
    obtain ⟨n, hrun, hn⟩ := query_returns hroot hdriveable hdocs hincreasing hbounds deadlineMs clock
    exact ⟨n, hrun, fun _ => hn⟩

/-- The reported docs are the first ones that the tree yields, each with all positions of every
word of the query in increasing order and the number of docs of the word. All docs are reported
up to the cap, if the deadline does not stop the loop. -/
theorem query_collects_every_position (c : Chunk) (ast : ASTNode) :
    ∃ docs, treeDocs c.index ast = some docs ∧ docs.Pairwise (· < ·) ∧
      (uniqueWords ast).Nodup ∧ (∀ w, w ∈ uniqueWords ast ↔ PositiveWord ast w) ∧
      (∀ w doc, Enumerates (fun loc => ⟨doc, loc⟩ ∈ c.postings w)
        (positions (c.postings w) doc)) ∧
      ∀ deadlineMs clock, ∃ n, query c.index deadlineMs clock ast =
          some ((docs.take n).map (queryInfo c (uniqueWords ast))) ∧
        (docs ≠ [] → uniqueWords ast ≠ [] → (∀ check, fires deadlineMs clock check = false) →
          n = CHUNK_MANAGER_MAX_MATCHES) := by
  obtain ⟨hnodup, hwords⟩ := uniqueWords_spec ast
  obtain ⟨docs, hdocs, hincreasing, hreports⟩ := query_reports c ast
  exact ⟨docs, hdocs, hincreasing, hnodup, hwords, positions_enumerates c, hreports⟩

end seamus.chunk_query
