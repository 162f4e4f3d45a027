-- The end of `chunk_manager::query`: the ranker makes pages of the docs, and the chunk appends the
-- best of them to the collector of `IndexManager::handle_query`.
import Seamus.ChunkQuery
import Seamus.Ranker

open seamus.url_store seamus.url_store_file seamus.post_streams seamus.default_query
  seamus.expressions seamus.chunk_query seamus.query_results
open seamus.ranker (Ranker RankedPage processQueryResponse candidates withQuery anchorsOf
  rankedDocs pageOf INT_MAX)

namespace seamus.ranked_query

/-! ## The source functions -/

def toNodeInfo (n : NodeInfo) : ranker.NodeInfo :=
  ⟨n.phrase, n.pos.map UInt64.ofNat, UInt64.ofNat n.freq, n.isPhrase⟩

/-- A doc of the chunk as the ranker gets it. -/
def toDocInfo (di : DocInfo) : ranker.DocInfo := ⟨di.url, di.nodeInfo.map toNodeInfo⟩

section Append

variable {σ : Type} [LinearOrder σ] (score : Ranker → RankedPage → σ) (order : SlotOrder)
  (store : UrlStore)

/-- What `query` appends to the collector, once it has its docs, with a new ranker on the URL
store. -/
def appended (docs : List DocInfo) : Option (List (LeanPage σ)) :=
  if docs.length = 0 then some []
  else (processQueryResponse score order store {} ⟨docs.map toDocInfo⟩).2

/-- `chunk_manager::query` from the tree of the query to the collector. -/
def rankedQuery (c : Chunk) (deadlineMs : Nat) (clock : Clock) (ast : ASTNode) :
    Option (List (LeanPage σ)) :=
  (query c.index deadlineMs clock ast).bind (appended score order store)

/-! ## The pages of a chunk -/

def scoredPage (r : Ranker) (page : RankedPage) : LeanPage σ :=
  ⟨page.url, page.title, score r page⟩

/-- A page for a doc, with the title that the store has for its URL. -/
structure PageFor (di : ranker.DocInfo) (page : LeanPage σ) : Prop where
  url : page.url = di.url
  title : ∃ data, ranker.getUrl store di.url = some data ∧ page.title = data.title

/-- The ranker keeps the best of a page for each doc that the store knows, but for the hosts that
it passes over. -/
def RanksDocs (docs : List DocInfo) (results : List (LeanPage σ)) : Prop :=
  ∃ pages : List (LeanPage σ),
    List.Forall₂ (PageFor store) (rankedDocs store (docs.map toDocInfo)) pages ∧
      Keeps RANKED_ON_EACH results pages

variable {score order store}

omit [LinearOrder σ] in
theorem pageFor_of_pageOf {r : Ranker} {di : ranker.DocInfo} {page : RankedPage}
    (h : pageOf order store r di = some page) : PageFor store di (scoredPage score r page) := by
  obtain ⟨data, hdata, hranked⟩ := Option.bind_eq_some_iff.mp h
  obtain ⟨counters, _, rfl⟩ := Option.map_eq_some_iff.mp hranked
  exact ⟨rfl, data, hdata, rfl⟩

variable (order) in
/-- A doc of which the store has fewer anchors than an `int` holds makes a page. -/
theorem exists_pages {r : Ranker} (hr : r.rarestTerm.phrase = []) {docs : List ranker.DocInfo}
    (hknown : ∀ di ∈ docs, (ranker.getUrl store di.url).isSome)
    (hcount : ∀ di ∈ docs, (anchorsOf store di.url).length ≤ INT_MAX) :
    ∃ pages, List.Forall₂ (fun di page => pageOf order store r di = some page) docs pages := by
  induction docs with
  | nil => exact ⟨[], .nil⟩
  | cons di docs ih =>
    obtain ⟨hdi, hdocs⟩ := List.forall_mem_cons.mp hknown
    obtain ⟨hfits, hrest⟩ := List.forall_mem_cons.mp hcount
    obtain ⟨pages, hpages⟩ := ih hdocs hrest
    obtain ⟨page, hpage⟩ := Option.isSome_iff_exists.mp ((ranker.pageOf_iff hr hdi).mpr hfits)
    exact ⟨page :: pages, .cons hpage hpages⟩

variable (score order) in
/-- What a new ranker returns. -/
theorem processQueryResponse_ranks (docs : List ranker.DocInfo)
    (hcount : ∀ di ∈ docs, (anchorsOf store di.url).length ≤ INT_MAX) :
    ∃ pages : List (LeanPage σ), List.Forall₂ (PageFor store) (rankedDocs store docs) pages ∧
      (processQueryResponse score order store {} ⟨docs⟩).2 = some (rank pages) := by
  have hempty : (withQuery {} ⟨docs⟩).rarestTerm.phrase = [] :=
    congrArg ranker.QueryInfo.phrase (ranker.withQuery_rarestTerm _)
  have hknown : ∀ di ∈ rankedDocs store docs, (ranker.getUrl store di.url).isSome := by
    intro di hdi
    have hfilter := (List.mem_filter.mp hdi).2
    rw [Bool.and_eq_true] at hfilter
    exact hfilter.2
  obtain ⟨pages, hpages⟩ := exists_pages order hempty hknown
    fun di hdi => hcount di (List.mem_of_mem_filter hdi)
  refine ⟨pages.map (scoredPage score (withQuery {} ⟨docs⟩)), ?_, ?_⟩
  · rw [List.forall₂_map_right_iff]
    exact hpages.imp fun _ _ => pageFor_of_pageOf
  · rw [processQueryResponse, ranker.candidates_eq_some.mpr hpages]
    rfl

variable (score order) in
theorem appended_ranks (docs : List DocInfo)
    (hcount : ∀ di ∈ docs, (anchorsOf store di.url).length ≤ INT_MAX) :
    ∃ results, appended score order store docs = some results ∧
      RanksDocs store docs results := by
  unfold appended
  by_cases hnone : docs.length = 0
  · rw [if_pos hnone, List.length_eq_zero_iff.mp hnone]
    exact ⟨[], rfl, [], .nil, rank_keeps []⟩
  · have hall : ∀ di ∈ docs.map toDocInfo, (anchorsOf store di.url).length ≤ INT_MAX := by
      intro di hdi
      obtain ⟨di', hdi', rfl⟩ := List.mem_map.mp hdi
      exact hcount di' hdi'
    obtain ⟨pages, hpages, hrun⟩ := processQueryResponse_ranks score order _ hall
    rw [if_neg hnone, hrun]
    exact ⟨rank pages, rfl, pages, hpages, rank_keeps pages⟩

/-- A chunk of the program appends the best pages of the first docs that the tree of the query
yields. -/
theorem rankedQuery_ranks (c : Chunk) (ast : ASTNode) : ∃ docs, treeDocs c.index ast = some docs ∧
    ∀ deadlineMs clock, ∃ n, let infos := (docs.take n).map (queryInfo c (uniqueWords ast))
      (∀ di ∈ infos, (anchorsOf store di.url).length ≤ INT_MAX) →
        ∃ results, rankedQuery score order store c deadlineMs clock ast = some results ∧
          RanksDocs store infos results := by
  obtain ⟨docs, hdocs, -, hreports⟩ := query_reports c ast
  refine ⟨docs, hdocs, fun deadlineMs clock => ?_⟩
  obtain ⟨n, hrun, -⟩ := hreports deadlineMs clock
  refine ⟨n, fun hcount => ?_⟩
  obtain ⟨results, happended, hranks⟩ := appended_ranks score order _ hcount
  exact ⟨results, by rw [rankedQuery, hrun, Option.bind_some, happended], hranks⟩

/-! ## The pages of a machine -/

/-- The pages of the chunks, one chunk after the other. -/
theorem exists_pages_of_chunks {chunks : List (List DocInfo)} {replies : List (List (LeanPage σ))}
    (h : List.Forall₂ (RanksDocs store) chunks replies) :
    ∃ pages : List (List (LeanPage σ)),
      List.Forall₂ (PageFor store) (rankedDocs store (chunks.flatten.map toDocInfo))
        pages.flatten ∧ List.Forall₂ (Keeps RANKED_ON_EACH) replies pages := by
  induction h with
  | nil => exact ⟨[], .nil, .nil⟩
  | @cons docs reply chunks replies hranks _ ih =>
    obtain ⟨first, hfirst, hkeeps⟩ := hranks
    obtain ⟨rest, hrest, hkeepsRest⟩ := ih
    refine ⟨first :: rest, ?_, .cons hkeeps hkeepsRest⟩
    rw [List.flatten_cons, List.map_append, rankedDocs, List.filter_append, List.flatten_cons]
    exact List.rel_append hfirst hrest

/-- What a machine answers is the best of the pages for the docs of all its chunks, in whatever
order the chunks come to the collector. -/
theorem handleQuery_ranks {chunks : List (List DocInfo)} {replies collector : List (List (LeanPage σ))}
    (h : List.Forall₂ (RanksDocs store) chunks replies) (hperm : collector.Perm replies) :
    RanksDocs store chunks.flatten (handleQuery collector) := by
  obtain ⟨pages, hpages, hkeeps⟩ := exists_pages_of_chunks h
  refine ⟨pages.flatten, hpages, ?_⟩
  exact (Keeps.of_perm (cut_sortPages_keeps _ collector.flatten) hperm.flatten).flatten le_rfl hkeeps

end Append

end seamus.ranked_query
