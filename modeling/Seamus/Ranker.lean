-- `Ranker::processQueryResponse` of `ranker/Ranker.h`: the pages that are ranked, with what the
-- URL store says of them, and the anchors that hold the rarest term of the query.
import Seamus.UrlFilter
import Seamus.UrlStoreFile
import Seamus.QueryResults
import Mathlib.Data.List.Infix

open seamus.url_store seamus.url_store_file

namespace seamus.ranker

/-! ## The query -/

structure NodeInfo where
  phrase : Bytes
  pos : List UInt64
  freq : UInt64
  isPhrase : Bool

structure DocInfo where
  url : Bytes
  nodeInfo : List NodeInfo

structure ChunkQueryInfo where
  pages : List DocInfo

structure QueryInfo where
  phrase : Bytes := []
  freq : UInt64 := 0
  isPhrase : Bool := false

/-- What the ranker keeps of the query. -/
structure Ranker where
  uniqueQueryTerms : List QueryInfo := []
  rarestTerm : QueryInfo := {}
  isQuerySet : Bool := false

def NodeInfo.query (n : NodeInfo) : QueryInfo := ⟨n.phrase, n.freq, n.isPhrase⟩

/-- One turn of the loop over the terms. -/
def addTerm (r : Ranker) (n : NodeInfo) : Ranker :=
  { r with
    rarestTerm := if n.freq < r.rarestTerm.freq then n.query else r.rarestTerm
    uniqueQueryTerms := r.uniqueQueryTerms ++ [n.query] }

def setNewQuery (r : Ranker) (dih : DocInfo) : Ranker :=
  if r.uniqueQueryTerms.length ≠ 0 then r else dih.nodeInfo.foldl addTerm r

/-! ## The URL store -/

structure UrlAnchorData where
  anchorText : Bytes
  freq : UInt32

def getUrl (s : UrlStore) (url : Bytes) : Option UrlData := findUrlData (lowercaseUrl url) s

/-- `{&id_to_anchor[tuple.key], tuple.value}`. -/
def anchorData (s : UrlStore) (entry : Σ _ : UInt32, UInt32) : UrlAnchorData :=
  ⟨s.idToAnchor.getD entry.1.toNat [], entry.2⟩

/-- The anchors of a URL in the order of the slots. -/
def getUrlAnchorInfo (order : SlotOrder) (s : UrlStore) (url : Bytes) : List UrlAnchorData :=
  match getUrl s url with
  | none => []
  | some data => (order.walk data.anchorFreqs.entries).map (anchorData s)

/-! ## The pages -/

/-- The host of a whole URL is gibberish. -/
def urlHasGibberishHost (url : Bytes) : Bool :=
  let rest := url.dropWhile (· ≠ 58)
  let domStart := if [58, 47, 47].isPrefixOf rest then rest.drop 3 else url
  url_filter.hasGibberishHost
    (domStart.takeWhile fun c => c ≠ 47 && c ≠ 63 && c ≠ 35 && c ≠ 58)

/-- `string::contains`. -/
def contains (text other : Bytes) : Bool :=
  if other.length = 0 then true
  else if text.length < other.length then false
  else (List.range (text.length - other.length + 1)).any
    fun i => (text.drop i).take other.length = other

/-- `int`s are integers, where the conversion from 32 bits is written out. -/
structure RankedPage where
  url : Bytes
  title : Bytes
  seedListDist : Int
  domainsFromSeed : Int
  uniquePhrasesMatchedAnchor : Int
  totalLinkFrequencyAnchor : Int
  titleWordsFound : List Bool
  timesSeen : Int
  wordPositions : List (List UInt64)
  docLen : Nat
  deriving DecidableEq

def INT_MAX : Nat := 2147483647

/-- The loop over the anchors, with both counters. No result where `++` overflows an `int`. -/
def countAnchors (rarest : Bytes) : List UrlAnchorData → Int → Int → Option (Int × Int)
  | [], unique, total => some (unique, total)
  | anchor :: anchors, unique, total =>
    if contains anchor.anchorText rarest then
      if unique = INT_MAX then none
      else countAnchors rarest anchors (unique + 1) (toInt32 (total + anchor.freq.toNat))
    else countAnchors rarest anchors unique total

def rankedPage (order : SlotOrder) (s : UrlStore) (r : Ranker) (di : DocInfo) (data : UrlData) :
    Option RankedPage :=
  (countAnchors r.rarestTerm.phrase (getUrlAnchorInfo order s di.url) 0 0).map fun counters =>
    { url := di.url
      title := data.title
      seedListDist := data.seedDistance.toNat
      domainsFromSeed := data.domainDist.toNat
      uniquePhrasesMatchedAnchor := counters.1
      totalLinkFrequencyAnchor := counters.2
      titleWordsFound := di.nodeInfo.map fun ni =>
        contains (lowercaseUrl data.title) (lowercaseUrl ni.phrase)
      timesSeen := toInt32 data.numEncountered.toNat
      wordPositions := di.nodeInfo.map NodeInfo.pos
      docLen := data.eod.toNat }

/-- The loop over the pages. -/
def candidates (order : SlotOrder) (s : UrlStore) (r : Ranker) :
    List DocInfo → Option (List RankedPage)
  | [] => some []
  | di :: pages =>
    if urlHasGibberishHost di.url then candidates order s r pages
    else
      match getUrl s di.url with
      | none => candidates order s r pages
      | some data => do
        let page ← rankedPage order s r di data
        let rest ← candidates order s r pages
        pure (page :: rest)

def withQuery (r : Ranker) (cqi : ChunkQueryInfo) : Ranker :=
  match cqi.pages with
  | [] => r
  | first :: _ => if r.isQuerySet then r else setNewQuery { r with isQuerySet := true } first

/-- The ranker after the call, and the results. The score of a page is left open. -/
def processQueryResponse {σ : Type} [LinearOrder σ] (score : Ranker → RankedPage → σ)
    (order : SlotOrder) (s : UrlStore) (r : Ranker) (cqi : ChunkQueryInfo) :
    Ranker × Option (List (query_results.LeanPage σ)) :=
  let r := withQuery r cqi
  (r, (candidates order s r cqi.pages).map fun pages =>
    query_results.rank (pages.map fun page => ⟨page.url, page.title, score r page⟩))

/-! ## The rarest term -/

variable {order : SlotOrder} {s : UrlStore} {r : Ranker} {docs : List DocInfo}
  {pages : List RankedPage} {di : DocInfo} {page : RankedPage}

/-- No frequency is below the one that the rarest term starts with. -/
theorem setNewQuery_rarestTerm (h : r.rarestTerm = {}) (dih : DocInfo) :
    (setNewQuery r dih).rarestTerm = {} := by
  unfold setNewQuery
  split
  · exact h
  · have hfold : ∀ (terms : List NodeInfo) (r : Ranker), r.rarestTerm = {} →
        (terms.foldl addTerm r).rarestTerm = {} := by
      intro terms
      induction terms with
      | nil => exact fun _ h => h
      | cons n terms ih =>
        intro r h
        apply ih
        have hlt : ¬n.freq < 0 := UInt64.not_lt_zero
        rw [addTerm, h]
        show (if n.freq < 0 then n.query else {}) = ({} : QueryInfo)
        exact if_neg hlt
    exact hfold _ r h

theorem withQuery_rarestTerm (cqi : ChunkQueryInfo) : (withQuery {} cqi).rarestTerm = {} := by
  unfold withQuery
  split
  · rfl
  · exact setNewQuery_rarestTerm (r := { isQuerySet := true }) rfl _

/-! ## The counters -/

theorem contains_iff {text other : Bytes} : contains text other = true ↔ other <:+: text := by
  unfold contains
  split
  · rename_i hnil
    rw [List.length_eq_zero_iff.mp hnil]
    exact ⟨fun _ => List.nil_infix, fun _ => rfl⟩
  · split
    · rename_i hshort
      constructor
      · intro h
        cases h
      · intro h
        exact absurd h.length_le (Nat.not_le_of_lt hshort)
    · rename_i hlong
      rw [List.any_eq_true]
      constructor
      · rintro ⟨i, -, hi⟩
        have hpart := (List.take_prefix other.length (text.drop i)).isInfix
        rw [of_decide_eq_true hi] at hpart
        exact hpart.trans (List.drop_suffix i text).isInfix
      · rintro ⟨before, after, rfl⟩
        refine ⟨before.length, List.mem_range.mpr ?_, decide_eq_true ?_⟩
        · simp only [List.length_append]
          omega
        · rw [List.append_assoc, List.drop_left, List.take_left]

/-- The numbers of the anchors, where they all count. -/
theorem countAnchors_nil (anchors : List UrlAnchorData) {unique : Nat} (total : Nat)
    (hunique : unique ≤ INT_MAX) :
    countAnchors [] anchors unique (toInt32 total) =
      if unique + anchors.length ≤ INT_MAX then
        some (((unique + anchors.length : Nat) : Int),
          toInt32 ((total + (anchors.map fun a => a.freq.toNat).sum : Nat) : Int))
      else none := by
  induction anchors generalizing unique total with
  | nil => simp [countAnchors, hunique]
  | cons anchor anchors ih =>
    have hall : contains anchor.anchorText [] = true := rfl
    have hwrap : toInt32 (toInt32 total + anchor.freq.toNat) =
        toInt32 ((total + anchor.freq.toNat : Nat) : Int) := by
      rw [toInt32, toInt32, Int.bmod_add_bmod, toInt32]
      rfl
    rw [countAnchors, if_pos hall, hwrap]
    by_cases hmax : unique + 1 ≤ INT_MAX
    · have hstep := ih (total + anchor.freq.toNat) hmax
      have hne : (unique : Int) ≠ INT_MAX := by omega
      rw [if_neg hne, ← Int.natCast_succ, hstep, List.length_cons, List.map_cons, List.sum_cons,
        Nat.add_assoc, Nat.add_assoc, Nat.add_comm 1]
    · have heq : (unique : Int) = INT_MAX := by omega
      rw [if_pos heq, if_neg (by rw [List.length_cons]; omega)]

/-! ## What the counters stand for -/

/-- The anchors of the URL of a page. -/
def anchorsOf (s : UrlStore) (url : Bytes) : List UrlAnchorData :=
  match getUrl s url with
  | none => []
  | some data => data.anchorFreqs.entries.map (anchorData s)

def totalFreq (anchors : List UrlAnchorData) : Nat := (anchors.map fun a => a.freq.toNat).sum

/-- The anchors whose text contains the term. -/
def anchorsWith (s : UrlStore) (term : Bytes) (url : Bytes) : List UrlAnchorData :=
  (anchorsOf s url).filter fun a => term <:+: a.anchorText

/-- Both counters are those of the anchors with the term. -/
structure CountsAnchors (s : UrlStore) (term : Bytes) (di : DocInfo) (page : RankedPage) : Prop where
  unique : page.uniquePhrasesMatchedAnchor = (anchorsWith s term di.url).length
  total : page.totalLinkFrequencyAnchor = totalFreq (anchorsWith s term di.url)

/-- The docs that come to be ranked. -/
def rankedDocs (s : UrlStore) (docs : List DocInfo) : List DocInfo :=
  docs.filter fun di => !urlHasGibberishHost di.url && (getUrl s di.url).isSome

/-- The term is in the query, and no term of the query is rarer. -/
def Rarest (first : DocInfo) (term : NodeInfo) : Prop :=
  term ∈ first.nodeInfo ∧ ∀ n ∈ first.nodeInfo, term.freq ≤ n.freq

/-- The pages of a fresh ranker have the counters of one rarest term. -/
def CountsRarest (order : SlotOrder) (s : UrlStore) (first : DocInfo) (rest : List DocInfo) : Prop :=
  ∃ rarest, Rarest first rarest ∧ ∃ pages,
    candidates order s (withQuery {} ⟨first :: rest⟩) (first :: rest) = some pages ∧
      List.Forall₂ (CountsAnchors s rarest.phrase) (rankedDocs s (first :: rest)) pages

/-- Every anchor has the term, and the numbers fit into an `int`. -/
def AllAnchorsHave (s : UrlStore) (term : Bytes) (di : DocInfo) : Prop :=
  (∀ a ∈ anchorsOf s di.url, term <:+: a.anchorText) ∧
    (anchorsOf s di.url).length ≤ INT_MAX ∧ totalFreq (anchorsOf s di.url) ≤ INT_MAX

theorem getUrlAnchorInfo_perm (order : SlotOrder) (s : UrlStore) (url : Bytes) :
    (getUrlAnchorInfo order s url).Perm (anchorsOf s url) := by
  unfold getUrlAnchorInfo anchorsOf
  split
  · exact List.Perm.refl _
  · exact (order.perm _).map _

/-- The page of a doc of which the store knows the URL. -/
def pageOf (order : SlotOrder) (s : UrlStore) (r : Ranker) (di : DocInfo) : Option RankedPage :=
  (getUrl s di.url).bind (rankedPage order s r di)

theorem candidates_eq_some : candidates order s r docs = some pages ↔
    List.Forall₂ (fun di page => pageOf order s r di = some page) (rankedDocs s docs) pages := by
  induction docs generalizing pages with
  | nil => simp [candidates, rankedDocs, eq_comm]
  | cons di docs ih =>
    rw [candidates, rankedDocs, List.filter_cons]
    by_cases hgibberish : urlHasGibberishHost di.url = true
    · rw [if_pos hgibberish, hgibberish]
      exact ih
    · rw [if_neg hgibberish, Bool.eq_false_iff.mpr hgibberish]
      cases hdata : getUrl s di.url with
      | none => exact ih
      | some data =>
        have hpage : pageOf order s r di = rankedPage order s r di data := by
          rw [pageOf, hdata, Option.bind_some]
        rw [if_pos (by rfl), List.forall₂_cons_left_iff, hpage]
        simp only [Option.bind_eq_bind, Option.bind_eq_some_iff, Option.pure_def, Option.some_inj]
        constructor
        · rintro ⟨page, hpage, rest, hrest, rfl⟩
          exact ⟨page, rest, hpage, ih.mp hrest, rfl⟩
        · rintro ⟨page, rest, hpage, hrest, rfl⟩
          exact ⟨page, hpage, rest, ih.mpr hrest, rfl⟩

/-- With the empty term both counters are those of all anchors. -/
theorem countAnchors_all (order : SlotOrder) (s : UrlStore) (url : Bytes) :
    countAnchors [] (getUrlAnchorInfo order s url) 0 0 =
      if (anchorsOf s url).length ≤ INT_MAX then
        some (((anchorsOf s url).length : Int), toInt32 (totalFreq (anchorsOf s url)))
      else none := by
  have hperm := getUrlAnchorInfo_perm order s url
  have hcount := countAnchors_nil (getUrlAnchorInfo order s url) 0 (Nat.zero_le INT_MAX)
  rw [Nat.zero_add, Nat.zero_add, hperm.length_eq, (hperm.map _).sum_nat] at hcount
  exact hcount

/-- A page comes of a doc whose anchors can be counted. -/
theorem pageOf_iff (h : r.rarestTerm.phrase = []) (hknown : (getUrl s di.url).isSome) :
    (pageOf order s r di).isSome ↔ (anchorsOf s di.url).length ≤ INT_MAX := by
  obtain ⟨data, hdata⟩ := Option.isSome_iff_exists.mp hknown
  rw [pageOf, hdata, Option.bind_some, rankedPage, Option.isSome_map, h, countAnchors_all]
  split
  · rename_i hfits
    exact ⟨fun _ => hfits, fun _ => rfl⟩
  · rename_i hlong
    exact ⟨fun hnone => absurd hnone Bool.false_ne_true, fun hfits => absurd hfits hlong⟩

theorem counters_of_pageOf (h : r.rarestTerm.phrase = [])
    (hpage : pageOf order s r di = some page) :
    page.uniquePhrasesMatchedAnchor = (anchorsOf s di.url).length ∧
      page.totalLinkFrequencyAnchor = toInt32 (totalFreq (anchorsOf s di.url)) := by
  obtain ⟨data, _, hranked⟩ := Option.bind_eq_some_iff.mp hpage
  rw [rankedPage, h, countAnchors_all] at hranked
  obtain ⟨⟨unique, total⟩, hcounters, rfl⟩ := Option.map_eq_some_iff.mp hranked
  split at hcounters
  · obtain ⟨hunique, htotal⟩ := Prod.mk.inj (Option.some.inj hcounters)
    exact ⟨hunique.symm, htotal.symm⟩
  · exact absurd hcounters.symm (Option.some_ne_none _)

theorem toInt32_eq_iff (n : Nat) : toInt32 n = n ↔ n ≤ INT_MAX := by
  rw [toInt32, Int.bmod_def, INT_MAX]
  split <;> omega

/-- The counters of a page are those of the term exactly when no anchor is without it. -/
theorem countsAnchors_iff (h : r.rarestTerm.phrase = []) (term : Bytes)
    (hpage : pageOf order s r di = some page)
    (hfits : (anchorsOf s di.url).length ≤ INT_MAX) :
    CountsAnchors s term di page ↔ AllAnchorsHave s term di := by
  obtain ⟨hunique, htotal⟩ := counters_of_pageOf h hpage
  constructor
  · intro hcounts
    have hlength : (anchorsOf s di.url).length = (anchorsWith s term di.url).length :=
      Int.ofNat.inj (hunique.symm.trans hcounts.unique)
    have hall : anchorsWith s term di.url = anchorsOf s di.url :=
      List.filter_sublist.eq_of_length hlength.symm
    have hsum := htotal.symm.trans hcounts.total
    rw [hall, toInt32_eq_iff] at hsum
    exact ⟨fun a ha => of_decide_eq_true (List.filter_eq_self.mp hall a ha), hfits, hsum⟩
  · rintro ⟨hhave, -, hsum⟩
    have hall : anchorsWith s term di.url = anchorsOf s di.url :=
      List.filter_eq_self.mpr fun a ha => decide_eq_true (hhave a ha)
    refine ⟨hall ▸ hunique, ?_⟩
    rw [hall, htotal, toInt32_eq_iff]
    exact hsum

/-- One page after the other. -/
theorem countsAll_iff (h : r.rarestTerm.phrase = []) (term : Bytes)
    (hknown : ∀ di ∈ docs, (getUrl s di.url).isSome) :
    (∃ pages, List.Forall₂ (fun di page => pageOf order s r di = some page) docs pages ∧
      List.Forall₂ (CountsAnchors s term) docs pages) ↔ ∀ di ∈ docs, AllAnchorsHave s term di := by
  induction docs with
  | nil => exact ⟨fun _ _ hdi => absurd hdi List.not_mem_nil, fun _ => ⟨[], .nil, .nil⟩⟩
  | cons di docs ih =>
    obtain ⟨hdi, hdocs⟩ := List.forall_mem_cons.mp hknown
    have hfits := @pageOf_iff order s r di h hdi
    rw [List.forall_mem_cons, ← ih hdocs]
    constructor
    · rintro ⟨pages, hpages, hcounts⟩
      obtain ⟨page, rest, hpage, hrest, rfl⟩ := List.forall₂_cons_left_iff.mp hpages
      obtain ⟨hcount, hcounts⟩ := List.forall₂_cons.mp hcounts
      have hlength := hfits.mp (Option.isSome_iff_exists.mpr ⟨page, hpage⟩)
      exact ⟨(countsAnchors_iff h term hpage hlength).mp hcount, rest, hrest, hcounts⟩
    · rintro ⟨hhave, rest, hrest, hcounts⟩
      obtain ⟨page, hpage⟩ := Option.isSome_iff_exists.mp (hfits.mpr hhave.2.1)
      exact ⟨page :: rest, .cons hpage hrest,
        .cons ((countsAnchors_iff h term hpage hhave.2.1).mpr hhave) hcounts⟩

theorem counts_rarest_iff (order : SlotOrder) (s : UrlStore) (first : DocInfo)
    (rest : List DocInfo) :
    CountsRarest order s first rest ↔
      ∃ rarest, Rarest first rarest ∧
        ∀ di ∈ rankedDocs s (first :: rest), AllAnchorsHave s rarest.phrase di := by
  have hempty : (withQuery {} ⟨first :: rest⟩).rarestTerm.phrase = [] :=
    congrArg QueryInfo.phrase (withQuery_rarestTerm _)
  have hknown : ∀ di ∈ rankedDocs s (first :: rest), (getUrl s di.url).isSome := by
    intro di hdi
    have hfilter := (List.mem_filter.mp hdi).2
    rw [Bool.and_eq_true] at hfilter
    exact hfilter.2
  refine exists_congr fun rarest => and_congr_right fun _ => ?_
  rw [← countsAll_iff hempty rarest.phrase hknown]
  exact exists_congr fun pages => and_congr_left fun _ => candidates_eq_some

/-! ## An anchor without the term -/

/-- The URL `a` with one anchor, `x`. -/
def oneAnchorStore : UrlStore :=
  setUrlData [97] ⟨AList.singleton 0 5, 1, 0, 0, 0, [], 0, true⟩
    { emptyStore with idToAnchor := [[120]] }

/-- A page of the URL, and the term `b`. -/
def docOfTerm : DocInfo := ⟨[97], [⟨[98], [1], 1, false⟩]⟩

theorem anchor_without_the_term_counts : ¬CountsRarest listOrder oneAnchorStore docOfTerm [] := by
  rintro ⟨rarest, ⟨hmem, -⟩, pages, hpages, hcounts⟩
  obtain rfl := List.mem_singleton.mp hmem
  have hcode : candidates listOrder oneAnchorStore (withQuery {} ⟨[docOfTerm]⟩) [docOfTerm] =
      some [⟨[97], [], 0, 0, 1, 5, [false], 1, [[1]], 0⟩] := by decide +kernel
  have hranked : rankedDocs oneAnchorStore [docOfTerm] = [docOfTerm] :=
    List.filter_cons_of_pos (by decide +kernel)
  have hnone : (anchorsWith oneAnchorStore [98] [97]).length = 0 := by decide +kernel
  obtain rfl := Option.some.inj (hcode.symm.trans hpages)
  rw [hranked] at hcounts
  have hunique := (List.forall₂_cons.mp hcounts).1.unique
  rw [show docOfTerm.url = [97] from rfl, hnone] at hunique
  cases hunique

end seamus.ranker
