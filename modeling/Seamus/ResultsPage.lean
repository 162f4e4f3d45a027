-- The page of results that `SearchServer` writes: which text of a request and of the results
-- stands in it, and what is escaped.
import Seamus.LinkStream
import Seamus.QueryResults

open seamus.html_tags seamus.html seamus.link_stream seamus.query_results

namespace seamus.htmlserver

/-! ## The source functions -/

/-- The lines of a template, each with its line end. -/
def ofLines (lines : List String) : Bytes := lines.flatMap fun line => ascii line ++ [newline]

/-- The full results page, part 1: CSS and top bar. -/
def RESULTS_PART_1 : Bytes := ofLines
  ["",
   "<!doctype html>",
   "<html lang=\"en\">",
   "<head>",
   "<meta charset=\"utf-8\">",
   "<title>Search Results</title>",
   "<link rel=\"icon\" type=\"image/png\" href=\"/htmlserver/images/tank-favicon.png\">",
   "<style>",
   "  body \x7b margin: 0; padding: 30px 40px; font-family: 'Segoe UI', Tahoma, Geneva, " ++
     "Verdana, sans-serif; background-color: #ffffff; box-sizing: border-box; \x7d",
   "  .top-bar \x7b display: flex; align-items: center; gap: 15px; margin-bottom: 30px; " ++
     "border-bottom: 1px solid #eee; padding-bottom: 20px; width: 100%; \x7d",
   "  .top-right-logo \x7b position: absolute; top: 25px; right: 40px; width: 70px; " ++
     "height: auto; transition: opacity 0.2s; \x7d",
   "  .header-title \x7b font-size: 1.8rem; color: #1a1a1a; margin: 0; margin-left: " ++
     "auto; margin-right: 90px; white-space: nowrap; \x7d",
   "  .search-box \x7b padding: 10px 20px; font-size: 1.2rem; border-radius: 30px; " ++
     "border: 1px solid #dfe1e5; width: 400px; outline: none; background: #f8f9fa; color: " ++
     "#333; \x7d",
   "  .back-btn \x7b padding: 10px 20px; font-size: 1rem; color: white; " ++
     "background-color: #2e5c31; border: none; border-radius: 30px; text-decoration: " ++
     "none; cursor: pointer; transition: background-color 0.2s; font-weight: bold; \x7d",
   "  .back-btn:hover \x7b background-color: #1e3c20; \x7d",
   "  .results-container \x7b display: flex; flex-direction: column; gap: 24px; width: " ++
     "90%; max-width: 1200px; \x7d",
   "  .result-item \x7b display: flex; flex-direction: column; text-align: left; \x7d",
   "  .result-title \x7b font-size: 1.4rem; color: #1a0dab; text-decoration: none; " ++
     "margin-bottom: 3px; \x7d",
   "  .result-title:hover \x7b text-decoration: underline; \x7d",
   "  .result-url \x7b font-size: 0.95rem; color: #006621; text-decoration: none; \x7d",
   "  .pagination \x7b display: flex; justify-content: left; gap: 15px; margin-top: " ++
     "30px; padding-bottom: 40px; \x7d",
   "  .page-btn \x7b padding: 8px 16px; font-size: 1rem; color: #1a0dab; " ++
     "background-color: #fff; border: 1px solid #dfe1e5; border-radius: 4px; " ++
     "text-decoration: none; \x7d",
   "  .bottom-right-container \x7b position: fixed; bottom: 0; right: 0; display: flex; " ++
     "flex-direction: column; align-items: flex-end; z-index: 10; pointer-events: none; " ++
     "\x7d",
   "  .response-time-box \x7b background-color: rgba(255, 255, 255, 0.95); border: 1px " ++
     "solid #dfe1e5; border-radius: 8px; padding: 10px 15px; box-shadow: 0 4px 10px " ++
     "rgba(0,0,0,0.15); margin-right: 30px; margin-bottom: 10px; font-size: 0.9rem; " ++
     "color: #333; text-align: center; \x7d",
   "  .response-time-title \x7b font-weight: bold; margin-bottom: 4px; color: #1a0dab; " ++
     "font-size: 0.8rem; text-transform: uppercase; \x7d",
   "  .bottom-right-hatt \x7b height: 35vh; max-height: 400px; width: auto; \x7d",
   "</style>",
   "</head>",
   "<body>",
   "  <a href=\"https://tradersatmichigan.com\" target=\"_blank\"><img " ++
     "src=\"/htmlserver/images/tam-logo.png\" class=\"top-right-logo\"></a>",
   "  <div class=\"top-bar\">"]

/-- Part 2: footer, timer and hatt. -/
def RESULTS_PART_2 : Bytes := ofLines
  ["",
   "  <div class=\"bottom-right-container\">",
   "    <div class=\"response-time-box\">",
   "      <div class=\"response-time-title\">Query Response Time</div>"]

def RESULTS_PART_3 : Bytes := ofLines
  ["",
   "      ms",
   "    </div>",
   "    <img src=\"/htmlserver/images/sirtophamhatt.png\" class=\"bottom-right-hatt\" " ++
     "alt=\"Sir Topham Hatt\">",
   "  </div>",
   "  <script>",
   "    function submit()\x7b",
   "      var v=document.getElementById('q').value.trim();",
   "      if(!v)return;",
   "      window.location.href='/'+encodeURIComponent(v);",
   "    \x7d",
   "    document.getElementById('q').addEventListener('keydown',function(e)\x7b " ++
     "if(e.key==='Enter') submit(); \x7d);",
   "  </script>",
   "</body>",
   "</html>"]

def hexOf (c : UInt8) : Option Nat :=
  if 48 ≤ c ∧ c ≤ 57 then some (c.toNat - 48)
  else if 97 ≤ c ∧ c ≤ 102 then some (10 + (c.toNat - 97))
  else if 65 ≤ c ∧ c ≤ 70 then some (10 + (c.toNat - 65))
  else none

/-- A `+` is a blank. -/
def plusDecoded (c : UInt8) : UInt8 := if c = 43 then space else c

def percentDecode : Bytes → Bytes
  | c :: hi :: lo :: s =>
    if c = 37 then
      match hexOf hi, hexOf lo with
      | some h, some l => UInt8.ofNat (h * 16 + l) :: percentDecode s
      | _, _ => c :: percentDecode (hi :: lo :: s)
    else plusDecoded c :: percentDecode (hi :: lo :: s)
  | s => s.map plusDecoded

def parseQueryTerm (path : Bytes) : Bytes :=
  if path.length < 2 ∨ path.head? ≠ some 47 then []
  else percentDecode ((path.drop 1).takeWhile (· ≠ 63))

/-- The characters that the server keeps: `a-z`, `0-9`, the space and `"|-()`. -/
def isKept (c : UInt8) : Bool :=
  (97 ≤ c && c ≤ 122) || isDigit c || c = 32 || c = 34 || c = 124 || c = 45 || c = 40 || c = 41

def removeSpecialChars (s : Bytes) : Bytes := (lowercase s).filter isKept

def htmlEscape (s : Bytes) : Bytes :=
  s.flatMap fun c =>
    if c = 34 then ascii "&quot;"
    else if c = 38 then ascii "&amp;"
    else if c = 60 then ascii "&lt;"
    else if c = 62 then ascii "&gt;"
    else [c]

/-- `atoi`: the `long` that `strtol` gives, cut to an `int`. -/
def atoi (s : Bytes) : Int32 := Int32.ofInt (strtol s).1

/-- The loop of `get_page_number`, after the byte `before`. -/
def pageFrom (rest : Bytes) (before : Option UInt8) : Bytes → Int32
  | [] => 1
  | [_] => 1
  | c :: d :: path =>
    if c = 112 ∧ d = 61 ∧ (before = none ∨ before = some 63 ∨ before = some 38) then
      let page := atoi (path ++ rest)
      if page < 1 then 1 else page
    else pageFrom rest (some c) (d :: path)

/-- `path` is a view of the request, and `rest` is what the request has behind it: `atoi` does
not know where the path ends. -/
def getPageNumber (path rest : Bytes) : Int32 := pageFrom rest none path

/-- `append(int)` -/
def decimal (n : Int32) : Bytes := ascii (toString n.toInt)

/-- `(current_page - 1) * 10` as a `size_t`. -/
def startIdx (currentPage : Int32) : Nat := ((currentPage - 1) * 10).toInt64.toUInt64.toNat

def endIdx (currentPage : Int32) (results : Nat) : Nat :=
  min ((startIdx currentPage + 10) % 2 ^ 64) results

section Page

variable {σ : Type}

/-- The results that the loop goes over. -/
def shown (currentPage : Int32) (results : List (LeanPage σ)) : List (LeanPage σ) :=
  if startIdx currentPage < results.length then
    (results.drop (startIdx currentPage)).take
      (endIdx currentPage results.length - startIdx currentPage)
  else []

def displayTitle (res : LeanPage σ) : Bytes := if res.title.length > 0 then res.title else res.url

def resultItem (res : LeanPage σ) : Bytes :=
  ascii "<div class=\"result-item\">\n" ++
    (ascii "<a class=\"result-title\" href=\"" ++ res.url ++ ascii "\" target=\"_blank\">" ++
      displayTitle res ++ ascii "</a>\n") ++
    (ascii "<a class=\"result-url\" href=\"" ++ res.url ++ ascii "\" target=\"_blank\">" ++
      res.url ++ ascii "</a>\n</div>\n")

/-- The page up to its results. -/
def pageTop (path : Bytes) : Bytes :=
  let term := removeSpecialChars (parseQueryTerm path)
  RESULTS_PART_1 ++ ascii "<input id=\"q\" type=\"text\" class=\"search-box\" value=\"" ++
    htmlEscape term ++ ascii "\">\n<a href=\"/\" class=\"back-btn\">BACK</a>\n" ++
    ascii "<h1 class=\"header-title\">Seamus the Search Engine</h1>\n</div>\n" ++
    ascii "<div class=\"results-container\">\n"

def pageLink (baseUrl : Bytes) (page : Int32) (label : String) : Bytes :=
  ascii "<a class=\"page-btn\" href=\"" ++ baseUrl ++ ascii "?p=" ++ decimal page ++
    ascii "\">" ++ ascii label ++ ascii "</a>\n"

/-- The links to the pages before and behind it. -/
def pagination (path : Bytes) (currentPage : Int32) (results : Nat) : Bytes :=
  let baseUrl := path.takeWhile (· ≠ 63)
  ascii "</div>\n" ++ ascii "<div class=\"pagination\">\n" ++
    (if currentPage > 1 then pageLink baseUrl (currentPage - 1) "&laquo; Previous" else []) ++
    (if endIdx currentPage results < results then
      pageLink baseUrl (currentPage + 1) "Next &raquo;" else []) ++
    ascii "</div>\n"

/-- The page for the results that the query handler gave, after `duration_ms`. -/
def serveSearchResults (path rest : Bytes) (results : List (LeanPage σ)) (durationMs : Int32) :
    Bytes :=
  let currentPage := getPageNumber path rest
  pageTop path ++ (shown currentPage results).flatMap resultItem ++
    pagination path currentPage results.length ++
    (RESULTS_PART_2 ++ decimal durationMs ++ RESULTS_PART_3)

/-! ## The markup of a page -/

/-- The bytes `"`, `<` and `>`. -/
def isMarkup (c : UInt8) : Bool := c = 34 ∨ c = 60 ∨ c = 62

def markup (page : Bytes) : Bytes := page.filter isMarkup

@[simp] theorem markup_append (a b : Bytes) : markup (a ++ b) = markup a ++ markup b :=
  List.filter_append a b

theorem markup_eq_nil {b : Bytes} (h : ∀ c ∈ b, isDigit c = true ∨ c = 45) : markup b = [] := by
  refine List.filter_eq_nil_iff.mpr fun c hc => ?_
  rcases h c hc with hdigit | rfl
  · unfold isDigit at hdigit
    rw [Bool.and_eq_true, decide_eq_true_eq, decide_eq_true_eq] at hdigit
    unfold isMarkup
    rw [decide_eq_true_eq]
    rintro (rfl | rfl | rfl) <;> revert hdigit <;> decide
  · decide

/-- A number has no markup, whatever it is. -/
theorem markup_decimal (n : Int32) : markup (decimal n) = [] := by
  apply markup_eq_nil
  unfold decimal
  cases n.toInt with
  | ofNat m => exact fun c hc => Or.inl (isDigit_toString m c hc)
  | negSucc m =>
    have hparts : ascii (toString (Int.negSucc m)) = 45 :: ascii (toString (m + 1)) := by
      simp [ascii, Int.toString_eq_repr, Int.repr_eq_if]
    rw [hparts]
    refine List.forall_mem_cons.mpr ⟨Or.inr rfl, fun c hc => Or.inl (isDigit_toString _ c hc)⟩

/-! ### The items of a list -/

/-- A result without its texts. -/
def blank (res : LeanPage σ) : LeanPage σ := { res with url := [], title := [] }

/-- The markup of an item without texts. -/
def blankItem : Bytes := markup (resultItem (⟨[], [], ()⟩ : LeanPage Unit))

/-- The texts that are shown have no markup of their own. -/
def Plain (results : List (LeanPage σ)) : Prop :=
  ∀ res ∈ results, markup res.url = [] ∧ markup (displayTitle res) = []

def itemsMarkup (results : List (LeanPage σ)) : Bytes :=
  results.flatMap fun res => markup (resultItem res)

/-- A URL stands in its item three times, as the link twice and once as text. -/
theorem resultItem_length (res : LeanPage σ) :
    (markup (resultItem res)).length =
      blankItem.length + 3 * (markup res.url).length + (markup (displayTitle res)).length := by
  have hurl : markup (⟨[], [], ()⟩ : LeanPage Unit).url = [] := rfl
  have htitle : markup (displayTitle (⟨[], [], ()⟩ : LeanPage Unit)) = [] := rfl
  simp only [blankItem, resultItem, markup_append, List.length_append, hurl, htitle,
    List.length_nil]
  omega

theorem resultItem_plain {res : LeanPage σ} (hurl : markup res.url = [])
    (htitle : markup (displayTitle res) = []) : markup (resultItem res) = blankItem := by
  have hurl' : markup (⟨[], [], ()⟩ : LeanPage Unit).url = [] := rfl
  have htitle' : markup (displayTitle (⟨[], [], ()⟩ : LeanPage Unit)) = [] := rfl
  simp only [blankItem, resultItem, markup_append, hurl, htitle, hurl', htitle']

/-- The markup of plain items is that of their number. -/
theorem itemsMarkup_plain {results : List (LeanPage σ)} (h : Plain results) :
    itemsMarkup results = (List.replicate results.length blankItem).flatten := by
  induction results with
  | nil => rfl
  | cons res results ih =>
    obtain ⟨⟨hurl, htitle⟩, hrest⟩ := List.forall_mem_cons.mp h
    rw [itemsMarkup, List.flatMap_cons, resultItem_plain hurl htitle, ← itemsMarkup, ih hrest]
    rfl

theorem itemsMarkup_length_le (results : List (LeanPage σ)) :
    (List.replicate results.length blankItem).flatten.length ≤ (itemsMarkup results).length := by
  induction results with
  | nil => exact Nat.le_refl _
  | cons res results ih =>
    have hitem := resultItem_length res
    rw [List.length_cons, List.replicate_succ, itemsMarkup, List.flatMap_cons, List.flatten_cons,
      ← itemsMarkup, List.length_append, List.length_append]
    omega

/-- With no more markup than that of their number, the items are plain. -/
theorem plain_of_length {results : List (LeanPage σ)} (h : (itemsMarkup results).length ≤
    (List.replicate results.length blankItem).flatten.length) : Plain results := by
  induction results with
  | nil => exact fun res hres => absurd hres List.not_mem_nil
  | cons res results ih =>
    have hitem := resultItem_length res
    have hrest := itemsMarkup_length_le results
    rw [List.length_cons, List.replicate_succ, itemsMarkup, List.flatMap_cons, List.flatten_cons,
      ← itemsMarkup, List.length_append, List.length_append] at h
    refine List.forall_mem_cons.mpr ⟨⟨?_, ?_⟩, ih (by omega)⟩
    · exact List.eq_nil_of_length_eq_zero (by omega)
    · exact List.eq_nil_of_length_eq_zero (by omega)

/-! ### Two pages -/

theorem markup_page (path rest : Bytes) (results : List (LeanPage σ)) (durationMs : Int32) :
    markup (serveSearchResults path rest results durationMs) =
      markup (pageTop path) ++ itemsMarkup (shown (getPageNumber path rest) results) ++
        (markup (pagination path (getPageNumber path rest) results.length) ++
          (markup RESULTS_PART_2 ++ markup RESULTS_PART_3)) := by
  have hitems : markup ((shown (getPageNumber path rest) results).flatMap resultItem) =
      itemsMarkup (shown (getPageNumber path rest) results) := List.filter_flatMap
  simp only [serveSearchResults, markup_append, hitems, markup_decimal, List.nil_append,
    List.append_assoc]

/-- How many results a page shows depends on their number only. -/
theorem shown_length {results others : List (LeanPage σ)} (currentPage : Int32)
    (hlen : others.length = results.length) :
    (shown currentPage others).length = (shown currentPage results).length := by
  unfold shown
  rw [hlen]
  split
  · rw [List.length_take, List.length_take, List.length_drop, List.length_drop, hlen]
  · rfl

theorem mem_of_mem_shown {results : List (LeanPage σ)} {currentPage : Int32} {res : LeanPage σ}
    (h : res ∈ shown currentPage results) : res ∈ results := by
  unfold shown at h
  split at h
  · exact List.mem_of_mem_drop (List.mem_of_mem_take h)
  · exact absurd h List.not_mem_nil

theorem blank_plain (currentPage : Int32) (results : List (LeanPage σ)) :
    Plain (shown currentPage (results.map blank)) := by
  intro res hres
  obtain ⟨full, _, rfl⟩ := List.mem_map.mp (mem_of_mem_shown hres)
  exact ⟨rfl, rfl⟩

/-- The markup of a page is the one that every other list of as many results gets whose shown
texts have none, exactly if the texts that it shows have none. -/
theorem markup_fixed_iff (path rest : Bytes) (results : List (LeanPage σ)) :
    (∀ (others : List (LeanPage σ)) (durationMs durationMs' : Int32),
        others.length = results.length → Plain (shown (getPageNumber path rest) others) →
        markup (serveSearchResults path rest results durationMs) =
          markup (serveSearchResults path rest others durationMs')) ↔
      Plain (shown (getPageNumber path rest) results) := by
  generalize hpage : getPageNumber path rest = currentPage
  constructor
  · intro h
    have hblank := h (results.map blank) 0 0 (List.length_map _)
      (blank_plain currentPage results)
    rw [markup_page, markup_page, List.length_map, hpage, List.append_assoc,
      List.append_assoc] at hblank
    have hitems := List.append_cancel_right (List.append_cancel_left hblank)
    rw [itemsMarkup_plain (blank_plain currentPage results),
      shown_length currentPage (List.length_map _)] at hitems
    exact plain_of_length (Nat.le_of_eq (congrArg List.length hitems))
  · intro h others durationMs durationMs' hlen hothers
    rw [markup_page, markup_page, hpage, hlen, itemsMarkup_plain h, itemsMarkup_plain hothers,
      shown_length currentPage hlen]

end Page

/-- Two lists of one result for the path `/a`: a title that is a tag, and one that is not. -/
theorem tag_in_title_is_markup :
    let page (title : String) : List (LeanPage Nat) := [⟨ascii "http://a.b", ascii title, 0⟩]
    markup (serveSearchResults [47, 97] [] (page "<script>") 0) ≠
      markup (serveSearchResults [47, 97] [] (page "script") 0) := by
  intro page
  rw [markup_page, markup_page, List.append_assoc, List.append_assoc]
  intro h
  have hitems := List.append_cancel_right (List.append_cancel_left h)
  revert hitems
  decide +kernel

end seamus.htmlserver
