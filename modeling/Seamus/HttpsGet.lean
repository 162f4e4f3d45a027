-- `https_get`: the response of a server is read up to a bound, however the reads cut it, and
-- redirects are followed, five requests at most.
import Seamus.ReadRequest
import Seamus.HtmlTags

open seamus.html_tags
open seamus.htmlserver (carriage headerEnd)

namespace seamus.network_util

/-! ## The source functions -/

def MAX_HTML_SIZE : Nat := 50 * 1024

/-- The bytes `'/'` and `':'`. -/
def slash : UInt8 := 47

def colon : UInt8 := 58

/-- The loop for the end of the headers. -/
def endOfHeaders : Bytes → Option Nat
  | [] => none
  | c :: cs => if headerEnd.isPrefixOf (c :: cs) then some 0 else (endOfHeaders cs).map (· + 1)

/-- A line feed and then `Location:` in any case. -/
def startsLocation (str : Bytes) : Bool :=
  str.head? = some newline && ((str.drop 1).take 8).map tolower = ascii "location" &&
    str[9]? = some colon

/-- `loc`, up to the end of the headers. The loop leaves out the last ten places. -/
def findLocation : Bytes → Option Bytes
  | [] => none
  | c :: cs =>
    if 10 < (c :: cs).length then
      if startsLocation (c :: cs) then some ((cs.drop 9).dropWhile (· = space))
      else findLocation cs
    else none

/-- What is copied to `redirect_location`. -/
def locationIn (headers : Bytes) : Bytes :=
  match findLocation headers with
  | none => []
  | some loc =>
    if carriage ∈ loc then
      let value := loc.takeWhile (· ≠ carriage)
      if value.length < 1024 then value else []
    else []

structure Reading where
  body : Bytes
  headersStripped : Bool
  isRedirect : Bool
  deadClient : Bool
  rateLimited : Bool
  redirectLocation : Bytes
  deriving DecidableEq

/-- The code for the end of the headers at `i`. -/
def stripHeaders (i : Nat) (r : Reading) : Reading :=
  let hasStatus := 12 ≤ r.body.length
  let c0 := r.body.getD 9 0
  let isLimit := r.body.getD 10 0 = 50 ∧ r.body.getD 11 0 = 57
  { body := r.body.drop (i + 4)
    headersStripped := true
    isRedirect := hasStatus ∧ c0 = 51
    deadClient := hasStatus ∧ (c0 = 53 ∨ c0 = 52 ∧ ¬isLimit)
    rateLimited := hasStatus ∧ c0 = 52 ∧ isLimit
    redirectLocation := if hasStatus ∧ c0 = 51 then locationIn (r.body.take i) else [] }

/-- The body of the loop, for what `SSL_read` gives. -/
def takeBytes (rcvd : Bytes) (r : Reading) : Reading :=
  let r := { r with body := r.body ++ rcvd }
  if r.headersStripped then r
  else
    match endOfHeaders r.body with
    | some i => stripHeaders i r
    | none => r

def Reading.isLast (r : Reading) : Bool :=
  r.isRedirect || r.deadClient || r.rateLimited || MAX_HTML_SIZE ≤ r.body.length

/-- The reads of a response; the `k`-th that asks for `asked` bytes gets `cut k asked` of them, or
all that are left. -/
def readLoop (cut : Nat → Nat → Nat) : (turns k : Nat) → Reading → (stream : Bytes) → Option Reading
  | 0, _, _, _ => none
  | turns + 1, k, r, stream =>
    let n := min (cut k (MAX_HTML_SIZE - r.body.length)) stream.length
    if n = 0 then some r
    else
      let r := takeBytes (stream.take n) r
      if r.isLast then some r else readLoop cut turns (k + 1) r (stream.drop n)

/-- The results -1, -2, -3, -4 and the number of bytes that are in `body`. -/
inductive Response where
  | failed
  | redirect (location : Bytes)
  | dead
  | limited
  | page (body : Bytes)
  deriving DecidableEq

def Reading.response (r : Reading) : Response :=
  if r.headersStripped = false then .failed
  else if r.isRedirect then .redirect r.redirectLocation
  else if r.deadClient then .dead
  else if r.rateLimited then .limited
  else .page r.body

def request (host path : Bytes) : Bytes :=
  ascii "GET /" ++ path ++ ascii " HTTP/1.1\r\nHost: " ++ host ++
    ascii "\r\nUser-Agent: Seamus the Search Engine (web crawler for university course)\r\n" ++
    ascii "Accept: */*\r\nAccept-Encoding: identity\r\nConnection: close\r\n\r\n"

/-- What comes back for the `turn`-th request, none where the connection or the request fails, and
how the reads cut it. -/
structure Network where
  answer : (turn : Nat) → (host req : Bytes) → Option Bytes
  cut : (turn k asked : Nat) → Nat

def noReading : Reading := ⟨[], false, false, false, false, []⟩

/-- The response to the `turn`-th request. None if the reads do not end. -/
def httpsGetOnce (net : Network) (turn : Nat) (host path : Bytes) : Option Response :=
  if 4096 ≤ (request host path).length then some .failed
  else
    match net.answer turn host (request host path) with
    | none => some .failed
    | some stream =>
      (readLoop (net.cut turn) (stream.length + 1) 0 noReading stream).map Reading.response

/-- `current_host` and `current_path` after a redirect, none where there is no location or the host
has no room. -/
def redirectTo (host value : Bytes) : Option (Bytes × Bytes) :=
  let location := value.takeWhile (· ≠ 0)
  if location = [] then none
  else if (ascii "https://").isPrefixOf location then
    let hostStart := location.drop 8
    if slash ∈ hostStart then
      let newHost := hostStart.takeWhile (· ≠ slash)
      if 256 ≤ newHost.length then none
      else some (newHost, (hostStart.drop (newHost.length + 1)).take 4095)
    else some (hostStart.take 255, [])
  else if location.head? = some slash then some (host, (location.drop 1).take 4095)
  else some (host, location.take 4095)

def getLoop (net : Network) : (left turn : Nat) → (host path : Bytes) → Option Response
  | 0, _, _, _ => some .failed
  | left + 1, turn, host, path =>
    match httpsGetOnce net turn host path with
    | some (.redirect value) =>
      match redirectTo host value with
      | none => some .failed
      | some (host, path) => getLoop net left (turn + 1) host path
    | result => result

def httpsGet (net : Network) (host path : Bytes) : Option Response :=
  getLoop net 5 0 (host.take 255) (path.take 4095)

/-! ## What a response says -/

/-- What is to be made of a response, read as a whole. -/
def responseOf (stream : Bytes) : Response :=
  match endOfHeaders (stream.take MAX_HTML_SIZE) with
  | none => .failed
  | some i =>
    let c0 := stream.getD 9 0
    if c0 = 51 then .redirect (locationIn (stream.take i))
    else if c0 = 53 then .dead
    else if c0 = 52 then
      if stream.getD 10 0 = 50 ∧ stream.getD 11 0 = 57 then .limited else .dead
    else .page ((stream.drop (i + 4)).take MAX_HTML_SIZE)

/-- The headers do not end before the place of the status. -/
def HasStatus (stream : Bytes) : Prop := ∀ i, endOfHeaders stream = some i → 8 ≤ i

theorem endOfHeaders_room {b : Bytes} {i : Nat} (h : endOfHeaders b = some i) :
    i + 4 ≤ b.length := by
  induction b generalizing i with
  | nil => cases h
  | cons c cs ih =>
    rw [endOfHeaders] at h
    split at h
    · rename_i hprefix
      cases h
      have hlength := (List.isPrefixOf_iff_prefix.mp hprefix).length_le
      have hfour : headerEnd.length = 4 := rfl
      omega
    · obtain ⟨j, hj, rfl⟩ := Option.map_eq_some_iff.mp h
      have hroom := ih hj
      rw [List.length_cons]
      omega

/-- More bytes do not move the end of the headers. -/
theorem endOfHeaders_append {b : Bytes} {i : Nat} (rest : Bytes) (h : endOfHeaders b = some i) :
    endOfHeaders (b ++ rest) = some i := by
  induction b generalizing i with
  | nil => cases h
  | cons c cs ih =>
    rw [endOfHeaders] at h
    rw [List.cons_append, endOfHeaders]
    split at h
    · rename_i hprefix
      cases h
      have hwhole :=
        (List.isPrefixOf_iff_prefix.mp hprefix).trans (List.prefix_append (c :: cs) rest)
      exact if_pos (List.isPrefixOf_iff_prefix.mpr hwhole)
    · rename_i hnot
      obtain ⟨j, hj, rfl⟩ := Option.map_eq_some_iff.mp h
      have hroom := endOfHeaders_room hj
      have hnone : ¬headerEnd.isPrefixOf (c :: (cs ++ rest)) = true := by
        intro hprefix
        apply hnot
        apply List.isPrefixOf_iff_prefix.mpr
        apply List.prefix_of_prefix_length_le (List.isPrefixOf_iff_prefix.mp hprefix)
          (List.prefix_append (c :: cs) rest)
        have hfour : headerEnd.length = 4 := rfl
        rw [List.length_cons]
        omega
      rw [if_neg hnone, ih hj]
      rfl

/-! ## The reads -/

section Reads

variable {cut : Nat → Nat → Nat}

/-- Behind the headers the bytes are taken as they come, up to the bound. -/
theorem readLoop_body
    (hcut : ∀ k asked, 0 < asked → 0 < cut k asked ∧ cut k asked ≤ asked) {turns k : Nat}
    {r : Reading} {stream : Bytes} (hstripped : r.headersStripped = true)
    (hredirect : r.isRedirect = false) (hdead : r.deadClient = false)
    (hlimited : r.rateLimited = false) (hroom : r.body.length < MAX_HTML_SIZE)
    (hturns : stream.length < turns) :
    (readLoop cut turns k r stream).map Reading.response =
      some (.page ((r.body ++ stream).take MAX_HTML_SIZE)) := by
  induction turns generalizing k r stream with
  | zero => omega
  | succ turns ih =>
    obtain ⟨hpos, hasked⟩ := hcut k (MAX_HTML_SIZE - r.body.length) (Nat.sub_pos_of_lt hroom)
    rw [readLoop]
    generalize hn : min (cut k (MAX_HTML_SIZE - r.body.length)) stream.length = n
    have hpage : r.response = .page r.body := by
      simp [Reading.response, hstripped, hredirect, hdead, hlimited]
    by_cases hzero : n = 0
    · have hend : stream = [] := List.eq_nil_of_length_eq_zero (by omega)
      simp only [if_pos hzero, Option.map_some]
      rw [hpage, hend, List.append_nil, List.take_of_length_le (Nat.le_of_lt hroom)]
    · have htake : (stream.take n).length = n := by
        rw [List.length_take]
        omega
      have hbytes : takeBytes (stream.take n) r = { r with body := r.body ++ stream.take n } := by
        simp [takeBytes, hstripped]
      have hwhole : r.body ++ stream = r.body ++ stream.take n ++ stream.drop n := by
        rw [List.append_assoc, List.take_append_drop]
      simp only [if_neg hzero, hbytes]
      split
      · rename_i hlast
        have hfull : MAX_HTML_SIZE ≤ (r.body ++ stream.take n).length := by
          simpa [Reading.isLast, hredirect, hdead, hlimited] using hlast
        have hexact : (r.body ++ stream.take n).length = MAX_HTML_SIZE := by
          rw [List.length_append] at hfull ⊢
          omega
        rw [hwhole, List.take_append_of_le_length hfull, ← hexact, List.take_length]
        simp [Reading.response, hstripped, hredirect, hdead, hlimited]
      · rename_i hlast
        have hroom' : (r.body ++ stream.take n).length < MAX_HTML_SIZE := by
          simpa [Reading.isLast, hredirect, hdead, hlimited] using hlast
        have hrest : (stream.drop n).length < turns := by
          rw [List.length_drop]
          omega
        rw [hwhole]
        exact ih (r := { r with body := r.body ++ stream.take n }) hstripped hredirect hdead
          hlimited hroom' hrest

theorem responseOf_of_clean {stream : Bytes}
    (h : endOfHeaders (stream.take MAX_HTML_SIZE) = none) : responseOf stream = .failed := by
  unfold responseOf
  rw [h]

/-- What the headers decide, once they have come as a whole. -/
theorem stripHeaders_response {read rest : Bytes} {i : Nat} (hfit : read.length ≤ MAX_HTML_SIZE)
    (hi : endOfHeaders read = some i) (hlate : 8 ≤ i) :
    let r := stripHeaders i { noReading with body := read }
    r.isLast = true ∧ r.response = responseOf (read ++ rest) ∨
      r.headersStripped = true ∧ r.isRedirect = false ∧ r.deadClient = false ∧
        r.rateLimited = false ∧ r.body.length < MAX_HTML_SIZE ∧
        responseOf (read ++ rest) = .page ((r.body ++ rest).take MAX_HTML_SIZE) := by
  intro r
  have hroom := endOfHeaders_room hi
  have hstatus : 12 ≤ read.length := by omega
  have hwhole : endOfHeaders ((read ++ rest).take MAX_HTML_SIZE) = some i := by
    rw [List.take_append, List.take_of_length_le hfit]
    exact endOfHeaders_append _ hi
  have hget : ∀ j < 12, (read ++ rest).getD j 0 = read.getD j 0 := by
    intro j hj
    rw [List.getD_eq_getElem?_getD, List.getD_eq_getElem?_getD,
      List.getElem?_append_left (by omega)]
  have htake : (read ++ rest).take i = read.take i := List.take_append_of_le_length (by omega)
  have hdrop : (read ++ rest).drop (i + 4) = read.drop (i + 4) ++ rest :=
    List.drop_append_of_le_length hroom
  have hspec : responseOf (read ++ rest) =
      if read.getD 9 0 = 51 then .redirect (locationIn (read.take i))
      else if read.getD 9 0 = 53 then .dead
      else if read.getD 9 0 = 52 then
        if read.getD 10 0 = 50 ∧ read.getD 11 0 = 57 then .limited else .dead
      else .page ((read.drop (i + 4) ++ rest).take MAX_HTML_SIZE) := by
    unfold responseOf
    rw [hwhole]
    simp only
    rw [hget 9 (by decide), hget 10 (by decide), hget 11 (by decide), htake, hdrop]
  have hshort : (read.drop (i + 4)).length < MAX_HTML_SIZE := by
    have hbound : 0 < MAX_HTML_SIZE := by decide
    rw [List.length_drop]
    omega
  have hr : r = stripHeaders i { noReading with body := read } := rfl
  simp only [stripHeaders, hstatus, true_and] at hr
  generalize read.getD 9 0 = c0, read.getD 10 0 = c1, read.getD 11 0 = c2 at hspec hr
  rw [hspec, hr]
  by_cases h3 : c0 = 51
  · left
    simp [Reading.isLast, Reading.response, h3]
  by_cases h5 : c0 = 53
  · left
    simp [Reading.isLast, Reading.response, h5]
  by_cases h4 : c0 = 52
  · left
    by_cases hlimit : c1 = 50 ∧ c2 = 57
    · simp [Reading.isLast, Reading.response, h4, hlimit]
    · simp [Reading.isLast, Reading.response, h4, hlimit]
  · right
    simp only [if_neg h3, if_neg h5, if_neg h4]
    refine ⟨trivial, ?_, ?_, ?_, hshort, trivial⟩ <;> simp [h3, h5, h4]

/-- However the reads cut it, a response is read as a whole. -/
theorem readLoop_response
    (hcut : ∀ k asked, 0 < asked → 0 < cut k asked ∧ cut k asked ≤ asked) {turns k : Nat}
    {read stream : Bytes} (hclean : endOfHeaders read = none) (hroom : read.length < MAX_HTML_SIZE)
    (hlate : HasStatus (read ++ stream)) (hturns : stream.length < turns) :
    (readLoop cut turns k { noReading with body := read } stream).map Reading.response =
      some (responseOf (read ++ stream)) := by
  induction turns generalizing k read stream with
  | zero => omega
  | succ turns ih =>
    obtain ⟨hpos, hasked⟩ := hcut k (MAX_HTML_SIZE - read.length) (Nat.sub_pos_of_lt hroom)
    rw [readLoop]
    generalize hn : min (cut k (MAX_HTML_SIZE - read.length)) stream.length = n
    by_cases hzero : n = 0
    · -- the stream has ended without an end of the headers
      have hend : stream = [] := List.eq_nil_of_length_eq_zero (by omega)
      have hall : (read ++ stream).take MAX_HTML_SIZE = read := by
        rw [hend, List.append_nil, List.take_of_length_le (Nat.le_of_lt hroom)]
      rw [responseOf_of_clean (by rw [hall]; exact hclean)]
      simp only [if_pos hzero, Option.map_some]
      rfl
    have hfit : (read ++ stream.take n).length ≤ MAX_HTML_SIZE := by
      rw [List.length_append, List.length_take]
      omega
    have hwhole : read ++ stream = read ++ stream.take n ++ stream.drop n := by
      rw [List.append_assoc, List.take_append_drop]
    have hrest : (stream.drop n).length < turns := by
      rw [List.length_drop]
      omega
    rw [hwhole] at hlate ⊢
    generalize hread : read ++ stream.take n = whole at *
    simp only [if_neg hzero]
    cases hi : endOfHeaders whole with
    | none =>
      have hbytes : takeBytes (stream.take n) { noReading with body := read } =
          { noReading with body := whole } := by
        simp [takeBytes, noReading, hread, hi]
      rw [hbytes]
      split
      · rename_i hlast
        have hfull : MAX_HTML_SIZE ≤ whole.length := by
          simpa [Reading.isLast, noReading] using hlast
        have hall : (whole ++ stream.drop n).take MAX_HTML_SIZE = whole := by
          rw [List.take_append_of_le_length hfull, List.take_of_length_le hfit]
        rw [responseOf_of_clean (by rw [hall]; exact hi)]
        rfl
      · rename_i hlast
        have hmore : whole.length < MAX_HTML_SIZE := by
          simpa [Reading.isLast, noReading] using hlast
        exact ih hi hmore hlate hrest
    | some i =>
      have hbytes : takeBytes (stream.take n) { noReading with body := read } =
          stripHeaders i { noReading with body := whole } := by
        simp [takeBytes, noReading, hread, hi]
      rw [hbytes]
      rcases stripHeaders_response hfit hi (hlate i (endOfHeaders_append _ hi)) with
        ⟨hlast, hresponse⟩ | ⟨hstripped, hredirect, hdead, hlimited, hshort, hresponse⟩
      · rw [if_pos hlast, Option.map_some, hresponse]
      · have hmore : ¬(stripHeaders i { noReading with body := whole }).isLast = true := by
          simp [Reading.isLast, hredirect, hdead, hlimited, hshort]
        rw [if_neg hmore, hresponse]
        exact readLoop_body hcut hstripped hredirect hdead hlimited hshort hrest

end Reads

/-! ## The requests -/

/-- What the `turn`-th request gives, its response read as a whole. -/
def answerTo (answer : Nat → Bytes → Bytes → Option Bytes) (turn : Nat) (page : Bytes × Bytes) :
    Response :=
  if 4096 ≤ (request page.1 page.2).length then .failed
  else
    match answer turn page.1 (request page.1 page.2) with
    | none => .failed
    | some stream => responseOf stream

/-- Each page but the last was answered with a redirect to the one behind it, and the last with the
result, or with a redirect that is not followed. -/
structure IsTrail (answer : Nat → Bytes → Bytes → Option Bytes) (left turn : Nat)
    (pages : List (Bytes × Bytes)) (result : Response) : Prop where
  few : pages.length ≤ left
  linked : ∀ k page next, pages[k]? = some page → pages[k + 1]? = some next →
    ∃ value, answerTo answer (turn + k) page = .redirect value ∧ redirectTo page.1 value = some next
  last : ∃ k page, pages.length = k + 1 ∧ pages[k]? = some page ∧
    ((∀ value, result ≠ .redirect value) ∧ answerTo answer (turn + k) page = result ∨
      result = .failed ∧ ∃ value, answerTo answer (turn + k) page = .redirect value ∧
        (redirectTo page.1 value = none ∨ pages.length = left))

/-- A page that the buffers of `https_get` have room for. -/
def Fits (page : Bytes × Bytes) : Prop := page.1.length ≤ 255 ∧ page.2.length ≤ 4095

theorem redirectTo_fits {host path value : Bytes} {next : Bytes × Bytes} (hfits : Fits (host, path))
    (h : redirectTo host value = some next) : Fits next := by
  have hhost : host.length ≤ 255 := hfits.1
  unfold redirectTo at h
  simp only at h
  split_ifs at h with _ _ _ hlong
  · cases h
    exact ⟨by simp only; omega, List.length_take_le _ _⟩
  · cases h
    exact ⟨List.length_take_le _ _, Nat.zero_le _⟩
  · cases h
    exact ⟨hhost, List.length_take_le _ _⟩
  · cases h
    exact ⟨hhost, List.length_take_le _ _⟩

theorem answerTo_page_le {answer : Nat → Bytes → Bytes → Option Bytes} {turn : Nat}
    {page : Bytes × Bytes} {body : Bytes} (h : answerTo answer turn page = .page body) :
    body.length ≤ MAX_HTML_SIZE := by
  unfold answerTo responseOf at h
  split at h
  · cases h
  split at h
  · cases h
  split at h
  · cases h
  simp only at h
  split_ifs at h
  cases h
  exact List.length_take_le _ _

/-- Each read that asks for something gets something, and no more. -/
def Network.Reads (net : Network) : Prop :=
  ∀ turn k asked, 0 < asked → 0 < net.cut turn k asked ∧ net.cut turn k asked ≤ asked

theorem httpsGetOnce_eq {net : Network} (hreads : net.Reads) {turn : Nat} {host path : Bytes}
    (hstatus : ∀ stream,
      net.answer turn host (request host path) = some stream → HasStatus stream) :
    httpsGetOnce net turn host path = some (answerTo net.answer turn (host, path)) := by
  unfold httpsGetOnce answerTo
  simp only
  split
  · rfl
  cases hstream : net.answer turn host (request host path) with
  | none => rfl
  | some stream =>
    have hroom : 0 < MAX_HTML_SIZE := by decide
    have hclean : endOfHeaders [] = none := rfl
    exact readLoop_response (hreads turn) hclean hroom (hstatus stream hstream) (Nat.lt_succ_self _)

theorem getLoop_of_answer {net : Network} (hreads : net.Reads) {left turn : Nat} {host path : Bytes}
    (hstatus : ∀ stream, net.answer turn host (request host path) = some stream → HasStatus stream)
    (hno : ∀ value, answerTo net.answer turn (host, path) ≠ .redirect value) :
    getLoop net (left + 1) turn host path = some (answerTo net.answer turn (host, path)) := by
  rw [getLoop, httpsGetOnce_eq hreads hstatus]
  split
  · rename_i value heq
    exact absurd (Option.some.inj heq) (hno value)
  · rfl

theorem getLoop_of_redirect {net : Network} (hreads : net.Reads) {left turn : Nat}
    {host path value : Bytes}
    (hstatus : ∀ stream, net.answer turn host (request host path) = some stream → HasStatus stream)
    (hvalue : answerTo net.answer turn (host, path) = .redirect value) :
    getLoop net (left + 1) turn host path =
      (redirectTo host value).elim (some .failed) fun next =>
        getLoop net left (turn + 1) next.1 next.2 := by
  rw [getLoop, httpsGetOnce_eq hreads hstatus, hvalue]
  cases hnext : redirectTo host value with
  | none => simp only [hnext, Option.elim_none]
  | some next => simp only [hnext, Option.elim_some]

section Requests

variable {answer : Nat → Bytes → Bytes → Option Bytes}

theorem IsTrail.single {left turn : Nat} {page : Bytes × Bytes} {result : Response}
    (hlast : (∀ value, result ≠ .redirect value) ∧ answerTo answer turn page = result ∨
      result = .failed ∧ ∃ value, answerTo answer turn page = .redirect value ∧
        (redirectTo page.1 value = none ∨ left = 0)) :
    IsTrail answer (left + 1) turn [page] result where
  few := Nat.le_add_left 1 left
  linked k _ _ _ hnext := by simp at hnext
  last := by
    refine ⟨0, page, rfl, rfl, hlast.imp_right ?_⟩
    rintro ⟨hfailed, value, hvalue, hwhy⟩
    refine ⟨hfailed, value, hvalue, hwhy.imp_right ?_⟩
    rintro rfl
    rfl

theorem IsTrail.cons {left turn : Nat} {page next : Bytes × Bytes} {value : Bytes}
    {pages : List (Bytes × Bytes)} {result : Response}
    (hanswer : answerTo answer turn page = .redirect value)
    (hnext : redirectTo page.1 value = some next) (hhead : pages.head? = some next)
    (h : IsTrail answer left (turn + 1) pages result) :
    IsTrail answer (left + 1) turn (page :: pages) result where
  few := Nat.succ_le_succ h.few
  linked k p q hp hq := by
    cases k with
    | zero =>
      cases hp
      rw [List.getElem?_cons_succ, ← List.head?_eq_getElem?, hhead] at hq
      cases hq
      exact ⟨value, hanswer, hnext⟩
    | succ k =>
      rw [Nat.add_comm k 1, ← Nat.add_assoc]
      exact h.linked k p q hp hq
  last := by
    obtain ⟨k, p, hlength, hp, hlast⟩ := h.last
    refine ⟨k + 1, p, congrArg (· + 1) hlength, hp, ?_⟩
    rw [Nat.add_comm k 1, ← Nat.add_assoc, List.length_cons, Nat.add_left_inj]
    exact hlast

/-- The loop of `https_get` makes these requests and gives this result, however the reads cut the
responses. -/
structure Gives (answer : Nat → Bytes → Bytes → Option Bytes) (left turn : Nat)
    (page : Bytes × Bytes) (pages : List (Bytes × Bytes)) (result : Response) : Prop where
  trail : IsTrail answer left turn pages result
  head : pages.head? = some page
  fits : ∀ p ∈ pages, Fits p
  runs : ∀ net : Network, net.answer = answer → net.Reads →
    getLoop net left turn page.1 page.2 = some result

/-- Each response has its status. -/
def HaveStatus (answer : Nat → Bytes → Bytes → Option Bytes) : Prop :=
  ∀ turn host req stream, answer turn host req = some stream → HasStatus stream

variable {left turn : Nat} {page : Bytes × Bytes}

theorem gives_answer (hstatus : HaveStatus answer) (hfits : Fits page)
    (hno : ∀ value, answerTo answer turn page ≠ .redirect value) :
    Gives answer (left + 1) turn page [page] (answerTo answer turn page) where
  trail := .single (Or.inl ⟨hno, rfl⟩)
  head := rfl
  fits := List.forall_mem_singleton.mpr hfits
  runs := by
    rintro net rfl hreads
    exact getLoop_of_answer hreads (hstatus turn page.1 _) hno

theorem gives_failed {value : Bytes} (hstatus : HaveStatus answer) (hfits : Fits page)
    (hvalue : answerTo answer turn page = .redirect value)
    (hwhy : redirectTo page.1 value = none ∨ left = 0) :
    Gives answer (left + 1) turn page [page] .failed where
  trail := .single (Or.inr ⟨rfl, value, hvalue, hwhy⟩)
  head := rfl
  fits := List.forall_mem_singleton.mpr hfits
  runs := by
    rintro net rfl hreads
    rw [getLoop_of_redirect hreads (hstatus turn page.1 _) hvalue]
    rcases hwhy with hnone | rfl
    · rw [hnone]
      rfl
    · cases redirectTo page.1 value <;> rfl

theorem Gives.cons {value : Bytes} {next : Bytes × Bytes} {pages : List (Bytes × Bytes)}
    {result : Response} (hstatus : HaveStatus answer) (hfits : Fits page)
    (hvalue : answerTo answer turn page = .redirect value)
    (hnext : redirectTo page.1 value = some next)
    (h : Gives answer left (turn + 1) next pages result) :
    Gives answer (left + 1) turn page (page :: pages) result where
  trail := .cons hvalue hnext h.head h.trail
  head := rfl
  fits := List.forall_mem_cons.mpr ⟨hfits, h.fits⟩
  runs := by
    rintro net rfl hreads
    rw [getLoop_of_redirect hreads (hstatus turn page.1 _) hvalue, hnext]
    exact h.runs net rfl hreads

theorem exists_gives (hstatus : HaveStatus answer) (left turn : Nat) {page : Bytes × Bytes}
    (hfits : Fits page) :
    ∃ pages result, Gives answer (left + 1) turn page pages result := by
  induction left generalizing turn page with
  | zero =>
    by_cases hno : ∀ value, answerTo answer turn page ≠ .redirect value
    · exact ⟨_, _, gives_answer hstatus hfits hno⟩
    · obtain ⟨value, hvalue⟩ := not_forall_not.mp hno
      exact ⟨_, _, gives_failed hstatus hfits hvalue (Or.inr rfl)⟩
  | succ left ih =>
    by_cases hno : ∀ value, answerTo answer turn page ≠ .redirect value
    · exact ⟨_, _, gives_answer hstatus hfits hno⟩
    obtain ⟨value, hvalue⟩ := not_forall_not.mp hno
    cases hnext : redirectTo page.1 value with
    | none => exact ⟨_, _, gives_failed hstatus hfits hvalue (Or.inl hnext)⟩
    | some next =>
      obtain ⟨pages, result, hgives⟩ := ih (turn + 1) (redirectTo_fits hfits hnext)
      exact ⟨_, _, hgives.cons hstatus hfits hvalue hnext⟩

end Requests

/-- However the reads cut the responses, `https_get` takes each as a whole and follows redirects for
five requests at most, in its buffers, and a page that it gives has room in `body`. -/
theorem responses_are_read_whole (answer : Nat → Bytes → Bytes → Option Bytes)
    (hstatus : ∀ turn host req stream, answer turn host req = some stream → HasStatus stream)
    (host path : Bytes) :
    ∃ pages result, IsTrail answer 5 0 pages result ∧
      pages.head? = some (host.take 255, path.take 4095) ∧ (∀ page ∈ pages, Fits page) ∧
      (∀ body, result = .page body → body.length ≤ MAX_HTML_SIZE) ∧
      ∀ net : Network, net.answer = answer → net.Reads → httpsGet net host path = some result := by
  have hfits : Fits (host.take 255, path.take 4095) :=
    ⟨List.length_take_le _ _, List.length_take_le _ _⟩
  obtain ⟨pages, result, htrail, hhead, hall, hruns⟩ := exists_gives hstatus 4 0 hfits
  refine ⟨pages, result, htrail, hhead, hall, fun body hbody => ?_, hruns⟩
  obtain ⟨k, page, _, _, ⟨_, hanswer⟩ | ⟨hfailed, _⟩⟩ := htrail.last
  · exact answerTo_page_le (hanswer.trans hbody)
  · rw [hfailed] at hbody
    cases hbody

/-- A page that has moved, and the page where it is now. -/
def moved : Nat → Bytes → Bytes → Option Bytes
  | 0, _, _ => some (ascii "HTTP/1.1 301 M\r\nLocation: https://b.io/x\r\nVary: *\r\n\r\n")
  | 1, _, _ => some (ascii "HTTP/1.1 200 OK\r\n\r\nhello")
  | _, _, _ => none

/-- Read byte by byte, or in any other way. -/
theorem moved_is_read :
    ∃ pages, IsTrail moved 5 0 pages (.page (ascii "hello")) ∧
      ∀ net : Network, net.answer = moved → net.Reads →
        httpsGet net (ascii "a.io") [] = some (.page (ascii "hello")) := by
  have hstatus : ∀ turn host req stream, moved turn host req = some stream → HasStatus stream := by
    intro turn host req stream hstream i hi
    match turn with
    | 0 =>
      cases hstream
      have hend : endOfHeaders
        (ascii "HTTP/1.1 301 M\r\nLocation: https://b.io/x\r\nVary: *\r\n\r\n") = some 49 := by
          decide +kernel
      rw [hend] at hi
      cases hi
      decide
    | 1 =>
      cases hstream
      have hend : endOfHeaders (ascii "HTTP/1.1 200 OK\r\n\r\nhello") = some 15 := by decide +kernel
      rw [hend] at hi
      cases hi
      decide
    | turn + 2 => cases hstream
  obtain ⟨pages, result, htrail, _, _, _, hruns⟩ :=
    responses_are_read_whole moved hstatus (ascii "a.io") []
  have hone : httpsGet ⟨moved, fun _ _ _ => 1⟩ (ascii "a.io") [] =
      some (.page (ascii "hello")) := by decide +kernel
  have hresult : result = .page (ascii "hello") := by
    have hrun := hruns ⟨moved, fun _ _ _ => 1⟩ rfl fun _ _ _ hasked => ⟨Nat.one_pos, hasked⟩
    exact Option.some.inj (hrun.symm.trans hone)
  rw [hresult] at htrail hruns
  exact ⟨pages, htrail, hruns⟩

/-! ## A `Location` that is lost -/

/-- The first line that starts with `Location:` is found, if it goes on. -/
theorem findLocation_first {front name after : Bytes} (hname : name.map tolower = ascii "location")
    (hfirst : ∀ j < front.length,
      startsLocation ((front ++ newline :: (name ++ colon :: after)).drop j) = false) :
    findLocation (front ++ newline :: (name ++ colon :: after)) =
      if after = [] then none else some (after.dropWhile (· = space)) := by
  have hlength : name.length = 8 := by
    have height := congrArg List.length hname
    rwa [List.length_map] at height
  induction front with
  | nil =>
    rw [List.nil_append, findLocation]
    by_cases hafter : after = []
    · rw [if_pos hafter, if_neg (by simp [hlength, hafter])]
    have hpos : 0 < after.length := List.length_pos_iff.mpr hafter
    have hstarts : startsLocation (newline :: (name ++ colon :: after)) = true := by
      have hcolon : (newline :: (name ++ colon :: after))[9]? = some colon := by
        rw [List.getElem?_cons_succ, List.getElem?_append_right (by omega), hlength]
        rfl
      simp [startsLocation, hlength, hname, hcolon]
    have hdrop : (name ++ colon :: after).drop 9 = after := by
      rw [List.drop_append, hlength, List.drop_of_length_le (by omega)]
      rfl
    rw [if_neg hafter, if_pos (by simp [hlength]; omega), if_pos hstarts, hdrop]
  | cons c front ih =>
    have hlong : 10 < (c :: front ++ newline :: (name ++ colon :: after)).length := by
      simp [hlength]
      omega
    have hhere := hfirst 0 (Nat.succ_pos _)
    rw [List.drop_zero] at hhere
    rw [List.cons_append] at hhere hlong ⊢
    rw [findLocation, if_pos hlong, if_neg (by rw [hhere]; exact Bool.false_ne_true)]
    exact ih fun j hj => hfirst (j + 1) (Nat.succ_lt_succ hj)

/-- The first line that starts with `Location:` is the last of the headers. -/
def LocationLast (headers : Bytes) : Prop :=
  ∃ front name value, headers = front ++ newline :: (name ++ colon :: value) ∧
    name.map tolower = ascii "location" ∧ carriage ∉ value ∧
    ∀ j < front.length, startsLocation (headers.drop j) = false

theorem LocationLast.length {headers : Bytes} (h : LocationLast headers) : 10 ≤ headers.length := by
  obtain ⟨front, name, value, rfl, hname, _, _⟩ := h
  have height := congrArg List.length hname
  rw [List.length_map] at height
  have hlocation : (ascii "location").length = 8 := rfl
  rw [List.length_append, List.length_cons, List.length_append, List.length_cons]
  omega

/-- The line has no carriage return before the end of the headers. -/
theorem LocationLast.locationIn {headers : Bytes} (h : LocationLast headers) :
    locationIn headers = [] := by
  obtain ⟨front, name, value, rfl, hname, hvalue, hfirst⟩ := h
  unfold network_util.locationIn
  rw [findLocation_first hname hfirst]
  by_cases hempty : value = []
  · rw [if_pos hempty]
  · have hnone : carriage ∉ value.dropWhile (· = space) :=
      fun hmem => hvalue ((List.dropWhile_sublist _).subset hmem)
    rw [if_neg hempty]
    simp only [if_neg hnone]

theorem answerTo_locationLast {answer : Nat → Bytes → Bytes → Option Bytes} {turn : Nat}
    {page : Bytes × Bytes} {headers rest : Bytes} (hlast : LocationLast headers)
    (hend : endOfHeaders (headers ++ rest) = some headers.length)
    (hredirect : headers.getD 9 0 = 51)
    (hanswer : answer turn page.1 (request page.1 page.2) = some (headers ++ rest)) :
    answerTo answer turn page = .failed ∨ answerTo answer turn page = .redirect [] := by
  unfold answerTo
  split
  · exact Or.inl rfl
  rw [hanswer]
  simp only
  unfold responseOf
  cases hi : endOfHeaders ((headers ++ rest).take MAX_HTML_SIZE) with
  | none => exact Or.inl rfl
  | some i =>
    right
    have hwhole := endOfHeaders_append ((headers ++ rest).drop MAX_HTML_SIZE) hi
    rw [List.take_append_drop, hend] at hwhole
    cases hwhole
    have hstatus : (headers ++ rest).getD 9 0 = 51 := by
      rw [List.getD_eq_getElem?_getD, List.getElem?_append_left hlast.length,
        ← List.getD_eq_getElem?_getD, hredirect]
    simp only [if_pos hstatus]
    rw [List.take_left, hlast.locationIn]

/-- Whichever of the five requests it answers, a redirect is not followed where `Location` is the
last of its headers. -/
theorem last_location_is_lost {net : Network} (hreads : net.Reads) (left turn : Nat)
    {host path headers rest : Bytes} (hlast : LocationLast headers)
    (hend : endOfHeaders (headers ++ rest) = some headers.length)
    (hredirect : headers.getD 9 0 = 51)
    (hanswer : net.answer turn host (request host path) = some (headers ++ rest)) :
    getLoop net (left + 1) turn host path = some .failed := by
  have hstatus : ∀ stream, net.answer turn host (request host path) = some stream →
      HasStatus stream := by
    intro stream hstream i hi
    rw [hanswer] at hstream
    cases hstream
    rw [hend] at hi
    cases hi
    have := hlast.length
    omega
  have hgives : answerTo net.answer turn (host, path) = .failed ∨
      answerTo net.answer turn (host, path) = .redirect [] :=
    answerTo_locationLast hlast hend hredirect hanswer
  rcases hgives with hfailed | hlost
  · rw [getLoop_of_answer hreads hstatus (by simp [hfailed]), hfailed]
  · rw [getLoop_of_redirect hreads hstatus hlost]
    rfl

/-- A redirect like that of `moved`, with `Location` as its last header. -/
def movedLast : Bytes := ascii "HTTP/1.1 301 M\r\nVary: *\r\nLocation: https://b.io/x"

theorem movedLast_is_lost :
    httpsGet ⟨fun _ _ _ => some (movedLast ++ headerEnd), fun _ _ asked => asked⟩ (ascii "a.io") [] =
      some .failed := by
  have hlast : LocationLast movedLast := by
    refine ⟨ascii "HTTP/1.1 301 M\r\nVary: *\r", ascii "Location", ascii " https://b.io/x", rfl,
      rfl, by decide, ?_⟩
    decide +kernel
  have hend : endOfHeaders (movedLast ++ headerEnd) = some movedLast.length := by decide +kernel
  exact last_location_is_lost (fun _ _ _ hasked => ⟨hasked, Nat.le_refl _⟩) 4 0 hlast hend
    (by decide) rfl

end seamus.network_util
