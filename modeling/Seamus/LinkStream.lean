-- The links of a page on their way to the URL buffer: what the parser writes as lines, and what
-- `LocalUrlBuffer::add_urls` reads out of them.
import Seamus.UrlFilter
import Seamus.UrlStore
import Mathlib.Algebra.Ring.Int.Defs

open seamus.html_tags seamus.html seamus.url_filter seamus.url_store

namespace seamus.link_stream

/-! ## The reader -/

/-- `strtol` in base 10: the number, and what is after it. -/
def strtol (str : Bytes) : Int × Bytes :=
  let text := str.dropWhile isspace
  let isNegative := text.head? = some 45
  let text := if isNegative ∨ text.head? = some 43 then text.drop 1 else text
  let digits := text.takeWhile isDigit
  if digits = [] then (0, str)
  else
    let n : Nat := digits.foldl (fun n c => 10 * n + (c.toNat - 48)) 0
    let value : Int := if isNegative then max (-n) (-(2 ^ 63)) else min n (2 ^ 63 - 1)
    (value, text.drop digits.length)

/-- The words of a line, for `word` already read. -/
def splitWords : Bytes → Bytes → List Bytes
  | word, [] => if word = [] then [] else [word]
  | word, c :: line =>
    if c = space then
      if word = [] then splitWords [] line else word :: splitWords [] line
    else splitWords (word ++ [c]) line

/-- What `while (p < end && *p != '\n') p++` passes over, and what is left. -/
def line (str : Bytes) : Bytes × Bytes := (str.takeWhile (· ≠ newline), str.dropWhile (· ≠ newline))

/-- The header of a document: the hops, and the domain that the URLs were found on. -/
structure DocHeader where
  hops : Int
  domainHops : Int
  domain : Bytes

def requestFor (h : DocHeader) (url : Bytes) (anchorWords : List Bytes) : Request :=
  let dhop := if extractDomain url ≠ h.domain then 1 else 0
  ⟨url, anchorWords, 1, UInt16.ofInt (h.hops + 1), UInt16.ofInt (h.domainHops + dhop)⟩

/-- The links of a document, up to `</doc>`: the requests, what is left, and whether it ended
well. Every turn takes a byte or more. The second check for a line `</doc>` never succeeds: the
turn has begun with the first one. -/
def readLinks (h : DocHeader) : Nat → Bytes → List Request × Bytes × Bool
  | 0, p => ([], p, true)
  | turns + 1, p =>
    if p.length < 6 ∨ startsWith p (ascii "</doc>") then ([], p, true)
    else if p.head? = some newline then readLinks h turns (p.drop 1)
    else
      let (rawUrl, p) := line p
      if p = [] then ([], p, false)
      else
        let url := normalizeUrl rawUrl
        let (text, p) := line (p.drop 1)
        if url = [] then readLinks h turns (p.drop 1)
        else if p = [] then ([], p, false)
        else
          let (requests, p, ok) := readLinks h turns (p.drop 1)
          (requestFor h url (splitWords [] text) :: requests, p, ok)

/-- `<doc>`, the hops and the domain. -/
def readHeader (p : Bytes) : Option (DocHeader × Bytes) :=
  if ¬startsWith p (ascii "<doc>") then none
  else
    let p := p.drop 6
    if p = [] then none
    else
      let (hops, p) := strtol p
      let (domainHops, p) := strtol p
      let p := p.drop 1
      if p = [] then none
      else
        let (domain, p) := line p
        if p = [] then none else some (⟨hops, domainHops, domain⟩, p.drop 1)

/-- The documents of a batch: the requests, and what `add_urls` returns. -/
def readDocs (urls : Bytes) : Nat → Bytes → List Request × Bool
  | 0, _ => ([], true)
  | turns + 1, p =>
    if p = [] then ([], true)
    else
      match readHeader p with
      | none => ([], false)
      | some (h, p) =>
        match readLinks h (p.length + 1) p with
        | (requests, _, false) => (requests, false)
        | (requests, p, true) =>
          if p.length < 6 then
            let read := urls.take (urls.length - p.length)
            (requests, read.drop (read.length - 7) = ascii "</doc>\n")
          else
            let (more, ok) := readDocs urls turns (p.drop 7)
            (requests ++ more, ok)

/-- `add_urls` of an initialized buffer. The requests go on to one buffer per machine, each in
this order. -/
def addUrls (urls : Bytes) : List Request × Bool := readDocs urls (urls.length + 1) urls

/-! ## The writer -/

/-- What the parser does with the link data of a page. A word is pushed inside an anchor only,
and `</a>` anywhere. -/
inductive Step where
  | href (url : Bytes)
  | word (word : Bytes)
  | close
  | embed (url : Bytes)
  | flush
  deriving DecidableEq

/-- The batches so far and the data of the one that is being filled. -/
def step (header : Bytes) (b : BufferArray) : Step → BufferArray
  | .href url => b.append url newline
  | .word word => b.append word space
  | .close => b.append [] newline
  | .embed url => b.append url newline
  | .flush => ⟨header, b.sent ++ [b.data ++ ascii "\n</doc>\n"]⟩

/-- The batches of a page. -/
def batches (header : Bytes) (steps : List Step) : List Bytes :=
  let b := steps.foldl (step header) ⟨header, []⟩
  b.sent ++ [(b.append (ascii "</doc>") newline).data]

/-! ## The links of a page -/

/-- The words up to the next `</a>` or the next anchor. -/
def wordsAhead : List Step → List Bytes
  | [] => []
  | .word word :: steps => word :: wordsAhead steps
  | .embed _ :: steps => wordsAhead steps
  | .flush :: steps => wordsAhead steps
  | .close :: _ => []
  | .href _ :: _ => []

/-- The links, each with its own anchor words. -/
def linksOf : List Step → List (Bytes × List Bytes)
  | [] => []
  | .href url :: steps => (url, wordsAhead steps) :: linksOf steps
  | .embed url :: steps => (url, []) :: linksOf steps
  | .word _ :: steps => linksOf steps
  | .close :: steps => linksOf steps
  | .flush :: steps => linksOf steps

/-- Where the reader is: before a URL, or on the line after the URL of an anchor or an embed. -/
inductive Place where
  | fresh | anchor | embed
  deriving DecidableEq

/-- What may come at a place. A URL may come only after a `</a>` or a flush has ended the line of
the URL before it, and a word only on the line of its own anchor. -/
def next : Place → Step → Option Place
  | .fresh, .href _ => some .anchor
  | .fresh, .embed _ => some .embed
  | .anchor, .word _ => some .anchor
  | _, .close => some .fresh
  | _, .flush => some .fresh
  | _, _ => none

def framed : Place → List Step → Bool
  | place, [] => place = .fresh
  | place, s :: steps =>
    match next place s with
    | some place => framed place steps
    | none => false

/-- Words come inside an anchor only. -/
def legal : Bool → List Step → Bool
  | _, [] => true
  | inA, .word _ :: steps => inA && legal inA steps
  | _, .href _ :: steps => legal true steps
  | _, .close :: steps => legal false steps
  | inA, .embed _ :: steps => legal inA steps
  | inA, .flush :: steps => legal inA steps

/-- What the parser pushes: a URL that will be accepted, and a word without a space, which has no
colon before a `<` either. -/
def Step.Pushed : Step → Prop
  | .href url => normalizeUrl url ≠ []
  | .embed url => normalizeUrl url ≠ []
  | .word text => text ≠ [] ∧ space ∉ text ∧ newline ∉ text ∧ hasScheme text = false
  | .close => True
  | .flush => True

/-- No URL has a newline. -/
def Step.OneLine : Step → Prop
  | .href url => newline ∉ url
  | .embed url => newline ∉ url
  | _ => True

instance : DecidablePred Step.Pushed
  | .href _ => inferInstanceAs (Decidable (_ ≠ _))
  | .embed _ => inferInstanceAs (Decidable (_ ≠ _))
  | .word _ => inferInstanceAs (Decidable (_ ∧ _))
  | .close => inferInstanceAs (Decidable True)
  | .flush => inferInstanceAs (Decidable True)

instance : DecidablePred Step.OneLine
  | .href _ => inferInstanceAs (Decidable (_ ∉ _))
  | .embed _ => inferInstanceAs (Decidable (_ ∉ _))
  | .word _ => inferInstanceAs (Decidable True)
  | .close => inferInstanceAs (Decidable True)
  | .flush => inferInstanceAs (Decidable True)

/-- What `add_urls` asks for over all batches. -/
def requests (header : Bytes) (steps : List Step) : List (Bytes × List Bytes) :=
  (batches header steps).flatMap fun urls =>
    (addUrls urls).1.map fun r => (r.url, r.anchorText)

/-- A request for each link and nothing else, in the order of the links: its normalised URL, with
its own words. -/
def Agrees (header : Bytes) (steps : List Step) : Prop :=
  requests header steps =
    (linksOf steps).map fun (url, words) => (normalizeUrl url, words)

/-! ## Reading -/

/-- A URL with a scheme begins with an `h`, and is no end of a document. -/
theorem hasScheme_cons {url : Bytes} (hscheme : hasScheme url = true) :
    ∃ tail, url = 104 :: tail ∧ 6 ≤ tail.length := by
  unfold hasScheme at hscheme
  rw [Bool.or_eq_true, startsWith_iff, startsWith_iff] at hscheme
  rcases hscheme with ⟨rest, rfl⟩ | ⟨rest, rfl⟩
  · exact ⟨ascii "ttp://" ++ rest, rfl, by rw [List.length_append]; exact Nat.le_add_right _ _⟩
  · exact ⟨ascii "ttps://" ++ rest, rfl, by
      rw [List.length_append]
      exact Nat.le_trans (by decide) (Nat.le_add_right 7 _)⟩

section Reading

variable {h : DocHeader}

theorem length_line (p : Bytes) : (line p).2.length ≤ p.length :=
  (List.dropWhile_sublist _).length_le

theorem line_append {text : Bytes} (htext : newline ∉ text) (p : Bytes) :
    line (text ++ newline :: p) = (text, newline :: p) := by
  have hall : ∀ c ∈ text, decide (c ≠ newline) = true := fun c hc =>
    decide_eq_true fun heq => htext (heq ▸ hc)
  unfold line
  rw [List.takeWhile_append_of_pos hall, List.dropWhile_append_of_pos hall]
  simp

/-- More turns than bytes change nothing. -/
theorem readLinks_turns {n m : Nat} {p : Bytes} (hn : p.length < n) (hm : p.length < m) :
    readLinks h n p = readLinks h m p := by
  induction n generalizing m p with
  | zero => exact absurd hn (Nat.not_lt_zero _)
  | succ n ih =>
    obtain ⟨m, rfl⟩ := Nat.exists_eq_succ_of_ne_zero (Nat.ne_of_gt (Nat.zero_lt_of_lt hm))
    have hdrop : ∀ q : Bytes, q.length ≤ p.length → p ≠ [] →
        readLinks h n (q.drop 1) = readLinks h m (q.drop 1) := by
      intro q hq hnil
      have hpos := List.length_pos_iff.mpr hnil
      have hlen : (q.drop 1).length = q.length - 1 := List.length_drop
      exact ih (by omega) (by omega)
    have hline := length_line p
    have hrest := length_line ((line p).2.drop 1)
    have hdropped : ((line p).2.drop 1).length ≤ (line p).2.length := by
      rw [List.length_drop]
      exact Nat.sub_le _ _
    by_cases hnil : p = []
    · rw [hnil]
      rfl
    · unfold readLinks
      simp only [hdrop p (Nat.le_refl _) hnil,
        hdrop (line ((line p).2.drop 1)).2 (by omega) hnil]

/-- The requests from somewhere in a document on. -/
def requestsFrom (h : DocHeader) (urls : Bytes) (turns : Nat)
    (p : Bytes) : List Request :=
  match readLinks h (p.length + 1) p with
  | (requests, _, false) => requests
  | (requests, p, true) =>
    if p.length < 6 then requests
    else requests ++ (readDocs urls turns (p.drop 7)).1

variable {urls p : Bytes} {turns : Nat}

theorem requestsFrom_end :
    requestsFrom h urls turns (ascii "</doc>\n") = [] := by
  have hend : readLinks h 8 (ascii "</doc>\n") = ([], ascii "</doc>\n", true) := rfl
  have hdrop : (ascii "</doc>\n").drop 7 = [] := rfl
  have hnone : (readDocs urls turns []).1 = [] := by cases turns <;> rfl
  unfold requestsFrom
  rw [show (ascii "</doc>\n").length + 1 = 8 from rfl, hend]
  simp only [hdrop, hnone]
  rfl

theorem requestsFrom_newline (hp : 6 ≤ p.length) :
    requestsFrom h urls turns (newline :: p) =
      requestsFrom h urls turns p := by
  have hgo : ¬((newline :: p).length < 6 ∨ startsWith (newline :: p) (ascii "</doc>") = true) := by
    rintro (hshort | hdoc)
    · rw [List.length_cons] at hshort
      omega
    · revert hdoc
      simp [startsWith, ascii, newline]
  have hskip : readLinks h ((newline :: p).length + 1) (newline :: p) =
      readLinks h (p.length + 1) p := by
    rw [readLinks, if_neg hgo]
    rfl
  unfold requestsFrom
  rw [hskip]

theorem requestsFrom_link {url text : Bytes} (haccepted : normalizeUrl url ≠ [])
    (hurl : newline ∉ url) (htext : newline ∉ text) :
    requestsFrom h urls turns (url ++ newline :: (text ++ newline :: p)) =
      requestFor h (normalizeUrl url) (splitWords [] text) ::
        requestsFrom h urls turns p := by
  obtain ⟨tail, hcons, hlen⟩ := hasScheme_cons (hasScheme_of_normalizeUrl haccepted)
  generalize hstr : url ++ newline :: (text ++ newline :: p) = str
  have hgo : ¬(str.length < 6 ∨ startsWith str (ascii "</doc>") = true) := by
    rw [← hstr, hcons]
    rintro (hshort | hdoc)
    · rw [List.cons_append, List.length_cons, List.length_append] at hshort
      omega
    · revert hdoc
      simp [startsWith, ascii]
  have hhead : str.head? ≠ some newline := by
    rw [← hstr, hcons]
    exact fun heq => absurd (Option.some.inj heq) (by decide)
  have hfirst : line str = (url, newline :: (text ++ newline :: p)) := hstr ▸ line_append hurl _
  have hsecond : line (text ++ newline :: p) = (text, newline :: p) := line_append htext p
  have hturns : p.length + 1 ≤ str.length := by
    rw [← hstr, List.length_append, List.length_cons, List.length_append, List.length_cons]
    omega
  have hread : readLinks h (str.length + 1) str =
      ((requestFor h (normalizeUrl url) (splitWords [] text) ::
        (readLinks h (p.length + 1) p).1), (readLinks h (p.length + 1) p).2) := by
    rw [readLinks, if_neg hgo, if_neg hhead, hfirst]
    simp only [List.cons_ne_nil, if_false, List.drop_succ_cons, List.drop_zero, hsecond, haccepted]
    rw [readLinks_turns (Nat.lt_of_succ_le hturns) (Nat.lt_succ_self _)]
  unfold requestsFrom
  rw [hread]
  rcases readLinks h (p.length + 1) p with ⟨rs, q, ok⟩
  cases ok with
  | false => rfl
  | true =>
    simp only
    split <;> rfl

end Reading

/-! ## The batches -/

/-- The rest of a batch, and the later batches without their headers. -/
def texts : List Step → Bytes × List Bytes
  | [] => (ascii "</doc>\n", [])
  | .href url :: steps => (url ++ newline :: (texts steps).1, (texts steps).2)
  | .word word :: steps => (word ++ space :: (texts steps).1, (texts steps).2)
  | .close :: steps => (newline :: (texts steps).1, (texts steps).2)
  | .embed url :: steps => (url ++ newline :: (texts steps).1, (texts steps).2)
  | .flush :: steps => (ascii "\n</doc>\n", (texts steps).1 :: (texts steps).2)

theorem append_data (b : BufferArray) (str : Bytes) {delim : UInt8} (h : delim ≠ NULL_DELIM) :
    b.append str delim = ⟨b.data ++ str ++ [delim], b.sent⟩ := by
  unfold BufferArray.append
  rw [if_neg h]

theorem foldl_step (header : Bytes) (steps : List Step) (b : BufferArray) :
    let done := steps.foldl (step header) b
    done.sent ++ [(done.append (ascii "</doc>") newline).data] =
      b.sent ++ (b.data ++ (texts steps).1) :: (texts steps).2.map (header ++ ·) := by
  induction steps generalizing b with
  | nil =>
    simp only [List.foldl_nil, append_data b _ newline_ne_null, texts,
      List.map_nil, List.append_assoc]
    rfl
  | cons s steps ih =>
    simp only [List.foldl_cons] at ih ⊢
    rw [ih]
    cases s with
    | flush => simp [step, texts]
    | href url => simp [step, texts, append_data b _ newline_ne_null]
    | word word => simp [step, texts, append_data b _ space_ne_null]
    | close => simp [step, texts, append_data b _ newline_ne_null]
    | embed url => simp [step, texts, append_data b _ newline_ne_null]

theorem batches_eq (header : Bytes) (steps : List Step) :
    batches header steps = (header ++ (texts steps).1) :: (texts steps).2.map (header ++ ·) := by
  unfold batches
  exact foldl_step header steps ⟨header, []⟩

theorem length_texts (steps : List Step) : 6 ≤ (texts steps).1.length := by
  induction steps with
  | nil => decide
  | cons s steps ih =>
    cases s with
    | flush => exact (show 6 ≤ (ascii "\n</doc>\n").length by decide)
    | _ => simp only [texts, List.length_append, List.length_cons]; omega

/-! ### The header of a batch -/

theorem isDigit_toString (n : Nat) : ∀ c ∈ ascii (toString n), isDigit c = true := by
  intro c hc
  obtain ⟨x, hx, rfl⟩ := List.mem_map.mp hc
  rw [Nat.toString_eq_repr, Nat.toList_repr] at hx
  have hdigit := Nat.isDigit_of_mem_toDigits (by decide) (by decide) hx
  unfold Char.isDigit at hdigit
  rw [Bool.and_eq_true, decide_eq_true_eq, decide_eq_true_eq] at hdigit
  have hlow : 48 ≤ x.toNat := hdigit.1
  have hhigh : x.toNat ≤ 57 := hdigit.2
  unfold isDigit
  rw [Bool.and_eq_true, decide_eq_true_eq, decide_eq_true_eq, UInt8.le_iff_toNat_le,
    UInt8.le_iff_toNat_le, UInt8.toNat_ofNat']
  exact ⟨by simp; omega, by simp; omega⟩

theorem ascii_toString_ne_nil (n : Nat) : ascii (toString n) ≠ [] := by
  unfold ascii
  rw [Nat.toString_eq_repr, Nat.toList_repr]
  exact fun h => Nat.toDigits_ne_nil (List.map_eq_nil_iff.mp h)

theorem not_isspace_of_isDigit {c : UInt8} (hc : isDigit c = true) :
    isspace c = false ∧ c ≠ 45 ∧ c ≠ 43 := by
  unfold isDigit at hc
  unfold isspace
  rw [Bool.and_eq_true, decide_eq_true_eq, decide_eq_true_eq, UInt8.le_iff_toNat_le,
    UInt8.le_iff_toNat_le] at hc
  have hlow : 48 ≤ c.toNat := hc.1
  have hne : ∀ d : UInt8, d.toNat < 48 → c ≠ d := fun d hd heq => by rw [heq] at hlow; omega
  refine ⟨?_, hne _ (by decide), hne _ (by decide)⟩
  rw [Bool.or_eq_false_iff, Bool.and_eq_false_iff, decide_eq_false_iff_not,
    decide_eq_false_iff_not, decide_eq_false_iff_not]
  refine ⟨hne _ (by decide), .inr fun h => ?_⟩
  rw [UInt8.le_iff_toNat_le] at h
  exact absurd (Nat.le_trans hlow h) (by decide)

/-- A number is read up to the character after it. -/
theorem strtol_digits (gap : Bytes) {digits : Bytes} (hgap : ∀ c ∈ gap, isspace c = true)
    (hdigits : ∀ c ∈ digits, isDigit c = true) (hnil : digits ≠ []) {c : UInt8}
    (hc : isDigit c = false) (p : Bytes) :
    (strtol (gap ++ (digits ++ c :: p))).2 = c :: p := by
  obtain ⟨d, ds, rfl⟩ := List.exists_cons_of_ne_nil hnil
  obtain ⟨hspace, hminus, hplus⟩ := not_isspace_of_isDigit (hdigits d List.mem_cons_self)
  have htext : (gap ++ (d :: ds ++ c :: p)).dropWhile isspace = d :: ds ++ c :: p := by
    rw [List.dropWhile_append_of_pos hgap, List.cons_append, List.dropWhile_cons_of_neg]
    rw [hspace]
    exact Bool.false_ne_true
  have htake : (d :: ds ++ c :: p).takeWhile isDigit = d :: ds := by
    rw [List.takeWhile_append_of_pos hdigits, List.takeWhile_cons_of_neg, List.append_nil]
    rw [hc]
    exact Bool.false_ne_true
  have hsign : ∀ sign : UInt8, d ≠ sign → (d :: ds ++ c :: p).head? ≠ some sign :=
    fun sign hne heq => hne (Option.some.inj heq)
  unfold strtol
  simp only [htext, hsign 45 hminus, hsign 43 hplus, or_self, if_false, htake, hnil]
  rw [List.drop_left]

theorem extractDomain_sublist (url : Bytes) : (extractDomain url).Sublist url := by
  have hdrop : ∀ (n : Nat) (str start : Bytes),
      (if startsWith str start = true then str.drop n else str).Sublist str := by
    intro n str start
    split
    · exact List.drop_sublist n str
    · exact List.Sublist.refl str
  unfold extractDomain
  refine (List.takeWhile_sublist _).trans ((hdrop _ _ _).trans ?_)
  split
  · exact List.drop_sublist 8 url
  · exact hdrop _ _ _

/-- What `add_urls` reads of the header of a page's batches. -/
theorem readHeader_linkHeader {page : HtmlParser} (hurl : newline ∉ page.url) (p : Bytes) :
    ∃ hops domainHops, readHeader (page.linkHeader ++ p) =
      some (⟨hops, domainHops, extractDomain page.url⟩, p) := by
  let hops := ascii (toString page.hops)
  let domainHops := ascii (toString page.domainHops)
  let domain := extractDomain page.url
  have hdomain : newline ∉ domain := fun hmem => hurl ((extractDomain_sublist _).subset hmem)
  let afterHops := space :: (domainHops ++ newline :: (domain ++ newline :: p))
  have heq : page.linkHeader ++ p = ascii "<doc>\n" ++ (hops ++ afterHops) := by
    unfold HtmlParser.linkHeader
    simp [hops, afterHops, domainHops, domain]
  have hfirst : (strtol (hops ++ afterHops)).2 = afterHops :=
    strtol_digits [] (fun _ hc => nomatch hc) (isDigit_toString _)
      (ascii_toString_ne_nil _) (by decide) _
  have hsecond : (strtol afterHops).2 = newline :: (domain ++ newline :: p) :=
    strtol_digits [space] (by simp [isspace, space]) (isDigit_toString _)
      (ascii_toString_ne_nil _) (by decide) _
  refine ⟨(strtol (hops ++ afterHops)).1, (strtol afterHops).1, ?_⟩
  rw [heq]
  unfold readHeader
  have hstart : startsWith (ascii "<doc>\n" ++ (hops ++ afterHops)) (ascii "<doc>") = true := rfl
  have hdrop : (ascii "<doc>\n" ++ (hops ++ afterHops)).drop 6 = hops ++ afterHops := rfl
  rw [hstart, hdrop]
  simp only [not_true_eq_false, if_false, hfirst, hsecond, List.drop_succ_cons, List.drop_zero,
    line_append hdomain, List.append_eq_nil_iff, List.cons_ne_nil, and_false, afterHops]
  rfl

/-! ## The reader over a page -/

/-- What is kept of a request. -/
def pairOf (r : Request) : Bytes × List Bytes := (r.url, r.anchorText)

/-- The batch that is being read: its header, all of it, and the turns that are left. -/
structure Batch where
  h : DocHeader
  urls : Bytes
  turns : Nat

/-- What is asked for from somewhere in a batch on, and in the batches after it. -/
def remaining (header : Bytes) (b : Batch) (p : Bytes) (later : List Bytes) :
    List (Bytes × List Bytes) :=
  (requestsFrom b.h b.urls b.turns p).map pairOf ++
    later.flatMap fun p => (addUrls (header ++ p)).1.map pairOf

/-- The words of the line that the reader is on. -/
def lineWords (p : Bytes) : List Bytes := splitWords [] (line p).1

def afterLine (p : Bytes) : Bytes := (line p).2.drop 1

/-- What is to be asked for. -/
def expected (steps : List Step) : List (Bytes × List Bytes) :=
  (linksOf steps).map fun (url, words) => (normalizeUrl url, words)

/-- The reader at a place does what it should. No words of an anchor are left when it is not on
the line of the anchor. -/
def Matches (header : Bytes) (b : Batch) (steps : List Step) : Place → Prop
  | .fresh => remaining header b (texts steps).1 (texts steps).2 = expected steps ∧
      wordsAhead steps = []
  | .anchor => lineWords (texts steps).1 = wordsAhead steps ∧
      remaining header b (afterLine (texts steps).1) (texts steps).2 = expected steps
  | .embed => lineWords (texts steps).1 = [] ∧
      remaining header b (afterLine (texts steps).1) (texts steps).2 = expected steps ∧
      wordsAhead steps = []

theorem newline_mem_texts (steps : List Step) : newline ∈ (texts steps).1 := by
  induction steps with
  | nil => decide
  | cons s steps ih =>
    cases s with
    | flush => exact (show newline ∈ ascii "\n</doc>\n" by decide)
    | word word => exact List.mem_append_right _ (List.mem_cons_of_mem _ ih)
    | close => exact List.mem_cons_self
    | _ => exact List.mem_append_right _ List.mem_cons_self

theorem lineWords_append {text : Bytes} (htext : newline ∉ text) (p : Bytes) :
    lineWords (text ++ newline :: p) = splitWords [] text := by
  unfold lineWords
  rw [line_append htext]

theorem afterLine_append {text : Bytes} (htext : newline ∉ text) (p : Bytes) :
    afterLine (text ++ newline :: p) = p := by
  unfold afterLine
  rw [line_append htext]
  rfl

section Lines

variable {header : Bytes} {b : Batch}

theorem remaining_url {url p : Bytes} (haccepted : normalizeUrl url ≠ []) (hurl : newline ∉ url)
    (hp : newline ∈ p) (later : List Bytes) :
    remaining header b (url ++ newline :: p) later =
      (normalizeUrl url, lineWords p) :: remaining header b (afterLine p) later := by
  obtain ⟨text, rest, rfl, htext⟩ := List.eq_append_cons_of_mem hp
  unfold remaining
  rw [requestsFrom_link haccepted hurl htext, lineWords_append htext, afterLine_append htext]
  rfl

theorem remaining_newline (steps : List Step) (later : List Bytes) :
    remaining header b (newline :: (texts steps).1) later =
      remaining header b (texts steps).1 later := by
  unfold remaining
  rw [requestsFrom_newline (length_texts steps)]

theorem remaining_end (later : List Bytes) :
    remaining header b (ascii "</doc>\n") later =
      later.flatMap fun p => (addUrls (header ++ p)).1.map pairOf := by
  unfold remaining
  rw [requestsFrom_end]
  rfl

/-- A batch begins with its header. -/
theorem exists_addUrls {page : HtmlParser} (hurl : newline ∉ page.url) (p : Bytes) :
    ∃ b : Batch, (addUrls (page.linkHeader ++ p)).1 = requestsFrom b.h b.urls b.turns p := by
  obtain ⟨hops, domainHops, hheader⟩ := readHeader_linkHeader hurl p
  let urls := page.linkHeader ++ p
  refine ⟨⟨⟨hops, domainHops, extractDomain page.url⟩, urls, urls.length⟩, ?_⟩
  have hnil : page.linkHeader ++ p ≠ [] := by
    unfold HtmlParser.linkHeader
    exact fun h => absurd (congrArg List.length h) (by simp)
  unfold addUrls requestsFrom
  rw [readDocs, if_neg hnil, hheader]
  simp only [urls]
  rcases readLinks _ _ p with ⟨requests, q, ok⟩
  cases ok with
  | false => rfl
  | true =>
    simp only
    split <;> rfl

end Lines

/-! ### Words -/

theorem splitWords_append {word : Bytes} (hspace : space ∉ word) (start line : Bytes) :
    splitWords start (word ++ line) = splitWords (start ++ word) line := by
  induction word generalizing start with
  | nil => rw [List.nil_append, List.append_nil]
  | cons c word ih =>
    have hc : c ≠ space := fun heq => hspace (heq ▸ List.mem_cons_self)
    rw [List.cons_append, splitWords, if_neg hc,
      ih (fun hmem => hspace (List.mem_cons_of_mem _ hmem))]
    simp

theorem splitWords_space {word : Bytes} (hnil : word ≠ []) (line : Bytes) :
    splitWords word (space :: line) = word :: splitWords [] line := by
  rw [splitWords, if_pos rfl, if_neg hnil]

/-- The first word of a URL has its scheme. -/
theorem splitWords_url {url : Bytes} (hscheme : hasScheme url = true) :
    ∃ word words, splitWords [] url = word :: words ∧ hasScheme word = true := by
  have hgo : ∀ start rest : Bytes, space ∉ start → start ≠ [] → ∃ more words,
      splitWords [] (start ++ rest) = (start ++ more) :: words := by
    intro start rest hspace hnil
    by_cases hrest : space ∈ rest
    · obtain ⟨more, tail, rfl, hmore⟩ := List.eq_append_cons_of_mem hrest
      refine ⟨more, splitWords [] tail, ?_⟩
      rw [splitWords_append hspace, splitWords_append hmore, List.nil_append]
      exact splitWords_space (fun h => hnil (List.append_eq_nil_iff.mp h).1) tail
    · have hall : space ∉ start ++ rest := fun h => (List.mem_append.mp h).elim hspace hrest
      have heq := splitWords_append hall [] []
      rw [List.append_nil, List.nil_append, splitWords,
        if_neg (fun h => hnil (List.append_eq_nil_iff.mp h).1)] at heq
      exact ⟨rest, [], heq⟩
  unfold hasScheme at hscheme
  rw [Bool.or_eq_true, startsWith_iff, startsWith_iff] at hscheme
  rcases hscheme with ⟨rest, rfl⟩ | ⟨rest, rfl⟩
  · obtain ⟨more, words, heq⟩ := hgo (ascii "http://") rest (by decide) (by decide)
    refine ⟨_, words, heq, ?_⟩
    unfold hasScheme
    rw [Bool.or_eq_true, startsWith_iff]
    exact .inl (List.prefix_append _ _)
  · obtain ⟨more, words, heq⟩ := hgo (ascii "https://") rest (by decide) (by decide)
    refine ⟨_, words, heq, ?_⟩
    unfold hasScheme
    rw [Bool.or_eq_true, startsWith_iff, startsWith_iff]
    exact .inr (List.prefix_append _ _)

theorem lineWords_word {word p : Bytes} (hpushed : (Step.word word).Pushed) :
    lineWords (word ++ space :: p) = word :: lineWords p ∧
      afterLine (word ++ space :: p) = afterLine p := by
  obtain ⟨hnil, hspace, hnewline, -⟩ := hpushed
  have hline : line (word ++ space :: p) = (word ++ space :: (line p).1, (line p).2) := by
    have hall : ∀ c ∈ word, decide (c ≠ newline) = true := fun c hc =>
      decide_eq_true fun heq => hnewline (heq ▸ hc)
    unfold line
    rw [List.takeWhile_append_of_pos hall, List.dropWhile_append_of_pos hall,
      List.takeWhile_cons_of_pos (by decide), List.dropWhile_cons_of_pos (by decide)]
  unfold lineWords afterLine
  rw [hline, splitWords_append hspace, List.nil_append, splitWords_space hnil]
  exact ⟨rfl, rfl⟩

/-- When the URL of a link stands on the line of another one, the words are not those of that
other one. -/
theorem lineWords_url {url p : Bytes} (haccepted : normalizeUrl url ≠ []) (hurl : newline ∉ url)
    (words : List Bytes) (hwords : ∀ word ∈ words, hasScheme word = false) :
    lineWords (url ++ newline :: p) ≠ words := by
  obtain ⟨word, more, heq, hscheme⟩ := splitWords_url (hasScheme_of_normalizeUrl haccepted)
  rw [lineWords_append hurl, heq]
  rintro rfl
  rw [hwords word List.mem_cons_self] at hscheme
  exact Bool.false_ne_true hscheme

theorem lineWords_end : lineWords (ascii "</doc>\n") ≠ [] := by decide

/-- The words that are pushed have no scheme. -/
theorem hasScheme_of_wordsAhead {steps : List Step} (hpushed : ∀ s ∈ steps, s.Pushed) :
    ∀ word ∈ wordsAhead steps, hasScheme word = false := by
  induction steps with
  | nil => exact fun _ hmem => nomatch hmem
  | cons s steps ih =>
    have hsteps := ih fun s hs => hpushed s (List.mem_cons_of_mem _ hs)
    cases s with
    | word text =>
      rintro word hmem
      rcases List.mem_cons.mp hmem with rfl | hmem
      · exact (hpushed _ List.mem_cons_self).2.2.2
      · exact hsteps word hmem
    | embed url => exact hsteps
    | flush => exact hsteps
    | close => exact fun _ hmem => nomatch hmem
    | href url => exact fun _ hmem => nomatch hmem

theorem wordsAhead_of_legal {steps : List Step} (hlegal : legal false steps = true) :
    wordsAhead steps = [] := by
  induction steps with
  | nil => rfl
  | cons s steps ih =>
    cases s with
    | word text => exact absurd hlegal Bool.false_ne_true
    | embed url => exact ih hlegal
    | flush => exact ih hlegal
    | close => rfl
    | href url => rfl

/-! ### One step -/

section Steps

variable {header : Bytes} {b : Batch} {steps : List Step} {place : Place}

theorem matches_nil : Matches header b [] place ↔ place = .fresh := by
  cases place with
  | fresh =>
    refine iff_of_true ⟨?_, rfl⟩ rfl
    exact remaining_end []
  | anchor => exact iff_of_false (fun h => lineWords_end h.1) (by decide)
  | embed => exact iff_of_false (fun h => lineWords_end h.1) (by decide)

theorem matches_href {url : Bytes} (haccepted : normalizeUrl url ≠ []) (hurl : newline ∉ url) :
    Matches header b (.href url :: steps) place ↔
      place = .fresh ∧ Matches header b steps .anchor := by
  cases place with
  | fresh =>
    have hread := @remaining_url header b _ _ haccepted hurl (newline_mem_texts steps)
      (texts steps).2
    have hexpected : expected (.href url :: steps) =
        (normalizeUrl url, wordsAhead steps) :: expected steps := rfl
    unfold Matches
    simp only [texts, hread, hexpected, List.cons.injEq, Prod.mk.injEq, true_and]
    exact and_iff_left rfl
  | anchor =>
    refine iff_of_false (fun h => ?_) (fun h => absurd h.1 (by decide))
    exact lineWords_url haccepted hurl [] (fun _ hmem => nomatch hmem) h.1
  | embed =>
    refine iff_of_false (fun h => ?_) (fun h => absurd h.1 (by decide))
    exact lineWords_url haccepted hurl [] (fun _ hmem => nomatch hmem) h.1

theorem matches_embed {url : Bytes} (haccepted : normalizeUrl url ≠ []) (hurl : newline ∉ url)
    (hwords : ∀ word ∈ wordsAhead steps, hasScheme word = false) :
    Matches header b (.embed url :: steps) place ↔
      place = .fresh ∧ Matches header b steps .embed := by
  cases place with
  | fresh =>
    have hread := @remaining_url header b _ _ haccepted hurl (newline_mem_texts steps)
      (texts steps).2
    have hexpected : expected (.embed url :: steps) = (normalizeUrl url, []) :: expected steps :=
      rfl
    unfold Matches
    simp only [texts, hread, hexpected, List.cons.injEq, Prod.mk.injEq, true_and, and_assoc]
    exact Iff.rfl
  | anchor =>
    refine iff_of_false (fun h => ?_) (fun h => absurd h.1 (by decide))
    exact lineWords_url haccepted hurl _ hwords h.1
  | embed =>
    refine iff_of_false (fun h => ?_) (fun h => absurd h.1 (by decide))
    exact lineWords_url haccepted hurl [] (fun _ hmem => nomatch hmem) h.1

theorem matches_word {word : Bytes} (hpushed : (Step.word word).Pushed) :
    Matches header b (.word word :: steps) place ↔
      place = .anchor ∧ Matches header b steps .anchor := by
  obtain ⟨hwords, hafter⟩ := @lineWords_word _ (texts steps).1 hpushed
  cases place with
  | fresh =>
    exact iff_of_false (fun h => List.cons_ne_nil _ _ h.2) (fun h => absurd h.1 (by decide))
  | anchor =>
    have hexpected : expected (.word word :: steps) = expected steps := rfl
    unfold Matches
    simp only [texts, hwords, hafter, hexpected, wordsAhead, List.cons.injEq, true_and]
  | embed =>
    refine iff_of_false (fun h => List.cons_ne_nil _ _ h.2.2) (fun h => absurd h.1 (by decide))

theorem matches_close (hwords : wordsAhead steps = []) :
    Matches header b (.close :: steps) place ↔ Matches header b steps .fresh := by
  have hexpected : expected (.close :: steps) = expected steps := rfl
  cases place with
  | fresh =>
    unfold Matches
    simp only [texts, remaining_newline, hexpected, hwords, wordsAhead]
  | anchor =>
    unfold Matches
    simp only [hwords, and_true]
    exact and_iff_right rfl
  | embed =>
    unfold Matches
    rw [hwords]
    exact and_iff_right rfl

/-- The next batch begins before a URL. -/
theorem matches_flush {page : HtmlParser} (hurl : newline ∉ page.url) :
    ∃ next : Batch, Matches page.linkHeader b (.flush :: steps) place ↔
      Matches page.linkHeader next steps .fresh := by
  obtain ⟨next, hnext⟩ := exists_addUrls hurl (texts steps).1
  refine ⟨next, ?_⟩
  have hexpected : expected (.flush :: steps) = expected steps := rfl
  have hremaining : remaining page.linkHeader b (ascii "</doc>\n") (texts (.flush :: steps)).2 =
      remaining page.linkHeader next (texts steps).1 (texts steps).2 := by
    rw [remaining_end]
    unfold remaining
    rw [← hnext]
    rfl
  cases place with
  | fresh =>
    have hskip : remaining page.linkHeader b (texts (.flush :: steps)).1
        (texts (.flush :: steps)).2 =
          remaining page.linkHeader b (ascii "</doc>\n") (texts (.flush :: steps)).2 :=
      @remaining_newline page.linkHeader b [] _
    unfold Matches
    rw [hskip, hremaining, hexpected]
    rfl
  | anchor =>
    have hwords : lineWords (texts (.flush :: steps)).1 = [] := rfl
    have hafter : afterLine (texts (.flush :: steps)).1 = ascii "</doc>\n" := rfl
    unfold Matches
    rw [hwords, hafter, hremaining, hexpected]
    exact ⟨fun h => ⟨h.2, h.1.symm⟩, fun h => ⟨h.2.symm, h.1⟩⟩
  | embed =>
    have hafter : afterLine (texts (.flush :: steps)).1 = ascii "</doc>\n" := rfl
    unfold Matches
    rw [hafter, hremaining, hexpected]
    exact and_iff_right rfl

end Steps

/-! ### All steps -/

/-- The reader does what it should on exactly the framed pages. -/
theorem matches_iff {page : HtmlParser} (hurl : newline ∉ page.url) {steps : List Step}
    (hpushed : ∀ s ∈ steps, s.Pushed) (honeLine : ∀ s ∈ steps, s.OneLine) {inA : Bool}
    (hlegal : legal inA steps = true) (b : Batch) (place : Place) :
    Matches page.linkHeader b steps place ↔ framed place steps = true := by
  induction steps generalizing inA b place with
  | nil =>
    rw [matches_nil]
    unfold framed
    exact decide_eq_true_iff.symm
  | cons s steps ih =>
    have hp := hpushed s List.mem_cons_self
    have ho := honeLine s List.mem_cons_self
    have hps := fun s hs => hpushed s (List.mem_cons_of_mem _ hs)
    have hos := fun s hs => honeLine s (List.mem_cons_of_mem _ hs)
    cases s with
    | href url =>
      rw [matches_href hp ho, ih hps hos (show legal true steps = true from hlegal)]
      cases place <;> simp [framed, next]
    | word text =>
      have hlegal := (Bool.and_eq_true_iff.mp hlegal).2
      rw [matches_word hp, ih hps hos hlegal]
      cases place <;> simp [framed, next]
    | embed url =>
      rw [matches_embed hp ho (hasScheme_of_wordsAhead hps),
        ih hps hos (show legal inA steps = true from hlegal)]
      cases place <;> simp [framed, next]
    | close =>
      rw [matches_close (wordsAhead_of_legal hlegal),
        ih hps hos (show legal false steps = true from hlegal)]
      cases place <;> rfl
    | flush =>
      obtain ⟨next, hnext⟩ := @matches_flush b steps place page hurl
      rw [hnext, ih hps hos (show legal inA steps = true from hlegal)]
      cases place <;> rfl

/-- A page asks for its links, each with its own words, exactly when between the URL of a link and
the next URL or the end there is a `</a>` or a flush, and every word comes after the URL of its
anchor with no flush and no embed in between. -/
theorem agrees_iff_framed {page : HtmlParser} (hurl : newline ∉ page.url) {steps : List Step}
    (hpushed : ∀ s ∈ steps, s.Pushed) (honeLine : ∀ s ∈ steps, s.OneLine)
    (hlegal : legal false steps = true) :
    Agrees page.linkHeader steps ↔ framed .fresh steps = true := by
  obtain ⟨b, hb⟩ := exists_addUrls hurl (texts steps).1
  have hrequests : requests page.linkHeader steps =
      remaining page.linkHeader b (texts steps).1 (texts steps).2 := by
    unfold requests remaining
    rw [batches_eq, List.flatMap_cons, hb, List.flatMap_map]
    rfl
  rw [← matches_iff hurl hpushed honeLine hlegal b .fresh]
  unfold Agrees Matches
  rw [hrequests]
  exact (and_iff_left (wordsAhead_of_legal hlegal)).symm

/-- The steps of `<a href="https://b.org/p">x</a><embed src="https://a.com/e">` with a flush at
the end. -/
theorem agrees_of_closed_anchor :
    Agrees (HtmlParser.ofPage 0 0 (ascii "https://c.net/")).linkHeader
      [.href (ascii "https://b.org/p"), .word (ascii "x"), .close, .embed (ascii "https://a.com/e"),
        .flush] :=
  (agrees_iff_framed (by decide) (by decide +kernel) (by decide) (by decide)).mpr (by decide)

/-- The URL after an embed is read as its anchor text, and the word of the anchor as a URL. -/
theorem embed_takes_the_next_url :
    let page := HtmlParser.ofPage 0 0 (ascii "https://c.net/")
    let text := ascii "<embed src=\"https://a.com/e\"><a href=\"https://b.org/p\">x</a>"
    let steps := [Step.embed (ascii "https://a.com/e"), .href (ascii "https://b.org/p"),
      .word (ascii "x"), .close]
    (parsePage (fun _ => true) (pageOf text []) 0 0 page.url).links.sent =
        batches page.linkHeader steps ∧
      (∀ s ∈ steps, s.Pushed) ∧ legal false steps = true ∧
      requests page.linkHeader steps =
        [(ascii "https://a.com/e", [ascii "https://b.org/p"])] ∧
      ¬Agrees page.linkHeader steps := by
  have hrequests : requests (HtmlParser.ofPage 0 0 (ascii "https://c.net/")).linkHeader
      [.embed (ascii "https://a.com/e"), .href (ascii "https://b.org/p"), .word (ascii "x"),
        .close] = [(ascii "https://a.com/e", [ascii "https://b.org/p"])] := by decide +kernel
  refine ⟨by decide +kernel, by decide +kernel, by decide, hrequests, ?_⟩
  intro hagrees
  have hlength := congrArg List.length (hrequests.symm.trans hagrees)
  exact absurd hlength (by decide)

/-! ## The parser's buffer -/

/-- What a step pushes into the buffer of the parser. -/
def push (header : Bytes) (b : BufferArray) : Step → BufferArray
  | .href url => pushLink header url newline b
  | .word word => pushLink header word space b
  | .close => pushLink header [] newline b
  | .embed url => pushLink header url newline b
  | .flush => flushLinks header b

/-- The text of a step fits into a buffer with no more than the header in it. -/
def Step.Fits (header : Bytes) : Step → Prop
  | .href url => header.length + url.length + 10 < MAX_LINK_MEMORY
  | .word text => header.length + text.length + 10 < MAX_LINK_MEMORY
  | .close => True
  | .embed url => header.length + url.length + 10 < MAX_LINK_MEMORY
  | .flush => True

/-- The buffer has a header and room for the end of a document. -/
def HasRoom (b : BufferArray) : Prop := 0 < b.data.length ∧ b.data.length + 8 ≤ MAX_LINK_MEMORY

section Buffer

variable {header : Bytes} {b : BufferArray}

theorem flushLinks_eq (hroom : HasRoom b) : flushLinks header b = step header b .flush := by
  unfold flushLinks pushDocend step
  rw [if_pos hroom.1, if_pos hroom.2]

/-- A push is an append, with a flush before it when the buffer is full. -/
theorem pushLink_eq {str : Bytes} {delim : UInt8} (hroom : HasRoom b) (hheader : header ≠ [])
    (hfits : header.length + str.length + 10 < MAX_LINK_MEMORY) :
    HasRoom (pushLink header str delim b) ∧
      (pushLink header str delim b = b.append str delim ∨
        pushLink header str delim b = (step header b .flush).append str delim) := by
  have happend : ∀ b : BufferArray, 0 < b.data.length →
      b.data.length + str.length + 10 < MAX_LINK_MEMORY → HasRoom (b.append str delim) := by
    intro b hpos hlen
    have hdelim : (if delim = NULL_DELIM then [] else [delim]).length ≤ 1 := by split <;> simp
    unfold HasRoom BufferArray.append
    simp only [List.length_append]
    omega
  have hpos := List.length_pos_iff.mpr hheader
  unfold pushLink pushBack
  rw [if_neg (show ¬MAX_LINK_MEMORY < str.length by omega)]
  by_cases hfull : MAX_LINK_MEMORY ≤ b.data.length + str.length + 10
  · have hfresh : ¬MAX_LINK_MEMORY ≤ (step header b .flush).data.length + str.length + 10 :=
      Nat.not_le_of_lt hfits
    rw [if_pos hfull, flushLinks_eq hroom]
    simp only [if_neg hfresh]
    exact ⟨happend _ hpos hfits, .inr trivial⟩
  · rw [if_neg hfull]
    exact ⟨happend _ hroom.1 (Nat.lt_of_not_le hfull), .inl rfl⟩

/-- The parser's buffer goes through the same steps, with flushes where it was full. -/
theorem exists_flushes (hheader : header ≠ []) (hshort : header.length + 16 < MAX_LINK_MEMORY)
    {steps : List Step} (hfits : ∀ s ∈ steps, s.Fits header) (hroom : HasRoom b) :
    ∃ flushed : List Step, flushed.filter (· ≠ .flush) = steps.filter (· ≠ .flush) ∧
      steps.foldl (push header) b = flushed.foldl (step header) b ∧
      HasRoom (steps.foldl (push header) b) := by
  induction steps generalizing b with
  | nil => exact ⟨[], rfl, rfl, hroom⟩
  | cons s steps ih =>
    have hs := hfits s List.mem_cons_self
    have hgo : HasRoom (push header b s) ∧ (push header b s = step header b s ∨
        push header b s = step header (step header b .flush) s) := by
      cases s with
      | href url => exact pushLink_eq hroom hheader hs
      | word word => exact pushLink_eq hroom hheader hs
      | close => exact pushLink_eq hroom hheader (by rw [List.length_nil]; omega)
      | embed url => exact pushLink_eq hroom hheader hs
      | flush =>
        refine ⟨?_, .inl (flushLinks_eq hroom)⟩
        unfold push
        rw [flushLinks_eq hroom]
        exact ⟨List.length_pos_iff.mpr hheader, by unfold step; simp only; omega⟩
    obtain ⟨flushed, hfilter, hfold, hlast⟩ :=
      ih (fun s hs => hfits s (List.mem_cons_of_mem _ hs)) hgo.1
    rw [List.foldl_cons]
    rcases hgo.2 with heq | heq
    · refine ⟨s :: flushed, ?_, ?_, hlast⟩
      · rw [List.filter_cons, List.filter_cons, hfilter]
      · rw [hfold, heq, List.foldl_cons]
    · refine ⟨.flush :: s :: flushed, ?_, ?_, hlast⟩
      · rw [List.filter_cons_of_neg (by decide), List.filter_cons, List.filter_cons, hfilter]
      · rw [hfold, heq, List.foldl_cons, List.foldl_cons]

/-- The batches that the parser passes on are those of the steps with such flushes. -/
theorem exists_batches (hheader : header ≠ []) (hshort : header.length + 16 < MAX_LINK_MEMORY)
    {steps : List Step} (hfits : ∀ s ∈ steps, s.Fits header) :
    let b := pushLink header (ascii "</doc>") newline (steps.foldl (push header) ⟨header, []⟩)
    ∃ flushed : List Step, flushed.filter (· ≠ .flush) = steps.filter (· ≠ .flush) ∧
      b.sent ++ [b.data] = batches header flushed := by
  have hroom : HasRoom ⟨header, []⟩ := ⟨List.length_pos_iff.mpr hheader, by simp only; omega⟩
  obtain ⟨flushed, hfilter, hfold, hlast⟩ := exists_flushes hheader hshort hfits hroom
  have hend : header.length + (ascii "</doc>").length + 10 < MAX_LINK_MEMORY := hshort
  obtain ⟨-, hpush⟩ := @pushLink_eq header _ _ newline hlast hheader hend
  rw [hfold] at hpush
  rcases hpush with heq | heq
  · refine ⟨flushed, hfilter, ?_⟩
    simp only [hfold, heq]
    rfl
  · refine ⟨flushed ++ [.flush], ?_, ?_⟩
    · rw [List.filter_append, hfilter]
      simp
    · simp only [hfold, heq]
      unfold batches
      rw [List.foldl_append]
      rfl

end Buffer

end seamus.link_stream
