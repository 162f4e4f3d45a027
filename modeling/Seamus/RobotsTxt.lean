-- `RobotsTxt` of the parser: a robots.txt is read into groups of user agents and
-- directives, and a path is checked against the directives of all groups that apply.
import Seamus.QuickSort
import Seamus.UrlStore

open seamus.url_store

namespace seamus.robots_txt

/-- The bytes up to the first NUL: a `Utf8 *` names no more. -/
def cString (str : Bytes) : Bytes := str.takeWhile (· ≠ 0)

def slash : UInt8 := 47

def star : UInt8 := 42

def dollar : UInt8 := 36

def percent : UInt8 := 37

/-! ## URL decoding -/

/-- The value of a hex character, none for any other. -/
def hexLiteralCharacter (c : UInt8) : Option Nat :=
  if 48 ≤ c ∧ c ≤ 57 then some (c.toNat - 48)
  else if 97 ≤ c ∧ c ≤ 102 then some (c.toNat - 97 + 10)
  else if 65 ≤ c ∧ c ≤ 70 then some (c.toNat - 65 + 10)
  else none

/-- The byte of a `%xx`, unless the two are not hex characters or name a slash. -/
def hexByte (c d : UInt8) : Option UInt8 :=
  match hexLiteralCharacter c, hexLiteralCharacter d with
  | some i, some j => if i * 16 + j ≠ slash.toNat then some (UInt8.ofNat (i * 16 + j)) else none
  | _, _ => none

/-- A `%` with fewer than two characters after it is dropped, and they with it. -/
def urlDecode : Bytes → Bytes
  | [] => []
  | c :: path =>
    if c = percent then
      match path with
      | a :: d :: rest =>
        match hexByte a d with
        | some b => b :: urlDecode rest
        | none => percent :: urlDecode (a :: d :: rest)
      | _ => []
    else c :: urlDecode path

/-! ## Tokens and statements -/

inductive Permission where
  | allow | disallow
  deriving DecidableEq, Repr

inductive StatementType where
  | invalid
  | userAgent
  | permission (permission : Permission)
  | crawlDelay
  | sitemap
  deriving DecidableEq, Repr

/-- `user-agent:` -/
def userAgentString : Bytes := [117, 115, 101, 114, 45, 97, 103, 101, 110, 116, 58]

/-- `allow:` -/
def allowString : Bytes := [97, 108, 108, 111, 119, 58]

/-- `disallow:` -/
def disallowString : Bytes := [100, 105, 115, 97, 108, 108, 111, 119, 58]

/-- `crawl-delay:` -/
def crawlDelayString : Bytes := [99, 114, 97, 119, 108, 45, 100, 101, 108, 97, 121, 58]

/-- `sitemap:` -/
def sitemapString : Bytes := [115, 105, 116, 101, 109, 97, 112, 58]

/-- The text after the keyword. -/
def matchKeyword : Bytes → Bytes → Option Bytes
  | [], text => some text
  | _ :: _, [] => none
  | k :: keyword, c :: text => if tolower c ≠ k then none else matchKeyword keyword text

/-- The statement that starts here. The test of its first letter before each keyword is
part of `MatchKeyword`. -/
def identify (text : Bytes) : StatementType × Bytes :=
  match matchKeyword disallowString text with
  | some rest => (.permission .disallow, rest)
  | none =>
    match matchKeyword allowString text with
    | some rest => (.permission .allow, rest)
    | none =>
      match matchKeyword userAgentString text with
      | some rest => (.userAgent, rest)
      | none =>
        match matchKeyword crawlDelayString text with
        | some rest => (.crawlDelay, rest)
        | none =>
          match matchKeyword sitemapString text with
          | some rest => (.sitemap, rest)
          | none => (.invalid, text)

def isBlank (c : UInt8) : Bool := c = 32 || c = 9

def isLineEnd (c : UInt8) : Bool := c = 10 || c = 13

/-- The argument as the string it is used as, and the text after it. -/
def getArgument (text : Bytes) : Bytes × Bytes :=
  let text := text.dropWhile isBlank
  (cString (text.takeWhile fun c => !isBlank c && !isLineEnd c),
    text.dropWhile fun c => !isBlank c && !isLineEnd c)

/-- The loop of `NextLine` over white space and comments. Every turn takes a byte. -/
def skipBlank : Nat → Bytes → Bytes
  | 0, text => text
  | _ + 1, [] => []
  | turns + 1, c :: text =>
    if isLineEnd c || isBlank c then skipBlank turns text
    else if c = 35 then
      match (c :: text).dropWhile fun c => !isLineEnd c with
      | [] => []
      | e :: rest => skipBlank turns (if e = 10 then rest else e :: rest)
    else c :: text

def nextLine (text : Bytes) : Bytes :=
  let text := text.dropWhile fun c => !isLineEnd c
  skipBlank text.length text

/-- The loop of `GetStatement`. Every turn takes a byte. -/
def getStatementLoop : Nat → Bytes → StatementType × Bytes
  | 0, text => (.invalid, text)
  | turns + 1, text =>
    if text = [] then (.invalid, [])
    else
      match identify text with
      | (.invalid, text) => getStatementLoop turns (nextLine text)
      | (.sitemap, text) => getStatementLoop turns (nextLine (getArgument text).2)
      | found => found

def getStatement (text : Bytes) : StatementType × Bytes := getStatementLoop text.length text

/-! ## User agents and wildcards -/

def startsWithCi : Bytes → Bytes → Bool
  | [], _ => true
  | _ :: _, [] => false
  | x :: a, y :: b => tolower x = tolower y && startsWithCi a b

/-- Where `a` occurs in `b`, in any case. -/
def findSubstring (a : Bytes) : Bytes → Option Bytes
  | [] => if a = [] then some [] else none
  | y :: b => if startsWithCi a (y :: b) then some (y :: b) else findSubstring a b

structure UserAgent where
  name : Bytes
  matchAny : Bool
  deriving DecidableEq, Repr

def UserAgent.ofName (name : Bytes) : UserAgent := ⟨name, name = [star]⟩

def UserAgent.matchUser (u : UserAgent) (user : Bytes) : Bool := (findSubstring u.name user).isSome

structure Wildcard where
  wildcard : Bytes
  literalBytes : Nat
  endsInDollarSign : Bool
  deriving DecidableEq, Repr

/-- The loop of the constructor. -/
def Wildcard.scan : Bytes → Wildcard
  | [] => ⟨[], 0, false⟩
  | c :: str =>
    let literal := if c ≠ star then 1 else 0
    if c = dollar ∧ str = [] then ⟨[], literal, true⟩
    else
      let w := Wildcard.scan str
      ⟨c :: w.wildcard, literal + w.literalBytes, w.endsInDollarSign⟩

def dropSlash : Bytes → Bytes
  | [] => []
  | c :: str => if c = slash then str else c :: str

/-- The argument of a directive without its encoding and without an initial slash. -/
def patternOf (arg : Bytes) : Bytes := dropSlash (cString (urlDecode arg))

def Wildcard.ofArgument (arg : Bytes) : Wildcard := Wildcard.scan (patternOf arg)

/-- `Wildcard::Match` on what is left of the wildcard and of the path. -/
def wildcardMatch (endsInDollarSign : Bool) : Bytes → Bytes → Bool
  | [], path => !endsInDollarSign || path = []
  | c :: wildcard, path =>
    if c ≠ star then
      match path with
      | [] => false
      | d :: path => c = d && wildcardMatch endsInDollarSign wildcard path
    else if wildcard = [] then true
    else if wildcard.head? = some star then wildcardMatch endsInDollarSign wildcard path
    else path.tails.any fun suffix => suffix ≠ [] && wildcardMatch endsInDollarSign wildcard suffix

def Wildcard.matchPath (w : Wildcard) (path : Bytes) : Bool :=
  wildcardMatch w.endsInDollarSign w.wildcard path

def moreSpecific (a b : Wildcard) : Bool :=
  a.literalBytes > b.literalBytes ||
    (a.literalBytes = b.literalBytes && a.endsInDollarSign && !b.endsInDollarSign)

/-! ## Directives and rules -/

structure Directive where
  type : Permission
  wildcard : Wildcard
  deriving DecidableEq, Repr

def Directive.ofStatement (s : Permission × Bytes) : Directive := ⟨s.1, .ofArgument s.2⟩

def takesPriority (a b : Directive) : Bool :=
  moreSpecific a.wildcard b.wildcard ||
    (!moreSpecific b.wildcard a.wildcard && a.type = .allow && b.type = .disallow)

structure Rule where
  userAgents : List UserAgent
  directives : List Directive
  crawlDelay : Int

/-- The user agent of the rule that matches, and the directive for the path. -/
def Rule.matchPath (r : Rule) (user path : Bytes) : Option (UserAgent × Option Directive) :=
  (r.userAgents.find? fun ua => ua.matchUser user || ua.matchAny).map fun ua =>
    (ua, r.directives.find? fun d => d.wildcard.matchPath path)

/-- A rule as it stands in the file, with the arguments of its directives in their order. -/
structure Group where
  userAgents : List Bytes
  directives : List (Permission × Bytes)
  crawlDelay : Int

/-- What `AddUserAgent`, `AddDirective` and the sort at the end make of a group. -/
def Group.rule (g : Group) : Rule where
  userAgents := g.userAgents.map .ofName
  directives := (quick_sort.sort takesPriority (g.directives.map .ofStatement).toArray).toList
  crawlDelay := g.crawlDelay

/-! ## The file -/

/-- `atoi`, without the overflow that C leaves open. -/
def atoi (str : Bytes) : Int :=
  let str := str.dropWhile fun c => c = 32 || (9 ≤ c && c ≤ 13)
  let digits := fun str : Bytes => (str.takeWhile fun c => 48 ≤ c && c ≤ 57).foldl
    (fun n c => 10 * n + (c.toNat - 48 : Int)) 0
  match str with
  | 45 :: rest => -digits rest
  | 43 :: rest => digits rest
  | _ => digits str

/-- The loop over the user agents of a group: the names, and the statement after them. -/
def collectUserAgents : Nat → StatementType → Bytes → List Bytes × StatementType × Bytes
  | turns + 1, .userAgent, text =>
    let (name, text) := getArgument text
    let (type, text) := getStatement text
    let (names, rest) := collectUserAgents turns type text
    (name :: names, rest)
  | _, type, text => ([], type, text)

/-- The loop over the directives of a group. -/
def collectDirectives : Nat → Int → StatementType → Bytes →
    List (Permission × Bytes) × Int × StatementType × Bytes
  | turns + 1, crawlDelay, .permission permission, text =>
    let (arg, text) := getArgument text
    let (type, text) := getStatement text
    let (directives, rest) := collectDirectives turns crawlDelay type text
    ((permission, arg) :: directives, rest)
  | turns + 1, crawlDelay, .crawlDelay, text =>
    let (arg, text) := getArgument text
    let (type, text) := getStatement text
    collectDirectives turns (if atoi arg ≠ 0 then max (atoi arg) crawlDelay else crawlDelay) type text
  | _, crawlDelay, type, text => ([], crawlDelay, type, text)

/-- The loop over the groups. -/
def collectGroups : Nat → StatementType → Bytes → List Group
  | turns + 1, .userAgent, text =>
    let (names, type, text) := collectUserAgents (text.length + 1) .userAgent text
    let (directives, crawlDelay, type, text) := collectDirectives (text.length + 1) 0 type text
    ⟨names, directives, crawlDelay⟩ :: collectGroups turns type text
  | _, _, _ => []

/-- Everything up to the first user agent is skipped. -/
def skipToUserAgent : Nat → StatementType → Bytes → StatementType × Bytes
  | 0, type, text => (type, text)
  | turns + 1, type, text =>
    if text = [] then (type, text)
    else
      match getStatement text with
      | (.userAgent, text) => (.userAgent, text)
      | (type, text) => skipToUserAgent turns type (nextLine text)

def Utf8BOMString : Bytes := [0xef, 0xbb, 0xbf]

/-- The groups of a file. The variable `type` of the constructor starts without a value, and
keeps it when there is no text. -/
def parseGroups (uninitialized : StatementType) (robotsTxt : Bytes) : List Group :=
  let text := if Utf8BOMString.isPrefixOf robotsTxt then robotsTxt.drop 3 else robotsTxt
  let (type, text) := skipToUserAgent (text.length + 1) uninitialized text
  collectGroups (text.length + 1) type text

/-! ## The decision -/

structure BestMatch where
  directive : Directive
  rule : Rule
  agent : UserAgent

structure Found where
  best : Option BestMatch
  crawlDelay : Int

/-- One rule of the loop of `FindDirective`, with the path decoded. -/
def findStep (user path : Bytes) (found : Found) (r : Rule) : Found :=
  match r.matchPath user path with
  | some (agent, some d) =>
    let crawlDelay := max found.crawlDelay r.crawlDelay
    match found.best with
    | none => ⟨some ⟨d, r, agent⟩, crawlDelay⟩
    | some best =>
      if takesPriority d best.directive then ⟨some ⟨d, r, agent⟩, crawlDelay⟩
      else if !takesPriority best.directive d && !agent.matchAny && best.agent.matchAny then
        ⟨some ⟨d, r, agent⟩, crawlDelay⟩
      else ⟨some best, crawlDelay⟩
  | some (_, none) | none => found

def findDirective (rules : List Rule) (user path : Bytes) : Found :=
  rules.foldl (findStep user (cString (urlDecode path))) ⟨none, 0⟩

/-- Whether the path may be crawled, and the crawl delay that is reported with it. -/
def pathAllowed (rules : List Rule) (user path : Bytes) : Bool × Int :=
  let found := findDirective rules (cString user) (dropSlash (cString path))
  (match found.best with
    | none => true
    | some best => best.directive.type = .allow, found.crawlDelay)

end seamus.robots_txt
