-- `parser/HtmlTags.h`: the tags that the parser knows, and the search for one.
import Seamus.Basic

namespace seamus.html_tags

/-- `strncasecmp` of what stands at two places in memory. It stops at a zero byte. -/
def strncasecmp (a b : Nat → UInt8) : Nat → Ordering
  | 0 => .eq
  | n + 1 =>
    match compare (tolower (a 0)) (tolower (b 0)) with
    | .eq => if a 0 = 0 then .eq else strncasecmp (fun i => a (i + 1)) (fun i => b (i + 1)) n
    | order => order

/-- A literal in memory, with its final zero byte. -/
def literal (s : String) (i : Nat) : UInt8 := (ascii s).getD i 0

inductive DesiredAction where
  | ordinaryText | title | comment | discard | discardSection | anchor | base | embed
  deriving DecidableEq, Repr

def tagsRecognized : List (String × DesiredAction) :=
  [("!--", .comment), ("!doctype", .discard), ("a", .anchor), ("abbr", .discard),
    ("acronym", .discard), ("address", .discard), ("applet", .discard), ("area", .discard),
    ("article", .discard), ("aside", .discard), ("audio", .discard), ("b", .discard),
    ("base", .base), ("basefont", .discard), ("bdi", .discard), ("bdo", .discard),
    ("bgsound", .discard), ("big", .discard), ("blink", .discard), ("blockquote", .discard),
    ("body", .discard), ("br", .discard), ("button", .discard), ("canvas", .discard),
    ("caption", .discard), ("center", .discard), ("cite", .discard), ("code", .discard),
    ("col", .discard), ("colgroup", .discard), ("content", .discard), ("data", .discard),
    ("datalist", .discard), ("dd", .discard), ("del", .discard), ("details", .discard),
    ("dfn", .discard), ("dialog", .discard), ("dir", .discard), ("div", .discard),
    ("dl", .discard), ("dt", .discard), ("em", .discard), ("embed", .embed),
    ("fieldset", .discard), ("figcaption", .discard), ("figure", .discard), ("font", .discard),
    ("footer", .discard), ("form", .discard), ("frame", .discard), ("frameset", .discard),
    ("h1", .discard), ("h2", .discard), ("h3", .discard), ("h4", .discard), ("h5", .discard),
    ("h6", .discard), ("head", .discard), ("header", .discard), ("hgroup", .discard),
    ("hr", .discard), ("html", .discard), ("i", .discard), ("iframe", .discard),
    ("img", .discard), ("input", .discard), ("ins", .discard), ("isindex", .discard),
    ("kbd", .discard), ("keygen", .discard), ("label", .discard), ("legend", .discard),
    ("li", .discard), ("link", .discard), ("listing", .discard), ("main", .discard),
    ("map", .discard), ("mark", .discard), ("marquee", .discard), ("menu", .discard),
    ("menuitem", .discard), ("meta", .discard), ("meter", .discard), ("nav", .discard),
    ("nobr", .discard), ("noframes", .discard), ("noscript", .discard), ("object", .discard),
    ("ol", .discard), ("optgroup", .discard), ("option", .discard), ("output", .discard),
    ("p", .discard), ("param", .discard), ("picture", .discard), ("plaintext", .discard),
    ("pre", .discard), ("progress", .discard), ("q", .discard), ("rp", .discard),
    ("rt", .discard), ("rtc", .discard), ("ruby", .discard), ("s", .discard), ("samp", .discard),
    ("script", .discardSection), ("section", .discard), ("select", .discard),
    ("shadow", .discard), ("slot", .discard), ("small", .discard), ("source", .discard),
    ("spacer", .discard), ("span", .discard), ("strike", .discard), ("strong", .discard),
    ("style", .discardSection), ("sub", .discard), ("summary", .discard), ("sup", .discard),
    ("svg", .discardSection), ("table", .discard), ("tbody", .discard), ("td", .discard),
    ("template", .discard), ("textarea", .discard), ("tfoot", .discard), ("th", .discard),
    ("thead", .discard), ("time", .discard), ("title", .title), ("tr", .discard),
    ("track", .discard), ("tt", .discard), ("u", .discard), ("ul", .discard), ("var", .discard),
    ("video", .discard), ("wbr", .discard), ("xmp", .discard)]

/-- The loop of the search, on the tags from `l` to before `r`. Every turn makes it shorter. -/
def lookupLoop (name : Nat → UInt8) (len : Nat) : Nat → Nat → Nat → DesiredAction
  | 0, _, _ => .ordinaryText
  | turns + 1, l, r =>
    if l < r then
      let m := l + (r - l) / 2
      let (tag, action) := tagsRecognized.getD m ("", .ordinaryText)
      match strncasecmp (literal tag) name len with
      | .lt => lookupLoop name len turns (m + 1) r
      | .gt => lookupLoop name len turns l m
      | .eq => if (ascii tag).length = len then action else lookupLoop name len turns l m
    else .ordinaryText

/-- The action of the tag with the `len` bytes from `name` on. -/
def lookupPossibleTag (name : Nat → UInt8) (len : Nat) : DesiredAction :=
  lookupLoop name len (tagsRecognized.length + 1) 0 tagsRecognized.length

end seamus.html_tags
