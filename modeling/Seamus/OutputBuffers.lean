-- `parser/word_array.h` with the bounds of its memory: a write outside of `data_`, or a `size_`
-- past its end, stops the function. The flush of the links fills its buffer again from inside of
-- `push_back`.
import Seamus.ParserCalls

open seamus.html_tags seamus.html seamus.parser_calls

namespace seamus.output_buffers

inductive Fault where
  /-- A write to an index that is not in `[0, MAX_MEMORY)`. -/
  | outside
  /-- A `size_` larger than `MAX_MEMORY`. -/
  | overfull
  /-- More callbacks in one another than there are levels. -/
  | unended
  deriving DecidableEq, Repr

abbrev Checked := Except Fault

/-! ## `buffer_array` -/

structure Buffer (max : Nat) where
  data : Vector UInt8 max
  size : Nat
  size_le : size ≤ max

/-- A buffer without content. Its memory may hold anything. -/
def Buffer.fresh {max : Nat} (data : Vector UInt8 max) : Buffer max := ⟨data, 0, Nat.zero_le max⟩

section Buffer

variable {max : Nat}

/-- `data[i] = f(data[i])` -/
def update (i : Int) (f : UInt8 → UInt8) (data : Vector UInt8 max) : Checked (Vector UInt8 max) :=
  if h : 0 ≤ i ∧ i.toNat < max then .ok (data.set i.toNat (f data[i.toNat]) h.2)
  else .error .outside

/-- `memcpy(data + i, str, len)` -/
def memcpy : Nat → Bytes → Vector UInt8 max → Checked (Vector UInt8 max)
  | _, [], data => .ok data
  | i, c :: str, data => do memcpy (i + 1) str (← update i (fun _ => c) data)

/-- `size_ += len` -/
def Buffer.grow (b : Buffer max) (len : Nat) : Checked (Buffer max) :=
  if h : b.size + len ≤ max then .ok { b with size := b.size + len, size_le := h }
  else .error .overfull

/-- A `memcpy` to the end, and the `size_` after it. -/
def Buffer.copy (b : Buffer max) (str : Bytes) : Checked (Buffer max) := do
  let data ← memcpy b.size str b.data
  Buffer.grow { b with data } str.length

/-- The bytes of a push, and the delimiter after them. -/
def Buffer.append (b : Buffer max) (str : Bytes) (delim : UInt8) : Checked (Buffer max) := do
  let b ← b.copy str
  if delim = NULL_DELIM then return b else b.copy [delim]

/-- `reset` -/
def Buffer.reset (b : Buffer max) : Buffer max := .fresh b.data

def pushBack (flush : Buffer max → Checked (Buffer max)) (str : Bytes) (delim : UInt8)
    (b : Buffer max) : Checked (Buffer max) :=
  if max < str.length then .ok b
  else if max ≤ b.size + str.length + 10 then do
    let b ← flush b
    if max ≤ b.size + str.length + 10 then
      b.append (str.take (roomFor max b.size str.length)) delim
    else b.append str delim
  else b.append str delim

/-- The conversion of a `size_t` to an `int`. -/
def int32 (n : Nat) : Int := (n : Int).bmod (2 ^ 32)

/-- `while (start < end)`, for `turns = end - start`. -/
def convertLoop : Nat → Int → Vector UInt8 max → Checked (Vector UInt8 max)
  | 0, _, data => .ok data
  | turns + 1, start, data => do convertLoop turns (start + 1) (← update start tolower data)

def Buffer.caseConvert (b : Buffer max) (start stop : Int) : Checked (Buffer max) := do
  let stop := if stop = max then (b.size : Int) else stop
  return { b with data := ← convertLoop (stop - start).toNat start b.data }

end Buffer

/-! ## `word_array` and `link_array` -/

def flushWords (b : Buffer MAX_WORD_MEMORY) : Checked (Buffer MAX_WORD_MEMORY) :=
  if 0 < b.size then do return (← b.caseConvert 0 MAX_WORD_MEMORY).reset else .ok b

def pushDocend (b : Buffer MAX_LINK_MEMORY) : Checked (Buffer MAX_LINK_MEMORY) :=
  if b.size + 8 ≤ MAX_LINK_MEMORY then b.copy (ascii "\n</doc>\n") else .ok b

def pushAll {max : Nat} (flush : Buffer max → Checked (Buffer max)) :
    List (Bytes × UInt8) → Buffer max → Checked (Buffer max)
  | [], b => .ok b
  | (str, delim) :: pushes, b => do pushAll flush pushes (← pushBack flush str delim b)

/-- `link_array::flush` with the callback of the parser, which pushes the header of the next
batch. `levels` callbacks may run inside of this one. -/
def flushLinks (header : List (Bytes × UInt8)) :
    Nat → Buffer MAX_LINK_MEMORY → Checked (Buffer MAX_LINK_MEMORY)
  | levels, b =>
    if 0 < b.size then do
      let b ← pushDocend b
      match levels with
      | 0 => pushAll (fun _ => .error .unended) header b.reset
      | levels + 1 => pushAll (flushLinks header levels) header b.reset
    else .ok b

/-! ## The calls of the parser -/

structure Buffers where
  words : Buffer MAX_WORD_MEMORY
  links : Buffer MAX_LINK_MEMORY

/-- A call, with `flush` for the links. -/
def runCall (flush : Buffer MAX_LINK_MEMORY → Checked (Buffer MAX_LINK_MEMORY)) (b : Buffers) :
    Call → Checked Buffers
  | .word str delim => do return { b with words := ← pushBack flushWords str delim b.words }
  | .link str delim => do return { b with links := ← pushBack flush str delim b.links }
  | .anchorWord str delim => do
    let links ← pushBack flush str delim b.links
    let start := int32 (u64Sub links.size (str.length + 1))
    return { b with links := ← links.caseConvert start links.size }

/-- What `parse_page` is called with. -/
structure PageInput where
  page : Page
  hops : UInt16
  domainHops : UInt16
  link : Bytes

section Pages

variable (isCommonEnglishWord : Bytes → Bool)

/-- The parser after the headers, as it is without bounds. -/
def PageInput.parser (q : PageInput) : HtmlParser :=
  HtmlParser.ofPage q.hops.toNat q.domainHops.toNat q.link

/-- The pushes of `write_link_headers`. -/
def PageInput.header (q : PageInput) : List (Bytes × UInt8) :=
  [(ascii "<doc>", newline), (ascii (toString q.hops.toNat), space),
    (ascii (toString q.domainHops.toNat), newline), (extractDomain q.parser.url, newline)]

/-- The calls after the headers: those of the body, and `write_footers`. -/
def PageInput.calls (q : PageInput) : List Call :=
  bodyCalls isCommonEnglishWord q.page q.hops.toNat q.domainHops.toNat q.link ++
    [.word (ascii "</doc>") newline, .link (ascii "</doc>") newline]

def writeHeaders (levels : Nat) (q : PageInput) (b : Buffers) : Checked Buffers := do
  let words ← pushBack flushWords (ascii "<doc>") newline b.words
  let words ← pushBack flushWords q.parser.url newline words
  return ⟨words, ← pushAll (flushLinks q.header levels) q.header b.links⟩

/-- The end of a page: the words go to the file and the links to the URL buffer. -/
def finish (b : Buffers) : Checked Buffers := do
  let words ← flushWords (← b.words.caseConvert 0 MAX_WORD_MEMORY)
  return ⟨words, b.links.reset⟩

def parsePage (levels : Nat) (b : Buffers) (q : PageInput) : Checked Buffers := do
  let b ← writeHeaders levels q b
  let b ← (q.calls isCommonEnglishWord).foldlM (runCall (flushLinks q.header levels)) b
  finish b

/-- One page after the other, with the same buffers. -/
def parsePages (levels : Nat) (pages : List PageInput) (b : Buffers) : Checked Buffers :=
  pages.foldlM (parsePage isCommonEnglishWord levels) b

end Pages

end seamus.output_buffers
