-- The laws of `IndexStreamReader`: a cursor over the posts of one word, that
-- only moves forward over the bytes of the posting list region.
import Seamus.Index
import Seamus.LoadedIndex

open little_endian seamus.utf8 seamus.index seamus.dictionary seamus.loaded_index

namespace seamus.isr

/-! ## The source functions -/

structure IndexStreamReader where
  nPosts : Nat
  nDocs : Nat
  /-- From the cursor to the end of the posting list region. -/
  currLoc : Bytes
  postsConsumed : Nat
  docOffset : Nat
  locOffset : Nat
  hasPending : Bool
  deriving DecidableEq, Repr

/-- A reader without posts: of a word that is not in the index, or with a broken header. -/
def noPosts : IndexStreamReader := ⟨0, 0, [], 0, 0, 0, false⟩

/-- The constructor for an entry of the dictionary: the header is 8 bytes, a
space, 4 bytes and a newline. -/
def openAt (region : Bytes) (offset : Nat) : IndexStreamReader :=
  if offset + 8 + 1 + 4 + 1 > region.length then noPosts
  else
    let p := region.drop offset
    let nPosts := leValue (p.take 8)
    let p := p.drop (8 + 1)
    let nDocs := leValue (p.take 4)
    let p := p.drop (4 + 1)
    if nPosts > p.length then noPosts
    else ⟨nPosts, nDocs, p, 0, 0, 0, false⟩

def open' (word : Bytes) (index : LoadedIndex) : IndexStreamReader :=
  match lookup index.dictEntries word with
  | none => noPosts
  | some entry => openAt index.postingListRegion entry.postingOffset

def loc (r : IndexStreamReader) : Post := ⟨r.docOffset, r.locOffset⟩

/-- The post that says that there are no more. -/
def noPost : Post := ⟨0, 0⟩

def advanceBase (r : IndexStreamReader) : Post × IndexStreamReader :=
  if r.postsConsumed = r.nPosts then (noPost, r)
  else if r.currLoc = [] then (noPost, { r with postsConsumed := r.nPosts })
  else
    let (locOrFlag, p) := readUtf8 r.currLoc
    if locOrFlag > 0 then
      let r := { r with
        postsConsumed := r.postsConsumed + 1
        currLoc := p
        locOffset := u32 (r.locOffset + locOrFlag) }
      (loc r, r)
    else
      let (docDelta, p) := readUtf8 p
      let (newLoc, p) := readUtf8 p
      let r := { r with
        postsConsumed := r.postsConsumed + 1
        currLoc := p
        docOffset := u32 (r.docOffset + docDelta)
        locOffset := newLoc }
      (loc r, r)

def advance (r : IndexStreamReader) : Post × IndexStreamReader :=
  if r.hasPending then (loc r, { r with hasPending := false })
  else advanceBase r

/-- The loop of `advance_to`: one turn per unit of the first argument. -/
def walkTo (doc : Nat) : Nat → IndexStreamReader → Post × IndexStreamReader
  | 0, r => (loc r, r)
  | turns + 1, r =>
    if r.docOffset < doc then
      let (p, r) := advanceBase r
      if p.doc = 0 then (p, r) else walkTo doc turns r
    else (loc r, r)

/-- `advance_to`. Every turn of its loop but the last takes a byte. -/
def advanceTo (doc : Nat) (r : IndexStreamReader) : Post × IndexStreamReader :=
  if r.hasPending ∧ r.docOffset ≥ doc then (loc r, { r with hasPending := false })
  else walkTo doc (r.currLoc.length + 1) { r with hasPending := false }

def advanceToNextDoc (r : IndexStreamReader) : Post × IndexStreamReader :=
  advanceTo (u32 (r.docOffset + 1)) r

/-- The posts that `k` calls of `advance` give. -/
def advances : Nat → IndexStreamReader → List Post
  | 0, _ => []
  | k + 1, r => (advance r).1 :: advances k (advance r).2

end seamus.isr
