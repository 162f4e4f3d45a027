-- A chunk file as `LoadedIndex` sees it: the sections that the constructor
-- finds by walking over the bytes.
import Seamus.Basic
import Seamus.Dictionary
import Seamus.Library.LittleEndian

open little_endian seamus.dictionary

namespace seamus.loaded_index

/-- `memchr`: what stands before the first `c`, and what stands after it. -/
def memchr (c : UInt8) : Bytes → Option (Bytes × Bytes)
  | [] => none
  | b :: p => if b = c then some ([], p) else (memchr c p).map (fun (x, y) => (b :: x, y))

/-- `if (p < end && *p == '\n') p++`. -/
def skipNewline : Bytes → Bytes
  | b :: p => if b = newline then p else b :: p
  | [] => []

/-- The loop over the URL table. A line is an id, a space and the URL; `false`
says that a line has no end. One turn per unit of the first argument. -/
def readUrls : Nat → Bytes → List Bytes × Bool
  | 0, _ => ([], true)
  | turns + 1, p =>
    if p = [] then ([], true)
    else
      match memchr newline (p.drop (4 + 1)) with
      | none => ([], false)
      | some (url, p) =>
        let (urls, ok) := readUrls turns p
        (url :: urls, ok)

/-- The loop over the dictionary. It ends at a bare newline or at the end of the
file, and gives where it stands; none says that an entry has no space. -/
def readDict : Nat → Bytes → List DictEntry × Option Bytes
  | 0, p => ([], some p)
  | _ + 1, [] => ([], some [])
  | turns + 1, b :: p =>
    if b = newline then ([], some p)
    else
      match memchr space (b :: p) with
      | none => ([], none)
      | some (word, rest) =>
        let (entries, region) := readDict turns (rest.drop (8 + 1))
        (⟨word, u32 word.length, leValue (rest.take 8), 0⟩ :: entries, region)

/-- The number of posts in the header that an entry points to, 0 past the end of the region. -/
def readPosts (region : Bytes) (e : DictEntry) : DictEntry :=
  if e.postingOffset + 8 > region.length then { e with nPosts := 0 }
  else { e with nPosts := leValue ((region.drop e.postingOffset).take 8) }

structure LoadedIndex where
  urls : List Bytes
  dictEntries : List DictEntry
  /-- From the start of the posting list region to the end of the file. -/
  postingListRegion : Bytes
  totalWords : Nat
  deriving DecidableEq

/-- The constructor, on the bytes of the file. -/
def load (file : Bytes) : LoadedIndex :=
  if file = [] then ⟨[], [], [], 0⟩
  else
    let urlsBytes := leValue (file.take 8)
    let p := skipNewline (file.drop 8)
    if urlsBytes > p.length then ⟨[], [], [], 0⟩
    else
      match readUrls urlsBytes (p.take urlsBytes) with
      | (urls, false) => ⟨urls, [], [], 0⟩
      | (urls, true) =>
        let p := skipNewline (p.drop urlsBytes)
        let p := skipNewline (p.drop INDEX_DICTIONARY_TOC_SIZE)
        match readDict p.length p with
        | (entries, none) => ⟨urls, entries, [], 0⟩
        | (entries, some region) =>
          let entries := entries.map (readPosts region)
          ⟨urls, entries, region, (entries.map DictEntry.nPosts).sum % 2 ^ 64⟩

/-! ## The walk over what the writer writes -/

theorem memchr_append (c : UInt8) (s rest : Bytes) (h : c ∉ s) :
    memchr c (s ++ c :: rest) = some (s, rest) := by
  induction s with
  | nil => simp [memchr]
  | cons b s ih =>
    have hb : b ≠ c := fun hbc => h (hbc ▸ List.mem_cons_self)
    have hs : c ∉ s := fun hc => h (List.mem_cons_of_mem _ hc)
    rw [List.cons_append, memchr, if_neg hb, ih hs, Option.map_some]

theorem skipNewline_newline (p : Bytes) : skipNewline (newline :: p) = p := rfl

end seamus.loaded_index
