-- The reader of a chunk file with its bounds: the functions of `LoadedIndex` and of
-- `IndexStreamReader` once more, so that a read past the end of the file buffer has no result.
-- Where they have one, it is that of the functions without bounds.
import Seamus.PostStreams

open little_endian seamus.index seamus.isr seamus.dictionary seamus.loaded_index

namespace seamus.checked_reads

/-! ## Reads of the buffer

A pointer is the list of the bytes from it to the end of the buffer. -/

/-- `memcpy` of an integer of `n` bytes. -/
def copy (n : Nat) (p : Bytes) : Option Nat :=
  if n ≤ p.length then some (leValue (p.take n)) else none

/-- `memchr` over `n` bytes: what stands before the first `c`, and what stands after it. -/
def memchr (c : UInt8) : Nat → Bytes → Option (Option (Bytes × Bytes))
  | 0, _ => some none
  | _ + 1, [] => none
  | n + 1, b :: p =>
    if b = c then some (some ([], p))
    else (memchr c n p).map fun found => found.map fun (x, y) => (b :: x, y)

/-- The loop of `ReadUtf8` over the `k` continuation bytes. -/
def readTail : Nat → Nat → Bytes → Option (Option Nat × Bytes)
  | 0, res, p => some (some res, p)
  | _ + 1, _, [] => none
  | k + 1, res, b :: p =>
    if b.toNat &&& 0xC0 = 0x80 then readTail k ((res <<< 6) ||| (b.toNat &&& 0x3F)) p
    else some (none, b :: p)

/-- `ReadUtf8` without a bound. -/
def readUtf8 : Bytes → Option (Nat × Bytes)
  | [] => none
  | first :: p =>
    let nBytes := utf8.announced first.toNat
    if nBytes = 0 then some (utf8.ReplacementCharacter, p)
    else if nBytes = 1 then some (first.toNat, p)
    else
      (readTail (nBytes - 1) (first.toNat &&& utf8.readMask nBytes) p).map fun
        | (none, p) => (utf8.ReplacementCharacter, p)
        | (some res, p) =>
          if res < utf8.utf8Min nBytes then (utf8.ReplacementCharacter, p)
          else if utf8.Reserved res then (utf8.ReplacementCharacter, p)
          else (res, p)

/-! ## `LoadedIndex` -/

/-- The subtraction of pointers that `memchr` takes for a size. -/
def u64Sub (a b : Nat) : Nat := if b ≤ a then a - b else 2 ^ 64 - (b - a)

/-- The loop over the URL table, with the bytes left up to its end. It gives where it stands
then; none says that a line has no end. -/
def readUrls : Nat → Nat → Bytes → Option (List Bytes × Option Bytes)
  | 0, _, p => some ([], some p)
  | turns + 1, left, p =>
    if left = 0 then some ([], some p)
    else
      -- the id and the space are skipped, also past the end of the table
      match memchr newline (u64Sub left (4 + 1)) (p.drop (4 + 1)) with
      | none => none
      | some none => some ([], none)
      | some (some (url, p)) =>
        (readUrls turns (left - (4 + 1 + url.length + 1)) p).map fun (urls, p) => (url :: urls, p)

/-- The loop over the dictionary. `memchr` runs up to the end of the file, the offset is copied
without a look at it. -/
def readDict : Nat → Bytes → Option (List DictEntry × Option Bytes)
  | 0, p => some ([], some p)
  | _ + 1, [] => some ([], some [])
  | turns + 1, b :: p =>
    if b = newline then some ([], some p)
    else
      match loaded_index.memchr space (b :: p) with
      | none => some ([], none)
      | some (word, rest) =>
        match copy 8 rest with
        | none => none
        | some offset =>
          (readDict turns (rest.drop (8 + 1))).map fun (entries, region) =>
            (⟨word, u32 word.length, offset, 0⟩ :: entries, region)

/-- The constructor, on the bytes of the file. It looks for the end of the region before it
copies a number of posts. -/
def load (file : Bytes) : Option LoadedIndex :=
  if file = [] then some ⟨[], [], [], 0⟩
  else
    match copy 8 file with
    | none => none
    | some urlsBytes =>
      let p := skipNewline (file.drop 8)
      if urlsBytes > p.length then some ⟨[], [], [], 0⟩
      else
        match readUrls urlsBytes urlsBytes p with
        | none => none
        | some (urls, none) => some ⟨urls, [], [], 0⟩
        | some (urls, some p) =>
          let p := skipNewline p
          let p := skipNewline (p.drop INDEX_DICTIONARY_TOC_SIZE)
          match readDict p.length p with
          | none => none
          | some (entries, none) => some ⟨urls, entries, [], 0⟩
          | some (entries, some region) =>
            let entries := entries.map (readPosts region)
            some ⟨urls, entries, region, (entries.map DictEntry.nPosts).sum % 2 ^ 64⟩

/-! ## `IndexStreamReader` -/

/-- The constructor for an entry of the dictionary. A number of posts that is too large is
logged with the 16 bytes from the header on, which is two bytes more than the header has. -/
def openAt (region : Bytes) (offset : Nat) : Option IndexStreamReader :=
  if offset + 8 + 1 + 4 + 1 > region.length then some noPosts
  else do
    let postingsStart := region.drop offset
    let nPosts ← copy 8 postingsStart
    let p := postingsStart.drop (8 + 1)
    let nDocs ← copy 4 p
    let p := p.drop (4 + 1)
    if nPosts > p.length then
      let _ ← copy 16 postingsStart
      return noPosts
    else return ⟨nPosts, nDocs, p, 0, 0, 0, false⟩

def open' (word : Bytes) (index : LoadedIndex) : Option IndexStreamReader :=
  match lookup index.dictEntries word with
  | none => some noPosts
  | some entry => openAt index.postingListRegion entry.postingOffset

def advanceBase (r : IndexStreamReader) : Option (Post × IndexStreamReader) :=
  if r.postsConsumed = r.nPosts then some (noPost, r)
  else if r.currLoc = [] then some (noPost, { r with postsConsumed := r.nPosts })
  else do
    let (locOrFlag, p) ← readUtf8 r.currLoc
    if locOrFlag > 0 then
      let r := { r with
        postsConsumed := r.postsConsumed + 1
        currLoc := p
        locOffset := u32 (r.locOffset + locOrFlag) }
      return (loc r, r)
    else
      let (docDelta, p) ← readUtf8 p
      let (newLoc, p) ← readUtf8 p
      let r := { r with
        postsConsumed := r.postsConsumed + 1
        currLoc := p
        docOffset := u32 (r.docOffset + docDelta)
        locOffset := newLoc }
      return (loc r, r)

def advance (r : IndexStreamReader) : Option (Post × IndexStreamReader) :=
  if r.hasPending then some (loc r, { r with hasPending := false })
  else advanceBase r

/-- The loop of `advance_to`. -/
def walkTo (doc : Nat) : Nat → IndexStreamReader → Option (Post × IndexStreamReader)
  | 0, r => some (loc r, r)
  | turns + 1, r =>
    if r.docOffset < doc then do
      let (p, r) ← advanceBase r
      if p.doc = 0 then return (p, r) else walkTo doc turns r
    else some (loc r, r)

def advanceTo (doc : Nat) (r : IndexStreamReader) : Option (Post × IndexStreamReader) :=
  if r.hasPending ∧ r.docOffset ≥ doc then some (loc r, { r with hasPending := false })
  else walkTo doc (r.currLoc.length + 1) { r with hasPending := false }

def advanceToNextDoc (r : IndexStreamReader) : Option (Post × IndexStreamReader) :=
  advanceTo (u32 (r.docOffset + 1)) r

inductive Call
  | advance
  | advanceTo (doc : Nat)
  | advanceToNextDoc

def call : Call → IndexStreamReader → Option (Post × IndexStreamReader)
  | .advance, r => advance r
  | .advanceTo doc, r => advanceTo doc r
  | .advanceToNextDoc, r => advanceToNextDoc r

/-- The posts that a sequence of calls gives. -/
def run : List Call → IndexStreamReader → Option (List Post)
  | [], _ => some []
  | c :: cs, r => do
    let (p, r) ← call c r
    let ps ← run cs r
    return p :: ps

/-- A file is loaded, and a reader of a word takes a sequence of calls. -/
def session (file word : Bytes) (calls : List Call) : Option (List Post) := do
  let index ← load file
  let r ← open' word index
  run calls r

/-- Nothing past the end of the file is ever read. -/
def StaysInside (file : Bytes) : Prop := ∀ word calls, session file word calls ≠ none

/-! ## The results are those of the functions without bounds -/

theorem readTail_eq {k res : Nat} {p : Bytes} {x : Option Nat × Bytes}
    (h : readTail k res p = some x) : utf8.readTail k res p = x := by
  induction k generalizing res p with
  | zero => exact Option.some_inj.mp h
  | succ k ih =>
    cases p with
    | nil => cases h
    | cons b p =>
      rw [readTail] at h
      rw [utf8.readTail, List.headD_cons, List.tail_cons]
      split at h
      · rename_i hb
        simp only [hb, if_true]
        exact ih h
      · rename_i hb
        simp only [hb, if_false]
        exact Option.some_inj.mp h

theorem readUtf8_eq {p : Bytes} {x : Nat × Bytes} (h : readUtf8 p = some x) :
    utf8.readUtf8 p = x := by
  cases p with
  | nil => cases h
  | cons first p =>
    rw [readUtf8] at h
    rw [utf8.readUtf8]
    split at h
    · rename_i hzero
      rw [if_pos hzero]
      exact Option.some_inj.mp h
    · rename_i hzero
      rw [if_neg hzero]
      split at h
      · rename_i hone
        rw [if_pos hone]
        exact Option.some_inj.mp h
      · rename_i hone
        rw [if_neg hone]
        obtain ⟨y, hy, rfl⟩ := Option.map_eq_some_iff.mp h
        rw [readTail_eq hy]
        obtain ⟨o, q⟩ := y
        cases o <;> rfl

theorem advanceBase_eq {r : IndexStreamReader} {x : Post × IndexStreamReader}
    (h : advanceBase r = some x) : isr.advanceBase r = x := by
  rw [advanceBase] at h
  rw [isr.advanceBase]
  split at h
  · rename_i hcount
    rw [if_pos hcount]
    exact Option.some_inj.mp h
  · rename_i hcount
    rw [if_neg hcount]
    split at h
    · rename_i hnil
      rw [if_pos hnil]
      exact Option.some_inj.mp h
    · rename_i hnil
      obtain ⟨⟨locOrFlag, p⟩, hflag, h⟩ := Option.bind_eq_some_iff.mp h
      rw [if_neg hnil, readUtf8_eq hflag]
      simp only at h ⊢
      split at h
      · rename_i hpos
        rw [if_pos hpos]
        exact Option.some_inj.mp h
      · rename_i hpos
        obtain ⟨⟨docDelta, p⟩, hdoc, h⟩ := Option.bind_eq_some_iff.mp h
        obtain ⟨⟨newLoc, p⟩, hloc, h⟩ := Option.bind_eq_some_iff.mp h
        rw [if_neg hpos, readUtf8_eq hdoc, readUtf8_eq hloc]
        exact Option.some_inj.mp h

theorem copy_eq {n v : Nat} {p : Bytes} (h : copy n p = some v) :
    n ≤ p.length ∧ leValue (p.take n) = v := by
  rw [copy] at h
  split at h
  · rename_i hle
    exact ⟨hle, Option.some_inj.mp h⟩
  · cases h

theorem copy_leBytes (w v : Nat) (rest : Bytes) :
    copy w (leBytes w v ++ rest) = some (v % 256 ^ w) := by
  have hle : w ≤ (leBytes w v ++ rest).length := by
    rw [List.length_append, leBytes_length]
    exact Nat.le_add_right _ _
  rw [copy, if_pos hle, List.take_left' (leBytes_length w v), leValue_leBytes_mod]

theorem readDict_eq {turns : Nat} {p : Bytes} {x : List DictEntry × Option Bytes}
    (h : readDict turns p = some x) : loaded_index.readDict turns p = x := by
  induction turns generalizing p x with
  | zero => exact Option.some_inj.mp h
  | succ turns ih =>
    cases p with
    | nil => exact Option.some_inj.mp h
    | cons b p =>
      rw [readDict] at h
      rw [loaded_index.readDict]
      by_cases hb : b = newline
      · rw [if_pos hb] at h ⊢
        exact Option.some_inj.mp h
      · rw [if_neg hb] at h ⊢
        cases hchr : loaded_index.memchr space (b :: p) with
        | none =>
          rw [hchr] at h
          exact Option.some_inj.mp h
        | some found =>
          obtain ⟨word, rest⟩ := found
          rw [hchr] at h
          simp only at h ⊢
          cases hcopy : copy 8 rest with
          | none =>
            rw [hcopy] at h
            cases h
          | some offset =>
            rw [hcopy] at h
            obtain ⟨y, hy, rfl⟩ := Option.map_eq_some_iff.mp h
            rw [ih hy, (copy_eq hcopy).2]

theorem openAt_eq {region : Bytes} {offset : Nat} {r : IndexStreamReader}
    (h : openAt region offset = some r) : isr.openAt region offset = r := by
  rw [openAt] at h
  rw [isr.openAt]
  split at h
  · rename_i hend
    rw [if_pos hend]
    exact Option.some_inj.mp h
  · rename_i hend
    obtain ⟨nPosts, hposts, h⟩ := Option.bind_eq_some_iff.mp h
    obtain ⟨nDocs, hdocs, h⟩ := Option.bind_eq_some_iff.mp h
    rw [if_neg hend]
    simp only [(copy_eq hposts).2, (copy_eq hdocs).2] at h ⊢
    split at h
    · rename_i hmany
      obtain ⟨_, _, h⟩ := Option.bind_eq_some_iff.mp h
      rw [if_pos hmany]
      exact Option.some_inj.mp h
    · rename_i hmany
      rw [if_neg hmany]
      exact Option.some_inj.mp h

theorem open_eq {word : Bytes} {index : LoadedIndex} {r : IndexStreamReader}
    (h : open' word index = some r) : isr.open' word index = r := by
  rw [open'] at h
  rw [isr.open']
  cases hentry : lookup index.dictEntries word with
  | none =>
    rw [hentry] at h
    exact Option.some_inj.mp h
  | some entry =>
    rw [hentry] at h
    exact openAt_eq h

end seamus.checked_reads
