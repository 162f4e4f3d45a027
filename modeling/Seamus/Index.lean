-- The posting lists of an in-memory chunk, and what `IndexChunk::persist`
-- makes of them: the first pass over the postings, which counts bytes, and the
-- second pass, which writes them.
import Seamus.Basic
import Seamus.Utf8
import Seamus.Library.LittleEndian
import Mathlib.Data.List.Pairwise
import Mathlib.Data.List.Nodup
import Mathlib.Data.Finset.Card
import Mathlib.Data.Finset.Range

open little_endian seamus.utf8

namespace seamus.index

@[ext] structure Post where
  doc : Nat
  loc : Nat
  deriving DecidableEq, Repr

structure Postings where
  posts : List Post
  nDocs : Nat
  deriving DecidableEq, Repr

def Post.Before (p q : Post) : Prop := p.doc < q.doc ∨ (p.doc = q.doc ∧ p.loc < q.loc)

instance (p q : Post) : Decidable (p.Before q) := by unfold Post.Before; infer_instance

/-- A posting list that `index_file` can build for a word. -/
structure Postings.Valid (e : Postings) : Prop where
  nonempty : e.posts ≠ []
  ordered : e.posts.Pairwise Post.Before
  docs : ∀ p ∈ e.posts, 1 ≤ p.doc ∧ p.doc ≤ DOCS_PER_INDEX_CHUNK
  locs : ∀ p ∈ e.posts, 1 ≤ p.loc ∧ p.loc < 2 ^ 31

structure PostingList extends Postings where
  valid : toPostings.Valid

/-! ## The first pass -/

/-- The bytes that the first pass counts for the posts of a word. -/
def sizePosts : Nat → Nat → List Post → Nat
  | _, _, [] => 0
  | lastDoc, lastLoc, p :: ps =>
    if p.doc > lastDoc then
      1 + sizeOfUtf8 (u32Sub p.doc lastDoc) + sizeOfUtf8 (u32Sub p.loc 0) + sizePosts p.doc p.loc ps
    else
      sizeOfUtf8 (u32Sub p.loc lastLoc) + sizePosts lastDoc p.loc ps

/-- All that it counts for a word: the header, the posts and the newline at the end. -/
def sizePostingList (e : Postings) : Nat := (6 + 6 + 2) + sizePosts 0 0 e.posts + 1

/-- One dictionary entry on disk: word, space, 8 bytes, newline. -/
def dictEntrySize (word : Bytes) : Nat := word.length + 1 + 8 + 1

def DICT_SLOTS : Nat := 36

def NO_ENTRY : Nat := 2 ^ 64 - 1

/-- The slot of a word in the lookup table, by its first byte. -/
def slotOf (word : Bytes) : Nat :=
  let first := (word.headD 0).toNat
  if first ≥ 97 then first - 97 else 26 + (first - 48)

/-- The variables that the loop of the first pass carries over the words. -/
structure FirstPass where
  locations : List Nat
  postingListSize : Nat
  dictOffsets : List Nat
  currOffset : Nat

def FirstPass.start : FirstPass := ⟨[], 0, List.replicate DICT_SLOTS NO_ENTRY, 0⟩

def FirstPass.step (index : Bytes → Postings) (st : FirstPass) (word : Bytes) : FirstPass where
  locations := st.locations ++ [st.postingListSize]
  postingListSize := st.postingListSize + sizePostingList (index word)
  dictOffsets :=
    if st.dictOffsets.getD (slotOf word) 0 = NO_ENTRY then
      st.dictOffsets.set (slotOf word) st.currOffset
    else st.dictOffsets
  currOffset := st.currOffset + dictEntrySize word

def firstPass (index : Bytes → Postings) (order : List Bytes) : FirstPass :=
  order.foldl (FirstPass.step index) FirstPass.start

/-- The loop that fills the empty ones of the slots it is given, from the last to the first. -/
def fillGaps : Nat → List Nat → List Nat × Nat
  | fill, [] => ([], fill)
  | fill, off :: offs =>
    let (offs, fill) := fillGaps fill offs
    if off = NO_ENTRY then (fill :: offs, fill) else (off :: offs, off)

/-- The lookup table: the letters take their fill from the end of the
dictionary, the digits from the letters. -/
def fillOffsets (currOffset : Nat) (dictOffsets : List Nat) : List Nat :=
  let (letters, fill) := fillGaps currOffset (dictOffsets.take 26)
  letters ++ (fillGaps fill (dictOffsets.drop 26)).1

/-! ## The second pass -/

/-- The bytes of the posts: a 0 and the doc delta at a new doc, and the loc delta. -/
def writePosts : Nat → Nat → List Post → Bytes
  | _, _, [] => []
  | lastDoc, lastLoc, p :: ps =>
    if p.doc > lastDoc then
      0 :: writeUtf8 (u32Sub p.doc lastDoc) MAX_UTF8_LEN ++
        (writeUtf8 (u32Sub p.loc 0) MAX_UTF8_LEN ++ writePosts p.doc p.loc ps)
    else
      writeUtf8 (u32Sub p.loc lastLoc) MAX_UTF8_LEN ++ writePosts lastDoc p.loc ps

def writeHeader (e : Postings) : Bytes :=
  leBytes 8 e.posts.length ++ [space] ++ leBytes 4 e.nDocs ++ [newline]

def writePostingList (e : Postings) : Bytes :=
  writeHeader e ++ (writePosts 0 0 e.posts ++ [newline])

/-- The numbers that the second pass hands to `WriteUtf8`, in order. -/
def deltas : Nat → Nat → List Post → List Nat
  | _, _, [] => []
  | lastDoc, lastLoc, p :: ps =>
    if p.doc > lastDoc then (p.doc - lastDoc) :: p.loc :: deltas p.doc p.loc ps
    else (p.loc - lastLoc) :: deltas lastDoc p.loc ps

/-! ## The two passes agree -/

/-- The rest of a valid list, seen from the last post written. -/
structure After (lastDoc lastLoc : Nat) (ps : List Post) : Prop where
  next : ∀ p ∈ ps, lastDoc < p.doc ∨ (lastDoc = p.doc ∧ lastLoc < p.loc)
  ordered : ps.Pairwise Post.Before
  docs : ∀ p ∈ ps, p.doc ≤ DOCS_PER_INDEX_CHUNK
  locs : ∀ p ∈ ps, 1 ≤ p.loc ∧ p.loc < 2 ^ 31

theorem Postings.Valid.after {e : Postings} (h : e.Valid) : After 0 0 e.posts where
  next p hp := Or.inl (h.docs p hp).1
  ordered := h.ordered
  docs p hp := (h.docs p hp).2
  locs := h.locs

theorem After.tail {lastDoc lastLoc : Nat} {p : Post} {ps : List Post}
    (h : After lastDoc lastLoc (p :: ps)) : After p.doc p.loc ps where
  next q hq := (List.pairwise_cons.1 h.ordered).1 q hq
  ordered := (List.pairwise_cons.1 h.ordered).2
  docs q hq := h.docs q (List.mem_cons_of_mem _ hq)
  locs q hq := h.locs q (List.mem_cons_of_mem _ hq)

/-- The first post of the rest either starts a new doc or stays in the last one;
the subtractions of the writer do not wrap. -/
theorem After.head {lastDoc lastLoc : Nat} {p : Post} {ps : List Post}
    (h : After lastDoc lastLoc (p :: ps)) :
    (p.doc > lastDoc ∧ u32Sub p.doc lastDoc = p.doc - lastDoc ∧ p.doc - lastDoc < 2 ^ 31 ∧
        p.doc < 2 ^ 31 ∧ u32Sub p.loc 0 = p.loc ∧ 0 < p.loc ∧ p.loc < 2 ^ 31) ∨
      (p.doc = lastDoc ∧ u32Sub p.loc lastLoc = p.loc - lastLoc ∧ lastLoc < p.loc ∧
        p.doc < 2 ^ 31 ∧ p.loc < 2 ^ 31) := by
  have hd := h.docs p List.mem_cons_self
  have hl := h.locs p List.mem_cons_self
  have hn := h.next p List.mem_cons_self
  simp only [DOCS_PER_INDEX_CHUNK] at hd
  by_cases hnew : p.doc > lastDoc
  · refine Or.inl ⟨hnew, u32Sub_of_le (by omega), by omega, by omega,
      u32Sub_of_le (by omega), by omega, hl.2⟩
  · refine Or.inr ⟨by omega, u32Sub_of_le (by omega), by omega, by omega, hl.2⟩

/-- The first pass counts the bytes that the second pass writes. -/
theorem writePosts_length (lastDoc lastLoc : Nat) (ps : List Post)
    (h : After lastDoc lastLoc ps) :
    (writePosts lastDoc lastLoc ps).length = sizePosts lastDoc lastLoc ps := by
  induction ps generalizing lastDoc lastLoc with
  | nil => rfl
  | cons p ps ih =>
    have tail := ih p.doc p.loc h.tail
    rcases h.head with ⟨hnew, hd, hd31, -, hl, -, hl31⟩ | ⟨hsame, hl, hlt, -, hl31⟩
    · simp only [writePosts, sizePosts, hnew, if_true, hd, hl, List.length_append,
        List.length_cons, tail, writeUtf8_length _ hd31, writeUtf8_length _ hl31]
      omega
    · have hnot : ¬ p.doc > lastDoc := by omega
      have h31 : p.loc - lastLoc < 2 ^ 31 := by omega
      rw [hsame] at tail
      simp only [writePosts, sizePosts, hnot, if_false, hl, List.length_append, tail,
        writeUtf8_length _ h31]

theorem writeHeader_length (e : Postings) : (writeHeader e).length = 14 := by
  simp [writeHeader]

theorem writePostingList_length (e : Postings) (h : e.Valid) :
    (writePostingList e).length = sizePostingList e := by
  simp only [writePostingList, sizePostingList, List.length_append, writeHeader_length,
    writePosts_length 0 0 e.posts h.after, List.length_singleton]
  omega

/-! ## Sizes of a valid list -/

/-- Every post takes at least a byte. -/
theorem length_le_writePosts (lastDoc lastLoc : Nat) (ps : List Post) :
    ps.length ≤ (writePosts lastDoc lastLoc ps).length := by
  induction ps generalizing lastDoc lastLoc with
  | nil => exact Nat.le_refl _
  | cons p ps ih =>
    simp only [writePosts]
    split
    · have tail := ih p.doc p.loc
      simp only [List.length_append, List.length_cons]
      omega
    · have tail := ih lastDoc p.loc
      have hpos := List.length_pos_iff.2 (writeUtf8_ne_nil (u32Sub p.loc lastLoc))
      simp only [List.length_append, List.length_cons]
      omega

/-- A strictly increasing list of numbers below a bound is no longer than the bound. -/
theorem length_le_of_increasing (ns : List Nat) (bound : Nat) (h : ns.Pairwise (· < ·))
    (hb : ∀ n ∈ ns, n < bound) : ns.length ≤ bound := by
  have hnodup : ns.Nodup := h.imp (fun hlt => Nat.ne_of_lt hlt)
  have hsub : ns.toFinset ⊆ Finset.range bound := by
    intro n hn
    exact Finset.mem_range.2 (hb n (List.mem_toFinset.1 hn))
  have hcard := Finset.card_le_card hsub
  rwa [List.toFinset_card_of_nodup hnodup, Finset.card_range] at hcard

/-- Posts in order, with docs up to `D` and locs below `L`, are at most `(D + 1) * L`. -/
theorem posts_length_le (D L : Nat) (ps : List Post) (hord : ps.Pairwise Post.Before)
    (hd : ∀ p ∈ ps, p.doc ≤ D) (hl : ∀ p ∈ ps, p.loc < L) : ps.length ≤ (D + 1) * L := by
  have key : (ps.map (fun p => p.doc * L + p.loc)).length ≤ (D + 1) * L := by
    apply length_le_of_increasing
    · rw [List.pairwise_map]
      refine hord.imp_of_mem ?_
      intro p q hp _ hpq
      have hlp := hl p hp
      rcases hpq with hlt | ⟨heq, hlt⟩
      · have hle : (p.doc + 1) * L ≤ q.doc * L := Nat.mul_le_mul_right _ hlt
        rw [Nat.add_mul, Nat.one_mul] at hle
        omega
      · rw [heq]; omega
    · intro n hn
      obtain ⟨p, hp, rfl⟩ := List.mem_map.1 hn
      have hlp := hl p hp
      have hle : p.doc * L ≤ D * L := Nat.mul_le_mul_right _ (hd p hp)
      rw [Nat.add_mul, Nat.one_mul]
      omega
  rwa [List.length_map] at key

/-- The 8 bytes of the header hold the number of posts. -/
theorem Postings.Valid.length_lt {e : Postings} (h : e.Valid) : e.posts.length < 2 ^ 64 := by
  have hle := posts_length_le DOCS_PER_INDEX_CHUNK (2 ^ 31) e.posts h.ordered
    (fun p hp => (h.docs p hp).2) (fun p hp => (h.locs p hp).2)
  exact Nat.lt_of_le_of_lt hle (by decide)

end seamus.index
