-- The streams of a chunk as cursors over posting lists: `advance` is one step of the cursor,
-- `advance_to` and the walk over the positions of a doc are searches. What the queries need of
-- a chunk is that the streams of all words read ordered posting lists.
import Seamus.ChunkLayout
import Seamus.Library.Cursor

open cursor seamus.index seamus.isr seamus.loaded_index seamus.dictionary

namespace seamus.post_streams

/-! ## One advance -/

/-- There are no more posts. -/
def Ended (r : IndexStreamReader) : Prop := r.postsConsumed = r.nPosts ∨ r.currLoc = []

theorem advanceBase_ended {r : IndexStreamReader} (h : Ended r) :
    (advanceBase r).1 = noPost ∧ Ended (advanceBase r).2 ∧ loc (advanceBase r).2 = loc r := by
  by_cases hcount : r.postsConsumed = r.nPosts
  · rw [advanceBase, if_pos hcount]
    exact ⟨rfl, h, rfl⟩
  · have hnil := h.resolve_left hcount
    rw [advanceBase, if_neg hcount, if_pos hnil]
    exact ⟨rfl, Or.inl rfl, rfl⟩

theorem advanceBase_loc {r : IndexStreamReader} (h : ¬Ended r) :
    loc (advanceBase r).2 = (advanceBase r).1 := by
  rw [advanceBase, if_neg (fun hc => h (Or.inl hc)), if_neg (fun hn => h (Or.inr hn))]
  simp only
  split <;> rfl

theorem advanceBase_length {r : IndexStreamReader} (h : ¬Ended r) :
    (advanceBase r).2.currLoc.length < r.currLoc.length := by
  obtain ⟨b, p, hp⟩ := List.exists_cons_of_ne_nil (fun hn => h (Or.inr hn))
  have hlt := utf8.readUtf8_length_lt b p
  rw [← hp] at hlt
  rw [advanceBase, if_neg (fun hc => h (Or.inl hc)), if_neg (fun hn => h (Or.inr hn))]
  simp only
  split
  · exact hlt
  · exact Nat.lt_of_le_of_lt ((utf8.readUtf8_length_le _).trans (utf8.readUtf8_length_le _)) hlt

/-- The flag of a pending post plays no part. -/
theorem advanceBase_pending (r : IndexStreamReader) (b : Bool) :
    advanceBase { r with hasPending := b } =
      ((advanceBase r).1, { (advanceBase r).2 with hasPending := b }) := by
  simp only [advanceBase]
  split
  · rfl
  · split
    · rfl
    · split <;> rfl

theorem hasPending_advanceBase (r : IndexStreamReader) :
    (advanceBase r).2.hasPending = r.hasPending := by
  simp only [advanceBase]
  split
  · rfl
  · split
    · rfl
    · split <;> rfl

/-! ## The posts that are ahead -/

/-- The posts that a reader still gives. -/
def Reads : List Post → IndexStreamReader → Prop
  | [], r => Ended r
  | p :: ps, r => ¬Ended r ∧ (advanceBase r).1 = p ∧ Reads ps (advanceBase r).2

theorem reads_pending (ps : List Post) (r : IndexStreamReader) (b : Bool) :
    Reads ps { r with hasPending := b } ↔ Reads ps r := by
  induction ps generalizing r with
  | nil => exact Iff.rfl
  | cons p ps ih =>
    rw [Reads, Reads, advanceBase_pending]
    exact and_congr Iff.rfl (and_congr Iff.rfl (ih _))

theorem reads_length {ps : List Post} {r : IndexStreamReader} (h : Reads ps r) :
    ps.length ≤ r.currLoc.length := by
  induction ps generalizing r with
  | nil => exact Nat.zero_le _
  | cons p ps ih =>
    have hlt := advanceBase_length h.1
    have hle := ih h.2.2
    rw [List.length_cons]
    omega

/-- A reader that stands where the cursor does. -/
structure Tracks (r : IndexStreamReader) (c : Cursor Post) : Prop where
  current : loc r = c.current
  ahead : Reads c.ahead r
  docs : ∀ p ∈ c.ahead, p.doc ≠ 0

theorem Tracks.pending {r : IndexStreamReader} {c : Cursor Post} (h : Tracks r c) (b : Bool) :
    Tracks { r with hasPending := b } c :=
  ⟨h.current, (reads_pending _ r b).mpr h.ahead, h.docs⟩

theorem Tracks.length {r : IndexStreamReader} {c : Cursor Post} (h : Tracks r c) :
    c.ahead.length ≤ r.currLoc.length := reads_length h.ahead

theorem Tracks.end {r : IndexStreamReader} {a : Post} (h : Tracks r ⟨a, []⟩) :
    (advanceBase r).1 = noPost ∧ Tracks (advanceBase r).2 ⟨a, []⟩ := by
  obtain ⟨hpost, hended, hloc⟩ := advanceBase_ended h.ahead
  exact ⟨hpost, hloc.trans h.current, hended, h.docs⟩

theorem Tracks.step {r : IndexStreamReader} {a p : Post} {ps : List Post}
    (h : Tracks r ⟨a, p :: ps⟩) : (advanceBase r).1 = p ∧ Tracks (advanceBase r).2 ⟨p, ps⟩ := by
  obtain ⟨hmore, hpost, hrest⟩ := h.ahead
  refine ⟨hpost, ?_, hrest, fun q hq => h.docs q (List.mem_cons_of_mem _ hq)⟩
  exact (advanceBase_loc hmore).trans hpost

/-! ## Searches -/

/-- Posts are read until one has the property: the loop of `advance_to`, for any property. -/
def walk (p : Post → Bool) : Nat → IndexStreamReader → Post × IndexStreamReader
  | 0, r => (loc r, r)
  | turns + 1, r =>
    if p (loc r) then (loc r, r)
    else
      let (q, r) := advanceBase r
      if q.doc = 0 then (q, r) else walk p turns r

/-- The post that a search of the cursor ends with, and none at the end of the list. -/
def found (p : Post → Bool) (c : Cursor Post) : Post :=
  if p (c.seek p).current then (c.seek p).current else noPost

theorem found_of_pos {p : Post → Bool} {c : Cursor Post} (h : p (c.seek p).current = true) :
    found p c = (c.seek p).current := if_pos h

theorem found_of_neg {p : Post → Bool} {c : Cursor Post} (h : p (c.seek p).current = false) :
    found p c = noPost := if_neg (by rw [h]; exact Bool.false_ne_true)

/-- With enough turns, the loop is the search of the cursor. -/
theorem walk_tracks (p : Post → Bool) {turns : Nat} {r : IndexStreamReader} {c : Cursor Post}
    (h : Tracks r c) (hturns : c.ahead.length < turns) :
    (walk p turns r).1 = found p c ∧ Tracks (walk p turns r).2 (c.seek p) ∧
      (walk p turns r).2.hasPending = r.hasPending := by
  obtain ⟨a, l⟩ := c
  induction l generalizing turns r a with
  | nil =>
    obtain ⟨turns, rfl⟩ : ∃ n, turns = n + 1 := ⟨turns - 1, by omega⟩
    have hcur : loc r = a := h.current
    rw [walk, hcur]
    cases hp : p a with
    | true =>
      rw [if_pos rfl]
      exact ⟨(found_of_pos (p := p) (c := ⟨a, []⟩) hp).symm, h, rfl⟩
    | false =>
      obtain ⟨hpost, hnext⟩ := h.end
      simp only [Bool.false_eq_true, if_false, hpost]
      exact ⟨(found_of_neg (p := p) (c := ⟨a, []⟩) hp).symm, hnext, hasPending_advanceBase r⟩
  | cons b l ih =>
    obtain ⟨turns, rfl⟩ : ∃ n, turns = n + 1 := ⟨turns - 1, by omega⟩
    have hcur : loc r = a := h.current
    rw [walk, hcur]
    cases hp : p a with
    | true =>
      have hseek : Cursor.seek p ⟨a, b :: l⟩ = ⟨a, b :: l⟩ := Cursor.seek_of_pos hp
      rw [if_pos rfl, found, hseek, if_pos hp]
      exact ⟨rfl, h, rfl⟩
    | false =>
      have hseek : Cursor.seek p ⟨a, b :: l⟩ = Cursor.seek p ⟨b, l⟩ := seekFrom_of_neg b l hp
      obtain ⟨hpost, hnext⟩ := h.step
      have hdoc : b.doc ≠ 0 := h.docs b List.mem_cons_self
      have hrun := ih b hnext (by simpa using hturns)
      simp only [Bool.false_eq_true, if_false, hpost, hdoc]
      rw [found, hseek]
      exact ⟨hrun.1, hrun.2.1, hrun.2.2.trans (hasPending_advanceBase r)⟩

/-- The posts at or after a doc. -/
def fromDoc (doc : Nat) (p : Post) : Bool := doc ≤ p.doc

theorem fromDoc_iff {doc : Nat} {p : Post} : fromDoc doc p = true ↔ doc ≤ p.doc :=
  decide_eq_true_iff

theorem fromDoc_false {doc : Nat} {p : Post} : fromDoc doc p = false ↔ p.doc < doc :=
  decide_eq_false_iff_not.trans Nat.not_le

theorem walkTo_eq (doc turns : Nat) (r : IndexStreamReader) :
    walkTo doc turns r = walk (fromDoc doc) turns r := by
  induction turns generalizing r with
  | zero => rfl
  | succ turns ih =>
    rw [walkTo, walk]
    by_cases h : r.docOffset < doc
    · have hp : fromDoc doc (loc r) = false := fromDoc_false.mpr h
      rw [if_pos h, hp]
      simp only [ih, Bool.false_eq_true, if_false]
    · have hp : fromDoc doc (loc r) = true := fromDoc_iff.mpr (Nat.not_lt.mp h)
      rw [if_neg h, if_pos hp]

/-- `advance_to` is the search for a post at or after the doc, with a pending post or without. -/
theorem advanceTo_tracks (doc : Nat) {r : IndexStreamReader} {c : Cursor Post} (h : Tracks r c) :
    (advanceTo doc r).1 = found (fromDoc doc) c ∧
      Tracks (advanceTo doc r).2 (c.seek (fromDoc doc)) ∧
      (advanceTo doc r).2.hasPending = false := by
  unfold advanceTo
  split
  · rename_i hpend
    have hp : fromDoc doc c.current = true := by
      rw [← h.current]
      exact fromDoc_iff.mpr hpend.2
    rw [found, Cursor.seek_of_pos hp, if_pos hp]
    exact ⟨h.current, h.pending false, rfl⟩
  · rw [walkTo_eq]
    exact walk_tracks (fromDoc doc) (h.pending false) (Nat.lt_succ_of_le h.length)

/-- `advance` without a pending post. -/
theorem advance_eq {r : IndexStreamReader} (h : r.hasPending = false) : advance r = advanceBase r :=
  if_neg (by rw [h]; exact Bool.false_ne_true)

/-! ## The positions in a doc -/

/-- The loop of `collect_positions_in_current_doc`: the positions after the first. -/
def collectLoop (currDoc : Nat) : Nat → IndexStreamReader → List Nat × IndexStreamReader
  | 0, r => ([], r)
  | turns + 1, r =>
    let (p, r) := advanceBase r
    if p.doc = 0 then ([], r)
    else if p.doc ≠ currDoc then ([], { r with hasPending := true })
    else
      let (out, r) := collectLoop currDoc turns r
      (p.loc :: out, r)

/-- `collect_positions_in_current_doc`. Every turn of its loop but the last takes a byte. -/
def collectPositionsInCurrentDoc (r : IndexStreamReader) : List Nat × IndexStreamReader :=
  let (out, r') := collectLoop r.docOffset (r.currLoc.length + 1) { r with hasPending := false }
  (r.locOffset :: out, r')

def otherDoc (doc : Nat) (p : Post) : Bool := p.doc ≠ doc

theorem collectLoop_tracks {turns : Nat} {r : IndexStreamReader} {c : Cursor Post}
    (h : Tracks r c) (hturns : c.ahead.length < turns) :
    (collectLoop c.current.doc turns r).1 =
        (c.ahead.takeWhile fun p => !otherDoc c.current.doc p).map Post.loc ∧
      Tracks (collectLoop c.current.doc turns r).2 (c.seek (otherDoc c.current.doc)) := by
  obtain ⟨a, l⟩ := c
  generalize hdoc : a.doc = doc
  have hother : otherDoc doc a = false := by simp [otherDoc, hdoc]
  induction l generalizing turns r a with
  | nil =>
    obtain ⟨turns, rfl⟩ : ∃ n, turns = n + 1 := ⟨turns - 1, by omega⟩
    obtain ⟨hpost, hnext⟩ := h.end
    rw [collectLoop]
    simp only [hpost, noPost, if_true]
    exact ⟨rfl, hnext⟩
  | cons b l ih =>
    obtain ⟨turns, rfl⟩ : ∃ n, turns = n + 1 := ⟨turns - 1, by omega⟩
    obtain ⟨hpost, hnext⟩ := h.step
    have hb : b.doc ≠ 0 := h.docs b List.mem_cons_self
    have hseek : Cursor.seek (otherDoc doc) ⟨a, b :: l⟩ = Cursor.seek (otherDoc doc) ⟨b, l⟩ :=
      seekFrom_of_neg b l hother
    rw [collectLoop, hseek]
    simp only [hpost, hb, if_false]
    by_cases hsame : b.doc = doc
    · have hbother : otherDoc doc b = false := by simp [otherDoc, hsame]
      obtain ⟨hout, htracks⟩ := ih b hnext (by simpa using hturns) hsame hbother
      simp only [hsame, ne_eq, not_true_eq_false, if_false]
      rw [List.takeWhile_cons_of_pos (by simp [hbother]), List.map_cons, hout]
      exact ⟨rfl, htracks⟩
    · have hbother : otherDoc doc b = true := by simp [otherDoc, hsame]
      simp only [ne_eq, hsame, not_false_eq_true, if_true]
      rw [List.takeWhile_cons_of_neg (by simp [hbother]),
        Cursor.seek_of_pos (c := ⟨b, l⟩) hbother]
      exact ⟨rfl, hnext.pending true⟩

/-- The positions are those of the posts up to another doc, where the cursor then stands. -/
theorem collect_tracks {r : IndexStreamReader} {c : Cursor Post} (h : Tracks r c) :
    (collectPositionsInCurrentDoc r).1 =
        (c.left.takeWhile fun p => !otherDoc c.current.doc p).map Post.loc ∧
      Tracks (collectPositionsInCurrentDoc r).2 (c.seek (otherDoc c.current.doc)) := by
  have hdoc : r.docOffset = c.current.doc := congrArg Post.doc h.current
  have hloc : r.locOffset = c.current.loc := congrArg Post.loc h.current
  have hother : otherDoc c.current.doc c.current = false := by simp [otherDoc]
  obtain ⟨hout, htracks⟩ := collectLoop_tracks (h.pending false) (Nat.lt_succ_of_le h.length)
  rw [← hdoc] at hother hout htracks ⊢
  unfold Cursor.left
  rw [List.takeWhile_cons_of_pos (by simp [hother]), List.map_cons, ← hout, ← hloc]
  exact ⟨rfl, htracks⟩

/-! ## Chunks -/

/-- A loaded chunk whose streams read, for every word, the ordered posts of a list. A word that
the chunk does not have has no posts. -/
structure Chunk where
  index : LoadedIndex
  postings : Bytes → List Post
  ordered : ∀ word, (postings word).Pairwise Post.Before
  docs : ∀ word, ∀ p ∈ postings word, 1 ≤ p.doc ∧ p.doc ≤ DOCS_PER_INDEX_CHUNK
  locs : ∀ word, ∀ p ∈ postings word, 1 ≤ p.loc ∧ p.loc < 2 ^ 32
  reads : ∀ word, Reads (postings word) (open' word index)

/-- The posts of a word after the place where a stream starts. -/
def Chunk.whole (c : Chunk) (word : Bytes) : List Post := noPost :: c.postings word

theorem before_doc_le {p q : Post} (h : p.Before q) : p.doc ≤ q.doc := by
  rcases h with h | ⟨h, _⟩
  · exact Nat.le_of_lt h
  · exact Nat.le_of_eq h

theorem fromDoc_up (doc : Nat) (p q : Post) (h : p.Before q) (hp : fromDoc doc p = true) :
    fromDoc doc q = true :=
  fromDoc_iff.mpr ((fromDoc_iff.mp hp).trans (before_doc_le h))

section Streams

variable (c : Chunk) (word : Bytes)

theorem whole_ordered : (c.whole word).Pairwise Post.Before :=
  List.pairwise_cons.mpr ⟨fun p hp => Or.inl (c.docs word p hp).1, c.ordered word⟩

/-- The place where a stream starts is never wanted. -/
theorem whole_filter {wanted : Post → Bool} (h : wanted noPost = false) :
    (c.whole word).filter wanted = (c.postings word).filter wanted :=
  List.filter_cons_of_neg (by rw [h]; exact Bool.false_ne_true)

/-- A reader of the word that has passed none of the wanted posts. -/
def StreamFrom (wanted : Post → Bool) (r : IndexStreamReader) : Prop :=
  ∃ cur, Tracks r cur ∧ Follows (c.whole word) wanted cur

/-- A reader of the word that stands at the first post from a doc on. -/
def StandsAt (doc : Nat) (r : IndexStreamReader) (p : Post) : Prop :=
  ∃ cur, Tracks r cur ∧ cur.left <:+ c.whole word ∧ cur.current = p ∧
    cur.left = (c.postings word).filter (fromDoc doc)

theorem loc_openAt (region : Bytes) (offset : Nat) :
    loc (openAt region offset) = noPost ∧ (openAt region offset).hasPending = false := by
  rw [openAt]
  simp only
  split
  · exact ⟨rfl, rfl⟩
  · split <;> exact ⟨rfl, rfl⟩

theorem loc_open (index : LoadedIndex) :
    loc (open' word index) = noPost ∧ (open' word index).hasPending = false := by
  rw [open']
  split
  · exact ⟨rfl, rfl⟩
  · exact loc_openAt _ _

theorem postsConsumed_open (index : LoadedIndex) : (open' word index).postsConsumed = 0 := by
  rw [open']
  split
  · rfl
  · rw [openAt]
    simp only
    split
    · rfl
    · split <;> rfl

/-- A stream without posts in its header is that of a word without posts. -/
theorem postings_nil (h : (open' word c.index).nPosts = 0) : c.postings word = [] := by
  have hreads := c.reads word
  cases hposts : c.postings word with
  | nil => rfl
  | cons p ps =>
    rw [hposts] at hreads
    exact absurd (Or.inl ((postsConsumed_open word c.index).trans h.symm)) hreads.1

theorem tracks_open : Tracks (open' word c.index) ⟨noPost, c.postings word⟩ :=
  ⟨(loc_open word c.index).1, c.reads word, fun p hp =>
    Nat.ne_of_gt (c.docs word p hp).1⟩

theorem streamFrom_open (wanted : Post → Bool) : StreamFrom c word wanted (open' word c.index) :=
  ⟨_, tracks_open c word, follows_start wanted noPost (c.postings word)⟩

variable {c word}

theorem StreamFrom.mono {p q : Post → Bool} {r : IndexStreamReader} (h : StreamFrom c word p r)
    (hsub : ∀ x, q x = true → p x = true) : StreamFrom c word q r := by
  obtain ⟨cur, htracks, hfollows⟩ := h
  exact ⟨cur, htracks, hfollows.mono hsub⟩

theorem fromDoc_mono {t t' : Nat} (hle : t ≤ t') (p : Post) (h : fromDoc t' p = true) :
    fromDoc t p = true :=
  fromDoc_iff.mpr (hle.trans (fromDoc_iff.mp h))

theorem follows_of_left {t t' : Nat} {cur : Cursor Post} (ht : 1 ≤ t) (hle : t ≤ t')
    (hsuffix : cur.left <:+ c.whole word)
    (hleft : cur.left = (c.postings word).filter (fromDoc t)) :
    Follows (c.whole word) (fromDoc t') cur := by
  have hfollows : Follows (c.whole word) (fromDoc t) cur := by
    refine ⟨hsuffix, ?_⟩
    rw [whole_filter c word (fromDoc_false.mpr ht), hleft, List.filter_filter]
    simp only [Bool.and_self]
  exact hfollows.mono (fromDoc_mono hle)

theorem StandsAt.streamFrom {t t' : Nat} {r : IndexStreamReader} {p : Post}
    (h : StandsAt c word t r p) (ht : 1 ≤ t) (hle : t ≤ t') :
    StreamFrom c word (fromDoc t') r := by
  obtain ⟨cur, htracks, hsuffix, _, hleft⟩ := h
  exact ⟨cur, htracks, follows_of_left ht hle hsuffix hleft⟩

/-- The post where the reader stands is the first one of the word from the doc on. -/
theorem StandsAt.first {t : Nat} {r : IndexStreamReader} {p : Post} (h : StandsAt c word t r p) :
    p ∈ c.postings word ∧ t ≤ p.doc ∧
      ∀ q ∈ c.postings word, t ≤ q.doc → q = p ∨ p.Before q := by
  obtain ⟨cur, _, hsuffix, hcur, hleft⟩ := h
  have hmem : p ∈ (c.postings word).filter (fromDoc t) := by
    rw [← hleft, ← hcur]
    exact List.mem_cons_self
  rw [List.mem_filter, fromDoc_iff] at hmem
  refine ⟨hmem.1, hmem.2, fun q hq hdoc => ?_⟩
  have hqleft : q ∈ cur.left := by
    rw [hleft, List.mem_filter]
    exact ⟨hq, fromDoc_iff.mpr hdoc⟩
  rcases List.mem_cons.mp hqleft with h | h
  · exact Or.inl (h.trans hcur)
  · rw [← hcur]
    exact Or.inr ((List.pairwise_cons.mp ((whole_ordered c word).sublist hsuffix.sublist)).1 q h)

/-- No post lies between the doc that was asked for and the post that was found. -/
theorem StandsAt.raise {t : Nat} {r : IndexStreamReader} {p : Post} (h : StandsAt c word t r p) :
    StandsAt c word p.doc r p := by
  obtain ⟨_, hle, hfirst⟩ := h.first
  obtain ⟨cur, htracks, hsuffix, hcur, hleft⟩ := h
  refine ⟨cur, htracks, hsuffix, hcur, ?_⟩
  rw [hleft]
  refine List.filter_congr fun q hq => ?_
  rw [Bool.eq_iff_iff, fromDoc_iff, fromDoc_iff]
  constructor
  · intro hdoc
    rcases hfirst q hq hdoc with rfl | hbefore
    · exact Nat.le_refl _
    · exact before_doc_le hbefore
  · exact fun hdoc => hle.trans hdoc

/-- `advance_to` stands at the first post from the doc on, or there is none. -/
theorem StreamFrom.advanceTo {t : Nat} {r : IndexStreamReader} (ht : 1 ≤ t)
    (h : StreamFrom c word (fromDoc t) r) :
    ((advanceTo t r).1 = noPost ∧ ∀ p ∈ c.postings word, p.doc < t) ∨
      ((advanceTo t r).1.doc ≠ 0 ∧ StandsAt c word t (advanceTo t r).2 (advanceTo t r).1) := by
  obtain ⟨cur, htracks, hfollows⟩ := h
  obtain ⟨hpost, hnext, _⟩ := advanceTo_tracks t htracks
  have hseek := hfollows.seek (p := fromDoc t) (fun x hx => hx)
  cases hfound : fromDoc t (cur.seek (fromDoc t)).current with
  | false =>
    have hnone := hfollows.none hfound
    rw [whole_filter c word (fromDoc_false.mpr ht), List.filter_eq_nil_iff] at hnone
    refine Or.inl ⟨hpost.trans (found_of_neg hfound), fun p hp => ?_⟩
    exact fromDoc_false.mp (Bool.eq_false_iff.mpr (hnone p hp))
  | true =>
    have hleft := hseek.found (whole_ordered c word) (fromDoc_up t) hfound
    rw [whole_filter c word (fromDoc_false.mpr ht)] at hleft
    rw [found_of_pos hfound] at hpost
    have hstands : StandsAt c word t (isr.advanceTo t r).2 (isr.advanceTo t r).1 :=
      ⟨_, hnext, hseek.suffix, hpost.symm, hleft⟩
    have hdoc := hstands.first.2.1
    exact Or.inr ⟨Nat.ne_of_gt (ht.trans hdoc), hstands⟩

/-- The positions of a word in a doc. -/
def positions (posts : List Post) (doc : Nat) : List Nat :=
  (posts.filter fun p => p.doc = doc).map Post.loc

/-- All positions in the doc are collected, and no post of a later doc is passed. -/
theorem StandsAt.collect {t : Nat} {r : IndexStreamReader} {p : Post} (h : StandsAt c word t r p)
    (ht : 1 ≤ t) (hdoc : p.doc = t) :
    (collectPositionsInCurrentDoc r).1 = positions (c.postings word) t ∧
      StreamFrom c word (fromDoc (t + 1)) (collectPositionsInCurrentDoc r).2 := by
  obtain ⟨cur, htracks, hsuffix, hcur, hleft⟩ := h
  have hsame : cur.current.doc = t := by rw [hcur, hdoc]
  obtain ⟨hout, hnext⟩ := collect_tracks htracks
  rw [hsame] at hout hnext
  refine ⟨?_, _, hnext, (follows_of_left ht (Nat.le_succ t) hsuffix hleft).seek ?_⟩
  · -- the posts in the doc are the first ones that are left
    have hsorted : cur.left.Pairwise fun x y => t ≤ x.doc ∧ x.doc ≤ y.doc := by
      rw [hleft]
      refine ((c.ordered word).filter _).imp_of_mem fun hx _ hxy => ?_
      exact ⟨fromDoc_iff.mp (List.mem_filter.mp hx).2, before_doc_le hxy⟩
    have hdown (x y : Post) (hxy : t ≤ x.doc ∧ x.doc ≤ y.doc) (hy : (!otherDoc t y) = true) :
        (!otherDoc t x) = true := by
      simp only [otherDoc, ne_eq, decide_not, Bool.not_not, decide_eq_true_eq] at hy ⊢
      omega
    rw [hout, takeWhile_eq_filter hsorted hdown, hleft, List.filter_filter]
    unfold positions
    congr 1
    refine List.filter_congr fun x _ => ?_
    simp only [otherDoc, fromDoc, ne_eq, decide_not, Bool.not_not]
    by_cases hx : x.doc = t <;> simp [hx]
  · intro x hx
    have hlt := fromDoc_iff.mp hx
    exact decide_eq_true (by omega)

end Streams

/-! ## The chunk of a file that was written -/

/-- A reader in front of the bytes of a list reads its posts, if no delta of it is replaced. -/
theorem reads_written {lastDoc lastLoc : Nat} {ps : List Post} {rest : Bytes}
    {r : IndexStreamReader} (h : After lastDoc lastLoc ps)
    (hr : posting_round_trip.StandsAt lastDoc lastLoc ps rest r)
    (hdeltas : ∀ d ∈ deltas lastDoc lastLoc ps, ¬utf8.Reserved d) : Reads ps r := by
  induction ps generalizing lastDoc lastLoc r with
  | nil =>
    have hcount := hr.count
    rw [List.length_nil] at hcount
    exact Or.inl hcount.symm
  | cons p ps ih =>
    rw [posting_round_trip.deltas_cons _ _ _ _ h, List.forall_mem_append] at hdeltas
    obtain ⟨hpost, hnext⟩ := posting_round_trip.advance_written lastDoc lastLoc p ps rest r h hr
    have hp := hpost.mpr hdeltas.1
    rw [advance_eq hr.pending] at hp hnext
    refine ⟨?_, hp, ih h.tail (hnext hp) hdeltas.2⟩
    rintro (hcount | hnil)
    · have hmore := hr.count
      rw [List.length_cons] at hmore
      omega
    · have hbytes := hr.bytes
      rw [hnil, eq_comm, List.append_eq_nil_iff] at hbytes
      have hle := length_le_writePosts lastDoc lastLoc (p :: ps)
      rw [hbytes.1] at hle
      exact absurd hle (by simp)

/-- What the words and the deltas of a chunk in memory must be for its file to be read back:
the sort and the search agree on the words, and no delta is replaced. -/
structure ReadsBack (s : chunk_layout.ChunkState) : Prop where
  words : SameSigns s.index.keys
  deltas : ∀ word ∈ s.index.keys, ∀ d ∈ deltas 0 0 (s.postings word).posts, ¬utf8.Reserved d

section Written

open chunk_layout

variable (s : ChunkState) (order : List Bytes) (hperm : order.Perm s.index.keys)
include hperm

/-- Where the list of a word starts in the region. -/
def offsetOf (word : Bytes) : Nat := (written s.postings (order.take (order.idxOf word))).length

theorem offsetOf_getElem (i : Nat) (hi : i < order.length) :
    offsetOf s order order[i] = (written s.postings (order.take i)).length := by
  have hnodup : order.Nodup := hperm.nodup_iff.mpr s.index.keys_nodup
  rw [offsetOf, hnodup.idxOf_getElem i hi]

theorem dictEntries_written :
    (load (writeChunk s.urls s.postings order)).dictEntries =
      order.map (entryOf (offsetOf s order) fun word => (s.postings word).posts.length) := by
  have hlength := congrArg List.length (writeChunk_layout s order hperm).words
  rw [List.length_map] at hlength
  apply List.ext_getElem?
  intro i
  by_cases hi : i < order.length
  · rw [dictEntry_at s order hperm i hi, List.getElem?_map, List.getElem?_eq_getElem hi,
      Option.map_some, loadedEntry, entryOf, offsetOf_getElem s order hperm i hi]
  · rw [List.getElem?_eq_none (by omega), List.getElem?_eq_none (by rw [List.length_map]; omega)]

/-- The stream of a word in a file whose words are found and whose deltas are not replaced. -/
theorem reads_open (h : ReadsBack s)
    (hsorted : order.Pairwise fun u v => compare u v = .lt) (word : Bytes) :
    Reads (s.postings word).posts (open' word (load (writeChunk s.urls s.postings order))) := by
  have hshort : ∀ w ∈ order, w.length < 2 ^ 32 :=
    fun w hw => (order_indexable s order hperm w hw).short
  rw [open', dictEntries_written s order hperm]
  by_cases hword : word ∈ order
  · obtain ⟨i, hi, rfl⟩ := List.getElem_of_mem hword
    have hvalid := order_valid s order hperm _ hword
    have hregion := (writeChunk_layout s order hperm).region.2
    have hstands := posting_round_trip.standsAt_opened (written s.postings (order.take i))
      (written s.postings (order.drop (i + 1))) (s.postings order[i]) hvalid
    rw [← written_split s.postings order i hi] at hstands
    rw [lookup_of_sorted _ _ order i hshort hi hsorted, hregion]
    simp only [entryOf, offsetOf_getElem s order hperm i hi]
    exact reads_written hvalid.after hstands (h.deltas _ (hperm.mem_iff.mp hword))
  · have hnone : s.postings word = ⟨[], 0⟩ := by
      have hlookup : s.index.lookup word = none := by
        rw [AList.lookup_eq_none]
        exact fun hmem => hword (hperm.mem_iff.mpr (AList.mem_keys.mpr hmem))
      rw [ChunkState.postings, hlookup]
      rfl
    rw [lookup_eq_none _ _ order word hshort hword, hnone]
    exact Or.inl rfl

omit hperm in
theorem postings_valid (word : Bytes) :
    (s.postings word).posts = [] ∨ (s.postings word).Valid := by
  cases hlookup : s.index.lookup word with
  | none =>
    refine Or.inl ?_
    rw [ChunkState.postings, hlookup]
    rfl
  | some e =>
    refine Or.inr (s.valid word (AList.mem_keys.mp ?_)).1
    exact AList.lookup_isSome.mp (by rw [hlookup]; rfl)

/-- The chunk that is loaded from the file. -/
def chunkOf (h : ReadsBack s) (hsorted : order.Pairwise fun u v => compare u v = .lt) : Chunk where
  index := load (writeChunk s.urls s.postings order)
  postings word := (s.postings word).posts
  ordered word := by
    rcases postings_valid s word with hnil | hv
    · rw [hnil]
      exact List.Pairwise.nil
    · exact hv.ordered
  docs word := by
    rcases postings_valid s word with hnil | hv
    · simp [hnil]
    · exact hv.docs
  locs word := by
    rcases postings_valid s word with hnil | hv
    · simp [hnil]
    · exact fun p hp => ⟨(hv.locs p hp).1, Nat.lt_trans (hv.locs p hp).2 (by decide)⟩
  reads := reads_open s order hperm h hsorted

theorem chunkOf_index (h : ReadsBack s)
    (hsorted : order.Pairwise fun u v => compare u v = .lt) :
    (chunkOf s order hperm h hsorted).index = load (writeChunk s.urls s.postings order) := by
  dsimp only [chunkOf]

end Written

/-- The file of a chunk is loaded as a chunk with the posts that were written. -/
theorem exists_chunk_of_file (s : chunk_layout.ChunkState) (h : ReadsBack s) :
    ∃ fuel file, chunk_layout.persist fuel s = some file ∧
      ∃ c : Chunk, c.index = load file ∧ ∀ word, c.postings word = (s.postings word).posts := by
  have hind : ∀ w ∈ s.index.keys, sort.Indexable w :=
    fun w hw => s.wordsIndexable w (AList.mem_keys.mpr hw)
  obtain ⟨fuel, order, run, hperm, hsorted⟩ := sort.sortEntries_spec s.index.keys
    s.index.keys_nodup fun w hw => (hind w hw).noNul
  rw [List.filter_eq_self.mpr fun w hw => (hind w hw).slot] at hperm
  have hclean : ∀ w ∈ order, ∀ b ∈ w, b ≠ 0 := fun w hw => (hind w (hperm.mem_iff.mp hw)).noNul
  have hbelow : order.Pairwise fun u v => compare u v = .lt :=
    hsorted.imp_of_mem fun hu hv huv => (compare_lt_iff_below _ _ (hclean _ hu) (hclean _ hv)).mpr
      (below_of_sameSigns _ h.words _ _ (hperm.mem_iff.mp hu) (hperm.mem_iff.mp hv) huv)
  refine ⟨fuel, chunk_layout.writeChunk s.urls s.postings order, ?_, ?_⟩
  · rw [chunk_layout.persist, run, Option.map_some]
  · exact ⟨chunkOf s order hperm h hbelow, chunkOf_index s order hperm h hbelow, fun _ => rfl⟩

end seamus.post_streams
