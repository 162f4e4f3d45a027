-- Phrase search: `PhraseISR` of the query tree, doc by doc or probed, and
-- `chunk_manager::phrase_query`. All anchor on the first word, and check that the streams of the
-- others have their posts right behind it.
import Mathlib.Data.List.Sort
import Seamus.DefaultQuery

open cursor seamus.index seamus.isr seamus.loaded_index seamus.post_streams seamus.default_query

namespace seamus.phrase_query

/-! ## The check behind an anchor -/

/-- The posts of the doc up to a location are passed. -/
def walkToLoc (doc wantLoc : Nat) : Nat → Post → IndexStreamReader → Post × IndexStreamReader
  | 0, p, r => (p, r)
  | turns + 1, p, r =>
    if p.doc = doc ∧ p.loc < wantLoc then
      let (p, r) := advance r
      if p.doc = 0 then (p, r) else walkToLoc doc wantLoc turns p r
    else (p, r)

/-- What both checks do with a stream that has the doc, with a turn for every byte of it. -/
def standsAtLoc (doc wantLoc : Nat) (p : Post) (r : IndexStreamReader) : Bool × IndexStreamReader :=
  let (p, r) := walkToLoc doc wantLoc (r.currLoc.length + 1) p r
  (p.doc = doc && p.loc = wantLoc, r)

/-- A turn of the loop of `check_adjacency`. -/
def adjacentIn (ground : Post) (i : Nat) (r : IndexStreamReader) : Bool × IndexStreamReader :=
  let wantLoc := u32 (ground.loc + u32 i)
  let (p, r) := advanceTo ground.doc r
  if p.doc ≠ ground.doc then (false, r) else standsAtLoc ground.doc wantLoc p r

/-- A turn of the loop of `validate_pos`. -/
def validIn (ground : Post) (i : Nat) (r : IndexStreamReader) : Bool × IndexStreamReader :=
  let wantLoc := u32 (ground.loc + u32 i)
  let (p, r) := advanceTo ground.doc r
  if p.doc = 0 ∨ p.doc ≠ ground.doc then (false, r) else standsAtLoc ground.doc wantLoc p r

/-- The loop of a check over the streams of the other words. -/
def checkFrom (check : Post → Nat → IndexStreamReader → Bool × IndexStreamReader) (ground : Post) :
    Nat → List IndexStreamReader → Bool × List IndexStreamReader
  | _, [] => (true, [])
  | i, r :: rest =>
    let (ok, r) := check ground i r
    if ok then
      let (ok, rest) := checkFrom check ground (i + 1) rest
      (ok, r :: rest)
    else (false, r :: rest)

def checkAdjacency (ground : Post) (rest : List IndexStreamReader) :
    Bool × List IndexStreamReader :=
  checkFrom adjacentIn ground 1 rest

def validatePos (ground : Post) (rest : List IndexStreamReader) :
    Bool × List IndexStreamReader :=
  checkFrom validIn ground 1 rest

/-! ## `PhraseISR` -/

/-- The words of a phrase. Every turn of the loop takes a byte. -/
def phraseWordsLoop : Nat → Bytes → List Bytes
  | 0, _ => []
  | turns + 1, phrase =>
    match phrase.dropWhile (· = space) with
    | [] => []
    | b :: rest =>
      (b :: rest).takeWhile (· ≠ space) ::
        phraseWordsLoop turns ((b :: rest).dropWhile (· ≠ space))

def phraseWords (phrase : Bytes) : List Bytes := phraseWordsLoop (phrase.length + 1) phrase

structure PhraseISR where
  isNegated : Bool
  streams : List IndexStreamReader

def PhraseISR.new (phrase : Bytes) (isNegated : Bool) (index : LoadedIndex) : PhraseISR :=
  ⟨isNegated, (phraseWords phrase).map fun word => open' word index⟩

/-- The loop of `next_doc`, on the first stream and the others. -/
def nextDocLoop : Nat → Post → IndexStreamReader → List IndexStreamReader →
    Option (Nat × List IndexStreamReader)
  | 0, _, _, _ => none
  | turns + 1, ground, first, rest =>
    if ground.doc = 0 then some (0, first :: rest)
    else if rest.length = 0 then some (ground.doc, first :: rest)
    else
      let (ok, rest) := checkAdjacency ground rest
      if ok then some (ground.doc, first :: rest)
      else
        let (ground, first) := advance first
        nextDocLoop turns ground first rest

/-- `next_doc`: none as long as its loop has not ended. -/
def PhraseISR.nextDoc (isr : PhraseISR) : Option (Nat × PhraseISR) :=
  match isr.streams with
  | [] => some (0, isr)
  | first :: rest =>
    let (ground, first) := advanceToNextDoc first
    (nextDocLoop (first.currLoc.length + 2) ground first rest).map fun (doc, streams) =>
      (doc, { isr with streams := streams })

/-- The loop of `probe`. -/
def probeLoop (doc : Nat) : Nat → Post → IndexStreamReader → List IndexStreamReader →
    Option (Bool × List IndexStreamReader)
  | 0, _, _, _ => none
  | turns + 1, ground, first, rest =>
    if ground.doc = doc then
      let (ok, rest) := checkAdjacency ground rest
      if ok then some (true, first :: rest)
      else
        let (ground, first) := advance first
        if ground.doc = 0 then some (false, first :: rest)
        else probeLoop doc turns ground first rest
    else some (false, first :: rest)

/-- `probe`: none as long as its loop has not ended. -/
def PhraseISR.probe (doc : Nat) (isr : PhraseISR) : Option (Bool × PhraseISR) :=
  match isr.streams with
  | [] => some (isr.isNegated, isr)
  | first :: rest =>
    let (ground, first) := advanceTo doc first
    if ground.doc ≠ doc then some (isr.isNegated, { isr with streams := first :: rest })
    else if rest.length = 0 then some (!isr.isNegated, { isr with streams := first :: rest })
    else
      (probeLoop doc (first.currLoc.length + 1) ground first rest).map fun (found, streams) =>
        (if found then !isr.isNegated else isr.isNegated, { isr with streams := streams })

/-- The docs that the calls of `next_doc` give, until one gives 0. -/
def nextDocs : Nat → PhraseISR → Option (List Nat)
  | 0, _ => none
  | calls + 1, isr =>
    match isr.nextDoc with
    | none => none
    | some (doc, isr) => if doc = 0 then some [] else (nextDocs calls isr).map (doc :: ·)

/-- The docs of a list for which `probe` is true, one call after the other. -/
def probedDocs : List Nat → PhraseISR → Option (List Nat)
  | [], _ => some []
  | doc :: docs, isr =>
    match isr.probe doc with
    | none => none
    | some (present, isr) =>
      (probedDocs docs isr).map fun found => if present then doc :: found else found

/-! ## `phrase_query` -/

/-- The doc of a match, with the one position of every word. -/
def phraseInfo (index : LoadedIndex) (words : List Bytes) (ground : Post) : DocInfo :=
  ⟨getUrl index ground.doc, words.mapIdx fun i word => ⟨word, [ground.loc + i], 0, false⟩⟩

section Query

variable (index : LoadedIndex) (deadlineMs : Nat) (clock : Clock) (words : List Bytes)

/-- The loop of `phrase_query`. -/
def phraseQueryLoop : Nat → Nat → List DocInfo → Post → IndexStreamReader →
    List IndexStreamReader → Option (List DocInfo)
  | 0, _, _, _, _, _ => none
  | turns + 1, check, docs, ground, first, rest =>
    if fires deadlineMs clock check then some docs
    else if ground.doc = 0 then some docs
    else
      let (ok, rest) := validatePos ground rest
      if ok then
        let docs := docs ++ [phraseInfo index words ground]
        let (ground, first) := advanceToNextDoc first
        phraseQueryLoop turns (check + 1) docs ground first rest
      else
        let (ground, first) := advance first
        phraseQueryLoop turns (check + 1) docs ground first rest

/-- What `phrase_query` appends to the data channel: none as long as its loop has not ended.
Every turn but the first and the last takes a byte of the first stream. -/
def phraseQuery : Option (List DocInfo) :=
  match words with
  | [] => some []
  | [word] => defaultQuery index deadlineMs clock [word]
  | word :: others =>
    let (ground, first) := advance (open' word index)
    phraseQueryLoop index deadlineMs clock words ((open' word index).currLoc.length + 2) 0 []
      ground first (others.map fun word => open' word index)

end Query

/-! ## One stream behind an anchor -/

/-- The posts from a location of a doc on. -/
def fromLoc (doc loc : Nat) (p : Post) : Bool := doc < p.doc || (doc = p.doc && loc ≤ p.loc)

theorem fromLoc_iff {doc loc : Nat} {p : Post} :
    fromLoc doc loc p = true ↔ doc < p.doc ∨ (doc = p.doc ∧ loc ≤ p.loc) := by
  simp [fromLoc]

theorem fromLoc_fromDoc (doc loc : Nat) (p : Post) (h : fromLoc doc loc p = true) :
    fromDoc doc p = true := by
  rw [fromLoc_iff] at h
  rw [fromDoc_iff]
  omega

theorem fromLoc_mono {doc loc doc' loc' : Nat} (h : doc < doc' ∨ (doc = doc' ∧ loc ≤ loc'))
    (p : Post) (hp : fromLoc doc' loc' p = true) : fromLoc doc loc p = true := by
  rw [fromLoc_iff] at hp ⊢
  omega

/-- Whether the walk to a location stops at a post. -/
def stopsAt (doc wantLoc : Nat) (p : Post) : Bool := ¬(p.doc = doc ∧ p.loc < wantLoc)

theorem stopsAt_iff {doc wantLoc : Nat} {p : Post} :
    stopsAt doc wantLoc p = true ↔ ¬(p.doc = doc ∧ p.loc < wantLoc) :=
  decide_eq_true_iff

theorem walkToLoc_eq (doc wantLoc turns : Nat) {r : IndexStreamReader}
    (hpending : r.hasPending = false) :
    walkToLoc doc wantLoc turns (loc r) r = walk (stopsAt doc wantLoc) turns r := by
  induction turns generalizing r with
  | zero => rfl
  | succ turns ih =>
    rw [walkToLoc, walk]
    by_cases h : (loc r).doc = doc ∧ (loc r).loc < wantLoc
    · have hstop : stopsAt doc wantLoc (loc r) = false := by
        rw [← Bool.not_eq_true, stopsAt_iff]
        exact not_not.mpr h
      rw [if_pos h, hstop, advance_eq hpending]
      simp only [Bool.false_eq_true, if_false]
      split
      · rfl
      · rename_i hdoc
        have hmore : ¬Ended r := fun hended => hdoc (by rw [(advanceBase_ended hended).1]; rfl)
        rw [← advanceBase_loc hmore]
        exact ih ((hasPending_advanceBase r).trans hpending)
    · rw [if_neg h, if_pos (stopsAt_iff.mpr h)]

section OneStream

variable {c : Chunk} {word : Bytes} {doc l : Nat} {cur : Cursor Post}

/-- A post that is wanted is left exactly if it is a post of the word. -/
theorem mem_left_iff (hdoc : 1 ≤ doc) (h : Follows (c.whole word) (fromLoc doc l) cur) :
    ⟨doc, l⟩ ∈ cur.left ↔ ⟨doc, l⟩ ∈ c.postings word := by
  have hwanted : fromLoc doc l ⟨doc, l⟩ = true := fromLoc_iff.mpr (Or.inr ⟨rfl, Nat.le_refl l⟩)
  have hkeeps : ⟨doc, l⟩ ∈ cur.left.filter (fromLoc doc l) ↔
      ⟨doc, l⟩ ∈ (c.whole word).filter (fromLoc doc l) := by rw [h.keeps]
  rw [List.mem_filter, List.mem_filter, and_iff_left hwanted, and_iff_left hwanted] at hkeeps
  rw [hkeeps, Chunk.whole, List.mem_cons, or_iff_right]
  intro hnone
  have hzero : doc = 0 := congrArg Post.doc hnone
  omega

/-- Where the cursor has reached the post or passed it by no other, it is there or nowhere. -/
theorem mem_iff_current (hdoc : 1 ≤ doc) (h : Follows (c.whole word) (fromLoc doc l) cur)
    (hreached : fromLoc doc l cur.current = true) :
    ⟨doc, l⟩ ∈ c.postings word ↔ cur.current.doc = doc ∧ cur.current.loc = l := by
  rw [← mem_left_iff hdoc h]
  have hordered := List.pairwise_cons.mp ((whole_ordered c word).sublist h.suffix.sublist)
  rw [fromLoc_iff] at hreached
  constructor
  · intro hmem
    rcases List.mem_cons.mp hmem with heq | hahead
    · exact ⟨(congrArg Post.doc heq).symm, (congrArg Post.loc heq).symm⟩
    · have hbefore := hordered.1 _ hahead
      unfold Post.Before at hbefore
      simp only at hbefore
      omega
  · rintro ⟨hd, hl⟩
    have heq : cur.current = ⟨doc, l⟩ := Post.ext hd hl
    rw [← heq]
    exact List.mem_cons_self

/-- The walk ends where the location is, if it is anywhere. A wanted location that does not fit
32 bits is 0 for the code, where no post is. -/
theorem standsAtLoc_spec {r : IndexStreamReader} (hdoc : 1 ≤ doc) (hl : l ≤ 2 ^ 32)
    (htracks : Tracks r cur) (hpending : r.hasPending = false) (hin : cur.current.doc = doc)
    (h : Follows (c.whole word) (fromLoc doc l) cur) :
    ((standsAtLoc doc (u32 l) cur.current r).1 = true ↔ ⟨doc, l⟩ ∈ c.postings word) ∧
      StreamFrom c word (fromLoc doc l) (standsAtLoc doc (u32 l) cur.current r).2 := by
  have hwalk := walk_tracks (stopsAt doc (u32 l)) htracks (Nat.lt_succ_of_le htracks.length)
  rw [← walkToLoc_eq doc (u32 l) _ hpending, htracks.current] at hwalk
  obtain ⟨hpost, hnext, _⟩ := hwalk
  have hmem : cur.current ∈ c.postings word := by
    have hwhole := h.suffix.subset List.mem_cons_self
    rcases List.mem_cons.mp hwhole with hnone | hmem
    · rw [hnone] at hin
      exact absurd hdoc (by rw [← hin]; decide)
    · exact hmem
  unfold standsAtLoc
  simp only [hpost, Bool.and_eq_true, decide_eq_true_eq]
  rcases Nat.lt_or_eq_of_le hl with hlt | heq
  · rw [u32_of_lt hlt] at hnext ⊢
    have hsub (x : Post) (hx : fromLoc doc l x = true) : stopsAt doc l x = true := by
      rw [fromLoc_iff] at hx
      rw [stopsAt_iff]
      omega
    have hseek := h.seek hsub
    refine ⟨?_, _, hnext, hseek⟩
    cases hfound : stopsAt doc l (cur.seek (stopsAt doc l)).current with
    | false =>
      rw [found_of_neg hfound]
      refine iff_of_false (fun hz => absurd hdoc (by rw [← hz.1]; decide)) fun hpost => ?_
      have hstop := seekFrom_none hfound _ ((mem_left_iff hdoc h).mpr hpost)
      rw [hsub _ (fromLoc_iff.mpr (Or.inr ⟨rfl, Nat.le_refl l⟩))] at hstop
      cases hstop
    | true =>
      rw [found_of_pos hfound]
      refine (mem_iff_current hdoc hseek ?_).symm
      -- the walk started in the doc
      have hle : doc ≤ (cur.seek (stopsAt doc l)).current.doc := by
        have hleft := (seekFrom_suffix (stopsAt doc l) cur.current cur.ahead).subset
          List.mem_cons_self
        rcases List.mem_cons.mp hleft with hsame | hahead
        · exact Nat.le_of_eq (hin.symm.trans (congrArg Post.doc hsame).symm)
        · exact (Nat.le_of_eq hin.symm).trans (before_doc_le ((List.pairwise_cons.mp
            ((whole_ordered c word).sublist h.suffix.sublist)).1 _ hahead))
      rw [stopsAt_iff] at hfound
      rw [fromLoc_iff]
      omega
  · have hzero : u32 l = 0 := by rw [heq]; rfl
    have hstop : stopsAt doc 0 cur.current = true := stopsAt_iff.mpr fun h => Nat.not_lt_zero _ h.2
    rw [hzero] at hnext ⊢
    rw [Cursor.seek_of_pos hstop] at hnext
    rw [found, Cursor.seek_of_pos hstop, if_pos hstop]
    refine ⟨iff_of_false (fun hz => ?_) fun hpost => ?_, _, hnext, h⟩
    · have hpos := (c.locs word _ hmem).1
      omega
    · have hbound := (c.locs word _ hpost).2
      simp only at hbound
      omega

theorem adjacentIn_spec {ground : Post} {i : Nat} {r : IndexStreamReader} (hdoc : 1 ≤ ground.doc)
    (hl : ground.loc + i ≤ 2 ^ 32)
    (h : StreamFrom c word (fromLoc ground.doc (ground.loc + i)) r) :
    ((adjacentIn ground i r).1 = true ↔ ⟨ground.doc, ground.loc + i⟩ ∈ c.postings word) ∧
      StreamFrom c word (fromLoc ground.doc (ground.loc + i)) (adjacentIn ground i r).2 := by
  obtain ⟨cur, htracks, hfollows⟩ := h
  obtain ⟨hpost, hnext, hpending⟩ := advanceTo_tracks ground.doc htracks
  have hseek := hfollows.seek (fromLoc_fromDoc ground.doc (ground.loc + i))
  have hu : u32 (ground.loc + u32 i) = u32 (ground.loc + i) := by
    unfold u32
    omega
  unfold adjacentIn
  simp only [hu, hpost]
  cases hfound : fromDoc ground.doc (cur.seek (fromDoc ground.doc)).current with
  | false =>
    have hne : noPost.doc ≠ ground.doc := Nat.ne_of_lt hdoc
    rw [found_of_neg hfound, if_pos hne]
    refine ⟨iff_of_false Bool.false_ne_true fun hmem => ?_, _, hnext, hseek⟩
    have hstop := seekFrom_none hfound _ ((mem_left_iff hdoc hfollows).mpr hmem)
    rw [fromDoc_false] at hstop
    exact Nat.lt_irrefl _ hstop
  | true =>
    rw [found_of_pos hfound]
    by_cases hin : (cur.seek (fromDoc ground.doc)).current.doc = ground.doc
    · rw [if_neg (not_not.mpr hin)]
      exact standsAtLoc_spec hdoc hl hnext hpending hin hseek
    · rw [if_pos hin]
      refine ⟨iff_of_false Bool.false_ne_true fun hmem => ?_, _, hnext, hseek⟩
      rw [fromDoc_iff] at hfound
      have hreached : fromLoc ground.doc (ground.loc + i)
          (cur.seek (fromDoc ground.doc)).current = true := fromLoc_iff.mpr (Or.inl (by omega))
      exact hin ((mem_iff_current hdoc hseek hreached).mp hmem).1

end OneStream

/-- The two checks are the same: an anchor is never in the doc 0. -/
theorem validIn_eq {ground : Post} (hdoc : 1 ≤ ground.doc) (i : Nat) (r : IndexStreamReader) :
    validIn ground i r = adjacentIn ground i r := by
  unfold validIn adjacentIn
  have hor (p : Post) : (p.doc = 0 ∨ p.doc ≠ ground.doc) ↔ p.doc ≠ ground.doc := by omega
  simp only [hor]

theorem checkFrom_congr {check check' : Post → Nat → IndexStreamReader → Bool × IndexStreamReader}
    {ground : Post} (h : ∀ i r, check ground i r = check' ground i r) (i : Nat)
    (rest : List IndexStreamReader) :
    checkFrom check ground i rest = checkFrom check' ground i rest := by
  induction rest generalizing i with
  | nil => rfl
  | cons r rest ih => rw [checkFrom, checkFrom, h, ih]

theorem validatePos_eq {ground : Post} (hdoc : 1 ≤ ground.doc) (rest : List IndexStreamReader) :
    validatePos ground rest = checkAdjacency ground rest :=
  checkFrom_congr (validIn_eq hdoc) 1 rest

/-! ## All streams behind an anchor -/

/-- The words stand one after the other from a location on. -/
def followedBy (c : Chunk) (doc : Nat) : Nat → List Bytes → Bool
  | _, [] => true
  | loc, word :: words => ⟨doc, loc⟩ ∈ c.postings word && followedBy c doc (loc + 1) words

/-- The streams of the words, none of which has passed its location behind an anchor. -/
def Waiting (c : Chunk) (doc : Nat) : Nat → List Bytes → List IndexStreamReader → Prop
  | _, [], [] => True
  | loc, word :: words, r :: rest =>
    StreamFrom c word (fromLoc doc loc) r ∧ Waiting c doc (loc + 1) words rest
  | _, [], _ :: _ => False
  | _, _ :: _, [] => False

section Waiting

variable {c : Chunk}

theorem Waiting.mono {doc doc' loc loc' : Nat} {words : List Bytes}
    {rest : List IndexStreamReader} (h : Waiting c doc loc words rest)
    (hle : doc < doc' ∨ (doc = doc' ∧ loc ≤ loc')) : Waiting c doc' loc' words rest := by
  induction words generalizing loc loc' rest with
  | nil =>
    cases rest with
    | nil => trivial
    | cons r rest => exact h.elim
  | cons word words ih =>
    cases rest with
    | nil => exact h.elim
    | cons r rest =>
      obtain ⟨hr, hrest⟩ := h
      refine ⟨hr.mono (fromLoc_mono hle), ih hrest ?_⟩
      omega

theorem waiting_open (c : Chunk) (doc loc : Nat) (words : List Bytes) :
    Waiting c doc loc words (words.map fun word => open' word c.index) := by
  induction words generalizing loc with
  | nil => trivial
  | cons word words ih => exact ⟨streamFrom_open c word _, ih _⟩

theorem Waiting.length {doc loc : Nat} {words : List Bytes} {rest : List IndexStreamReader}
    (h : Waiting c doc loc words rest) : rest.length = words.length := by
  induction words generalizing loc rest with
  | nil =>
    cases rest with
    | nil => rfl
    | cons r rest => exact h.elim
  | cons word words ih =>
    cases rest with
    | nil => exact h.elim
    | cons r rest => rw [List.length_cons, List.length_cons, ih h.2]

theorem checkFrom_spec {ground : Post} (hdoc : 1 ≤ ground.doc) {i : Nat} {words : List Bytes}
    {rest : List IndexStreamReader} (hl : ground.loc + i ≤ 2 ^ 32)
    (h : Waiting c ground.doc (ground.loc + i) words rest) :
    (checkFrom adjacentIn ground i rest).1 =
        followedBy c ground.doc (ground.loc + i) words ∧
      Waiting c ground.doc (ground.loc + i) words (checkFrom adjacentIn ground i rest).2 := by
  induction words generalizing i rest with
  | nil =>
    cases rest with
    | nil => exact ⟨rfl, trivial⟩
    | cons r rest => exact h.elim
  | cons word words ih =>
    cases rest with
    | nil => exact h.elim
    | cons r rest =>
      obtain ⟨hr, hrest⟩ := h
      obtain ⟨hok, hnext⟩ := adjacentIn_spec hdoc hl hr
      rw [checkFrom, followedBy]
      cases hcheck : (adjacentIn ground i r).1 with
      | false =>
        have hnot : ¬⟨ground.doc, ground.loc + i⟩ ∈ c.postings word := by
          rw [← hok, hcheck]
          exact Bool.false_ne_true
        simp only [hcheck, Bool.false_eq_true, if_false, decide_eq_false hnot, Bool.false_and]
        exact ⟨trivial, hnext, hrest⟩
      | true =>
        have hmem := hok.mp hcheck
        have hbound := (c.locs word _ hmem).2
        obtain ⟨hall, hwaiting⟩ := ih (i := i + 1)
          (by simp only at hbound; omega) hrest
        simp only [hcheck, if_true, decide_eq_true hmem, Bool.true_and, hall]
        exact ⟨rfl, hnext, hwaiting⟩

/-- Whether the other words stand right behind a post of the first. -/
def hit (c : Chunk) (others : List Bytes) (p : Post) : Bool := followedBy c p.doc (p.loc + 1) others

theorem checkAdjacency_spec {ground : Post} {word : Bytes} {others : List Bytes}
    {rest : List IndexStreamReader} (hground : ground ∈ c.postings word)
    (h : Waiting c ground.doc (ground.loc + 1) others rest) :
    (checkAdjacency ground rest).1 = hit c others ground ∧
      Waiting c ground.doc (ground.loc + 1) others (checkAdjacency ground rest).2 :=
  checkFrom_spec (c.docs word ground hground).1
    (Nat.succ_le_of_lt (c.locs word ground hground).2) h

end Waiting

/-! ## The first match of every doc -/

/-- Of the posts of every doc the first one. -/
def firstOfDocs : List Post → List Post
  | [] => []
  | p :: ps => p :: (firstOfDocs ps).filter fun q => q.doc ≠ p.doc

/-- The first match of every doc, among posts of the first word. -/
def firstHits (c : Chunk) (others : List Bytes) (posts : List Post) : List Post :=
  firstOfDocs (posts.filter (hit c others))

theorem firstOfDocs_filter (doc : Nat) (ps : List Post) :
    (firstOfDocs ps).filter (fun q => q.doc ≠ doc) =
      firstOfDocs (ps.filter fun q => q.doc ≠ doc) := by
  induction ps with
  | nil => rfl
  | cons p ps ih =>
    by_cases hp : p.doc = doc
    · rw [firstOfDocs, List.filter_cons_of_neg (by simp [hp]), List.filter_cons_of_neg (by simp [hp]),
        ← ih, List.filter_filter, hp]
      refine List.filter_congr fun q _ => ?_
      simp
    · rw [firstOfDocs, List.filter_cons_of_pos (by simp [hp]), List.filter_cons_of_pos (by simp [hp]),
        firstOfDocs, ← ih, List.filter_filter, List.filter_filter]
      congr 1
      refine List.filter_congr fun q _ => ?_
      exact Bool.and_comm _ _

theorem firstOfDocs_sublist (ps : List Post) : (firstOfDocs ps).Sublist ps := by
  induction ps with
  | nil => exact List.Sublist.slnil
  | cons p ps ih => exact (List.filter_sublist.trans ih).cons_cons p

section Hits

variable {c : Chunk} {others : List Bytes} {p : Post} {ps : List Post}

theorem firstHits_miss (h : hit c others p = false) :
    firstHits c others (p :: ps) = firstHits c others ps := by
  rw [firstHits, List.filter_cons_of_neg (by rw [h]; exact Bool.false_ne_true), firstHits]

/-- After a match, the first matches are those from the next doc on. -/
theorem firstHits_hit (hordered : (p :: ps).Pairwise Post.Before) (h : hit c others p = true) :
    firstHits c others (p :: ps) =
      p :: firstHits c others ((p :: ps).filter (fromDoc (p.doc + 1))) := by
  have hlater : (p :: ps).filter (fromDoc (p.doc + 1)) = ps.filter fun q => q.doc ≠ p.doc := by
    rw [List.filter_cons_of_neg (by rw [Bool.not_eq_true, fromDoc_false]; omega)]
    refine List.filter_congr fun q hq => ?_
    have hle := before_doc_le ((List.pairwise_cons.mp hordered).1 q hq)
    rw [Bool.eq_iff_iff, fromDoc_iff, decide_eq_true_eq]
    omega
  rw [firstHits, List.filter_cons_of_pos h, firstOfDocs, firstOfDocs_filter, hlater, firstHits,
    List.filter_filter, List.filter_filter]
  congr 2
  refine List.filter_congr fun q _ => ?_
  exact Bool.and_comm _ _

theorem mem_firstOfDocs (hordered : ps.Pairwise Post.Before) :
    p ∈ firstOfDocs ps ↔ p ∈ ps ∧ ∀ q ∈ ps, q.doc = p.doc → p.loc ≤ q.loc := by
  induction ps with
  | nil => simp [firstOfDocs]
  | cons x ps ih =>
    obtain ⟨hhead, htail⟩ := List.pairwise_cons.mp hordered
    rw [firstOfDocs, List.mem_cons, List.mem_filter, ih htail, decide_eq_true_eq, List.mem_cons]
    constructor
    · rintro (rfl | ⟨⟨hp, hfirst⟩, hdoc⟩)
      · refine ⟨Or.inl rfl, List.forall_mem_cons.mpr ⟨fun _ => Nat.le_refl _, fun q hq hsame => ?_⟩⟩
        have hbefore := hhead q hq
        unfold Post.Before at hbefore
        omega
      · exact ⟨Or.inr hp, List.forall_mem_cons.mpr ⟨fun hsame => absurd hsame.symm hdoc, hfirst⟩⟩
    · rintro ⟨rfl | hp, hfirst⟩
      · exact Or.inl rfl
      · obtain ⟨hx, hrest⟩ := List.forall_mem_cons.mp hfirst
        refine Or.inr ⟨⟨hp, hrest⟩, fun hsame => ?_⟩
        have hbefore := hhead p hp
        have hle := hx hsame.symm
        unfold Post.Before at hbefore
        omega

theorem firstOfDocs_increasing (hordered : ps.Pairwise Post.Before) :
    (firstOfDocs ps).Pairwise fun p q => p.doc < q.doc := by
  induction ps with
  | nil => exact List.Pairwise.nil
  | cons x ps ih =>
    obtain ⟨hhead, htail⟩ := List.pairwise_cons.mp hordered
    refine List.pairwise_cons.mpr ⟨fun q hq => ?_, (ih htail).filter _⟩
    obtain ⟨hmem, hdoc⟩ := List.mem_filter.mp hq
    rw [decide_eq_true_eq] at hdoc
    have hle := before_doc_le (hhead q ((firstOfDocs_sublist ps).subset hmem))
    omega

end Hits

/-! ## The first stream -/

/-- The first stream at an anchor: it stands at a post of its word, and the others wait behind. -/
structure Anchored (c : Chunk) (word : Bytes) (others : List Bytes) (cur : Cursor Post)
    (first : IndexStreamReader) (rest : List IndexStreamReader) : Prop where
  tracks : Tracks first cur
  settled : first.hasPending = false
  suffix : cur.left <:+ c.whole word
  mem : cur.current ∈ c.postings word
  waiting : Waiting c cur.current.doc (cur.current.loc + 1) others rest

section Anchor

variable {c : Chunk} {word : Bytes} {others : List Bytes} {cur : Cursor Post}
  {first : IndexStreamReader} {rest : List IndexStreamReader}

theorem Anchored.ordered (h : Anchored c word others cur first rest) :
    cur.left.Pairwise Post.Before :=
  (whole_ordered c word).sublist h.suffix.sublist

theorem Anchored.doc_pos (h : Anchored c word others cur first rest) : 1 ≤ cur.current.doc :=
  (c.docs word _ h.mem).1

/-- The check at the anchor tells whether it is a match, and leaves the streams waiting. -/
theorem Anchored.check (h : Anchored c word others cur first rest) :
    (checkAdjacency cur.current rest).1 = hit c others cur.current ∧
      Anchored c word others cur first (checkAdjacency cur.current rest).2 := by
  obtain ⟨hok, hwaiting⟩ := checkAdjacency_spec h.mem h.waiting
  exact ⟨hok, h.tracks, h.settled, h.suffix, h.mem, hwaiting⟩

/-- The next post of the first stream is the next anchor, if there is one. -/
theorem Anchored.advance (h : Anchored c word others cur first rest) :
    ((isr.advance first).1 = noPost ∧ cur.ahead = []) ∨
      ∃ p ps, cur.ahead = p :: ps ∧ (isr.advance first).1 = p ∧
        Anchored c word others ⟨p, ps⟩ (isr.advance first).2 rest := by
  obtain ⟨a, ahead⟩ := cur
  rw [advance_eq h.settled]
  cases ahead with
  | nil => exact Or.inl ⟨h.tracks.end.1, rfl⟩
  | cons p ps =>
    obtain ⟨hpost, hnext⟩ := h.tracks.step
    have hbefore : a.Before p := (List.pairwise_cons.mp h.ordered).1 p List.mem_cons_self
    have hsuffix : p :: ps <:+ c.whole word := (List.suffix_cons a (p :: ps)).trans h.suffix
    refine Or.inr ⟨p, ps, rfl, hpost, hnext, ?_, hsuffix, ?_, h.waiting.mono ?_⟩
    · rw [hasPending_advanceBase, h.settled]
    · rcases List.mem_cons.mp (hsuffix.subset List.mem_cons_self) with hnone | hmem
      · have hpos := h.doc_pos
        have hle := before_doc_le hbefore
        rw [hnone] at hle
        exact absurd (hpos.trans hle) (by decide)
      · exact hmem
    · unfold Post.Before at hbefore
      simp only
      omega

/-- The first anchor from a doc on, if there is one. -/
theorem advanceTo_anchored {t : Nat} (ht : 1 ≤ t) (htracks : Tracks first cur)
    (hsuffix : cur.left <:+ c.whole word) (hwaiting : Waiting c t 1 others rest) :
    ((advanceTo t first).1 = noPost ∧ cur.left.filter (fromDoc t) = []) ∨
      ∃ p ps, cur.left.filter (fromDoc t) = p :: ps ∧ (advanceTo t first).1 = p ∧
        Anchored c word others ⟨p, ps⟩ (advanceTo t first).2 rest := by
  obtain ⟨hpost, hnext, hpending⟩ := advanceTo_tracks t htracks
  have hfollows : Follows cur.left (fromDoc t) cur := ⟨List.suffix_refl _, rfl⟩
  have hordered : cur.left.Pairwise Post.Before :=
    (whole_ordered c word).sublist hsuffix.sublist
  cases hfound : fromDoc t (cur.seek (fromDoc t)).current with
  | false => exact Or.inl ⟨hpost.trans (found_of_neg hfound), hfollows.none hfound⟩
  | true =>
    have hseek := hfollows.seek (p := fromDoc t) fun _ hx => hx
    have hleft := hseek.found hordered (fromDoc_up t) hfound
    have hsuffix' := hseek.suffix.trans hsuffix
    rw [fromDoc_iff] at hfound
    refine Or.inr ⟨_, _, hleft.symm, hpost.trans (found_of_pos (fromDoc_iff.mpr hfound)), hnext,
      hpending, hsuffix', ?_, hwaiting.mono (by simp only; omega)⟩
    rcases List.mem_cons.mp (hsuffix'.subset List.mem_cons_self) with hnone | hmem
    · rw [hnone] at hfound
      exact absurd (ht.trans hfound) (by decide)
    · exact hmem

/-- The first stream between two calls: the others wait behind the next doc. -/
structure Between (c : Chunk) (word : Bytes) (others : List Bytes) (cur : Cursor Post)
    (first : IndexStreamReader) (rest : List IndexStreamReader) : Prop where
  tracks : Tracks first cur
  suffix : cur.left <:+ c.whole word
  waiting : Waiting c (cur.current.doc + 1) 1 others rest

theorem between_open (c : Chunk) (word : Bytes) (others : List Bytes) :
    Between c word others ⟨noPost, c.postings word⟩ (open' word c.index)
      (others.map fun word => open' word c.index) :=
  ⟨tracks_open c word, List.suffix_refl _, waiting_open c 1 1 others⟩

theorem Anchored.between (h : Anchored c word others cur first rest) :
    Between c word others cur first rest :=
  ⟨h.tracks, h.suffix, h.waiting.mono (Or.inl (Nat.lt_succ_self _))⟩

/-- The posts of the later docs. -/
def laterPosts (cur : Cursor Post) : List Post := cur.left.filter (fromDoc (cur.current.doc + 1))

theorem length_laterPosts (cur : Cursor Post) : (laterPosts cur).length ≤ cur.ahead.length := by
  have hnot : ¬fromDoc (cur.current.doc + 1) cur.current = true := by
    rw [fromDoc_iff]
    omega
  rw [laterPosts, Cursor.left, List.filter_cons_of_neg hnot]
  exact List.length_filter_le _ _

/-- The next anchor in a later doc, if there is one. -/
theorem Between.nextDoc (h : Between c word others cur first rest) :
    ((advanceToNextDoc first).1 = noPost ∧ laterPosts cur = []) ∨
      ∃ p ps, laterPosts cur = p :: ps ∧ (advanceToNextDoc first).1 = p ∧
        Anchored c word others ⟨p, ps⟩ (advanceToNextDoc first).2 rest := by
  have hbound : cur.current.doc ≤ DOCS_PER_INDEX_CHUNK := by
    rcases List.mem_cons.mp (h.suffix.subset List.mem_cons_self) with hnone | hmem
    · rw [hnone]
      exact Nat.zero_le _
    · exact (c.docs word _ hmem).2
  have hdoc : first.docOffset = cur.current.doc := congrArg Post.doc h.tracks.current
  have hu : u32 (cur.current.doc + 1) = cur.current.doc + 1 := by
    refine u32_of_lt ?_
    simp only [DOCS_PER_INDEX_CHUNK] at hbound
    omega
  unfold advanceToNextDoc
  rw [hdoc, hu]
  exact advanceTo_anchored (Nat.le_add_left 1 _) h.tracks h.suffix h.waiting

end Anchor

/-! ## `phrase_query` -/

section PhraseQuery

variable (c : Chunk) (deadlineMs : Nat) (clock : Clock) (word : Bytes) (others : List Bytes)

/-- The loop adds the first matches among the posts that are left, or nothing at the end. -/
theorem phraseQueryLoop_returns (turns check : Nat) (docs : List DocInfo) {ground : Post}
    {left : List Post} {first : IndexStreamReader} {rest : List IndexStreamReader}
    (h : (ground = noPost ∧ left = []) ∨
      ∃ p ps, left = p :: ps ∧ ground = p ∧ Anchored c word others ⟨p, ps⟩ first rest)
    (hturns : left.length < turns) :
    Returns deadlineMs clock
      (phraseQueryLoop c.index deadlineMs clock (word :: others) turns check docs ground first rest)
      (docs ++ (firstHits c others left).map (phraseInfo c.index (word :: others))) := by
  induction turns generalizing check docs ground left first rest with
  | zero => omega
  | succ turns ih =>
    rw [phraseQueryLoop]
    cases hfires : fires deadlineMs clock check with
    | true =>
      refine ⟨docs, rfl, List.prefix_append _ _, fun hnever => ?_⟩
      rw [hnever check] at hfires
      cases hfires
    | false =>
      simp only [Bool.false_eq_true, if_false]
      rcases h with ⟨rfl, rfl⟩ | ⟨p, ps, rfl, rfl, hanchor⟩
      · rw [if_pos (show noPost.doc = 0 from rfl), firstHits, List.filter_nil, firstOfDocs,
          List.map_nil, List.append_nil]
        exact returns_all deadlineMs clock docs
      · have hpos := hanchor.doc_pos
        obtain ⟨hok, hchecked⟩ := hanchor.check
        rw [if_neg (by simp only at hpos; omega), validatePos_eq hpos]
        simp only at hok
        cases hhit : hit c others ground with
        | true =>
          rw [hok, hhit]
          simp only [if_true]
          have hhits : firstHits c others (ground :: ps) =
              ground :: firstHits c others (laterPosts ⟨ground, ps⟩) :=
            firstHits_hit hanchor.ordered hhit
          have hlength := length_laterPosts ⟨ground, ps⟩
          have hnext := ih (check + 1) (docs ++ [phraseInfo c.index (word :: others) ground])
            hchecked.between.nextDoc (by simp only [List.length_cons] at hturns hlength; omega)
          rw [← List.append_cons] at hnext
          rw [hhits, List.map_cons]
          exact hnext
        | false =>
          rw [hok, hhit]
          simp only [Bool.false_eq_true, if_false]
          rw [firstHits_miss hhit]
          rcases hchecked.advance with ⟨hpost, hnil⟩ | ⟨q, qs, hps, hpost, hnext⟩
          · exact ih (check + 1) docs (Or.inl ⟨hpost, hnil⟩) (by simpa using hturns)
          · exact ih (check + 1) docs (Or.inr ⟨q, qs, hps, hpost, hnext⟩) (by simpa using hturns)

end PhraseQuery

/-! ## `next_doc` -/

section NextDoc

variable {c : Chunk} {word : Bytes} {others : List Bytes}

/-- The loop ends at the first match, or finds none. -/
theorem nextDocLoop_spec (turns : Nat) (hothers : others ≠ []) {ground : Post} {left : List Post}
    {first : IndexStreamReader} {rest : List IndexStreamReader}
    (h : (ground = noPost ∧ left = []) ∨
      ∃ p ps, left = p :: ps ∧ ground = p ∧ Anchored c word others ⟨p, ps⟩ first rest)
    (hturns : left.length < turns) :
    (∃ streams, nextDocLoop turns ground first rest = some (0, streams) ∧
        firstHits c others left = []) ∨
      ∃ cur first' rest', nextDocLoop turns ground first rest =
          some (cur.current.doc, first' :: rest') ∧ Between c word others cur first' rest' ∧
        1 ≤ cur.current.doc ∧ (laterPosts cur).length < left.length ∧
        firstHits c others left = cur.current :: firstHits c others (laterPosts cur) := by
  induction turns generalizing ground left first rest with
  | zero => omega
  | succ turns ih =>
    rw [nextDocLoop]
    rcases h with ⟨rfl, rfl⟩ | ⟨p, ps, rfl, rfl, hanchor⟩
    · rw [if_pos (show noPost.doc = 0 from rfl)]
      exact Or.inl ⟨_, rfl, rfl⟩
    · have hpos := hanchor.doc_pos
      have hrest : rest.length ≠ 0 := by
        rw [hanchor.waiting.length, ne_eq, List.length_eq_zero_iff]
        exact hothers
      obtain ⟨hok, hchecked⟩ := hanchor.check
      rw [if_neg (by simp only at hpos; omega), if_neg hrest]
      simp only at hok
      cases hhit : hit c others ground with
      | true =>
        simp only [hok, hhit, if_true]
        refine Or.inr ⟨⟨ground, ps⟩, _, _, rfl, hchecked.between, hpos, ?_,
          firstHits_hit hanchor.ordered hhit⟩
        exact Nat.lt_succ_of_le (length_laterPosts ⟨ground, ps⟩)
      | false =>
        simp only [hok, hhit, Bool.false_eq_true, if_false]
        rw [firstHits_miss hhit]
        have hnext := ih hchecked.advance (by simpa using hturns)
        refine hnext.imp (fun h => h) ?_
        rintro ⟨cur, first', rest', hrun, hbetween, hdoc, hlength, hhits⟩
        exact ⟨cur, first', rest', hrun, hbetween, hdoc, Nat.lt_succ_of_lt hlength, hhits⟩

theorem nextDocs_spec (calls : Nat) (isNegated : Bool) (hothers : others ≠ [])
    {cur : Cursor Post} {first : IndexStreamReader} {rest : List IndexStreamReader}
    (h : Between c word others cur first rest) (hcalls : (laterPosts cur).length < calls) :
    nextDocs calls ⟨isNegated, first :: rest⟩ =
      some ((firstHits c others (laterPosts cur)).map Post.doc) := by
  induction calls generalizing cur first rest with
  | zero => omega
  | succ calls ih =>
    have hlength : (laterPosts cur).length < (advanceToNextDoc first).2.currLoc.length + 2 := by
      rcases h.nextDoc with ⟨_, hnil⟩ | ⟨p, ps, hlater, _, hanchor⟩
      · rw [hnil, List.length_nil]
        omega
      · have hle := hanchor.tracks.length
        simp only at hle
        rw [hlater, List.length_cons]
        omega
    rw [nextDocs, PhraseISR.nextDoc]
    rcases nextDocLoop_spec _ hothers h.nextDoc hlength with
      ⟨streams, hrun, hnil⟩ | ⟨cur', first', rest', hrun, hbetween, hdoc, hfewer, hhits⟩
    · simp only [hrun, Option.map_some, if_true, hnil, List.map_nil]
    · have hrest := ih hbetween (by omega)
      simp only [hrun, Option.map_some, if_neg (Nat.ne_of_gt hdoc), hrest, hhits, List.map_cons]

end NextDoc

/-! ## `probe` -/

section Probe

variable {c : Chunk} {word : Bytes} {others : List Bytes}

/-- The streams when all docs before one were probed. -/
structure Probing (c : Chunk) (word : Bytes) (others : List Bytes) (t : Nat) (cur : Cursor Post)
    (first : IndexStreamReader) (rest : List IndexStreamReader) : Prop where
  tracks : Tracks first cur
  suffix : cur.left <:+ c.whole word
  keeps : cur.left.filter (fromDoc t) = (c.postings word).filter (fromDoc t)
  waiting : Waiting c t 1 others rest

theorem filter_fromDoc_mono {t t' : Nat} (hle : t ≤ t') (ps : List Post) :
    (ps.filter (fromDoc t)).filter (fromDoc t') = ps.filter (fromDoc t') := by
  rw [List.filter_filter]
  refine List.filter_congr fun q _ => ?_
  rw [Bool.eq_iff_iff, Bool.and_eq_true, fromDoc_iff, fromDoc_iff]
  omega

theorem Probing.mono {t t' : Nat} {cur : Cursor Post} {first : IndexStreamReader}
    {rest : List IndexStreamReader} (h : Probing c word others t cur first rest) (hle : t ≤ t') :
    Probing c word others t' cur first rest := by
  refine ⟨h.tracks, h.suffix, ?_, h.waiting.mono (by omega)⟩
  rw [← filter_fromDoc_mono hle, h.keeps, filter_fromDoc_mono hle]

theorem probing_open (c : Chunk) (word : Bytes) (others : List Bytes) :
    Probing c word others 1 ⟨noPost, c.postings word⟩ (open' word c.index)
      (others.map fun word => open' word c.index) :=
  ⟨tracks_open c word, List.suffix_refl _, whole_filter c word rfl, waiting_open c 1 1 others⟩

/-- Whether a doc has a match. -/
def hasHit (c : Chunk) (others : List Bytes) (posts : List Post) (doc : Nat) : Bool :=
  posts.any fun p => p.doc = doc && hit c others p

theorem hasHit_past {doc : Nat} {p : Post} {ps : List Post}
    (hordered : (p :: ps).Pairwise Post.Before) (hlt : doc < p.doc) :
    hasHit c others (p :: ps) doc = false := by
  rw [hasHit, List.any_eq_false]
  intro q hq
  have hle : p.doc ≤ q.doc := by
    rcases List.mem_cons.mp hq with rfl | hahead
    · exact Nat.le_refl _
    · exact before_doc_le ((List.pairwise_cons.mp hordered).1 q hahead)
  have hne : q.doc ≠ doc := by omega
  simp [hne]

/-- The loop finds out whether the doc has a match, and passes no later doc. -/
theorem probeLoop_spec {doc : Nat} (turns : Nat) {p : Post} {ps : List Post}
    {first : IndexStreamReader} {rest : List IndexStreamReader}
    (h : Anchored c word others ⟨p, ps⟩ first rest) (hle : doc ≤ p.doc)
    (hlater : Waiting c (doc + 1) 1 others rest) (hturns : ps.length < turns) :
    ∃ cur first' rest', probeLoop doc turns p first rest =
        some (hasHit c others (p :: ps) doc, first' :: rest') ∧
      Tracks first' cur ∧ cur.left <:+ c.whole word ∧
      cur.left.filter (fromDoc (doc + 1)) = (p :: ps).filter (fromDoc (doc + 1)) ∧
      Waiting c (doc + 1) 1 others rest' := by
  induction turns generalizing p ps first rest with
  | zero => omega
  | succ turns ih =>
    rw [probeLoop]
    by_cases hdoc : p.doc = doc
    · obtain ⟨hok, hchecked⟩ := h.check
      have hstill := hchecked.between.waiting
      simp only [hdoc] at hok hstill
      cases hhit : hit c others p with
      | true =>
        simp only [hdoc, if_true, hok, hhit]
        refine ⟨_, _, _, ?_, h.tracks, h.suffix, rfl, hstill⟩
        simp [hasHit, hdoc, hhit]
      | false =>
        have hhas : hasHit c others (p :: ps) doc = hasHit c others ps doc := by
          simp [hasHit, hhit]
        have hfilter : (p :: ps).filter (fromDoc (doc + 1)) = ps.filter (fromDoc (doc + 1)) := by
          rw [List.filter_cons_of_neg]
          rw [fromDoc_iff]
          omega
        simp only [hdoc, if_true, hok, hhit, Bool.false_eq_true, if_false, hhas]
        rcases hchecked.advance with ⟨hpost, hnil⟩ | ⟨q, qs, hps, hpost, hnext⟩
        · simp only at hnil
          subst hnil
          simp only [hpost, noPost, if_true]
          refine ⟨⟨p, []⟩, _, _, rfl, ?_, h.suffix, rfl, hstill⟩
          rw [advance_eq h.settled]
          exact h.tracks.end.2
        · simp only at hps
          subst hps
          have hq := hnext.doc_pos
          have hbefore := (List.pairwise_cons.mp h.ordered).1 q List.mem_cons_self
          have hqle : doc ≤ q.doc := hdoc ▸ before_doc_le hbefore
          rw [hfilter, hpost, if_neg (Nat.ne_of_gt hq)]
          exact ih hnext hqle hstill (by simpa using hturns)
    · have hlt : doc < p.doc := by omega
      rw [if_neg hdoc, hasHit_past h.ordered hlt]
      exact ⟨_, _, _, rfl, h.tracks, h.suffix, rfl, hlater⟩

/-- Only the posts from the doc on tell whether it has a match. -/
theorem hasHit_filter (posts : List Post) (doc : Nat) :
    hasHit c others (posts.filter (fromDoc doc)) doc = hasHit c others posts doc := by
  rw [hasHit, List.any_filter, hasHit]
  congr 1
  funext p
  by_cases hp : p.doc = doc
  · have hfrom : fromDoc doc p = true := fromDoc_iff.mpr (Nat.le_of_eq hp.symm)
    rw [hfrom, Bool.true_and]
  · simp [hp]

/-- A probe tells whether the doc has a match, for docs that are probed in order. -/
theorem probe_spec {t doc : Nat} (ht : 1 ≤ t) (hle : t ≤ doc) (hothers : others ≠ [])
    {cur : Cursor Post} {first : IndexStreamReader} {rest : List IndexStreamReader}
    (h : Probing c word others t cur first rest) :
    ∃ cur' first' rest', PhraseISR.probe doc ⟨false, first :: rest⟩ =
        some (hasHit c others (c.postings word) doc, ⟨false, first' :: rest'⟩) ∧
      Probing c word others (doc + 1) cur' first' rest' := by
  have hdoc := h.mono hle
  have hnextDoc := h.mono (Nat.le_succ_of_le hle)
  have hkeeps := filter_fromDoc_mono (Nat.le_succ doc) cur.left
  rw [PhraseISR.probe, ← hasHit_filter, ← hdoc.keeps]
  rcases advanceTo_anchored (ht.trans hle) h.tracks h.suffix hdoc.waiting with
    ⟨hpost, hnil⟩ | ⟨p, ps, hps, hpost, hanchor⟩
  · -- no post of the first word is left from the doc on
    obtain ⟨_, hnext, _⟩ := advanceTo_tracks doc h.tracks
    have hne : noPost.doc ≠ doc := Nat.ne_of_lt (ht.trans hle)
    have hsub (x : Post) (hx : fromDoc (doc + 1) x = true) : fromDoc doc x = true := by
      rw [fromDoc_iff] at hx ⊢
      omega
    simp only [hpost, hnil]
    rw [if_pos hne]
    refine ⟨_, _, _, rfl, hnext, (seekFrom_suffix _ _ _).trans h.suffix, ?_, hnextDoc.waiting⟩
    exact (seekFrom_filter hsub cur.current cur.ahead).trans hnextDoc.keeps
  · have hpdoc : doc ≤ p.doc := by
      have hmem : p ∈ cur.left.filter (fromDoc doc) := by
        rw [hps]
        exact List.mem_cons_self
      exact fromDoc_iff.mp (List.mem_filter.mp hmem).2
    have hrest : rest.length ≠ 0 := by
      rw [h.waiting.length, ne_eq, List.length_eq_zero_iff]
      exact hothers
    rw [hps] at hkeeps ⊢
    simp only [hpost]
    by_cases hin : p.doc = doc
    · obtain ⟨cur', first', rest', hrun, htracks, hsuffix, hleft, hwaiting⟩ :=
        probeLoop_spec ((advanceTo doc first).2.currLoc.length + 1) hanchor hpdoc
          hnextDoc.waiting (Nat.lt_succ_of_le hanchor.tracks.length)
      rw [if_neg (not_not.mpr hin), if_neg hrest, hrun]
      refine ⟨cur', first', rest', ?_, htracks, hsuffix, ?_, hwaiting⟩
      · simp
      · rw [hleft, hkeeps, hnextDoc.keeps]
    · rw [if_pos hin, hasHit_past hanchor.ordered (Nat.lt_of_le_of_ne hpdoc (Ne.symm hin))]
      refine ⟨_, _, _, rfl, hanchor.tracks, hanchor.suffix, ?_, hnextDoc.waiting⟩
      exact hkeeps.trans hnextDoc.keeps

theorem probedDocs_spec {t : Nat} (ht : 1 ≤ t) (hothers : others ≠ []) {docs : List Nat}
    (hdocs : docs.Pairwise (· < ·)) (hfrom : ∀ doc ∈ docs, t ≤ doc)
    {cur : Cursor Post} {first : IndexStreamReader} {rest : List IndexStreamReader}
    (h : Probing c word others t cur first rest) :
    probedDocs docs ⟨false, first :: rest⟩ =
      some (docs.filter (hasHit c others (c.postings word))) := by
  induction docs generalizing t cur first rest with
  | nil => rfl
  | cons doc docs ih =>
    obtain ⟨hhead, htail⟩ := List.pairwise_cons.mp hdocs
    obtain ⟨cur', first', rest', hprobe, hnext⟩ :=
      probe_spec ht (hfrom doc List.mem_cons_self) hothers h
    have hrest := ih (Nat.le_add_left 1 doc) htail (fun d hd => hhead d hd) hnext
    rw [probedDocs, hprobe]
    simp only [hrest, Option.map_some, List.filter_cons]

end Probe

/-! ## The three ways -/

/-- The words of a phrase stand one after the other in a doc, from a location on. -/
def PhraseAt (c : Chunk) (words : List Bytes) (p : Post) : Prop :=
  ∀ i word, words[i]? = some word → ⟨p.doc, p.loc + i⟩ ∈ c.postings word

section Matches

variable (c : Chunk) (word : Bytes) (others : List Bytes)

theorem followedBy_iff (doc loc : Nat) (words : List Bytes) :
    followedBy c doc loc words = true ↔
      ∀ i word, words[i]? = some word → ⟨doc, loc + i⟩ ∈ c.postings word := by
  induction words generalizing loc with
  | nil => simp [followedBy]
  | cons w words ih =>
    rw [followedBy, Bool.and_eq_true, decide_eq_true_eq, ih]
    constructor
    · rintro ⟨hfirst, hrest⟩ i word hword
      cases i with
      | zero =>
        rw [List.getElem?_cons_zero, Option.some_inj] at hword
        rw [← hword]
        exact hfirst
      | succ i =>
        rw [List.getElem?_cons_succ] at hword
        have hmem := hrest i word hword
        rwa [show loc + 1 + i = loc + (i + 1) by omega] at hmem
    · intro h
      refine ⟨h 0 w List.getElem?_cons_zero, fun i word hword => ?_⟩
      have hmem := h (i + 1) word (by rw [List.getElem?_cons_succ, hword])
      rwa [show loc + (i + 1) = loc + 1 + i by omega] at hmem

/-- The matches are the posts of the first word that the check finds. -/
theorem phraseAt_iff (p : Post) :
    PhraseAt c (word :: others) p ↔ p ∈ (c.postings word).filter (hit c others) := by
  rw [List.mem_filter, hit, followedBy_iff]
  constructor
  · intro h
    refine ⟨h 0 word List.getElem?_cons_zero, fun i w hw => ?_⟩
    have hmem := h (i + 1) w (by rw [List.getElem?_cons_succ, hw])
    rwa [show p.loc + (i + 1) = p.loc + 1 + i by omega] at hmem
  · rintro ⟨hfirst, hrest⟩ i w hw
    cases i with
    | zero =>
      rw [List.getElem?_cons_zero, Option.some_inj] at hw
      rw [← hw]
      exact hfirst
    | succ i =>
      rw [List.getElem?_cons_succ] at hw
      have hmem := hrest i w hw
      rwa [show p.loc + 1 + i = p.loc + (i + 1) by omega] at hmem

theorem docs_firstOfDocs (ps : List Post) (doc : Nat) :
    doc ∈ (firstOfDocs ps).map Post.doc ↔ doc ∈ ps.map Post.doc := by
  induction ps with
  | nil => rfl
  | cons p ps ih =>
    rw [firstOfDocs, List.map_cons, List.map_cons, List.mem_cons, List.mem_cons, ← ih]
    simp only [List.mem_map, List.mem_filter, decide_eq_true_eq]
    constructor
    · rintro (hp | ⟨q, ⟨hq, _⟩, hdoc⟩)
      · exact Or.inl hp
      · exact Or.inr ⟨q, hq, hdoc⟩
    · rintro (hp | ⟨q, hq, hdoc⟩)
      · exact Or.inl hp
      · by_cases hp : q.doc = p.doc
        · exact Or.inl (hdoc.symm.trans hp)
        · exact Or.inr ⟨q, ⟨hq, hp⟩, hdoc⟩

/-- The docs of the first matches are the docs with a match. -/
theorem firstHits_enumerates :
    Enumerates (fun doc => ∃ loc, PhraseAt c (word :: others) ⟨doc, loc⟩)
      ((firstHits c others (c.postings word)).map Post.doc) := by
  constructor
  · rw [List.pairwise_map]
    exact firstOfDocs_increasing ((c.ordered word).filter _)
  · intro doc
    rw [firstHits, docs_firstOfDocs, List.mem_map]
    constructor
    · rintro ⟨p, hp, rfl⟩
      exact ⟨p.loc, (phraseAt_iff c word others p).mpr hp⟩
    · rintro ⟨loc, h⟩
      exact ⟨_, (phraseAt_iff c word others _).mp h, rfl⟩

theorem firstHits_smallest (p : Post) (hp : p ∈ firstHits c others (c.postings word)) :
    PhraseAt c (word :: others) p ∧
      ∀ loc, PhraseAt c (word :: others) ⟨p.doc, loc⟩ → p.loc ≤ loc := by
  obtain ⟨hmem, hfirst⟩ := (mem_firstOfDocs ((c.ordered word).filter _)).mp hp
  refine ⟨(phraseAt_iff c word others p).mpr hmem, fun loc h => ?_⟩
  exact hfirst _ ((phraseAt_iff c word others _).mp h) rfl

/-- Probing every doc gives the docs with a match. -/
theorem filter_hasHit :
    (List.range' 1 DOCS_PER_INDEX_CHUNK).filter (hasHit c others (c.postings word)) =
      (firstHits c others (c.postings word)).map Post.doc := by
  refine List.Pairwise.eq_of_mem_iff (List.Pairwise.filter _ (List.pairwise_lt_range' 1))
    (firstHits_enumerates c word others).increasing fun doc => ?_
  rw [firstHits, docs_firstOfDocs, List.mem_filter, List.mem_range'_1, hasHit, List.any_eq_true,
    List.mem_map]
  simp only [List.mem_filter, Bool.and_eq_true, decide_eq_true_eq]
  constructor
  · rintro ⟨_, p, hp, hdoc, hhit⟩
    exact ⟨p, ⟨hp, hhit⟩, hdoc⟩
  · rintro ⟨p, ⟨hp, hhit⟩, rfl⟩
    have hdocs := c.docs word p hp
    exact ⟨⟨hdocs.1, Nat.lt_one_add_iff.mpr hdocs.2⟩, p, hp, rfl, hhit⟩

end Matches

/-- A word that a phrase can have. -/
def PhraseWord (word : Bytes) : Prop := word ≠ [] ∧ ∀ b ∈ word, b ≠ space

/-- One word of a phrase is cut off. -/
theorem phraseWordsLoop_word {word : Bytes} (hword : PhraseWord word) (turns : Nat) (rest : Bytes)
    (hrest : ∀ b ∈ rest.head?, b = space) :
    phraseWordsLoop (turns + 1) (word ++ rest) = word :: phraseWordsLoop turns rest := by
  obtain ⟨b, bs, rfl⟩ := List.exists_cons_of_ne_nil hword.1
  have hb : b ≠ space := hword.2 b List.mem_cons_self
  have hstart : (b :: bs ++ rest).dropWhile (· = space) = b :: (bs ++ rest) :=
    List.dropWhile_cons_of_neg (by simpa using hb)
  have htake : (rest.takeWhile (· ≠ space)) = [] ∧ rest.dropWhile (· ≠ space) = rest := by
    cases rest with
    | nil => exact ⟨rfl, rfl⟩
    | cons x rest =>
      have hx : x = space := hrest x rfl
      simp [hx]
  have hall : ∀ x ∈ b :: bs, decide (x ≠ space) = true := fun x hx => decide_eq_true (hword.2 x hx)
  rw [phraseWordsLoop, hstart]
  simp only [← List.cons_append]
  rw [List.takeWhile_append_of_pos hall, List.dropWhile_append_of_pos hall, htake.1, htake.2,
    List.append_nil]

theorem phraseWordsLoop_nil (turns : Nat) : phraseWordsLoop turns [] = [] := by
  cases turns <;> rfl

theorem phraseWordsLoop_space (turns : Nat) (phrase : Bytes) :
    phraseWordsLoop turns (space :: phrase) = phraseWordsLoop turns phrase := by
  cases turns with
  | zero => rfl
  | succ turns =>
    have hskip : (space :: phrase).dropWhile (· = space) = phrase.dropWhile (· = space) :=
      List.dropWhile_cons_of_pos (by simp)
    rw [phraseWordsLoop, hskip, phraseWordsLoop]

theorem phraseWordsLoop_join {words : List Bytes} (h : ∀ word ∈ words, PhraseWord word)
    {turns : Nat} (hturns : ([space].intercalate words).length < turns) :
    phraseWordsLoop turns ([space].intercalate words) = words := by
  induction words generalizing turns with
  | nil => exact phraseWordsLoop_nil turns
  | cons word words ih =>
    obtain ⟨hword, hwords⟩ := List.forall_mem_cons.mp h
    obtain ⟨turns, rfl⟩ : ∃ n, turns = n + 1 := ⟨turns - 1, by omega⟩
    cases words with
    | nil =>
      have hlast := phraseWordsLoop_word hword turns [] (by simp)
      rw [List.append_nil, phraseWordsLoop_nil] at hlast
      rw [List.intercalate_singleton, hlast]
    | cons next words =>
      rw [List.intercalate_cons_cons, List.append_assoc, List.singleton_append] at hturns ⊢
      rw [phraseWordsLoop_word hword turns _ (by simp), phraseWordsLoop_space, ih hwords]
      rw [List.length_append, List.length_cons] at hturns
      omega

/-- Words with a space between them are the words of a phrase. -/
theorem phraseWords_join {words : List Bytes} (h : ∀ word ∈ words, PhraseWord word) :
    phraseWords ([space].intercalate words) = words :=
  phraseWordsLoop_join h (Nat.lt_succ_self _)

section ThreeWays

variable (c : Chunk) (first second : Bytes) (rest : List Bytes)

/-- The first post of the first word is the first anchor, if there is one. -/
theorem advance_open (word : Bytes) (others : List Bytes) :
    ((advance (open' word c.index)).1 = noPost ∧ c.postings word = []) ∨
      ∃ p ps, c.postings word = p :: ps ∧ (advance (open' word c.index)).1 = p ∧
        Anchored c word others ⟨p, ps⟩ (advance (open' word c.index)).2
          (others.map fun word => open' word c.index) := by
  have hopen := tracks_open c word
  have hpending := (loc_open word c.index).2
  rw [advance_eq hpending]
  cases hposts : c.postings word with
  | nil =>
    rw [hposts] at hopen
    exact Or.inl ⟨hopen.end.1, rfl⟩
  | cons p ps =>
    rw [hposts] at hopen
    obtain ⟨hpost, hnext⟩ := hopen.step
    refine Or.inr ⟨p, ps, rfl, hpost, hnext, (hasPending_advanceBase _).trans hpending, ?_, ?_,
      waiting_open c _ _ others⟩
    · rw [Chunk.whole, hposts]
      exact List.suffix_cons noPost (p :: ps)
    · rw [hposts]
      exact List.mem_cons_self

theorem phraseQuery_returns (deadlineMs : Nat) (clock : Clock) :
    Returns deadlineMs clock (phraseQuery c.index deadlineMs clock (first :: second :: rest))
      ((firstHits c (second :: rest) (c.postings first)).map
        (phraseInfo c.index (first :: second :: rest))) := by
  have hlength := (tracks_open c first).length
  have hloop := phraseQueryLoop_returns c deadlineMs clock first (second :: rest)
    ((open' first c.index).currLoc.length + 2) 0 [] (advance_open c first (second :: rest))
    (by simp only at hlength; omega)
  rwa [List.nil_append] at hloop

theorem nextDocs_returns (phrase : Bytes) (hwords : phraseWords phrase = first :: second :: rest) :
    ∃ calls, nextDocs calls (PhraseISR.new phrase false c.index) =
      some ((firstHits c (second :: rest) (c.postings first)).map Post.doc) := by
  have hlater : laterPosts ⟨noPost, c.postings first⟩ = c.postings first := by
    refine (whole_filter c first rfl).trans (List.filter_eq_self.mpr fun p hp => ?_)
    exact fromDoc_iff.mpr (c.docs first p hp).1
  have hrun := nextDocs_spec ((c.postings first).length + 1) false (List.cons_ne_nil second rest)
    (between_open c first (second :: rest)) (by rw [hlater]; exact Nat.lt_succ_self _)
  rw [hlater] at hrun
  refine ⟨(c.postings first).length + 1, ?_⟩
  rw [PhraseISR.new, hwords, List.map_cons]
  exact hrun

theorem probedDocs_returns (phrase : Bytes)
    (hwords : phraseWords phrase = first :: second :: rest) :
    probedDocs (List.range' 1 DOCS_PER_INDEX_CHUNK) (PhraseISR.new phrase false c.index) =
      some ((firstHits c (second :: rest) (c.postings first)).map Post.doc) := by
  rw [PhraseISR.new, hwords, List.map_cons, ← filter_hasHit]
  exact probedDocs_spec (Nat.le_refl 1) (List.cons_ne_nil second rest) (List.pairwise_lt_range' 1)
    (fun doc hdoc => (List.mem_range'_1.mp hdoc).1) (probing_open c first (second :: rest))

/-- The docs that `next_doc` enumerates, those for which `probe` is true, and those that
`phrase_query` returns without a deadline are the docs with a match, each once and in increasing
order. `phrase_query` reports the first match of each. -/
theorem phrase_searches_agree :
    ∃ hits : List Post,
      Enumerates (fun doc => ∃ loc, PhraseAt c (first :: second :: rest) ⟨doc, loc⟩)
        (hits.map Post.doc) ∧
      (∀ p ∈ hits, PhraseAt c (first :: second :: rest) p ∧
        ∀ loc, PhraseAt c (first :: second :: rest) ⟨p.doc, loc⟩ → p.loc ≤ loc) ∧
      (∀ deadlineMs clock, Returns deadlineMs clock
        (phraseQuery c.index deadlineMs clock (first :: second :: rest))
        (hits.map (phraseInfo c.index (first :: second :: rest)))) ∧
      ∀ phrase, phraseWords phrase = first :: second :: rest →
        (∃ calls, nextDocs calls (PhraseISR.new phrase false c.index) =
          some (hits.map Post.doc)) ∧
        probedDocs (List.range' 1 DOCS_PER_INDEX_CHUNK) (PhraseISR.new phrase false c.index) =
          some (hits.map Post.doc) := by
  refine ⟨firstHits c (second :: rest) (c.postings first), firstHits_enumerates c first _,
    firstHits_smallest c first _, phraseQuery_returns c first second rest, fun phrase hwords => ?_⟩
  exact ⟨nextDocs_returns c first second rest phrase hwords,
    probedDocs_returns c first second rest phrase hwords⟩

end ThreeWays

end seamus.phrase_query
