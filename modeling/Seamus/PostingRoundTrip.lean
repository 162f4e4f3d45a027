-- The law of the posting list round trip: what `IndexChunk::persist` writes
-- for a word, read back by `IndexStreamReader::advance`, is the same sequence
-- of posts, as long as no delta is a code point that `ReadUtf8` replaces.
import Seamus.Index
import Seamus.Isr

open little_endian seamus.utf8 seamus.index seamus.isr

namespace seamus.posting_round_trip

/-! ## The header -/

theorem openAt_written (before rest : Bytes) (e : Postings) (h : e.Valid) :
    openAt (before ++ (writePostingList e ++ rest)) before.length =
      ⟨e.posts.length, e.nDocs % 2 ^ 32, writePosts 0 0 e.posts ++ newline :: rest,
        0, 0, 0, false⟩ := by
  have hposts := length_le_writePosts 0 0 e.posts
  have hlt := h.length_lt
  have hpow : 256 ^ 4 = 2 ^ 32 := by decide
  have h8 : leValue ((leBytes 8 e.posts.length ++ (space :: (leBytes 4 e.nDocs ++
      (newline :: (writePosts 0 0 e.posts ++ newline :: rest))))).take 8) = e.posts.length := by
    rw [leValue_take_leBytes]
    exact hlt
  have h4 : leValue ((leBytes 4 e.nDocs ++
      (newline :: (writePosts 0 0 e.posts ++ newline :: rest))).take 4) = e.nDocs % 2 ^ 32 := by
    rw [List.take_left' (leBytes_length 4 _), leValue_leBytes_mod, hpow]
  have hfull : writePostingList e ++ rest = leBytes 8 e.posts.length ++ (space ::
      (leBytes 4 e.nDocs ++ (newline :: (writePosts 0 0 e.posts ++ newline :: rest)))) := by
    simp [writePostingList, writeHeader]
  have hlen : ¬ before.length + 8 + 1 + 4 + 1 > (before ++ (writePostingList e ++ rest)).length := by
    rw [hfull]
    simp only [List.length_append, List.length_cons, leBytes_length]
    omega
  have hdrop9 : (leBytes 8 e.posts.length ++ (space :: (leBytes 4 e.nDocs ++
      (newline :: (writePosts 0 0 e.posts ++ newline :: rest))))).drop (8 + 1) =
        leBytes 4 e.nDocs ++ (newline :: (writePosts 0 0 e.posts ++ newline :: rest)) := by
    rw [← List.drop_drop, drop_leBytes, List.drop_one, List.tail_cons]
  have hdrop5 : (leBytes 4 e.nDocs ++
      (newline :: (writePosts 0 0 e.posts ++ newline :: rest))).drop (4 + 1) =
        writePosts 0 0 e.posts ++ newline :: rest := by
    rw [← List.drop_drop, drop_leBytes, List.drop_one, List.tail_cons]
  have hdrop : (before ++ (writePostingList e ++ rest)).drop before.length =
      writePostingList e ++ rest := List.drop_left
  have hroom : ¬ e.posts.length > (writePosts 0 0 e.posts ++ newline :: rest).length := by
    rw [List.length_append]
    omega
  rw [openAt, if_neg hlen]
  simp only [hdrop]
  rw [hfull]
  simp only [h8, hdrop9, h4, hdrop5, hroom, if_false]

/-! ## One post -/

/-- What `ReadUtf8` gives for a number that was written. -/
def readBack (c : Nat) : Nat := if Reserved c then ReplacementCharacter else c

theorem readBack_eq_iff (c : Nat) : readBack c = c ↔ ¬ Reserved c := by
  unfold readBack
  split
  · rename_i h
    constructor
    · intro heq
      rw [← heq] at h
      exact absurd h (by decide)
    · intro hn
      exact absurd h hn
  · rename_i h
    exact ⟨fun _ => h, fun _ => rfl⟩

theorem readBack_pos (c : Nat) (h : 0 < c) : 0 < readBack c := by
  unfold readBack ReplacementCharacter
  split <;> omega

theorem readBack_lt (c : Nat) (h : c < 2 ^ 31) : readBack c < 2 ^ 31 := by
  unfold readBack ReplacementCharacter
  split <;> omega

theorem readUtf8_written (c : Nat) (rest : Bytes) (h : c < 2 ^ 31) :
    readUtf8 (writeUtf8 c MAX_UTF8_LEN ++ rest) = (readBack c, rest) :=
  readUtf8_writeUtf8 c rest h

/-- The flag byte reads as 0. -/
theorem readUtf8_flag (rest : Bytes) : readUtf8 (0 :: rest) = (0, rest) := rfl

theorem writeUtf8_append_ne_nil (c : Nat) (rest : Bytes) :
    writeUtf8 c MAX_UTF8_LEN ++ rest ≠ [] := by
  intro h
  exact writeUtf8_ne_nil c (List.append_eq_nil_iff.1 h).1

/-- A post of a new doc. -/
theorem advance_newDoc (r : IndexStreamReader) (d l : Nat) (rest : Bytes)
    (hpend : r.hasPending = false) (hmore : r.postsConsumed ≠ r.nPosts)
    (hcur : r.currLoc = 0 :: writeUtf8 d MAX_UTF8_LEN ++ (writeUtf8 l MAX_UTF8_LEN ++ rest))
    (hd : d < 2 ^ 31) (hl : l < 2 ^ 31) :
    advance r = (⟨u32 (r.docOffset + readBack d), readBack l⟩,
      { r with
        postsConsumed := r.postsConsumed + 1
        currLoc := rest
        docOffset := u32 (r.docOffset + readBack d)
        locOffset := readBack l }) := by
  have hne : r.currLoc ≠ [] := by simp [hcur]
  simp only [advance, hpend, Bool.false_eq_true, if_false, advanceBase, hmore, hne]
  rw [hcur, List.cons_append, readUtf8_flag]
  simp only [gt_iff_lt, Nat.lt_irrefl, if_false, readUtf8_written d _ hd, readUtf8_written l _ hl,
    loc]

/-- A post of the doc of the last one. -/
theorem advance_sameDoc (r : IndexStreamReader) (l : Nat) (rest : Bytes)
    (hpend : r.hasPending = false) (hmore : r.postsConsumed ≠ r.nPosts)
    (hcur : r.currLoc = writeUtf8 l MAX_UTF8_LEN ++ rest) (hpos : 0 < l) (hl : l < 2 ^ 31) :
    advance r = (⟨r.docOffset, u32 (r.locOffset + readBack l)⟩,
      { r with
        postsConsumed := r.postsConsumed + 1
        currLoc := rest
        locOffset := u32 (r.locOffset + readBack l) }) := by
  have hne : r.currLoc ≠ [] := by
    rw [hcur]
    exact writeUtf8_append_ne_nil l rest
  have hp := readBack_pos l hpos
  simp only [advance, hpend, Bool.false_eq_true, if_false, advanceBase, hmore, hne]
  rw [hcur, readUtf8_written l _ hl]
  simp only [gt_iff_lt, hp, if_true, loc]

/-- After the last post there are no more, for ever. -/
theorem advances_done (r : IndexStreamReader) (k : Nat) (hpend : r.hasPending = false)
    (hdone : r.postsConsumed = r.nPosts) : advances k r = List.replicate k noPost := by
  have hadv : advance r = (noPost, r) := by simp [advance, hpend, advanceBase, hdone]
  induction k with
  | zero => rfl
  | succ k ih => rw [advances, hadv, ih, List.replicate_succ]

/-! ## The whole list -/

/-- A reader that stands after `lastDoc` and `lastLoc`, in front of the bytes of `ps`. -/
structure StandsAt (lastDoc lastLoc : Nat) (ps : List Post) (rest : Bytes)
    (r : IndexStreamReader) : Prop where
  pending : r.hasPending = false
  count : r.nPosts = r.postsConsumed + ps.length
  bytes : r.currLoc = writePosts lastDoc lastLoc ps ++ rest
  doc : r.docOffset = lastDoc
  loc : r.locOffset = lastLoc

/-- The deltas of the first post. -/
def firstDeltas (lastDoc lastLoc : Nat) (p : Post) : List Nat :=
  if p.doc > lastDoc then [p.doc - lastDoc, p.loc] else [p.loc - lastLoc]

theorem deltas_cons (lastDoc lastLoc : Nat) (p : Post) (ps : List Post)
    (h : After lastDoc lastLoc (p :: ps)) :
    deltas lastDoc lastLoc (p :: ps) = firstDeltas lastDoc lastLoc p ++ deltas p.doc p.loc ps := by
  rcases h.head with ⟨hnew, -⟩ | ⟨hsame, -⟩
  · simp [deltas, firstDeltas, hnew]
  · have hnot : ¬ p.doc > lastDoc := by omega
    rw [deltas, firstDeltas, if_neg hnot, if_neg hnot, hsame]
    rfl

/-- One `advance` gives the post that was written exactly when none of its
deltas is replaced, and then stands in front of the rest. -/
theorem advance_written (lastDoc lastLoc : Nat) (p : Post) (ps : List Post) (rest : Bytes)
    (r : IndexStreamReader) (h : After lastDoc lastLoc (p :: ps))
    (hr : StandsAt lastDoc lastLoc (p :: ps) rest r) :
    ((advance r).1 = p ↔ ∀ d ∈ firstDeltas lastDoc lastLoc p, ¬ Reserved d) ∧
      ((advance r).1 = p → StandsAt p.doc p.loc ps rest (advance r).2) := by
  obtain ⟨hpend, hcount, hbytes, hdoc, hloc⟩ := hr
  rw [List.length_cons] at hcount
  have hmore : r.postsConsumed ≠ r.nPosts := by omega
  rcases h.head with ⟨hnew, hd, hd31, hp31, hl, -, hl31⟩ | ⟨hsame, hl, hlt, hp31, hl31⟩
  · rw [writePosts, if_pos hnew, hd, hl, List.append_assoc, List.append_assoc] at hbytes
    have hb := readBack_lt _ hd31
    have hu : u32 (lastDoc + readBack (p.doc - lastDoc)) = lastDoc + readBack (p.doc - lastDoc) :=
      u32_of_lt (by omega)
    rw [advance_newDoc r _ _ _ hpend hmore hbytes hd31 hl31, hdoc, hu]
    have hpost : (⟨lastDoc + readBack (p.doc - lastDoc), readBack p.loc⟩ : Post) = p ↔
        readBack (p.doc - lastDoc) = p.doc - lastDoc ∧ readBack p.loc = p.loc := by
      rw [Post.ext_iff]
      simp only
      omega
    refine ⟨?_, ?_⟩
    · rw [hpost, readBack_eq_iff, readBack_eq_iff, firstDeltas, if_pos hnew]
      simp
    · intro heq
      have hparts := hpost.1 heq
      exact ⟨hpend, by simp only; omega, rfl, by simp only; omega, hparts.2⟩
  · have hnot : ¬ p.doc > lastDoc := by omega
    have hl31' : p.loc - lastLoc < 2 ^ 31 := by omega
    rw [writePosts, if_neg hnot, hl, List.append_assoc] at hbytes
    have hb := readBack_lt _ hl31'
    have hu : u32 (lastLoc + readBack (p.loc - lastLoc)) = lastLoc + readBack (p.loc - lastLoc) :=
      u32_of_lt (by omega)
    rw [advance_sameDoc r _ _ hpend hmore hbytes (by omega) hl31', hdoc, hloc, hu]
    have hpost : (⟨lastDoc, lastLoc + readBack (p.loc - lastLoc)⟩ : Post) = p ↔
        readBack (p.loc - lastLoc) = p.loc - lastLoc := by
      rw [Post.ext_iff]
      simp only
      omega
    refine ⟨?_, ?_⟩
    · rw [hpost, readBack_eq_iff, firstDeltas, if_neg hnot]
      simp
    · intro heq
      have hpart := hpost.1 heq
      refine ⟨hpend, by simp only; omega, ?_, by simp only; omega, by simp only; omega⟩
      rw [hsame]

/-- The rest of a list is read back exactly when none of its deltas is replaced. -/
theorem advances_written (lastDoc lastLoc : Nat) (ps : List Post) (rest : Bytes)
    (r : IndexStreamReader) (h : After lastDoc lastLoc ps) (hr : StandsAt lastDoc lastLoc ps rest r) :
    (∀ k, advances (ps.length + k) r = ps ++ List.replicate k noPost) ↔
      ∀ d ∈ deltas lastDoc lastLoc ps, ¬ Reserved d := by
  induction ps generalizing lastDoc lastLoc r with
  | nil =>
    have hdone : r.postsConsumed = r.nPosts := by
      have := hr.count
      rw [List.length_nil] at this
      omega
    have hall := fun k => advances_done r k hr.pending hdone
    simp [hall, deltas]
  | cons p ps ih =>
    obtain ⟨hpost, hnext⟩ := advance_written lastDoc lastLoc p ps rest r h hr
    have hsplit : ∀ k, advances ((p :: ps).length + k) r =
        (advance r).1 :: advances (ps.length + k) (advance r).2 := by
      intro k
      rw [List.length_cons, Nat.add_right_comm, advances]
    simp only [hsplit, List.cons_append, List.cons.injEq]
    rw [deltas_cons lastDoc lastLoc p ps h, List.forall_mem_append, ← hpost]
    constructor
    · intro hall
      have hp := (hall 0).1
      exact ⟨hp, (ih p.doc p.loc _ h.tail (hnext hp)).1 (fun k => (hall k).2)⟩
    · rintro ⟨hp, hrest⟩ k
      exact ⟨hp, (ih p.doc p.loc _ h.tail (hnext hp)).2 hrest k⟩

theorem standsAt_opened (before rest : Bytes) (e : Postings) (h : e.Valid) :
    StandsAt 0 0 e.posts (newline :: rest)
      (openAt (before ++ (writePostingList e ++ rest)) before.length) := by
  rw [openAt_written before rest e h]
  exact ⟨rfl, by simp, rfl, rfl, rfl⟩

/-- The posting list of a word, wherever it stands in the region, is read back
by `advance`, and then `{0, 0}` for ever, exactly when no delta of it is one of
the code points that `ReadUtf8` replaces. -/
theorem posting_list_reads_back_iff_no_delta_is_replaced (e : PostingList) (before rest : Bytes) :
    (∀ k, advances (e.posts.length + k)
        (openAt (before ++ (writePostingList e.toPostings ++ rest)) before.length) =
          e.posts ++ List.replicate k noPost) ↔
      ∀ d ∈ deltas 0 0 e.posts, ¬ Reserved d :=
  advances_written 0 0 e.posts (newline :: rest) _ e.valid.after
    (standsAt_opened before rest e.toPostings e.valid)

/-- A word whose first doc is 55296 (0xD800): the reader takes it for doc 65533. -/
theorem doc_55296_reads_back_as_65533 :
    ∃ e : PostingList, e.posts = [⟨55296, 1⟩] ∧
      advances 1 (openAt (writePostingList e.toPostings) 0) = [⟨65533, 1⟩] ∧
      ¬ ∀ k, advances (e.posts.length + k) (openAt (writePostingList e.toPostings) 0) =
        e.posts ++ List.replicate k noPost := by
  have hvalid : Postings.Valid ⟨[⟨55296, 1⟩], 1⟩ := ⟨by decide, by decide, by decide, by decide⟩
  have hread : advances 1 (openAt (writePostingList ⟨[⟨55296, 1⟩], 1⟩) 0) = [⟨65533, 1⟩] := by
    decide
  refine ⟨⟨⟨[⟨55296, 1⟩], 1⟩, hvalid⟩, rfl, hread, fun hall => ?_⟩
  have h0 := hall 0
  rw [List.replicate_zero, List.append_nil] at h0
  exact absurd (hread.symm.trans h0) (by simp)

end seamus.posting_round_trip
