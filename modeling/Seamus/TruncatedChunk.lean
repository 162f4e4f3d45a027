-- The file of a chunk that was cut off: where a prefix of it can end so that the loader and the
-- readers never read past its end.
import Seamus.CheckedReads

open little_endian seamus.index seamus.sort seamus.isr seamus.dictionary seamus.loaded_index
open seamus.chunk_layout seamus.posting_round_trip seamus.post_streams seamus.checked_reads

namespace seamus.truncated_chunk

/-! ## Numbers that are cut off -/

theorem readTail_take (c k res t : Nat) (rest : Bytes) :
    (t < k → checked_reads.readTail k res ((utf8.writeTail c k ++ rest).take t) = none) ∧
      (k ≤ t → ∃ x, checked_reads.readTail k res ((utf8.writeTail c k ++ rest).take t) = some x) := by
  induction k generalizing res t with
  | zero => exact ⟨fun h => absurd h (Nat.not_lt_zero t), fun _ => ⟨_, rfl⟩⟩
  | succ k ih =>
    cases t with
    | zero => exact ⟨fun _ => rfl, fun h => absurd h (Nat.not_succ_le_zero k)⟩
    | succ t =>
      have hlt : (c >>> (6 * k)) &&& 0x3F < 64 := Nat.lt_of_le_of_lt Nat.and_le_right (by decide)
      obtain ⟨hbyte, -⟩ := utf8.continuation_byte _ hlt
      rw [utf8.writeTail, List.cons_append, List.take_succ_cons, checked_reads.readTail, if_pos hbyte,
        Nat.succ_lt_succ_iff, Nat.succ_le_succ_iff]
      exact ih _ t

theorem isSome_readUtf8_take (c t : Nat) (rest : Bytes) (h : c < 2 ^ 31) :
    (t < (utf8.writeUtf8 c utf8.MAX_UTF8_LEN).length →
        checked_reads.readUtf8 ((utf8.writeUtf8 c utf8.MAX_UTF8_LEN ++ rest).take t) = none) ∧
      ((utf8.writeUtf8 c utf8.MAX_UTF8_LEN).length ≤ t →
        ∃ x, checked_reads.readUtf8 ((utf8.writeUtf8 c utf8.MAX_UTF8_LEN ++ rest).take t) = some x) := by
  have hc : ¬ c > 0x7FFFFFFF := by simp only [Nat.reducePow] at h; omega
  have hlen := utf8.lengthOf_bounds c
  have hroom : ¬ utf8.lengthOf c > utf8.MAX_UTF8_LEN := by omega
  unfold utf8.writeUtf8
  simp only [hc, if_false, hroom]
  cases t with
  | zero =>
    refine ⟨fun _ => rfl, fun hle => ?_⟩
    split at hle <;> simp at hle
  | succ t =>
    by_cases h1 : utf8.lengthOf c = 1
    · have hlt : c < 0x80 := by
        by_contra hge
        revert h1
        unfold utf8.lengthOf
        split_ifs <;> omega
      obtain ⟨ha, hv⟩ := utf8.ascii_byte c hlt
      rw [hv] at ha
      simp [h1, checked_reads.readUtf8, ha, hv]
    · obtain ⟨htop, -⟩ := utf8.lengthOf_fits c h h1
      obtain ⟨ha, -⟩ := utf8.first_byte (utf8.lengthOf c) _ (by omega) hlen.2 htop
      have h0 : utf8.lengthOf c ≠ 0 := by omega
      simp only [h1, if_false, List.cons_append, List.take_succ_cons, checked_reads.readUtf8, ha, h0,
        List.length_cons, utf8.writeTail_length, Option.map_eq_none_iff, Nat.succ_lt_succ_iff,
        Nat.succ_le_succ_iff, Option.map_eq_some_iff]
      obtain ⟨hnone, hsome⟩ := readTail_take c (utf8.lengthOf c - 1)
        ((UInt8.ofNat (utf8.writeMask (utf8.lengthOf c) |||
          (c >>> (6 * (utf8.lengthOf c - 1))))).toNat &&& utf8.readMask (utf8.lengthOf c)) t rest
      refine ⟨hnone, fun hle => ?_⟩
      obtain ⟨x, hx⟩ := hsome hle
      exact ⟨_, x, hx, rfl⟩

/-- A number that is cut off is read past the end of the file. -/
theorem readUtf8_take (c t : Nat) (rest : Bytes) (h : c < 2 ^ 31) :
    checked_reads.readUtf8 ((utf8.writeUtf8 c utf8.MAX_UTF8_LEN ++ rest).take t) =
      if t < (utf8.writeUtf8 c utf8.MAX_UTF8_LEN).length then none
      else some (readBack c, rest.take (t - (utf8.writeUtf8 c utf8.MAX_UTF8_LEN).length)) := by
  obtain ⟨hnone, hsome⟩ := isSome_readUtf8_take c t rest h
  split
  · rename_i hlt
    exact hnone hlt
  · rename_i hge
    obtain ⟨x, hx⟩ := hsome (Nat.not_lt.mp hge)
    have hvalue := readUtf8_eq hx
    rw [List.take_append, List.take_of_length_le (Nat.not_lt.mp hge), readUtf8_written c _ h]
      at hvalue
    rw [hx, hvalue]

/-! ## Posts that are cut off -/

/-- The bytes of one post. -/
def postBytes (lastDoc lastLoc : Nat) (p : Post) : Bytes := writePosts lastDoc lastLoc [p]

/-- Of `t` bytes of the posts, none are left in the middle of a post. -/
def PostsInside : Nat → Nat → List Post → Nat → Prop
  | _, _, [], _ => True
  | lastDoc, lastLoc, p :: ps, t =>
    t = 0 ∨ ((postBytes lastDoc lastLoc p).length ≤ t ∧
      PostsInside p.doc p.loc ps (t - (postBytes lastDoc lastLoc p).length))

theorem writePosts_cons {lastDoc lastLoc : Nat} {p : Post} {ps : List Post}
    (h : lastDoc ≤ p.doc) :
    writePosts lastDoc lastLoc (p :: ps) =
      postBytes lastDoc lastLoc p ++ writePosts p.doc p.loc ps := by
  by_cases hnew : p.doc > lastDoc
  · simp [postBytes, writePosts, hnew]
  · have hsame : lastDoc = p.doc := by omega
    simp [postBytes, writePosts, hsame]

/-- The posts are inside if there are all, or if they end behind a post. -/
theorem postsInside_iff {lastDoc lastLoc : Nat} {ps : List Post} (h : After lastDoc lastLoc ps)
    (t : Nat) :
    PostsInside lastDoc lastLoc ps t ↔ (writePosts lastDoc lastLoc ps).length ≤ t ∨
      ∃ k, t = (writePosts lastDoc lastLoc (ps.take k)).length := by
  induction ps generalizing lastDoc lastLoc t with
  | nil => exact ⟨fun _ => Or.inl (Nat.zero_le t), fun _ => trivial⟩
  | cons p ps ih =>
    have hdoc : lastDoc ≤ p.doc := by
      have hnext := h.next p List.mem_cons_self
      omega
    have hcons (qs : List Post) := @writePosts_cons lastDoc lastLoc p qs hdoc
    rw [PostsInside, ih h.tail, hcons, List.length_append]
    constructor
    · rintro (rfl | ⟨hle, hall | ⟨k, hk⟩⟩)
      · exact Or.inr ⟨0, rfl⟩
      · exact Or.inl (by omega)
      · refine Or.inr ⟨k + 1, ?_⟩
        rw [List.take_succ_cons, hcons, List.length_append, ← hk]
        omega
    · rintro (hall | ⟨k, hk⟩)
      · exact Or.inr ⟨by omega, Or.inl (by omega)⟩
      · cases k with
        | zero => exact Or.inl hk
        | succ k =>
          rw [List.take_succ_cons, hcons, List.length_append] at hk
          exact Or.inr ⟨by omega, Or.inr ⟨k, by omega⟩⟩

/-- A reader in front of the first `t` bytes of the posts that are left and of what follows. -/
structure StandsBefore (lastDoc lastLoc : Nat) (ps : List Post) (t : Nat)
    (r : IndexStreamReader) : Prop where
  after : After lastDoc lastLoc ps
  pending : r.hasPending = false
  count : r.nPosts = r.postsConsumed + ps.length
  bytes : ∃ rest, r.currLoc = (writePosts lastDoc lastLoc ps ++ rest).take t

section OnePost

variable {lastDoc lastLoc t : Nat} {p : Post} {ps : List Post} {r : IndexStreamReader}

/-- A post of a new doc, with `t` bytes behind the flag. -/
theorem advanceBase_newDoc {d l : Nat} {rest : Bytes} (hmore : r.postsConsumed ≠ r.nPosts)
    (hcur : r.currLoc = 0 :: (utf8.writeUtf8 d utf8.MAX_UTF8_LEN ++
      (utf8.writeUtf8 l utf8.MAX_UTF8_LEN ++ rest)).take t) (hd : d < 2 ^ 31) (hl : l < 2 ^ 31) :
    checked_reads.advanceBase r =
      if t < (utf8.writeUtf8 d utf8.MAX_UTF8_LEN).length +
          (utf8.writeUtf8 l utf8.MAX_UTF8_LEN).length then none
      else some (⟨u32 (r.docOffset + readBack d), readBack l⟩,
        { r with
          postsConsumed := r.postsConsumed + 1
          currLoc := rest.take (t - ((utf8.writeUtf8 d utf8.MAX_UTF8_LEN).length +
            (utf8.writeUtf8 l utf8.MAX_UTF8_LEN).length))
          docOffset := u32 (r.docOffset + readBack d)
          locOffset := readBack l }) := by
  have hne : r.currLoc ≠ [] := by simp [hcur]
  have hflag (q : Bytes) : checked_reads.readUtf8 (0 :: q) = some (0, q) := rfl
  rw [checked_reads.advanceBase, if_neg hmore, if_neg hne, hcur, hflag]
  simp only [Option.bind_eq_bind, Option.bind_some, gt_iff_lt, Nat.lt_irrefl, if_false,
    readUtf8_take _ _ _ hd]
  by_cases hshort : t < (utf8.writeUtf8 d utf8.MAX_UTF8_LEN).length
  · rw [if_pos hshort, if_pos (Nat.lt_add_right _ hshort), Option.bind_none]
  · simp only [if_neg hshort, Option.bind_some, readUtf8_take _ _ _ hl]
    by_cases hcut : t - (utf8.writeUtf8 d utf8.MAX_UTF8_LEN).length <
        (utf8.writeUtf8 l utf8.MAX_UTF8_LEN).length
    · rw [if_pos hcut, if_pos (by omega), Option.bind_none]
    · rw [if_neg hcut, if_neg (by omega), Option.bind_some, Nat.sub_sub]
      rfl

/-- A post of the doc of the last one. -/
theorem advanceBase_sameDoc {l : Nat} {rest : Bytes} (hmore : r.postsConsumed ≠ r.nPosts)
    (hne : r.currLoc ≠ [])
    (hcur : r.currLoc = (utf8.writeUtf8 l utf8.MAX_UTF8_LEN ++ rest).take t) (hpos : 0 < l)
    (hl : l < 2 ^ 31) :
    checked_reads.advanceBase r =
      if t < (utf8.writeUtf8 l utf8.MAX_UTF8_LEN).length then none
      else some (⟨r.docOffset, u32 (r.locOffset + readBack l)⟩,
        { r with
          postsConsumed := r.postsConsumed + 1
          currLoc := rest.take (t - (utf8.writeUtf8 l utf8.MAX_UTF8_LEN).length)
          locOffset := u32 (r.locOffset + readBack l) }) := by
  have hp := readBack_pos l hpos
  rw [checked_reads.advanceBase, if_neg hmore, if_neg hne, hcur, readUtf8_take _ _ _ hl]
  by_cases hcut : t < (utf8.writeUtf8 l utf8.MAX_UTF8_LEN).length
  · rw [if_pos hcut, if_pos hcut]
    rfl
  · simp only [if_neg hcut, Option.bind_eq_bind, Option.bind_some, gt_iff_lt, hp, if_true, loc,
      Option.pure_def]

/-- The next post is read past the end of the file exactly if the file ends in it. -/
theorem advanceBase_post (h : StandsBefore lastDoc lastLoc (p :: ps) t r) (ht : t ≠ 0) :
    (t < (postBytes lastDoc lastLoc p).length → checked_reads.advanceBase r = none) ∧
      ((postBytes lastDoc lastLoc p).length ≤ t →
        ∃ q r', checked_reads.advanceBase r = some (q, r') ∧
          StandsBefore p.doc p.loc ps (t - (postBytes lastDoc lastLoc p).length) r') := by
  obtain ⟨rest, hbytes⟩ := h.bytes
  have hcount := h.count
  rw [List.length_cons] at hcount
  have hmore : r.postsConsumed ≠ r.nPosts := by omega
  rcases h.after.head with ⟨hnew, hd, hd31, -, hl, -, hl31⟩ | ⟨hsame, hl, hlt, -, hl31⟩
  · obtain ⟨t, rfl⟩ : ∃ n, t = n + 1 := ⟨t - 1, by omega⟩
    have hpost : postBytes lastDoc lastLoc p = 0 ::
        (utf8.writeUtf8 (p.doc - lastDoc) utf8.MAX_UTF8_LEN ++
          utf8.writeUtf8 p.loc utf8.MAX_UTF8_LEN) := by
      simp [postBytes, writePosts, hnew, hd, hl]
    rw [writePosts_cons (Nat.le_of_lt hnew), hpost, List.cons_append, List.cons_append,
      List.take_succ_cons, List.append_assoc, List.append_assoc] at hbytes
    rw [advanceBase_newDoc hmore hbytes hd31 hl31, hpost, List.length_cons, List.length_append]
    refine ⟨fun hcut => if_pos (by omega), fun hfits => ?_⟩
    rw [if_neg (by omega)]
    refine ⟨_, _, rfl, h.after.tail, h.pending, by simp only; omega, rest, ?_⟩
    simp only
    congr 1
    omega
  · have hnot : ¬p.doc > lastDoc := by omega
    have hpost : postBytes lastDoc lastLoc p =
        utf8.writeUtf8 (p.loc - lastLoc) utf8.MAX_UTF8_LEN := by
      simp [postBytes, writePosts, hnot, hl]
    rw [writePosts_cons (Nat.le_of_eq hsame.symm), hpost, List.append_assoc] at hbytes
    have hne : r.currLoc ≠ [] := by
      rw [hbytes, ne_eq, List.take_eq_nil_iff, not_or]
      exact ⟨ht, writeUtf8_append_ne_nil _ _⟩
    rw [advanceBase_sameDoc hmore hne hbytes (by omega) (by omega), hpost]
    refine ⟨fun hcut => if_pos hcut, fun hfits => ?_⟩
    rw [if_neg (by omega)]
    exact ⟨_, _, rfl, h.after.tail, h.pending, by simp only; omega, rest, rfl⟩

end OnePost

/-! ## Calls -/

/-- A reader that never reads past the end of the file, whatever it is asked. -/
def Safe (r : IndexStreamReader) : Prop :=
  ∃ lastDoc lastLoc ps t, StandsBefore lastDoc lastLoc ps t r ∧ PostsInside lastDoc lastLoc ps t

theorem after_nil : After 0 0 [] := ⟨by simp, List.Pairwise.nil, by simp, by simp⟩

theorem safe_noPosts : Safe noPosts := ⟨0, 0, [], 0, ⟨after_nil, rfl, rfl, [], rfl⟩, trivial⟩

section Calls

variable {r : IndexStreamReader}

theorem Safe.pending (h : Safe r) : r.hasPending = false := by
  obtain ⟨_, _, _, _, hstands, _⟩ := h
  exact hstands.pending

/-- One step: a safe reader reads inside the file and stays safe. -/
theorem Safe.advanceBase (h : Safe r) :
    ∃ p r', checked_reads.advanceBase r = some (p, r') ∧ Safe r' := by
  obtain ⟨lastDoc, lastLoc, ps, t, hstands, hinside⟩ := h
  by_cases hdone : r.postsConsumed = r.nPosts
  · rw [checked_reads.advanceBase, if_pos hdone]
    exact ⟨_, _, rfl, lastDoc, lastLoc, ps, t, hstands, hinside⟩
  · by_cases hnil : r.currLoc = []
    · rw [checked_reads.advanceBase, if_neg hdone, if_pos hnil]
      exact ⟨_, _, rfl, 0, 0, [], 0, ⟨after_nil, hstands.pending, rfl, [], hnil⟩, trivial⟩
    · obtain ⟨rest, hbytes⟩ := hstands.bytes
      have ht : t ≠ 0 := by
        rintro rfl
        exact hnil (hbytes.trans List.take_zero)
      cases ps with
      | nil => exact absurd hstands.count.symm hdone
      | cons p ps =>
        obtain ⟨hle, htail⟩ := hinside.resolve_left ht
        obtain ⟨q, r', hrun, hnext⟩ := (advanceBase_post hstands ht).2 hle
        exact ⟨q, r', hrun, _, _, _, _, hnext, htail⟩

theorem Safe.walkTo (h : Safe r) (doc turns : Nat) :
    ∃ p r', checked_reads.walkTo doc turns r = some (p, r') ∧ Safe r' := by
  induction turns generalizing r with
  | zero => exact ⟨_, _, rfl, h⟩
  | succ turns ih =>
    rw [checked_reads.walkTo]
    split
    · obtain ⟨p, r', hrun, hsafe⟩ := h.advanceBase
      simp only [hrun, Option.bind_eq_bind, Option.bind_some]
      split
      · exact ⟨p, r', rfl, hsafe⟩
      · exact ih hsafe
    · exact ⟨_, _, rfl, h⟩

theorem Safe.advanceTo (h : Safe r) (doc : Nat) :
    ∃ p r', checked_reads.advanceTo doc r = some (p, r') ∧ Safe r' := by
  have hsame : { r with hasPending := false } = r := by rw [← h.pending]
  rw [checked_reads.advanceTo, hsame, if_neg (by simp [h.pending])]
  exact h.walkTo doc _

theorem advance_eq_base (h : r.hasPending = false) :
    checked_reads.advance r = checked_reads.advanceBase r :=
  if_neg (by rw [h]; exact Bool.false_ne_true)

theorem Safe.call (h : Safe r) (c : Call) :
    ∃ p r', checked_reads.call c r = some (p, r') ∧ Safe r' := by
  cases c with
  | advance =>
    rw [checked_reads.call, advance_eq_base h.pending]
    exact h.advanceBase
  | advanceTo doc => exact h.advanceTo doc
  | advanceToNextDoc => exact h.advanceTo _

/-- A whole run: a safe reader takes any calls. -/
theorem Safe.run (h : Safe r) (calls : List Call) : checked_reads.run calls r ≠ none := by
  induction calls generalizing r with
  | nil => exact Option.some_ne_none _
  | cons c calls ih =>
    obtain ⟨p, r', hcall, hsafe⟩ := h.call c
    obtain ⟨ps, hps⟩ := Option.ne_none_iff_exists'.mp (ih hsafe)
    rw [checked_reads.run, hcall]
    simp only [Option.bind_eq_bind, Option.bind_some, hps]
    exact Option.some_ne_none _

/-- Where the file ends inside a post, some number of `advance` reads past the end. -/
theorem exists_run_none {lastDoc lastLoc t : Nat} {ps : List Post}
    (h : StandsBefore lastDoc lastLoc ps t r) (hcut : ¬PostsInside lastDoc lastLoc ps t) :
    ∃ k, checked_reads.run (List.replicate k .advance) r = none := by
  induction ps generalizing lastDoc lastLoc t r with
  | nil => exact absurd trivial hcut
  | cons p ps ih =>
    rw [PostsInside, not_or, not_and] at hcut
    obtain ⟨ht, hrest⟩ := hcut
    obtain ⟨hnone, hsome⟩ := advanceBase_post h ht
    rw [← advance_eq_base h.pending] at hnone hsome
    by_cases hle : (postBytes lastDoc lastLoc p).length ≤ t
    · obtain ⟨q, r', hrun, hnext⟩ := hsome hle
      obtain ⟨k, hk⟩ := ih hnext (hrest hle)
      refine ⟨k + 1, ?_⟩
      rw [List.replicate_succ, checked_reads.run, checked_reads.call, hrun]
      simp only [Option.bind_eq_bind, Option.bind_some, hk, Option.bind_none]
    · refine ⟨1, ?_⟩
      rw [List.replicate_one, checked_reads.run, checked_reads.call, hnone (Nat.not_le.mp hle)]
      rfl

/-- A reader stays inside for every sequence of calls exactly if the file ends at a post. -/
theorem run_iff {lastDoc lastLoc t : Nat} {ps : List Post}
    (h : StandsBefore lastDoc lastLoc ps t r) :
    (∀ calls, checked_reads.run calls r ≠ none) ↔ PostsInside lastDoc lastLoc ps t := by
  constructor
  · intro hall
    by_contra hcut
    obtain ⟨k, hk⟩ := exists_run_none h hcut
    exact hall _ hk
  · intro hinside
    exact Safe.run ⟨lastDoc, lastLoc, ps, t, h, hinside⟩

end Calls

/-! ## The header of a list -/

/-- How many bytes of the posts of a list can be in the file: all, or two or more that are fewer
than the posts or end behind a post. -/
def PostsAllow (posts : List Post) (t : Nat) : Prop :=
  (writePosts 0 0 posts).length ≤ t ∨
    (2 ≤ t ∧ (t < posts.length ∨ ∃ k, t = (writePosts 0 0 (posts.take k)).length))

section Header

variable {e : Postings} (before rest : Bytes)

/-- The bytes from the header on, with `t` bytes behind it. -/
theorem drop_take_list (t : Nat) :
    ((before ++ (writePostingList e ++ rest)).take (before.length + 14 + t)).drop before.length =
      leBytes 8 e.posts.length ++ (space :: (leBytes 4 e.nDocs ++
        (newline :: (writePosts 0 0 e.posts ++ newline :: rest).take t))) := by
  have hlist : writePostingList e ++ rest =
      writeHeader e ++ (writePosts 0 0 e.posts ++ newline :: rest) := by
    simp [writePostingList]
  have hheader := writeHeader_length e
  have hcount : before.length + 14 + t - before.length = (writeHeader e).length + t := by omega
  rw [List.drop_take, List.drop_left, hlist, hcount, List.take_length_add_append]
  simp [writeHeader]

/-- What a reader is opened on, with `t` bytes behind the header. -/
theorem openAt_take (h : e.Valid) (t : Nat) :
    (t < e.posts.length → checked_reads.openAt
        ((before ++ (writePostingList e ++ rest)).take (before.length + 14 + t)) before.length =
          if 2 ≤ t then some noPosts else none) ∧
      (e.posts.length ≤ t → ∃ nDocs, checked_reads.openAt
        ((before ++ (writePostingList e ++ rest)).take (before.length + 14 + t)) before.length =
          some ⟨e.posts.length, nDocs, (writePosts 0 0 e.posts ++ newline :: rest).take t,
            0, 0, 0, false⟩) := by
  have hsize := length_le_writePosts 0 0 e.posts
  have hsuffix := @drop_take_list e before rest t
  have hlen := congrArg List.length hsuffix
  generalize hbody : writePosts 0 0 e.posts ++ newline :: rest = body at hsuffix hlen ⊢
  have hlong : e.posts.length < body.length := by
    rw [← hbody, List.length_append, List.length_cons]
    omega
  simp only [List.length_drop, List.length_append, List.length_cons, leBytes_length] at hlen
  have hroom : ¬before.length + 8 + 1 + 4 + 1 >
      ((before ++ (writePostingList e ++ rest)).take (before.length + 14 + t)).length := by
    omega
  have h8 : (leBytes 8 e.posts.length ++ (space :: (leBytes 4 e.nDocs ++
      (newline :: body.take t)))).drop (8 + 1) = leBytes 4 e.nDocs ++ (newline :: body.take t) := by
    rw [← List.drop_drop, drop_leBytes, List.drop_one, List.tail_cons]
  have h4 : (leBytes 4 e.nDocs ++ (newline :: body.take t)).drop (4 + 1) = body.take t := by
    rw [← List.drop_drop, drop_leBytes, List.drop_one, List.tail_cons]
  have hlt : e.posts.length % 256 ^ 8 = e.posts.length := Nat.mod_eq_of_lt h.length_lt
  rw [checked_reads.openAt, if_neg hroom]
  simp only [hsuffix, copy_leBytes, hlt, h8, h4, Option.bind_eq_bind, Option.bind_some,
    List.length_take]
  constructor
  · intro hfewer
    rw [if_pos (by omega), copy]
    simp only [List.length_append, List.length_cons, leBytes_length, List.length_take]
    by_cases htwo : 2 ≤ t
    · rw [if_pos htwo, if_pos (by omega)]
      rfl
    · rw [if_neg htwo, if_neg (by omega)]
      rfl
  · intro hle
    rw [if_neg (by omega)]
    exact ⟨_, rfl⟩

/-- A file that ends in the header has no posts for the reader. -/
theorem openAt_short {region : Bytes} {offset : Nat} (h : region.length < offset + 14) :
    checked_reads.openAt region offset = some noPosts := by
  rw [checked_reads.openAt, if_pos (by omega)]

/-- The first post takes three bytes or more. -/
theorem three_le_length (h : e.Valid) {k : Nat} (hk : k ≠ 0) :
    3 ≤ (writePosts 0 0 (e.posts.take k)).length := by
  obtain ⟨k, rfl⟩ : ∃ n, k = n + 1 := ⟨k - 1, by omega⟩
  obtain ⟨p, ps, hposts⟩ := List.exists_cons_of_ne_nil h.nonempty
  have hdoc : p.doc > 0 := (h.docs p (by rw [hposts]; exact List.mem_cons_self)).1
  have hd := List.length_pos_iff.mpr (utf8.writeUtf8_ne_nil (u32Sub p.doc 0))
  have hl := List.length_pos_iff.mpr (utf8.writeUtf8_ne_nil (u32Sub p.loc 0))
  rw [hposts, List.take_succ_cons, writePosts, if_pos hdoc]
  simp only [List.length_append, List.length_cons]
  omega

/-- For the list of a word, any calls stay inside exactly if that many bytes are allowed. -/
theorem list_stays_inside_iff (h : e.Valid) (t : Nat) :
    (∀ calls, ((checked_reads.openAt
        ((before ++ (writePostingList e ++ rest)).take (before.length + 14 + t))
          before.length).bind (checked_reads.run calls)) ≠ none) ↔ PostsAllow e.posts t := by
  obtain ⟨hfewer, hmore⟩ := openAt_take before rest h t
  have hsize := length_le_writePosts 0 0 e.posts
  by_cases hlt : t < e.posts.length
  · rw [hfewer hlt]
    by_cases htwo : 2 ≤ t
    · simp only [if_pos htwo, Option.bind_some]
      exact iff_of_true (fun calls => safe_noPosts.run calls) (Or.inr ⟨htwo, Or.inl hlt⟩)
    · simp only [if_neg htwo, Option.bind_none]
      refine iff_of_false (fun hall => hall [] rfl) ?_
      rintro (hall | ⟨hle, -⟩)
      · omega
      · exact htwo hle
  · obtain ⟨nDocs, hopen⟩ := hmore (Nat.not_lt.mp hlt)
    have hstands : StandsBefore 0 0 e.posts t ⟨e.posts.length, nDocs,
        (writePosts 0 0 e.posts ++ newline :: rest).take t, 0, 0, 0, false⟩ :=
      ⟨h.after, rfl, (Nat.zero_add _).symm, _, rfl⟩
    simp only [hopen, Option.bind_some]
    rw [run_iff hstands, postsInside_iff h.after]
    refine or_congr Iff.rfl ⟨?_, fun hcut => hcut.2.resolve_left hlt⟩
    rintro ⟨k, hk⟩
    have hpos := List.length_pos_iff.mpr h.nonempty
    have hzero : k ≠ 0 := by
      rintro rfl
      rw [List.take_zero] at hk
      simp only [writePosts, List.length_nil] at hk
      omega
    have hthree := three_le_length h hzero
    exact ⟨by omega, Or.inr ⟨k, hk⟩⟩

end Header

/-! ## The dictionary -/

/-- `j` bytes of the dictionary end after the space of an entry and before the last byte of its
offset. -/
def EndsInOffset : List Bytes → Nat → Prop
  | [], _ => False
  | word :: words, j =>
    (word.length + 1 ≤ j ∧ j < word.length + 1 + 8) ∨
      (dictEntrySize word ≤ j ∧ EndsInOffset words (j - dictEntrySize word))

theorem memchr_none {c : UInt8} {p : Bytes} (h : c ∉ p) : loaded_index.memchr c p = none := by
  induction p with
  | nil => rfl
  | cons b p ih =>
    have hb : b ≠ c := fun hbc => h (hbc ▸ List.mem_cons_self)
    rw [loaded_index.memchr, if_neg hb, ih fun hc => h (List.mem_cons_of_mem _ hc), Option.map_none]

/-- How the loop over the dictionary ends, in front of `j` bytes of it and of the region. -/
inductive DictOutcome (entries : List (Bytes × Nat)) (region : Bytes) (j : Nat) :
    Option (List DictEntry × Option Bytes) → Prop
  | outside (h : EndsInOffset (entries.map Prod.fst) j) : DictOutcome entries region j none
  | cut (found : List DictEntry) (left : Option Bytes)
      (hends : ¬EndsInOffset (entries.map Prod.fst) j) (hle : j ≤ (writeDict entries).length)
      (hleft : left.getD [] = []) : DictOutcome entries region j (some (found, left))
  | whole (hends : ¬EndsInOffset (entries.map Prod.fst) j) (hlt : (writeDict entries).length < j) :
      DictOutcome entries region j (some (entries.map rawEntry,
        some (region.take (j - (writeDict entries).length - 1))))

theorem endsInOffset_zero (words : List Bytes) : ¬EndsInOffset words 0 := by
  cases words with
  | nil => exact not_false
  | cons word words =>
    have hsize : dictEntrySize word = word.length + 10 := rfl
    rintro (⟨hle, -⟩ | ⟨hle, -⟩) <;> omega

theorem length_writeDict_cons (word : Bytes) (location : Nat) (entries : List (Bytes × Nat)) :
    (writeDict ((word, location) :: entries)).length =
      dictEntrySize word + (writeDict entries).length := by
  simp only [writeDict, List.flatMap_cons, List.length_append, List.length_cons, leBytes_length,
    List.length_nil, dictEntrySize]

theorem length_writeDict (entries : List (Bytes × Nat)) :
    (writeDict entries).length = ((entries.map Prod.fst).map dictEntrySize).sum := by
  induction entries with
  | nil => rfl
  | cons entry entries ih =>
    rw [length_writeDict_cons, ih, List.map_cons, List.map_cons, List.sum_cons]

/-- An entry that is all there. -/
theorem DictOutcome.cons {entries : List (Bytes × Nat)} {region : Bytes} {j : Nat}
    {out : Option (List DictEntry × Option Bytes)} (word : Bytes) (location : Nat)
    (hj : word.length + 1 + 8 ≤ j)
    (h : DictOutcome entries region (j - dictEntrySize word) out) :
    DictOutcome ((word, location) :: entries) region j (out.map fun (entries, region) =>
      (rawEntry (word, location) :: entries, region)) := by
  have hsize : dictEntrySize word = word.length + 10 := rfl
  have hlength := length_writeDict_cons word location entries
  have hiff : EndsInOffset (word :: entries.map Prod.fst) j ↔
      EndsInOffset (entries.map Prod.fst) (j - dictEntrySize word) := by
    rw [EndsInOffset]
    constructor
    · rintro (⟨-, hlt⟩ | ⟨-, hends⟩)
      · omega
      · exact hends
    · intro hends
      refine Or.inr ⟨?_, hends⟩
      by_contra hlt
      rw [Nat.sub_eq_zero_of_le (by omega)] at hends
      exact endsInOffset_zero _ hends
  cases h with
  | outside h => exact .outside (hiff.mpr h)
  | cut found left hends hle hleft =>
    exact .cut _ left (fun h => hends (hiff.mp h)) (by omega) hleft
  | whole hends hlt =>
    have hcount : j - dictEntrySize word - (writeDict entries).length - 1 =
        j - (writeDict ((word, location) :: entries)).length - 1 := by omega
    rw [Option.map_some, hcount]
    exact .whole (fun h => hends (hiff.mp h)) (by omega)

/-- The turn for the entry of a word, with more bytes than the word has or with fewer. -/
theorem readDict_word (turns : Nat) {word : Bytes} (hword : Indexable word) :
    (∀ rest, checked_reads.readDict (turns + 1) (word ++ space :: rest) =
        (copy 8 rest).bind fun offset =>
          (checked_reads.readDict turns (rest.drop (8 + 1))).map fun (entries, region) =>
            (⟨word, u32 word.length, offset, 0⟩ :: entries, region)) ∧
      ∀ n, 0 < n → checked_reads.readDict (turns + 1) (word.take n) = some ([], none) := by
  obtain ⟨first, tail, rfl, hnl⟩ := hword.ne_newline
  constructor
  · intro rest
    have hchr := memchr_append space _ rest hword.noSpace
    rw [List.cons_append] at hchr ⊢
    rw [checked_reads.readDict, if_neg hnl, hchr]
    simp only
    cases copy 8 rest with
    | none => rfl
    | some offset => rfl
  · intro n hn
    obtain ⟨n, rfl⟩ : ∃ m, n = m + 1 := ⟨n - 1, by omega⟩
    have hno : space ∉ (first :: tail).take (n + 1) :=
      fun hmem => hword.noSpace (List.mem_of_mem_take hmem)
    rw [List.take_succ_cons] at hno ⊢
    rw [checked_reads.readDict, if_neg hnl, memchr_none hno]

/-- The whole loop. -/
theorem dictOutcome (turns : Nat) (entries : List (Bytes × Nat)) (region : Bytes) (j : Nat)
    (hturns : ((writeDict entries ++ newline :: region).take j).length ≤ turns)
    (hwords : ∀ entry ∈ entries, Indexable entry.1) (hlocs : ∀ entry ∈ entries, entry.2 < 2 ^ 64) :
    DictOutcome entries region j
      (checked_reads.readDict turns ((writeDict entries ++ newline :: region).take j)) := by
  induction turns generalizing entries j with
  | zero =>
    have hzero : j = 0 := by
      rw [List.length_take, List.length_append, List.length_cons] at hturns
      omega
    rw [hzero]
    exact .cut [] (some []) (endsInOffset_zero _) (Nat.zero_le _) rfl
  | succ turns ih =>
    cases j with
    | zero => exact .cut [] (some []) (endsInOffset_zero _) (Nat.zero_le _) rfl
    | succ j =>
      cases entries with
      | nil =>
        rw [writeDict, List.flatMap_nil, List.nil_append, List.take_succ_cons,
          checked_reads.readDict, if_pos rfl]
        exact .whole id (Nat.succ_pos j)
      | cons entry entries =>
        obtain ⟨word, location⟩ := entry
        have hword : Indexable word := hwords _ List.mem_cons_self
        have hsize : dictEntrySize word = word.length + 10 := rfl
        have hlength := length_writeDict_cons word location entries
        obtain ⟨hfull, hshort⟩ := readDict_word turns hword
        generalize htail : writeDict entries ++ newline :: region = tail at ih hturns
        have hbytes : writeDict ((word, location) :: entries) ++ newline :: region =
            word ++ (space :: (leBytes 8 location ++ (newline :: tail))) := by
          simp [writeDict, ← htail]
        rw [hbytes] at hturns ⊢
        by_cases hin : j + 1 ≤ word.length
        · rw [List.take_append_of_le_length hin, hshort _ (Nat.succ_pos j)]
          refine .cut [] none ?_ (by omega) rfl
          rintro (⟨hle, -⟩ | ⟨hle, -⟩) <;> simp only at hle <;> omega
        · obtain ⟨t, ht⟩ : ∃ t, j + 1 = word.length + (t + 1) := ⟨j - word.length, by omega⟩
          rw [ht, List.take_length_add_append, List.take_succ_cons] at hturns ⊢
          rw [hfull]
          by_cases hoffset : 8 ≤ t
          · have htake : (leBytes 8 location ++ (newline :: tail)).take t =
                leBytes 8 location ++ (newline :: tail).take (t - 8) := by
              rw [List.take_append, List.take_of_length_le (by rw [leBytes_length]; exact hoffset),
                leBytes_length]
            have hdrop : (leBytes 8 location ++ (newline :: tail).take (t - 8)).drop (8 + 1) =
                tail.take (word.length + (t + 1) - dictEntrySize word) := by
              rw [← List.drop_drop, drop_leBytes, List.drop_take, List.drop_one, List.tail_cons]
              congr 1
              omega
            have hlt : location % 256 ^ 8 = location :=
              Nat.mod_eq_of_lt (hlocs (word, location) List.mem_cons_self)
            rw [htake, copy_leBytes, hlt, hdrop, Option.bind_some]
            rw [← htail] at hturns ⊢
            refine .cons word location (by omega) (ih entries _ ?_ ?_ ?_)
            · simp only [List.length_append, List.length_cons, List.length_take, leBytes_length]
                at hturns ⊢
              omega
            · exact fun e he => hwords e (List.mem_cons_of_mem _ he)
            · exact fun e he => hlocs e (List.mem_cons_of_mem _ he)
          · have hcopy : copy 8 ((leBytes 8 location ++ (newline :: tail)).take t) = none := by
              rw [copy, if_neg]
              rw [List.length_take]
              omega
            rw [hcopy]
            refine .outside (Or.inl ⟨?_, ?_⟩) <;> simp only <;> omega

/-! ## The sections in front of the dictionary -/

theorem checked_memchr_append {c : UInt8} {p : Bytes} (rest : Bytes) {n : Nat} (h : c ∉ p)
    (hn : p.length < n) : checked_reads.memchr c n (p ++ c :: rest) = some (some (p, rest)) := by
  induction p generalizing n with
  | nil =>
    obtain ⟨n, rfl⟩ : ∃ m, n = m + 1 := ⟨n - 1, by rw [List.length_nil] at hn; omega⟩
    exact if_pos rfl
  | cons b p ih =>
    obtain ⟨n, rfl⟩ : ∃ m, n = m + 1 := ⟨n - 1, by omega⟩
    have hb : b ≠ c := fun hbc => h (hbc ▸ List.mem_cons_self)
    rw [List.cons_append, checked_reads.memchr, if_neg hb,
      ih (fun hc => h (List.mem_cons_of_mem _ hc)) (Nat.lt_of_succ_lt_succ hn)]
    rfl

/-- A whole URL table is read inside its bounds. -/
theorem checked_readUrls (turns i : Nat) (urls : List Bytes) (tail : Bytes)
    (hturns : urls.length ≤ turns) (hclean : ∀ url ∈ urls, newline ∉ url)
    (hsize : urlsBytes urls < 2 ^ 63) :
    checked_reads.readUrls turns (urlsBytes urls) (writeUrls i urls ++ tail) =
      some (urls, some tail) := by
  induction turns generalizing i urls with
  | zero =>
    have hnil : urls = [] := List.length_eq_zero_iff.1 (Nat.le_zero.1 hturns)
    rw [hnil, checked_reads.readUrls, writeUrls, List.nil_append]
  | succ turns ih =>
    cases urls with
    | nil => exact if_pos rfl
    | cons url urls =>
      have hleft : urlsBytes (url :: urls) = 4 + 1 + url.length + 1 + urlsBytes urls := by
        simp [urlsBytes]
      have hsub : u64Sub (urlsBytes (url :: urls)) (4 + 1) = urlsBytes (url :: urls) - (4 + 1) :=
        if_pos (by omega)
      have hskip : (writeUrls i (url :: urls) ++ tail).drop (4 + 1) =
          url ++ (newline :: (writeUrls (i + 1) urls ++ tail)) := by
        rw [writeUrls, List.append_assoc, ← List.drop_drop, drop_leBytes]
        simp
      rw [List.length_cons] at hturns
      rw [checked_reads.readUrls, if_neg (by omega), hsub, hskip,
        checked_memchr_append _ (hclean url List.mem_cons_self) (by omega)]
      have hrest : urlsBytes (url :: urls) - (4 + 1 + url.length + 1) = urlsBytes urls := by omega
      simp only [hrest]
      rw [ih (i + 1) urls (by omega) (fun u hu => hclean u (List.mem_cons_of_mem _ hu)) (by omega)]
      rfl

/-- What the constructor does after the loop over the dictionary. -/
def finish (urls : List Bytes) (out : List DictEntry × Option Bytes) : LoadedIndex :=
  match out with
  | (entries, none) => ⟨urls, entries, [], 0⟩
  | (entries, some region) =>
    let entries := entries.map (readPosts region)
    ⟨urls, entries, region, (entries.map DictEntry.nPosts).sum % 2 ^ 64⟩

theorem skipNewline_take (p : Bytes) (n : Nat) :
    skipNewline ((newline :: p).take n) = p.take (n - 1) := by
  cases n with
  | zero => rfl
  | succ n => rfl

section Sections

variable (urls : List Bytes) (toc dict : Bytes)

/-- A file in front of whose dictionary the sections have their sizes. -/
def fileOf : Bytes :=
  leBytes 8 (urlsBytes urls) ++ (newline :: (writeUrls 0 urls ++ (newline ::
    (toc ++ (newline :: dict)))))

/-- Where the dictionary starts. -/
def dictStart : Nat := 8 + 1 + urlsBytes urls + 1 + INDEX_DICTIONARY_TOC_SIZE + 1

variable {urls toc dict} in
/-- The size of the URL table is copied without a look at the size of the file. -/
theorem load_short {n : Nat} (hzero : n ≠ 0) (hn : n < 8) :
    checked_reads.load ((fileOf urls toc dict).take n) = none := by
  have hne : (fileOf urls toc dict).take n ≠ [] := by
    rw [ne_eq, List.take_eq_nil_iff, not_or]
    exact ⟨hzero, by simp [fileOf, leBytes]⟩
  have hcopy : copy 8 ((fileOf urls toc dict).take n) = none := by
    rw [copy, if_neg]
    rw [List.length_take]
    omega
  rw [checked_reads.load, if_neg hne, hcopy]

/-- From 8 bytes on, the constructor gets to the dictionary without a read past the end, or it
gives up before. -/
theorem load_take (hclean : ∀ url ∈ urls, newline ∉ url) (hsize : urlsBytes urls < 2 ^ 63)
    (htoc : toc.length = INDEX_DICTIONARY_TOC_SIZE) {n : Nat} (hn : 8 ≤ n) :
    (n < dictStart urls ∧ checked_reads.load ((fileOf urls toc dict).take n) = some ⟨[], [], [], 0⟩ ∧
        loaded_index.load ((fileOf urls toc dict).take n) = ⟨[], [], [], 0⟩) ∨
      (checked_reads.load ((fileOf urls toc dict).take n) =
          (checked_reads.readDict (dict.take (n - dictStart urls)).length
            (dict.take (n - dictStart urls))).map (finish urls) ∧
        loaded_index.load ((fileOf urls toc dict).take n) =
          finish urls (loaded_index.readDict (dict.take (n - dictStart urls)).length
            (dict.take (n - dictStart urls)))) := by
  obtain ⟨m, rfl⟩ : ∃ m, n = 8 + m := ⟨n - 8, by omega⟩
  generalize hrest : writeUrls 0 urls ++ (newline :: (toc ++ (newline :: dict))) = rest
  have hlength : urlsBytes urls ≤ rest.length := by
    rw [← hrest, List.length_append, writeUrls_length]
    exact Nat.le_add_right _ _
  have hfile : (fileOf urls toc dict).take (8 + m) =
      leBytes 8 (urlsBytes urls) ++ (newline :: rest).take m := by
    rw [fileOf, hrest]
    have htake := @List.take_length_add_append _ (leBytes 8 (urlsBytes urls)) (newline :: rest) m
    rwa [leBytes_length] at htake
  have hne : leBytes 8 (urlsBytes urls) ++ (newline :: rest).take m ≠ [] := by simp [leBytes]
  have hvalue : urlsBytes urls % 256 ^ 8 = urlsBytes urls :=
    Nat.mod_eq_of_lt (Nat.lt_trans hsize (by decide))
  rw [hfile, checked_reads.load, if_neg hne, loaded_index.load, if_neg hne]
  have htable : leValue ((leBytes 8 (urlsBytes urls) ++ (newline :: rest).take m).take 8) =
      urlsBytes urls := leValue_take_leBytes _ _ _ (Nat.lt_trans hsize (by decide))
  simp only [copy_leBytes, drop_leBytes, hvalue, htable, skipNewline_take]
  by_cases hshort : urlsBytes urls > (rest.take (m - 1)).length
  · refine Or.inl ⟨?_, if_pos hshort, if_pos hshort⟩
    rw [List.length_take] at hshort
    unfold dictStart
    omega
  · have hle : urlsBytes urls ≤ m - 1 := by
      rw [List.length_take] at hshort
      omega
    have hprefix : rest.take (m - 1) = writeUrls 0 urls ++
        (newline :: (toc ++ (newline :: dict))).take (m - 1 - urlsBytes urls) := by
      rw [← hrest, List.take_append, List.take_of_length_le (by rw [writeUrls_length]; exact hle),
        writeUrls_length]
    have hdict : ((toc ++ (newline :: dict)).take (m - 1 - urlsBytes urls - 1)).drop
        INDEX_DICTIONARY_TOC_SIZE =
          (newline :: dict).take (m - 1 - urlsBytes urls - 1 - INDEX_DICTIONARY_TOC_SIZE) := by
      rw [List.drop_take, List.drop_left' htoc]
    have hcount : m - 1 - urlsBytes urls - 1 - INDEX_DICTIONARY_TOC_SIZE - 1 =
        8 + m - dictStart urls := by
      unfold dictStart
      omega
    rw [if_neg hshort, if_neg hshort, hprefix,
      checked_readUrls _ 0 urls _ (length_le_urlsBytes urls) hclean hsize,
      List.take_left' (writeUrls_length 0 urls), List.drop_left' (writeUrls_length 0 urls),
      readUrls_writeUrls _ 0 urls (length_le_urlsBytes urls) hclean]
    simp only [skipNewline_take, hdict, hcount]
    refine Or.inr ⟨?_, ?_⟩
    · generalize checked_reads.readDict _ _ = out
      cases out with
      | none => rfl
      | some out =>
        obtain ⟨entries, _ | region⟩ := out <;> rfl
    · generalize loaded_index.readDict _ _ = out
      obtain ⟨entries, _ | region⟩ := out <;> rfl

end Sections

/-! ## Where the file of a chunk can end -/

/-- The search finds the word in a dictionary with the words in that order. -/
def Found (order : List Bytes) (word : Bytes) : Prop :=
  lookup (order.map (entryOf (fun _ => 0) fun _ => 0)) word ≠ none

/-- The search looks at the words only. -/
theorem lookup_entries (offset nPosts : Bytes → Nat) (order : List Bytes) (word : Bytes)
    (hshort : ∀ w ∈ order, w.length < 2 ^ 32) :
    (¬Found order word ∧ lookup (order.map (entryOf offset nPosts)) word = none) ∨
      (Found order word ∧ word ∈ order ∧
        lookup (order.map (entryOf offset nPosts)) word = some (entryOf offset nPosts word)) := by
  have hsearch : binary_search.search (fun mid =>
      compareEntry ((order.map (entryOf offset nPosts)).getD mid default) word)
        (order.length + 1) 0 order.length =
      binary_search.search (fun mid =>
        compareEntry ((order.map (entryOf (fun _ => 0) fun _ => 0)).getD mid default) word)
          (order.length + 1) 0 order.length := by
    refine binary_search.search_congr _ _ _ _ _ fun i _ hi => ?_
    rw [compareEntry_order offset nPosts order word i hshort hi,
      compareEntry_order (fun _ => 0) (fun _ => 0) order word i hshort hi]
  unfold Found lookup
  rw [List.length_map, List.length_map, hsearch]
  cases hs : binary_search.search (fun mid =>
      compareEntry ((order.map (entryOf (fun _ => 0) fun _ => 0)).getD mid default) word)
        (order.length + 1) 0 order.length with
  | none => exact Or.inl ⟨fun h => h rfl, rfl⟩
  | some i =>
    obtain ⟨-, hi, heq⟩ := binary_search.search_sound _ _ _ _ _ hs
    rw [compareEntry_order (fun _ => 0) (fun _ => 0) order word i hshort hi,
      Std.compare_eq_iff_eq, List.getD_eq_getElem _ _ hi] at heq
    subst heq
    have hget (offset nPosts : Bytes → Nat) :
        (some i).bind ((order.map (entryOf offset nPosts))[·]?) =
          some (entryOf offset nPosts order[i]) := by
      simp [hi]
    refine Or.inr ⟨?_, List.getElem_mem hi, hget offset nPosts⟩
    rw [hget]
    exact Option.some_ne_none _

theorem readPosts_eq (region : Bytes) (e : DictEntry) :
    readPosts region e = { e with nPosts := (readPosts region e).nPosts } := by
  rw [readPosts]
  split <;> rfl

/-- An index without a region has no posts to read. -/
theorem open_empty {index : LoadedIndex} (h : index.postingListRegion = []) (word : Bytes) :
    checked_reads.open' word index = some noPosts := by
  rw [checked_reads.open']
  cases lookup index.dictEntries word with
  | none => rfl
  | some entry =>
    simp only [h]
    exact openAt_short (Nat.lt_of_lt_of_le (by decide) (Nat.le_add_left 14 _))

section Sessions

variable {file : Bytes} {index : LoadedIndex}

theorem not_staysInside (h : checked_reads.load file = none) : ¬StaysInside file := by
  intro hall
  refine hall [] [] ?_
  rw [session, h]
  rfl

theorem staysInside_iff (h : checked_reads.load file = some index) :
    StaysInside file ↔ ∀ word calls,
      (checked_reads.open' word index).bind (checked_reads.run calls) ≠ none := by
  unfold StaysInside session
  rw [h]
  rfl

theorem staysInside_empty (h : checked_reads.load file = some index)
    (hregion : index.postingListRegion = []) : StaysInside file := by
  rw [staysInside_iff h]
  intro word calls
  rw [open_empty hregion]
  exact safe_noPosts.run calls

end Sessions

section Chunk

variable (s : ChunkState) (order : List Bytes)

/-- Where the posting lists start in the file. -/
def regionStart : Nat := dictStart s.urls + (order.map dictEntrySize).sum + 1

/-- Where the posts of a word start in the file, behind the header of its list. -/
def postsStart (word : Bytes) : Nat := regionStart s order + (offsetOf s order word + 14)

/-- The number of bytes of the file is one at which it can end. -/
structure CutAllowed (n : Nat) : Prop where
  /-- The size of the URL table is all there, or the file is empty. -/
  size : n = 0 ∨ 8 ≤ n
  offsets : ¬EndsInOffset order (n - dictStart s.urls)
  posts : ∀ word, Found order word → postsStart s order word ≤ n →
    PostsAllow (s.postings word).posts (n - postsStart s order word)

/-- The dictionary as it is written. -/
def entriesOf : List (Bytes × Nat) := order.zip (firstPass s.postings order).locations

/-- Nothing of a list is there. -/
theorem CutAllowed.of_lt {n : Nat} (hn : 8 ≤ n) (hends : ¬EndsInOffset order (n - dictStart s.urls))
    (hlt : n < regionStart s order) : CutAllowed s order n := by
  refine ⟨Or.inr hn, hends, fun word _ hle => ?_⟩
  unfold postsStart at hle
  omega

variable (hperm : order.Perm s.index.keys)
include hperm

theorem writeChunk_eq :
    writeChunk s.urls s.postings order =
      fileOf s.urls (writeToc (fillOffsets (firstPass s.postings order).currOffset
          (firstPass s.postings order).dictOffsets))
        (writeDict (entriesOf s order) ++ newline :: written s.postings order) := by
  have hcount : order.length < 2 ^ 32 := hperm.length_eq ▸ s.wordsFit
  have hall : order.take (u32 order.length) = order := by rw [u32_of_lt hcount, List.take_length]
  simp only [writeChunk, hall]
  rfl

theorem entriesOf_at (i : Nat) (hi : i < order.length) :
    (entriesOf s order)[i]? = some (order[i], offsetOf s order order[i]) := by
  rw [offsetOf_getElem s order hperm i hi]
  exact List.getElem?_zip_eq_some.2 ⟨List.getElem?_eq_getElem hi,
    location_eq_length s.postings order i (order_valid s order hperm) hi⟩

theorem entriesOf_eq :
    entriesOf s order = order.map fun word => (word, offsetOf s order word) := by
  have hlocations : (firstPass s.postings order).locations.length = order.length := by
    rw [firstPass_locations, offsetsFrom_length]
  apply List.ext_getElem?
  intro i
  by_cases hi : i < order.length
  · rw [entriesOf_at s order hperm i hi, List.getElem?_map, List.getElem?_eq_getElem hi,
      Option.map_some]
  · rw [List.getElem?_eq_none (by rw [entriesOf, List.length_zip]; omega),
      List.getElem?_eq_none (by rw [List.length_map]; omega)]

theorem words_entriesOf : (entriesOf s order).map Prod.fst = order := by
  rw [entriesOf_eq s order hperm, List.map_map]
  exact List.map_id order

theorem entriesOf_fits (entry : Bytes × Nat) (h : entry ∈ entriesOf s order) :
    Indexable entry.1 ∧ entry.2 < 2 ^ 64 := by
  rw [entriesOf_eq s order hperm] at h
  obtain ⟨word, hword, rfl⟩ := List.mem_map.mp h
  have hlt := location_lt s order hperm (order.idxOf word) (List.idxOf_lt_length_of_mem hword)
  refine ⟨order_indexable s order hperm word hword, ?_⟩
  simp only [offsetOf]
  omega

/-- The entries of a region, whatever numbers of posts its headers give. -/
theorem loaded_entries (region : Bytes) : ∃ nPosts : Bytes → Nat,
    ((entriesOf s order).map rawEntry).map (readPosts region) =
      order.map (entryOf (offsetOf s order) nPosts) := by
  refine ⟨fun word => (readPosts region (entryOf (offsetOf s order) (fun _ => 0) word)).nPosts, ?_⟩
  rw [entriesOf_eq s order hperm, List.map_map, List.map_map]
  refine List.map_congr_left fun word _ => ?_
  exact readPosts_eq region _

/-! ## The law -/

/-- The list of a word in the first `m` bytes of the region. -/
theorem word_stays_inside_iff (word : Bytes) (hword : word ∈ order) (m : Nat) :
    (∀ calls, (checked_reads.openAt ((written s.postings order).take m)
        (offsetOf s order word)).bind (checked_reads.run calls) ≠ none) ↔
      (offsetOf s order word + 14 ≤ m →
        PostsAllow (s.postings word).posts (m - (offsetOf s order word + 14))) := by
  obtain ⟨i, hi, rfl⟩ := List.getElem_of_mem hword
  have hvalid := order_valid s order hperm _ hword
  rw [written_split s.postings order i hi, offsetOf_getElem s order hperm i hi]
  generalize hbefore : written s.postings (order.take i) = before
  by_cases hshort : m < before.length + 14
  · rw [openAt_short (by rw [List.length_take]; omega)]
    refine iff_of_true (fun calls => safe_noPosts.run calls) fun hle => ?_
    omega
  · obtain ⟨t, rfl⟩ : ∃ t, m = before.length + 14 + t := ⟨m - (before.length + 14), by omega⟩
    rw [list_stays_inside_iff before _ hvalid t, Nat.add_sub_cancel_left]
    exact ⟨fun h _ => h, fun h => h (Nat.le_add_right _ _)⟩

/-- The lists of all words, in the first `m` bytes of the region. -/
theorem lists_stay_inside_iff {index : LoadedIndex} {nPosts : Bytes → Nat} {m : Nat}
    (hregion : index.postingListRegion = (written s.postings order).take m)
    (hentries : index.dictEntries = order.map (entryOf (offsetOf s order) nPosts)) :
    (∀ word calls, (checked_reads.open' word index).bind (checked_reads.run calls) ≠ none) ↔
      ∀ word, Found order word → offsetOf s order word + 14 ≤ m →
        PostsAllow (s.postings word).posts (m - (offsetOf s order word + 14)) := by
  have hshort : ∀ w ∈ order, w.length < 2 ^ 32 :=
    fun w hw => (order_indexable s order hperm w hw).short
  simp only [checked_reads.open', hregion, hentries]
  constructor
  · intro hall word hfound
    rcases lookup_entries (offsetOf s order) nPosts order word hshort with
      ⟨hnot, -⟩ | ⟨-, hmem, hlookup⟩
    · exact absurd hfound hnot
    · have hword := hall word
      simp only [hlookup] at hword
      exact (word_stays_inside_iff s order hperm word hmem m).mp hword
  · intro hcut word calls
    rcases lookup_entries (offsetOf s order) nPosts order word hshort with
      ⟨-, hlookup⟩ | ⟨hfound, hmem, hlookup⟩
    · simp only [hlookup]
      exact safe_noPosts.run calls
    · simp only [hlookup]
      exact (word_stays_inside_iff s order hperm word hmem m).mpr (hcut word hfound) calls

/-- A prefix of the file is read inside its bounds exactly if it ends where it can. -/
theorem stays_inside_iff (n : Nat) :
    StaysInside ((writeChunk s.urls s.postings order).take n) ↔ CutAllowed s order n := by
  have hfits := order_fits s order hperm
  have hentries := entriesOf_fits s order hperm
  have hsize := length_writeDict (entriesOf s order)
  have hwords := words_entriesOf s order hperm
  rw [hwords] at hsize
  rw [writeChunk_eq s order hperm]
  by_cases hn : n < 8
  · by_cases hzero : n = 0
    · subst hzero
      refine iff_of_true (@staysInside_empty _ ⟨[], [], [], 0⟩ rfl rfl) ⟨Or.inl rfl, ?_, ?_⟩
      · rw [Nat.zero_sub]
        exact endsInOffset_zero order
      · intro word _ hle
        unfold postsStart at hle
        omega
    · refine iff_of_false (not_staysInside (load_short hzero hn)) fun hcut => ?_
      have hheader := hcut.size
      omega
  · rcases load_take s.urls _ (writeDict (entriesOf s order) ++ newline :: written s.postings order)
      s.urlsClean (by omega) (writeToc_length _) (Nat.not_lt.mp hn) with
      ⟨hlt, hload, -⟩ | ⟨hload, -⟩
    · have hzero : n - dictStart s.urls = 0 := Nat.sub_eq_zero_of_le (Nat.le_of_lt hlt)
      refine iff_of_true (staysInside_empty hload rfl) (.of_lt s order (Nat.not_lt.mp hn) ?_ ?_)
      · rw [hzero]
        exact endsInOffset_zero order
      · unfold regionStart
        omega
    · have hout := dictOutcome _ (entriesOf s order) (written s.postings order)
        (n - dictStart s.urls) (Nat.le_refl _) (fun e he => (hentries e he).1)
        fun e he => (hentries e he).2
      generalize checked_reads.readDict _ _ = out at hout hload
      cases hout with
      | outside h =>
        rw [hwords] at h
        exact iff_of_false (not_staysInside hload) fun hcut => hcut.offsets h
      | cut found left hends hle hleft =>
        rw [hwords] at hends
        have hempty : (finish s.urls (found, left)).postingListRegion = [] := by
          cases left with
          | none => rfl
          | some region => exact hleft
        refine iff_of_true (staysInside_empty hload hempty)
          (.of_lt s order (Nat.not_lt.mp hn) hends ?_)
        unfold regionStart
        omega
      | whole hends hlt =>
        rw [hwords] at hends
        obtain ⟨nPosts, hloaded⟩ := loaded_entries s order hperm
          ((written s.postings order).take
            (n - dictStart s.urls - (writeDict (entriesOf s order)).length - 1))
        have hcount : n - dictStart s.urls - (writeDict (entriesOf s order)).length - 1 =
            n - regionStart s order := by
          unfold regionStart
          omega
        rw [hcount] at hload hloaded
        rw [staysInside_iff hload, lists_stay_inside_iff s order hperm rfl hloaded]
        constructor
        · intro hall
          refine ⟨Or.inr (Nat.not_lt.mp hn), hends, fun word hfound hle => ?_⟩
          unfold postsStart at hle ⊢
          rw [← Nat.sub_sub]
          exact hall word hfound (by omega)
        · intro hcut word hfound hle
          rw [Nat.sub_sub]
          refine hcut.posts word hfound ?_
          unfold postsStart
          omega

/-- Of a prefix, the constructor reads what it does without bounds. -/
theorem load_prefix_eq {n : Nat} {index : LoadedIndex}
    (h : checked_reads.load ((writeChunk s.urls s.postings order).take n) = some index) :
    loaded_index.load ((writeChunk s.urls s.postings order).take n) = index := by
  have hfits := order_fits s order hperm
  rw [writeChunk_eq s order hperm] at h ⊢
  by_cases hn : n < 8
  · by_cases hzero : n = 0
    · subst hzero
      exact Option.some_inj.mp h
    · rw [load_short hzero hn] at h
      cases h
  · rcases load_take s.urls _ (writeDict (entriesOf s order) ++ newline :: written s.postings order)
      s.urlsClean (by omega) (writeToc_length _) (Nat.not_lt.mp hn) with
      ⟨-, hload, hplain⟩ | ⟨hload, hplain⟩
    · rw [hload] at h
      rw [hplain]
      exact Option.some_inj.mp h
    · rw [hload] at h
      obtain ⟨out, hdict, rfl⟩ := Option.map_eq_some_iff.mp h
      rw [hplain, readDict_eq hdict]

end Chunk

/-- A prefix of the file that `persist` writes is never read past its end exactly if it ends at a
place where it can. -/
theorem prefix_stays_inside_iff_cut_allowed (s : ChunkState) :
    ∃ fuel order file, sortEntries fuel s.index.keys = some order ∧ persist fuel s = some file ∧
      ∀ n, StaysInside (file.take n) ↔ CutAllowed s order n := by
  have hind : ∀ word ∈ s.index.keys, Indexable word :=
    fun word hw => s.wordsIndexable word (AList.mem_keys.2 hw)
  obtain ⟨fuel, order, run, hperm, -⟩ := sortEntries_spec s.index.keys s.index.keys_nodup
    fun word hw => (hind word hw).noNul
  rw [List.filter_eq_self.2 fun word hw => (hind word hw).slot] at hperm
  refine ⟨fuel, order, writeChunk s.urls s.postings order, run, ?_, stays_inside_iff s order hperm⟩
  rw [persist, run, Option.map_some]

/-- The page `u`, with the word `a` in front. -/
def onePost : ChunkState where
  urls := [[117]]
  index := AList.singleton [97] ⟨[⟨1, 1⟩], 1⟩
  urlsClean := by decide
  wordsIndexable word hword := by
    have hkeys : word = [97] := List.mem_singleton.mp (AList.mem_keys.mp hword)
    rw [hkeys]
    exact ⟨by decide, by decide +kernel, by decide⟩
  postingsValid word hword e he := by
    have hkeys : word = [97] := List.mem_singleton.mp (AList.mem_keys.mp hword)
    rw [hkeys] at he
    have hposts : (⟨[⟨1, 1⟩], 1⟩ : Postings) = e := Option.some_inj.mp he
    rw [← hposts]
    exact ⟨by decide, by decide, by decide, by decide⟩
  docsCounted word hword e he := by
    have hkeys : word = [97] := List.mem_singleton.mp (AList.mem_keys.mp hword)
    rw [hkeys] at he
    have hposts : (⟨[⟨1, 1⟩], 1⟩ : Postings) = e := Option.some_inj.mp he
    rw [← hposts]
    decide
  urlsFit := by decide
  wordsFit := by decide
  fits := by decide

/-- The file ends behind the flag of the only post. -/
theorem a_file_that_ends_in_a_post_is_read_past_its_end :
    ∃ file, persist 10 onePost = some file ∧ ¬StaysInside (file.take 441) := by
  have hsort : sortEntries 10 onePost.index.keys = some [[97]] := by decide +kernel
  have hrun : session ((writeChunk onePost.urls onePost.postings [[97]]).take 441) [97]
      [.advance] = none := by decide +kernel
  refine ⟨writeChunk onePost.urls onePost.postings [[97]], ?_, fun hall => hall _ _ hrun⟩
  rw [persist, hsort, Option.map_some]

end seamus.truncated_chunk
