-- The leaves of a query tree under both of their uses: `next_doc` and `probe` move one cursor
-- that only goes forward. Neither passes a match in a doc that may still be asked for.
import Mathlib.Order.Bounds.Basic
import Seamus.QueryIsr
import Seamus.QueryGrammar

open cursor seamus.index seamus.isr seamus.loaded_index seamus.post_streams seamus.phrase_query
  seamus.expressions seamus.query_grammar seamus.query_isr

namespace seamus.query_leaves

/-! ## When a leaf is satisfied -/

def leafWords (t : TermData) : List Bytes := if t.isPhrase then phraseWords t.val else [t.val]

/-- A term is in the list of its word, a phrase has its words one after the other. -/
def Occurs (c : Chunk) (doc : Nat) : Assignment := fun isPhrase val =>
  if isPhrase then phraseWords val ≠ [] ∧ ∃ loc, PhraseAt c (phraseWords val) ⟨doc, loc⟩
  else ∃ p ∈ c.postings val, p.doc = doc

def Satisfies (c : Chunk) (ast : ASTNode) (doc : Nat) : Prop := ast.Holds (leafHolds (Occurs c doc))

section Matches

variable {c : Chunk} {word : Bytes} {others : List Bytes}

theorem hasHit_iff (doc : Nat) (posts : List Post) :
    hasHit c others posts doc = true ↔ ∃ p ∈ posts, p.doc = doc ∧ hit c others p = true := by
  simp [hasHit]

theorem hasHit_postings (doc : Nat) :
    hasHit c others (c.postings word) doc = true ↔
      ∃ loc, PhraseAt c (word :: others) ⟨doc, loc⟩ := by
  rw [hasHit_iff]
  constructor
  · rintro ⟨p, hp, rfl, hhit⟩
    exact ⟨p.loc, (phraseAt_iff c word others p).mpr (List.mem_filter.mpr ⟨hp, hhit⟩)⟩
  · rintro ⟨loc, h⟩
    obtain ⟨hp, hhit⟩ := List.mem_filter.mp ((phraseAt_iff c word others _).mp h)
    exact ⟨_, hp, rfl, hhit⟩

theorem occurs_iff {t : TermData} (hwords : leafWords t = word :: others) (doc : Nat) :
    Occurs c doc t.isPhrase t.val ↔ hasHit c others (c.postings word) doc = true := by
  unfold leafWords at hwords
  unfold Occurs
  cases hphrase : t.isPhrase with
  | true =>
    rw [hphrase, if_pos rfl] at hwords
    rw [if_pos rfl, hwords, hasHit_postings]
    exact and_iff_right (List.cons_ne_nil word others)
  | false =>
    rw [hphrase, if_neg Bool.false_ne_true] at hwords
    obtain ⟨rfl, rfl⟩ := List.cons_eq_cons.mp hwords
    rw [if_neg Bool.false_ne_true, hasHit_iff]
    exact exists_congr fun p => and_congr_right fun _ => (and_iff_left rfl).symm

theorem not_occurs {t : TermData} (hwords : leafWords t = []) (doc : Nat) :
    ¬Occurs c doc t.isPhrase t.val := by
  unfold leafWords at hwords
  unfold Occurs
  cases hphrase : t.isPhrase with
  | true =>
    rw [hphrase, if_pos rfl] at hwords
    rw [if_pos rfl]
    exact fun h => h.1 hwords
  | false =>
    rw [hphrase, if_neg Bool.false_ne_true] at hwords
    cases hwords

/-- Posts before a doc play no part in what the doc has. -/
theorem hasHit_from {t doc : Nat} (hle : t ≤ doc) {l l' : List Post}
    (h : l.filter (fromDoc t) = l'.filter (fromDoc t)) :
    hasHit c others l doc = hasHit c others l' doc := by
  rw [← hasHit_filter l, ← filter_fromDoc_mono hle, h, filter_fromDoc_mono hle, hasHit_filter]

theorem hasHit_none {t doc : Nat} (hle : t ≤ doc) {l : List Post}
    (h : l.filter (fromDoc t) = []) : hasHit c others l doc = false := by
  have hsame : l.filter (fromDoc t) = ([] : List Post).filter (fromDoc t) := h
  rw [hasHit_from hle hsame]
  rfl

theorem hasHit_of_suffix {l l' : List Post} {doc : Nat} (hsuffix : l <:+ l')
    (h : hasHit c others l doc = true) : hasHit c others l' doc = true := by
  obtain ⟨p, hp, hhit⟩ := (hasHit_iff doc l).mp h
  exact (hasHit_iff doc l').mpr ⟨p, hsuffix.subset hp, hhit⟩

/-- Only a post of the word is in a doc, not the place where its stream starts. -/
theorem hasHit_whole {doc : Nat} (hdoc : 1 ≤ doc) (h : hasHit c others (c.whole word) doc = true) :
    hasHit c others (c.postings word) doc = true := by
  rwa [← hasHit_from (l := c.whole word) hdoc]
  rw [whole_filter c word rfl]

end Matches

/-! ## The streams of a leaf -/

/-- The streams of a leaf. From a doc on no match was passed. -/
structure Stand (c : Chunk) (word : Bytes) (others : List Bytes) (lowest : Nat)
    (cur : Cursor Post) (first : IndexStreamReader) (rest : List IndexStreamReader) : Prop where
  tracks : Tracks first cur
  settled : first.hasPending = false
  suffix : cur.left <:+ c.whole word
  waiting : Waiting c cur.current.doc (cur.current.loc + 1) others rest
  keeps : ∀ doc, lowest ≤ doc → hasHit c others (c.postings word) doc = true →
    hasHit c others cur.left doc = true

section Stand

variable {c : Chunk} {word : Bytes} {others : List Bytes} {cur : Cursor Post}
  {first : IndexStreamReader} {rest : List IndexStreamReader}

theorem Stand.mono {lowest lowest' : Nat} (h : Stand c word others lowest cur first rest)
    (hle : lowest ≤ lowest') : Stand c word others lowest' cur first rest :=
  ⟨h.tracks, h.settled, h.suffix, h.waiting, fun doc hdoc => h.keeps doc (hle.trans hdoc)⟩

theorem Stand.ordered {lowest : Nat} (h : Stand c word others lowest cur first rest) :
    cur.left.Pairwise Post.Before :=
  (whole_ordered c word).sublist h.suffix.sublist

theorem stand_open (c : Chunk) (word : Bytes) (others : List Bytes) :
    Stand c word others 1 ⟨noPost, c.postings word⟩ (open' word c.index)
      (others.map fun word => open' word c.index) := by
  refine ⟨tracks_open c word, (loc_open word c.index).2, List.suffix_refl _,
    waiting_open c _ _ others, fun doc _ h => ?_⟩
  exact hasHit_of_suffix (List.suffix_cons noPost _) h

/-- An anchor behind which no match from a doc on was passed. -/
theorem stand_of_anchored {lowest : Nat} (h : Anchored c word others cur first rest)
    (hkeeps : ∀ doc, lowest ≤ doc → hasHit c others (c.postings word) doc = true →
      hasHit c others cur.left doc = true) : Stand c word others lowest cur first rest :=
  ⟨h.tracks, h.settled, h.suffix, h.waiting, hkeeps⟩

/-- Streams that wait behind a post wait behind all later ones. -/
theorem waiting_later {cur' : Cursor Post} (hordered : cur.left.Pairwise Post.Before)
    (hsuffix : cur'.left <:+ cur.left)
    (h : Waiting c cur.current.doc (cur.current.loc + 1) others rest) :
    Waiting c cur'.current.doc (cur'.current.loc + 1) others rest := by
  rcases List.mem_cons.mp (hsuffix.subset List.mem_cons_self) with heq | hahead
  · rwa [heq]
  · have hbefore := (List.pairwise_cons.mp hordered).1 _ hahead
    refine h.mono ?_
    unfold Post.Before at hbefore
    omega

/-- `advance_to` passes the posts before the doc. -/
theorem Stand.advanceTo {lowest t : Nat} (ht : 1 ≤ t)
    (h : Stand c word others lowest cur first rest) :
    ((isr.advanceTo t first).1 = noPost ∧ cur.left.filter (fromDoc t) = [] ∧
        ∃ cur', Stand c word others (max lowest t) cur' (isr.advanceTo t first).2 rest) ∨
      ∃ cur', (isr.advanceTo t first).1 = cur'.current ∧
        Anchored c word others cur' (isr.advanceTo t first).2 rest ∧
        cur'.left = cur.left.filter (fromDoc t) := by
  obtain ⟨hpost, hnext, hpending⟩ := advanceTo_tracks t h.tracks
  have hsuffix := seekFrom_suffix (fromDoc t) cur.current cur.ahead
  have hfollows : Follows cur.left (fromDoc t) cur := ⟨List.suffix_refl _, rfl⟩
  have hwaiting := waiting_later h.ordered hsuffix h.waiting
  have hseek := hfollows.seek (p := fromDoc t) fun _ hx => hx
  cases hfound : fromDoc t (cur.seek (fromDoc t)).current with
  | false =>
    refine Or.inl ⟨hpost.trans (found_of_neg hfound), hfollows.none hfound, _, hnext, hpending,
      hsuffix.trans h.suffix, hwaiting, fun doc hdoc hhit => ?_⟩
    have hkept := h.keeps doc ((Nat.le_max_left _ _).trans hdoc) hhit
    rwa [hasHit_from ((Nat.le_max_right _ _).trans hdoc) hseek.keeps]
  | true =>
    have hleft := hseek.found h.ordered (fromDoc_up t) hfound
    have hdoc := fromDoc_iff.mp hfound
    refine Or.inr ⟨_, hpost.trans (found_of_pos hfound),
      ⟨hnext, hpending, hsuffix.trans h.suffix, ?_, hwaiting⟩, hleft⟩
    rcases List.mem_cons.mp ((hsuffix.trans h.suffix).subset List.mem_cons_self) with
      hnone | hmem
    · exact absurd (ht.trans hdoc) (by rw [Cursor.seek, hnone]; decide)
    · exact hmem

/-- What a loop over the anchors leaves when it passes only posts that are no match. -/
def Passes (c : Chunk) (word : Bytes) (others : List Bytes) (left : List Post)
    (streams : List IndexStreamReader) (cur : Cursor Post) : Prop :=
  ∃ first rest, streams = first :: rest ∧ Anchored c word others cur first rest ∧
    cur.left <:+ left ∧ ∀ doc, hasHit c others left doc = true → hasHit c others cur.left doc = true

theorem anchored_passes (h : Anchored c word others cur first rest) :
    Passes c word others cur.left (first :: rest) cur :=
  ⟨first, rest, rfl, h, List.suffix_refl _, fun _ hhas => hhas⟩

theorem Passes.miss {p : Post} {ps : List Post} {streams : List IndexStreamReader}
    (hmiss : hit c others p = false) (h : Passes c word others ps streams cur) :
    Passes c word others (p :: ps) streams cur := by
  obtain ⟨first, rest, hstreams, hanchor, hsuffix, hkeeps⟩ := h
  refine ⟨first, rest, hstreams, hanchor, hsuffix.trans (List.suffix_cons p ps), fun doc hhas => ?_⟩
  refine hkeeps doc ?_
  simpa [hasHit, hmiss] using hhas

/-- At its end the first stream stays at its last post. -/
theorem anchored_last {p : Post} (h : Anchored c word others ⟨p, []⟩ first rest) :
    Anchored c word others ⟨p, []⟩ (isr.advance first).2 rest := by
  rw [advance_eq h.settled]
  exact ⟨h.tracks.end.2, (hasPending_advanceBase first).trans h.settled, h.suffix, h.mem, h.waiting⟩

/-- The loop of `probe` finds out whether the doc has a match. -/
theorem probeLoop_passes {doc : Nat} (turns : Nat) (h : Anchored c word others cur first rest)
    (hle : doc ≤ cur.current.doc) (hturns : cur.ahead.length < turns) :
    ∃ streams cur', probeLoop doc turns cur.current first rest =
        some (hasHit c others cur.left doc, streams) ∧
      Passes c word others cur.left streams cur' := by
  induction turns generalizing cur first rest with
  | zero => omega
  | succ turns ih =>
    obtain ⟨p, ps⟩ := cur
    unfold Cursor.left
    simp only at hle ⊢
    rw [probeLoop]
    by_cases hdoc : p.doc = doc
    · obtain ⟨hok, hchecked⟩ := h.check
      simp only at hok
      cases hhit : hit c others p with
      | true =>
        simp only [hdoc, if_true, hok, hhit]
        refine ⟨_, _, ?_, anchored_passes hchecked⟩
        simp [hasHit, hdoc, hhit]
      | false =>
        have hhas : hasHit c others (p :: ps) doc = hasHit c others ps doc := by
          simp [hasHit, hhit]
        simp only [hdoc, if_true, hok, hhit, Bool.false_eq_true, if_false, hhas]
        rcases hchecked.advance with ⟨hpost, hnil⟩ | ⟨q, qs, hps, hpost, hnext⟩
        · simp only at hnil
          subst hnil
          simp only [hpost, noPost, if_true]
          exact ⟨_, _, rfl, anchored_passes (anchored_last hchecked)⟩
        · simp only at hps
          subst hps
          have hbefore := (List.pairwise_cons.mp h.ordered).1 q List.mem_cons_self
          have hqle : doc ≤ q.doc := hdoc ▸ before_doc_le hbefore
          obtain ⟨streams, cur', hrun, hpasses⟩ := ih hnext hqle (by simpa using hturns)
          rw [hpost, if_neg (Nat.ne_of_gt hnext.doc_pos), hrun]
          exact ⟨streams, cur', rfl, hpasses.miss hhit⟩
    · have hlt : doc < p.doc := by omega
      rw [if_neg hdoc, hasHit_past h.ordered hlt]
      exact ⟨_, _, rfl, anchored_passes h⟩

/-- The loop of `next_doc` stops at the first match. -/
theorem nextDocLoop_passes (turns : Nat) (h : Anchored c word others cur first rest)
    (hturns : cur.ahead.length + 1 < turns) :
    ∃ doc streams cur', nextDocLoop turns cur.current first rest = some (doc, streams) ∧
      Passes c word others cur.left streams cur' ∧
      (doc = 0 ∧ (∀ q ∈ cur.left, hit c others q = false) ∨
        doc = cur'.current.doc ∧ hit c others cur'.current = true) := by
  induction turns generalizing cur first rest with
  | zero => omega
  | succ turns ih =>
    obtain ⟨p, ps⟩ := cur
    unfold Cursor.left
    simp only at hturns ⊢
    obtain ⟨hok, hchecked⟩ := h.check
    have hpos : p.doc ≠ 0 := Nat.ne_of_gt h.doc_pos
    simp only at hok
    rw [nextDocLoop, if_neg hpos]
    by_cases hone : rest.length = 0
    · -- without other words every post is a match
      have hothers : others = [] := List.length_eq_zero_iff.mp (h.waiting.length.symm.trans hone)
      rw [if_pos hone]
      exact ⟨_, _, _, rfl, anchored_passes h, Or.inr ⟨rfl, by rw [hothers]; rfl⟩⟩
    · rw [if_neg hone]
      cases hhit : hit c others p with
      | true =>
        simp only [hok, hhit, if_true]
        exact ⟨_, _, _, rfl, anchored_passes hchecked, Or.inr ⟨rfl, hhit⟩⟩
      | false =>
        simp only [hok, hhit, Bool.false_eq_true, if_false]
        rcases hchecked.advance with ⟨hpost, hnil⟩ | ⟨q, qs, hps, hpost, hnext⟩
        · simp only at hnil
          subst hnil
          obtain ⟨turns, rfl⟩ : ∃ n, turns = n + 1 := ⟨turns - 1, by omega⟩
          rw [hpost, nextDocLoop, if_pos (show noPost.doc = 0 from rfl)]
          exact ⟨0, _, _, rfl, anchored_passes (anchored_last hchecked),
            Or.inl ⟨rfl, by simpa using hhit⟩⟩
        · simp only at hps
          subst hps
          obtain ⟨doc, streams, cur', hrun, hpasses, hdoc⟩ := ih hnext (by simpa using hturns)
          rw [hpost, hrun]
          refine ⟨doc, streams, cur', rfl, hpasses.miss hhit, hdoc.imp_left ?_⟩
          exact fun hnone => ⟨hnone.1, List.forall_mem_cons.mpr ⟨hhit, hnone.2⟩⟩

theorem Stand.nextDoc_eq {lowest : Nat} (h : Stand c word others lowest cur first rest) :
    advanceToNextDoc first = isr.advanceTo (cur.current.doc + 1) first := by
  have hdoc : first.docOffset = cur.current.doc := congrArg Post.doc h.tracks.current
  have hbound := doc_le_of_left h.suffix
  simp only [DOCS_PER_INDEX_CHUNK] at hbound
  rw [advanceToNextDoc, hdoc, u32_of_lt (by omega)]

/-- `next_doc` gives the next doc with a match, if there is one. -/
theorem Stand.nextDoc {lowest : Nat} (isNegated : Bool)
    (h : Stand c word others lowest cur first rest) :
    ∃ doc cur' first' rest', PhraseISR.nextDoc ⟨isNegated, first :: rest⟩ =
        some (doc, ⟨isNegated, first' :: rest'⟩) ∧
      Stand c word others (max lowest (cur.current.doc + 1)) cur' first' rest' ∧
      (doc = 0 ∧ (∀ d, cur.current.doc < d → hasHit c others cur.left d = false) ∨
        doc = cur'.current.doc ∧ doc ≤ DOCS_PER_INDEX_CHUNK ∧
          IsLeast {d | cur.current.doc < d ∧ hasHit c others cur.left d = true} doc) := by
  rw [PhraseISR.nextDoc]
  simp only [h.nextDoc_eq]
  rcases h.advanceTo (Nat.le_add_left 1 cur.current.doc) with
    ⟨hpost, hnil, cur', hstand⟩ | ⟨cur1, hpost, hanchor, hleft⟩
  · simp only [hpost]
    refine ⟨0, cur', _, _, rfl, hstand, Or.inl ⟨rfl, fun d hd => ?_⟩⟩
    exact hasHit_none hd hnil
  · have hlater (d : Nat) (hd : cur.current.doc < d) :
        hasHit c others cur.left d = hasHit c others cur1.left d := by
      refine hasHit_from hd ?_
      rw [hleft, List.filter_filter]
      simp only [Bool.and_self]
    obtain ⟨doc, streams, cur', hrun, ⟨first', rest', rfl, hanchor', hsuffix, hkeeps⟩, hdoc⟩ :=
      nextDocLoop_passes ((isr.advanceTo (cur.current.doc + 1) first).2.currLoc.length + 2)
        hanchor (Nat.succ_lt_succ (Nat.lt_succ_of_le hanchor.tracks.length))
    simp only [hpost, hrun]
    refine ⟨doc, cur', first', rest', rfl, stand_of_anchored hanchor' fun d hd hhit => ?_, ?_⟩
    · refine hkeeps d ?_
      rw [← hlater d ((Nat.le_max_right _ _).trans hd)]
      exact h.keeps d ((Nat.le_max_left _ _).trans hd) hhit
    · rcases hdoc with ⟨hzero, hmiss⟩ | ⟨hdoc, hhit⟩
      · refine Or.inl ⟨hzero, fun d hd => ?_⟩
        rw [hlater d hd, hasHit, List.any_eq_false]
        intro q hq
        simp [hmiss q hq]
      · have hmem : cur'.current ∈ cur.left.filter (fromDoc (cur.current.doc + 1)) :=
          hleft ▸ hsuffix.subset List.mem_cons_self
        obtain ⟨hmem, hfrom⟩ := List.mem_filter.mp hmem
        refine Or.inr ⟨hdoc, hdoc ▸ doc_le_of_left hanchor'.suffix, ⟨?_, ?_⟩, fun d hd => ?_⟩
        · exact hdoc ▸ fromDoc_iff.mp hfrom
        · exact (hasHit_iff doc _).mpr ⟨_, hmem, hdoc.symm, hhit⟩
        · have hkept := hkeeps d (hlater d hd.1 ▸ hd.2)
          by_contra hlt
          rw [hdoc] at hlt
          have hpast : hasHit c others cur'.left d = false :=
            hasHit_past hanchor'.ordered (Nat.lt_of_not_le hlt)
          exact Bool.false_ne_true (hpast.symm.trans hkept)

/-- `probe` tells whether the doc has a match that was not passed. -/
theorem Stand.probe {lowest doc : Nat} (isNegated : Bool) (hdoc : 1 ≤ doc)
    (h : Stand c word others lowest cur first rest) :
    ∃ cur' first' rest', PhraseISR.probe doc ⟨isNegated, first :: rest⟩ =
        some (hasHit c others cur.left doc != isNegated, ⟨isNegated, first' :: rest'⟩) ∧
      Stand c word others (max lowest doc) cur' first' rest' := by
  rw [PhraseISR.probe]
  rcases h.advanceTo hdoc with ⟨hpost, hnil, cur', hstand⟩ | ⟨cur1, hpost, hanchor, hleft⟩
  · have hne : noPost.doc ≠ doc := Nat.ne_of_lt hdoc
    rw [hasHit_none (Nat.le_refl doc) hnil]
    simp only [hpost]
    rw [if_pos hne]
    refine ⟨cur', _, _, ?_, hstand⟩
    simp
  · have hsame (d : Nat) (hd : doc ≤ d) :
        hasHit c others cur.left d = hasHit c others cur1.left d := by
      refine hasHit_from hd ?_
      rw [hleft, List.filter_filter]
      simp only [Bool.and_self]
    have hpdoc : doc ≤ cur1.current.doc := by
      have hmem : cur1.current ∈ cur.left.filter (fromDoc doc) := hleft ▸ List.mem_cons_self
      exact fromDoc_iff.mp (List.mem_filter.mp hmem).2
    have hkeep (d : Nat) (hd : max lowest doc ≤ d)
        (hhit : hasHit c others (c.postings word) d = true) :
        hasHit c others cur1.left d = true := by
      rw [← hsame d ((Nat.le_max_right _ _).trans hd)]
      exact h.keeps d ((Nat.le_max_left _ _).trans hd) hhit
    simp only [hpost, hsame doc (Nat.le_refl doc)]
    by_cases hin : cur1.current.doc = doc
    · rw [if_neg (not_not.mpr hin)]
      by_cases hone : rest.length = 0
      · have hothers : others = [] :=
          List.length_eq_zero_iff.mp (hanchor.waiting.length.symm.trans hone)
        have hhit : hasHit c others cur1.left doc = true :=
          (hasHit_iff doc _).mpr ⟨_, List.mem_cons_self, hin, by rw [hothers]; rfl⟩
        rw [if_pos hone, hhit]
        refine ⟨cur1, _, _, ?_, stand_of_anchored hanchor hkeep⟩
        simp
      · obtain ⟨streams, cur', hrun, first', rest', rfl, hanchor', _, hkeeps⟩ :=
          probeLoop_passes ((isr.advanceTo doc first).2.currLoc.length + 1) hanchor hpdoc
            (Nat.lt_succ_of_le hanchor.tracks.length)
        rw [if_neg hone, hrun]
        refine ⟨cur', first', rest', ?_,
          stand_of_anchored hanchor' fun d hd hhit => hkeeps d (hkeep d hd hhit)⟩
        rw [Option.map_some]
        cases isNegated <;> cases hasHit c others cur1.left doc <;> rfl
    · have hpast : hasHit c others cur1.left doc = false :=
        hasHit_past hanchor.ordered (Nat.lt_of_le_of_ne hpdoc (Ne.symm hin))
      rw [if_pos hin, hpast]
      refine ⟨cur1, _, _, ?_, stand_of_anchored hanchor hkeep⟩
      simp

end Stand

end seamus.query_leaves
