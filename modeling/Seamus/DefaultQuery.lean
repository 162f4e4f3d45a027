-- `chunk_manager::default_query`: the leapfrog over the streams of the words of a query, and
-- the positions of every word in every doc where they meet.
import Seamus.PostStreams
import Mathlib.Data.List.DropRight

open seamus.index seamus.isr seamus.loaded_index seamus.post_streams

namespace seamus.default_query

/-! ## The source functions -/

structure NodeInfo where
  phrase : Bytes
  pos : List Nat
  freq : Nat
  isPhrase : Bool
  deriving DecidableEq, Repr

structure DocInfo where
  url : Bytes
  nodeInfo : List NodeInfo
  deriving DecidableEq, Repr

/-- `<invalid-doc>` -/
def INVALID_DOC : Bytes := [60, 105, 110, 118, 97, 108, 105, 100, 45, 100, 111, 99, 62]

def getUrl (index : LoadedIndex) (doc : Nat) : Bytes :=
  if doc = 0 then INVALID_DOC
  else
    match index.urls[doc - 1]? with
    | none => INVALID_DOC
    | some url => url

/-- A stream with the word that it was opened for. -/
structure Stream where
  word : Bytes
  reader : IndexStreamReader

def openStream (index : LoadedIndex) (word : Bytes) : Stream := ⟨word, open' word index⟩

/-- One turn of the sort: the streams with more docs move up from the end. -/
def insertByDocs (order : List Stream) (k : Stream) : List Stream :=
  (order.rdropWhile fun s => s.reader.nDocs > k.reader.nDocs) ++
    k :: order.rtakeWhile fun s => s.reader.nDocs > k.reader.nDocs

/-- The streams in the order of the leapfrog, the rarest word first. -/
def leapOrder (isrs : List Stream) : List Stream := isrs.foldl insertByDocs []

/-- What the other streams say of the target of the driver. -/
inductive Leap where
  | ended
  | overshoot (target : Nat)
  | allMatch
  deriving DecidableEq, Repr

/-- The loop over the other streams. -/
def leapOthers (target : Nat) : List Stream → Leap × List Stream
  | [] => (.allMatch, [])
  | s :: others =>
    let (q, reader) := advanceTo target s.reader
    let s := { s with reader := reader }
    if q.doc = 0 then (.ended, s :: others)
    else if q.doc > target then (.overshoot q.doc, s :: others)
    else
      let (leap, others) := leapOthers target others
      (leap, s :: others)

/-- The positions of every word in the doc where all streams stand. -/
def collectAll : List Stream → List NodeInfo × List Stream
  | [] => ([], [])
  | s :: streams =>
    let (positions, reader) := collectPositionsInCurrentDoc s.reader
    let (nodes, streams) := collectAll streams
    (⟨s.word, positions, 0, false⟩ :: nodes, { s with reader := reader } :: streams)

/-- The readings of the clock since the query started, in milliseconds. -/
abbrev Clock := Nat → Nat

/-- Whether a check of the timer ends the query. -/
def fires (deadlineMs : Nat) (clock : Clock) (check : Nat) : Bool := u32 (clock check) ≥ deadlineMs

section Query

variable (index : LoadedIndex) (deadlineMs : Nat) (clock : Clock)

/-- The loop of the query: the number of the check, the docs so far, the target, and the streams
with the driver first. -/
def defaultQueryLoop : Nat → Nat → List DocInfo → Nat → Stream → List Stream →
    Option (List DocInfo)
  | 0, _, _, _, _, _ => none
  | turns + 1, check, docs, target, driver, others =>
    if fires deadlineMs clock check then some docs
    else
      match leapOthers target others with
      | (.ended, _) => some docs
      | (.overshoot target, others) =>
        let (q, reader) := advanceTo target driver.reader
        if q.doc = 0 then some docs
        else
          defaultQueryLoop turns (check + 1) docs (if q.doc > target then q.doc else target)
            { driver with reader := reader } others
      | (.allMatch, others) =>
        let (positions, reader) := collectPositionsInCurrentDoc driver.reader
        let (nodes, others) := collectAll others
        let docs := docs ++ [⟨getUrl index target, ⟨driver.word, positions, 0, false⟩ :: nodes⟩]
        let (p, reader) := advanceTo (u32 (target + 1)) reader
        if p.doc = 0 then some docs
        else
          defaultQueryLoop turns (check + 1) docs p.doc { driver with reader := reader } others

/-- What `default_query` appends to the data channel: none as long as its loop has not ended.
Every turn of the loop but the last takes a byte of the driver. -/
def defaultQuery (words : List Bytes) : Option (List DocInfo) :=
  if words.length = 0 then some []
  else
    let isrs := words.map (openStream index)
    if isrs.any fun s => s.reader.nPosts = 0 then some []
    else
      match leapOrder isrs with
      | [] => some []
      | driver :: others =>
        let (p, reader) := advance driver.reader
        if p.doc = 0 then some []
        else
          defaultQueryLoop index deadlineMs clock (driver.reader.currLoc.length + 1) 0 [] p.doc
            { driver with reader := reader } others

end Query

/-! ## What a chunk says -/

def ContainsAll (c : Chunk) (words : List Bytes) (doc : Nat) : Prop :=
  ∀ word ∈ words, ∃ p ∈ c.postings word, p.doc = doc

/-- The doc with all positions of the words. -/
def docInfo (c : Chunk) (words : List Bytes) (doc : Nat) : DocInfo :=
  ⟨getUrl c.index doc, words.map fun word => ⟨word, positions (c.postings word) doc, 0, false⟩⟩

/-- The docs with a property, each once and in increasing order. -/
structure Enumerates (holds : Nat → Prop) (docs : List Nat) : Prop where
  increasing : docs.Pairwise (· < ·)
  exact : ∀ doc, doc ∈ docs ↔ holds doc

section Enumerations

variable {holds holds' : Nat → Prop} {docs : List Nat}

theorem Enumerates.congr (h : Enumerates holds docs) (hiff : ∀ doc, holds doc ↔ holds' doc) :
    Enumerates holds' docs :=
  ⟨h.increasing, fun doc => (h.exact doc).trans (hiff doc)⟩

theorem Enumerates.nil (h : Enumerates holds docs) (hnone : ∀ doc, ¬holds doc) : docs = [] := by
  rw [List.eq_nil_iff_forall_not_mem]
  exact fun doc hmem => hnone doc ((h.exact doc).mp hmem)

/-- The first doc, and the enumeration of those after it. -/
theorem Enumerates.cons {t : Nat} (h : Enumerates (fun doc => t ≤ doc ∧ holds doc) docs)
    (ht : holds t) :
    ∃ rest, docs = t :: rest ∧ Enumerates (fun doc => t + 1 ≤ doc ∧ holds doc) rest := by
  have hmem : t ∈ docs := (h.exact t).mpr ⟨Nat.le_refl t, ht⟩
  cases docs with
  | nil => cases hmem
  | cons x rest =>
    obtain ⟨hhead, htail⟩ := List.pairwise_cons.mp h.increasing
    have hx := (h.exact x).mp List.mem_cons_self
    have hxt : x = t := by
      rcases List.mem_cons.mp hmem with heq | hrest
      · exact heq.symm
      · exact absurd (hhead t hrest) (Nat.not_lt.mpr hx.1)
    subst hxt
    refine ⟨rest, rfl, htail, fun doc => ⟨fun hdoc => ?_, fun hdoc => ?_⟩⟩
    · exact ⟨hhead doc hdoc, ((h.exact doc).mp (List.mem_cons_of_mem _ hdoc)).2⟩
    · have hcons := (h.exact doc).mpr ⟨Nat.le_of_succ_le hdoc.1, hdoc.2⟩
      rcases List.mem_cons.mp hcons with heq | hrest
      · exact absurd hdoc.1 (by omega)
      · exact hrest

/-- Docs up to a bound can be enumerated. -/
theorem exists_enumerates (n : Nat) (hbound : ∀ doc, holds doc → doc ≤ n) :
    ∃ docs, Enumerates holds docs := by
  classical
  refine ⟨(List.range (n + 1)).filter fun doc => holds doc, ?_, fun doc => ?_⟩
  · exact List.pairwise_lt_range.filter _
  · rw [List.mem_filter, List.mem_range, decide_eq_true_eq]
    exact ⟨fun h => h.2, fun h => ⟨Nat.lt_succ_of_le (hbound doc h), h⟩⟩

end Enumerations

/-! ## The order of the streams -/

theorem insertByDocs_perm (order : List Stream) (k : Stream) :
    (insertByDocs order k).Perm (k :: order) := by
  unfold insertByDocs
  refine List.perm_middle.trans (List.Perm.cons _ (List.Perm.of_eq ?_))
  exact List.rdropWhile_append_rtakeWhile

theorem foldl_insertByDocs_perm (isrs order : List Stream) :
    (isrs.foldl insertByDocs order).Perm (isrs ++ order) := by
  induction isrs generalizing order with
  | nil => exact List.Perm.refl _
  | cons s isrs ih =>
    refine (ih _).trans (((insertByDocs_perm order s).append_left isrs).trans ?_)
    exact List.perm_middle

theorem leapOrder_perm (isrs : List Stream) : (leapOrder isrs).Perm isrs := by
  have h := foldl_insertByDocs_perm isrs []
  rwa [List.append_nil] at h

/-! ## One turn -/

variable (c : Chunk)

/-- A stream that has passed no post from the doc on. -/
def Behind (doc : Nat) (s : Stream) : Prop := StreamFrom c s.word (fromDoc doc) s.reader

/-- A stream that stands at its first post in the doc. -/
def Meets (doc : Nat) (s : Stream) : Prop :=
  ∃ p, StandsAt c s.word doc s.reader p ∧ p.doc = doc

variable {c}

theorem Behind.mono {t t' : Nat} {s : Stream} (h : Behind c t s) (hle : t ≤ t') : Behind c t' s :=
  StreamFrom.mono h (fromDoc_mono hle)

/-- What a turn of the loop over the other streams finds out. -/
def LeapSays (c : Chunk) (target : Nat) (words : List Bytes) : Leap → List Stream → Prop
  | .ended, _ => ∃ word ∈ words, ∀ p ∈ c.postings word, p.doc < target
  | .overshoot target', others => target < target' ∧ (∀ s ∈ others, Behind c target s) ∧
      ∃ word ∈ words, ∀ p ∈ c.postings word, target ≤ p.doc → target' ≤ p.doc
  | .allMatch, others => ∀ s ∈ others, Meets c target s

theorem leapOthers_spec {target : Nat} (ht : 1 ≤ target) {others : List Stream}
    (h : ∀ s ∈ others, Behind c target s) :
    (leapOthers target others).2.map Stream.word = others.map Stream.word ∧
      LeapSays c target (others.map Stream.word) (leapOthers target others).1
        (leapOthers target others).2 := by
  induction others with
  | nil => exact ⟨rfl, fun s hs => by cases hs⟩
  | cons s others ih =>
    obtain ⟨hs, hothers⟩ := List.forall_mem_cons.mp h
    obtain ⟨hwords, htells⟩ := ih hothers
    rw [leapOthers]
    rcases StreamFrom.advanceTo ht hs with ⟨hpost, hnone⟩ | ⟨hdoc, hstands⟩
    · simp only [hpost, noPost, if_true]
      exact ⟨rfl, s.word, List.mem_cons_self, hnone⟩
    · obtain ⟨_, hle, hfirst⟩ := hstands.first
      simp only [hdoc, if_false]
      by_cases hover : (advanceTo target s.reader).1.doc > target
      · simp only [hover, if_true]
        refine ⟨rfl, hover, ?_, s.word, List.mem_cons_self, fun p hp hpt => ?_⟩
        · exact List.forall_mem_cons.mpr ⟨hstands.streamFrom ht (Nat.le_refl _), hothers⟩
        · rcases hfirst p hp hpt with rfl | hbefore
          · exact Nat.le_refl _
          · exact before_doc_le hbefore
      · have heq : (advanceTo target s.reader).1.doc = target := by omega
        simp only [hover, if_false]
        refine ⟨by rw [List.map_cons, List.map_cons, hwords], ?_⟩
        cases hleap : (leapOthers target others).1 with
        | ended =>
          rw [hleap] at htells
          obtain ⟨word, hword, hnone⟩ := htells
          exact ⟨word, List.mem_cons_of_mem _ hword, hnone⟩
        | overshoot target' =>
          rw [hleap] at htells
          obtain ⟨hlt, hbehind, word, hword, hskip⟩ := htells
          refine ⟨hlt, ?_, word, List.mem_cons_of_mem _ hword, hskip⟩
          exact List.forall_mem_cons.mpr ⟨hstands.streamFrom ht (Nat.le_refl _), hbehind⟩
        | allMatch =>
          rw [hleap] at htells
          exact List.forall_mem_cons.mpr ⟨⟨_, hstands, heq⟩, htells⟩

theorem collectAll_spec {target : Nat} (ht : 1 ≤ target) {streams : List Stream}
    (h : ∀ s ∈ streams, Meets c target s) :
    (collectAll streams).1 = (streams.map Stream.word).map (fun word =>
        ⟨word, positions (c.postings word) target, 0, false⟩) ∧
      (collectAll streams).2.map Stream.word = streams.map Stream.word ∧
      ∀ s ∈ (collectAll streams).2, Behind c (target + 1) s := by
  induction streams with
  | nil => exact ⟨rfl, rfl, fun s hs => by cases hs⟩
  | cons s streams ih =>
    obtain ⟨⟨p, hstands, hdoc⟩, hstreams⟩ := List.forall_mem_cons.mp h
    obtain ⟨hnodes, hwords, hbehind⟩ := ih hstreams
    obtain ⟨hpositions, hnext⟩ := hstands.collect ht hdoc
    refine ⟨?_, ?_, List.forall_mem_cons.mpr ⟨hnext, hbehind⟩⟩
    · rw [List.map_cons, List.map_cons, ← hnodes, ← hpositions]
      rfl
    · rw [List.map_cons, ← hwords]
      rfl

/-! ## The next target -/

theorem filter_fromDoc_lt {posts : List Post} {p : Post} {t t' : Nat} (hp : p ∈ posts)
    (hdoc : p.doc = t) (hlt : t < t') :
    (posts.filter (fromDoc t')).length < (posts.filter (fromDoc t)).length := by
  have hsub : posts.filter (fromDoc t') = (posts.filter (fromDoc t)).filter (fromDoc t') := by
    rw [List.filter_filter]
    refine List.filter_congr fun q _ => ?_
    rw [Bool.eq_iff_iff, Bool.and_eq_true, fromDoc_iff, fromDoc_iff]
    omega
  rw [hsub, List.length_filter_lt_length_iff_exists]
  refine ⟨p, List.mem_filter.mpr ⟨hp, fromDoc_iff.mpr (Nat.le_of_eq hdoc.symm)⟩, ?_⟩
  rw [Bool.not_eq_true, fromDoc_false]
  omega

/-- The state at the head of the loop, and the docs that are still to be found. -/
structure Ready (c : Chunk) (target : Nat) (driver : Stream) (others : List Stream)
    (ds : List Nat) : Prop where
  pos : 1 ≤ target
  meets : Meets c target driver
  behind : ∀ s ∈ others, Behind c target s
  docs : Enumerates (fun doc => target ≤ doc ∧
    ContainsAll c (driver.word :: others.map Stream.word) doc) ds

/-- From the doc that was asked for and from the post that was found, the docs with the word are
the same. -/
theorem raise_iff {t : Nat} {word : Bytes} {words : List Bytes} {r : IndexStreamReader} {p : Post}
    (h : StandsAt c word t r p) (hword : word ∈ words) (doc : Nat) :
    (t ≤ doc ∧ ContainsAll c words doc) ↔ (p.doc ≤ doc ∧ ContainsAll c words doc) := by
  obtain ⟨_, hle, hfirst⟩ := h.first
  constructor
  · rintro ⟨hdoc, hall⟩
    obtain ⟨q, hq, hqdoc⟩ := hall word hword
    rcases hfirst q hq (by omega) with rfl | hbefore
    · exact ⟨Nat.le_of_eq hqdoc, hall⟩
    · exact ⟨hqdoc ▸ before_doc_le hbefore, hall⟩
  · exact fun hdoc => ⟨hle.trans hdoc.1, hdoc.2⟩

/-- The driver is pulled up to a doc: it stands at the next target, or nothing is left. -/
theorem drive {t : Nat} {word : Bytes} {r : IndexStreamReader} {others : List Stream}
    {ds : List Nat} (ht : 1 ≤ t) (hr : StreamFrom c word (fromDoc t) r)
    (hothers : ∀ s ∈ others, Behind c t s)
    (hds : Enumerates (fun doc => t ≤ doc ∧
      ContainsAll c (word :: others.map Stream.word) doc) ds) :
    ((advanceTo t r).1.doc = 0 ∧ ds = []) ∨
      ((advanceTo t r).1.doc ≠ 0 ∧ t ≤ (advanceTo t r).1.doc ∧
        Ready c (advanceTo t r).1.doc ⟨word, (advanceTo t r).2⟩ others ds) := by
  rcases hr.advanceTo ht with ⟨hpost, hnone⟩ | ⟨hdoc, hstands⟩
  · refine Or.inl ⟨by rw [hpost]; rfl, hds.nil ?_⟩
    rintro doc ⟨hle, hall⟩
    obtain ⟨q, hq, hqdoc⟩ := hall word List.mem_cons_self
    have hlt := hnone q hq
    omega
  · have hle := hstands.first.2.1
    exact Or.inr ⟨hdoc, hle, ht.trans hle, ⟨_, hstands.raise, rfl⟩,
      fun s hs => (hothers s hs).mono hle, hds.congr (raise_iff hstands List.mem_cons_self)⟩

section Turn

variable {target : Nat} {driver : Stream} {others others' : List Stream} {ds : List Nat}

theorem Ready.ended (h : Ready c target driver others ds)
    (htells : LeapSays c target (others.map Stream.word) .ended others') : ds = [] := by
  obtain ⟨word, hword, hnone⟩ := htells
  refine h.docs.nil ?_
  rintro doc ⟨hle, hall⟩
  obtain ⟨q, hq, hqdoc⟩ := hall word (List.mem_cons_of_mem _ hword)
  have hlt := hnone q hq
  omega

/-- Another stream is past the target, and the driver follows it. -/
theorem Ready.overshoot {target' : Nat} (h : Ready c target driver others ds)
    (hwords : others'.map Stream.word = others.map Stream.word)
    (htells : LeapSays c target (others.map Stream.word) (.overshoot target') others') :
    ((advanceTo target' driver.reader).1.doc = 0 ∧ ds = []) ∨
      ((advanceTo target' driver.reader).1.doc ≠ 0 ∧
        target' ≤ (advanceTo target' driver.reader).1.doc ∧
        Ready c (advanceTo target' driver.reader).1.doc
          ⟨driver.word, (advanceTo target' driver.reader).2⟩ others' ds) := by
  obtain ⟨hlt, hbehind, word, hword, hskip⟩ := htells
  obtain ⟨p, hstands, _⟩ := h.meets
  have hle := Nat.le_of_lt hlt
  refine drive (h.pos.trans hle) (hstands.streamFrom h.pos hle)
    (fun s hs => (hbehind s hs).mono hle) ?_
  rw [hwords]
  refine h.docs.congr fun doc => ⟨?_, fun hdoc => ⟨hle.trans hdoc.1, hdoc.2⟩⟩
  rintro ⟨hdoc, hall⟩
  obtain ⟨q, hq, hqdoc⟩ := hall word (List.mem_cons_of_mem _ hword)
  exact ⟨hqdoc ▸ hskip q hq (hqdoc ▸ hdoc), hall⟩

/-- The driver after a doc whose positions were collected. -/
def nextPost (target : Nat) (driver : Stream) : Post × IndexStreamReader :=
  advanceTo (u32 (target + 1)) (collectPositionsInCurrentDoc driver.reader).2

/-- All streams stand in the target: it is one of the docs, and the rest comes after it. -/
theorem Ready.found (h : Ready c target driver others ds)
    (hwords : others'.map Stream.word = others.map Stream.word)
    (htells : LeapSays c target (others.map Stream.word) .allMatch others') :
    ∃ rest, ds = target :: rest ∧
      (collectPositionsInCurrentDoc driver.reader).1 = positions (c.postings driver.word) target ∧
      (collectAll others').1 = (others.map Stream.word).map (fun word =>
        ⟨word, positions (c.postings word) target, 0, false⟩) ∧
      (collectAll others').2.map Stream.word = others.map Stream.word ∧
      ((nextPost target driver).1.doc = 0 ∧ rest = [] ∨
        (nextPost target driver).1.doc ≠ 0 ∧ target + 1 ≤ (nextPost target driver).1.doc ∧
          Ready c (nextPost target driver).1.doc ⟨driver.word, (nextPost target driver).2⟩
            (collectAll others').2 rest) := by
  obtain ⟨p, hstands, hpdoc⟩ := h.meets
  obtain ⟨hpmem, _, _⟩ := hstands.first
  obtain ⟨hpositions, hnext⟩ := hstands.collect h.pos hpdoc
  obtain ⟨hnodes, hcollected, hbehind⟩ := collectAll_spec h.pos htells
  have hall : ContainsAll c (driver.word :: others.map Stream.word) target := by
    refine List.forall_mem_cons.mpr ⟨⟨p, hpmem, hpdoc⟩, fun word hword => ?_⟩
    rw [← hwords] at hword
    obtain ⟨s, hs, rfl⟩ := List.mem_map.mp hword
    obtain ⟨q, hq, hqdoc⟩ := htells s hs
    exact ⟨q, hq.first.1, hqdoc⟩
  obtain ⟨rest, hrest, henum⟩ := h.docs.cons hall
  have hbound := (c.docs driver.word p hpmem).2
  have hu : u32 (target + 1) = target + 1 := by
    refine u32_of_lt ?_
    simp only [DOCS_PER_INDEX_CHUNK] at hbound
    omega
  refine ⟨rest, hrest, hpositions, by rw [hnodes, hwords], hcollected.trans hwords, ?_⟩
  rw [nextPost, hu]
  refine drive (Nat.le_add_left 1 target) hnext hbehind ?_
  rwa [hcollected, hwords]

theorem Ready.fewer {target' : Nat} (h : Ready c target driver others ds) (hlt : target < target') :
    ((c.postings driver.word).filter (fromDoc target')).length <
      ((c.postings driver.word).filter (fromDoc target)).length := by
  obtain ⟨p, hstands, hpdoc⟩ := h.meets
  exact filter_fromDoc_lt hstands.first.1 hpdoc hlt

end Turn

/-! ## The whole query -/

/-- What a query returns: what it has at the check where the deadline fires, and all if it never
does. -/
def Returns (deadlineMs : Nat) (clock : Clock) (result : Option (List DocInfo))
    (all : List DocInfo) : Prop :=
  ∃ docs, result = some docs ∧ docs <+: all ∧
    ((∀ check, fires deadlineMs clock check = false) → docs = all)

theorem returns_all (deadlineMs : Nat) (clock : Clock) (all : List DocInfo) :
    Returns deadlineMs clock (some all) all :=
  ⟨all, rfl, List.prefix_refl _, fun _ => rfl⟩

section Loop

variable (deadlineMs : Nat) (clock : Clock)

/-- From a turn on, the loop adds the docs that are still to be found. -/
theorem defaultQueryLoop_returns (turns check : Nat) (docs : List DocInfo) {target : Nat}
    {driver : Stream} {others : List Stream} {ds : List Nat}
    (h : Ready c target driver others ds)
    (hturns : ((c.postings driver.word).filter (fromDoc target)).length ≤ turns) :
    Returns deadlineMs clock
      (defaultQueryLoop c.index deadlineMs clock turns check docs target driver others)
      (docs ++ ds.map (docInfo c (driver.word :: others.map Stream.word))) := by
  induction turns generalizing check target docs driver others ds with
  | zero =>
    have hfewer := h.fewer (Nat.lt_succ_self target)
    omega
  | succ turns ih =>
    rw [defaultQueryLoop]
    cases hfires : fires deadlineMs clock check with
    | true =>
      refine ⟨docs, rfl, List.prefix_append _ _, fun hnever => ?_⟩
      rw [hnever check] at hfires
      cases hfires
    | false =>
      obtain ⟨hwords, htells⟩ := leapOthers_spec h.pos h.behind
      simp only [Bool.false_eq_true, if_false]
      cases hleap : leapOthers target others with
      | mk leap others' =>
        rw [hleap] at hwords htells
        cases leap with
        | ended =>
          rw [h.ended htells, List.map_nil, List.append_nil]
          exact returns_all deadlineMs clock docs
        | overshoot target' =>
          have hlt : target < target' := htells.1
          rcases h.overshoot hwords htells with ⟨hdoc, hnil⟩ | ⟨hdoc, hle, hready⟩
          · simp only [hdoc, if_true, hnil, List.map_nil, List.append_nil]
            exact returns_all deadlineMs clock docs
          · have htarget : (if (advanceTo target' driver.reader).1.doc > target' then
                (advanceTo target' driver.reader).1.doc else target') =
                  (advanceTo target' driver.reader).1.doc := by
              split <;> omega
            have hfewer := h.fewer (Nat.lt_of_lt_of_le hlt hle)
            simp only [hdoc, if_false, htarget]
            have hrest := ih (check + 1) docs hready (by simp only; omega)
            rwa [hwords] at hrest
        | allMatch =>
          obtain ⟨rest, rfl, hpositions, hnodes, hcollected, hnext⟩ := h.found hwords htells
          have hinfo : docInfo c (driver.word :: others.map Stream.word) target =
              ⟨getUrl c.index target, ⟨driver.word, (collectPositionsInCurrentDoc driver.reader).1,
                0, false⟩ :: (collectAll others').1⟩ := by
            rw [docInfo, List.map_cons, hpositions, hnodes]
          rw [List.map_cons, hinfo, List.append_cons]
          unfold nextPost at hnext
          rcases hnext with ⟨hdoc, hnil⟩ | ⟨hdoc, hle, hready⟩
          · simp only [hdoc, if_true, hnil, List.map_nil, List.append_nil]
            exact returns_all deadlineMs clock _
          · have hfewer := h.fewer (Nat.lt_of_succ_le hle)
            simp only [hdoc, if_false]
            have hrest := ih (check + 1) (docs ++ [⟨getUrl c.index target, ⟨driver.word,
              (collectPositionsInCurrentDoc driver.reader).1, 0, false⟩ ::
                (collectAll others').1⟩]) hready (by simp only; omega)
            rwa [hcollected] at hrest

end Loop

/-- The first advance of the driver: it stands at its first post, or its word has none. -/
theorem first_advance (c : Chunk) (word : Bytes) :
    ((advance (open' word c.index)).1.doc = 0 ∧ c.postings word = []) ∨
      ((advance (open' word c.index)).1.doc ≠ 0 ∧
        StandsAt c word 1 (advance (open' word c.index)).2
          (advance (open' word c.index)).1) := by
  have htracks := tracks_open c word
  rw [advance_eq (loc_open word c.index).2]
  cases hposts : c.postings word with
  | nil =>
    rw [hposts] at htracks
    obtain ⟨hpost, _⟩ := htracks.end
    exact Or.inl ⟨by rw [hpost]; rfl, rfl⟩
  | cons p ps =>
    rw [hposts] at htracks
    obtain ⟨hpost, hnext⟩ := htracks.step
    have hdoc := (c.docs word p (by rw [hposts]; exact List.mem_cons_self)).1
    rw [hpost]
    refine Or.inr ⟨Nat.ne_of_gt hdoc, _, hnext, ?_, rfl, ?_⟩
    · rw [Chunk.whole, hposts]
      exact List.suffix_cons noPost _
    · rw [List.filter_eq_self.mpr fun q hq => fromDoc_iff.mpr (c.docs word q hq).1, hposts]
      rfl

theorem not_containsAll {c : Chunk} {words : List Bytes} {word : Bytes} (hword : word ∈ words)
    (hnil : c.postings word = []) (doc : Nat) : ¬ContainsAll c words doc := by
  intro h
  obtain ⟨p, hp, _⟩ := h word hword
  rw [hnil] at hp
  cases hp

theorem containsAll_perm {c : Chunk} {words order : List Bytes} (hperm : order.Perm words)
    (doc : Nat) : ContainsAll c words doc ↔ ContainsAll c order doc :=
  ⟨fun h word hword => h word (hperm.mem_iff.mp hword),
    fun h word hword => h word (hperm.mem_iff.mpr hword)⟩

theorem positions_enumerates (c : Chunk) (word : Bytes) (doc : Nat) :
    Enumerates (fun loc => ⟨doc, loc⟩ ∈ c.postings word) (positions (c.postings word) doc) := by
  constructor
  · rw [positions, List.pairwise_map]
    refine ((c.ordered word).filter _).imp_of_mem fun hp hq hbefore => ?_
    rw [List.mem_filter, decide_eq_true_eq] at hp hq
    rcases hbefore with hlt | ⟨_, hlt⟩
    · omega
    · exact hlt
  · intro loc
    rw [positions, List.mem_map]
    constructor
    · rintro ⟨p, hp, rfl⟩
      obtain ⟨hmem, hdoc⟩ := List.mem_filter.mp hp
      rw [decide_eq_true_eq] at hdoc
      rwa [← hdoc]
    · intro hmem
      exact ⟨_, List.mem_filter.mpr ⟨hmem, decide_eq_true rfl⟩, rfl⟩

theorem exists_common_docs (c : Chunk) (word : Bytes) (words : List Bytes) :
    ∃ docs, Enumerates (ContainsAll c (word :: words)) docs := by
  refine exists_enumerates DOCS_PER_INDEX_CHUNK fun doc hdoc => ?_
  obtain ⟨p, hp, rfl⟩ := hdoc word List.mem_cons_self
  exact (c.docs word p hp).2

/-! ### The order of the streams -/

theorem leapOrder_words (index : LoadedIndex) (words : List Bytes) :
    ((leapOrder (words.map (openStream index))).map Stream.word).Perm words := by
  have hwords := (leapOrder_perm (words.map (openStream index))).map Stream.word
  rwa [List.map_map, show Stream.word ∘ openStream index = id from rfl, List.map_id] at hwords

theorem leapOrder_open (index : LoadedIndex) (words : List Bytes) :
    ∀ s ∈ leapOrder (words.map (openStream index)), s = openStream index s.word := by
  intro s hs
  obtain ⟨w, _, rfl⟩ := List.mem_map.mp ((leapOrder_perm _).mem_iff.mp hs)
  rfl

/-- The driver at its first post, and the other streams before theirs. -/
theorem ready_first {c : Chunk} {words : List Bytes} {docs : List Nat} {driver : Stream}
    {others : List Stream} (hdocs : Enumerates (ContainsAll c words) docs)
    (hwords : ((driver :: others).map Stream.word).Perm words)
    (hothers : ∀ s ∈ others, s = openStream c.index s.word)
    (hstands : StandsAt c driver.word 1 (advance (open' driver.word c.index)).2
      (advance (open' driver.word c.index)).1) :
    Ready c (advance (open' driver.word c.index)).1.doc
      ⟨driver.word, (advance (open' driver.word c.index)).2⟩ others docs := by
  refine ⟨hstands.first.2.1, ⟨_, hstands.raise, rfl⟩, fun s hs => ?_, ?_⟩
  · rw [hothers s hs]
    exact streamFrom_open c s.word _
  · refine hdocs.congr fun doc => ?_
    rw [← raise_iff hstands List.mem_cons_self, ← containsAll_perm hwords.symm]
    refine ⟨fun h => ⟨?_, h⟩, fun h => h.2⟩
    obtain ⟨q, hq, rfl⟩ := h driver.word List.mem_cons_self
    exact (c.docs driver.word q hq).1

theorem defaultQuery_returns {c : Chunk} {words : List Bytes} {docs : List Nat}
    (hdocs : Enumerates (ContainsAll c words) docs) (hne : words ≠ []) (deadlineMs : Nat)
    (clock : Clock) :
    Returns deadlineMs clock (defaultQuery c.index deadlineMs clock words)
      (docs.map (docInfo c ((leapOrder (words.map (openStream c.index))).map Stream.word))) := by
  have hwords := leapOrder_words c.index words
  have hopen := leapOrder_open c.index words
  have hempty (w : Bytes) (hw : w ∈ words) (hnil : c.postings w = []) : docs = [] :=
    hdocs.nil (not_containsAll hw hnil)
  unfold defaultQuery
  rw [if_neg (mt List.length_eq_zero_iff.mp hne)]
  simp only
  split
  -- a word without posts, or a driver that ends at once: no doc has all words
  · rename_i hany
    obtain ⟨s, hs, hzero⟩ := List.any_eq_true.mp hany
    obtain ⟨w, hw, rfl⟩ := List.mem_map.mp hs
    rw [hempty w hw (postings_nil c w (of_decide_eq_true hzero)), List.map_nil]
    exact returns_all deadlineMs clock []
  · cases horder : leapOrder (words.map (openStream c.index)) with
    | nil =>
      rw [horder, List.map_nil] at hwords
      exact absurd hwords.symm.eq_nil hne
    | cons driver others =>
      rw [horder] at hwords hopen
      obtain ⟨hdriver, hothers⟩ := List.forall_mem_cons.mp hopen
      have hmem : driver.word ∈ words := hwords.mem_iff.mp List.mem_cons_self
      have hreader : driver.reader = open' driver.word c.index := by rw [hdriver]; rfl
      simp only [hreader]
      rcases first_advance c driver.word with ⟨hdoc, hnil⟩ | ⟨hdoc, hstands⟩
      · simp only [hdoc, if_true]
        rw [hempty driver.word hmem hnil, List.map_nil]
        exact returns_all deadlineMs clock []
      · have hready := ready_first hdocs hwords hothers hstands
        have hlength := (List.length_filter_le (fromDoc
          (advance (open' driver.word c.index)).1.doc) (c.postings driver.word)).trans
            (tracks_open c driver.word).length
        simp only [hdoc, if_false, List.map_cons]
        have hreturns := defaultQueryLoop_returns deadlineMs clock
          ((open' driver.word c.index).currLoc.length + 1) 0 [] hready (by simp only; omega)
        rwa [List.nil_append] at hreturns

/-- Without a deadline, the query returns every doc that contains all words once, in increasing
order, with all positions of every word in increasing order; a deadline cuts the list. -/
theorem default_query_returns_the_common_docs (c : Chunk) (word : Bytes) (words : List Bytes) :
    ∃ docs order, Enumerates (ContainsAll c (word :: words)) docs ∧
      order.Perm (word :: words) ∧
      (∀ w ∈ order, ∀ doc,
        Enumerates (fun loc => ⟨doc, loc⟩ ∈ c.postings w) (positions (c.postings w) doc)) ∧
      ∀ deadlineMs clock, Returns deadlineMs clock
        (defaultQuery c.index deadlineMs clock (word :: words)) (docs.map (docInfo c order)) := by
  obtain ⟨docs, hdocs⟩ := exists_common_docs c word words
  exact ⟨docs, (leapOrder ((word :: words).map (openStream c.index))).map Stream.word, hdocs,
    leapOrder_words c.index (word :: words), fun w _ doc => positions_enumerates c w doc,
    defaultQuery_returns hdocs (List.cons_ne_nil word words)⟩

end seamus.default_query
