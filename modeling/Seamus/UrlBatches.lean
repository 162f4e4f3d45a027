-- What `url_buffers.h` keeps in every run: the batches have two sizes, each goes to the machine of
-- its URLs and comes back from its message, and every call of `add_urls` returns.
import Seamus.UrlBuffers
import Seamus.Rpc
import Seamus.UrlRewrites
import Mathlib.Algebra.BigOperators.Intervals
import Mathlib.Algebra.BigOperators.Ring.Finset

open interleaving seamus.html_tags seamus.html seamus.url_filter seamus.url_store
open seamus.link_stream seamus.rpc seamus.url_identity seamus.url_rewrites

namespace seamus.url_buffers

/-! ## The requests fit into a message -/

/-- What a receiver of the batch takes. -/
structure Fits (req : Request) : Prop where
  url : req.url.length ≤ maxStringLen
  anchors : ∀ anchor ∈ req.anchorText, anchor.length ≤ maxStringLen
  count : req.anchorText.length < 2 ^ 32

theorem length_fixPath {path : Bytes} (hroot : path = [] ∨ path.head? = some 47) :
    (fixPath path).length ≤ path.length + 1 := by
  rcases hroot with rfl | hroot
  · decide
  · exact Nat.le_succ_of_le (fixPath_shorter hroot).length_le

theorem length_normalizeUrl (url : Bytes) : (normalizeUrl url).length ≤ 2049 := by
  by_cases haccepted : normalizeUrl url = []
  · simp [haccepted]
  obtain ⟨isHttps, host, visible, fragment, h⟩ := exists_parts haccepted
  rw [normalizeUrl_parts h] at haccepted ⊢
  obtain ⟨hlong, hjudge⟩ := passed haccepted
  have hfirst := accepted_of_judge hjudge
  rw [if_neg hlong, judge_of_accepted hfirst, canonical_length]
  have hpath := length_fixPath (root_of_visible h.visible hfirst.noQuery)
  have hport := (stripPort_shorter isHttps (stripWww host)).length_le
  have hstrip := stripWww_length_le host
  rw [h.text] at hlong
  simp only [List.length_append] at hlong
  omega

theorem length_splitWords (word line : Bytes) :
    (splitWords word line).length ≤ line.length + 1 ∧
      ∀ w ∈ splitWords word line, w.length ≤ word.length + line.length := by
  induction line generalizing word with
  | nil =>
    unfold splitWords
    split_ifs <;> simp
  | cons c line ih =>
    have hnext := ih (word ++ [c])
    have hfresh := ih []
    rw [List.length_append, List.length_singleton] at hnext
    unfold splitWords
    rw [List.length_cons]
    split_ifs
    · exact ⟨by omega, fun w hw => by have := hfresh.2 w hw; simp at this; omega⟩
    · refine ⟨by rw [List.length_cons]; omega, fun w hw => ?_⟩
      rcases List.mem_cons.mp hw with rfl | hw
      · omega
      · have := hfresh.2 w hw
        simp at this
        omega
    · exact ⟨by omega, fun w hw => by have := hnext.2 w hw; omega⟩

theorem fits_requestFor (h : DocHeader) (rawUrl : Bytes) {text : Bytes}
    (htext : text.length ≤ MAX_LINK_MEMORY) :
    Fits (requestFor h (normalizeUrl rawUrl) (splitWords [] text)) := by
  have hwords := length_splitWords [] text
  have hurl := length_normalizeUrl rawUrl
  unfold MAX_LINK_MEMORY at htext
  refine ⟨?_, fun anchor hanchor => ?_, ?_⟩
  · apply hurl.trans
    decide
  · have hlength := hwords.2 anchor hanchor
    rw [List.length_nil, Nat.zero_add] at hlength
    unfold maxStringLen
    omega
  · have hcount := hwords.1
    change (splitWords [] text).length < 2 ^ 32
    omega

theorem line_suffix (p : Bytes) : (line p).2 <:+ p := List.dropWhile_suffix _

theorem readLinks_suffix (h : DocHeader) (turns : Nat) (p : Bytes) :
    (readLinks h turns p).2.1 <:+ p := by
  induction turns generalizing p with
  | zero => exact List.suffix_rfl
  | succ turns ih =>
    have hafter : ((line ((line p).2.drop 1)).2.drop 1) <:+ p :=
      (List.drop_suffix _ _).trans ((line_suffix _).trans
        ((List.drop_suffix _ _).trans (line_suffix p)))
    unfold readLinks
    simp only
    split_ifs
    · exact List.suffix_rfl
    · exact (ih _).trans (List.drop_suffix 1 p)
    · exact line_suffix p
    · exact (ih _).trans hafter
    · exact (line_suffix _).trans ((List.drop_suffix _ _).trans (line_suffix p))
    · exact (ih _).trans hafter

theorem fits_readLinks (h : DocHeader) {turns : Nat} {p : Bytes}
    (hp : p.length ≤ MAX_LINK_MEMORY) : ∀ req ∈ (readLinks h turns p).1, Fits req := by
  induction turns generalizing p with
  | zero => exact fun _ hreq => absurd hreq List.not_mem_nil
  | succ turns ih =>
    have hurl : ((line p).2.drop 1) <:+ p := (List.drop_suffix _ _).trans (line_suffix p)
    have hafter : ((line ((line p).2.drop 1)).2.drop 1) <:+ p :=
      (List.drop_suffix _ _).trans ((line_suffix _).trans hurl)
    have htext : (line ((line p).2.drop 1)).1.length ≤ p.length :=
      ((List.takeWhile_sublist _).length_le).trans hurl.length_le
    unfold readLinks
    simp only
    split_ifs
    · exact fun _ hreq => absurd hreq List.not_mem_nil
    · exact ih ((List.drop_suffix 1 p).length_le.trans hp)
    · exact fun _ hreq => absurd hreq List.not_mem_nil
    · exact ih (hafter.length_le.trans hp)
    · exact fun _ hreq => absurd hreq List.not_mem_nil
    · intro req hreq
      rcases List.mem_cons.mp hreq with rfl | hreq
      · exact fits_requestFor h _ (htext.trans hp)
      · exact ih (hafter.length_le.trans hp) req hreq

theorem strtol_suffix (str : Bytes) : (strtol str).2 <:+ str := by
  unfold strtol
  simp only
  split_ifs
  all_goals first
    | exact List.suffix_rfl
    | exact (List.drop_suffix _ _).trans ((List.drop_suffix _ _).trans (List.dropWhile_suffix _))
    | exact (List.drop_suffix _ _).trans (List.dropWhile_suffix _)

theorem readHeader_suffix {p rest : Bytes} {h : DocHeader} (hread : readHeader p = some (h, rest)) :
    rest <:+ p := by
  unfold readHeader at hread
  simp only at hread
  split_ifs at hread
  cases hread
  apply (List.drop_suffix _ _).trans
  apply (line_suffix _).trans
  apply (List.drop_suffix _ _).trans
  apply (strtol_suffix _).trans
  apply (strtol_suffix _).trans
  exact List.drop_suffix _ _

theorem fits_readDocs (urls : Bytes) {turns : Nat} {p : Bytes} (hp : p.length ≤ MAX_LINK_MEMORY) :
    ∀ req ∈ (readDocs urls turns p).1, Fits req := by
  induction turns generalizing p with
  | zero => exact fun _ hreq => absurd hreq List.not_mem_nil
  | succ turns ih =>
    unfold readDocs
    split_ifs
    · exact fun _ hreq => absurd hreq List.not_mem_nil
    cases hheader : readHeader p with
    | none => exact fun _ hreq => absurd hreq List.not_mem_nil
    | some header =>
      obtain ⟨h, q⟩ := header
      have hq : q.length ≤ MAX_LINK_MEMORY := (readHeader_suffix hheader).length_le.trans hp
      have hlinks : ∀ req ∈ (readLinks h (q.length + 1) q).1, Fits req := fits_readLinks h hq
      have hrest := (readLinks_suffix h (q.length + 1) q).length_le.trans hq
      simp only
      rcases hread : readLinks h (q.length + 1) q with ⟨requests, rest, ok⟩
      rw [hread] at hlinks hrest
      cases ok with
      | false => exact hlinks
      | true =>
        simp only
        split_ifs
        · exact hlinks
        · intro req hreq
          rcases List.mem_append.mp hreq with hreq | hreq
          · exact hlinks req hreq
          · exact ih ((List.drop_suffix 7 rest).length_le.trans hrest) req hreq

theorem fits_addUrls {urls : Bytes} (hurls : urls.length ≤ MAX_LINK_MEMORY) :
    ∀ req ∈ (addUrls urls).1, Fits req := fits_readDocs urls hurls

/-! ## The batches have two sizes -/

def Phase.isFlushed : Phase → Bool
  | .flushed _ _ => true
  | .idle | .passing _ | .adding _ _ => false

/-- The batch of a machine that is out and not counted yet. -/
def isUncounted (i : Nat) (s : System) : Bool :=
  ((s.locks i).bind fun t => s.locals[t]?).any fun l => l.phase.isFlushed

def uncounted (NUM_MACHINES : Nat) (s : System) : Finset Nat :=
  (Finset.range NUM_MACHINES).filter fun i => isUncounted i s = true

def isSmall (batch : List Request) : Bool := batch.length = CRAWLER_STARTUP_OUTBOUND_BATCH_SIZE

def smallBatches (s : System) : Nat :=
  s.stored.countP isSmall + s.sends.countP fun send => isSmall send.batch

structure Sized (NUM_MACHINES ME : Nat) (s : System) : Prop where
  count : s.stored.length + s.sends.length = s.numSent + (uncounted NUM_MACHINES s).card
  slow : s.numSent < 16 * 18 → ∀ i, (s.buffers i).length < CRAWLER_STARTUP_OUTBOUND_BATCH_SIZE
  room : ∀ i, (s.buffers i).length < CRAWLER_OUTBOUND_BATCH_SIZE
  sizes : ∀ i, ∀ batch ∈ sentTo ME i s, batch.length = CRAWLER_STARTUP_OUTBOUND_BATCH_SIZE ∨
    batch.length = CRAWLER_OUTBOUND_BATCH_SIZE
  small : smallBatches s < 16 * 18 + NUM_MACHINES

section Sizes

variable {NUM_MACHINES ME : Nat} {s s' : System} {turn : Turn} {t i j : Nat} {l : LocalUrlBuffer}

theorem isFull_iff {size numSent : Nat} :
    isFull size numSent = true ↔ CRAWLER_OUTBOUND_BATCH_SIZE ≤ size ∨
      CRAWLER_STARTUP_OUTBOUND_BATCH_SIZE ≤ size ∧ numSent < 16 * 18 := by
  simp [isFull]

theorem isUncounted_setLocal (hl : s.locals[t]? = some l) (l' : LocalUrlBuffer) :
    isUncounted i (setLocal t l' s) =
      if s.locks i = some t then l'.phase.isFlushed else isUncounted i s := by
  unfold isUncounted
  rw [setLocal_locks]
  cases hlock : s.locks i with
  | none => simp
  | some u =>
    by_cases hu : u = t
    · simp [hu, locals_setLocal hl l']
    · simp [hu, locals_setLocal_of_ne l' hu]

theorem isUncounted_setLock (holder : Option Nat) :
    isUncounted i (setLock j holder s) =
      if i = j then (holder.bind fun t => s.locals[t]?).any fun l => l.phase.isFlushed
      else isUncounted i s := by
  unfold isUncounted setLock
  by_cases hij : i = j <;> simp [hij]

theorem isUncounted_of_held (hlocked : Locked NUM_MACHINES s) {batch : List Request}
    (hl : s.locals[t]? = some l) (hheld : l.phase.held = some (i, batch)) :
    isUncounted i s = l.phase.isFlushed := by
  simp [isUncounted, hlocked.lock t l i batch hl hheld, hl]

theorem uncounted_congr (h : ∀ i, isUncounted i s' = isUncounted i s) :
    uncounted NUM_MACHINES s' = uncounted NUM_MACHINES s := by
  unfold uncounted
  simp only [h]

/-- A parser goes on, and nothing goes out. -/
theorem uncounted_setLocal (hlocked : Locked NUM_MACHINES s) (hl : s.locals[t]? = some l)
    {l' : LocalUrlBuffer} (hsame : l'.phase.isFlushed = l.phase.isFlushed) :
    uncounted NUM_MACHINES (setLocal t l' s) = uncounted NUM_MACHINES s := by
  apply uncounted_congr
  intro i
  rw [isUncounted_setLocal hl]
  split_ifs with hlock
  · obtain ⟨m, batch, hm, hheld⟩ := hlocked.taken i t hlock
    cases hl.symm.trans hm
    rw [hsame, isUncounted_of_held hlocked hl hheld]
  · rfl

/-- A batch goes out. -/
theorem uncounted_flush (hlocked : Locked NUM_MACHINES s) {batch : List Request}
    (hl : s.locals[t]? = some l) (hheld : l.phase.held = some (j, batch)) {l' : LocalUrlBuffer}
    (hbefore : l.phase.isFlushed = false) (hafter : l'.phase.isFlushed = true) :
    (uncounted NUM_MACHINES (setLocal t l' s)).card = (uncounted NUM_MACHINES s).card + 1 := by
  have hnot : j ∉ uncounted NUM_MACHINES s := by
    simp [uncounted, isUncounted_of_held hlocked hl hheld, hbefore]
  rw [← Finset.card_insert_of_notMem hnot]
  congr 1
  ext i
  simp only [uncounted, Finset.mem_filter, Finset.mem_range, Finset.mem_insert,
    isUncounted_setLocal hl]
  by_cases hij : i = j
  · subst hij
    simp [hlocked.lock t l i batch hl hheld, hafter, hlocked.machine t l i batch hl hheld]
  · have hne : s.locks i ≠ some t := fun hlock => hij (hlocked.one hl hheld hlock)
    simp [hne, hij]

/-- A batch is counted. -/
theorem uncounted_count (hlocked : Locked NUM_MACHINES s) {batch : List Request}
    (hl : s.locals[t]? = some l) (hheld : l.phase.held = some (j, batch)) {l' : LocalUrlBuffer}
    (hbefore : l.phase.isFlushed = true) (hafter : l'.phase.isFlushed = false) :
    (uncounted NUM_MACHINES s).card = (uncounted NUM_MACHINES (setLocal t l' s)).card + 1 := by
  have hmem : j ∈ uncounted NUM_MACHINES s := by
    simp [uncounted, isUncounted_of_held hlocked hl hheld, hbefore,
      hlocked.machine t l j batch hl hheld]
  rw [← Finset.card_erase_add_one hmem]
  congr 2
  ext i
  simp only [uncounted, Finset.mem_filter, Finset.mem_range, Finset.mem_erase,
    isUncounted_setLocal hl]
  by_cases hij : i = j
  · subst hij
    simp [hlocked.lock t l i batch hl hheld, hafter]
  · have hne : s.locks i ≠ some t := fun hlock => hij (hlocked.one hl hheld hlock)
    simp [hne, hij]

theorem card_uncounted_le (s : System) : (uncounted NUM_MACHINES s).card ≤ NUM_MACHINES := by
  refine (Finset.card_filter_le _ _).trans ?_
  rw [Finset.card_range]

theorem smallBatches_le (s : System) : smallBatches s ≤ s.stored.length + s.sends.length :=
  Nat.add_le_add List.countP_le_length List.countP_le_length

theorem smallBatches_flush (batch : List Request) :
    smallBatches (flush ME j batch s) = smallBatches s + if isSmall batch then 1 else 0 := by
  have hone {α : Type} (p : α → Bool) (xs : List α) (x : α) :
      (xs ++ [x]).countP p = xs.countP p + if p x then 1 else 0 := by simp
  unfold smallBatches flush
  by_cases hme : j = ME
  · simp only [if_pos hme, hone]
    omega
  · simp only [if_neg hme, hone]
    omega

theorem countP_posted (sends : List FlushAsync) :
    (sends.countP fun send => isSmall send.batch) = (posted sends).countP fun p => isSmall p.2 := by
  unfold posted
  rw [List.countP_map]
  rfl

theorem length_flush (batch : List Request) :
    (flush ME j batch s).stored.length + (flush ME j batch s).sends.length =
      s.stored.length + s.sends.length + 1 := by
  unfold flush
  split_ifs <;> simp <;> omega

/-- A turn that sends nothing and pushes nothing. -/
theorem Sized.congr (h : Sized NUM_MACHINES ME s)
    (huncounted : uncounted NUM_MACHINES s' = uncounted NUM_MACHINES s)
    (hbuffers : s'.buffers = s.buffers) (hnumSent : s'.numSent = s.numSent)
    (hstored : s'.stored = s.stored) (hsends : s'.sends = s.sends) : Sized NUM_MACHINES ME s' := by
  obtain ⟨hcount, hslow, hroom, hsizes, hsmall⟩ := h
  refine ⟨?_, ?_, ?_, ?_, ?_⟩
  · rwa [huncounted, hnumSent, hstored, hsends]
  · rwa [hbuffers, hnumSent]
  · rwa [hbuffers]
  · unfold sentTo at hsizes ⊢
    rwa [hstored, hsends]
  · unfold smallBatches at hsmall ⊢
    rwa [hstored, hsends]

theorem sized_initial (parsers : Nat) : Sized NUM_MACHINES ME (initial parsers) := by
  have hnone : uncounted NUM_MACHINES (initial parsers) = ∅ :=
    Finset.filter_eq_empty_iff.mpr fun _ _ => Bool.false_ne_true
  have hstartup : 0 < CRAWLER_STARTUP_OUTBOUND_BATCH_SIZE := by decide
  have hfull : 0 < CRAWLER_OUTBOUND_BATCH_SIZE := by decide
  refine ⟨?_, fun _ _ => hstartup, fun _ => hfull, fun i batch hmem => ?_, ?_⟩
  · rw [hnone]
    rfl
  · unfold sentTo at hmem
    split_ifs at hmem <;> exact absurd hmem List.not_mem_nil
  · exact Nat.add_pos_left (by decide) NUM_MACHINES

/-- A turn on the buffer of a machine. -/
theorem length_setBuffer {bound : Nat} (h : ∀ i, (s.buffers i).length < bound) {reqs : List Request}
    (hreqs : reqs.length < bound) : ∀ i, ((setBuffer j reqs s).buffers i).length < bound := by
  intro i
  unfold setBuffer
  by_cases hij : i = j
  · simpa [hij] using hreqs
  · simpa [hij] using h i

/-- A parser goes on, and pushes nothing. -/
theorem Sized.set (h : Sized NUM_MACHINES ME s) (hlocked : Locked NUM_MACHINES s)
    (hl : s.locals[t]? = some l) {l' : LocalUrlBuffer}
    (hsame : l'.phase.isFlushed = l.phase.isFlushed) :
    Sized NUM_MACHINES ME (setLocal t l' s) :=
  h.congr (uncounted_setLocal hlocked hl hsame) rfl rfl rfl rfl

theorem Sized.take (h : Sized NUM_MACHINES ME s) (hlocked : Locked NUM_MACHINES s)
    (hl : s.locals[t]? = some l) (hheld : l.phase.held = none) (hfree : s.locks j = none)
    {l' : LocalUrlBuffer} (hafter : l'.phase.isFlushed = false) :
    Sized NUM_MACHINES ME (setLock j (some t) (setLocal t l' s)) := by
  refine h.congr (uncounted_congr fun i => ?_) rfl rfl rfl rfl
  rw [isUncounted_setLock]
  split_ifs with hij
  · simp [hij, locals_setLocal hl, hafter, isUncounted, hfree]
  · rw [isUncounted_setLocal hl, if_neg (hlocked.free hl hheld i)]

theorem Sized.release (h : Sized NUM_MACHINES ME s) (hlocked : Locked NUM_MACHINES s)
    {batch : List Request} (hl : s.locals[t]? = some l) (hheld : l.phase.held = some (j, batch))
    (hbefore : l.phase.isFlushed = false) (l' : LocalUrlBuffer) :
    Sized NUM_MACHINES ME (setLock j none (setLocal t l' s)) := by
  refine h.congr (uncounted_congr fun i => ?_) rfl rfl rfl rfl
  rw [isUncounted_setLock]
  split_ifs with hij
  · rw [hij, isUncounted_of_held hlocked hl hheld, hbefore]
    rfl
  · have hnone : s.locks i ≠ some t := fun hlock => hij (hlocked.one hl hheld hlock)
    rw [isUncounted_setLocal hl, if_neg hnone]

/-- A request goes into a buffer that is not full with it. -/
theorem Sized.push (h : Sized NUM_MACHINES ME s) (hlocked : Locked NUM_MACHINES s)
    (hl : s.locals[t]? = some l) {l' : LocalUrlBuffer}
    (hsame : l'.phase.isFlushed = l.phase.isFlushed) {reqs : List Request}
    (hroom : isFull reqs.length s.numSent = false) :
    Sized NUM_MACHINES ME (setBuffer j reqs (setLocal t l' s)) := by
  have hnot := isFull_iff.not.mp (Bool.eq_false_iff.mp hroom)
  rw [not_or, Nat.not_le] at hnot
  have hset := h.set hlocked hl hsame
  refine ⟨hset.count, fun hslow => ?_, length_setBuffer h.room hnot.1, h.sizes, h.small⟩
  apply length_setBuffer (h.slow hslow)
  exact Nat.lt_of_not_le fun hlarge => hnot.2 ⟨hlarge, hslow⟩

/-- A buffer that is full with a request has one of two sizes. -/
theorem Sized.size_of_full (h : Sized NUM_MACHINES ME s) {req : Request}
    (hfull : isFull (s.buffers j ++ [req]).length s.numSent = true) :
    (s.buffers j ++ [req]).length = CRAWLER_OUTBOUND_BATCH_SIZE ∨
      (s.buffers j ++ [req]).length = CRAWLER_STARTUP_OUTBOUND_BATCH_SIZE ∧
        s.numSent < 16 * 18 := by
  have hsize : (s.buffers j ++ [req]).length = (s.buffers j).length + 1 := List.length_append
  rcases isFull_iff.mp hfull with hlarge | ⟨hlarge, hslow⟩
  · have hroom := h.room j
    exact .inl (by omega)
  · have hstart := h.slow hslow j
    exact .inr ⟨by omega, hslow⟩

/-- The small batches are those of the slow start, and one more of each machine at most. -/
theorem Sized.small_flush (h : Sized NUM_MACHINES ME s) (hlocked : Locked NUM_MACHINES s)
    {batch : List Request} (hl : s.locals[t]? = some l) (hheld : l.phase.held = some (j, batch))
    (hbefore : l.phase.isFlushed = false) {sent : List Request}
    (hsize : sent.length = CRAWLER_OUTBOUND_BATCH_SIZE ∨
      sent.length = CRAWLER_STARTUP_OUTBOUND_BATCH_SIZE ∧ s.numSent < 16 * 18) :
    smallBatches s + (if isSmall sent then 1 else 0) < 16 * 18 + NUM_MACHINES := by
  have hsmall := h.small
  rcases hsize with hlarge | ⟨hstart, hslow⟩
  · have hnot : isSmall sent = false := by
      unfold isSmall
      rw [hlarge]
      rfl
    simpa [hnot] using hsmall
  · have hcount := h.count
    have hone : (uncounted NUM_MACHINES (setLocal t ⟨l.urlUpdates, .flushed j []⟩ s)).card =
        (uncounted NUM_MACHINES s).card + 1 := uncounted_flush hlocked hl hheld hbefore rfl
    have hall : (uncounted NUM_MACHINES (setLocal t ⟨l.urlUpdates, .flushed j []⟩ s)).card ≤
        NUM_MACHINES := card_uncounted_le _
    have hle := smallBatches_le s
    have hyes : isSmall sent = true := decide_eq_true hstart
    rw [if_pos hyes]
    omega

/-- A full buffer goes out. -/
theorem Sized.flush (h : Sized NUM_MACHINES ME s) (hlocked : Locked NUM_MACHINES s)
    {batch : List Request} (hl : s.locals[t]? = some l) (hheld : l.phase.held = some (j, batch))
    (hbefore : l.phase.isFlushed = false) {l' : LocalUrlBuffer}
    (hafter : l'.phase.isFlushed = true) {req : Request}
    (hfull : isFull (s.buffers j ++ [req]).length s.numSent = true) :
    Sized NUM_MACHINES ME
      (url_buffers.flush ME j (s.buffers j ++ [req]) (setBuffer j [] (setLocal t l' s))) := by
  have hsize := h.size_of_full hfull
  have hone : (uncounted NUM_MACHINES (setLocal t l' s)).card = (uncounted NUM_MACHINES s).card + 1 :=
    uncounted_flush hlocked hl hheld hbefore hafter
  have hsame : uncounted NUM_MACHINES (url_buffers.flush ME j (s.buffers j ++ [req])
      (setBuffer j [] (setLocal t l' s))) = uncounted NUM_MACHINES (setLocal t l' s) :=
    uncounted_congr fun i => by simp [isUncounted, setBuffer]
  refine ⟨?_, fun hslow => ?_, ?_, fun i b hb => ?_, ?_⟩
  · have hcount := h.count
    rw [length_flush, flush_numSent, hsame, hone]
    change s.stored.length + s.sends.length + 1 = s.numSent + _
    omega
  · rw [flush_numSent] at hslow
    rw [flush_buffers]
    exact length_setBuffer (h.slow hslow) (by decide)
  · rw [flush_buffers]
    exact length_setBuffer h.room (by decide)
  · rw [sentTo_flush] at hb
    split_ifs at hb
    · rcases List.mem_append.mp hb with hold | hnew
      · exact h.sizes i b hold
      · rw [List.mem_singleton.mp hnew]
        exact hsize.symm.imp_left And.left
    · exact h.sizes i b hb
  · rw [smallBatches_flush]
    exact h.small_flush hlocked hl hheld hbefore hsize

/-- A batch that is out is counted. -/
theorem Sized.counted (h : Sized NUM_MACHINES ME s) (hlocked : Locked NUM_MACHINES s)
    (hcounter : s.numSent + 1 < 2 ^ 64) {batch : List Request} (hl : s.locals[t]? = some l)
    (hheld : l.phase.held = some (j, batch)) (hbefore : l.phase.isFlushed = true)
    {l' : LocalUrlBuffer} (hafter : l'.phase.isFlushed = false) :
    Sized NUM_MACHINES ME
      { setLocal t l' s with numSent := (s.numSent + 1) % 2 ^ 64 } := by
  have hmod : (s.numSent + 1) % 2 ^ 64 = s.numSent + 1 := Nat.mod_eq_of_lt hcounter
  have hone : (uncounted NUM_MACHINES s).card =
      (uncounted NUM_MACHINES (setLocal t l' s)).card + 1 :=
    uncounted_count hlocked hl hheld hbefore hafter
  refine ⟨?_, fun hslow => h.slow ?_, h.room, h.sizes, h.small⟩
  · have hcount := h.count
    rw [hone] at hcount
    refine Eq.trans hcount ?_
    change _ = (s.numSent + 1) % 2 ^ 64 + (uncounted NUM_MACHINES (setLocal t l' s)).card
    rw [hmod]
    omega
  · change (s.numSent + 1) % 2 ^ 64 < 16 * 18 at hslow
    rw [hmod] at hslow
    omega

/-- A send ends. -/
theorem Sized.sent (h : Sized NUM_MACHINES ME s) {k : Nat} {send : FlushAsync}
    (hsend : s.sends[k]? = some send) (result : Option Bool) :
    Sized NUM_MACHINES ME { s with sends := s.sends.set k { send with result } } := by
  have hposted := posted_set hsend result
  refine ⟨?_, h.slow, h.room, fun i => ?_, ?_⟩
  · refine Eq.trans ?_ h.count
    exact congrArg (s.stored.length + ·) List.length_set
  · rw [sentTo_sent hsend]
    exact h.sizes i
  · refine lt_of_eq_of_lt ?_ h.small
    unfold smallBatches
    rw [countP_posted, countP_posted, hposted]

theorem sized_step (h : Sized NUM_MACHINES ME s) (hlocked : Locked NUM_MACHINES s)
    (hcounter : s.numSent + 1 < 2 ^ 64) (hstep : step NUM_MACHINES ME turn s = some s') :
    Sized NUM_MACHINES ME s' := by
  cases step_moves hstep with
  | addUrls urls hl hidle =>
    refine Sized.congr (h.set hlocked hl ?_) rfl rfl rfl rfl rfl
    rw [hidle]
    rfl
  | finish hl hphase | skip hl hphase =>
    apply h.set hlocked hl
    rw [hphase]
    rfl
  | lock hl hphase _ _ hfree =>
    exact (h.take hlocked hl (congrArg Phase.held hphase) hfree rfl).congr rfl rfl rfl rfl rfl
  | unlock hl hphase =>
    exact h.release hlocked hl (congrArg Phase.held hphase) (congrArg Phase.isFlushed hphase) _
  | push hl hphase hroom => exact h.push hlocked hl (congrArg Phase.isFlushed hphase).symm hroom
  | flush hl hphase hfull =>
    exact h.flush hlocked hl (congrArg Phase.held hphase) (congrArg Phase.isFlushed hphase) rfl hfull
  | count hl hphase =>
    exact h.counted hlocked hcounter hl (congrArg Phase.held hphase)
      (congrArg Phase.isFlushed hphase) rfl
  | sent ok hsend => exact h.sent hsend (some ok)

end Sizes

/-! ## Every request goes to its machine -/

structure Routed (NUM_MACHINES : Nat) (s : System) : Prop where
  updates : ∀ (t : Nat) (l : LocalUrlBuffer), s.locals[t]? = some l → ∀ i, ∀ req ∈ l.urlUpdates i,
    getDestinationMachineFromUrl NUM_MACHINES req.url = i ∧ Fits req
  passes : ∀ p ∈ s.passes, ∀ req ∈ p.batch,
    getDestinationMachineFromUrl NUM_MACHINES req.url = p.machineId ∧ Fits req

section Routes

variable {NUM_MACHINES ME : Nat} {s s' : System} {turn : Turn} {t i : Nat} {l : LocalUrlBuffer}

theorem Routed.set (h : Routed NUM_MACHINES s) (hl : s.locals[t]? = some l) (phase : Phase) :
    Routed NUM_MACHINES (setLocal t { l with phase } s) := by
  refine ⟨fun u m hm => ?_, h.passes⟩
  rcases getElem?_set_cases hm with ⟨rfl, rfl⟩ | ⟨_, hold⟩
  · exact h.updates u l hl
  · exact h.updates u m hold

theorem Routed.congr (h : Routed NUM_MACHINES s) (hlocals : s'.locals = s.locals)
    (hpasses : s'.passes = s.passes) : Routed NUM_MACHINES s' := by
  obtain ⟨hupdates, hpassed⟩ := h
  rw [← hlocals] at hupdates
  rw [← hpasses] at hpassed
  exact ⟨hupdates, hpassed⟩

theorem routed_initial (parsers : Nat) : Routed NUM_MACHINES (initial parsers) := by
  refine ⟨fun t l hl i req hreq => ?_, fun p hp => absurd hp List.not_mem_nil⟩
  rw [List.eq_of_mem_replicate (List.mem_of_getElem? hl)] at hreq
  exact absurd hreq List.not_mem_nil

theorem routed_step (h : Routed NUM_MACHINES s) (hstep : step NUM_MACHINES ME turn s = some s') :
    Routed NUM_MACHINES s' := by
  cases step_moves hstep with
  | @addUrls t l urls hl hidle =>
    refine ⟨fun u m hm i req hreq => ?_, h.passes⟩
    rcases getElem?_set_cases hm with ⟨rfl, rfl⟩ | ⟨_, hold⟩
    · rcases List.mem_append.mp hreq with hold | hnew
      · exact h.updates u l hl i req hold
      · obtain ⟨hread, hdest⟩ := List.mem_filter.mp hnew
        exact ⟨of_decide_eq_true hdest, fits_addUrls urls.2 req hread⟩
    · exact h.updates u m hold i req hreq
  | finish hl | skip hl => exact h.set hl _
  | @lock t j l hl =>
    refine ⟨fun u m hm i req hreq => ?_, fun p hp => ?_⟩
    · rcases getElem?_set_cases hm with ⟨rfl, rfl⟩ | ⟨_, hold⟩
      · by_cases hij : i = j
        · subst hij
          simp at hreq
        · simp only [Function.update_of_ne hij] at hreq
          exact h.updates u l hl i req hreq
      · exact h.updates u m hold i req hreq
    · rcases List.mem_append.mp hp with hold | hnew
      · exact h.passes p hold
      · rw [List.mem_singleton.mp hnew]
        exact h.updates t l hl j
  | @unlock t j l hl =>
    have hset := h.set hl (.passing (j + 1))
    exact hset.congr rfl rfl
  | @flush t j l req batch hl =>
    have hset := h.set hl (.flushed j batch)
    exact hset.congr (flush_locals _) (flush_passes _)
  | @push t j l req batch hl | @count t j l batch hl =>
    have hset := h.set hl (.adding j batch)
    exact hset.congr rfl rfl
  | sent => exact h.congr rfl rfl

theorem mem_passedTo {passes : List Pass} {req : Request} (h : req ∈ passedTo i passes) :
    ∃ p ∈ passes, p.machineId = i ∧ req ∈ p.batch := by
  simpa [passedTo, and_assoc] using h

theorem Fits.roundTrips {batch : List Request} (hbatch : batch.length < 2 ^ 32)
    (h : ∀ req ∈ batch, Fits req) :
    RoundTrips sendBatchUrlstoreUpdate recvBatchUrlstoreUpdate batch := by
  apply (update_round_trips_iff (fun req hreq => (h req hreq).url)
    fun req hreq => (h req hreq).anchors).mpr
  exact ⟨hbatch, fun req hreq => (h req hreq).count⟩

end Routes

/-! ## Every run -/

/-- After a number of turns that `num_sent` can count. -/
structure Kept (NUM_MACHINES ME turns : Nat) (s : System) : Prop where
  locked : Locked NUM_MACHINES s
  inOrder : InOrder ME s
  parted : Parted NUM_MACHINES s
  routed : Routed NUM_MACHINES s
  counter : s.numSent ≤ turns
  sized : turns < 2 ^ 64 → Sized NUM_MACHINES ME s

section Runs

variable {NUM_MACHINES ME : Nat} {s s' : System} {turn : Turn}

theorem numSent_step (hstep : step NUM_MACHINES ME turn s = some s') :
    s'.numSent ≤ s.numSent + 1 := by
  cases step_moves hstep with
  | flush =>
    rw [flush_numSent]
    exact Nat.le_succ s.numSent
  | count => exact Nat.mod_le _ _
  | addUrls | finish | skip | lock | unlock | push | sent => exact Nat.le_succ s.numSent

theorem inOrder_initial (parsers : Nat) : InOrder ME (initial parsers) := by
  intro i
  have hnone : sentTo ME i (initial parsers) = [] := ite_self _
  rw [hnone]
  rfl

theorem kept_initial (parsers : Nat) : Kept NUM_MACHINES ME 0 (initial parsers) :=
  ⟨locked_initial parsers, inOrder_initial parsers, parted_initial parsers,
    routed_initial parsers, Nat.le_refl 0, fun _ => sized_initial parsers⟩

theorem kept_step {turns : Nat} (h : Kept NUM_MACHINES ME turns s)
    (hstep : step NUM_MACHINES ME turn s = some s') : Kept NUM_MACHINES ME (turns + 1) s' := by
  have hcounter := h.counter
  refine ⟨locked_step h.locked hstep, inOrder_step h.inOrder h.locked hstep,
    parted_step h.parted hstep, routed_step h.routed hstep, ?_, fun hturns => ?_⟩
  · exact (numSent_step hstep).trans (Nat.succ_le_succ hcounter)
  · exact sized_step (h.sized (by omega)) h.locked (by omega) hstep

/-- In every interleaving of the parsers: a machine gets what was moved for it, each request once
and in order, but what is still in its buffer or in the hand of the parser with its lock. What a
parser moved is what its calls of `add_urls` read for the machine, a call in one piece. A batch is
one of the slow start or a full one, and comes back from its message. -/
theorem requests_go_out_in_batches {parsers : Nat} {turns : List Turn}
    (hturns : turns.length < 2 ^ 64)
    (h : exec (step NUM_MACHINES ME) turns (initial parsers) = some s) {i : Nat}
    (hi : i < NUM_MACHINES) :
    (sentTo ME i s).flatten ++ (s.buffers i ++ inHand i s) = passedTo i s.passes ∧
      (∀ (t : Nat) (l : LocalUrlBuffer), s.locals[t]? = some l → l.phase = .idle →
        passesOf t i s.passes = partsFor NUM_MACHINES t i s.calls) ∧
      (∀ batch ∈ sentTo ME i s,
        (batch.length = CRAWLER_STARTUP_OUTBOUND_BATCH_SIZE ∨
          batch.length = CRAWLER_OUTBOUND_BATCH_SIZE) ∧
        (∀ req ∈ batch, getDestinationMachineFromUrl NUM_MACHINES req.url = i) ∧
        RoundTrips sendBatchUrlstoreUpdate recvBatchUrlstoreUpdate batch) ∧
      (s.buffers i).length < CRAWLER_OUTBOUND_BATCH_SIZE ∧
      smallBatches s < 16 * 18 + NUM_MACHINES := by
  have hkept : Kept NUM_MACHINES ME turns.length s := by
    have hrun : Kept NUM_MACHINES ME (0 + turns.length) s :=
      exec_counts (fun _ _ _ _ ht hstep => kept_step ht hstep)
      (kept_initial parsers) h
    rwa [Nat.zero_add] at hrun
  have hsized := hkept.sized hturns
  refine ⟨hkept.inOrder i, fun t l hl hidle => ?_, fun batch hbatch => ?_, hsized.room i,
    hsized.small⟩
  · have hnil : l.urlUpdates i = [] := hkept.parted.past t l i hl hi (by rw [hidle]; trivial)
    rw [← hkept.parted.parts t l i hl hi, hnil]
    exact (List.append_nil _).symm
  · have hsize := hsized.sizes i batch hbatch
    have hroute : ∀ req ∈ batch,
        getDestinationMachineFromUrl NUM_MACHINES req.url = i ∧ Fits req := by
      intro req hreq
      have hmem : req ∈ passedTo i s.passes := by
        rw [← hkept.inOrder i]
        exact List.mem_append_left _ (List.mem_flatten_of_mem hbatch hreq)
      obtain ⟨p, hp, rfl, hpassed⟩ := mem_passedTo hmem
      exact hkept.routed.passes p hp req hpassed
    refine ⟨hsize, fun req hreq => (hroute req hreq).1, ?_⟩
    apply Fits.roundTrips _ fun req hreq => (hroute req hreq).2
    rcases hsize with hsize | hsize <;> rw [hsize] <;> decide

/-- Ten links to a host of machine 0, and ten to one of machine 1. -/
def exampleLinks : { urls : Bytes // urls.length ≤ MAX_LINK_MEMORY } :=
  ⟨ascii "<doc>\n0 0\na.com\n" ++ (List.replicate 10 (ascii "https://b.com\nx\n")).flatten ++
    (List.replicate 10 (ascii "https://b.org\nx\n")).flatten ++ ascii "</doc>\n",
    by decide +kernel⟩

/-- Two parsers on machine 1. The second is at the requests for machine 0 while the first is at
those for machine 1, and each of the two batches has requests of both. -/
def exampleTurns : List Turn :=
  [.addUrls 0 exampleLinks, .addUrls 1 exampleLinks] ++ List.replicate 12 (.pass 0) ++
    (List.replicate 13 [.pass 0, .pass 1]).flatten ++ List.replicate 14 (.pass 1) ++
      [.sent 0 true]

theorem exampleTurns_run : (exec (step 2 1) exampleTurns (initial 2)).map (fun s =>
    (s.locals.map LocalUrlBuffer.phase, s.sends.map fun send => (send.machineId, send.result))) =
      some ([.idle, .idle], [(0, some true)]) := by decide +kernel

theorem exampleTurns_batches : (exec (step 2 1) exampleTurns (initial 2)).map (fun s =>
    ((List.range 2).map (fun i => ((sentTo 1 i s).map List.length, (s.buffers i).length)),
      s.passes.map fun p => (p.localBuffer, p.machineId, p.batch.length))) =
      some ([([16], 4), ([16], 4)], [(0, 0, 10), (0, 1, 10), (1, 0, 10), (1, 1, 10)]) := by
  decide +kernel

theorem two_parsers_share_batches : ∃ s, exec (step 2 1) exampleTurns (initial 2) = some s ∧
    ((List.range 2).map (fun i => ((sentTo 1 i s).map List.length, (s.buffers i).length)) =
      [([16], 4), ([16], 4)]) ∧
    ∀ i < 2,
      (sentTo 1 i s).flatten ++ (s.buffers i ++ inHand i s) = passedTo i s.passes ∧
        (∀ t < 2, passesOf t i s.passes = partsFor 2 t i s.calls) ∧
        ∀ batch ∈ sentTo 1 i s, RoundTrips sendBatchUrlstoreUpdate recvBatchUrlstoreUpdate batch := by
  obtain ⟨s, hs, hbatches⟩ := Option.map_eq_some_iff.mp exampleTurns_batches
  have hphases : s.locals.map LocalUrlBuffer.phase = [.idle, .idle] := by
    have hrun := exampleTurns_run
    rw [hs] at hrun
    exact (Prod.mk.inj (Option.some.inj hrun)).1
  have hidle : ∀ t < 2, (s.locals.map LocalUrlBuffer.phase)[t]? = some .idle := by
    rw [hphases]
    decide
  refine ⟨s, hs, (Prod.mk.inj hbatches).1, fun i hi => ?_⟩
  obtain ⟨horder, hparts, hsent, -⟩ := requests_go_out_in_batches (by decide) hs hi
  refine ⟨horder, fun t ht => ?_, fun batch hbatch => (hsent batch hbatch).2.2⟩
  have hphase := hidle t ht
  rw [List.getElem?_map] at hphase
  obtain ⟨l, hl, hphase⟩ := Option.map_eq_some_iff.mp hphase
  exact hparts t l hl hphase

end Runs

/-! ## Every call returns -/

/-- The turns that the loop of `pass_rpcs` has before it from a machine on, with those of the
threads of `flush_async` that it starts. -/
def passTurns (NUM_MACHINES i : Nat) (l : LocalUrlBuffer) : Nat :=
  ∑ j ∈ Finset.Ico i NUM_MACHINES, (3 * (l.urlUpdates j).length + 2)

def turnsLeft (NUM_MACHINES : Nat) (l : LocalUrlBuffer) : Nat :=
  match l.phase with
  | .idle => 0
  | .passing i => 1 + passTurns NUM_MACHINES i l
  | .adding i batch => 3 * batch.length + 2 + passTurns NUM_MACHINES (i + 1) l
  | .flushed i batch => 3 * batch.length + 3 + passTurns NUM_MACHINES (i + 1) l

def FlushAsync.turns (send : FlushAsync) : Nat := if send.result = none then 1 else 0

def left (NUM_MACHINES : Nat) (s : System) : Nat :=
  total (turnsLeft NUM_MACHINES) s.locals + total FlushAsync.turns s.sends

/-- The turns that a call of `add_urls` brings, and its own. -/
def Turn.turns (NUM_MACHINES : Nat) : Turn → Nat
  | .addUrls _ urls => 2 + 2 * NUM_MACHINES + 3 * (link_stream.addUrls urls).1.length
  | .pass _ | .sent _ _ => 0

section Progress

variable {NUM_MACHINES ME : Nat} {s s' : System} {turn : Turn} {t i : Nat} {l : LocalUrlBuffer}

theorem passTurns_eq (hlt : i < NUM_MACHINES) :
    passTurns NUM_MACHINES i l =
      3 * (l.urlUpdates i).length + 2 + passTurns NUM_MACHINES (i + 1) l :=
  Finset.sum_eq_sum_Ico_succ_bot hlt _

@[simp] theorem passTurns_phase (phase : Phase) :
    passTurns NUM_MACHINES i { l with phase := phase } = passTurns NUM_MACHINES i l := rfl

/-- What was moved to a machine does not count for those after it. -/
theorem passTurns_update (reqs : List Request) (phase : Phase) :
    passTurns NUM_MACHINES (i + 1) ⟨Function.update l.urlUpdates i reqs, phase⟩ =
      passTurns NUM_MACHINES (i + 1) l := by
  apply Finset.sum_congr rfl
  intro j hj
  rw [Finset.mem_Ico] at hj
  simp only [Function.update_of_ne (Nat.ne_of_gt hj.1)]

/-- The parts of a list for the machines have its length together. -/
theorem sum_partFor_le (reqs : List Request) :
    ∑ j ∈ Finset.range NUM_MACHINES, (partFor NUM_MACHINES j reqs).length ≤ reqs.length := by
  induction reqs with
  | nil => simp [partFor]
  | cons req reqs ih =>
    have hcons (j : Nat) : (partFor NUM_MACHINES j (req :: reqs)).length =
        (partFor NUM_MACHINES j reqs).length +
          if getDestinationMachineFromUrl NUM_MACHINES req.url = j then 1 else 0 := by
      unfold partFor
      by_cases hj : getDestinationMachineFromUrl NUM_MACHINES req.url = j <;> simp [hj]
    have hone : (∑ j ∈ Finset.range NUM_MACHINES,
        if getDestinationMachineFromUrl NUM_MACHINES req.url = j then 1 else 0) ≤ 1 := by
      rw [Finset.sum_ite_eq]
      split_ifs <;> decide
    simp only [hcons, Finset.sum_add_distrib, List.length_cons]
    omega

theorem passTurns_le {reqs : List Request}
    (h : ∀ j < NUM_MACHINES, l.urlUpdates j = partFor NUM_MACHINES j reqs) :
    passTurns NUM_MACHINES 0 l ≤ 2 * NUM_MACHINES + 3 * reqs.length := by
  have hsum : passTurns NUM_MACHINES 0 l =
      ∑ j ∈ Finset.range NUM_MACHINES, (3 * (partFor NUM_MACHINES j reqs).length + 2) := by
    unfold passTurns
    rw [← Finset.range_eq_Ico]
    exact Finset.sum_congr rfl fun j hj => by rw [h j (Finset.mem_range.mp hj)]
  have hparts : ∑ j ∈ Finset.range NUM_MACHINES, (partFor NUM_MACHINES j reqs).length ≤
      reqs.length := sum_partFor_le reqs
  have htwo : ∑ _j ∈ Finset.range NUM_MACHINES, 2 = 2 * NUM_MACHINES := by simp [Nat.mul_comm]
  rw [hsum, Finset.sum_add_distrib, ← Finset.mul_sum, htwo]
  omega

theorem turnsLeft_setLocal (hl : s.locals[t]? = some l) (l' : LocalUrlBuffer) :
    total (turnsLeft NUM_MACHINES) (setLocal t l' s).locals + turnsLeft NUM_MACHINES l =
      total (turnsLeft NUM_MACHINES) s.locals + turnsLeft NUM_MACHINES l' :=
  total_set _ l' hl

theorem turns_flush (batch : List Request) :
    total FlushAsync.turns (flush ME i batch s).sends ≤ total FlushAsync.turns s.sends + 1 := by
  unfold flush
  split_ifs
  · exact Nat.le_succ _
  · rw [total_append]
    exact Nat.le_refl _

/-- A turn of a parser that starts no thread. -/
theorem left_setLocal (hl : s.locals[t]? = some l) {l' : LocalUrlBuffer} {added : Nat}
    (hless : turnsLeft NUM_MACHINES l' < turnsLeft NUM_MACHINES l + added)
    (hlocals : s'.locals = (setLocal t l' s).locals) (hsends : s'.sends = s.sends) :
    left NUM_MACHINES s' < left NUM_MACHINES s + added := by
  have hset : total (turnsLeft NUM_MACHINES) (setLocal t l' s).locals + turnsLeft NUM_MACHINES l =
      total (turnsLeft NUM_MACHINES) s.locals + turnsLeft NUM_MACHINES l' :=
    turnsLeft_setLocal hl l'
  unfold left
  rw [hlocals, hsends]
  omega

theorem left_addUrls (h : Parted NUM_MACHINES s) (hl : s.locals[t]? = some l)
    (hidle : l.phase = .idle) (reqs : List Request) :
    turnsLeft NUM_MACHINES
        ⟨fun j => l.urlUpdates j ++ partFor NUM_MACHINES j reqs, .passing 0⟩ <
      turnsLeft NUM_MACHINES l + (2 + 2 * NUM_MACHINES + 3 * reqs.length) := by
  have hparts : ∀ j < NUM_MACHINES,
      l.urlUpdates j ++ partFor NUM_MACHINES j reqs = partFor NUM_MACHINES j reqs := by
    intro j hj
    rw [h.past t l j hl hj (by rw [hidle]; trivial)]
    rfl
  have hle := passTurns_le
    (l := ⟨fun j => l.urlUpdates j ++ partFor NUM_MACHINES j reqs, .passing 0⟩) hparts
  unfold turnsLeft
  simp only [hidle]
  omega

/-- A request leaves the hand of the parser, and its batch brings a thread of `flush_async`. -/
theorem left_flush {req : Request} {batch : List Request} (hl : s.locals[t]? = some l)
    (hphase : l.phase = .adding i (req :: batch)) :
    left NUM_MACHINES (flush ME i (s.buffers i ++ [req])
      (setBuffer i [] (setLocal t { l with phase := .flushed i batch } s))) <
        left NUM_MACHINES s := by
  have hset : total (turnsLeft NUM_MACHINES)
      (setLocal t { l with phase := .flushed i batch } s).locals + turnsLeft NUM_MACHINES l =
      total (turnsLeft NUM_MACHINES) s.locals +
        turnsLeft NUM_MACHINES { l with phase := .flushed i batch } := turnsLeft_setLocal hl _
  have hless : turnsLeft NUM_MACHINES { l with phase := .flushed i batch } + 1 <
      turnsLeft NUM_MACHINES l := by
    unfold turnsLeft
    simp only [hphase, List.length_cons, passTurns_phase]
    omega
  have hsends : total FlushAsync.turns (flush ME i (s.buffers i ++ [req]) (setBuffer i []
      (setLocal t { l with phase := .flushed i batch } s))).sends ≤
        total FlushAsync.turns s.sends + 1 := turns_flush _
  unfold left
  rw [flush_locals]
  change total (turnsLeft NUM_MACHINES)
    (setLocal t { l with phase := .flushed i batch } s).locals + _ < _
  omega

theorem left_sent {j : Nat} {send : FlushAsync} (ok : Bool) (hsend : s.sends[j]? = some send)
    (hresult : send.result = none) :
    left NUM_MACHINES { s with sends := s.sends.set j { send with result := some ok } } <
      left NUM_MACHINES s := by
  have hset := total_set FlushAsync.turns { send with result := some ok } hsend
  have hone : send.turns = 1 := if_pos hresult
  have hnone : FlushAsync.turns { send with result := some ok } = 0 := rfl
  unfold left
  simp only
  omega

theorem left_step (h : Parted NUM_MACHINES s) (hstep : step NUM_MACHINES ME turn s = some s') :
    left NUM_MACHINES s' < left NUM_MACHINES s + turn.turns NUM_MACHINES := by
  cases step_moves hstep with
  | addUrls urls hl hidle => exact left_setLocal hl (left_addUrls h hl hidle _) rfl rfl
  | @finish t i l hl hphase =>
    refine left_setLocal hl ?_ rfl rfl
    unfold turnsLeft
    simp only [hphase]
    omega
  | @skip t i l hl hphase hlt =>
    refine left_setLocal hl ?_ rfl rfl
    have hnext := passTurns_eq (l := l) hlt
    unfold turnsLeft
    simp only [hphase, passTurns_phase]
    omega
  | @lock t i l hl hphase hlt =>
    refine left_setLocal hl ?_ rfl rfl
    have hnext := passTurns_eq (l := l) hlt
    unfold turnsLeft
    simp only [hphase, passTurns_update]
    omega
  | @unlock t i l hl hphase =>
    refine left_setLocal hl ?_ rfl rfl
    unfold turnsLeft
    simp only [hphase, List.length_nil, passTurns_phase]
    omega
  | @push t i l req batch hl hphase =>
    refine left_setLocal hl ?_ rfl rfl
    unfold turnsLeft
    simp only [hphase, List.length_cons, passTurns_phase]
    omega
  | @count t i l batch hl hphase =>
    refine left_setLocal hl ?_ rfl rfl
    unfold turnsLeft
    simp only [hphase, passTurns_phase]
    omega
  | flush hl hphase => exact left_flush hl hphase
  | sent ok hsend hresult => exact left_sent ok hsend hresult

/-- A parser waits for a lock only, and the parser that has it does not wait. -/
theorem idle_of_stuck (hlocked : Locked NUM_MACHINES s)
    (hstuck : ∀ t, step NUM_MACHINES ME (.pass t) s = none) : ∀ l ∈ s.locals, l.phase = .idle := by
  have hheld : ∀ (t : Nat) (l : LocalUrlBuffer), s.locals[t]? = some l → l.phase.held = none := by
    intro t l hl
    have hnone := hstuck t
    simp only [step, passStep, hl] at hnone
    cases hphase : l.phase with
    | idle | passing i => rfl
    | adding i batch =>
      cases batch with
      | nil => simp [hphase] at hnone
      | cons req batch =>
        simp only [hphase] at hnone
        split_ifs at hnone
    | flushed i batch => simp [hphase] at hnone
  intro l hmem
  obtain ⟨t, hl⟩ := List.mem_iff_getElem?.mp hmem
  have hnone := hstuck t
  simp only [step, passStep, hl] at hnone
  have hfree := hheld t l hl
  cases hphase : l.phase with
  | idle => rfl
  | passing i =>
    simp only [hphase] at hnone
    split_ifs at hnone with _ _ htaken
    obtain ⟨u, hlock⟩ := Option.isSome_iff_exists.mp htaken
    obtain ⟨m, batch, hm, hheldm⟩ := hlocked.taken i u hlock
    rw [hheld u m hm] at hheldm
    cases hheldm
  | adding i batch | flushed i batch =>
    rw [hphase] at hfree
    cases hfree

theorem sent_of_stuck (hstuck : ∀ j ok, step NUM_MACHINES ME (.sent j ok) s = none) :
    ∀ send ∈ s.sends, send.result.isSome := by
  intro send hmem
  obtain ⟨j, hsend⟩ := List.mem_iff_getElem?.mp hmem
  have hnone := hstuck j true
  simp only [step, sentStep, hsend] at hnone
  split_ifs at hnone with hresult
  exact Option.isSome_iff_ne_none.mpr hresult

theorem locks_of_idle (hlocked : Locked NUM_MACHINES s)
    (hidle : ∀ l ∈ s.locals, l.phase = .idle) (i : Nat) : s.locks i = none := by
  apply Option.eq_none_iff_forall_ne_some.mpr
  intro t hlock
  obtain ⟨l, batch, hl, hheld⟩ := hlocked.taken i t hlock
  rw [hidle l (List.mem_of_getElem? hl)] at hheld
  cases hheld

/-- Every call of `add_urls` returns: a run has no more turns than its calls bring, and where no
parser and no `flush_async` can go on, all have returned, no lock is held, and what they read is
sent or in the buffers. -/
theorem add_urls_returns {parsers : Nat} {turns : List Turn}
    (h : exec (step NUM_MACHINES ME) turns (initial parsers) = some s) :
    turns.length ≤ total (Turn.turns NUM_MACHINES) turns ∧
      ((∀ t, step NUM_MACHINES ME (.pass t) s = none) →
        (∀ j ok, step NUM_MACHINES ME (.sent j ok) s = none) →
        (∀ l ∈ s.locals, l.phase = .idle) ∧ (∀ send ∈ s.sends, send.result.isSome) ∧
          (∀ i, s.locks i = none) ∧
            ∀ i, (sentTo ME i s).flatten ++ s.buffers i = passedTo i s.passes) := by
  have hkept : ∃ n, Kept NUM_MACHINES ME n s :=
    ⟨_, exec_counts (fun _ _ _ _ ht hstep => kept_step ht hstep) (kept_initial parsers) h⟩
  obtain ⟨n, hkept⟩ := hkept
  have hstart : left NUM_MACHINES (initial parsers) = 0 := by
    have hidle : total (turnsLeft NUM_MACHINES) (initial parsers).locals = 0 :=
      total_eq_zero _ fun l hl => by rw [List.eq_of_mem_replicate hl]; rfl
    unfold left
    rw [hidle]
    rfl
  refine ⟨?_, fun hparsers hsends => ?_⟩
  · have hlength := exec_length_le (left NUM_MACHINES) (Turn.turns NUM_MACHINES)
      (fun _ _ _ ht hstep => parted_step ht hstep) (fun _ _ _ ht hstep => left_step ht hstep)
      (parted_initial parsers) h
    omega
  · have hidle := idle_of_stuck hkept.locked hparsers
    have hlocks := locks_of_idle hkept.locked hidle
    refine ⟨hidle, sent_of_stuck hsends, hlocks, fun i => ?_⟩
    rw [← hkept.inOrder i, inHand_of_free (hlocks i), List.append_nil]

theorem pass_of_idle (hidle : ∀ l ∈ s.locals, l.phase = .idle) (t : Nat) :
    step NUM_MACHINES ME (.pass t) s = none := by
  simp only [step, passStep]
  cases hl : s.locals[t]? with
  | none => rfl
  | some l => simp only [hidle l (List.mem_of_getElem? hl)]

theorem sent_of_done (hdone : ∀ send ∈ s.sends, send.result.isSome) (j : Nat) (ok : Bool) :
    step NUM_MACHINES ME (.sent j ok) s = none := by
  simp only [step, sentStep]
  cases hsend : s.sends[j]? with
  | none => rfl
  | some send =>
    exact if_neg (Option.isSome_iff_ne_none.mp (hdone send (List.mem_of_getElem? hsend)))

theorem two_parsers_return : ∃ s, exec (step 2 1) exampleTurns (initial 2) = some s ∧
    exampleTurns.length = 55 ∧ exampleTurns.length ≤ total (Turn.turns 2) exampleTurns ∧
    (∀ l ∈ s.locals, l.phase = .idle) ∧ (∀ send ∈ s.sends, send.result.isSome) ∧
    (∀ i, s.locks i = none) ∧
      ∀ i, (sentTo 1 i s).flatten ++ s.buffers i = passedTo i s.passes := by
  obtain ⟨s, hs, hend⟩ := Option.map_eq_some_iff.mp exampleTurns_run
  obtain ⟨hphases, hresults⟩ := Prod.mk.inj hend
  have hidle : ∀ l ∈ s.locals, l.phase = .idle := by
    intro l hl
    have hphase := List.mem_map_of_mem (f := LocalUrlBuffer.phase) hl
    rw [hphases] at hphase
    simpa using hphase
  have hdone : ∀ send ∈ s.sends, send.result.isSome := by
    intro send hsend
    have hresult := List.mem_map_of_mem (f := fun send => (send.machineId, send.result)) hsend
    rw [hresults, List.mem_singleton, Prod.mk.injEq] at hresult
    rw [hresult.2]
    rfl
  obtain ⟨hlength, hstuck⟩ := add_urls_returns hs
  exact ⟨s, hs, by decide, hlength, hstuck (pass_of_idle hidle) (sent_of_done hdone)⟩

end Progress

end seamus.url_buffers
