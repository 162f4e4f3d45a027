-- `crawler_worker`: threads that pop targets out of their intervals of the carousel, ask the store
-- what has been crawled, and fetch and parse the rest, beside the feeders of the carousel and the
-- threads that update the store.
import Seamus.DomainCarousel
import Seamus.UrlRewrites

open interleaving seamus.url_store seamus.url_store_workers seamus.domain_carousel
open seamus.url_identity seamus.url_rewrites

namespace seamus.crawler_workers

/-! ## The source functions, cut where threads meet -/

/-- `UrlStore::hasCrawled`, under the mutex of the shard. -/
def hasCrawled (url : Bytes) (s : UrlStore) : Bool :=
  match findUrlData (lowercaseUrl url) s with
  | some data => data.crawled
  | none => false

/-- `UrlStore::markCrawled`, under the mutex of the shard. -/
def markCrawled (url : Bytes) (s : UrlStore) : UrlStore :=
  match findUrlData (lowercaseUrl url) s with
  | some data => setUrlData (lowercaseUrl url) { data with crawled := true } s
  | none => s

/-- The loop of `spawn_crawler_workers`, from `curr_domain_left` on. -/
def intervalsFrom (intervalSize : Nat) : Nat → Nat → List (Nat × Nat)
  | 0, _ => []
  | turns + 1, left =>
    if left + intervalSize - 1 < CRAWLER_CAROUSEL_SIZE then
      (left, left + intervalSize - 1) :: intervalsFrom intervalSize turns (left + intervalSize)
    else []

/-- The bounds of the workers that `spawn_crawler_workers` starts. -/
def intervals : List (Nat × Nat) :=
  intervalsFrom (CRAWLER_CAROUSEL_SIZE / CRAWLER_THREADPOOL_SIZE) CRAWLER_CAROUSEL_SIZE 0

/-- Where a worker is in its loop over the slots. -/
inductive Phase where
  | scanning
  | popped (target : CrawlTarget)
  /-- After `hasCrawled` gave `false`. -/
  | unseen (target : CrawlTarget)
  /-- Before `https_get`. -/
  | allowed (target : CrawlTarget)
  /-- After `https_get`. -/
  | fetched (target : CrawlTarget) (bodyLen : Int)
  | marked (target : CrawlTarget) (bodyLen : Int)

structure Crawler where
  carouselLeft : Nat
  carouselRight : Nat
  carouselIndex : Nat
  phase : Phase

/-- What the workers have done. -/
inductive Event where
  | pop (target : CrawlTarget) (now : TimePoint)
  | get (target : CrawlTarget)
  /-- `markCrawled`, and whether the store has a record of the URL. -/
  | mark (target : CrawlTarget) (known : Bool)
  | parse (target : CrawlTarget)
  deriving DecidableEq

structure System where
  carousel : domain_carousel.System
  store : url_store_workers.System
  crawlers : List Crawler
  history : List Event

def initial (feeders : Nat) (store : url_store_workers.System) : System :=
  ⟨domain_carousel.initial feeders, store,
    intervals.map fun bounds => ⟨bounds.1, bounds.2, bounds.1, .scanning⟩, []⟩

def setCrawler (w : Nat) (c : Crawler) (s : System) : System :=
  { s with crawlers := s.crawlers.set w c }

def addEvent (e : Event) (s : System) : System := { s with history := s.history ++ [e] }

/-- To the next slot. -/
def Crawler.next (c : Crawler) : Crawler :=
  { c with carouselIndex := c.carouselIndex + 1, phase := .scanning }

def isHttps (url : Bytes) : Bool := [104, 116, 116, 112, 115, 58, 47, 47].isPrefixOf url

/-- What the other parts of the program answer to a worker. -/
structure Answers where
  tryLock : Bool
  now : TimePoint
  /-- `checkStatus` gives `ALLOWED`. -/
  isAllowed : Bool
  /-- The result of `https_get`. -/
  bodyLen : Int

/-- A worker at the head of its loop. -/
def scanStep (w : Nat) (c : Crawler) (a : Answers) (s : System) : Option System :=
  if h : c.carouselIndex < CRAWLER_CAROUSEL_SIZE then
    if c.carouselIndex ≤ c.carouselRight then
      (popStep ⟨c.carouselIndex, h⟩ a.tryLock a.now s.carousel).map fun carousel =>
        match carousel.popped.drop s.carousel.popped.length with
        | target :: _ =>
          addEvent (.pop target a.now)
            (setCrawler w { c with phase := .popped target } { s with carousel })
        | [] => setCrawler w c.next { s with carousel }
    else some (setCrawler w { c with carouselIndex := c.carouselLeft } s)
  else some (setCrawler w { c with carouselIndex := c.carouselLeft } s)

def isLocked (url : Bytes) (s : System) : Bool :=
  (s.store.locks (shardOf (lowercaseUrl url))).isSome

/-- The next section of a worker. -/
def crawlerStep (p : Policy) (w : Nat) (a : Answers) (s : System) : Option System :=
  match s.crawlers[w]? with
  | none => none
  | some c =>
    match c.phase with
    | .scanning => scanStep w c a s
    | .popped target =>
      if ¬isHttps target.url ∨ isNsfwUrl p target.url then some (setCrawler w c.next s)
      else if isLocked target.url s then none
      else if hasCrawled target.url s.store.store then some (setCrawler w c.next s)
      else some (setCrawler w { c with phase := .unseen target } s)
    | .unseen target =>
      if a.isAllowed then some (setCrawler w { c with phase := .allowed target } s)
      else some (setCrawler w c.next s)
    | .allowed target =>
      some (addEvent (.get target) (setCrawler w { c with phase := .fetched target a.bodyLen } s))
    | .fetched target bodyLen =>
      if bodyLen = -4 then some (setCrawler w c.next s)
      else if isLocked target.url s then none
      else
        some (addEvent
          (.mark target (findUrlData (lowercaseUrl target.url) s.store.store).isSome)
          (setCrawler w { c with phase := .marked target bodyLen }
            { s with store := { s.store with
                store := markCrawled target.url s.store.store } }))
    | .marked target bodyLen =>
      if 0 < bodyLen ∧ bodyLen < 3 * 1024 then some (setCrawler w c.next s)
      else if 0 < bodyLen then some (addEvent (.parse target) (setCrawler w c.next s))
      else some (setCrawler w c.next s)

inductive Turn where
  /-- A feeder, or whoever enqueues. -/
  | carousel (turn : domain_carousel.Turn)
  /-- A thread that updates the store or persists it. -/
  | store (a : Action)
  | crawl (w : Nat) (a : Answers)

def step (p : Policy) (turn : Turn) (s : System) : Option System :=
  match turn with
  | .carousel (.pop _ _ _) => none
  | .carousel turn => (domain_carousel.step turn s.carousel).map fun carousel => { s with carousel }
  | .store a => (url_store_workers.step p a s.store).map fun store => { s with store }
  | .crawl w a => crawlerStep p w a s

/-! ## What a turn can do -/

inductive Moves (p : Policy) (s : System) : Turn → System → Prop where
  | carousel {turn : domain_carousel.Turn} {carousel : domain_carousel.System}
      (hstep : domain_carousel.step turn s.carousel = some carousel)
      (hpop : ∀ index tryLock now, turn ≠ .pop index tryLock now) :
      Moves p s (.carousel turn) { s with carousel }
  | store {a : Action} {store : url_store_workers.System}
      (hstep : url_store_workers.step p a s.store = some store) :
      Moves p s (.store a) { s with store }
  | pop {w : Nat} {a : Answers} {c : Crawler} {target : CrawlTarget} {targets : List CrawlTarget}
      (hw : s.crawlers[w]? = some c) (hlt : c.carouselIndex < CRAWLER_CAROUSEL_SIZE)
      (hright : c.carouselIndex ≤ c.carouselRight)
      (htargets : s.carousel.carousel[c.carouselIndex].targets = target :: targets)
      (hready : CRAWLER_BACKOFF_SEC ≤
        secondsBetween s.carousel.carousel[c.carouselIndex].requestLastSent a.now)
      (hpop : popStep ⟨c.carouselIndex, hlt⟩ a.tryLock a.now s.carousel =
        some { setSlot ⟨c.carouselIndex, hlt⟩ ⟨targets, a.now⟩ s.carousel with
          popped := s.carousel.popped ++ [target] }) :
      Moves p s (.crawl w a) (addEvent (.pop target a.now)
        (setCrawler w { c with phase := .popped target }
          { s with carousel :=
              { setSlot ⟨c.carouselIndex, hlt⟩ ⟨targets, a.now⟩ s.carousel with
                popped := s.carousel.popped ++ [target] } }))
  | scan {w : Nat} {a : Answers} {c : Crawler} {carouselIndex : Nat}
      (hw : s.crawlers[w]? = some c)
      (hindex : carouselIndex = c.carouselLeft ∨ carouselIndex = c.carouselIndex + 1) :
      Moves p s (.crawl w a) (setCrawler w { c with carouselIndex, phase := .scanning } s)
  | look {w : Nat} {a : Answers} {c : Crawler} {target : CrawlTarget}
      (hw : s.crawlers[w]? = some c) (hphase : c.phase = .popped target)
      (hcrawled : hasCrawled target.url s.store.store = false) :
      Moves p s (.crawl w a) (setCrawler w { c with phase := .unseen target } s)
  | allow {w : Nat} {a : Answers} {c : Crawler} {target : CrawlTarget}
      (hw : s.crawlers[w]? = some c) (hphase : c.phase = .unseen target) :
      Moves p s (.crawl w a) (setCrawler w { c with phase := .allowed target } s)
  | get {w : Nat} {a : Answers} {c : Crawler} {target : CrawlTarget}
      (hw : s.crawlers[w]? = some c) (hphase : c.phase = .allowed target) :
      Moves p s (.crawl w a)
        (addEvent (.get target) (setCrawler w { c with phase := .fetched target a.bodyLen } s))
  | mark {w : Nat} {a : Answers} {c : Crawler} {target : CrawlTarget} {bodyLen : Int}
      (hw : s.crawlers[w]? = some c) (hphase : c.phase = .fetched target bodyLen) :
      Moves p s (.crawl w a) (addEvent
        (.mark target (findUrlData (lowercaseUrl target.url) s.store.store).isSome)
        (setCrawler w { c with phase := .marked target bodyLen }
          { s with store := { s.store with
              store := markCrawled target.url s.store.store } }))
  | parse {w : Nat} {a : Answers} {c : Crawler} {target : CrawlTarget} {bodyLen : Int}
      (hw : s.crawlers[w]? = some c) (hphase : c.phase = .marked target bodyLen) :
      Moves p s (.crawl w a) (addEvent (.parse target) (setCrawler w c.next s))

/-- `dc.carousel[carousel_index]`. -/
def slotAt (index : Fin CRAWLER_CAROUSEL_SIZE) (c : domain_carousel.System) : DomainQueue :=
  getElem c.carousel index index.isLt

theorem popStep_pops {index : Fin CRAWLER_CAROUSEL_SIZE} {tryLock : Bool} {now : TimePoint}
    {s s' : domain_carousel.System} (h : popStep index tryLock now s = some s') :
    s' = s ∨ ∃ target targets, (slotAt index s).targets = target :: targets ∧
      CRAWLER_BACKOFF_SEC ≤ secondsBetween (slotAt index s).requestLastSent now ∧
      s' = { setSlot index ⟨targets, now⟩ s with popped := s.popped ++ [target] } := by
  unfold popStep at h
  cases htargets : s.carousel[index].targets with
  | nil =>
    simp only [htargets] at h
    split_ifs at h <;> exact .inl (Option.some.inj h).symm
  | cons target targets =>
    simp only [htargets] at h
    split_ifs at h with _ _ hready
    · exact .inr ⟨target, targets, htargets, hready, (Option.some.inj h).symm⟩
    · exact .inl (Option.some.inj h).symm
    · exact .inl (Option.some.inj h).symm

section Turns

variable {p : Policy} {s s' : System} {turn : Turn}

theorem scanStep_moves {w : Nat} {c : Crawler} {a : Answers} (hw : s.crawlers[w]? = some c)
    (hphase : c.phase = .scanning) (h : scanStep w c a s = some s') :
    Moves p s (.crawl w a) s' := by
  have hrewind : Moves p s (.crawl w a)
      (setCrawler w { c with carouselIndex := c.carouselLeft } s) := by
    have hscan : Moves p s (.crawl w a)
        (setCrawler w { c with carouselIndex := c.carouselLeft, phase := .scanning } s) :=
      .scan hw (.inl rfl)
    rwa [← hphase] at hscan
  unfold scanStep at h
  split_ifs at h with hlt hright
  · obtain ⟨carousel, hpop, rfl⟩ := Option.map_eq_some_iff.mp h
    rcases popStep_pops hpop with rfl | ⟨target, targets, htargets, hready, rfl⟩
    · rw [List.drop_length]
      exact .scan hw (.inr rfl)
    · have hdrop : (s.carousel.popped ++ [target]).drop s.carousel.popped.length = [target] :=
        List.drop_left
      simp only [hdrop]
      exact .pop hw hlt hright htargets hready hpop
  · cases h
    exact hrewind
  · cases h
    exact hrewind

theorem crawlerStep_moves {w : Nat} {a : Answers} (h : crawlerStep p w a s = some s') :
    Moves p s (.crawl w a) s' := by
  unfold crawlerStep at h
  cases hw : s.crawlers[w]? with
  | none =>
    rw [hw] at h
    cases h
  | some c =>
    have hnext : Moves p s (.crawl w a) (setCrawler w c.next s) := .scan hw (.inr rfl)
    simp only [hw] at h
    cases hphase : c.phase with
    | scanning =>
      simp only [hphase] at h
      exact scanStep_moves hw hphase h
    | popped target =>
      simp only [hphase] at h
      split_ifs at h with _ _ hcrawled <;> cases h
      · exact hnext
      · exact hnext
      · exact .look hw hphase (Bool.eq_false_iff.mpr hcrawled)
    | unseen target =>
      simp only [hphase] at h
      split_ifs at h <;> cases h
      · exact .allow hw hphase
      · exact hnext
    | allowed target =>
      simp only [hphase] at h
      cases h
      exact .get hw hphase
    | fetched target bodyLen =>
      simp only [hphase] at h
      split_ifs at h <;> cases h
      · exact hnext
      · exact .mark hw hphase
    | marked target bodyLen =>
      simp only [hphase] at h
      split_ifs at h <;> cases h
      · exact hnext
      · exact .parse hw hphase
      · exact hnext

theorem step_moves (h : step p turn s = some s') : Moves p s turn s' := by
  cases turn with
  | carousel turn =>
    cases turn with
    | pop index tryLock now => cases h
    | _ =>
      obtain ⟨carousel, hstep, rfl⟩ := Option.map_eq_some_iff.mp h
      exact .carousel hstep (fun _ _ _ heq => nomatch heq)
  | store a =>
    obtain ⟨store, hstep, rfl⟩ := Option.map_eq_some_iff.mp h
    exact .store hstep
  | crawl w a => exact crawlerStep_moves h

end Turns

/-! ## Who has a slot -/

theorem intervals_eq : intervals = (List.range 256).map fun w => (16 * w, 16 * w + 15) := by
  decide +kernel

theorem bounds_of_interval {w left right : Nat} (h : intervals[w]? = some (left, right)) :
    w < 256 ∧ left = 16 * w ∧ right = 16 * w + 15 := by
  rw [intervals_eq, List.getElem?_map] at h
  obtain ⟨v, hv, heq⟩ := Option.map_eq_some_iff.mp h
  obtain ⟨hlt, rfl⟩ := List.getElem?_eq_some_iff.mp hv
  rw [List.getElem_range] at heq
  rw [List.length_range] at hlt
  cases heq
  exact ⟨hlt, rfl, rfl⟩

/-- Every slot is in the interval of one worker. -/
theorem exists_interval {index : Nat} (h : index < CRAWLER_CAROUSEL_SIZE) :
    ∃ left right, intervals[index / 16]? = some (left, right) ∧ left ≤ index ∧ index ≤ right := by
  have hlt : index / 16 < 256 := by
    unfold CRAWLER_CAROUSEL_SIZE CRAWLER_THREADPOOL_SIZE at h
    omega
  refine ⟨16 * (index / 16), 16 * (index / 16) + 15, ?_, by omega, by omega⟩
  rw [intervals_eq, List.getElem?_map, List.getElem?_range hlt]
  rfl

/-! ## What the store remembers -/

def crawledAt (url : Bytes) (s : UrlStore) : Bool :=
  match findUrlData url s with
  | some data => data.crawled
  | none => false

theorem crawledAt_setUrlData (url other : Bytes) (data : UrlData) (s : UrlStore) :
    crawledAt other (setUrlData url data s) =
      if other = url then data.crawled else crawledAt other s := by
  unfold crawledAt
  split_ifs with h
  · rw [h, findUrlData_setUrlData]
  · rw [findUrlData_setUrlData_of_ne data s h]

/-- A record that is written with the mark that it had. -/
theorem crawledAt_rewrite {url : Bytes} {data : UrlData} {s : UrlStore}
    (h : data.crawled = crawledAt url s) (other : Bytes) :
    crawledAt other (setUrlData url data s) = crawledAt other s := by
  rw [crawledAt_setUrlData]
  split_ifs with heq
  · rw [h, heq]
  · rfl

theorem crawled_getD (url : Bytes) (s : UrlStore) :
    ((findUrlData url s).getD newUrlData).crawled = crawledAt url s := by
  unfold crawledAt
  cases findUrlData url s <;> rfl

theorem crawledAt_addAnchor (isNew : Bool) (url : Bytes) (s : UrlStore) (text other : Bytes) :
    crawledAt other (addAnchor isNew url s text) = crawledAt other s := by
  unfold addAnchor
  simp only
  split_ifs
  · rfl
  · refine (crawledAt_rewrite ?_ other).trans rfl
    unfold countAnchor
    exact crawled_getD url _

/-- A call of `updateUrl` neither marks a URL nor forgets a mark, in any of its sections. -/
theorem crawledAt_turn {p : Policy} {i : Nat} {s s' : url_store_workers.System}
    (h : url_store_workers.Turn p i s s') (url : Bytes) :
    crawledAt url s'.store = crawledAt url s.store := by
  cases h with
  | @known w calls caller r data hw hn hfree hfind =>
    refine (crawledAt_rewrite ?_ url).trans rfl
    unfold crawledAt
    rw [findUrlData_seen, hfind]
    rfl
  | @insert calls caller r hw hfind =>
    refine (crawledAt_rewrite ?_ url).trans rfl
    unfold crawledAt
    rw [findUrlData_mk, hfind]
    rfl
  | anchor hw => exact crawledAt_addAnchor _ _ _ _ url
  | _ => rfl

theorem crawledAt_step {p : Policy} {a : Action} {s s' : url_store_workers.System}
    (h : url_store_workers.step p a s = some s') (url : Bytes) :
    crawledAt url s'.store = crawledAt url s.store := by
  rcases url_store_workers.step_cases h with ⟨i, _, hturn⟩ | ⟨hstore, _⟩
  · exact crawledAt_turn hturn url
  · rw [hstore]

/-- A mark is kept for the URLs that the store knows. -/
theorem crawledAt_markCrawled (url other : Bytes) (s : UrlStore) :
    crawledAt other (markCrawled url s) =
      if other = lowercaseUrl url ∧ (findUrlData (lowercaseUrl url) s).isSome then true
      else crawledAt other s := by
  unfold markCrawled
  cases hfind : findUrlData (lowercaseUrl url) s with
  | none => simp
  | some data =>
    simp only [Option.isSome_some, and_true]
    exact crawledAt_setUrlData _ _ _ _

/-! ## Where the targets are -/

/-- A target stands under the domain of its URL in lower case. -/
def IsProper (target : CrawlTarget) : Prop :=
  target.domain = extractDomain (lowercaseUrl target.url)

theorem domainIndex_of_proper {t t' : CrawlTarget} (ht : IsProper t) (ht' : IsProper t')
    (h : lowercaseUrl t.url = lowercaseUrl t'.url) : domainIndex t = domainIndex t' := by
  have hdomain : t.domain = t'.domain := by
    rw [ht, ht', h]
  exact Fin.ext (congrArg (fun d => (hashDomain d).toNat % CRAWLER_CAROUSEL_SIZE) hdomain)

def Turn.IsProper : Turn → Prop
  | .carousel (.enqueue _ target) => crawler_workers.IsProper target
  | _ => True

def Phase.target : Phase → Option CrawlTarget
  | .scanning => none
  | .popped target | .unseen target | .allowed target => some target
  | .fetched target _ | .marked target _ => some target

/-- The target that a worker has found unseen and not yet marked. -/
def Phase.wanted : Phase → Option CrawlTarget
  | .unseen target | .allowed target => some target
  | .fetched target _ => some target
  | _ => none

theorem Phase.target_of_wanted {phase : Phase} {target : CrawlTarget}
    (h : phase.wanted = some target) : phase.target = some target := by
  cases phase <;> first | exact h | cases h

def Crawler.bounds (c : Crawler) : Nat × Nat := (c.carouselLeft, c.carouselRight)

/-- What a worker has is out of its own interval. -/
structure Crawler.Holds (c : Crawler) : Prop where
  index : c.carouselLeft ≤ c.carouselIndex
  target : ∀ target, c.phase.target = some target → IsProper target ∧
    c.carouselLeft ≤ domainIndex target ∧ domainIndex target ≤ c.carouselRight

structure Layout (s : System) : Prop where
  slots : SlotsFit s.carousel
  proper : ∀ target ∈ held s.carousel, IsProper target
  bounds : s.crawlers.map Crawler.bounds = intervals
  crawlers : ∀ (w : Nat) (c : Crawler), s.crawlers[w]? = some c → c.Holds

theorem Crawler.Holds.keep {c : Crawler} (h : c.Holds) {phase phase' : Phase} {target : CrawlTarget}
    (hphase : c.phase = phase) (htarget : phase.target = some target)
    (htarget' : phase'.target = some target) : ({ c with phase := phase' } : Crawler).Holds where
  index := h.index
  target t ht := by
    rw [htarget'] at ht
    cases ht
    exact h.target target (hphase ▸ htarget)

section LayoutTurns

variable {p : Policy} {s s' : System} {turn : Turn}

theorem bounds_set {w : Nat} {c c' : Crawler} (hw : s.crawlers[w]? = some c)
    (hbounds : c'.bounds = c.bounds) :
    (s.crawlers.set w c').map Crawler.bounds = s.crawlers.map Crawler.bounds := by
  obtain ⟨hlt, rfl⟩ := List.getElem?_eq_some_iff.mp hw
  rw [List.map_set, hbounds, ← List.map_set, List.set_getElem_self]

theorem Layout.set (h : Layout s) {w : Nat} {c c' : Crawler} (hw : s.crawlers[w]? = some c)
    (hbounds : c'.bounds = c.bounds) (hholds : c'.Holds) : Layout (setCrawler w c' s) := by
  refine ⟨h.slots, h.proper, ?_, fun v q hv => ?_⟩
  · exact (bounds_set hw hbounds).trans h.bounds
  · exact holds_set hholds (fun j q _ hold => h.crawlers j q hold) v q hv

/-- A worker goes on with its target. -/
theorem Layout.goOn (h : Layout s) {w : Nat} {c : Crawler} {phase phase' : Phase}
    {target : CrawlTarget} (hw : s.crawlers[w]? = some c) (hphase : c.phase = phase)
    (htarget : phase.target = some target) (htarget' : phase'.target = some target) :
    Layout (setCrawler w { c with phase := phase' } s) :=
  h.set hw rfl ((h.crawlers w c hw).keep hphase htarget htarget')

theorem Layout.event (h : Layout s) (e : Event) : Layout (addEvent e s) :=
  ⟨h.slots, h.proper, h.bounds, h.crawlers⟩

theorem Layout.popped (h : Layout s) {w : Nat} {a : Answers} {c : Crawler} {target : CrawlTarget}
    {targets : List CrawlTarget} (hw : s.crawlers[w]? = some c)
    (hlt : c.carouselIndex < CRAWLER_CAROUSEL_SIZE) (hright : c.carouselIndex ≤ c.carouselRight)
    (htargets : s.carousel.carousel[c.carouselIndex].targets = target :: targets)
    (hpop : popStep ⟨c.carouselIndex, hlt⟩ a.tryLock a.now s.carousel =
      some { setSlot ⟨c.carouselIndex, hlt⟩ ⟨targets, a.now⟩ s.carousel with
        popped := s.carousel.popped ++ [target] }) :
    Layout (setCrawler w { c with phase := .popped target }
      { s with carousel :=
          { setSlot ⟨c.carouselIndex, hlt⟩ ⟨targets, a.now⟩ s.carousel with
            popped := s.carousel.popped ++ [target] } }) := by
  have hheld := popStep_held hpop
  have hproper : IsProper target := by
    apply h.proper
    rw [← hheld]
    unfold held
    simp
  have hindex : domainIndex target = ⟨c.carouselIndex, hlt⟩ := by
    apply (h.slots ⟨c.carouselIndex, hlt⟩).2 target
    change target ∈ s.carousel.carousel[c.carouselIndex].targets
    rw [htargets]
    exact List.mem_cons_self
  have hold := h.crawlers w c hw
  have hbase : Layout { s with carousel :=
      { setSlot ⟨c.carouselIndex, hlt⟩ ⟨targets, a.now⟩ s.carousel with
        popped := s.carousel.popped ++ [target] } } := by
    refine ⟨popStep_slotsFit hpop h.slots, fun t ht => ?_, h.bounds, h.crawlers⟩
    rw [hheld] at ht
    exact h.proper t ht
  refine hbase.set hw rfl ⟨hold.index, fun t ht => ?_⟩
  cases ht
  refine ⟨hproper, ?_, ?_⟩
  · rw [hindex]
    exact hold.index
  · rw [hindex]
    exact hright

theorem layout_step (h : Layout s) (hturn : turn.IsProper) (hstep : step p turn s = some s') :
    Layout s' := by
  cases step_moves hstep with
  | @carousel turn carousel hcarousel hpop =>
    refine ⟨step_slotsFit _ _ _ h.slots hcarousel, fun target htarget => ?_, h.bounds, h.crawlers⟩
    rw [step_held _ _ _ hcarousel, Multiset.mem_add] at htarget
    rcases htarget with hnew | hold
    · cases turn with
      | enqueue plevel target' =>
        rw [Multiset.mem_singleton.mp hnew]
        exact hturn
      | _ => exact absurd hnew (Multiset.notMem_zero _)
    · exact h.proper target hold
  | store => exact ⟨h.slots, h.proper, h.bounds, h.crawlers⟩
  | pop hw hlt hright htargets hready hpop =>
    exact (h.popped hw hlt hright htargets hpop).event _
  | @scan w a c carouselIndex hw hindex =>
    refine h.set hw rfl ⟨?_, fun t ht => nomatch ht⟩
    have hold := (h.crawlers w c hw).index
    simp only
    omega
  | look hw hphase => exact h.goOn hw hphase rfl rfl
  | allow hw hphase => exact h.goOn hw hphase rfl rfl
  | get hw hphase => exact (h.goOn hw hphase rfl rfl).event _
  | @mark w a c target bodyLen hw hphase =>
    have hset : Layout (setCrawler w { c with phase := .marked target bodyLen } s) :=
      h.goOn hw hphase rfl rfl
    exact ⟨hset.slots, hset.proper, hset.bounds, hset.crawlers⟩
  | @parse w a c target bodyLen hw hphase =>
    have hnext : c.next.Holds :=
      ⟨Nat.le_succ_of_le (h.crawlers w c hw).index, fun t ht => nomatch ht⟩
    have hset : Layout (setCrawler w c.next s) := h.set hw rfl hnext
    exact hset.event _

/-- Two workers that have targets of one URL are one worker. -/
theorem Layout.one_worker (h : Layout s) {w w' : Nat} {c c' : Crawler} {t t' : CrawlTarget}
    (hw : s.crawlers[w]? = some c) (hw' : s.crawlers[w']? = some c')
    (ht : c.phase.target = some t) (ht' : c'.phase.target = some t')
    (hurl : lowercaseUrl t.url = lowercaseUrl t'.url) : w = w' := by
  have hbounds : ∀ (v : Nat) (q : Crawler), s.crawlers[v]? = some q →
      intervals[v]? = some (q.carouselLeft, q.carouselRight) := by
    intro v q hv
    rw [← h.bounds, List.getElem?_map, hv]
    rfl
  obtain ⟨_, hleft, hright⟩ := bounds_of_interval (hbounds w c hw)
  obtain ⟨_, hleft', hright'⟩ := bounds_of_interval (hbounds w' c' hw')
  obtain ⟨hproper, hge, hle⟩ := (h.crawlers w c hw).target t ht
  obtain ⟨hproper', hge', hle'⟩ := (h.crawlers w' c' hw').target t' ht'
  rw [domainIndex_of_proper hproper hproper' hurl] at hge hle
  omega

end LayoutTurns

/-! ## What has been crawled -/

def Event.isParseOf (url : Bytes) : Event → Bool
  | .parse t => lowercaseUrl t.url = url
  | _ => false

def Event.isMarkOf (url : Bytes) : Event → Bool
  | .mark t _ => lowercaseUrl t.url = url
  | _ => false

/-- A mark that the store has a record for. -/
def Event.isKnownMarkOf (url : Bytes) : Event → Bool
  | .mark t known => known && lowercaseUrl t.url = url
  | _ => false

/-- A mark that nothing remembers. -/
def Event.isLostMarkOf (url : Bytes) : Event → Bool
  | .mark t known => !known && lowercaseUrl t.url = url
  | _ => false

/-- A fetch or a mark. -/
def Event.isVisitOf (url : Bytes) : Event → Bool
  | .get t | .mark t _ => lowercaseUrl t.url = url
  | _ => false

/-- Between the mark and the parse. -/
def Phase.toParse (url : Bytes) : Phase → Nat
  | .marked t _ => if lowercaseUrl t.url = url then 1 else 0
  | _ => 0

def toParse (url : Bytes) (c : Crawler) : Nat := c.phase.toParse url

/-- No visit after a mark that is remembered. -/
def LastVisit (e later : Event) : Prop := ∀ url, e.isKnownMarkOf url = true → later.isVisitOf url = false

/-- What has happened from the mark of a URL that is remembered on. -/
def sinceMark (url : Bytes) (history : List Event) : List Event :=
  history.dropWhile fun e => !e.isKnownMarkOf url

structure Memory (start : UrlStore) (s : System) : Prop where
  /-- Nobody is on the way to a URL that is marked. -/
  quiet : ∀ (w : Nat) (c : Crawler), s.crawlers[w]? = some c → ∀ t, c.phase.wanted = some t →
    crawledAt (lowercaseUrl t.url) s.store.store = false
  marks : ∀ e ∈ s.history, ∀ url, e.isKnownMarkOf url = true → crawledAt url s.store.store = true
  before : ∀ url, crawledAt url start = true →
    crawledAt url s.store.store = true ∧ ∀ e ∈ s.history, e.isVisitOf url = false
  once : s.history.Pairwise LastVisit
  parses : ∀ url, s.history.countP (Event.isParseOf url) +
    total (toParse url) s.crawlers ≤ s.history.countP (Event.isMarkOf url)
  /-- The mark that is remembered is followed by one parse at most. -/
  lastParse : ∀ url, (sinceMark url s.history).countP (Event.isParseOf url) +
    total (toParse url) s.crawlers ≤ 1

theorem sinceMark_eq_nil {url : Bytes} {history : List Event}
    (h : ∀ e ∈ history, e.isKnownMarkOf url = false) : sinceMark url history = [] := by
  refine List.dropWhile_eq_nil_iff.mpr fun e he => ?_
  rw [h e he]
  rfl

theorem countP_sinceMark (url : Bytes) (history : List Event) (e : Event) :
    (sinceMark url (history ++ [e])).countP (Event.isParseOf url) ≤
      (sinceMark url history).countP (Event.isParseOf url) +
        if e.isParseOf url = true then 1 else 0 := by
  unfold sinceMark
  rw [List.dropWhile_append]
  split
  · have hlast : ([e].dropWhile fun e => !e.isKnownMarkOf url).countP (Event.isParseOf url) ≤
        [e].countP (Event.isParseOf url) := (List.dropWhile_sublist _).countP_le
    rw [List.countP_singleton] at hlast
    exact hlast.trans (Nat.le_add_left _ _)
  · rw [List.countP_append, List.countP_singleton]

section MemoryTurns

variable {p : Policy} {start : UrlStore} {s s' : System} {turn : Turn}

theorem Memory.set (h : Memory start s) {w : Nat} {c c' : Crawler} (hw : s.crawlers[w]? = some c)
    (hquiet : ∀ t, c'.phase.wanted = some t → crawledAt (lowercaseUrl t.url) s.store.store = false)
    (hparse : ∀ url, toParse url c' ≤ toParse url c) : Memory start (setCrawler w c' s) := by
  have hset (url : Bytes) : total (toParse url) (s.crawlers.set w c') ≤
      total (toParse url) s.crawlers := by
    have hone := total_set (toParse url) c' hw
    have hle := hparse url
    omega
  refine ⟨fun v q hv => ?_, h.marks, h.before, h.once, fun url => ?_, fun url => ?_⟩
  · exact holds_set hquiet (fun j q _ hold => h.quiet j q hold) v q hv
  · exact (Nat.add_le_add_left (hset url) _).trans (h.parses url)
  · exact (Nat.add_le_add_left (hset url) _).trans (h.lastParse url)

/-- The new event comes after all others. -/
theorem once_append {history : List Event} (h : history.Pairwise LastVisit) {e : Event}
    (hlast : ∀ old ∈ history, LastVisit old e) : (history ++ [e]).Pairwise LastVisit := by
  refine List.pairwise_append.mpr ⟨h, List.pairwise_singleton _ _, fun old hold new hnew => ?_⟩
  rw [List.mem_singleton.mp hnew]
  exact hlast old hold

/-- An event that is no mark, and no visit of a URL that is marked. -/
theorem Memory.event (h : Memory start s) {e : Event}
    (hmark : ∀ url, e.isKnownMarkOf url = false)
    (hvisit : ∀ url, e.isVisitOf url = true → crawledAt url s.store.store = false)
    (hparse : ∀ url, e.isParseOf url = false) : Memory start (addEvent e s) := by
  have hunmarked : ∀ url, crawledAt url s.store.store = true → e.isVisitOf url = false := by
    intro url hcrawled
    by_contra hvisits
    rw [hvisit url (Bool.not_eq_false _ ▸ hvisits)] at hcrawled
    cases hcrawled
  refine ⟨h.quiet, fun old hold url hurl => ?_, fun url hurl => ?_, ?_, fun url => ?_,
    fun url => ?_⟩
  · rcases List.mem_append.mp hold with hold | hnew
    · exact h.marks old hold url hurl
    · rw [List.mem_singleton.mp hnew, hmark url] at hurl
      cases hurl
  · obtain ⟨hcrawled, hold⟩ := h.before url hurl
    refine ⟨hcrawled, fun e' he' => ?_⟩
    rcases List.mem_append.mp he' with he' | hnew
    · exact hold e' he'
    · rw [List.mem_singleton.mp hnew]
      exact hunmarked url hcrawled
  · exact once_append h.once fun old hold url hurl => hunmarked url (h.marks old hold url hurl)
  · have hall := h.parses url
    unfold addEvent
    simp only [List.countP_append, List.countP_singleton, hparse url, Bool.false_eq_true, if_false]
    omega
  · have hlast := countP_sinceMark url s.history e
    rw [if_neg (by rw [hparse url]; exact Bool.false_ne_true)] at hlast
    exact (Nat.add_le_add_right hlast _).trans (h.lastParse url)

/-- A page that is parsed is to be parsed no more. -/
theorem total_parsed {w : Nat} {c : Crawler} {target : CrawlTarget} {bodyLen : Int}
    (hw : s.crawlers[w]? = some c) (hphase : c.phase = .marked target bodyLen) (url : Bytes) :
    total (toParse url) (s.crawlers.set w c.next) +
      (if lowercaseUrl target.url = url then 1 else 0) = total (toParse url) s.crawlers := by
  have hset : total (toParse url) (s.crawlers.set w c.next) + toParse url c =
      total (toParse url) s.crawlers + toParse url c.next := total_set (toParse url) c.next hw
  have hnext : toParse url c.next = 0 := rfl
  have hdone : toParse url c = if lowercaseUrl target.url = url then 1 else 0 := by
    unfold toParse
    rw [hphase]
    rfl
  rw [← hdone]
  omega

theorem Memory.parsed (h : Memory start s) {w : Nat} {c : Crawler} {target : CrawlTarget}
    {bodyLen : Int} (hw : s.crawlers[w]? = some c) (hphase : c.phase = .marked target bodyLen) :
    Memory start (addEvent (.parse target) (setCrawler w c.next s)) := by
  refine ⟨fun v q hv => ?_, fun old hold url hurl => ?_, fun url hurl => ?_, ?_, fun url => ?_,
    fun url => ?_⟩
  · exact holds_set (fun t ht => nomatch ht) (fun j q _ hold => h.quiet j q hold) v q hv
  · rcases List.mem_append.mp hold with hold | hnew
    · exact h.marks old hold url hurl
    · rw [List.mem_singleton.mp hnew] at hurl
      cases hurl
  · obtain ⟨hcrawled, hold⟩ := h.before url hurl
    refine ⟨hcrawled, fun e' he' => ?_⟩
    rcases List.mem_append.mp he' with he' | hnew
    · exact hold e' he'
    · rw [List.mem_singleton.mp hnew]
      rfl
  · exact once_append h.once fun _ _ _ _ => rfl
  · have hall := h.parses url
    have hown := total_parsed hw hphase url
    unfold addEvent setCrawler
    simp only [List.countP_append, List.countP_singleton, Event.isParseOf, Event.isMarkOf,
      decide_eq_true_eq, Bool.false_eq_true, if_false]
    omega
  · have hall := h.lastParse url
    have hown := total_parsed hw hphase url
    have hlast := countP_sinceMark url s.history (.parse target)
    have hone : (if Event.isParseOf url (.parse target) = true then 1 else 0) =
        if lowercaseUrl target.url = url then 1 else 0 := by simp [Event.isParseOf]
    rw [hone] at hlast
    change (sinceMark url (s.history ++ [.parse target])).countP (Event.isParseOf url) +
      total (toParse url) (s.crawlers.set w c.next) ≤ 1
    omega

/-- While a worker has a target that it has not marked, no other page of the URL is about to be
parsed. -/
theorem Layout.toParse_eq_zero (h : Layout s) {w : Nat} {c : Crawler} {target : CrawlTarget}
    (hw : s.crawlers[w]? = some c) (htarget : c.phase.target = some target)
    (hidle : toParse (lowercaseUrl target.url) c = 0) :
    total (toParse (lowercaseUrl target.url)) s.crawlers = 0 := by
  refine total_eq_zero _ fun q hq => ?_
  obtain ⟨v, hv⟩ := List.mem_iff_getElem?.mp hq
  by_contra hpos
  cases hphase : q.phase with
  | marked t bodyLen =>
    unfold toParse at hpos
    rw [hphase] at hpos
    simp only [Phase.toParse] at hpos
    split_ifs at hpos with hurl
    · have hsame : v = w := h.one_worker hv hw (by rw [hphase]; rfl) htarget hurl
      subst hsame
      cases hw.symm.trans hv
      unfold toParse at hidle
      rw [hphase] at hidle
      simp [Phase.toParse, hurl] at hidle
    · exact hpos rfl
  | _ =>
    unfold toParse at hpos
    rw [hphase] at hpos
    exact hpos rfl

/-- A target that a worker still asks about is not marked. -/
theorem Memory.unmarked (h : Memory start s) {w : Nat} {c : Crawler} {target : CrawlTarget}
    (hw : s.crawlers[w]? = some c) (hwanted : c.phase.wanted = some target) :
    ∀ url, crawledAt url s.store.store = true → lowercaseUrl target.url ≠ url := by
  rintro url hurl rfl
  rw [h.quiet w c hw target hwanted] at hurl
  cases hurl

/-- A page that is marked is to be parsed by the worker. -/
theorem total_marked {w : Nat} {c : Crawler} {target : CrawlTarget} {bodyLen : Int}
    (hw : s.crawlers[w]? = some c) (hphase : c.phase = .fetched target bodyLen) (url : Bytes) :
    total (toParse url) (s.crawlers.set w { c with phase := .marked target bodyLen }) =
      total (toParse url) s.crawlers + if lowercaseUrl target.url = url then 1 else 0 := by
  have hset : total (toParse url) (s.crawlers.set w { c with phase := .marked target bodyLen }) +
      toParse url c = total (toParse url) s.crawlers +
        toParse url { c with phase := .marked target bodyLen } := total_set (toParse url) _ hw
  have hold : toParse url c = 0 := by
    unfold toParse
    rw [hphase]
    rfl
  have hnew : toParse url { c with phase := .marked target bodyLen } =
      if lowercaseUrl target.url = url then 1 else 0 := rfl
  rw [← hnew]
  omega

/-- A mark that is remembered is the first one of its URL, and nobody but the worker that made it is
about to parse the page. -/
theorem Memory.lastParse_marked (h : Memory start s) (hlayout : Layout s) {w : Nat} {c : Crawler}
    {target : CrawlTarget} {bodyLen : Int} (hw : s.crawlers[w]? = some c)
    (hphase : c.phase = .fetched target bodyLen) (known : Bool) (url : Bytes) :
    (sinceMark url (s.history ++ [.mark target known])).countP (Event.isParseOf url) +
      total (toParse url) (s.crawlers.set w { c with phase := .marked target bodyLen }) ≤ 1 := by
  have hown := total_marked hw hphase url
  have hlast := countP_sinceMark url s.history (.mark target known)
  have hall := h.lastParse url
  rw [if_neg (by simp [Event.isParseOf])] at hlast
  split_ifs at hown with hurl
  · subst hurl
    have hunmarked : sinceMark (lowercaseUrl target.url) s.history = [] := by
      refine sinceMark_eq_nil fun e he => ?_
      by_contra hknown
      have hcrawled := h.marks e he _ (Bool.not_eq_false _ ▸ hknown)
      exact h.unmarked hw (by rw [hphase]; rfl) _ hcrawled rfl
    have hnobody := hlayout.toParse_eq_zero hw (by rw [hphase]; rfl)
      (by unfold toParse; rw [hphase]; rfl)
    rw [hunmarked, List.countP_nil] at hlast
    omega
  · omega

theorem Memory.marked (h : Memory start s) (hlayout : Layout s) {w : Nat} {c : Crawler}
    {target : CrawlTarget} {bodyLen : Int} (hw : s.crawlers[w]? = some c)
    (hphase : c.phase = .fetched target bodyLen) :
    Memory start (addEvent
      (.mark target (findUrlData (lowercaseUrl target.url) s.store.store).isSome)
      (setCrawler w { c with phase := .marked target bodyLen }
        { s with store := { s.store with store := markCrawled target.url s.store.store } })) := by
  have hfresh : crawledAt (lowercaseUrl target.url) s.store.store = false :=
    h.quiet w c hw target (by rw [hphase]; rfl)
  have hkeeps : ∀ url, crawledAt url s.store.store = true →
      crawledAt url (markCrawled target.url s.store.store) = true := by
    intro url hurl
    rw [crawledAt_markCrawled]
    split_ifs
    · rfl
    · exact hurl
  have hother := h.unmarked hw (show c.phase.wanted = some target by rw [hphase]; rfl)
  let Quiet (q : Crawler) : Prop := ∀ t, q.phase.wanted = some t →
    crawledAt (lowercaseUrl t.url) (markCrawled target.url s.store.store) = false
  refine ⟨fun v q hv => ?_, fun old hold url hurl => ?_, fun url hurl => ?_, ?_, fun url => ?_,
    fun url => ?_⟩
  · have hown : Quiet { c with phase := .marked target bodyLen } := fun t ht => nomatch ht
    refine @holds_set Crawler Quiet _ w _ hown (fun j q hne hold t ht => ?_) v q hv
    have hquiet := h.quiet j q hold t ht
    refine (crawledAt_markCrawled _ _ _).trans ?_
    rw [if_neg, hquiet]
    rintro ⟨hurl, _⟩
    exact hne (hlayout.one_worker hold hw (Phase.target_of_wanted ht) (by rw [hphase]; rfl) hurl)
  · rcases List.mem_append.mp hold with hold | hnew
    · exact hkeeps url (h.marks old hold url hurl)
    · rw [List.mem_singleton.mp hnew] at hurl
      simp only [Event.isKnownMarkOf, Bool.and_eq_true, decide_eq_true_eq] at hurl
      refine (crawledAt_markCrawled _ _ _).trans (if_pos ⟨hurl.2.symm, hurl.1⟩)
  · obtain ⟨hcrawled, hold⟩ := h.before url hurl
    refine ⟨hkeeps url hcrawled, fun e' he' => ?_⟩
    rcases List.mem_append.mp he' with he' | hnew
    · exact hold e' he'
    · rw [List.mem_singleton.mp hnew]
      exact decide_eq_false (hother url hcrawled)
  · exact once_append h.once fun old hold url hurl =>
      decide_eq_false (hother url (h.marks old hold url hurl))
  · have hall := h.parses url
    have hown := total_marked hw hphase url
    unfold addEvent setCrawler
    simp only [List.countP_append, List.countP_singleton, Event.isParseOf, Event.isMarkOf,
      decide_eq_true_eq, Bool.false_eq_true, if_false]
    omega
  · exact h.lastParse_marked hlayout hw hphase _ url

theorem memory_step (h : Memory start s) (hlayout : Layout s) (hstep : step p turn s = some s') :
    Memory start s' := by
  cases step_moves hstep with
  | carousel => exact ⟨h.quiet, h.marks, h.before, h.once, h.parses, h.lastParse⟩
  | store hstore =>
    have hsame := crawledAt_step hstore
    refine ⟨fun w c hw t ht => ?_, fun e he url hurl => ?_, fun url hurl => ?_, h.once, h.parses,
      h.lastParse⟩
    · exact (hsame _).trans (h.quiet w c hw t ht)
    · exact (hsame _).trans (h.marks e he url hurl)
    · exact ⟨(hsame _).trans (h.before url hurl).1, (h.before url hurl).2⟩
  | @pop w a c target targets hw hlt hright htargets hready hpop =>
    have hset : Memory start (setCrawler w { c with phase := .popped target } s) :=
      h.set hw (fun t ht => nomatch ht) (fun url => Nat.zero_le _)
    have hevent : Memory start (addEvent (.pop target a.now)
        (setCrawler w { c with phase := .popped target } s)) :=
      hset.event (fun url => rfl) (fun url hurl => nomatch hurl) (fun url => rfl)
    exact ⟨hevent.quiet, hevent.marks, hevent.before, hevent.once, hevent.parses, hevent.lastParse⟩
  | scan hw hindex => exact h.set hw (fun t ht => nomatch ht) (fun url => Nat.zero_le _)
  | @look w a c target hw hphase hcrawled =>
    refine h.set hw (fun t ht => ?_) (fun url => Nat.zero_le _)
    cases ht
    exact hcrawled
  | @allow w a c target hw hphase =>
    refine h.set hw (fun t ht => ?_) (fun url => Nat.zero_le _)
    cases ht
    exact h.quiet w c hw target (by rw [hphase]; rfl)
  | @get w a c target hw hphase =>
    have hfresh := h.quiet w c hw target (by rw [hphase]; rfl)
    have hset : Memory start (setCrawler w { c with phase := .fetched target a.bodyLen } s) :=
      h.set hw (fun t ht => by cases ht; exact hfresh) (fun url => Nat.zero_le _)
    refine hset.event (fun url => rfl) (fun url hurl => ?_) (fun url => rfl)
    rw [← of_decide_eq_true hurl]
    exact hfresh
  | mark hw hphase => exact h.marked hlayout hw hphase
  | parse hw hphase => exact h.parsed hw hphase

end MemoryTurns

theorem map_bounds (all : List (Nat × Nat)) :
    (all.map fun bounds => (⟨bounds.1, bounds.2, bounds.1, .scanning⟩ : Crawler)).map
      Crawler.bounds = all := by
  rw [List.map_map]
  exact List.map_id _

theorem layout_initial (feeders : Nat) (store : url_store_workers.System) :
    Layout (initial feeders store) := by
  have hnone : held (initial feeders store).carousel = 0 := held_initial feeders
  refine ⟨slotsFit_initial feeders, ?_, map_bounds intervals, fun w c hw => ?_⟩
  · rw [hnone]
    exact fun target htarget => absurd htarget (Multiset.notMem_zero target)
  · obtain ⟨_, _, rfl⟩ := List.mem_map.mp (List.mem_of_getElem? hw)
    exact ⟨Nat.le_refl _, fun t ht => nomatch ht⟩

theorem memory_initial (feeders : Nat) (store : url_store_workers.System) :
    Memory store.store (initial feeders store) := by
  have hidle : ∀ c ∈ (initial feeders store).crawlers, c.phase = .scanning := by
    intro c hc
    obtain ⟨_, _, rfl⟩ := List.mem_map.mp hc
    rfl
  have hzero (url : Bytes) : total (toParse url) (initial feeders store).crawlers = 0 := by
    refine total_eq_zero _ fun c hc => ?_
    unfold toParse
    rw [hidle c hc]
    rfl
  refine ⟨fun w c hw t ht => ?_, fun e he => absurd he List.not_mem_nil,
    fun url hurl => ⟨hurl, fun e he => absurd he List.not_mem_nil⟩, List.Pairwise.nil, fun url => ?_,
    fun url => ?_⟩
  · rw [hidle c (List.mem_of_getElem? hw)] at ht
    cases ht
  · rw [hzero]
    exact Nat.le_refl 0
  · rw [hzero]
    exact Nat.zero_le 1

theorem knownMarks_le_one {history : List Event} (h : history.Pairwise LastVisit) (url : Bytes) :
    history.countP (Event.isKnownMarkOf url) ≤ 1 := by
  induction h with
  | nil => exact Nat.zero_le 1
  | @cons e history hlast _ ih =>
    rw [List.countP_cons]
    split_ifs with hmark
    · have hnone : history.countP (Event.isKnownMarkOf url) = 0 := by
        refine List.countP_eq_zero.mpr fun later hlater hknown => ?_
        have hvisit := hlast later hlater url hmark
        cases later with
        | mark t known =>
          exact absurd (Bool.and_eq_true_iff.mp hknown).2 (Bool.eq_false_iff.mp hvisit)
        | _ => cases hknown
      omega
    · exact ih

theorem marks_split (history : List Event) (url : Bytes) :
    history.countP (Event.isMarkOf url) =
      history.countP (Event.isKnownMarkOf url) + history.countP (Event.isLostMarkOf url) := by
  induction history with
  | nil => rfl
  | cons e history ih =>
    have hone : (if e.isMarkOf url = true then 1 else 0) =
        (if e.isKnownMarkOf url = true then 1 else 0) +
          if e.isLostMarkOf url = true then 1 else 0 := by
      cases e with
      | mark t known => cases known <;> simp [Event.isMarkOf, Event.isKnownMarkOf, Event.isLostMarkOf]
      | _ => rfl
    rw [List.countP_cons, List.countP_cons, List.countP_cons, ih, hone]
    omega

/-- Whatever the feeders, the workers and the updates of the store do: a URL that is marked is
neither fetched nor marked again, and only the visit of the mark parses it; a URL that was crawled
before is left alone; and a page is parsed once, and once more for each mark that came before the
store had a record of its URL. -/
theorem crawled_once {p : Policy} {feeders : Nat} {store : url_store_workers.System}
    {turns : List Turn} {s : System} (hproper : ∀ turn ∈ turns, turn.IsProper)
    (h : exec (step p) turns (initial feeders store) = some s) (url : Bytes) :
    s.history.Pairwise LastVisit ∧
      (sinceMark url s.history).countP (Event.isParseOf url) ≤ 1 ∧
      (crawledAt url store.store = true →
        ∀ e ∈ s.history, e.isVisitOf url = false ∧ e.isParseOf url = false) ∧
      s.history.countP (Event.isParseOf url) ≤ 1 + s.history.countP (Event.isLostMarkOf url) := by
  have hkeeps : ∀ turn (t t' : System), Layout t ∧ Memory store.store t → turn.IsProper →
      step p turn t = some t' → Layout t' ∧ Memory store.store t' :=
    fun _ _ _ ht hturn hstep => ⟨layout_step ht.1 hturn hstep, memory_step ht.2 ht.1 hstep⟩
  have hboth : Layout s ∧ Memory store.store s :=
    exec_invariant hkeeps ⟨layout_initial feeders store, memory_initial feeders store⟩
      (meets_of_forall hproper _) h
  have hparses := hboth.2.parses url
  refine ⟨hboth.2.once, (Nat.le_add_right _ _).trans (hboth.2.lastParse url),
    fun hcrawled e he => ?_, ?_⟩
  · have hvisits := (hboth.2.before url hcrawled).2
    have hmarks : s.history.countP (Event.isMarkOf url) = 0 := by
      refine List.countP_eq_zero.mpr fun old hold hmark => ?_
      have hnone := hvisits old hold
      cases old with
      | mark t known => exact absurd hmark (Bool.eq_false_iff.mp hnone)
      | _ => cases hmark
    have hnone : s.history.countP (Event.isParseOf url) = 0 := by omega
    exact ⟨hvisits e he, Bool.eq_false_iff.mpr (List.countP_eq_zero.mp hnone e he)⟩
  · have hone := knownMarks_le_one hboth.2.once url
    rw [marks_split] at hparses
    omega

/-- `https://a.b`. -/
def exampleTarget : CrawlTarget :=
  ⟨[97, 46, 98], [104, 116, 116, 112, 115, 58, 47, 47, 97, 46, 98], 0, 0⟩

theorem buckets_pos : 0 < PRIORITY_BUCKETS := by decide

/-- The target comes twice to its slot, which is the thirteenth of worker 34. -/
def exampleTurns : List Turn :=
  [.carousel (.enqueue ⟨0, buckets_pos⟩ exampleTarget),
    .carousel (.enqueue ⟨0, buckets_pos⟩ exampleTarget), .carousel (.feed 0)] ++
  List.replicate 6 (.carousel (.goOn 0 true 0)) ++
  List.replicate 18 (.crawl 34 ⟨true, 2000000000, true, 5000⟩) ++
  List.replicate 19 (.crawl 34 ⟨true, 4000000000, true, 5000⟩)

def exampleStore : url_store_workers.System :=
  begin' (setUrlData exampleTarget.url newUrlData emptyStore) none []

theorem exampleTurns_isProper : ∀ turn ∈ exampleTurns, turn.IsProper := by
  have hproper : IsProper exampleTarget := by
    unfold IsProper
    decide
  unfold exampleTurns
  simp only [List.forall_mem_append, List.forall_mem_cons, List.mem_replicate]
  refine ⟨⟨⟨⟨hproper, hproper, trivial, fun _ hnone => nomatch hnone⟩, ?_⟩, ?_⟩, ?_⟩ <;>
    rintro _ ⟨_, rfl⟩ <;> trivial

theorem crawled_once_example : ∃ s,
    exec (step plainPolicy) exampleTurns (initial 1 exampleStore) = some s ∧
      sinceMark exampleTarget.url s.history = [.mark exampleTarget true, .parse exampleTarget,
        .pop exampleTarget 4000000000] ∧
      (sinceMark exampleTarget.url s.history).countP (Event.isParseOf exampleTarget.url) ≤ 1 ∧
      s.history.countP (Event.isParseOf exampleTarget.url) ≤
        1 + s.history.countP (Event.isLostMarkOf exampleTarget.url) := by
  have hrun : ((exec (step plainPolicy) exampleTurns (initial 1 exampleStore)).map fun s =>
      s.history) = some [.pop exampleTarget 2000000000, .get exampleTarget,
        .mark exampleTarget true, .parse exampleTarget, .pop exampleTarget 4000000000] := by
    decide +kernel
  obtain ⟨s, hs, hhistory⟩ := Option.map_eq_some_iff.mp hrun
  obtain ⟨_, hparse, _, hparses⟩ := crawled_once exampleTurns_isProper hs exampleTarget.url
  refine ⟨s, hs, ?_, hparse, hparses⟩
  rw [hhistory]
  decide

/-! ## Who enqueues -/

theorem startsWith_www {host : Bytes} (hhost : (47 : UInt8) ∉ host) (rest : Bytes) :
    startsWith (host ++ 47 :: rest) (ascii "www.") = startsWith host (ascii "www.") := by
  have hwww : ascii "www." = [119, 119, 119, 46] := rfl
  unfold startsWith
  rw [hwww]
  rcases host with - | ⟨a, - | ⟨b, - | ⟨c, - | ⟨d, host⟩⟩⟩⟩ <;> simp

/-- What comes after the first slash has no part in the domain. -/
theorem extractDomain_host (isHttps : Bool) {host : Bytes} (hhost : (47 : UInt8) ∉ host)
    (rest : Bytes) :
    extractDomain (scheme isHttps ++ (host ++ 47 :: rest)) =
      if startsWith host (ascii "www.") then host.drop 4 else host := by
  have htake : ∀ p : Bytes, 47 ∉ p → (p ++ 47 :: rest).takeWhile (· ≠ 47) = p := by
    intro p hp
    have hall : ∀ c ∈ p, decide (c ≠ 47) = true :=
      fun c hc => decide_eq_true fun heq => hp (heq ▸ hc)
    rw [List.takeWhile_append_of_pos hall]
    simp
  have hscheme : ∀ p : Bytes,
      (if startsWith (scheme isHttps ++ p) (ascii "https://") then (scheme isHttps ++ p).drop 8
        else if startsWith (scheme isHttps ++ p) (ascii "http://") then
          (scheme isHttps ++ p).drop 7
        else scheme isHttps ++ p) = p := by
    intro p
    cases isHttps <;> rfl
  unfold extractDomain
  simp only [hscheme, startsWith_www hhost]
  split_ifs with hwww
  · obtain ⟨tail, rfl⟩ := url_filter.startsWith_iff.mp hwww
    exact htake tail fun hmem => hhost (List.mem_append_right _ hmem)
  · exact htake host hhost

/-- The store enqueues what `normalize_url` lets through, and that is in lower case up to its
path. -/
theorem targetOf_isProper {raw : Bytes} {r : Request} (haccepted : url_filter.normalizeUrl raw ≠ [])
    (hurl : r.url = url_filter.normalizeUrl raw) : IsProper (targetOf r) := by
  obtain ⟨isHttps, host, visible, fragment, hparts⟩ := exists_parts haccepted
  rw [normalizeUrl_parts hparts] at haccepted hurl
  obtain ⟨hlong, hjudge⟩ := passed haccepted
  have hfirst := accepted_of_judge hjudge
  rw [if_neg hlong, judge_of_accepted hfirst, canonical] at hurl
  obtain ⟨rest, hrest⟩ := List.head?_eq_some_iff.mp
    (head_fixPath (root_of_visible hparts.visible hfirst.noQuery))
  have hends : ∀ c ∈ html.lowercase
      (url_filter.stripPort isHttps (url_filter.stripWww host)), endsHost c = false := by
    rw [endsHost_lowercase]
    exact fun c hc => hparts.host c (mem_stripWww ((stripPort_shorter isHttps _).subset hc))
  have hhost : (47 : UInt8) ∉ html.lowercase
      (url_filter.stripPort isHttps (url_filter.stripWww host)) :=
    fun hmem => Bool.noConfusion (hends 47 hmem)
  have hlower : lowercaseUrl r.url = scheme isHttps ++
      (html.lowercase (url_filter.stripPort isHttps (url_filter.stripWww host)) ++
        47 :: lowercaseUrl rest) := by
    have hscheme : html.lowercase (scheme isHttps) = scheme isHttps := by
      cases isHttps <;> decide
    change html.lowercase r.url = _
    rw [hurl, hrest, List.append_assoc, html.lowercase_append, html.lowercase_append, hscheme,
      html.lowercase_lowercase]
    rfl
  change extractDomain r.url = extractDomain (lowercaseUrl r.url)
  rw [hlower, extractDomain_host isHttps hhost, hurl, hrest, List.append_assoc,
    extractDomain_host isHttps hhost]

/-! ## The pace of a domain -/

/-- Two pops of one domain are two seconds apart. -/
def Spaced (e later : Event) : Prop :=
  ∀ t now t' now', e = .pop t now → later = .pop t' now' → t.domain = t'.domain →
    now + 2000000000 ≤ now'

structure Paced (s : System) : Prop where
  slots : SlotsFit s.carousel
  bounds : s.crawlers.map Crawler.bounds = intervals
  spaced : s.history.Pairwise Spaced
  /-- A slot knows its last pop. -/
  last : ∀ t now, .pop t now ∈ s.history →
    now ≤ (slotAt (domainIndex t) s.carousel).requestLastSent

section PacedTurns

variable {p : Policy} {s s' : System} {turn : Turn}

theorem le_of_secondsBetween {before after : Int}
    (h : CRAWLER_BACKOFF_SEC ≤ secondsBetween before after) : before + 2000000000 ≤ after := by
  have hdiv : 2 ≤ (after - before).tdiv 1000000000 := h
  rw [Int.tdiv_eq_ediv] at hdiv
  split_ifs at hdiv with hnonneg
  · omega
  · change 2 ≤ (after - before) / 1000000000 + 1 at hdiv
    omega

theorem requestLastSent_setSlot {c : domain_carousel.System} {index : Fin CRAWLER_CAROUSEL_SIZE}
    (slot : DomainQueue) (other : Fin CRAWLER_CAROUSEL_SIZE) :
    (slotAt other (setSlot index slot c)).requestLastSent =
      if other = index then slot.requestLastSent else (slotAt other c).requestLastSent := by
  split_ifs with heq
  · subst heq
    exact congrArg DomainQueue.requestLastSent (Vector.getElem_set_self _)
  · have hne : index.val ≠ other.val := fun hval => heq (Fin.ext hval.symm)
    exact congrArg DomainQueue.requestLastSent
      (Vector.getElem_set_ne index.isLt other.isLt hne)

/-- Only a pop sets the clock of a slot. -/
theorem requestLastSent_step {turn : domain_carousel.Turn} {c c' : domain_carousel.System}
    (h : domain_carousel.step turn c = some c')
    (hpop : ∀ index tryLock now, turn ≠ .pop index tryLock now)
    (index : Fin CRAWLER_CAROUSEL_SIZE) :
    (slotAt index c').requestLastSent = (slotAt index c).requestLastSent := by
  cases turn with
  | enqueue plevel target =>
    unfold domain_carousel.step at h
    simp only at h
    split_ifs at h
    cases h
    rfl
  | feed i | drain i now =>
    unfold domain_carousel.step at h
    simp only at h
    split at h
    · cases h
      rfl
    · cases h
  | goOn i tryLock now =>
    cases feederStep_turn h with
    | goOn | take | putBy | takeBack => rfl
    | @place p p' target hp hhand hhand' hroom =>
      refine (requestLastSent_setSlot _ index).trans ?_
      split_ifs with heq
      · rw [heq]
        rfl
      · rfl
  | pop index tryLock now => exact absurd rfl (hpop index tryLock now)

theorem Paced.set (h : Paced s) {w : Nat} {c c' : Crawler} (hw : s.crawlers[w]? = some c)
    (hbounds : c'.bounds = c.bounds) : Paced (setCrawler w c' s) :=
  ⟨h.slots, (bounds_set hw hbounds).trans h.bounds, h.spaced, h.last⟩

/-- An event that is no pop. -/
theorem Paced.event (h : Paced s) {e : Event} (he : ∀ t now, e ≠ .pop t now) :
    Paced (addEvent e s) := by
  refine ⟨h.slots, h.bounds, ?_, fun t now hmem => ?_⟩
  · refine List.pairwise_append.mpr ⟨h.spaced, List.pairwise_singleton _ _, ?_⟩
    intro old _ new hnew t now t' now' _ hpop
    rw [List.mem_singleton.mp hnew] at hpop
    exact absurd hpop (he t' now')
  · rcases List.mem_append.mp hmem with hold | hnew
    · exact h.last t now hold
    · exact absurd (List.mem_singleton.mp hnew).symm (he t now)

theorem Paced.popped (h : Paced s) {index : Fin CRAWLER_CAROUSEL_SIZE} {tryLock : Bool}
    {now : TimePoint} {target : CrawlTarget} {targets : List CrawlTarget}
    (htargets : (slotAt index s.carousel).targets = target :: targets)
    (hready : CRAWLER_BACKOFF_SEC ≤ secondsBetween (slotAt index s.carousel).requestLastSent now)
    (hpop : popStep index tryLock now s.carousel =
      some { setSlot index ⟨targets, now⟩ s.carousel with
        popped := s.carousel.popped ++ [target] }) :
    Paced (addEvent (.pop target now) { s with carousel :=
      { setSlot index ⟨targets, now⟩ s.carousel with
        popped := s.carousel.popped ++ [target] } }) := by
  have hlater := le_of_secondsBetween hready
  have hindex : domainIndex target = index := by
    apply (h.slots index).2 target
    have hmem : target ∈ (slotAt index s.carousel).targets := by
      rw [htargets]
      exact List.mem_cons_self
    exact hmem
  have hclock (other : Fin CRAWLER_CAROUSEL_SIZE) :
      (slotAt other (setSlot index ⟨targets, now⟩ s.carousel)).requestLastSent =
        if other = index then now else (slotAt other s.carousel).requestLastSent :=
    requestLastSent_setSlot _ other
  refine ⟨popStep_slotsFit hpop h.slots, h.bounds, ?_, fun t now' hmem => ?_⟩
  · refine List.pairwise_append.mpr ⟨h.spaced, List.pairwise_singleton _ _, ?_⟩
    rintro _ hmem _ hnew t before t' now' rfl hlast hdomain
    rw [List.mem_singleton.mp hnew] at hlast
    cases hlast
    have hsame : domainIndex t = index := by
      rw [← hindex]
      exact Fin.ext (congrArg (fun d => (hashDomain d).toNat % CRAWLER_CAROUSEL_SIZE) hdomain)
    have hbefore : before ≤ (slotAt index s.carousel).requestLastSent := by
      have hold := h.last t before hmem
      simp only [hsame] at hold
      exact hold
    exact Int.le_trans (Int.add_le_add_right hbefore 2000000000) hlater
  · refine le_of_le_of_eq ?_ (hclock (domainIndex t)).symm
    rcases List.mem_append.mp hmem with hold | hnew
    · have hbefore := h.last t now' hold
      split_ifs with heq
      · simp only [heq] at hbefore
        exact hbefore.trans (Int.le_trans (Int.le_add_of_nonneg_right (by decide)) hlater)
      · exact hbefore
    · cases List.mem_singleton.mp hnew
      rw [if_pos hindex]

theorem paced_step (h : Paced s) (hstep : step p turn s = some s') : Paced s' := by
  cases step_moves hstep with
  | carousel hcarousel hpop =>
    refine ⟨step_slotsFit _ _ _ h.slots hcarousel, h.bounds, h.spaced, fun t now hmem => ?_⟩
    exact le_of_le_of_eq (h.last t now hmem) (requestLastSent_step hcarousel hpop _).symm
  | store => exact ⟨h.slots, h.bounds, h.spaced, h.last⟩
  | @pop w a c target targets hw hlt hright htargets hready hpop =>
    have hslot : (slotAt ⟨c.carouselIndex, hlt⟩ s.carousel).targets = target :: targets := htargets
    exact (h.popped hslot hready hpop).set hw rfl
  | scan hw hindex => exact h.set hw rfl
  | look hw hphase hcrawled => exact h.set hw rfl
  | allow hw hphase => exact h.set hw rfl
  | @get w a c target hw hphase =>
    have hset : Paced (setCrawler w { c with phase := .fetched target a.bodyLen } s) :=
      h.set hw rfl
    exact hset.event fun _ _ heq => nomatch heq
  | @mark w a c target bodyLen hw hphase =>
    have hset : Paced (setCrawler w { c with phase := .marked target bodyLen } s) := h.set hw rfl
    have hevent : Paced (addEvent
        (.mark target (findUrlData (lowercaseUrl target.url) s.store.store).isSome)
        (setCrawler w { c with phase := .marked target bodyLen } s)) :=
      hset.event fun _ _ heq => nomatch heq
    exact ⟨hevent.slots, hevent.bounds, hevent.spaced, hevent.last⟩
  | @parse w a c target bodyLen hw hphase =>
    have hset : Paced (setCrawler w c.next s) := h.set hw rfl
    exact hset.event fun _ _ heq => nomatch heq

end PacedTurns

/-- Whatever the feeders and the workers do, two pops of one domain are two seconds apart, and
every slot belongs to one worker. -/
theorem pops_are_spaced {p : Policy} {feeders : Nat} {store : url_store_workers.System}
    {turns : List Turn} {s : System} (h : exec (step p) turns (initial feeders store) = some s) :
    s.history.Pairwise Spaced ∧ ∀ index < CRAWLER_CAROUSEL_SIZE,
      ∃! w : Nat, ∃ c : Crawler, s.crawlers[w]? = some c ∧ c.carouselLeft ≤ index ∧
        index ≤ c.carouselRight := by
  have hinitial : Paced (initial feeders store) :=
    ⟨slotsFit_initial feeders, map_bounds intervals, List.Pairwise.nil,
      fun t now hmem => absurd hmem List.not_mem_nil⟩
  have hpaced : Paced s := exec_preserves (fun _ _ _ ht hstep => paced_step ht hstep) hinitial h
  have hget (w : Nat) : intervals[w]? = s.crawlers[w]?.map Crawler.bounds := by
    rw [← hpaced.bounds, List.getElem?_map]
  refine ⟨hpaced.spaced, fun index hlt => ⟨index / 16, ?_, ?_⟩⟩
  · obtain ⟨left, right, hinterval, hleft, hright⟩ := exists_interval hlt
    rw [hget] at hinterval
    obtain ⟨c, hc, hbounds⟩ := Option.map_eq_some_iff.mp hinterval
    cases hbounds
    exact ⟨c, hc, hleft, hright⟩
  · rintro w ⟨c, hc, hleft, hright⟩
    have hinterval : intervals[w]? = some (c.carouselLeft, c.carouselRight) := by
      rw [hget, hc]
      rfl
    obtain ⟨_, heq, heq'⟩ := bounds_of_interval hinterval
    omega

theorem pops_are_spaced_example : ∃ s,
    exec (step plainPolicy) exampleTurns (initial 1 exampleStore) = some s ∧
      s.history.length = 5 ∧ s.history.Pairwise Spaced := by
  have hrun : ((exec (step plainPolicy) exampleTurns (initial 1 exampleStore)).map fun s =>
      s.history.length) = some 5 := by
    decide +kernel
  obtain ⟨s, hs, hlength⟩ := Option.map_eq_some_iff.mp hrun
  exact ⟨s, hs, hlength, (pops_are_spaced hs).1⟩

end seamus.crawler_workers
