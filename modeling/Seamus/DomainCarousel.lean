-- The carousel of the crawler. Feeders take targets out of the frontier buckets and put
-- them into the slots or onto the backoff list, and workers pop the slots. A turn is one
-- section of one thread between two points where another thread can come in.
import Seamus.UrlStoreWorkers
import Mathlib.Algebra.Order.Group.Multiset
import Mathlib.Data.Vector.Basic

open interleaving seamus.url_store seamus.url_store_workers

namespace seamus.domain_carousel

def CRAWLER_THREADPOOL_SIZE : Nat := 256

def CRAWLER_CAROUSEL_SIZE : Nat := CRAWLER_THREADPOOL_SIZE * 16

def CRAWLER_MAX_QUEUE_SIZE : Nat := 32

def CRAWLER_BACKOFF_SEC : Int := 2

/-! ## The source functions, cut where threads meet -/

/-- The loop and the constants of `DefaultHash<string>`. -/
def hashDomain (domain : Bytes) : UInt64 := url_store.hash domain

def domainIndex (target : CrawlTarget) : Fin CRAWLER_CAROUSEL_SIZE :=
  ⟨(hashDomain target.domain).toNat % CRAWLER_CAROUSEL_SIZE, Nat.mod_lt _ (by decide)⟩

/-- A reading of the steady clock, in nanoseconds. -/
abbrev TimePoint := Int

/-- `duration_cast<seconds>`, which cuts towards zero. -/
def secondsBetween (before after : TimePoint) : Int := (after - before).tdiv 1000000000

structure BackoffEntry where
  target : CrawlTarget
  rejectedAt : TimePoint
  deriving DecidableEq

structure DomainQueue where
  targets : List CrawlTarget
  requestLastSent : TimePoint
  deriving DecidableEq

inductive Mutex where
  | bucket (plevel : Fin PRIORITY_BUCKETS)
  | slot (index : Fin CRAWLER_CAROUSEL_SIZE)
  | backoff
  deriving DecidableEq

/-- Where a thread is that calls `feed_carousel_from_highest_priority_bucket` and drains
the backoff list. -/
inductive Feeder where
  /-- Between two calls, with the result of the last feed. -/
  | idle (result : Option Int)
  /-- Before the lock of a bucket. -/
  | scanning (plevel : Nat)
  /-- At the head of the loop, with the lock of the bucket. -/
  | emptying (plevel : Fin PRIORITY_BUCKETS)
  /-- Before `try_to_lock` on the slot. -/
  | holding (plevel : Fin PRIORITY_BUCKETS) (target : CrawlTarget)
  /-- Before the lock of the backoff list. A full slot is still locked there. -/
  | rejected (plevel : Fin PRIORITY_BUCKETS) (target : CrawlTarget) (ownsLock : Bool)
  /-- Before the lock of the backoff list, to drain it. -/
  | waiting (now : TimePoint)
  /-- At the head of the loop, with the lock of the backoff list. -/
  | draining (now : TimePoint)
  /-- In `push_target`, before the lock of the slot. -/
  | pushing (now : TimePoint) (target : CrawlTarget)
  /-- After `push_target` gave `false`. -/
  | refused (now : TimePoint) (target : CrawlTarget)
  deriving DecidableEq

structure System where
  buckets : Vector (List CrawlTarget) PRIORITY_BUCKETS
  carousel : Vector DomainQueue CRAWLER_CAROUSEL_SIZE
  backoffQueue : List BackoffEntry
  /-- The feeder that holds a mutex between two turns. -/
  locks : Mutex → Option Nat
  feeders : List Feeder
  /-- The targets that the workers have popped. -/
  popped : List CrawlTarget

def initial (feeders : Nat) : System :=
  { buckets := Vector.replicate _ []
    carousel := Vector.replicate _ ⟨[], 0⟩
    backoffQueue := []
    locks := fun _ => none
    feeders := List.replicate feeders (.idle none)
    popped := [] }

def setFeeder (i : Nat) (p : Feeder) (s : System) : System := { s with feeders := s.feeders.set i p }

def setBucket (plevel : Fin PRIORITY_BUCKETS) (urls : List CrawlTarget) (s : System) : System :=
  { s with buckets := s.buckets.set plevel urls }

def setSlot (index : Fin CRAWLER_CAROUSEL_SIZE) (slot : DomainQueue) (s : System) : System :=
  { s with carousel := s.carousel.set index slot }

def setLock (m : Mutex) (holder : Option Nat) (s : System) : System :=
  { s with locks := Function.update s.locks m holder }

/-- `targets.push_back` in the slot of the target. -/
def pushBack (target : CrawlTarget) (s : System) : System :=
  let slot := s.carousel[domainIndex target]
  setSlot (domainIndex target) { slot with targets := slot.targets ++ [target] } s

def pushBackoff (entry : BackoffEntry) (s : System) : System :=
  { s with backoffQueue := s.backoffQueue ++ [entry] }

/-- The next section of a feeder. `tryLock` is what `try_to_lock` gives, which may fail for
no reason, and `now` is the time it reads. -/
def feederStep (i : Nat) (tryLock : Bool) (now : TimePoint) (s : System) : Option System :=
  match s.feeders[i]? with
  | none | some (.idle _) => none
  | some (.scanning plevel) =>
    if h : plevel < PRIORITY_BUCKETS then
      if s.locks (.bucket ⟨plevel, h⟩) ≠ none then none
      else if s.buckets[plevel].length > 0 then
        some (setFeeder i (.emptying ⟨plevel, h⟩) (setLock (.bucket ⟨plevel, h⟩) (some i) s))
      else some (setFeeder i (.scanning (plevel + 1)) s)
    else some (setFeeder i (.idle (some (-1))) s)
  | some (.emptying plevel) =>
    match s.buckets[plevel] with
    | [] => some (setFeeder i (.idle (some plevel)) (setLock (.bucket plevel) none s))
    | target :: urls => some (setFeeder i (.holding plevel target) (setBucket plevel urls s))
  | some (.holding plevel target) =>
    if tryLock then
      if s.locks (.slot (domainIndex target)) ≠ none then none
      else if s.carousel[domainIndex target].targets.length < CRAWLER_MAX_QUEUE_SIZE then
        some (setFeeder i (.emptying plevel) (pushBack target s))
      else
        some (setFeeder i (.rejected plevel target true)
          (setLock (.slot (domainIndex target)) (some i) s))
    else some (setFeeder i (.rejected plevel target false) s)
  | some (.rejected plevel target ownsLock) =>
    if s.locks .backoff ≠ none then none
    else
      let s := if ownsLock then setLock (.slot (domainIndex target)) none s else s
      some (setFeeder i (.emptying plevel) (pushBackoff ⟨target, now⟩ s))
  | some (.waiting started) =>
    if s.locks .backoff ≠ none then none
    else some (setFeeder i (.draining started) (setLock .backoff (some i) s))
  | some (.draining started) =>
    match s.backoffQueue with
    | [] => some (setFeeder i (.idle none) (setLock .backoff none s))
    | front :: rest =>
      if secondsBetween front.rejectedAt started < CRAWLER_BACKOFF_SEC then
        some (setFeeder i (.idle none) (setLock .backoff none s))
      else some (setFeeder i (.pushing started front.target) { s with backoffQueue := rest })
  | some (.pushing started target) =>
    if s.locks (.slot (domainIndex target)) ≠ none then none
    else if s.carousel[domainIndex target].targets.length ≥ CRAWLER_MAX_QUEUE_SIZE then
      some (setFeeder i (.refused started target) s)
    else some (setFeeder i (.draining started) (pushBack target s))
  | some (.refused started target) =>
    some (setFeeder i (.draining started) (pushBackoff ⟨target, started⟩ s))

/-- A worker at a slot of its interval. -/
def popStep (index : Fin CRAWLER_CAROUSEL_SIZE) (tryLock : Bool) (now : TimePoint) (s : System) :
    Option System :=
  if tryLock then
    if s.locks (.slot index) ≠ none then none
    else
      match s.carousel[index].targets with
      | [] => some s
      | target :: targets =>
        if secondsBetween s.carousel[index].requestLastSent now ≥ CRAWLER_BACKOFF_SEC then
          some { setSlot index ⟨targets, now⟩ s with popped := s.popped ++ [target] }
        else some s
  else some s

inductive Turn where
  /-- Another part of the crawler enqueues a target. -/
  | enqueue (plevel : Fin PRIORITY_BUCKETS) (target : CrawlTarget)
  | feed (i : Nat)
  | drain (i : Nat) (now : TimePoint)
  | goOn (i : Nat) (tryLock : Bool) (now : TimePoint)
  | pop (index : Fin CRAWLER_CAROUSEL_SIZE) (tryLock : Bool) (now : TimePoint)

def step (turn : Turn) (s : System) : Option System :=
  match turn with
  | .enqueue plevel target =>
    if s.locks (.bucket plevel) ≠ none then none
    else some (setBucket plevel (s.buckets[plevel] ++ [target]) s)
  | .feed i =>
    match s.feeders[i]? with
    | some (.idle _) => some (setFeeder i (.scanning 0) s)
    | _ => none
  | .drain i now =>
    match s.feeders[i]? with
    | some (.idle _) => some (setFeeder i (.waiting now) s)
    | _ => none
  | .goOn i tryLock now => feederStep i tryLock now s
  | .pop index tryLock now => popStep index tryLock now s

/-! ## What a turn does with the targets -/

/-- The target that a feeder has taken out and not yet put back. -/
def inHand : Feeder → Multiset CrawlTarget
  | .holding _ target | .rejected _ target _ | .pushing _ target | .refused _ target => {target}
  | .idle _ | .scanning _ | .emptying _ | .waiting _ | .draining _ => 0

/-- A turn of feeder `i`, by where a target goes. -/
inductive FeederTurn (i : Nat) (s : System) : System → Prop
  | goOn {p p' : Feeder} (locks : Mutex → Option Nat) (hp : s.feeders[i]? = some p)
    (hhand : inHand p' = inHand p) : FeederTurn i s (setFeeder i p' { s with locks })
  | take {plevel : Fin PRIORITY_BUCKETS} {target : CrawlTarget} {urls : List CrawlTarget}
    (hp : s.feeders[i]? = some (.emptying plevel)) (hurls : s.buckets[plevel] = target :: urls) :
    FeederTurn i s (setFeeder i (.holding plevel target) (setBucket plevel urls s))
  | place {p p' : Feeder} {target : CrawlTarget} (hp : s.feeders[i]? = some p)
    (hhand : inHand p = {target}) (hhand' : inHand p' = 0)
    (hroom : s.carousel[domainIndex target].targets.length < CRAWLER_MAX_QUEUE_SIZE) :
    FeederTurn i s (setFeeder i p' (pushBack target s))
  | putBy {p p' : Feeder} (entry : BackoffEntry) (locks : Mutex → Option Nat)
    (hp : s.feeders[i]? = some p) (hhand : inHand p = {entry.target}) (hhand' : inHand p' = 0) :
    FeederTurn i s (setFeeder i p' (pushBackoff entry { s with locks }))
  | takeBack {started : TimePoint} {front : BackoffEntry} {rest : List BackoffEntry}
    (hp : s.feeders[i]? = some (.draining started)) (hqueue : s.backoffQueue = front :: rest) :
    FeederTurn i s (setFeeder i (.pushing started front.target) { s with backoffQueue := rest })

theorem feederStep_turn {i : Nat} {tryLock : Bool} {now : TimePoint} {s s' : System}
    (h : feederStep i tryLock now s = some s') : FeederTurn i s s' := by
  unfold feederStep at h
  cases hp : s.feeders[i]? with
  | none =>
    rw [hp] at h
    cases h
  | some p =>
    rw [hp] at h
    cases p with
    | idle result => cases h
    | scanning plevel =>
      simp only at h
      split_ifs at h <;> cases h
      · exact .goOn _ hp rfl
      · exact .goOn s.locks hp rfl
      · exact .goOn s.locks hp rfl
    | emptying plevel =>
      cases hurls : s.buckets[plevel] with
      | nil =>
        simp only [hurls] at h
        cases h
        exact .goOn _ hp rfl
      | cons target urls =>
        simp only [hurls] at h
        cases h
        exact .take hp hurls
    | holding plevel target =>
      simp only at h
      split_ifs at h with _ _ hroom <;> cases h
      · exact .place hp rfl rfl hroom
      · exact .goOn _ hp rfl
      · exact .goOn s.locks hp rfl
    | rejected plevel target ownsLock =>
      simp only at h
      split_ifs at h <;> cases h
      · exact .putBy ⟨target, now⟩ _ hp rfl rfl
      · exact .putBy ⟨target, now⟩ s.locks hp rfl rfl
    | waiting started =>
      simp only at h
      split_ifs at h
      cases h
      exact .goOn _ hp rfl
    | draining started =>
      cases hqueue : s.backoffQueue with
      | nil =>
        simp only [hqueue] at h
        cases h
        exact .goOn _ hp rfl
      | cons front rest =>
        simp only [hqueue] at h
        split_ifs at h <;> cases h
        · exact .goOn _ hp rfl
        · exact .takeBack hp hqueue
    | pushing started target =>
      simp only at h
      split_ifs at h with _ hfull <;> cases h
      · exact .goOn s.locks hp rfl
      · exact .place hp rfl rfl (Nat.lt_of_not_le hfull)
    | refused started target =>
      cases h
      exact .putBy ⟨target, started⟩ s.locks hp rfl rfl

/-! ## The places of a target -/

section Places

variable (s : System)

def bucketTargets : Multiset CrawlTarget :=
  total (fun urls : List CrawlTarget => (urls : Multiset CrawlTarget)) s.buckets.toList

def slotTargets : Multiset CrawlTarget :=
  total (fun slot : DomainQueue => (slot.targets : Multiset CrawlTarget)) s.carousel.toList

def backoffTargets : Multiset CrawlTarget := s.backoffQueue.map BackoffEntry.target

def handTargets : Multiset CrawlTarget := total inHand s.feeders

/-- All targets that the crawler has. -/
def held : Multiset CrawlTarget :=
  bucketTargets s + slotTargets s + backoffTargets s + s.popped + handTargets s

end Places

theorem vector_getElem?_toList {α : Type} {n : Nat} (v : Vector α n) (i : Fin n) :
    v.toList[i.val]? = some v[i] := by
  rw [List.getElem?_eq_getElem (by simp), Vector.getElem_toList]
  rfl

section Moves

variable {s : System} {i : Nat} {p p' : Feeder}

theorem hand_keep (hp : s.feeders[i]? = some p) (hhand : inHand p' = inHand p) :
    handTargets (setFeeder i p' s) = handTargets s := total_keep inHand hp hhand

theorem hand_take {target : CrawlTarget} (hp : s.feeders[i]? = some p) (hhand : inHand p = 0)
    (hhand' : inHand p' = {target}) :
    handTargets (setFeeder i p' s) = {target} + handTargets s := by
  apply total_gain inHand hp
  rw [hhand, hhand', add_zero]

theorem hand_put {target : CrawlTarget} (hp : s.feeders[i]? = some p)
    (hhand : inHand p = {target}) (hhand' : inHand p' = 0) :
    {target} + handTargets (setFeeder i p' s) = handTargets s := by
  apply total_lose inHand hp
  rw [hhand, hhand', add_zero]

theorem bucket_take {plevel : Fin PRIORITY_BUCKETS} {target : CrawlTarget} {urls : List CrawlTarget}
    (hurls : s.buckets[plevel] = target :: urls) :
    {target} + bucketTargets (setBucket plevel urls s) = bucketTargets s := by
  unfold bucketTargets setBucket
  rw [Vector.toList_set]
  apply total_lose _ (vector_getElem?_toList _ _)
  rw [hurls, Multiset.singleton_add, Multiset.cons_coe]

theorem bucket_put (plevel : Fin PRIORITY_BUCKETS) (target : CrawlTarget) :
    bucketTargets (setBucket plevel (s.buckets[plevel] ++ [target]) s) =
      {target} + bucketTargets s := by
  unfold bucketTargets setBucket
  rw [Vector.toList_set]
  apply total_gain _ (vector_getElem?_toList _ _)
  rw [← Multiset.coe_add, Multiset.coe_singleton, add_comm]

theorem slot_put (target : CrawlTarget) :
    slotTargets (pushBack target s) = {target} + slotTargets s := by
  unfold slotTargets pushBack setSlot
  rw [Vector.toList_set]
  apply total_gain _ (vector_getElem?_toList _ _)
  rw [← Multiset.coe_add, Multiset.coe_singleton, add_comm]

theorem slot_take {index : Fin CRAWLER_CAROUSEL_SIZE} {target : CrawlTarget}
    {targets : List CrawlTarget} (now : TimePoint)
    (htargets : s.carousel[index].targets = target :: targets) :
    {target} + slotTargets (setSlot index ⟨targets, now⟩ s) = slotTargets s := by
  unfold slotTargets setSlot
  rw [Vector.toList_set]
  apply total_lose _ (vector_getElem?_toList _ _)
  rw [htargets, Multiset.singleton_add, Multiset.cons_coe]

theorem backoff_put (entry : BackoffEntry) :
    backoffTargets (pushBackoff entry s) = {entry.target} + backoffTargets s := by
  unfold backoffTargets pushBackoff
  rw [List.map_append, ← Multiset.coe_add, List.map_singleton, Multiset.coe_singleton, add_comm]

/-- A turn of a feeder moves targets and neither loses nor makes one. -/
theorem feederTurn_held {s' : System} (h : FeederTurn i s s') : held s' = held s := by
  cases h with
  | @goOn p p' locks hp hhand =>
    have hkeep : handTargets (setFeeder i p' { s with locks }) = handTargets s := hand_keep hp hhand
    unfold held
    rw [hkeep]
    rfl
  | @take plevel target urls hp hurls =>
    have hhand : handTargets (setFeeder i (.holding plevel target) (setBucket plevel urls s)) =
        {target} + handTargets s := hand_take hp rfl rfl
    unfold held
    rw [hhand, ← bucket_take hurls]
    change bucketTargets (setBucket plevel urls s) + slotTargets s + backoffTargets s + s.popped + _ = _
    abel
  | @place p p' target hp hhand hhand' hroom =>
    have hput : {target} + handTargets (setFeeder i p' (pushBack target s)) = handTargets s :=
      hand_put hp hhand hhand'
    unfold held
    rw [← hput]
    change bucketTargets s + slotTargets (pushBack target s) + backoffTargets s + s.popped + _ = _
    rw [slot_put]
    abel
  | @putBy p p' entry locks hp hhand hhand' =>
    have hput : {entry.target} +
        handTargets (setFeeder i p' (pushBackoff entry { s with locks })) = handTargets s :=
      hand_put hp hhand hhand'
    unfold held
    rw [← hput]
    change bucketTargets s + slotTargets s + backoffTargets (pushBackoff entry s) + s.popped + _ = _
    rw [backoff_put]
    abel
  | @takeBack started front rest hp hqueue =>
    have hhand : handTargets (setFeeder i (.pushing started front.target)
        { s with backoffQueue := rest }) = {front.target} + handTargets s := hand_take hp rfl rfl
    have htake : backoffTargets s =
        {front.target} + backoffTargets { s with backoffQueue := rest } := by
      unfold backoffTargets
      rw [hqueue, List.map_cons, ← Multiset.cons_coe, Multiset.singleton_add]
    unfold held
    rw [hhand, htake]
    change bucketTargets s + slotTargets s + backoffTargets { s with backoffQueue := rest } +
      s.popped + _ = _
    abel

end Moves

/-- The target that a turn brings into the crawler. -/
def enqueuedBy : Turn → Multiset CrawlTarget
  | .enqueue _ target => {target}
  | .feed _ | .drain _ _ | .goOn _ _ _ | .pop _ _ _ => 0

theorem popStep_cases {index : Fin CRAWLER_CAROUSEL_SIZE} {tryLock : Bool} {now : TimePoint}
    {s s' : System} (h : popStep index tryLock now s = some s') :
    s' = s ∨ ∃ target targets, s.carousel[index].targets = target :: targets ∧
      s' = { setSlot index ⟨targets, now⟩ s with popped := s.popped ++ [target] } := by
  unfold popStep at h
  cases htargets : s.carousel[index].targets with
  | nil =>
    simp only [htargets] at h
    split_ifs at h <;> exact Or.inl (Option.some.inj h).symm
  | cons target targets =>
    simp only [htargets] at h
    split_ifs at h
    · exact Or.inr ⟨target, targets, rfl, (Option.some.inj h).symm⟩
    · exact Or.inl (Option.some.inj h).symm
    · exact Or.inl (Option.some.inj h).symm

theorem popStep_held {index : Fin CRAWLER_CAROUSEL_SIZE} {tryLock : Bool} {now : TimePoint}
    {s s' : System} (h : popStep index tryLock now s = some s') : held s' = held s := by
  rcases popStep_cases h with rfl | ⟨target, targets, htargets, rfl⟩
  · rfl
  · unfold held
    rw [← slot_take now htargets, ← Multiset.coe_add, Multiset.coe_singleton]
    change bucketTargets s + slotTargets (setSlot index ⟨targets, now⟩ s) + backoffTargets s +
      (s.popped + {target}) + handTargets s = _
    abel

theorem call_held {i : Nat} {p p' : Feeder} {s : System} (hp : s.feeders[i]? = some p)
    (hhand : inHand p' = inHand p) : held (setFeeder i p' s) = held s :=
  feederTurn_held (.goOn s.locks hp hhand)

/-- One turn adds to the targets what it enqueues. -/
theorem step_held (turn : Turn) (s s' : System) (h : step turn s = some s') :
    held s' = enqueuedBy turn + held s := by
  cases turn with
  | enqueue plevel target =>
    unfold step at h
    simp only at h
    split_ifs at h
    cases h
    unfold held
    rw [bucket_put]
    change _ + slotTargets s + backoffTargets s + s.popped + handTargets s = {target} + _
    abel
  | feed i | drain i now =>
    unfold step at h
    simp only at h
    split at h
    · rename_i result hp
      cases h
      rw [enqueuedBy, zero_add]
      exact call_held hp rfl
    · cases h
  | goOn i tryLock now =>
    rw [enqueuedBy, zero_add]
    exact feederTurn_held (feederStep_turn h)
  | pop index tryLock now =>
    rw [enqueuedBy, zero_add]
    exact popStep_held h

theorem total_toList_replicate {α : Type} (f : α → Multiset CrawlTarget) (n : Nat) (a : α)
    (ha : f a = 0) : total f (Vector.replicate n a).toList = 0 := by
  apply total_eq_zero
  intro b hb
  rw [Vector.toList_replicate] at hb
  rw [List.eq_of_mem_replicate hb, ha]

theorem held_initial (feeders : Nat) : held (initial feeders) = 0 := by
  have hbuckets : bucketTargets (initial feeders) = 0 := total_toList_replicate _ _ _ rfl
  have hslots : slotTargets (initial feeders) = 0 := total_toList_replicate _ _ _ rfl
  have hhands : handTargets (initial feeders) = 0 := by
    apply total_eq_zero
    intro p hp
    rw [List.eq_of_mem_replicate hp]
    rfl
  unfold held
  rw [hbuckets, hslots, hhands]
  rfl

/-! ## The slots -/

/-- No slot is over its size, and each target is in the slot of its domain. -/
def SlotsFit (s : System) : Prop :=
  ∀ index : Fin CRAWLER_CAROUSEL_SIZE,
    s.carousel[index].targets.length ≤ CRAWLER_MAX_QUEUE_SIZE ∧
    ∀ target ∈ s.carousel[index].targets, domainIndex target = index

theorem slotsFit_setSlot {s : System} {index : Fin CRAWLER_CAROUSEL_SIZE} {slot : DomainQueue}
    (h : SlotsFit s) (hsize : slot.targets.length ≤ CRAWLER_MAX_QUEUE_SIZE)
    (hplace : ∀ target ∈ slot.targets, domainIndex target = index) :
    SlotsFit (setSlot index slot s) := by
  intro j
  by_cases hj : index = j
  · subst hj
    have hget : (setSlot index slot s).carousel[index] = slot := Vector.getElem_set_self _
    rw [hget]
    exact ⟨hsize, hplace⟩
  · have hget : (setSlot index slot s).carousel[j] = s.carousel[j] :=
      Vector.getElem_set_ne index.isLt j.isLt (fun hval => hj (Fin.ext hval))
    rw [hget]
    exact h j

theorem feederTurn_slotsFit {i : Nat} {s s' : System} (h : FeederTurn i s s') (hs : SlotsFit s) :
    SlotsFit s' := by
  cases h with
  | goOn | take | putBy | takeBack => exact hs
  | @place p p' target hp hhand hhand' hroom =>
    have hfit : SlotsFit (pushBack target s) := by
      apply slotsFit_setSlot hs
      · rw [List.length_append]
        exact hroom
      · intro t ht
        rcases List.mem_append.mp ht with ht | ht
        · exact (hs _).2 t ht
        · rw [List.mem_singleton.mp ht]
    exact hfit

theorem popStep_slotsFit {index : Fin CRAWLER_CAROUSEL_SIZE} {tryLock : Bool} {now : TimePoint}
    {s s' : System} (h : popStep index tryLock now s = some s') (hs : SlotsFit s) : SlotsFit s' := by
  rcases popStep_cases h with rfl | ⟨target, targets, htargets, rfl⟩
  · exact hs
  · obtain ⟨hsize, hplace⟩ := hs index
    rw [htargets] at hsize hplace
    have hfit : SlotsFit (setSlot index ⟨targets, now⟩ s) :=
      slotsFit_setSlot hs (Nat.le_of_succ_le hsize)
        (fun t ht => hplace t (List.mem_cons_of_mem _ ht))
    exact hfit

theorem step_slotsFit (turn : Turn) (s s' : System) (hs : SlotsFit s)
    (h : step turn s = some s') : SlotsFit s' := by
  cases turn with
  | enqueue plevel target =>
    unfold step at h
    simp only at h
    split_ifs at h
    cases h
    exact hs
  | feed i | drain i now =>
    unfold step at h
    simp only at h
    split at h
    · cases h
      exact hs
    · cases h
  | goOn i tryLock now => exact feederTurn_slotsFit (feederStep_turn h) hs
  | pop index tryLock now => exact popStep_slotsFit h hs

theorem slotsFit_initial (feeders : Nat) : SlotsFit (initial feeders) := by
  intro index
  have hget : (initial feeders).carousel[index] = ⟨[], 0⟩ := Vector.getElem_replicate _
  rw [hget]
  exact ⟨Nat.zero_le _, fun t ht => absurd ht List.not_mem_nil⟩

/-! ## Conservation -/

def Between (p : Feeder) : Prop := ∃ result, p = .idle result

/-- In every interleaving the targets that were enqueued are in the buckets, in the slots,
on the backoff list, popped, or in the hand of a feeder that is on its way with one. -/
theorem targets_conserved (feeders : Nat) {turns : List Turn} {s : System}
    (h : exec step turns (initial feeders) = some s) :
    bucketTargets s + slotTargets s + backoffTargets s + s.popped + handTargets s =
      total enqueuedBy turns ∧
    ((∀ p ∈ s.feeders, Between p) →
      bucketTargets s + slotTargets s + backoffTargets s + s.popped = total enqueuedBy turns) ∧
    ∀ index : Fin CRAWLER_CAROUSEL_SIZE,
      s.carousel[index].targets.length ≤ CRAWLER_MAX_QUEUE_SIZE ∧
      ∀ target ∈ s.carousel[index].targets,
        (hashDomain target.domain).toNat % CRAWLER_CAROUSEL_SIZE = index := by
  have hheld : held s = total enqueuedBy turns := by
    rw [exec_gains held enqueuedBy step_held h, held_initial, add_zero]
  refine ⟨hheld, ?_, ?_⟩
  · intro hbetween
    have hhands : handTargets s = 0 := by
      apply total_eq_zero
      intro p hp
      obtain ⟨result, rfl⟩ := hbetween p hp
      rfl
    rw [← hheld, held, hhands, add_zero]
  · have hfit : SlotsFit s := exec_preserves step_slotsFit (slotsFit_initial feeders) h
    intro index
    refine ⟨(hfit index).1, ?_⟩
    intro target ht
    exact congrArg Fin.val ((hfit index).2 target ht)

def exampleTarget : CrawlTarget := ⟨[97, 46, 98], [104, 116, 116, 112, 115], 0, 0⟩

/-- A target whose slot is locked when it is fed, and that comes to a worker over the
backoff list. -/
def exampleTurns : List Turn :=
  [.enqueue ⟨0, by decide⟩ exampleTarget, .feed 0, .goOn 0 true 0, .goOn 0 true 0, .goOn 0 false 0,
    .goOn 0 true 0, .goOn 0 true 0, .drain 0 2000000000, .goOn 0 true 0, .goOn 0 true 0,
    .goOn 0 true 0, .goOn 0 true 0, .pop (domainIndex exampleTarget) true 2000000000]

theorem targets_conserved_example :
    ∃ s, exec step exampleTurns (initial 1) = some s ∧ s.popped = [exampleTarget] ∧
      bucketTargets s + slotTargets s + backoffTargets s + s.popped = {exampleTarget} := by
  have hrun : ((exec step exampleTurns (initial 1)).map fun s =>
      (s.popped, s.feeders)) = some ([exampleTarget], [.idle none]) := by decide +kernel
  obtain ⟨s, hs, hends⟩ := Option.map_eq_some_iff.mp hrun
  have hpopped : s.popped = [exampleTarget] := congrArg Prod.fst hends
  have hfeeders : s.feeders = [.idle none] := congrArg Prod.snd hends
  refine ⟨s, hs, hpopped, (targets_conserved 1 hs).2.1 ?_⟩
  intro p hp
  rw [hfeeders] at hp
  exact ⟨none, List.mem_singleton.mp hp⟩

end seamus.domain_carousel
