-- The accesses to the frontier's buckets: `get_priority_bucket` can answer the number of
-- buckets, for a URL that is not to be crawled, and its callers have to rule that out.
import Seamus.UrlStoreWorkers

open seamus.url_store seamus.url_store_workers

namespace seamus.frontier_buckets

/-! ## The source functions -/

/-- The bytes of `http`. -/
def httpPrefix : Bytes := [104, 116, 116, 112]

/-- `calcPriorityScore`; `product` is the product of its ten factors, cut to an `int`. -/
def calcPriorityScore (product : Bytes → UInt16 → UInt16 → Int32) (url : Bytes)
    (seedListDist domainsFromSeed : UInt16) : Int :=
  if url.length < 8 then 0
  else if url.take 4 = httpPrefix then (product url seedListDist domainsFromSeed).toInt
  else 0

def getPriorityBucket (product : Bytes → UInt16 → UInt16 → Int32) (url : Bytes)
    (seedListDist domainsFromSeed : UInt16) : Nat :=
  let score := calcPriorityScore product url seedListDist domainsFromSeed
  if score ≥ 400000000 then 0
  else if score ≥ 300000000 then 1
  else if score ≥ 200000000 then 2
  else if score ≥ 100000000 then 3
  else if score ≥ 50000000 then 4
  else if score ≥ 40000000 then 5
  else if score ≥ 30000000 then 6
  else if score ≥ 20000000 then 7
  else PRIORITY_BUCKETS

/-- `PriorityBucket buckets[PRIORITY_BUCKETS]`, or the targets that a batch puts by for it. -/
abbrev Buckets := Vector (List CrawlTarget) PRIORITY_BUCKETS

/-- `buckets[i].urls.push_back` for each target, where there is such a bucket. -/
def pushAll (i : Nat) (targets : List CrawlTarget) (buckets : Buckets) : Option Buckets :=
  if h : i < PRIORITY_BUCKETS then some (buckets.set i (buckets.get ⟨i, h⟩ ++ targets)) else none

structure Crawler where
  store : UrlStore
  /-- The buckets of the carousel. -/
  buckets : Buckets
  /-- Whether the store has its pointer `dc` to the carousel. -/
  dc : Bool

/-- What the program does with a message, or with a URL that it found itself. -/
inductive Event where
  /-- The handler of `CrawlerListener`: none where the message is not a batch. -/
  | crawlTargets (batch : Option (List CrawlTarget))
  | update (req : Request)
  /-- `client_handler` -/
  | updates (batch : Option (List Request))

section Source

variable (product : Bytes → UInt16 → UInt16 → Int32) (blockedUrlKeywords : List Bytes)

def policy : Policy := ⟨blockedUrlKeywords, getPriorityBucket product⟩

/-- The loop of the handler: a target goes into its bucket without a test of the number. -/
def enqueueTargets (targets : List CrawlTarget) (buckets : Buckets) : Option Buckets :=
  match targets with
  | [] => some buckets
  | target :: targets =>
    (pushAll (getPriorityBucket product target.url target.seedDistance 0) [target] buckets).bind
      fun buckets => enqueueTargets targets buckets

def manageFrontierAndUpdateUrl (req : Request) (c : Crawler) : Option Crawler :=
  let priority := priorityOf (policy product blockedUrlKeywords) req
  let (isNew, store) := updateUrl (policy product blockedUrlKeywords) req priority c.store
  if isNew ∧ c.dc ∧ priority < PRIORITY_BUCKETS then
    (pushAll priority [targetOf req] c.buckets).map fun buckets => { c with store, buckets }
  else some { c with store }

/-- The first loop of the batch form. -/
def putBy (dc : Bool) (reqs : List Request) (store : UrlStore) (bucketTargets : Buckets) :
    Option (UrlStore × Buckets) :=
  match reqs with
  | [] => some (store, bucketTargets)
  | req :: reqs =>
    let priority := priorityOf (policy product blockedUrlKeywords) req
    let (isNew, store) := updateUrl (policy product blockedUrlKeywords) req priority store
    if isNew ∧ dc ∧ priority < PRIORITY_BUCKETS then
      (pushAll priority [targetOf req] bucketTargets).bind fun bucketTargets =>
        putBy dc reqs store bucketTargets
    else putBy dc reqs store bucketTargets

/-- The second loop, from bucket `p` on. With a target to push it follows the pointer `dc`. -/
def pushBuckets (dc : Bool) (bucketTargets : Buckets) : Nat → (p : Nat) → Buckets → Option Buckets
  | 0, _, buckets => some buckets
  | turns + 1, p, buckets =>
    if h : p < PRIORITY_BUCKETS then
      let targets := bucketTargets.get ⟨p, h⟩
      if targets = [] then pushBuckets dc bucketTargets turns (p + 1) buckets
      else if dc then
        (pushAll p targets buckets).bind fun buckets =>
          pushBuckets dc bucketTargets turns (p + 1) buckets
      else none
    else some buckets

def batchManageFrontierAndUpdateUrl (reqs : List Request) (c : Crawler) : Option Crawler :=
  (putBy product blockedUrlKeywords c.dc reqs c.store (Vector.replicate _ [])).bind
    fun (store, bucketTargets) =>
      (pushBuckets c.dc bucketTargets PRIORITY_BUCKETS 0 c.buckets).map fun buckets =>
        { c with store, buckets }

/-- None as soon as an access lies outside of the buckets. -/
def handle (c : Crawler) : Event → Option Crawler
  | .crawlTargets none | .updates none => some c
  | .crawlTargets (some targets) =>
    (enqueueTargets product targets c.buckets).map fun buckets => { c with buckets }
  | .update req => manageFrontierAndUpdateUrl product blockedUrlKeywords req c
  | .updates (some reqs) => batchManageFrontierAndUpdateUrl product blockedUrlKeywords reqs c

def handleAll : Crawler → List Event → Option Crawler
  | c, [] => some c
  | c, e :: es => (handle product blockedUrlKeywords c e).bind fun c => handleAll c es

end Source

variable {product : Bytes → UInt16 → UInt16 → Int32} {blockedUrlKeywords : List Bytes}

/-! ## The bucket of a URL -/

theorem getPriorityBucket_lt_iff {url : Bytes} {seedListDist domainsFromSeed : UInt16} :
    getPriorityBucket product url seedListDist domainsFromSeed < PRIORITY_BUCKETS ↔
      20000000 ≤ calcPriorityScore product url seedListDist domainsFromSeed := by
  unfold getPriorityBucket
  generalize calcPriorityScore product url seedListDist domainsFromSeed = score
  simp only [PRIORITY_BUCKETS]
  split_ifs <;> omega

theorem pushAll_isSome_iff {i : Nat} {targets : List CrawlTarget} {buckets : Buckets} :
    (pushAll i targets buckets).isSome ↔ i < PRIORITY_BUCKETS := by
  unfold pushAll
  split <;> simp [*]

theorem pushAll_of_lt {i : Nat} (h : i < PRIORITY_BUCKETS) (targets : List CrawlTarget)
    (buckets : Buckets) : ∃ buckets', pushAll i targets buckets = some buckets' :=
  Option.isSome_iff_exists.mp (pushAll_isSome_iff.mpr h)

/-! ## The updates test it -/

theorem manageFrontierAndUpdateUrl_inside (req : Request) (c : Crawler) :
    (manageFrontierAndUpdateUrl product blockedUrlKeywords req c).isSome := by
  unfold manageFrontierAndUpdateUrl
  simp only
  split
  · rename_i hpushed
    obtain ⟨buckets, hbuckets⟩ := pushAll_of_lt hpushed.2.2 [targetOf req] c.buckets
    rw [hbuckets]
    rfl
  · rfl

/-- Without a pointer to the carousel nothing is put by. -/
theorem putBy_inside (product : Bytes → UInt16 → UInt16 → Int32)
    (blockedUrlKeywords : List Bytes) (dc : Bool) (reqs : List Request) (store : UrlStore)
    (bucketTargets : Buckets)
    (hnone : dc = false → ∀ i : Fin PRIORITY_BUCKETS, bucketTargets.get i = []) :
    ∃ store' bucketTargets', putBy product blockedUrlKeywords dc reqs store bucketTargets =
        some (store', bucketTargets') ∧
      (dc = false → ∀ i : Fin PRIORITY_BUCKETS, bucketTargets'.get i = []) := by
  induction reqs generalizing store bucketTargets with
  | nil => exact ⟨store, bucketTargets, rfl, hnone⟩
  | cons req reqs ih =>
    rw [putBy]
    simp only
    split
    · rename_i hpushed
      obtain ⟨buckets, hbuckets⟩ := pushAll_of_lt hpushed.2.2 [targetOf req] bucketTargets
      rw [hbuckets, Option.bind_some]
      exact ih _ buckets fun hdc => absurd hpushed.2.1 (by simp [hdc])
    · exact ih _ bucketTargets hnone

theorem pushBuckets_inside (dc : Bool) (bucketTargets : Buckets)
    (hnone : dc = false → ∀ i : Fin PRIORITY_BUCKETS, bucketTargets.get i = []) (turns p : Nat)
    (buckets : Buckets) : (pushBuckets dc bucketTargets turns p buckets).isSome := by
  induction turns generalizing p buckets with
  | zero => rfl
  | succ turns ih =>
    rw [pushBuckets]
    split
    · rename_i hp
      simp only
      split
      · exact ih (p + 1) buckets
      · rename_i htargets
        cases dc with
        | true =>
          obtain ⟨buckets', hbuckets⟩ := pushAll_of_lt hp (bucketTargets.get ⟨p, hp⟩) buckets
          rw [if_pos rfl, hbuckets, Option.bind_some]
          exact ih (p + 1) buckets'
        | false => exact absurd (hnone rfl ⟨p, hp⟩) htargets
    · rfl

theorem batchManageFrontierAndUpdateUrl_inside (reqs : List Request) (c : Crawler) :
    (batchManageFrontierAndUpdateUrl product blockedUrlKeywords reqs c).isSome := by
  obtain ⟨store, bucketTargets, hput, hnone⟩ :=
    putBy_inside product blockedUrlKeywords c.dc reqs c.store (Vector.replicate _ [])
      fun _ i => by simp [Vector.get]
  unfold batchManageFrontierAndUpdateUrl
  rw [hput, Option.bind_some, Option.isSome_map]
  exact pushBuckets_inside c.dc bucketTargets hnone _ _ _

/-! ## The listener does not -/

/-- The URL of a target that has a bucket. -/
def Crawlable (product : Bytes → UInt16 → UInt16 → Int32) (target : CrawlTarget) : Prop :=
  8 ≤ target.url.length ∧ target.url.take 4 = httpPrefix ∧
    20000000 ≤ (product target.url target.seedDistance 0).toInt

theorem crawlable_iff {target : CrawlTarget} :
    getPriorityBucket product target.url target.seedDistance 0 < PRIORITY_BUCKETS ↔
      Crawlable product target := by
  rw [getPriorityBucket_lt_iff, calcPriorityScore, Crawlable]
  split_ifs with hshort hhttp
  · exact iff_of_false (by decide) fun h => absurd h.1 (Nat.not_le_of_lt hshort)
  · simp [Nat.le_of_not_lt hshort, hhttp]
  · exact iff_of_false (by decide) fun h => hhttp h.2.1

theorem enqueueTargets_isSome_iff (targets : List CrawlTarget) (buckets : Buckets) :
    (enqueueTargets product targets buckets).isSome ↔ ∀ t ∈ targets, Crawlable product t := by
  induction targets generalizing buckets with
  | nil => exact iff_of_true rfl fun t ht => absurd ht List.not_mem_nil
  | cons target targets ih =>
    rw [enqueueTargets, List.forall_mem_cons, ← crawlable_iff]
    by_cases hlt : getPriorityBucket product target.url target.seedDistance 0 < PRIORITY_BUCKETS
    · obtain ⟨buckets', hbuckets⟩ := pushAll_of_lt hlt [target] buckets
      rw [hbuckets, Option.bind_some, ih]
      exact (and_iff_right hlt).symm
    · have hnone : ¬ (pushAll (getPriorityBucket product target.url target.seedDistance 0) [target]
          buckets).isSome := mt pushAll_isSome_iff.mp hlt
      rw [Option.not_isSome_iff_eq_none] at hnone
      rw [hnone]
      exact iff_of_false nofun fun h => hlt h.1

/-- What an event has to bring for its accesses to stay inside of the buckets. -/
def Inside (product : Bytes → UInt16 → UInt16 → Int32) : Event → Prop
  | .crawlTargets (some targets) => ∀ t ∈ targets, Crawlable product t
  | _ => True

theorem handle_isSome_iff (product : Bytes → UInt16 → UInt16 → Int32)
    (blockedUrlKeywords : List Bytes) (c : Crawler) (e : Event) :
    (handle product blockedUrlKeywords c e).isSome ↔ Inside product e := by
  cases e with
  | crawlTargets batch =>
    cases batch with
    | none => exact iff_of_true rfl trivial
    | some targets =>
      rw [handle, Option.isSome_map]
      exact enqueueTargets_isSome_iff targets c.buckets
  | update req => exact iff_of_true (manageFrontierAndUpdateUrl_inside req c) trivial
  | updates batch =>
    cases batch with
    | none => exact iff_of_true rfl trivial
    | some reqs => exact iff_of_true (batchManageFrontierAndUpdateUrl_inside reqs c) trivial

/-- A run never leaves the buckets exactly if every target that it receives has one. -/
theorem accesses_inside_iff (product : Bytes → UInt16 → UInt16 → Int32)
    (blockedUrlKeywords : List Bytes) (c : Crawler) (es : List Event) :
    (handleAll product blockedUrlKeywords c es).isSome ↔ ∀ e ∈ es, Inside product e := by
  induction es generalizing c with
  | nil => exact iff_of_true rfl fun e he => absurd he List.not_mem_nil
  | cons e es ih =>
    rw [handleAll, List.forall_mem_cons, ← handle_isSome_iff product blockedUrlKeywords c]
    cases handle product blockedUrlKeywords c e with
    | none => exact iff_of_false nofun fun h => nomatch h.1
    | some c' =>
      rw [Option.bind_some, ih]
      exact (and_iff_right rfl).symm

/-- A target `ftp://a.b`, of which no score is high enough. -/
theorem low_score_leaves_buckets :
    handleAll (fun _ _ _ => 0) [] ⟨emptyStore, Vector.replicate _ [], true⟩
      [.crawlTargets (some [⟨[97, 46, 98], [102, 116, 112, 58, 47, 47, 97, 46, 98], 0, 0⟩])] =
      none := by
  rfl

end seamus.frontier_buckets
