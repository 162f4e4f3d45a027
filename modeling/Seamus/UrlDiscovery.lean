-- What all the calls together leave in the URL store and in the frontier, in
-- whatever order the workers take their turns.
import Seamus.UrlStoreWorkers
import Mathlib.Algebra.BigOperators.Group.Multiset.Basic
import Mathlib.Data.Multiset.Filter

open interleaving seamus.url_store seamus.url_store_file seamus.url_store_workers

namespace seamus.url_discovery

/-! ## What a record should hold -/

/-- The entries of the log that are about a URL, given in lower case. -/
def entriesFor (url : Bytes) (log : List (Request × Bool)) : List (Request × Bool) :=
  log.filter fun e => lowercaseUrl e.1.url = url

def requestsFor (url : Bytes) (rs : List Request) : List Request :=
  rs.filter fun r => lowercaseUrl r.url = url

def Least (f : Request → UInt16) (rs : List Request) (d : UInt16) : Prop :=
  (∃ r ∈ rs, f r = d) ∧ ∀ r ∈ rs, d ≤ f r

/-- The counters of a record are those of a list of requests. -/
structure Summary (data : UrlData) (rs : List Request) : Prop where
  count : data.numEncountered.toNat = u32 (rs.map fun r => r.numEncountered.toNat).sum
  seed : Least Request.seedListUrlHops rs data.seedDistance
  domain : Least Request.seedListDomainHops rs data.domainDist

theorem least_single (f : Request → UInt16) (r : Request) : Least f [r] (f r) := by
  refine ⟨⟨r, List.mem_cons_self, rfl⟩, ?_⟩
  intro r' hr'
  rw [List.mem_singleton.mp hr']
  exact UInt16.le_refl _

theorem Least.add {f : Request → UInt16} {rs : List Request} {d : UInt16} (h : Least f rs d)
    (r : Request) : Least f (rs ++ [r]) (min d (f r)) := by
  obtain ⟨⟨first, hfirst, heq⟩, hle⟩ := h
  have hmin : min d (f r) = if d ≤ f r then d else f r := rfl
  rw [hmin]
  constructor
  · split_ifs
    · exact ⟨first, List.mem_append_left _ hfirst, heq⟩
    · exact ⟨r, List.mem_append_right _ List.mem_cons_self, rfl⟩
  · intro other hother
    rcases List.mem_append.mp hother with hother | hother
    · have hd := hle other hother
      split_ifs with hdr
      · exact hd
      · rw [UInt16.le_iff_toNat_le] at hd hdr ⊢
        omega
    · rw [List.mem_singleton.mp hother]
      split_ifs with hdr
      · exact hdr
      · exact UInt16.le_refl _

theorem summary_first (r : Request) : Summary (firstData r) [r] := by
  refine ⟨?_, least_single _ r, least_single _ r⟩
  rw [List.map_singleton, List.sum_singleton, u32_of_lt r.numEncountered.toNat_lt]
  rfl

theorem Summary.merge {data : UrlData} {rs : List Request} (h : Summary data rs) (r : Request) :
    Summary (merge r data) (rs ++ [r]) := by
  obtain ⟨hcount, hseed, hdomain⟩ := h
  refine ⟨?_, hseed.add r, hdomain.add r⟩
  have hadd : (url_store.merge r data).numEncountered.toNat =
      (data.numEncountered.toNat + r.numEncountered.toNat) % 2 ^ 32 := UInt32.toNat_add _ _
  rw [hadd, hcount, u32, u32, Nat.mod_add_mod, List.map_append, List.sum_append]
  rfl

/-- An anchor text changes no counter. -/
theorem Summary.countAnchor {data : UrlData} {rs : List Request} (h : Summary data rs)
    (isNew : Bool) (id : UInt32) : Summary (countAnchor isNew id data) rs :=
  ⟨h.count, h.seed, h.domain⟩

/-- A perm of the requests has the same summary. -/
theorem Summary.perm {data : UrlData} {rs rs' : List Request} (h : Summary data rs)
    (hp : rs.Perm rs') : Summary data rs' := by
  obtain ⟨hcount, ⟨⟨r, hr, hreq⟩, hseed⟩, ⟨⟨d, hd, hdeq⟩, hdomain⟩⟩ := h
  refine ⟨?_, ⟨⟨r, hp.mem_iff.mp hr, hreq⟩, ?_⟩, ⟨⟨d, hp.mem_iff.mp hd, hdeq⟩, ?_⟩⟩
  · rw [hcount, (hp.map _).sum_eq]
  · exact fun r hr => hseed r (hp.mem_iff.mpr hr)
  · exact fun r hr => hdomain r (hp.mem_iff.mpr hr)

/-! ## The records follow the log -/

/-- A URL is in the store when the log has a result for it. The first result for a URL is
true, all later ones are false, and its record sums up its requests. -/
structure Recorded (store : UrlStore) (log : List (Request × Bool)) : Prop where
  absent : ∀ url, findUrlData url store = none → entriesFor url log = []
  present : ∀ url data, findUrlData url store = some data →
    ∃ r rest, entriesFor url log = (r, true) :: rest ∧ (∀ e ∈ rest, e.2 = false) ∧
      Summary data ((entriesFor url log).map Prod.fst)

theorem entriesFor_add (url : Bytes) (log : List (Request × Bool)) (r : Request) (isNew : Bool) :
    entriesFor url (log ++ [(r, isNew)]) =
      if lowercaseUrl r.url = url then entriesFor url log ++ [(r, isNew)]
      else entriesFor url log := by
  unfold entriesFor
  rw [List.filter_append]
  by_cases h : lowercaseUrl r.url = url <;> simp [h]

section

variable {store : UrlStore} {log : List (Request × Bool)}

theorem Recorded.congr (h : Recorded store log) {store' : UrlStore}
    (hs : store'.shards = store.shards) : Recorded store' log := by
  have hfind : ∀ url, findUrlData url store' = findUrlData url store := by
    intro url
    unfold findUrlData
    rw [hs]
  constructor
  · intro url hnone
    rw [hfind] at hnone
    exact h.absent url hnone
  · intro url data hsome
    rw [hfind] at hsome
    exact h.present url data hsome

/-- The record of one URL is written, and what is added to the log is about that URL. -/
theorem Recorded.write (h : Recorded store log) {log' : List (Request × Bool)} {url : Bytes}
    {data : UrlData}
    (hothers : ∀ other, other ≠ url → entriesFor other log' = entriesFor other log)
    (hurl : ∃ r rest, entriesFor url log' = (r, true) :: rest ∧ (∀ e ∈ rest, e.2 = false) ∧
      Summary data ((entriesFor url log').map Prod.fst)) :
    Recorded (setUrlData url data store) log' := by
  constructor
  · intro other hnone
    by_cases hu : other = url
    · rw [hu, findUrlData_setUrlData] at hnone
      cases hnone
    · rw [findUrlData_setUrlData_of_ne _ _ hu] at hnone
      rw [hothers other hu]
      exact h.absent other hnone
  · intro other data' hsome
    by_cases hu : other = url
    · subst hu
      rw [findUrlData_setUrlData] at hsome
      cases hsome
      exact hurl
    · rw [findUrlData_setUrlData_of_ne _ _ hu] at hsome
      rw [hothers other hu]
      exact h.present other data' hsome

/-- A result is about its own URL alone. -/
theorem entriesFor_other {r : Request} (isNew : Bool) {other : Bytes}
    (h : other ≠ lowercaseUrl r.url) :
    entriesFor other (log ++ [(r, isNew)]) = entriesFor other log := by
  rw [entriesFor_add, if_neg (Ne.symm h)]

theorem Recorded.known (h : Recorded store log) {r : Request} {data : UrlData}
    (hfind : findUrlData (lowercaseUrl r.url) store = some data) :
    Recorded (setUrlData (lowercaseUrl r.url) (merge r data) store) (log ++ [(r, false)]) := by
  apply h.write fun _ => entriesFor_other false
  obtain ⟨first, rest, hentries, hrest, hsummary⟩ := h.present _ data hfind
  rw [entriesFor_add, if_pos rfl]
  refine ⟨first, rest ++ [(r, false)], ?_, ?_, ?_⟩
  · rw [hentries, List.cons_append]
  · intro e he
    rcases List.mem_append.mp he with he | he
    · exact hrest e he
    · rw [List.mem_singleton.mp he]
  · rw [List.map_append]
    exact hsummary.merge r

theorem Recorded.insert (h : Recorded store log) {r : Request}
    (hfind : findUrlData (lowercaseUrl r.url) store = none) :
    Recorded (setUrlData (lowercaseUrl r.url) (firstData r) store) (log ++ [(r, true)]) := by
  apply h.write fun _ => entriesFor_other true
  rw [entriesFor_add, if_pos rfl, h.absent _ hfind]
  refine ⟨r, [], rfl, ?_, summary_first r⟩
  intro e he
  cases he

/-- Another data with the same counters. -/
theorem Recorded.recount (h : Recorded store log) {url : Bytes} {data data' : UrlData}
    (hfind : findUrlData url store = some data)
    (hsame : ∀ rs, Summary data rs → Summary data' rs) :
    Recorded (setUrlData url data' store) log := by
  apply h.write fun _ _ => rfl
  obtain ⟨first, rest, hentries, hrest, hsummary⟩ := h.present _ data hfind
  exact ⟨first, rest, hentries, hrest, hsame _ hsummary⟩

theorem Recorded.anchor (h : Recorded store log) {url : Bytes} {data : UrlData}
    (hfind : findUrlData url store = some data) (isNew : Bool) (text : Bytes) :
    Recorded (addAnchor isNew url store text) log := by
  unfold addAnchor
  dsimp only
  rw [findUrlData_anchors]
  generalize findAnchorId text (findUrlData url store) store.toAnchorTable = found
  have hanchors : Recorded (setAnchors found.2 store) log := h.congr rfl
  split_ifs
  · exact hanchors
  · rw [hfind]
    exact hanchors.recount hfind fun rs hs => hs.countAnchor isNew found.1

end

/-! ## The requests that have no result yet -/

def callRequests : Call → Multiset Request
  | .single r => {r}
  | .batch rs => rs

def callerRequests : Caller → Multiset Request
  | .single => 0
  | .batch rest _ => rest

def phaseRequests : Phase → Multiset Request
  | .idle => 0
  | .looping rest _ => rest
  | .unknown caller r => {r} + callerRequests caller
  | .counting caller _ _ _ => callerRequests caller
  | .returned caller _ _ => callerRequests caller
  | .pushing _ _ => 0

def undecided (w : Worker) : Multiset Request := total callRequests w.calls + phaseRequests w.phase

theorem next_undecided {w : Worker} {calls : List Call} {caller : Caller} {r : Request}
    (h : Next w calls caller r) :
    undecided w = {r} + (total callRequests calls + callerRequests caller) := by
  cases h with
  | single =>
    simp only [undecided, total_cons, callRequests, phaseRequests, callerRequests]
    abel
  | @batch _ _ rest _ =>
    have hcons : ((r :: rest : List Request) : Multiset Request) = {r} + (rest : Multiset Request) :=
      rfl
    simp only [undecided, phaseRequests, callerRequests, hcons]
    abel

/-! ## The targets that are not in a bucket yet -/

/-- The target that a result sends to a bucket. -/
def chosen (p : Policy) (bucket : Nat) (e : Request × Bool) : Multiset CrawlTarget :=
  if e.2 = true ∧ priorityOf p e.1 = bucket then {targetOf e.1} else 0

def callerTargets (bucket : Nat) : Caller → Multiset CrawlTarget
  | .single => 0
  | .batch _ targets => bucketOf bucket targets

def waiting (p : Policy) (bucket : Nat) (w : Worker) : Multiset CrawlTarget :=
  match w.phase with
  | .idle => 0
  | .looping _ targets => bucketOf bucket targets
  | .unknown caller _ => callerTargets bucket caller
  | .counting caller r isNew _ => chosen p bucket (r, isNew) + callerTargets bucket caller
  | .returned caller r isNew => chosen p bucket (r, isNew) + callerTargets bucket caller
  | .pushing next targets => if next ≤ bucket then bucketOf bucket targets else 0

theorem next_waiting {p : Policy} {bucket : Nat} {w : Worker} {calls : List Call} {caller : Caller}
    {r : Request} (h : Next w calls caller r) : waiting p bucket w = callerTargets bucket caller := by
  cases h <;> rfl

/-! ## The ledger -/

/-- Whether the URL of a worker is in the store, while it holds the shard. -/
def FoundIn (store : UrlStore) : Phase → Prop
  | .unknown _ r => findUrlData (lowercaseUrl r.url) store = none
  | .counting _ r _ _ => findUrlData (lowercaseUrl r.url) store ≠ none
  | .idle | .looping _ _ | .returned _ _ _ | .pushing _ _ => True

/-- The buckets hold what they held at first and, with what the workers have put by, the
targets of all true results. -/
def Targets (p : Policy) (old : Nat → List CrawlTarget) (s : System) : Prop :=
  ∃ added : Nat → List CrawlTarget, s.dc = some (fun b => old b ++ added b) ∧
    ∀ b, b < PRIORITY_BUCKETS →
      (added b : Multiset CrawlTarget) + total (waiting p b) s.workers = total (chosen p b) s.log

structure Ledger (p : Policy) (old : Nat → List CrawlTarget) (rs : Multiset Request) (s : System) :
    Prop where
  mutex : Mutex s.locks s.workers
  recorded : Recorded s.store s.log
  found : ∀ (j : Nat) (w : Worker), s.workers[j]? = some w → FoundIn s.store w.phase
  requests : (s.log.map Prod.fst : Multiset Request) + total undecided s.workers = rs
  targets : Targets p old s

variable {p : Policy} {i : Nat} {s s' : System} {old : Nat → List CrawlTarget}
  {rs : Multiset Request}

/-- What the theorem asks of every request. -/
def Admitted (p : Policy) (rs : Multiset Request) : Prop :=
  ∀ r ∈ rs, priorityOf p r < PRIORITY_BUCKETS ∧ isNsfwUrl p (lowercaseUrl r.url) = false

def HasRoom (_ : Action) (s : System) : Prop := s.store.uniqueUrlCount < MAX_STORE_URLS

instance (a : Action) (s : System) : Decidable (HasRoom a s) := Nat.decLt _ _

/-- The request that a worker takes up is one of those given. -/
theorem next_mem (h : (s.log.map Prod.fst : Multiset Request) + total undecided s.workers = rs)
    {w : Worker} (hw : s.workers[i]? = some w) {calls : List Call} {caller : Caller} {r : Request}
    (hn : Next w calls caller r) : r ∈ rs := by
  obtain ⟨rest, hsplit⟩ := total_split undecided hw
  rw [← h, hsplit, next_undecided hn]
  simp

/-! ## The steps of the ledger -/

theorem turn_recorded (h : Ledger p old rs s) (ha : Admitted p rs) (hroom : HasRoom (.work i) s)
    (hturn : Turn p i s s') : Recorded s'.store s'.log := by
  cases hturn with
  | known hw hn hfree hfind =>
    apply Recorded.known
    · exact h.recorded.congr rfl
    · exact hfind
  | dropped hw hn hfree hfind hwhy =>
    obtain ⟨hpriority, hclean⟩ := ha _ (next_mem h.requests hw hn)
    rcases hwhy with hlow | hnsfw | hfull
    · exact absurd hlow (Nat.not_le_of_lt hpriority)
    · rw [hclean] at hnsfw; cases hnsfw
    · exact absurd hfull (Nat.not_le_of_lt hroom)
  | unknown hw hn hfree hfind => exact h.recorded.congr rfl
  | insert hw hfind =>
    apply Recorded.insert
    · exact h.recorded.congr rfl
    · exact hfind
  | overtaken hw hfind =>
    have hnone := h.found _ _ hw
    rw [FoundIn, hfind] at hnone
    cases hnone
  | anchor hw =>
    obtain ⟨data, hdata⟩ := Option.ne_none_iff_exists'.mp (h.found _ _ hw)
    exact h.recorded.anchor hdata _ _
  | startBatch | endLoop | leave | single | putBy | pushBucket | endPush => exact h.recorded

/-- What a worker found in its shard is as it was while no other writes there. -/
theorem FoundIn.frame {store store' : UrlStore} {phase : Phase} (h : FoundIn store phase)
    (hsame : ∀ url, holding phase = some (shardOf url) →
      findUrlData url store' = findUrlData url store) : FoundIn store' phase := by
  cases phase with
  | unknown caller r => rw [FoundIn, hsame _ rfl]; exact h
  | counting caller r isNew texts => rw [FoundIn, hsame _ rfl]; exact h
  | idle | looping | returned | pushing => trivial

theorem turn_found (h : Ledger p old rs s) (ha : Admitted p rs) (hroom : HasRoom (.work i) s)
    (hturn : Turn p i s s') (j : Nat) (w : Worker) (hw : s'.workers[j]? = some w) :
    FoundIn s'.store w.phase := by
  revert j w
  have hothers (j : Nat) (w : Worker) (hne : j ≠ i) (hj : s.workers[j]? = some w) :
      FoundIn s'.store w.phase :=
    (h.found j w hj).frame fun url hheld => turn_frame h.mutex hturn hj hne hheld
  cases hturn with
  | known hw hn hfree hfind =>
    exact holds_set (findUrlData_set_ne_none _ _ _) hothers
  | dropped hw hn hfree hfind hwhy =>
    obtain ⟨hpriority, hclean⟩ := ha _ (next_mem h.requests hw hn)
    rcases hwhy with hlow | hnsfw | hfull
    · exact absurd hlow (Nat.not_le_of_lt hpriority)
    · rw [hclean] at hnsfw; cases hnsfw
    · exact absurd hfull (Nat.not_le_of_lt hroom)
  | unknown hw hn hfree hfind => exact holds_set hfind hothers
  | insert hw hfind =>
    exact holds_set (findUrlData_set_ne_none _ _ _) hothers
  | overtaken hw hfind =>
    refine holds_set ?_ hothers
    show findUrlData _ s.store ≠ none
    rw [hfind]
    exact Option.some_ne_none _
  | anchor hw => exact holds_set (addAnchor_found _ _ _ (h.found _ _ hw)) hothers
  | startBatch hw | endLoop hw | leave hw | single hw | putBy hw | pushBucket hw | endPush hw =>
    exact holds_set trivial hothers

theorem turn_requests (hturn : Turn p i s s') :
    (s'.log.map Prod.fst : Multiset Request) + total undecided s'.workers =
      (s.log.map Prod.fst : Multiset Request) + total undecided s.workers := by
  have hkeep {w w' : Worker} (hw : s.workers[i]? = some w) (heq : undecided w' = undecided w) :
      (s.log.map Prod.fst : Multiset Request) + total undecided (s.workers.set i w') =
        (s.log.map Prod.fst : Multiset Request) + total undecided s.workers := by
    rw [total_keep undecided hw heq]
  have hdecide {w w' : Worker} {r : Request} {isNew : Bool} (hw : s.workers[i]? = some w)
      (heq : undecided w = {r} + undecided w') :
      (((s.log ++ [(r, isNew)]).map Prod.fst : List Request) : Multiset Request) +
          total undecided (s.workers.set i w') =
        (s.log.map Prod.fst : Multiset Request) + total undecided s.workers := by
    rw [← total_lose undecided hw heq, List.map_append, ← Multiset.coe_add, add_assoc]
    rfl
  cases hturn with
  | known hw hn | dropped hw hn => exact hdecide hw (next_undecided hn)
  | insert hw | overtaken hw =>
    apply hdecide hw
    simp only [undecided, phaseRequests]
    abel
  | unknown hw hn =>
    apply hkeep hw
    rw [next_undecided hn]
    simp only [undecided, phaseRequests]
    abel
  | startBatch hw =>
    apply hkeep hw
    simp only [undecided, total_cons, callRequests, phaseRequests]
    abel
  | endLoop hw | anchor hw | leave hw | single hw | putBy hw | pushBucket hw | endPush hw =>
    exact hkeep hw rfl

theorem step_requests {a : Action} (hstep : step p a s = some s') :
    (s'.log.map Prod.fst : Multiset Request) + total undecided s'.workers =
      (s.log.map Prod.fst : Multiset Request) + total undecided s.workers := by
  rcases step_cases hstep with ⟨i, _, hturn⟩ | ⟨_, _, _, hworkers, hlog⟩
  · exact turn_requests hturn
  · rw [hworkers, hlog]

/-! ## The pushes -/

/-- A turn that pushes some targets, when they left a worker or come with a result. -/
theorem Targets.move (h : Targets p old s) (more : Nat → List CrawlTarget)
    (hdc : ∀ added : Nat → List CrawlTarget, s.dc = some (fun b => old b ++ added b) →
      s'.dc = some (fun b => old b ++ (added b ++ more b)))
    (hsum : ∀ b, b < PRIORITY_BUCKETS →
      (more b : Multiset CrawlTarget) + total (waiting p b) s'.workers + total (chosen p b) s.log =
        total (waiting p b) s.workers + total (chosen p b) s'.log) : Targets p old s' := by
  obtain ⟨added, hadded, hb⟩ := h
  refine ⟨fun b => added b ++ more b, hdc added hadded, ?_⟩
  intro b hlt
  have hold := hb b hlt
  have hnew := hsum b hlt
  rw [← Multiset.coe_add]
  generalize (added b : Multiset CrawlTarget) = A at hold ⊢
  generalize (more b : Multiset CrawlTarget) = M at hnew ⊢
  generalize total (waiting p b) s.workers = W at hold hnew
  generalize total (waiting p b) s'.workers = W' at hnew ⊢
  have hboth : A + M + W' + total (chosen p b) s.log =
      total (chosen p b) s'.log + total (chosen p b) s.log := by
    rw [add_assoc A M W', add_assoc A, hnew, ← add_assoc, hold, add_comm]
  exact add_right_cancel hboth

theorem Targets.keep (h : Targets p old s) (hdc : s'.dc = s.dc)
    (hsum : ∀ b, b < PRIORITY_BUCKETS →
      total (waiting p b) s'.workers + total (chosen p b) s.log =
        total (waiting p b) s.workers + total (chosen p b) s'.log) : Targets p old s' := by
  apply h.move (fun _ => [])
  · intro added hadded
    simp only [List.append_nil]
    exact hdc.trans hadded
  · intro b hlt
    have hzero : ((([] : List CrawlTarget)) : Multiset CrawlTarget) = 0 := rfl
    rw [hzero, zero_add]
    exact hsum b hlt

/-- The worker waits with what it waited with before. -/
theorem Targets.stay (h : Targets p old s) (hdc : s'.dc = s.dc) {w w' : Worker}
    (hw : s.workers[i]? = some w) (hworkers : s'.workers = s.workers.set i w')
    (hlog : s'.log = s.log)
    (hsame : ∀ b, b < PRIORITY_BUCKETS → waiting p b w' = waiting p b w) : Targets p old s' := by
  apply h.keep hdc
  intro b hlt
  rw [hworkers, hlog, total_keep (waiting p b) hw (hsame b hlt)]

/-- The worker waits with the target of a new result. -/
theorem Targets.decide (h : Targets p old s) (hdc : s'.dc = s.dc) {w w' : Worker} {r : Request}
    {isNew : Bool} (hw : s.workers[i]? = some w) (hworkers : s'.workers = s.workers.set i w')
    (hlog : s'.log = s.log ++ [(r, isNew)])
    (hmore : ∀ b, waiting p b w' = chosen p b (r, isNew) + waiting p b w) : Targets p old s' := by
  apply h.keep hdc
  intro b hlt
  have hone : total (chosen p b) [(r, isNew)] = chosen p b (r, isNew) := by
    simp [total]
  rw [hworkers, hlog, total_gain (waiting p b) hw (hmore b), total_append, hone]
  abel

theorem coe_bucketOf_append (b : Nat) (xs ys : List (Nat × CrawlTarget)) :
    (bucketOf b (xs ++ ys) : Multiset CrawlTarget) =
      (bucketOf b xs : Multiset CrawlTarget) + (bucketOf b ys : Multiset CrawlTarget) := by
  rw [bucketOf, List.filter_append, List.map_append, ← Multiset.coe_add]
  rfl

theorem bucketOf_single (b k : Nat) (t : CrawlTarget) :
    bucketOf b [(k, t)] = if b = k then [t] else [] := by
  unfold bucketOf
  by_cases hb : b = k
  · simp [hb]
  · simp [hb, Ne.symm hb]

/-- What `isPushed` lets through to a bucket is what its result sends there. -/
theorem pushed_eq_chosen (hdc : s.dc.isSome = true) (r : Request) (isNew : Bool) {b : Nat}
    (hb : b < PRIORITY_BUCKETS) :
    ((if isPushed p s r isNew then (if b = priorityOf p r then [targetOf r] else []) else [] :
      List CrawlTarget) : Multiset CrawlTarget) = chosen p b (r, isNew) := by
  unfold isPushed chosen
  rw [hdc]
  cases isNew with
  | false => simp
  | true =>
    by_cases hp : b = priorityOf p r
    · subst hp
      simp [hb]
    · simp [hp, Ne.symm hp]

theorem push_added (k : Nat) (ts : List CrawlTarget) (added : Nat → List CrawlTarget) :
    push k ts (some fun b => old b ++ added b) =
      some fun b => old b ++ (added b ++ if b = k then ts else []) := by
  have heq : Function.update (fun b => old b ++ added b) k (old k ++ added k ++ ts) =
      fun b => old b ++ (added b ++ if b = k then ts else []) := by
    funext b
    by_cases hb : b = k
    · subst hb
      rw [Function.update_self, if_pos rfl, List.append_assoc]
    · rw [Function.update_of_ne hb, if_neg hb, List.append_nil]
  exact congrArg some heq

/-- The buckets gain what the worker has waited with. -/
theorem Targets.lose (h : Targets p old s) (more : Nat → List CrawlTarget) {w w' : Worker}
    (hdc : ∀ added : Nat → List CrawlTarget, s.dc = some (fun b => old b ++ added b) →
      s'.dc = some (fun b => old b ++ (added b ++ more b)))
    (hw : s.workers[i]? = some w) (hworkers : s'.workers = s.workers.set i w')
    (hlog : s'.log = s.log)
    (hless : ∀ b, b < PRIORITY_BUCKETS →
      waiting p b w = (more b : Multiset CrawlTarget) + waiting p b w') : Targets p old s' := by
  apply h.move more hdc
  intro b hlt
  rw [hworkers, hlog, total_lose (waiting p b) hw (hless b hlt)]

theorem turn_targets (h : Targets p old s) (hturn : Turn p i s s') : Targets p old s' := by
  have hdc : s.dc.isSome = true := by
    obtain ⟨added, hadded, _⟩ := h
    rw [hadded]
    rfl
  cases hturn with
  | startBatch hw | anchor hw | leave hw =>
    exact h.stay rfl hw rfl rfl fun b _ => rfl
  | endLoop hw =>
    refine h.stay rfl hw rfl rfl fun b _ => ?_
    · simp only [waiting, Nat.zero_le, if_true]
  | unknown hw hn =>
    refine h.stay rfl hw rfl rfl fun b _ => ?_
    · rw [next_waiting hn]
      rfl
  | known hw hn | dropped hw hn =>
    refine h.decide rfl hw rfl rfl fun b => ?_
    · rw [next_waiting hn]
      rfl
  | insert hw =>
    exact h.decide rfl hw rfl rfl fun b => rfl
  | overtaken hw =>
    exact h.decide rfl hw rfl rfl fun b => rfl
  | endPush hw hb =>
    refine h.stay rfl hw rfl rfl fun b hlt => ?_
    · exact (if_neg (Nat.not_le_of_lt (Nat.lt_of_lt_of_le hlt hb))).symm
  | @putBy calls r isNew rest targets hw =>
    refine h.stay rfl hw rfl rfl fun b hlt => ?_
    · have hcase : (bucketOf b (if isPushed p s r isNew then
          targets ++ [(priorityOf p r, targetOf r)] else targets) : Multiset CrawlTarget) =
          bucketOf b targets + chosen p b (r, isNew) := by
        rw [← pushed_eq_chosen hdc r isNew hlt]
        cases isPushed p s r isNew with
        | false => simp
        | true =>
          simp only [if_true]
          rw [coe_bucketOf_append, bucketOf_single]
      exact hcase.trans (add_comm _ _)
  | @single calls r isNew hw =>
    refine h.lose (fun b => if isPushed p s r isNew then
      (if b = priorityOf p r then [targetOf r] else []) else []) ?_ hw rfl rfl fun b hlt => ?_
    · intro added hadded
      cases hpushed : isPushed p s r isNew with
      | false => simp [setWorker, hadded]
      | true =>
        simp only [setWorker, if_true]
        rw [hadded, push_added]
    · rw [pushed_eq_chosen hdc r isNew hlt]
      rfl
  | @pushBucket calls k targets hw hb =>
    refine h.lose (fun b => if b = k then bucketOf k targets else []) ?_ hw rfl rfl fun b _ => ?_
    · intro added hadded
      simp only [setWorker]
      rw [hadded, push_added]
    · simp only [waiting]
      by_cases hbk : b = k
      · subst hbk
        simp
      · by_cases hle : k ≤ b
        · have hlt : k + 1 ≤ b := Nat.lt_of_le_of_ne hle (Ne.symm hbk)
          simp [hbk, hle, hlt]
        · have hnlt : ¬k + 1 ≤ b := fun hlt => hle (Nat.le_of_succ_le hlt)
          simp [hbk, hle, hnlt]

theorem ledger_step (ha : Admitted p rs) (a : Action) (s s' : System) (h : Ledger p old rs s)
    (hroom : HasRoom a s) (hstep : step p a s = some s') : Ledger p old rs s' := by
  have hrequests := (step_requests hstep).trans h.requests
  have hmutex := step_mutex p a s s' h.mutex hstep
  rcases step_cases hstep with ⟨i, _, hturn⟩ | ⟨hstore, _, hdc, hworkers, hlog⟩
  · exact ⟨hmutex, turn_recorded h ha hroom hturn, turn_found h ha hroom hturn, hrequests,
      turn_targets h.targets hturn⟩
  · refine ⟨hmutex, ?_, ?_, hrequests, ?_⟩
    · rw [hstore, hlog]; exact h.recorded
    · rw [hstore, hworkers]; exact h.found
    · apply h.targets.keep hdc
      intro b _
      rw [hworkers, hlog]

theorem entriesFor_map_fst (url : Bytes) (log : List (Request × Bool)) :
    (entriesFor url log).map Prod.fst = requestsFor url (log.map Prod.fst) := by
  rw [entriesFor, requestsFor, List.filter_map]
  rfl

/-- The targets for a URL come from the results for it. -/
theorem filter_total_chosen (p : Policy) (b : Nat) (url : Bytes) (log : List (Request × Bool)) :
    (total (chosen p b) log).filter (fun t => lowercaseUrl t.url = url) =
      total (chosen p b) (entriesFor url log) := by
  induction log with
  | nil => rfl
  | cons e log ih =>
    have hentries : entriesFor url (e :: log) =
        if lowercaseUrl e.1.url = url then e :: entriesFor url log else entriesFor url log := by
      unfold entriesFor
      by_cases hu : lowercaseUrl e.1.url = url <;> simp [hu]
    have hurl : (targetOf e.1).url = e.1.url := rfl
    rw [total_cons, Multiset.filter_add, ih, hentries]
    by_cases hu : lowercaseUrl e.1.url = url
    · rw [if_pos hu, total_cons]
      congr 1
      unfold chosen
      split_ifs
      · exact Multiset.filter_singleton _ |>.trans (by rw [hurl, if_pos hu])
      · rfl
    · rw [if_neg hu]
      have hnone : (chosen p b e).filter (fun t => lowercaseUrl t.url = url) = 0 := by
        unfold chosen
        split_ifs
        · exact Multiset.filter_singleton _ |>.trans (by rw [hurl, if_neg hu]; rfl)
        · rfl
      rw [hnone, zero_add]

theorem ledger_begin (p : Policy) (old : Nat → List CrawlTarget) (calls : List (List Call)) :
    Ledger p old (total (total callRequests) calls) (begin' emptyStore (some old) calls) := by
  have hidle : ∀ w ∈ calls.map (fun cs => (⟨cs, .idle⟩ : Worker)), w.phase = .idle := by
    intro w hw
    obtain ⟨cs, _, rfl⟩ := List.mem_map.mp hw
    rfl
  have hundecided : total undecided (calls.map fun cs => (⟨cs, .idle⟩ : Worker)) =
      total (total callRequests) calls := by
    rw [total, total, List.map_map]
    congr 1
    apply List.map_congr_left
    intro cs _
    exact add_zero _
  have hwaiting : ∀ b, total (waiting p b) (calls.map fun cs => (⟨cs, .idle⟩ : Worker)) = 0 := by
    intro b
    apply total_eq_zero
    intro w hw
    rw [waiting, hidle w hw]
  refine ⟨mutex_begin emptyStore _ calls, ⟨fun _ _ => rfl, ?_⟩, ?_, ?_, fun _ => [], ?_, ?_⟩
  · intro url data hfind
    cases hfind
  · intro j w hw
    rw [hidle w (List.mem_of_getElem? hw)]
    trivial
  · exact (zero_add _).trans hundecided
  · simp only [begin', List.append_nil]
  · intro b _
    exact (zero_add _).trans (hwaiting b)

/-- What is left of the calls when all workers are done. -/
theorem done_sums (hdone : Done s) : total undecided s.workers = 0 ∧
    ∀ b, total (waiting p b) s.workers = 0 := by
  constructor
  · apply total_eq_zero
    intro w hw
    obtain ⟨hcalls, hphase⟩ := hdone w hw
    rw [undecided, hcalls, hphase]
    rfl
  · intro b
    apply total_eq_zero
    intro w hw
    rw [waiting, (hdone w hw).2]

def requestsOf (calls : List (List Call)) : Multiset Request := total (total callRequests) calls

/-- The URL has one record that sums up its requests, one of them returned true, and for it
one target was pushed, to the bucket of its priority. -/
structure Discovered (p : Policy) (old : Nat → List CrawlTarget) (rs : List Request) (url : Bytes)
    (s : System) : Prop where
  record : ∃ data, findUrlData url s.store = some data ∧ Summary data (requestsFor url rs)
  once : ∃ r, (entriesFor url s.log).filter (fun e => e.2) = [(r, true)] ∧
    ∃ added : Nat → List CrawlTarget, s.dc = some (fun b => old b ++ added b) ∧
      ∀ b, b < PRIORITY_BUCKETS → (added b).filter (fun t => lowercaseUrl t.url = url) =
        if b = priorityOf p r then [targetOf r] else []

theorem Ledger.discovered (h : Ledger p old rs s) (hdone : Done s) {requests : List Request}
    (hrs : rs = requests) {r : Request} (hr : r ∈ requests) :
    Discovered p old requests (lowercaseUrl r.url) s := by
  obtain ⟨hundecided, hwaiting⟩ := done_sums (p := p) hdone
  have hperm : (s.log.map Prod.fst).Perm requests := by
    have hlog := h.requests
    rw [hundecided, add_zero, hrs] at hlog
    exact Multiset.coe_eq_coe.mp hlog
  have hpermFor : (requestsFor (lowercaseUrl r.url) (s.log.map Prod.fst)).Perm
      (requestsFor (lowercaseUrl r.url) requests) := hperm.filter _
  -- The URL is in the store, since its request is in the log.
  have hentry : entriesFor (lowercaseUrl r.url) s.log ≠ [] := by
    obtain ⟨e, he, heq⟩ := List.mem_map.mp (hperm.mem_iff.mpr hr)
    intro hnil
    have hmem : e ∈ entriesFor (lowercaseUrl r.url) s.log :=
      List.mem_filter.mpr ⟨he, by rw [heq]; exact decide_eq_true rfl⟩
    rw [hnil] at hmem
    cases hmem
  obtain ⟨data, hdata⟩ : ∃ data, findUrlData (lowercaseUrl r.url) s.store = some data := by
    apply Option.ne_none_iff_exists'.mp
    intro hnone
    exact hentry (h.recorded.absent _ hnone)
  obtain ⟨first, rest, hentries, hrest, hsummary⟩ := h.recorded.present _ data hdata
  rw [entriesFor_map_fst] at hsummary
  obtain ⟨added, hadded, hbuckets⟩ := h.targets
  refine ⟨⟨data, hdata, hsummary.perm hpermFor⟩, first, ?_, added, hadded, ?_⟩
  · rw [hentries, List.filter_cons_of_pos rfl, List.filter_eq_nil_iff.mpr]
    intro e he
    rw [hrest e he]
    exact Bool.false_ne_true
  · intro b hb
    have hsum := hbuckets b hb
    rw [hwaiting, add_zero] at hsum
    have hzero : total (chosen p b) rest = 0 := by
      apply total_eq_zero
      intro e he
      unfold chosen
      rw [if_neg]
      rintro ⟨htrue, _⟩
      rw [hrest e he] at htrue
      cases htrue
    have hfor : ((added b).filter (fun t => lowercaseUrl t.url = lowercaseUrl r.url) :
        Multiset CrawlTarget) = chosen p b (first, true) := by
      rw [← Multiset.filter_coe, hsum, filter_total_chosen, hentries, total_cons, hzero, add_zero]
    unfold chosen at hfor
    by_cases hp : b = priorityOf p first
    · rw [if_pos ⟨rfl, hp.symm⟩] at hfor
      rw [if_pos hp]
      exact Multiset.coe_eq_singleton.mp hfor
    · rw [if_neg fun hboth => hp hboth.2.symm] at hfor
      rw [if_neg hp]
      exact (Multiset.coe_eq_zero _).mp hfor

/-- However the workers take their turns: they can always go on to the end, and when all are
done, each call of `updateUrl` has one result, and each URL was counted once per request and
pushed once. -/
theorem every_url_is_counted_and_pushed_once (p : Policy) (old : Nat → List CrawlTarget)
    (calls : List (List Call)) (requests : List Request) (hrequests : requestsOf calls = requests)
    (hadmitted : ∀ r ∈ requests,
      priorityOf p r < PRIORITY_BUCKETS ∧ isNsfwUrl p (lowercaseUrl r.url) = false)
    (actions : List Action)
    (hroom : Meets (step p) HasRoom actions (begin' emptyStore (some old) calls)) (s : System)
    (hrun : exec (step p) actions (begin' emptyStore (some old) calls) = some s) :
    (∃ more s', exec (step p) more s = some s' ∧ Done s') ∧
      (Done s → (s.log.map Prod.fst).Perm requests ∧
        ∀ r ∈ requests, Discovered p old requests (lowercaseUrl r.url) s) := by
  have hadmit : Admitted p (requestsOf calls) := by
    intro r hr
    rw [hrequests] at hr
    exact hadmitted r hr
  have hledger : Ledger p old (requestsOf calls) s :=
    exec_invariant (ledger_step hadmit) (ledger_begin p old calls) hroom hrun
  refine ⟨exec_done p s hledger.mutex, ?_⟩
  intro hdone
  constructor
  · have hlog := hledger.requests
    rw [(done_sums (p := p) hdone).1, add_zero, hrequests] at hlog
    exact Multiset.coe_eq_coe.mp hlog
  · intro r hr
    exact hledger.discovered hdone hrequests hr

/-- Two workers find one URL, in capitals and in small letters. -/
theorem a_url_in_two_cases_is_pushed_once :
    ∃ s, exec (step plainPolicy)
        (.work 1 :: List.replicate 3 (.work 0) ++ List.replicate 13 (.work 1) ++ [.work 0])
        (begin' emptyStore (some fun _ => [])
          [[.single ⟨[65], [], 1, 2, 0⟩], [.batch [⟨[97], [], 2, 1, 0⟩]]]) = some s ∧
      Discovered plainPolicy (fun _ => []) [⟨[65], [], 1, 2, 0⟩, ⟨[97], [], 2, 1, 0⟩] [97] s := by
  have hroom : Meets (step plainPolicy) HasRoom
      (.work 1 :: List.replicate 3 (.work 0) ++ List.replicate 13 (.work 1) ++ [.work 0])
      (begin' emptyStore (some fun _ => [])
        [[.single ⟨[65], [], 1, 2, 0⟩], [.batch [⟨[97], [], 2, 1, 0⟩]]]) := by decide +kernel
  have hdone : ((exec (step plainPolicy)
      (.work 1 :: List.replicate 3 (.work 0) ++ List.replicate 13 (.work 1) ++ [.work 0])
      (begin' emptyStore (some fun _ => [])
        [[.single ⟨[65], [], 1, 2, 0⟩], [.batch [⟨[97], [], 2, 1, 0⟩]]])).map
          fun s => decide (Done s)) = some true := by decide +kernel
  obtain ⟨s, hrun, hs⟩ := Option.map_eq_some_iff.mp hdone
  have hall := every_url_is_counted_and_pushed_once plainPolicy (fun _ => []) _
    [⟨[65], [], 1, 2, 0⟩, ⟨[97], [], 2, 1, 0⟩] rfl (by decide) _ hroom s hrun
  exact ⟨s, hrun, (hall.2 (of_decide_eq_true hs)).2 ⟨[97], [], 2, 1, 0⟩ (by decide)⟩

end seamus.url_discovery
