-- The URL store under many threads: workers that run calls of
-- `manage_frontier_and_update_url` and its batch form, and the thread that
-- runs `persist`. A turn is one section that a lock holds together.
import Seamus.UrlStoreFile
import Seamus.Library.Interleaving

open interleaving seamus.url_store seamus.url_store_file

namespace seamus.url_store_workers

/-! ## The source functions, cut at the locks -/

structure CrawlTarget where
  domain : Bytes
  url : Bytes
  seedDistance : UInt16
  domainDist : UInt16
  deriving DecidableEq, Repr

def targetOf (r : Request) : CrawlTarget :=
  ⟨extractDomain r.url, r.url, r.seedListUrlHops, r.seedListDomainHops⟩

inductive Call where
  | single (req : Request)
  | batch (reqs : List Request)
  deriving DecidableEq

/-- Who called `updateUrl`, and what a batch has left: its requests, and the targets it
has put by for each bucket. -/
inductive Caller where
  | single
  | batch (rest : List Request) (bucketTargets : List (Nat × CrawlTarget))
  deriving DecidableEq

inductive Phase where
  | idle
  | looping (rest : List Request) (bucketTargets : List (Nat × CrawlTarget))
  /-- Holds the shard, in which it did not find the URL. -/
  | unknown (caller : Caller) (req : Request)
  /-- Holds the shard, in the loop over the anchor texts. -/
  | counting (caller : Caller) (req : Request) (isNew : Bool) (anchorTexts : List Bytes)
  | returned (caller : Caller) (req : Request) (isNew : Bool)
  | pushing (bucket : Nat) (bucketTargets : List (Nat × CrawlTarget))
  deriving DecidableEq

structure Worker where
  calls : List Call
  phase : Phase

inductive PersistPhase where
  | idle
  | writing (final : Bool) (anchorSnapshot : List Bytes) (shard : Nat)
      (records : List (Bytes × UrlData))

structure System where
  store : UrlStore
  /-- The worker that holds the mutex of a shard. -/
  locks : Nat → Option Nat
  /-- The buckets of the carousel, none without a carousel. -/
  dc : Option (Nat → List CrawlTarget)
  workers : List Worker
  persisting : PersistPhase
  file : Option PersistedFile
  /-- The results of `updateUrl`, in the order in which they were decided. -/
  log : List (Request × Bool)

def requestShard (r : Request) : Nat := shardOf (lowercaseUrl r.url)

def setWorker (i : Nat) (calls : List Call) (phase : Phase) (s : System) : System :=
  { s with workers := s.workers.set i ⟨calls, phase⟩ }

/-- The start of `updateUrl`: it takes the mutex of the shard, and waits while another holds it. -/
def enter (p : Policy) (i : Nat) (calls : List Call) (caller : Caller) (r : Request) (s : System) :
    Option System :=
  if s.locks (requestShard r) ≠ none then none
  else
    let s := { s with locks := Function.update s.locks (requestShard r) (some i) }
    match lookUp p r (priorityOf p r) s.store with
    | (.known, store) =>
      some (setWorker i calls (.counting caller r false r.anchorText)
        { s with store, log := s.log ++ [(r, false)] })
    | (.dropped, store) =>
      some (setWorker i calls (.counting caller r false [])
        { s with store, log := s.log ++ [(r, false)] })
    | (.unknown, store) => some (setWorker i calls (.unknown caller r) { s with store })

/-- `buckets[bucket].urls.push_back` for each target. -/
def push (bucket : Nat) (targets : List CrawlTarget) (dc : Option (Nat → List CrawlTarget)) :
    Option (Nat → List CrawlTarget) :=
  dc.map fun buckets => Function.update buckets bucket (buckets bucket ++ targets)

/-- `is_new && dc && priority < PRIORITY_BUCKETS`. -/
def isPushed (p : Policy) (s : System) (r : Request) (isNew : Bool) : Bool :=
  isNew && s.dc.isSome && priorityOf p r < PRIORITY_BUCKETS

def bucketOf (bucket : Nat) (targets : List (Nat × CrawlTarget)) : List CrawlTarget :=
  (targets.filter fun t => t.1 = bucket).map Prod.snd

/-- A turn of worker `i`. -/
def workerStep (p : Policy) (i : Nat) (s : System) : Option System :=
  match s.workers[i]? with
  | none => none
  | some ⟨calls, phase⟩ =>
    match phase with
    | .idle =>
      match calls with
      | [] => none
      | .single r :: calls => enter p i calls .single r s
      | .batch rs :: calls => some (setWorker i calls (.looping rs []) s)
    | .looping [] targets => some (setWorker i calls (.pushing 0 targets) s)
    | .looping (r :: rest) targets => enter p i calls (.batch rest targets) r s
    | .unknown caller r =>
      let (isNew, store) := addUrlUnlocked r s.store
      some (setWorker i calls
        (.counting caller r isNew (if isNew then r.anchorText else []))
        { s with store, log := s.log ++ [(r, isNew)] })
    | .counting caller r isNew (text :: texts) =>
      some (setWorker i calls (.counting caller r isNew texts)
        { s with store := addAnchor isNew (lowercaseUrl r.url) s.store text })
    | .counting caller r isNew [] =>
      some (setWorker i calls (.returned caller r isNew)
        { s with locks := Function.update s.locks (requestShard r) none })
    | .returned .single r isNew =>
      some (setWorker i calls .idle
        { s with dc := if isPushed p s r isNew then push (priorityOf p r) [targetOf r] s.dc
                       else s.dc })
    | .returned (.batch rest targets) r isNew =>
      let targets := if isPushed p s r isNew then targets ++ [(priorityOf p r, targetOf r)]
                     else targets
      some (setWorker i calls (.looping rest targets) s)
    | .pushing bucket targets =>
      if bucket < PRIORITY_BUCKETS then
        some (setWorker i calls (.pushing (bucket + 1) targets)
          { s with dc := push bucket (bucketOf bucket targets) s.dc })
      else some (setWorker i calls .idle s)

inductive Action where
  | work (i : Nat)
  | copyAnchors (final : Bool)
  | writeShard (order : SlotOrder)
  | finish

/-- `persist` copies the anchor texts under `global_mtx`, then writes each shard under its
mutex, and last renames the file. -/
def step (p : Policy) (a : Action) (s : System) : Option System :=
  match a, s.persisting with
  | .work i, _ => workerStep p i s
  | .copyAnchors final, .idle =>
    some { s with persisting := .writing final (s.store.idToAnchor.map writtenText) 0 [] }
  | .writeShard order, .writing final snapshot shard records =>
    if shard < URL_NUM_SHARDS ∧ s.locks shard = none then
      let written := writtenRecords order final (s.store.shards shard)
      some { s with persisting := .writing final snapshot (shard + 1) (records ++ written) }
    else none
  | .finish, .writing _ snapshot shard records =>
    if shard = URL_NUM_SHARDS then
      some { s with persisting := .idle, file := some ⟨snapshot, records⟩ }
    else none
  | _, _ => none

@[simp] theorem step_work (p : Policy) (i : Nat) (s : System) :
    step p (.work i) s = workerStep p i s := rfl

/-- The workers before their first turn. -/
def begin' (store : UrlStore) (dc : Option (Nat → List CrawlTarget)) (calls : List (List Call)) :
    System :=
  ⟨store, fun _ => none, dc, calls.map fun cs => ⟨cs, .idle⟩, .idle, none, []⟩

/-! ## What a turn can do -/

/-- The request that a worker takes up next, and what it has left then. -/
inductive Next : Worker → List Call → Caller → Request → Prop
  | single {calls : List Call} {r : Request} : Next ⟨.single r :: calls, .idle⟩ calls .single r
  | batch {calls : List Call} {r : Request} {rest : List Request}
      {targets : List (Nat × CrawlTarget)} :
      Next ⟨calls, .looping (r :: rest) targets⟩ calls (.batch rest targets) r

def lock (i : Nat) (r : Request) (s : System) : System :=
  { s with locks := Function.update s.locks (requestShard r) (some i) }

def unlock (r : Request) (s : System) : System :=
  { s with locks := Function.update s.locks (requestShard r) none }

def setStore (store : UrlStore) (s : System) : System := { s with store }

def addLog (r : Request) (isNew : Bool) (s : System) : System :=
  { s with log := s.log ++ [(r, isNew)] }

/-- All that a worker can do in one turn. -/
inductive Turn (p : Policy) (i : Nat) (s : System) : System → Prop
  | startBatch {calls rs} (hw : s.workers[i]? = some ⟨.batch rs :: calls, .idle⟩) :
      Turn p i s (setWorker i calls (.looping rs []) s)
  | endLoop {calls targets} (hw : s.workers[i]? = some ⟨calls, .looping [] targets⟩) :
      Turn p i s (setWorker i calls (.pushing 0 targets) s)
  | known {w calls caller r data} (hw : s.workers[i]? = some w) (hn : Next w calls caller r)
      (hfree : s.locks (requestShard r) = none)
      (hfind : findUrlData (lowercaseUrl r.url) s.store = some data) :
      Turn p i s (setWorker i calls (.counting caller r false r.anchorText) (addLog r false
        (setStore (setUrlData (lowercaseUrl r.url) (merge r data) (seen s.store)) (lock i r s))))
  | dropped {w calls caller r} (hw : s.workers[i]? = some w) (hn : Next w calls caller r)
      (hfree : s.locks (requestShard r) = none)
      (hfind : findUrlData (lowercaseUrl r.url) s.store = none)
      (hwhy : priorityOf p r ≥ PRIORITY_BUCKETS ∨ isNsfwUrl p (lowercaseUrl r.url) = true ∨
        s.store.uniqueUrlCount ≥ MAX_STORE_URLS) :
      Turn p i s (setWorker i calls (.counting caller r false []) (addLog r false
        (setStore (seen s.store) (lock i r s))))
  | unknown {w calls caller r} (hw : s.workers[i]? = some w) (hn : Next w calls caller r)
      (hfree : s.locks (requestShard r) = none)
      (hfind : findUrlData (lowercaseUrl r.url) s.store = none)
      (hpass : priorityOf p r < PRIORITY_BUCKETS ∧ isNsfwUrl p (lowercaseUrl r.url) = false ∧
        s.store.uniqueUrlCount < MAX_STORE_URLS) :
      Turn p i s (setWorker i calls (.unknown caller r) (setStore (seen s.store) (lock i r s)))
  | insert {calls caller r} (hw : s.workers[i]? = some ⟨calls, .unknown caller r⟩)
      (hfind : findUrlData (lowercaseUrl r.url) s.store = none) :
      Turn p i s (setWorker i calls (.counting caller r true r.anchorText) (addLog r true
        (setStore (setUrlData (lowercaseUrl r.url) (firstData r)
          { s.store with uniqueUrlCount := s.store.uniqueUrlCount + 1 }) s)))
  | overtaken {calls caller r data} (hw : s.workers[i]? = some ⟨calls, .unknown caller r⟩)
      (hfind : findUrlData (lowercaseUrl r.url) s.store = some data) :
      Turn p i s (setWorker i calls (.counting caller r false []) (addLog r false s))
  | anchor {calls caller r isNew text texts}
      (hw : s.workers[i]? = some ⟨calls, .counting caller r isNew (text :: texts)⟩) :
      Turn p i s (setWorker i calls (.counting caller r isNew texts)
        (setStore (addAnchor isNew (lowercaseUrl r.url) s.store text) s))
  | leave {calls caller r isNew}
      (hw : s.workers[i]? = some ⟨calls, .counting caller r isNew []⟩) :
      Turn p i s (setWorker i calls (.returned caller r isNew) (unlock r s))
  | single {calls r isNew} (hw : s.workers[i]? = some ⟨calls, .returned .single r isNew⟩) :
      Turn p i s (setWorker i calls .idle { s with
        dc := if isPushed p s r isNew then push (priorityOf p r) [targetOf r] s.dc else s.dc })
  | putBy {calls r isNew rest targets}
      (hw : s.workers[i]? = some ⟨calls, .returned (.batch rest targets) r isNew⟩) :
      Turn p i s (setWorker i calls (.looping rest (if isPushed p s r isNew then
        targets ++ [(priorityOf p r, targetOf r)] else targets)) s)
  | pushBucket {calls bucket targets}
      (hw : s.workers[i]? = some ⟨calls, .pushing bucket targets⟩) (hb : bucket < PRIORITY_BUCKETS) :
      Turn p i s (setWorker i calls (.pushing (bucket + 1) targets) { s with
        dc := push bucket (bucketOf bucket targets) s.dc })
  | endPush {calls bucket targets}
      (hw : s.workers[i]? = some ⟨calls, .pushing bucket targets⟩)
      (hb : PRIORITY_BUCKETS ≤ bucket) :
      Turn p i s (setWorker i calls .idle s)

variable {p : Policy} {i : Nat} {s s' : System}

theorem enter_turn {w : Worker} {calls : List Call} {caller : Caller} {r : Request}
    (hw : s.workers[i]? = some w) (hn : Next w calls caller r)
    (h : enter p i calls caller r s = some s') : Turn p i s s' := by
  unfold enter at h
  split_ifs at h with hheld
  have hfree : s.locks (requestShard r) = none := not_not.mp hheld
  rcases lookUp_cases p r (priorityOf p r) s.store with
    ⟨data, hfind, heq⟩ | ⟨hfind, hwhy, heq⟩ | ⟨hfind, hpass, heq⟩
  · simp only [heq] at h
    cases h
    exact .known hw hn hfree hfind
  · simp only [heq] at h
    cases h
    exact .dropped hw hn hfree hfind hwhy
  · simp only [heq] at h
    cases h
    exact .unknown hw hn hfree hfind hpass

theorem workerStep_turn (h : workerStep p i s = some s') : Turn p i s s' := by
  unfold workerStep at h
  cases hw : s.workers[i]? with
  | none => rw [hw] at h; cases h
  | some w =>
    obtain ⟨calls, phase⟩ := w
    rw [hw] at h
    cases phase with
    | idle =>
      cases calls with
      | nil => cases h
      | cons call calls =>
        cases call with
        | single r => exact enter_turn hw .single h
        | batch rs => cases h; exact .startBatch hw
    | looping rest targets =>
      cases rest with
      | nil => cases h; exact .endLoop hw
      | cons r rest => exact enter_turn hw .batch h
    | unknown caller r =>
      cases hfind : findUrlData (lowercaseUrl r.url) s.store with
      | none =>
        simp only [addUrlUnlocked, hfind] at h
        cases h
        exact .insert hw hfind
      | some data =>
        simp only [addUrlUnlocked, hfind] at h
        cases h
        exact .overtaken hw hfind
    | counting caller r isNew texts =>
      cases texts with
      | nil => cases h; exact .leave hw
      | cons text texts => cases h; exact .anchor hw
    | returned caller r isNew =>
      cases caller with
      | single => cases h; exact .single hw
      | batch rest targets => cases h; exact .putBy hw
    | pushing bucket targets =>
      dsimp only at h
      split_ifs at h with hb
      · cases h; exact .pushBucket hw hb
      · cases h; exact .endPush hw (Nat.le_of_not_lt hb)

/-- `persist` only reads what the workers share. -/
theorem step_cases {a : Action} (h : step p a s = some s') :
    (∃ i, a = .work i ∧ Turn p i s s') ∨
    s'.store = s.store ∧ s'.locks = s.locks ∧ s'.dc = s.dc ∧ s'.workers = s.workers ∧
      s'.log = s.log := by
  unfold step at h
  cases a with
  | work i => exact Or.inl ⟨i, rfl, workerStep_turn h⟩
  | copyAnchors final =>
    cases hp : s.persisting <;> rw [hp] at h <;> cases h
    exact Or.inr ⟨rfl, rfl, rfl, rfl, rfl⟩
  | writeShard order =>
    cases hp : s.persisting with
    | idle => rw [hp] at h; cases h
    | writing final snapshot shard records =>
      rw [hp] at h
      dsimp only at h
      split_ifs at h
      cases h
      exact Or.inr ⟨rfl, rfl, rfl, rfl, rfl⟩
  | finish =>
    cases hp : s.persisting with
    | idle => rw [hp] at h; cases h
    | writing final snapshot shard records =>
      rw [hp] at h
      dsimp only at h
      split_ifs at h
      cases h
      exact Or.inr ⟨rfl, rfl, rfl, rfl, rfl⟩

/-! ## One worker in a shard -/

/-- The shard whose mutex a worker holds. -/
def holding : Phase → Option Nat
  | .unknown _ r => some (requestShard r)
  | .counting _ r _ _ => some (requestShard r)
  | .idle | .looping _ _ | .returned _ _ _ | .pushing _ _ => none

def Mutex (locks : Nat → Option Nat) (workers : List Worker) : Prop :=
  ∀ shard j, locks shard = some j ↔ ∃ w, workers[j]? = some w ∧ holding w.phase = some shard

section

variable {locks locks' : Nat → Option Nat} {workers : List Worker} {w w' : Worker}

theorem Mutex.holds (h : Mutex locks workers) (hw : workers[i]? = some w) {shard : Nat}
    (hs : holding w.phase = some shard) : locks shard = some i := (h shard i).mpr ⟨w, hw, hs⟩

theorem Mutex.iff_holding (h : Mutex locks workers) (hw : workers[i]? = some w) (shard : Nat) :
    locks shard = some i ↔ holding w.phase = some shard := by
  constructor
  · intro hl
    obtain ⟨v, hv, hs⟩ := (h shard i).mp hl
    rw [hw] at hv
    cases hv
    exact hs
  · exact h.holds hw

theorem Mutex.set (h : Mutex locks workers) (hw : workers[i]? = some w)
    (hl : ∀ shard j, locks' shard = some j ↔
      if j = i then holding w'.phase = some shard else locks shard = some j) :
    Mutex locks' (workers.set i w') := by
  intro shard j
  have hi : i < workers.length := (List.getElem?_eq_some_iff.mp hw).1
  rw [hl]
  by_cases hj : j = i
  · subst hj
    rw [if_pos rfl, List.getElem?_set_self hi]
    constructor
    · intro hs
      exact ⟨w', rfl, hs⟩
    · rintro ⟨v, hv, hs⟩
      cases hv
      exact hs
  · rw [if_neg hj, List.getElem?_set_ne (Ne.symm hj)]
    exact h shard j

/-- A worker that keeps what it holds. -/
theorem Mutex.keep (h : Mutex locks workers) (hw : workers[i]? = some w)
    (hsame : holding w'.phase = holding w.phase) : Mutex locks (workers.set i w') := by
  apply h.set hw
  intro shard j
  by_cases hj : j = i
  · rw [if_pos hj, hj, hsame]
    exact h.iff_holding hw shard
  · rw [if_neg hj]

theorem Mutex.take (h : Mutex locks workers) (hw : workers[i]? = some w) {shard : Nat}
    (hfree : locks shard = none) (hnone : holding w.phase = none)
    (hs : holding w'.phase = some shard) :
    Mutex (Function.update locks shard (some i)) (workers.set i w') := by
  apply h.set hw
  intro other j
  rw [hs]
  by_cases ho : other = shard
  · subst ho
    rw [Function.update_self]
    by_cases hj : j = i
    · simp [hj]
    · simp [hj, hfree, Ne.symm hj]
  · rw [Function.update_of_ne ho]
    by_cases hj : j = i
    · rw [if_pos hj, hj, h.iff_holding hw other, hnone]
      simp [Ne.symm ho]
    · rw [if_neg hj]

theorem Mutex.release (h : Mutex locks workers) (hw : workers[i]? = some w) {shard : Nat}
    (hs : holding w.phase = some shard) (hnone : holding w'.phase = none) :
    Mutex (Function.update locks shard none) (workers.set i w') := by
  apply h.set hw
  intro other j
  rw [hnone]
  by_cases ho : other = shard
  · subst ho
    have hi := h.holds hw hs
    rw [Function.update_self]
    by_cases hj : j = i
    · simp [hj]
    · simp [hj, hi, Ne.symm hj]
  · rw [Function.update_of_ne ho]
    by_cases hj : j = i
    · rw [if_pos hj, hj, h.iff_holding hw other, hs]
      simp [Ne.symm ho]
    · rw [if_neg hj]

end

theorem Next.holding {w : Worker} {calls : List Call} {caller : Caller} {r : Request}
    (h : Next w calls caller r) : holding w.phase = none := by
  cases h <;> rfl

theorem turn_mutex (h : Mutex s.locks s.workers) (hturn : Turn p i s s') :
    Mutex s'.locks s'.workers := by
  cases hturn with
  | known hw hn hfree hfind => exact h.take hw hfree hn.holding rfl
  | dropped hw hn hfree hfind hwhy => exact h.take hw hfree hn.holding rfl
  | unknown hw hn hfree hfind => exact h.take hw hfree hn.holding rfl
  | leave hw => exact h.release hw rfl rfl
  | startBatch hw | endLoop hw | insert hw | overtaken hw | anchor hw | single hw | putBy hw
  | pushBucket hw | endPush hw => exact h.keep hw rfl

theorem step_mutex (p : Policy) (a : Action) (s s' : System) (h : Mutex s.locks s.workers)
    (hstep : step p a s = some s') : Mutex s'.locks s'.workers := by
  rcases step_cases hstep with ⟨i, _, hturn⟩ | ⟨_, hlocks, _, hworkers, _⟩
  · exact turn_mutex h hturn
  · rw [hlocks, hworkers]
    exact h

theorem mutex_begin (store : UrlStore) (dc : Option (Nat → List CrawlTarget))
    (calls : List (List Call)) :
    Mutex (begin' store dc calls).locks (begin' store dc calls).workers := by
  intro shard j
  constructor
  · intro h
    cases h
  · rintro ⟨w, hw, hs⟩
    obtain ⟨cs, _, rfl⟩ := List.mem_map.mp (List.mem_of_getElem? hw)
    cases hs

theorem not_held_by_other (h : Mutex s.locks s.workers) {j : Nat} {w : Worker}
    (hw : s.workers[j]? = some w) (hne : j ≠ i) {shard : Nat}
    (hshard : s.locks shard = none ∨ s.locks shard = some i) : holding w.phase ≠ some shard := by
  intro hs
  have hj := h.holds hw hs
  rcases hshard with hfree | hi
  · rw [hfree] at hj; cases hj
  · rw [hi] at hj
    exact hne (Option.some.inj hj).symm

/-- A turn leaves the records alone in every shard that another worker holds. -/
theorem turn_frame (h : Mutex s.locks s.workers) (hturn : Turn p i s s') {j : Nat} {w : Worker}
    (hw : s.workers[j]? = some w) (hne : j ≠ i) {url : Bytes}
    (hheld : holding w.phase = some (shardOf url)) :
    findUrlData url s'.store = findUrlData url s.store := by
  have hother {r : Request}
      (hr : s.locks (requestShard r) = none ∨ s.locks (requestShard r) = some i) :
      url ≠ lowercaseUrl r.url := by
    intro heq
    rw [heq] at hheld
    exact not_held_by_other h hw hne hr hheld
  cases hturn with
  | known hi hn hfree hfind =>
    exact findUrlData_setUrlData_of_ne _ _ (hother (Or.inl hfree))
  | insert hi hfind =>
    exact findUrlData_setUrlData_of_ne _ _ (hother (Or.inr (h.holds hi rfl)))
  | anchor hi =>
    have hurl := hother (Or.inr (h.holds hi rfl))
    show findUrlData url (addAnchor _ _ _ _) = _
    unfold addAnchor
    dsimp only
    split_ifs
    · rfl
    · rw [findUrlData_setUrlData_of_ne _ _ hurl, findUrlData_anchors]
  | startBatch | endLoop | dropped | unknown | overtaken | leave | single | putBy | pushBucket
  | endPush => rfl

/-! ## Every run can end -/

def Done (s : System) : Prop := ∀ w ∈ s.workers, w.calls = [] ∧ w.phase = .idle

instance (s : System) : Decidable (Done s) := inferInstanceAs (Decidable (∀ w ∈ s.workers, _))

def requestTurns (r : Request) : Nat := 4 + r.anchorText.length

def callTurns : Call → Nat
  | .single r => requestTurns r
  | .batch rs => 11 + (rs.map requestTurns).sum

def callerTurns : Caller → Nat
  | .single => 0
  | .batch rest _ => 10 + (rest.map requestTurns).sum

def phaseTurns : Phase → Nat
  | .idle => 0
  | .looping rest _ => 10 + (rest.map requestTurns).sum
  | .unknown caller r => 3 + r.anchorText.length + callerTurns caller
  | .counting caller _ _ texts => 2 + texts.length + callerTurns caller
  | .returned caller _ _ => 1 + callerTurns caller
  | .pushing bucket _ => PRIORITY_BUCKETS - bucket + 1

/-- A bound on the turns that a worker has left. -/
def workerTurns (w : Worker) : Nat := (w.calls.map callTurns).sum + phaseTurns w.phase

theorem Next.turns {w : Worker} {calls : List Call} {caller : Caller} {r : Request}
    (h : Next w calls caller r) :
    workerTurns w = (calls.map callTurns).sum + callerTurns caller + requestTurns r := by
  cases h
  · simp only [workerTurns, phaseTurns, callerTurns, List.map_cons, List.sum_cons, callTurns]
    omega
  · simp only [workerTurns, phaseTurns, callerTurns, List.map_cons, List.sum_cons]
    omega

theorem turn_turns (h : Turn p i s s') :
    total workerTurns s'.workers < total workerTurns s.workers := by
  have hset {w w' : Worker} (hw : s.workers[i]? = some w) (hlt : workerTurns w' < workerTurns w) :
      total workerTurns (s.workers.set i w') < total workerTurns s.workers := by
    have heq := total_set workerTurns w' hw
    omega
  cases h with
  | known hw hn | dropped hw hn | unknown hw hn =>
    apply hset hw
    rw [hn.turns]
    simp only [workerTurns, phaseTurns, requestTurns, List.length_nil]
    omega
  | insert hw | overtaken hw | anchor hw | leave hw | putBy hw =>
    apply hset hw
    simp only [workerTurns, phaseTurns, callerTurns, List.length_nil, List.length_cons]
    omega
  | startBatch hw | endLoop hw | single hw | endPush hw =>
    apply hset hw
    simp only [workerTurns, phaseTurns, callerTurns, callTurns, PRIORITY_BUCKETS, List.map_cons,
      List.map_nil, List.sum_cons, List.sum_nil]
    omega
  | pushBucket hw hb =>
    apply hset hw
    simp only [workerTurns, phaseTurns]
    omega

theorem enter_moves (p : Policy) (i : Nat) (calls : List Call) (caller : Caller) {r : Request}
    (hfree : s.locks (requestShard r) = none) : ∃ s', enter p i calls caller r s = some s' := by
  unfold enter
  rw [if_neg (not_not.mpr hfree)]
  rcases lookUp_cases p r (priorityOf p r) s.store with ⟨data, _, heq⟩ | ⟨_, _, heq⟩ | ⟨_, _, heq⟩ <;>
    simp only [heq] <;> exact ⟨_, rfl⟩

/-- A worker that holds a shard never waits. -/
theorem holder_moves {w : Worker} (hw : s.workers[i]? = some w) {shard : Nat}
    (hs : holding w.phase = some shard) : ∃ s', workerStep p i s = some s' := by
  obtain ⟨calls, phase⟩ := w
  unfold workerStep
  rw [hw]
  cases phase with
  | unknown caller r => exact ⟨_, rfl⟩
  | counting caller r isNew texts => cases texts <;> exact ⟨_, rfl⟩
  | idle | looping | returned | pushing => cases hs

/-- A worker that is not done can take its turn, or it waits for another that can. -/
theorem some_worker_moves (h : Mutex s.locks s.workers) {w : Worker}
    (hw : s.workers[i]? = some w) (hleft : ¬(w.calls = [] ∧ w.phase = .idle)) :
    ∃ j s', workerStep p j s = some s' := by
  have hwait {calls : List Call} {caller : Caller} {r : Request}
      (henter : workerStep p i s = enter p i calls caller r s) :
      ∃ j s', workerStep p j s = some s' := by
    cases hlock : s.locks (requestShard r) with
    | none =>
      obtain ⟨s', hs'⟩ := enter_moves p i calls caller hlock
      exact ⟨i, s', henter.trans hs'⟩
    | some j =>
      obtain ⟨v, hv, hs⟩ := (h _ j).mp hlock
      exact ⟨j, holder_moves hv hs⟩
  obtain ⟨calls, phase⟩ := w
  cases phase with
  | unknown caller r => exact ⟨i, holder_moves hw rfl⟩
  | counting caller r isNew texts => exact ⟨i, holder_moves hw rfl⟩
  | idle =>
    cases calls with
    | nil => exact absurd ⟨rfl, rfl⟩ hleft
    | cons call calls =>
      cases call with
      | single r =>
        apply hwait (r := r)
        unfold workerStep
        rw [hw]
      | batch rs =>
        refine ⟨i, ?_⟩
        unfold workerStep
        rw [hw]
        exact ⟨_, rfl⟩
  | looping rest targets =>
    cases rest with
    | nil =>
      refine ⟨i, ?_⟩
      unfold workerStep
      rw [hw]
      exact ⟨_, rfl⟩
    | cons r rest =>
      apply hwait (r := r)
      unfold workerStep
      rw [hw]
  | returned caller r isNew =>
    refine ⟨i, ?_⟩
    unfold workerStep
    rw [hw]
    cases caller <;> exact ⟨_, rfl⟩
  | pushing bucket targets =>
    refine ⟨i, ?_⟩
    unfold workerStep
    rw [hw]
    dsimp only
    split_ifs <;> exact ⟨_, rfl⟩

/-- From every state the workers can go on until all calls have returned. -/
theorem exec_done (p : Policy) (s : System) (h : Mutex s.locks s.workers) :
    ∃ actions s', exec (step p) actions s = some s' ∧ Done s' := by
  apply exec_reaches (fun s => total workerTurns s.workers) (step_mutex p) ?_ _ s h (Nat.le_refl _)
  intro s h hdone
  obtain ⟨w, hnot⟩ := not_forall.mp hdone
  obtain ⟨hw, hleft⟩ := Classical.not_imp.mp hnot
  obtain ⟨i, hi⟩ := List.mem_iff_getElem?.mp hw
  obtain ⟨j, s', hs'⟩ := some_worker_moves (p := p) h hi hleft
  exact ⟨.work j, s', hs', turn_turns (workerStep_turn hs')⟩

end seamus.url_store_workers
