-- The cap on the URLs of the store. A call reads the counter before it takes up
-- a place, and calls in other shards may read it in between.
import Seamus.UrlStoreWorkers
import Mathlib.Algebra.BigOperators.Group.Finset.Basic

open interleaving seamus.url_store seamus.url_store_workers

namespace seamus.store_capacity

/-! ## The number of URLs -/

def stored (s : UrlStore) : Nat :=
  ∑ shard ∈ Finset.range URL_NUM_SHARDS, (s.shards shard).entries.length

theorem shardOf_lt (url : Bytes) : shardOf url < URL_NUM_SHARDS := Nat.mod_lt _ (by decide)

theorem stored_congr {s s' : UrlStore} (h : s'.shards = s.shards) : stored s' = stored s := by
  unfold stored
  rw [h]

@[simp] theorem stored_seen (s : UrlStore) : stored (seen s) = stored s := stored_congr rfl

@[simp] theorem stored_setAnchors (t : AnchorTable) (s : UrlStore) :
    stored (setAnchors t s) = stored s := stored_congr rfl

theorem length_insert {α β : Type} [DecidableEq α] (m : AList fun _ : α => β) (a : α) (b : β) :
    (m.insert a b).entries.length = m.entries.length + if m.lookup a = none then 1 else 0 := by
  have hkeys (m : AList fun _ : α => β) : m.entries.length = m.keys.length := by
    rw [AList.keys, List.keys, List.length_map]
  rw [hkeys, hkeys m, AList.keys_insert, List.length_cons]
  by_cases hmem : a ∈ m.keys
  · have hpos := List.length_pos_of_mem hmem
    have hsome : m.lookup a ≠ none := fun hnone => AList.lookup_eq_none.mp hnone hmem
    rw [List.length_erase_of_mem hmem, if_neg hsome]
    omega
  · rw [List.erase_of_not_mem hmem, if_pos (AList.lookup_eq_none.mpr hmem)]

/-- Only a record for a new URL adds to the number. -/
theorem stored_setUrlData (url : Bytes) (data : UrlData) (s : UrlStore) :
    stored (setUrlData url data s) =
      stored s + if findUrlData url s = none then 1 else 0 := by
  have hmem := Finset.mem_range.mpr (shardOf_lt url)
  have hrest : ∀ shard ∈ (Finset.range URL_NUM_SHARDS).erase (shardOf url),
      ((setUrlData url data s).shards shard).entries.length =
        (s.shards shard).entries.length := by
    intro shard hshard
    rw [setUrlData_shards_of_ne data s (Finset.ne_of_mem_erase hshard)]
  unfold stored
  rw [← Finset.add_sum_erase _ _ hmem, Finset.sum_congr rfl hrest, setUrlData_shards_self,
    length_insert]
  rw [← Finset.add_sum_erase (Finset.range URL_NUM_SHARDS)
    (fun shard => (s.shards shard).entries.length) hmem]
  unfold findUrlData
  omega

theorem stored_added (n : Nat) {url : Bytes} (data : UrlData) {s : UrlStore}
    (h : findUrlData url s = none) :
    stored (setUrlData url data { s with uniqueUrlCount := n }) = stored s + 1 := by
  have hsame : stored { s with uniqueUrlCount := n } = stored s := stored_congr rfl
  rw [stored_setUrlData, hsame, if_pos]
  exact h

theorem stored_addAnchor (isNew : Bool) {url : Bytes} (text : Bytes) {s : UrlStore}
    (h : findUrlData url s ≠ none) : stored (addAnchor isNew url s text) = stored s := by
  unfold addAnchor
  dsimp only
  split_ifs
  · exact stored_setAnchors _ s
  · rw [stored_setUrlData, findUrlData_anchors, if_neg h, stored_setAnchors, Nat.add_zero]

/-! ## The workers between the check and the insertion -/

def pending (w : Worker) : Nat :=
  match w.phase with
  | .unknown _ _ => 1
  | _ => 0

/-- A worker that will insert has not found its URL, and one that counts texts has it. -/
def Placed (store : UrlStore) : Phase → Prop
  | .unknown _ r => findUrlData (lowercaseUrl r.url) store = none
  | .counting _ r _ texts => texts = [] ∨ findUrlData (lowercaseUrl r.url) store ≠ none
  | .idle | .looping _ _ | .returned _ _ _ | .pushing _ _ => True

structure Booked (s : System) : Prop where
  mutex : Mutex s.locks s.workers
  counted : s.store.uniqueUrlCount = stored s.store
  placed : ∀ (j : Nat) (w : Worker), s.workers[j]? = some w → Placed s.store w.phase

variable {p : Policy} {i : Nat} {s s' : System}

theorem Placed.frame {store store' : UrlStore} {phase : Phase} (h : Placed store phase)
    (hsame : ∀ url, holding phase = some (shardOf url) →
      findUrlData url store' = findUrlData url store) : Placed store' phase := by
  cases phase with
  | unknown caller r => rw [Placed, hsame _ rfl]; exact h
  | counting caller r isNew texts => rw [Placed, hsame _ rfl]; exact h
  | idle | looping | returned | pushing => trivial

theorem turn_placed (h : Booked s) (hturn : Turn p i s s') (j : Nat) (w : Worker)
    (hw : s'.workers[j]? = some w) : Placed s'.store w.phase := by
  revert j w
  have hothers (j : Nat) (w : Worker) (hne : j ≠ i) (hj : s.workers[j]? = some w) :
      Placed s'.store w.phase :=
    (h.placed j w hj).frame fun url hheld => turn_frame h.mutex hturn hj hne hheld
  cases hturn with
  | known hw hn hfree hfind => exact holds_set (Or.inr (findUrlData_set_ne_none _ _ _)) hothers
  | dropped hw hn hfree hfind hwhy => exact holds_set (Or.inl rfl) hothers
  | unknown hw hn hfree hfind => exact holds_set hfind hothers
  | insert hw hfind => exact holds_set (Or.inr (findUrlData_set_ne_none _ _ _)) hothers
  | overtaken hw hfind => exact holds_set (Or.inl rfl) hothers
  | anchor hw =>
    refine holds_set (Or.inr ?_) hothers
    rcases h.placed _ _ hw with hnil | hfound
    · cases hnil
    · exact addAnchor_found _ _ _ hfound
  | startBatch hw | endLoop hw | leave hw | single hw | putBy hw | pushBucket hw | endPush hw =>
    exact holds_set trivial hothers

/-- The counter goes up with the insertion, and the insertion alone. -/
theorem turn_counted (h : Booked s) (hturn : Turn p i s s') :
    s'.store.uniqueUrlCount = stored s'.store := by
  have hcounted := h.counted
  cases hturn with
  | @known _ _ _ r data hw hn hfree hfind =>
    show s.store.uniqueUrlCount = stored (setUrlData _ _ (seen s.store))
    rw [stored_setUrlData, findUrlData_seen, hfind, if_neg (Option.some_ne_none _), stored_seen,
      Nat.add_zero, hcounted]
  | @insert _ _ r hw hfind =>
    show s.store.uniqueUrlCount + 1 = stored (setUrlData _ _ _)
    rw [stored_added _ _ hfind, hcounted]
  | @anchor _ _ r isNew text _ hw =>
    rcases h.placed _ _ hw with hnil | hfound
    · cases hnil
    · show (addAnchor _ _ _ _).uniqueUrlCount = stored (addAnchor _ _ _ _)
      rw [stored_addAnchor isNew text hfound, addAnchor_uniqueUrlCount, hcounted]
  | dropped | unknown =>
    show s.store.uniqueUrlCount = stored (seen s.store)
    rw [stored_seen, hcounted]
  | startBatch | endLoop | overtaken | leave | single | putBy | pushBucket | endPush =>
    exact hcounted

theorem booked_step (p : Policy) (a : Action) (s s' : System) (h : Booked s)
    (hstep : step p a s = some s') : Booked s' := by
  have hmutex := step_mutex p a s s' h.mutex hstep
  rcases step_cases hstep with ⟨i, _, hturn⟩ | ⟨hstore, _, _, hworkers, _⟩
  · exact ⟨hmutex, turn_counted h hturn, turn_placed h hturn⟩
  · refine ⟨hmutex, ?_, ?_⟩
    · rw [hstore]; exact h.counted
    · rw [hstore, hworkers]; exact h.placed

theorem booked_begin {store : UrlStore} (h : store.uniqueUrlCount = stored store)
    (dc : Option (Nat → List CrawlTarget)) (calls : List (List Call)) :
    Booked (begin' store dc calls) := by
  refine ⟨mutex_begin store dc calls, h, ?_⟩
  intro j w hw
  obtain ⟨cs, _, rfl⟩ := List.mem_map.mp (List.mem_of_getElem? hw)
  trivial

/-! ## The condition on a check -/

/-- The request that a worker takes up with its next turn. -/
def upNext (w : Worker) : Option Request :=
  match w.phase, w.calls with
  | .idle, .single r :: _ => some r
  | .looping (r :: _) _, _ => some r
  | _, _ => none

/-- What a call finds that goes on to insert its URL. -/
def PassesCheck (p : Policy) (r : Request) (s : System) : Prop :=
  s.locks (requestShard r) = none ∧ findUrlData (lowercaseUrl r.url) s.store = none ∧
    priorityOf p r < PRIORITY_BUCKETS ∧ isNsfwUrl p (lowercaseUrl r.url) = false ∧
    s.store.uniqueUrlCount < MAX_STORE_URLS

instance (p : Policy) (r : Request) (s : System) : Decidable (PassesCheck p r s) :=
  inferInstanceAs (Decidable (_ ∧ _))

/-- The worker takes up a call that will insert its URL. -/
def Checks (p : Policy) (a : Action) (s : System) : Bool :=
  match a with
  | .work i => ((s.workers[i]?).bind upNext).any fun r => PassesCheck p r s
  | _ => false

/-- A call that passes the check finds a free place for itself, besides one for each call
between its check and its insertion. -/
def HasPlace (p : Policy) (a : Action) (s : System) : Prop :=
  Checks p a s = true → s.store.uniqueUrlCount + total pending s.workers < MAX_STORE_URLS

instance (p : Policy) (a : Action) (s : System) : Decidable (HasPlace p a s) :=
  inferInstanceAs (Decidable (_ → _))

theorem upNext_eq {w : Worker} {calls : List Call} {caller : Caller} {r : Request}
    (h : Next w calls caller r) : upNext w = some r := by
  cases h <;> rfl

theorem pending_next {w : Worker} {calls : List Call} {caller : Caller} {r : Request}
    (h : Next w calls caller r) : pending w = 0 := by
  cases h <;> rfl

/-- The places that are taken, and those that calls will take without another check. -/
def taken (s : System) : Nat := s.store.uniqueUrlCount + total pending s.workers

theorem turn_taken (hcap : taken s ≤ MAX_STORE_URLS) (hplace : HasPlace p (.work i) s)
    (hb : Booked s) (hturn : Turn p i s s') : taken s' ≤ MAX_STORE_URLS := by
  have hkeep {w w' : Worker} (hw : s.workers[i]? = some w) (heq : pending w' = pending w) :
      s.store.uniqueUrlCount + total pending (s.workers.set i w') ≤ MAX_STORE_URLS := by
    rw [total_keep pending hw heq]
    exact hcap
  cases hturn with
  | known hw hn hfree hfind => exact hkeep hw (pending_next hn).symm
  | dropped hw hn hfree hfind hwhy => exact hkeep hw (pending_next hn).symm
  | unknown hw hn hfree hfind hpass =>
    have hchecks : Checks p (.work i) s = true := by
      simp [Checks, hw, upNext_eq hn, PassesCheck, hfree, hfind, hpass]
    have hlt := hplace hchecks
    show s.store.uniqueUrlCount + total pending (s.workers.set i _) ≤ MAX_STORE_URLS
    rw [total_gain pending hw (c := 1) (by rw [pending_next hn]; rfl)]
    omega
  | insert hw hfind =>
    show s.store.uniqueUrlCount + 1 + total pending (s.workers.set i _) ≤ MAX_STORE_URLS
    rw [Nat.add_assoc, total_lose pending hw rfl]
    exact hcap
  | overtaken hw hfind =>
    have hnone := hb.placed _ _ hw
    rw [Placed, hfind] at hnone
    cases hnone
  | anchor hw =>
    show (addAnchor _ _ _ _).uniqueUrlCount + total pending (s.workers.set i _) ≤ MAX_STORE_URLS
    rw [addAnchor_uniqueUrlCount]
    exact hkeep hw rfl
  | startBatch hw | endLoop hw | leave hw | single hw | putBy hw | pushBucket hw | endPush hw =>
    exact hkeep hw rfl

theorem taken_step (p : Policy) (a : Action) (s s' : System)
    (h : Booked s ∧ taken s ≤ MAX_STORE_URLS) (hplace : HasPlace p a s)
    (hstep : step p a s = some s') : Booked s' ∧ taken s' ≤ MAX_STORE_URLS := by
  refine ⟨booked_step p a s s' h.1 hstep, ?_⟩
  rcases step_cases hstep with ⟨i, rfl, hturn⟩ | ⟨hstore, _, _, hworkers, _⟩
  · exact turn_taken h.2 hplace h.1 hturn
  · unfold taken
    rw [hstore, hworkers]
    exact h.2

/-! ## A check without a place -/

theorem insert_moves (h : Booked s) {calls : List Call} {caller : Caller} {r : Request}
    (hw : s.workers[i]? = some ⟨calls, .unknown caller r⟩) :
    ∃ s', step p (.work i) s = some s' ∧
      s'.store.uniqueUrlCount = s.store.uniqueUrlCount + 1 ∧
      1 + total pending s'.workers = total pending s.workers := by
  have hfind : findUrlData (lowercaseUrl r.url) s.store = none := h.placed _ _ hw
  rw [step_work]
  unfold workerStep
  simp only [hw, addUrlUnlocked, hfind]
  exact ⟨_, rfl, rfl, total_lose pending hw rfl⟩

/-- The calls that have checked can all insert their URLs, whatever the counter says then. -/
theorem pending_insert (p : Policy) (n : Nat) (s : System) (h : Booked s)
    (hn : total pending s.workers = n) :
    ∃ more s', exec (step p) more s = some s' ∧
      s'.store.uniqueUrlCount = s.store.uniqueUrlCount + n := by
  induction n generalizing s with
  | zero => exact ⟨[], s, rfl, rfl⟩
  | succ n ih =>
    obtain ⟨w, hmem, hpending⟩ : ∃ w ∈ s.workers, pending w ≠ 0 := by
      by_contra hnone
      push Not at hnone
      rw [total_eq_zero pending hnone] at hn
      cases hn
    obtain ⟨i, hw⟩ := List.mem_iff_getElem?.mp hmem
    obtain ⟨calls, phase⟩ := w
    cases phase with
    | unknown caller r =>
      obtain ⟨t, ht, hcount, htotal⟩ := insert_moves (p := p) h hw
      obtain ⟨more, s', hrun, hlast⟩ := ih t (booked_step p _ s t h ht) (by omega)
      refine ⟨.work i :: more, s', ?_, ?_⟩
      · rw [exec, ht, Option.bind_some, hrun]
      · omega
    | idle | looping | counting | returned | pushing => exact absurd rfl hpending

theorem check_moves {r : Request} {w : Worker} (hw : s.workers[i]? = some w)
    (hnext : upNext w = some r) (hpass : PassesCheck p r s) :
    ∃ s', step p (.work i) s = some s' ∧ taken s' = taken s + 1 := by
  obtain ⟨hfree, hfind, hpriority, hclean, hroom⟩ := hpass
  have henter (calls : List Call) (caller : Caller) (hnone : pending w = 0) :
      ∃ s', enter p i calls caller r s = some s' ∧ taken s' = taken s + 1 := by
    unfold enter
    rw [if_neg (not_not.mpr hfree)]
    rcases lookUp_cases p r (priorityOf p r) s.store with
      ⟨data, hsome, _⟩ | ⟨_, hwhy, _⟩ | ⟨_, _, heq⟩
    · rw [hfind] at hsome; cases hsome
    · rcases hwhy with hlow | hnsfw | hfull
      · exact absurd hlow (Nat.not_le_of_lt hpriority)
      · rw [hclean] at hnsfw; cases hnsfw
      · exact absurd hfull (Nat.not_le_of_lt hroom)
    · simp only [heq]
      refine ⟨_, rfl, ?_⟩
      show s.store.uniqueUrlCount + total pending (s.workers.set i _) = _
      rw [total_gain pending hw (c := 1) (by rw [hnone]; rfl)]
      unfold taken
      omega
  obtain ⟨calls, phase⟩ := w
  rw [step_work]
  unfold workerStep
  rw [hw]
  cases phase with
  | idle =>
    cases calls with
    | nil => cases hnext
    | cons call calls =>
      cases call with
      | single r' => cases hnext; exact henter calls .single rfl
      | batch rs => cases hnext
  | looping rest targets =>
    cases rest with
    | nil => cases hnext
    | cons r' rest => cases hnext; exact henter calls (.batch rest targets) rfl
  | unknown | counting | returned | pushing => cases hnext

theorem check_without_place (h : Booked s) {a : Action} (hnot : ¬HasPlace p a s) :
    ∃ more s', exec (step p) more s = some s' ∧ MAX_STORE_URLS < s'.store.uniqueUrlCount := by
  obtain ⟨hchecks, hfull⟩ := Classical.not_imp.mp hnot
  cases a with
  | copyAnchors | writeShard | finish => cases hchecks
  | work i =>
    obtain ⟨r, hr, hpass⟩ := (Option.any_eq_true _ _).mp hchecks
    obtain ⟨w, hw, hnext⟩ := Option.bind_eq_some_iff.mp hr
    obtain ⟨t, ht, htaken⟩ := check_moves hw hnext (of_decide_eq_true hpass)
    obtain ⟨more, s', hrun, hcount⟩ :=
      pending_insert p _ t (booked_step p _ s t h ht) rfl
    refine ⟨.work i :: more, s', ?_, ?_⟩
    · rw [exec, ht, Option.bind_some, hrun]
    · unfold taken at htaken
      omega

/-- The counter is the number of URLs after every run. It stays within the cap while each
check finds a place that no other call has checked for, and after a check that does not,
the run can go on to pass the cap. -/
theorem capacity_holds_while_checks_have_places (p : Policy) (store : UrlStore)
    (hcount : store.uniqueUrlCount = stored store) (hcap : stored store ≤ MAX_STORE_URLS)
    (dc : Option (Nat → List CrawlTarget)) (calls : List (List Call)) (actions : List Action)
    (s : System) (hrun : exec (step p) actions (begin' store dc calls) = some s) :
    s.store.uniqueUrlCount = stored s.store ∧
    (Meets (step p) (HasPlace p) actions (begin' store dc calls) →
      s.store.uniqueUrlCount ≤ MAX_STORE_URLS) ∧
    (¬Meets (step p) (HasPlace p) actions (begin' store dc calls) →
      ∃ k more s', exec (step p) (actions.take k ++ more) (begin' store dc calls) = some s' ∧
        MAX_STORE_URLS < s'.store.uniqueUrlCount) := by
  have hbegin := booked_begin hcount dc calls
  refine ⟨(exec_preserves (booked_step p) hbegin hrun).counted, ?_, ?_⟩
  · intro hmeets
    have htaken : taken (begin' store dc calls) ≤ MAX_STORE_URLS := by
      have hidle : total pending (begin' store dc calls).workers = 0 := by
        apply total_eq_zero
        intro w hw
        obtain ⟨cs, _, rfl⟩ := List.mem_map.mp hw
        rfl
      unfold taken
      rw [hidle, Nat.add_zero]
      exact hcount.symm ▸ hcap
    have hlast := exec_invariant (taken_step p) ⟨hbegin, htaken⟩ hmeets hrun
    exact Nat.le_trans (Nat.le_add_right _ _) hlast.2
  · intro hnot
    obtain ⟨k, a, t, hfirst, _, hbreaks⟩ := exists_not_allowed hnot
    have hbooked := exec_preserves (booked_step p) hbegin hfirst
    obtain ⟨more, s', hmore, hlt⟩ := check_without_place hbooked hbreaks
    refine ⟨k, more, s', ?_, hlt⟩
    rw [exec_append, hfirst, Option.bind_some, hmore]

/-- A call for the URL x, and one for y. -/
def twoCalls : List (List Call) :=
  [[.single ⟨[120], [], 1, 0, 0⟩], [.single ⟨[121], [], 1, 0, 0⟩]]

/-- Both calls read the counter before one of them inserts. -/
def atOnce : List Action := [.work 0, .work 1, .work 1, .work 0]

theorem capacity_holds_for_two_calls_at_once :
    ∃ s, exec (step plainPolicy) atOnce (begin' emptyStore none twoCalls) = some s ∧
      s.store.uniqueUrlCount = 2 ∧ s.store.uniqueUrlCount = stored s.store ∧
      s.store.uniqueUrlCount ≤ MAX_STORE_URLS := by
  have hrun : (exec (step plainPolicy) atOnce (begin' emptyStore none twoCalls)).map
      (fun s => s.store.uniqueUrlCount) = some 2 := by decide +kernel
  have hmeets : Meets (step plainPolicy) (HasPlace plainPolicy) atOnce
      (begin' emptyStore none twoCalls) := by decide +kernel
  have hempty : stored emptyStore = 0 := Finset.sum_eq_zero fun _ _ => rfl
  obtain ⟨s, hs, htwo⟩ := Option.map_eq_some_iff.mp hrun
  obtain ⟨hcount, hcap, _⟩ := capacity_holds_while_checks_have_places plainPolicy emptyStore
    hempty.symm (by rw [hempty]; exact Nat.zero_le _) none twoCalls _ s hs
  exact ⟨s, hs, htwo, hcount, hcap hmeets⟩

/-- The number as six letters. -/
def urlName (n : Nat) : Bytes := (List.range 6).map fun k => UInt8.ofNat (97 + n / 16 ^ k % 16)

/-- A store with as many URLs as asked for. -/
def filled : Nat → UrlStore
  | 0 => emptyStore
  | n + 1 => { setUrlData (urlName n) newUrlData (filled n) with uniqueUrlCount := n + 1 }

theorem urlName_inj {n m : Nat} (hn : n < 16 ^ 6) (hm : m < 16 ^ 6) (h : urlName n = urlName m) :
    n = m := by
  have hdigit (k : Nat) (hk : k < 6) : n / 16 ^ k % 16 = m / 16 ^ k % 16 := by
    have hat := congrArg (fun url => (url[k]?).map UInt8.toNat) h
    simp only [urlName, List.getElem?_map, List.getElem?_range hk, Option.map_some] at hat
    have hnat := Option.some.inj hat
    rw [UInt8.toNat_ofNat', UInt8.toNat_ofNat'] at hnat
    omega
  have h0 := hdigit 0 (by decide)
  have h1 := hdigit 1 (by decide)
  have h2 := hdigit 2 (by decide)
  have h3 := hdigit 3 (by decide)
  have h4 := hdigit 4 (by decide)
  have h5 := hdigit 5 (by decide)
  norm_num at h0 h1 h2 h3 h4 h5 hn hm
  omega

theorem filled_find (n : Nat) (url : Bytes) (h : findUrlData url (filled n) ≠ none) :
    ∃ m, m < n ∧ url = urlName m := by
  induction n with
  | zero => exact absurd (by simp [filled, findUrlData, emptyStore]) h
  | succ n ih =>
    by_cases hurl : url = urlName n
    · exact ⟨n, Nat.lt_succ_self n, hurl⟩
    · rw [filled, findUrlData_mk, findUrlData_setUrlData_of_ne _ _ hurl] at h
      obtain ⟨m, hm, heq⟩ := ih h
      exact ⟨m, Nat.lt_succ_of_lt hm, heq⟩

theorem filled_count (n : Nat) : (filled n).uniqueUrlCount = n := by
  cases n <;> rfl

theorem filled_stored (n : Nat) (hn : n ≤ 16 ^ 6) : stored (filled n) = n := by
  induction n with
  | zero => exact Finset.sum_eq_zero fun _ _ => rfl
  | succ n ih =>
    have hnew : findUrlData (urlName n) (filled n) = none := by
      by_contra hfound
      obtain ⟨m, hm, heq⟩ := filled_find n _ hfound
      exact absurd (urlName_inj hn (Nat.lt_trans hm hn) heq) (Nat.ne_of_gt hm)
    have hsame : stored (filled (n + 1)) = stored (setUrlData (urlName n) newUrlData (filled n)) :=
      stored_congr rfl
    rw [hsame, stored_setUrlData, if_pos hnew, ih (Nat.le_of_succ_le hn)]

theorem filled_short (n : Nat) (b : UInt8) : findUrlData [b] (filled n) = none := by
  by_contra hfound
  obtain ⟨m, _, heq⟩ := filled_find n _ hfound
  have hlen := congrArg List.length heq
  simp [urlName] at hlen

/-- With one place left, both calls pass the check before either inserts. -/
theorem two_calls_pass {store : UrlStore} (hcount : store.uniqueUrlCount + 1 = MAX_STORE_URLS)
    (hx : findUrlData [120] store = none) (hy : findUrlData [121] store = none) :
    ∃ s, exec (step plainPolicy) [.work 0, .work 1, .work 0, .work 1]
        (begin' store none twoCalls) = some s ∧
      s.store.uniqueUrlCount = MAX_STORE_URLS + 1 := by
  have hlowerx : lowercaseUrl [120] = [120] := by decide
  have hlowery : lowercaseUrl [121] = [121] := by decide
  have hshard : shardOf [121] ≠ shardOf [120] := by decide
  have hroom : ¬MAX_STORE_URLS ≤ store.uniqueUrlCount := by omega
  have hne : ([121] : Bytes) ≠ [120] := by decide
  simp [exec, workerStep, enter, lookUp, begin', twoCalls, setWorker, requestShard, hlowerx,
    hlowery, hx, hy, hshard, priorityOf, plainPolicy, isNsfwUrl, PRIORITY_BUCKETS, hroom,
    addUrlUnlocked, findUrlData_mk, findUrlData_setUrlData_of_ne _ _ hne, hcount]

theorem two_calls_take_the_last_place :
    (filled (MAX_STORE_URLS - 1)).uniqueUrlCount = stored (filled (MAX_STORE_URLS - 1)) ∧
    stored (filled (MAX_STORE_URLS - 1)) ≤ MAX_STORE_URLS ∧
    ∃ s, exec (step plainPolicy) [.work 0, .work 1, .work 0, .work 1]
        (begin' (filled (MAX_STORE_URLS - 1)) none twoCalls) = some s ∧
      s.store.uniqueUrlCount = MAX_STORE_URLS + 1 := by
  have hstored := filled_stored (MAX_STORE_URLS - 1) (by decide)
  refine ⟨?_, ?_, ?_⟩
  · rw [filled_count, hstored]
  · rw [hstored]
    exact Nat.sub_le _ _
  · apply two_calls_pass
    · rw [filled_count]
      decide
    · exact filled_short _ _
    · exact filled_short _ _

end seamus.store_capacity
