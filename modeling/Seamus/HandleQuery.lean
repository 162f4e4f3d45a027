-- `IndexManager::handle_query`: a task for each chunk on a `JoinableThreadPool`, under the id of the
-- call, and a collector that the tasks append to. Calls run at the same time and share the pool.
import Seamus.Expressions
import Seamus.JoinableThreadPool
import Seamus.QueryResults

open interleaving seamus.expressions seamus.joinable_thread_pool seamus.query_results

namespace seamus.handle_query

/-! ## The source functions, cut where threads meet -/

/-- What the callable of a task has captured: the call, for its tree and its collector, and the
chunk. -/
structure Capture where
  call : Nat
  chunk : Nat
  deriving DecidableEq

inductive Phase (σ : Type) where
  /-- At the head of the loop over the chunks. -/
  | submitting (chunk : Nat)
  /-- In `pool.join(qid)`. -/
  | joining (joiner : Nat)
  | joined
  | returned (pages : List (LeanPage σ))

/-- A call of `handle_query`. -/
structure Call (σ : Type) where
  query : Bytes
  /-- 0 until it is fetched. -/
  qid : Int
  collector : List (List (LeanPage σ))
  phase : Phase σ

structure System (σ : Type) where
  pool : joinable_thread_pool.System
  nextQueryId : Int
  calls : List (Call σ)
  /-- By the number of the `submit`. -/
  captures : List Capture
  /-- What `chunk_manager::query` appended in each task that has run. None where it threw. -/
  replies : List (Capture × Option (List (LeanPage σ)))

variable {σ : Type} [LinearOrder σ]

def initial (threads : Nat) : System σ := ⟨joinable_thread_pool.initial threads, 0, [], [], []⟩

/-- `parse_query_ast` throws. -/
def isRefused (query : Bytes) : Bool :=
  match parseQueryAst query with
  | .throw _ => true
  | _ => false

/-- The start of `handle_query`. `next_query_id` is an `int`. -/
def call (query : Bytes) (s : System σ) : System σ :=
  if isRefused query then { s with calls := s.calls ++ [⟨query, 0, [], .returned []⟩] }
  else
    { s with
      nextQueryId := (s.nextQueryId + 1).bmod (2 ^ 32)
      calls := s.calls ++ [⟨query, s.nextQueryId, [], .submitting 0⟩] }

def setCall (k : Nat) (c : Call σ) (s : System σ) : System σ :=
  { s with calls := s.calls.set k c }

def hasReturned (joiner : Nat) (pool : joinable_thread_pool.System) : Bool :=
  pool.joiners[joiner]?.any (·.wait = .returned)

variable (CHUNKS : Nat)

/-- The next section of a call. -/
def callStep (k : Nat) (s : System σ) : Option (System σ) :=
  match s.calls[k]? with
  | none => none
  | some c =>
    match c.phase with
    | .submitting chunk =>
      if chunk < CHUNKS then
        some (setCall k { c with phase := .submitting (chunk + 1) }
          { s with pool := submit c.qid s.pool, captures := s.captures ++ [⟨k, chunk⟩] })
      else
        some (setCall k { c with phase := .joining s.pool.joiners.length }
          { s with pool := callJoin c.qid s.pool })
    | .joining joiner =>
      (joinStep joiner s.pool).map fun pool =>
        if hasReturned joiner pool then setCall k { c with phase := .joined } { s with pool }
        else { s with pool }
    | .joined => some (setCall k { c with phase := .returned (handleQuery c.collector) } s)
    | .returned _ => none

/-- `data_channel->append_move`, unless the task has thrown. -/
def append (task : Capture) (reply : Option (List (LeanPage σ))) (s : System σ) : System σ :=
  { s with calls := s.calls.modify task.call fun c =>
      { c with collector := c.collector ++ reply.toList } }

def endingOf (reply : Option (List (LeanPage σ))) : Ending :=
  if reply.isSome then .returned else .thrown

/-- The next section of a worker, with what the chunk gives when it runs a task. -/
def workerStep (w : Nat) (reply : Option (List (LeanPage σ))) (s : System σ) :
    Option (System σ) :=
  match s.pool.workers[w]? with
  | some (.running tt) =>
    match s.captures[tt.fn]? with
    | some task =>
      (joinable_thread_pool.workerStep w (endingOf reply) s.pool).map fun pool =>
        append task reply { s with pool, replies := s.replies ++ [(task, reply)] }
    | none => none
  | _ => (joinable_thread_pool.workerStep w .returned s.pool).map fun pool => { s with pool }

inductive Turn (σ : Type) where
  | call (query : Bytes)
  | go (k : Nat)
  /-- The notification of a `submit`. -/
  | notify (w : Nat)
  | wakeWorker (w : Nat)
  | wakeJoiner (joiner : Nat)
  | work (w : Nat) (reply : Option (List (LeanPage σ)))

def step (turn : Turn σ) (s : System σ) : Option (System σ) :=
  match turn with
  | .call query => some (call query s)
  | .go k => callStep CHUNKS k s
  | .notify w => (notifyOne w s.pool).map fun pool => { s with pool }
  | .wakeWorker w => (wakeWorker w s.pool).map fun pool => { s with pool }
  | .wakeJoiner joiner => (wakeJoiner joiner s.pool).map fun pool => { s with pool }
  | .work w reply => workerStep w reply s

/-! ## The pool under it -/

section Pool

variable {s s' : joinable_thread_pool.System} {turn : joinable_thread_pool.Turn} {w : Nat}
variable {ending : Ending} {tt : TaggedTask}

/-- A turn of the pool in which no task is submitted or run, and no `join` begins or returns. -/
structure Quiet (s s' : joinable_thread_pool.System) : Prop where
  submitted : s'.submitted = s.submitted
  runs : s'.runs = s.runs
  finished : ∀ tt ∈ s.finished, tt ∈ s'.finished
  length : s'.joiners.length = s.joiners.length
  joiners : ∀ (i : Nat) j, s.joiners[i]? = some j → ∃ j', s'.joiners[i]? = some j' ∧
    j'.before = j.before ∧ (j'.wait = .returned → j.wait = .returned)

theorem Quiet.of_joiners (hsubmitted : s'.submitted = s.submitted) (hruns : s'.runs = s.runs)
    (hfinished : ∀ tt ∈ s.finished, tt ∈ s'.finished) (hjoiners : s'.joiners = s.joiners) :
    Quiet s s' :=
  ⟨hsubmitted, hruns, hfinished, congrArg List.length hjoiners,
    fun i j hj => ⟨j, by rw [hjoiners]; exact hj, rfl, id⟩⟩

theorem Quiet.set {k : Nat} {j : Joiner} {wait : Wait} (hj : s.joiners[k]? = some j)
    (hwait : wait ≠ .returned) : Quiet s (setJoiner k { j with wait } s) := by
  refine ⟨rfl, rfl, fun _ => id, List.length_set, fun i j' hj' => ?_⟩
  by_cases heq : k = i
  · subst heq
    cases hj.symm.trans hj'
    exact ⟨_, List.getElem?_set_self (List.getElem?_eq_some_iff.mp hj).1, rfl,
      fun hback => absurd hback hwait⟩
  · exact ⟨j', (List.getElem?_set_ne heq).trans hj', rfl, id⟩

theorem Quiet.woken : Quiet s (setWorker w .awake (notifyJoiners s)) := by
  refine ⟨rfl, rfl, fun _ => id, List.length_map _, fun i j hj => ?_⟩
  refine ⟨j.wake, ?_, wake_before j, wake_returned⟩
  change (s.joiners.map Joiner.wake)[i]? = _
  rw [List.getElem?_map, hj]
  rfl

theorem quiet_of_worker (hw : ∀ tt, s.workers[w]? ≠ some (.running tt))
    (h : joinable_thread_pool.workerStep w ending s = some s') : Quiet s s' := by
  cases workerStep_moves h with
  | run hrunning => exact absurd hrunning (hw _)
  | count hran => exact .of_joiners rfl rfl (fun _ htt => List.mem_append_left _ htt) rfl
  | notifyJoiners hcounted => exact .woken
  | take | sleep | leave => exact .of_joiners rfl rfl (fun _ => id) rfl

theorem quiet_of_notify (h : notifyOne w s = some s') : Quiet s s' := by
  cases notifyOne_moves h <;> exact .of_joiners rfl rfl (fun _ => id) rfl

theorem quiet_of_wakeWorker (h : wakeWorker w s = some s') : Quiet s s' := by
  have hstep : joinable_thread_pool.step (.wakeWorker w) s = some s' := h
  cases joinable_thread_pool.step_moves hstep
  exact .of_joiners rfl rfl (fun _ => id) rfl

theorem quiet_of_wakeJoiner {k : Nat} (h : wakeJoiner k s = some s') : Quiet s s' := by
  cases wakeJoiner_moves h with
  | wakeJoiner hj hasleep => exact .set hj (by simp)

theorem workerStep_running (hw : s.workers[w]? = some (.running tt)) :
    joinable_thread_pool.workerStep w ending s =
      some (setWorker w (.ran tt) { s with runs := s.runs ++ [tt] }) := by
  unfold joinable_thread_pool.workerStep
  rw [hw]
  cases ending <;> rfl

/-- A task has the number of its `submit`. -/
theorem mem_submitted_iff (inv : joinable_thread_pool.Inv s) :
    tt ∈ s.submitted ↔ s.submitted[tt.fn]? = some tt := by
  have hfn : ∀ (i : Nat) (x : TaggedTask), s.submitted[i]? = some x → x.fn = i := by
    intro i x hx
    have hmap : (s.submitted.map TaggedTask.fn)[i]? = some x.fn := by rw [List.getElem?_map, hx]; rfl
    rw [inv.numbered] at hmap
    obtain ⟨hlt, heq⟩ := List.getElem?_eq_some_iff.mp hmap
    rw [List.getElem_range] at heq
    exact heq.symm
  refine ⟨fun h => ?_, List.mem_of_getElem?⟩
  obtain ⟨i, hi⟩ := List.mem_iff_getElem?.mp h
  rw [hfn i tt hi]
  exact hi

theorem mem_runs (inv : joinable_thread_pool.Inv s) (h : tt ∈ s.runs) : tt ∈ s.submitted := by
  rw [← Multiset.mem_coe, ← inv.unrun_add]
  exact Multiset.mem_add.mpr (.inr (Multiset.mem_coe.mpr h))

theorem mem_finished (inv : joinable_thread_pool.Inv s) (h : tt ∈ s.finished) : tt ∈ s.runs := by
  rw [← Multiset.mem_coe, ← inv.uncounted_add]
  exact Multiset.mem_add.mpr (.inr (Multiset.mem_coe.mpr h))

/-- A task that is running has not run before. -/
theorem of_running (inv : joinable_thread_pool.Inv s) (hw : s.workers[w]? = some (.running tt)) :
    tt ∈ s.submitted ∧ tt ∉ s.runs := by
  obtain ⟨rest, htaken⟩ := total_split taken hw
  have hmem : tt ∈ unrun s := by
    unfold unrun
    rw [htaken]
    exact Multiset.mem_add.mpr (.inr (Multiset.mem_add.mpr (.inl (Multiset.mem_singleton_self tt))))
  have hnodup : (unrun s + s.runs).Nodup := by
    rw [inv.unrun_add]
    exact Multiset.coe_nodup.mpr inv.submitted_nodup
  refine ⟨?_, fun hrun => ?_⟩
  · rw [← Multiset.mem_coe, ← inv.unrun_add]
    exact Multiset.mem_add.mpr (.inl hmem)
  · exact Multiset.disjoint_left.mp (Multiset.nodup_add.mp hnodup).2.2 hmem
      (Multiset.mem_coe.mpr hrun)

theorem runs_nodup_fn (inv : joinable_thread_pool.Inv s) : (s.runs.map TaggedTask.fn).Nodup := by
  have hmap : (unrun s).map TaggedTask.fn + (s.runs.map TaggedTask.fn : List Nat) =
      (List.range s.submitted.length : List Nat) := by
    rw [← inv.numbered, ← Multiset.map_coe, ← Multiset.map_coe, ← inv.unrun_add, Multiset.map_add]
  have hnodup : ((unrun s).map TaggedTask.fn + (s.runs.map TaggedTask.fn : List Nat)).Nodup := by
    rw [hmap]
    exact Multiset.coe_nodup.mpr List.nodup_range
  exact Multiset.coe_nodup.mp (Multiset.nodup_add.mp hnodup).2.1

end Pool

/-! ## What a turn can do -/

/-- A worker or a `join` wakes up though nobody has notified it. -/
def Turn.isWake : Turn σ → Bool
  | .wakeWorker _ | .wakeJoiner _ => true
  | _ => false

inductive Moves (s : System σ) : Turn σ → System σ → Prop where
  | call (query : Bytes) : Moves s (.call query) (call query s)
  | submit {k chunk : Nat} {c : Call σ} (hc : s.calls[k]? = some c)
      (hphase : c.phase = .submitting chunk) (hlt : chunk < CHUNKS) :
      Moves s (.go k) (setCall k { c with phase := .submitting (chunk + 1) }
        { s with pool := submit c.qid s.pool, captures := s.captures ++ [⟨k, chunk⟩] })
  | join {k chunk : Nat} {c : Call σ} (hc : s.calls[k]? = some c)
      (hphase : c.phase = .submitting chunk) (hge : CHUNKS ≤ chunk) :
      Moves s (.go k) (setCall k { c with phase := .joining s.pool.joiners.length }
        { s with pool := callJoin c.qid s.pool })
  | joined {k joiner : Nat} {c : Call σ} {j : Joiner} {pool : joinable_thread_pool.System}
      (hc : s.calls[k]? = some c) (hphase : c.phase = .joining joiner)
      (hj : s.pool.joiners[joiner]? = some j)
      (hpool : joinStep joiner s.pool = some pool)
      (hback : pool = setJoiner joiner { j with wait := .returned }
        { s.pool with waitgroups := Function.update s.pool.waitgroups j.id none }) :
      Moves s (.go k) (setCall k { c with phase := .joined } { s with pool })
  | finish {k : Nat} {c : Call σ} (hc : s.calls[k]? = some c) (hphase : c.phase = .joined) :
      Moves s (.go k) (setCall k { c with phase := .returned (handleQuery c.collector) } s)
  | quiet {turn : Turn σ} (poolTurn : joinable_thread_pool.Turn)
      {pool : joinable_thread_pool.System}
      (hpool : joinable_thread_pool.step poolTurn s.pool = some pool) (hquiet : Quiet s.pool pool)
      (hexit : poolTurn ≠ .exit)
      (hadds : ∀ joins, joinable_thread_pool.adds joins poolTurn ≤ bif turn.isWake then 2 else 0) :
      Moves s turn { s with pool }
  | reply {w : Nat} {reply : Option (List (LeanPage σ))} {tt : TaggedTask} {task : Capture}
      {pool : joinable_thread_pool.System} (hw : s.pool.workers[w]? = some (.running tt))
      (htask : s.captures[tt.fn]? = some task)
      (hpool : joinable_thread_pool.workerStep w (endingOf reply) s.pool = some pool)
      (hran : pool = setWorker w (.ran tt) { s.pool with runs := s.pool.runs ++ [tt] }) :
      Moves s (.work w reply)
        (append task reply { s with pool, replies := s.replies ++ [(task, reply)] })

section Turns

variable {CHUNKS : Nat} {s s' : System σ} {turn : Turn σ}

theorem callStep_moves {k : Nat} (h : callStep CHUNKS k s = some s') :
    Moves CHUNKS s (.go k) s' := by
  unfold callStep at h
  cases hc : s.calls[k]? with
  | none =>
    rw [hc] at h
    cases h
  | some c =>
    simp only [hc] at h
    cases hphase : c.phase with
    | submitting chunk =>
      simp only [hphase] at h
      split_ifs at h with hlt <;> cases h
      · exact .submit hc hphase hlt
      · exact .join hc hphase (Nat.le_of_not_lt hlt)
    | joining joiner =>
      simp only [hphase] at h
      obtain ⟨pool, hpool, rfl⟩ := Option.map_eq_some_iff.mp h
      have hmoves := joinStep_moves hpool
      cases hmoves with
      | returnJoin hj hawake hdone =>
        rw [if_pos (by simp [hasReturned, setJoiner, (List.getElem?_eq_some_iff.mp hj).1])]
        exact .joined hc hphase hj hpool rfl
      | sleepJoin hj hawake hdone =>
        rw [if_neg (by simp [hasReturned, setJoiner, (List.getElem?_eq_some_iff.mp hj).1])]
        exact .quiet (.join joiner) hpool (.set hj (by simp)) (by simp)
          fun _ => Nat.zero_le _
    | joined =>
      simp only [hphase] at h
      cases h
      exact .finish hc hphase
    | returned pages =>
      simp only [hphase] at h
      cases h

theorem workerStep_moves {w : Nat} {reply : Option (List (LeanPage σ))}
    (h : workerStep w reply s = some s') : Moves CHUNKS s (.work w reply) s' := by
  unfold workerStep at h
  split at h
  · rename_i tt hw
    split at h
    · rename_i task htask
      obtain ⟨pool, hpool, rfl⟩ := Option.map_eq_some_iff.mp h
      exact .reply hw htask hpool (Option.some.inj (hpool.symm.trans (workerStep_running hw)))
    · cases h
  · rename_i hw
    obtain ⟨pool, hpool, rfl⟩ := Option.map_eq_some_iff.mp h
    exact .quiet (.work w .returned) hpool (quiet_of_worker hw hpool) (by simp)
      fun _ => Nat.zero_le _

theorem step_moves (h : step CHUNKS turn s = some s') : Moves CHUNKS s turn s' := by
  cases turn with
  | call query =>
    cases h
    exact .call query
  | go k => exact callStep_moves h
  | notify w =>
    obtain ⟨pool, hpool, rfl⟩ := Option.map_eq_some_iff.mp h
    exact .quiet (.notify w) hpool (quiet_of_notify hpool) (by simp)
      fun _ => Nat.zero_le _
  | wakeWorker w =>
    obtain ⟨pool, hpool, rfl⟩ := Option.map_eq_some_iff.mp h
    exact .quiet (.wakeWorker w) hpool (quiet_of_wakeWorker hpool) (by simp)
      fun _ => Nat.le_refl 2
  | wakeJoiner joiner =>
    obtain ⟨pool, hpool, rfl⟩ := Option.map_eq_some_iff.mp h
    exact .quiet (.wakeJoiner joiner) hpool (quiet_of_wakeJoiner hpool) (by simp)
      fun _ => Nat.le_refl 2
  | work w reply => exact workerStep_moves h

end Turns

/-! ## The invariant -/

/-- The tasks of a call are those for the chunks before one. -/
def Submitted (s : System σ) (k chunk : Nat) : Prop := ∀ i, ⟨k, i⟩ ∈ s.captures ↔ i < chunk

/-- All tasks of a call are in a list. -/
def AllIn (s : System σ) (k : Nat) (c : Call σ) (tasks : List TaggedTask) : Prop :=
  ∀ fn task, s.captures[fn]? = some task → task.call = k → ⟨c.qid, fn⟩ ∈ tasks

def PhaseInv (CHUNKS : Nat) (s : System σ) (k : Nat) (c : Call σ) : Prop :=
  match c.phase with
  | .submitting chunk => isRefused c.query = false ∧ chunk ≤ CHUNKS ∧ Submitted s k chunk
  | .joining joiner => isRefused c.query = false ∧ Submitted s k CHUNKS ∧
      ∃ j, s.pool.joiners[joiner]? = some j ∧ AllIn s k c j.before
  | .joined => isRefused c.query = false ∧ Submitted s k CHUNKS ∧ AllIn s k c s.pool.finished
  | .returned pages =>
    if isRefused c.query then pages = [] ∧ Submitted s k 0
    else Submitted s k CHUNKS ∧ AllIn s k c s.pool.finished ∧ pages = handleQuery c.collector

structure Inv (CHUNKS : Nat) (s : System σ) : Prop where
  pool : joinable_thread_pool.Inv s.pool
  captured : s.captures.length = s.pool.submitted.length
  nodup : s.captures.Nodup
  owned : ∀ (fn : Nat) task, s.captures[fn]? = some task →
    ∃ c, s.calls[task.call]? = some c ∧ ⟨c.qid, fn⟩ ∈ s.pool.submitted
  replied : s.replies.map Prod.fst = (s.pool.runs.map TaggedTask.fn).filterMap (s.captures[·]?)
  collectors : ∀ (k : Nat) c, s.calls[k]? = some c →
    c.collector = (s.replies.filter (·.1.call = k)).filterMap Prod.snd
  phases : ∀ (k : Nat) c, s.calls[k]? = some c → PhaseInv CHUNKS s k c

theorem inv_initial (CHUNKS threads : Nat) : Inv CHUNKS (initial threads : System σ) where
  pool := joinable_thread_pool.inv_initial threads
  captured := rfl
  nodup := List.nodup_nil
  owned _ _ h := nomatch h
  replied := rfl
  collectors _ _ h := nomatch h
  phases _ _ h := nomatch h

/-- The collector and the tree of the call are on the stack of `handle_query`. -/
def Phase.isWaiting : Phase σ → Bool
  | .submitting _ | .joining _ => true
  | .joined | .returned _ => false

/-- What a turn leaves a call that it is not about. -/
structure Grows (s s' : System σ) (k : Nat) : Prop where
  captures : ∀ (fn : Nat) task, task.call = k →
    (s'.captures[fn]? = some task ↔ s.captures[fn]? = some task)
  finished : ∀ tt ∈ s.pool.finished, tt ∈ s'.pool.finished
  joiners : ∀ (i : Nat) j, s.pool.joiners[i]? = some j →
    ∃ j', s'.pool.joiners[i]? = some j' ∧ j'.before = j.before

section Invariant

variable {CHUNKS : Nat} {s s' : System σ} {turn : Turn σ} {k : Nat} {c : Call σ}

omit [LinearOrder σ] in
theorem Grows.submitted (h : Grows s s' k) {chunk : Nat} (hs : Submitted s k chunk) :
    Submitted s' k chunk := by
  intro i
  rw [← hs i, List.mem_iff_getElem?, List.mem_iff_getElem?]
  exact exists_congr fun fn => h.captures fn ⟨k, i⟩ rfl

omit [LinearOrder σ] in
theorem Grows.allIn (h : Grows s s' k) {tasks tasks' : List TaggedTask}
    (hsub : ∀ tt ∈ tasks, tt ∈ tasks') (hs : AllIn s k c tasks) : AllIn s' k c tasks' :=
  fun fn task hfn hcall => hsub _ (hs fn task ((h.captures fn task hcall).mp hfn) hcall)

theorem Grows.phase (h : Grows s s' k) {c' : Call σ} (hs : PhaseInv CHUNKS s k c)
    (hphase : c'.phase = c.phase) (hquery : c'.query = c.query) (hqid : c'.qid = c.qid)
    (hcollector : ∀ pages, c.phase = .returned pages → isRefused c.query = false →
      c'.collector = c.collector) : PhaseInv CHUNKS s' k c' := by
  have hallIn : ∀ tasks, AllIn s' k c tasks → AllIn s' k c' tasks := by
    intro tasks hall
    unfold AllIn
    rw [hqid]
    exact hall
  unfold PhaseInv at hs ⊢
  rw [hphase, hquery]
  cases hc : c.phase with
  | submitting chunk =>
    simp only [hc] at hs ⊢
    exact ⟨hs.1, hs.2.1, h.submitted hs.2.2⟩
  | joining joiner =>
    simp only [hc] at hs ⊢
    obtain ⟨hr, hsubmitted, j, hj, hall⟩ := hs
    obtain ⟨j', hj', hbefore⟩ := h.joiners joiner j hj
    refine ⟨hr, h.submitted hsubmitted, j', hj', hallIn _ ?_⟩
    rw [hbefore]
    exact h.allIn (fun _ => id) hall
  | joined =>
    simp only [hc] at hs ⊢
    exact ⟨hs.1, h.submitted hs.2.1, hallIn _ (h.allIn h.finished hs.2.2)⟩
  | returned pages =>
    simp only [hc] at hs ⊢
    cases hr : isRefused c.query with
    | true =>
      simp only [hr, if_true] at hs ⊢
      exact ⟨hs.1, h.submitted hs.2⟩
    | false =>
      simp only [hr, Bool.false_eq_true, if_false] at hs ⊢
      rw [hcollector pages hc hr]
      exact ⟨h.submitted hs.1, hallIn _ (h.allIn h.finished hs.2.1), hs.2.2⟩

/-- The number of a task that has run is that of a capture. -/
theorem Inv.captured_of_run (inv : Inv CHUNKS s) {tt : TaggedTask} (h : tt ∈ s.pool.submitted) :
    tt.fn < s.captures.length := by
  rw [inv.captured]
  exact (List.getElem?_eq_some_iff.mp ((mem_submitted_iff inv.pool).mp h)).1

theorem Inv.mem_replies_iff (inv : Inv CHUNKS s) (task : Capture) :
    task ∈ s.replies.map Prod.fst ↔
      ∃ tt ∈ s.pool.runs, s.captures[tt.fn]? = some task := by
  rw [inv.replied]
  simp

/-- A call that is not yet there has no tasks, and nothing has been appended for it. -/
theorem Inv.fresh (inv : Inv CHUNKS s) (hk : s.calls[k]? = none) :
    Submitted s k 0 ∧ s.replies.filter (·.1.call = k) = [] := by
  have hnone : ∀ (fn : Nat) task, s.captures[fn]? = some task → task.call ≠ k := by
    rintro fn task hfn rfl
    obtain ⟨c, hc, _⟩ := inv.owned fn task hfn
    rw [hk] at hc
    cases hc
  refine ⟨fun i => ⟨fun hmem => ?_, fun h => absurd h (Nat.not_lt_zero i)⟩, ?_⟩
  · obtain ⟨fn, hfn⟩ := List.mem_iff_getElem?.mp hmem
    exact absurd rfl (hnone fn _ hfn)
  · rw [List.filter_eq_nil_iff]
    rintro ⟨task, reply⟩ hmem
    obtain ⟨tt, _, htt⟩ := (inv.mem_replies_iff task).mp (List.mem_map_of_mem hmem)
    exact fun heq => hnone tt.fn task htt (of_decide_eq_true heq)

theorem Inv.called (inv : Inv CHUNKS s) (query : Bytes) : Inv CHUNKS (call query s) := by
  obtain ⟨hnone, hreplies⟩ := inv.fresh (k := s.calls.length) (List.getElem?_eq_none (Nat.le_refl _))
  have hgrows (k : Nat) : Grows s (call query s) k := by
    unfold call
    split_ifs <;> exact ⟨fun _ _ _ => Iff.rfl, fun _ => id, fun _ j hj => ⟨j, hj, rfl⟩⟩
  have hcalls : ∃ c : Call σ, (call query s).calls = s.calls ++ [c] ∧ c.collector = [] ∧
      PhaseInv CHUNKS (call query s) s.calls.length c := by
    unfold call
    cases hr : isRefused query with
    | true =>
      refine ⟨⟨query, 0, [], .returned []⟩, rfl, rfl, ?_⟩
      simp only [PhaseInv, hr, if_true]
      exact ⟨trivial, hnone⟩
    | false =>
      refine ⟨⟨query, s.nextQueryId, [], .submitting 0⟩, rfl, rfl, ?_⟩
      exact ⟨hr, Nat.zero_le _, hnone⟩
  obtain ⟨new, hcalls, hcollector, hphase⟩ := hcalls
  have hpool : (call query s).pool = s.pool := by unfold call; split_ifs <;> rfl
  have hcaptures : (call query s).captures = s.captures := by unfold call; split_ifs <;> rfl
  have hsame : (call query s).replies = s.replies := by unfold call; split_ifs <;> rfl
  refine ⟨hpool ▸ inv.pool, ?_, hcaptures ▸ inv.nodup, ?_, ?_, fun k c hc => ?_, fun k c hc => ?_⟩
  · rw [hpool, hcaptures]
    exact inv.captured
  · intro fn task hfn
    rw [hcaptures] at hfn
    obtain ⟨c, hc, hmem⟩ := inv.owned fn task hfn
    refine ⟨c, ?_, hpool ▸ hmem⟩
    rw [hcalls]
    exact (List.getElem?_append_left (List.getElem?_eq_some_iff.mp hc).1).trans hc
  · rw [hpool, hcaptures, hsame]
    exact inv.replied
  · rw [hsame]
    rw [hcalls] at hc
    rcases getElem?_concat_cases hc with hold | ⟨rfl, rfl⟩
    · exact inv.collectors k c hold
    · rw [hcollector, hreplies]
      rfl
  · rw [hcalls] at hc
    rcases getElem?_concat_cases hc with hold | ⟨rfl, rfl⟩
    · exact (hgrows k).phase (inv.phases k c hold) rfl rfl rfl fun _ _ _ => rfl
    · exact hphase

/-- A call goes on, and the pool with it, where nothing runs. -/
theorem Inv.moved (inv : Inv CHUNKS s) {c' : Call σ} {pool : joinable_thread_pool.System}
    (hc : s.calls[k]? = some c) (hqid : c'.qid = c.qid) (hcollector : c'.collector = c.collector)
    (hpool : joinable_thread_pool.Inv pool) (hsubmitted : pool.submitted = s.pool.submitted)
    (hruns : pool.runs = s.pool.runs) (hgrows : ∀ i, Grows s (setCall k c' { s with pool }) i)
    (hphase : PhaseInv CHUNKS (setCall k c' { s with pool }) k c') :
    Inv CHUNKS (setCall k c' { s with pool }) := by
  refine ⟨hpool, ?_, inv.nodup, fun fn task hfn => ?_, ?_, fun j c'' hj => ?_, fun j c'' hj => ?_⟩
  · exact inv.captured.trans (congrArg List.length hsubmitted).symm
  · obtain ⟨m, hm, hmem⟩ := inv.owned fn task hfn
    change ∃ c, (s.calls.set k c')[task.call]? = some c ∧ ⟨c.qid, fn⟩ ∈ pool.submitted
    rw [hsubmitted]
    by_cases heq : task.call = k
    · subst heq
      cases hc.symm.trans hm
      refine ⟨c', List.getElem?_set_self (List.getElem?_eq_some_iff.mp hc).1, ?_⟩
      rw [hqid]
      exact hmem
    · exact ⟨m, (List.getElem?_set_ne (Ne.symm heq)).trans hm, hmem⟩
  · exact inv.replied.trans (congrArg (fun runs : List TaggedTask =>
      (runs.map TaggedTask.fn).filterMap (s.captures[·]?)) hruns.symm)
  · rcases getElem?_set_cases hj with ⟨rfl, rfl⟩ | ⟨_, hold⟩
    · exact hcollector.trans (inv.collectors j c hc)
    · exact inv.collectors j c'' hold
  · rcases getElem?_set_cases hj with ⟨rfl, rfl⟩ | ⟨_, hold⟩
    · exact hphase
    · exact (hgrows j).phase (inv.phases j c'' hold) rfl rfl rfl fun _ _ _ => rfl

theorem Inv.submitted (inv : Inv CHUNKS s) {chunk : Nat} (hc : s.calls[k]? = some c)
    (hphase : c.phase = .submitting chunk) (hlt : chunk < CHUNKS) :
    Inv CHUNKS (setCall k { c with phase := .submitting (chunk + 1) }
      { s with pool := submit c.qid s.pool, captures := s.captures ++ [⟨k, chunk⟩] }) := by
  have hk : k < s.calls.length := (List.getElem?_eq_some_iff.mp hc).1
  have hmine := inv.phases k c hc
  simp only [PhaseInv, hphase] at hmine
  obtain ⟨hr, _, hchunks⟩ := hmine
  have hnew : (⟨k, chunk⟩ : Capture) ∉ s.captures :=
    fun hmem => Nat.lt_irrefl chunk ((hchunks chunk).mp hmem)
  have hold (fn : Nat) (task : Capture) (hne : task ≠ ⟨k, chunk⟩) :
      (s.captures ++ [⟨k, chunk⟩])[fn]? = some task ↔ s.captures[fn]? = some task := by
    refine ⟨fun h => ?_, fun h => ?_⟩
    · rcases getElem?_concat_cases h with hold | ⟨_, heq⟩
      · exact hold
      · exact absurd heq hne
    · exact (List.getElem?_append_left (List.getElem?_eq_some_iff.mp h).1).trans h
  have hgrows (i : Nat) (hi : i ≠ k) : Grows s (setCall k { c with phase := .submitting (chunk + 1) }
      { s with pool := submit c.qid s.pool, captures := s.captures ++ [⟨k, chunk⟩] }) i :=
    ⟨fun fn task hcall => hold fn task fun heq => hi (by rw [← hcall, heq]), fun _ => id,
      fun _ j hj => ⟨j, hj, rfl⟩⟩
  refine ⟨inv_submit c.qid inv.pool, ?_, ?_, fun fn task hfn => ?_, ?_, fun j c' hj => ?_,
    fun j c' hj => ?_⟩
  · change (s.captures ++ [_]).length = (s.pool.submitted ++ [_]).length
    rw [List.length_append, List.length_append, inv.captured]
    rfl
  · refine List.nodup_append.mpr ⟨inv.nodup, List.nodup_singleton _, ?_⟩
    rintro task htask _ hnew' rfl
    rw [List.mem_singleton.mp hnew'] at htask
    exact hnew htask
  · change ∃ m, (s.calls.set k { c with phase := .submitting (chunk + 1) })[task.call]? = some m ∧
      ⟨m.qid, fn⟩ ∈ s.pool.submitted ++ [⟨c.qid, s.pool.submitted.length⟩]
    rcases getElem?_concat_cases hfn with hfn | ⟨rfl, rfl⟩
    · obtain ⟨m, hm, hmem⟩ := inv.owned fn task hfn
      by_cases heq : task.call = k
      · subst heq
        cases hc.symm.trans hm
        exact ⟨_, List.getElem?_set_self hk, List.mem_append_left _ hmem⟩
      · exact ⟨m, (List.getElem?_set_ne (Ne.symm heq)).trans hm, List.mem_append_left _ hmem⟩
    · refine ⟨_, List.getElem?_set_self hk, ?_⟩
      rw [inv.captured]
      exact List.mem_append_right _ (List.mem_singleton_self _)
  · refine inv.replied.trans (List.filterMap_congr fun fn hfn => ?_)
    obtain ⟨tt, htt, rfl⟩ := List.mem_map.mp hfn
    exact (List.getElem?_append_left (inv.captured_of_run (mem_runs inv.pool htt))).symm
  · rcases getElem?_set_cases hj with ⟨rfl, rfl⟩ | ⟨_, hother⟩
    · exact inv.collectors j c hc
    · exact inv.collectors j c' hother
  · rcases getElem?_set_cases hj with ⟨rfl, rfl⟩ | ⟨hne, hother⟩
    · refine ⟨hr, hlt, fun i => ?_⟩
      change ⟨j, i⟩ ∈ s.captures ++ [⟨j, chunk⟩] ↔ i < chunk + 1
      rw [List.mem_append, hchunks i, List.mem_singleton, Nat.lt_succ_iff_lt_or_eq]
      simp
    · exact (hgrows j hne).phase (inv.phases j c' hother) rfl rfl rfl fun _ _ _ => rfl

/-- The `join` of a call waits for all tasks of the call. -/
theorem Inv.joining (inv : Inv CHUNKS s) {chunk : Nat} (hc : s.calls[k]? = some c)
    (hphase : c.phase = .submitting chunk) (hge : CHUNKS ≤ chunk) :
    Inv CHUNKS (setCall k { c with phase := .joining s.pool.joiners.length }
      { s with pool := callJoin c.qid s.pool }) := by
  have hmine := inv.phases k c hc
  simp only [PhaseInv, hphase] at hmine
  obtain ⟨hr, hle, hchunks⟩ := hmine
  cases Nat.le_antisymm hle hge
  refine inv.moved hc rfl rfl (inv_callJoin c.qid inv.pool) rfl rfl (fun i => ?_) ?_
  · refine ⟨fun _ _ _ => Iff.rfl, fun _ => id, fun i j hj => ⟨j, ?_, rfl⟩⟩
    exact (List.getElem?_append_left (List.getElem?_eq_some_iff.mp hj).1).trans hj
  · refine ⟨hr, hchunks, ⟨c.qid, s.pool.submitted.filter (·.id = c.qid), .awake⟩, ?_, ?_⟩
    · exact List.getElem?_concat_length
    · intro fn task hfn hcall
      obtain ⟨m, hm, hmem⟩ := inv.owned fn task hfn
      rw [hcall] at hm
      cases hc.symm.trans hm
      exact List.mem_filter.mpr ⟨hmem, decide_eq_true rfl⟩

/-- A call that comes out of its `join` has all its tasks behind it. -/
theorem Inv.joined (inv : Inv CHUNKS s) {joiner : Nat} {j : Joiner}
    {pool : joinable_thread_pool.System}
    (hc : s.calls[k]? = some c) (hphase : c.phase = .joining joiner)
    (hj : s.pool.joiners[joiner]? = some j) (hpool : joinStep joiner s.pool = some pool)
    (hback : pool = setJoiner joiner { j with wait := .returned }
      { s.pool with waitgroups := Function.update s.pool.waitgroups j.id none }) :
    Inv CHUNKS (setCall k { c with phase := .joined } { s with pool }) := by
  have hmine := inv.phases k c hc
  simp only [PhaseInv, hphase] at hmine
  obtain ⟨hr, hchunks, j', hj', hall⟩ := hmine
  cases hj.symm.trans hj'
  have hstep : joinable_thread_pool.step (.join joiner) s.pool = some pool := hpool
  have hinv : joinable_thread_pool.Inv pool := joinable_thread_pool.inv_step inv.pool hstep
  have hk : joiner < s.pool.joiners.length := (List.getElem?_eq_some_iff.mp hj).1
  subst hback
  refine inv.moved hc rfl rfl hinv rfl rfl (fun i => ?_) ⟨hr, hchunks, ?_⟩
  · refine ⟨fun _ _ _ => Iff.rfl, fun _ => id, fun i m hm => ?_⟩
    by_cases heq : joiner = i
    · subst heq
      cases hj.symm.trans hm
      exact ⟨_, List.getElem?_set_self hk, rfl⟩
    · exact ⟨m, (List.getElem?_set_ne heq).trans hm, rfl⟩
  · intro fn task hfn hcall
    have hmem : { j with wait := .returned } ∈
        s.pool.joiners.set joiner { j with wait := .returned } :=
      List.mem_of_getElem? (List.getElem?_set_self hk)
    exact hinv.joined _ hmem rfl _ (hall fn task hfn hcall)

theorem Inv.finished (inv : Inv CHUNKS s) (hc : s.calls[k]? = some c)
    (hphase : c.phase = .joined) :
    Inv CHUNKS (setCall k { c with phase := .returned (handleQuery c.collector) } s) := by
  have hmine := inv.phases k c hc
  simp only [PhaseInv, hphase] at hmine
  refine inv.moved hc rfl rfl inv.pool rfl rfl (fun i => ?_) ?_
  · exact ⟨fun _ _ _ => Iff.rfl, fun _ => id, fun _ j hj => ⟨j, hj, rfl⟩⟩
  · simp only [PhaseInv, hmine.1, Bool.false_eq_true, if_false]
    exact ⟨hmine.2.1, hmine.2.2, trivial⟩

theorem Inv.quiet (inv : Inv CHUNKS s) {poolTurn : joinable_thread_pool.Turn}
    {pool : joinable_thread_pool.System}
    (hpool : joinable_thread_pool.step poolTurn s.pool = some pool) (hquiet : Quiet s.pool pool) :
    Inv CHUNKS { s with pool } := by
  have hgrows (i : Nat) : Grows s { s with pool } i := by
    refine ⟨fun _ _ _ => Iff.rfl, hquiet.finished, fun i j hj => ?_⟩
    obtain ⟨j', hj', hbefore, _⟩ := hquiet.joiners i j hj
    exact ⟨j', hj', hbefore⟩
  refine ⟨joinable_thread_pool.inv_step inv.pool hpool, ?_, inv.nodup, fun fn task hfn => ?_, ?_,
    inv.collectors, fun j c hj => ?_⟩
  · rw [hquiet.submitted]
    exact inv.captured
  · rw [hquiet.submitted]
    exact inv.owned fn task hfn
  · rw [hquiet.runs]
    exact inv.replied
  · exact (hgrows j).phase (inv.phases j c hj) rfl rfl rfl fun _ _ _ => rfl

/-- The call of a running task waits. -/
theorem Inv.waiting (inv : Inv CHUNKS s) {w : Nat} {tt : TaggedTask} {task : Capture}
    (hw : s.pool.workers[w]? = some (.running tt)) (htask : s.captures[tt.fn]? = some task) :
    ∃ c, s.calls[task.call]? = some c ∧ c.phase.isWaiting = true := by
  obtain ⟨hsubmitted, hfresh⟩ := of_running inv.pool hw
  obtain ⟨c, hc, hmem⟩ := inv.owned tt.fn task htask
  have heq : tt = ⟨c.qid, tt.fn⟩ := by
    have hone := (mem_submitted_iff inv.pool).mp hmem
    exact Option.some.inj (((mem_submitted_iff inv.pool).mp hsubmitted).symm.trans hone)
  have hnot : ¬AllIn s task.call c s.pool.finished := fun hall =>
    hfresh (mem_finished inv.pool (heq ▸ hall tt.fn task htask rfl))
  have hnone : ¬Submitted s task.call 0 := fun hs =>
    Nat.not_lt_zero _ ((hs task.chunk).mp (List.mem_of_getElem? htask))
  refine ⟨c, hc, ?_⟩
  have hphase := inv.phases task.call c hc
  unfold PhaseInv at hphase
  cases hcase : c.phase with
  | submitting chunk => rfl
  | joining joiner => rfl
  | joined =>
    simp only [hcase] at hphase
    exact absurd hphase.2.2 hnot
  | returned pages =>
    simp only [hcase] at hphase
    split_ifs at hphase
    · exact absurd hphase.2 hnone
    · exact absurd hphase.2.1 hnot

omit [LinearOrder σ] in
theorem append_calls {task : Capture} {reply : Option (List (LeanPage σ))} {j : Nat} {c' : Call σ}
    (h : (append task reply s).calls[j]? = some c') :
    ∃ c, s.calls[j]? = some c ∧ c'.phase = c.phase ∧ c'.query = c.query ∧ c'.qid = c.qid ∧
      c'.collector = c.collector ++ if task.call = j then reply.toList else [] := by
  unfold append at h
  simp only [List.getElem?_modify] at h
  obtain ⟨c, hc, rfl⟩ := Option.map_eq_some_iff.mp h
  refine ⟨c, hc, ?_⟩
  split_ifs <;> simp

theorem Inv.ran (inv : Inv CHUNKS s) {w : Nat} {tt : TaggedTask} {task : Capture}
    (reply : Option (List (LeanPage σ))) {pool : joinable_thread_pool.System}
    (hw : s.pool.workers[w]? = some (.running tt)) (htask : s.captures[tt.fn]? = some task)
    (hpool : joinable_thread_pool.workerStep w (endingOf reply) s.pool = some pool)
    (hran : pool = setWorker w (.ran tt) { s.pool with runs := s.pool.runs ++ [tt] }) :
    Inv CHUNKS (append task reply { s with pool, replies := s.replies ++ [(task, reply)] }) := by
  have hstep : joinable_thread_pool.step (.work w (endingOf reply)) s.pool = some pool := hpool
  have hinv : joinable_thread_pool.Inv pool := joinable_thread_pool.inv_step inv.pool hstep
  have hsubmitted : pool.submitted = s.pool.submitted := by rw [hran]; rfl
  have hruns : pool.runs = s.pool.runs ++ [tt] := by rw [hran]; rfl
  have hgrows (i : Nat) :
      Grows s (append task reply { s with pool, replies := s.replies ++ [(task, reply)] }) i := by
    subst hran
    exact ⟨fun _ _ _ => Iff.rfl, fun _ => id, fun _ j hj => ⟨j, hj, rfl⟩⟩
  obtain ⟨m, hm, hwaiting⟩ := inv.waiting hw htask
  refine ⟨hinv, ?_, inv.nodup, fun fn cap hfn => ?_, ?_,
    fun j c' hj => ?_, fun j c' hj => ?_⟩
  · exact inv.captured.trans (congrArg List.length hsubmitted).symm
  · obtain ⟨c, hc, hmem⟩ := inv.owned fn cap hfn
    refine ⟨if task.call = cap.call then { c with collector := c.collector ++ reply.toList } else c,
      ?_, ?_⟩
    · change (s.calls.modify task.call _)[cap.call]? = _
      rw [List.getElem?_modify, hc]
      split_ifs <;> rfl
    · change _ ∈ pool.submitted
      rw [hsubmitted]
      split_ifs <;> exact hmem
  · change (s.replies ++ [(task, reply)]).map Prod.fst =
      (pool.runs.map TaggedTask.fn).filterMap (s.captures[·]?)
    rw [hruns, List.map_append, List.map_append, List.filterMap_append, inv.replied]
    simp [htask]
  · obtain ⟨c, hc, _, _, _, hcollector⟩ := append_calls hj
    rw [hcollector, inv.collectors j c hc]
    change _ = ((s.replies ++ [(task, reply)]).filter (·.1.call = j)).filterMap Prod.snd
    rw [List.filter_append, List.filterMap_append]
    by_cases heq : task.call = j
    · cases reply <;> simp [heq]
    · simp [heq]
  · obtain ⟨c, hc, hphase, hquery, hqid, hcollector⟩ := append_calls hj
    refine (hgrows j).phase (inv.phases j c hc) hphase hquery hqid fun pages hreturned _ => ?_
    have hne : task.call ≠ j := by
      rintro rfl
      cases hc.symm.trans hm
      rw [hreturned] at hwaiting
      cases hwaiting
    rw [hcollector, if_neg hne, List.append_nil]

theorem inv_step (inv : Inv CHUNKS s) (h : step CHUNKS turn s = some s') : Inv CHUNKS s' := by
  cases step_moves h with
  | call query => exact inv.called query
  | submit hc hphase hlt => exact inv.submitted hc hphase hlt
  | join hc hphase hge => exact inv.joining hc hphase hge
  | joined hc hphase hj hpool hback => exact inv.joined hc hphase hj hpool hback
  | finish hc hphase => exact inv.finished hc hphase
  | quiet poolTurn hpool hquiet => exact inv.quiet hpool hquiet
  | reply hw htask hpool hran => exact inv.ran _ hw htask hpool hran

/-- Each task has been run at most once. -/
theorem Inv.replies_nodup (inv : Inv CHUNKS s) : (s.replies.map Prod.fst).Nodup := by
  rw [inv.replied]
  refine (runs_nodup_fn inv.pool).filterMap fun i j task hi hj => ?_
  have hi := List.getElem?_eq_some_iff.mp (Option.mem_def.mp hi)
  have hj := List.getElem?_eq_some_iff.mp (Option.mem_def.mp hj)
  exact (inv.nodup.getElem_inj_iff).mp (hi.2.trans hj.2.symm)

/-- A call that is back has one answer of each chunk. -/
theorem Inv.chunks_of_returned (inv : Inv CHUNKS s) (hsubmitted : Submitted s k CHUNKS)
    (hall : AllIn s k c s.pool.finished) :
    ((s.replies.filter (·.1.call = k)).map fun r => r.1.chunk).Perm (List.range CHUNKS) := by
  have htasks : ((s.replies.filter (·.1.call = k)).map fun r => r.1.chunk) =
      ((s.replies.map Prod.fst).filter (·.call = k)).map Capture.chunk := by
    rw [List.filter_map, List.map_map]
    rfl
  rw [htasks, List.perm_ext_iff_of_nodup _ List.nodup_range]
  · intro i
    rw [List.mem_range, ← hsubmitted i, List.mem_map]
    constructor
    · rintro ⟨task, htask, rfl⟩
      obtain ⟨hmem, hcall⟩ := List.mem_filter.mp htask
      obtain ⟨tt, _, htt⟩ := (inv.mem_replies_iff task).mp hmem
      have hcall : task.call = k := of_decide_eq_true hcall
      subst hcall
      exact List.mem_of_getElem? htt
    · intro hmem
      obtain ⟨fn, hfn⟩ := List.mem_iff_getElem?.mp hmem
      refine ⟨⟨k, i⟩, List.mem_filter.mpr ⟨?_, decide_eq_true rfl⟩, rfl⟩
      exact (inv.mem_replies_iff _).mpr ⟨_, mem_finished inv.pool (hall fn _ hfn rfl), hfn⟩
  · refine (List.Nodup.filter _ inv.replies_nodup).map_on fun x hx y hy heq => ?_
    have hxk : x.call = k := of_decide_eq_true (List.mem_filter.mp hx).2
    have hyk : y.call = k := of_decide_eq_true (List.mem_filter.mp hy).2
    obtain ⟨_, _⟩ := x
    obtain ⟨_, _⟩ := y
    simp_all

end Invariant

/-- The answers of the chunks, in the order of their ends. -/
theorem answers_of_replies {CHUNKS : Nat}
    {replies : List (Capture × Option (List (LeanPage σ)))} {pagesOf : Nat → List (LeanPage σ)}
    (hchunks : (replies.map fun r => r.1.chunk).Perm (List.range CHUNKS))
    (hrank : ∀ r ∈ replies, r.2 = some (rank (pagesOf r.1.chunk))) :
    Answers ((List.range CHUNKS).map pagesOf) (handleQuery (replies.filterMap Prod.snd)) := by
  have hpages : replies.filterMap Prod.snd =
      (replies.map fun r => r.1.chunk).map (rank ∘ pagesOf) := by
    rw [List.filterMap_congr hrank, List.map_map]
    exact congrFun List.filterMap_eq_map' replies
  refine ⟨_, ?_, rfl⟩
  rw [hpages, List.map_map (l := List.range CHUNKS)]
  exact hchunks.map (rank ∘ pagesOf)

/-- Whatever the threads do, on any number of workers, chunks and calls at a time: a task never
runs after its call has left its `join`, and a call returns the best of one answer of each chunk,
where a chunk that threw has none. -/
theorem calls_get_their_chunks {CHUNKS threads : Nat} {turns : List (Turn σ)} {s : System σ}
    (h : exec (step CHUNKS) turns (initial threads) = some s) :
    (∀ (w : Nat) tt, s.pool.workers[w]? = some (.running tt) → ∃ task c,
      s.captures[tt.fn]? = some task ∧ s.calls[task.call]? = some c ∧
        c.phase.isWaiting = true) ∧
    ∀ (k : Nat) c pages, s.calls[k]? = some c → c.phase = .returned pages →
      if isRefused c.query then pages = []
      else
        ((s.replies.filter (·.1.call = k)).map fun r => r.1.chunk).Perm (List.range CHUNKS) ∧
        pages = handleQuery ((s.replies.filter (·.1.call = k)).filterMap Prod.snd) ∧
        ∀ pagesOf : Nat → List (LeanPage σ),
          (∀ r ∈ s.replies, r.1.call = k → r.2 = some (rank (pagesOf r.1.chunk))) →
            Answers ((List.range CHUNKS).map pagesOf) pages := by
  have inv : Inv CHUNKS s :=
    exec_preserves (fun _ _ _ inv hstep => inv_step inv hstep) (inv_initial CHUNKS threads) h
  refine ⟨fun w tt hw => ?_, fun k c pages hc hphase => ?_⟩
  · have hlt := inv.captured_of_run (of_running inv.pool hw).1
    obtain ⟨c, hc, hwaiting⟩ := inv.waiting hw (List.getElem?_eq_getElem hlt)
    exact ⟨_, c, List.getElem?_eq_getElem hlt, hc, hwaiting⟩
  · have hmine := inv.phases k c hc
    simp only [PhaseInv, hphase] at hmine
    split_ifs at hmine with hr
    · rw [if_pos hr]
      exact hmine.1
    · obtain ⟨hsubmitted, hall, hpages⟩ := hmine
      have hchunks := inv.chunks_of_returned hsubmitted hall
      rw [inv.collectors k c hc] at hpages
      rw [if_neg hr]
      refine ⟨hchunks, hpages, fun pagesOf hrank => ?_⟩
      rw [hpages]
      apply answers_of_replies hchunks
      intro r hmem
      obtain ⟨hreply, hcall⟩ := List.mem_filter.mp hmem
      exact hrank r hreply (of_decide_eq_true hcall)

/-- Two calls on two chunks and one worker: the second call sleeps in its `join`, is woken, and is back
before the first. -/
theorem second_call_returns_first :
    let page : LeanPage Nat := ⟨[117], [], 5⟩
    let run (reply : Option (List (LeanPage Nat))) : List (Turn Nat) := List.replicate 4 (.work 0 reply)
    let turns := [Turn.call [97], .call [98], .go 1, .go 1, .go 1, .go 1, .go 0] ++ run none ++
      [.go 1] ++ run (some [page]) ++ [.go 1, .go 1]
    ∃ (s : System Nat) (c : Call Nat), exec (step 2) turns (initial 1) = some s ∧
      s.calls[1]? = some c ∧ c.phase = .returned [page] ∧ isRefused c.query = false ∧
      ((s.replies.filter (·.1.call = 1)).map fun r => r.1.chunk).Perm (List.range 2) := by
  intro page run turns
  have hrun : exec (step 2) turns (initial 1) = some _ := rfl
  have haccepted : isRefused [98] = false := by decide
  have hresult := (calls_get_their_chunks hrun).2 1 _ _ rfl rfl
  rw [if_neg (by rw [haccepted]; exact Bool.false_ne_true)] at hresult
  exact ⟨_, _, hrun, rfl, rfl, haccepted, hresult.1⟩

end seamus.handle_query
